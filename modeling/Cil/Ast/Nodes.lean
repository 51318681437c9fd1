/- Cil/Ast/Nodes
   digest: The syntax tree as nodes that point to one another, how it is built and copied. -/

import Mathlib.Logic.Function.Basic
import Cil.Library.Call
import Cil.Copy.Declarations

/-!
The syntax tree while the resolver changes it: nodes and declaration data are numbers, and a
copy may lie inside what it is a copy of. `κ` is what else a statement says and `σ` what else
the resolver keeps.
-/

set_option autoImplicit false
set_option relaxedAutoImplicit false

namespace Cil.Ast

open Library
open Copy (Decl Dest Namespace Param)

/-- The statements, as far as walks and copies tell them apart. -/
inductive Stmt (κ : Type)
  | root
  | decl (d : Decl)
  | condblock (whenTrue : Bool)
  | tunableif (stmt : κ)
  | booleanif (stmt : κ)
  | call (macroStr : String)
  | blockinherit (blockStr : String)
  | blockabstract (blockStr : String)
  | inStmt (blockStr : String)
  /-- A rule that may stand in a booleanif. -/
  | conditional (stmt : κ)
  | other (stmt : κ)
  /-- A kind the dispatch of `__cil_copy_node_helper` does not know. -/
  | uncopied (stmt : κ)

namespace Stmt

variable {κ : Type}

def isDecl (flavor : Flavor) : Stmt κ → Bool
  | .decl d => d.flavor = flavor
  | _ => false

def isCondblock (whenTrue : Bool) : Stmt κ → Bool
  | .condblock b => b = whenTrue
  | _ => false

end Stmt

/-- `cil_tree_node`. `data` is the number of the declaration's datum, or of the symbol tables
of a condblock or an in statement. -/
structure Node (κ : Type) where
  stmt : Stmt κ
  data : Nat
  parent : Nat
  children : List Nat

/-- What happens to optionals, and to what is destroyed. -/
inductive Event
  /-- A statement of the optional fails to resolve; `sharers` are the other nodes of its datum. -/
  | disabled (opt : Nat) (sharers : List Nat)
  /-- The children of the optional are destroyed, and all that is `below` them. -/
  | destroyed (opt : Nat) (below : List Nat)
  /-- An optional is copied; its datum is enabled or not. -/
  | copied (opt : Nat) (enabled : Bool)
  /-- Nodes are destroyed; something that stays points to what goes, or not. -/
  | freed (dangling : Bool)
  deriving DecidableEq, Repr

/-- The tree, the data, and `cil_args_resolve`. A node that is `dead` has been freed, and so
has a datum whose last node was destroyed. -/
structure State (κ σ : Type) where
  sym : Copy.State
  /-- `datum->nodes`. -/
  declNodes : Nat → List Nat
  nodes : Nat → Node κ
  next : Nat
  dead : Nat → Bool
  /-- `enabled` of the datum of an optional. -/
  enabled : Nat → Bool
  /-- `is_abstract` of the datum of a block. -/
  isAbstract : Nat → Bool
  /-- `block` of a blockinherit. -/
  block : Nat → Option Nat
  /-- `bi_nodes` of the datum of a block. -/
  biNodes : Nat → Option (List Nat)
  /-- `macro` of a call. -/
  callee : Nat → Option Nat
  /-- `copied` of a call. -/
  copied : Nat → Bool
  /-- What the other resolved fields of a node point to: the data of its expression, the `set`
  of a classperms_set, the `actual` of an alias. -/
  refs : Nat → List Nat
  /-- The statements with the objects that the resolved fields of a datum point to: `classperms`
  of a set or of a permission of a class map, `dftlevel` and `range` of a user, `context` of a
  SID, `cats_list` of a sensitivity. -/
  borrowed : Nat → List Nat
  /-- The data in the order lists. -/
  gathered : List Nat
  inList : List Nat
  inMacro : Bool
  inBoolif : Bool
  changed : Bool
  rest : σ
  log : List Event

/-- A call on the tree. -/
abbrev M (κ σ : Type) := Call Rc (State κ σ)

/-- The root, alone. -/
def State.init {κ σ : Type} (rest : σ) : State κ σ where
  sym := .init
  declNodes _ := []
  nodes _ := ⟨.root, 0, 0, []⟩
  next := 1
  dead _ := false
  enabled _ := true
  isAbstract _ := false
  block _ := none
  biNodes _ := none
  callee _ := none
  copied _ := false
  refs _ := []
  borrowed _ := []
  gathered := []
  inList := []
  inMacro := false
  inBoolif := false
  changed := false
  rest := rest
  log := []

namespace State

variable {κ σ : Type} (s : State κ σ)

/-- The datum of an optional. -/
def optional (n : Nat) : Option Nat :=
  if (s.nodes n).stmt.isDecl .optional then some (s.nodes n).data else none

/-- The other optionals in the tree whose datum this is. -/
def sharers (opt id : Nat) : List Nat :=
  (List.range s.next).filter fun n => n ≠ opt ∧ s.dead n = false ∧ s.optional n = some id

/-- The data a node points to. -/
def held (n : Nat) : List Nat := (s.block n).toList ++ (s.callee n).toList ++ s.refs n

/-- The nodes to which, or to whose objects, the fields of a datum point. -/
def pointed (id : Nat) : List Nat := (s.biNodes id).getD [] ++ s.borrowed id

/-- What is left in the tree, and the lists of the resolver, point to data that have a node;
the data that are left point to nodes that are there, and to objects of such nodes. -/
def NoDangling : Prop :=
  (∀ n < s.next, s.dead n = false → ∀ id ∈ s.held n, s.declNodes id ≠ []) ∧
    (∀ id < s.sym.next, s.declNodes id ≠ [] → ∀ n ∈ s.pointed id, s.dead n = false) ∧
      ∀ id ∈ s.gathered, s.declNodes id ≠ []

instance : Decidable s.NoDangling := by
  unfold NoDangling
  infer_instance

/-- Something of a datum is left when nodes go. -/
def Outlives (below : List Nat) (id : Nat) : Prop := ∃ m ∈ s.declNodes id, m ∉ below

instance (below : List Nat) (id : Nat) : Decidable (s.Outlives below id) :=
  inferInstanceAs (Decidable (∃ m ∈ s.declNodes id, m ∉ below))

/-- What is outside some nodes does not point to what goes with them. -/
def Detached (below : List Nat) : Prop :=
  (∀ n < s.next, s.dead n = false → n ∉ below → ∀ id ∈ s.held n, s.Outlives below id) ∧
    (∀ id < s.sym.next, s.Outlives below id → ∀ n ∈ s.pointed id, n ∉ below) ∧
      ∀ id ∈ s.gathered, s.Outlives below id

instance (below : List Nat) : Decidable (s.Detached below) := by
  unfold Detached
  refine @instDecidableAnd _ _ ?_ (@instDecidableAnd _ _ ?_ ?_) <;> infer_instance

section Namespaces

/-- `cil_get_symtab`, for other tables than those of permissions. A condblock in neither a
tunableif nor a booleanif is gone through for ever. -/
def space : Nat → Nat → Option Namespace
  | 0, _ => none
  | fuel + 1, n =>
      let node := s.nodes n
      match node.stmt with
      | .root => some .root
      | .decl d =>
          if d.flavor = .block ∨ d.flavor = .macroDef then some (.ofDatum node.data)
          else space fuel node.parent
      | .inStmt _ => some (.ofCondblock node.data)
      | .condblock _ =>
          match (s.nodes node.parent).stmt with
          | .tunableif _ => some (.ofCondblock node.data)
          | .booleanif _ => space fuel (s.nodes node.parent).parent
          | _ => space fuel n
      | _ => space fuel node.parent

/-- The parameters of the macro that encloses a node before any block does. -/
def scopeParams : Nat → Nat → Option (List Param)
  | 0, _ => none
  | fuel + 1, n =>
      let node := s.nodes n
      match node.stmt with
      | .root => some []
      | .decl d =>
          match d.flavor with
          | .block => some []
          | .macroDef => some (s.sym.data node.data).params
          | _ => scopeParams fuel node.parent
      | _ => scopeParams fuel node.parent

/-- The class, class map or common whose permissions the children of a node are. -/
def permsOf (n : Nat) : Option Nat :=
  match (s.nodes n).stmt with
  | .decl d =>
      match d.flavor with
      | .kernelClass | .mapClass | .common => some (s.nodes n).data
      | _ => none
  | _ => none

/-- Where a declaration copied below a node goes. -/
def destOf (fuel n : Nat) : Option Dest :=
  match s.space fuel n, s.scopeParams fuel n with
  | some ns, some params => some ⟨ns, s.permsOf n, params⟩
  | _, _ => none

/-- Where a declaration built below a node goes: `cil_gen_node` compares it with the
parameters of the macro that is its parent. -/
def builtDestOf (fuel n : Nat) : Option Dest :=
  match s.space fuel n with
  | some ns =>
      some ⟨ns, s.permsOf n,
        if (s.nodes n).stmt.isDecl .macroDef then (s.sym.data (s.nodes n).data).params else []⟩
  | none => none

end Namespaces

/-- A new last child. Its fields are those of a statement that is not resolved. -/
def addNode (dest : Nat) (stmt : Stmt κ) (data : Nat) : State κ σ :=
  { s with
    nodes := Function.update
      (Function.update s.nodes dest
        { s.nodes dest with children := (s.nodes dest).children ++ [s.next] })
      s.next ⟨stmt, data, dest, []⟩
    next := s.next + 1
    block := Function.update s.block s.next none
    callee := Function.update s.callee s.next none
    copied := Function.update s.copied s.next false
    refs := Function.update s.refs s.next [] }

/-- The new node is registered in its datum, which is fresh or there already. -/
def declare (id : Nat) (sym : Copy.State) : State κ σ :=
  { s with
    sym := sym
    declNodes := Function.update s.declNodes id (s.declNodes id ++ [s.next])
    enabled := if id = s.sym.next then Function.update s.enabled id true else s.enabled
    isAbstract := if id = s.sym.next then Function.update s.isAbstract id false else s.isAbstract }

/-- Symbol tables of its own for a new node. -/
def withTables : State κ σ := { s with sym := { s.sym with next := s.sym.next + 1 } }

def noteCopied (id : Nat) (d : Decl) : State κ σ :=
  if d.flavor = .optional then { s with log := s.log ++ [.copied s.next (s.enabled id)] } else s

section Destroying

/-- The nodes below a list of siblings, in the order `cil_tree_children_destroy` destroys
them. -/
def subtree : Nat → List Nat → Option (List Nat)
  | 0, _ => none
  | _ + 1, [] => some []
  | fuel + 1, n :: ns =>
      match subtree fuel (s.nodes n).children, subtree fuel ns with
      | some below, some rest => some (below ++ n :: rest)
      | _, _ => none

/-- `cil_symtab_remove_datum`. -/
def removeDatum (id : Nat) : State κ σ :=
  { s with sym := { s.sym with
      tables := fun ns i key => (s.sym.tables ns i key).filter (· ≠ id) } }

/-- The flavors of nodes that declare something. -/
def flavorsOf (ns : List Nat) : List Flavor :=
  ns.filterMap fun n =>
    match (s.nodes n).stmt with
    | .decl d => some d.flavor
    | _ => none

/-- `cil_symtab_datum_remove_node`. -/
def removeNode (id n : Nat) : State κ σ :=
  let left := (s.declNodes id).erase n
  let datum := { s.sym.data id with nodes := s.flavorsOf left }
  let s' := { s with
    declNodes := Function.update s.declNodes id left
    sym := { s.sym with data := Function.update s.sym.data id datum } }
  if left = [] then s'.removeDatum id else s'

/-- `cil_tree_node_destroy`. -/
def destroyNode (n : Nat) : State κ σ :=
  let s' := { s with dead := Function.update s.dead n true }
  match (s.nodes n).stmt with
  | .decl _ => s'.removeNode (s.nodes n).data n
  | _ => s'

/-- `cil_tree_children_destroy`, with the nodes it destroys. -/
def childrenDestroy (fuel n : Nat) : Option (List Nat × State κ σ) :=
  match s.subtree fuel (s.nodes n).children with
  | none => none
  | some below =>
      let s' := below.foldl destroyNode s
      some (below, { s' with
        nodes := Function.update s'.nodes n { s'.nodes n with children := [] } })

end Destroying

end State

section Building

variable {κ σ : Type}

/-- What `__cil_build_ast_node_helper` makes of a statement. -/
def buildNode (fuel dest : Nat) (stmt : Stmt κ) : M κ σ Nat := fun s =>
  match stmt with
  | .root => some (.failed .err s)
  | .decl d =>
      match s.builtDestOf fuel dest with
      | none => none
      | some place =>
          match Copy.genNode s.sym place d with
          | .error _ => some (.failed .err s)
          | .ok sym =>
              some (.ok s.next ((s.declare s.sym.next sym).addNode dest stmt s.sym.next))
  | .condblock _ | .inStmt _ =>
      some (.ok s.next (s.withTables.addNode dest stmt s.sym.next))
  | _ => some (.ok s.next (s.addNode dest stmt 0))

mutual

/-- `cil_build_ast`, from statements in which the checks of the syntax have been made. -/
def buildSiblings (fuel dest : Nat) : List (Tree (Stmt κ)) → M κ σ Unit
  | [] => pure ()
  | t :: ts => do
      buildTree fuel dest t
      buildSiblings fuel dest ts

def buildTree (fuel dest : Nat) : Tree (Stmt κ) → M κ σ Unit
  | .node stmt children => do
      let n ← buildNode fuel dest stmt
      buildSiblings fuel n children

end

end Building

section Copying

variable {κ σ : Type}

/-- `__cil_copy_node_helper`. -/
def copyNode (fuel orig dest : Nat) : M κ σ Nat := fun s =>
  if s.dead orig = true ∨ s.dead dest = true then some .crash
  else
    match (s.nodes orig).stmt with
    | .decl d =>
        match s.destOf fuel dest with
        | none => none
        | some place =>
            match Copy.copyDecl s.sym place d with
            | .error .nullDereference => some .crash
            | .error .err => some (.failed .err s)
            | .ok (id, sym) =>
                some (.ok s.next
                  (((s.declare id sym).noteCopied id d).addNode dest (.decl d) id))
    | .blockinherit blockStr =>
        match s.block orig with
        | none => some .crash
        | some b =>
            if s.declNodes b = [] then some .crash
            else
              match s.biNodes b with
              | none => some .crash
              | some bi =>
                  let s' := s.addNode dest (.blockinherit blockStr) 0
                  some (.ok s.next { s' with
                    block := Function.update s'.block s.next (some b)
                    biNodes := Function.update s'.biNodes b (some (bi ++ [s.next])) })
    | .call macroStr =>
        let s' := s.addNode dest (.call macroStr) 0
        some (.ok s.next { s' with
          callee := Function.update s'.callee s.next (s.callee orig)
          copied := Function.update s'.copied s.next (s.copied orig) })
    | .condblock whenTrue =>
        some (.ok s.next (s.withTables.addNode dest (.condblock whenTrue) s.sym.next))
    | .root | .inStmt _ | .uncopied _ => some (.failed .err s)
    | stmt => some (.ok s.next (s.addNode dest stmt 0))

/-- `cil_copy_ast`, from the child number `k` of the original on. The children are read when
the walk comes to them. -/
def copyFrom : Nat → Nat → Nat → Nat → M κ σ Unit
  | 0, _, _, _ => Call.outOfFuel
  | fuel + 1, orig, k, dest => do
      let s ← Call.get
      if s.dead orig = true then Call.crash
      else
        match (s.nodes orig).children[k]? with
        | none => pure ()
        | some n => do
            let new ← copyNode fuel n dest
            copyFrom fuel n 0 new
            copyFrom fuel orig (k + 1) dest

/-- `cil_copy_ast`. -/
def copyAst (fuel orig dest : Nat) : M κ σ Unit := copyFrom fuel orig 0 dest

end Copying

end Cil.Ast
