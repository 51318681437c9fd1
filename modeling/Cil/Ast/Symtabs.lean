/- Cil/Ast/Symtabs
   digest: Declarations enter and leave their symbol tables as nodes come and go. -/

import Mathlib.Logic.Function.Basic
import Cil.Copy.Declarations

/-!
`cil_symtab_insert`, `cil_gen_node`, `__cil_copy_node_helper` and the destruction of nodes with
their undo steps: what a step that fails leaves is what its caller has undone. Nodes and data
are numbers; what they are is read through the pointers between them.
-/

set_option autoImplicit false
set_option relaxedAutoImplicit false

namespace Cil.Ast.Symtabs

open Copy (Decl Namespace Param)

/-- `cil_symtab_datum`, with the parameters of a macro. `nodes` is `none` when the list has been
destroyed. `kind` is what the datum was allocated for, which the program does not store. -/
structure Datum where
  kind : Flavor
  params : List Param
  name : String
  symtab : Option (Namespace × SymIndex)
  nodes : Option (List Nat)

/-- What a node is; a declaration has the number of its datum. -/
inductive Stmt
  | root
  | decl (flavor : Flavor) (id : Nat)
  | condblock (ofTunableif : Bool)
  | inStmt
  | other
  /-- A kind the dispatch of `__cil_copy_node_helper` does not know. -/
  | uncopied
  /-- `CIL_NONE`, with no data. -/
  | none
  deriving DecidableEq, Repr

/-- `cil_tree_node`. -/
structure Node where
  stmt : Stmt
  parent : Nat
  children : List Nat

/-- All symbol tables, data and nodes. A node that is `dead` has been freed; `freed` are the
data that have been, in order. -/
structure State where
  tables : Namespace → SymIndex → String → Option Nat
  data : Nat → Datum
  nextDatum : Nat
  nodes : Nat → Node
  next : Nat
  dead : Nat → Bool
  freed : List Nat

/-- The root, alone. -/
def State.init : State where
  tables _ _ _ := none
  data _ := ⟨.name, [], "", none, none⟩
  nextDatum := 0
  nodes _ := ⟨.root, 0, []⟩
  next := 1
  dead _ := false
  freed := []

namespace State

variable (s : State)

section Data

def setDatum (id : Nat) (f : Datum → Datum) : State :=
  { s with data := Function.update s.data id (f (s.data id)) }

def setEntry (ns : Namespace) (i : SymIndex) (key : String) (entry : Option Nat) : State :=
  { s with tables := Function.update s.tables ns <|
      Function.update (s.tables ns) i <| Function.update (s.tables ns i) key entry }

/-- `cil_symtab_datum_init`, in the initialisers of the declarations. -/
def alloc (flavor : Flavor) (params : List Param) : State :=
  { s with
    data := Function.update s.data s.nextDatum ⟨flavor, params, "", none, some []⟩
    nextDatum := s.nextDatum + 1 }

/-- `cil_list_append (datum->nodes, CIL_NODE, node)`. -/
def appendNode (id n : Nat) : State :=
  s.setDatum id fun d => { d with nodes := d.nodes.map (· ++ [n]) }

/-- `cil_symtab_insert`. -/
def symtabInsert (ns : Namespace) (i : SymIndex) (key : String) (id n : Nat) : Rc × State :=
  match s.tables ns i key with
  | none =>
      (.ok, (((s.setEntry ns i key (some id)).setDatum id fun d =>
        { d with name := key, symtab := some (ns, i) }).appendNode id n))
  | some _ => (.eexist, s.appendNode id n)

/-- `cil_symtab_remove_datum`. -/
def removeDatum (id : Nat) : State :=
  match (s.data id).symtab with
  | none => s
  | some (ns, i) =>
      (s.setEntry ns i (s.data id).name none).setDatum id fun d =>
        { d with symtab := none }

/-- `cil_symtab_datum_destroy`. -/
def datumDestroy (id : Nat) : State :=
  (s.setDatum id fun d => { d with nodes := none }).removeDatum id

/-- `cil_symtab_datum_remove_node`. -/
def datumRemoveNode (id n : Nat) : State :=
  match (s.data id).nodes with
  | none => s
  | some l =>
      let s' := s.setDatum id fun d => { d with nodes := some (l.erase n) }
      if l.erase n = [] then s'.datumDestroy id else s'

/-- `cil_symtab_array_destroy`: the data in the tables lose their table. -/
def symtabArrayDestroy (ns : Namespace) : State :=
  { s with
    tables := Function.update s.tables ns fun _ _ => none
    data := fun id =>
      if (s.data id).symtab.map Prod.fst = some ns then
        { s.data id with symtab := none }
      else s.data id }

/-- `cil_destroy_block` and the like. -/
def destroyData (id : Nat) : State :=
  { (s.datumDestroy id).symtabArrayDestroy (.ofDatum id) with freed := s.freed ++ [id] }

end Data

section Nodes

/-- `cil_tree_node_init`, with a parent that does not have it as a child yet. -/
def newNode (parent : Nat) (stmt : Stmt) : State :=
  { s with nodes := Function.update s.nodes s.next ⟨stmt, parent, []⟩, next := s.next + 1 }

def setStmt (n : Nat) (stmt : Stmt) : State :=
  { s with
    nodes := Function.update s.nodes n { s.nodes n with stmt := stmt } }

/-- `cil_clear_node`. -/
def clearNode (n : Nat) : State := s.setStmt n .none

/-- The node becomes the last child of its parent. -/
def attach (parent n : Nat) : State :=
  { s with
    nodes := Function.update s.nodes parent
      { s.nodes parent with children := (s.nodes parent).children ++ [n] } }

def clearChildren (n : Nat) : State :=
  { s with
    nodes := Function.update s.nodes n { s.nodes n with children := [] } }

def freeNode (n : Nat) : State := { s with dead := Function.update s.dead n true }

/-- `cil_tree_node_destroy`. -/
def destroyNode (n : Nat) : State :=
  match (s.nodes n).stmt with
  | .decl _ id =>
      let s' := s.datumRemoveNode id n
      (if (s'.data id).nodes.isNone then s'.destroyData id else s').freeNode n
  | .root => (s.symtabArrayDestroy .root).freeNode n
  | .condblock _ | .inStmt => (s.symtabArrayDestroy (.ofCondblock n)).freeNode n
  | .other | .uncopied | .none => s.freeNode n

end Nodes

section Namespaces

/-- `cil_get_symtab`, for other tables than those of permissions. A parent has a smaller
number, so the number of the node is fuel enough. -/
def spaceFrom : Nat → Nat → Option Namespace
  | 0, _ => none
  | fuel + 1, n =>
      match (s.nodes n).stmt with
      | .root => some .root
      | .decl flavor id =>
          if flavor = .block ∨ flavor = .macroDef then some (.ofDatum id)
          else spaceFrom fuel (s.nodes n).parent
      | .inStmt | .condblock true => some (.ofCondblock n)
      | _ => spaceFrom fuel (s.nodes n).parent

def space (n : Nat) : Option Namespace := s.spaceFrom (n + 1) n

/-- `cil_get_symtab`. -/
def getSymtab (n : Nat) : SymIndex → Option Namespace
  | .perms =>
      match (s.nodes n).stmt with
      | .decl .kernelClass id | .decl .mapClass id | .decl .common id => some (.ofDatum id)
      | _ => none
  | _ => s.space n

/-- The parameters of the macro that is a node. -/
def macroParams (n : Nat) : List Param :=
  match (s.nodes n).stmt with
  | .decl .macroDef id => (s.data id).params
  | _ => []

/-- The parameters of the macro that encloses a node before any block does, from the node on. -/
def scopeParamsFrom : Nat → Nat → List Param
  | 0, _ => []
  | fuel + 1, n =>
      match (s.nodes n).stmt with
      | .root | .decl .block _ => []
      | .decl .macroDef id => (s.data id).params
      | _ => scopeParamsFrom fuel (s.nodes n).parent

def scopeParams (n : Nat) : List Param := s.scopeParamsFrom (n + 1) n

end Namespaces

end State

section Building

/-- `__cil_verify_name`. -/
def verifyName (name : String) : Bool :=
  decide (name.length < 2048) &&
    match name.toList with
    | [] => false
    | c :: cs => c.isAlpha && cs.all fun c => c.isAlphanum || c = '_' || c = '-'

/-- `cil_gen_node`, for a new node and a new datum. -/
def genNode (s : State) (parent n id : Nat) (flavor : Flavor) (key : String) : Rc × State :=
  if verifyName key = false then (.err, s)
  else
    match s.getSymtab parent (flavorToSymtabIndex flavor) with
    | none => (.err, s)
    | some ns =>
        match (s.setStmt n (.decl flavor id)).symtabInsert ns (flavorToSymtabIndex flavor) key id
            n with
        | (.ok, s') => if ⟨flavor, key⟩ ∈ s'.macroParams parent then (.err, s') else (.ok, s')
        | (rc, s') => (rc, s')

/-- What the builder does before `cil_gen_node`. -/
def initDecl (s : State) (parent : Nat) (flavor : Flavor) (params : List Param) : State :=
  (s.newNode parent .none).alloc flavor params

/-- `cil_gen_perm_nodes`; an item that is a list has no name. -/
def genPermNodes (s : State) (parent : Nat) (flavor : Flavor) : List (Option String) → Rc × State
  | [] => (.ok, s)
  | none :: _ => (.err, s)
  | some key :: perms =>
      match genNode (initDecl s parent flavor []) parent s.next s.nextDatum flavor key with
      | (.ok, s') => genPermNodes (s'.attach parent s.next) parent flavor perms
      | (rc, s') => (rc, (s'.destroyData s.nextDatum).clearNode s.next)

/-- The kind of the permissions of a class; other declarations have none. -/
def permFlavor : Flavor → Option Flavor
  | .kernelClass | .common => some .perm
  | .mapClass => some .mapPerm
  | _ => none

def genPerms (s : State) (n : Nat) (d : Decl) (perms : List (Option String)) : Rc × State :=
  match permFlavor d.flavor with
  | some flavor => genPermNodes s n flavor perms
  | none => (.ok, s)

/-- `cil_gen_block` and the like, and what `__cil_build_ast_node_helper` does with the node. -/
def genDecl (s : State) (parent : Nat) (d : Decl) (perms : List (Option String)) : Rc × State :=
  let undo (s' : State) : State :=
    ((s'.destroyData s.nextDatum).clearNode s.next).destroyNode s.next
  match genNode (initDecl s parent d.flavor d.params) parent s.next s.nextDatum d.flavor d.name with
  | (.ok, s₁) =>
      match genPerms s₁ s.next d perms with
      | (.ok, s₂) => (.ok, s₂.attach parent s.next)
      | (rc, s₂) => (rc, undo s₂)
  | (rc, s₁) => (rc, undo s₁)

/-- The builder on a statement that declares nothing. -/
def genOther (s : State) (parent : Nat) (stmt : Stmt) : State :=
  (s.newNode parent stmt).attach parent s.next

end Building

section Copying

/-- What the copy functions see. -/
def State.view (s : State) : Copy.State where
  tables := s.tables
  data id := ⟨(s.data id).kind, [], (s.data id).params⟩
  next := s.nextDatum

/-- What the original declares. -/
def declOf (s : State) (flavor : Flavor) (id : Nat) : Decl :=
  ⟨flavor, (s.data id).name, (s.data id).params⟩

/-- The kinds with symbol tables for what is declared below them, permissions apart. -/
def hasTables (flavor : Flavor) : Bool := flavor = .block ∨ flavor = .macroDef

/-- The copy functions do not ask what a datum is. As a block or macro it has tables behind the
end of a datum of another kind; under another kind its own are not destroyed. -/
def State.mistakes (s : State) (ns : Namespace) (d : Decl) : Bool :=
  match s.tables ns (flavorToSymtabIndex d.flavor) d.name with
  | none => false
  | some id => (s.data id).kind ≠ d.flavor ∧ (hasTables (s.data id).kind ∨ hasTables d.flavor)

/-- The rest of `__cil_copy_node_helper`, with the datum that the copy function hands back. -/
def registerCopy (s : State) (dest : Nat) (ns : Namespace) (d : Decl) (id : Nat) : Rc × State :=
  let s₁ := if id = s.nextDatum then s.alloc d.flavor d.params else s
  let s₂ := s₁.newNode dest (.decl d.flavor id)
  -- the result of the insertion is overwritten
  let s₃ := (s₂.symtabInsert ns (flavorToSymtabIndex d.flavor) d.name id s.next).2
  if ⟨d.flavor, d.name⟩ ∈ s₃.scopeParams s.next then (.err, s₃.destroyNode s.next)
  else (.ok, s₃.attach dest s.next)

/-- `__cil_copy_node_helper`; `none` when it reads what has been freed or is not there, or takes
a datum for one of another kind. The new node is the next one. -/
def copyNode (s : State) (orig dest : Nat) : Option (Rc × State) :=
  if s.dead orig = true ∨ s.dead dest = true then none
  else
    match (s.nodes orig).stmt with
    | .decl flavor id₀ =>
        match s.getSymtab dest (flavorToSymtabIndex flavor) with
        | none => some (.err, s)
        | some ns =>
            if s.mistakes ns (declOf s flavor id₀) then none
            else
              match Copy.copyFunc s.view ns (declOf s flavor id₀) with
              | .error .nullDereference => none
              | .error .err => some (.err, s)
              | .ok (id, _) => some (registerCopy s dest ns (declOf s flavor id₀) id)
    | .condblock ofTunableif => some (.ok, genOther s dest (.condblock ofTunableif))
    | .other => some (.ok, genOther s dest .other)
    | .root | .inStmt | .uncopied | .none => some (.err, s)

/-- `cil_copy_ast`, from the child number `k` of the original on; `none` also when it does not
end within the fuel. -/
def copyFrom : Nat → Nat → Nat → Nat → State → Option (Rc × State)
  | 0, _, _, _, _ => none
  | fuel + 1, orig, k, dest, s =>
      if s.dead orig = true then none
      else
        match (s.nodes orig).children[k]? with
        | none => some (.ok, s)
        | some c =>
            match copyNode s c dest with
            | some (.ok, s₁) =>
                match copyFrom fuel c 0 s.next s₁ with
                | some (.ok, s₂) => copyFrom fuel orig (k + 1) dest s₂
                | r => r
            | r => r

end Copying

section Destroying

/-- The nodes of a list and all below them, in the order `cil_tree_children_destroy` goes. -/
def destroySiblings : Nat → List Nat → State → Option State
  | 0, _, _ => none
  | _ + 1, [], s => some s
  | fuel + 1, n :: ns, s =>
      if s.dead n = true then none
      else
        match destroySiblings fuel (s.nodes n).children s with
        | none => none
        | some s₁ => destroySiblings fuel ns ((s₁.clearChildren n).destroyNode n)

/-- `cil_tree_children_destroy`. -/
def childrenDestroy (fuel n : Nat) (s : State) : Option State :=
  match destroySiblings fuel (s.nodes n).children s with
  | none => none
  | some s₁ => some (s₁.clearChildren n)

end Destroying

section Steps

/-- What is done to the tree. -/
inductive Op
  | gen (parent : Nat) (d : Decl) (perms : List (Option String))
  | genOther (parent : Nat) (stmt : Stmt)
  | copy (orig dest : Nat)
  | childrenDestroy (n : Nat)
  | nodeDestroy (n : Nat)

/-- A node that has been made, with something in it, and has not been freed. -/
def State.Live (s : State) (n : Nat) : Prop :=
  n < s.next ∧ s.dead n = false ∧ (s.nodes n).stmt ≠ .none

instance (s : State) (n : Nat) : Decidable (s.Live n) := by
  unfold State.Live
  infer_instance

/-- The statements that are neither declarations nor the root. -/
def Stmt.isOther : Stmt → Bool
  | .condblock _ | .inStmt | .other | .uncopied => true
  | .root | .decl _ _ | .none => false

/-- One step, on nodes that are there. -/
def step (fuel : Nat) (s : State) : Op → Option (Rc × State)
  | .gen parent d perms => if s.Live parent then some (genDecl s parent d perms) else none
  | .genOther parent stmt =>
      if s.Live parent ∧ stmt.isOther = true then some (.ok, genOther s parent stmt) else none
  | .copy orig dest => if s.Live orig ∧ s.Live dest then copyFrom fuel orig 0 dest s else none
  | .childrenDestroy n => if s.Live n then (childrenDestroy fuel n s).map (Rc.ok, ·) else none
  | .nodeDestroy n => if s.Live n then some (.ok, s.destroyNode n) else none

/-- A sequence of steps, successful or failing. -/
def run (fuel : Nat) (s : State) : List Op → Option State
  | [] => some s
  | op :: ops =>
      match step fuel s op with
      | none => none
      | some (_, s') => run fuel s' ops

end Steps

end Cil.Ast.Symtabs
