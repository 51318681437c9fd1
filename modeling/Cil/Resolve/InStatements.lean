/- Cil/Resolve/InStatements
   digest: The bodies of in statements are copied into the containers that their names denote. -/

import Mathlib.Data.Multiset.AddSub
import Mathlib.Logic.Function.Basic
import Cil.Copy.DeclarationKinds

/-!
`cil_resolve_in_list`, at the time of `CIL_PASS_IN`: tunableifs have been resolved, and no
block has been inherited and no macro called. A datum is the place of its name: all nodes of
one name in one symbol table share it. The body of an in statement goes to the first node of
a datum; what is kept here is the datum.
-/

set_option autoImplicit false
set_option relaxedAutoImplicit false

namespace Cil.Resolve.InStatements

open Copy (Decl Param)

/-- The root, or the datum that a name stands for in a symbol table of another place. -/
inductive Space
  | root
  | named (parent : Space) (i : SymIndex) (name : String)
  deriving DecidableEq, Repr

/-- A datum in a symbol table, with the kind it was allocated for. -/
structure Entry where
  flavor : Flavor
  params : List Param
  deriving DecidableEq, Repr

/-- The statements in the body of an in statement. -/
inductive Stmt (κ : Type)
  | decl (d : Decl)
  | blockinherit (stmt : κ)
  | other (stmt : κ)
  /-- A kind the dispatch of `__cil_copy_node_helper` does not know. -/
  | uncopied (stmt : κ)
  deriving DecidableEq

/-- `cil_in` with its node: the namespace it stands in, and `block_str`, which may begin with a
dot, cut at the dots. -/
structure In (κ : Type) where
  node : Nat
  scope : Space
  absolute : Bool
  parts : List String
  body : List (Tree (Stmt κ))

/-- Where a declaration goes: the namespace, whether that is the body of a macro, and the
class it is a permission of. -/
structure Dest where
  ns : Space
  macroBody : Bool
  perms : Option Space
  deriving DecidableEq, Repr

/-- What a name denotes: a datum, and where the declarations go that are made in it. -/
structure Target where
  container : Space
  dest : Dest
  deriving DecidableEq, Repr

/-- The symbol tables, the children of the nodes of each datum, with the statements without
name around them, and the in statements whose bodies have been copied, with where to. -/
structure State (κ : Type) where
  entries : Space → Option Entry
  contents : Space → Multiset (List (Stmt κ) × Stmt κ)
  placed : Multiset (Nat × Target)

variable {κ : Type}

section Copying

/-- The kinds whose copy functions take the datum that is there. -/
def reuses (d : Decl) (entry : Entry) : Bool :=
  match d.flavor with
  | .block | .optional | .policycap | .perm | .mapPerm | .sid | .user | .role | .roleattribute
  | .type | .typeattribute | .sens | .cat => true
  | .macroDef => d.params = entry.params
  | _ => false

/-- The copy functions, by what the table has under the name. -/
def copied (d : Decl) : Option Entry → Except Stop Entry
  | none =>
      match d.flavor with
      | .classpermission => .error .nullDereference
      | .name => .error .err
      | _ => .ok ⟨d.flavor, d.params⟩
  | some entry => if reuses d entry then .ok entry else .error .err

/-- The datum a declaration is copied to. -/
def Dest.key (dest : Dest) (d : Decl) : Option Space :=
  match flavorToSymtabIndex d.flavor with
  | .perms => dest.perms.map fun c => .named c .perms d.name
  | i => some (.named dest.ns i d.name)

/-- The macro whose parameters a copied declaration is compared with. -/
def Dest.shadowed (dest : Dest) (flavor : Flavor) (key : Space) : Option Space :=
  match flavor with
  | .block => none
  | .macroDef => some key
  | _ => if dest.macroBody then some dest.ns else none

/-- Where the children of a copied declaration go. -/
def Dest.below (dest : Dest) (flavor : Flavor) (key : Space) : Dest :=
  match flavor with
  | .block => ⟨key, false, none⟩
  | .macroDef => ⟨key, true, none⟩
  | .kernelClass | .mapClass | .common => { dest with perms := some key }
  | _ => { dest with perms := none }

def State.paramsOf (s : State κ) (c : Space) : List Param :=
  match s.entries c with
  | some entry => entry.params
  | none => []

/-- Whether the declaration shadows a parameter of the macro. -/
def State.shadows (s : State κ) (d : Decl) : Option Space → Bool
  | none => false
  | some c => ⟨d.flavor, d.name⟩ ∈ s.paramsOf c

/-- A declaration with the datum `key`. -/
def State.declare (s : State κ) (key : Space) (d : Decl) (shadowed : Option Space) :
    Except Stop (State κ) :=
  match copied d (s.entries key) with
  | .error stop => .error stop
  | .ok entry =>
      let s' := { s with entries := Function.update s.entries key (some entry) }
      if s'.shadows d shadowed then .error .err else .ok s'

/-- A node with its data becomes a child of a container. -/
def State.add (s : State κ) (c : Space) (item : List (Stmt κ) × Stmt κ) : State κ :=
  { s with contents := Function.update s.contents c (s.contents c + {item}) }

mutual

/-- `cil_copy_ast` into a container, below the statements without name in `inside`. A
blockinherit has no block before `CIL_PASS_BLKIN_LINK`. -/
def copySiblings (dest : Dest) (c : Space) (inside : List (Stmt κ)) :
    List (Tree (Stmt κ)) → State κ → Except Stop (State κ)
  | [], s => .ok s
  | t :: ts, s =>
      match copyNode dest c inside t s with
      | .error stop => .error stop
      | .ok s' => copySiblings dest c inside ts s'

def copyNode (dest : Dest) (c : Space) (inside : List (Stmt κ)) :
    Tree (Stmt κ) → State κ → Except Stop (State κ)
  | .node (.decl d) children, s =>
      match dest.key d with
      | none => .error .err
      | some key =>
          match s.declare key d (dest.shadowed d.flavor key) with
          | .error stop => .error stop
          | .ok s' =>
              copySiblings (dest.below d.flavor key) key [] children
                (s'.add c (inside, .decl d))
  | .node (.blockinherit _) _, _ => .error .nullDereference
  | .node (.uncopied _) _, _ => .error .err
  | .node (.other stmt) children, s =>
      copySiblings { dest with perms := none } c (inside ++ [.other stmt]) children
        (s.add c (inside, .other stmt))

end

end Copying

section Names

variable (s : State κ)

/-- `__cil_resolve_name_with_parents` and then the root: the innermost namespace around that
has the name among its blocks. -/
def findSpace (part : String) : Space → Option Space
  | .root => if (s.entries (.named .root .blocks part)).isSome then some .root else none
  | .named parent i name =>
      if (s.entries (.named (.named parent i name) .blocks part)).isSome then
        some (.named parent i name)
      else findSpace part parent

/-- Whether an entry is a namespace of its own. -/
def Entry.opensSpace (entry : Entry) : Bool :=
  entry.flavor = .block ∨ entry.flavor = .macroDef

/-- What is copied below the nodes of a datum in the table of blocks. -/
def target (ns : Space) (part : String) (entry : Entry) : Target :=
  let container := Space.named ns .blocks part
  match entry.flavor with
  | .block => ⟨container, ⟨container, false, none⟩⟩
  | .macroDef => ⟨container, ⟨container, true, none⟩⟩
  | _ => ⟨container, ⟨ns, (s.entries ns).any (·.flavor = .macroDef), none⟩⟩

/-- The loop of `cil_resolve_name` over the parts of a name. The names in an optional are in
the table that has the optional. -/
def descend : Space → List String → Option Target
  | _, [] => none
  | ns, part :: rest =>
      match s.entries (.named ns .blocks part), rest with
      | none, _ => none
      | some entry, [] => some (target s ns part entry)
      | some entry, _ => descend (if entry.opensSpace then .named ns .blocks part else ns) rest

/-- `cil_resolve_name` for an in statement. -/
def resolveName (i : In κ) : Option Target :=
  if i.absolute then descend s .root i.parts
  else
    match i.parts with
    | [] => none
    | part :: _ =>
        match findSpace s part i.scope with
        | none => none
        | some ns => descend s ns i.parts

end Names

/-- `cil_resolve_in`, once the name is resolved. -/
def resolveIn (i : In κ) (t : Target) (s : State κ) : Except Stop (State κ) :=
  match copySiblings t.dest t.container [] i.body s with
  | .error stop => .error stop
  | .ok s' => .ok { s' with placed := s'.placed + {(i.node, t)} }

/-- One round of `cil_resolve_in_list`, with the statements that stay in the list. -/
def resolveInRound : List (In κ) → State κ → Except Stop (List (In κ) × State κ)
  | [], s => .ok ([], s)
  | i :: ins, s =>
      match resolveName s i with
      | none =>
          match resolveInRound ins s with
          | .error stop => .error stop
          | .ok (unresolved, s') => .ok (i :: unresolved, s')
      | some t =>
          match resolveIn i t s with
          | .error stop => .error stop
          | .ok s' => resolveInRound ins s'

/-- The rounds of `cil_resolve_in_list`; each but the last resolves a statement. -/
def resolveInRounds : Nat → List (In κ) → State κ → Except Stop (State κ)
  | 0, _, s => .ok s
  | left + 1, ins, s =>
      match resolveInRound ins s with
      | .error stop => .error stop
      | .ok ([], s') => .ok s'
      | .ok (unresolved, s') =>
          if unresolved.length = ins.length then .error .err
          else resolveInRounds left unresolved s'

/-- `cil_resolve_in_list`. -/
def resolveInList (ins : List (In κ)) (s : State κ) : Except Stop (State κ) :=
  resolveInRounds ins.length ins s

end Cil.Resolve.InStatements
