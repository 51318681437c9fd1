/- Cil/Copy/Declarations
   digest: Declarations are built and copied into symbol tables that may hold the name. -/

import Mathlib.Logic.Function.Basic
import Cil.Flavor
import Cil.Tree

/-!
What `cil_build_ast` and `cil_copy_ast` do to symbol tables and declaration data. A datum is
a number; it keeps the kind it was allocated for, which the program does not store, and the
flavors of the nodes in `datum->nodes`. A datum may be a namespace: a block or macro for its
body, a class for its permissions.
-/

set_option autoImplicit false
set_option relaxedAutoImplicit false

namespace Cil.Copy

/-- `cil_param`. -/
structure Param where
  flavor : Flavor
  str : String
  deriving DecidableEq, Repr

/-- Where symbol tables live: in the root, in a datum, or in the data of a condblock. -/
inductive Namespace
  | root
  | ofDatum (id : Nat)
  | ofCondblock (id : Nat)
  deriving DecidableEq, Repr

/-- What a declaration statement brings; `params` are those of a macro. -/
structure Decl where
  flavor : Flavor
  name : String
  params : List Param
  deriving DecidableEq, Repr

/-- A declaration datum. In one of another kind than macro, `params` is what the memory
reads as where a macro has its parameters. -/
structure Datum where
  flavor : Flavor
  nodes : List Flavor
  params : List Param
  deriving DecidableEq, Repr

/-- All symbol tables, and the data by number; `next` is the first number not in use. -/
structure State where
  tables : Namespace → SymIndex → String → Option Nat
  data : Nat → Datum
  next : Nat

def State.init : State where
  tables _ _ _ := none
  data _ := ⟨.name, [], []⟩
  next := 0

/-- The place a declaration goes to: the enclosing namespace, the class it is a permission
of, and the parameters of the macro that encloses it before any block does. -/
structure Dest where
  ns : Namespace
  perms : Option Nat
  params : List Param
  deriving DecidableEq, Repr

/-- `cil_get_symtab`, as the namespace whose table of that kind it finds. -/
def Dest.getSymtab (dest : Dest) : SymIndex → Option Namespace
  | .perms => dest.perms.map .ofDatum
  | _ => some dest.ns

/-- The initialisers of declaration data, `cil_type_init` and the like. -/
def State.alloc (s : State) (flavor : Flavor) (params : List Param) : Nat × State :=
  (s.next, { s with
    data := Function.update s.data s.next ⟨flavor, [], params⟩
    next := s.next + 1 })

/-- `cil_list_append (datum->nodes, CIL_NODE, node)`. -/
def State.appendNode (s : State) (id : Nat) (node : Flavor) : State :=
  { s with data :=
      Function.update s.data id { s.data id with nodes := (s.data id).nodes ++ [node] } }

def State.setEntry (s : State) (ns : Namespace) (i : SymIndex) (key : String) (id : Nat) :
    State :=
  { s with tables := Function.update s.tables ns <|
      Function.update (s.tables ns) i <| Function.update (s.tables ns i) key (some id) }

/-- `cil_symtab_insert`: also when the name is taken, the node is registered in the datum
that was passed. -/
def symtabInsert (s : State) (ns : Namespace) (i : SymIndex) (key : String) (id : Nat)
    (node : Flavor) : Rc × State :=
  match s.tables ns i key with
  | none => (.ok, (s.setEntry ns i key id).appendNode id node)
  | some _ => (.eexist, s.appendNode id node)

/-- `cil_gen_node` on the fresh datum of a declaration. -/
def genNode (s : State) (dest : Dest) (d : Decl) : Except Stop State :=
  match dest.getSymtab (flavorToSymtabIndex d.flavor) with
  | none => .error .err
  | some ns =>
      let (id, s) := s.alloc d.flavor d.params
      match symtabInsert s ns (flavorToSymtabIndex d.flavor) d.name id d.flavor with
      | (.ok, s) => if ⟨d.flavor, d.name⟩ ∈ dest.params then .error .err else .ok s
      | _ => .error .err

section CopyFunctions

variable (s : State) (ns : Namespace) (orig : Decl)

/-- `cil_symtab_get_datum` for the name of the original. -/
def getDatum : Option Nat := s.tables ns (flavorToSymtabIndex orig.flavor) orig.name

/-- The copy functions that use the datum of the name if there is one. -/
def copyReusing : Except Stop (Nat × State) :=
  match getDatum s ns orig with
  | none => .ok (s.alloc orig.flavor orig.params)
  | some id => .ok (id, s)

/-- The copy functions that refuse a name that is taken. -/
def copyRejecting : Except Stop (Nat × State) :=
  match getDatum s ns orig with
  | none => .ok (s.alloc orig.flavor orig.params)
  | some _ => .error .err

def copyBlock := copyReusing s ns orig
def copyPolicycap := copyReusing s ns orig
def copyPerm := copyReusing s ns orig
def copySid := copyReusing s ns orig
def copyUser := copyReusing s ns orig
def copyRole := copyReusing s ns orig
def copyRoleattribute := copyReusing s ns orig
def copyType := copyReusing s ns orig
def copyTypeattribute := copyReusing s ns orig
def copySens := copyReusing s ns orig
def copyCat := copyReusing s ns orig
def copyOptional := copyReusing s ns orig

/-- `cil_copy_class`, also for commons and class maps. -/
def copyClass := copyRejecting s ns orig
/-- `cil_copy_alias`, for the aliases of types, sensitivities and categories. -/
def copyAlias := copyRejecting s ns orig
def copyBool := copyRejecting s ns orig
def copyTunable := copyRejecting s ns orig
def copyCatset := copyRejecting s ns orig
def copyLevel := copyRejecting s ns orig
def copyLevelrange := copyRejecting s ns orig
def copyContext := copyRejecting s ns orig
def copyIpaddr := copyRejecting s ns orig

/-- `cil_copy_classpermission` never allocates and writes through NULL. -/
def copyClasspermission : Except Stop (Nat × State) :=
  match getDatum s ns orig with
  | none => .error .nullDereference
  | some _ => .error .err

/-- `cil_copy_macro` takes the datum it finds for a macro and compares the parameters. -/
def copyMacro : Except Stop (Nat × State) :=
  match getDatum s ns orig with
  | none => .ok (s.alloc orig.flavor orig.params)
  | some id => if orig.params = (s.data id).params then .ok (id, s) else .error .err

/-- The declarative part of the dispatch in `__cil_copy_node_helper`. -/
def copyFunc : Except Stop (Nat × State) :=
  match orig.flavor with
  | .block => copyBlock s ns orig
  | .macroDef => copyMacro s ns orig
  | .optional => copyOptional s ns orig
  | .bool => copyBool s ns orig
  | .tunable => copyTunable s ns orig
  | .perm | .mapPerm => copyPerm s ns orig
  | .common | .kernelClass | .mapClass => copyClass s ns orig
  | .classpermission => copyClasspermission s ns orig
  | .user => copyUser s ns orig
  | .role => copyRole s ns orig
  | .roleattribute => copyRoleattribute s ns orig
  | .type => copyType s ns orig
  | .typeattribute => copyTypeattribute s ns orig
  | .typealias | .sensalias | .catalias => copyAlias s ns orig
  | .sens => copySens s ns orig
  | .cat => copyCat s ns orig
  | .catset => copyCatset s ns orig
  | .level => copyLevel s ns orig
  | .levelrange => copyLevelrange s ns orig
  | .sid => copySid s ns orig
  | .context => copyContext s ns orig
  | .ipaddr => copyIpaddr s ns orig
  | .policycap => copyPolicycap s ns orig
  | .name => .error .err

end CopyFunctions

/-- The parameters a copied declaration is compared with: the search for the namespace
begins at the new node. -/
def paramsInScope (s : State) (dest : Dest) (flavor : Flavor) (id : Nat) : List Param :=
  match flavor with
  | .block => []
  | .macroDef => (s.data id).params
  | _ => dest.params

/-- `__cil_copy_node_helper` on a declaration. -/
def copyDecl (s : State) (dest : Dest) (orig : Decl) : Except Stop (Nat × State) :=
  match dest.getSymtab (flavorToSymtabIndex orig.flavor) with
  | none => .error .err
  | some ns => do
      let (id, s) ← copyFunc s ns orig
      -- the result of the insertion is overwritten
      let (_, s) := symtabInsert s ns (flavorToSymtabIndex orig.flavor) orig.name id orig.flavor
      if ⟨orig.flavor, orig.name⟩ ∈ paramsInScope s dest orig.flavor id then .error .err
      else .ok (id, s)

/-- The statements a copy meets. -/
inductive NodeData
  | decl (d : Decl)
  | condblock (ofTunableif : Bool)
  | other
  /-- A kind the dispatch of `__cil_copy_node_helper` does not know. -/
  | unknown

/-- Where the children of a copied declaration go. -/
def Dest.below (dest : Dest) (s : State) (flavor : Flavor) (id : Nat) : Dest :=
  match flavor with
  | .block => ⟨.ofDatum id, none, []⟩
  | .macroDef => ⟨.ofDatum id, none, (s.data id).params⟩
  | .kernelClass | .mapClass | .common => { dest with perms := some id }
  | _ => { dest with perms := none }

/-- A condblock below a tunableif has symbol tables of its own. -/
def copyCondblock (s : State) (dest : Dest) (ofTunableif : Bool) : Dest × State :=
  if ofTunableif then
    ({ dest with ns := .ofCondblock s.next, perms := none }, { s with next := s.next + 1 })
  else ({ dest with perms := none }, s)

mutual

/-- `cil_copy_ast`: what lies below the original is copied below the destination. -/
def copySiblings (dest : Dest) : List (Tree NodeData) → State → Except Stop State
  | [], s => .ok s
  | t :: ts, s => do
      let s ← copyNode dest t s
      copySiblings dest ts s

def copyNode (dest : Dest) : Tree NodeData → State → Except Stop State
  | .node (.decl d) children, s => do
      let (id, s) ← copyDecl s dest d
      copySiblings (dest.below s d.flavor id) children s
  | .node (.condblock ofTunableif) children, s =>
      let (dest, s) := copyCondblock s dest ofTunableif
      copySiblings dest children s
  | .node .other children, s => copySiblings { dest with perms := none } children s
  | .node .unknown _, _ => .error .err

end

end Cil.Copy
