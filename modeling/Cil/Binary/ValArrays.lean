/- Cil/Binary/ValArrays
   digest: The symbols of a binary policy after the first pass, and the arrays of their names. -/

import Mathlib.Data.List.Induction
import Mathlib.Data.List.Nodup
import Mathlib.Data.List.Perm.Basic
import Mathlib.Logic.Function.Basic
import Cil.Basic

set_option autoImplicit false
set_option relaxedAutoImplicit false

namespace Cil.Binary.ValArrays

/-- The symbol tables of the policy that have an array of names. -/
inductive Sym
  | commons | classes | roles | types | users | bools | levels | cats
  deriving DecidableEq, Repr

/-- What the datum of a symbol says of its value. -/
structure Symbol where
  value : Nat
  isAlias : Bool
  deriving DecidableEq, Repr

/-- The symbol tables of the policy library. An insertion that is asked for a value takes the next
one for a primary symbol; without, the caller sets the value of an alias. `object_r` is in the
table of the roles from the start. -/
structure SymtabLib (T : Type) where
  empty : T
  objectR : T
  entries : T → List (String × Symbol)
  nprim : T → Nat
  insert : T → String → Option T
  insertAlias : T → String → Nat → Option T
  keys_nodup : ∀ t, ((entries t).map Prod.fst).Nodup
  entries_empty : entries empty = []
  nprim_empty : nprim empty = 0
  entries_objectR : entries objectR = [("object_r", ⟨1, false⟩)]
  nprim_objectR : nprim objectR = 1
  entries_insert : ∀ t key t', insert t key = some t' →
    (entries t').Perm ((key, ⟨nprim t + 1, false⟩) :: entries t) ∧ nprim t' = nprim t + 1
  entries_insertAlias : ∀ t key value t', insertAlias t key value = some t' →
    (entries t').Perm ((key, ⟨value, true⟩) :: entries t) ∧ nprim t' = nprim t

/-- What a node of the tree declares, by the qualified names. The flag `used` belongs to an
attribute, and `actual` to a category alias. -/
inductive NodeData (ω : Type)
  | role (fqn : String)
  | type (fqn : String)
  | typeattribute (fqn : String) (used : Bool)
  | user (fqn : String)
  | bool (fqn : String)
  | catalias (fqn actual : String)
  | other (data : ω)
  deriving DecidableEq, Repr

/-- A node that the walk reaches; `first` tells whether it is the first node of what it
declares. -/
structure Node (ω : Type) where
  first : Bool
  data : NodeData ω
  deriving DecidableEq, Repr

/-- What the database has of symbols: the ordered ones, a class with its common, and the nodes
in the order of the walk. -/
structure Database (ω : Type) where
  mls : Bool
  classorder : List (String × Option String)
  catorder : List String
  sensitivityorder : List String
  nodes : List (Node ω)

section Create

variable {T ω : Type} (L : SymtabLib T)

/-- The symbol tables of the policy. -/
abbrev Pdb (T : Type) := Sym → T

/-- A policy as the library initialises it. -/
def Pdb.init : Pdb T := Function.update (fun _ => L.empty) .roles L.objectR

/-- `hashtab_search`. -/
def search (t : T) (key : String) : Option Symbol := (L.entries t).lookup key

/-- `symtab_insert` of a primary symbol, which gets the value. -/
def symtabInsert (pdb : Pdb T) (sym : Sym) (key : String) : Option (Pdb T) :=
  (L.insert (pdb sym) key).map (Function.update pdb sym)

/-- The loops over the names of ordered symbols. -/
def insertAll (sym : Sym) : Pdb T → List String → Option (Pdb T)
  | pdb, [] => some pdb
  | pdb, key :: rest =>
      match symtabInsert L pdb sym key with
      | none => none
      | some pdb => insertAll sym pdb rest

/-- `cil_classorder_to_policydb`; a common is inserted before its first class is complete. -/
def classorderToPolicydb : Pdb T → List (String × Option String) → Option (Pdb T)
  | pdb, [] => some pdb
  | pdb, (fqn, common) :: rest =>
      match symtabInsert L pdb .classes fqn with
      | none => none
      | some pdb =>
          match common with
          | none => classorderToPolicydb pdb rest
          | some common =>
              match search L (pdb .commons) common with
              | some _ => classorderToPolicydb pdb rest
              | none =>
                  match symtabInsert L pdb .commons common with
                  | none => none
                  | some pdb => classorderToPolicydb pdb rest

/-- `cil_catorder_to_policydb`. -/
def catorderToPolicydb (pdb : Pdb T) (catorder : List String) : Option (Pdb T) :=
  insertAll L .cats pdb catorder

/-- `cil_sensitivityorder_to_policydb`. -/
def sensitivityorderToPolicydb (pdb : Pdb T) (sensitivityorder : List String) :
    Option (Pdb T) :=
  insertAll L .levels pdb sensitivityorder

/-- `__cil_policydb_init`. -/
def policydbInit (db : Database ω) : Option (Pdb T) := do
  let pdb ← classorderToPolicydb L (Pdb.init L) db.classorder
  if db.mls then
    let pdb ← catorderToPolicydb L pdb db.catorder
    sensitivityorderToPolicydb L pdb db.sensitivityorder
  else some pdb

/-- `cil_role_to_policydb`. -/
def roleToPolicydb (pdb : Pdb T) (fqn : String) : Option (Pdb T) :=
  if fqn = "object_r" then some pdb else symtabInsert L pdb .roles fqn

/-- `cil_type_to_policydb`. -/
def typeToPolicydb (pdb : Pdb T) (fqn : String) : Option (Pdb T) := symtabInsert L pdb .types fqn

/-- `cil_typeattribute_to_policydb`. -/
def typeattributeToPolicydb (pdb : Pdb T) (fqn : String) (used : Bool) : Option (Pdb T) :=
  if used then symtabInsert L pdb .types fqn else some pdb

/-- `cil_user_to_policydb`. -/
def userToPolicydb (pdb : Pdb T) (fqn : String) : Option (Pdb T) := symtabInsert L pdb .users fqn

/-- `cil_bool_to_policydb`. -/
def boolToPolicydb (pdb : Pdb T) (fqn : String) : Option (Pdb T) := symtabInsert L pdb .bools fqn

/-- `cil_catalias_to_policydb`. -/
def cataliasToPolicydb (pdb : Pdb T) (fqn actual : String) : Option (Pdb T) :=
  match search L (pdb .cats) actual with
  | none => none
  | some cat => (L.insertAlias (pdb .cats) fqn cat.value).map (Function.update pdb .cats)

variable (others : ω → Bool)

/-- The first pass of `__cil_node_to_policydb`; `others` says whether the other functions, which
declare no symbols, succeed. -/
def nodeToPolicydb (mls : Bool) (pdb : Pdb T) (node : Node ω) : Option (Pdb T) :=
  if node.first then
    match node.data with
    | .role fqn => roleToPolicydb L pdb fqn
    | .type fqn => typeToPolicydb L pdb fqn
    | .typeattribute fqn used => typeattributeToPolicydb L pdb fqn used
    | .user fqn => userToPolicydb L pdb fqn
    | .bool fqn => boolToPolicydb L pdb fqn
    | .catalias fqn actual => if mls then cataliasToPolicydb L pdb fqn actual else some pdb
    | .other data => if others data then some pdb else none
  else some pdb

/-- The walk of the first pass. -/
def firstPass (mls : Bool) : Pdb T → List (Node ω) → Option (Pdb T)
  | pdb, [] => some pdb
  | pdb, node :: rest =>
      match nodeToPolicydb L others mls pdb node with
      | none => none
      | some pdb => firstPass mls pdb rest

/-- `cil_binary_create` up to the end of the first pass. -/
def createSymbols (db : Database ω) : Option (Pdb T) :=
  match policydbInit L db with
  | none => none
  | some pdb => firstPass L others db.mls pdb db.nodes

end Create

section Arrays

variable {T : Type} (L : SymtabLib T)

/-- An array of names, in memory that is not initialised. -/
abbrev NameArray := List (Option String)

/-- The functions `__cil_*_val_array_insert`. -/
def valArrayInsert (nprim : Nat) (names : NameArray) (entry : String × Symbol) :
    Option NameArray :=
  if entry.2.value < 1 ∨ nprim < entry.2.value then none
  else some (names.set (entry.2.value - 1) (some entry.1))

/-- `hashtab_map` over the entries in some order. -/
def valArrayCreate (nprim : Nat) (order : List (String × Symbol)) : Option NameArray :=
  order.foldlM (valArrayInsert nprim) (List.replicate nprim none)

/-- `__cil_policydb_val_arrays_create`, with the orders in which the tables are visited. -/
def valArraysCreate (pdb : Pdb T) (order : Sym → List (String × Symbol)) :
    Option (Sym → NameArray) := do
  let create (sym : Sym) : Option NameArray := valArrayCreate (L.nprim (pdb sym)) (order sym)
  let commons ← create .commons
  let classes ← create .classes
  let roles ← create .roles
  let types ← create .types
  let users ← create .users
  let bools ← create .bools
  let levels ← create .levels
  let cats ← create .cats
  some fun
    | .commons => commons
    | .classes => classes
    | .roles => roles
    | .types => types
    | .users => users
    | .bools => bools
    | .levels => levels
    | .cats => cats

/-- The array names the primary symbols by their values. -/
def NamesPrimary (t : T) (names : NameArray) : Prop :=
  ∀ v, 1 ≤ v → v ≤ L.nprim t →
    ∃ key, names[v - 1]? = some (some key) ∧ (key, ⟨v, false⟩) ∈ L.entries t

/-- In whatever order the tables are visited, the arrays are made and name the primary symbols. -/
def ArraysName (pdb : Pdb T) : Prop :=
  ∀ order : Sym → List (String × Symbol), (∀ sym, (order sym).Perm (L.entries (pdb sym))) →
    ∃ arrays, valArraysCreate L pdb order = some arrays ∧
      ∀ sym, NamesPrimary L (pdb sym) (arrays sym)

end Arrays

end Cil.Binary.ValArrays
