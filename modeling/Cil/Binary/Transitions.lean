/- Cil/Binary/Transitions
   digest: Role, range and named type transitions in a binary policy. -/

import Cil.Library.PointerTable
import Cil.Verify.Context
import Cil.ClassPerms
import Cil.Binary.Genfs

set_option autoImplicit false
set_option relaxedAutoImplicit false

namespace Cil.Binary.Transitions

open Library
open Verify (RoleDatum TypeDatum EnumBitmap Numbers expandRole)
open ClassPerms (ItemList addClassesFromClasspermsList)
open Post.Comparators (strcmp)

section Keys

/-- The fields of `role_trans_t` that are compared. -/
structure RoleTrans where
  role : Nat
  type : Nat
  tclass : Nat
  deriving DecidableEq, Repr

/-- The fields of `range_trans_t` that are compared. -/
structure RangeTrans where
  sourceType : Nat
  targetType : Nat
  targetClass : Nat
  deriving DecidableEq, Repr

/-- The fields of `filename_trans_t` that are compared. -/
structure FilenameTrans where
  stype : Nat
  ttype : Nat
  tclass : Nat
  name : Text
  deriving DecidableEq, Repr

/-- `role_trans_hash`. -/
def roleTransHash (size : Nat) (k : RoleTrans) : Nat :=
  (k.role + k.type <<< 2 + k.tclass <<< 5) &&& (size - 1)

/-- `role_trans_compare`. -/
def roleTransCompare (a b : RoleTrans) : Int :=
  if a.role ≠ b.role ∨ a.type ≠ b.type ∨ a.tclass ≠ b.tclass then 1 else 0

/-- `range_trans_hash`. -/
def rangeTransHash (size : Nat) (k : RangeTrans) : Nat :=
  (k.targetClass + k.targetType <<< 2 + k.sourceType <<< 5) &&& (size - 1)

/-- `range_trans_compare`. -/
def rangeTransCompare (a b : RangeTrans) : Int :=
  if a.sourceType ≠ b.sourceType ∨ a.targetType ≠ b.targetType ∨ a.targetClass ≠ b.targetClass
  then 1 else 0

/-- `filename_trans_hash`. -/
def filenameTransHash (size : Nat) (k : FilenameTrans) : Nat :=
  (k.tclass + k.ttype <<< 2 + k.stype <<< 9) &&& (size - 1)

/-- `filename_trans_compare`. -/
def filenameTransCompare (a b : FilenameTrans) : Int :=
  if a.stype ≠ b.stype ∨ a.ttype ≠ b.ttype ∨ a.tclass ≠ b.tclass ∨ strcmp a.name b.name ≠ 0
  then 1 else 0

/-- The table that `ROLE_TRANS_TABLE_SIZE` is the size of. -/
def roleKeyed : Keyed RoleTrans where
  size := 1 <<< 10
  hash := roleTransHash
  compare := roleTransCompare
  compare_nonneg a b := by
    unfold roleTransCompare
    split <;> decide
  compare_eq_zero a b := by
    cases a
    cases b
    simp [roleTransCompare]

/-- The table that `RANGE_TRANS_TABLE_SIZE` is the size of. -/
def rangeKeyed : Keyed RangeTrans where
  size := 1 <<< 13
  hash := rangeTransHash
  compare := rangeTransCompare
  compare_nonneg a b := by
    unfold rangeTransCompare
    split <;> decide
  compare_eq_zero a b := by
    cases a
    cases b
    simp [rangeTransCompare]

/-- The table that `FILENAME_TRANS_TABLE_SIZE` is the size of. -/
def filenameKeyed : Keyed FilenameTrans where
  size := 1 <<< 16
  hash := filenameTransHash
  compare := filenameTransCompare
  compare_nonneg a b := by
    unfold filenameTransCompare
    split <;> decide
  compare_eq_zero a b := by
    cases a
    cases b
    simp [filenameTransCompare, Genfs.strcmp_eq_zero]

end Keys

section Statements

/-- A name that was resolved among classes and map classes. A map class has its permissions in
the order of its symbol table. -/
inductive ClassDatum (δ : Type)
  | kernel (c : δ)
  | map (perms : List δ)
  deriving DecidableEq, Repr

/-- `cil_roletransition`. -/
structure Roletransition (δ : Type) where
  src : RoleDatum δ
  tgt : TypeDatum δ
  obj : ClassDatum δ
  result : δ
  deriving DecidableEq, Repr

/-- `cil_rangetransition`. -/
structure Rangetransition (δ ρ : Type) where
  src : TypeDatum δ
  exec : TypeDatum δ
  obj : ClassDatum δ
  range : ρ
  deriving DecidableEq, Repr

/-- `cil_nametypetransition`. -/
structure Nametypetransition (δ : Type) where
  src : TypeDatum δ
  tgt : TypeDatum δ
  obj : ClassDatum δ
  name : Text
  result : δ
  deriving DecidableEq, Repr

inductive Statement (δ ρ : Type)
  | roletransition (t : Roletransition δ)
  | rangetransition (t : Rangetransition δ ρ)
  | nametypetransition (t : Nametypetransition δ)
  deriving DecidableEq, Repr

/-- What is read of a post-processed database. -/
structure Db (β δ κ : Type) where
  bitmap : EnumBitmap β
  numbers : Numbers β δ
  roleValue : δ → Nat
  valToType : Nat → Option δ
  classperms : δ → ItemList κ δ
  classOf : κ → δ

/-- What is read of the policy: the values of its symbols, and the ranges that
`__cil_levelrange_to_mls_range` makes, which `mls_range_eq` compares. -/
structure Policydb (δ ρ μ : Type) where
  sepolRole : δ → Option Nat
  sepolType : δ → Option Nat
  sepolClass : δ → Option Nat
  mlsRange : ρ → Option μ
  mls : Bool

/-- The three lists with their tables, and the other parts of the policy. -/
structure Tables (T μ R : Type) where
  roleTr : Store T RoleTrans Nat
  rangeTr : Store T RangeTrans μ
  filenameTrans : Store T FilenameTrans Nat
  rest : R

/-- "Out of memory" was logged. -/
def Tables.outOfMemory {T μ R : Type} (s : Tables T μ R) : Bool :=
  s.roleTr.outOfMemory || s.rangeTr.outOfMemory || s.filenameTrans.outOfMemory

end Statements

section Code

variable {β δ κ ρ μ T R σ : Type} (db : Db β δ κ) (pdb : Policydb δ ρ μ)
  (A : Hashtab T) (typeRule : Nametypetransition δ → R → Rc × R)

/-- `__cil_expand_type`; `none` when it copies a null bitmap. -/
def expandType : TypeDatum δ → Option β
  | .type t => some (db.bitmap.setBit db.bitmap.init (db.numbers.typeValue t))
  | .typeattribute a => db.numbers.attrTypes a

/-- `__add_classes_from_map_perms` on the permissions of a map class. -/
def addClassesFromMapPerms (fuel : Nat) : List δ → List δ → Call Rc σ (List δ)
  | [], classes => pure classes
  | p :: rest, classes =>
      match addClassesFromClasspermsList db.classperms db.classOf fuel classes
        (db.classperms p) with
      | some (.done _ classes) => addClassesFromMapPerms fuel rest classes
      | some .crash => Call.crash
      | none => Call.outOfFuel

/-- `cil_expand_class`. -/
def expandClass (fuel : Nat) : ClassDatum δ → Call Rc σ (List δ)
  | .kernel c => pure [c]
  | .map perms => addClassesFromMapPerms db fuel perms []

/-- The loops over the bits of the source, the bits of the target and the classes. -/
def insertLoops (insert : Nat → Nat → Nat → Call Rc σ Unit) (srcAt : Nat → Option δ)
    (sepolSrc : δ → Option Nat) (src tgt : List Nat) (classList : List δ) : Call Rc σ Unit :=
  Call.forEach (fun i =>
    Call.orCrash (srcAt i) >>= fun src =>
    Call.orFail .err (sepolSrc src) >>= fun sepolSrc =>
    Call.forEach (fun j =>
      Call.orCrash (db.valToType j) >>= fun tgt =>
      Call.orFail .err (pdb.sepolType tgt) >>= fun sepolTgt =>
      Call.forEach (fun c =>
        Call.orFail .err (pdb.sepolClass c) >>= fun sepolObj =>
        insert sepolSrc sepolTgt sepolObj) classList) tgt) src

def addRoleTr (k : RoleTrans) (newRole : Nat) : Call Rc (Tables T μ R) Unit :=
  Call.onPart Tables.roleTr (fun roleTr s => { s with roleTr := roleTr })
    (Store.add A roleKeyed .eexist k newRole)

/-- `cil_roletrans_to_policydb`. -/
def roletransToPolicydb (fuel : Nat) (t : Roletransition δ) : Call Rc (Tables T μ R) Unit :=
  Call.orCrash (expandRole db.bitmap db.numbers db.roleValue t.src) >>= fun roleBitmap =>
  Call.orCrash (expandType db t.tgt) >>= fun typeBitmap =>
  expandClass db fuel t.obj >>= fun classList =>
  Call.orFail .err (pdb.sepolRole t.result) >>= fun sepolResult =>
  insertLoops db pdb
    (fun role type tclass => addRoleTr A ⟨role, type, tclass⟩ sepolResult)
    db.numbers.valToRole pdb.sepolRole (db.bitmap.positions roleBitmap)
    (db.bitmap.positions typeBitmap) classList

def addFilenameTrans (k : FilenameTrans) (otype : Nat) : Call Rc (Tables T μ R) Unit :=
  Call.onPart Tables.filenameTrans
    (fun filenameTrans s => { s with filenameTrans := filenameTrans })
    (Store.add A filenameKeyed .eexist k otype)

/-- A step on the other parts of the policy. -/
def onRest (f : R → Rc × R) : Call Rc (Tables T μ R) Unit := fun s =>
  match f s.rest with
  | (.ok, rest) => some (.ok () { s with rest := rest })
  | (rc, rest) => some (.failed rc { s with rest := rest })

/-- `__cil_typetransition_to_avtab`. With the name `*` it is a rule without a name. -/
def typetransitionToAvtab (fuel : Nat) (t : Nametypetransition δ) :
    Call Rc (Tables T μ R) Unit :=
  if t.name = ['*'] then
    onRest (typeRule t)
  else
    Call.orCrash (expandType db t.src) >>= fun srcBitmap =>
    Call.orCrash (expandType db t.tgt) >>= fun tgtBitmap =>
    expandClass db fuel t.obj >>= fun classList =>
    Call.orFail .err (pdb.sepolType t.result) >>= fun sepolResult =>
    insertLoops db pdb
      (fun stype ttype tclass => addFilenameTrans A ⟨stype, ttype, tclass, t.name⟩ sepolResult)
      db.valToType pdb.sepolType (db.bitmap.positions srcBitmap)
      (db.bitmap.positions tgtBitmap) classList

/-- The lists of a new policy. -/
def Tables.init (rest : R) : Tables T μ R :=
  ⟨Store.init A roleKeyed, Store.init A rangeKeyed, Store.init A filenameKeyed, rest⟩

variable [DecidableEq μ]

def addRangeTr (k : RangeTrans) (targetRange : μ) : Call Rc (Tables T μ R) Unit :=
  Call.onPart Tables.rangeTr (fun rangeTr s => { s with rangeTr := rangeTr })
    (Store.add A rangeKeyed .eexist k targetRange)

/-- `cil_rangetransition_to_policydb`. The range is made anew for each entry. -/
def rangetransitionToPolicydb (fuel : Nat) (t : Rangetransition δ ρ) :
    Call Rc (Tables T μ R) Unit :=
  Call.orCrash (expandType db t.src) >>= fun srcBitmap =>
  Call.orCrash (expandType db t.exec) >>= fun tgtBitmap =>
  expandClass db fuel t.obj >>= fun classList =>
  insertLoops db pdb
    (fun sourceType targetType targetClass =>
      Call.orFail .err (pdb.mlsRange t.range) >>= fun targetRange =>
      addRangeTr A ⟨sourceType, targetType, targetClass⟩ targetRange)
    db.valToType pdb.sepolType (db.bitmap.positions srcBitmap)
    (db.bitmap.positions tgtBitmap) classList

/-- The statements in `__cil_node_to_policydb`. -/
def nodeToPolicydb (fuel : Nat) : Statement δ ρ → Call Rc (Tables T μ R) Unit
  | .roletransition t => roletransToPolicydb db pdb A fuel t
  | .rangetransition t =>
      if pdb.mls = true then rangetransitionToPolicydb db pdb A fuel t else pure ()
  | .nametypetransition t => typetransitionToAvtab db pdb A typeRule fuel t

/-- The walk over the statements of a policy. -/
def toPolicydb (fuel : Nat) (statements : List (Statement δ ρ)) : Call Rc (Tables T μ R) Unit :=
  Call.forEach (nodeToPolicydb db pdb A typeRule fuel) statements

end Code

end Cil.Binary.Transitions
