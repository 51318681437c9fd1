/- Cil/Verify/Context
   digest: The roles of users, the types of roles, and the check of a context against them. -/

import Mathlib.Data.Finset.Sort
import Mathlib.Logic.Function.Basic
import Cil.Library.Bitmap
import Cil.Verify.Levels

set_option autoImplicit false
set_option relaxedAutoImplicit false

namespace Cil.Verify

open Cil.Library

/-- A name that was resolved among roles and role attributes. -/
inductive RoleDatum (δ : Type)
  | role (r : δ)
  | roleattribute (a : δ)
  deriving DecidableEq, Repr

/-- A name that was resolved among types and type attributes, aliases followed. -/
inductive TypeDatum (δ : Type)
  | type (t : δ)
  | typeattribute (a : δ)
  deriving DecidableEq, Repr

/-- `cil_userrole`. -/
structure Userrole (δ : Type) where
  user : δ
  role : RoleDatum δ
  deriving DecidableEq, Repr

/-- `cil_roletype`. -/
structure Roletype (δ : Type) where
  role : RoleDatum δ
  type : TypeDatum δ
  deriving DecidableEq, Repr

/-- `cil_context`; the name of its role may be that of a role attribute. -/
structure Context (δ σ κ : Type) where
  named : Bool
  user : δ
  role : RoleDatum δ
  type : δ
  range : LevelRange σ κ
  deriving DecidableEq, Repr

/-- A bitmap with `ebitmap_for_each_bit`. -/
structure EnumBitmap (β : Type) extends Bitmap β where
  positions : β → List Nat
  mem_positions : ∀ b i, i ∈ positions b ↔ getBit b i = true

/-- Finite sets, with their positions in increasing order. -/
def finsetEnumBitmap : EnumBitmap (Finset Nat) where
  toBitmap := finsetBitmap
  positions b := b.sort (· ≤ ·)
  mem_positions b i := by simp [finsetBitmap]

/-- A bitmap is the list of the bits that were set. -/
def listEnumBitmap : EnumBitmap (List Nat) where
  getBit b i := decide (i ∈ b)
  init := []
  setBit b v := v :: b
  union b c := b ++ c
  or b c := b ++ c
  and b c := b.filter fun i => decide (i ∈ c)
  xor b c := b.filter (fun i => decide (i ∉ c)) ++ c.filter fun i => decide (i ∉ b)
  not b max := (List.range max).filter fun i => decide (i ∉ b)
  positions := id
  getBit_init i := by simp
  getBit_setBit b v i := by simp [Bool.or_comm]
  getBit_union b c i := by simp
  getBit_or b c i := by simp
  getBit_and b c i := by simp
  getBit_xor b c i := by
    by_cases hb : i ∈ b <;> by_cases hc : i ∈ c <;> simp [hb, hc]
  getBit_not b max i := by simp
  mem_positions b i := by simp

/-- The values of types and roles, and the bitmaps of attributes, null where an attribute was not
reached. -/
structure Numbers (β δ : Type) where
  typeValue : δ → Nat
  valToRole : Nat → Option δ
  attrRoles : δ → Option β
  attrTypes : δ → Option β

section Collection

variable {β δ : Type} [DecidableEq δ] (B : EnumBitmap β) (N : Numbers β δ)

/-- `cil_resolve_userrole`, on the field `roles` of the users. -/
def resolveUserrole (roles : δ → Option (List (RoleDatum δ))) (userrole : Userrole δ) :
    δ → Option (List (RoleDatum δ)) :=
  Function.update roles userrole.user
    (some ((roles userrole.user).getD [] ++ [userrole.role]))

/-- The field `roles` after all statements. -/
def userRoles (userroles : List (Userrole δ)) : δ → Option (List (RoleDatum δ)) :=
  userroles.foldl resolveUserrole fun _ => none

/-- `__cil_role_assign_types`, on the field `types` of the roles. -/
def roleAssignTypes (types : δ → Option β) (role : δ) : TypeDatum δ → Option (δ → Option β)
  | .type t =>
      some (Function.update types role
        (some (B.setBit ((types role).getD B.init) (N.typeValue t))))
  | .typeattribute a =>
      (N.attrTypes a).map fun bits =>
        Function.update types role (some (B.union ((types role).getD B.init) bits))

/-- The loop over the roles of an attribute. -/
def assignLoop (datum : TypeDatum δ) : List Nat → (δ → Option β) → Option (δ → Option β)
  | [], types => some types
  | i :: rest, types => do
      let role ← N.valToRole i
      let types ← roleAssignTypes B N types role datum
      assignLoop datum rest types

/-- `__cil_post_db_roletype_helper` on a statement. -/
def postDbRoletypeHelper (types : δ → Option β) (roletype : Roletype δ) :
    Option (δ → Option β) :=
  match roletype.role with
  | .role r => roleAssignTypes B N types r roletype.type
  | .roleattribute a => do
      let roles ← N.attrRoles a
      assignLoop B N roletype.type (B.positions roles) types

/-- The field `types` after all statements. -/
def roleTypes (roletypes : List (Roletype δ)) : Option (δ → Option β) :=
  roletypes.foldlM (postDbRoletypeHelper B N) fun _ => none

/-- The role that a name stands for, or one of the roles of the attribute. -/
def RoleOf : RoleDatum δ → δ → Prop
  | .role r', r => r' = r
  | .roleattribute a, r =>
      ∃ bits i, N.attrRoles a = some bits ∧ B.getBit bits i = true ∧ N.valToRole i = some r

/-- The values of the types that a name stands for. -/
def ValueOf : TypeDatum δ → Nat → Prop
  | .type t, v => v = N.typeValue t
  | .typeattribute a, v => ∃ bits, N.attrTypes a = some bits ∧ B.getBit bits v = true

/-- `__cil_expand_role`. -/
def expandRole (roleValue : δ → Nat) : RoleDatum δ → Option β
  | .role r => some (B.setBit B.init (roleValue r))
  | .roleattribute a => N.attrRoles a

/-- The bit in a bitmap, none of whose bits are set when it is null. -/
def bitSet (bits : Option β) (v : Nat) : Bool :=
  match bits with
  | some bits => B.getBit bits v
  | none => false

end Collection

/-- What the check of contexts reads of a resolved and post-processed database. -/
structure Database (β δ σ κ : Type) [DecidableEq δ] where
  bitmap : EnumBitmap β
  numbers : Numbers β δ
  sensitivities : Sensitivities σ κ
  userroles : List (Userrole δ)
  roletypes : List (Roletype δ)
  userRange : δ → LevelRange σ κ
  types : δ → Option β
  posted : roleTypes bitmap numbers roletypes = some types

section Check

variable {β δ σ κ : Type} [DecidableEq δ] [DecidableEq σ] [DecidableEq κ] (db : Database β δ σ κ)

/-- The field `types` read through a pointer to a role. A role attribute has its roles in this
place. -/
def Database.typesOf : RoleDatum δ → Option β
  | .role r => db.types r
  | .roleattribute a => db.numbers.attrRoles a

/-- The last loop of `__cil_verify_context`. -/
def verifyContextLoop (userLow userHigh ctxLow ctxHigh : σ) : Bool → List σ → Rc
  | _, [] => .ok
  | found, sens :: rest =>
      if found = false ∧ sens ≠ userLow ∧ sens = ctxLow then .err
      else
        let found := found || decide (sens = userLow)
        if found = true ∧ sens = ctxHigh then .ok
        else if found = true ∧ sens = userHigh then .err
        else verifyContextLoop userLow userHigh ctxLow ctxHigh found rest

/-- `__cil_verify_context`. -/
def verifyContext (ctx : Context δ σ κ) : Option Rc :=
  let userRange := db.userRange ctx.user
  match userRoles db.userroles ctx.user with
  | none => some .err
  | some roles =>
      if ctx.role ∈ roles then
        match db.typesOf ctx.role with
        | none => some .err
        | some types =>
            if db.bitmap.getBit types (db.numbers.typeValue ctx.type) = true then
              thenCheck
                (if ctx.range.named then some .ok else verifyLevelrange db.sensitivities ctx.range)
                (some (verifyContextLoop userRange.low.sens userRange.high.sens
                  ctx.range.low.sens ctx.range.high.sens false db.sensitivities.order))
            else some .err
      else some .err

end Check

section Collected

variable {β δ : Type} [DecidableEq δ] {B : EnumBitmap β} {N : Numbers β δ}

/-- The roles of a user are those that the statements name. -/
theorem mem_userRoles (userroles : List (Userrole δ)) (user : δ) (role : RoleDatum δ) :
    (∃ roles, userRoles userroles user = some roles ∧ role ∈ roles) ↔
      ⟨user, role⟩ ∈ userroles := by
  have hfold : ∀ init : δ → Option (List (RoleDatum δ)),
      (∃ roles, userroles.foldl resolveUserrole init user = some roles ∧ role ∈ roles) ↔
        (∃ roles, init user = some roles ∧ role ∈ roles) ∨ ⟨user, role⟩ ∈ userroles := by
    induction userroles with
    | nil => simp
    | cons userrole rest ih =>
      intro init
      rw [List.foldl_cons, ih, List.mem_cons, ← or_assoc]
      apply or_congr_left
      obtain ⟨user', role'⟩ := userrole
      by_cases huser : user = user'
      · subst huser
        simp only [resolveUserrole, Function.update_self, Option.some.injEq, exists_eq_left',
          List.mem_append, List.mem_singleton, Userrole.mk.injEq, true_and]
        apply or_congr_left
        cases init user <;> simp
      · simp [resolveUserrole, huser]
  rw [userRoles, hfold]
  simp

private theorem bitSet_roleAssignTypes {types types' : δ → Option β} {role : δ}
    {datum : TypeDatum δ}
    (h : roleAssignTypes B N types role datum = some types') (r : δ) (v : Nat) :
    bitSet B (types' r) v = true ↔
      bitSet B (types r) v = true ∨ r = role ∧ ValueOf B N datum v := by
  have hgetD : ∀ bits : Option β, B.getBit (bits.getD B.init) v = bitSet B bits v := by
    intro bits
    cases bits with
    | none => exact B.getBit_init v
    | some bits => rfl
  by_cases hr : r = role
  · subst hr
    cases datum with
    | type t =>
      cases h
      rw [Function.update_self]
      simp [bitSet, B.getBit_setBit, hgetD, ValueOf]
    | typeattribute a =>
      obtain ⟨bits, hbits, rfl⟩ := Option.map_eq_some_iff.mp h
      rw [Function.update_self]
      simp [bitSet, B.getBit_union, hgetD, ValueOf, hbits]
  · cases datum with
    | type t =>
      cases h
      rw [Function.update_of_ne hr]
      simp [hr]
    | typeattribute a =>
      obtain ⟨bits, hbits, rfl⟩ := Option.map_eq_some_iff.mp h
      rw [Function.update_of_ne hr]
      simp [hr]

private theorem bitSet_assignLoop {datum : TypeDatum δ} {positions : List Nat}
    {types types' : δ → Option β} (h : assignLoop B N datum positions types = some types')
    (r : δ) (v : Nat) :
    bitSet B (types' r) v = true ↔ bitSet B (types r) v = true ∨
      (∃ i ∈ positions, N.valToRole i = some r) ∧ ValueOf B N datum v := by
  induction positions generalizing types with
  | nil =>
    cases h
    simp
  | cons i rest ih =>
    rw [assignLoop] at h
    obtain ⟨role, hrole, h⟩ := Option.bind_eq_some_iff.mp h
    obtain ⟨types₁, hassign, h⟩ := Option.bind_eq_some_iff.mp h
    rw [ih h, bitSet_roleAssignTypes hassign, or_assoc, ← or_and_right]
    apply or_congr_right
    apply and_congr_left
    intro hv
    simp only [List.mem_cons, or_and_right, exists_or, exists_eq_left, hrole, Option.some.injEq]
    apply or_congr_left
    exact eq_comm

private theorem bitSet_postDbRoletypeHelper {types types' : δ → Option β} {roletype : Roletype δ}
    (h : postDbRoletypeHelper B N types roletype = some types') (r : δ) (v : Nat) :
    bitSet B (types' r) v = true ↔ bitSet B (types r) v = true ∨
      RoleOf B N roletype.role r ∧ ValueOf B N roletype.type v := by
  unfold postDbRoletypeHelper at h
  cases hrole : roletype.role with
  | role r' =>
    rw [hrole] at h
    rw [bitSet_roleAssignTypes h, RoleOf]
    apply or_congr_right
    apply and_congr_left
    intro hv
    exact eq_comm
  | roleattribute a =>
    rw [hrole] at h
    obtain ⟨roles, hroles, h⟩ := Option.bind_eq_some_iff.mp h
    rw [bitSet_assignLoop h]
    apply or_congr_right
    apply and_congr_left
    intro hv
    simp [RoleOf, hroles, B.mem_positions]

/-- A roletype statement, or several, give the type of value `v` to the role. -/
def Collected (B : EnumBitmap β) (N : Numbers β δ) (roletypes : List (Roletype δ)) (r : δ)
    (v : Nat) : Prop :=
  ∃ roletype ∈ roletypes, RoleOf B N roletype.role r ∧ ValueOf B N roletype.type v

/-- The types of a role are those that the statements give it. -/
theorem bitSet_roleTypes {roletypes : List (Roletype δ)} {types : δ → Option β}
    (h : roleTypes B N roletypes = some types) (r : δ) (v : Nat) :
    bitSet B (types r) v = true ↔ Collected B N roletypes r v := by
  have hfold : ∀ init types : δ → Option β,
      roletypes.foldlM (postDbRoletypeHelper B N) init = some types →
      (bitSet B (types r) v = true ↔
        bitSet B (init r) v = true ∨ Collected B N roletypes r v) := by
    clear h
    induction roletypes with
    | nil =>
      intro init types h
      cases h
      simp [Collected]
    | cons roletype rest ih =>
      intro init types h
      rw [List.foldlM_cons] at h
      obtain ⟨types₁, hfirst, h⟩ := Option.bind_eq_some_iff.mp h
      rw [ih types₁ types h, bitSet_postDbRoletypeHelper hfirst, or_assoc]
      apply or_congr_right
      simp [Collected]
  rw [hfold _ types h]
  simp [bitSet]

end Collected

end Cil.Verify
