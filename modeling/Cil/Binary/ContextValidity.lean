/- Cil/Binary/ContextValidity
   digest: The roles, types and ranges that a binary policy allows, and the contexts valid in it. -/

import Cil.Binary.MlsRanges
import Cil.Verify.ContextExact

set_option autoImplicit false
set_option relaxedAutoImplicit false

namespace Cil.Binary.ContextValidity

open Library
open ValArrays (SymtabLib Symbol Sym search createSymbols)
open MlsRanges (MlsLevel MlsRange LevelValid RangeValid cilLevelToMlsLevel cilLevelrangeToMlsRange)
open Verify (RoleDatum TypeDatum Userrole Context EnumBitmap Level LevelRange RoleOf UserRole
  Collected Valid WellFormed Dominated expandRole bitSet)

section Policies

/-- A resolved and post-processed database, with the orders, the qualified names, of which each
belongs to one declaration of its kind, and the arrays of roles and types. -/
structure Program (β δ σ κ : Type) [DecidableEq δ] where
  db : Verify.Database β δ σ κ
  source : MlsRanges.Source σ κ
  sensitivities : source.sensitivities = db.sensitivities
  mls : Bool
  dftlevel : δ → Level σ κ
  userName : δ → String
  roleName : δ → String
  typeName : δ → String
  userName_injective : Function.Injective userName
  roleName_injective : Function.Injective roleName
  typeName_injective : Function.Injective typeName
  roleValue : δ → Nat
  valToType : Nat → Option δ
  typeValue_valToType : ∀ i t, valToType i = some t → db.numbers.typeValue t = i

/-- The bitmaps of the roles and users in the policy, and the levels and ranges of the users. -/
structure Authorized (β : Type) where
  roleTypes : String → β
  userRoles : String → β
  userLevel : String → MlsLevel β
  userRange : String → MlsRange β

/-- The type that a name stands for, or one of the types of the attribute. -/
def Program.TypeOf {β δ σ κ : Type} [DecidableEq δ] (G : Program β δ σ κ) : TypeDatum δ → δ → Prop
  | .type t', t => t = t'
  | .typeattribute a, t => ∃ bits i, G.db.numbers.attrTypes a = some bits ∧
      G.db.bitmap.getBit bits i = true ∧ G.valToType i = some t

/-- A statement gives the role the type. -/
def Program.HasType {β δ σ κ : Type} [DecidableEq δ] (G : Program β δ σ κ) (r t : δ) : Prop :=
  ∃ roletype ∈ G.db.roletypes,
    RoleOf G.db.bitmap G.db.numbers roletype.role r ∧ G.TypeOf roletype.type t

/-- The roles of userrole statements, the types of roletype statements and the type `type` are
not those of abstract blocks. -/
structure Program.Numbered {β δ σ κ : Type} [DecidableEq δ] (G : Program β δ σ κ) (type : δ) :
    Prop where
  userroles : ∀ userrole ∈ G.db.userroles, ∀ r, userrole.role = .role r →
    G.db.numbers.valToRole (G.roleValue r) = some r
  roletypes : ∀ roletype ∈ G.db.roletypes, ∀ t, roletype.type = .type t →
    G.valToType (G.db.numbers.typeValue t) = some t
  type : G.valToType (G.db.numbers.typeValue type) = some type

/-- `context_struct_t`. -/
structure SepolContext (β : Type) where
  user : Nat
  role : Nat
  type : Nat
  range : MlsRange β

/-- The nodes of the second pass that say who may have which role, type and range. -/
inductive PassNode (δ : Type)
  | role (r : δ)
  | user (u : δ)
  | userrole (statement : Userrole δ)
  deriving DecidableEq, Repr

end Policies

section Code

variable {T β δ σ κ : Type} [DecidableEq δ] (L : SymtabLib T) (G : Program β δ σ κ)
  (syms : ValArrays.Pdb T) (p : MlsRanges.Pdb T β)

def Authorized.init (D : EnumBitmap β) : Authorized β where
  roleTypes _ := D.init
  userRoles _ := D.init
  userLevel _ := ⟨0, D.init⟩
  userRange _ := ⟨⟨0, D.init⟩, ⟨0, D.init⟩⟩

/-- A turn of the loops over the bits of a bitmap, each of which is for a symbol of the policy. -/
def emitBit (D : EnumBitmap β) (t : T) (name : δ → String) (valTo : Nat → Option δ)
    (skip : Nat → Bool) (i : Nat) : Call Rc β Unit :=
  Call.orCrash (valTo i) >>= fun datum =>
  Call.orFail .err (search L t (name datum)) >>= fun sepolDatum =>
  if skip sepolDatum.value then pure ()
  else Call.modify fun bits => D.setBit bits (sepolDatum.value - 1)

def Authorized.setRoleTypes (key : String) (bits : β) (a : Authorized β) : Authorized β :=
  { a with roleTypes := Function.update a.roleTypes key bits }

def Authorized.setUserRoles (key : String) (bits : β) (a : Authorized β) : Authorized β :=
  { a with userRoles := Function.update a.userRoles key bits }

def Authorized.setUserLevel (key : String) (l : MlsLevel β) (a : Authorized β) : Authorized β :=
  { a with userLevel := Function.update a.userLevel key l }

def Authorized.setUserRange (key : String) (r : MlsRange β) (a : Authorized β) : Authorized β :=
  { a with userRange := Function.update a.userRange key r }

/-- `cil_roletype_to_policydb`. -/
def cilRoletypeToPolicydb (role : δ) : Call Rc (Authorized β) Unit :=
  match G.db.types role with
  | none => pure ()
  | some types =>
      Call.orFail .err (search L (syms .roles) (G.roleName role)) >>= fun _ =>
      Call.onPart (fun a => a.roleTypes (G.roleName role))
        (Authorized.setRoleTypes (G.roleName role))
        (Call.forEach (emitBit L G.db.bitmap (syms .types) G.typeName G.valToType fun _ => false)
          (G.db.bitmap.positions types))

/-- `cil_userrole_to_policydb`; `object_r`, of value 1, is left out. -/
def cilUserroleToPolicydb (userrole : Userrole δ) : Call Rc (Authorized β) Unit :=
  Call.orFail .err (search L (syms .users) (G.userName userrole.user)) >>= fun _ =>
  Call.orCrash (expandRole G.db.bitmap G.db.numbers G.roleValue userrole.role) >>= fun roleBitmap =>
  Call.onPart (fun a => a.userRoles (G.userName userrole.user))
    (Authorized.setUserRoles (G.userName userrole.user))
    (Call.forEach
      (emitBit L G.db.bitmap (syms .roles) G.roleName G.db.numbers.valToRole fun v => v = 1)
      (G.db.bitmap.positions roleBitmap))

/-- `cil_userlevel_userrange_to_policydb`. -/
def cilUserlevelUserrangeToPolicydb (user : δ) : Call Rc (Authorized β) Unit :=
  Call.orFail .err (search L (syms .users) (G.userName user)) >>= fun _ =>
  Call.onPart (fun a => a.userLevel (G.userName user)) (Authorized.setUserLevel (G.userName user))
    (cilLevelToMlsLevel L G.db.bitmap.toBitmap G.source p (G.dftlevel user)) >>= fun _ =>
  Call.onPart (fun a => a.userRange (G.userName user)) (Authorized.setUserRange (G.userName user))
    (cilLevelrangeToMlsRange L G.db.bitmap.toBitmap G.source p (G.db.userRange user))

/-- The second pass of `__cil_node_to_policydb`. -/
def nodeToPolicydb : PassNode δ → Call Rc (Authorized β) Unit
  | .role r => cilRoletypeToPolicydb L G syms r
  | .user u => if G.mls then cilUserlevelUserrangeToPolicydb L G syms p u else pure ()
  | .userrole statement => cilUserroleToPolicydb L G syms statement

def secondPass (nodes : List (PassNode δ)) : Call Rc (Authorized β) Unit :=
  Call.forEach (nodeToPolicydb L G syms p) nodes

/-- `__cil_get_sepol_role_datum` on the role of a context; a role attribute has no symbol. -/
def findRole : RoleDatum δ → Option Symbol
  | .role r => search L (syms .roles) (G.roleName r)
  | .roleattribute _ => none

/-- `__cil_context_to_sepol_context`. -/
def cilContextToSepolContext (ctx : Context δ σ κ) : Call Rc (SepolContext β) Unit :=
  Call.orFail .err (search L (syms .users) (G.userName ctx.user)) >>= fun sepolUser =>
  Call.orFail .err (findRole L G syms ctx.role) >>= fun sepolRole =>
  Call.orFail .err (search L (syms .types) (G.typeName ctx.type)) >>= fun sepolType =>
  Call.modify (fun c => { c with
    user := sepolUser.value
    role := sepolRole.value
    type := sepolType.value }) >>= fun _ =>
  if G.mls then
    Call.onPart SepolContext.range (fun range c => { c with range := range })
      (cilLevelrangeToMlsRange L G.db.bitmap.toBitmap G.source p ctx.range)
  else pure ()

end Code

section Validity

variable {T β : Type} (L : SymtabLib T) (B : Bitmap β) (syms : ValArrays.Pdb T)
  (p : MlsRanges.Pdb T β) (a : Authorized β)

/-- The role is `object_r`, or it has the type and the user has it. -/
def RoleAllowed (c : SepolContext β) : Prop :=
  c.role = 1 ∨ ∃ user role, (user, ⟨c.user, false⟩) ∈ L.entries (syms .users) ∧
    (role, ⟨c.role, false⟩) ∈ L.entries (syms .roles) ∧
      B.getBit (a.roleTypes role) (c.type - 1) = true ∧
        B.getBit (a.userRoles user) (c.role - 1) = true

/-- Each level of the range is inside that of the user. -/
structure Contains (user range : MlsRange β) : Prop where
  low : user.low.sens ≤ range.low.sens
  lowCats : ∀ i, B.getBit user.low.cat i = true → B.getBit range.low.cat i = true
  high : range.high.sens ≤ user.high.sens
  highCats : ∀ i, B.getBit range.high.cat i = true → B.getBit user.high.cat i = true

/-- The range is valid, and unless the role is `object_r` the user may have it. -/
def RangeAllowed (c : SepolContext β) : Prop :=
  RangeValid L B p c.range ∧ (c.role = 1 ∨
    ∃ user, (user, ⟨c.user, false⟩) ∈ L.entries (syms .users) ∧
      Contains B (a.userRange user) c.range)

/-- What the policy library takes as a valid context. -/
structure PolicyValid (mls : Bool) (c : SepolContext β) : Prop where
  user : 1 ≤ c.user ∧ c.user ≤ L.nprim (syms .users)
  role : 1 ≤ c.role ∧ c.role ≤ L.nprim (syms .roles)
  type : 1 ≤ c.type ∧ c.type ≤ L.nprim (syms .types)
  roleAllowed : RoleAllowed L B syms a c
  rangeAllowed : mls = true → RangeAllowed L B syms p a c

end Validity

section Symbols

open ValArrays (HasAlias Numbered)

variable {T : Type} {L : SymtabLib T} {t : T}

/-- In a table without aliases a symbol that is found is a primary one. -/
private theorem entry_of_search (hnone : ¬ HasAlias L t) {key : String} {sym : Symbol}
    (h : search L t key = some sym) : (key, ⟨sym.value, false⟩) ∈ L.entries t := by
  obtain ⟨before, after, hsplit, -⟩ := List.lookup_eq_some_iff.mp h
  have hmem : (key, sym) ∈ L.entries t := by
    rw [hsplit]
    exact List.mem_append_right _ List.mem_cons_self
  obtain ⟨value, isAlias⟩ := sym
  cases isAlias with
  | false => exact hmem
  | true => exact absurd ⟨_, hmem, rfl⟩ hnone

/-- The value of a symbol tells its name. -/
private theorem name_of_value (h : Numbered L t) (hnone : ¬ HasAlias L t) {key key' : String}
    {sym : Symbol}
    (hsearch : search L t key = some sym) (hentry : (key', ⟨sym.value, false⟩) ∈ L.entries t) :
    key' = key :=
  h.unique key' key sym.value hentry (entry_of_search hnone hsearch)

end Symbols

section Bits

variable {T β δ : Type} {L : SymtabLib T} {D : EnumBitmap β} {t : T} {name : δ → String}
  {valTo : Nat → Option δ} {skip : Nat → Bool}

private theorem emitBit_ok {i : Nat} {bits bits' : β}
    (hrun : emitBit L D t name valTo skip i bits = some (.ok () bits')) :
    ∃ datum sym, valTo i = some datum ∧ search L t (name datum) = some sym ∧
      bits' = if skip sym.value then bits else D.setBit bits (sym.value - 1) := by
  obtain ⟨datum, hdatum, hfound⟩ := Call.orCrash_ok hrun
  obtain ⟨sym, hsym, hlast⟩ := Call.orFail_ok hfound
  refine ⟨datum, sym, hdatum, hsym, ?_⟩
  split at hlast
  · cases hlast
    rw [if_pos ‹_›]
  · cases hlast
    rw [if_neg ‹_›]

/-- The bits that are set are those of the symbols. -/
private theorem emitBits_run (positions : List Nat) {bits bits' : β}
    (hrun : Call.forEach (emitBit L D t name valTo skip) positions bits = some (.ok () bits'))
    (v : Nat) :
    D.getBit bits' v = true ↔ D.getBit bits v = true ∨
      ∃ i ∈ positions, ∃ datum sym, valTo i = some datum ∧ search L t (name datum) = some sym ∧
        skip sym.value = false ∧ v = sym.value - 1 := by
  induction positions generalizing bits with
  | nil =>
      cases hrun
      simp
  | cons i positions ih =>
      obtain ⟨⟨⟩, bits₁, hturn, hrest⟩ := Call.bind_ok hrun
      obtain ⟨datum, sym, hdatum, hsym, rfl⟩ := emitBit_ok hturn
      rw [ih hrest, List.exists_mem_cons_iff, ← or_assoc]
      apply or_congr_left
      simp only [hdatum, hsym, Option.some.injEq, exists_and_left, exists_eq_left']
      cases hskip : skip sym.value with
      | true => simp
      | false => simp [D.getBit_setBit]

end Bits

section Levels

variable {T β σ κ : Type} [DecidableEq σ] {L : SymtabLib T} {B : Bitmap β}
  {S : MlsRanges.Source σ κ} {p : MlsRanges.Pdb T β} {nodes : List (MlsRanges.PassNode σ)}

open MlsRanges (Passed Represents)

/-- A level that was converted had no null list of categories. -/
private theorem level_represents (h : Passed L B S p nodes) {l : Level σ κ} {m m' : MlsLevel β}
    (hrun : cilLevelToMlsLevel L B S p l m = some (.ok () m')) : Represents B S m' l := by
  by_cases hnull : l.cats = some none
  · have hplace := MlsRanges.sensNames_eq (MlsRanges.getElem_position (S := S) l.sens)
    have hsearch := OrderedSymbols.search_of_mem (h.levels.has.entry _ _ hplace)
    unfold cilLevelToMlsLevel at hrun
    rw [hsearch, hnull] at hrun
    cases hrun
  · obtain ⟨m₁, hrun₁, hrepresents⟩ := MlsRanges.cilLevelToMlsLevel_run h hnull m
    rw [hrun] at hrun₁
    cases hrun₁
    exact hrepresents

private theorem range_represents (h : Passed L B S p nodes) {r : LevelRange σ κ} {m m' : MlsRange β}
    (hrun : cilLevelrangeToMlsRange L B S p r m = some (.ok () m')) :
    Represents B S m'.low r.low ∧ Represents B S m'.high r.high := by
  obtain ⟨⟨⟩, m₁, hlow, hhigh⟩ := Call.bind_ok hrun
  obtain ⟨low, hrunLow, rfl⟩ := Call.onPart_ok hlow
  obtain ⟨high, hrunHigh, rfl⟩ := Call.onPart_ok hhigh
  exact ⟨level_represents h hrunLow, level_represents h hrunHigh⟩

/-- A level of the policy dominates another one just when that holds of the levels of the source. -/
private theorem dominated_iff {low high : Level σ κ} {m m' : MlsLevel β}
    (hlow : Represents B S m low) (hhigh : Represents B S m' high) :
    Dominated S.sensitivities low high ↔
      m.sens ≤ m'.sens ∧ ∀ i, B.getBit m.cat i = true → B.getBit m'.cat i = true := by
  have hsensLow := hlow.sens
  have hsensHigh := hhigh.sens
  constructor
  · intro hdominated
    have hle := hdominated.sens
    refine ⟨by omega, fun i hi => ?_⟩
    obtain ⟨c, hc, hplace⟩ := (hlow.cats i).mp hi
    exact (hhigh.cats i).mpr ⟨c, hdominated.cats c hc, hplace⟩
  · rintro ⟨hsens, hcats⟩
    refine ⟨by omega, fun c hc => ?_⟩
    obtain ⟨i, hi⟩ := List.mem_iff_getElem?.mp (S.ordered c)
    obtain ⟨c', hc', hplace⟩ := (hhigh.cats i).mp (hcats i ((hlow.cats i).mpr ⟨c, hc, hi⟩))
    rw [hi] at hplace
    obtain rfl := Option.some.inj hplace
    exact hc'

end Levels

section Passes

variable {T β δ σ κ : Type} [DecidableEq δ] [DecidableEq σ] {L : SymtabLib T}
  {G : Program β δ σ κ} {syms : ValArrays.Pdb T} {p : MlsRanges.Pdb T β}
  {mlsNodes : List (MlsRanges.PassNode σ)}

open MlsRanges (Passed Represents)

variable (L G syms) in
/-- The bit of a role that the conversion gives a user for the statement. -/
def RoleBit (role : RoleDatum δ) (v : Nat) : Prop :=
  ∃ r sym, (∃ bits, expandRole G.db.bitmap G.db.numbers G.roleValue role = some bits ∧
      ∃ i ∈ G.db.bitmap.positions bits, G.db.numbers.valToRole i = some r) ∧
    search L (syms .roles) (G.roleName r) = some sym ∧ sym.value ≠ 1 ∧ v = sym.value - 1

variable (L G syms) in
/-- The bit of a type that the role has. -/
def TypeBit (r : δ) (v : Nat) : Prop :=
  ∃ t sym i, bitSet G.db.bitmap (G.db.types r) i = true ∧ G.valToType i = some t ∧
    search L (syms .types) (G.typeName t) = some sym ∧ v = sym.value - 1

variable (L G syms) in
/-- What the nodes before have given to roles and users. -/
structure Granted (nodes : List (PassNode δ)) (a : Authorized β) : Prop where
  userRoles : ∀ user v, G.db.bitmap.getBit (a.userRoles (G.userName user)) v = true ↔
    ∃ role, .userrole ⟨user, role⟩ ∈ nodes ∧ RoleBit L G syms role v
  roleTypes : ∀ r v, G.db.bitmap.getBit (a.roleTypes (G.roleName r)) v = true ↔
    .role r ∈ nodes ∧ TypeBit L G syms r v
  userRange : G.mls = true → ∀ u, .user u ∈ nodes →
    Represents G.db.bitmap.toBitmap G.source (a.userRange (G.userName u)).low
        (G.db.userRange u).low ∧
      Represents G.db.bitmap.toBitmap G.source (a.userRange (G.userName u)).high
        (G.db.userRange u).high

private theorem granted_init : Granted L G syms [] (Authorized.init G.db.bitmap) where
  userRoles user v := by simp [Authorized.init, G.db.bitmap.getBit_init]
  roleTypes r v := by simp [Authorized.init, G.db.bitmap.getBit_init]
  userRange _ u hu := absurd hu List.not_mem_nil

omit [DecidableEq σ] in
/-- The roles in the bitmap of a name are, if it is numbered, those that it stands for. -/
private theorem expandRole_iff {role : RoleDatum δ}
    (hnumbered : ∀ r, role = .role r → G.db.numbers.valToRole (G.roleValue r) = some r) (r : δ) :
    (∃ bits, expandRole G.db.bitmap G.db.numbers G.roleValue role = some bits ∧
      ∃ i ∈ G.db.bitmap.positions bits, G.db.numbers.valToRole i = some r) ↔
      RoleOf G.db.bitmap G.db.numbers role r := by
  simp only [G.db.bitmap.mem_positions]
  cases role with
  | role r' =>
      have hself := hnumbered r' rfl
      simp [expandRole, RoleOf, G.db.bitmap.getBit_setBit, G.db.bitmap.getBit_init, hself]
  | roleattribute attr => simp [expandRole, RoleOf]

private theorem userrole_step {nodes : List (PassNode δ)} {a a' : Authorized β}
    {statement : Userrole δ} (h : Granted L G syms nodes a)
    (hrun : cilUserroleToPolicydb L G syms statement a = some (.ok () a')) :
    Granted L G syms (.userrole statement :: nodes) a' := by
  obtain ⟨sepolUser, -, hrun⟩ := Call.orFail_ok hrun
  obtain ⟨bits, hbits, hrun⟩ := Call.orCrash_ok hrun
  obtain ⟨roles, hloop, rfl⟩ := Call.onPart_ok hrun
  have hrole := emitBits_run _ hloop
  have hbit : ∀ v, (∃ i ∈ G.db.bitmap.positions bits, ∃ datum sym,
      G.db.numbers.valToRole i = some datum ∧
        search L (syms .roles) (G.roleName datum) = some sym ∧
          decide (sym.value = 1) = false ∧ v = sym.value - 1) ↔
      RoleBit L G syms statement.role v := by
    intro v
    constructor
    · rintro ⟨i, hi, r, sym, hr, hsym, hone, hv⟩
      exact ⟨r, sym, ⟨bits, hbits, i, hi, hr⟩, hsym, of_decide_eq_false hone, hv⟩
    · rintro ⟨r, sym, ⟨bits', hbits', i, hi, hr⟩, hsym, hone, hv⟩
      rw [hbits] at hbits'
      cases hbits'
      exact ⟨i, hi, r, sym, hr, hsym, decide_eq_false hone, hv⟩
  refine ⟨fun user v => ?_, fun r v => ?_, fun hmls u hu => ?_⟩
  · show G.db.bitmap.getBit (Function.update a.userRoles (G.userName statement.user) roles
      (G.userName user)) v = true ↔ _
    by_cases huser : user = statement.user
    · subst huser
      rw [Function.update_self, hrole, h.userRoles, hbit]
      constructor
      · rintro (⟨role, hmem, hrolebit⟩ | hrolebit)
        · exact ⟨role, List.mem_cons_of_mem _ hmem, hrolebit⟩
        · exact ⟨statement.role, List.mem_cons_self, hrolebit⟩
      · rintro ⟨role, hmem, hrolebit⟩
        rcases List.mem_cons.mp hmem with heq | hmem
        · rw [← congrArg Userrole.role (PassNode.userrole.inj heq)]
          exact Or.inr hrolebit
        · exact Or.inl ⟨role, hmem, hrolebit⟩
    · rw [Function.update_of_ne fun heq => huser (G.userName_injective heq), h.userRoles]
      constructor
      · rintro ⟨role, hmem, hrolebit⟩
        exact ⟨role, List.mem_cons_of_mem _ hmem, hrolebit⟩
      · rintro ⟨role, hmem, hrolebit⟩
        rcases List.mem_cons.mp hmem with heq | hmem
        · exact absurd (congrArg Userrole.user (PassNode.userrole.inj heq)) huser
        · exact ⟨role, hmem, hrolebit⟩
  · rw [List.mem_cons, or_iff_right (by simp)]
    exact h.roleTypes r v
  · rw [List.mem_cons, or_iff_right (by simp)] at hu
    exact h.userRange hmls u hu

private theorem role_step {nodes : List (PassNode δ)} {a a' : Authorized β} {role : δ}
    (h : Granted L G syms nodes a)
    (hrun : cilRoletypeToPolicydb L G syms role a = some (.ok () a')) :
    Granted L G syms (.role role :: nodes) a' := by
  have hkeep : (∀ user v, G.db.bitmap.getBit (a'.userRoles (G.userName user)) v = true ↔
        G.db.bitmap.getBit (a.userRoles (G.userName user)) v = true) →
      a'.userRange = a.userRange →
      (∀ r v, G.db.bitmap.getBit (a'.roleTypes (G.roleName r)) v = true ↔
        G.db.bitmap.getBit (a.roleTypes (G.roleName r)) v = true ∨
          r = role ∧ TypeBit L G syms r v) →
      Granted L G syms (.role role :: nodes) a' := by
    intro huserRoles huserRange hroleTypes
    refine ⟨fun user v => ?_, fun r v => ?_, fun hmls u hu => ?_⟩
    · rw [huserRoles, h.userRoles]
      simp
    · rw [hroleTypes, h.roleTypes, List.mem_cons, PassNode.role.injEq]
      constructor
      · rintro (⟨hmem, hbit⟩ | ⟨hr, hbit⟩)
        · exact ⟨Or.inr hmem, hbit⟩
        · exact ⟨Or.inl hr, hbit⟩
      · rintro ⟨hr | hmem, hbit⟩
        · exact Or.inr ⟨hr, hbit⟩
        · exact Or.inl ⟨hmem, hbit⟩
    · rw [huserRange]
      rw [List.mem_cons, or_iff_right (by simp)] at hu
      exact h.userRange hmls u hu
  unfold cilRoletypeToPolicydb at hrun
  cases htypes : G.db.types role with
  | none =>
      rw [htypes] at hrun
      cases hrun
      refine hkeep (fun _ _ => Iff.rfl) rfl fun r v => ⟨Or.inl, ?_⟩
      rintro (hbit | ⟨rfl, t, sym, i, hset, -⟩)
      · exact hbit
      · rw [htypes] at hset
        cases hset
  | some types =>
      rw [htypes] at hrun
      obtain ⟨sepolRole, -, hset⟩ := Call.orFail_ok hrun
      obtain ⟨bits, hloop, rfl⟩ := Call.onPart_ok hset
      have htype := emitBits_run _ hloop
      refine hkeep (fun _ _ => Iff.rfl) rfl fun r v => ?_
      show G.db.bitmap.getBit (Function.update a.roleTypes (G.roleName role) bits
        (G.roleName r)) v = true ↔ _
      by_cases hr : r = role
      · subst hr
        rw [Function.update_self, htype]
        apply or_congr_right
        simp only [true_and, G.db.bitmap.mem_positions]
        unfold TypeBit
        rw [htypes]
        constructor
        · rintro ⟨i, hi, t, sym, ht, hsym, hv⟩
          exact ⟨t, sym, i, hi, ht, hsym, hv⟩
        · rintro ⟨t, sym, i, hset, ht, hsym, hv⟩
          exact ⟨i, hset, t, sym, ht, hsym, hv⟩
      · rw [Function.update_of_ne fun heq => hr (G.roleName_injective heq)]
        simp [hr]

private theorem user_step {nodes : List (PassNode δ)} {a a' : Authorized β} {user : δ}
    (hp : G.mls = true → Passed L G.db.bitmap.toBitmap G.source p mlsNodes)
    (h : Granted L G syms nodes a)
    (hrun : nodeToPolicydb L G syms p (.user user) a = some (.ok () a')) :
    Granted L G syms (.user user :: nodes) a' := by
  have hkeep : a'.userRoles = a.userRoles → a'.roleTypes = a.roleTypes →
      (G.mls = true → ∀ u, .user u ∈ PassNode.user user :: nodes →
        Represents G.db.bitmap.toBitmap G.source (a'.userRange (G.userName u)).low
            (G.db.userRange u).low ∧
          Represents G.db.bitmap.toBitmap G.source (a'.userRange (G.userName u)).high
            (G.db.userRange u).high) →
      Granted L G syms (.user user :: nodes) a' := by
    intro huserRoles hroleTypes huserRange
    refine ⟨fun u v => ?_, fun r v => ?_, huserRange⟩
    · rw [huserRoles, h.userRoles]
      simp
    · rw [hroleTypes, h.roleTypes]
      simp
  have hrun' : (if G.mls = true then cilUserlevelUserrangeToPolicydb L G syms p user
      else pure ()) a = some (.ok () a') := hrun
  by_cases hmls : G.mls = true
  · rw [if_pos hmls] at hrun'
    obtain ⟨sepolUser, -, hrun'⟩ := Call.orFail_ok hrun'
    obtain ⟨⟨⟩, a₁, hlevel, hrange⟩ := Call.bind_ok hrun'
    obtain ⟨level, -, rfl⟩ := Call.onPart_ok hlevel
    obtain ⟨range, hconvert, rfl⟩ := Call.onPart_ok hrange
    have hrepresents := range_represents (hp hmls) hconvert
    refine hkeep rfl rfl fun _ u hu => ?_
    show Represents _ _ (Function.update a.userRange (G.userName user) range (G.userName u)).low _ ∧
      Represents _ _ (Function.update a.userRange (G.userName user) range (G.userName u)).high _
    by_cases huser : u = user
    · subst huser
      rw [Function.update_self]
      exact hrepresents
    · rw [Function.update_of_ne fun heq => huser (G.userName_injective heq)]
      rcases List.mem_cons.mp hu with heq | hmem
      · cases heq
        exact absurd rfl huser
      · exact h.userRange hmls u hmem
  · rw [if_neg hmls] at hrun'
    cases hrun'
    exact hkeep rfl rfl fun hon => absurd hon hmls

private theorem secondPass_run (rest : List (PassNode δ)) {nodes : List (PassNode δ)}
    {a a' : Authorized β}
    (hp : G.mls = true → Passed L G.db.bitmap.toBitmap G.source p mlsNodes)
    (h : Granted L G syms nodes a)
    (hrun : secondPass L G syms p rest a = some (.ok () a')) :
    Granted L G syms (rest.reverse ++ nodes) a' := by
  induction rest generalizing nodes a with
  | nil =>
      cases hrun
      exact h
  | cons node rest ih =>
      obtain ⟨⟨⟩, a₁, hnode, hrest⟩ := Call.bind_ok hrun
      have hgranted : Granted L G syms (node :: nodes) a₁ := by
        cases node with
        | role r => exact role_step h hnode
        | user u => exact user_step hp h hnode
        | userrole statement => exact userrole_step h hnode
      rw [List.reverse_cons, List.append_assoc]
      exact ih hgranted hrest

end Passes

section Contexts

variable {T β δ σ κ : Type} [DecidableEq δ] [DecidableEq σ] {L : SymtabLib T}
  {G : Program β δ σ κ} {syms : ValArrays.Pdb T} {p : MlsRanges.Pdb T β}
  {mlsNodes : List (MlsRanges.PassNode σ)}

open MlsRanges (Passed Represents)

variable (L G syms) in
/-- The context of the policy stands for that of the source. -/
structure Converted (ctx : Context δ σ κ) (c : SepolContext β) : Prop where
  user : ∃ sym, search L (syms .users) (G.userName ctx.user) = some sym ∧ c.user = sym.value
  role : ∃ r sym, ctx.role = .role r ∧ search L (syms .roles) (G.roleName r) = some sym ∧
    c.role = sym.value
  type : ∃ sym, search L (syms .types) (G.typeName ctx.type) = some sym ∧ c.type = sym.value
  range : G.mls = true →
    Represents G.db.bitmap.toBitmap G.source c.range.low ctx.range.low ∧
      Represents G.db.bitmap.toBitmap G.source c.range.high ctx.range.high

private theorem context_converted {ctx : Context δ σ κ} {c₀ c : SepolContext β}
    (hp : G.mls = true → Passed L G.db.bitmap.toBitmap G.source p mlsNodes)
    (hrun : cilContextToSepolContext L G syms p ctx c₀ = some (.ok () c)) :
    Converted L G syms ctx c := by
  obtain ⟨sepolUser, huser, hrun⟩ := Call.orFail_ok hrun
  obtain ⟨sepolRole, hrole, hrun⟩ := Call.orFail_ok hrun
  obtain ⟨sepolType, htype, hrun⟩ := Call.orFail_ok hrun
  obtain ⟨⟨⟩, c₁, hvalues, hrange⟩ := Call.bind_ok hrun
  cases hvalues
  have hroles : ∃ r, ctx.role = .role r ∧
      search L (syms .roles) (G.roleName r) = some sepolRole := by
    cases hdatum : ctx.role with
    | role r =>
        rw [hdatum] at hrole
        exact ⟨r, rfl, hrole⟩
    | roleattribute attr =>
        rw [hdatum] at hrole
        cases hrole
  obtain ⟨r, hr, hsearch⟩ := hroles
  by_cases hmls : G.mls = true
  · rw [if_pos hmls] at hrange
    obtain ⟨range, hconvert, rfl⟩ := Call.onPart_ok hrange
    exact ⟨⟨sepolUser, huser, rfl⟩, ⟨r, sepolRole, hr, hsearch, rfl⟩, ⟨sepolType, htype, rfl⟩,
      fun _ => range_represents (hp hmls) hconvert⟩
  · rw [if_neg hmls] at hrange
    cases hrange
    exact ⟨⟨sepolUser, huser, rfl⟩, ⟨r, sepolRole, hr, hsearch, rfl⟩, ⟨sepolType, htype, rfl⟩,
      fun hon => absurd hon hmls⟩

omit [DecidableEq σ] in
/-- The values that statements collect for a role are those of its types. -/
private theorem collected_iff {r t : δ} (hnumbered : G.Numbered t) :
    Collected G.db.bitmap G.db.numbers G.db.roletypes r (G.db.numbers.typeValue t) ↔
      G.HasType r t := by
  apply exists_congr
  intro roletype
  apply and_congr_right
  intro hmem
  apply and_congr_right
  intro _
  cases htype : roletype.type with
  | type t' =>
    have ht' := hnumbered.roletypes roletype hmem t' htype
    have ht := hnumbered.type
    constructor
    · intro hvalue
      have hsame : G.db.numbers.typeValue t = G.db.numbers.typeValue t' := hvalue
      rw [hsame, ht'] at ht
      exact (Option.some.inj ht).symm
    · intro hsame
      exact congrArg G.db.numbers.typeValue hsame
  | typeattribute a =>
    constructor
    · rintro ⟨bits, hbits, hbit⟩
      exact ⟨bits, _, hbits, hbit, hnumbered.type⟩
    · rintro ⟨bits, i, hbits, hbit, ht⟩
      rw [← G.typeValue_valToType i t ht] at hbit
      exact ⟨bits, hbits, hbit⟩

omit [DecidableEq σ] in
/-- The bit of a type is set in a role that has the type. -/
private theorem typeBit_iff (htypes : ValArrays.Numbered L (syms .types))
    (hnone : ¬ ValArrays.HasAlias L (syms .types)) {r t : δ} {sym : Symbol}
    (hnumbered : G.Numbered t) (hsearch : search L (syms .types) (G.typeName t) = some sym) :
    TypeBit L G syms r (sym.value - 1) ↔ G.HasType r t := by
  rw [← collected_iff hnumbered, ← Verify.bitSet_roleTypes G.db.posted]
  constructor
  · rintro ⟨t', sym', i, hset, ht', hsearch', hv⟩
    have hentry := entry_of_search hnone hsearch'
    have hbound := htypes.bound _ hentry
    have hbound' := htypes.bound _ (entry_of_search hnone hsearch)
    have hvalue : sym'.value = sym.value := by
      dsimp only at hbound hbound'
      omega
    rw [hvalue] at hentry
    rw [G.typeName_injective (name_of_value htypes hnone hsearch hentry)] at ht'
    rw [G.typeValue_valToType i t ht']
    exact hset
  · intro hset
    exact ⟨t, sym, _, hset, hnumbered.type, hsearch, rfl⟩

omit [DecidableEq σ] in
/-- The bit of a role other than `object_r` is set in a user whom a statement gives the role. -/
private theorem roleBit_iff (hroles : ValArrays.Numbered L (syms .roles))
    (hnone : ¬ ValArrays.HasAlias L (syms .roles)) {role : RoleDatum δ} {r : δ} {sym : Symbol}
    (hnumbered : ∀ r, role = .role r → G.db.numbers.valToRole (G.roleValue r) = some r)
    (hsearch : search L (syms .roles) (G.roleName r) = some sym) (hone : sym.value ≠ 1) :
    RoleBit L G syms role (sym.value - 1) ↔ RoleOf G.db.bitmap G.db.numbers role r := by
  constructor
  · rintro ⟨r', sym', hrole, hsearch', -, hv⟩
    have hentry := entry_of_search hnone hsearch'
    have hbound := hroles.bound _ hentry
    have hbound' := hroles.bound _ (entry_of_search hnone hsearch)
    have hvalue : sym'.value = sym.value := by
      dsimp only at hbound hbound'
      omega
    rw [hvalue] at hentry
    rw [← G.roleName_injective (name_of_value hroles hnone hsearch hentry)]
    exact (expandRole_iff hnumbered r').mp hrole
  · intro hrole
    exact ⟨r, sym, (expandRole_iff hnumbered r).mpr hrole, hsearch, hone, rfl⟩

/-- The bitmaps of the policy allow a role and type just when the statements do. -/
private theorem roleAllowed_iff {ω : Type} {others : ω → Bool} {declared : ValArrays.Database ω}
    (hsyms : createSymbols L others declared = some syms) {nodes : List (PassNode δ)}
    {a : Authorized β} (hgranted : Granted L G syms nodes a)
    (huserroles : ∀ statement, .userrole statement ∈ nodes ↔ statement ∈ G.db.userroles)
    {ctx : Context δ σ κ} {c : SepolContext β} (hc : Converted L G syms ctx c) {r : δ}
    (hrole : ctx.role = .role r) (hvisited : .role r ∈ nodes) (hnumbered : G.Numbered ctx.type) :
    RoleAllowed L G.db.bitmap.toBitmap syms a c ↔
      c.role = 1 ∨ UserRole G.db ctx.user r ∧ G.HasType r ctx.type := by
  have htables := ValArrays.tables_createSymbols hsyms
  have hnone (sym : Sym) (hsym : sym ≠ .cats) := htables.primary sym hsym
  obtain ⟨userSym, huserSearch, huserValue⟩ := hc.user
  obtain ⟨r', roleSym, hrole', hroleSearch, hroleValue⟩ := hc.role
  obtain ⟨typeSym, htypeSearch, htypeValue⟩ := hc.type
  rw [hrole] at hrole'
  cases hrole'
  unfold RoleAllowed
  rw [huserValue, hroleValue, htypeValue]
  by_cases hone : roleSym.value = 1
  · simp [hone]
  · rw [or_iff_right hone, or_iff_right hone]
    have htype := typeBit_iff (r := r) (htables.numbered .types) (hnone .types (by decide))
      hnumbered htypeSearch
    have huser : G.db.bitmap.getBit (a.userRoles (G.userName ctx.user)) (roleSym.value - 1) = true ↔
        UserRole G.db ctx.user r := by
      rw [hgranted.userRoles]
      simp only [huserroles]
      refine exists_congr fun role => and_congr_right fun hmem => ?_
      exact roleBit_iff (htables.numbered .roles) (hnone .roles (by decide))
        (hnumbered.userroles _ hmem) hroleSearch hone
    constructor
    · rintro ⟨user, role, huserEntry, hroleEntry, htypeBit, hroleBit⟩
      rw [name_of_value (htables.numbered .users) (hnone .users (by decide)) huserSearch
        huserEntry] at hroleBit
      rw [name_of_value (htables.numbered .roles) (hnone .roles (by decide)) hroleSearch
        hroleEntry, hgranted.roleTypes] at htypeBit
      exact ⟨huser.mp hroleBit, htype.mp htypeBit.2⟩
    · rintro ⟨huserRole, hcollected⟩
      exact ⟨G.userName ctx.user, G.roleName r,
        entry_of_search (hnone .users (by decide)) huserSearch,
        entry_of_search (hnone .roles (by decide)) hroleSearch,
        (hgranted.roleTypes r _).mpr ⟨hvisited, htype.mpr hcollected⟩, huser.mpr huserRole⟩

/-- The policy allows a range just when it is well-formed and inside that of the user. -/
private theorem rangeAllowed_iff {ω : Type} {others : ω → Bool} {declared : ValArrays.Database ω}
    (hsyms : createSymbols L others declared = some syms) {nodes : List (PassNode δ)}
    {a : Authorized β} (hgranted : Granted L G syms nodes a) (hmls : G.mls = true)
    (hp : Passed L G.db.bitmap.toBitmap G.source p mlsNodes)
    {ctx : Context δ σ κ} {c : SepolContext β} (hc : Converted L G syms ctx c)
    (hvisited : .user ctx.user ∈ nodes) (hlow : .sens ctx.range.low.sens ∈ mlsNodes)
    (hhigh : .sens ctx.range.high.sens ∈ mlsNodes) :
    RangeAllowed L G.db.bitmap.toBitmap syms p a c ↔
      WellFormed G.db.sensitivities ctx.range ∧ (c.role = 1 ∨
        Dominated G.db.sensitivities (G.db.userRange ctx.user).low ctx.range.low ∧
          Dominated G.db.sensitivities ctx.range.high (G.db.userRange ctx.user).high) := by
  have htables := ValArrays.tables_createSymbols hsyms
  have hnone := htables.primary .users (by decide)
  obtain ⟨userSym, huserSearch, huserValue⟩ := hc.user
  obtain ⟨hcLow, hcHigh⟩ := hc.range hmls
  obtain ⟨huLow, huHigh⟩ := hgranted.userRange hmls ctx.user hvisited
  have hvalid := MlsRanges.rangeValid_iff hp hcLow hcHigh hlow hhigh
  have hbelow := dominated_iff huLow hcLow
  have habove := dominated_iff hcHigh huHigh
  rw [G.sensitivities] at hvalid hbelow habove
  unfold RangeAllowed
  rw [hvalid, huserValue, hbelow, habove]
  apply and_congr_right
  intro _
  apply or_congr_right
  constructor
  · rintro ⟨user, huserEntry, hcontains⟩
    rw [name_of_value (htables.numbered .users) hnone huserSearch huserEntry] at hcontains
    exact ⟨⟨hcontains.low, hcontains.lowCats⟩, hcontains.high, hcontains.highCats⟩
  · rintro ⟨⟨hsensLow, hcatsLow⟩, hsensHigh, hcatsHigh⟩
    exact ⟨G.userName ctx.user, entry_of_search hnone huserSearch,
      ⟨hsensLow, hcatsLow, hsensHigh, hcatsHigh⟩⟩

end Contexts

section Staff

open Verify (StaffName listEnumBitmap)

def staffValue : StaffName → Nat
  | .staff => 0
  | .staffRole => 1
  | .staffRoles => 2
  | .staffType => 3

def staffOf : Nat → Option StaffName
  | 0 => some .staff
  | 1 => some .staffRole
  | 2 => some .staffRoles
  | 3 => some .staffType
  | _ => none

def staffFqn : StaffName → String
  | .staff => "staff_u"
  | .staffRole => "staff_r"
  | .staffRoles => "staff_roles"
  | .staffType => "staff_t"

private theorem staffFqn_injective : Function.Injective staffFqn := by
  intro a b h
  cases a <;> cases b <;> first | rfl | exact absurd h (by decide)

private theorem staffOf_staffValue (n : StaffName) : staffOf (staffValue n) = some n := by
  cases n <;> rfl

private theorem staffValue_staffOf (i : Nat) (n : StaffName) (h : staffOf i = some n) :
    staffValue n = i := by
  match i with
  | 0 | 1 | 2 | 3 =>
      cases h
      rfl
  | _ + 4 => cases h

/-- A user with a role, the role with a type, and one sensitivity with one category. -/
def staffProgram : Program (List Nat) StaffName Unit Unit where
  db :=
    { bitmap := listEnumBitmap
      numbers := ⟨staffValue, staffOf, fun _ => none, fun _ => none⟩
      sensitivities := MlsRanges.oneLevel.sensitivities
      userroles := [⟨.staff, .role .staffRole⟩]
      roletypes := [⟨.role .staffRole, .type .staffType⟩]
      userRange := fun _ => MlsRanges.oneLevelRange
      types := Function.update (fun _ => none) .staffRole (some [3])
      posted := rfl }
  source := MlsRanges.oneLevel
  sensitivities := rfl
  mls := true
  dftlevel _ := ⟨(), none⟩
  userName := staffFqn
  roleName := staffFqn
  typeName := staffFqn
  userName_injective := staffFqn_injective
  roleName_injective := staffFqn_injective
  typeName_injective := staffFqn_injective
  roleValue := staffValue
  valToType := staffOf
  typeValue_valToType := staffValue_staffOf

def staffDeclared : ValArrays.Database Unit where
  mls := true
  classorder := []
  catorder := ["c0"]
  sensitivityorder := ["s0"]
  nodes := [⟨true, .user "staff_u"⟩, ⟨true, .role "staff_r"⟩, ⟨true, .type "staff_t"⟩]

def staffNodes : List (PassNode StaffName) :=
  [.user .staff, .role .staffRole, .userrole ⟨.staff, .role .staffRole⟩]

def staffContext : Context StaffName Unit Unit :=
  ⟨false, .staff, .role .staffRole, .staffType, MlsRanges.oneLevelRange⟩

end Staff

end Cil.Binary.ContextValidity
