/- Cil/Verify/ContextExact
   digest: Which contexts pass the check, and where these are not the valid ones. -/

import Cil.Verify.Context

set_option autoImplicit false
set_option relaxedAutoImplicit false

namespace Cil.Verify

open Cil.Library

section Loop

variable {σ : Type} [DecidableEq σ] {userLow userHigh ctxLow ctxHigh : σ}

/-- After the low sensitivity of the user, that of the context must come before the high one of
the user. -/
private theorem verifyContextLoop_found (rest : List σ) :
    verifyContextLoop userLow userHigh ctxLow ctxHigh true rest = .ok ↔
      rest.idxOf ctxHigh ≤ rest.idxOf userHigh := by
  induction rest with
  | nil => simp [verifyContextLoop]
  | cons sens rest ih =>
    rw [verifyContextLoop, if_neg (by simp)]
    simp only [Bool.true_or, true_and]
    by_cases hctx : sens = ctxHigh
    · subst hctx
      simp
    · rw [if_neg hctx, List.idxOf_cons_ne _ hctx]
      by_cases huser : sens = userHigh
      · subst huser
        simp
      · rw [if_neg huser, List.idxOf_cons_ne _ huser, ih]
        omega

private theorem verifyContextLoop_ok {order : List σ} (hnodup : order.Nodup)
    (huser : userLow ∈ order) (hctx : ctxLow ∈ order) :
    verifyContextLoop userLow userHigh ctxLow ctxHigh false order = .ok ↔
      order.idxOf userLow ≤ order.idxOf ctxLow ∧
        (userHigh ∈ order → order.idxOf userLow ≤ order.idxOf userHigh →
          order.idxOf userLow ≤ order.idxOf ctxHigh ∧
            order.idxOf ctxHigh ≤ order.idxOf userHigh) := by
  induction order with
  | nil => cases huser
  | cons sens rest ih =>
    obtain ⟨hsens, hrest⟩ := List.nodup_cons.mp hnodup
    by_cases hlow : sens = userLow
    · subst hlow
      have hsame : verifyContextLoop sens userHigh ctxLow ctxHigh false (sens :: rest) =
          verifyContextLoop sens userHigh ctxLow ctxHigh true (sens :: rest) := by
        rw [verifyContextLoop, verifyContextLoop]
        simp
      rw [hsame, verifyContextLoop_found, List.idxOf_cons_self]
      simp only [Nat.zero_le, true_and, forall_const]
      constructor
      · intro h _
        exact h
      · intro h
        by_cases hmem : userHigh ∈ sens :: rest
        · exact h hmem
        · rw [List.idxOf_eq_length hmem]
          exact List.idxOf_le_length
    · have huserRest : userLow ∈ rest := (List.mem_cons.mp huser).resolve_left (Ne.symm hlow)
      rw [verifyContextLoop, List.idxOf_cons_ne _ hlow]
      by_cases hlow' : sens = ctxLow
      · subst hlow'
        simp [hlow]
      · have hctxRest : ctxLow ∈ rest := (List.mem_cons.mp hctx).resolve_left (Ne.symm hlow')
        rw [if_neg fun h => hlow' h.2.2, List.idxOf_cons_ne _ hlow']
        simp only [hlow, decide_false, Bool.or_false, Bool.false_eq_true, false_and, if_false]
        rw [ih hrest huserRest hctxRest]
        by_cases hhigh : sens = userHigh
        · subst hhigh
          simp [hsens]
        · rw [List.idxOf_cons_ne _ hhigh, List.mem_cons, or_iff_right (Ne.symm hhigh)]
          by_cases hhigh' : sens = ctxHigh
          · subst hhigh'
            rw [List.idxOf_cons_self, List.idxOf_eq_length hsens]
            constructor
            · intro h
              refine ⟨by omega, fun hmem hle => ?_⟩
              have hlt := List.idxOf_lt_length_iff.mpr hmem
              have hbetween := h.2 hmem (by omega)
              omega
            · intro h
              refine ⟨by omega, fun hmem hle => ?_⟩
              have hbetween := h.2 hmem (by omega)
              omega
          · rw [List.idxOf_cons_ne _ hhigh']
            constructor
            · intro h
              refine ⟨by omega, fun hmem hle => ?_⟩
              have hbetween := h.2 hmem (by omega)
              omega
            · intro h
              refine ⟨by omega, fun hmem hle => ?_⟩
              have hbetween := h.2 hmem (by omega)
              omega

/-- A range over an order of sensitivities, the low one not after the high one. -/
structure SensRange (order : List σ) where
  low : σ
  high : σ
  low_mem : low ∈ order
  high_mem : high ∈ order
  inOrder : order.idxOf low ≤ order.idxOf high

/-- The loop decides whether the range of the context is within that of the user. -/
theorem verifyContextLoop_contained {order : List σ} (hnodup : order.Nodup)
    (user ctx : SensRange order) :
    verifyContextLoop user.low user.high ctx.low ctx.high false order = .ok ↔
      order.idxOf user.low ≤ order.idxOf ctx.low ∧
        order.idxOf ctx.high ≤ order.idxOf user.high := by
  rw [verifyContextLoop_ok hnodup user.low_mem ctx.low_mem]
  apply and_congr_right
  intro hlow
  have hctx := ctx.inOrder
  constructor
  · intro h
    have hbetween := h user.high_mem user.inOrder
    exact hbetween.2
  · intro hhigh _ _
    have hfirst : order.idxOf user.low ≤ order.idxOf ctx.high := by omega
    exact ⟨hfirst, hhigh⟩

/-- A context at the high end of the range of its user. -/
theorem highEnd_contained : verifyContextLoop "s0" "s1" "s1" "s1" false ["s0", "s1", "s2"] = .ok :=
  (verifyContextLoop_contained (by decide)
    ⟨"s0", "s1", by decide, by decide, by decide⟩
    ⟨"s1", "s1", by decide, by decide, by decide⟩).mpr (by decide)

end Loop

section Exact

variable {β δ σ κ : Type} [DecidableEq δ] [DecidableEq σ] [DecidableEq κ]
  (db : Database β δ σ κ) (ctx : Context δ σ κ)

/-- A statement gives the role to the user, by its name or that of an attribute. -/
def UserRole (user r : δ) : Prop :=
  ∃ role, ⟨user, role⟩ ∈ db.userroles ∧ RoleOf db.bitmap db.numbers role r

/-- A valid context: the user has the role, the role has the type, and the range is well-formed
and within that of the user. -/
structure Valid : Prop where
  role : ∃ r, ctx.role = .role r ∧ UserRole db ctx.user r ∧
    Collected db.bitmap db.numbers db.roletypes r (db.numbers.typeValue ctx.type)
  range : WellFormed db.sensitivities ctx.range
  low : Dominated db.sensitivities (db.userRange ctx.user).low ctx.range.low
  high : Dominated db.sensitivities ctx.range.high (db.userRange ctx.user).high

/-- The sensitivities of the context are between those of the user, if these are in order. -/
def SensitivitiesInside : Prop :=
  let position := db.sensitivities.position
  let user := db.userRange ctx.user
  position user.low.sens ≤ position ctx.range.low.sens ∧
    (position user.low.sens ≤ position user.high.sens →
      position user.low.sens ≤ position ctx.range.high.sens ∧
        position ctx.range.high.sens ≤ position user.high.sens)

/-- A context that is right as far as names of roles, sensitivities and anonymous ranges go. -/
structure Plausible : Prop where
  role : ⟨ctx.user, ctx.role⟩ ∈ db.userroles
  type : bitSet db.bitmap (db.typesOf ctx.role) (db.numbers.typeValue ctx.type) = true
  range : ctx.range.named = false →
    WellFormed db.sensitivities ctx.range ∧ ctx.range.Readable db.sensitivities
  sensitivities : SensitivitiesInside db ctx

/-- What is then left to be right. -/
structure Complete : Prop where
  role : ∃ r, ctx.role = .role r
  range : ctx.range.named = true → WellFormed db.sensitivities ctx.range
  low : ∀ c ∈ (db.userRange ctx.user).low.categories, c ∈ ctx.range.low.categories
  high : ∀ c ∈ ctx.range.high.categories, c ∈ (db.userRange ctx.user).high.categories
  sensitivities : db.sensitivities.position ctx.range.high.sens ≤
    db.sensitivities.position (db.userRange ctx.user).high.sens

variable {db ctx}

/-- The check accepts the contexts that are right as far as it looks. -/
theorem verifyContext_ok : verifyContext db ctx = some .ok ↔ Plausible db ctx := by
  have hloop : verifyContextLoop (db.userRange ctx.user).low.sens
      (db.userRange ctx.user).high.sens ctx.range.low.sens ctx.range.high.sens false
      db.sensitivities.order = .ok ↔ SensitivitiesInside db ctx := by
    rw [verifyContextLoop_ok db.sensitivities.nodup (db.sensitivities.ordered _)
      (db.sensitivities.ordered _)]
    simp only [db.sensitivities.ordered, forall_const]
    rfl
  have hrole := mem_userRoles db.userroles ctx.user ctx.role
  unfold verifyContext
  constructor
  · intro h
    cases hroles : userRoles db.userroles ctx.user with
    | none =>
      simp only [hroles] at h
      cases h
    | some roles =>
      simp only [hroles] at h
      split at h
      · rename_i hmem
        cases htypes : db.typesOf ctx.role with
        | none =>
          simp only [htypes] at h
          cases h
        | some types =>
          simp only [htypes] at h
          split at h
          · rename_i hbit
            obtain ⟨hrange, hsens⟩ := thenCheck_ok.mp h
            refine ⟨hrole.mp ⟨roles, hroles, hmem⟩, ?_, ?_, hloop.mp (Option.some.inj hsens)⟩
            · rw [htypes]
              exact hbit
            · intro hnamed
              rw [if_neg (by simp [hnamed])] at hrange
              exact verifyLevelrange_ok.mp hrange
          · cases h
      · cases h
  · intro h
    obtain ⟨roles, hroles, hmem⟩ := hrole.mpr h.role
    have htype := h.type
    cases htypes : db.typesOf ctx.role with
    | none =>
      rw [htypes] at htype
      cases htype
    | some types =>
      rw [htypes] at htype
      have hbit : db.bitmap.getBit types (db.numbers.typeValue ctx.type) = true := htype
      simp only [hroles, if_pos hmem, if_pos hbit]
      rw [thenCheck_ok]
      refine ⟨?_, congrArg some (hloop.mpr h.sensitivities)⟩
      cases hnamed : ctx.range.named with
      | true => rfl
      | false => exact verifyLevelrange_ok.mpr (h.range hnamed)

/-- A plausible context is valid if what is left is right as well. -/
theorem valid_iff_complete (h : Plausible db ctx) : Valid db ctx ↔ Complete db ctx := by
  constructor
  · intro hvalid
    obtain ⟨r, hr, -⟩ := hvalid.role
    exact ⟨⟨r, hr⟩, fun _ => hvalid.range, hvalid.low.cats, hvalid.high.cats, hvalid.high.sens⟩
  · intro hcomplete
    obtain ⟨r, hr⟩ := hcomplete.role
    refine ⟨⟨r, hr, ⟨ctx.role, h.role, ?_⟩, ?_⟩, ?_, ⟨h.sensitivities.1, hcomplete.low⟩,
      ⟨hcomplete.sensitivities, hcomplete.high⟩⟩
    · rw [hr]
      exact rfl
    · have htype := h.type
      rw [hr] at htype
      exact (bitSet_roleTypes db.posted r _).mp htype
    · cases hnamed : ctx.range.named with
      | true => exact hcomplete.range hnamed
      | false => exact (h.range hnamed).1

/-- A valid context is plausible if the statements name its role itself and no list of its
anonymous range is null. -/
private theorem plausible_of_valid (h : Valid db ctx) (hrole : ⟨ctx.user, ctx.role⟩ ∈ db.userroles)
    (hrange : ctx.range.named = false → ctx.range.Readable db.sensitivities) :
    Plausible db ctx := by
  obtain ⟨r, hr, -, htype⟩ := h.role
  refine ⟨hrole, ?_, fun hnamed => ⟨h.range, hrange hnamed⟩, h.low.sens, ?_⟩
  · rw [hr]
    exact (bitSet_roleTypes db.posted r _).mpr htype
  · intro horder
    exact ⟨le_trans h.low.sens h.range.dominated.sens, h.high.sens⟩

/-- `__cil_verify_context` accepts exactly the valid contexts among those of which this holds: if
the context is valid, the statements name its role itself and no list of its anonymous range is
null, and if it is plausible, what is left is right as well. -/
theorem verifyContext_exact_iff (db : Database β δ σ κ) (ctx : Context δ σ κ) :
    (verifyContext db ctx = some .ok ↔ Valid db ctx) ↔
      (Valid db ctx → ⟨ctx.user, ctx.role⟩ ∈ db.userroles ∧
        (ctx.range.named = false → ctx.range.Readable db.sensitivities)) ∧
      (Plausible db ctx → Complete db ctx) := by
  rw [verifyContext_ok]
  constructor
  · intro h
    constructor
    · intro hvalid
      have hright := h.mpr hvalid
      exact ⟨hright.role, fun hnamed => (hright.range hnamed).2⟩
    · intro hright
      exact (valid_iff_complete hright).mp (h.mp hright)
  · intro h
    constructor
    · intro hright
      exact (valid_iff_complete hright).mpr (h.2 hright)
    · intro hvalid
      obtain ⟨hrole, hrange⟩ := h.1 hvalid
      exact plausible_of_valid hvalid hrole hrange

end Exact

section Staff

/-- The names of a user, its role, an attribute with this role, and a type. -/
inductive StaffName
  | staff
  | staffRole
  | staffRoles
  | staffType
  deriving DecidableEq, Repr

/-- The user has the named role and a range without categories. -/
def staffDatabase (role : RoleDatum StaffName) : Database (Finset Nat) StaffName Unit Unit where
  bitmap := finsetEnumBitmap
  numbers := ⟨fun _ => 0, fun _ => some .staffRole, fun _ => some {0}, fun _ => none⟩
  sensitivities := ⟨[()], fun _ => some [some [()]], List.nodup_singleton (), by simp⟩
  userroles := [⟨.staff, role⟩]
  roletypes := [⟨.role .staffRole, .type .staffType⟩]
  userRange _ := ⟨false, ⟨(), none⟩, ⟨(), none⟩⟩
  types := Function.update (fun _ => none) .staffRole (some (insert 0 ∅))
  posted := rfl

/-- A context of the user with the categories at its high level. -/
def staffContext (cats : Option (Cats Unit)) : Context StaffName Unit Unit :=
  ⟨false, .staff, .role .staffRole, .staffType, ⟨false, ⟨(), none⟩, ⟨(), cats⟩⟩⟩

/-- A valid context is rejected if the user has the role by an attribute, and a context is
accepted although its high level has a category that the user has not. -/
theorem verifyContext_not_exact :
    (Valid (staffDatabase (.roleattribute .staffRoles)) (staffContext none) ∧
      verifyContext (staffDatabase (.roleattribute .staffRoles)) (staffContext none) =
        some .err) ∧
    verifyContext (staffDatabase (.role .staffRole)) (staffContext (some (some [()]))) =
      some .ok ∧
    ¬ Valid (staffDatabase (.role .staffRole)) (staffContext (some (some [()]))) := by
  have hnone : ∀ c : Unit, c ∉ (⟨(), none⟩ : Level Unit Unit).categories := by
    intro c hc
    cases hc
  refine ⟨⟨⟨⟨.staffRole, rfl, ?_, ?_⟩, ⟨⟨le_refl 0, ?_⟩, ?_, ?_⟩, ⟨le_refl 0, ?_⟩,
    ⟨le_refl 0, ?_⟩⟩, rfl⟩, rfl, ?_⟩
  · exact ⟨.roleattribute .staffRoles, List.mem_singleton_self _, {0}, 0, rfl, rfl, rfl⟩
  · exact ⟨_, List.mem_singleton_self _, rfl, rfl⟩
  all_goals try exact fun c hc => absurd hc (hnone c)
  intro hvalid
  have hc : () ∈ (⟨(), some (some [()])⟩ : Level Unit Unit).categories := List.mem_singleton_self ()
  exact hnone () (hvalid.high.cats () hc)

end Staff

end Cil.Verify
