/- Cil/Verify/Levels
   digest: Levels and level ranges, and the check that a range is well-formed. -/

import Mathlib.Data.List.Nodup
import Cil.Basic

set_option autoImplicit false
set_option relaxedAutoImplicit false

namespace Cil.Verify

/-- `cil_cats` after post-processing: its list of categories, null when its expression stands for
no category. -/
abbrev Cats (κ : Type) := Option (List κ)

/-- A resolved `cil_level`. -/
structure Level (σ κ : Type) where
  sens : σ
  cats : Option (Cats κ)
  deriving DecidableEq, Repr

/-- A resolved `cil_levelrange`; an anonymous one has no name. -/
structure LevelRange (σ κ : Type) where
  named : Bool
  low : Level σ κ
  high : Level σ κ
  deriving DecidableEq, Repr

/-- `sensitivityorder`, which the end of `CIL_PASS_MISC1` has made complete, and the field
`cats_list` of the sensitivities. -/
structure Sensitivities (σ κ : Type) where
  order : List σ
  catsList : σ → Option (List (Cats κ))
  nodup : order.Nodup
  ordered : ∀ s, s ∈ order

section Meaning

variable {σ κ : Type} [DecidableEq σ] (S : Sensitivities σ κ)

/-- The categories of a level. -/
def Level.categories (l : Level σ κ) : List κ :=
  match l.cats with
  | some (some cats) => cats
  | _ => []

/-- The place of a sensitivity in the order. -/
def Sensitivities.position (s : σ) : Nat := S.order.idxOf s

/-- The high level dominates the low one. -/
structure Dominated (low high : Level σ κ) : Prop where
  sens : S.position low.sens ≤ S.position high.sens
  cats : ∀ c ∈ low.categories, c ∈ high.categories

/-- A `sensitivitycategory` statement associates the category with the sensitivity. -/
def Associated (s : σ) (c : κ) : Prop :=
  ∃ lists, S.catsList s = some lists ∧ ∃ cats, some cats ∈ lists ∧ c ∈ cats

structure WellFormed (r : LevelRange σ κ) : Prop where
  dominated : Dominated S r.low r.high
  low : ∀ c ∈ r.low.categories, Associated S r.low.sens c
  high : ∀ c ∈ r.high.categories, Associated S r.high.sens c

end Meaning

section Check

variable {σ κ : Type} [DecidableEq σ] [DecidableEq κ]

/-- `__cil_is_cat_in_cats`; `none` here and below where a null pointer is followed. -/
def isCatInCats (cat : κ) (cats : Cats κ) : Option Bool := cats.map fun list => list.contains cat

/-- The loop of `__cil_verify_levelrange_sensitivity`. -/
def verifySensitivityLoop (low high : σ) : Bool → List σ → Rc
  | _, [] => .err
  | found, s :: rest =>
      let found := found || decide (s = low)
      if found = true ∧ s = high then .ok else verifySensitivityLoop low high found rest

/-- `__cil_verify_levelrange_sensitivity`. -/
def verifyLevelrangeSensitivity (S : Sensitivities σ κ) (low high : σ) : Rc :=
  verifySensitivityLoop low high false S.order

/-- The loop of `__cil_verify_levelrange_cats`. -/
def verifyCatsLoop (high : Cats κ) : List κ → Option Rc
  | [] => some .ok
  | cat :: rest =>
      match isCatInCats cat high with
      | none => none
      | some true => verifyCatsLoop high rest
      | some false => some .err

/-- `__cil_verify_levelrange_cats`. -/
def verifyLevelrangeCats (low high : Option (Cats κ)) : Option Rc :=
  match low, high with
  | none, _ => some .ok
  | some _, none => some .err
  | some none, some _ => none
  | some (some cats), some high => verifyCatsLoop high cats

/-- The inner loop of `__cil_verify_cats_associated_with_sens`. -/
def isCatInAny (cat : κ) : List (Cats κ) → Option Bool
  | [] => some false
  | cats :: rest =>
      match isCatInCats cat cats with
      | none => none
      | some true => some true
      | some false => isCatInAny cat rest

/-- Its outer loop. -/
def verifyAssociatedLoop (lists : List (Cats κ)) : List κ → Rc → Option Rc
  | [], rc => some rc
  | cat :: rest, rc =>
      match isCatInAny cat lists with
      | none => none
      | some true => verifyAssociatedLoop lists rest rc
      | some false => verifyAssociatedLoop lists rest .err

/-- `__cil_verify_cats_associated_with_sens`. -/
def verifyCatsAssociatedWithSens (S : Sensitivities σ κ) (sens : σ) (cats : Option (Cats κ)) :
    Option Rc :=
  match cats with
  | none => some .ok
  | some cats =>
      match S.catsList sens with
      | none => some .err
      | some lists =>
          match cats with
          | none => none
          | some cats => verifyAssociatedLoop lists cats .ok

/-- A check, and the next one if it has succeeded. -/
def thenCheck (check next : Option Rc) : Option Rc :=
  match check with
  | some .ok => next
  | check => check

/-- `__cil_verify_levelrange`. -/
def verifyLevelrange (S : Sensitivities σ κ) (lr : LevelRange σ κ) : Option Rc :=
  thenCheck (some (verifyLevelrangeSensitivity S lr.low.sens lr.high.sens))
    (thenCheck (verifyLevelrangeCats lr.low.cats lr.high.cats)
      (thenCheck (verifyCatsAssociatedWithSens S lr.low.sens lr.low.cats)
        (verifyCatsAssociatedWithSens S lr.high.sens lr.high.cats)))

attribute [simp] verifySensitivityLoop verifyCatsLoop isCatInAny verifyAssociatedLoop

theorem thenCheck_ok {check next : Option Rc} :
    thenCheck check next = some .ok ↔ check = some .ok ∧ next = some .ok := by
  unfold thenCheck
  split
  · simp
  · rename_i hne
    constructor
    · intro h
      exact absurd h hne
    · intro h
      exact absurd h.1 hne

end Check

section Exact

variable {σ κ : Type} [DecidableEq σ] [DecidableEq κ] {S : Sensitivities σ κ}

/-- The loop finds the high sensitivity at or after the low one. -/
private theorem verifySensitivityLoop_ok {low high : σ} {found : Bool} {order : List σ}
    (hnodup : order.Nodup) (hhigh : high ∈ order) (hlow : found = false → low ∈ order) :
    verifySensitivityLoop low high found order = .ok ↔
      found = true ∨ order.idxOf low ≤ order.idxOf high := by
  induction order generalizing found with
  | nil => cases hhigh
  | cons s rest ih =>
    obtain ⟨hs, hrest⟩ := List.nodup_cons.mp hnodup
    rw [verifySensitivityLoop]
    by_cases hsHigh : s = high
    · subst hsHigh
      rw [List.idxOf_cons_self]
      cases found with
      | true => simp
      | false =>
        by_cases hsLow : s = low
        · subst hsLow
          simp
        · have hnot : verifySensitivityLoop low s false rest ≠ .ok := by
            have hmiss : ∀ found, verifySensitivityLoop low s found rest ≠ .ok := by
              clear ih hhigh hlow hnodup hrest
              induction rest with
              | nil =>
                intro found h
                cases h
              | cons t rest ih =>
                intro found h
                rw [verifySensitivityLoop, if_neg] at h
                · exact ih (fun hmem => hs (List.mem_cons_of_mem t hmem)) _ h
                · intro hboth
                  exact hs (List.mem_cons.mpr (Or.inl hboth.2.symm))
            exact hmiss false
          rw [List.idxOf_cons_ne _ hsLow]
          simp [hsLow, hnot]
    · have hmem : high ∈ rest := (List.mem_cons.mp hhigh).resolve_left fun h => hsHigh h.symm
      have hif : ¬ ((found || decide (s = low)) = true ∧ s = high) := fun h => hsHigh h.2
      rw [if_neg hif, List.idxOf_cons_ne _ hsHigh]
      by_cases hsLow : s = low
      · subst hsLow
        rw [ih hrest hmem (by simp), List.idxOf_cons_self]
        simp
      · have hlowRest : found = false → low ∈ rest := by
          intro hfound
          exact (List.mem_cons.mp (hlow hfound)).resolve_left fun h => hsLow h.symm
        rw [ih hrest hmem (by simpa [hsLow] using hlowRest), List.idxOf_cons_ne _ hsLow]
        simp [hsLow]

omit [DecidableEq κ] in
private theorem verifyLevelrangeSensitivity_ok (low high : σ) :
    verifyLevelrangeSensitivity S low high = .ok ↔ S.position low ≤ S.position high := by
  rw [verifyLevelrangeSensitivity,
    verifySensitivityLoop_ok S.nodup (S.ordered high) fun _ => S.ordered low]
  simp [Sensitivities.position]

private theorem verifyCatsLoop_ok {high : Cats κ} {cats : List κ}
    (h : verifyCatsLoop high cats = some .ok) :
    ∀ c ∈ cats, ∃ list, high = some list ∧ c ∈ list := by
  induction cats with
  | nil =>
    intro c hc
    cases hc
  | cons cat rest ih =>
    rw [verifyCatsLoop] at h
    cases high with
    | none => cases h
    | some list =>
      cases hcat : list.contains cat with
      | false =>
        simp only [isCatInCats, Option.map_some, hcat] at h
        cases h
      | true =>
        simp only [isCatInCats, Option.map_some, hcat] at h
        intro c hc
        rcases List.mem_cons.mp hc with rfl | hc
        · exact ⟨list, rfl, List.contains_iff_mem.mp hcat⟩
        · exact ih h c hc

omit [DecidableEq σ] in
private theorem verifyLevelrangeCats_ok {low high : Level σ κ}
    (h : verifyLevelrangeCats low.cats high.cats = some .ok) :
    ∀ c ∈ low.categories, c ∈ high.categories := by
  intro c hc
  unfold verifyLevelrangeCats at h
  unfold Level.categories at hc ⊢
  split at h
  · rename_i hlow
    rw [hlow] at hc
    cases hc
  · cases h
  · cases h
  · rename_i cats highCats hlow hhigh
    rw [hlow] at hc
    obtain ⟨list, rfl, hlist⟩ := verifyCatsLoop_ok h c hc
    rw [hhigh]
    exact hlist

private theorem verifyCatsLoop_of_subset {high cats : List κ} (h : ∀ c ∈ cats, c ∈ high) :
    verifyCatsLoop (some high) cats = some .ok := by
  induction cats with
  | nil => rfl
  | cons cat rest ih =>
    have hcat : high.contains cat = true := List.contains_iff_mem.mpr (h cat List.mem_cons_self)
    simp only [verifyCatsLoop, isCatInCats, Option.map_some, hcat]
    exact ih fun c hc => h c (List.mem_cons_of_mem cat hc)

private theorem isCatInAny_true {cat : κ} {lists : List (Cats κ)}
    (h : isCatInAny cat lists = some true) :
    ∃ cats, some cats ∈ lists ∧ cat ∈ cats := by
  induction lists with
  | nil => cases h
  | cons cats rest ih =>
    rw [isCatInAny] at h
    cases cats with
    | none => cases h
    | some list =>
      cases hcat : list.contains cat with
      | true => exact ⟨list, List.mem_cons_self, List.contains_iff_mem.mp hcat⟩
      | false =>
        simp only [isCatInCats, Option.map_some, hcat] at h
        obtain ⟨cats, hmem, hc⟩ := ih h
        exact ⟨cats, List.mem_cons_of_mem _ hmem, hc⟩

private theorem verifyAssociatedLoop_ok {lists : List (Cats κ)} {cats : List κ} {rc : Rc}
    (h : verifyAssociatedLoop lists cats rc = some .ok) :
    rc = .ok ∧ ∀ c ∈ cats, ∃ list, some list ∈ lists ∧ c ∈ list := by
  induction cats generalizing rc with
  | nil =>
    cases h
    exact ⟨rfl, by simp⟩
  | cons cat rest ih =>
    rw [verifyAssociatedLoop] at h
    split at h
    · cases h
    · rename_i hcat
      obtain ⟨hrc, hrest⟩ := ih h
      refine ⟨hrc, fun c hc => ?_⟩
      rcases List.mem_cons.mp hc with rfl | hc
      · exact isCatInAny_true hcat
      · exact hrest c hc
    · cases (ih h).1

private theorem verifyAssociatedLoop_ne_null {lists : List (Cats κ)} {cats : List κ} {rc rc' : Rc}
    (h : verifyAssociatedLoop lists cats rc = some rc') :
    ∀ c ∈ cats, isCatInAny c lists ≠ none := by
  induction cats generalizing rc with
  | nil =>
    intro c hc
    cases hc
  | cons cat rest ih =>
    have hrest : ∃ rc, verifyAssociatedLoop lists rest rc = some rc' := by
      rw [verifyAssociatedLoop] at h
      split at h
      · cases h
      · exact ⟨_, h⟩
      · exact ⟨_, h⟩
    obtain ⟨rcRest, hrest⟩ := hrest
    intro c hc
    rcases List.mem_cons.mp hc with rfl | hc
    · intro hnull
      simp only [verifyAssociatedLoop, hnull] at h
      cases h
    · exact ih hrest c hc

private theorem verifyAssociatedLoop_of_mem {lists : List (Cats κ)} {cats : List κ}
    (h : ∀ c ∈ cats, isCatInAny c lists = some true) :
    verifyAssociatedLoop lists cats .ok = some .ok := by
  induction cats with
  | nil => rfl
  | cons cat rest ih =>
    simp only [verifyAssociatedLoop, h cat List.mem_cons_self]
    exact ih fun c hc => h c (List.mem_cons_of_mem cat hc)

omit [DecidableEq σ] in
private theorem verifyCatsAssociatedWithSens_ok {l : Level σ κ}
    (h : verifyCatsAssociatedWithSens S l.sens l.cats = some .ok) :
    ∀ c ∈ l.categories, Associated S l.sens c := by
  intro c hc
  unfold verifyCatsAssociatedWithSens at h
  unfold Level.categories at hc
  split at h
  · rename_i hcats
    rw [hcats] at hc
    cases hc
  · rename_i cats hcats
    split at h
    · cases h
    · rename_i lists hlists
      split at h
      · cases h
      · rename_i list
        rw [hcats] at hc
        exact ⟨lists, hlists, (verifyAssociatedLoop_ok h).2 c hc⟩

/-- The ranges that pass the check are well-formed. -/
theorem verifyLevelrange_wellFormed {lr : LevelRange σ κ}
    (h : verifyLevelrange S lr = some .ok) : WellFormed S lr := by
  rw [verifyLevelrange, thenCheck_ok, thenCheck_ok, thenCheck_ok] at h
  obtain ⟨hsens, hcats, hlow, hhigh⟩ := h
  exact ⟨⟨(verifyLevelrangeSensitivity_ok _ _).mp (Option.some.inj hsens),
    verifyLevelrangeCats_ok hcats⟩, verifyCatsAssociatedWithSens_ok hlow,
    verifyCatsAssociatedWithSens_ok hhigh⟩

theorem isCatInAny_of_mem {cat : κ} {lists : List (Cats κ)} {cats : List κ}
    (hmem : some cats ∈ lists) (hcat : cat ∈ cats) (hnull : isCatInAny cat lists ≠ none) :
    isCatInAny cat lists = some true := by
  induction lists with
  | nil => cases hmem
  | cons first rest ih =>
    rw [isCatInAny] at hnull ⊢
    cases first with
    | none => exact absurd rfl hnull
    | some list =>
      cases hfirst : list.contains cat with
      | true => simp only [isCatInCats, Option.map_some, hfirst]
      | false =>
        simp only [isCatInCats, Option.map_some, hfirst] at hnull ⊢
        rcases List.mem_cons.mp hmem with heq | hmem
        · cases Option.some.inj heq
          have htrue : cats.contains cat = true := List.contains_iff_mem.mpr hcat
          rw [htrue] at hfirst
          cases hfirst
        · exact ih hmem hnull

variable (S) in
/-- The lists of categories that the check of a level follows are not null. -/
def Level.Readable (l : Level σ κ) : Prop :=
  ∀ cats, l.cats = some cats → ∃ list lists, cats = some list ∧ S.catsList l.sens = some lists ∧
    ∀ c ∈ list, isCatInAny c lists ≠ none

variable (S) in
/-- None of the lists of categories that the check of a range follows is null. -/
structure LevelRange.Readable (r : LevelRange σ κ) : Prop where
  high_of_low : r.low.cats ≠ none → r.high.cats ≠ none
  low : r.low.Readable S
  high : r.high.Readable S

omit [DecidableEq σ] in
private theorem Level.readable_of_ok {l : Level σ κ}
    (h : verifyCatsAssociatedWithSens S l.sens l.cats = some .ok) : l.Readable S := by
  intro cats hcats
  rw [hcats, verifyCatsAssociatedWithSens] at h
  cases hlists : S.catsList l.sens with
  | none =>
    rw [hlists] at h
    cases h
  | some lists =>
    rw [hlists] at h
    cases cats with
    | none => cases h
    | some list =>
      refine ⟨list, lists, rfl, rfl, fun c hc => ?_⟩
      exact verifyAssociatedLoop_ne_null h c hc

omit [DecidableEq σ] in
private theorem verifyCatsAssociatedWithSens_of_readable {l : Level σ κ} (h : l.Readable S)
    (hassociated : ∀ c ∈ l.categories, Associated S l.sens c) :
    verifyCatsAssociatedWithSens S l.sens l.cats = some .ok := by
  cases hcats : l.cats with
  | none => rfl
  | some cats =>
    obtain ⟨list, lists, rfl, hlists, hnull⟩ := h cats hcats
    simp only [verifyCatsAssociatedWithSens, hlists]
    apply verifyAssociatedLoop_of_mem
    intro c hc
    have hmem : c ∈ l.categories := by
      rw [Level.categories, hcats]
      exact hc
    obtain ⟨lists', hlists', found, hfound, hfoundMem⟩ := hassociated c hmem
    rw [hlists] at hlists'
    cases hlists'
    exact isCatInAny_of_mem hfound hfoundMem (hnull c hc)

omit [DecidableEq σ] in
private theorem verifyLevelrangeCats_of_readable {low high : Level σ κ} (hlow : low.Readable S)
    (hhigh : high.Readable S) (hboth : low.cats ≠ none → high.cats ≠ none)
    (hsub : ∀ c ∈ low.categories, c ∈ high.categories) :
    verifyLevelrangeCats low.cats high.cats = some .ok := by
  unfold Level.categories at hsub
  cases hlowCats : low.cats with
  | none => rfl
  | some cats =>
    obtain ⟨list, -, rfl, -⟩ := hlow cats hlowCats
    cases hhighCats : high.cats with
    | none => exact absurd hhighCats (hboth (by simp [hlowCats]))
    | some highCats =>
      obtain ⟨highList, -, rfl, -⟩ := hhigh highCats hhighCats
      rw [hlowCats, hhighCats] at hsub
      exact verifyCatsLoop_of_subset hsub

/-- The check accepts the well-formed ranges of whose lists none is null. -/
theorem verifyLevelrange_ok {lr : LevelRange σ κ} :
    verifyLevelrange S lr = some .ok ↔ WellFormed S lr ∧ lr.Readable S := by
  constructor
  · intro h
    refine ⟨verifyLevelrange_wellFormed h, ?_⟩
    rw [verifyLevelrange, thenCheck_ok, thenCheck_ok, thenCheck_ok] at h
    obtain ⟨-, hcats, hlow, hhigh⟩ := h
    refine ⟨?_, Level.readable_of_ok hlow, Level.readable_of_ok hhigh⟩
    intro hne hnull
    rw [hnull] at hcats
    cases hlowCats : lr.low.cats with
    | none => exact hne hlowCats
    | some cats =>
      rw [hlowCats] at hcats
      cases hcats
  · intro h
    obtain ⟨hformed, hreadable⟩ := h
    rw [verifyLevelrange, thenCheck_ok, thenCheck_ok, thenCheck_ok]
    exact ⟨congrArg some ((verifyLevelrangeSensitivity_ok _ _).mpr hformed.dominated.sens),
      verifyLevelrangeCats_of_readable hreadable.low hreadable.high hreadable.high_of_low
        hformed.dominated.cats,
      verifyCatsAssociatedWithSens_of_readable hreadable.low hformed.low,
      verifyCatsAssociatedWithSens_of_readable hreadable.high hformed.high⟩

end Exact

end Cil.Verify
