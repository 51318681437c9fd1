/- Cil/Verify/LevelsExact
   digest: The check of level ranges over sensitivitycategory statements, and where it is exact. -/

import Mathlib.Logic.Function.Basic
import Cil.Verify.Levels

set_option autoImplicit false
set_option relaxedAutoImplicit false

namespace Cil.Verify

/-- A resolved `cil_senscat`, with its categories as the category pass leaves them. -/
structure Senscat (σ κ : Type) where
  sens : σ
  cats : Cats κ
  deriving DecidableEq, Repr

section Statements

variable {σ κ : Type} [DecidableEq σ]

/-- `cil_resolve_senscat`, on the field `cats_list` of the sensitivities. -/
def resolveSenscat (catsList : σ → Option (List (Cats κ))) (senscat : Senscat σ κ) :
    σ → Option (List (Cats κ)) :=
  Function.update catsList senscat.sens
    (some ((catsList senscat.sens).getD [] ++ [senscat.cats]))

/-- The lists after all statements, in the order in which they are resolved. -/
def resolveSenscats (senscats : List (Senscat σ κ)) : σ → Option (List (Cats κ)) :=
  senscats.foldl resolveSenscat fun _ => none

/-- The lists that the statements give to a sensitivity. -/
def catsOf (senscats : List (Senscat σ κ)) (s : σ) : List (Cats κ) :=
  (senscats.filter fun senscat => senscat.sens = s).map Senscat.cats

private theorem foldl_resolveSenscat (senscats : List (Senscat σ κ))
    (catsList : σ → Option (List (Cats κ))) (s : σ) :
    senscats.foldl resolveSenscat catsList s =
      if catsOf senscats s = [] then catsList s
      else some ((catsList s).getD [] ++ catsOf senscats s) := by
  induction senscats generalizing catsList with
  | nil => rfl
  | cons senscat rest ih =>
    rw [List.foldl_cons, ih]
    unfold resolveSenscat
    by_cases heq : senscat.sens = s
    · have hcons : catsOf (senscat :: rest) s = senscat.cats :: catsOf rest s := by
        rw [catsOf, List.filter_cons_of_pos (by simpa using heq), List.map_cons]
        rfl
      rw [hcons, ← heq, Function.update_self, if_neg (List.cons_ne_nil _ _)]
      split_ifs with hnil
      · rw [hnil]
      · rw [Option.getD_some, List.append_assoc]
        rfl
    · have hcons : catsOf (senscat :: rest) s = catsOf rest s := by
        rw [catsOf, List.filter_cons_of_neg (by simpa using heq)]
        rfl
      rw [hcons, Function.update_of_ne (fun h => heq h.symm)]

private theorem resolveSenscats_eq (senscats : List (Senscat σ κ)) (s : σ) :
    resolveSenscats senscats s =
      if catsOf senscats s = [] then none else some (catsOf senscats s) := by
  rw [resolveSenscats, foldl_resolveSenscat]
  rfl

/-- The order of the sensitivities, which has all of them, and the statements. -/
structure SensitivityPolicy (σ κ : Type) where
  order : List σ
  nodup : order.Nodup
  ordered : ∀ s, s ∈ order
  senscats : List (Senscat σ κ)

def SensitivityPolicy.sensitivities (P : SensitivityPolicy σ κ) : Sensitivities σ κ where
  order := P.order
  catsList := resolveSenscats P.senscats
  nodup := P.nodup
  ordered := P.ordered

/-- A statement for the sensitivity has the category. -/
def SensitivityPolicy.Allows (P : SensitivityPolicy σ κ) (s : σ) (c : κ) : Prop :=
  ∃ senscat ∈ P.senscats, senscat.sens = s ∧ ∃ cats, senscat.cats = some cats ∧ c ∈ cats

/-- What the check of a range is for: low does not come after high, its categories are among those
of high, and those of both are allowed. -/
structure SensitivityPolicy.RangeOk (P : SensitivityPolicy σ κ) (r : LevelRange σ κ) : Prop where
  sens : P.order.idxOf r.low.sens ≤ P.order.idxOf r.high.sens
  cats : ∀ c ∈ r.low.categories, c ∈ r.high.categories
  low : ∀ c ∈ r.low.categories, P.Allows r.low.sens c
  high : ∀ c ∈ r.high.categories, P.Allows r.high.sens c

/-- Of the statements for the sensitivity, none without categories comes before the first that has
the category. -/
def SensitivityPolicy.Reaches (P : SensitivityPolicy σ κ) (s : σ) (c : κ) : Prop :=
  ∃ before cats after, catsOf P.senscats s = before ++ some cats :: after ∧ c ∈ cats ∧
    none ∉ before

/-- The list of categories is not empty, or there is none. -/
def Level.HasCategoriesOrNone (l : Level σ κ) : Prop :=
  ∀ cats, l.cats = some cats → ∃ c rest, cats = some (c :: rest)

end Statements

section Exact

variable {σ κ : Type} [DecidableEq σ] [DecidableEq κ] {P : SensitivityPolicy σ κ}

omit [DecidableEq κ] in
private theorem mem_catsOf {senscats : List (Senscat σ κ)} {s : σ} {cats : Cats κ} :
    cats ∈ catsOf senscats s ↔ ∃ senscat ∈ senscats, senscat.sens = s ∧ senscat.cats = cats := by
  simp only [catsOf, List.mem_map, List.mem_filter, decide_eq_true_eq, and_assoc]

omit [DecidableEq κ] in
private theorem associated_iff {s : σ} {c : κ} : Associated P.sensitivities s c ↔ P.Allows s c := by
  show (∃ lists, resolveSenscats P.senscats s = some lists ∧ _) ↔ _
  rw [resolveSenscats_eq]
  constructor
  · intro h
    obtain ⟨lists, hlists, cats, hcats, hc⟩ := h
    split_ifs at hlists with hnil
    cases hlists
    obtain ⟨senscat, hmem, hsens, heq⟩ := mem_catsOf.mp hcats
    exact ⟨senscat, hmem, hsens, cats, heq, hc⟩
  · intro h
    obtain ⟨senscat, hmem, hsens, cats, heq, hc⟩ := h
    have hcats : some cats ∈ catsOf P.senscats s := mem_catsOf.mpr ⟨senscat, hmem, hsens, heq⟩
    rw [if_neg (List.ne_nil_of_mem hcats)]
    exact ⟨_, rfl, cats, hcats, hc⟩

omit [DecidableEq κ] in
private theorem wellFormed_iff {r : LevelRange σ κ} :
    WellFormed P.sensitivities r ↔ P.RangeOk r := by
  constructor
  · intro h
    exact ⟨h.dominated.sens, h.dominated.cats, fun c hc => associated_iff.mp (h.low c hc),
      fun c hc => associated_iff.mp (h.high c hc)⟩
  · intro h
    exact ⟨⟨h.sens, h.cats⟩, fun c hc => associated_iff.mpr (h.low c hc),
      fun c hc => associated_iff.mpr (h.high c hc)⟩

/-- The search for a category finds it before it follows a null list. -/
private theorem isCatInAny_iff {c : κ} {lists : List (Cats κ)} : isCatInAny c lists = some true ↔
    ∃ before cats after, lists = before ++ some cats :: after ∧ c ∈ cats ∧ none ∉ before := by
  induction lists with
  | nil => simp
  | cons cats rest ih =>
    rw [isCatInAny]
    cases cats with
    | none =>
      simp only [isCatInCats, Option.map_none]
      constructor
      · intro h
        cases h
      · intro h
        obtain ⟨before, cats, after, heq, -, hnone⟩ := h
        cases before with
        | nil => cases heq
        | cons first before =>
          cases heq
          exact absurd List.mem_cons_self hnone
    | some list =>
      cases hcat : list.contains c with
      | true =>
        simp only [isCatInCats, Option.map_some, hcat]
        exact iff_of_true trivial ⟨[], list, rest, rfl, List.contains_iff_mem.mp hcat,
          List.not_mem_nil⟩
      | false =>
        simp only [isCatInCats, Option.map_some, hcat]
        rw [ih]
        constructor
        · intro h
          obtain ⟨before, cats, after, heq, hc, hnone⟩ := h
          refine ⟨some list :: before, cats, after, by rw [heq]; rfl, hc, fun hmem => ?_⟩
          exact hnone ((List.mem_cons.mp hmem).resolve_left fun h => by cases h)
        · intro h
          obtain ⟨before, cats, after, heq, hc, hnone⟩ := h
          cases before with
          | nil =>
            cases heq
            rw [List.contains_iff_mem.mpr hc] at hcat
            cases hcat
          | cons first before =>
            cases heq
            exact ⟨before, cats, after, rfl, hc, fun hmem => hnone (List.mem_cons_of_mem _ hmem)⟩

/-- Where a category is allowed, it is reached or a null list is followed. -/
private theorem reaches_iff {s : σ} {c : κ} (h : P.Allows s c) :
    P.Reaches s c ↔ isCatInAny c (catsOf P.senscats s) ≠ none := by
  obtain ⟨senscat, hmem, hsens, cats, heq, hc⟩ := h
  have hcats : some cats ∈ catsOf P.senscats s := mem_catsOf.mpr ⟨senscat, hmem, hsens, heq⟩
  constructor
  · intro hreaches
    rw [isCatInAny_iff.mpr hreaches]
    exact Option.some_ne_none true
  · intro hnull
    exact isCatInAny_iff.mp (isCatInAny_of_mem hcats hc hnull)

/-- No null list is followed for a level whose categories are allowed if they are reached. -/
private theorem readable_iff {l : Level σ κ} (hcats : l.HasCategoriesOrNone)
    (hallows : ∀ c ∈ l.categories, P.Allows l.sens c) :
    l.Readable P.sensitivities ↔ ∀ c ∈ l.categories, P.Reaches l.sens c := by
  cases hl : l.cats with
  | none =>
    refine iff_of_true ?_ ?_
    · intro cats h
      rw [hl] at h
      cases h
    · intro c hc
      rw [Level.categories, hl] at hc
      cases hc
  | some cats =>
    obtain ⟨first, rest, rfl⟩ := hcats cats hl
    have hcategories : l.categories = first :: rest := by
      rw [Level.categories, hl]
    rw [hcategories] at hallows ⊢
    have hlists : resolveSenscats P.senscats l.sens = some (catsOf P.senscats l.sens) := by
      obtain ⟨senscat, hmem, hsens, -⟩ := hallows first List.mem_cons_self
      rw [resolveSenscats_eq, if_neg]
      exact List.ne_nil_of_mem (mem_catsOf.mpr ⟨senscat, hmem, hsens, rfl⟩)
    constructor
    · intro h c hc
      obtain ⟨list, lists, hlist, hlists', hnull⟩ := h _ hl
      cases hlist
      have heq : lists = catsOf P.senscats l.sens := by
        have hsome : resolveSenscats P.senscats l.sens = some lists := hlists'
        rw [hlists] at hsome
        exact (Option.some.inj hsome).symm
      rw [reaches_iff (hallows c hc), ← heq]
      exact hnull c hc
    · intro h cats hcats'
      rw [hl] at hcats'
      cases hcats'
      exact ⟨_, _, rfl, hlists, fun c hc => (reaches_iff (hallows c hc)).mp (h c hc)⟩

/-- On levels with categories or without a list, the check accepts the ranges it is for if their
categories are reached. -/
private theorem verifyLevelrange_ok_iff {r : LevelRange σ κ} (hlow : r.low.HasCategoriesOrNone)
    (hhigh : r.high.HasCategoriesOrNone) :
    verifyLevelrange P.sensitivities r = some .ok ↔ P.RangeOk r ∧
      (∀ c ∈ r.low.categories, P.Reaches r.low.sens c) ∧
        ∀ c ∈ r.high.categories, P.Reaches r.high.sens c := by
  rw [verifyLevelrange_ok, wellFormed_iff]
  refine and_congr_right fun hok => ?_
  have hboth : r.low.cats ≠ none → r.high.cats ≠ none := by
    intro hne hnull
    obtain ⟨cats, hcats⟩ := Option.ne_none_iff_exists'.mp hne
    obtain ⟨first, rest, rfl⟩ := hlow cats hcats
    have hmem : first ∈ r.low.categories := by
      rw [Level.categories, hcats]
      exact List.mem_cons_self
    have hfirst := hok.cats first hmem
    rw [Level.categories, hnull] at hfirst
    cases hfirst
  rw [← readable_iff hlow hok.low, ← readable_iff hhigh hok.high]
  exact ⟨fun h => ⟨h.low, h.high⟩, fun h => ⟨hboth, h.1, h.2⟩⟩

/-- The check is exact where, if the range is one to accept, its categories are reached. -/
theorem verifyLevelrange_exact_iff (P : SensitivityPolicy σ κ) (r : LevelRange σ κ)
    (hlow : r.low.HasCategoriesOrNone) (hhigh : r.high.HasCategoriesOrNone) :
    (verifyLevelrange P.sensitivities r = some .ok ↔ P.RangeOk r) ↔
      (P.RangeOk r → (∀ c ∈ r.low.categories, P.Reaches r.low.sens c) ∧
        ∀ c ∈ r.high.categories, P.Reaches r.high.sens c) := by
  rw [verifyLevelrange_ok_iff hlow hhigh]
  constructor
  · intro h hok
    exact (h.mpr hok).2
  · intro h
    exact ⟨fun hok => hok.1, fun hok => ⟨hok, h hok⟩⟩

end Exact

section EmptySet

private theorem senscat_ordered (s : Unit) : s ∈ [()] := List.mem_singleton.mpr rfl

/-- `(sensitivitycategory s (c))`, after `(sensitivitycategory s (not (all)))` or alone. -/
def senscatPolicy (before : List (Senscat Unit Unit)) : SensitivityPolicy Unit Unit where
  order := [()]
  nodup := List.nodup_singleton ()
  ordered := senscat_ordered
  senscats := before ++ [⟨(), some [()]⟩]

/-- `((s (c)) (s (c)))`. -/
def senscatRange : LevelRange Unit Unit := ⟨false, ⟨(), some (some [()])⟩, ⟨(), some (some [()])⟩⟩

private theorem senscatRange_ok (before : List (Senscat Unit Unit)) :
    (senscatPolicy before).RangeOk senscatRange := by
  have hallows : (senscatPolicy before).Allows () () :=
    ⟨⟨(), some [()]⟩, List.mem_append_right _ List.mem_cons_self, rfl, [()], rfl,
      List.mem_cons_self⟩
  exact ⟨Nat.le_refl _, fun _ => id, fun _ _ => hallows, fun _ _ => hallows⟩

private theorem senscatLevel_hasCategories : senscatRange.low.HasCategoriesOrNone := by
  intro cats hcats
  cases hcats
  exact ⟨(), [], rfl⟩

theorem verifyLevelrange_senscat :
    verifyLevelrange (senscatPolicy []).sensitivities senscatRange = some .ok ↔
      (senscatPolicy []).RangeOk senscatRange :=
  (verifyLevelrange_exact_iff (senscatPolicy []) senscatRange senscatLevel_hasCategories
    senscatLevel_hasCategories).mpr fun _ =>
      have hreaches : (senscatPolicy []).Reaches () () :=
        ⟨[], [()], [], rfl, List.mem_cons_self, List.not_mem_nil⟩
      ⟨fun _ _ => hreaches, fun _ _ => hreaches⟩

/-- The empty set of the first statement is followed as a null pointer. -/
theorem verifyLevelrange_not_exact : ¬ ∀ (σ κ : Type) [DecidableEq σ] [DecidableEq κ]
    (P : SensitivityPolicy σ κ) (r : LevelRange σ κ), r.low.HasCategoriesOrNone →
      r.high.HasCategoriesOrNone →
        (verifyLevelrange P.sensitivities r = some .ok ↔ P.RangeOk r) := by
  intro h
  have hexact := h Unit Unit (senscatPolicy [⟨(), none⟩]) senscatRange senscatLevel_hasCategories
    senscatLevel_hasCategories
  have hok := hexact.mpr (senscatRange_ok _)
  revert hok
  decide

end EmptySet

end Cil.Verify
