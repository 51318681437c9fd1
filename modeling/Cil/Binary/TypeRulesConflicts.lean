/- Cil/Binary/TypeRulesConflicts
   digest: Which sequences of accepted type rules leave no conflict in the tables. -/

import Cil.Binary.TypeRules

set_option autoImplicit false
set_option relaxedAutoImplicit false

namespace Cil.Binary.TypeRules

variable {ν T : Type}

/-- The two branches of one conditional node. -/
def Opposite (p q : Option (ν × Bool)) : Prop :=
  ∃ node flavor, p = some (node, flavor) ∧ q = some (node, !flavor)

theorem Opposite.symm {p q : Option (ν × Bool)} (h : Opposite p q) : Opposite q p := by
  obtain ⟨node, flavor, hp, hq⟩ := h
  exact ⟨node, !flavor, hq, by rw [Bool.not_not]; exact hp⟩

theorem Opposite.unique {p q q' : Option (ν × Bool)} (h : Opposite p q) (h' : Opposite p q') :
    q = q' := by
  obtain ⟨node, flavor, hp, hq⟩ := h
  obtain ⟨node', flavor', hp', hq'⟩ := h'
  rw [hp] at hp'
  cases hp'
  rw [hq, hq']

private theorem not_opposite_self (p : Option (ν × Bool)) : ¬ Opposite p p := by
  intro h
  obtain ⟨node, flavor, hp, hp'⟩ := h
  rw [hp] at hp'
  cases flavor <;> cases hp'

/-- Two rules for one key with different results. -/
def Differ (p q : Placed ν) : Prop :=
  p.entry.key = q.entry.key ∧ p.entry.result ≠ q.entry.result

theorem Differ.symm {p q : Placed ν} (h : Differ p q) : Differ q p := ⟨h.1.symm, h.2.symm⟩

/-- Rules that differ stand in opposite branches. -/
def ConflictFree (holds : Placed ν → Prop) : Prop :=
  ∀ p q, holds p → holds q → Differ p q → Opposite p.place q.place

/-- Whether a rule is enabled when the conditional nodes evaluate to these values, `none` for
undefined. -/
def Enabled (value : ν → Option Bool) (p : Placed ν) : Prop :=
  ∀ node flavor, p.place = some (node, flavor) → value node = some flavor

/-- No values of the conditional nodes enable two rules that differ. -/
def NeverBoth (holds : Placed ν → Prop) : Prop :=
  ∀ value : ν → Option Bool, ∀ p q, holds p → holds q → Enabled value p → Enabled value q →
    ¬ Differ p q

private theorem ConflictFree.neverBoth {holds : Placed ν → Prop} (h : ConflictFree holds) :
    NeverBoth holds := by
  intro value p q hp hq hpv hqv hdiffer
  obtain ⟨node, flavor, hpp, hqp⟩ := h p q hp hq hdiffer
  have htrue := hpv node flavor hpp
  rw [hqv node (!flavor) hqp] at htrue
  cases flavor <;> cases htrue

/-- Where the branches of a conditional give a key different results, all rules for the key
are in these branches and give these results. -/
def Confined (rules : List (Placed ν)) : Prop :=
  ∀ x ∈ rules, ∀ y ∈ rules, Opposite x.place y.place → Differ x y →
    ∀ z ∈ rules, z.entry.key = x.entry.key → z = x ∨ z = y

/-- Unconditional rules are inserted before conditional ones. -/
def UnconditionalFirst (rules : List (Placed ν)) : Prop :=
  rules.Pairwise fun p q => q.place = none → p.place = none

section Contents

/-- The tables gain one rule. -/
def Adds (holds holds' : Placed ν → Prop) (r : Placed ν) : Prop :=
  ∀ p, holds' p ↔ p = r ∨ holds p

/-- What the insertion of a rule that succeeds does, in terms of the contents. -/
inductive Step (holds holds' : Placed ν → Prop) (r : Placed ν) : Prop
  | duplicate {e : Entry} (he : holds ⟨e, none⟩) (hkey : e.key = r.entry.key)
      (hresult : e.result = r.entry.result) (hsame : holds' = holds)
  | unconditional (hplace : r.place = none)
      (hfresh : ∀ e, holds ⟨e, none⟩ → e.key ≠ r.entry.key) (hadds : Adds holds holds' r)
  | first {q : ν × Bool} (hplace : r.place = some q)
      (hfresh : ∀ e, holds ⟨e, none⟩ → e.key ≠ r.entry.key)
      (hnone : ∀ e q', holds ⟨e, some q'⟩ → e.key ≠ r.entry.key) (hadds : Adds holds holds' r)
  | crossed {node : ν} {flavor : Bool} (hplace : r.place = some (node, flavor))
      (hfresh : ∀ e, holds ⟨e, none⟩ → e.key ≠ r.entry.key) {e : Entry}
      (he : holds ⟨e, some (node, !flavor)⟩) (hkey : e.key = r.entry.key)
      (hadds : Adds holds holds' r)
  | agreeing {node : ν} {flavor : Bool} (hplace : r.place = some (node, flavor))
      (hfresh : ∀ e, holds ⟨e, none⟩ → e.key ≠ r.entry.key)
      (hother : ∀ e, holds ⟨e, some (node, !flavor)⟩ → e.key ≠ r.entry.key) {e : Entry}
      {q : ν × Bool} (he : holds ⟨e, some q⟩) (hkey : e.key = r.entry.key)
      (hresult : e.result = r.entry.result)
      (hadds : Adds holds holds' r ∨
        holds' = holds ∧ ∃ e', holds ⟨e', some (node, flavor)⟩ ∧ e'.key = r.entry.key)

/-- A sequence of steps. -/
inductive Run : (Placed ν → Prop) → List (Placed ν) → (Placed ν → Prop) → Prop
  | nil {holds : Placed ν → Prop} : Run holds [] holds
  | cons {holds holds₁ holds₂ : Placed ν → Prop} {r : Placed ν} {rules : List (Placed ν)}
      (hstep : Step holds holds₁ r) (hrun : Run holds₁ rules holds₂) :
      Run holds (r :: rules) holds₂

variable {holds holds' : Placed ν → Prop} {r : Placed ν} {rules done : List (Placed ν)}

private theorem Step.cases_adds (h : Step holds holds' r) :
    Adds holds holds' r ∨ holds' = holds := by
  cases h with
  | duplicate _ _ _ hsame => exact Or.inr hsame
  | unconditional _ _ hadds => exact Or.inl hadds
  | first _ _ _ hadds => exact Or.inl hadds
  | crossed _ _ _ _ hadds => exact Or.inl hadds
  | agreeing _ _ _ _ _ _ hadds => exact hadds.imp id And.left

theorem Step.mono (h : Step holds holds' r) {p : Placed ν} (hp : holds p) : holds' p := by
  rcases h.cases_adds with hadds | hsame
  · exact (hadds p).mpr (Or.inr hp)
  · rw [hsame]
    exact hp

theorem Run.mono (h : Run holds rules holds') {p : Placed ν} (hp : holds p) : holds' p := by
  induction h with
  | nil => exact hp
  | cons hstep _ ih => exact ih (hstep.mono hp)

private theorem ConflictFree.of_mono (h : ConflictFree holds') (hmono : ∀ p, holds p → holds' p) :
    ConflictFree holds :=
  fun p q hp hq => h p q (hmono p hp) (hmono q hq)

/-- The contents come from the rules inserted so far, and no key is in both tables. -/
structure Sound (done : List (Placed ν)) (holds : Placed ν → Prop) : Prop where
  mem : ∀ p, holds p → p ∈ done
  separate : ∀ e e' q, holds ⟨e, none⟩ → holds ⟨e', some q⟩ → e.key ≠ e'.key

theorem Sound.step (hs : Sound done holds) (h : Step holds holds' r)
    (hfirst : r.place = none → ∀ p ∈ done, p.place = none) : Sound (done ++ [r]) holds' := by
  have hmem : ∀ p, holds' p → p ∈ done ++ [r] := by
    intro p hp
    rcases h.cases_adds with hadds | hsame
    · rcases (hadds p).mp hp with heq | hp
      · rw [heq]
        simp
      · exact List.mem_append_left _ (hs.mem p hp)
    · rw [hsame] at hp
      exact List.mem_append_left _ (hs.mem p hp)
  refine ⟨hmem, ?_⟩
  -- a conditional rule is added only where the unconditional table lacks the key
  have hcond : ∀ q, r.place = some q → (∀ e, holds ⟨e, none⟩ → e.key ≠ r.entry.key) →
      Adds holds holds' r → ∀ e e' q, holds' ⟨e, none⟩ → holds' ⟨e', some q⟩ → e.key ≠ e'.key := by
    intro q hplace hfresh hadds e e' q' he he'
    have hold : holds ⟨e, none⟩ := by
      rcases (hadds _).mp he with heq | hold
      · rw [← heq] at hplace
        cases hplace
      · exact hold
    rcases (hadds _).mp he' with heq | hold'
    · rw [← heq] at hfresh
      exact hfresh e hold
    · exact hs.separate e e' q' hold hold'
  cases h with
  | duplicate _ _ _ hsame =>
    rw [hsame]
    exact hs.separate
  | unconditional hplace hfresh hadds =>
    intro e e' q he he'
    have hmem' := hmem _ he'
    rcases (hadds _).mp he' with heq | hold
    · rw [← heq] at hplace
      cases hplace
    · have hnone := hfirst hplace _ (hs.mem _ hold)
      cases hnone
  | first hplace hfresh _ hadds => exact hcond _ hplace hfresh hadds
  | crossed hplace hfresh _ _ hadds => exact hcond _ hplace hfresh hadds
  | agreeing hplace hfresh _ _ _ _ hadds =>
    rcases hadds with hadds | ⟨hsame, _⟩
    · exact hcond _ hplace hfresh hadds
    · rw [hsame]
      exact hs.separate

private theorem Confined.of_subset {rules' : List (Placed ν)} (h : Confined rules)
    (hsub : ∀ p ∈ rules', p ∈ rules) : Confined rules' :=
  fun x hx y hy hopp hdiff z hz => h x (hsub x hx) y (hsub y hy) hopp hdiff z (hsub z hz)

/-- While the rules are confined, a step adds no conflict. -/
theorem ConflictFree.step (hc : ConflictFree holds) (hs : Sound done holds)
    (h : Step holds holds' r) (hfirst : r.place = none → ∀ p ∈ done, p.place = none)
    (hconfined : Confined (done ++ [r])) : ConflictFree holds' := by
  have hr : r ∈ done ++ [r] := by simp
  have hdone : ∀ p, holds p → p ∈ done ++ [r] := fun p hp =>
    List.mem_append_left _ (hs.mem p hp)
  -- it is enough to compare the new rule with the old ones
  have hnew : Adds holds holds' r →
      (∀ p, holds p → Differ p r → Opposite p.place r.place) → ConflictFree holds' := by
    intro hadds hcompare p q hp hq hdiffer
    rcases (hadds p).mp hp with hpr | hp
    · rcases (hadds q).mp hq with hqr | hq
      · rw [hpr, hqr] at hdiffer
        exact absurd rfl hdiffer.2
      · rw [hpr] at hdiffer ⊢
        exact (hcompare q hq hdiffer.symm).symm
    · rcases (hadds q).mp hq with hqr | hq
      · rw [hqr] at hdiffer ⊢
        exact hcompare p hp hdiffer
      · exact hc p q hp hq hdiffer
  cases h with
  | duplicate _ _ _ hsame =>
    rw [hsame]
    exact hc
  | unconditional hplace hfresh hadds =>
    apply hnew hadds
    intro p hp hdiffer
    have hnone := hfirst hplace p (hs.mem p hp)
    obtain ⟨e, place⟩ := p
    cases hnone
    exact absurd hdiffer.1 (hfresh e hp)
  | first hplace hfresh hnone hadds =>
    apply hnew hadds
    intro p hp hdiffer
    obtain ⟨e, place⟩ := p
    cases place with
    | none => exact absurd hdiffer.1 (hfresh e hp)
    | some q => exact absurd hdiffer.1 (hnone e q hp)
  | @crossed node flavor hplace hfresh e he hkey hadds =>
    apply hnew hadds
    intro p hp hdiffer
    have hopp : Opposite r.place (some (node, !flavor)) := ⟨node, flavor, hplace, rfl⟩
    by_cases hresult : e.result = r.entry.result
    · -- then the old rule differs from the one in the other branch
      have hpe : Differ p ⟨e, some (node, !flavor)⟩ :=
        ⟨hdiffer.1.trans hkey.symm, fun heq => hdiffer.2 (heq.trans hresult)⟩
      have hpopp := hc p _ hp he hpe
      rcases hconfined p (hdone p hp) _ (hdone _ he) hpopp hpe r hr hdiffer.1.symm with
        heq | heq
      · rw [heq] at hdiffer
        exact absurd rfl hdiffer.2
      · rw [heq] at hopp
        exact absurd hopp (not_opposite_self _)
    · have hre : Differ r ⟨e, some (node, !flavor)⟩ := ⟨hkey.symm, fun heq => hresult heq.symm⟩
      rcases hconfined r hr _ (hdone _ he) hopp hre p (hdone p hp) hdiffer.1 with heq | heq
      · rw [heq] at hdiffer
        exact absurd rfl hdiffer.2
      · rw [heq]
        exact hopp.symm
  | @agreeing node flavor hplace hfresh hother e q he hkey hresult hadds =>
    rcases hadds with hadds | ⟨hsame, _⟩
    · apply hnew hadds
      intro p hp hdiffer
      have hpe : Differ p ⟨e, some q⟩ :=
        ⟨hdiffer.1.trans hkey.symm, fun heq => hdiffer.2 (heq.trans hresult)⟩
      have hpopp := hc p _ hp he hpe
      rcases hconfined p (hdone p hp) _ (hdone _ he) hpopp hpe r hr hdiffer.1.symm with
        heq | heq
      · rw [heq] at hdiffer
        exact absurd rfl hdiffer.2
      · rw [heq]
        exact hpopp
    · rw [hsame]
      exact hc

private theorem conflictFree_of_confined (h : Run holds rules holds') (hs : Sound done holds)
    (hc : ConflictFree holds) (hfirst : UnconditionalFirst (done ++ rules))
    (hconfined : Confined (done ++ rules)) : ConflictFree holds' := by
  induction h generalizing done with
  | nil => exact hc
  | @cons holds holds₁ holds₂ r rules hstep _ ih =>
    have hcons : done ++ r :: rules = (done ++ [r]) ++ rules := by simp
    have hbefore : r.place = none → ∀ p ∈ done, p.place = none := by
      intro hplace p hp
      exact (List.pairwise_append.mp hfirst).2.2 p hp r List.mem_cons_self hplace
    have hprefix : Confined (done ++ [r]) := by
      apply hconfined.of_subset
      intro p hp
      rw [hcons]
      exact List.mem_append_left _ hp
    rw [hcons] at hfirst hconfined
    exact ih (hs.step hstep hbefore) (hc.step hs hstep hbefore hprefix) hfirst hconfined

/-- A rule is in the tables, or an unconditional rule says the same. -/
def Represented (holds : Placed ν → Prop) (p : Placed ν) : Prop :=
  holds p ∨ holds ⟨p.entry, none⟩

private theorem entry_ext {e e' : Entry} (hkey : e.key = e'.key) (hresult : e.result = e'.result) :
    e = e' := by
  cases e
  cases e'
  cases hkey
  cases hresult
  rfl

/-- Without conflicts, a rule that is left out is there already. -/
private theorem Step.represented (h : Step holds holds' r) (hc : ConflictFree holds) :
    Represented holds' r := by
  have hadded : Adds holds holds' r → Represented holds' r := fun hadds =>
    Or.inl ((hadds r).mpr (Or.inl rfl))
  cases h with
  | duplicate he hkey hresult hsame =>
    rw [hsame, Represented, ← entry_ext hkey hresult]
    exact Or.inr he
  | unconditional _ _ hadds => exact hadded hadds
  | first _ _ _ hadds => exact hadded hadds
  | crossed _ _ _ _ hadds => exact hadded hadds
  | @agreeing node flavor hplace _ hother e q he hkey hresult hadds =>
    rcases hadds with hadds | ⟨hsame, e', he', hkey'⟩
    · exact hadded hadds
    · left
      have heq : e'.result = e.result := by
        by_contra hne
        obtain ⟨node', flavor', hplace', hq⟩ := hc _ _ he' he ⟨hkey'.trans hkey.symm, hne⟩
        cases hplace'
        cases hq
        exact hother e he hkey
      have hr : r = ⟨e', some (node, flavor)⟩ := by
        obtain ⟨entry, place⟩ := r
        cases hplace
        rw [entry_ext hkey' (heq.trans hresult)]
      rw [hsame, hr]
      exact he'

private theorem Run.represented (h : Run holds rules holds') (hc : ConflictFree holds') :
    ∀ p ∈ rules, Represented holds' p := by
  induction h with
  | nil =>
    intro p hp
    cases hp
  | cons hstep hrun ih =>
    intro p hp
    rcases List.mem_cons.mp hp with heq | hp
    · rw [heq]
      have hbefore : ConflictFree _ := hc.of_mono fun q hq => hrun.mono (hstep.mono hq)
      exact (hstep.represented hbefore).imp (fun h => hrun.mono h) fun h => hrun.mono h
    · exact ih hc p hp

private theorem confined_of_conflictFree (h : Run holds rules holds') (hc : ConflictFree holds') :
    Confined rules := by
  intro x hx y hy hopp hdiffer z hz hzkey
  have hrep := h.represented hc
  -- a key with different results is not in the unconditional table
  have habsent : ∀ e, holds' ⟨e, none⟩ → e.key ≠ x.entry.key := by
    intro e he hkey
    have hagree : ∀ w : Placed ν, w ∈ rules → w.entry.key = x.entry.key →
        e.result = w.entry.result := by
      intro w hw hwkey
      by_contra hne
      rcases hrep w hw with hheld | hheld
      · obtain ⟨node, flavor, hplace, _⟩ := hc _ _ he hheld ⟨hkey.trans hwkey.symm, hne⟩
        cases hplace
      · obtain ⟨node, flavor, hplace, _⟩ := hc _ _ he hheld ⟨hkey.trans hwkey.symm, hne⟩
        cases hplace
    exact hdiffer.2 ((hagree x hx rfl).symm.trans (hagree y hy hdiffer.1.symm))
  have hheld : ∀ w ∈ rules, w.entry.key = x.entry.key → holds' w := by
    intro w hw hwkey
    rcases hrep w hw with hw' | hw'
    · exact hw'
    · exact absurd hwkey (habsent w.entry hw')
  have hxh := hheld x hx rfl
  have hyh := hheld y hy hdiffer.1.symm
  have hzh := hheld z hz hzkey
  have hext : ∀ w : Placed ν, w.entry.key = x.entry.key → z.entry.result = w.entry.result →
      z.place = w.place → z = w := by
    intro w hwkey hresult hplace
    obtain ⟨e, p⟩ := z
    obtain ⟨e', p'⟩ := w
    cases hplace
    have heq : e = e' := entry_ext (hzkey.trans hwkey.symm) hresult
    rw [heq]
  by_cases hzx : z.entry.result = x.entry.result
  · left
    have hzy : Differ z y := ⟨hzkey.trans hdiffer.1, fun heq => hdiffer.2 (hzx.symm.trans heq)⟩
    have hplace : z.place = x.place := (hc z y hzh hyh hzy).symm.unique hopp.symm
    exact hext x rfl hzx hplace
  · right
    have hzdiffer : Differ z x := ⟨hzkey, hzx⟩
    have hplace : z.place = y.place := (hc z x hzh hxh hzdiffer).symm.unique hopp
    apply hext y hdiffer.1.symm _ hplace
    by_contra hne
    have hzy := hc z y hzh hyh ⟨hzkey.trans hdiffer.1, hne⟩
    rw [hplace] at hzy
    exact not_opposite_self _ hzy

end Contents

section Tables

variable {A : Avtab T}

/-- The rules in the tables. -/
def Holds (A : Avtab T) (s : Tables ν T) (p : Placed ν) : Prop :=
  match p.place with
  | none => A.contains s.teAvtab p.entry
  | some (node, flavor) => p.entry ∈ s.avList node flavor

/-- The conditional table and the lists of the conditional nodes hold the same entries. -/
def Listed (A : Avtab T) (s : Tables ν T) : Prop :=
  ∀ e, A.contains s.teCondAvtab e ↔ ∃ q, Holds A s ⟨e, some q⟩

private theorem condAvListSearch_some {key : Key} {condList : List Entry} {result : Nat}
    (h : condAvListSearch key condList = some result) : ∃ e ∈ condList, e.key = key := by
  unfold condAvListSearch at h
  obtain ⟨e, he, _⟩ := Option.map_eq_some_iff.mp h
  exact ⟨e, List.mem_of_find?_eq_some he, by simpa using List.find?_some he⟩

private theorem condAvListSearch_none {key : Key} {condList : List Entry}
    (h : condAvListSearch key condList = none) : ∀ e ∈ condList, e.key ≠ key := by
  unfold condAvListSearch at h
  have hnone := Option.map_eq_none_iff.mp h
  intro e he
  simpa using List.find?_eq_none.mp hnone e he

private theorem not_holds_init (p : Placed ν) : ¬ Holds A (Tables.init A) p := by
  intro h
  obtain ⟨e, place⟩ := p
  cases place with
  | none => exact A.not_contains_alloc e h
  | some q => cases h

variable [DecidableEq ν] {s s' : Tables ν T} {r : Placed ν}

theorem condInsertRule_ok {node : ν} {flavor : Bool} (hplace : r.place = some (node, flavor))
    (h : condInsertRule A s r.entry node flavor = (.ok, s')) (hs : Listed A s) :
    Adds (Holds A s) (Holds A s') r ∧ Listed A s' := by
  unfold condInsertRule at h
  split at h
  · cases h
  · rename_i teCondAvtab hinsert
    cases h
    have hadds : ∀ p : Placed ν, Holds A ⟨s.teAvtab, teCondAvtab,
        Function.update s.avList node (Function.update (s.avList node) flavor
          (r.entry :: s.avList node flavor))⟩ p ↔ p = r ∨ Holds A s p := by
      intro p
      obtain ⟨e, place⟩ := p
      obtain ⟨e', place'⟩ := r
      cases hplace
      cases place with
      | none => simp [Holds]
      | some q =>
        obtain ⟨node', flavor'⟩ := q
        simp only [Holds]
        by_cases hnode : node' = node
        · subst hnode
          rw [Function.update_self]
          by_cases hflavor : flavor' = flavor
          · subst hflavor
            rw [Function.update_self, List.mem_cons]
            simp
          · rw [Function.update_of_ne hflavor]
            simp [hflavor]
        · rw [Function.update_of_ne hnode]
          simp [hnode]
    refine ⟨hadds, ?_⟩
    intro e
    rw [A.contains_insertNonunique _ _ _ hinsert e, hs e]
    constructor
    · intro h
      rcases h with heq | ⟨q, hq⟩
      · refine ⟨(node, flavor), (hadds _).mpr (Or.inl ?_)⟩
        obtain ⟨e', place'⟩ := r
        cases hplace
        rw [heq]
      · exact ⟨q, (hadds _).mpr (Or.inr hq)⟩
    · intro h
      obtain ⟨q, hq⟩ := h
      rcases (hadds _).mp hq with heq | hold
      · left
        rw [← heq]
      · exact Or.inr ⟨q, hold⟩

/-- An insertion that succeeds is a step. -/
private theorem insertTypeRule_step (h : insertTypeRule A s r = (.ok, s')) (hs : Listed A s) :
    Step (Holds A s) (Holds A s') r ∧ Listed A s' := by
  unfold insertTypeRule at h
  cases hte : A.searchNode s.teAvtab r.entry.key with
  | some existing =>
    simp only [hte] at h
    split at h
    · rename_i hresult
      cases h
      obtain ⟨hmem, hkey⟩ := A.searchNode_some _ _ _ hte
      exact ⟨.duplicate hmem hkey hresult rfl, hs⟩
    · cases h
  | none =>
    simp only [hte] at h
    have hfresh : ∀ e, Holds A s ⟨e, none⟩ → e.key ≠ r.entry.key :=
      A.searchNode_none _ _ hte
    cases hplace : r.place with
    | none =>
      simp only [hplace] at h
      split at h
      · rename_i teAvtab hinsert
        cases h
        have hcond : ∀ e q, Holds A { s with teAvtab := teAvtab } ⟨e, some q⟩ ↔
            Holds A s ⟨e, some q⟩ := fun e q => Iff.rfl
        refine ⟨.unconditional hplace hfresh ?_, ?_⟩
        · intro p
          obtain ⟨e, place⟩ := p
          obtain ⟨e', place'⟩ := r
          cases hplace
          cases place with
          | none => simpa [Holds] using A.contains_insert _ _ _ hinsert e
          | some q => simp [hcond]
        · intro e
          simp only [hcond]
          exact hs e
      · cases h
    | some q =>
      obtain ⟨node, flavor⟩ := q
      simp only [hplace] at h
      cases hcond : A.searchNode s.teCondAvtab r.entry.key with
      | none =>
        simp only [hcond] at h
        obtain ⟨hadds, hlisted⟩ := condInsertRule_ok hplace h hs
        refine ⟨.first hplace hfresh ?_ hadds, hlisted⟩
        intro e q he
        exact A.searchNode_none _ _ hcond e ((hs e).mpr ⟨q, he⟩)
      | some existing =>
        simp only [hcond] at h
        obtain ⟨hmem, hkey⟩ := A.searchNode_some _ _ _ hcond
        obtain ⟨q, hq⟩ := (hs existing).mp hmem
        cases hother : condAvListSearch r.entry.key (s.avList node (!flavor)) with
        | some result =>
          simp only [hother] at h
          obtain ⟨hadds, hlisted⟩ := condInsertRule_ok hplace h hs
          obtain ⟨e, he, hekey⟩ := condAvListSearch_some hother
          exact ⟨.crossed hplace hfresh he hekey hadds, hlisted⟩
        | none =>
          have habsent := condAvListSearch_none hother
          simp only [hother] at h
          by_cases hresult : existing.result = r.entry.result
          · rw [if_pos hresult] at h
            cases hthis : condAvListSearch r.entry.key (s.avList node flavor) with
            | some result =>
              simp only [hthis] at h
              cases h
              obtain ⟨e', he', hkey'⟩ := condAvListSearch_some hthis
              exact ⟨.agreeing hplace hfresh habsent hq hkey hresult
                (Or.inr ⟨rfl, e', he', hkey'⟩), hs⟩
            | none =>
              simp only [hthis] at h
              obtain ⟨hadds, hlisted⟩ := condInsertRule_ok hplace h hs
              exact ⟨.agreeing hplace hfresh habsent hq hkey hresult (Or.inl hadds), hlisted⟩
          · rw [if_neg hresult] at h
            cases h

private theorem insertAll_run {rules : List (Placed ν)} (h : insertAll A s rules = (.ok, s'))
    (hs : Listed A s) : Run (Holds A s) rules (Holds A s') := by
  induction rules generalizing s with
  | nil =>
      cases h
      exact .nil
  | cons r rules ih =>
      rw [insertAll] at h
      split at h
      · rename_i s₁ hr
        obtain ⟨hstep, hlisted⟩ := insertTypeRule_step hr hs
        exact .cons hstep (ih h hlisted)
      · rename_i rc s₁ hne hr
        cases h
        exact absurd rfl hne

/-- Accepted sequences leave no conflict exactly when their rules are confined. -/
theorem insertAll_conflictFree_iff {rules : List (Placed ν)} (hfirst : UnconditionalFirst rules)
    (h : insertAll A (Tables.init A) rules = (.ok, s')) :
    ConflictFree (Holds A s') ∧ NeverBoth (Holds A s') ↔ Confined rules := by
  have hlisted : Listed A (Tables.init A : Tables ν T) := by
    intro e
    constructor
    · exact fun he => absurd he (A.not_contains_alloc e)
    · intro he
      obtain ⟨q, hq⟩ := he
      exact absurd hq (not_holds_init _)
  have hrun := insertAll_run h hlisted
  constructor
  · intro hsafe
    exact confined_of_conflictFree hrun hsafe.1
  · intro hconfined
    have hsound : Sound [] (Holds A (Tables.init A : Tables ν T)) :=
      ⟨fun p hp => absurd hp (not_holds_init p), fun e e' q he => absurd he (not_holds_init _)⟩
    have hempty : ConflictFree (Holds A (Tables.init A : Tables ν T)) :=
      fun p q hp => absurd hp (not_holds_init p)
    have hfree := conflictFree_of_confined hrun hsound hempty (by simpa using hfirst)
      (by simpa using hconfined)
    exact ⟨hfree, hfree.neverBoth⟩

end Tables

section TwoConditionals

/-- Tables as lists, searched from the entry inserted last. -/
def listAvtab : Avtab (List Entry) where
  alloc := []
  contains t e := e ∈ t
  searchNode t k := t.find? fun e => e.key = k
  insert t e := some (e :: t)
  insertNonunique t e := some (e :: t)
  not_contains_alloc e := List.not_mem_nil
  searchNode_some t k e h := ⟨List.mem_of_find?_eq_some h, by simpa using List.find?_some h⟩
  searchNode_none t k h e he := by simpa using List.find?_eq_none.mp h e he
  contains_insert t e t' h x := by
    cases h
    exact List.mem_cons
  contains_insertNonunique t e t' h x := by
    cases h
    exact List.mem_cons

def changeTo (result : Nat) (place : Option (Nat × Bool)) : Placed Nat :=
  ⟨⟨⟨1, 2, 3, .change⟩, result⟩, place⟩

/-- `(booleanif a (true (typechange s t c x)))` and
`(booleanif b (true (typechange s t c x)) (false (typechange s t c y)))`. -/
def crossingRules : List (Placed Nat) :=
  [changeTo 4 (some (0, true)), changeTo 4 (some (1, true)), changeTo 5 (some (1, false))]

private theorem crossingRules_ok : UnconditionalFirst crossingRules ∧
    ∃ s, insertAll listAvtab (Tables.init listAvtab) crossingRules = (.ok, s) ∧
      Holds listAvtab s (changeTo 4 (some (0, true))) ∧
      Holds listAvtab s (changeTo 5 (some (1, false))) :=
  ⟨by simp [UnconditionalFirst, crossingRules, changeTo], _, rfl, .head _, .head _⟩

/-- With `a` true and `b` false both results are enabled. -/
theorem insertAll_accepts_conflict :
    UnconditionalFirst crossingRules ∧
      ∃ s, insertAll listAvtab (Tables.init listAvtab) crossingRules = (.ok, s) ∧
        ¬ ConflictFree (Holds listAvtab s) ∧ ¬ NeverBoth (Holds listAvtab s) := by
  obtain ⟨hfirst, s, hs, hleft, hright⟩ := crossingRules_ok
  have hdiffer : Differ (changeTo 4 (some (0, true))) (changeTo 5 (some (1, false))) :=
    ⟨rfl, by decide⟩
  refine ⟨hfirst, s, hs, ?_, ?_⟩
  · intro hfree
    obtain ⟨node, flavor, hp, hq⟩ := hfree _ _ hleft hright hdiffer
    cases hp
    cases hq
  · intro hnever
    refine hnever (fun node => some (decide (node = 0))) _ _ hleft hright ?_ ?_ hdiffer
    · intro node flavor hplace
      cases hplace
      rfl
    · intro node flavor hplace
      cases hplace
      rfl

theorem insertAll_conflictFree_iff_crossingRules :
    ∃ s, insertAll listAvtab (Tables.init listAvtab) crossingRules = (.ok, s) ∧
      (ConflictFree (Holds listAvtab s) ∧ NeverBoth (Holds listAvtab s) ↔
        Confined crossingRules) := by
  obtain ⟨hfirst, s, hs, _⟩ := crossingRules_ok
  exact ⟨s, hs, insertAll_conflictFree_iff hfirst hs⟩

end TwoConditionals

end Cil.Binary.TypeRules
