/- Cil/Library/Sorting
   digest: What sorting with a comparator promises, and the first match in a sorted list. -/

import Cil.Library.Comparator

set_option autoImplicit false
set_option relaxedAutoImplicit false

namespace Cil.Library.Comparator

section Comparators

variable {α β κ : Type} {cmp : α → α → Option Int} {key : α → κ}

/-- The comparator of a part compares the whole. -/
theorem Consistent.part {f : β → α} {l : List β} (h : Consistent cmp key (l.map f)) :
    Consistent (fun a b => cmp (f a) (f b)) (fun b => key (f b)) l where
  defined _ ha _ hb := h.defined _ (List.mem_map_of_mem ha) _ (List.mem_map_of_mem hb)
  antisymmetric _ ha _ hb := h.antisymmetric _ (List.mem_map_of_mem ha) _ (List.mem_map_of_mem hb)
  transitive _ ha _ hb _ hc := h.transitive _ (List.mem_map_of_mem ha) _ (List.mem_map_of_mem hb) _
    (List.mem_map_of_mem hc)
  equal _ ha _ hb := h.equal _ (List.mem_map_of_mem ha) _ (List.mem_map_of_mem hb)

/-- Of the entries that match, the first one is before the others. -/
theorem Sorted.first {l : List α} (h : Sorted cmp l) {p : α → Bool} {a b : α}
    (hfirst : l.find? p = some a) (hb : b ∈ l) (hmatch : p b = true) (hne : b ≠ a) :
    ∃ r, cmp a b = some r ∧ r ≤ 0 := by
  induction l with
  | nil => cases hb
  | cons x rest ih =>
      obtain ⟨hx, hrest⟩ := List.pairwise_cons.mp h
      cases hpx : p x with
      | true =>
          rw [List.find?_cons, hpx] at hfirst
          obtain rfl := Option.some.inj hfirst
          rcases List.mem_cons.mp hb with heq | hb
          · exact absurd heq hne
          · exact hx b hb
      | false =>
          rw [List.find?_cons, hpx] at hfirst
          rcases List.mem_cons.mp hb with heq | hb
          · rw [heq, hpx] at hmatch
            cases hmatch
          · exact ih hrest hfirst hb

/-- A search through what was made of sorted entries finds nothing only when nothing matches, and
otherwise an entry that no other matching one has to come before. -/
theorem Sorted.search {l entries : List α} (h : Sorted cmp l) (hperm : l.Perm entries) (f : α → β)
    (p : β → Bool) :
    ((l.map f).find? p = none ↔ ∀ a ∈ entries, p (f a) = false) ∧
    ∀ b, (l.map f).find? p = some b → ∃ a ∈ entries, p (f a) = true ∧ b = f a ∧
      ∀ a' ∈ entries, p (f a') = true → a' ≠ a → ∃ r, cmp a a' = some r ∧ r ≤ 0 := by
  rw [List.find?_map]
  constructor
  · rw [Option.map_eq_none_iff, List.find?_eq_none]
    simp only [Function.comp, Bool.not_eq_true, hperm.mem_iff]
  · intro b hb
    obtain ⟨a, ha, rfl⟩ := Option.map_eq_some_iff.mp hb
    have hmem := hperm.mem_iff.mp (List.mem_of_find?_eq_some ha)
    have hmatch : (p ∘ f) a = true := List.find?_some ha
    refine ⟨a, hmem, hmatch, rfl, fun a' ha' hmatch' hne => ?_⟩
    exact h.first ha (hperm.mem_iff.mpr ha') hmatch' hne

end Comparators

/-- A function that sorts. It promises something for comparators only that are consistent. -/
structure Sorting where
  sort : {α : Type} → (α → α → Option Int) → List α → List α
  perm : ∀ {α κ : Type} {cmp : α → α → Option Int} {key : α → κ} {l : List α},
    Consistent cmp key l → (sort cmp l).Perm l
  sorted : ∀ {α κ : Type} {cmp : α → α → Option Int} {key : α → κ} {l : List α},
    Consistent cmp key l → Sorted cmp (sort cmp l)

section Merge

variable {α κ : Type}

/-- The entry `a` may stay before `b`. -/
def before (cmp : α → α → Option Int) (a b : α) : Bool :=
  match cmp a b with
  | some r => decide (r ≤ 0)
  | none => false

private theorem before_iff {cmp : α → α → Option Int} {a b : α} :
    before cmp a b = true ↔ ∃ r, cmp a b = some r ∧ r ≤ 0 := by
  unfold before
  cases cmp a b with
  | none => simp
  | some r => simp

variable {cmp : α → α → Option Int} {key : α → κ} {l : List α}

private theorem Consistent.before_total (h : Consistent cmp key l) (a b : { x // x ∈ l }) :
    (before cmp a.1 b.1 || before cmp b.1 a.1) = true := by
  obtain ⟨r, hr⟩ := h.defined a.1 a.2 b.1 b.2
  obtain ⟨r', hr'⟩ := h.defined b.1 b.2 a.1 a.2
  have hsign := h.antisymmetric b.1 b.2 a.1 a.2 r' r hr' hr
  rw [Bool.or_eq_true, before_iff, before_iff]
  by_cases hle : r ≤ 0
  · exact Or.inl ⟨r, hr, hle⟩
  · have hneg : r' < 0 := hsign.mpr (by omega)
    exact Or.inr ⟨r', hr', by omega⟩

private theorem Consistent.before_trans (h : Consistent cmp key l) (a b c : { x // x ∈ l })
    (hab : before cmp a.1 b.1 = true) (hbc : before cmp b.1 c.1 = true) :
    before cmp a.1 c.1 = true := by
  rw [before_iff] at hab hbc ⊢
  obtain ⟨r, hr, hle⟩ := hab
  obtain ⟨r', hr', hle'⟩ := hbc
  obtain ⟨r'', hr''⟩ := h.defined a.1 a.2 c.1 c.2
  exact ⟨r'', hr'', h.transitive a.1 a.2 b.1 b.2 c.1 c.2 r r' r'' hr hr' hr'' hle hle'⟩

/-- Merging sorts. -/
def merging : Sorting where
  sort cmp l := (l.attach.mergeSort fun a b => before cmp a.1 b.1).map Subtype.val
  perm {_ _ cmp _ l} _ := by
    have hperm := (List.mergeSort_perm l.attach fun a b => before cmp a.1 b.1).map Subtype.val
    rw [List.attach_map_subtype_val] at hperm
    exact hperm
  sorted {_ _ cmp _ l} h := by
    have hsorted := List.pairwise_mergeSort h.before_trans h.before_total l.attach
    unfold Sorted
    rw [List.pairwise_map]
    exact hsorted.imp fun hab => before_iff.mp hab

end Merge

end Cil.Library.Comparator
