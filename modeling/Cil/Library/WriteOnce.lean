/- Cil/Library/WriteOnce
   digest: Registers that take a value once, and runs of writes whose order does not matter. -/

import Mathlib.Data.Set.Lattice
import Mathlib.Logic.Function.Basic
import Cil.Library.Call

set_option autoImplicit false
set_option relaxedAutoImplicit false

namespace Cil.Library.WriteOnce

variable {ι ν ε : Type}

/-- A register that has no value yet is set; one that has a value keeps it, and takes no other. -/
def write [DecidableEq ι] [DecidableEq ν] (blank : ν) (e : ε) (i : ι) (v : ν) :
    Call ε (ι → ν) Unit := fun s =>
  if s i = blank then some (.ok () (Function.update s i v))
  else if s i = v then some (.ok () s)
  else some (.failed e s)

section Rules

variable (blank : ν)

/-- The registers have the values they had, and those of `W`. -/
def Extends (s : ι → ν) (W : Set (ι × ν)) (s' : ι → ν) : Prop :=
  ∀ i v, v ≠ blank → (s' i = v ↔ s i = v ∨ (i, v) ∈ W)

/-- The call comes back. It succeeds if `can` holds and the values it sets, those of `W`, go
together with each other and with the ones before; these are then the values. -/
def Assigns (W : Set (ι × ν)) (can : Prop) (c : Call ε (ι → ν) Unit) : Prop :=
  ∀ s, (∀ s', c s = some (.ok () s') ↔ can ∧ Extends blank s W s') ∧
    ((∃ s', c s = some (.ok () s')) ∨ ∃ e s', c s = some (.failed e s'))

variable {blank}

/-- There is at most one way to extend. -/
theorem Extends.unique {s s₁ s₂ : ι → ν} {W : Set (ι × ν)} (h₁ : Extends blank s W s₁)
    (h₂ : Extends blank s W s₂) : s₁ = s₂ := by
  funext i
  by_cases h : s₁ i = blank
  · by_cases h' : s₂ i = blank
    · rw [h, h']
    · exact (h₁ i _ h').mpr ((h₂ i _ h').mp rfl)
  · exact ((h₂ i _ h).mpr ((h₁ i _ h).mp rfl)).symm

theorem Extends.trans {s s₁ s₂ : ι → ν} {W₁ W₂ : Set (ι × ν)} (h₁ : Extends blank s W₁ s₁)
    (h₂ : Extends blank s₁ W₂ s₂) : Extends blank s (W₁ ∪ W₂) s₂ := by
  intro i v hv
  rw [h₂ i v hv, h₁ i v hv, Set.mem_union, or_assoc]

open Classical in
/-- What extends by two sets extends by the first one on the way. -/
theorem Extends.split {s s₂ : ι → ν} {W₁ W₂ : Set (ι × ν)}
    (h : Extends blank s (W₁ ∪ W₂) s₂) :
    ∃ s₁, Extends blank s W₁ s₁ ∧ Extends blank s₁ W₂ s₂ := by
  let s₁ : ι → ν := fun i => if s i = s₂ i ∨ (i, s₂ i) ∈ W₁ then s₂ i else blank
  have hfirst : Extends blank s W₁ s₁ := by
    intro i v hv
    constructor
    · intro heq
      by_cases hold : s i = s₂ i ∨ (i, s₂ i) ∈ W₁
      · have hs₁ : s₁ i = s₂ i := if_pos hold
        rw [← heq, hs₁]
        exact hold
      · have hs₁ : s₁ i = blank := if_neg hold
        exact absurd (heq.symm.trans hs₁) hv
    · intro hvalue
      have hlast : s₂ i = v := by
        apply (h i v hv).mpr
        rcases hvalue with hs | hW
        · exact Or.inl hs
        · exact Or.inr (Or.inl hW)
      have hold : s i = s₂ i ∨ (i, s₂ i) ∈ W₁ := by rw [hlast]; exact hvalue
      have hs₁ : s₁ i = s₂ i := if_pos hold
      rw [hs₁, hlast]
  refine ⟨s₁, hfirst, fun i v hv => ?_⟩
  rw [hfirst i v hv, h i v hv, Set.mem_union, or_assoc]

open Classical in
/-- Registers without values can be extended by values of which no two are for one register. -/
theorem exists_extends_iff {W : Set (ι × ν)} (hW : ∀ w ∈ W, w.2 ≠ blank) :
    (∃ s, Extends blank (fun _ => blank) W s) ↔
      ∀ i v v', (i, v) ∈ W → (i, v') ∈ W → v = v' := by
  constructor
  · rintro ⟨s, hs⟩ i v v' hv hv'
    have hleft : s i = v := (hs i v (hW _ hv)).mpr (Or.inr hv)
    have hright : s i = v' := (hs i v' (hW _ hv')).mpr (Or.inr hv')
    exact hleft.symm.trans hright
  · intro hone
    let s : ι → ν := fun i => if h : ∃ v, (i, v) ∈ W then h.choose else blank
    refine ⟨s, fun i v hv => ⟨fun heq => ?_, fun hvalue => ?_⟩⟩
    · by_cases h : ∃ v, (i, v) ∈ W
      · have hs : s i = h.choose := dif_pos h
        rw [← heq, hs]
        exact Or.inr h.choose_spec
      · have hs : s i = blank := dif_neg h
        exact absurd (heq.symm.trans hs) hv
    · rcases hvalue with hblank | hmem
      · exact absurd hblank.symm hv
      · have h : ∃ v, (i, v) ∈ W := ⟨v, hmem⟩
        have hs : s i = h.choose := dif_pos h
        rw [hs]
        exact hone i _ v h.choose_spec hmem

private theorem assigns_pure :
    Assigns blank (∅ : Set (ι × ν)) True (pure () : Call ε (ι → ν) Unit) := by
  intro s
  have hself : Extends blank s (∅ : Set (ι × ν)) s := by
    intro i v _
    simp
  refine ⟨fun s' => ⟨fun h => ?_, fun h => ?_⟩, Or.inl ⟨s, rfl⟩⟩
  · cases h
    exact ⟨trivial, hself⟩
  · rw [h.2.unique hself]
    rfl

theorem assigns_fail (e : ε) (W : Set (ι × ν)) :
    Assigns blank W False (Call.fail e : Call ε (ι → ν) Unit) := by
  intro s
  refine ⟨fun s' => ⟨fun h => ?_, fun h => h.1.elim⟩, Or.inr ⟨e, s, rfl⟩⟩
  cases h

theorem assigns_write [DecidableEq ι] [DecidableEq ν] (e : ε) {i : ι} {v : ν}
    (hv : v ≠ blank) : Assigns blank {(i, v)} True (write blank e i v) := by
  intro s
  unfold write
  by_cases hblank : s i = blank
  · rw [if_pos hblank]
    have hset : Extends blank s {(i, v)} (Function.update s i v) := by
      intro j u hu
      rw [Set.mem_singleton_iff, Prod.mk.injEq]
      by_cases hj : j = i
      · subst hj
        rw [Function.update_self, hblank]
        constructor
        · intro heq
          exact Or.inr ⟨rfl, heq.symm⟩
        · rintro (heq | ⟨-, rfl⟩)
          · exact absurd heq.symm hu
          · rfl
      · rw [Function.update_of_ne hj]
        simp [hj]
    refine ⟨fun s' => ⟨fun h => ?_, fun h => ?_⟩, Or.inl ⟨_, rfl⟩⟩
    · cases h
      exact ⟨trivial, hset⟩
    · rw [h.2.unique hset]
  · rw [if_neg hblank]
    by_cases hsame : s i = v
    · rw [if_pos hsame]
      have hkeep : Extends blank s {(i, v)} s := by
        intro j u _
        rw [Set.mem_singleton_iff, Prod.mk.injEq]
        constructor
        · exact Or.inl
        · rintro (heq | ⟨rfl, rfl⟩)
          · exact heq
          · exact hsame
      refine ⟨fun s' => ⟨fun h => ?_, fun h => ?_⟩, Or.inl ⟨_, rfl⟩⟩
      · cases h
        exact ⟨trivial, hkeep⟩
      · rw [h.2.unique hkeep]
    · rw [if_neg hsame]
      refine ⟨fun s' => ⟨fun h => absurd h (by simp), fun h => ?_⟩, Or.inr ⟨_, _, rfl⟩⟩
      have hold : s' i = s i := (h.2 i (s i) hblank).mpr (Or.inl rfl)
      have hnew : s' i = v := (h.2 i v hv).mpr (Or.inr rfl)
      exact absurd (hold.symm.trans hnew) hsame

theorem Assigns.andThen {W₁ W₂ : Set (ι × ν)} {can₁ can₂ : Prop} {c₁ c₂ : Call ε (ι → ν) Unit}
    (h₁ : Assigns blank W₁ can₁ c₁) (h₂ : Assigns blank W₂ can₂ c₂) :
    Assigns blank (W₁ ∪ W₂) (can₁ ∧ can₂) (c₁ >>= fun _ => c₂) := by
  intro s
  refine ⟨fun s' => ⟨fun h => ?_, fun h => ?_⟩, ?_⟩
  · obtain ⟨⟨⟩, s₁, hc₁, hc₂⟩ := Call.bind_ok h
    obtain ⟨hcan₁, hfirst⟩ := ((h₁ s).1 s₁).mp hc₁
    obtain ⟨hcan₂, hsecond⟩ := ((h₂ s₁).1 s').mp hc₂
    exact ⟨⟨hcan₁, hcan₂⟩, hfirst.trans hsecond⟩
  · obtain ⟨⟨hcan₁, hcan₂⟩, hboth⟩ := h
    obtain ⟨s₁, hfirst, hsecond⟩ := hboth.split
    rw [Call.bind_of_ok (((h₁ s).1 s₁).mpr ⟨hcan₁, hfirst⟩)]
    exact ((h₂ s₁).1 s').mpr ⟨hcan₂, hsecond⟩
  · rcases (h₁ s).2 with ⟨s₁, hc₁⟩ | ⟨e, s₁, hc₁⟩
    · rw [Call.bind_of_ok hc₁]
      exact (h₂ s₁).2
    · exact Or.inr ⟨e, s₁, Call.bind_of_failed hc₁⟩

/-- A loop sets what its turns set, in any order. -/
theorem Assigns.forEach {α : Type} {W : α → Set (ι × ν)} {can : α → Prop}
    {f : α → Call ε (ι → ν) Unit} (xs : List α)
    (hf : ∀ x ∈ xs, Assigns blank (W x) (can x) (f x)) :
    Assigns blank {w | ∃ x ∈ xs, w ∈ W x} (∀ x ∈ xs, can x) (Call.forEach f xs) := by
  induction xs with
  | nil =>
      have hnone : {w : ι × ν | ∃ x ∈ ([] : List α), w ∈ W x} = ∅ := by
        ext w
        simp
      have hcan : (∀ x ∈ ([] : List α), can x) = True := by simp
      rw [hnone, hcan]
      exact assigns_pure
  | cons x xs ih =>
      have hboth := (hf x List.mem_cons_self).andThen
        (ih fun y hy => hf y (List.mem_cons_of_mem x hy))
      have hset : {w | ∃ y ∈ x :: xs, w ∈ W y} = W x ∪ {w | ∃ y ∈ xs, w ∈ W y} := by
        ext w
        simp
      have hcan : (∀ y ∈ x :: xs, can y) = (can x ∧ ∀ y ∈ xs, can y) := by simp
      rw [hset, hcan]
      exact hboth

/-- A call before that leaves the registers. -/
theorem Assigns.after {α : Type} {W : Set (ι × ν)} {can : Prop} {c : Call ε (ι → ν) α}
    {f : α → Call ε (ι → ν) Unit}
    (hc : ∀ s, ∃ a, c s = some (.ok a s) ∧ Assigns blank W can (f a)) :
    Assigns blank W can (c >>= f) := by
  intro s
  obtain ⟨a, hret, hf⟩ := hc s
  rw [Call.bind_of_ok hret]
  exact hf s

theorem Assigns.of_eq {W W' : Set (ι × ν)} {can can' : Prop} {c : Call ε (ι → ν) Unit}
    (h : Assigns blank W can c) (hW : W = W') (hcan : can ↔ can') : Assigns blank W' can' c := by
  subst hW
  rw [← propext hcan]
  exact h

end Rules

end Cil.Library.WriteOnce
