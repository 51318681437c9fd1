/- Cil/Library/Chain
   digest: Chains of a partial successor function and a doubling cycle detector. -/

import Mathlib.Data.Finset.Card
import Mathlib.Data.Finset.Range
import Mathlib.Logic.Relation

set_option autoImplicit false
set_option relaxedAutoImplicit false

namespace Cil.Library.Chain

open Relation

variable {α : Type*}

/-- `b` is the successor of `a`. -/
def Next (f : α → Option α) (a b : α) : Prop := f a = some b

/-- The chain of `a` stops at `z` after `n` steps. -/
inductive EndsIn (f : α → Option α) : Nat → α → α → Prop
  | stop {z : α} : f z = none → EndsIn f 0 z z
  | step {n : Nat} {a b z : α} : f a = some b → EndsIn f n b z → EndsIn f (n + 1) a z

/-- The chain of `a` goes on forever, through the members of `s`. -/
structure Runs (f : α → Option α) (a : α) (s : Nat → α) : Prop where
  start : s 0 = a
  next : ∀ k, f (s k) = some (s (k + 1))

theorem EndsIn.unique {f : α → Option α} {m n : Nat} {a y z : α} (h : EndsIn f m a y)
    (h' : EndsIn f n a z) : m = n ∧ y = z := by
  induction h generalizing n with
  | stop hz =>
    cases h' with
    | stop _ => exact ⟨rfl, rfl⟩
    | step hs _ => simp [hz] at hs
  | step hs _ ih =>
    cases h' with
    | stop hz => simp [hz] at hs
    | step hs' ht =>
      obtain rfl := Option.some.inj (hs.symm.trans hs')
      obtain ⟨rfl, rfl⟩ := ih ht
      exact ⟨rfl, rfl⟩

theorem EndsIn.reaches {f : α → Option α} {n : Nat} {a z : α} (h : EndsIn f n a z) :
    ReflTransGen (Next f) a z := by
  induction h with
  | stop _ => exact ReflTransGen.refl
  | step hs _ ih => exact ReflTransGen.head hs ih

theorem EndsIn.last {f : α → Option α} {n : Nat} {a z : α} (h : EndsIn f n a z) :
    f z = none := by
  induction h with
  | stop hz => exact hz
  | step _ _ ih => exact ih

theorem endsIn_of_reaches {f : α → Option α} {a z : α} (h : ReflTransGen (Next f) a z)
    (hz : f z = none) : ∃ n, EndsIn f n a z := by
  induction h using ReflTransGen.head_induction_on with
  | refl => exact ⟨0, EndsIn.stop hz⟩
  | head hs _ ih =>
    obtain ⟨n, hn⟩ := ih
    exact ⟨n + 1, EndsIn.step hs hn⟩

/-- Whatever a chain reaches stops where the chain stops. -/
theorem EndsIn.of_reaches {f : α → Option α} {n : Nat} {a b z : α} (h : EndsIn f n a z)
    (hab : ReflTransGen (Next f) a b) : ∃ m, m ≤ n ∧ EndsIn f m b z := by
  induction hab using ReflTransGen.head_induction_on generalizing n with
  | refl => exact ⟨n, Nat.le_refl n, h⟩
  | head hs _ ih =>
    cases h with
    | stop hz => exact absurd (hz.symm.trans hs) (by simp)
    | step hs' ht =>
      obtain rfl := Option.some.inj (hs.symm.trans hs')
      obtain ⟨m, hm, he⟩ := ih ht
      exact ⟨m, by omega, he⟩

/-- A chain that stops is no longer than the number of members with a successor. -/
theorem EndsIn.length_le [DecidableEq α] {f : α → Option α} {n : Nat} {a z : α}
    (h : EndsIn f n a z) {S : Finset α}
    (hS : ∀ x, ReflTransGen (Next f) a x → f x ≠ none → x ∈ S) : n ≤ S.card := by
  induction h generalizing S with
  | stop _ => exact Nat.zero_le _
  | @step n a b z hs ht ih =>
    have ha : a ∈ S := hS a ReflTransGen.refl (by simp [hs])
    have hlen : n ≤ (S.erase a).card := by
      apply ih
      intro x hx hfx
      refine Finset.mem_erase.mpr ⟨?_, hS x (ReflTransGen.head hs hx) hfx⟩
      intro he
      subst he
      obtain ⟨m, hm, he⟩ := ht.of_reaches hx
      have := (he.unique (EndsIn.step hs ht)).1
      omega
    have hpos : 0 < S.card := Finset.card_pos.mpr ⟨a, ha⟩
    rw [Finset.card_erase_of_mem ha] at hlen
    omega

theorem EndsIn.not_runs {f : α → Option α} {n : Nat} {a z : α} (h : EndsIn f n a z)
    {s : Nat → α} : ¬ Runs f a s := by
  induction h generalizing s with
  | stop hz =>
    intro hr
    have hnext := hr.next 0
    rw [hr.start, hz] at hnext
    cases hnext
  | step hs _ ih =>
    intro hr
    have hnext := hr.next 0
    rw [hr.start, hs] at hnext
    exact ih (s := fun k => s (k + 1)) ⟨(Option.some.inj hnext).symm, fun k => hr.next (k + 1)⟩

/-- A chain stops or goes on forever. -/
theorem endsIn_or_runs (f : α → Option α) (a : α) :
    (∃ n z, EndsIn f n a z) ∨ ∃ s, Runs f a s := by
  by_cases h : ∃ z, ReflTransGen (Next f) a z ∧ f z = none
  · obtain ⟨z, haz, hz⟩ := h
    obtain ⟨n, hn⟩ := endsIn_of_reaches haz hz
    exact Or.inl ⟨n, z, hn⟩
  · have hstep : ∀ b : {b // ReflTransGen (Next f) a b}, ∃ c : {c // ReflTransGen (Next f) a c},
        f b.1 = some c.1 := by
      intro b
      cases hb : f b.1 with
      | none => exact absurd ⟨b.1, b.2, hb⟩ h
      | some c => exact ⟨⟨c, b.2.tail hb⟩, rfl⟩
    choose g hg using hstep
    refine Or.inr ⟨fun k => (g^[k] ⟨a, ReflTransGen.refl⟩).1, rfl, fun k => ?_⟩
    rw [Function.iterate_succ_apply']
    exact hg _

theorem Runs.reaches {f : α → Option α} {a : α} {s : Nat → α} (h : Runs f a s) (k : Nat) :
    ReflTransGen (Next f) a (s k) := by
  induction k with
  | zero => exact h.start ▸ ReflTransGen.refl
  | succ k ih => exact ih.tail (h.next k)

private theorem Runs.eq_add {f : α → Option α} {a : α} {s : Nat → α} (h : Runs f a s) {i j : Nat}
    (hij : s i = s j) (k : Nat) : s (i + k) = s (j + k) := by
  induction k with
  | zero => exact hij
  | succ k ih =>
    have hi := h.next (i + k)
    rw [ih, h.next (j + k)] at hi
    exact (Option.some.inj hi).symm

/-- A run through at most `N` members repeats itself from its member `N` on. -/
private theorem Runs.periodic [DecidableEq α] {f : α → Option α} {a : α} {s : Nat → α}
    (h : Runs f a s) {S : Finset α} (hS : ∀ x, f x ≠ none → x ∈ S) :
    ∃ d, 0 < d ∧ d ≤ S.card ∧ ∀ p, S.card ≤ p → s (p + d) = s p := by
  have hmaps : ∀ k ∈ Finset.range (S.card + 1), s k ∈ S := by
    intro k _
    exact hS (s k) (by simp [h.next k])
  obtain ⟨i, hi, j, hj, hne, heq⟩ :=
    Finset.exists_ne_map_eq_of_card_lt_of_maps_to (by simp) hmaps
  have hperiod : ∀ i j, i < j → j ≤ S.card → s i = s j →
      ∃ d, 0 < d ∧ d ≤ S.card ∧ ∀ p, S.card ≤ p → s (p + d) = s p := by
    intro i j hlt hle heq
    refine ⟨j - i, by omega, by omega, fun p hp => ?_⟩
    have := h.eq_add heq (p - i)
    rw [show i + (p - i) = p by omega, show j + (p - i) = p + (j - i) by omega] at this
    exact this.symm
  simp only [Finset.mem_range] at hi hj
  rcases Nat.lt_or_gt_of_ne hne with hlt | hlt
  · exact hperiod i j hlt (by omega) heq
  · exact hperiod j i hlt (by omega) heq.symm

theorem Runs.trans {f : α → Option α} {a : α} {s : Nat → α} (h : Runs f a s) (k d : Nat) :
    TransGen (Next f) (s k) (s (k + (d + 1))) := by
  induction d with
  | zero => exact TransGen.single (h.next k)
  | succ d ih => exact ih.tail (h.next (k + (d + 1)))

/-- The chain of `a` runs into a cycle. -/
def Cyclic (f : α → Option α) (a : α) : Prop :=
  ∃ b, ReflTransGen (Next f) a b ∧ TransGen (Next f) b b

theorem EndsIn.not_cyclic {f : α → Option α} {n : Nat} {a z : α} (h : EndsIn f n a z) :
    ¬ Cyclic f a := by
  rintro ⟨b, hab, hbb⟩
  obtain ⟨m, _, hb⟩ := h.of_reaches hab
  obtain ⟨c, hbc, hcb⟩ := TransGen.head'_iff.mp hbb
  cases hb with
  | stop hz => exact absurd (hz.symm.trans hbc) (by simp)
  | step hs ht =>
    obtain rfl := Option.some.inj (hs.symm.trans hbc)
    obtain ⟨k, hk, hb'⟩ := ht.of_reaches hcb
    have := (hb'.unique (EndsIn.step hs ht)).1
    omega

/-- With finitely many members that have a successor, a chain stops or runs into a cycle. -/
theorem endsIn_or_cyclic [DecidableEq α] {f : α → Option α} {S : Finset α}
    (hS : ∀ x, f x ≠ none → x ∈ S) (a : α) : (∃ n z, EndsIn f n a z) ∨ Cyclic f a := by
  rcases endsIn_or_runs f a with h | ⟨s, hs⟩
  · exact Or.inl h
  · obtain ⟨d, hd, _, hper⟩ := hs.periodic hS
    obtain ⟨d, rfl⟩ := Nat.exists_eq_add_of_lt hd
    have hloop := hs.trans S.card d
    rw [show S.card + (d + 1) = S.card + (0 + d + 1) by omega, hper S.card (Nat.le_refl _)] at hloop
    exact Or.inr ⟨s S.card, hs.reaches _, hloop⟩

/-- The cycle detector: it compares each new member with a checkpoint and moves the
checkpoint up each time the steps taken since reach a limit that doubles. `some (some z)`
is a chain that stops at `z` and `some none` a circular one. -/
def doublingWalk [DecidableEq α] (f : α → Option α) :
    Nat → α → α → Nat → Nat → Option (Option α)
  | 0, _, _, _, _ => none
  | fuel + 1, a1, a2, steps, limit =>
      match f a1 with
      | none => some (some a1)
      | some x =>
          if x = a2 then some none
          else if steps + 1 = limit then doublingWalk f fuel x x 0 (2 * limit)
          else doublingWalk f fuel x a2 (steps + 1) limit

section Walk

variable [DecidableEq α] {f : α → Option α}

/-- On a chain that stops no member meets a checkpoint behind it. -/
theorem doublingWalk_of_endsIn {n m fuel : Nat} {a1 a2 z : α} (h1 : EndsIn f n a1 z)
    (h2 : EndsIn f m a2 z) (hnm : n ≤ m) (hfuel : n < fuel) (steps limit : Nat) :
    doublingWalk f fuel a1 a2 steps limit = some (some z) := by
  induction fuel generalizing n m a1 a2 steps limit with
  | zero => omega
  | succ fuel ih =>
    cases h1 with
    | stop hz => simp [doublingWalk, hz]
    | @step n _ x _ hs ht =>
      have hne : x ≠ a2 := by
        intro he
        subst he
        have := (ht.unique h2).1
        omega
      simp only [doublingWalk, hs, if_neg hne]
      split_ifs with hl
      · exact ih ht ht (Nat.le_refl n) (by omega) 0 (2 * limit)
      · exact ih ht h2 (by omega) (by omega) (steps + 1) limit

/-- A walk that names an end has followed the chain to it. -/
theorem endsIn_of_doublingWalk {fuel : Nat} {a1 a2 z : α} {steps limit : Nat}
    (h : doublingWalk f fuel a1 a2 steps limit = some (some z)) : ∃ n, EndsIn f n a1 z := by
  induction fuel generalizing a1 a2 steps limit with
  | zero => simp [doublingWalk] at h
  | succ fuel ih =>
    cases hs : f a1 with
    | none =>
      simp only [doublingWalk, hs, Option.some.injEq] at h
      subst h
      exact ⟨0, EndsIn.stop hs⟩
    | some x =>
      simp only [doublingWalk, hs] at h
      split_ifs at h with hx hl
      · simp at h
      · obtain ⟨n, hn⟩ := ih h
        exact ⟨n + 1, EndsIn.step hs hn⟩
      · obtain ⟨n, hn⟩ := ih h
        exact ⟨n + 1, EndsIn.step hs hn⟩

/-- From a checkpoint that comes back within the limit the walk reports a cycle. -/
private theorem doublingWalk_of_return {a : α} {s : Nat → α} (h : Runs f a s) {p limit : Nat}
    (r k : Nat) (hr : s (p + k + (r + 1)) = s p) (hlimit : k + (r + 1) ≤ limit) {fuel : Nat}
    (hfuel : r < fuel) : doublingWalk f fuel (s (p + k)) (s p) k limit = some none := by
  induction r generalizing k fuel with
  | zero =>
    obtain ⟨fuel, rfl⟩ := Nat.exists_eq_add_of_lt hfuel
    simp only [Nat.zero_add] at hr ⊢
    simp [doublingWalk, h.next, hr]
  | succ r ih =>
    obtain ⟨fuel, rfl⟩ : ∃ n, fuel = n + 1 := ⟨fuel - 1, by omega⟩
    simp only [doublingWalk, h.next]
    by_cases hx : s (p + k + 1) = s p
    · simp [hx]
    · rw [if_neg hx, if_neg (by omega)]
      refine ih (k + 1) ?_ (by omega) (by omega)
      rw [← hr]
      congr 1
      omega

/-- From a checkpoint the walk reports a cycle or reaches the next checkpoint. -/
private theorem doublingWalk_window {a : α} {s : Nat → α} (h : Runs f a s) (p limit r k : Nat)
    (hk : k + (r + 1) = limit) (fuel : Nat) :
    doublingWalk f (r + 1 + fuel) (s (p + k)) (s p) k limit = some none ∨
      doublingWalk f (r + 1 + fuel) (s (p + k)) (s p) k limit =
        doublingWalk f fuel (s (p + limit)) (s (p + limit)) 0 (2 * limit) := by
  induction r generalizing k with
  | zero =>
    rw [show 0 + 1 + fuel = fuel + 1 by omega]
    simp only [doublingWalk, h.next]
    by_cases hx : s (p + k + 1) = s p
    · exact Or.inl (if_pos hx)
    · rw [if_neg hx, if_pos (by omega), show p + k + 1 = p + limit by omega]
      exact Or.inr rfl
  | succ r ih =>
    rw [show r + 1 + 1 + fuel = (r + 1 + fuel) + 1 by omega]
    simp only [doublingWalk, h.next]
    by_cases hx : s (p + k + 1) = s p
    · exact Or.inl (if_pos hx)
    · rw [if_neg hx, if_neg (by omega)]
      exact ih (k + 1) (by omega)

/-- On a chain without end the walk reports a cycle. The fuel pays for the windows up to
the first one that is as long as the cycle and starts on it. -/
theorem doublingWalk_of_runs {a : α} {s : Nat → α} (h : Runs f a s) {S : Finset α}
    (hS : ∀ x, f x ≠ none → x ∈ S) {N : Nat} (hN : S.card ≤ N) (p fuel limit : Nat)
    (hlimit : 0 < limit) (hshort : limit < 2 * N) (hfuel : 6 * N ≤ fuel + limit) :
    doublingWalk f fuel (s p) (s p) 0 limit = some none := by
  obtain ⟨d, hd, hdN, hper⟩ := h.periodic hS
  induction hm : N - limit using Nat.strong_induction_on generalizing p limit fuel with
  | _ m ih =>
    obtain ⟨rest, hrest⟩ : ∃ rest, fuel = (limit - 1) + 1 + rest := ⟨fuel - limit, by omega⟩
    rcases doublingWalk_window h p limit (limit - 1) 0 (by omega) rest with
      hw | hw
    · rw [hrest]
      simpa using hw
    · rw [hrest]
      simp only [Nat.add_zero] at hw
      rw [hw]
      by_cases hlong : N ≤ limit
      · have hback : s (p + limit + 0 + (d - 1 + 1)) = s (p + limit) := by
          rw [show p + limit + 0 + (d - 1 + 1) = p + limit + d by omega]
          exact hper (p + limit) (by omega)
        exact doublingWalk_of_return h (d - 1) 0 hback (by omega) (by omega)
      · exact ih (N - 2 * limit) (by omega) (p + limit) rest (2 * limit) (by omega) (by omega)
          (by omega) rfl

/-- With fuel for every member that has a successor the detector decides how a chain ends. -/
theorem doublingWalk_eq_end {S : Finset α} (hS : ∀ x, f x ≠ none → x ∈ S) {N : Nat}
    (hN : S.card + 2 ≤ N) {n : Nat} {a z : α} (h : EndsIn f n a z) :
    doublingWalk f (6 * N) a a 0 2 = some (some z) := by
  have hlen := h.length_le fun x _ hx => hS x hx
  exact doublingWalk_of_endsIn h h (Nat.le_refl n) (by omega) 0 2

theorem doublingWalk_eq_circular {S : Finset α} (hS : ∀ x, f x ≠ none → x ∈ S) {N : Nat}
    (hN : S.card + 2 ≤ N) {a : α} (h : ∀ n z, ¬ EndsIn f n a z) :
    doublingWalk f (6 * N) a a 0 2 = some none := by
  rcases endsIn_or_runs f a with ⟨n, z, he⟩ | ⟨s, hs⟩
  · exact absurd he (h n z)
  · have := doublingWalk_of_runs (N := N) hs hS (by omega) 0 (6 * N) 2 (by omega) (by omega)
      (by omega)
    rw [hs.start] at this
    exact this

theorem doublingWalk_isSome {S : Finset α} (hS : ∀ x, f x ≠ none → x ∈ S) {N : Nat}
    (hN : S.card + 2 ≤ N) (a : α) : ∃ r, doublingWalk f (6 * N) a a 0 2 = some r := by
  by_cases h : ∃ n z, EndsIn f n a z
  · obtain ⟨n, z, hn⟩ := h
    exact ⟨_, doublingWalk_eq_end hS hN hn⟩
  · push Not at h
    exact ⟨_, doublingWalk_eq_circular hS hN h⟩

end Walk

/-- `g` takes shortcuts on the chains of `f`: it goes on wherever `f` does, to a later member. -/
structure Shortcuts (f g : α → Option α) : Prop where
  stops : ∀ a, f a = none → g a = none
  jumps : ∀ a b, f a = some b → ∃ c, g a = some c ∧ ReflTransGen (Next f) b c

/-- Shortcuts end where the chain ends. -/
theorem Shortcuts.endsIn {f g : α → Option α} (h : Shortcuts f g) {n : Nat} {a z : α}
    (ha : EndsIn f n a z) : ∃ m, EndsIn g m a z := by
  induction n using Nat.strong_induction_on generalizing a with
  | _ n ih =>
    cases ha with
    | stop hz => exact ⟨0, EndsIn.stop (h.stops z hz)⟩
    | @step n _ b _ hs ht =>
      obtain ⟨c, hc, hbc⟩ := h.jumps a b hs
      obtain ⟨m, hm, he⟩ := ht.of_reaches hbc
      obtain ⟨k, hk⟩ := ih m (by omega) he
      exact ⟨k + 1, EndsIn.step hc hk⟩

/-- Shortcuts on a chain without end have no end. -/
theorem Shortcuts.of_endsIn {f g : α → Option α} (h : Shortcuts f g) {a z : α} {m : Nat}
    (ha : EndsIn g m a z) : ∃ n, EndsIn f n a z := by
  induction ha with
  | @stop z hz =>
    cases hs : f z with
    | none => exact ⟨0, EndsIn.stop hs⟩
    | some b =>
      obtain ⟨c, hc, _⟩ := h.jumps z b hs
      exact absurd (hz.symm.trans hc) (by simp)
  | @step m a c z hs _ ih =>
    obtain ⟨n, hn⟩ := ih
    cases hf : f a with
    | none => exact absurd ((h.stops a hf).symm.trans hs) (by simp)
    | some b =>
      obtain ⟨c', hc, hbc⟩ := h.jumps a b hf
      obtain rfl := Option.some.inj (hs.symm.trans hc)
      exact endsIn_of_reaches (ReflTransGen.head hf (hbc.trans hn.reaches)) hn.last

end Cil.Library.Chain
