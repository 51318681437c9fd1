/- Cil/Library/Comparator
   digest: Comparators that return a sign, and the order in which they put entries. -/

import Mathlib.Data.List.Basic
import Mathlib.Data.List.Sort

/-!
A comparator says by the sign of an integer which of two entries comes first, or it does not
return. It is compared with an order of which only the results matter.
-/

set_option autoImplicit false
set_option relaxedAutoImplicit false

namespace Cil.Library.Comparator

variable {α κ : Type*}

/-- The comparator is a total preorder of the entries, and puts entries with different keys one
before the other. -/
structure Consistent (cmp : α → α → Option Int) (key : α → κ) (entries : List α) : Prop where
  defined : ∀ a ∈ entries, ∀ b ∈ entries, ∃ r, cmp a b = some r
  antisymmetric : ∀ a ∈ entries, ∀ b ∈ entries, ∀ r r', cmp a b = some r → cmp b a = some r' →
    (r < 0 ↔ 0 < r')
  transitive : ∀ a ∈ entries, ∀ b ∈ entries, ∀ c ∈ entries, ∀ r r' r'', cmp a b = some r →
    cmp b c = some r' → cmp a c = some r'' → r ≤ 0 → r' ≤ 0 → r'' ≤ 0
  equal : ∀ a ∈ entries, ∀ b ∈ entries, cmp a b = some 0 ↔ key a = key b

/-- The signs of the comparator are the results of the order. -/
def Follows (cmp : α → α → Option Int) (order : α → α → Ordering) (entries : List α) : Prop :=
  ∀ a ∈ entries, ∀ b ∈ entries, ∃ r, cmp a b = some r ∧ compare r 0 = order a b

theorem compare_zero_lt {r : Int} : compare r 0 = .lt ↔ r < 0 := Int.compare_eq_lt

theorem compare_zero_gt {r : Int} : compare r 0 = .gt ↔ 0 < r := Int.compare_eq_gt

theorem compare_zero_eq {r : Int} : compare r 0 = .eq ↔ r = 0 := Int.compare_eq_eq

theorem compare_zero_isLE {r : Int} : (compare r 0).isLE = true ↔ r ≤ 0 := Int.isLE_compare

theorem Follows.consistent {cmp : α → α → Option Int} {order : α → α → Ordering}
    {entries : List α} [Std.TransCmp order] (h : Follows cmp order entries) {key : α → κ}
    (hkey : ∀ a b, order a b = .eq ↔ key a = key b) : Consistent cmp key entries := by
  constructor
  · intro a ha b hb
    obtain ⟨r, hr, -⟩ := h a ha b hb
    exact ⟨r, hr⟩
  · intro a ha b hb r r' hr hr'
    obtain ⟨x, hx, horder⟩ := h a ha b hb
    obtain ⟨y, hy, horder'⟩ := h b hb a ha
    rw [hr] at hx
    rw [hr'] at hy
    obtain rfl := Option.some.inj hx
    obtain rfl := Option.some.inj hy
    rw [← compare_zero_lt, ← compare_zero_gt, horder, horder']
    exact Std.OrientedCmp.gt_iff_lt.symm
  · intro a ha b hb c hc r r' r'' hr hr' hr'' hle hle'
    obtain ⟨x, hx, hab⟩ := h a ha b hb
    obtain ⟨y, hy, hbc⟩ := h b hb c hc
    obtain ⟨z, hz, hac⟩ := h a ha c hc
    rw [hr] at hx
    rw [hr'] at hy
    rw [hr''] at hz
    obtain rfl := Option.some.inj hx
    obtain rfl := Option.some.inj hy
    obtain rfl := Option.some.inj hz
    rw [← compare_zero_isLE] at hle hle' ⊢
    rw [hab] at hle
    rw [hbc] at hle'
    rw [hac]
    exact Std.TransCmp.isLE_trans hle hle'
  · intro a ha b hb
    obtain ⟨r, hr, horder⟩ := h a ha b hb
    rw [← hkey, ← horder, compare_zero_eq, hr, Option.some.injEq]

/-- No entry is after a later one. -/
def Sorted (cmp : α → α → Option Int) (l : List α) : Prop :=
  l.Pairwise fun a b => ∃ r, cmp a b = some r ∧ r ≤ 0

/-- An entry may be replaced by one with the same key. -/
theorem Consistent.replace {cmp : α → α → Option Int} {key : α → κ} {entries : List α}
    (h : Consistent cmp key entries) {a b a' b' : α} (ha : a ∈ entries) (hb : b ∈ entries)
    (ha' : a' ∈ entries) (hb' : b' ∈ entries) (heqa : key a' = key a) (heqb : key b = key b')
    (hle : ∃ r, cmp a b = some r ∧ r ≤ 0) : ∃ r, cmp a' b' = some r ∧ r ≤ 0 := by
  obtain ⟨r, hr, hle⟩ := hle
  have hfirst : cmp a' a = some 0 := (h.equal a' ha' a ha).mpr heqa
  have hlast : cmp b b' = some 0 := (h.equal b hb b' hb').mpr heqb
  obtain ⟨s, hs⟩ := h.defined a' ha' b hb
  obtain ⟨t, ht⟩ := h.defined a' ha' b' hb'
  have hsle : s ≤ 0 := h.transitive a' ha' a ha b hb 0 r s hfirst hr hs (by omega) hle
  have htle : t ≤ 0 := h.transitive a' ha' b hb b' hb' s 0 t hs hlast ht hsle (by omega)
  exact ⟨t, ht, htle⟩

/-- Sorting gives one order only, up to entries with the same key. -/
theorem Consistent.unique {cmp : α → α → Option Int} {key : α → κ} {entries l l' : List α}
    (h : Consistent cmp key entries) (hl : l.Perm entries) (hl' : l'.Perm entries)
    (hsorted : Sorted cmp l) (hsorted' : Sorted cmp l') : l.map key = l'.map key := by
  have hle : ∀ l₀ : List α, l₀.Perm entries → Sorted cmp l₀ →
      (l₀.map key).Pairwise fun k k' => ∀ a ∈ entries, ∀ b ∈ entries, key a = k → key b = k' →
        ∃ r, cmp a b = some r ∧ r ≤ 0 := by
    intro l₀ hperm hs
    rw [List.pairwise_map]
    refine hs.imp_of_mem fun {a b} ha hb hab a' ha' b' hb' heqa heqb => ?_
    exact h.replace (hperm.mem_iff.mp ha) (hperm.mem_iff.mp hb) ha' hb' heqa heqb.symm hab
  refine List.Perm.eq_of_pairwise (fun k k' hk hk' hkk' hk'k => ?_) (hle l hl hsorted)
    (hle l' hl' hsorted') ((hl.trans hl'.symm).map key)
  obtain ⟨a, ha, rfl⟩ := List.mem_map.mp hk
  obtain ⟨b, hb, rfl⟩ := List.mem_map.mp hk'
  have ha := hl.mem_iff.mp ha
  have hb := hl'.mem_iff.mp hb
  obtain ⟨r, hr, hrle⟩ := hkk' a ha b hb rfl rfl
  obtain ⟨r', hr', hrle'⟩ := hk'k b hb a ha rfl rfl
  have hsign := h.antisymmetric a ha b hb r r' hr hr'
  have hzero : r = 0 := by omega
  exact (h.equal a ha b hb).mp (by rw [hr, hzero])

/-- The comparison of two sequences by their first difference. -/
def lexCompare (code : α → Nat) : List α → List α → Int
  | [], [] => 0
  | [], _ :: _ => -1
  | _ :: _, [] => 1
  | a :: as, b :: bs => if code a = code b then lexCompare code as bs else code a - code b

attribute [simp] lexCompare

theorem lexCompare_compare (code : α → Nat) (as bs : List α) :
    compare (lexCompare code as bs) 0 = compare (as.map code) (bs.map code) := by
  induction as generalizing bs with
  | nil =>
    cases bs with
    | nil => rfl
    | cons b bs => rfl
  | cons a as ih =>
    cases bs with
    | nil => rfl
    | cons b bs =>
      rw [List.map_cons, List.map_cons, List.compare_cons_cons, lexCompare]
      by_cases heq : code a = code b
      · have hsame : compare (code a) (code b) = .eq := Nat.compare_eq_eq.mpr heq
        rw [if_pos heq, ih, hsame, Ordering.eq_then]
      · rw [if_neg heq]
        rcases Nat.lt_or_gt_of_ne heq with hlt | hgt
        · have hless : compare (code a) (code b) = .lt := Nat.compare_eq_lt.mpr hlt
          rw [hless, Ordering.lt_then, compare_zero_lt]
          omega
        · have hmore : compare (code a) (code b) = .gt := Nat.compare_eq_gt.mpr hgt
          rw [hmore, Ordering.gt_then, compare_zero_gt]
          omega

end Cil.Library.Comparator
