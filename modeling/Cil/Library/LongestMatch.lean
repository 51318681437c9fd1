/- Cil/Library/LongestMatch
   digest: Scanners that take the longest match, and the first rule among the longest. -/

import Mathlib.Data.List.Basic

set_option autoImplicit false
set_option relaxedAutoImplicit false

namespace Cil.Library.LongestMatch

variable {α β : Type*}

/-- A rule of a scanner: how much of what begins the input its pattern matches at most, if
anything, and what is done then. -/
structure Rule (α β : Type*) where
  longest : List α → Option Nat
  action : β

/-- The rule that matches most, the first one when several do, with how much it matches. -/
def select (input : List α) : List (Rule α β) → Option (Nat × β)
  | [] => none
  | r :: rules =>
      match r.longest input, select input rules with
      | none, later => later
      | some n, none => some (n, r.action)
      | some n, some (m, action) => if m ≤ n then some (n, r.action) else some (m, action)

attribute [simp] select

/-- What is selected is the match of one of the rules. -/
theorem select_mem {input : List α} {rules : List (Rule α β)} {n : Nat} {action : β}
    (h : select input rules = some (n, action)) :
    ∃ r ∈ rules, r.longest input = some n ∧ r.action = action := by
  induction rules with
  | nil => cases h
  | cons r rules ih =>
    simp only [select] at h
    cases hfirst : r.longest input with
    | none =>
      simp only [hfirst] at h
      obtain ⟨r', hmem, hr'⟩ := ih h
      exact ⟨r', List.mem_cons_of_mem _ hmem, hr'⟩
    | some k =>
      cases hlater : select input rules with
      | none =>
        simp only [hfirst, hlater, Option.some.injEq, Prod.mk.injEq] at h
        obtain ⟨hk, haction⟩ := h
        exact ⟨r, List.mem_cons_self, by rw [hfirst, hk], haction⟩
      | some found =>
        obtain ⟨m, later⟩ := found
        simp only [hfirst, hlater] at h
        split_ifs at h with hle
        · obtain ⟨hk, haction⟩ := Prod.mk.inj (Option.some.inj h)
          exact ⟨r, List.mem_cons_self, by rw [hfirst, hk], haction⟩
        · rw [h] at hlater
          obtain ⟨r', hmem, hr'⟩ := ih hlater
          exact ⟨r', List.mem_cons_of_mem _ hmem, hr'⟩

/-- No rule matches more than the selected one. -/
theorem select_longest {input : List α} {rules : List (Rule α β)} {r : Rule α β} {n : Nat}
    (hr : r ∈ rules) (hn : r.longest input = some n) :
    ∃ m action, select input rules = some (m, action) ∧ n ≤ m := by
  induction rules with
  | nil => exact absurd hr List.not_mem_nil
  | cons first rules ih =>
    simp only [select]
    rcases List.mem_cons.mp hr with heq | hmem
    · rw [← heq, hn]
      cases select input rules with
      | none => exact ⟨n, _, rfl, Nat.le_refl _⟩
      | some found =>
        obtain ⟨m, later⟩ := found
        dsimp only
        split_ifs with hle
        · exact ⟨n, _, rfl, Nat.le_refl _⟩
        · exact ⟨m, _, rfl, by omega⟩
    · obtain ⟨m, later, hlater, hle⟩ := ih hmem
      rw [hlater]
      cases first.longest input with
      | none => exact ⟨m, _, rfl, hle⟩
      | some k =>
        dsimp only
        split_ifs with hfirst
        · exact ⟨k, _, rfl, by omega⟩
        · exact ⟨m, _, rfl, hle⟩

end Cil.Library.LongestMatch
