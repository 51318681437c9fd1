/- Cil/Library/Separated
   digest: Words joined by a separator, and reading them back. -/

import Mathlib.Data.List.Basic

set_option autoImplicit false
set_option relaxedAutoImplicit false

namespace Cil.Library.Separated

variable {α : Type*}

/-- The words with a separator between them. -/
def joined (sep : α) (words : List (List α)) : List α := [sep].intercalate words

@[simp]
theorem joined_nil (sep : α) : joined sep [] = [] := rfl

@[simp]
theorem joined_singleton (sep : α) (word : List α) : joined sep [word] = word :=
  List.intercalate_singleton

theorem joined_cons {sep : α} {word : List α} {words : List (List α)} (h : words ≠ []) :
    joined sep (word :: words) = word ++ sep :: joined sep words := by
  rw [joined, List.intercalate_cons_of_ne_nil h, List.append_assoc]
  rfl

theorem joined_append {sep : α} {words words' : List (List α)} (h : words ≠ [])
    (h' : words' ≠ []) :
    joined sep (words ++ words') = joined sep words ++ sep :: joined sep words' := by
  induction words with
  | nil => exact absurd rfl h
  | cons word rest ih =>
    by_cases hrest : rest = []
    · rw [hrest, joined_singleton, List.singleton_append, joined_cons h']
    · have hne : rest ++ words' ≠ [] := fun hnil => hrest (List.append_eq_nil_iff.mp hnil).1
      rw [List.cons_append, joined_cons hne, ih hrest, joined_cons hrest, List.append_assoc]
      rfl

/-- What is in joined words is the separator, or in one of them. -/
theorem mem_joined {sep a : α} {words : List (List α)} (h : a ∈ joined sep words) :
    a = sep ∨ ∃ word ∈ words, a ∈ word := by
  induction words with
  | nil => cases h
  | cons word rest ih =>
    by_cases hrest : rest = []
    · rw [hrest, joined_singleton] at h
      exact Or.inr ⟨word, List.mem_cons_self, h⟩
    · rw [joined_cons hrest] at h
      rcases List.mem_append.mp h with hword | hlater
      · exact Or.inr ⟨word, List.mem_cons_self, hword⟩
      · rcases List.mem_cons.mp hlater with heq | hmem
        · exact Or.inl heq
        · rcases ih hmem with heq | ⟨word', hmem', ha⟩
          · exact Or.inl heq
          · exact Or.inr ⟨word', List.mem_cons_of_mem _ hmem', ha⟩

/-- The separator ends the first word. -/
theorem split_first {sep : α} {x y u v : List α} (hx : sep ∉ x) (hy : sep ∉ y)
    (h : x ++ sep :: u = y ++ sep :: v) : x = y ∧ u = v := by
  induction x generalizing y with
  | nil =>
    cases y with
    | nil => exact ⟨rfl, (List.cons.inj h).2⟩
    | cons b y =>
      have hsep : sep = b := (List.cons.inj h).1
      exact absurd (hsep ▸ List.mem_cons_self) hy
  | cons a x ih =>
    cases y with
    | nil =>
      have hsep : a = sep := (List.cons.inj h).1
      exact absurd (hsep ▸ List.mem_cons_self) hx
    | cons b y =>
      obtain ⟨hab, htail⟩ := List.cons.inj h
      obtain ⟨hxy, huv⟩ := ih (fun hmem => hx (List.mem_cons_of_mem _ hmem))
        (fun hmem => hy (List.mem_cons_of_mem _ hmem)) htail
      exact ⟨by rw [hab, hxy], huv⟩

/-- Words without the separator are read back. -/
theorem joined_injective [DecidableEq α] {sep : α} {words words' : List (List α)} (h : words ≠ [])
    (h' : words' ≠ []) (hsep : ∀ word ∈ words, sep ∉ word) (hsep' : ∀ word ∈ words', sep ∉ word)
    (heq : joined sep words = joined sep words') : words = words' := by
  have hsplit := List.splitOn_intercalate sep hsep h
  have hsplit' := List.splitOn_intercalate sep hsep' h'
  have hsame : [sep].intercalate words = [sep].intercalate words' := heq
  rw [hsame, hsplit'] at hsplit
  exact hsplit.symm

end Cil.Library.Separated
