/- Cil/Library/Consecutive
   digest: Linked lists whose cells were allocated one after the other. -/

import Mathlib.Algebra.BigOperators.Group.List.Basic
import Mathlib.Algebra.GroupWithZero.Nat
import Mathlib.Logic.Relation
import Cil.Library.LinkedList

set_option autoImplicit false
set_option relaxedAutoImplicit false

namespace Cil.Library.Heap

variable {α : Type} {h h' : Heap α} {a : Nat} {L : List α}

/-- The heap with another content in a cell. -/
def stored (h : Heap α) (a : Nat) (x : α) : Heap α :=
  { h with cells := Function.update h.cells a x }

/-- Links lead from one cell to another. -/
def Reaches (h : Heap α) : Nat → Nat → Prop := Relation.ReflTransGen fun a b => h.link a = some b

/-- The cells from `a` on hold the list, each linked to the next one and the last one to none. -/
structure Run (h : Heap α) (a : Nat) (L : List α) : Prop where
  cells : ∀ i x, L[i]? = some x → h.cells (a + i) = x
  link : ∀ i, i < L.length → h.link (a + i) = if i + 1 < L.length then some (a + i + 1) else none

theorem Run.nil (h : Heap α) (a : Nat) : Run h a [] where
  cells i x hx := by
    rw [List.getElem?_nil] at hx
    cases hx
  link i hi := (Nat.not_lt_zero i hi).elim

/-- A list that starts with the cell allocated last. -/
theorem run_allocated (h : Heap α) (x : α) : Run (allocated h x) h.size [x] where
  cells i y hy := by
    obtain ⟨hi, hx⟩ := List.getElem?_eq_some_iff.mp hy
    have hzero : i = 0 := by
      rw [List.length_singleton] at hi
      omega
    subst hzero
    exact (Function.update_self ..).trans hx
  link i hi := by
    have hzero : i = 0 := by
      rw [List.length_singleton] at hi
      omega
    subst hzero
    exact Function.update_self ..

theorem Run.congr (hrun : Run h a L) (hagree : Agree a (a + L.length) h h') : Run h' a L where
  cells i x hx := by
    have hi := (List.getElem?_eq_some_iff.mp hx).1
    rw [(hagree (a + i) (by omega) (by omega)).1]
    exact hrun.cells i x hx
  link i hi := by
    rw [(hagree (a + i) (by omega) (by omega)).2]
    exact hrun.link i hi

/-- A cell is allocated behind the list, and the last one is linked to it. -/
theorem Run.snoc (hrun : Run h a L) (hL : L ≠ []) (hsize : h.size = a + L.length) (x : α) :
    Run ((allocated h x).linked (a + L.length - 1) h.size) a (L ++ [x]) where
  cells i y hy := by
    have hlt := (List.getElem?_eq_some_iff.mp hy).1
    rw [List.length_append, List.length_singleton] at hlt
    by_cases hi : i < L.length
    · rw [List.getElem?_append_left hi] at hy
      have hne : a + i ≠ h.size := by omega
      exact (Function.update_of_ne hne _ _).trans (hrun.cells i y hy)
    · have hlast : i = L.length := by omega
      rw [hlast, List.getElem?_append_right (Nat.le_refl _), Nat.sub_self] at hy
      have hx : x = y := by simpa using hy
      rw [hlast, ← hsize, ← hx]
      exact Function.update_self ..
  link i hi := by
    rw [List.length_append, List.length_singleton] at hi ⊢
    have hpos := List.length_pos_iff.mpr hL
    show Function.update (Function.update h.link h.size none) (a + L.length - 1) (some h.size)
      (a + i) = _
    by_cases hprev : i + 1 = L.length
    · have hcell : a + i = a + L.length - 1 := by omega
      rw [hcell, Function.update_self, if_pos (by omega), hsize]
      congr 1
      omega
    · rw [Function.update_of_ne (by omega)]
      by_cases hlast : i = L.length
      · rw [hlast, ← hsize, Function.update_self, if_neg (by omega)]
      · rw [Function.update_of_ne (by omega), hrun.link i (by omega)]
        by_cases hmore : i + 1 < L.length
        · rw [if_pos hmore, if_pos (by omega)]
        · omega

/-- The last cell gets another content. -/
theorem Run.store {x : α} (hrun : Run h a (L ++ [x])) (y : α) :
    Run (h.stored (a + L.length) y) a (L ++ [y]) where
  cells i z hz := by
    have hlt := (List.getElem?_eq_some_iff.mp hz).1
    rw [List.length_append, List.length_singleton] at hlt
    by_cases hi : i < L.length
    · rw [List.getElem?_append_left hi] at hz
      have hne : a + i ≠ a + L.length := by omega
      refine (Function.update_of_ne hne _ _).trans (hrun.cells i z ?_)
      rw [List.getElem?_append_left hi, hz]
    · have hlast : i = L.length := by omega
      rw [hlast, List.getElem?_append_right (Nat.le_refl _), Nat.sub_self] at hz
      have hy : y = z := by simpa using hz
      rw [hlast, ← hy]
      exact Function.update_self ..
  link i hi := by
    have hlink := hrun.link i
    rw [List.length_append, List.length_singleton] at hlink hi ⊢
    exact hlink hi

/-- A list without its first cell. -/
theorem Run.tail {x : α} (hrun : Run h a (x :: L)) : Run h (a + 1) L where
  cells i y hy := by
    have hcell := hrun.cells (i + 1) y hy
    rw [show a + 1 + i = a + (i + 1) by omega]
    exact hcell
  link i hi := by
    have hlink := hrun.link (i + 1)
    rw [List.length_cons] at hlink
    rw [show a + 1 + i = a + (i + 1) by omega, hlink (by omega)]
    simp only [Nat.add_lt_add_iff_right]

/-- Reading from the first cell gives the list. -/
theorem Run.contents_eq (hrun : Run h a L) (hL : L ≠ []) {fuel : Nat}
    (hfuel : L.length ≤ fuel) : h.contents fuel a = L := by
  induction L generalizing a fuel with
  | nil => exact (hL rfl).elim
  | cons x rest ih =>
      cases fuel with
      | zero => cases hfuel
      | succ fuel =>
          have hcell := hrun.cells 0 x rfl
          have hlink := hrun.link 0 (by rw [List.length_cons]; omega)
          rw [Nat.add_zero] at hcell hlink
          rw [contents, hcell, hlink]
          cases rest with
          | nil => rfl
          | cons y rest =>
              rw [if_pos (by simp only [List.length_cons]; omega)]
              dsimp only
              rw [ih hrun.tail (by simp) (by simpa using hfuel)]

/-- Links lead from the first cell to all others. -/
theorem Run.reaches (hrun : Run h a L) {b : Nat} (hlo : a ≤ b) (hhi : b < a + L.length) :
    Reaches h a b := by
  obtain ⟨i, hi⟩ : ∃ i, b = a + i := ⟨b - a, by omega⟩
  subst hi
  induction i with
  | zero => exact .refl
  | succ i ih =>
      have hlink := hrun.link i (by omega)
      rw [if_pos (by omega)] at hlink
      exact (ih (by omega) (by omega)).tail hlink

/-- How many cells some lists have. -/
def total (Ls : List (List α)) : Nat := (Ls.map List.length).sum

theorem total_append (Ls : List (List α)) (L : List α) :
    total (Ls ++ [L]) = total Ls + L.length := by
  simp [total]

/-- Lists, one behind the other. -/
def Runs (h : Heap α) : Nat → List (List α) → Prop
  | _, [] => True
  | a, L :: rest => Run h a L ∧ Runs h (a + L.length) rest

attribute [simp] Runs

theorem runs_append {Ls : List (List α)} :
    Runs h a (Ls ++ [L]) ↔ Runs h a Ls ∧ Run h (a + total Ls) L := by
  induction Ls generalizing a with
  | nil => simp [total]
  | cons M rest ih =>
      have htotal : a + M.length + total rest = a + total (M :: rest) := by
        simp [total]
        omega
      rw [List.cons_append, Runs, Runs, ih, and_assoc, htotal]

theorem Runs.congr {Ls : List (List α)} (hruns : Runs h a Ls)
    (hagree : Agree a (a + total Ls) h h') : Runs h' a Ls := by
  induction Ls generalizing a with
  | nil => trivial
  | cons L rest ih =>
      have htotal : total (L :: rest) = L.length + total rest := by simp [total]
      rw [htotal] at hagree
      exact ⟨hruns.1.congr (hagree.mono (Nat.le_refl _) (by omega)),
        ih hruns.2 (hagree.mono (by omega) (by omega))⟩

end Cil.Library.Heap
