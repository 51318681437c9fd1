/- Cil/Library/Appended
   digest: Linked lists in one heap, each of which grows behind its last cell. -/

import Mathlib.Data.List.Nodup
import Mathlib.Data.List.Perm.Subperm
import Mathlib.Data.List.Range
import Cil.Library.Consecutive

set_option autoImplicit false
set_option relaxedAutoImplicit false

namespace Cil.Library

/-- Lists with names in one heap: where each starts, and the last cell of those that still grow. -/
structure Lists (κ α : Type) where
  heap : Heap α
  head : κ → Option Nat
  tail : κ → Option Nat

namespace Lists

variable {κ α : Type}

section Operations

variable [DecidableEq κ] (s : Lists κ α)

/-- A new cell, linked behind the last one of its list, or the first one of it. -/
def append (k : κ) (x : α) : Lists κ α where
  heap := match s.tail k with
    | some last => (s.heap.allocated x).linked last s.heap.size
    | none => s.heap.allocated x
  head := match s.tail k with
    | some _ => s.head
    | none => Function.update s.head k (some s.heap.size)
  tail := Function.update s.tail k (some s.heap.size)

/-- Another content of a cell. -/
def store (a : Nat) (x : α) : Lists κ α := { s with heap := s.heap.stored a x }

/-- No list grows from here on as it did before. -/
def restart : Lists κ α := { s with tail := fun _ => none }

/-- What is in a list, read along the links. -/
def read (k : κ) : List α :=
  match s.head k with
  | none => []
  | some a => s.heap.contents s.heap.size a

end Operations

/-- The cells are linked in this order, the last one to none. -/
def Linked (h : Heap α) : List Nat → Prop
  | [] => True
  | a :: rest => h.link a = rest.head? ∧ Linked h rest

theorem Linked.congr {h h' : Heap α} {as : List Nat} (hlinked : Linked h as)
    (hsame : ∀ a ∈ as, h'.link a = h.link a) : Linked h' as := by
  induction as with
  | nil => exact trivial
  | cons a as ih =>
      obtain ⟨hlink, hrest⟩ := hlinked
      have hfirst := hsame a List.mem_cons_self
      refine ⟨hfirst.trans hlink, ih hrest fun b hb => ?_⟩
      exact hsame b (List.mem_cons_of_mem a hb)

/-- A cell that is linked to none comes behind the last one. -/
theorem Linked.snoc {h : Heap α} {as : List Nat} {last b : Nat} (hlinked : Linked h (as ++ [last]))
    (hnodup : (as ++ [last]).Nodup) (hb : h.link b = none) (hne : b ≠ last) :
    Linked (h.linked last b) (as ++ [last] ++ [b]) := by
  induction as with
  | nil =>
      refine ⟨Function.update_self .., ?_, trivial⟩
      exact (Function.update_of_ne hne _ _).trans hb
  | cons a as ih =>
      obtain ⟨hlink, hrest⟩ := hlinked
      have hcons : (a :: (as ++ [last])).Nodup := hnodup
      obtain ⟨hfresh, hnodup⟩ := List.nodup_cons.mp hcons
      have hother : a ≠ last := by
        intro heq
        apply hfresh
        rw [heq]
        exact List.mem_append_right _ (List.mem_singleton_self _)
      have hnext : (as ++ [last]).head? = (as ++ [last] ++ [b]).head? := by
        cases as with
        | nil => rfl
        | cons c as => rfl
      refine ⟨?_, ih hrest hnodup⟩
      show (h.linked last b).link a = (as ++ [last] ++ [b]).head?
      rw [← hnext]
      exact (Function.update_of_ne hother _ _).trans hlink

theorem contents_eq {h : Heap α} {a : Nat} {as : List Nat} (hlinked : Linked h (a :: as))
    {fuel : Nat} (hfuel : as.length < fuel) :
    h.contents fuel a = (a :: as).map h.cells := by
  induction as generalizing a fuel with
  | nil =>
      obtain ⟨fuel, rfl⟩ : ∃ n, fuel = n + 1 := ⟨fuel - 1, by omega⟩
      rw [Heap.contents, hlinked.1]
      rfl
  | cons b as ih =>
      obtain ⟨fuel, rfl⟩ : ∃ n, fuel = n + 1 := ⟨fuel - 1, by omega⟩
      rw [List.length_cons] at hfuel
      have hshort : as.length < fuel := by omega
      have hrest := ih hlinked.2 hshort
      rw [Heap.contents, hlinked.1, List.map_cons, ← hrest]
      rfl

/-- The lists are `content`, in the cells `cells`; those in `growing` end where `tail` says. -/
structure Holds (s : Lists κ α) (growing : κ → Prop) (cells : κ → List Nat)
    (content : κ → List α) : Prop where
  head : ∀ k, s.head k = (cells k).head?
  tail : ∀ k, growing k → s.tail k = (cells k).getLast?
  linked : ∀ k, Linked s.heap (cells k)
  nodup : ∀ k, (cells k).Nodup
  below : ∀ k, ∀ a ∈ cells k, a < s.heap.size
  apart : ∀ k k', ∀ a ∈ cells k, a ∈ cells k' → k = k'
  content : ∀ k, (cells k).map s.heap.cells = content k

variable {s : Lists κ α} {growing : κ → Prop} {cells : κ → List Nat} {content : κ → List α}

/-- No list has cells. -/
theorem holds_nil {h : Heap α} {tail : κ → Option Nat} (hgrowing : ∀ k, growing k → tail k = none) :
    Holds ⟨h, fun _ => none, tail⟩ growing (fun _ => []) (fun _ => []) where
  head _ := rfl
  tail k hk := hgrowing k hk
  linked _ := trivial
  nodup _ := List.nodup_nil
  below _ _ ha := absurd ha List.not_mem_nil
  apart _ _ _ ha := absurd ha List.not_mem_nil
  content _ := rfl

theorem Holds.restart (hs : Holds s growing cells content) {growing' : κ → Prop}
    (hempty : ∀ k, growing' k → content k = []) :
    Holds s.restart growing' cells content where
  head := hs.head
  tail k hk := by
    have hcontent := hs.content k
    rw [hempty k hk] at hcontent
    rw [List.map_eq_nil_iff.mp hcontent]
    rfl
  linked := hs.linked
  nodup := hs.nodup
  below := hs.below
  apart := hs.apart
  content := hs.content

/-- What is read is what the list holds. -/
theorem Holds.read [DecidableEq κ] (hs : Holds s growing cells content) (k : κ) :
    s.read k = content k := by
  have hcontent := hs.content k
  have hhead := hs.head k
  rw [Lists.read, hhead]
  cases hcells : cells k with
  | nil =>
      rw [hcells] at hcontent
      exact hcontent
  | cons a as =>
      rw [hcells] at hcontent
      have hlinked := hs.linked k
      have hnodup := hs.nodup k
      rw [hcells] at hlinked hnodup
      have hsub : (a :: as) ⊆ List.range s.heap.size := by
        intro b hb
        rw [← hcells] at hb
        exact List.mem_range.mpr (hs.below k b hb)
      have hlength := (hnodup.subperm hsub).length_le
      rw [List.length_cons, List.length_range] at hlength
      dsimp only [List.head?_cons]
      rw [contents_eq hlinked (by omega)]
      exact hcontent

private theorem Holds.size_not_mem (hs : Holds s growing cells content) (k : κ) :
    s.heap.size ∉ cells k := by
  intro hmem
  have hlt := hs.below k _ hmem
  omega

section Appended

variable [DecidableEq κ] (hs : Holds s growing cells content) {k : κ} (x : α)

private theorem append_size : (s.append k x).heap.size = s.heap.size + 1 := by
  unfold append
  cases s.tail k <;> rfl

private theorem append_cells (a : Nat) :
    (s.append k x).heap.cells a = if a = s.heap.size then x else s.heap.cells a := by
  have heq : (s.append k x).heap.cells = Function.update s.heap.cells s.heap.size x := by
    unfold append
    cases s.tail k <;> rfl
  rw [heq, Function.update_apply]

include hs in
/-- The cells of the other lists keep their links. -/
private theorem append_linked_other {k' : κ} (hgrowing : growing k) (hk : k' ≠ k) :
    Linked (s.append k x).heap (cells k') := by
  refine (hs.linked k').congr fun a ha => ?_
  have hold : a ≠ s.heap.size := by
    intro heq
    rw [heq] at ha
    exact hs.size_not_mem k' ha
  have hnew : (s.heap.allocated x).link a = s.heap.link a := Function.update_of_ne hold _ _
  unfold append
  cases htail : s.tail k with
  | none => exact hnew
  | some last =>
      have hlast : last ∈ cells k := by
        rw [hs.tail k hgrowing] at htail
        exact List.mem_of_getLast? htail
      have hne : a ≠ last := by
        intro heq
        rw [heq] at ha
        exact hk (hs.apart k' k last ha hlast)
      exact (Function.update_of_ne hne _ _).trans hnew

include hs in
private theorem append_linked_self (hgrowing : growing k) :
    Linked (s.append k x).heap (cells k ++ [s.heap.size]) := by
  have htail := hs.tail k hgrowing
  have hlink : (s.heap.allocated x).link s.heap.size = none := Function.update_self ..
  rcases List.eq_nil_or_concat (cells k) with hnil | ⟨front, last, hconcat⟩
  · rw [hnil] at htail ⊢
    have hheap : (s.append k x).heap = s.heap.allocated x := by
      unfold append
      rw [htail]
      rfl
    rw [hheap]
    exact ⟨hlink, trivial⟩
  · rw [List.concat_eq_append] at hconcat
    have hlast : s.tail k = some last := by
      rw [htail, hconcat, List.getLast?_append, List.getLast?_singleton]
      rfl
    have hheap : (s.append k x).heap = (s.heap.allocated x).linked last s.heap.size := by
      unfold append
      rw [hlast]
    have hfresh := hs.size_not_mem k
    have hold : Linked (s.heap.allocated x) (cells k) := by
      refine (hs.linked k).congr fun a ha => ?_
      have hne : a ≠ s.heap.size := by
        intro heq
        rw [heq] at ha
        exact hfresh ha
      exact Function.update_of_ne hne _ _
    have hnodup := hs.nodup k
    have hne : s.heap.size ≠ last := by
      intro heq
      apply hfresh
      rw [heq, hconcat]
      exact List.mem_append_right _ (List.mem_singleton_self _)
    rw [hconcat] at hold hnodup ⊢
    rw [hheap]
    exact hold.snoc hnodup hlink hne

/-- A cell more in one list, at its end. -/
theorem Holds.append (hs : Holds s growing cells content) (hgrowing : growing k) :
    Holds (s.append k x) growing (Function.update cells k (cells k ++ [s.heap.size]))
      (Function.update content k (content k ++ [x])) where
  head k' := by
    have htail := hs.tail k hgrowing
    have hhead := hs.head k'
    unfold Lists.append
    by_cases hk : k' = k
    · subst hk
      rw [Function.update_self]
      cases hcells : cells k' with
      | nil =>
          rw [hcells] at htail
          rw [htail]
          exact Function.update_self ..
      | cons a as =>
          rw [hcells] at htail hhead
          rw [htail, List.getLast?_cons]
          exact hhead
    · rw [Function.update_of_ne hk, ← hhead]
      cases s.tail k with
      | none => exact Function.update_of_ne hk _ _
      | some last => rfl
  tail k' hk' := by
    show Function.update s.tail k (some s.heap.size) k' = _
    by_cases hk : k' = k
    · subst hk
      rw [Function.update_self, Function.update_self, List.getLast?_append,
        List.getLast?_singleton]
      rfl
    · rw [Function.update_of_ne hk, Function.update_of_ne hk]
      exact hs.tail k' hk'
  linked k' := by
    by_cases hk : k' = k
    · subst hk
      rw [Function.update_self]
      exact append_linked_self hs x hgrowing
    · rw [Function.update_of_ne hk]
      exact append_linked_other hs x hgrowing hk
  nodup k' := by
    by_cases hk : k' = k
    · subst hk
      rw [Function.update_self, List.nodup_append]
      refine ⟨hs.nodup k', List.nodup_singleton _, fun a ha b hb => ?_⟩
      rw [List.mem_singleton.mp hb]
      intro heq
      rw [heq] at ha
      exact hs.size_not_mem k' ha
    · rw [Function.update_of_ne hk]
      exact hs.nodup k'
  below k' a ha := by
    rw [append_size]
    by_cases hk : k' = k
    · subst hk
      rw [Function.update_self, List.mem_append, List.mem_singleton] at ha
      rcases ha with hold | hnew
      · have hlt := hs.below k' a hold
        omega
      · omega
    · rw [Function.update_of_ne hk] at ha
      have hlt := hs.below k' a ha
      omega
  apart k₁ k₂ a h₁ h₂ := by
    have hmem (k' : κ) (ha : a ∈ Function.update cells k (cells k ++ [s.heap.size]) k') :
        a ∈ cells k' ∨ a = s.heap.size ∧ k' = k := by
      by_cases hk : k' = k
      · subst hk
        rw [Function.update_self, List.mem_append, List.mem_singleton] at ha
        rcases ha with hold | hnew
        · exact Or.inl hold
        · exact Or.inr ⟨hnew, rfl⟩
      · rw [Function.update_of_ne hk] at ha
        exact Or.inl ha
    rcases hmem k₁ h₁ with hold₁ | ⟨hnew₁, hk₁⟩
    · rcases hmem k₂ h₂ with hold₂ | ⟨hnew₂, hk₂⟩
      · exact hs.apart k₁ k₂ a hold₁ hold₂
      · rw [hnew₂] at hold₁
        exact absurd hold₁ (hs.size_not_mem k₁)
    · rcases hmem k₂ h₂ with hold₂ | ⟨hnew₂, hk₂⟩
      · rw [hnew₁] at hold₂
        exact absurd hold₂ (hs.size_not_mem k₂)
      · exact hk₁.trans hk₂.symm
  content k' := by
    have hcontent := hs.content k'
    have hsame : (cells k').map (s.append k x).heap.cells = (cells k').map s.heap.cells := by
      refine List.map_congr_left fun a ha => ?_
      have hne : a ≠ s.heap.size := by
        intro heq
        rw [heq] at ha
        exact hs.size_not_mem k' ha
      rw [append_cells, if_neg hne]
    by_cases hk : k' = k
    · subst hk
      rw [Function.update_self, Function.update_self, List.map_append, hsame, hcontent,
        List.map_singleton, append_cells, if_pos rfl]
    · rw [Function.update_of_ne hk, Function.update_of_ne hk, hsame, hcontent]

end Appended

/-- Another content of the last cell of a list. -/
theorem Holds.store [DecidableEq κ] (hs : Holds s growing cells content) {k : κ} {as : List Nat}
    {a : Nat} {xs : List α} {x : α} (hcells : cells k = as ++ [a])
    (hcontent : content k = xs ++ [x]) (y : α) :
    Holds (s.store a y) growing cells (Function.update content k (xs ++ [y])) where
  head := hs.head
  tail := hs.tail
  linked k' := (hs.linked k').congr fun _ _ => rfl
  nodup := hs.nodup
  below := hs.below
  apart := hs.apart
  content k' := by
    have hold := hs.content k'
    have hnodup := hs.nodup k
    have hother (b : Nat) (hb : b ≠ a) : (s.store a y).heap.cells b = s.heap.cells b :=
      Function.update_of_ne hb _ _
    have hself : (s.store a y).heap.cells a = y := Function.update_self ..
    by_cases hk : k' = k
    · subst hk
      rw [hcells, hcontent, List.map_append, List.map_singleton] at hold
      rw [hcells] at hnodup
      have hfront := (List.append_inj' hold rfl).1
      have hkept : as.map (s.store a y).heap.cells = as.map s.heap.cells := by
        refine List.map_congr_left fun b hb => hother b ?_
        intro heq
        rw [heq] at hb
        exact (List.nodup_append.mp hnodup).2.2 a hb a (List.mem_singleton_self a) rfl
      rw [Function.update_self, hcells, List.map_append, List.map_singleton, hself, hkept, hfront]
    · have hlast : a ∈ cells k := by
        rw [hcells]
        exact List.mem_append_right _ (List.mem_singleton_self a)
      rw [Function.update_of_ne hk, ← hold]
      refine List.map_congr_left fun b hb => hother b ?_
      intro heq
      rw [heq] at hb
      exact hk (hs.apart k' k a hb hlast)

end Lists

end Cil.Library
