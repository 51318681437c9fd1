/- Cil/Library/LinkedList
   digest: Singly linked lists in a heap, joined by writing the link of a last cell. -/

import Mathlib.Logic.Function.Basic
import Cil.Library.Call

set_option autoImplicit false
set_option relaxedAutoImplicit false

namespace Cil.Library

/-- Cells with a content and a link to the next one; cells are allocated from `size` on. -/
structure Heap (α : Type) where
  cells : Nat → α
  link : Nat → Option Nat
  size : Nat

namespace Heap

variable {ε α : Type}

/-- A new cell, linked to none. -/
def alloc (x : α) : Call ε (Heap α) Nat := fun h =>
  some (.ok h.size
    { cells := Function.update h.cells h.size x
      link := Function.update h.link h.size none
      size := h.size + 1 })

/-- The cell `a` is linked to the cell `b`. -/
def linked (h : Heap α) (a b : Nat) : Heap α :=
  { h with link := Function.update h.link a (some b) }

def setLink (a b : Nat) : Call ε (Heap α) Unit := Call.modify fun h => h.linked a b

/-- The contents from a cell on, as far as the fuel goes. -/
def contents (h : Heap α) : Nat → Nat → List α
  | 0, _ => []
  | fuel + 1, a =>
      h.cells a :: match h.link a with
        | none => []
        | some b => contents h fuel b

/-- From the cell `a` to the cell `z`, which is linked to none, the cells lie between `lo` and
`hi` and have the contents `L`. -/
inductive Seg (h : Heap α) (lo hi : Nat) : Nat → List α → Nat → Prop
  | last {z : Nat} (hlo : lo ≤ z) (hhi : z < hi) (hlink : h.link z = none) :
      Seg h lo hi z [h.cells z] z
  | cons {a b z : Nat} {L : List α} (hlo : lo ≤ a) (hhi : a < hi) (hlink : h.link a = some b)
      (hrest : Seg h lo hi b L z) : Seg h lo hi a (h.cells a :: L) z

/-- The cells between `lo` and `hi` are the same in both heaps. -/
def Agree (lo hi : Nat) (h h' : Heap α) : Prop :=
  ∀ a, lo ≤ a → a < hi → h'.cells a = h.cells a ∧ h'.link a = h.link a

theorem Agree.refl (lo hi : Nat) (h : Heap α) : Agree lo hi h h := fun _ _ _ => ⟨rfl, rfl⟩

theorem Agree.trans {lo hi : Nat} {h₁ h₂ h₃ : Heap α} (h : Agree lo hi h₁ h₂)
    (h' : Agree lo hi h₂ h₃) : Agree lo hi h₁ h₃ := by
  intro a hlo hhi
  obtain ⟨hc, hl⟩ := h a hlo hhi
  obtain ⟨hc', hl'⟩ := h' a hlo hhi
  exact ⟨hc'.trans hc, hl'.trans hl⟩

theorem Agree.mono {lo lo' hi hi' : Nat} {h h' : Heap α} (hagree : Agree lo hi h h')
    (hlo : lo ≤ lo') (hhi : hi' ≤ hi) : Agree lo' hi' h h' :=
  fun a hloa hhia => hagree a (by omega) (by omega)

theorem agree_linked (h : Heap α) {lo hi a : Nat} (b : Nat) (ha : a < lo ∨ hi ≤ a) :
    Agree lo hi h (h.linked a b) := by
  intro c hlo hhi
  exact ⟨rfl, Function.update_of_ne (by omega) _ _⟩

namespace Seg

variable {h h' : Heap α} {lo hi : Nat}

theorem mono {lo' hi' a z : Nat} {L : List α} (hs : Seg h lo hi a L z) (hlo : lo' ≤ lo)
    (hhi : hi ≤ hi') : Seg h lo' hi' a L z := by
  induction hs with
  | last hlo' hhi' hlink => exact .last (by omega) (by omega) hlink
  | cons hlo' hhi' hlink _ ih => exact .cons (by omega) (by omega) hlink ih

theorem congr {a z : Nat} {L : List α} (hs : Seg h lo hi a L z) (hagree : Agree lo hi h h') :
    Seg h' lo hi a L z := by
  induction hs with
  | last hlo hhi hlink =>
    obtain ⟨hc, hl⟩ := hagree _ hlo hhi
    rw [← hc]
    exact .last hlo hhi (hl.trans hlink)
  | cons hlo hhi hlink _ ih =>
    obtain ⟨hc, hl⟩ := hagree _ hlo hhi
    rw [← hc]
    exact .cons hlo hhi (hl.trans hlink) ih

private theorem last_bounds {a z : Nat} {L : List α} (hs : Seg h lo hi a L z) :
    lo ≤ z ∧ z < hi := by
  induction hs with
  | last hlo hhi _ => exact ⟨hlo, hhi⟩
  | cons _ _ _ _ ih => exact ih

private theorem last_link {a z : Nat} {L : List α} (hs : Seg h lo hi a L z) : h.link z = none := by
  induction hs with
  | last _ _ hlink => exact hlink
  | cons _ _ _ _ ih => exact ih

/-- The last cell of a list is linked to the first one of another, elsewhere in the heap. -/
theorem join {lo' hi' a b y z : Nat} {L M : List α} (hs : Seg h lo hi a L y)
    (hs' : Seg h lo' hi' b M z) (hapart : y < lo' ∨ hi' ≤ y) :
    Seg (h.linked y b) (min lo lo') (max hi hi') a (L ++ M) z := by
  have hrest : Seg (h.linked y b) (min lo lo') (max hi hi') b M z :=
    (hs'.congr (agree_linked h b hapart)).mono (by omega) (by omega)
  have hy := hs.last_link
  induction hs with
  | last hlo hhi hlink =>
    exact .cons (by omega) (by omega) (Function.update_self ..) hrest
  | @cons c d y L hlo hhi hlink _ ih =>
    have hne : c ≠ y := by
      rintro rfl
      rw [hy] at hlink
      cases hlink
    have hlink' : (h.linked y b).link c = some d := (Function.update_of_ne hne _ _).trans hlink
    exact .cons (by omega) (by omega) hlink' (ih hapart hrest hy)

/-- Reading from the first cell gives the contents of all cells. -/
theorem contents_eq {a z : Nat} {L : List α} (hs : Seg h lo hi a L z) (fuel : Nat)
    (hfuel : L.length ≤ fuel) : h.contents fuel a = L := by
  induction hs generalizing fuel with
  | last _ _ hlink =>
    cases fuel with
    | zero => cases hfuel
    | succ fuel => rw [contents, hlink]
  | cons _ _ hlink _ ih =>
    cases fuel with
    | zero => cases hfuel
    | succ fuel =>
      rw [contents, hlink]
      dsimp only
      rw [ih fuel (by simpa using hfuel)]

end Seg

section Made

variable {h h₁ h₂ : Heap α} {L M : List α} {r r₁ r₂ : Nat × Nat}

/-- The heap with one more cell. -/
def allocated (h : Heap α) (x : α) : Heap α where
  cells := Function.update h.cells h.size x
  link := Function.update h.link h.size none
  size := h.size + 1

theorem agree_allocated (h : Heap α) (x : α) : Agree 0 h.size h (allocated h x) := by
  intro a _ ha
  exact ⟨Function.update_of_ne (Nat.ne_of_lt ha) _ _, Function.update_of_ne (Nat.ne_of_lt ha) _ _⟩

private theorem seg_allocated (h : Heap α) (x : α) :
    Seg (allocated h x) h.size (h.size + 1) h.size [x] h.size := by
  have hcell : (allocated h x).cells h.size = x := Function.update_self ..
  have hseg :
      Seg (allocated h x) h.size (h.size + 1) h.size [(allocated h x).cells h.size] h.size :=
    .last (Nat.le_refl _) (Nat.lt_succ_self _) (Function.update_self ..)
  rwa [hcell] at hseg

/-- From the heap `h` the list `L` was made in new cells, with its first and its last one in `r`;
nothing else changed. -/
structure Made (L : List α) (h : Heap α) (r : Nat × Nat) (h' : Heap α) : Prop where
  below : Agree 0 h.size h h'
  size : h'.size = h.size + L.length
  seg : Seg h' h.size h'.size r.1 L r.2

/-- A list of one cell. -/
theorem made_allocated (h : Heap α) (x : α) : Made [x] h (h.size, h.size) (allocated h x) where
  below := agree_allocated h x
  size := rfl
  seg := seg_allocated h x

/-- A list, made after a cell, with the cell linked to its end. -/
theorem Made.unary {x : α} (hmade : Made L (allocated h x) r h₁) :
    Made (L ++ [x]) h (r.1, h.size) (h₁.linked r.2 h.size) := by
  obtain ⟨hbelow, hsize, hseg⟩ := hmade
  have hlast := hseg.last_bounds
  have hnew : (allocated h x).size = h.size + 1 := rfl
  rw [hnew] at hsize hbelow hseg hlast
  have hop := (seg_allocated h x).congr (hbelow.mono (Nat.zero_le _) (Nat.le_refl _))
  refine ⟨?_, ?_, (hseg.join hop (Or.inr (by omega))).mono (by omega) ?_⟩
  · exact ((agree_allocated h _).trans (hbelow.mono (Nat.le_refl _) (by omega))).trans
      (agree_linked h₁ _ (Or.inr (by omega)))
  · show h₁.size = _
    simp only [List.length_append, List.length_singleton]
    omega
  · show max h₁.size (h.size + 1) ≤ h₁.size
    omega

/-- Two lists, one linked to the other, and a cell linked to the end. -/
private theorem seg_operator {g : Heap α} {lo mid hi a b p t₁ t₂ : Nat} {x : α}
    (h₁ : Seg g lo mid a L t₁) (h₂ : Seg g mid hi b M t₂) (hp : Seg g p (p + 1) p [x] p)
    (hout : p < lo ∨ hi ≤ p) :
    Seg ((g.linked t₁ b).linked t₂ p) (min lo p) (max hi (p + 1)) a (L ++ M ++ [x]) p := by
  have hlast₁ := h₁.last_bounds
  have hlast₂ := h₂.last_bounds
  have hoperands := h₁.join h₂ (Or.inl hlast₁.2)
  have hp' := hp.congr (agree_linked g b (by omega : t₁ < p ∨ p + 1 ≤ t₁))
  exact (hoperands.join hp' (by omega)).mono (by omega) (by omega)

/-- Two lists, made after a cell, one linked to the other and the cell linked to the end. -/
theorem Made.binary {x : α} (hmade₁ : Made L (allocated h x) r₁ h₁) (hmade₂ : Made M h₁ r₂ h₂) :
    Made (L ++ M ++ [x]) h (r₁.1, h.size) ((h₂.linked r₁.2 r₂.1).linked r₂.2 h.size) := by
  obtain ⟨hbelow₁, hsize₁, hseg₁⟩ := hmade₁
  obtain ⟨hbelow₂, hsize₂, hseg₂⟩ := hmade₂
  have hlast₁ := hseg₁.last_bounds
  have hlast₂ := hseg₂.last_bounds
  have hnew : (allocated h x).size = h.size + 1 := rfl
  rw [hnew] at hsize₁ hbelow₁ hseg₁ hlast₁
  have hseg₁' := hseg₁.congr (hbelow₂.mono (Nat.zero_le _) (Nat.le_refl _))
  have hop := ((seg_allocated h x).congr (hbelow₁.mono (Nat.zero_le _) (Nat.le_refl _))).congr
    (hbelow₂.mono (Nat.zero_le _) (by omega))
  have hall := seg_operator hseg₁' hseg₂ hop (Or.inl (by omega))
  refine ⟨?_, ?_, hall.mono (by omega) ?_⟩
  · have hagree := ((agree_allocated h x).trans
      (hbelow₁.mono (Nat.le_refl _) (by omega))).trans (hbelow₂.mono (Nat.le_refl _) (by omega))
    exact (hagree.trans (agree_linked h₂ _ (Or.inr (by omega)))).trans
      (agree_linked _ _ (Or.inr (by omega)))
  · show h₂.size = _
    simp only [List.length_append, List.length_singleton]
    omega
  · show max h₂.size (h.size + 1) ≤ h₂.size
    omega

/-- A list that starts at `head`, in the cells from `lo` on, and ends at `t`. -/
structure Grown (lo head : Nat) (L : List α) (t : Nat) (h : Heap α) : Prop where
  size : h.size = lo + L.length
  seg : Seg h lo h.size head L t

/-- A list goes on with another one, made after it, and a cell made last. -/
theorem Grown.binary {lo head t : Nat} {x : α} (hgrown : Grown lo head L t h)
    (hmade : Made M h r h₁) :
    Grown lo head (L ++ M ++ [x]) h₁.size
        (((allocated h₁ x).linked t r.1).linked r.2 h₁.size) ∧
      Agree 0 lo h (((allocated h₁ x).linked t r.1).linked r.2 h₁.size) := by
  obtain ⟨hlength, hseg⟩ := hgrown
  obtain ⟨hbelow, hsize, hseg'⟩ := hmade
  have hlast := hseg.last_bounds
  have hlast' := hseg'.last_bounds
  have hagree := agree_allocated h₁ x
  have hsegL := (hseg.congr (hbelow.mono (Nat.zero_le _) (Nat.le_refl _))).congr
    (hagree.mono (Nat.zero_le _) (by omega))
  have hsegM := hseg'.congr (hagree.mono (Nat.zero_le _) (Nat.le_refl _))
  have hall := seg_operator hsegL hsegM (seg_allocated h₁ x) (Or.inr (Nat.le_refl _))
  refine ⟨⟨?_, hall.mono (by omega) ?_⟩, ?_⟩
  · show h₁.size + 1 = _
    simp only [List.length_append, List.length_singleton]
    omega
  · show max h₁.size (h₁.size + 1) ≤ h₁.size + 1
    omega
  · have hkept := (hbelow.mono (Nat.le_refl 0) (by omega : lo ≤ h.size)).trans
      (hagree.mono (Nat.le_refl _) (by omega))
    exact (hkept.trans (agree_linked _ _ (Or.inr (by omega)))).trans
      (agree_linked _ _ (Or.inr (by omega)))

end Made

section Listed

variable {h h' : Heap α} {L M : List α} {a : Nat} {r : Nat × Nat}

/-- A list of the heap starts at the cell `a`. -/
def Listed (h : Heap α) (a : Nat) (L : List α) : Prop :=
  L.length ≤ h.size ∧ ∃ z, Seg h 0 h.size a L z

theorem Listed.contents (hlist : Listed h a L) : h.contents h.size a = L := by
  obtain ⟨hlength, z, hseg⟩ := hlist
  exact hseg.contents_eq h.size hlength

theorem Made.listed (hmade : Made L h r h') : Listed h' r.1 L := by
  obtain ⟨-, hsize, hseg⟩ := hmade
  exact ⟨by omega, r.2, hseg.mono (Nat.zero_le _) (Nat.le_refl _)⟩

/-- A list stays as it is while another one is made. -/
theorem Listed.kept (hlist : Listed h a M) (hmade : Made L h r h') : Listed h' a M := by
  obtain ⟨hlength, z, hseg⟩ := hlist
  obtain ⟨hbelow, hsize, -⟩ := hmade
  exact ⟨by omega, z, (hseg.congr hbelow).mono (Nat.le_refl _) (by omega)⟩

end Listed

end Heap

end Cil.Library
