/- Cil/Library/ListOrder
   digest: Lists read as strict orders; a chain of neighbours fixes the whole order. -/

import Mathlib.Data.List.Chain
import Mathlib.Data.List.Nodup
import Mathlib.Data.List.Sort

set_option autoImplicit false
set_option relaxedAutoImplicit false

namespace Cil.Library.ListOrder

variable {α : Type*}

/-- `a` stands somewhere before `b` in `l`. -/
def Before (l : List α) (a b : α) : Prop := [a, b].Sublist l

/-- `a` stands immediately before `b` in `l`. -/
def Adjacent (l : List α) (a b : α) : Prop := [a, b] <:+: l

/-- A total order of finitely many elements that extends every list of a family. -/
structure Extends (ls : List (List α)) (c : List α) : Prop where
  nodup : c.Nodup
  mem_iff : ∀ x, x ∈ c ↔ ∃ l ∈ ls, x ∈ l
  sublist : ∀ l ∈ ls, l.Sublist c

theorem Adjacent.before {l : List α} {a b : α} (h : Adjacent l a b) : Before l a b :=
  List.IsInfix.sublist h

theorem Before.mono {l m : List α} {a b : α} (h : Before l a b) (hm : l.Sublist m) :
    Before m a b :=
  List.Sublist.trans h hm

theorem before_cons {l : List α} {x a b : α} :
    Before (x :: l) a b ↔ Before l a b ∨ a = x ∧ b ∈ l := by
  constructor
  · intro h
    rcases List.sublist_cons_iff.mp h with h | ⟨r, hr, hs⟩
    · exact Or.inl h
    · obtain ⟨rfl, rfl⟩ := List.cons.inj hr
      exact Or.inr ⟨rfl, List.singleton_sublist.mp hs⟩
  · rintro (h | ⟨rfl, h⟩)
    · exact List.Sublist.cons x h
    · exact List.Sublist.cons_cons a (List.singleton_sublist.mpr h)

private theorem Before.left_mem {l : List α} {a b : α} (h : Before l a b) : a ∈ l :=
  List.Sublist.subset h List.mem_cons_self

private theorem Before.right_mem {l : List α} {a b : α} (h : Before l a b) : b ∈ l :=
  List.Sublist.subset h (List.mem_cons_of_mem a List.mem_cons_self)

theorem before_append {s t : List α} {a b : α} (ha : a ∈ s) (hb : b ∈ t) :
    Before (s ++ t) a b :=
  List.Sublist.append (List.singleton_sublist.mpr ha) (List.singleton_sublist.mpr hb)

theorem not_before_self {l : List α} (hl : l.Nodup) (a : α) : ¬ Before l a a :=
  List.nodup_iff_sublist.mp hl a

theorem Before.trans {l : List α} (hl : l.Nodup) {a b c : α} (hab : Before l a b)
    (hbc : Before l b c) : Before l a c := by
  induction l with
  | nil => simp [Before] at hab
  | cons x l ih =>
      have hx := List.nodup_cons.mp hl
      rcases before_cons.mp hab with tail | ⟨rfl, hb⟩
      · rcases before_cons.mp hbc with tail' | ⟨rfl, _⟩
        · exact before_cons.mpr (Or.inl (ih hx.2 tail tail'))
        · exact absurd tail.right_mem hx.1
      · rcases before_cons.mp hbc with tail' | ⟨rfl, _⟩
        · exact before_cons.mpr (Or.inr ⟨rfl, tail'.right_mem⟩)
        · exact absurd hb hx.1

theorem Before.asymm {l : List α} (hl : l.Nodup) {a b : α} (hab : Before l a b) :
    ¬ Before l b a :=
  fun hba => not_before_self hl a (hab.trans hl hba)

private theorem pairwise_before (l : List α) : l.Pairwise (Before l) :=
  List.pairwise_iff_forall_sublist.mpr id

/-- A list whose neighbours are all ordered by `d` is ordered by `d` throughout. -/
private theorem pairwise_of_isChain {c d : List α} (hd : d.Nodup) (h : c.IsChain (Before d)) :
    c.Pairwise (Before d) := by
  have : IsTrans α (Before d) := ⟨fun _ _ _ hab hbc => hab.trans hd hbc⟩
  exact List.isChain_iff_pairwise.mp h

/-- Two arrangements of the same elements agree when every neighbourhood of the
first is respected by the second. -/
private theorem eq_of_isChain_before {c d : List α} (hc : c.Nodup) (hd : d.Nodup)
    (hmem : ∀ x, x ∈ c ↔ x ∈ d) (h : c.IsChain (Before d)) : c = d := by
  have hperm : c.Perm d := (List.perm_ext_iff_of_nodup hc hd).mpr hmem
  refine hperm.eq_of_pairwise ?_ (pairwise_of_isChain hd h) (pairwise_before d)
  intro a b _ _ hab hba
  exact absurd hba (hab.asymm hd)

/-- An extension does not depend on the order of the family. -/
theorem Extends.perm {ls ms : List (List α)} {c : List α} (hc : Extends ls c)
    (h : ls.Perm ms) : Extends ms c where
  nodup := hc.nodup
  mem_iff x := (hc.mem_iff x).trans (exists_congr fun _ => and_congr_left fun _ => h.mem_iff)
  sublist l hl := hc.sublist l (h.mem_iff.mpr hl)

/-- An extension all of whose neighbours are neighbours in some list of the
family is the only extension of the family. -/
theorem Extends.unique {ls : List (List α)} {c d : List α} (hc : Extends ls c)
    (hd : Extends ls d) (hadj : ∀ a b, Adjacent c a b → ∃ l ∈ ls, Adjacent l a b) : c = d := by
  refine eq_of_isChain_before hc.nodup hd.nodup (fun x => ?_) ?_
  · rw [hc.mem_iff, hd.mem_iff]
  · refine (List.isChain_isInfix c).imp ?_
    intro a b hab
    obtain ⟨l, hl, hl'⟩ := hadj a b hab
    exact hl'.before.mono (hd.sublist l hl)

private theorem Adjacent.mem_left {l : List α} {a b : α} (h : Adjacent l a b) : a ∈ l :=
  h.before.left_mem

private theorem adjacent_cons {l : List α} {x a b : α} :
    Adjacent (x :: l) a b ↔ Adjacent l a b ∨ a = x ∧ l.head? = some b := by
  unfold Adjacent
  rw [List.infix_cons_iff, or_comm]
  refine or_congr_right ?_
  cases l with
  | nil => simp
  | cons y l => simp [eq_comm]

/-- A first item that does not come back only starts the first neighbourhood. -/
private theorem Adjacent.of_cons {l : List α} {x a b : α} (h : Adjacent (x :: l) a b) (ha : a ≠ x) :
    Adjacent l a b :=
  (adjacent_cons.mp h).resolve_right fun hx => ha hx.1

theorem Adjacent.head {l : List α} {x b : α} (h : Adjacent (x :: l) x b) (hx : x ∉ l) :
    l.head? = some b :=
  ((adjacent_cons.mp h).resolve_left fun hl => hx hl.mem_left).2

/-- Two lists with a common extension `d`, every neighbourhood of which comes from
one of the two. -/
structure Shared (s t d : List α) : Prop where
  nodup : d.Nodup
  left : s.Sublist d
  right : t.Sublist d
  cover : ∀ x ∈ d, x ∈ s ∨ x ∈ t
  chain : d.IsChain fun a b => Adjacent s a b ∨ Adjacent t a b

theorem Shared.symm {s t d : List α} (h : Shared s t d) : Shared t s d :=
  ⟨h.nodup, h.right, h.left, fun x hx => (h.cover x hx).symm, h.chain.imp fun _ _ h => h.symm⟩

theorem sublist_of_head_ne {t d : List α} {x y : α} (h : (y :: t).Sublist (x :: d))
    (hxy : x ≠ y) : (y :: t).Sublist d := by
  cases h with
  | cons _ h => exact h
  | cons_cons _ _ => exact absurd rfl hxy

/-- The common extension starts with the head of one of the lists. -/
theorem Shared.head {x y z : α} {s t d : List α} (h : Shared (x :: s) (y :: t) (z :: d)) :
    z = x ∨ z = y := by
  have hz := (List.nodup_cons.mp h.nodup).1
  by_contra hne
  rw [not_or] at hne
  rcases h.cover z List.mem_cons_self with hm | hm
  · exact hz ((sublist_of_head_ne h.left hne.1).subset hm)
  · exact hz ((sublist_of_head_ne h.right hne.2).subset hm)

/-- Past an item that only the left list has, the rest is shared again. -/
private theorem Shared.tail_left {x : α} {s t d : List α} (h : Shared (x :: s) t (x :: d))
    (ht : t.Sublist d) : Shared s t d := by
  obtain ⟨hx, hd⟩ := List.nodup_cons.mp h.nodup
  have hne : ∀ y ∈ d, y ≠ x := fun y hy he => hx (he ▸ hy)
  refine ⟨hd, List.cons_sublist_cons.mp h.left, ht, fun y hy => ?_, ?_⟩
  · exact (h.cover y (List.mem_cons_of_mem x hy)).imp_left (List.mem_of_ne_of_mem (hne y hy))
  · refine h.chain.tail.imp_of_mem_imp fun a b ha _ hab => ?_
    exact hab.imp_left fun hl => hl.of_cons (hne a ha)

/-- Past an item that both lists have, the rest is shared again. -/
theorem Shared.tail {x : α} {s t d : List α} (h : Shared (x :: s) (x :: t) (x :: d)) :
    Shared s t d := by
  obtain ⟨hx, hd⟩ := List.nodup_cons.mp h.nodup
  have hne : ∀ y ∈ d, y ≠ x := fun y hy he => hx (he ▸ hy)
  refine ⟨hd, List.cons_sublist_cons.mp h.left, List.cons_sublist_cons.mp h.right,
    fun y hy => ?_, ?_⟩
  · exact (h.cover y (List.mem_cons_of_mem x hy)).imp (List.mem_of_ne_of_mem (hne y hy))
      (List.mem_of_ne_of_mem (hne y hy))
  · refine h.chain.tail.imp_of_mem_imp fun a b ha _ hab => ?_
    exact hab.imp (fun hl => hl.of_cons (hne a ha)) fun hl => hl.of_cons (hne a ha)

/-- While the right list waits at `y`, the extension follows the left list up to `y`. -/
theorem Shared.follow {x y : α} {s t d : List α} (h : Shared (x :: s) (y :: t) (x :: d))
    (hxy : x ≠ y) :
    ∃ seg post rest, s = seg ++ y :: post ∧ d = seg ++ y :: rest ∧ Shared post t rest := by
  induction d generalizing x s with
  | nil => exact absurd (sublist_of_head_ne h.right hxy) (by simp)
  | cons z d ih =>
      have hx := (List.nodup_cons.mp h.nodup).1
      have ht := sublist_of_head_ne h.right hxy
      have hrest := h.tail_left ht
      have hnext : s.head? = some z := by
        rcases (List.isChain_cons_cons.mp h.chain).1 with hz | hz
        · exact hz.head fun hm => hx (hrest.left.subset hm)
        · exact absurd (ht.subset hz.mem_left) hx
      obtain ⟨s, rfl⟩ := List.head?_eq_some_iff.mp hnext
      by_cases hz : z = y
      · subst hz
        exact ⟨[], s, d, rfl, rfl, hrest.tail⟩
      · obtain ⟨seg, post, rest, rfl, rfl, hshared⟩ := ih hrest hz
        exact ⟨z :: seg, post, rest, rfl, rfl, hshared⟩

end Cil.Library.ListOrder
