/- Cil/Resolve/OrderedListsPermutation
   digest: Order statements that merge in two orders merge into the same composite list. -/

import Mathlib.Data.List.Permutation
import Cil.Resolve.OrderedListsSoundness

set_option autoImplicit false
set_option relaxedAutoImplicit false

namespace Cil.Resolve.OrderedLists

open Cil.Library.ListOrder

variable {α : Type} [DecidableEq α]

/-- Items without repetition that the composite list lacks can all be inserted. -/
private theorem orderedListInsert_ok {seg : List α} (front back : List α) {ordered : α → Bool}
    (h : Flagged ordered (front ++ back)) (hseg : seg.Nodup)
    (hnew : ∀ x ∈ seg, x ∉ front ++ back) :
    (orderedListInsert ordered front seg).rc = .ok ∧
      (orderedListInsert ordered front seg).old = front ++ seg ∧
      Flagged (orderedListInsert ordered front seg).ordered (front ++ seg ++ back) := by
  obtain ⟨hf, ⟨hok, hold⟩ | ⟨_, p, x, q, rfl, hx, _⟩⟩ :=
    orderedListInsert_spec seg ordered front back h
  · exact ⟨hok, hold, hold ▸ hf⟩
  · have hx' : x ∉ front ++ back := hnew x (by simp)
    have hp : x ∉ p := fun hp => (List.disjoint_of_nodup_append hseg) hp List.mem_cons_self
    simp only [List.mem_append, not_or] at hx hx'
    exact absurd hx (by simp [hx', hp])

private theorem orderedFindMatch_append {t : α} {pre post : List α} (h : t ∉ pre) :
    orderedFindMatch t (pre ++ t :: post) = some (pre, post) :=
  orderedFindMatch_eq_some.mpr ⟨rfl, h⟩

private theorem orderedFirstMatch_append {item : α} (npre opre : List α) {npost opost : List α}
    (hn : ∀ x ∈ npre, x ∉ opre ++ item :: opost) (ho : item ∉ opre) :
    orderedFirstMatch (opre ++ item :: opost) (npre ++ item :: npost) =
      some ⟨npre, item, npost, opre, opost⟩ := by
  induction npre with
  | nil => simp [orderedFirstMatch, orderedFindMatch_append ho]
  | cons n npre ih =>
      have hnone := orderedFindMatch_eq_none.mpr (hn n List.mem_cons_self)
      have := ih fun x hx => hn x (List.mem_cons_of_mem n hx)
      simp [orderedFirstMatch, hnone, this]

/-- Where two lists with a common extension part, one search of the overlap loop hits. -/
private theorem orderedFindMatch_of_shared {o n : α} {orest nrest d : List α}
    (h : Shared (o :: orest) (n :: nrest) d) (hne : n ≠ o) :
    (∃ gap npost rest, orderedFindMatch o nrest = some (gap, npost) ∧
        d = n :: gap ++ o :: rest ∧ Shared orest npost rest) ∨
      ∃ skipped opost rest, orderedFindMatch o nrest = none ∧
        orderedFindMatch n orest = some (skipped, opost) ∧ d = o :: skipped ++ n :: rest ∧
        Shared opost nrest rest := by
  cases d with
  | nil => exact absurd h.left (by simp)
  | cons z d =>
      rcases h.head with rfl | rfl
      · obtain ⟨hz, hd⟩ := List.nodup_cons.mp h.nodup
        obtain ⟨seg, post, rest, rfl, rfl, hshared⟩ := h.follow hne.symm
        have hn := sublist_of_head_ne h.right hne.symm
        refine Or.inr ⟨seg, post, rest, ?_, ?_, rfl, hshared⟩
        · exact orderedFindMatch_eq_none.mpr fun hm => hz (hn.subset (List.mem_cons_of_mem n hm))
        · exact orderedFindMatch_append fun hm =>
            List.disjoint_of_nodup_append hd hm List.mem_cons_self
      · obtain ⟨_, hd⟩ := List.nodup_cons.mp h.nodup
        obtain ⟨seg, post, rest, rfl, rfl, hshared⟩ := h.symm.follow hne
        refine Or.inl ⟨seg, post, rest, ?_, rfl, hshared.symm⟩
        exact orderedFindMatch_append fun hm =>
          List.disjoint_of_nodup_append hd hm List.mem_cons_self

/-- A gap of the composite list can be filled with what only the new list has there. -/
private theorem orderedListInsert_gap_ok {ordered : α → Bool} {front orest nrest gap rest : List α}
    {o n : α} (h : Shared (o :: orest) (n :: nrest) (n :: gap ++ o :: rest))
    (hflag : Flagged ordered (front ++ o :: orest))
    (hrest : orest.Sublist rest) (hfront : (front ++ (n :: gap ++ o :: rest)).Nodup) :
    (orderedListInsert ordered front (n :: gap)).rc = .ok ∧
      (orderedListInsert ordered front (n :: gap)).old = front ++ n :: gap ∧
      Flagged (orderedListInsert ordered front (n :: gap)).ordered
        (front ++ n :: gap ++ o :: orest) := by
  refine orderedListInsert_ok front (o :: orest) hflag ?_ fun x hx hm => ?_
  · exact h.nodup.sublist (List.sublist_append_left _ _)
  · rcases List.mem_append.mp hm with hm | hm
    · exact List.disjoint_of_nodup_append hfront hm (List.mem_append_left _ hx)
    · have hm' : x ∈ o :: rest := (hrest.cons_cons o).subset hm
      exact List.disjoint_of_nodup_append h.nodup hx hm'

/-- The overlap loop succeeds when what is left of both lists has a common extension
whose neighbourhoods they supply. -/
private theorem orderedMergeOverlap_ok {ordered : α → Bool} {front ocurr ncurr rest : List α}
    (hshared : Shared ocurr ncurr rest) (hflag : Flagged ordered (front ++ ocurr))
    (hfront : (front ++ rest).Nodup) :
    (orderedMergeOverlap ordered front ocurr ncurr).rc = .ok := by
  revert rest
  induction ordered, front, ocurr, ncurr using orderedMergeOverlap.induct with
  | case1 ordered front ocurr =>
      intro rest hshared hfront
      simp [orderedMergeOverlap]
  | case2 ordered front n nrest =>
      intro rest hshared hfront
      rw [orderedMergeOverlap]
      have hnodup := hshared.nodup.sublist hshared.right
      refine (orderedListInsert_ok front [] hflag hnodup fun x hx hm => ?_).1
      rw [List.append_nil] at hm
      exact List.disjoint_of_nodup_append hfront hm (hshared.right.subset hx)
  | case3 ordered front orest n nrest ih =>
      intro rest hshared hfront
      rw [orderedMergeOverlap, if_pos rfl]
      cases rest with
      | nil => exact absurd hshared.left (by simp)
      | cons z rest =>
          obtain rfl : z = n := hshared.head.elim id id
          exact ih (by simpa using hflag) hshared.tail (by simpa using hfront)
  | case4 ordered front o orest n nrest hne gap npost hgap r hok ih =>
      intro rest hshared hfront
      rw [orderedMergeOverlap_gap hne hgap, if_pos hok]
      rcases orderedFindMatch_of_shared hshared hne with
        ⟨seg, post, d, hseg, rfl, hd⟩ | ⟨_, _, _, hnone, _⟩
      · obtain ⟨rfl, rfl⟩ := Prod.mk.inj (Option.some.inj (hseg.symm.trans hgap))
        obtain ⟨_, hold, hf⟩ := orderedListInsert_gap_ok hshared hflag hd.left hfront
        have hr : r.old = front ++ n :: seg := hold
        exact ih (by simpa [hr] using hf) hd (by simpa [hr] using hfront)
      · exact absurd (hnone.symm.trans hgap) (by simp)
  | case5 ordered front o orest n nrest hne gap npost hgap r herr =>
      intro rest hshared hfront
      rcases orderedFindMatch_of_shared hshared hne with
        ⟨seg, post, d, hseg, rfl, hd⟩ | ⟨_, _, _, hnone, _⟩
      · obtain ⟨rfl, rfl⟩ := Prod.mk.inj (Option.some.inj (hseg.symm.trans hgap))
        exact absurd (orderedListInsert_gap_ok hshared hflag hd.left hfront).1 herr
      · exact absurd (hnone.symm.trans hgap) (by simp)
  | case6 ordered front o orest n nrest hne hgap skipped opost hskip ih =>
      intro rest hshared hfront
      rw [orderedMergeOverlap_skip hne hgap hskip]
      rcases orderedFindMatch_of_shared hshared hne with
        ⟨_, _, _, hsome, _⟩ | ⟨seg, post, d, _, hseg, rfl, hd⟩
      · exact absurd (hgap.symm.trans hsome) (by simp)
      · obtain ⟨rfl, rfl⟩ := Prod.mk.inj (Option.some.inj (hseg.symm.trans hskip))
        obtain ⟨rfl, _⟩ := orderedFindMatch_eq_some.mp hskip
        exact ih (by simpa using hflag) hd (by simpa using hfront)
  | case7 ordered front o orest n nrest hne hgap hskip =>
      intro rest hshared hfront
      rcases orderedFindMatch_of_shared hshared hne with
        ⟨_, _, _, hsome, _⟩ | ⟨_, _, _, _, hsome, _⟩
      · exact absurd (hgap.symm.trans hsome) (by simp)
      · exact absurd (hskip.symm.trans hsome) (by simp)

/-- The first match of two lists with a common extension: one of them starts there. -/
private theorem orderedFirstMatch_of_shared {x y : α} {s t c : List α}
    (h : Shared (x :: s) (y :: t) c) :
    ∃ m rest, orderedFirstMatch (x :: s) (y :: t) = some m ∧
      ¬ (m.npre ≠ [] ∧ m.opre ≠ []) ∧ c = m.npre ++ m.opre ++ m.item :: rest ∧
      (∀ a ∈ m.npre, a ∉ x :: s) ∧ Shared m.opost m.npost rest := by
  cases c with
  | nil => exact absurd h.left (by simp)
  | cons z c =>
      by_cases hxy : y = x
      · subst hxy
        obtain rfl : z = y := h.head.elim id id
        refine ⟨⟨[], z, t, [], s⟩, c, ?_, by simp, rfl, by simp, h.tail⟩
        exact orderedFirstMatch_append [] [] (by simp) (by simp)
      · rcases h.head with rfl | rfl
        · obtain ⟨seg, post, rest, rfl, rfl, hshared⟩ := h.follow (Ne.symm hxy)
          refine ⟨⟨[], y, t, z :: seg, post⟩, rest, ?_, by simp, rfl, by simp, hshared⟩
          refine orderedFirstMatch_append [] (z :: seg) (by simp) fun hm => ?_
          exact List.disjoint_of_nodup_append (h.nodup : (z :: seg ++ y :: rest).Nodup) hm
            List.mem_cons_self
        · obtain ⟨seg, post, rest, rfl, rfl, hshared⟩ := h.symm.follow hxy
          have hold : (x :: s).Sublist (x :: rest) := hshared.right.cons_cons x
          have hapart : ∀ a ∈ z :: seg, a ∉ x :: s := fun a ha hm =>
            List.disjoint_of_nodup_append (h.nodup : (z :: seg ++ x :: rest).Nodup) ha
              (hold.subset hm)
          refine ⟨⟨z :: seg, x, post, [], s⟩, rest, ?_, by simp, by simp, hapart, hshared.symm⟩
          exact orderedFirstMatch_append (z :: seg) [] hapart (by simp)

/-- A list merges into a composite list whenever both have a common extension whose
neighbourhoods they supply. -/
private theorem orderedListsMerge_ok {ordered : α → Bool} {old new c : List α}
    (hshared : Shared old new c) (hflag : Flagged ordered old) :
    (orderedListsMerge ordered old new).rc = .ok := by
  cases new with
  | nil => rfl
  | cons y t =>
      have hnodup := hshared.nodup.sublist hshared.right
      cases old with
      | nil => exact (orderedListInsert_ok [] [] hflag hnodup (by simp)).1
      | cons x s =>
          obtain ⟨m, rest, hm, hone, rfl, hapart, hrest⟩ := orderedFirstMatch_of_shared hshared
          obtain ⟨hnew, hold, _⟩ := orderedFirstMatch_eq_some hm
          have hpre : m.npre.Nodup := (hnew ▸ hnodup).of_append_left
          obtain ⟨hok, hins, hf⟩ :=
            orderedListInsert_ok [] (x :: s) hflag hpre hapart
          simp only [orderedListsMerge, hm, if_neg hone, if_pos hok]
          refine orderedMergeOverlap_ok hrest ?_ ?_
          · rw [hins]
            simpa [hold] using hf
          · rw [hins]
            simpa using hshared.nodup

/-- The first list of a family becomes the composite list. -/
private theorem orderedListsMerge_nil {l : List α} (hl : l.Nodup) :
    (orderedListsMerge (fun _ => false) [] l).rc = .ok ∧
      (orderedListsMerge (fun _ => false) [] l).old = l ∧
      Flagged (orderedListsMerge (fun _ => false) [] l).ordered l := by
  have hstart : Flagged (fun _ => false) ([] : List α) := ⟨List.nodup_nil, by simp⟩
  cases l with
  | nil => exact ⟨rfl, rfl, hstart⟩
  | cons x l =>
      have := orderedListInsert_ok [] [] hstart hl (by simp)
      simpa [orderedListsMerge] using this

/-- Two lists that merge in one order merge in the other order too. -/
private theorem orderedListsMergeAll_swap {a b c : List α}
    (h : (orderedListsMergeAll (fun _ => false) [a, b]).1 = some c) :
    ∃ d, (orderedListsMergeAll (fun _ => false) [b, a]).1 = some d := by
  obtain ⟨hnodup, hmem, hsub, hadj, _⟩ := orderedListsMergeAll_sound [a, b] c h
  have ha := hsub a (by simp)
  have hb := hsub b (by simp)
  have hshared : Shared b a c := by
    refine ⟨hnodup, hb, ha, fun x hx => ?_, (List.isChain_isInfix c).imp fun x y hxy => ?_⟩
    · simpa [or_comm] using (hmem x).mp hx
    · simpa [or_comm] using hadj x y hxy
  obtain ⟨hok, hold, hflag⟩ := orderedListsMerge_nil (hnodup.sublist hb)
  have hok' := orderedListsMerge_ok hshared hflag
  rw [orderedListsMergeAll, orderedListsMergeLoop]
  simp [orderedListsMergeRound, hok, hold, hok']

/-- A family that starts with the wrong list can get stuck: the lists `[0, 2]` and `[1, 2]`
do not merge, nor does `[0, 1]` help any more once it had to wait for them. -/
theorem orderedListsMergeAll_depends_on_order :
    ([[0, 2], [1, 2], [0, 1]] : List (List Nat)).Perm [[1, 2], [0, 2], [0, 1]] ∧
      (orderedListsMergeAll (fun _ => false) [[0, 2], [1, 2], [0, 1]]).1 = none ∧
      (orderedListsMergeAll (fun _ => false) [[1, 2], [0, 2], [0, 1]]).1 = some [0, 1, 2] := by
  refine ⟨List.Perm.swap _ _ _, ?_, ?_⟩ <;> decide +kernel

/-- Two orders of a family that both merge yield the same composite list, and two lists
merge in both orders or in none. -/
theorem orderedListsMergeAll_perm (ls ms : List (List α)) (h : ls.Perm ms) :
    (∀ c d, (orderedListsMergeAll (fun _ => false) ls).1 = some c →
        (orderedListsMergeAll (fun _ => false) ms).1 = some d → c = d) ∧
      (ls.length ≤ 2 → (orderedListsMergeAll (fun _ => false) ls).1 =
        (orderedListsMergeAll (fun _ => false) ms).1) := by
  have hagree : ∀ c d, (orderedListsMergeAll (fun _ => false) ls).1 = some c →
      (orderedListsMergeAll (fun _ => false) ms).1 = some d → c = d := by
    intro c d hc hd
    obtain ⟨_, _, _, _, hunique⟩ := orderedListsMergeAll_sound ms d hd
    obtain ⟨hnodup, hmem, hsub, _, _⟩ := orderedListsMergeAll_sound ls c hc
    exact hunique c (Extends.perm ⟨hnodup, hmem, hsub⟩ h)
  refine ⟨hagree, fun hlen => ?_⟩
  cases ls with
  | nil => rw [h.nil_eq]
  | cons a ls =>
      cases ls with
      | nil => rw [List.singleton_perm.mp h]
      | cons b ls =>
          obtain rfl : ls = [] := by
            simp only [List.length_cons] at hlen
            exact List.length_eq_zero_iff.mp (by omega)
          rcases List.pair_perm.mp h with rfl | rfl
          · rfl
          · ext c
            constructor
            · intro hc
              obtain ⟨d, hd⟩ := orderedListsMergeAll_swap hc
              rw [hagree c d hc hd]
              exact hd
            · intro hc
              obtain ⟨d, hd⟩ := orderedListsMergeAll_swap hc
              rw [← hagree d c hd hc]
              exact hd

theorem orderedListsMergeAll_perm_pair :
    let run := orderedListsMergeAll (α := Nat) fun _ => false
    (run [[0, 2], [0, 1, 2]]).1 = (run [[0, 1, 2], [0, 2]]).1 :=
  (orderedListsMergeAll_perm _ _ (List.Perm.swap _ _ _)).2 (by decide)

end Cil.Resolve.OrderedLists
