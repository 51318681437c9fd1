/- Cil/Resolve/OrderedLists
   digest: Order statements are merged into one composite list in retry rounds. -/

import Mathlib.Logic.Function.Basic
import Cil.Basic
import Cil.Library.ListOrder

/-!
The four order statements (`sidorder`, `classorder`, `categoryorder`,
`sensitivityorder`) share one merge. An item is the declaration it points to,
and `ordered` is the flag of that declaration; items of the four kinds are
treated alike, so one type of items stands for each of them.

A cursor into the composite list is the split of the list at the cursor: the
items up to it and the items after it.
-/

set_option autoImplicit false
set_option relaxedAutoImplicit false

namespace Cil.Resolve.OrderedLists

open Cil.Library.ListOrder

variable {α : Type} [DecidableEq α]

/-- `cil_ordered_list` without the node, which only error messages read. -/
structure OrderedList (α : Type) where
  merged : Bool
  list : List α

/-- What an insertion or a merge leaves behind, whether it succeeds or not. -/
structure Outcome (α : Type) where
  rc : Rc
  ordered : α → Bool
  old : List α

/-- `__cil_ordered_item_insert` up to the list insertion: the flag is tested and set. -/
def orderedItemInsert (ordered : α → Bool) (item : α) : Option (α → Bool) :=
  if ordered item then none else some (Function.update ordered item true)

/-- `__cil_ordered_list_insert`: the items `nstart` up to `nstop` go after the cursor
`ocurr`, given as the part `front` of the composite list that ends there. -/
def orderedListInsert (ordered : α → Bool) (front : List α) : List α → Outcome α
  | [] => ⟨.ok, ordered, front⟩
  | ncurr :: rest =>
      match orderedItemInsert ordered ncurr with
      | none => ⟨.err, ordered, front⟩
      | some ordered' => orderedListInsert ordered' (front ++ [ncurr]) rest

/-- `__cil_ordered_find_match`: the items before and after the first match of `t`. -/
def orderedFindMatch (t : α) : List α → Option (List α × List α)
  | [] => none
  | i :: rest =>
      if i = t then some ([], rest)
      else (orderedFindMatch t rest).map fun p => (i :: p.1, p.2)

/-- The first item of the new list with a match in the old one, and both lists
split there. -/
structure FirstMatch (α : Type) where
  npre : List α
  item : α
  npost : List α
  opre : List α
  opost : List α

/-- The search loop at the head of `__cil_ordered_lists_merge`. -/
def orderedFirstMatch (old : List α) : List α → Option (FirstMatch α)
  | [] => none
  | n :: rest =>
      match orderedFindMatch n old with
      | some (opre, opost) => some ⟨[], n, rest, opre, opost⟩
      | none => (orderedFirstMatch old rest).map fun m => { m with npre := n :: m.npre }

theorem orderedFindMatch_eq_some {t : α} {l pre post : List α} :
    orderedFindMatch t l = some (pre, post) ↔ l = pre ++ t :: post ∧ t ∉ pre := by
  induction l generalizing pre with
  | nil => simp [orderedFindMatch]
  | cons i rest ih =>
      simp only [orderedFindMatch]
      split_ifs with hi
      · subst hi
        constructor
        · rintro h
          obtain ⟨rfl, rfl⟩ := Prod.mk.inj (Option.some.inj h)
          exact ⟨rfl, List.not_mem_nil⟩
        · rintro ⟨h, hpre⟩
          cases pre with
          | nil => simpa using h
          | cons a pre => simp_all
      · constructor
        · intro h
          obtain ⟨⟨p, q⟩, hp, he⟩ := Option.map_eq_some_iff.mp h
          obtain ⟨rfl, rfl⟩ := Prod.mk.inj he
          obtain ⟨rfl, hm⟩ := ih.mp hp
          exact ⟨rfl, by simp [hm, Ne.symm hi]⟩
        · rintro ⟨h, hpre⟩
          cases pre with
          | nil => exact absurd (List.cons.inj h).1 hi
          | cons a pre =>
              obtain ⟨rfl, hr⟩ := List.cons.inj h
              have hm : t ∉ pre := fun hm => hpre (List.mem_cons_of_mem i hm)
              simp [ih.mpr ⟨hr, hm⟩]

theorem orderedFindMatch_eq_none {t : α} {l : List α} :
    orderedFindMatch t l = none ↔ t ∉ l := by
  induction l with
  | nil => simp [orderedFindMatch]
  | cons i rest ih =>
      simp only [orderedFindMatch]
      split_ifs with hi
      · simp [hi]
      · simp [ih, Ne.symm hi]

/-- The overlap loop of `__cil_ordered_lists_merge` with the final append. `front` is
the composite list up to and including `oprev`. -/
def orderedMergeOverlap (ordered : α → Bool) (front : List α) :
    List α → List α → Outcome α
  | ocurr, [] => ⟨.ok, ordered, front ++ ocurr⟩
  | [], ncurr :: nrest => orderedListInsert ordered front (ncurr :: nrest)
  | ocurr :: orest, ncurr :: nrest =>
      if ncurr = ocurr then orderedMergeOverlap ordered (front ++ [ocurr]) orest nrest
      else
        match _hn : orderedFindMatch ocurr nrest with
        | some (gap, npost) =>
            -- gap in old: old = (A C), new = (A B C)
            let r := orderedListInsert ordered front (ncurr :: gap)
            if r.rc = .ok then
              orderedMergeOverlap r.ordered (r.old ++ [ocurr]) orest npost
            else { r with old := r.old ++ ocurr :: orest }
        | none =>
            match orderedFindMatch ncurr orest with
            | some (skipped, opost) =>
                -- gap in new: old = (A B C), new = (A C)
                orderedMergeOverlap ordered (front ++ ocurr :: skipped ++ [ncurr]) opost nrest
            | none => ⟨.err, ordered, front ++ ocurr :: orest⟩
termination_by _ ncurr => ncurr.length
decreasing_by
  · simp
  · have := (orderedFindMatch_eq_some.mp (by assumption)).1
    simp only [this, List.length_cons, List.length_append]
    omega
  · simp

section Overlap

variable {ordered : α → Bool} {front orest nrest : List α} {o n : α} (hne : n ≠ o)
include hne

theorem orderedMergeOverlap_gap {gap npost : List α}
    (hgap : orderedFindMatch o nrest = some (gap, npost)) :
    orderedMergeOverlap ordered front (o :: orest) (n :: nrest) =
      let r := orderedListInsert ordered front (n :: gap)
      if r.rc = .ok then orderedMergeOverlap r.ordered (r.old ++ [o]) orest npost
      else { r with old := r.old ++ o :: orest } := by
  rw [orderedMergeOverlap, if_neg hne]
  split
  · rename_i _ gap' npost' h
    obtain ⟨rfl, rfl⟩ := Prod.mk.inj (Option.some.inj (h.symm.trans hgap))
    rfl
  · rename_i h
    exact absurd (h.symm.trans hgap) (by simp)

theorem orderedMergeOverlap_skip {skipped opost : List α}
    (hgap : orderedFindMatch o nrest = none)
    (hskip : orderedFindMatch n orest = some (skipped, opost)) :
    orderedMergeOverlap ordered front (o :: orest) (n :: nrest) =
      orderedMergeOverlap ordered (front ++ o :: skipped ++ [n]) opost nrest := by
  rw [orderedMergeOverlap, if_neg hne]
  split
  · rename_i h
    exact absurd (h.symm.trans hgap) (by simp)
  · rw [hskip]

theorem orderedMergeOverlap_stuck (hgap : orderedFindMatch o nrest = none)
    (hskip : orderedFindMatch n orest = none) :
    orderedMergeOverlap ordered front (o :: orest) (n :: nrest) =
      ⟨.err, ordered, front ++ o :: orest⟩ := by
  rw [orderedMergeOverlap, if_neg hne]
  split
  · rename_i h
    exact absurd (h.symm.trans hgap) (by simp)
  · rw [hskip]

end Overlap

/-- `__cil_ordered_lists_merge`. -/
def orderedListsMerge (ordered : α → Bool) (old new : List α) : Outcome α :=
  match new, old with
  | [], old => ⟨.ok, ordered, old⟩
  | new, [] => orderedListInsert ordered [] new
  | new, old =>
      match orderedFirstMatch old new with
      | none => ⟨.err, ordered, old⟩
      | some m =>
          -- a match in the middle of both lists is a potential ordering conflict
          if m.npre ≠ [] ∧ m.opre ≠ [] then ⟨.err, ordered, old⟩
          else
            let r := orderedListInsert ordered [] m.npre
            if r.rc = .ok then
              orderedMergeOverlap r.ordered (r.old ++ m.opre ++ [m.item]) m.opost m.npost
            else { r with old := r.old ++ old }

/-- The state of the rounds of `__cil_ordered_lists_merge_all` after one sweep over
the gathered lists. -/
structure Round (α : Type) where
  lists : List (OrderedList α)
  composite : List α
  ordered : α → Bool
  waiting : Nat
  changed : Bool

/-- The `cil_list_for_each` of `__cil_ordered_lists_merge_all`. -/
def orderedListsMergeRound (ordered : α → Bool) (composite : List α) :
    List (OrderedList α) → Round α
  | [] => ⟨[], composite, ordered, 0, false⟩
  | l :: rest =>
      if l.merged then
        let r := orderedListsMergeRound ordered composite rest
        { r with lists := l :: r.lists }
      else
        let a := orderedListsMerge ordered composite l.list
        let r := orderedListsMergeRound a.ordered a.old rest
        if a.rc = .ok then
          { r with lists := { l with merged := true } :: r.lists, changed := true }
        else { r with lists := l :: r.lists, waiting := r.waiting + 1 }

/-- The lists no round has merged yet. -/
def unmerged (lists : List (OrderedList α)) : List (OrderedList α) :=
  lists.filter fun l => !l.merged

theorem unmerged_round_le (ordered : α → Bool) (composite : List α)
    (lists : List (OrderedList α)) :
    let r := orderedListsMergeRound ordered composite lists
    (unmerged r.lists).length = r.waiting ∧
      (unmerged r.lists).length + r.changed.toNat ≤ (unmerged lists).length := by
  induction lists generalizing ordered composite with
  | nil => simp [orderedListsMergeRound, unmerged]
  | cons l rest ih =>
      simp only [orderedListsMergeRound]
      split_ifs with hm hok
      · have := ih ordered composite
        simpa [unmerged, hm] using this
      · have := ih (orderedListsMerge ordered composite l.list).ordered
          (orderedListsMerge ordered composite l.list).old
        simp only [unmerged] at this ⊢
        simp [hm]
        omega
      · have := ih (orderedListsMerge ordered composite l.list).ordered
          (orderedListsMerge ordered composite l.list).old
        simp only [unmerged] at this ⊢
        simp [hm]
        omega

/-- `__cil_ordered_lists_merge_all` from given flags and a given composite list. The
flags it leaves are those `__cil_verify_ordered` reads. -/
def orderedListsMergeLoop (ordered : α → Bool) (composite : List α)
    (lists : List (OrderedList α)) : Option (List α) × (α → Bool) :=
  let r := orderedListsMergeRound ordered composite lists
  if r.waiting = 0 then (some r.composite, r.ordered)
  else if r.changed then orderedListsMergeLoop r.ordered r.composite r.lists
  else (none, r.ordered)
termination_by (unmerged lists).length
decreasing_by
  have h := (unmerged_round_le ordered composite lists).2
  rename_i hchanged
  have hc : (orderedListsMergeRound ordered composite lists).changed = true := hchanged
  simp only [hc, Bool.toNat_true] at h
  exact h

/-- `__cil_ordered_lists_merge_all` on freshly gathered lists. -/
def orderedListsMergeAll (ordered : α → Bool) (lists : List (List α)) :
    Option (List α) × (α → Bool) :=
  orderedListsMergeLoop ordered [] (lists.map fun l => ⟨false, l⟩)

end Cil.Resolve.OrderedLists
