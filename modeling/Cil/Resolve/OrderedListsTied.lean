/- Cil/Resolve/OrderedListsTied
   digest: Marks on other items do not matter, and only what is tied to the first list is marked. -/

import Mathlib.Data.List.Basic
import Cil.Resolve.OrderedListsMarks

set_option autoImplicit false
set_option relaxedAutoImplicit false

namespace Cil.Resolve.OrderedLists

variable {α : Type}

/-- The items of the first list that has any, and of the lists with an item among these and so
on. -/
inductive Tied (ls : List (List α)) : α → Prop
  | first {l : List α} {x : α} (h : ls.find? (fun l => !l.isEmpty) = some l) (hx : x ∈ l) :
      Tied ls x
  | next {l : List α} {y x : α} (hl : l ∈ ls) (hy : y ∈ l) (h : Tied ls y) (hx : x ∈ l) :
      Tied ls x

variable [DecidableEq α]

section Masked

/-- Marks that were there before, and those that have been set. -/
def masked (base ordered : α → Bool) (x : α) : Bool := base x || ordered x

def Outcome.masked (base : α → Bool) (r : Outcome α) : Outcome α :=
  { r with ordered := OrderedLists.masked base r.ordered }

def Round.masked (base : α → Bool) (r : Round α) : Round α :=
  { r with ordered := OrderedLists.masked base r.ordered }

variable {base ordered : α → Bool} {front composite : List α}

omit [DecidableEq α] in
private theorem masked_of_unmarked {x : α} (h : base x = false) :
    masked base ordered x = ordered x := by
  simp [masked, h]

private theorem masked_update (x : α) :
    Function.update (masked base ordered) x true =
      masked base (Function.update ordered x true) := by
  funext y
  by_cases hy : y = x
  · simp [masked, hy]
  · simp [masked, hy]

private theorem orderedListInsert_masked (seg : List α) (h : ∀ x ∈ seg, base x = false) :
    orderedListInsert (masked base ordered) front seg =
      (orderedListInsert ordered front seg).masked base := by
  induction seg generalizing ordered front with
  | nil => rfl
  | cons n rest ih =>
    obtain ⟨hn, hrest⟩ := List.forall_mem_cons.mp h
    simp only [orderedListInsert, orderedItemInsert, masked_of_unmarked hn]
    by_cases hmark : ordered n = true
    · simp only [if_pos hmark]
      rfl
    · simp only [if_neg hmark, masked_update]
      exact ih hrest

private theorem orderedMergeOverlap_masked (ocurr ncurr : List α)
    (h : ∀ x ∈ ncurr, base x = false) :
    orderedMergeOverlap (masked base ordered) front ocurr ncurr =
      (orderedMergeOverlap ordered front ocurr ncurr).masked base := by
  induction ordered, front, ocurr, ncurr using orderedMergeOverlap.induct with
  | case1 ordered front ocurr =>
    rw [orderedMergeOverlap, orderedMergeOverlap]
    rfl
  | case2 ordered front n nrest =>
    rw [orderedMergeOverlap, orderedMergeOverlap]
    exact orderedListInsert_masked (n :: nrest) h
  | case3 ordered front orest ocurr nrest ih =>
    rw [orderedMergeOverlap, orderedMergeOverlap, if_pos rfl, if_pos rfl]
    exact ih fun x hx => h x (List.mem_cons_of_mem ocurr hx)
  | case4 ordered front ocurr orest ncurr nrest hne gap npost hfind r hrc ih =>
    obtain ⟨rfl, _⟩ := orderedFindMatch_eq_some.mp hfind
    have hseg : ∀ x ∈ ncurr :: gap, base x = false := fun x hx => h x (by
      rw [← List.cons_append]
      exact List.mem_append_left _ hx)
    have hpost : ∀ x ∈ npost, base x = false := fun x hx => h x
      (List.mem_cons_of_mem _ (List.mem_append_right _ (List.mem_cons_of_mem _ hx)))
    have hok : ((orderedListInsert ordered front (ncurr :: gap)).masked base).rc = .ok := hrc
    rw [orderedMergeOverlap_gap hne hfind, orderedMergeOverlap_gap hne hfind,
      orderedListInsert_masked _ hseg]
    simp only [if_pos hok]
    rw [if_pos hrc]
    exact ih hpost
  | case5 ordered front ocurr orest ncurr nrest hne gap npost hfind r hrc =>
    obtain ⟨rfl, _⟩ := orderedFindMatch_eq_some.mp hfind
    have hseg : ∀ x ∈ ncurr :: gap, base x = false := fun x hx => h x (by
      rw [← List.cons_append]
      exact List.mem_append_left _ hx)
    have hbad : ((orderedListInsert ordered front (ncurr :: gap)).masked base).rc ≠ .ok := hrc
    rw [orderedMergeOverlap_gap hne hfind, orderedMergeOverlap_gap hne hfind,
      orderedListInsert_masked _ hseg]
    simp only [if_neg hbad]
    rw [if_neg hrc]
    rfl
  | case6 ordered front ocurr orest ncurr nrest hne hfind skipped opost hskip ih =>
    rw [orderedMergeOverlap_skip hne hfind hskip, orderedMergeOverlap_skip hne hfind hskip]
    exact ih fun x hx => h x (List.mem_cons_of_mem ncurr hx)
  | case7 ordered front ocurr orest ncurr nrest hne hfind hskip =>
    rw [orderedMergeOverlap_stuck hne hfind hskip, orderedMergeOverlap_stuck hne hfind hskip]
    rfl

private theorem orderedListsMerge_masked (old new : List α) (h : ∀ x ∈ new, base x = false) :
    orderedListsMerge (masked base ordered) old new =
      (orderedListsMerge ordered old new).masked base := by
  unfold orderedListsMerge
  split
  · rfl
  · exact orderedListInsert_masked new h
  · split
    · rfl
    · rename_i m hm
      obtain ⟨hnew, _, _⟩ := orderedFirstMatch_eq_some hm
      rw [hnew] at h
      by_cases hone : m.npre ≠ [] ∧ m.opre ≠ []
      · rw [if_pos hone, if_pos hone]
        rfl
      · rw [if_neg hone, if_neg hone,
          orderedListInsert_masked m.npre fun x hx => h x (List.mem_append_left _ hx)]
        by_cases hrc : (orderedListInsert ordered [] m.npre).rc = .ok
        · have hok : ((orderedListInsert ordered [] m.npre).masked base).rc = .ok := hrc
          simp only [if_pos hok]
          rw [if_pos hrc]
          exact orderedMergeOverlap_masked m.opost m.npost fun x hx =>
            h x (List.mem_append_right _ (List.mem_cons_of_mem _ hx))
        · have hbad : ((orderedListInsert ordered [] m.npre).masked base).rc ≠ .ok := hrc
          simp only [if_neg hbad]
          rw [if_neg hrc]
          rfl

private theorem orderedListsMergeRound_masked (lists : List (OrderedList α))
    (h : ∀ l ∈ lists, ∀ x ∈ l.list, base x = false) :
    orderedListsMergeRound (masked base ordered) composite lists =
      (orderedListsMergeRound ordered composite lists).masked base := by
  induction lists generalizing ordered composite with
  | nil => rfl
  | cons l rest ih =>
    obtain ⟨hl, hrest⟩ := List.forall_mem_cons.mp h
    simp only [orderedListsMergeRound]
    by_cases hm : l.merged = true
    · simp only [if_pos hm, ih hrest]
      rfl
    · simp only [if_neg hm, orderedListsMerge_masked composite l.list hl, Outcome.masked,
        ih hrest]
      by_cases hok : (orderedListsMerge ordered composite l.list).rc = .ok
      · simp only [if_pos hok]
        rfl
      · simp only [if_neg hok]
        rfl

/-- A round keeps the lists, merged or not. -/
private theorem orderedListsMergeRound_lists (lists : List (OrderedList α)) :
    (orderedListsMergeRound ordered composite lists).lists.map OrderedList.list =
      lists.map OrderedList.list := by
  induction lists generalizing ordered composite with
  | nil => rfl
  | cons l rest ih =>
    simp only [orderedListsMergeRound]
    split_ifs
    · simp [ih]
    · simp [ih]
    · simp [ih]

private theorem orderedListsMergeLoop_masked (lists : List (OrderedList α))
    (h : ∀ l ∈ lists.map OrderedList.list, ∀ x ∈ l, base x = false) :
    orderedListsMergeLoop (masked base ordered) composite lists =
      ((orderedListsMergeLoop ordered composite lists).1,
        masked base (orderedListsMergeLoop ordered composite lists).2) := by
  have hround (ordered : α → Bool) (composite : List α) (lists : List (OrderedList α))
      (h : ∀ l ∈ lists.map OrderedList.list, ∀ x ∈ l, base x = false) :
      orderedListsMergeRound (masked base ordered) composite lists =
        (orderedListsMergeRound ordered composite lists).masked base :=
    orderedListsMergeRound_masked lists fun l hl => h l.list (List.mem_map_of_mem hl)
  induction ordered, composite, lists using orderedListsMergeLoop.induct with
  | case1 ordered composite lists r hzero =>
    have hzero' : (r.masked base).waiting = 0 := hzero
    have hright :
        orderedListsMergeLoop ordered composite lists = (some r.composite, r.ordered) := by
      rw [orderedListsMergeLoop, if_pos hzero]
    rw [hright, orderedListsMergeLoop, hround _ _ _ h, if_pos hzero']
    rfl
  | case2 ordered composite lists r hzero hchanged ih =>
    have hzero' : (r.masked base).waiting ≠ 0 := hzero
    have hchanged' : (r.masked base).changed = true := hchanged
    have hright : orderedListsMergeLoop ordered composite lists =
        orderedListsMergeLoop r.ordered r.composite r.lists := by
      rw [orderedListsMergeLoop, if_neg hzero, if_pos hchanged]
    rw [hright, orderedListsMergeLoop, hround _ _ _ h, if_neg hzero', if_pos hchanged']
    exact ih fun l hl => h l (by rwa [orderedListsMergeRound_lists] at hl)
  | case3 ordered composite lists r hzero hchanged =>
    have hzero' : (r.masked base).waiting ≠ 0 := hzero
    have hchanged' : ¬ (r.masked base).changed = true := hchanged
    have hright : orderedListsMergeLoop ordered composite lists = (none, r.ordered) := by
      rw [orderedListsMergeLoop, if_neg hzero, if_neg hchanged]
    rw [hright, orderedListsMergeLoop, hround _ _ _ h, if_neg hzero', if_neg hchanged']
    rfl

/-- Marks on items that stand in no list change nothing. -/
theorem orderedListsMergeAll_masked {ordered : α → Bool} {ls : List (List α)}
    (h : ∀ l ∈ ls, ∀ x ∈ l, ordered x = false) :
    orderedListsMergeAll ordered ls =
      ((orderedListsMergeAll (fun _ => false) ls).1,
        masked ordered (orderedListsMergeAll (fun _ => false) ls).2) := by
  have hclean : masked ordered (fun _ => false) = ordered := by
    funext x
    simp [masked]
  have hloop : orderedListsMergeLoop (masked ordered fun _ => false) []
      (ls.map fun l => ⟨false, l⟩) = _ :=
    orderedListsMergeLoop_masked _ (by simpa [Function.comp_def] using h)
  rw [hclean] at hloop
  exact hloop

end Masked

section Tied

variable {ordered : α → Bool} {composite : List α} {all : List (List α)}

/-- What has been merged is tied to the first list, and before anything is the lists were
empty. -/
structure FromFirst (all : List (List α)) (composite : List α) (todo : List (OrderedList α)) :
    Prop where
  tied : ∀ x ∈ composite, Tied all x
  first : composite = [] →
    all.find? (fun l => !l.isEmpty) = (todo.map OrderedList.list).find? fun l => !l.isEmpty

/-- An attempt to merge puts nothing into a list that has no item of the new one. -/
private theorem orderedListsMerge_old {old new : List α} (hold : old ≠ [])
    (h : ∀ x ∈ new, x ∉ old) : (orderedListsMerge ordered old new).old = old := by
  unfold orderedListsMerge
  split
  · rfl
  · exact absurd rfl hold
  · split
    · rfl
    · rename_i m hm
      obtain ⟨hnew, hsplit, _⟩ := orderedFirstMatch_eq_some hm
      refine absurd ?_ (h m.item ?_)
      · rw [hsplit]
        exact List.mem_append_right _ List.mem_cons_self
      · rw [hnew]
        exact List.mem_append_right _ List.mem_cons_self

private theorem orderedListInsert_front (ordered : α → Bool) (seg front : List α) :
    front <+: (orderedListInsert ordered front seg).old := by
  induction seg generalizing ordered front with
  | nil => exact List.prefix_rfl
  | cons n rest ih =>
    simp only [orderedListInsert, orderedItemInsert]
    by_cases hn : ordered n = true
    · simp only [if_pos hn]
      exact List.prefix_rfl
    · simp only [if_neg hn]
      exact (List.prefix_append front [n]).trans (ih _ (front ++ [n]))

/-- The first list with items that is tried leaves one of them. -/
private theorem orderedListsMerge_nil_ne_nil {x : α} {xs : List α} (hx : ordered x = false) :
    (orderedListsMerge ordered [] (x :: xs)).old ≠ [] := by
  have hstart : orderedListsMerge ordered [] (x :: xs) =
      orderedListInsert (Function.update ordered x true) [x] xs := by
    simp [orderedListsMerge, orderedListInsert, orderedItemInsert, hx]
  rw [hstart]
  intro hnil
  obtain ⟨rest, hrest⟩ := orderedListInsert_front (Function.update ordered x true) xs [x]
  rw [hnil] at hrest
  cases hrest

/-- An attempt to merge keeps what has been merged tied. -/
theorem FromFirst.merge {l : OrderedList α} {todo : List (OrderedList α)}
    (h : FromFirst all composite (l :: todo)) (hl : l.list ∈ all)
    (hmarks : MarksUpTo (fun _ => false) ordered composite) :
    FromFirst all (orderedListsMerge ordered composite l.list).old todo := by
  have habsorbs := orderedListsMerge_marks l.list hmarks
  by_cases hnil : composite = []
  · subst hnil
    have hfirst := h.first rfl
    rw [List.map_cons] at hfirst
    cases hlist : l.list with
    | nil =>
      rw [hlist, List.find?_cons_of_neg (by simp)] at hfirst
      exact ⟨fun x hx => absurd hx (by simp [orderedListsMerge]), fun _ => hfirst⟩
    | cons y ys =>
      have hy : ordered y = false := by
        cases hmark : ordered y with
        | false => rfl
        | true => simpa using (hmarks y).mp hmark
      rw [hlist, List.find?_cons_of_pos (by simp)] at hfirst
      refine ⟨fun x hx => ?_, fun hempty => absurd hempty (orderedListsMerge_nil_ne_nil hy)⟩
      rw [← hlist] at hx
      rcases habsorbs.mem x hx with hx | hx
      · cases hx
      · exact .first hfirst (hlist ▸ hx)
  · refine ⟨fun x hx => ?_, fun hempty => ?_⟩
    · by_cases hshare : ∃ y ∈ l.list, y ∈ composite
      · obtain ⟨y, hy, hin⟩ := hshare
        rcases habsorbs.mem x hx with hx | hx
        · exact h.tied x hx
        · exact .next hl hy (h.tied y hin) hx
      · rw [orderedListsMerge_old hnil fun y hy hin => hshare ⟨y, hy, hin⟩] at hx
        exact h.tied x hx
    · obtain ⟨y, hy⟩ := List.exists_mem_of_ne_nil composite hnil
      have hin := habsorbs.grows y hy
      rw [hempty] at hin
      cases hin

private theorem orderedListsMergeRound_tied (todo : List (OrderedList α))
    (h : FromFirst all composite todo) (hall : ∀ l ∈ todo, l.list ∈ all)
    (hmarks : MarksUpTo (fun _ => false) ordered composite)
    (hdone : ∀ l ∈ todo, l.merged = true → ∀ x ∈ l.list, x ∈ composite) :
    ∀ x ∈ (orderedListsMergeRound ordered composite todo).composite, Tied all x := by
  induction todo generalizing ordered composite with
  | nil => exact h.tied
  | cons l rest ih =>
    obtain ⟨hl, hrest⟩ := List.forall_mem_cons.mp hall
    obtain ⟨hdonel, hdone'⟩ := List.forall_mem_cons.mp hdone
    by_cases hm : l.merged = true
    · simp only [orderedListsMergeRound, if_pos hm]
      refine ih ⟨h.tied, fun hnil => ?_⟩ hrest hmarks hdone'
      have hempty : l.list = [] := by
        subst hnil
        exact List.eq_nil_iff_forall_not_mem.mpr fun x hx => absurd (hdonel hm x hx) (by simp)
      have hfirst := h.first hnil
      rw [List.map_cons, hempty, List.find?_cons_of_neg (by simp)] at hfirst
      exact hfirst
    · have habsorbs := orderedListsMerge_marks l.list hmarks
      have hnext := ih (h.merge hl hmarks) hrest habsorbs.marks
        fun m hml hmm x hx => habsorbs.grows x (hdone' m hml hmm x hx)
      simp only [orderedListsMergeRound, if_neg hm]
      by_cases hok : (orderedListsMerge ordered composite l.list).rc = .ok
      · simp only [if_pos hok]
        exact hnext
      · simp only [if_neg hok]
        exact hnext

private theorem orderedListsMergeLoop_tied (lists : List (OrderedList α))
    (hlists : lists.map OrderedList.list = all) (h : ∀ x ∈ composite, Tied all x)
    (hmarks : MarksUpTo (fun _ => false) ordered composite)
    (hdone : ∀ l ∈ lists, l.merged = true → ∀ x ∈ l.list, x ∈ composite) (x : α)
    (hx : (orderedListsMergeLoop ordered composite lists).2 x = true) : Tied all x := by
  have hround (ordered : α → Bool) (composite : List α) (lists : List (OrderedList α))
      (hlists : lists.map OrderedList.list = all) (h : ∀ x ∈ composite, Tied all x)
      (hmarks : MarksUpTo (fun _ => false) ordered composite)
      (hdone : ∀ l ∈ lists, l.merged = true → ∀ x ∈ l.list, x ∈ composite) :
      ∀ x ∈ (orderedListsMergeRound ordered composite lists).composite, Tied all x :=
    orderedListsMergeRound_tied lists ⟨h, fun _ => by rw [hlists]⟩
      (fun l hl => hlists ▸ List.mem_map_of_mem hl) hmarks hdone
  induction ordered, composite, lists using orderedListsMergeLoop.induct with
  | case1 ordered composite lists r hzero =>
    obtain ⟨hmarks', _⟩ := orderedListsMergeRound_marks lists hmarks hdone
    rw [orderedListsMergeLoop, if_pos hzero] at hx
    exact hround _ _ _ hlists h hmarks hdone x (by simpa using (hmarks' x).mp hx)
  | case2 ordered composite lists r hzero hchanged ih =>
    obtain ⟨hmarks', _, _, hmap, hmerged⟩ := orderedListsMergeRound_marks lists hmarks hdone
    rw [orderedListsMergeLoop, if_neg hzero, if_pos hchanged] at hx
    exact ih (hmap.trans hlists) (hround _ _ _ hlists h hmarks hdone) hmarks' hmerged hx
  | case3 ordered composite lists r hzero hchanged =>
    obtain ⟨hmarks', _⟩ := orderedListsMergeRound_marks lists hmarks hdone
    rw [orderedListsMergeLoop, if_neg hzero, if_neg hchanged] at hx
    exact hround _ _ _ hlists h hmarks hdone x (by simpa using (hmarks' x).mp hx)

/-- Whether the lists merge or not, only what is tied to the first of them is marked. -/
theorem orderedListsMergeAll_tied {ls : List (List α)} {x : α}
    (hx : (orderedListsMergeAll (fun _ => false) ls).2 x = true) : Tied ls x :=
  orderedListsMergeLoop_tied (ls.map fun l => ⟨false, l⟩) (by simp [Function.comp_def])
    (by simp) (fun x => by simp) (by simp) x hx

end Tied

end Cil.Resolve.OrderedLists
