/- Cil/Resolve/OrderedListsMarks
   digest: From any marks, a merge that succeeds marks exactly the items it was given. -/

import Mathlib.Data.List.Basic
import Cil.Resolve.OrderedListsSoundness

set_option autoImplicit false
set_option relaxedAutoImplicit false

namespace Cil.Resolve.OrderedLists

variable {α : Type} [DecidableEq α]

/-- Beside the marks that were there before, exactly the items of `c` are marked. -/
def MarksUpTo (base ordered : α → Bool) (c : List α) : Prop :=
  ∀ x, ordered x = true ↔ base x = true ∨ x ∈ c

theorem MarksUpTo.insert {base ordered : α → Bool} {front back : List α}
    (h : MarksUpTo base ordered (front ++ back)) (x : α) :
    MarksUpTo base (Function.update ordered x true) (front ++ [x] ++ back) := by
  intro y
  by_cases hy : y = x
  · subst hy
    simp
  · have hold := h y
    simp only [List.mem_append] at hold
    simp [hy, hold]

/-- What an attempt to merge `new` into `old` does to the marks and the members. -/
structure Absorbs (base : α → Bool) (old new : List α) (r : Outcome α) : Prop where
  marks : MarksUpTo base r.ordered r.old
  grows : ∀ x ∈ old, x ∈ r.old
  mem : ∀ x ∈ r.old, x ∈ old ∨ x ∈ new
  merged : r.rc = .ok → ∀ x ∈ new, x ∈ r.old

/-- An insertion puts a front part of the segment at the cursor, all of it on success. -/
private theorem orderedListInsert_marks {base : α → Bool} (seg : List α) (ordered : α → Bool)
    (front back : List α) (h : MarksUpTo base ordered (front ++ back)) :
    ∃ p q, seg = p ++ q ∧ (orderedListInsert ordered front seg).old = front ++ p ∧
      ((orderedListInsert ordered front seg).rc = .ok → q = []) ∧
      MarksUpTo base (orderedListInsert ordered front seg).ordered
        ((orderedListInsert ordered front seg).old ++ back) := by
  induction seg generalizing ordered front with
  | nil => exact ⟨[], [], rfl, (List.append_nil front).symm, fun _ => rfl, h⟩
  | cons n rest ih =>
      cases hn : ordered n with
      | true =>
          have he : orderedListInsert ordered front (n :: rest) = ⟨.err, ordered, front⟩ := by
            simp [orderedListInsert, orderedItemInsert, hn]
          rw [he]
          exact ⟨[], n :: rest, rfl, (List.append_nil front).symm, by simp, h⟩
      | false =>
          have he : orderedListInsert ordered front (n :: rest) =
              orderedListInsert (Function.update ordered n true) (front ++ [n]) rest := by
            simp [orderedListInsert, orderedItemInsert, hn]
          rw [he]
          obtain ⟨p, q, hseg, hold, hok, hmarks⟩ := ih _ _ (h.insert n)
          exact ⟨n :: p, q, by rw [hseg, List.cons_append], by simpa using hold, hok, hmarks⟩

private theorem orderedMergeOverlap_marks {base : α → Bool} (ordered : α → Bool)
    (front ocurr ncurr : List α) (h : MarksUpTo base ordered (front ++ ocurr)) :
    Absorbs base (front ++ ocurr) ncurr (orderedMergeOverlap ordered front ocurr ncurr) := by
  induction ordered, front, ocurr, ncurr using orderedMergeOverlap.induct with
  | case1 ordered front ocurr =>
      rw [orderedMergeOverlap]
      exact ⟨h, fun x hx => hx, fun x hx => Or.inl hx, fun _ x hx => absurd hx (by simp)⟩
  | case2 ordered front n nrest =>
      rw [orderedMergeOverlap]
      obtain ⟨p, q, hseg, hold, hok, hmarks⟩ :=
        orderedListInsert_marks (n :: nrest) ordered front [] h
      refine ⟨by simpa using hmarks, ?_, ?_, ?_⟩
      · intro x hx
        rw [hold]
        simp only [List.append_nil] at hx
        exact List.mem_append_left p hx
      · intro x hx
        rw [hold] at hx
        rw [hseg]
        simp only [List.mem_append] at hx ⊢
        grind
      · intro hrc x hx
        rw [hseg, hok hrc, List.append_nil] at hx
        rw [hold]
        exact List.mem_append_right front hx
  | case3 ordered front orest ocurr nrest ih =>
      rw [orderedMergeOverlap, if_pos rfl]
      have hsame : front ++ [ocurr] ++ orest = front ++ ocurr :: orest := by simp
      obtain ⟨hmarks, hgrows, hmem, hmerged⟩ := ih (by rwa [hsame])
      rw [hsame] at hgrows hmem
      refine ⟨hmarks, hgrows, fun x hx => ?_, fun hrc x hx => ?_⟩
      · exact (hmem x hx).imp_right (List.mem_cons_of_mem ocurr)
      · rcases List.mem_cons.mp hx with heq | hx
        · subst heq
          exact hgrows x (by simp)
        · exact hmerged hrc x hx
  | case4 ordered front ocurr orest ncurr nrest hne gap npost hfind r hrc ih =>
      obtain ⟨rfl, _⟩ := orderedFindMatch_eq_some.mp hfind
      obtain ⟨p, q, hseg, hold, hok, hmarks⟩ :=
        orderedListInsert_marks (ncurr :: gap) ordered front (ocurr :: orest) h
      have hold : r.old = front ++ ncurr :: gap := by
        rw [hseg, hok hrc, List.append_nil]
        exact hold
      have hsame : r.old ++ [ocurr] ++ orest = front ++ ncurr :: gap ++ ocurr :: orest := by
        simp [hold]
      have hrest := ih (by simpa using hmarks)
      rw [hsame] at hrest
      obtain ⟨hmarks', hgrows, hmem, hmerged⟩ := hrest
      rw [orderedMergeOverlap_gap hne hfind, if_pos hrc]
      refine ⟨hmarks', fun x hx => hgrows x ?_, fun x hx => ?_, fun hrc' x hx => ?_⟩
      · simp only [List.mem_append, List.mem_cons] at hx ⊢
        grind
      · have hx := hmem x hx
        simp only [List.mem_append, List.mem_cons] at hx ⊢
        grind
      · by_cases hpost : x ∈ npost
        · exact hmerged hrc' x hpost
        · apply hgrows x
          simp only [List.mem_append, List.mem_cons] at hx ⊢
          grind
  | case5 ordered front ocurr orest ncurr nrest hne gap npost hfind r hrc =>
      obtain ⟨rfl, _⟩ := orderedFindMatch_eq_some.mp hfind
      obtain ⟨p, q, hseg, hold, _, hmarks⟩ :=
        orderedListInsert_marks (ncurr :: gap) ordered front (ocurr :: orest) h
      have hin : ∀ x ∈ p, x ∈ ncurr :: gap := fun x hx => by
        rw [hseg]
        exact List.mem_append_left q hx
      rw [orderedMergeOverlap_gap hne hfind, if_neg hrc]
      refine ⟨hmarks, fun x hx => ?_, fun x hx => ?_, fun hrc' => absurd hrc' hrc⟩
      · simp only [hold, List.mem_append] at hx ⊢
        grind
      · simp only [hold, List.mem_append] at hx
        rcases hx with (hx | hx) | hx
        · exact Or.inl (List.mem_append_left _ hx)
        · have hx := hin x hx
          simp only [List.mem_append, List.mem_cons] at hx ⊢
          grind
        · exact Or.inl (List.mem_append_right _ hx)
  | case6 ordered front ocurr orest ncurr nrest hne hfind skipped opost hskip ih =>
      rw [orderedMergeOverlap_skip hne hfind hskip]
      have hold : orest = skipped ++ ncurr :: opost := (orderedFindMatch_eq_some.mp hskip).1
      have hsame : front ++ ocurr :: skipped ++ [ncurr] ++ opost = front ++ ocurr :: orest := by
        simp [hold]
      obtain ⟨hmarks, hgrows, hmem, hmerged⟩ := ih (by rwa [hsame])
      rw [hsame] at hgrows hmem
      refine ⟨hmarks, hgrows, fun x hx => ?_, fun hrc x hx => ?_⟩
      · exact (hmem x hx).imp_right (List.mem_cons_of_mem ncurr)
      · rcases List.mem_cons.mp hx with heq | hx
        · subst heq
          exact hgrows x (by simp [hold])
        · exact hmerged hrc x hx
  | case7 ordered front ocurr orest ncurr nrest hne hfind hskip =>
      rw [orderedMergeOverlap_stuck hne hfind hskip]
      exact ⟨h, fun x hx => hx, fun x hx => Or.inl hx, by simp⟩

theorem orderedListsMerge_marks {base ordered : α → Bool} {old : List α} (new : List α)
    (h : MarksUpTo base ordered old) :
    Absorbs base old new (orderedListsMerge ordered old new) := by
  unfold orderedListsMerge
  split
  · exact ⟨h, fun x hx => hx, fun x hx => Or.inl hx, fun _ x hx => absurd hx (by simp)⟩
  · obtain ⟨p, q, hseg, hold, hok, hmarks⟩ := orderedListInsert_marks new ordered [] [] h
    rw [List.append_nil] at hmarks
    refine ⟨hmarks, fun x hx => absurd hx (by simp), fun x hx => Or.inr ?_, fun hrc x hx => ?_⟩
    · rw [hold] at hx
      rw [hseg]
      exact List.mem_append_left q hx
    · rw [hseg, hok hrc, List.append_nil] at hx
      rw [hold]
      exact hx
  · split
    · exact ⟨h, fun x hx => hx, fun x hx => Or.inl hx, by simp⟩
    · rename_i m hm
      obtain ⟨hnew, hsplit, _⟩ := orderedFirstMatch_eq_some hm
      obtain ⟨p, q, hseg, hold, hok, hmarks⟩ :=
        orderedListInsert_marks m.npre ordered [] old h
      by_cases hone : m.npre ≠ [] ∧ m.opre ≠ []
      · rw [if_pos hone]
        exact ⟨h, fun x hx => hx, fun x hx => Or.inl hx, by simp⟩
      · rw [if_neg hone]
        by_cases hrc : (orderedListInsert ordered [] m.npre).rc = .ok
        · have hpre : (orderedListInsert ordered [] m.npre).old = m.npre := by
            rw [hold, hseg, hok hrc, List.append_nil, List.nil_append]
          have hsame : (orderedListInsert ordered [] m.npre).old ++ m.opre ++ [m.item] ++ m.opost =
              m.npre ++ old := by simp [hpre, hsplit]
          have hover := orderedMergeOverlap_marks _
            ((orderedListInsert ordered [] m.npre).old ++ m.opre ++ [m.item]) m.opost m.npost
            (by rw [hsame, ← hpre]; exact hmarks)
          rw [hsame] at hover
          obtain ⟨hmarks', hgrows, hmem, hmerged⟩ := hover
          rw [if_pos hrc]
          refine ⟨hmarks', fun x hx => ?_, fun x hx => ?_, fun hrc' x hx => ?_⟩
          · exact hgrows x (List.mem_append_right m.npre hx)
          · have hx := hmem x hx
            rw [hnew]
            simp only [List.mem_append, List.mem_cons] at hx ⊢
            grind
          · rw [hnew] at hx
            by_cases hpost : x ∈ m.npost
            · exact hmerged hrc' x hpost
            · apply hgrows x
              rw [hsplit]
              simp only [List.mem_append, List.mem_cons] at hx ⊢
              grind
        · rw [if_neg hrc]
          refine ⟨hmarks, fun x hx => List.mem_append_right _ hx, fun x hx => ?_,
            fun hrc' => absurd hrc' hrc⟩
          rcases List.mem_append.mp hx with hx | hx
          · right
            simp only [hold, List.nil_append] at hx
            rw [hnew, hseg]
            simp [hx]
          · exact Or.inl hx

/-- One round keeps the marks in step with the composite list, and what it marks as
merged is in there. -/
theorem orderedListsMergeRound_marks {base : α → Bool} (lists : List (OrderedList α))
    {ordered : α → Bool} {composite : List α} (h : MarksUpTo base ordered composite)
    (hdone : ∀ l ∈ lists, l.merged = true → ∀ x ∈ l.list, x ∈ composite) :
    let r := orderedListsMergeRound ordered composite lists
    MarksUpTo base r.ordered r.composite ∧ (∀ x ∈ composite, x ∈ r.composite) ∧
      (∀ x ∈ r.composite, x ∈ composite ∨ ∃ l ∈ lists, x ∈ l.list) ∧
      r.lists.map OrderedList.list = lists.map OrderedList.list ∧
      ∀ l ∈ r.lists, l.merged = true → ∀ x ∈ l.list, x ∈ r.composite := by
  induction lists generalizing ordered composite with
  | nil =>
      exact ⟨h, fun x hx => hx, fun x hx => Or.inl hx, rfl, by simp [orderedListsMergeRound]⟩
  | cons l rest ih =>
      have hdone' := fun m hm => hdone m (List.mem_cons_of_mem l hm)
      by_cases hm : l.merged = true
      · obtain ⟨hmarks, hgrows, hmem, hmap, hmerged⟩ := ih h hdone'
        simp only [orderedListsMergeRound, if_pos hm, List.map_cons, hmap]
        refine ⟨hmarks, hgrows, fun x hx => ?_, trivial, fun m hml hmm x hx => ?_⟩
        · rcases hmem x hx with hx | ⟨m, hml, hx⟩
          · exact Or.inl hx
          · exact Or.inr ⟨m, List.mem_cons_of_mem l hml, hx⟩
        · rcases List.mem_cons.mp hml with heq | hml
          · subst heq
            exact hgrows x (hdone m List.mem_cons_self hmm x hx)
          · exact hmerged m hml hmm x hx
      · have ha := orderedListsMerge_marks l.list h
        obtain ⟨hmarks, hgrows, hmem, hmap, hmerged⟩ := ih ha.marks
          fun m hml hmm x hx => ha.grows x (hdone' m hml hmm x hx)
        have hfrom : ∀ x ∈ (orderedListsMergeRound (orderedListsMerge ordered composite
            l.list).ordered (orderedListsMerge ordered composite l.list).old rest).composite,
            x ∈ composite ∨ ∃ m ∈ l :: rest, x ∈ m.list := by
          intro x hx
          rcases hmem x hx with hx | ⟨m, hml, hx⟩
          · exact (ha.mem x hx).imp_right fun hx => ⟨l, List.mem_cons_self, hx⟩
          · exact Or.inr ⟨m, List.mem_cons_of_mem l hml, hx⟩
        simp only [orderedListsMergeRound, if_neg hm]
        by_cases hok : (orderedListsMerge ordered composite l.list).rc = .ok
        · simp only [if_pos hok, List.map_cons, hmap]
          refine ⟨hmarks, fun x hx => hgrows x (ha.grows x hx), hfrom, trivial,
            fun m hml hmm x hx => ?_⟩
          rcases List.mem_cons.mp hml with heq | hml
          · subst heq
            exact hgrows x (ha.merged hok x hx)
          · exact hmerged m hml hmm x hx
        · simp only [if_neg hok, List.map_cons, hmap]
          refine ⟨hmarks, fun x hx => hgrows x (ha.grows x hx), hfrom, trivial,
            fun m hml hmm x hx => ?_⟩
          rcases List.mem_cons.mp hml with heq | hml
          · subst heq
            exact absurd hmm hm
          · exact hmerged m hml hmm x hx

private theorem orderedListsMergeLoop_marks {base ordered : α → Bool} {composite c : List α}
    (lists : List (OrderedList α)) (h : MarksUpTo base ordered composite)
    (hfrom : ∀ x ∈ composite, ∃ l ∈ lists.map OrderedList.list, x ∈ l)
    (hdone : ∀ l ∈ lists, l.merged = true → ∀ x ∈ l.list, x ∈ composite)
    (hres : (orderedListsMergeLoop ordered composite lists).1 = some c) :
    MarksUpTo base (orderedListsMergeLoop ordered composite lists).2 c ∧
      ∀ x, x ∈ c ↔ ∃ l ∈ lists.map OrderedList.list, x ∈ l := by
  induction ordered, composite, lists using orderedListsMergeLoop.induct with
  | case1 ordered composite lists r hzero =>
      obtain ⟨hmarks, hgrows, hmem, hmap, hmerged⟩ := orderedListsMergeRound_marks lists h hdone
      rw [orderedListsMergeLoop, if_pos hzero] at hres ⊢
      obtain rfl := Option.some.inj hres
      refine ⟨hmarks, fun x => ⟨fun hx => ?_, ?_⟩⟩
      · rcases hmem x hx with hx | ⟨l, hl, hx⟩
        · exact hfrom x hx
        · exact ⟨l.list, List.mem_map_of_mem hl, hx⟩
      · rintro ⟨l, hl, hx⟩
        rw [← hmap] at hl
        obtain ⟨m, hm, rfl⟩ := List.mem_map.mp hl
        exact hmerged m hm (merged_of_waiting_eq_zero hzero m hm) x hx
  | case2 ordered composite lists r hzero hchanged ih =>
      obtain ⟨hmarks, hgrows, hmem, hmap, hmerged⟩ := orderedListsMergeRound_marks lists h hdone
      rw [orderedListsMergeLoop, if_neg hzero, if_pos hchanged] at hres ⊢
      have hrest := ih hmarks (fun x hx => ?_) hmerged hres
      · rwa [hmap] at hrest
      · rw [hmap]
        rcases hmem x hx with hx | ⟨l, hl, hx⟩
        · exact hfrom x hx
        · exact ⟨l.list, List.mem_map_of_mem hl, hx⟩
  | case3 ordered composite lists r hzero hchanged =>
      rw [orderedListsMergeLoop, if_neg hzero, if_neg hchanged] at hres
      exact absurd hres (by simp)

/-- Whatever is marked before, a merge that succeeds yields the items of the lists and adds
exactly their marks. -/
theorem orderedListsMergeAll_marks {ordered : α → Bool} {ls : List (List α)} {c : List α}
    (h : (orderedListsMergeAll ordered ls).1 = some c) :
    (∀ x, (orderedListsMergeAll ordered ls).2 x = true ↔
        ordered x = true ∨ ∃ l ∈ ls, x ∈ l) ∧
      ∀ x, x ∈ c ↔ ∃ l ∈ ls, x ∈ l := by
  have hlists : (ls.map fun l => OrderedList.mk false l).map OrderedList.list = ls := by
    simp [Function.comp_def]
  obtain ⟨hmarks, hmem⟩ := orderedListsMergeLoop_marks _
    (show MarksUpTo ordered ordered [] from fun x => by simp) (by simp) (by simp) h
  rw [hlists] at hmem
  refine ⟨fun x => ?_, hmem⟩
  rw [← hmem x]
  exact hmarks x

end Cil.Resolve.OrderedLists
