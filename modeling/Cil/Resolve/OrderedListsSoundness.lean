/- Cil/Resolve/OrderedListsSoundness
   digest: A composite order list is the unique order its statements determine. -/

import Cil.Resolve.OrderedLists

set_option autoImplicit false
set_option relaxedAutoImplicit false

namespace Cil.Resolve.OrderedLists

open Cil.Library.ListOrder

section Cursor

variable {α : Type}

/-- No repetition-free list that extends `c` can extend `l` as well. -/
def Refused (c l : List α) : Prop :=
  ∀ d : List α, d.Nodup → c.Sublist d → ¬ l.Sublist d

theorem Refused.mono {c d l : List α} (h : Refused c l) (hc : c.Sublist d) : Refused d l :=
  fun e he hd => h e he (hc.trans hd)

/-- A list is refused as soon as it repeats an item. -/
private theorem refused_of_before_self {c l : List α} {x : α} (h : Before l x x) : Refused c l :=
  fun _ hd _ hl => not_before_self hd x (h.mono hl)

/-- A list is refused as soon as it orders two items against the composite list. -/
private theorem refused_of_before {c l : List α} {x y : α} (hc : Before c x y) (hl : Before l y x) :
    Refused c l :=
  fun _ hd hcd hld => (hc.mono hcd).asymm hd (hl.mono hld)

/-- The situation at the head of the overlap loop: `front` ends with `oprev`, the item of
the new list before `ncurr`, and what precedes it in the new list is already merged. -/
def Cursor (new front ncurr : List α) : Prop :=
  ∃ nprev oprev oinit, new = nprev ++ oprev :: ncurr ∧ front = oinit ++ [oprev] ∧
    nprev.Sublist oinit

theorem Cursor.subset {new front ncurr : List α} (h : Cursor new front ncurr) :
    ncurr ⊆ new := by
  obtain ⟨nprev, oprev, oinit, rfl, rfl, _⟩ := h
  intro x hx
  simp [hx]

private theorem Cursor.sublist_append {new front ncurr : List α} (h : Cursor new front ncurr) :
    new.Sublist (front ++ ncurr) := by
  obtain ⟨nprev, oprev, oinit, rfl, rfl, hs⟩ := h
  have := hs.append (List.Sublist.refl (oprev :: ncurr))
  simpa using this

/-- Items that enter the composite list right after the cursor move the cursor along. -/
theorem Cursor.push {new front seg ncurr : List α} {x : α}
    (h : Cursor new front (seg ++ x :: ncurr)) : Cursor new (front ++ seg ++ [x]) ncurr := by
  obtain ⟨nprev, oprev, oinit, rfl, rfl, hs⟩ := h
  refine ⟨nprev ++ oprev :: seg, x, oinit ++ oprev :: seg, by simp, by simp, ?_⟩
  exact hs.append (List.Sublist.refl _)

/-- Items of the composite list may be skipped before the next match. -/
theorem Cursor.skip {new front ncurr s : List α} {x : α}
    (h : Cursor new front (x :: ncurr)) : Cursor new (front ++ s ++ [x]) ncurr := by
  obtain ⟨nprev, oprev, oinit, rfl, rfl, hs⟩ := h
  refine ⟨nprev ++ [oprev], x, oinit ++ [oprev] ++ s, by simp, by simp, ?_⟩
  exact (hs.append (List.Sublist.refl _)).trans (List.sublist_append_left _ _)

/-- An item that cannot be inserted at the cursor already stands elsewhere in the
composite list, against the order of the new list. -/
theorem Cursor.refused {new front p q tail c : List α} {x : α}
    (h : Cursor new front (p ++ x :: q ++ tail)) (hx : x ∈ front ++ p ++ c)
    (hc : x ∈ c → ∃ o ∈ tail, x = o ∨ Before c o x) : Refused (front ++ p ++ c) new := by
  obtain ⟨nprev, oprev, oinit, rfl, rfl, _⟩ := h
  have hnew : Before (nprev ++ oprev :: (p ++ x :: q ++ tail)) oprev x := by
    have := before_append (s := nprev ++ [oprev]) (t := p ++ x :: q ++ tail) (a := oprev)
      (b := x) (by simp) (by simp)
    simpa using this
  have hpx : x ∈ p → Before (nprev ++ oprev :: (p ++ x :: q ++ tail)) x x := by
    intro hp
    have := before_append (s := nprev ++ oprev :: p) (t := x :: q ++ tail) (a := x) (b := x)
      (by simp [hp]) (by simp)
    simpa using this
  simp only [List.mem_append, List.mem_singleton] at hx
  rcases hx with ((hx | rfl) | hx) | hx
  · refine refused_of_before (x := x) (y := oprev) ?_ hnew
    have := before_append (s := oinit) (t := oprev :: (p ++ c)) (a := x) (b := oprev) hx
      List.mem_cons_self
    simpa using this
  · exact refused_of_before_self hnew
  · exact refused_of_before_self (hpx hx)
  · obtain ⟨o, ho, heq⟩ := hc hx
    have hxo : Before (nprev ++ oprev :: (p ++ x :: q ++ tail)) x o := by
      have := before_append (s := nprev ++ oprev :: p ++ [x]) (t := q ++ tail) (a := x) (b := o)
        (by simp) (by simp [ho])
      simpa using this
    rcases heq with rfl | hbefore
    · exact refused_of_before_self hxo
    · exact refused_of_before (hbefore.mono (List.sublist_append_right _ _)) hxo

/-- Inserting a whole gap keeps the composite list chained. -/
private theorem Cursor.isChain_gap {R : α → α → Prop} {new front seg orest npost : List α} {o : α}
    (h : Cursor new front (seg ++ o :: npost)) (hnew : new.IsChain R)
    (hold : (front ++ o :: orest).IsChain R) : (front ++ seg ++ o :: orest).IsChain R := by
  obtain ⟨nprev, oprev, oinit, rfl, rfl, _⟩ := h
  have hmid : (oprev :: seg ++ [o]).IsChain R := hnew.infix ⟨nprev, npost, by simp⟩
  have hleft : (oinit ++ [oprev]).IsChain R := hold.left_of_append
  have hright : (o :: orest).IsChain R := hold.right_of_append
  have htail : (oprev :: seg ++ o :: orest).IsChain R :=
    List.isChain_split.mpr ⟨hmid, hright⟩
  have hall : (oinit ++ oprev :: (seg ++ o :: orest)).IsChain R :=
    List.isChain_split.mpr ⟨hleft, htail⟩
  simpa using hall

/-- Appending the rest of the new list keeps the composite list chained. -/
private theorem Cursor.isChain_append {R : α → α → Prop} {new front ncurr : List α}
    (h : Cursor new front ncurr) (hnew : new.IsChain R) (hold : front.IsChain R) :
    (front ++ ncurr).IsChain R := by
  obtain ⟨nprev, oprev, oinit, rfl, rfl, _⟩ := h
  have hall : (oinit ++ oprev :: ncurr).IsChain R :=
    List.isChain_split.mpr ⟨hold, hnew.right_of_append⟩
  simpa using hall

/-- The `ordered` flags are exactly the items of a repetition-free composite list. -/
structure Flagged (ordered : α → Bool) (c : List α) : Prop where
  nodup : c.Nodup
  iff_mem : ∀ x, ordered x = true ↔ x ∈ c

/-- What one attempt to merge `new` into `old` leaves behind. A failed attempt may have
inserted items: then either the composite list is still chained or the list is lost. -/
structure Attempted (old new : List α) (r : Outcome α) : Prop where
  flagged : Flagged r.ordered r.old
  grows : old.Sublist r.old
  mem : ∀ x ∈ r.old, x ∈ old ∨ x ∈ new
  merged : r.rc = .ok → new.Sublist r.old
  chain : ∀ R : α → α → Prop, new.IsChain R → old.IsChain R →
    r.old.IsChain R ∨ Refused r.old new

/-- An attempt may be judged from any stage the same list has already brought about. -/
private theorem Attempted.of_grown {old mid new : List α} {r : Outcome α} (h : Attempted mid new r)
    (hs : old.Sublist mid) (hmem : ∀ x ∈ mid, x ∈ old ∨ x ∈ new)
    (hchain : ∀ R : α → α → Prop, new.IsChain R → old.IsChain R → mid.IsChain R) :
    Attempted old new r where
  flagged := h.flagged
  grows := hs.trans h.grows
  mem x hx := (h.mem x hx).elim (hmem x) Or.inr
  merged := h.merged
  chain R hnew hold := h.chain R hnew (hchain R hnew hold)

private theorem before_self_of_split {new p q t : List α} {x : α} (hnew : new = p ++ x :: q ++ t)
    (hx : x ∈ p) : Before new x x := by
  have := before_append (s := p) (t := x :: q ++ t) hx List.mem_cons_self
  simpa [hnew] using this

/-- The cursor after the first match, when at most one of the lists starts before it. -/
private theorem cursor_of_match {npre npost opre : List α} (item : α) :
    Cursor (npre ++ item :: npost) (npre ++ opre ++ [item]) npost :=
  ⟨npre, item, npre ++ opre, rfl, rfl, List.sublist_append_left _ _⟩

private theorem isChain_prepend {R : α → α → Prop} {npre npost opre opost : List α} {item : α}
    (hone : ¬ (npre ≠ [] ∧ opre ≠ [])) (hnew : (npre ++ item :: npost).IsChain R)
    (hold : (opre ++ item :: opost).IsChain R) :
    (npre ++ (opre ++ item :: opost)).IsChain R := by
  by_cases hn : npre = []
  · simpa [hn] using hold
  · have ho : opre = [] := by
      by_contra ho
      exact hone ⟨hn, ho⟩
    subst ho
    exact List.isChain_split.mpr ⟨(List.isChain_split.mp hnew).1, hold⟩

/-- Two items are linked when some list of the family has them as neighbours. -/
def Linked (ls : List (List α)) (a b : α) : Prop := ∃ l ∈ ls, Adjacent l a b

private theorem isChain_linked {ls : List (List α)} {l : List α} (hl : l ∈ ls) :
    l.IsChain (Linked ls) :=
  (List.isChain_isInfix l).imp fun _ _ h => ⟨l, hl, h⟩

end Cursor

variable {α : Type} [DecidableEq α]

theorem Flagged.insert {ordered : α → Bool} {front back : List α} {x : α}
    (h : Flagged ordered (front ++ back)) (hx : ordered x = false) :
    Flagged (Function.update ordered x true) (front ++ [x] ++ back) := by
  have hmem : x ∉ front ++ back := by
    rw [← h.iff_mem, hx]
    exact Bool.false_ne_true
  refine ⟨?_, fun y => ?_⟩
  · have : (x :: (front ++ back)).Nodup := List.nodup_cons.mpr ⟨hmem, h.nodup⟩
    simpa using List.nodup_middle.mpr this
  · by_cases hy : y = x
    · simp [hy]
    · have := h.iff_mem y
      simp_all

/-- Insertion stops at the first item that is already in the composite list. -/
theorem orderedListInsert_spec (seg : List α) (ordered : α → Bool) (front back : List α)
    (h : Flagged ordered (front ++ back)) :
    Flagged (orderedListInsert ordered front seg).ordered
        ((orderedListInsert ordered front seg).old ++ back) ∧
      ((orderedListInsert ordered front seg).rc = .ok ∧
          (orderedListInsert ordered front seg).old = front ++ seg ∨
        (orderedListInsert ordered front seg).rc = .err ∧
          ∃ p x q, seg = p ++ x :: q ∧ x ∈ front ++ p ++ back ∧
            (orderedListInsert ordered front seg).old = front ++ p) := by
  induction seg generalizing ordered front with
  | nil => exact ⟨h, Or.inl ⟨rfl, (List.append_nil front).symm⟩⟩
  | cons n rest ih =>
      cases hn : ordered n with
      | true =>
          have hmem : n ∈ front ++ back := (h.iff_mem n).mp hn
          have he : orderedListInsert ordered front (n :: rest) = ⟨.err, ordered, front⟩ := by
            simp [orderedListInsert, orderedItemInsert, hn]
          rw [he]
          exact ⟨h, Or.inr ⟨rfl, [], n, rest, rfl, by simpa using hmem, by simp⟩⟩
      | false =>
          have he : orderedListInsert ordered front (n :: rest) =
              orderedListInsert (Function.update ordered n true) (front ++ [n]) rest := by
            simp [orderedListInsert, orderedItemInsert, hn]
          rw [he]
          obtain ⟨hf, hr⟩ := ih _ _ (h.insert hn)
          refine ⟨hf, hr.imp ?_ ?_⟩
          · rintro ⟨hok, hold⟩
            exact ⟨hok, by simpa using hold⟩
          · rintro ⟨herr, p, x, q, rfl, hx, hold⟩
            exact ⟨herr, n :: p, x, q, rfl, by simpa using hx, by simpa using hold⟩

private theorem orderedMergeOverlap_spec (new : List α) (ordered : α → Bool)
    (front ocurr ncurr : List α) (hcur : Cursor new front ncurr)
    (hflag : Flagged ordered (front ++ ocurr)) :
    Attempted (front ++ ocurr) new (orderedMergeOverlap ordered front ocurr ncurr) := by
  induction ordered, front, ocurr, ncurr using orderedMergeOverlap.induct with
  | case1 ordered front ocurr =>
      rw [orderedMergeOverlap]
      refine ⟨hflag, List.Sublist.refl _, fun x hx => Or.inl hx, fun _ => ?_, ?_⟩
      · exact (by simpa using hcur.sublist_append : new.Sublist front).trans
          (List.sublist_append_left _ _)
      · exact fun R _ hold => Or.inl hold
  | case2 ordered front n nrest =>
      rw [orderedMergeOverlap]
      simp only [List.append_nil] at hflag ⊢
      obtain ⟨hf, hr⟩ := orderedListInsert_spec (n :: nrest) ordered front [] (by simpa using hflag)
      simp only [List.append_nil] at hf hr
      rcases hr with ⟨hok, hold⟩ | ⟨herr, p, x, q, hseg, hx, hold⟩
      · refine ⟨hf, ?_, ?_, fun _ => ?_, fun R hnew hchain => Or.inl ?_⟩ <;> rw [hold]
        · exact List.sublist_append_left _ _
        · intro x hx
          exact (List.mem_append.mp hx).imp_right fun hn => hcur.subset hn
        · exact hcur.sublist_append
        · exact hcur.isChain_append hnew hchain
      · have hcur' : Cursor new front (p ++ x :: q ++ []) := by simpa [hseg] using hcur
        refine ⟨hf, ?_, ?_, fun h => ?_, fun R hnew hchain => Or.inr ?_⟩
        · rw [hold]
          exact List.sublist_append_left _ _
        · rw [hold]
          intro y hy
          exact (List.mem_append.mp hy).imp_right fun hp => hcur.subset (by simp [hseg, hp])
        · simp [herr] at h
        · have := hcur'.refused (c := []) (by simpa using hx) (by simp)
          simpa [hold] using this
  | case3 ordered front orest n nrest ih =>
      rw [orderedMergeOverlap, if_pos rfl]
      have hcur' := Cursor.skip (s := []) hcur
      have := ih (by simpa using hcur') (by simpa using hflag)
      simpa using this
  | case4 ordered front o orest n nrest hne gap npost hgap r hok ih =>
      obtain ⟨rfl, _⟩ := orderedFindMatch_eq_some.mp hgap
      obtain ⟨hf, hr⟩ := orderedListInsert_spec (n :: gap) ordered front (o :: orest) hflag
      have hcur' : Cursor new front (n :: gap ++ o :: npost) := by simpa using hcur
      rcases hr with ⟨_, hold⟩ | ⟨herr, _⟩
      · have hmid : r.old ++ [o] ++ orest = front ++ n :: gap ++ o :: orest := by simp [r, hold]
        have hpush : Cursor new (r.old ++ [o]) npost := by
          have := hcur'.push
          simpa [r, hold] using this
        have hrec := ih hpush (by simpa using hf)
        rw [orderedMergeOverlap_gap hne hgap, if_pos hok]
        rw [hmid] at hrec
        refine hrec.of_grown ?_ ?_ ?_
        · simp
        · intro x hx
          simp only [List.mem_append] at hx ⊢
          rcases hx with (hx | hx) | hx
          · exact Or.inl (Or.inl hx)
          · exact Or.inr (hcur'.subset (List.mem_append_left _ hx))
          · exact Or.inl (Or.inr hx)
        · exact fun R hnew hchain => hcur'.isChain_gap hnew hchain
      · exact absurd (herr.symm.trans hok) (by simp)
  | case5 ordered front o orest n nrest hne gap npost hgap r herr =>
      obtain ⟨rfl, _⟩ := orderedFindMatch_eq_some.mp hgap
      obtain ⟨hf, hr⟩ := orderedListInsert_spec (n :: gap) ordered front (o :: orest) hflag
      rw [orderedMergeOverlap_gap hne hgap, if_neg herr]
      rcases hr with ⟨hok, _⟩ | ⟨_, p, x, q, hseg, hx, hold⟩
      · exact absurd hok herr
      · have hcur' : Cursor new front (p ++ x :: q ++ o :: npost) := by
          rw [← hseg]
          simpa using hcur
        refine ⟨hf, ?_, ?_, fun h => absurd h herr, fun R hnew hchain => Or.inr ?_⟩
        · simp only [hold]
          simp
        · intro y hy
          simp only [hold, List.mem_append] at hy ⊢
          rcases hy with (hy | hy) | hy
          · exact Or.inl (Or.inl hy)
          · exact Or.inr (hcur'.subset (by simp [hy]))
          · exact Or.inl (Or.inr hy)
        · simp only [hold]
          refine hcur'.refused hx fun hmem => ⟨o, List.mem_cons_self, ?_⟩
          rcases List.mem_cons.mp hmem with rfl | hmem
          · exact Or.inl rfl
          · exact Or.inr (before_cons.mpr (Or.inr ⟨rfl, hmem⟩))
  | case6 ordered front o orest n nrest hne hgap skipped opost hskip ih =>
      obtain ⟨rfl, _⟩ := orderedFindMatch_eq_some.mp hskip
      have hcur' := Cursor.skip (s := o :: skipped) hcur
      have := ih (by simpa using hcur') (by simpa using hflag)
      rw [orderedMergeOverlap_skip hne hgap hskip]
      simpa using this
  | case7 ordered front o orest n nrest hne hgap hskip =>
      rw [orderedMergeOverlap_stuck hne hgap hskip]
      exact ⟨hflag, List.Sublist.refl _, fun x hx => Or.inl hx, by simp,
        fun R _ hold => Or.inl hold⟩

theorem orderedFirstMatch_eq_some {old new : List α} {m : FirstMatch α}
    (h : orderedFirstMatch old new = some m) :
    new = m.npre ++ m.item :: m.npost ∧ old = m.opre ++ m.item :: m.opost ∧
      ∀ x ∈ m.npre, x ∉ old := by
  induction new generalizing m with
  | nil => simp [orderedFirstMatch] at h
  | cons n rest ih =>
      simp only [orderedFirstMatch] at h
      split at h
      · rename_i opre opost hfind
        obtain rfl := Option.some.inj h
        exact ⟨rfl, (orderedFindMatch_eq_some.mp hfind).1, by simp⟩
      · rename_i hfind
        obtain ⟨m', hm', rfl⟩ := Option.map_eq_some_iff.mp h
        obtain ⟨hn, ho, hpre⟩ := ih hm'
        refine ⟨by simp [← hn], ho, ?_⟩
        intro x hx
        rcases List.mem_cons.mp hx with rfl | hx
        · exact orderedFindMatch_eq_none.mp hfind
        · exact hpre x hx

/-- Inserting at the head of the composite list fails only on a repeated item. -/
private theorem orderedListInsert_head_spec (seg : List α) (ordered : α → Bool) (back : List α)
    (h : Flagged ordered back) (hseg : ∀ x ∈ seg, x ∉ back) :
    Flagged (orderedListInsert ordered [] seg).ordered
        ((orderedListInsert ordered [] seg).old ++ back) ∧
      ((orderedListInsert ordered [] seg).rc = .ok ∧
          (orderedListInsert ordered [] seg).old = seg ∨
        (orderedListInsert ordered [] seg).rc = .err ∧
          ∃ p x q, seg = p ++ x :: q ∧ x ∈ p ∧ (orderedListInsert ordered [] seg).old = p) := by
  obtain ⟨hf, hr⟩ := orderedListInsert_spec seg ordered [] back h
  refine ⟨hf, hr.imp_right ?_⟩
  rintro ⟨herr, p, x, q, rfl, hx, hold⟩
  refine ⟨herr, p, x, q, rfl, ?_, hold⟩
  rcases List.mem_append.mp hx with hx | hx
  · exact hx
  · exact absurd hx (hseg x (by simp))

private theorem orderedListsMerge_spec {ordered : α → Bool} {old : List α} (new : List α)
    (hflag : Flagged ordered old) : Attempted old new (orderedListsMerge ordered old new) := by
  unfold orderedListsMerge
  split
  · exact ⟨hflag, List.Sublist.refl _, fun x hx => Or.inl hx, fun _ => List.nil_sublist _,
      fun R _ hold => Or.inl hold⟩
  · obtain ⟨hf, hr⟩ := orderedListInsert_head_spec new ordered [] hflag (by simp)
    rw [List.append_nil] at hf
    rcases hr with ⟨hok, hold⟩ | ⟨herr, p, x, q, hseg, hx, hold⟩
    · refine ⟨hf, List.nil_sublist _, fun x hx => Or.inr (hold ▸ hx), fun _ => ?_, ?_⟩
      · rw [hold]
      · intro R hnew _
        rw [hold]
        exact Or.inl hnew
    · refine ⟨hf, List.nil_sublist _, fun y hy => Or.inr ?_, fun h => ?_, fun R _ _ => Or.inr ?_⟩
      · rw [hold] at hy
        simp [hseg, hy]
      · simp [herr] at h
      · exact refused_of_before_self (before_self_of_split (t := []) (by simpa using hseg) hx)
  · split
    · exact ⟨hflag, List.Sublist.refl _, fun x hx => Or.inl hx, by simp,
        fun R _ hold => Or.inl hold⟩
    · rename_i m hm
      obtain ⟨hnew, hold, hpre⟩ := orderedFirstMatch_eq_some hm
      obtain ⟨hf, hr⟩ := orderedListInsert_head_spec m.npre ordered old hflag hpre
      by_cases hone : m.npre ≠ [] ∧ m.opre ≠ []
      · rw [if_pos hone]
        exact ⟨hflag, List.Sublist.refl _, fun x hx => Or.inl hx, by simp,
          fun R _ hchain => Or.inl hchain⟩
      · rw [if_neg hone]
        rcases hr with ⟨hok, hins⟩ | ⟨herr, p, x, q, hseg, hx, hins⟩
        · have hmid : (orderedListInsert ordered [] m.npre).old ++ m.opre ++ [m.item] ++ m.opost =
              m.npre ++ old := by simp [hins, hold]
          have hcur : Cursor new
              ((orderedListInsert ordered [] m.npre).old ++ m.opre ++ [m.item]) m.npost := by
            rw [hins, hnew]
            exact cursor_of_match m.item
          have hover := orderedMergeOverlap_spec new _ _ m.opost m.npost hcur
            (by rw [hmid]; simpa [hins] using hf)
          rw [hmid] at hover
          rw [if_pos hok]
          refine hover.of_grown (List.sublist_append_right _ _) ?_ ?_
          · intro x hx
            refine (List.mem_append.mp hx).symm.imp_right fun hx => ?_
            simp [hnew, hx]
          · intro R hchain hchain'
            rw [hold] at hchain' ⊢
            exact isChain_prepend hone (hnew ▸ hchain) hchain'
        · rw [if_neg (by simp [herr])]
          refine ⟨hf, List.sublist_append_right _ _, ?_, by simp [herr], fun R _ _ => Or.inr ?_⟩
          · intro y hy
            refine (List.mem_append.mp hy).symm.imp_right fun hy => ?_
            simp only [hins] at hy
            simp [hnew, hseg, hy]
          · exact refused_of_before_self
              (before_self_of_split (q := q) (t := m.item :: m.npost) (by simp [hnew, hseg]) hx)

/-- The invariant of the retry rounds: nothing foreign has entered the composite list, and
it is chained unless some list can no longer be merged at all. -/
structure Merging (ls : List (List α)) (ordered : α → Bool) (composite : List α) : Prop where
  flagged : Flagged ordered composite
  mem : ∀ x ∈ composite, ∃ l ∈ ls, x ∈ l
  chain : composite.IsChain (Linked ls) ∨ ∃ l ∈ ls, Refused composite l

theorem Merging.attempt {ls : List (List α)} {ordered : α → Bool} {composite new : List α}
    (h : Merging ls ordered composite) (hnew : new ∈ ls) :
    Merging ls (orderedListsMerge ordered composite new).ordered
      (orderedListsMerge ordered composite new).old := by
  have ha := orderedListsMerge_spec new h.flagged
  refine ⟨ha.flagged, fun x hx => ?_, ?_⟩
  · rcases ha.mem x hx with hx | hx
    · exact h.mem x hx
    · exact ⟨new, hnew, hx⟩
  · rcases h.chain with hchain | ⟨l, hl, hr⟩
    · exact (ha.chain _ (isChain_linked hnew) hchain).imp_right fun hr => ⟨new, hnew, hr⟩
    · exact Or.inr ⟨l, hl, hr.mono ha.grows⟩

/-- One round keeps the invariant, and what it marks as merged is merged. -/
private theorem orderedListsMergeRound_spec {ls : List (List α)} (lists : List (OrderedList α))
    {ordered : α → Bool} {composite : List α} (h : Merging ls ordered composite)
    (hls : ∀ l ∈ lists, l.list ∈ ls)
    (hdone : ∀ l ∈ lists, l.merged = true → l.list.Sublist composite) :
    Merging ls (orderedListsMergeRound ordered composite lists).ordered
        (orderedListsMergeRound ordered composite lists).composite ∧
      composite.Sublist (orderedListsMergeRound ordered composite lists).composite ∧
      (orderedListsMergeRound ordered composite lists).lists.map OrderedList.list =
        lists.map OrderedList.list ∧
      ∀ l ∈ (orderedListsMergeRound ordered composite lists).lists, l.merged = true →
        l.list.Sublist (orderedListsMergeRound ordered composite lists).composite := by
  induction lists generalizing ordered composite with
  | nil => exact ⟨h, List.Sublist.refl _, rfl, by simp [orderedListsMergeRound]⟩
  | cons l rest ih =>
      have hrest := fun m hm => hls m (List.mem_cons_of_mem l hm)
      have hdone' := fun m hm => hdone m (List.mem_cons_of_mem l hm)
      cases hm : l.merged with
      | true =>
          obtain ⟨hr, hgrow, hmap, hmerged⟩ := ih h hrest hdone'
          simp only [orderedListsMergeRound, hm, if_true, List.map_cons, hmap]
          refine ⟨hr, hgrow, trivial, fun m hmem hmm => ?_⟩
          rcases List.mem_cons.mp hmem with rfl | hmem
          · exact (hdone m List.mem_cons_self hmm).trans hgrow
          · exact hmerged m hmem hmm
      | false =>
          have ha := orderedListsMerge_spec l.list h.flagged
          obtain ⟨hr, hgrow, hmap, hmerged⟩ := ih (h.attempt (hls l List.mem_cons_self)) hrest
            fun m hmem hmm => (hdone' m hmem hmm).trans ha.grows
          simp only [orderedListsMergeRound, hm]
          by_cases hok : (orderedListsMerge ordered composite l.list).rc = .ok
          · simp only [Bool.false_eq_true, if_false, if_pos hok, List.map_cons, hmap]
            refine ⟨hr, ha.grows.trans hgrow, trivial, fun m hmem hmm => ?_⟩
            rcases List.mem_cons.mp hmem with rfl | hmem
            · exact (ha.merged hok).trans hgrow
            · exact hmerged m hmem hmm
          · simp only [Bool.false_eq_true, if_false, if_neg hok, List.map_cons, hmap]
            refine ⟨hr, ha.grows.trans hgrow, trivial, fun m hmem hmm => ?_⟩
            rcases List.mem_cons.mp hmem with rfl | hmem
            · exact absurd hmm (by simp [hm])
            · exact hmerged m hmem hmm

theorem merged_of_waiting_eq_zero {ordered : α → Bool} {composite : List α}
    {lists : List (OrderedList α)}
    (h : (orderedListsMergeRound ordered composite lists).waiting = 0) :
    ∀ l ∈ (orderedListsMergeRound ordered composite lists).lists, l.merged = true := by
  have hlen := (unmerged_round_le ordered composite lists).1
  rw [h] at hlen
  intro l hl
  by_contra hm
  have hmem : l ∈ unmerged (orderedListsMergeRound ordered composite lists).lists :=
    List.mem_filter.mpr ⟨hl, by simpa using hm⟩
  exact List.ne_nil_of_mem hmem (List.length_eq_zero_iff.mp hlen)

/-- The composite list of a finished merge, with the flags that are set then. -/
private theorem orderedListsMergeLoop_spec {ls : List (List α)} {ordered : α → Bool}
    {composite c : List α} (lists : List (OrderedList α)) (h : Merging ls ordered composite)
    (hls : lists.map OrderedList.list = ls)
    (hdone : ∀ l ∈ lists, l.merged = true → l.list.Sublist composite)
    (hres : (orderedListsMergeLoop ordered composite lists).1 = some c) :
    Extends ls c ∧ (∀ a b, Adjacent c a b → ∃ l ∈ ls, Adjacent l a b) ∧
      Flagged (orderedListsMergeLoop ordered composite lists).2 c := by
  induction ordered, composite, lists using orderedListsMergeLoop.induct with
  | case1 ordered composite lists r hzero =>
      have hmem : ∀ l ∈ lists, l.list ∈ ls := fun l hl => hls ▸ List.mem_map_of_mem hl
      obtain ⟨hr, _, hmap, hmerged⟩ := orderedListsMergeRound_spec lists h hmem hdone
      rw [orderedListsMergeLoop, if_pos hzero] at hres ⊢
      obtain rfl := Option.some.inj hres
      have hsub : ∀ l ∈ ls, l.Sublist r.composite := by
        intro l hl
        rw [← hls, ← hmap] at hl
        obtain ⟨m, hm, rfl⟩ := List.mem_map.mp hl
        exact hmerged m hm (merged_of_waiting_eq_zero hzero m hm)
      have hchain : r.composite.IsChain (Linked ls) := by
        rcases hr.chain with hchain | ⟨l, hl, href⟩
        · exact hchain
        · exact absurd (hsub l hl) (href _ hr.flagged.nodup (List.Sublist.refl _))
      refine ⟨⟨hr.flagged.nodup, fun x => ⟨hr.mem x, ?_⟩, hsub⟩, ?_, hr.flagged⟩
      · rintro ⟨l, hl, hx⟩
        exact (hsub l hl).subset hx
      · intro a b hab
        have hpair := hchain.infix hab
        exact List.isChain_pair.mp hpair
  | case2 ordered composite lists r hzero hchanged ih =>
      have hmem : ∀ l ∈ lists, l.list ∈ ls := fun l hl => hls ▸ List.mem_map_of_mem hl
      obtain ⟨hr, _, hmap, hmerged⟩ := orderedListsMergeRound_spec lists h hmem hdone
      rw [orderedListsMergeLoop, if_neg hzero, if_pos hchanged] at hres ⊢
      exact ih hr (hmap.trans hls) hmerged hres
  | case3 ordered composite lists r hzero hchanged =>
      rw [orderedListsMergeLoop, if_neg hzero, if_neg hchanged] at hres
      exact absurd hres (by simp)

/-- Soundness of ordered-list merging: a composite list that is returned has no repeated
item, holds exactly the items of the lists, extends every list, has only neighbours that
are neighbours in some list, and is the only total order compatible with the lists. -/
theorem orderedListsMergeAll_sound (ls : List (List α)) (c : List α)
    (h : (orderedListsMergeAll (fun _ => false) ls).1 = some c) :
    c.Nodup ∧ (∀ x, x ∈ c ↔ ∃ l ∈ ls, x ∈ l) ∧ (∀ l ∈ ls, l.Sublist c) ∧
      (∀ a b, Adjacent c a b → ∃ l ∈ ls, Adjacent l a b) ∧
      ∀ d : List α, Extends ls d → d = c := by
  have hstart : Merging ls (fun _ => false) ([] : List α) :=
    ⟨⟨List.nodup_nil, by simp⟩, by simp, Or.inl List.IsChain.nil⟩
  have hlists : (ls.map fun l => OrderedList.mk false l).map OrderedList.list = ls := by
    simp [Function.comp_def]
  obtain ⟨hext, hadj, _⟩ := orderedListsMergeLoop_spec _ hstart hlists (by simp) h
  exact ⟨hext.nodup, hext.mem_iff, hext.sublist, hadj, fun d hd => (hext.unique hd hadj).symm⟩

theorem orderedListsMergeAll_sound_six_lists :
    let ls := [[1, 3], [1, 2, 3], [5, 6, 7], [3, 4, 5], [7, 8, 9], [0, 1]]
    (orderedListsMergeAll (fun _ => false) ls).1 = some [0, 1, 2, 3, 4, 5, 6, 7, 8, 9] ∧
      ∀ d : List Nat, Extends ls d → d = [0, 1, 2, 3, 4, 5, 6, 7, 8, 9] := by
  have h : (orderedListsMergeAll (fun _ => false)
      [[1, 3], [1, 2, 3], [5, 6, 7], [3, 4, 5], [7, 8, 9], [0, 1]]).1 =
      some [0, 1, 2, 3, 4, 5, 6, 7, 8, 9] := by decide +kernel
  exact ⟨h, (orderedListsMergeAll_sound _ _ h).2.2.2.2⟩

end Cil.Resolve.OrderedLists
