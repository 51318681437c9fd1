/- Cil/Resolve/OrderCheckExact
   digest: When the check of the order lists decides by the surviving statements alone. -/

import Cil.Resolve.OrderCheck
import Cil.Resolve.OrderedListsTied

set_option autoImplicit false
set_option relaxedAutoImplicit false

namespace Cil.Resolve.OrderCheck

open Cil.Resolve.OrderedLists

variable {δ : Type}

/-- A walk that changes nothing leaves the tree as it is. -/
private theorem prune_eq_of_unchanged (ast : Tree (NodeData δ)) (h : changed ast = false) :
    prune ast = ast := by
  cases ast with
  | node data children =>
    have hall : changesSiblings children = false → pruneSiblings children = children := by
      refine pruneSiblings.induct
        (fun ts => changesSiblings ts = false → pruneSiblings ts = ts)
        (fun t => changesNode t = false → pruneNode t = t) ?inner ?nil ?cons children
      case inner =>
        intro data children ih hunchanged
        rw [pruneNode]
        by_cases hskip : data.skipHead = true
        · rw [if_pos hskip]
        · simp only [changesNode, hskip, Bool.not_false, Bool.true_and, Bool.or_eq_false_iff]
            at hunchanged
          obtain ⟨hremoved, hbelow⟩ := hunchanged
          rw [if_neg hskip]
          by_cases hdis : data.disabled = true
          · rw [if_pos hdis]
            simp only [hdis, Bool.true_and, Bool.not_eq_false', List.isEmpty_iff] at hremoved
            rw [hremoved]
          · rw [if_neg hdis, ih hbelow]
      case nil =>
        intro _
        rfl
      case cons =>
        intro t ts iht ihts hunchanged
        simp only [changesSiblings, Bool.or_eq_false_iff] at hunchanged
        rw [pruneSiblings, iht hunchanged.1, ihts hunchanged.2]
    rw [prune, hall h]

variable [DecidableEq δ]

namespace State

variable (s : State δ)

/-- The order lists of the surviving statements merge, and name everything declared outside
macros and abstract blocks. -/
def InOrder : Prop :=
  ∀ kind, ∃ c, (orderedListsMergeAll (fun _ => false) (gathered (prune s.ast) kind)).1 = some c ∧
    ∀ d ∈ outside (prune s.ast) kind, d ∈ c

/-- The end of the pass decides by the statements that survive: it succeeds where they are in
order, stops with an error where they are not, and hands on no NULL list. -/
structure Exact : Prop where
  accepts : s.InOrder → ∃ db, misc1End s = .ok db ∧
    (changed s.ast = false → ∀ context,
      verifyInitsids context db.sidorder ≠ .error .nullDereference)
  refuses : ¬ s.InOrder → misc1End s = .error .err

/-- The surviving lists of a kind merge. -/
def Mergeable (kind : Kind) : Prop :=
  ∃ c, (orderedListsMergeAll (fun _ => false) (gathered (prune s.ast) kind)).1 = some c

omit [DecidableEq δ] in
/-- A surviving order statement names a declaration. -/
def Named (kind : Kind) (d : δ) : Prop := ∃ l ∈ gathered (prune s.ast) kind, d ∈ l

/-- What the order statements and the declarations are like where the end of the pass decides by
the surviving statements. -/
structure WellOrdered : Prop where
  /-- No order statement goes with an optional in this pass. -/
  kept : ∀ kind, gathered s.ast kind = gathered (prune s.ast) kind
  /-- None names a class map that an earlier run has marked, or what goes with an optional. -/
  unmarked : ∀ kind, ∀ l ∈ gathered s.ast kind, ∀ d ∈ l, s.ordered kind d = false
  /-- No category or sensitivity has the datum of an alias or a category set. -/
  unshared : ∀ kind, ∀ d ∈ declared (prune s.ast) kind, d ∉ foreign s.ast kind
  /-- Where everything outside macros and abstract blocks is named, so is what is in them. -/
  covered : (∀ kind, ∀ d ∈ outside (prune s.ast) kind, s.Named kind d) →
    ∀ kind, ∀ d ∈ declared (prune s.ast) kind, s.Named kind d
  categories : s.Mergeable .cat
  /-- Where lists do not merge, a declaration is in none that is tied to the first. -/
  tied : (∀ kind, s.Mergeable kind) ∨
    ∃ kind, ∃ d ∈ declared (prune s.ast) kind, ¬ Tied (gathered (prune s.ast) kind) d

/-- The gathered lists merge, from the marks that are there. -/
def Merges (kind : Kind) : Prop := s.composite kind ≠ none

/-- The four checks find every declaration of the tree marked. -/
def AllMarked : Prop := ∀ kind, ∀ d ∈ declared (prune s.ast) kind, s.marks kind d = true

variable {s}

omit [DecidableEq δ] in
private theorem verifyOrdered_ok_iff {ast : Tree (NodeData δ)} {ordered : Kind → δ → Bool}
    {kind : Kind} :
    verifyOrdered ast ordered kind = .ok () ↔ ∀ d ∈ declared ast kind, ordered kind d = true := by
  unfold verifyOrdered
  split_ifs with h
  · simpa using h
  · simpa using h

omit [DecidableEq δ] in
private theorem verifyOrdered_eq_ok_or_err (ast : Tree (NodeData δ)) (ordered : Kind → δ → Bool)
    (kind : Kind) :
    verifyOrdered ast ordered kind = .ok () ∨ verifyOrdered ast ordered kind = .error .err := by
  unfold verifyOrdered
  split_ifs
  · exact Or.inl rfl
  · exact Or.inr rfl

/-- Category lists that do not merge reach `cil_set_cat_values` as NULL. -/
private theorem misc1End_of_not_merges (h : ¬ s.Merges .cat) :
    misc1End s = .error .nullDereference := by
  have hnone : s.composite .cat = none := not_not.mp h
  simp only [misc1End, hnone, setCatValues]
  rfl

private theorem misc1End_of_allMarked (h : s.Merges .cat) (hall : s.AllMarked) :
    ∃ db, misc1End s = .ok db ∧ db.sidorder = s.composite .sid := by
  obtain ⟨cats, hcats⟩ := Option.ne_none_iff_exists'.mp h
  have hok : ∀ kind, verifyOrdered (prune s.ast) s.marks kind = .ok () :=
    fun kind => verifyOrdered_ok_iff.mpr (hall kind)
  simp only [misc1End, hcats, setCatValues, hok]
  exact ⟨_, rfl, rfl⟩

private theorem misc1End_of_not_allMarked (h : s.Merges .cat) (hall : ¬ s.AllMarked) :
    misc1End s = .error .err := by
  obtain ⟨cats, hcats⟩ := Option.ne_none_iff_exists'.mp h
  simp only [misc1End, hcats, setCatValues]
  -- the checks before the first one that fails pass
  rcases verifyOrdered_eq_ok_or_err (prune s.ast) s.marks .sid with hsid | hsid
  · rcases verifyOrdered_eq_ok_or_err (prune s.ast) s.marks .kernelClass with hclass | hclass
    · rcases verifyOrdered_eq_ok_or_err (prune s.ast) s.marks .cat with hcat | hcat
      · rcases verifyOrdered_eq_ok_or_err (prune s.ast) s.marks .sens with hsens | hsens
        · refine absurd (fun kind => ?_) hall
          cases kind with
          | sid => exact verifyOrdered_ok_iff.mp hsid
          | kernelClass => exact verifyOrdered_ok_iff.mp hclass
          | cat => exact verifyOrdered_ok_iff.mp hcat
          | sens => exact verifyOrdered_ok_iff.mp hsens
        · simp only [hsid, hclass, hcat, hsens]
          rfl
      · simp only [hsid, hclass, hcat]
        rfl
    · simp only [hsid, hclass]
      rfl
  · simp only [hsid]
    rfl

omit [DecidableEq δ] in
private theorem verifyInitsids_ne_null (context : δ → Bool) (sids : List δ) :
    verifyInitsids context (some sids) ≠ .error .nullDereference := by
  cases sids with
  | nil => simp [verifyInitsids]
  | cons sid rest =>
      simp only [verifyInitsids]
      split_ifs <;> simp

omit [DecidableEq δ] in
/-- In a pass without removals no SID is marked before the merge. -/
private theorem ordered_sid_of_unchanged (h : changed s.ast = false) :
    s.ordered .sid = fun _ => false := by
  funext d
  by_contra hmark
  rcases s.fresh .sid d (by simpa using hmark) with hforeign | ⟨hnot, hd | ⟨hkind, _⟩⟩
  · obtain ⟨x, _, hx⟩ := List.mem_filterMap.mp hforeign
    cases hx
  · rw [prune_eq_of_unchanged s.ast h] at hnot
    exact hnot hd
  · cases hkind

/-- In order and unchanged, the merge of the SIDs has a composite list to hand on. -/
private theorem InOrder.sidorder_ne_none (h : s.InOrder) (hun : changed s.ast = false) :
    ∃ sids, s.composite .sid = some sids := by
  obtain ⟨c, hc, _⟩ := h .sid
  refine ⟨c, ?_⟩
  rw [prune_eq_of_unchanged s.ast hun] at hc
  rw [State.composite, ordered_sid_of_unchanged hun]
  exact hc

end State

/-- The end of the pass decides by the marks, once the category lists merge. -/
theorem exact_iff {s : State δ} : s.Exact ↔ s.Merges .cat ∧ (s.InOrder ↔ s.AllMarked) := by
  constructor
  · intro h
    have hcats : s.Merges .cat := by
      by_contra hnot
      have hnull := State.misc1End_of_not_merges hnot
      by_cases hin : s.InOrder
      · obtain ⟨db, hdb, _⟩ := h.accepts hin
        rw [hnull] at hdb
        cases hdb
      · have herr := h.refuses hin
        rw [hnull] at herr
        cases herr
    refine ⟨hcats, fun hin => ?_, fun hall => ?_⟩
    · obtain ⟨db, hdb, _⟩ := h.accepts hin
      by_contra hall
      rw [State.misc1End_of_not_allMarked hcats hall] at hdb
      cases hdb
    · by_contra hin
      obtain ⟨db, hdb, _⟩ := State.misc1End_of_allMarked hcats hall
      rw [h.refuses hin] at hdb
      cases hdb
  · intro h
    obtain ⟨hcats, hiff⟩ := h
    refine ⟨fun hin => ?_, fun hin => ?_⟩
    · obtain ⟨db, hdb, hsid⟩ := State.misc1End_of_allMarked hcats (hiff.mp hin)
      refine ⟨db, hdb, fun hun context => ?_⟩
      obtain ⟨sids, hsids⟩ := hin.sidorder_ne_none hun
      rw [hsid, hsids]
      exact State.verifyInitsids_ne_null context sids
    · exact State.misc1End_of_not_allMarked hcats fun hall => hin (hiff.mpr hall)

omit [DecidableEq δ] in
private theorem outside_subset_declared {ast : Tree (NodeData δ)} {kind : Kind} {d : δ}
    (h : d ∈ outside ast kind) : d ∈ declared ast kind := by
  obtain ⟨x, hx, hd⟩ := List.mem_filterMap.mp h
  obtain ⟨above, hnode, _⟩ := Tree.mem_walk.mp hx
  exact List.mem_filterMap.mpr ⟨x, Tree.mem_walk.mpr ⟨above, hnode, fun _ _ => rfl⟩, hd⟩

namespace State

variable {s : State δ}

/-- In the declarations of the tree the merge starts from clear marks. -/
private theorem WellOrdered.marks_iff (h : s.WellOrdered) {kind : Kind} {d : δ}
    (hd : d ∈ declared (prune s.ast) kind) : s.marks kind d = true ↔
      (orderedListsMergeAll (fun _ => false) (gathered (prune s.ast) kind)).2 d = true := by
  have hclear : s.ordered kind d = false := by
    by_contra hmark
    rcases s.fresh kind d (by simpa using hmark) with hforeign | ⟨hnot, _⟩
    · exact h.unshared kind d hd hforeign
    · exact hnot hd
  rw [State.marks, orderedListsMergeAll_masked (h.unmarked kind), ← h.kept kind]
  simp [masked, hclear]

private theorem WellOrdered.composite_eq (h : s.WellOrdered) (kind : Kind) :
    s.composite kind =
      (orderedListsMergeAll (fun _ => false) (gathered (prune s.ast) kind)).1 := by
  rw [State.composite, orderedListsMergeAll_masked (h.unmarked kind), h.kept kind]

/-- Where the lists merge, what they name is marked. -/
private theorem WellOrdered.marks_iff_named (h : s.WellOrdered) {kind : Kind} {d : δ}
    (hmerge : s.Mergeable kind) (hd : d ∈ declared (prune s.ast) kind) :
    s.marks kind d = true ↔ s.Named kind d := by
  obtain ⟨c, hc⟩ := hmerge
  rw [h.marks_iff hd, (orderedListsMergeAll_marks hc).1 d]
  simp [Named]

private theorem WellOrdered.allMarked (h : s.WellOrdered) (hin : s.InOrder) : s.AllMarked := by
  have hnamed : ∀ kind, ∀ d ∈ outside (prune s.ast) kind, s.Named kind d := by
    intro kind d hd
    obtain ⟨c, hc, hall⟩ := hin kind
    exact ((orderedListsMergeAll_marks hc).2 d).mp (hall d hd)
  intro kind d hd
  obtain ⟨c, hc, _⟩ := hin kind
  exact (h.marks_iff_named ⟨c, hc⟩ hd).mpr (h.covered hnamed kind d hd)

theorem WellOrdered.inOrder (h : s.WellOrdered) (hall : s.AllMarked) : s.InOrder := by
  rcases h.tied with hmerge | ⟨kind, d, hd, hloose⟩
  · intro kind
    obtain ⟨c, hc⟩ := hmerge kind
    refine ⟨c, hc, fun d hd => ?_⟩
    have hdecl := outside_subset_declared hd
    have hmark := hall kind d hdecl
    exact ((orderedListsMergeAll_marks hc).2 d).mpr ((h.marks_iff_named ⟨c, hc⟩ hdecl).mp hmark)
  · exact absurd (orderedListsMergeAll_tied ((h.marks_iff hd).mp (hall kind d hd))) hloose

end State

/-- The end of the pass decides by the surviving statements where these are well ordered. -/
theorem misc1End_exact (s : State δ) (h : s.WellOrdered) : s.Exact := by
  refine exact_iff.mpr ⟨?_, h.allMarked, h.inOrder⟩
  obtain ⟨c, hc⟩ := h.categories
  rw [State.Merges, h.composite_eq, hc]
  simp

/-- Two SIDs and a category in a block, with order statements that overlap; a category in a macro
that is named too. -/
def orderedPolicy : State Nat where
  ast := .node .other [
    .node (.decl .sid 0) [], .node (.decl .sid 1) [],
    .node (.order .sid (some [0, 1])) [], .node (.order .sid (some [1])) [],
    .node (.block false) [.node (.decl .cat 2) []],
    .node .macroDef [.node (.decl .cat 3) []],
    .node (.order .cat (some [2, 3])) []]
  ordered _ _ := false
  fresh _ _ h := absurd h Bool.false_ne_true

theorem orderedPolicy_exact : orderedPolicy.Exact := by
  have hmerge (kind : Kind) : orderedPolicy.Mergeable kind := by
    cases kind with
    | sid => exact ⟨[0, 1], by decide +kernel⟩
    | kernelClass => exact ⟨[], by decide +kernel⟩
    | cat => exact ⟨[2, 3], by decide +kernel⟩
    | sens => exact ⟨[], by decide +kernel⟩
  refine misc1End_exact orderedPolicy ⟨?_, fun _ _ _ _ _ => rfl, ?_, ?_, hmerge .cat, Or.inl hmerge⟩
  · intro kind
    cases kind <;> rfl
  · intro kind d _
    cases kind <;> exact List.not_mem_nil
  · intro _ kind d hd
    cases kind with
    | sid => exact ⟨[0, 1], by decide, hd⟩
    | kernelClass => cases hd
    | cat => exact ⟨[2, 3], by decide, hd⟩
    | sens => cases hd

/-- Two `categoryorder` statements that contradict each other. -/
def conflictingCategories : State Nat where
  ast := .node .other [
    .node (.decl .cat 0) [],
    .node (.decl .cat 1) [],
    .node (.order .cat (some [0, 1])) [],
    .node (.order .cat (some [1, 0])) []]
  ordered _ _ := false
  fresh _ _ h := absurd h Bool.false_ne_true

theorem conflictingCategories_not_exact :
    misc1End conflictingCategories = .error .nullDereference ∧ ¬ conflictingCategories.Exact := by
  have hlists : gathered conflictingCategories.ast .cat = [[0, 1], [1, 0]] := rfl
  have hnone : (orderedListsMergeAll (fun _ => false) [[0, 1], [1, 0]]).1 = none := by
    decide +kernel
  have hnull : misc1End conflictingCategories = .error .nullDereference := by
    apply State.misc1End_of_not_merges
    intro hmerges
    have hcomposite : conflictingCategories.composite .cat ≠ none := hmerges
    rw [State.composite, hlists] at hcomposite
    exact hcomposite hnone
  refine ⟨hnull, fun hexact => ?_⟩
  have hin : ¬ conflictingCategories.InOrder := by
    intro hin
    obtain ⟨c, hc, _⟩ := hin .cat
    exact absurd (hnone.symm.trans hc) (by simp)
  have herr := hexact.refuses hin
  rw [hnull] at herr
  cases herr

end Cil.Resolve.OrderCheck
