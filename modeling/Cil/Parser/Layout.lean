/- Cil/Parser/Layout
   digest: The nodes that the parser makes, what they say, and what appending leaves as it is. -/

import Cil.Parser.Parser
import Cil.Library.Nesting

set_option autoImplicit false
set_option relaxedAutoImplicit false

namespace Cil.Parser

open Library.Nesting

/-- What a buffer says: lists with the line of their parenthesis, strings with theirs. -/
abbrev Expression := Nested Nat (Text × Nat)

/-- What a node says, apart from its place in the tree. -/
structure Labelled (h : Heap) (path : Text) (n : Nat) (data : Option Text) (line : Nat) :
    Prop where
  data : (h.cells n).data = data
  line : (h.cells n).line = line
  flavor : (h.cells n).flavor = .node
  path : (h.cells n).path = some path

mutual

/-- The nodes from `n` up to `hi` say the expression, and `n` is the topmost of them. -/
def Spells (h : Heap) (path : Text) : Expression → Nat → Nat → Prop
  | .leaf (data, line), n, hi =>
      hi = n + 1 ∧ Labelled h path n (some data) line ∧ Children h n []
  | .list line ts, n, hi =>
      Labelled h path n none line ∧ ∃ ids, Children h n ids ∧ SpellsAll h path ts ids (n + 1) hi

/-- The nodes from `lo` up to `hi` say the expressions, and `ids` are the topmost of them. -/
def SpellsAll (h : Heap) (path : Text) : List Expression → List Nat → Nat → Nat → Prop
  | [], ids, lo, hi => ids = [] ∧ lo = hi
  | t :: ts, ids, lo, hi =>
      ∃ mid rest, ids = lo :: rest ∧ Spells h path t lo mid ∧ SpellsAll h path ts rest mid hi

end

attribute [simp] Spells SpellsAll

/-- Only the link to the next sibling may be another one. -/
def SameButNext (h h' : Heap) (n : Nat) : Prop :=
  ∃ next, h'.cells n = { h.cells n with next := next }

/-- Only the links to the children may be others. -/
def SameButChildren (h h' : Heap) (n : Nat) : Prop :=
  ∃ clHead clTail, h'.cells n = { h.cells n with clHead := clHead, clTail := clTail }

theorem SameButNext.of_eq {h h' : Heap} {n : Nat} (heq : h'.cells n = h.cells n) :
    SameButNext h h' n :=
  ⟨(h.cells n).next, heq⟩

theorem SameButNext.trans {h₁ h₂ h₃ : Heap} {n : Nat} (h : SameButNext h₁ h₂ n)
    (h' : SameButNext h₂ h₃ n) : SameButNext h₁ h₃ n := by
  obtain ⟨next, heq⟩ := h
  obtain ⟨next', heq'⟩ := h'
  exact ⟨next', by rw [heq', heq]⟩

theorem SameButChildren.trans {h₁ h₂ h₃ : Heap} {n : Nat} (h : SameButChildren h₁ h₂ n)
    (h' : SameButChildren h₂ h₃ n) : SameButChildren h₁ h₃ n := by
  obtain ⟨clHead, clTail, heq⟩ := h
  obtain ⟨clHead', clTail', heq'⟩ := h'
  exact ⟨clHead', clTail', by rw [heq', heq]⟩

theorem SameButChildren.of_eq {h h' : Heap} {n : Nat} (heq : h'.cells n = h.cells n) :
    SameButChildren h h' n :=
  ⟨(h.cells n).clHead, (h.cells n).clTail, heq⟩

theorem Labelled.of_eq {h h' : Heap} {path : Text} {n : Nat} {data : Option Text} {line : Nat}
    (hl : Labelled h path n data line) (heq : h'.cells n = h.cells n) :
    Labelled h' path n data line := by
  constructor
  · rw [heq, hl.data]
  · rw [heq, hl.line]
  · rw [heq, hl.flavor]
  · rw [heq, hl.path]

private theorem Labelled.of_sameButNext {h h' : Heap} {path : Text} {n : Nat} {data : Option Text}
    {line : Nat} (hl : Labelled h path n data line) (hsame : SameButNext h h' n) :
    Labelled h' path n data line := by
  obtain ⟨next, heq⟩ := hsame
  constructor
  · rw [heq, ← hl.data]
  · rw [heq, ← hl.line]
  · rw [heq, ← hl.flavor]
  · rw [heq, ← hl.path]

theorem Labelled.of_sameButChildren {h h' : Heap} {path : Text} {n : Nat} {data : Option Text}
    {line : Nat} (hl : Labelled h path n data line) (hsame : SameButChildren h h' n) :
    Labelled h' path n data line := by
  obtain ⟨clHead, clTail, heq⟩ := hsame
  constructor
  · rw [heq, ← hl.data]
  · rw [heq, ← hl.line]
  · rw [heq, ← hl.flavor]
  · rw [heq, ← hl.path]

theorem Chained.frame {h h' : Heap} {ids : List Nat} (hc : Chained h ids)
    (hsame : ∀ n ∈ ids, (h'.cells n).next = (h.cells n).next) : Chained h' ids := by
  induction ids with
  | nil => trivial
  | cons n rest ih =>
    obtain ⟨hnext, hrest⟩ := hc
    refine ⟨?_, ih hrest fun m hm => hsame m (List.mem_cons_of_mem _ hm)⟩
    rw [hsame n List.mem_cons_self, hnext]

theorem Chained.last {h : Heap} {ids : List Nat} (hc : Chained h ids) {n : Nat}
    (hlast : ids.getLast? = some n) : (h.cells n).next = none := by
  induction ids with
  | nil => cases hlast
  | cons m rest ih =>
    obtain ⟨hnext, hrest⟩ := hc
    cases rest with
    | nil =>
      have heq : m = n := Option.some.inj hlast
      rw [← heq, hnext]
      rfl
    | cons k rest =>
      rw [List.getLast?_cons_cons] at hlast
      exact ih hrest hlast

/-- The chain gets longer by writing the link of its last node. -/
theorem Chained.snoc {h h' : Heap} {ids : List Nat} (hc : Chained h ids) {n : Nat}
    (hsame : ∀ k ∈ ids, ids.getLast? ≠ some k → (h'.cells k).next = (h.cells k).next)
    (hlast : ∀ k, ids.getLast? = some k → (h'.cells k).next = some n)
    (hnew : (h'.cells n).next = none) : Chained h' (ids ++ [n]) := by
  have hlinks : ∀ l, Chained h l → (∀ k ∈ l, k ∈ ids) → l.getLast? = ids.getLast? →
      Chained h' (l ++ [n]) := by
    intro l
    induction l with
    | nil =>
      intro _ _ _
      exact ⟨hnew, trivial⟩
    | cons m rest ih =>
      intro hl hsub hlasteq
      obtain ⟨hnext, hrest⟩ := hl
      cases rest with
      | nil =>
        refine ⟨?_, hnew, trivial⟩
        rw [hlast m (by rw [← hlasteq]; rfl)]
        rfl
      | cons k rest =>
        rw [List.getLast?_cons_cons] at hlasteq
        refine ⟨?_, ih hrest (fun j hj => hsub j (List.mem_cons_of_mem _ hj)) hlasteq⟩
        -- A node with a link is not the last one.
        have hnot : ids.getLast? ≠ some m := by
          intro hm
          have hnone := hc.last hm
          rw [hnext] at hnone
          cases hnone
        rw [hsame m (hsub m List.mem_cons_self) hnot, hnext]
        rfl
  exact hlinks ids hc (fun k hk => hk) rfl

theorem Children.frame {h h' : Heap} {p : Nat} {ids : List Nat} (hc : Children h p ids)
    (hhead : (h'.cells p).clHead = (h.cells p).clHead)
    (htail : (h'.cells p).clTail = (h.cells p).clTail)
    (hsame : ∀ n ∈ ids, (h'.cells n).next = (h.cells n).next ∧
      (h'.cells n).parent = (h.cells n).parent) : Children h' p ids := by
  constructor
  · rw [hhead, hc.head]
  · rw [htail, hc.tail]
  · exact hc.chained.frame fun n hn => (hsame n hn).1
  · intro n hn
    rw [(hsame n hn).2, hc.parent n hn]

/-- The children in a heap in which they and their parent are the same. -/
theorem Children.of_eq {h h' : Heap} {p : Nat} {ids : List Nat} (hc : Children h p ids)
    (hp : h'.cells p = h.cells p) (hsame : ∀ n ∈ ids, h'.cells n = h.cells n) :
    Children h' p ids :=
  hc.frame (by rw [hp]) (by rw [hp]) fun n hn => by
    rw [hsame n hn]
    exact ⟨rfl, rfl⟩

mutual

theorem Spells.lt {h : Heap} {path : Text} :
    (t : Expression) → {n hi : Nat} → Spells h path t n hi → n < hi
  | .leaf _, n, hi, hs => by
    have hhi : hi = n + 1 := hs.1
    omega
  | .list _ ts, n, hi, hs => by
    obtain ⟨-, ids, -, hall⟩ := hs
    have hle := (SpellsAll.bounds ts hall).1
    omega

theorem SpellsAll.bounds {h : Heap} {path : Text} :
    (ts : List Expression) → {ids : List Nat} → {lo hi : Nat} → SpellsAll h path ts ids lo hi →
      lo ≤ hi ∧ ∀ n ∈ ids, lo ≤ n ∧ n < hi
  | [], ids, lo, hi, hs => by
    obtain ⟨hids, hlo⟩ := hs
    rw [hids, hlo]
    exact ⟨Nat.le_refl _, fun n hn => (List.not_mem_nil hn).elim⟩
  | t :: ts, ids, lo, hi, hs => by
    obtain ⟨mid, rest, hids, hfirst, hrest⟩ := hs
    have hlt := Spells.lt t hfirst
    obtain ⟨hle, hmem⟩ := SpellsAll.bounds ts hrest
    refine ⟨by omega, fun n hn => ?_⟩
    rw [hids] at hn
    rcases List.mem_cons.mp hn with heq | hn
    · omega
    · have hbounds := hmem n hn
      omega

end

mutual

/-- What an expression's nodes say does not hang on the link behind the topmost one. -/
theorem Spells.frame {h h' : Heap} {path : Text} :
    (t : Expression) → {n hi : Nat} → Spells h path t n hi → SameButNext h h' n →
      (∀ k, n < k → k < hi → h'.cells k = h.cells k) → Spells h' path t n hi
  | .leaf _, n, hi, hs, hnext, _ => by
    obtain ⟨hhi, hlabel, hchildren⟩ := hs
    refine ⟨hhi, hlabel.of_sameButNext hnext, ?_⟩
    obtain ⟨next, heq⟩ := hnext
    exact hchildren.frame (by rw [heq]) (by rw [heq]) fun m hm => (List.not_mem_nil hm).elim
  | .list _ ts, n, hi, hs, hnext, hsame => by
    obtain ⟨hlabel, ids, hchildren, hall⟩ := hs
    obtain ⟨hle, hmem⟩ := SpellsAll.bounds ts hall
    refine ⟨hlabel.of_sameButNext hnext, ids, ?_, ?_⟩
    · obtain ⟨next, heq⟩ := hnext
      refine hchildren.frame (by rw [heq]) (by rw [heq]) fun m hm => ?_
      have hbounds := hmem m hm
      rw [hsame m (by omega) (by omega)]
      exact ⟨rfl, rfl⟩
    · refine SpellsAll.frame ts hall (fun k hlo hhi => ?_) (fun k hlo hhi _ => ?_)
      · exact SameButNext.of_eq (hsame k (by omega) hhi)
      · exact hsame k (by omega) hhi

theorem SpellsAll.frame {h h' : Heap} {path : Text} :
    (ts : List Expression) → {ids : List Nat} → {lo hi : Nat} → SpellsAll h path ts ids lo hi →
      (∀ k, lo ≤ k → k < hi → SameButNext h h' k) →
      (∀ k, lo ≤ k → k < hi → k ∉ ids → h'.cells k = h.cells k) →
      SpellsAll h' path ts ids lo hi
  | [], _, _, _, hs, _, _ => hs
  | t :: ts, ids, lo, hi, hs, hnext, hsame => by
    obtain ⟨mid, rest, hids, hfirst, hrest⟩ := hs
    have hlt := Spells.lt t hfirst
    obtain ⟨hle, hmem⟩ := SpellsAll.bounds ts hrest
    refine ⟨mid, rest, hids, ?_, ?_⟩
    · refine Spells.frame t hfirst (hnext lo (Nat.le_refl _) (by omega)) fun k hlo hhi => ?_
      refine hsame k (by omega) (by omega) fun hk => ?_
      rw [hids] at hk
      rcases List.mem_cons.mp hk with heq | hk
      · omega
      · have hbounds := hmem k hk
        omega
    · refine SpellsAll.frame ts hrest (fun k hlo hhi => hnext k (by omega) hhi)
        fun k hlo hhi hk => hsame k (by omega) hhi fun hmemk => ?_
      rw [hids] at hmemk
      rcases List.mem_cons.mp hmemk with heq | hmemk
      · omega
      · exact hk hmemk

end

theorem SpellsAll.snoc {h : Heap} {path : Text} {ts : List Expression} {ids : List Nat}
    {lo mid hi : Nat} (hs : SpellsAll h path ts ids lo mid) {t : Expression}
    (ht : Spells h path t mid hi) : SpellsAll h path (ts ++ [t]) (ids ++ [mid]) lo hi := by
  induction ts generalizing ids lo with
  | nil =>
    obtain ⟨hids, hlo⟩ := hs
    rw [hids, hlo]
    exact ⟨hi, [], rfl, ht, rfl, rfl⟩
  | cons u ts ih =>
    obtain ⟨m, rest, hids, hfirst, hrest⟩ := hs
    rw [hids]
    exact ⟨m, rest ++ [mid], rfl, hfirst, ih hrest⟩

@[simp]
theorem Heap.write_same (h : Heap) (n : Nat) (x : TreeNode) : (h.write n x).cells n = x := by
  simp [Heap.write]

@[simp]
theorem Heap.write_other {h : Heap} {n m : Nat} (hne : m ≠ n) (x : TreeNode) :
    (h.write n x).cells m = h.cells m := by
  simp [Heap.write, hne]

private theorem Heap.append_first {h : Heap} {p n : Nat} (hhead : (h.cells p).clHead = none) :
    h.append p n
      = some (h.write p { h.cells p with clHead := some n, clTail := some n }) := by
  simp [Heap.append, hhead, Heap.write]

private theorem Heap.append_later {h : Heap} {p n first last : Nat}
    (hhead : (h.cells p).clHead = some first) (htail : (h.cells p).clTail = some last)
    (hne : p ≠ last) :
    h.append p n
      = some ((h.write last { h.cells last with next := some n }).write p
          { h.cells p with clTail := some n }) := by
  simp [Heap.append, hhead, htail, hne]

/-- A new node becomes the last child. Besides its parent only the link of the child that was
the last one is written. -/
theorem Heap.append_spec {h : Heap} {p n : Nat} {ids : List Nat} (hc : Children h p ids)
    (hp : p ∉ ids) (hn : n ∉ ids) (hpn : p ≠ n) (hparent : (h.cells n).parent = some p)
    (hnext : (h.cells n).next = none) :
    ∃ h', h.append p n = some h' ∧ h'.size = h.size ∧ Children h' p (ids ++ [n]) ∧
      SameButChildren h h' p ∧ (∀ k, k ≠ p → SameButNext h h' k) ∧
      ∀ k, k ≠ p → ids.getLast? ≠ some k → h'.cells k = h.cells k := by
  have hnp : n ≠ p := Ne.symm hpn
  by_cases hids : ids = []
  · have hhead : (h.cells p).clHead = none := by
      rw [hc.head, hids]
      rfl
    refine ⟨_, Heap.append_first hhead, rfl, ?_, ?_, ?_, ?_⟩
    · rw [hids]
      constructor
      · rw [Heap.write_same]
        rfl
      · rw [Heap.write_same]
        rfl
      · refine ⟨?_, trivial⟩
        rw [Heap.write_other hnp, hnext]
        rfl
      · intro m hm
        rw [List.mem_singleton.mp hm, Heap.write_other hnp, hparent]
    · exact ⟨some n, some n, Heap.write_same _ _ _⟩
    · exact fun k hk => SameButNext.of_eq (Heap.write_other hk _)
    · exact fun k hk _ => Heap.write_other hk _
  · obtain ⟨first, rest, hcons⟩ := List.exists_cons_of_ne_nil hids
    obtain ⟨last, hlast⟩ : ∃ last, ids.getLast? = some last :=
      ⟨ids.getLast hids, List.getLast?_eq_some_getLast hids⟩
    have hhead : (h.cells p).clHead = some first := by
      rw [hc.head, hcons]
      rfl
    have htail : (h.cells p).clTail = some last := by rw [hc.tail, hlast]
    have hmem : last ∈ ids := List.mem_of_getLast? hlast
    have hpl : p ≠ last := fun heq => hp (heq ▸ hmem)
    have hnl : n ≠ last := fun heq => hn (heq ▸ hmem)
    have hlp : last ≠ p := Ne.symm hpl
    have hother : ∀ k, k ≠ p → k ≠ last →
        ((h.write last { h.cells last with next := some n }).write p
          { h.cells p with clTail := some n }).cells k = h.cells k := by
      intro k hk hkl
      rw [Heap.write_other hk, Heap.write_other hkl]
    have hlastcell :
        ((h.write last { h.cells last with next := some n }).write p
          { h.cells p with clTail := some n }).cells last
          = { h.cells last with next := some n } := by
      rw [Heap.write_other hlp, Heap.write_same]
    refine ⟨_, Heap.append_later hhead htail hpl, rfl, ?_, ?_, ?_, ?_⟩
    · constructor
      · rw [Heap.write_same, List.head?_append, ← hc.head, hhead]
        rfl
      · rw [Heap.write_same, List.getLast?_concat]
      · refine hc.chained.snoc (fun k hk hkl => ?_) (fun k hk => ?_) ?_
        · have hkp : k ≠ p := fun heq => hp (heq ▸ hk)
          have hkl' : k ≠ last := fun heq => hkl (heq ▸ hlast)
          rw [hother k hkp hkl']
        · rw [hlast] at hk
          rw [← Option.some.inj hk, hlastcell]
        · rw [hother n hnp hnl, hnext]
      · intro m hm
        rcases List.mem_append.mp hm with hm | hm
        · have hmp : m ≠ p := fun heq => hp (heq ▸ hm)
          by_cases hml : m = last
          · rw [hml, hlastcell]
            exact hc.parent last hmem
          · rw [hother m hmp hml, hc.parent m hm]
        · rw [List.mem_singleton.mp hm, hother n hnp hnl, hparent]
    · exact ⟨(h.cells p).clHead, some n, Heap.write_same _ _ _⟩
    · intro k hk
      by_cases hkl : k = last
      · rw [hkl]
        exact ⟨some n, hlastcell⟩
      · exact SameButNext.of_eq (hother k hk hkl)
    · intro k hk hkl
      exact hother k hk fun heq => hkl (heq ▸ hlast)

end Cil.Parser
