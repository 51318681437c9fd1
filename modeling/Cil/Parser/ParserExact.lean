/- Cil/Parser/ParserExact
   digest: What the parser accepts, and the tree that it builds. -/

import Cil.Parser.Layout

/-!
While the parser runs, the nodes on the way from the root to `current` are open. What is finished
in an open node stands between it and the next open one, so that the writes at the end of the
innermost list do not reach it.
-/

set_option autoImplicit false
set_option relaxedAutoImplicit false

namespace Cil.Parser

open Library.Nesting

/-- The open nodes of a reading: `p` is the innermost one, `ids` are its children so far, and
what is finished ends at `hi`. -/
inductive OpenPath (h : Heap) (path : Text) (tree : ParseTree) (top : List Expression) :
    List (Nat × List Expression) → Nat → List Nat → Nat → Prop
  | root {added : List Nat} {hi : Nat}
      (hspells : SpellsAll h path top added tree.heap.size hi) :
      OpenPath h path tree top [] tree.root (tree.previous ++ added) hi
  | inner {frames : List (Nat × List Expression)} {p n line hi : Nat} {ids ids' : List Nat}
      {ts : List Expression} (hpath : OpenPath h path tree top frames p ids n)
      (hchildren : Children h p (ids ++ [n])) (hlabel : Labelled h path n none line)
      (hspells : SpellsAll h path ts ids' (n + 1) hi) :
      OpenPath h path tree top ((line, ts) :: frames) n ids' hi

variable {h h' : Heap} {path : Text} {tree : ParseTree} {top : List Expression}
  {frames : List (Nat × List Expression)} {p hi : Nat} {ids : List Nat}

theorem OpenPath.bounds (hp : OpenPath h path tree top frames p ids hi) :
    tree.heap.size ≤ hi ∧ p < hi ∧ (∀ n ∈ ids, n < hi) ∧ p ∉ ids ∧
      ((p = tree.root ∧ ∃ added, ids = tree.previous ++ added ∧ ∀ n ∈ added, tree.heap.size ≤ n) ∨
        tree.heap.size ≤ p ∧ ∀ n ∈ ids, tree.heap.size ≤ n) := by
  induction hp with
  | @root added hi hspells =>
    obtain ⟨hle, hmem⟩ := SpellsAll.bounds top hspells
    have hroot := tree.root_lt
    refine ⟨hle, by omega, fun n hn => ?_, fun hn => ?_,
      Or.inl ⟨rfl, added, rfl, fun n hn => (hmem n hn).1⟩⟩
    · rcases List.mem_append.mp hn with hn | hn
      · have hlt := tree.previous_lt n hn
        omega
      · exact (hmem n hn).2
    · rcases List.mem_append.mp hn with hn | hn
      · exact tree.root_not_mem hn
      · have hbounds := hmem _ hn
        omega
  | @inner frames p n line hi ids ids' ts hpath hchildren hlabel hspells ih =>
    obtain ⟨hle, -⟩ := ih
    obtain ⟨hle', hmem⟩ := SpellsAll.bounds ts hspells
    refine ⟨by omega, by omega, fun m hm => (hmem m hm).2, fun hm => ?_, Or.inr ⟨hle, ?_⟩⟩
    · have hbounds := hmem _ hm
      omega
    · intro m hm
      have hbounds := hmem m hm
      omega

/-- What is written behind the open nodes leaves them as they are. -/
theorem OpenPath.frame (hp : OpenPath h path tree top frames p ids hi)
    (hsame : ∀ k, k < hi → h'.cells k = h.cells k) :
    OpenPath h' path tree top frames p ids hi := by
  induction hp with
  | @root added hi hspells =>
    refine .root (SpellsAll.frame top hspells (fun k _ hk => ?_) fun k _ hk _ => hsame k hk)
    exact SameButNext.of_eq (hsame k hk)
  | @inner frames p n line hi ids ids' ts hpath hchildren hlabel hspells ih =>
    obtain ⟨-, hlt, hmem, -⟩ := hpath.bounds
    obtain ⟨hle', -⟩ := SpellsAll.bounds ts hspells
    refine .inner (ih fun k hk => hsame k (by omega)) ?_ (hlabel.of_eq (hsame n (by omega))) ?_
    · refine hchildren.of_eq (hsame p (by omega)) fun m hm => ?_
      rcases List.mem_append.mp hm with hm | hm
      · have hless := hmem m hm
        exact hsame m (by omega)
      · rw [List.mem_singleton.mp hm]
        exact hsame n (by omega)
    · refine SpellsAll.frame ts hspells (fun k _ hk => ?_) fun k _ hk _ => hsame k hk
      exact SameButNext.of_eq (hsame k hk)

/-- A child that is appended to the innermost open node leaves the open nodes open. -/
theorem OpenPath.append (hp : OpenPath h path tree top frames p ids hi)
    (hchildren : SameButChildren h h' p)
    (hnext : ∀ k, k < hi → k ≠ p → SameButNext h h' k)
    (hsame : ∀ k, k < hi → k ≠ p → k ∉ ids → h'.cells k = h.cells k) :
    OpenPath h' path tree top frames p ids hi := by
  cases hp with
  | @root added _ hspells =>
    have hroot := tree.root_lt
    refine .root (SpellsAll.frame top hspells (fun k hlo hk => hnext k hk (by omega))
      fun k hlo hk hnot => hsame k hk (by omega) fun hmem => ?_)
    rcases List.mem_append.mp hmem with hmem | hmem
    · have hlt := tree.previous_lt k hmem
      omega
    · exact hnot hmem
  | @inner frames q n line _ ids₀ _ ts hpath hchildren₀ hlabel hspells =>
    obtain ⟨-, hlt, hmem, -⟩ := hpath.bounds
    obtain ⟨hle', hmem'⟩ := SpellsAll.bounds ts hspells
    have hbefore : ∀ k, k < p → h'.cells k = h.cells k := by
      intro k hk
      refine hsame k (by omega) (by omega) fun hk' => ?_
      have hbounds := hmem' k hk'
      omega
    refine .inner (hpath.frame hbefore) ?_ (hlabel.of_sameButChildren hchildren) ?_
    · have hq := hbefore q hlt
      refine hchildren₀.frame (by rw [hq]) (by rw [hq]) fun m hm => ?_
      rcases List.mem_append.mp hm with hm | hm
      · rw [hbefore m (hmem m hm)]
        exact ⟨rfl, rfl⟩
      · obtain ⟨clHead, clTail, heq⟩ := hchildren
        rw [List.mem_singleton.mp hm, heq]
        exact ⟨rfl, rfl⟩
    · exact SpellsAll.frame ts hspells (fun k hlo hk => hnext k hk (by omega))
        fun k hlo hk hnot => hsame k hk (by omega) hnot

/-- What is finished behind the open nodes becomes a child of the innermost one. -/
theorem OpenPath.add (hp : OpenPath h path tree top frames p ids hi) {t : Expression} {hi' : Nat}
    (ht : Spells h path t hi hi') :
    OpenPath h path tree (Reading.add ⟨top, frames⟩ t).top (Reading.add ⟨top, frames⟩ t).frames
      p (ids ++ [hi]) hi' := by
  cases hp with
  | @root added _ hspells =>
    rw [List.append_assoc]
    exact .root (hspells.snoc ht)
  | @inner frames q n line _ ids₀ _ ts hpath hchildren hlabel hspells =>
    exact .inner hpath hchildren hlabel (hspells.snoc ht)

/-- The nodes from before: only their root has got more children, and the last of its children
a next one. -/
structure Kept (tree : ParseTree) (h : Heap) : Prop where
  root : SameButChildren tree.heap h tree.root
  next : ∀ k, k < tree.heap.size → k ≠ tree.root → SameButNext tree.heap h k
  same : ∀ k, k < tree.heap.size → k ≠ tree.root → tree.previous.getLast? ≠ some k →
    h.cells k = tree.heap.cells k

/-- The state of the parser after a reading. -/
structure Reads (path : Text) (tree : ParseTree) (s : ParserState) (r : Reading Nat (Text × Nat)) :
    Prop where
  opened : ∃ current ids, s.current = some current ∧
    OpenPath s.heap path tree r.top r.frames current ids s.heap.size ∧
    Children s.heap current ids
  count : s.parenCount = r.frames.length
  kept : Kept tree s.heap

/-- A node that is added is the last child of the innermost open node; what was read stays. -/
theorem Reads.addNode {s : ParserState} {r : Reading Nat (Text × Nat)}
    (hr : Reads path tree s r) {x : TreeNode} (hparent : x.parent = s.current)
    (hnext : x.next = none) :
    ∃ h' current ids, addNode s x = .ok h' ∧ s.current = some current ∧
      OpenPath h' path tree r.top r.frames current ids s.heap.size ∧
      Children h' current (ids ++ [s.heap.size]) ∧ h'.size = s.heap.size + 1 ∧
      h'.cells s.heap.size = x ∧ Kept tree h' := by
  obtain ⟨current, ids, hcurrent, hopen, hchildren⟩ := hr.opened
  obtain ⟨hle, hlt, hmem, hnot, hwhere⟩ := hopen.bounds
  have hold : ∀ k, k < s.heap.size → (s.heap.alloc x).cells k = s.heap.cells k := by
    intro k hk
    have hne : k ≠ s.heap.size := by omega
    simp [Heap.alloc, hne]
  have hnew : (s.heap.alloc x).cells s.heap.size = x := by simp [Heap.alloc]
  have hchildren₁ : Children (s.heap.alloc x) current ids :=
    hchildren.of_eq (hold current hlt) fun m hm => hold m (hmem m hm)
  obtain ⟨h', happend, hsize, hchildren', hp', hnext', hsame'⟩ :=
    Heap.append_spec (n := s.heap.size) hchildren₁ hnot
      (fun hn => absurd (hmem _ hn) (Nat.lt_irrefl _)) (by omega)
      (by rw [hnew, hparent, hcurrent]) (by rw [hnew, hnext])
  have hsameS : ∀ k, k < s.heap.size → k ≠ current → k ∉ ids →
      h'.cells k = s.heap.cells k := by
    intro k hk hkp hkids
    rw [hsame' k hkp fun hlast => hkids (List.mem_of_getLast? hlast), hold k hk]
  have hnextS : ∀ k, k < s.heap.size → k ≠ current → SameButNext s.heap h' k := by
    intro k hk hkp
    exact (SameButNext.of_eq (hold k hk)).trans (hnext' k hkp)
  have hchildrenS : SameButChildren s.heap h' current :=
    (SameButChildren.of_eq (hold current hlt)).trans hp'
  refine ⟨h', current, ids, ?_, hcurrent, hopen.append hchildrenS hnextS hsameS, hchildren',
    hsize, ?_, ?_⟩
  · simp only [Parser.addNode, hcurrent, happend]
  · have hlast : ids.getLast? ≠ some s.heap.size := fun hlast =>
      absurd (hmem _ (List.mem_of_getLast? hlast)) (Nat.lt_irrefl _)
    rw [hsame' s.heap.size (by omega) hlast, hnew]
  · have hroot := tree.root_lt
    -- A node from before is the last child of the innermost open node only at the root.
    have hlast : ∀ k, k < tree.heap.size → ids.getLast? = some k →
        current = tree.root ∧ tree.previous.getLast? = some k := by
      intro k hk hlast
      have hmemk := List.mem_of_getLast? hlast
      rcases hwhere with ⟨hcur, added, hids, hadded⟩ | ⟨-, hids⟩
      · refine ⟨hcur, ?_⟩
        by_cases hnil : added = []
        · rw [hids, hnil, List.append_nil] at hlast
          exact hlast
        · rw [hids, List.getLast?_append_of_ne_nil _ hnil] at hlast
          have hge := hadded k (List.mem_of_getLast? hlast)
          omega
      · have hge := hids k hmemk
        omega
    have hcur : ∀ k, k < tree.heap.size → k ≠ tree.root → k ≠ current := by
      intro k hk hne heq
      rcases hwhere with ⟨hcur, -⟩ | ⟨hge, -⟩
      · exact hne (heq.trans hcur)
      · omega
    constructor
    · by_cases hrootcur : current = tree.root
      · rw [hrootcur] at hchildrenS
        exact hr.kept.root.trans hchildrenS
      · have hnotlast : ids.getLast? ≠ some tree.root := fun heq =>
          hrootcur (hlast tree.root hroot heq).1
        refine hr.kept.root.trans (SameButChildren.of_eq ?_)
        rw [hsame' tree.root (Ne.symm hrootcur) hnotlast, hold tree.root (by omega)]
    · intro k hk hne
      exact (hr.kept.next k hk hne).trans (hnextS k (by omega) (hcur k hk hne))
    · intro k hk hne hprevious
      have hnotlast : ids.getLast? ≠ some k := fun heq => hprevious (hlast k hk heq).2
      rw [hsame' k (hcur k hk hne) hnotlast, hold k (by omega), hr.kept.same k hk hne hprevious]

/-- What a token spells; comments spell nothing. -/
def piece (tok : Token) : Option (Piece Nat (Text × Nat)) :=
  match tok.type with
  | .oparen => some (.opening tok.line)
  | .cparen => some .closing
  | .symbol | .qstring => some (.leaf (tokenData tok, tok.line))
  | .comment | .endOfFile | .unknown => none

private theorem parserStep_string {s : ParserState} {tok : Token}
    (htype : tok.type = .symbol ∨ tok.type = .qstring) :
    parserStep path tok s =
      if s.parenCount = 0 then .error (.failure .err)
      else
        match addNode s (newNode path tok s.current (some (tokenData tok))) with
        | .error v => .error v
        | .ok h => .ok { s with heap := h } := by
  cases tok with
  | mk type value line =>
      rcases htype with htype | htype
      · change type = .symbol at htype
        subst htype
        rfl
      · change type = .qstring at htype
        subst htype
        rfl

/-- A string is read into the innermost open list. -/
theorem Reads.string {s : ParserState} {r : Reading Nat (Text × Nat)} (hr : Reads path tree s r)
    {tok : Token} (htype : tok.type = .symbol ∨ tok.type = .qstring) :
    (∀ r', r.step (.leaf (tokenData tok, tok.line)) = some r' →
      ∃ s', parserStep path tok s = .ok s' ∧ Reads path tree s' r') ∧
      (r.step (.leaf (tokenData tok, tok.line)) = none →
        parserStep path tok s = .error (.failure .err)) := by
  have hcount := hr.count
  rw [parserStep_string htype]
  cases hframes : r.frames with
  | nil =>
    have hzero : s.parenCount = 0 := by
      rw [hcount, hframes]
      rfl
    refine ⟨fun r' hstep => by simp [Reading.step, hframes] at hstep, fun _ => ?_⟩
    rw [if_pos hzero]
  | cons frame frames =>
    refine ⟨fun r' hstep => ?_, fun hstep => by simp [Reading.step, hframes] at hstep⟩
    simp only [Reading.step, hframes, Option.some.injEq] at hstep
    obtain ⟨h', current, ids, hadd, hcurrent, hopen, hchildren, hsize, hcell, hkept⟩ :=
      hr.addNode (x := newNode path tok s.current (some (tokenData tok))) rfl rfl
    have hopened : s.parenCount ≠ 0 := by
      rw [hframes, List.length_cons] at hcount
      omega
    refine ⟨{ s with heap := h' }, by rw [if_neg hopened, hadd], ?_, ?_, hkept⟩
    · refine ⟨current, ids ++ [s.heap.size], hcurrent, ?_, hchildren⟩
      rw [← hstep]
      refine hopen.add ⟨hsize, ?_, ?_⟩
      · constructor
        · rw [hcell]
          rfl
        · rw [hcell]
          rfl
        · rw [hcell]
          rfl
        · rw [hcell]
          rfl
      · constructor
        · rw [hcell]
          rfl
        · rw [hcell]
          rfl
        · trivial
        · exact fun m hm => (List.not_mem_nil hm).elim
    · rw [← hstep, Reading.add_frames]
      exact hcount

/-- One token is read as one piece, and the parser stops where the reading does. -/
theorem Reads.step {s : ParserState} {r : Reading Nat (Text × Nat)} (hr : Reads path tree s r)
    {tok : Token} {pc : Piece Nat (Text × Nat)} (hpiece : piece tok = some pc) :
    (∀ r', r.step pc = some r' → ∃ s', parserStep path tok s = .ok s' ∧ Reads path tree s' r') ∧
      (r.step pc = none → parserStep path tok s = .error (.failure .err)) := by
  obtain ⟨type, value, line⟩ := tok
  have hcount := hr.count
  cases type with
  | oparen =>
    obtain rfl := Option.some.inj hpiece
    refine ⟨fun r' hstep => ?_, fun hstep => by cases hstep⟩
    obtain rfl := Option.some.inj hstep
    obtain ⟨h', current, ids, hadd, hcurrent, hopen, hchildren, hsize, hcell, hkept⟩ :=
      hr.addNode (x := newNode path ⟨.oparen, value, line⟩ s.current none) rfl rfl
    refine ⟨⟨h', some s.heap.size, s.parenCount + 1⟩, by simp only [parserStep, hadd], ?_, ?_,
      hkept⟩
    · refine ⟨s.heap.size, [], rfl, ?_, ?_⟩
      · refine .inner hopen hchildren ?_ ⟨rfl, hsize.symm⟩
        constructor
        · rw [hcell]
          rfl
        · rw [hcell]
          rfl
        · rw [hcell]
          rfl
        · rw [hcell]
          rfl
      · constructor
        · rw [hcell]
          rfl
        · rw [hcell]
          rfl
        · trivial
        · exact fun m hm => (List.not_mem_nil hm).elim
    · simp only [List.length_cons]
      omega
  | cparen =>
    obtain rfl := Option.some.inj hpiece
    cases hframes : r.frames with
    | nil =>
      rw [hframes, List.length_nil] at hcount
      refine ⟨fun r' hstep => by simp [Reading.step, hframes] at hstep, fun _ => ?_⟩
      have hneg : s.parenCount - 1 < 0 := by omega
      simp only [parserStep, if_pos hneg]
    | cons frame frames =>
      obtain ⟨label, ts⟩ := frame
      rw [hframes, List.length_cons] at hcount
      refine ⟨fun r' hstep => ?_, fun hstep => by simp [Reading.step, hframes] at hstep⟩
      simp only [Reading.step, hframes, Option.some.injEq] at hstep
      obtain ⟨current, ids, hcurrent, hopen, hchildren⟩ := hr.opened
      rw [hframes] at hopen
      cases hopen with
      | @inner _ q n _ _ ids₀ _ _ hpath hchildren₀ hlabel hspells =>
        have hparent : (s.heap.cells current).parent = some q :=
          hchildren₀.parent current (List.mem_append_right _ (List.mem_singleton_self _))
        have hneg : ¬ s.parenCount - 1 < 0 := by omega
        refine ⟨{ s with current := some q, parenCount := s.parenCount - 1 }, ?_, ?_, ?_,
          hr.kept⟩
        · simp only [parserStep, if_neg hneg, hcurrent, hparent]
        · refine ⟨q, ids₀ ++ [current], rfl, ?_, hchildren₀⟩
          rw [← hstep]
          exact hpath.add ⟨hlabel, ids, hchildren, hspells⟩
        · rw [← hstep, Reading.add_frames]
          dsimp only
          omega
  | symbol =>
    obtain rfl := Option.some.inj hpiece
    exact hr.string (Or.inl rfl)
  | qstring =>
    obtain rfl := Option.some.inj hpiece
    exact hr.string (Or.inr rfl)
  | comment => cases hpiece
  | endOfFile => cases hpiece
  | unknown => cases hpiece

/-- What the tokens spell. -/
def pieces (toks : List Token) : List (Piece Nat (Text × Nat)) := toks.filterMap piece

private theorem parserStep_none (path : Text) (s : ParserState) {tok : Token}
    (hpiece : piece tok = none) (hend : tok.type ≠ .endOfFile) :
    (tok.type = .unknown ∧ parserStep path tok s = .error (.failure .err)) ∨
      (tok.type ≠ .unknown ∧ parserStep path tok s = .ok s) := by
  obtain ⟨type, value, line⟩ := tok
  cases type with
  | oparen => cases hpiece
  | cparen => cases hpiece
  | symbol => cases hpiece
  | qstring => cases hpiece
  | comment => exact Or.inr ⟨by simp, rfl⟩
  | endOfFile => exact absurd rfl hend
  | unknown => exact Or.inl ⟨rfl, rfl⟩

/-- A run of the parser succeeds if and only if no token is unknown and the pieces can be read
with no list left open; otherwise it returns an error. -/
theorem Reads.run {toks : List Token} {s : ParserState} {r : Reading Nat (Text × Nat)}
    (hr : Reads path tree s r) (hend : ∀ tok ∈ toks, tok.type ≠ .endOfFile) :
    (∃ s' r', parserRun path s toks = .ok s' ∧ (∀ tok ∈ toks, tok.type ≠ .unknown) ∧
      r.run (pieces toks) = some r' ∧ r'.frames = [] ∧ Reads path tree s' r') ∨
      (parserRun path s toks = .error (.failure .err) ∧
        ¬ ((∀ tok ∈ toks, tok.type ≠ .unknown) ∧
          ∃ r', r.run (pieces toks) = some r' ∧ r'.frames = [])) := by
  induction toks generalizing s r with
  | nil =>
    have hcount := hr.count
    by_cases hpos : s.parenCount > 0
    · refine Or.inr ⟨by rw [parserRun, if_pos hpos], fun hall => ?_⟩
      obtain ⟨-, r', hrun, hframes⟩ := hall
      have heq : r = r' := Option.some.inj hrun
      rw [heq, hframes, List.length_nil] at hcount
      omega
    · refine Or.inl ⟨s, r, by rw [parserRun, if_neg hpos], fun tok htok =>
        (List.not_mem_nil htok).elim, rfl, List.eq_nil_of_length_eq_zero (by omega), hr⟩
  | cons tok toks ih =>
    have hend' : ∀ tok ∈ toks, tok.type ≠ .endOfFile :=
      fun t ht => hend t (List.mem_cons_of_mem _ ht)
    cases hpiece : piece tok with
    | none =>
      have hpieces : pieces (tok :: toks) = pieces toks := List.filterMap_cons_none hpiece
      rw [hpieces]
      rcases parserStep_none path s hpiece (hend tok List.mem_cons_self) with
        ⟨hunknown, hstep⟩ | ⟨hknown, hstep⟩
      · refine Or.inr ⟨by rw [parserRun, hstep], fun hall => ?_⟩
        exact hall.1 tok List.mem_cons_self hunknown
      · rcases ih hr hend' with ⟨s', r', hrun, hall, hreading, hframes, hreads⟩ | ⟨hrun, hnot⟩
        · refine Or.inl ⟨s', r', by rw [parserRun, hstep]; exact hrun, ?_, hreading, hframes,
            hreads⟩
          exact List.forall_mem_cons.mpr ⟨hknown, hall⟩
        · refine Or.inr ⟨by rw [parserRun, hstep]; exact hrun, fun hall => hnot ⟨?_, hall.2⟩⟩
          exact fun t ht => hall.1 t (List.mem_cons_of_mem _ ht)
    | some pc =>
      have hpieces : pieces (tok :: toks) = pc :: pieces toks := List.filterMap_cons_some hpiece
      have hknown : tok.type ≠ .unknown := by
        intro hunknown
        simp [piece, hunknown] at hpiece
      obtain ⟨hgood, hbad⟩ := hr.step hpiece
      rw [hpieces]
      cases hread : r.step pc with
      | none =>
        refine Or.inr ⟨by rw [parserRun, hbad hread], fun hall => ?_⟩
        obtain ⟨-, r', hrun, -⟩ := hall
        rw [Reading.run, hread] at hrun
        cases hrun
      | some r₁ =>
        obtain ⟨s₁, hstep, hreads₁⟩ := hgood r₁ hread
        have hrun₁ : r.run (pc :: pieces toks) = r₁.run (pieces toks) := by
          rw [Reading.run, hread, Option.bind_some]
        rw [hrun₁]
        rcases ih hreads₁ hend' with ⟨s', r', hrun, hall, hreading, hframes, hreads⟩ | ⟨hrun, hnot⟩
        · refine Or.inl ⟨s', r', by rw [parserRun, hstep]; exact hrun, ?_, hreading, hframes,
            hreads⟩
          exact List.forall_mem_cons.mpr ⟨hknown, hall⟩
        · refine Or.inr ⟨by rw [parserRun, hstep]; exact hrun, fun hall => hnot ⟨?_, hall.2⟩⟩
          exact fun t ht => hall.1 t (List.mem_cons_of_mem _ ht)

/-- How many tokens open a list. -/
def opens (toks : List Token) : Nat := toks.countP (·.type = .oparen)

/-- How many tokens close a list. -/
def closes (toks : List Token) : Nat := toks.countP (·.type = .cparen)

/-- The tokens that the parser should accept. -/
structure Accepted (toks : List Token) : Prop where
  balanced : closes toks = opens toks
  prefixes : ∀ before after, toks = before ++ after → closes before ≤ opens before
  inside : ∀ before tok after, toks = before ++ tok :: after →
    tok.type = .symbol ∨ tok.type = .qstring → closes before < opens before
  known : ∀ tok ∈ toks, tok.type ≠ .unknown

theorem pieces_append (toks toks' : List Token) :
    pieces (toks ++ toks') = pieces toks ++ pieces toks' :=
  List.filterMap_append

theorem pieces_cons {tok : Token} {pc : Piece Nat (Text × Nat)} (h : piece tok = some pc)
    (toks : List Token) : pieces (tok :: toks) = pc :: pieces toks :=
  List.filterMap_cons_some h

private theorem pieces_silent {tok : Token} (h : piece tok = none) (toks : List Token) :
    pieces (tok :: toks) = pieces toks :=
  List.filterMap_cons_none h

private theorem depth_pieces (toks : List Token) :
    depth (pieces toks) = (opens toks : Int) - closes toks := by
  induction toks with
  | nil => rfl
  | cons tok toks ih =>
    obtain ⟨type, value, line⟩ := tok
    simp only [opens, closes, List.countP_cons] at ih ⊢
    cases type with
    | oparen =>
      rw [pieces_cons rfl, depth, ih]
      simp only [decide_true, if_true, reduceCtorEq, decide_false, Bool.false_eq_true, if_false]
      omega
    | cparen =>
      rw [pieces_cons rfl, depth, ih]
      simp only [decide_true, if_true, reduceCtorEq, decide_false, Bool.false_eq_true, if_false]
      omega
    | symbol =>
      rw [pieces_cons rfl, depth, ih]
      simp
    | qstring =>
      rw [pieces_cons rfl, depth, ih]
      simp
    | comment =>
      rw [pieces_silent rfl, ih]
      simp
    | endOfFile =>
      rw [pieces_silent rfl, ih]
      simp
    | unknown =>
      rw [pieces_silent rfl, ih]
      simp

private theorem piece_string {tok : Token} (h : tok.type = .symbol ∨ tok.type = .qstring) :
    piece tok = some (.leaf (tokenData tok, tok.line)) := by
  rcases h with h | h
  · simp only [piece, h]
  · simp only [piece, h]

/-- A piece that needs an open list is the closing of one, or a string. -/
private theorem piece_inside {tok : Token} {pc : Piece Nat (Text × Nat)} (h : piece tok = some pc)
    (hinside : pc.inside) :
    tok.type = .cparen ∨ tok.type = .symbol ∨ tok.type = .qstring := by
  obtain ⟨type, value, line⟩ := tok
  cases type with
  | oparen =>
    obtain rfl := Option.some.inj h
    exact hinside.elim
  | cparen => exact Or.inl rfl
  | symbol => exact Or.inr (Or.inl rfl)
  | qstring => exact Or.inr (Or.inr rfl)
  | comment => cases h
  | endOfFile => cases h
  | unknown => cases h

/-- A place in the spelling is a place in the tokens. -/
private theorem pieces_split {toks : List Token} {before after : List (Piece Nat (Text × Nat))}
    {pc : Piece Nat (Text × Nat)} (h : pieces toks = before ++ pc :: after) :
    ∃ before' tok after', toks = before' ++ tok :: after' ∧ pieces before' = before ∧
      piece tok = some pc := by
  obtain ⟨l, l', htoks, hl, hl'⟩ := List.filterMap_eq_append_iff.mp h
  obtain ⟨m, tok, m', hm, hnone, hpiece, -⟩ := List.filterMap_eq_cons_iff.mp hl'
  refine ⟨l ++ m, tok, m', by rw [htoks, hm, List.append_assoc], ?_, hpiece⟩
  have hsilent : pieces m = [] := List.filterMap_eq_nil_iff.mpr hnone
  rw [pieces_append, hsilent, List.append_nil]
  exact hl

/-- The pieces can be read with no list left open if and only if the tokens are balanced and no
string stands outside. -/
theorem run_pieces_iff (toks : List Token) :
    (∃ r', Reading.start.run (pieces toks) = some r' ∧ r'.frames = []) ↔
      closes toks = opens toks ∧
      (∀ before after, toks = before ++ after → closes before ≤ opens before) ∧
      ∀ before tok after, toks = before ++ tok :: after →
        tok.type = .symbol ∨ tok.type = .qstring → closes before < opens before := by
  constructor
  · intro hrun
    obtain ⟨r', hrun, hframes⟩ := hrun
    refine ⟨?_, fun before after hsplit => ?_, fun before tok after hsplit htype => ?_⟩
    · have hdepth := Reading.run_frames hrun
      rw [hframes, depth_pieces] at hdepth
      simp only [Reading.start, List.length_nil] at hdepth
      omega
    · rw [hsplit, pieces_append, Reading.run_append] at hrun
      obtain ⟨r₁, hbefore, -⟩ := Option.bind_eq_some_iff.mp hrun
      have hdepth := Reading.run_frames hbefore
      rw [depth_pieces] at hdepth
      simp only [Reading.start, List.length_nil] at hdepth
      omega
    · have hpos := (Reading.run_isSome _ _).mp ⟨r', hrun⟩ (pieces before)
        (.leaf (tokenData tok, tok.line)) (pieces after)
        (by rw [hsplit, pieces_append, pieces_cons (piece_string htype)]) trivial
      rw [depth_pieces] at hpos
      simp only [Reading.start, List.length_nil] at hpos
      omega
  · intro hall
    obtain ⟨hbalanced, hprefixes, hinside⟩ := hall
    have hread : ∃ r', Reading.start.run (pieces toks) = some r' := by
      refine (Reading.run_isSome _ _).mpr fun before pc after hsplit hpc => ?_
      obtain ⟨before', tok, after', htoks, hbefore, hpiece⟩ := pieces_split hsplit
      rw [← hbefore, depth_pieces]
      simp only [Reading.start, List.length_nil]
      rcases piece_inside hpiece hpc with hclose | hstring
      · have hle := hprefixes (before' ++ [tok]) after' (by rw [htoks]; simp)
        simp only [closes, opens, List.countP_append, List.countP_singleton, hclose] at hle ⊢
        simp only [decide_true, if_true, reduceCtorEq, decide_false, Bool.false_eq_true,
          if_false] at hle
        omega
      · have hlt := hinside before' tok after' htoks hstring
        omega
    obtain ⟨r', hrun⟩ := hread
    have hdepth := Reading.run_frames hrun
    rw [depth_pieces] at hdepth
    simp only [Reading.start, List.length_nil] at hdepth
    exact ⟨r', hrun, List.eq_nil_of_length_eq_zero (by omega)⟩

private theorem reads_start (path : Text) (tree : ParseTree) :
    Reads path tree ⟨tree.heap, some tree.root, 0⟩ Reading.start := by
  have hroot : OpenPath tree.heap path tree [] [] tree.root (tree.previous ++ []) tree.heap.size :=
    .root ⟨rfl, rfl⟩
  rw [List.append_nil] at hroot
  refine ⟨⟨tree.root, tree.previous, rfl, hroot, tree.children⟩, rfl, ?_, ?_, ?_⟩
  · exact SameButChildren.of_eq rfl
  · exact fun k _ _ => SameButNext.of_eq rfl
  · exact fun k _ _ _ => rfl

/-- The root has its children from before, and behind them the topmost nodes of the forest. The
nodes that are new say the forest, and those from before stay. -/
structure Built (path : Text) (tree : ParseTree) (forest : List Expression) (s : ParserState) :
    Prop where
  grown : ∃ added, Children s.heap tree.root (tree.previous ++ added) ∧
    SpellsAll s.heap path forest added tree.heap.size s.heap.size
  kept : Kept tree s.heap

/-- The parser accepts exactly the balanced buffers with all strings in parentheses and no
unknown token; otherwise it returns an error. It adds the only forest whose spelling the tokens
are to the children that the root has. -/
theorem cilParser_exact (path buffer : Text) (tree : ParseTree) :
    ((∃ s, cilParser path buffer tree = some (.ok s)) ↔ Accepted (tokens buffer)) ∧
      (¬ Accepted (tokens buffer) → cilParser path buffer tree = some (.error (.failure .err))) ∧
      ∀ s, cilParser path buffer tree = some (.ok s) →
        ∃ forest, flattenAll forest = pieces (tokens buffer) ∧
          (∀ other, flattenAll other = pieces (tokens buffer) → other = forest) ∧
          Built path tree forest s := by
  have hend : ∀ tok ∈ tokens buffer, tok.type ≠ .endOfFile := by
    intro tok htok heq
    have hshape := tokensFrom_shaped _ _ tok htok
    rw [heq] at hshape
    exact hshape
  rw [cilParser_eq]
  rcases (reads_start path tree).run hend with
    ⟨s, r, hrun, hknown, hreading, hframes, hreads⟩ | ⟨hrun, hnot⟩
  · have hiff := (run_pieces_iff (tokens buffer)).mp ⟨r, hreading, hframes⟩
    obtain ⟨hbalanced, hprefixes, hinside⟩ := hiff
    have haccepted : Accepted (tokens buffer) := ⟨hbalanced, hprefixes, hinside, hknown⟩
    refine ⟨⟨fun _ => haccepted, fun _ => ⟨s, by rw [hrun]⟩⟩, fun hno => absurd haccepted hno,
      fun s' hs' => ?_⟩
    rw [hrun] at hs'
    obtain rfl := Except.ok.inj (Option.some.inj hs')
    obtain ⟨current, ids, hcurrent, hopen, hchildren⟩ := hreads.opened
    have hspelled := Reading.run_spelled hreading
    rw [Reading.spelled, hframes] at hspelled
    have hflatten : flattenAll r.top = pieces (tokens buffer) := by
      simpa [Reading.start, Reading.spelled] using hspelled
    refine ⟨r.top, hflatten, fun other hother => flattenAll_injective (hother.trans
      hflatten.symm), ?_, hreads.kept⟩
    rw [hframes] at hopen
    cases hopen with
    | @root added _ hspells => exact ⟨added, hchildren, hspells⟩
  · have hno : ¬ Accepted (tokens buffer) := by
      intro haccepted
      refine hnot ⟨haccepted.known, (run_pieces_iff (tokens buffer)).mpr ?_⟩
      exact ⟨haccepted.balanced, haccepted.prefixes, haccepted.inside⟩
    refine ⟨⟨fun hs => ?_, fun hyes => absurd hyes hno⟩, fun _ => by rw [hrun], fun s hs => ?_⟩
    · obtain ⟨s, hs⟩ := hs
      rw [hrun] at hs
      cases hs
    · rw [hrun] at hs
      cases hs

end Cil.Parser
