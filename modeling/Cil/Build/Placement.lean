/- Cil/Build/Placement
   digest: Which statements are checked against the constructs around them. -/

import Cil.Build.Statements

set_option autoImplicit false
set_option relaxedAutoImplicit false

namespace Cil.Build

section Syntaxes

/-- A syntax of strings alone. -/
def StringsOnly (s : Syn) : Prop := s.list = false ∧ s.emptyList = false ∧ s.nLists = false

private theorem isString_of_takes {s : Syn} {n : ParseNode} (hs : StringsOnly s)
    (h : s.takes n = true) :
    n.isString = true := by
  obtain ⟨hlist, hempty, _⟩ := hs
  simp only [Syn.takes, hlist, hempty, Bool.false_and, Bool.or_false, Bool.and_eq_true] at h
  exact h.2

private theorem isString_of_repeats {s : Syn} {n : ParseNode} (hs : StringsOnly s)
    (h : s.repeats n = true) : n.isString = true := by
  obtain ⟨_, _, hlists⟩ := hs
  simp only [Syn.repeats, hlists, Bool.false_and, Bool.false_or, Bool.and_eq_true] at h
  exact h.2

private theorem verifyElement_strings {next : Nat → List ParseNode → Bool} {s : Syn}
    (hs : StringsOnly s)
    (hnext : ∀ extras nodes, next extras nodes = true → ∀ n ∈ nodes, n.isString = true)
    (nodes : List ParseNode) : ∀ extras, verifyElement next s extras nodes = true →
      ∀ n ∈ nodes, n.isString = true := by
  induction nodes with
  | nil => exact fun _ _ n hn => (List.not_mem_nil hn).elim
  | cons m rest ih =>
      intro extras h n hn
      rw [verifyElement] at h
      by_cases hrepeats : s.repeats m = true
      · rw [if_pos hrepeats] at h
        rcases List.mem_cons.mp hn with heq | hrest
        · rw [heq]
          exact isString_of_repeats hs hrepeats
        · exact ih (extras + 1) h n hrest
      · rw [if_neg hrepeats, Bool.and_eq_true] at h
        rcases List.mem_cons.mp hn with heq | hrest
        · rw [heq]
          exact isString_of_takes hs h.1
        · exact hnext extras rest h.2 n hrest

/-- A statement with a syntax of strings up to its end has no lists. -/
private theorem verifyElements_strings {syn : List Syn} (hsyn : ∀ s ∈ syn, StringsOnly s) :
    ∀ extras nodes, verifyElements (syn ++ [endSyn]) extras nodes = true →
      ∀ n ∈ nodes, n.isString = true := by
  induction syn with
  | nil =>
      intro extras nodes h n hn
      have hnil : nodes = [] := verifyElement_stop.mp h
      rw [hnil] at hn
      exact (List.not_mem_nil hn).elim
  | cons s rest ih =>
      intro extras nodes h
      rw [List.cons_append, verifyElements] at h
      exact verifyElement_strings (hsyn s List.mem_cons_self)
        (ih fun s hs => hsyn s (List.mem_cons_of_mem _ hs)) nodes extras h

/-- The second node is a string, and the rest is left to the other elements. -/
theorem verifySyntax_name {syn : List Syn} {kw : String} {rest : List ParseNode}
    (h : verifySyntax (stringSyn :: stringSyn :: syn) (.string kw :: rest) = true) :
    ∃ name rest', rest = .string name :: rest' ∧ verifyElements syn 0 rest' = true := by
  obtain ⟨c, nodes, heq, -, h⟩ := (verifyElement_one ⟨rfl, rfl, rfl⟩).mp h
  cases heq
  obtain ⟨n, rest', heq, htakes, h⟩ := (verifyElement_one ⟨rfl, rfl, rfl⟩).mp h
  have hstring : n.isString = true :=
    isString_of_takes (s := stringSyn) ⟨rfl, rfl, rfl⟩ htakes
  cases n with
  | string name => exact ⟨name, rest', heq, h⟩
  | list children => cases hstring

private theorem stringsOnly_replicate (n : Nat) :
    ∀ s ∈ List.replicate n stringSyn, StringsOnly s := by
  intro s hs
  rw [List.eq_of_mem_replicate hs]
  exact ⟨rfl, rfl, rfl⟩

private theorem statementsAfter_strings {nodes : List ParseNode}
    (h : ∀ n ∈ nodes, n.isString = true) : statementsAfter 0 nodes = [] := by
  induction nodes with
  | nil => simp [statementsAfter]
  | cons n rest ih =>
      have hn := h n List.mem_cons_self
      cases n with
      | string s =>
          rw [statementsAfter, ih fun m hm => h m (List.mem_cons_of_mem _ hm)]
          simp [statementOf]
      | list children => cases hn

private theorem statementsAfter_string (name : String) (rest : List ParseNode) :
    statementsAfter 0 (.string name :: rest) = statementsAfter 0 rest := by
  rw [statementsAfter]
  simp [statementOf]

private theorem statementsAfter_drop (k : Nat) (nodes : List ParseNode) :
    statementsAfter k nodes = statementsAfter 0 (nodes.drop k) := by
  induction k generalizing nodes with
  | zero => rfl
  | succ k ih =>
      cases nodes with
      | nil => simp [statementsAfter]
      | cons n rest =>
          rw [statementsAfter, List.drop_succ_cons]
          exact ih rest

/-- The statements in a statement, as the definition of the statements of the input has them. -/
def contents (kw : String) (rest : List ParseNode) : List (Tree Label) :=
  match operandsBefore kw with
  | some k => statementsAfter k rest
  | none => ((generated kw (.string kw :: rest)).getD []).map fun p => .node (.perm p) []

private theorem statementOf_list (kw : String) (rest : List ParseNode) :
    statementOf (.list (.string kw :: rest)) =
      [.node (.statement kw) (contents kw rest)] := by
  cases hbefore : operandsBefore kw with
  | none => simp only [statementOf, contents, hbefore]
  | some k => simp only [statementOf, contents, hbefore]

private theorem skipping_spec : ∀ kw ∈ skippingKeywords,
    operandsBefore kw = none ∧ ∀ preserve, contextOf preserve (.statement kw) = none := by
  decide

private theorem generated_other {kw : String} (h : kw ∉ skippingKeywords)
    (statement : List ParseNode) :
    generated kw statement = some [] := by
  have hkw : ¬ (kw = "class" ∨ kw = "common" ∨ kw = "classmap") := by
    intro heq
    rcases heq with heq | heq | heq
    · exact h (heq ▸ by decide)
    · exact h (heq ▸ by decide)
    · exact h (heq ▸ by decide)
  unfold generated
  rw [if_neg hkw]

/-- What the walk goes on into are the nodes of the statements in the statement. -/
private theorem contents_spliced {kw : String} {rest : List ParseNode} {syn : List Syn}
    (hskip : kw ∉ skippingKeywords) (hsyn : syntaxOf kw = some syn)
    (h : verifySyntax syn (.string kw :: rest) = true) :
    contents kw rest = statementsAfter 0 (spliced kw rest) := by
  by_cases hscope : kw = "block" ∨ kw = "optional" ∨ kw = "in"
  · have hspliced : spliced kw rest = rest := by
      rcases hscope with heq | heq | heq <;> simp [heq, spliced]
    have hname : ∃ name rest', rest = .string name :: rest' := by
      rcases hscope with heq | heq | heq
      · rw [heq] at hsyn h
        cases hsyn
        obtain ⟨name, rest', hrest, _⟩ := verifySyntax_name h
        exact ⟨name, rest', hrest⟩
      · rw [heq] at hsyn h
        cases hsyn
        obtain ⟨name, rest', hrest, _⟩ := verifySyntax_name h
        exact ⟨name, rest', hrest⟩
      · rw [heq] at hsyn h
        cases hsyn
        obtain ⟨name, rest', hrest, _⟩ := verifySyntax_name h
        exact ⟨name, rest', hrest⟩
    obtain ⟨name, rest', hrest⟩ := hname
    have hbefore : operandsBefore kw = some 1 := if_pos hscope
    rw [hspliced, contents, hbefore, hrest, statementsAfter_string]
    simp only [statementsAfter]
  · by_cases hdefined : kw = "macro"
    · rw [hdefined] at hsyn h
      cases hsyn
      obtain ⟨name, rest', hrest, hparams⟩ := verifySyntax_name h
      obtain ⟨params, content, hrest', -⟩ := (verifyElement_one ⟨rfl, rfl, rfl⟩).mp hparams
      have hbefore : operandsBefore kw = some 2 := by simp [hdefined, operandsBefore]
      have hspliced : spliced kw rest = .string name :: content := by
        simp [hdefined, spliced, hrest, hrest']
      rw [hspliced, contents, hbefore, hrest, hrest', statementsAfter_string]
      simp only [statementsAfter]
    · by_cases hcond : kw = "booleanif" ∨ kw = "tunableif"
      · have hbefore : operandsBefore kw = some 1 := by
          rcases hcond with heq | heq <;> simp [heq, operandsBefore]
        have hspliced : spliced kw rest = rest.drop 1 := by
          rcases hcond with heq | heq <;> simp [heq, spliced]
        rw [hspliced, contents, hbefore]
        exact statementsAfter_drop 1 rest
      · have hspliced : spliced kw rest = rest := by
          rw [spliced, if_neg hdefined, if_neg hcond]
        by_cases hblock : kw = "true" ∨ kw = "false"
        · have hbefore : operandsBefore kw = some 0 := by
            rcases hblock with heq | heq <;> simp [heq, operandsBefore]
          rw [hspliced, contents, hbefore]
        · have hbefore : operandsBefore kw = none := by
            rw [operandsBefore, if_neg hscope, if_neg hdefined, if_neg hcond, if_neg hblock]
          have hstrings : ∀ n ∈ ParseNode.string kw :: rest, n.isString = true := by
            have hscope' : ¬ (kw = "block" ∨ kw = "optional") := by
              intro heq
              exact hscope (heq.elim Or.inl fun h => Or.inr (Or.inl h))
            have hin : kw ≠ "in" := fun heq => hscope (Or.inr (Or.inr heq))
            rw [syntaxOf, if_neg hscope', if_neg hin, if_neg hdefined, if_neg hcond,
              if_neg hblock] at hsyn
            by_cases htransition : kw = "typetransition"
            · rw [if_pos htransition] at hsyn
              cases hsyn
              refine verifyElements_strings ?_ 0 _ h
              intro s hs
              rcases List.mem_append.mp hs with hs | hs
              · exact stringsOnly_replicate 5 s hs
              · rw [List.mem_singleton.mp hs]
                exact ⟨rfl, rfl, rfl⟩
            · rw [if_neg htransition] at hsyn
              obtain ⟨n, -, heq⟩ := Option.map_eq_some_iff.mp hsyn
              rw [← heq] at h
              exact verifyElements_strings (stringsOnly_replicate (n + 1)) 0 _ h
          rw [hspliced, contents, hbefore, generated_other hskip, statementsAfter_strings
            fun n hn => hstrings n (List.mem_cons_of_mem _ hn)]
          rfl

end Syntaxes

section Pointers

variable (preserve : Bool) (c : Context)

/-- Whether the pointer for a construct is set for nodes of the label. -/
def opens (label : Label) : Bool := contextOf preserve label = some c

/-- Whether a node of the label is refused while the pointer is set. -/
def refused : Label → Bool
  | .statement kw => forbidden c kw
  | _ => false

mutual

/-- What becomes of one of the pointers over siblings: `parent` tells whether it is set for
their parent, and `first` whether that has no child yet. -/
def passSiblings (parent : Bool) : Bool → List (Tree Label) → Bool → Option Bool
  | _, [], ptr => some ptr
  | first, t :: ts, ptr =>
      match passNode parent first t ptr with
      | none => none
      | some ptr => passSiblings parent false ts ptr

def passNode (parent first : Bool) : Tree Label → Bool → Option Bool
  | .node label children, ptr =>
      if ptr && refused c label then none
      else
        match passSiblings (opens preserve c label) true children (ptr || parent && first) with
        | none => none
        | some ptr => some (ptr && !opens preserve c label)

end

attribute [simp] passSiblings passNode

variable {preserve c}

private theorem passSiblings_perms (names : List String) (first ptr : Bool) :
    passSiblings preserve c false first (names.map fun p => .node (.perm p) []) ptr =
      some ptr := by
  induction names generalizing first with
  | nil => simp
  | cons name names ih =>
      have hperm : opens preserve c (.perm name) = false := rfl
      rw [List.map_cons]
      simp only [passSiblings, passNode, refused, hperm, Bool.and_false, Bool.false_and,
        Bool.or_false, Bool.not_false, Bool.and_true, Bool.false_eq_true, if_false]
      exact ih false

private theorem passSiblings_append {parent first ptr : Bool} {ts ts' : List (Tree Label)}
    (hts : ts ≠ [] ∨ first = false) : passSiblings preserve c parent first (ts ++ ts') ptr =
      (passSiblings preserve c parent first ts ptr).bind
        (passSiblings preserve c parent false ts') := by
  induction ts generalizing first ptr with
  | nil =>
      have hfirst : first = false := hts.resolve_left fun h => h rfl
      rw [List.nil_append, hfirst, passSiblings, Option.bind_some]
  | cons t ts ih =>
      rw [List.cons_append]
      simp only [passSiblings]
      cases passNode preserve c parent first t ptr with
      | none => rfl
      | some ptr => exact ih (Or.inr rfl)

variable {σ : Type} {b : Builder σ} {s s' : BuildState σ}

private theorem refuses_false {kw : String} (h : ¬ s.refuses kw = true) (c : Context) :
    ¬ (s.pointer c && forbidden c kw) = true := by
  intro hc
  refine h (List.any_eq_true.mpr ⟨c, ?_, hc⟩)
  cases c <;> simp

private theorem enter_pointer (kw : String) (perms : List String) (db : σ) :
    (s.enter preserve kw perms db).pointer c =
      (s.pointer c || opens preserve c s.current.label && s.current.children.isEmpty) := by
  unfold BuildState.enter opens
  cases hempty : s.current.children.isEmpty with
  | false => simp
  | true =>
      cases hcontext : contextOf preserve s.current.label with
      | none => simp
      | some c' =>
          by_cases hsame : c = c'
          · rw [hsame]
            simp
          · have hne : ¬ c' = c := fun heq => hsame heq.symm
            simp [Function.update_of_ne hsame, hne]

private theorem leave_pointer {parent : Frame} {above : List Frame}
    (h : s.above = parent :: above) :
    (s.leave preserve).pointer c = (s.pointer c && !opens preserve c s.current.label) := by
  unfold BuildState.leave opens
  rw [h]
  cases hcontext : contextOf preserve s.current.label with
  | none => simp
  | some c' =>
      by_cases hsame : c = c'
      · rw [hsame]
        simp
      · have hne : ¬ c' = c := fun heq => hsame heq.symm
        simp [Function.update_of_ne hsame, hne]

/-- The state after nodes were built: the trees are the new children of the current node, and
the pointers are those that the trees leave. -/
structure Built (preserve : Bool) (s s' : BuildState σ) (ts : List (Tree Label)) : Prop where
  current : s'.current = ⟨s.current.label, s.current.children ++ ts⟩
  above : s'.above = s.above
  pointer (c : Context) : passSiblings preserve c (opens preserve c s.current.label)
    s.current.children.isEmpty ts (s.pointer c) = some (s'.pointer c)

theorem Built.nil (s : BuildState σ) : Built preserve s s [] where
  current := by rw [List.append_nil]
  above := rfl
  pointer c := by simp

theorem Built.cons {mid : BuildState σ} {t : Tree Label} {ts : List (Tree Label)}
    (h : Built preserve s mid [t]) (h' : Built preserve mid s' ts) :
    Built preserve s s' (t :: ts) where
  current := by
    rw [h'.current, h.current, List.append_assoc]
    rfl
  above := h'.above.trans h.above
  pointer c := by
    have hfirst := h.pointer c
    have hrest := h'.pointer c
    rw [h.current] at hrest
    have hempty : (s.current.children ++ [t]).isEmpty = false := by simp
    rw [hempty] at hrest
    rw [← List.singleton_append, passSiblings_append (Or.inl (by simp)), hfirst]
    exact hrest

/-- A statement is entered, its contents are built, and it is left. -/
theorem Built.statement {kw : String} {perms : List String} {db : σ} {mid : BuildState σ}
    {ts : List (Tree Label)} (hrefuses : ¬ s.refuses kw = true)
    (h : Built preserve (s.enter preserve kw perms db) mid ts)
    (hperms : perms = [] ∨ ts = [] ∧ contextOf preserve (.statement kw) = none) :
    Built preserve s (mid.leave preserve)
      [.node (.statement kw) ((perms.map fun p => .node (.perm p) []) ++ ts)] := by
  have habove : mid.above = s.current :: s.above := h.above
  have hlabel : mid.current.label = .statement kw := by
    rw [h.current]
    rfl
  constructor
  case current =>
    unfold BuildState.leave
    rw [habove, h.current]
    rfl
  case above =>
    unfold BuildState.leave
    rw [habove]
  case pointer =>
    intro c
    have hpointer := h.pointer c
    rw [enter_pointer] at hpointer
    have hinner : passSiblings preserve c (opens preserve c (.statement kw)) true
        ((perms.map fun p => .node (.perm p) []) ++ ts)
        (s.pointer c || opens preserve c s.current.label && s.current.children.isEmpty) =
          some (mid.pointer c) := by
      rcases hperms with hnil | ⟨hnil, hcontext⟩
      · rw [hnil] at hpointer ⊢
        exact hpointer
      · have hopens : opens preserve c (.statement kw) = false := by
          rw [opens, hcontext]
          rfl
        rw [hnil, passSiblings] at hpointer
        rw [hnil, List.append_nil, hopens, passSiblings_perms]
        exact hpointer
    have hrefused : ¬ (s.pointer c && refused c (.statement kw)) = true :=
      refuses_false hrefuses c
    simp only [passSiblings, passNode]
    rw [if_neg hrefused, hinner, leave_pointer habove, hlabel]

mutual

private theorem walkList_built (nodes : List ParseNode) {s s' : BuildState σ}
    (h : walkList preserve b nodes s = some s') :
    Built preserve s s' (statementOf (.list nodes)) ∧ (statementOf (.list nodes)).length = 1 := by
  match nodes with
  | [] => simp [walkList] at h
  | .list _ :: _ => simp [walkList] at h
  | .string kw :: rest =>
      rw [statementOf_list]
      refine ⟨?_, rfl⟩
      rw [walkList] at h
      unfold buildNode at h
      by_cases hrefuses : s.refuses kw = true
      · rw [if_pos hrefuses] at h
        cases h
      · rw [if_neg hrefuses] at h
        by_cases hskip : kw ∈ skippingKeywords
        · rw [if_pos hskip] at h
          cases hperms : generated kw (.string kw :: rest) with
          | none =>
              rw [hperms] at h
              cases h
          | some perms =>
              cases hdb : b.gen s.db s.labels (.string kw :: rest) with
              | none => simp [hperms, hdb] at h
              | some db =>
                  simp only [hperms, hdb, Option.some.injEq] at h
                  have hbuilt := Built.statement hrefuses
                    (Built.nil (s.enter preserve kw perms db))
                    (Or.inr ⟨rfl, (skipping_spec kw hskip).2 preserve⟩)
                  rw [List.append_nil] at hbuilt
                  rw [← h, contents, (skipping_spec kw hskip).1, hperms, Option.getD_some]
                  exact hbuilt
        · rw [if_neg hskip] at h
          cases hsyn : syntaxOf kw with
          | none => simp [hsyn] at h
          | some syn =>
              simp only [hsyn] at h
              by_cases hok : (verifySyntax syn (.string kw :: rest) &&
                conditionalOk preserve s kw (.string kw :: rest)) = true
              · rw [if_pos hok] at h
                cases hdb : b.gen s.db s.labels (.string kw :: rest) with
                | none => simp [hdb] at h
                | some db =>
                    simp only [hdb] at h
                    cases hwalk : walkNodes preserve b (spliced kw rest)
                      (s.enter preserve kw [] db) with
                    | none =>
                        rw [hwalk] at h
                        cases h
                    | some mid =>
                        simp only [hwalk, Option.some.injEq] at h
                        have hbuilt := Built.statement hrefuses
                          (walkNodes_built (spliced kw rest) hwalk) (Or.inl rfl)
                        rw [← h, contents_spliced hskip hsyn (Bool.and_eq_true _ _ ▸ hok).1]
                        exact hbuilt
              · rw [if_neg hok] at h
                cases h
termination_by sizeOf nodes
decreasing_by
  have hle := sizeOf_spliced_le kw rest
  simp only [List.cons.sizeOf_spec]
  omega

theorem walkNodes_built (nodes : List ParseNode) {s s' : BuildState σ}
    (h : walkNodes preserve b nodes s = some s') :
    Built preserve s s' (statementsAfter 0 nodes) := by
  match nodes with
  | [] =>
      rw [walkNodes] at h
      cases h
      simp only [statementsAfter]
      exact Built.nil s
  | .string name :: rest =>
      rw [walkNodes] at h
      rw [statementsAfter_string]
      · exact walkNodes_built rest h
      · intro n ns heq
        cases heq
  | .list [] :: rest =>
      rw [walkNodes] at h
      · have hnone : statementOf (.list []) = [] := by simp [statementOf]
        rw [statementsAfter, hnone]
        exact walkNodes_built rest h
      · intro n ns heq
        cases heq
  | .list (n :: ns) :: rest =>
      rw [walkNodes] at h
      cases hlist : walkList preserve b (n :: ns) s with
      | none =>
          rw [hlist] at h
          cases h
      | some mid =>
          rw [hlist] at h
          obtain ⟨hbuilt, hlength⟩ := walkList_built (n :: ns) hlist
          obtain ⟨t, ht⟩ := List.length_eq_one_iff.mp hlength
          rw [statementsAfter, ht, List.singleton_append]
          rw [ht] at hbuilt
          exact hbuilt.cons (walkNodes_built rest h)
termination_by sizeOf nodes

end

end Pointers

/-- The tree that is built is that of the statements of the input, and each of the pointers
passes over it. -/
theorem buildAst_built {σ : Type} {preserve : Bool} {b : Builder σ} {db : σ}
    {lists : List (List ParseNode)} {ast : Tree Label}
    (h : buildAst preserve b db lists = some ast) :
    ast = statements lists ∧
      ∀ c, ∃ ptr, passSiblings preserve c false true (statementsAfter 0 (lists.map .list)) false =
        some ptr := by
  unfold buildAst at h
  cases hwalk : walkNodes preserve b (lists.map .list)
    ⟨db, ⟨.root, []⟩, [], fun _ => false⟩ with
  | none =>
      rw [hwalk] at h
      cases h
  | some s =>
      rw [hwalk] at h
      have hast := Option.some.inj h
      have hbuilt := walkNodes_built (lists.map .list) hwalk
      refine ⟨?_, fun c => ⟨s.pointer c, hbuilt.pointer c⟩⟩
      rw [← hast, hbuilt.current]
      rfl

end Cil.Build
