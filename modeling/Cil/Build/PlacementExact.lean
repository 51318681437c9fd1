/- Cil/Build/PlacementExact
   digest: Placement rules hold in what is built exactly where no check is missed. -/

import Cil.Build.Placement

set_option autoImplicit false
set_option relaxedAutoImplicit false

namespace Cil.Build

section Trees

variable {π : Type}

mutual

/-- The subtrees of siblings, each before those below it. -/
def subtreesOfSiblings : List (Tree π) → List (Tree π)
  | [] => []
  | t :: ts => subtreesOfNode t ++ subtreesOfSiblings ts

def subtreesOfNode : Tree π → List (Tree π)
  | .node label children => .node label children :: subtreesOfSiblings children

end

mutual

private theorem nodesOfSiblings_above (above : List π) (ts : List (Tree π)) :
    nodesOfSiblings above ts =
      (nodesOfSiblings [] ts).map fun n => (above ++ n.1, n.2) := by
  match ts with
  | [] => rfl
  | t :: ts =>
      rw [nodesOfSiblings, nodesOfSiblings, List.map_append, nodesOfNode_above above t,
        nodesOfSiblings_above above ts]

private theorem nodesOfNode_above (above : List π) (t : Tree π) :
    nodesOfNode above t = (nodesOfNode [] t).map fun n => (above ++ n.1, n.2) := by
  match t with
  | .node label children =>
      rw [nodesOfNode, nodesOfNode, nodesOfSiblings_above (above ++ [label]) children,
        nodesOfSiblings_above ([] ++ [label]) children, List.map_cons, List.map_map,
        List.append_nil]
      congr 1
      apply List.map_congr_left
      intro n _
      simp

end

private theorem nodesOfNode_eq (label : π) (children : List (Tree π)) :
    nodesOfNode [] (.node label children) =
      ([], label) :: (nodesOfSiblings [] children).map fun n => (label :: n.1, n.2) := by
  rw [nodesOfNode, nodesOfSiblings_above]
  rfl

/-- A member of a list of two parts is in the first part, or behind it. -/
private theorem split_append {α : Type} {xs ys pre post : List α} {x : α}
    (h : xs ++ ys = pre ++ x :: post) :
    (∃ post', xs = pre ++ x :: post') ∨ ∃ pre', pre = xs ++ pre' ∧ ys = pre' ++ x :: post := by
  rcases List.append_eq_append_iff.mp h with ⟨mid, hpre, hys⟩ | ⟨mid, hxs, hrest⟩
  · exact Or.inr ⟨mid, hpre, hys⟩
  · cases mid with
    | nil =>
        rw [List.append_nil] at hxs
        exact Or.inr ⟨[], by rw [hxs, List.append_nil], hrest.symm⟩
    | cons y mid =>
        injection hrest with hx hpost
        exact Or.inl ⟨mid, by rw [hxs, hx]⟩

mutual

/-- A node with one above it is a node below the subtree of that one. -/
private theorem subtree_of_above {above front back : List π} {x label : π} {ts : List (Tree π)}
    (h : (above, label) ∈ nodesOfSiblings [] ts) (habove : above = front ++ x :: back) :
    ∃ children, .node x children ∈ subtreesOfSiblings ts ∧
      (back, label) ∈ nodesOfSiblings [] children := by
  match ts with
  | [] => cases h
  | t :: ts =>
      rw [nodesOfSiblings] at h
      rw [subtreesOfSiblings]
      rcases List.mem_append.mp h with h | h
      · obtain ⟨children, hmem, hnode⟩ := subtree_of_above_node h habove
        exact ⟨children, List.mem_append_left _ hmem, hnode⟩
      · obtain ⟨children, hmem, hnode⟩ := subtree_of_above h habove
        exact ⟨children, List.mem_append_right _ hmem, hnode⟩

private theorem subtree_of_above_node {above front back : List π} {x label : π} {t : Tree π}
    (h : (above, label) ∈ nodesOfNode [] t) (habove : above = front ++ x :: back) :
    ∃ children, .node x children ∈ subtreesOfNode t ∧
      (back, label) ∈ nodesOfSiblings [] children := by
  match t with
  | .node y children =>
      rw [nodesOfNode_eq] at h
      rw [subtreesOfNode]
      rcases List.mem_cons.mp h with heq | h
      · injection heq with hnil _
        rw [hnil] at habove
        exact absurd habove.symm (List.append_ne_nil_of_right_ne_nil _ (by simp))
      · obtain ⟨n, hn, heq⟩ := List.mem_map.mp h
        injection heq with hcons hlabel
        rw [← hcons] at habove
        cases front with
        | nil =>
            injection habove with hx hback
            refine ⟨children, ?_, ?_⟩
            · rw [hx]
              exact List.mem_cons_self
            · rw [← hback, ← hlabel]
              exact hn
        | cons y' front =>
            injection habove with _ hrest
            rw [← hlabel]
            obtain ⟨children', hmem, hnode⟩ := subtree_of_above hn hrest
            exact ⟨children', List.mem_cons_of_mem _ hmem, hnode⟩

end

mutual

/-- A node below a subtree has the root of the subtree above it. -/
private theorem above_of_subtree {x label : π} {children ts : List (Tree π)} {back : List π}
    (h : .node x children ∈ subtreesOfSiblings ts)
    (hnode : (back, label) ∈ nodesOfSiblings [] children) :
    ∃ front, (front ++ x :: back, label) ∈ nodesOfSiblings [] ts := by
  match ts with
  | [] => cases h
  | t :: ts =>
      rw [subtreesOfSiblings] at h
      rw [nodesOfSiblings]
      rcases List.mem_append.mp h with h | h
      · obtain ⟨front, hfront⟩ := above_of_subtree_node h hnode
        exact ⟨front, List.mem_append_left _ hfront⟩
      · obtain ⟨front, hfront⟩ := above_of_subtree h hnode
        exact ⟨front, List.mem_append_right _ hfront⟩

private theorem above_of_subtree_node {x label : π} {children : List (Tree π)} {t : Tree π}
    {back : List π} (h : .node x children ∈ subtreesOfNode t)
    (hnode : (back, label) ∈ nodesOfSiblings [] children) :
    ∃ front, (front ++ x :: back, label) ∈ nodesOfNode [] t := by
  match t with
  | .node y ts =>
      rw [subtreesOfNode] at h
      rw [nodesOfNode_eq]
      rcases List.mem_cons.mp h with heq | h
      · injection heq with hx hchildren
        refine ⟨[], List.mem_cons_of_mem _ (List.mem_map.mpr ⟨(back, label), ?_, ?_⟩)⟩
        · rw [← hchildren]
          exact hnode
        · rw [hx]
          rfl
      · obtain ⟨front, hfront⟩ := above_of_subtree h hnode
        exact ⟨y :: front, List.mem_cons_of_mem _ (List.mem_map.mpr ⟨_, hfront, rfl⟩)⟩

end

end Trees

section Rules

variable (preserve : Bool)

/-- The placement rules: nothing that a construct refuses is anywhere below it. -/
def Placed (t : Tree Label) : Prop :=
  ∀ above label, (above, label) ∈ t.nodes → ∀ x ∈ above, ∀ c, opens preserve c x = true →
    refused c label = false

/-- Places inside a construct where a statement is not checked against it: that of the first
statement, and those after a construct of the same kind; `children` are the statements of the
construct, and it is the innermost one of its kind around the place. -/
def Unchecked (c : Context) (children : List (Tree Label)) (label : Label) : Prop :=
  ∃ pre above post, nodesOfSiblings [] children = pre ++ (above, label) :: post ∧
    (∀ x ∈ above, opens preserve c x = false) ∧
    (pre = [] ∨ ∃ n ∈ pre, opens preserve c n.2 = true)

/-- No statement stands unchecked where a construct refuses it. -/
def NoneMissed (t : Tree Label) : Prop :=
  ∀ c x children, .node x children ∈ subtreesOfNode t → opens preserve c x = true →
    ∀ label, Unchecked preserve c children label → refused c label = false

variable {preserve} {c : Context}

mutual

/-- Where the pointer is set no statement is refused, and it stays set up to the end of the
next construct. -/
private theorem passSiblings_checked (ts : List (Tree Label)) {parent first ptr ptr' : Bool}
    (h : passSiblings preserve c parent first ts ptr = some ptr') :
    (∀ pre above label post, nodesOfSiblings [] ts = pre ++ (above, label) :: post →
      (∀ x ∈ above, opens preserve c x = false) → (∀ n ∈ pre, opens preserve c n.2 = false) →
      (ptr = true ∨ (parent && first) = true ∧ pre ≠ []) → refused c label = false) ∧
    ((∀ n ∈ nodesOfSiblings [] ts, opens preserve c n.2 = false) →
      (ptr = true ∨ (parent && first) = true ∧ ts ≠ []) → ptr' = true) := by
  match ts with
  | [] =>
      rw [passSiblings] at h
      constructor
      · intro pre above label post heq
        cases pre <;> cases heq
      · intro _ hptr
        rw [← Option.some.inj h]
        exact hptr.resolve_right fun hnil => hnil.2 rfl
  | t :: ts =>
      rw [passSiblings] at h
      cases hfirst : passNode preserve c parent first t ptr with
      | none =>
          rw [hfirst] at h
          cases h
      | some mid =>
          rw [hfirst] at h
          obtain ⟨hchecked, hstays⟩ := passNode_checked hfirst
          obtain ⟨hchecked', hstays'⟩ := passSiblings_checked ts h
          constructor
          · intro pre above label post heq habove hpre hptr
            rw [nodesOfSiblings] at heq
            rcases split_append heq with ⟨post', hnode⟩ | ⟨pre', hpre', hrest⟩
            · exact hchecked pre above label post' hnode habove hpre hptr
            · refine hchecked' pre' above label post hrest habove
                (fun n hn => hpre n (hpre' ▸ List.mem_append_right _ hn)) (Or.inl ?_)
              refine hstays (fun n hn => hpre n (hpre' ▸ List.mem_append_left _ hn)) ?_
              rcases hptr with hptr | ⟨hptr, _⟩
              · rw [hptr, Bool.true_or]
              · rw [hptr, Bool.or_true]
          · intro hfree hptr
            rw [nodesOfSiblings] at hfree
            refine hstays' (fun n hn => hfree n (List.mem_append_right _ hn)) (Or.inl ?_)
            refine hstays (fun n hn => hfree n (List.mem_append_left _ hn)) ?_
            rcases hptr with hptr | ⟨hptr, _⟩
            · rw [hptr, Bool.true_or]
            · rw [hptr, Bool.or_true]

private theorem passNode_checked {t : Tree Label} {parent first ptr ptr' : Bool}
    (h : passNode preserve c parent first t ptr = some ptr') :
    (∀ pre above label post, nodesOfNode [] t = pre ++ (above, label) :: post →
      (∀ x ∈ above, opens preserve c x = false) → (∀ n ∈ pre, opens preserve c n.2 = false) →
      (ptr = true ∨ (parent && first) = true ∧ pre ≠ []) → refused c label = false) ∧
    ((∀ n ∈ nodesOfNode [] t, opens preserve c n.2 = false) →
      (ptr || parent && first) = true → ptr' = true) := by
  match t with
  | .node x children =>
      rw [passNode] at h
      by_cases hrefused : (ptr && refused c x) = true
      · rw [if_pos hrefused] at h
        cases h
      · rw [if_neg hrefused] at h
        cases hinner : passSiblings preserve c (opens preserve c x) true children
          (ptr || parent && first) with
        | none =>
            rw [hinner] at h
            cases h
        | some mid =>
            rw [hinner] at h
            obtain ⟨hchecked, hstays⟩ := passSiblings_checked children hinner
            have hptr' := Option.some.inj h
            constructor
            · intro pre above label post heq habove hpre hptr
              rw [nodesOfNode_eq] at heq
              cases pre with
              | nil =>
                  injection heq with hhead _
                  injection hhead with _ hlabel
                  rw [← hlabel]
                  have hset : ptr = true := hptr.resolve_right fun hnil => hnil.2 rfl
                  rw [hset, Bool.true_and] at hrefused
                  exact Bool.eq_false_iff.mpr hrefused
              | cons n pre =>
                  injection heq with hhead hrest
                  obtain ⟨pre', tail, hchildren, hmap, hmap'⟩ := List.map_eq_append_iff.mp hrest
                  obtain ⟨n', post', htail, hn', -⟩ := List.map_eq_cons_iff.mp hmap'
                  injection hn' with hcons hlabel
                  rw [htail] at hchildren
                  have hset : (ptr || parent && first) = true := by
                    rcases hptr with hptr | ⟨hptr, _⟩
                    · rw [hptr, Bool.true_or]
                    · rw [hptr, Bool.or_true]
                  rw [← hlabel]
                  refine hchecked pre' n'.1 n'.2 post' hchildren ?_ ?_ (Or.inl hset)
                  · intro y hy
                    exact habove y (hcons ▸ List.mem_cons_of_mem x hy)
                  · intro m hm
                    have hmem : (x :: m.1, m.2) ∈ pre := by
                      rw [← hmap]
                      exact List.mem_map.mpr ⟨m, hm, rfl⟩
                    exact hpre (x :: m.1, m.2) (List.mem_cons_of_mem n hmem)
            · intro hfree hset
              rw [nodesOfNode_eq] at hfree
              have hx : opens preserve c x = false := hfree ([], x) List.mem_cons_self
              have hmid : mid = true := by
                refine hstays (fun n hn => ?_) (Or.inl hset)
                exact hfree (x :: n.1, n.2)
                  (List.mem_cons_of_mem _ (List.mem_map.mpr ⟨n, hn, rfl⟩))
              rw [← hptr', hmid, hx]
              rfl

end

mutual

/-- The pointers pass over the statements of every construct. -/
private theorem passSiblings_subtree (ts : List (Tree Label)) {parent first ptr ptr' : Bool}
    (h : passSiblings preserve c parent first ts ptr = some ptr') {x : Label}
    {children : List (Tree Label)} (hmem : .node x children ∈ subtreesOfSiblings ts) :
    ∃ inner inner', passSiblings preserve c (opens preserve c x) true children inner =
      some inner' := by
  match ts with
  | [] => cases hmem
  | t :: ts =>
      rw [passSiblings] at h
      cases hfirst : passNode preserve c parent first t ptr with
      | none =>
          rw [hfirst] at h
          cases h
      | some mid =>
          rw [hfirst] at h
          rw [subtreesOfSiblings] at hmem
          rcases List.mem_append.mp hmem with hmem | hmem
          · exact passNode_subtree hfirst hmem
          · exact passSiblings_subtree ts h hmem

private theorem passNode_subtree {t : Tree Label} {parent first ptr ptr' : Bool}
    (h : passNode preserve c parent first t ptr = some ptr') {x : Label}
    {children : List (Tree Label)} (hmem : .node x children ∈ subtreesOfNode t) :
    ∃ inner inner', passSiblings preserve c (opens preserve c x) true children inner =
      some inner' := by
  match t with
  | .node y ts =>
      rw [passNode] at h
      by_cases hrefused : (ptr && refused c y) = true
      · rw [if_pos hrefused] at h
        cases h
      · rw [if_neg hrefused] at h
        cases hinner : passSiblings preserve c (opens preserve c y) true ts
          (ptr || parent && first) with
        | none =>
            rw [hinner] at h
            cases h
        | some mid =>
            rw [subtreesOfNode] at hmem
            rcases List.mem_cons.mp hmem with heq | hmem
            · injection heq with hx hchildren
              rw [hx, hchildren]
              exact ⟨_, mid, hinner⟩
            · exact passSiblings_subtree ts hinner hmem

end

/-- The last member of a list with a property. -/
private theorem exists_last {α : Type} (p : α → Bool) {l : List α} (h : ∃ x ∈ l, p x = true) :
    ∃ front x back, l = front ++ x :: back ∧ p x = true ∧ ∀ y ∈ back, p y = false := by
  induction l with
  | nil =>
      obtain ⟨x, hx, _⟩ := h
      cases hx
  | cons y l ih =>
      by_cases hl : ∃ x ∈ l, p x = true
      · obtain ⟨front, x, back, heq, hx, hback⟩ := ih hl
        exact ⟨y :: front, x, back, by rw [heq, List.cons_append], hx, hback⟩
      · have hnone : ∀ x ∈ l, p x = false := by
          intro x hx
          exact Bool.eq_false_iff.mpr fun htrue => hl ⟨x, hx, htrue⟩
        obtain ⟨x, hx, hpx⟩ := h
        rcases List.mem_cons.mp hx with heq | hx
        · rw [heq] at hpx
          exact ⟨[], y, l, rfl, hpx, hnone⟩
        · rw [hnone x hx] at hpx
          cases hpx

end Rules

/-- What is built obeys the placement rules exactly where the input has no statement at a place
the checks miss that is refused there. -/
theorem placed_iff {σ : Type} (preserve : Bool) (b : Builder σ) (db : σ)
    (lists : List (List ParseNode)) (ast : Tree Label)
    (h : buildAst preserve b db lists = some ast) :
    Placed preserve ast ↔ NoneMissed preserve (statements lists) := by
  obtain ⟨hast, hpass⟩ := buildAst_built h
  rw [hast]
  constructor
  · intro hplaced c x children hmem hopens label hunchecked
    obtain ⟨pre, above, post, hnodes, -, -⟩ := hunchecked
    have hnode : (above, label) ∈ nodesOfSiblings [] children := by
      rw [hnodes]
      exact List.mem_append_right _ List.mem_cons_self
    rw [statements, subtreesOfNode] at hmem
    rcases List.mem_cons.mp hmem with heq | hmem
    · injection heq with hx _
      rw [hx] at hopens
      cases hopens
    · obtain ⟨front, hfront⟩ := above_of_subtree hmem hnode
      exact hplaced _ label hfront x (List.mem_append_right _ List.mem_cons_self) c hopens
  · intro hnone above label hmem x hx c hopens
    obtain ⟨front, y, back, habove, hy, hback⟩ := exists_last (opens preserve c) ⟨x, hx, hopens⟩
    obtain ⟨children, hsubtree, hnode⟩ := subtree_of_above hmem habove
    obtain ⟨ptr, hptr⟩ := hpass c
    obtain ⟨inner, inner', hinner⟩ := passSiblings_subtree _ hptr hsubtree
    obtain ⟨pre, post, hnodes⟩ := List.append_of_mem hnode
    by_cases hmissed : pre = [] ∨ ∃ n ∈ pre, opens preserve c n.2 = true
    · refine hnone c y children ?_ hy label ⟨pre, back, post, hnodes, hback, hmissed⟩
      rw [statements, subtreesOfNode]
      exact List.mem_cons_of_mem _ hsubtree
    · rw [not_or] at hmissed
      obtain ⟨hne, hfree⟩ := hmissed
      refine (passSiblings_checked children hinner).1 pre back label post hnodes hback ?_
        (Or.inr ⟨?_, hne⟩)
      · intro n hn
        exact Bool.eq_false_iff.mpr fun htrue => hfree ⟨n, hn, htrue⟩
      · rw [hy]
        rfl

/-- A builder that finds nothing wrong with the names and the expressions. -/
def lenient : Builder Unit where
  gen _ _ _ := some ()

/-- `(macro m () (tunable t true))`. -/
def tunableFirst : List (List ParseNode) :=
  [[.string "macro", .string "m", .list [],
    .list [.string "tunable", .string "t", .string "true"]]]

def rootState : BuildState Unit := ⟨(), ⟨.root, []⟩, [], fun _ => false⟩

private theorem tunableFirst_built :
    buildAst false lenient () tunableFirst = some (.node .root
      [.node (.statement "macro") [.node (.statement "tunable") []]]) := by
  let inMacro := rootState.enter false "macro" [] ()
  have hdefined : buildNode false lenient "macro" [.string "m", .list [],
      .list [.string "tunable", .string "t", .string "true"]] rootState =
        some (inMacro, false) := rfl
  have htunable : buildNode false lenient "tunable" [.string "t", .string "true"] inMacro =
      some (inMacro.enter false "tunable" [] (), false) := rfl
  have hcontent : spliced "macro" [.string "m", .list [],
      .list [.string "tunable", .string "t", .string "true"]] =
        [.string "m", .list [.string "tunable", .string "t", .string "true"]] := rfl
  have hoperands : spliced "tunable" [.string "t", .string "true"] =
      [.string "t", .string "true"] := rfl
  have hwalk : walkNodes false lenient (tunableFirst.map .list) rootState =
      some (((inMacro.enter false "tunable" [] ()).leave false).leave false) := by
    simp only [tunableFirst, List.map_cons, List.map_nil, walkNodes, walkList, hdefined, htunable,
      hcontent, hoperands]
  unfold buildAst
  rw [show (⟨(), ⟨.root, []⟩, [], fun _ => false⟩ : BuildState Unit) = rootState from rfl, hwalk]
  rfl

/-- The rules and the condition fail together there. -/
theorem tunableFirst_placed_iff :
    Placed false (.node .root [.node (.statement "macro") [.node (.statement "tunable") []]]) ↔
      NoneMissed false (statements tunableFirst) :=
  placed_iff false lenient () tunableFirst _ tunableFirst_built

/-- The first statement of a macro is not checked: it may be a tunable. -/
theorem tunable_in_macro :
    ∃ ast, buildAst false lenient () tunableFirst = some ast ∧ ¬ Placed false ast := by
  refine ⟨_, tunableFirst_built, fun hplaced => ?_⟩
  have hrefused := hplaced [.statement "macro"] (.statement "tunable")
    (by simp [Tree.nodes, nodesOfSiblings, nodesOfNode]) (.statement "macro")
    List.mem_cons_self .inMacro rfl
  cases hrefused

end Cil.Build
