/- Cil/Post/CategoryPass
   digest: When the category pass comes to an end, and what the fields hold then. -/

import Cil.Post.CategoriesExact

set_option autoImplicit false
set_option relaxedAutoImplicit false

namespace Cil.Post.Categories

open Cil.Expr Cil.Library

variable {β κ ς ι : Type}

section Steps

/-- The fields that `__evaluate_level_expression` evaluates; none stands for a null pointer. -/
def levelSteps : Option (Level ι) → List (Option (CatsId ς ι))
  | none => [none]
  | some level => level.cats.toList.map fun i => some (.own i)

def endSteps (level : Option (Level ι)) : List (Option (CatsId ς ι)) :=
  (level.bind Level.cats).toList.map fun i => some (.own i)

def rangeSteps : Option (LevelRange ι) → List (Option (CatsId ς ι))
  | none => [none]
  | some range => endSteps range.low ++ endSteps range.high

def contextSteps (context : Context ι) : List (Option (CatsId ς ι)) :=
  rangeSteps (some context.range)

/-- The fields that the pass evaluates at a node. -/
def NodeData.steps : NodeData ς ι → List (Option (CatsId ς ι))
  | .macroDef => []
  | .block _ => []
  | .catset s => [some (.set s)]
  | .senscat i => [some (.own i)]
  | .level l => levelSteps (some l)
  | .levelrange range => rangeSteps (some range)
  | .user dftlevel range => levelSteps dftlevel ++ rangeSteps range
  | .selinuxuserdefault range => rangeSteps (some range)
  | .selinuxuser range => rangeSteps (some range)
  | .rangetransition range => rangeSteps (some range)
  | .context c => contextSteps c
  | .sidcontext c => contextSteps c
  | .filecon none => []
  | .filecon (some c) => contextSteps c
  | .portcon c => contextSteps c
  | .nodecon c => contextSteps c
  | .genfscon c => contextSteps c
  | .netifcon ifContext packetContext => contextSteps ifContext ++ contextSteps packetContext
  | .pirqcon c => contextSteps c
  | .iomemcon c => contextSteps c
  | .ioportcon c => contextSteps c
  | .pcidevicecon c => contextSteps c
  | .fsuse c => contextSteps c
  | .other => []

/-- The fields that the pass evaluates, in order. -/
def stepsOf (nodes : List (NodeData ς ι)) : List (Option (CatsId ς ι)) :=
  nodes.flatMap NodeData.steps

end Steps

section Helper

variable [DecidableEq κ] [DecidableEq ς] [DecidableEq ι] (B : Bitmap β) (P : Policy κ ς ι)
  (fuel : Nat)

/-- One of these evaluations. -/
def evaluateStep : Option (CatsId ς ι) → Call Rc (State κ ς ι) Unit
  | none => Call.crash
  | some id => evaluateCats B P fuel id

variable {B P fuel}

private theorem processAll_singleton {π σ : Type} (step : π → Call Rc σ Unit) (x : π) :
    processAll step [x] = step x := by
  rw [processAll, processAll]
  exact call_bind_pure _

private theorem levelSteps_eq (level : Option (Level ι)) :
    evaluateLevelExpression B P fuel level =
      processAll (evaluateStep B P fuel) (levelSteps level) := by
  cases level with
  | none => exact (processAll_singleton _ _).symm
  | some level =>
    obtain ⟨_ | i⟩ := level
    · rfl
    · exact (processAll_singleton _ _).symm

private theorem endSteps_eq (level : Option (Level ι)) :
    evaluateEnd B P fuel level = processAll (evaluateStep B P fuel) (endSteps level) := by
  unfold evaluateEnd endSteps
  cases level.bind Level.cats with
  | none => rfl
  | some i => exact (processAll_singleton _ _).symm

private theorem rangeSteps_eq (range : Option (LevelRange ι)) :
    evaluateLevelrangeExpression B P fuel range =
      processAll (evaluateStep B P fuel) (rangeSteps range) := by
  cases range with
  | none => exact (processAll_singleton _ _).symm
  | some range =>
    rw [evaluateLevelrangeExpression, rangeSteps, processAll_append, endSteps_eq, endSteps_eq]

private theorem contextSteps_eq (context : Context ι) :
    evaluateContext B P fuel context =
      processAll (evaluateStep B P fuel) (contextSteps context) :=
  rangeSteps_eq (some context.range)

private theorem postDbCatHelper_eq (d : NodeData ς ι) :
    postDbCatHelper B P fuel d = processAll (evaluateStep B P fuel) d.steps := by
  cases d with
  | macroDef => rfl
  | block isAbstract => rfl
  | other => rfl
  | catset s => exact (processAll_singleton _ _).symm
  | senscat i => exact (processAll_singleton _ _).symm
  | level level => exact levelSteps_eq (some level)
  | levelrange range => exact rangeSteps_eq (some range)
  | user dftlevel range =>
    rw [postDbCatHelper, NodeData.steps, processAll_append, levelSteps_eq, rangeSteps_eq]
  | selinuxuserdefault range => exact rangeSteps_eq (some range)
  | selinuxuser range => exact rangeSteps_eq (some range)
  | rangetransition range => exact rangeSteps_eq (some range)
  | context context => exact contextSteps_eq context
  | sidcontext context => exact contextSteps_eq context
  | filecon context =>
    cases context with
    | none => rfl
    | some context => exact contextSteps_eq context
  | portcon context => exact contextSteps_eq context
  | nodecon context => exact contextSteps_eq context
  | genfscon context => exact contextSteps_eq context
  | netifcon ifContext packetContext =>
    rw [postDbCatHelper, NodeData.steps, processAll_append, contextSteps_eq, contextSteps_eq]
  | pirqcon context => exact contextSteps_eq context
  | iomemcon context => exact contextSteps_eq context
  | ioportcon context => exact contextSteps_eq context
  | pcidevicecon context => exact contextSteps_eq context
  | fsuse context => exact contextSteps_eq context

theorem postDbCat_eq (ast : Tree (NodeData ς ι)) :
    postDbCat B P fuel ast =
      processAll (evaluateStep B P fuel) (stepsOf (ast.walk NodeData.skipHead)) :=
  processAll_flatMap postDbCatHelper_eq _

end Helper

section Exact

variable [DecidableEq κ] (P : Policy κ ς ι)

/-- The step evaluates a field whose expression can be evaluated. -/
def Evaluable (x : Option (CatsId ς ι)) : Prop := ∃ id S, x = some id ∧ Completes P id S

/-- The step evaluates a field whose expression comes to a range of categorysets. -/
def Stopping (x : Option (CatsId ς ι)) : Prop := ∃ id, x = some id ∧ Stops P id

/-- All fields can be evaluated, or all before one whose expression comes to a range of
categorysets. -/
def Passes (xs : List (Option (CatsId ς ι))) : Prop :=
  (∀ x ∈ xs, Evaluable P x) ∨
    ∃ pre x post, xs = pre ++ x :: post ∧ (∀ y ∈ pre, Evaluable P y) ∧ Stopping P x

/-- What a declaration stands for when each categoryset stands for what its field holds. -/
def finalMeaning (s : State κ ς ι) : Datum κ ς → Set Nat
  | .cat c => {P.value c}
  | .catset t => contents P s (.set t)

/-- The field is null or holds a list of the categories that its expression denotes. -/
def Solved (s : State κ ς ι) (id : CatsId ς ι) : Prop :=
  Listed s id ∧ ∃ e, P.expr id = some e ∧
    contents P s id = denote P.numCats (finalMeaning P s) (between P) e

/-- The fields of the visited nodes, and of the categorysets below them, hold what their
expressions denote. -/
def Settled (xs : List (Option (CatsId ς ι))) (s : State κ ς ι) : Prop :=
  ∃ D : Set (CatsId ς ι), (∀ id, some id ∈ xs → id ∈ D) ∧
    (∀ id ∈ D, ∀ e t, P.expr id = some e → .datum (.catset t) ∈ leaves e → .set t ∈ D) ∧
    ∀ id ∈ D, Solved P s id

variable {P} {B : Bitmap β}

/-- What is done holds what its expression denotes. -/
theorem Reached.solved {s : State κ ς ι} (hs : Reached B P s) {id : CatsId ς ι}
    (h : Done P s id) :
    Solved P s id ∧
      ∀ e t, P.expr id = some e → .datum (.catset t) ∈ leaves e → Done P s (.set t) := by
  obtain ⟨S, ⟨e, set, hexpr, hreads, rfl⟩, hcontents, hlisted, -⟩ := hs.completes h
  have hseen : ∀ t, .datum (.catset t) ∈ leaves e → Done P s (.set t) := by
    intro t ht
    rcases h with hev | ⟨e', hexpr', hlist⟩
    · obtain ⟨e', set', b, hexpr', hreads', -⟩ := hs.done id hev
      rw [hexpr] at hexpr'
      cases hexpr'
      exact (hreads' _ ht).2 t rfl
    · rw [hexpr] at hexpr'
      cases hexpr'
      obtain ⟨cs, rfl⟩ := catsList_of_verifyIsList (P.formed _ _ hexpr) hlist
      rw [leaves_catsList] at ht
      simp at ht
  refine ⟨⟨hlisted, e, hexpr, ?_⟩, ?_⟩
  · rw [hcontents]
    have hset : ∀ x ∈ leaves e, set x = Leaf.set (finalMeaning P s) (between P) x := by
      intro x hx
      have hread := hreads x hx
      cases x with
      | range d1 d2 => exact reads_range hread
      | datum d =>
        cases d with
        | cat c => exact reads_cat hread
        | catset t =>
          obtain ⟨S', hS, hvalue, -⟩ := hs.completes (hseen t hx)
          have hmeaning : finalMeaning P s (.catset t) = S' := hvalue
          rw [Leaf.set, hmeaning]
          exact (reads_catset.mp hread).1.unique hS
    exact denoteLeaves_congr e (P.formed id e hexpr) hset
  · intro e' t hexpr' ht
    rw [hexpr] at hexpr'
    cases hexpr'
    exact hseen t ht

variable [DecidableEq ς] [DecidableEq ι] {fuel : Nat}

theorem processAll_ok {xs : List (Option (CatsId ς ι))} {s s' : State κ ς ι}
    (hs : Reached B P s) (hrun : processAll (evaluateStep B P fuel) xs s = some (.ok () s')) :
    Reached B P s' ∧ Extends s s' ∧ ∀ x ∈ xs, ∃ id, x = some id ∧ Done P s' id := by
  induction xs generalizing s with
  | nil =>
    cases hrun
    exact ⟨hs, .refl _, by simp⟩
  | cons x xs ih =>
    rw [processAll] at hrun
    obtain ⟨_, s1, hx, hrest⟩ := Call.bind_ok hrun
    cases x with
    | none => cases hx
    | some id =>
      obtain ⟨hs1, hext1, hdone⟩ := evaluateCats_ok (leafSound fuel) hs hx
      obtain ⟨hs', hext, hall⟩ := ih hs1 hrest
      refine ⟨hs', hext1.trans hext, ?_⟩
      intro y hy
      rcases List.mem_cons.mp hy with rfl | hy
      · exact ⟨id, rfl, hdone.extends hext⟩
      · exact hall y hy

theorem processAll_failed {xs : List (Option (CatsId ς ι))} {s s' : State κ ς ι} {rc : Rc}
    (hs : Reached B P s)
    (hrun : processAll (evaluateStep B P fuel) xs s = some (.failed rc s')) :
    ∃ pre x post, xs = pre ++ x :: post ∧ (∀ y ∈ pre, Evaluable P y) ∧ Stopping P x := by
  induction xs generalizing s with
  | nil => cases hrun
  | cons x xs ih =>
    rw [processAll] at hrun
    cases x with
    | none => cases hrun
    | some id =>
      rcases Call.bind_failed hrun with hfail | ⟨_, s1, hx, hrest⟩
      · exact ⟨[], some id, xs, rfl, by simp, id, rfl,
          evaluateCats_failed (leafSound fuel) hs hfail⟩
      · obtain ⟨hs1, -, hdone⟩ := evaluateCats_ok (leafSound fuel) hs hx
        obtain ⟨S, hcompletes, -⟩ := hs1.completes hdone
        obtain ⟨pre, y, post, rfl, hpre, hy⟩ := ih hs1 hrest
        refine ⟨some id :: pre, y, post, rfl, ?_, hy⟩
        intro z hz
        rcases List.mem_cons.mp hz with rfl | hz
        · exact ⟨id, S, rfl, hcompletes⟩
        · exact hpre z hz

private theorem processAll_succeeds {xs : List (Option (CatsId ς ι))}
    (h : ∀ x ∈ xs, Evaluable P x) :
    Succeeds B P fun fuel => processAll (evaluateStep B P fuel) xs := by
  induction xs with
  | nil => exact ⟨0, fun fuel _ s _ => ⟨(), s, rfl⟩⟩
  | cons x xs ih =>
    obtain ⟨id, S, rfl, hcompletes⟩ := h x List.mem_cons_self
    obtain ⟨N, hN⟩ := hcompletes.succeeds (B := B)
    obtain ⟨M, hM⟩ := ih fun y hy => h y (List.mem_cons_of_mem _ hy)
    refine ⟨max N M, fun fuel hfuel s hs => ?_⟩
    obtain ⟨_, s1, hx⟩ := hN fuel (by omega) s hs
    obtain ⟨hs1, -, -⟩ := evaluateCats_ok (leafSound fuel) hs hx
    obtain ⟨_, s2, hrest⟩ := hM fuel (by omega) s1 hs1
    refine ⟨(), s2, ?_⟩
    have hstep : evaluateStep B P fuel (some id) s = some (.ok () s1) := hx
    show processAll (evaluateStep B P fuel) (some id :: xs) s = _
    rw [processAll, Call.bind_of_ok hstep]
    exact hrest

theorem processAll_fails {pre post : List (Option (CatsId ς ι))} {x : Option (CatsId ς ι)}
    (hpre : ∀ y ∈ pre, Evaluable P y) (hx : Stopping P x) :
    Fails B P fun fuel => processAll (evaluateStep B P fuel) (pre ++ x :: post) := by
  obtain ⟨N, hN⟩ := processAll_succeeds (B := B) hpre
  obtain ⟨id, rfl, hstops⟩ := hx
  obtain ⟨M, hM⟩ := hstops.fails (B := B)
  refine ⟨max N M, fun fuel hfuel s hs => ?_⟩
  obtain ⟨_, s1, hrun⟩ := hN fuel (by omega) s hs
  obtain ⟨hs1, -, -⟩ := processAll_ok hs hrun
  obtain ⟨e, s2, hfail⟩ := hM fuel (by omega) s1 hs1
  have hstep : evaluateStep B P fuel (some id) s1 = some (.failed e s2) := hfail
  refine ⟨e, s2, ?_⟩
  show processAll (evaluateStep B P fuel) (pre ++ some id :: post) s = _
  rw [processAll_append, Call.bind_of_ok hrun, processAll, Call.bind_of_failed hstep]

omit [DecidableEq ς] [DecidableEq ι] in
theorem reached_initial : Reached B P P.initial where
  pending _ _ := rfl
  done _ h := by cases h

variable (P B)

/-- The pass comes to an end, with an error or with the fields as their expressions have it. -/
def EvaluatesWell (ast : Tree (NodeData ς ι)) : Prop :=
  ∃ fuel, (∃ rc s, postDbCat B P fuel ast P.initial = some (.failed rc s)) ∨
    ∃ s, postDbCat B P fuel ast P.initial = some (.ok () s) ∧
      Settled P (stepsOf (ast.walk NodeData.skipHead)) s

theorem EvaluatesWell.passes {ast : Tree (NodeData ς ι)} (h : EvaluatesWell P B ast) :
    Passes P (stepsOf (ast.walk NodeData.skipHead)) := by
  obtain ⟨fuel, ⟨rc, s, hrun⟩ | ⟨s, hrun, -⟩⟩ := h
  · rw [postDbCat_eq] at hrun
    exact Or.inr (processAll_failed reached_initial hrun)
  · rw [postDbCat_eq] at hrun
    obtain ⟨hs, -, hall⟩ := processAll_ok reached_initial hrun
    left
    intro x hx
    obtain ⟨id, rfl, hdone⟩ := hall x hx
    obtain ⟨S, hcompletes, -⟩ := hs.completes hdone
    exact ⟨id, S, rfl, hcompletes⟩

private theorem Passes.evaluatesWell {ast : Tree (NodeData ς ι)}
    (h : Passes P (stepsOf (ast.walk NodeData.skipHead))) : EvaluatesWell P B ast := by
  rcases h with h | ⟨pre, x, post, hxs, hpre, hx⟩
  · obtain ⟨fuel, hfuel⟩ := processAll_succeeds (B := B) h
    obtain ⟨_, s, hrun⟩ := hfuel fuel (le_refl fuel) P.initial reached_initial
    obtain ⟨hs, -, hall⟩ := processAll_ok reached_initial hrun
    refine ⟨fuel, Or.inr ⟨s, ?_, {id | Done P s id}, ?_, ?_, ?_⟩⟩
    · rw [postDbCat_eq]
      exact hrun
    · intro id hid
      obtain ⟨id', heq, hdone⟩ := hall _ hid
      cases heq
      exact hdone
    · intro id hid e t hexpr ht
      exact (hs.solved hid).2 e t hexpr ht
    · intro id hid
      exact (hs.solved hid).1
  · have hfails : Fails B P fun fuel => processAll (evaluateStep B P fuel) (pre ++ x :: post) :=
      processAll_fails hpre hx
    obtain ⟨fuel, hfuel⟩ := hfails
    obtain ⟨rc, s, hrun⟩ := hfuel fuel (le_refl fuel) P.initial reached_initial
    refine ⟨fuel, Or.inl ⟨rc, s, ?_⟩⟩
    rw [postDbCat_eq, hxs]
    exact hrun

end Exact

section Example

/-- Two categorysets that mention each other. -/
def mutualSets : Policy Unit Bool Empty where
  catorder := [()]
  nodup := by decide
  expr
    | .set s => some [.datum (.cat ()), .datum (.catset !s)]
    | .own i => i.elim
  formed
    | .set false, _, h => by cases h; decide
    | .set true, _, h => by cases h; decide
    | .own i, _, _ => i.elim
  filled
    | .set _, _, h => by cases h; simp
    | .own i, _, _ => i.elim
  ordered
    | .set _, _, _, (), _ => by decide
    | .own i, _, _, _, _ => i.elim
  noSelfReference
    | false, _, h => by cases h; decide
    | true, _, h => by cases h; decide

private theorem leaves_mutualSets {t : Bool} {e : List (Item (Datum Unit Bool))}
    (h : mutualSets.expr (.set t) = some e) :
    leaves e = [.datum (.cat ()), .datum (.catset !t)] := by
  cases h
  rfl

private theorem mutualSets_not_reads {x : Leaf (Datum Unit Bool)} {S : Set Nat}
    (h : Reads mutualSets x S) (t : Bool) : x ≠ .datum (.catset t) := by
  induction h generalizing t with
  | cat _ => simp
  | range _ => simp
  | @catset t' e set hexpr _ _ ih =>
    exact absurd rfl (ih (.datum (.catset !t')) (by rw [leaves_mutualSets hexpr]; simp) !t')

private theorem mutualSets_not_blocked {x : Leaf (Datum Unit Bool)} (h : Blocked mutualSets x)
    (t : Bool) : x ≠ .datum (.catset t) := by
  induction h generalizing t with
  | range _ => simp
  | @catset t' e pre post x hexpr hleaves _ hx ih =>
    rw [leaves_mutualSets hexpr] at hleaves
    have hmem : x ∈ [Leaf.datum (Datum.cat ()), .datum (.catset !t')] := by
      rw [hleaves]
      simp
    simp only [List.mem_cons, List.not_mem_nil, or_false] at hmem
    rcases hmem with rfl | rfl
    · cases hx
    · exact absurd rfl (ih !t')

def mutualTree : Tree (NodeData Bool Empty) :=
  .node .other [.node (.catset false) [], .node (.catset true) []]

private theorem mutualTree_steps :
    stepsOf (mutualTree.walk NodeData.skipHead) = [some (.set false), some (.set true)] := rfl

end Example

end Cil.Post.Categories
