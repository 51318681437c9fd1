/- Cil/Resolve/PassesTermination
   digest: When the passes and restarts come to an end. -/

import Mathlib.Data.Fintype.Basic
import Mathlib.Logic.Relation
import Cil.Resolve.Resets

set_option autoImplicit false
set_option relaxedAutoImplicit false

namespace Cil.Resolve.Passes

open Cil.Library.Descent

variable {ω μ κ γ δ σ : Type}

section Counting

/-- An optional that still has children. -/
def isLive (d : NodeData ω μ κ) (children : List (Tree (NodeData ω μ κ))) : Nat :=
  match d.kind, children with
  | .optional _, _ :: _ => 1
  | _, _ => 0

mutual

/-- The number of optionals that still have children. -/
def liveOptionals : List (Tree (NodeData ω μ κ)) → Nat
  | [] => 0
  | t :: ts => liveNode t + liveOptionals ts

def liveNode : Tree (NodeData ω μ κ) → Nat
  | .node d children => isLive d children + liveOptionals children

end

/-- A walk that sets `changed` has emptied an optional, and no walk adds one. -/
def Shrinks {τ : Type} (live : τ → Nat) (t t' : τ) (s s' : State ω σ) : Prop :=
  live t' ≤ live t ∧ (s'.changed ≠ s.changed → live t' < live t)

variable {ops : Ops ω μ κ γ δ σ} {pass : Pass}

private theorem nodeHelper_changed [DecidableEq ω] {ctx : Context ω μ} {d : NodeData ω μ κ}
    {s s' : State ω σ} {skip : Bool} (h : nodeHelper ops pass ctx d s = .ok (skip, s')) :
    s'.changed = s.changed := by
  unfold nodeHelper at h
  split at h
  · cases h
  · split at h
    · cases h
    · split at h
      · cases h
        rfl
      · split at h
        · cases h
        · cases h
          rfl
        · split at h
          · cases h
          · cases h
            rfl
        · cases h

private theorem lastChild_shrinks (ops : Ops ω μ κ γ δ σ) (d : NodeData ω μ κ)
    (child : Tree (NodeData ω μ κ)) (rest : List (Tree (NodeData ω μ κ))) (s : State ω σ) :
    liveNode (lastChild ops d (child :: rest) s).1 ≤ liveNode (.node d (child :: rest)) ∧
      ((lastChild ops d (child :: rest) s).2.changed ≠ s.changed →
        liveNode (lastChild ops d (child :: rest) s).1 < liveNode (.node d (child :: rest))) := by
  unfold lastChild
  cases hkind : d.kind with
  | optional opt =>
    by_cases henabled : s.enabled opt = false
    · simp only [henabled, if_true]
      have hlive : liveNode (.node d (child :: rest)) = 1 + liveOptionals (child :: rest) := by
        simp [liveNode, isLive, hkind]
      have hempty : liveNode (.node d ([] : List (Tree (NodeData ω μ κ)))) = 0 := by
        simp [liveNode, isLive, hkind, liveOptionals]
      rw [hlive, hempty]
      exact ⟨by omega, fun _ => by omega⟩
    · simp only [henabled]
      exact ⟨Nat.le_refl _, fun h => absurd rfl h⟩
  | _ => exact ⟨Nat.le_refl _, fun h => absurd rfl h⟩

/-- The numbers for a node whose children have been walked over. -/
theorem Shrinks.node (ops : Ops ω μ κ γ δ σ) (d : NodeData ω μ κ)
    {children rest' : List (Tree (NodeData ω μ κ))} {child' : Tree (NodeData ω μ κ)}
    {s s' : State ω σ} (hne : children ≠ [])
    (h : Shrinks liveOptionals children (child' :: rest') s s') :
    Shrinks liveNode (.node d children) (lastChild ops d (child' :: rest') s').1 s
      (lastChild ops d (child' :: rest') s').2 := by
  have hlast := lastChild_shrinks ops d child' rest' s'
  have hbefore : liveNode (.node d (child' :: rest')) + liveOptionals children =
      liveNode (.node d children) + liveOptionals (child' :: rest') := by
    obtain ⟨child, rest, rfl⟩ := List.exists_cons_of_ne_nil hne
    have hsame : isLive d (child' :: rest') = isLive d (child :: rest) := by
      unfold isLive
      cases d.kind <;> rfl
    simp only [liveNode, hsame]
    omega
  obtain ⟨hle, hlt⟩ := h
  refine ⟨by omega, ?_⟩
  intro hchanged
  by_cases hsame : s'.changed = s.changed
  · have hstrict := hlast.2 (by rw [hsame]; exact hchanged)
    omega
  · have hstrict := hlt hsame
    omega

variable [DecidableEq ω] [DecidableEq μ]

/-- By recursion on the tree, with the state as it is when the walk gets there. -/
private theorem walk_shrinks (ts : List (Tree (NodeData ω μ κ))) :
    ∀ ctx s ts' s', walkSiblings ops pass ctx ts s = .ok (ts', s') →
      Shrinks liveOptionals ts ts' s s' := by
  refine Cil.walkSiblings.induct
    (fun ts => ∀ ctx s ts' s', walkSiblings ops pass ctx ts s = .ok (ts', s') →
      Shrinks liveOptionals ts ts' s s')
    (fun t => ∀ ctx s t' s', walkNode ops pass ctx t s = .ok (t', s') →
      Shrinks liveNode t t' s s') ?node ?nil ?cons ts
  case node =>
    intro d children ih ctx s t' s' h
    cases walkNode_walked h with
    | skipped hnode ht =>
      rw [ht]
      exact ⟨Nat.le_refl _, fun hne => absurd (nodeHelper_changed hnode) hne⟩
    | leaf hnode hchildren ht =>
      rw [ht, hchildren]
      exact ⟨Nat.le_refl _, fun hne => absurd (nodeHelper_changed hnode) hne⟩
    | @inner s₁ s₂ ctx' child' rest' hnode hchildren hctx hwalk hlast =>
      have hshrinks := (ih ctx' s₁ _ s₂ hwalk).node ops d hchildren
      rw [← hlast] at hshrinks
      refine ⟨hshrinks.1, ?_⟩
      rw [← nodeHelper_changed hnode]
      exact hshrinks.2
  case nil =>
    intro ctx s ts' s' h
    cases h
    exact ⟨Nat.le_refl _, fun hne => absurd rfl hne⟩
  case cons =>
    intro t ts iht ihts ctx s us s₂ h
    obtain ⟨t', s₁, ts', ht, hts, rfl⟩ := walkSiblings_cons h
    obtain ⟨hle, hlt⟩ := iht ctx s t' s₁ ht
    obtain ⟨hle', hlt'⟩ := ihts ctx s₁ ts' s₂ hts
    simp only [Shrinks, liveOptionals]
    refine ⟨by omega, ?_⟩
    intro hne
    by_cases hfirst : s₁.changed = s.changed
    · have hstrict := hlt' (by rw [hfirst]; exact hne)
      omega
    · have hstrict := hlt hfirst
      omega

/-- A turn adds no optional. -/
private theorem turn_next_live {c c' : Config ω μ κ σ} (h : turn ops c = .next c') :
    liveOptionals c'.ast ≤ liveOptionals c.ast ∧
      c.remaining.length = c'.remaining.length + 1 := by
  obtain ⟨pass, rest, ast, s, db, hdone, _, rfl⟩ := turn_next h
  refine ⟨(walk_shrinks c.ast _ _ _ _ hdone.walk).1, ?_⟩
  rw [hdone.remaining]
  rfl

/-- Before a restart an optional has been emptied. -/
private theorem turn_restart_live {c c' : Config ω μ κ σ} (h : turn ops c = .restart c') :
    liveOptionals c'.ast < liveOptionals c.ast := by
  obtain ⟨pass, rest, ast, s, db, hdone, hchanged, rfl⟩ := turn_restart h
  apply (walk_shrinks c.ast _ _ _ _ hdone.walk).2
  rw [hchanged]
  simp

end Counting

section Loop

variable {ops : Ops ω μ κ γ δ σ}

/-- What the lists in the tree lead to is no item that was freed and no cycle of named sets. -/
def FollowableReset (ops : Ops ω μ κ γ δ σ) (c : Config ω μ κ σ) : Prop :=
  ∀ e ∈ resetStarts ops (Cil.walkSiblings (fun _ => false) c.ast) c.db, ∃ d, e = some d ∧
    ¬ ∃ d', Relation.ReflTransGen (Edge (setsBelow (ops.classperms c.db))) d d' ∧
      (none ∈ setsBelow (ops.classperms c.db) d' ∨
        Relation.TransGen (Edge (setsBelow (ops.classperms c.db))) d' d')

private theorem followableReset_iff [Finite δ] {c : Config ω μ κ σ} :
    FollowableReset ops c ↔
      ∀ e ∈ resetStarts ops (Cil.walkSiblings (fun _ => false) c.ast) c.db,
        Leads (ops.classperms c.db) e := by
  refine forall₂_congr fun e _ => exists_congr fun d => and_congr_right fun _ => ?_
  exact unfolds_iff.symm

variable [DecidableEq ω] [DecidableEq μ]

/-- Every statement that the next pass resolves is resolved: no name is looked up for ever. -/
def PassReturns (ops : Ops ω μ κ γ δ σ) (c : Config ω μ κ σ) : Prop :=
  ∀ pass rest, c.remaining = pass :: rest →
    walkSiblings ops pass .empty c.ast ⟨c.db, c.enabled, false⟩ ≠ .error .endless

private theorem passReturns_iff {c : Config ω μ κ σ} :
    PassReturns ops c ↔ turn ops c ≠ .endless := by
  constructor
  · intro h hturn
    cases hremaining : c.remaining with
    | nil =>
      unfold turn at hturn
      simp [hremaining] at hturn
    | cons pass rest =>
      have hreturns := h pass rest hremaining
      unfold turn at hturn
      rw [hremaining] at hturn
      simp only at hturn
      split at hturn
      · cases hturn
      · rename_i hwalk
        exact hreturns hwalk
      · split at hturn
        · split at hturn
          · cases hturn
          · cases hturn
        · cases hturn
  · intro h pass rest hremaining hwalk
    apply h
    unfold turn
    simp only [hremaining, hwalk]

/-- The configurations that a run comes to at the head of the loop. -/
inductive Reaches (ops : Ops ω μ κ γ δ σ) : Config ω μ κ σ → Config ω μ κ σ → Prop
  | refl (c : Config ω μ κ σ) : Reaches ops c c
  | next {c c₁ c₂ : Config ω μ κ σ} (hturn : turn ops c = .next c₁) (h : Reaches ops c₁ c₂) :
      Reaches ops c c₂
  | restart {c c₁ c₂ : Config ω μ κ σ} {fuel : Nat} {db : σ}
      (hturn : turn ops c = .restart c₁) (hreset : resetAst ops fuel c₁.ast c₁.db = some db)
      (h : Reaches ops { c₁ with db := db } c₂) : Reaches ops c c₂

/-- The loop of passes terminates, with every reset on the way, and every restart comes
after the removal of what an optional contains. -/
structure Terminates (ops : Ops ω μ κ γ δ σ) (c : Config ω μ κ σ) : Prop where
  ends : ∃ fuel result, resolveFrom ops fuel c = some result
  resets : ∀ c₁ c₂, Reaches ops c c₁ → turn ops c₁ = .restart c₂ →
    ∃ fuel db, resetAst ops fuel c₂.ast c₂.db = some db
  restarts : ∀ c₁ c₂, Reaches ops c c₁ → turn ops c₁ = .restart c₂ →
    liveOptionals c₂.ast < liveOptionals c₁.ast
  passes : ∀ c₁ c₂, Reaches ops c c₁ → turn ops c₁ = .next c₂ →
    liveOptionals c₂.ast ≤ liveOptionals c₁.ast

/-- Where the loop ends it ends from every configuration on the way. -/
private theorem ends_of_reaches {c c₁ : Config ω μ κ σ} (h : Reaches ops c c₁)
    (hends : ∃ fuel result, resolveFrom ops fuel c = some result) :
    ∃ fuel result, resolveFrom ops fuel c₁ = some result := by
  induction h with
  | refl => exact hends
  | next hturn _ ih =>
    apply ih
    obtain ⟨fuel, result, hresult⟩ := hends
    cases fuel with
    | zero => cases hresult
    | succ fuel =>
      rw [resolveFrom, hturn] at hresult
      exact ⟨fuel, result, hresult⟩
  | @restart c c₁ c₂ fuel₁ db hturn hreset _ ih =>
    apply ih
    obtain ⟨fuel, result, hresult⟩ := hends
    cases fuel with
    | zero => cases hresult
    | succ fuel =>
      rw [resolveFrom, hturn] at hresult
      simp only at hresult
      split at hresult
      · cases hresult
      · rename_i db' hdb'
        obtain rfl := resetAst_unique hreset hdb'
        exact ⟨fuel, result, hresult⟩

private theorem resolveFrom_mono {fuel fuel' : Nat} (hle : fuel ≤ fuel') {c : Config ω μ κ σ}
    {result : Rc × Config ω μ κ σ} (h : resolveFrom ops fuel c = some result) :
    resolveFrom ops fuel' c = some result := by
  induction fuel generalizing fuel' c with
  | zero => cases h
  | succ fuel ih =>
    obtain ⟨fuel', rfl⟩ : ∃ n, fuel' = n + 1 := ⟨fuel' - 1, by omega⟩
    rw [resolveFrom] at h ⊢
    split at h
    · exact h
    · cases h
    · exact ih (by omega) h
    · split at h
      · cases h
      · rename_i db hdb
        rw [resetAst_mono (by omega) hdb]
        exact ih (by omega) h

/-- The loop ends: by induction on the number of optionals with children, and for as many of
them on the number of passes to come. -/
private theorem ends_of_resets {c : Config ω μ κ σ}
    (hreturns : ∀ c₁, Reaches ops c c₁ → PassReturns ops c₁)
    (h : ∀ c₁ c₂, Reaches ops c c₁ → turn ops c₁ = .restart c₂ →
      ∃ fuel db, resetAst ops fuel c₂.ast c₂.db = some db) :
    ∃ fuel result, resolveFrom ops fuel c = some result := by
  have hmeasure : ∀ live passes, ∀ c : Config ω μ κ σ, liveOptionals c.ast ≤ live →
      c.remaining.length ≤ passes → (∀ c₁, Reaches ops c c₁ → PassReturns ops c₁) →
      (∀ c₁ c₂, Reaches ops c c₁ → turn ops c₁ = .restart c₂ →
        ∃ fuel db, resetAst ops fuel c₂.ast c₂.db = some db) →
      ∃ fuel result, resolveFrom ops fuel c = some result := by
    intro live
    induction live using Nat.strong_induction_on with
    | _ live ihlive =>
      intro passes
      induction passes with
      | zero =>
        intro c _ hpasses _ _
        have hnil : c.remaining = [] := List.eq_nil_of_length_eq_zero (by omega)
        refine ⟨1, (ops.verifyInitsids c.db, c), ?_⟩
        unfold resolveFrom turn
        simp only [hnil]
      | succ passes ihpasses =>
        intro c hlive hpasses hreturns hresets
        cases hturn : turn ops c with
        | finished rc c' =>
          refine ⟨1, (rc, c'), ?_⟩
          rw [resolveFrom, hturn]
        | endless => exact absurd hturn (passReturns_iff.mp (hreturns c (.refl c)))
        | next c' =>
          obtain ⟨hlive', hlength⟩ := turn_next_live hturn
          obtain ⟨fuel, result, hresult⟩ := ihpasses c' (by omega) (by omega)
            (fun c₁ hreach => hreturns c₁ (.next hturn hreach))
            fun c₁ c₂ hreach => hresets c₁ c₂ (.next hturn hreach)
          refine ⟨fuel + 1, result, ?_⟩
          rw [resolveFrom, hturn]
          exact hresult
        | restart c' =>
          have hlive' := turn_restart_live hturn
          obtain ⟨fuel, db, hreset⟩ := hresets c c' (.refl c) hturn
          obtain ⟨fuel', result, hresult⟩ := ihlive (liveOptionals c'.ast) (by omega)
            c'.remaining.length { c' with db := db } (Nat.le_refl _) (Nat.le_refl _)
            (fun c₁ hreach => hreturns c₁ (.restart hturn hreset hreach))
            fun c₁ c₂ hreach => hresets c₁ c₂ (.restart hturn hreset hreach)
          refine ⟨max fuel fuel' + 1, result, ?_⟩
          rw [resolveFrom, hturn]
          simp only [resetAst_mono (Nat.le_max_left fuel fuel') hreset]
          exact resolveFrom_mono (Nat.le_max_right fuel fuel') hresult
  exact hmeasure _ _ c (Nat.le_refl _) (Nat.le_refl _) hreturns h

end Loop

section SetInItself

/-- `(classpermission a)`, `(classpermissionset a a)`, and a rule that does not resolve. -/
inductive Stmt
  | classpermission
  | classpermissionset
  | unresolvable
  deriving DecidableEq, Repr

/-- The database is the list of `a`, to which the set statement adds `a` itself. -/
def selfSetOps : Ops Unit Unit Stmt Unit Unit (List (ClasspermsItem Unit Unit)) where
  resolveNode pass d db :=
    match pass, d.stmt with
    | .misc3, .classpermissionset => some (.ok, db ++ [.set (some ())])
    | .misc3, .unresolvable => some (.enoent, db)
    | _, _ => some (.ok, db)
  childrenDestroy _ db := db
  mergeOrders _ db := (.ok, db)
  resetOrders db := db
  verifyInitsids _ := .ok
  classpermsLists d db :=
    match d.stmt with
    | .classpermission => [some db]
    | .classpermissionset => [some [.set (if db.isEmpty then none else some ())]]
    | .unresolvable => []
  classperms db _ := some db
  resetClassperms _ db := db
  resetRest _ db := db
  classperms_resetClassperms _ _ := rfl
  classperms_resetRest _ _ := rfl
  classpermsLists_resetClassperms _ _ _ := rfl
  classpermsLists_resetRest _ _ _ := rfl

/-- The statements, with an optional around the rule. -/
def selfSetAst (inside : List (Tree (NodeData Unit Unit Stmt))) :
    List (Tree (NodeData Unit Unit Stmt)) :=
  [.node ⟨.other, .classpermission⟩ [], .node ⟨.other, .classpermissionset⟩ [],
    .node ⟨.optional (), .classpermission⟩ inside]

def selfSetConfig (remaining : List Pass) :
    Config Unit Unit Stmt (List (ClasspermsItem Unit Unit)) :=
  ⟨remaining, selfSetAst [.node ⟨.conditional, .unresolvable⟩ []], [], fun _ => true⟩

private theorem selfSet_restart : turn selfSetOps (selfSetConfig [.misc3]) =
    .restart ⟨afterCall1, selfSetAst [], [.set (some ())],
      Function.update (fun _ => true) () false⟩ := rfl

private theorem selfSet_next {pass : Pass} (rest : List Pass) (h : pass ≠ .misc3) :
    turn selfSetOps (selfSetConfig (pass :: rest)) = .next (selfSetConfig rest) := by
  cases pass with
  | misc3 => exact absurd rfl h
  | _ => rfl

private theorem selfSet_reaches :
    Reaches selfSetOps (selfSetConfig afterCall1) (selfSetConfig [.misc3]) := by
  have hstep : ∀ pass rest, pass ≠ Pass.misc3 →
      Reaches selfSetOps (selfSetConfig rest) (selfSetConfig [.misc3]) →
      Reaches selfSetOps (selfSetConfig (pass :: rest)) (selfSetConfig [.misc3]) :=
    fun pass rest hne h => .next (selfSet_next rest hne) h
  refine hstep .call2 _ (by decide) (hstep .alias1 _ (by decide) ?_)
  refine hstep .alias2 _ (by decide) (hstep .misc1 _ (by decide) ?_)
  exact hstep .mls _ (by decide) (hstep .misc2 _ (by decide) (.refl _))

end SetInItself

end Cil.Resolve.Passes
