/- Cil/Resolve/LastPass
   digest: What the last pass establishes holds when all passes and restarts are done. -/

import Cil.Library.Lasting
import Cil.Resolve.Passes

set_option autoImplicit false
set_option relaxedAutoImplicit false

namespace Cil.Resolve.Passes

open Cil.Library

variable {ω μ κ γ δ σ : Type}

/-- The nodes whose children these passes do not visit. -/
def skipsHead (d : NodeData ω μ κ) : Bool := d.kind.skipHead

def Kind.isBooleanif : Kind ω μ → Bool
  | .booleanif => true
  | _ => false

/-- Below booleanifs there are only statements that may stand there. -/
inductive Allowed : Bool → List (Tree (NodeData ω μ κ)) → Prop
  | nil (inBoolif : Bool) : Allowed inBoolif []
  | cons {inBoolif : Bool} {d : NodeData ω μ κ} {children ts : List (Tree (NodeData ω μ κ))}
      (hnode : inBoolif = true → d.kind.allowedInBoolif = true)
      (hbelow : skipsHead d = false → Allowed (inBoolif || d.kind.isBooleanif) children)
      (hrest : Allowed inBoolif ts) : Allowed inBoolif (.node d children :: ts)

section Walk

variable {ops : Ops ω μ κ γ δ σ} {pass : Pass} {R : σ → σ → Prop}
  {fact : NodeData ω μ κ → σ → Prop}

/-- The walk left the tree as it was, and established the fact for every node it came to. -/
structure Established (R : σ → σ → Prop) (fact : NodeData ω μ κ → σ → Prop) (inBoolif : Bool)
    (ts us : List (Tree (NodeData ω μ κ))) (s s' : σ) : Prop where
  same : us = ts
  later : R s s'
  facts : ∀ d ∈ Cil.walkSiblings skipsHead ts, skipsHead d = false → fact d s'
  allowed : Allowed inBoolif ts

/-- How a walk ends: if it has not emptied an optional, and not disabled the one that it is in,
it has established the fact. -/
structure Walked (R : σ → σ → Prop) (fact : NodeData ω μ κ → σ → Prop) (ctx : Context ω μ)
    (ts us : List (Tree (NodeData ω μ κ))) (s s' : State ω σ) : Prop where
  changed : s.changed = true → s'.changed = true
  disabled : ∀ o, s.enabled o = false → s'.enabled o = false
  established : s'.changed = true ∨ (∃ o, ctx.optstack.head? = some o ∧ s'.enabled o = false) ∨
    Established R fact ctx.boolif ts us s.db s'.db

theorem Walked.nil (P : Progress R) (ctx : Context ω μ) (s : State ω σ) :
    Walked R fact ctx ([] : List (Tree (NodeData ω μ κ))) [] s s where
  changed := id
  disabled _ := id
  established := Or.inr (Or.inr ⟨rfl, P.refl s.db, fun _ hd => (List.not_mem_nil hd).elim,
    .nil _⟩)

theorem Walked.append (P : Progress R) (hlasts : ∀ d, Lasts R (fact d)) {ctx : Context ω μ}
    {t t' : Tree (NodeData ω μ κ)} {ts ts' : List (Tree (NodeData ω μ κ))}
    {s s₁ s₂ : State ω σ} (ht : Walked R fact ctx [t] [t'] s s₁)
    (hts : Walked R fact ctx ts ts' s₁ s₂) : Walked R fact ctx (t :: ts) (t' :: ts') s s₂ := by
  refine ⟨fun h => hts.changed (ht.changed h), fun o h => hts.disabled o (ht.disabled o h), ?_⟩
  rcases hts.established with hchanged | ⟨o, ho, hdisabled⟩ | hrest
  · exact Or.inl hchanged
  · exact Or.inr (Or.inl ⟨o, ho, hdisabled⟩)
  · rcases ht.established with hchanged | ⟨o, ho, hdisabled⟩ | hfirst
    · exact Or.inl (hts.changed hchanged)
    · exact Or.inr (Or.inl ⟨o, ho, hts.disabled o hdisabled⟩)
    · refine Or.inr (Or.inr ⟨?_, P.trans _ _ _ hfirst.later hrest.later, ?_, ?_⟩)
      · have hsame : t' = t := by simpa using hfirst.same
        rw [hsame, hrest.same]
      · intro d hd hhead
        rw [Cil.walkSiblings] at hd
        rcases List.mem_append.mp hd with hd | hd
        · refine hlasts d _ _ hrest.later (hfirst.facts d ?_ hhead)
          rw [Cil.walkSiblings]
          exact List.mem_append_left _ hd
        · exact hrest.facts d hd hhead
      · obtain ⟨d, children⟩ := t
        cases hfirst.allowed with
        | cons hnode hbelow _ => exact .cons hnode hbelow hrest.allowed

/-- The fact is established by what the pass does with a node. -/
def Resolves (ops : Ops ω μ κ γ δ σ) (pass : Pass) (R : σ → σ → Prop)
    (fact : NodeData ω μ κ → σ → Prop) : Prop :=
  ∀ d s s', skipsHead d = false → ops.resolveNode pass d s = some (.ok, s') →
    R s s' ∧ fact d s'

/-- What happens to a node before its children are visited. -/
private theorem nodeHelper_cases [DecidableEq ω] {ctx : Context ω μ} {d : NodeData ω μ κ}
    {s s' : State ω σ} {skip : Bool} (h : nodeHelper ops pass ctx d s = .ok (skip, s')) :
    (ctx.boolif = true → d.kind.allowedInBoolif = true) ∧ s'.changed = s.changed ∧
      (skip = true ∧ skipsHead d = true ∧ s' = s ∨
        skip = false ∧ skipsHead d = false ∧
          ((∃ db, ops.resolveNode pass d s.db = some (.ok, db) ∧ s' = { s with db := db }) ∨
            ∃ o db, ctx.optstack.head? = some o ∧
              s' = { s with db := db, enabled := Function.update s.enabled o false })) := by
  unfold nodeHelper at h
  split_ifs at h with hoptional hboolif hskip
  · cases h
    refine ⟨?_, rfl, Or.inl ⟨rfl, hskip, rfl⟩⟩
    intro hin
    by_contra hnot
    exact hboolif ⟨hin, by simpa using hnot⟩
  · have hallowed : ctx.boolif = true → d.kind.allowedInBoolif = true := by
      intro hin
      by_contra hnot
      exact hboolif ⟨hin, by simpa using hnot⟩
    have hhead : skipsHead d = false := by simpa [skipsHead] using hskip
    split at h
    · cases h
    · rename_i db hresolve
      cases h
      exact ⟨hallowed, rfl, Or.inr ⟨rfl, hhead, Or.inl ⟨db, hresolve, rfl⟩⟩⟩
    · rename_i db hresolve
      split at h
      · cases h
      · rename_i opt rest hstack
        cases h
        exact ⟨hallowed, rfl, Or.inr ⟨rfl, hhead, Or.inr ⟨opt, db, by rw [hstack]; rfl, rfl⟩⟩⟩
    · cases h

private theorem nodeHelper_disabled [DecidableEq ω] {ctx : Context ω μ} {d : NodeData ω μ κ}
    {s s' : State ω σ} {skip : Bool} (h : nodeHelper ops pass ctx d s = .ok (skip, s')) (o : ω)
    (ho : s.enabled o = false) : s'.enabled o = false := by
  obtain ⟨-, -, hcases⟩ := nodeHelper_cases h
  rcases hcases with ⟨-, -, rfl⟩ | ⟨-, -, ⟨db, -, rfl⟩ | ⟨o', db, -, rfl⟩⟩
  · exact ho
  · exact ho
  · by_cases heq : o = o'
    · rw [heq]
      exact Function.update_self o' false s.enabled
    · exact (Function.update_of_ne heq false s.enabled).trans ho

/-- What the walk knows below a node. -/
private theorem firstChild_cases {ctx ctx' : Context ω μ} [DecidableEq μ] {k : Kind ω μ}
    (h : firstChild ctx k = some ctx') :
    ctx'.boolif = (ctx.boolif || k.isBooleanif) ∧
      ((∃ opt, k = .optional opt ∧ ctx'.optstack = opt :: ctx.optstack) ∨
        (∀ opt, k ≠ .optional opt) ∧ ctx'.optstack = ctx.optstack) := by
  cases k with
  | call callee =>
    rw [firstChild] at h
    split_ifs at h
    cases h
    exact ⟨(Bool.or_false _).symm, Or.inr ⟨fun opt => by simp, rfl⟩⟩
  | optional opt =>
    cases h
    exact ⟨(Bool.or_false _).symm, Or.inl ⟨opt, rfl, rfl⟩⟩
  | booleanif =>
    cases h
    exact ⟨(Bool.or_true _).symm, Or.inr ⟨fun opt => by simp, rfl⟩⟩
  | _ =>
    cases h
    exact ⟨(Bool.or_false _).symm, Or.inr ⟨fun opt => by simp, rfl⟩⟩

/-- At the last child an optional is left alone, or emptied. -/
private theorem lastChild_cases (ops : Ops ω μ κ γ δ σ) (d : NodeData ω μ κ)
    (children : List (Tree (NodeData ω μ κ))) (s : State ω σ) :
    lastChild ops d children s = (.node d children, s) ∧
        (∀ opt, d.kind = .optional opt → s.enabled opt = true) ∨
      (lastChild ops d children s).2.changed = true ∧
        (lastChild ops d children s).2.enabled = s.enabled := by
  unfold lastChild
  split
  · rename_i opt hkind
    split_ifs with henabled
    · exact Or.inr ⟨rfl, rfl⟩
    · refine Or.inl ⟨rfl, ?_⟩
      intro opt' hopt'
      rw [hkind] at hopt'
      cases hopt'
      simpa using henabled
  · rename_i hkind
    exact Or.inl ⟨rfl, fun opt hopt => absurd hopt (hkind opt)⟩

/-- A node that is not skipped, from the walk below it. -/
theorem Walked.node [DecidableEq ω] {ctx' : Context ω μ}
    {children below : List (Tree (NodeData ω μ κ))} {s₁ s₂ : State ω σ}
    (hchildren : Walked R fact ctx' children below s₁ s₂) (P : Progress R)
    (hlasts : ∀ d, Lasts R (fact d)) (hresolves : Resolves ops pass R fact)
    {ctx : Context ω μ} {d : NodeData ω μ κ}
    {s : State ω σ} (hnode : nodeHelper ops pass ctx d s = .ok (false, s₁))
    (hboolif : ctx'.boolif = (ctx.boolif || d.kind.isBooleanif))
    (hstack : ∀ o, ctx'.optstack.head? = some o → s₂.enabled o = false →
      ctx.optstack.head? = some o) :
    Walked R fact ctx [.node d children] [.node d below] s s₂ := by
  obtain ⟨hallowed, hchanged, hcases⟩ := nodeHelper_cases hnode
  rcases hcases with ⟨hskip, -, -⟩ | ⟨-, hhead, hresolved⟩
  · cases hskip
  refine ⟨fun h => hchildren.changed (hchanged.trans h),
    fun o ho => hchildren.disabled o (nodeHelper_disabled hnode o ho), ?_⟩
  rcases hresolved with ⟨db, hok, rfl⟩ | ⟨o, db, ho, rfl⟩
  · rcases hchildren.established with hset | ⟨o, ho, hdisabled⟩ | hbelow
    · exact Or.inl hset
    · exact Or.inr (Or.inl ⟨o, hstack o ho hdisabled, hdisabled⟩)
    · obtain ⟨hlater, hfact⟩ := hresolves d s.db db hhead hok
      refine Or.inr (Or.inr ⟨by rw [hbelow.same], P.trans _ _ _ hlater hbelow.later, ?_, ?_⟩)
      · intro d' hd' hhead'
        rw [Cil.walkSiblings, Cil.walkNode, hhead, Cil.walkSiblings, List.append_nil] at hd'
        rcases List.mem_cons.mp hd' with rfl | hd'
        · exact hlasts _ _ _ hbelow.later hfact
        · exact hbelow.facts d' hd' hhead'
      · refine .cons hallowed (fun _ => ?_) (.nil _)
        rw [← hboolif]
        exact hbelow.allowed
  · exact Or.inr (Or.inl ⟨o, ho, hchildren.disabled o (Function.update_self o false s.enabled)⟩)

/-- A node whose children are skipped. -/
theorem Walked.skipped [DecidableEq ω] (P : Progress R) {ctx : Context ω μ} {d : NodeData ω μ κ}
    {s s' : State ω σ} (hnode : nodeHelper ops pass ctx d s = .ok (true, s'))
    (children : List (Tree (NodeData ω μ κ))) :
    Walked R fact ctx [.node d children] [.node d children] s s' := by
  obtain ⟨hallowed, -, hcases⟩ := nodeHelper_cases hnode
  rcases hcases with ⟨-, hhead, rfl⟩ | ⟨hskip, -⟩
  · refine ⟨id, fun _ => id, Or.inr (Or.inr ⟨rfl, P.refl _, ?_, ?_⟩)⟩
    · intro d' hd' hhead'
      rw [Cil.walkSiblings, Cil.walkNode, hhead, Cil.walkSiblings, List.append_nil, if_pos rfl,
        List.mem_singleton] at hd'
      rw [hd', hhead] at hhead'
      cases hhead'
    · refine .cons hallowed (fun hnot => ?_) (.nil _)
      rw [hhead] at hnot
      cases hnot
  · cases hskip

/-- A node with children, at the last of them. -/
theorem Walked.last [DecidableEq ω] [DecidableEq μ] {ctx' : Context ω μ}
    {children below : List (Tree (NodeData ω μ κ))} {s₁ s₂ : State ω σ}
    (hchildren : Walked R fact ctx' children below s₁ s₂) (P : Progress R)
    (hlasts : ∀ d, Lasts R (fact d)) (hresolves : Resolves ops pass R fact)
    {ctx : Context ω μ} {d : NodeData ω μ κ} {s : State ω σ}
    (hnode : nodeHelper ops pass ctx d s = .ok (false, s₁))
    (hctx : firstChild ctx d.kind = some ctx') :
    Walked R fact ctx [.node d children] [(lastChild ops d below s₂).1] s
      (lastChild ops d below s₂).2 := by
  obtain ⟨hboolif, hstack⟩ := firstChild_cases hctx
  rcases lastChild_cases ops d below s₂ with ⟨heq, hleft⟩ | ⟨hset, henabled⟩
  · rw [heq]
    refine hchildren.node P hlasts hresolves hnode hboolif fun o ho hdisabled => ?_
    rcases hstack with ⟨opt, hkind, hopts⟩ | ⟨-, hopts⟩
    · rw [hopts] at ho
      cases ho
      rw [hleft o hkind] at hdisabled
      cases hdisabled
    · rw [← hopts]
      exact ho
  · refine ⟨fun _ => hset, fun o ho => ?_, Or.inl hset⟩
    rw [henabled]
    exact hchildren.disabled o (nodeHelper_disabled hnode o ho)

variable [DecidableEq ω] [DecidableEq μ]

omit [DecidableEq μ] in
/-- A walk that fails does not return `SEPOL_OK`. -/
private theorem nodeHelper_error {ctx : Context ω μ} {d : NodeData ω μ κ} {s : State ω σ}
    {stop : Stop} (h : nodeHelper ops pass ctx d s = .error stop) : stop ≠ .failed .ok := by
  unfold nodeHelper at h
  split_ifs at h
  · cases h
    simp
  · cases h
    simp
  · split at h
    · cases h
      simp
    · cases h
    · split at h
      · cases h
        simp
      · cases h
    · rename_i hok _ hresolve
      cases h
      intro heq
      cases heq
      exact hok rfl

mutual

private theorem walkSiblings_error (ts : List (Tree (NodeData ω μ κ))) (ctx : Context ω μ)
    (s : State ω σ) (stop : Stop) (h : walkSiblings ops pass ctx ts s = .error stop) :
    stop ≠ .failed .ok := by
  match ts with
  | [] => cases h
  | t :: ts =>
      rw [walkSiblings] at h
      split at h
      · rename_i ht
        cases h
        exact walkNode_error t ctx s _ ht
      · split at h
        · rename_i hts
          cases h
          exact walkSiblings_error ts ctx _ _ hts
        · cases h

private theorem walkNode_error (t : Tree (NodeData ω μ κ)) (ctx : Context ω μ) (s : State ω σ)
    (stop : Stop) (h : walkNode ops pass ctx t s = .error stop) : stop ≠ .failed .ok := by
  match t with
  | .node d children =>
      rw [walkNode.eq_def] at h
      simp only at h
      split at h
      · rename_i hnode
        cases h
        exact nodeHelper_error hnode
      · cases h
      · match children with
        | [] => cases h
        | child :: rest =>
          simp only at h
          split at h
          · cases h
            simp
          · split at h
            · rename_i hchild
              cases h
              exact walkNode_error child _ _ _ hchild
            · split at h
              · rename_i hrest
                cases h
                exact walkSiblings_error rest _ _ _ hrest
              · cases h

end

mutual

private theorem walkSiblings_walked (P : Progress R) (hlasts : ∀ d, Lasts R (fact d))
    (hresolves : Resolves ops pass R fact) (ts : List (Tree (NodeData ω μ κ)))
    (ctx : Context ω μ) (us : List (Tree (NodeData ω μ κ))) (s s' : State ω σ)
    (h : walkSiblings ops pass ctx ts s = .ok (us, s')) : Walked R fact ctx ts us s s' := by
  match ts with
  | [] =>
      cases h
      exact .nil P ctx s
  | t :: ts =>
      obtain ⟨t', s₁, ts', ht, hts, rfl⟩ := walkSiblings_cons h
      exact (walkNode_walks P hlasts hresolves t ctx t' s s₁ ht).append P hlasts
        (walkSiblings_walked P hlasts hresolves ts ctx ts' s₁ s' hts)

private theorem walkNode_walks (P : Progress R) (hlasts : ∀ d, Lasts R (fact d))
    (hresolves : Resolves ops pass R fact) (t : Tree (NodeData ω μ κ)) (ctx : Context ω μ)
    (t' : Tree (NodeData ω μ κ)) (s s' : State ω σ)
    (h : walkNode ops pass ctx t s = .ok (t', s')) : Walked R fact ctx [t] [t'] s s' := by
  match t with
  | .node d children =>
      rcases walkNode_walked h with ⟨hnode, rfl⟩ | ⟨hnode, rfl, rfl⟩ |
        ⟨hnode, -, hctx, hwalk, hlast⟩
      · exact .skipped P hnode children
      · let below : Context ω μ := { ctx with boolif := ctx.boolif || d.kind.isBooleanif }
        have hnone : Walked R fact below [] [] s' s' := .nil P below s'
        exact hnone.node P hlasts hresolves hnode rfl fun _ ho _ => ho
      · have hbelow := walkSiblings_walked P hlasts hresolves children _ _ _ _ hwalk
        have hwalked := hbelow.last P hlasts hresolves hnode hctx
        rw [← hlast] at hwalked
        exact hwalked

end

end Walk

section Loop

variable [DecidableEq ω] [DecidableEq μ] {ops : Ops ω μ κ γ δ σ}

/-- The loop has passes to come, and `CIL_PASS_MISC3` is the last of them. -/
def Config.Unfinished (c : Config ω μ κ σ) : Prop :=
  ∃ passes : List Pass, c.remaining = passes ++ [.misc3]

omit [DecidableEq ω] [DecidableEq μ] in
theorem unfinished_afterCall1 (ast : List (Tree (NodeData ω μ κ))) (db : σ)
    (enabled : ω → Bool) : Config.Unfinished ⟨afterCall1, ast, db, enabled⟩ :=
  ⟨[.call2, .alias1, .alias2, .misc1, .mls, .misc2], rfl⟩

/-- A turn with passes to come does not end the loop well. -/
private theorem turn_finished {c c' : Config ω μ κ σ} (hc : c.remaining ≠ [])
    (h : turn ops c = .finished .ok c') : False := by
  unfold turn at h
  split at h
  · exact hc ‹_›
  · split at h
    · rename_i rc hwalk
      cases h
      exact walkSiblings_error _ _ _ _ hwalk rfl
    · cases h
    · split at h
      · split at h
        · cases h
        · cases h
      · rename_i hok hmerge
        cases h
        exact hok rfl

/-- When the loop ends well, the last thing it did was `CIL_PASS_MISC3`, which has emptied no
optional. -/
private theorem resolveFrom_last {fuel : Nat} {c c' : Config ω μ κ σ} (hc : c.Unfinished)
    (h : resolveFrom ops fuel c = some (.ok, c')) :
    ∃ (c₀ : Config ω μ κ σ) (s : State ω σ), PassDone ops c₀ .misc3 [] c'.ast s c'.db ∧
      s.changed = false := by
  induction fuel generalizing c with
  | zero => cases h
  | succ fuel ih =>
    rw [resolveFrom] at h
    obtain ⟨passes, hpasses⟩ := hc
    split at h
    · rename_i rc c₁ hturn
      cases h
      refine (turn_finished ?_ hturn).elim
      rw [hpasses]
      exact List.append_ne_nil_of_right_ne_nil _ (List.cons_ne_nil _ _)
    · cases h
    · rename_i c₁ hturn
      obtain ⟨pass, rest, ast, s, db, hdone, hchanged, rfl⟩ := turn_next hturn
      have hremaining := hdone.remaining
      rw [hpasses] at hremaining
      cases passes with
      | nil =>
        cases hremaining
        cases fuel with
        | zero => cases h
        | succ fuel =>
          have hend : turn ops (⟨[], ast, db, s.enabled⟩ : Config ω μ κ σ) =
              .finished (ops.verifyInitsids db) ⟨[], ast, db, s.enabled⟩ := rfl
          rw [resolveFrom, hend] at h
          obtain ⟨-, rfl⟩ := Prod.mk.inj (Option.some.inj h)
          exact ⟨c, s, hdone, hchanged⟩
      | cons first passes =>
        cases hremaining
        exact ih ⟨passes, rfl⟩ h
    · rename_i c₁ hturn
      obtain ⟨pass, rest, ast, s, db, hdone, hchanged, rfl⟩ := turn_restart hturn
      split at h
      · cases h
      · exact ih (unfinished_afterCall1 _ _ _) h

/-- What `CIL_PASS_MISC3` establishes holds at the end, of every node it comes to. -/
theorem resolveFrom_facts {R : σ → σ → Prop} {fact : NodeData ω μ κ → σ → Prop}
    (P : Progress R) (hlasts : ∀ d, Lasts R (fact d))
    (hresolves : Resolves ops .misc3 R fact) {fuel : Nat} {c c' : Config ω μ κ σ}
    (hc : c.Unfinished) (h : resolveFrom ops fuel c = some (.ok, c')) :
    (∀ d ∈ Cil.walkSiblings skipsHead c'.ast, skipsHead d = false → fact d c'.db) ∧
      Allowed false c'.ast := by
  obtain ⟨c₀, s, hdone, hchanged⟩ := resolveFrom_last hc h
  have hmerge : s.db = c'.db := by
    have hm := hdone.merge
    rw [if_neg (by simp)] at hm
    exact (Prod.mk.inj hm).2
  obtain ⟨-, -, hwalked⟩ := walkSiblings_walked P hlasts hresolves _ _ _ _ _ hdone.walk
  rcases hwalked with hset | ⟨o, ho, -⟩ | hestablished
  · rw [hchanged] at hset
    cases hset
  · cases ho
  · rw [hestablished.same, ← hmerge]
    exact ⟨hestablished.facts, hestablished.allowed⟩

end Loop

end Cil.Resolve.Passes
