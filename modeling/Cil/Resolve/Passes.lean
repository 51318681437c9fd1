/- Cil/Resolve/Passes
   digest: The passes after CIL_PASS_CALL1, with the optionals they disable and the resets. -/

import Mathlib.Logic.Function.Basic
import Cil.Tree

/-!
`cil_resolve_ast` from `CIL_PASS_CALL2` on. What the passes do with single statements, with
the order lists and with the data of a node on a reset are operations of a database `σ`; the
model has the walk over the tree with its stacks, the removal of what a disabled optional
contains, and the loop that goes back to `CIL_PASS_CALL1`.
-/

set_option autoImplicit false
set_option relaxedAutoImplicit false

namespace Cil.Resolve.Passes

/-- The passes from `CIL_PASS_CALL2` on. -/
inductive Pass
  | call2 | alias1 | alias2 | misc1 | mls | misc2 | misc3
  deriving DecidableEq, Repr

/-- The passes that the loop goes through after `pass = CIL_PASS_CALL1`. -/
def afterCall1 : List Pass := [.call2, .alias1, .alias2, .misc1, .mls, .misc2, .misc3]

/-- Whether `pass >= CIL_PASS_MISC1`. -/
def Pass.fromMisc1 : Pass → Bool
  | .call2 | .alias1 | .alias2 => false
  | _ => true

/-- What the walk looks at in a node: an optional with its declaration, a call with its
macro, and the flavors it treats apart. `conditional` are the other statements that may stand
in a booleanif. -/
inductive Kind (ω μ : Type)
  | optional (opt : ω)
  | call (callee : μ)
  | macroDef
  | tunable
  | block (isAbstract : Bool)
  | booleanif
  | conditional
  | other
  deriving DecidableEq, Repr

structure NodeData (ω μ κ : Type) where
  kind : Kind ω μ
  stmt : κ
  deriving DecidableEq, Repr

/-- An item of a class permission list: permissions of one class, or a named set, null while
it is not resolved. The items that a set statement has put into the list of its set are freed
with the statement and stay in the list. -/
inductive ClasspermsItem (γ δ : Type)
  | classperms (cp : γ)
  | set (s : Option δ)
  | freed
  deriving DecidableEq, Repr

/-- What the passes do to the database. `resolveNode` is `none` where it does not return: a name
is looked up for ever in a block below a blockinherit of its own. `classpermsLists` are the lists
that the reset of a node goes through, `classperms` the list of a named set, and `resetRest` what
else the reset of a node does; none of these resets changes a class permission list or a named
set. -/
structure Ops (ω μ κ γ δ σ : Type) where
  resolveNode : Pass → NodeData ω μ κ → σ → Option (Rc × σ)
  childrenDestroy : List (Tree (NodeData ω μ κ)) → σ → σ
  mergeOrders : List (Tree (NodeData ω μ κ)) → σ → Rc × σ
  resetOrders : σ → σ
  verifyInitsids : σ → Rc
  classpermsLists : NodeData ω μ κ → σ → List (Option (List (ClasspermsItem γ δ)))
  classperms : σ → δ → Option (List (ClasspermsItem γ δ))
  resetClassperms : γ → σ → σ
  resetRest : NodeData ω μ κ → σ → σ
  classperms_resetClassperms : ∀ cp s, classperms (resetClassperms cp s) = classperms s
  classperms_resetRest : ∀ d s, classperms (resetRest d s) = classperms s
  classpermsLists_resetClassperms : ∀ d cp s,
    classpermsLists d (resetClassperms cp s) = classpermsLists d s
  classpermsLists_resetRest : ∀ d d' s, classpermsLists d (resetRest d' s) = classpermsLists d s

/-- The database, the flag `enabled` of the optionals, and `changed`. -/
structure State (ω σ : Type) where
  db : σ
  enabled : ω → Bool
  changed : Bool

/-- The stacks in `cil_args_resolve`, and whether the walk is inside a booleanif. -/
structure Context (ω μ : Type) where
  callstack : List μ
  optstack : List ω
  boolif : Bool

def Context.empty {ω μ : Type} : Context ω μ := ⟨[], [], false⟩

/-- How a walk stops before its end: with a return code, or in a call that does not return. -/
inductive Stop
  | failed (rc : Rc)
  | endless
  deriving DecidableEq, Repr

/-- The statements that may stand in a booleanif. -/
def Kind.allowedInBoolif {ω μ : Type} : Kind ω μ → Bool
  | .conditional => true
  | .call _ => true
  | _ => false

/-- The statements that may not stand in an optional. -/
def Kind.refusedInOptional {ω μ : Type} : Kind ω μ → Bool
  | .tunable => true
  | .macroDef => true
  | _ => false

/-- The nodes below which these passes do not go. -/
def Kind.skipHead {ω μ : Type} : Kind ω μ → Bool
  | .macroDef => true
  | .block isAbstract => isAbstract
  | _ => false

section Walk

variable {ω μ κ γ δ σ : Type} [DecidableEq ω] [DecidableEq μ] (ops : Ops ω μ κ γ δ σ)
  (pass : Pass)

/-- `__cil_resolve_ast_node_helper`; with the state it returns whether the children are
skipped. -/
def nodeHelper (ctx : Context ω μ) (d : NodeData ω μ κ) (s : State ω σ) :
    Except Stop (Bool × State ω σ) :=
  if ctx.optstack ≠ [] ∧ d.kind.refusedInOptional = true then .error (.failed .err)
  else if ctx.boolif = true ∧ d.kind.allowedInBoolif = false then .error (.failed .err)
  else if d.kind.skipHead = true then .ok (true, s)
  else
    match ops.resolveNode pass d s.db with
    | none => .error .endless
    | some (.ok, db) => .ok (false, { s with db := db })
    | some (.enoent, db) =>
        match ctx.optstack with
        | [] => .error (.failed .enoent)
        | opt :: _ =>
            .ok (false, { s with db := db, enabled := Function.update s.enabled opt false })
    | some (rc, _) => .error (.failed rc)

/-- `__cil_resolve_ast_first_child_helper`: the check for recursion leaves out the call on
top of the stack. -/
def firstChild (ctx : Context ω μ) : Kind ω μ → Option (Context ω μ)
  | .call callee =>
      if callee ∈ ctx.callstack.tail then none
      else some { ctx with callstack := callee :: ctx.callstack }
  | .optional opt => some { ctx with optstack := opt :: ctx.optstack }
  | .booleanif => some { ctx with boolif := true }
  | _ => some ctx

/-- `__cil_resolve_ast_last_child_helper`: the children of a disabled optional go. -/
def lastChild (d : NodeData ω μ κ) (children : List (Tree (NodeData ω μ κ)))
    (s : State ω σ) : Tree (NodeData ω μ κ) × State ω σ :=
  match d.kind with
  | .optional opt =>
      if s.enabled opt = false then
        (.node d [], { s with db := ops.childrenDestroy children s.db, changed := true })
      else (.node d children, s)
  | _ => (.node d children, s)

mutual

/-- The walk over siblings; it returns what is left of them. -/
def walkSiblings (ctx : Context ω μ) : List (Tree (NodeData ω μ κ)) → State ω σ →
    Except Stop (List (Tree (NodeData ω μ κ)) × State ω σ)
  | [], s => .ok ([], s)
  | t :: ts, s =>
      match walkNode ctx t s with
      | .error stop => .error stop
      | .ok (t', s') =>
          match walkSiblings ctx ts s' with
          | .error stop => .error stop
          | .ok (ts', s'') => .ok (t' :: ts', s'')

def walkNode (ctx : Context ω μ) : Tree (NodeData ω μ κ) → State ω σ →
    Except Stop (Tree (NodeData ω μ κ) × State ω σ)
  | .node d children, s =>
      match nodeHelper ops pass ctx d s with
      | .error stop => .error stop
      | .ok (true, s') => .ok (.node d children, s')
      | .ok (false, s') =>
          match children with
          | [] => .ok (.node d [], s')
          | child :: rest =>
              match firstChild ctx d.kind with
              | none => .error (.failed .err)
              | some ctx' =>
                  match walkNode ctx' child s' with
                  | .error stop => .error stop
                  | .ok (child', s'') =>
                      match walkSiblings ctx' rest s'' with
                      | .error stop => .error stop
                      | .ok (rest', s''') => .ok (lastChild ops d (child' :: rest') s''')

end

variable {ops pass}

theorem walkSiblings_cons {ctx : Context ω μ} {t : Tree (NodeData ω μ κ)}
    {ts us : List (Tree (NodeData ω μ κ))} {s s₂ : State ω σ}
    (h : walkSiblings ops pass ctx (t :: ts) s = .ok (us, s₂)) :
    ∃ t' s₁ ts', walkNode ops pass ctx t s = .ok (t', s₁) ∧
      walkSiblings ops pass ctx ts s₁ = .ok (ts', s₂) ∧ us = t' :: ts' := by
  rw [walkSiblings] at h
  split at h
  · cases h
  · rename_i t' s₁ ht
    split at h
    · cases h
    · rename_i ts' s₂ hts
      cases h
      exact ⟨t', s₁, ts', ht, hts, rfl⟩

/-- The ways in which the walk over a node ends well. -/
inductive NodeWalked (ops : Ops ω μ κ γ δ σ) (pass : Pass) (ctx : Context ω μ)
    (d : NodeData ω μ κ) (children : List (Tree (NodeData ω μ κ))) (s : State ω σ)
    (t' : Tree (NodeData ω μ κ)) (s' : State ω σ) : Prop
  | skipped (hnode : nodeHelper ops pass ctx d s = .ok (true, s')) (ht : t' = .node d children)
  | leaf (hnode : nodeHelper ops pass ctx d s = .ok (false, s')) (hchildren : children = [])
      (ht : t' = .node d [])
  | inner {s₁ s₂ : State ω σ} {ctx' : Context ω μ} {child' : Tree (NodeData ω μ κ)}
      {rest' : List (Tree (NodeData ω μ κ))}
      (hnode : nodeHelper ops pass ctx d s = .ok (false, s₁)) (hchildren : children ≠ [])
      (hctx : firstChild ctx d.kind = some ctx')
      (hwalk : walkSiblings ops pass ctx' children s₁ = .ok (child' :: rest', s₂))
      (hlast : (t', s') = lastChild ops d (child' :: rest') s₂)

theorem walkNode_walked {ctx : Context ω μ} {d : NodeData ω μ κ}
    {children : List (Tree (NodeData ω μ κ))} {s s' : State ω σ} {t' : Tree (NodeData ω μ κ)}
    (h : walkNode ops pass ctx (.node d children) s = .ok (t', s')) :
    NodeWalked ops pass ctx d children s t' s' := by
  rw [walkNode.eq_def] at h
  simp only at h
  split at h
  · cases h
  · rename_i s₁ hnode
    cases h
    exact .skipped hnode rfl
  · rename_i s₁ hnode
    cases children with
    | nil =>
      cases h
      exact .leaf hnode rfl rfl
    | cons child rest =>
      simp only at h
      split at h
      · cases h
      · rename_i ctx' hctx
        split at h
        · cases h
        · rename_i child' s₂ hchild
          split at h
          · cases h
          · rename_i rest' s₃ hrest
            have hwalk : walkSiblings ops pass ctx' (child :: rest) s₁ =
                .ok (child' :: rest', s₃) := by
              rw [walkSiblings, hchild]
              simp only [hrest]
            exact .inner hnode (by simp) hctx hwalk (Except.ok.inj h).symm

end Walk

section Reset

variable {ω μ κ γ δ σ : Type} (ops : Ops ω μ κ γ δ σ)

/-- The loop of `cil_reset_classperms_list`. What it does with an item that was freed is
undefined, so it comes to no end there. -/
def resetItems (below : Option (List (ClasspermsItem γ δ)) → σ → Option σ) :
    List (ClasspermsItem γ δ) → σ → Option σ
  | [], s => some s
  | .classperms cp :: rest, s => resetItems below rest (ops.resetClassperms cp s)
  | .freed :: _, _ => none
  | .set none :: rest, s => resetItems below rest s
  | .set (some d) :: rest, s =>
      match below (ops.classperms s d) s with
      | none => none
      | some s' => resetItems below rest s'

/-- `cil_reset_classperms_list`, through `cil_reset_classperms_set` and
`cil_reset_classpermission`; `none` as well when the fuel for its depth runs out. -/
def resetClasspermsList : Nat → Option (List (ClasspermsItem γ δ)) → σ → Option σ
  | 0, _, _ => none
  | _ + 1, none, s => some s
  | fuel + 1, some items, s => resetItems ops (resetClasspermsList fuel) items s

def resetLists (fuel : Nat) : List (Option (List (ClasspermsItem γ δ))) → σ → Option σ
  | [], s => some s
  | l :: rest, s =>
      match resetClasspermsList ops fuel l s with
      | none => none
      | some s' => resetLists fuel rest s'

/-- `__cil_reset_node`. -/
def resetNode (fuel : Nat) (d : NodeData ω μ κ) (s : σ) : Option σ :=
  (resetLists ops fuel (ops.classpermsLists d s) s).map (ops.resetRest d)

def resetNodes (fuel : Nat) : List (NodeData ω μ κ) → σ → Option σ
  | [], s => some s
  | d :: rest, s =>
      match resetNode ops fuel d s with
      | none => none
      | some s' => resetNodes fuel rest s'

/-- `cil_reset_ast`: it goes through all nodes. -/
def resetAst (fuel : Nat) (ast : List (Tree (NodeData ω μ κ))) (s : σ) : Option σ :=
  resetNodes ops fuel (Cil.walkSiblings (fun _ => false) ast) s

end Reset

section Loop

variable {ω μ κ γ δ σ : Type} [DecidableEq ω] [DecidableEq μ] (ops : Ops ω μ κ γ δ σ)

/-- Where the loop of `cil_resolve_ast` stands: the passes to come, the nodes below the
root, the database and the flags of the optionals. -/
structure Config (ω μ κ σ : Type) where
  remaining : List Pass
  ast : List (Tree (NodeData ω μ κ))
  db : σ
  enabled : ω → Bool

/-- What one turn of the loop leads to. `restart` is the state before `cil_reset_ast`. -/
inductive Turn (ω μ κ σ : Type)
  | finished (rc : Rc) (c : Config ω μ κ σ)
  | next (c : Config ω μ κ σ)
  | restart (c : Config ω μ κ σ)
  | endless

/-- One turn of the loop. -/
def turn (c : Config ω μ κ σ) : Turn ω μ κ σ :=
  match c.remaining with
  | [] => .finished (ops.verifyInitsids c.db) c
  | pass :: rest =>
      match walkSiblings ops pass .empty c.ast ⟨c.db, c.enabled, false⟩ with
      | .error (.failed rc) => .finished rc c
      | .error .endless => .endless
      | .ok (ast, s) =>
          match (if pass = .misc1 then ops.mergeOrders ast s.db else (.ok, s.db)) with
          | (.ok, db) =>
              if s.changed = true then
                .restart ⟨afterCall1, ast,
                  if pass.fromMisc1 then ops.resetOrders db else db, s.enabled⟩
              else .next ⟨rest, ast, db, s.enabled⟩
          | (rc, db) => .finished rc ⟨rest, ast, db, s.enabled⟩

/-- The loop of `cil_resolve_ast`; `none` when it does not end or the fuel runs out. -/
def resolveFrom : Nat → Config ω μ κ σ → Option (Rc × Config ω μ κ σ)
  | 0, _ => none
  | fuel + 1, c =>
      match turn ops c with
      | .finished rc c' => some (rc, c')
      | .endless => none
      | .next c' => resolveFrom fuel c'
      | .restart c' =>
          match resetAst ops fuel c'.ast c'.db with
          | none => none
          | some db => resolveFrom fuel { c' with db := db }

variable {ops}

/-- What a turn that does not finish has done. -/
structure PassDone (ops : Ops ω μ κ γ δ σ) (c : Config ω μ κ σ) (pass : Pass)
    (rest : List Pass) (ast : List (Tree (NodeData ω μ κ))) (s : State ω σ) (db : σ) : Prop where
  remaining : c.remaining = pass :: rest
  walk : walkSiblings ops pass .empty c.ast ⟨c.db, c.enabled, false⟩ = .ok (ast, s)
  merge : (if pass = .misc1 then ops.mergeOrders ast s.db else (.ok, s.db)) = (.ok, db)

private theorem turn_of_passDone {c : Config ω μ κ σ} {pass : Pass} {rest : List Pass}
    {ast : List (Tree (NodeData ω μ κ))} {s : State ω σ} {db : σ}
    (h : PassDone ops c pass rest ast s db) :
    turn ops c =
      if s.changed = true then
        .restart ⟨afterCall1, ast, if pass.fromMisc1 then ops.resetOrders db else db, s.enabled⟩
      else .next ⟨rest, ast, db, s.enabled⟩ := by
  unfold turn
  simp only [h.remaining, h.walk, h.merge]

private theorem turn_passDone (ops : Ops ω μ κ γ δ σ) (c : Config ω μ κ σ) :
    (∃ rc c', turn ops c = .finished rc c') ∨ turn ops c = .endless ∨
      ∃ pass rest ast s db, PassDone ops c pass rest ast s db := by
  cases hremaining : c.remaining with
  | nil =>
    left
    refine ⟨ops.verifyInitsids c.db, c, ?_⟩
    unfold turn
    simp only [hremaining]
  | cons pass rest =>
    cases hwalk : walkSiblings ops pass .empty c.ast ⟨c.db, c.enabled, false⟩ with
    | error stop =>
      cases stop with
      | failed rc =>
        left
        refine ⟨rc, c, ?_⟩
        unfold turn
        simp only [hremaining, hwalk]
      | endless =>
        right
        left
        unfold turn
        simp only [hremaining, hwalk]
    | ok walked =>
      obtain ⟨ast, s⟩ := walked
      cases hmerge : (if pass = .misc1 then ops.mergeOrders ast s.db else (.ok, s.db)) with
      | mk rc db =>
        by_cases hrc : rc = .ok
        · subst hrc
          exact Or.inr (Or.inr ⟨pass, rest, ast, s, db, hremaining, hwalk, hmerge⟩)
        · left
          refine ⟨rc, ⟨rest, ast, db, s.enabled⟩, ?_⟩
          unfold turn
          simp only [hremaining, hwalk, hmerge]

theorem turn_next {c c' : Config ω μ κ σ} (h : turn ops c = .next c') :
    ∃ pass rest ast s db, PassDone ops c pass rest ast s db ∧ s.changed = false ∧
      c' = ⟨rest, ast, db, s.enabled⟩ := by
  rcases turn_passDone ops c with ⟨rc, c₁, hfin⟩ | hend | ⟨pass, rest, ast, s, db, hdone⟩
  · rw [hfin] at h
    cases h
  · rw [hend] at h
    cases h
  · rw [turn_of_passDone hdone] at h
    split at h
    · cases h
    · rename_i hchanged
      cases h
      exact ⟨pass, rest, ast, s, db, hdone, Bool.eq_false_iff.mpr hchanged, rfl⟩

theorem turn_restart {c c' : Config ω μ κ σ} (h : turn ops c = .restart c') :
    ∃ pass rest ast s db, PassDone ops c pass rest ast s db ∧ s.changed = true ∧
      c' = ⟨afterCall1, ast, if pass.fromMisc1 then ops.resetOrders db else db, s.enabled⟩ := by
  rcases turn_passDone ops c with ⟨rc, c₁, hfin⟩ | hend | ⟨pass, rest, ast, s, db, hdone⟩
  · rw [hfin] at h
    cases h
  · rw [hend] at h
    cases h
  · rw [turn_of_passDone hdone] at h
    split at h
    · rename_i hchanged
      cases h
      exact ⟨pass, rest, ast, s, db, hdone, hchanged, rfl⟩
    · cases h

end Loop

end Cil.Resolve.Passes
