/- Cil/Resolve/Steps
   digest: The single changes of the state that the passes of the resolver are made of. -/

import Mathlib.Data.List.Basic
import Cil.Library.Following
import Cil.Resolve.Walk

set_option autoImplicit false
set_option relaxedAutoImplicit false

namespace Cil.Resolve.Walk

open Library Ast

variable {κ σ : Type}

/-- One change of the state while a tree is built or resolved. -/
inductive Step (ops : Ops κ σ) : State κ σ → State κ σ → Prop
  | build {s s' : State κ σ} {fuel dest new : Nat} {stmt : Stmt κ}
      (h : buildNode fuel dest stmt s = some (.ok new s')) : Step ops s s'
  | copy {s s' : State κ σ} {fuel parent orig dest new : Nat}
      (horig : orig ∈ (s.nodes parent).children)
      (h : copyNode fuel orig dest s = some (.ok new s')) : Step ops s s'
  | destroy {s s' : State κ σ} {fuel n : Nat} {below : List Nat}
      (h : childrenDestroy fuel n s = some (.ok below s')) : Step ops s s'
  | tunable {s : State κ σ} {n : Nat} {value : Bool} {refs : List Nat}
      (h : ops.evaluateTunable s n = .found (value, refs)) :
      Step ops s { s with refs := Function.update s.refs n refs }
  | link {s : State κ σ} {n b : Nat} (hn : s.dead n = false) (hb : s.declNodes b ≠ []) :
      Step ops s { s with
        block := Function.update s.block n (some b)
        biNodes := Function.update s.biNodes b (some ((s.biNodes b).getD [] ++ [n])) }
  | callee {s : State κ σ} {n m : Nat} (hm : s.declNodes m ≠ []) :
      Step ops s { s with callee := Function.update s.callee n (some m) }
  | fill {s : State κ σ} {r : Resolved σ}
      (h : (∃ n, r = ops.callArgs s n) ∨ (∃ pass n, r = ops.resolveNode pass s n) ∨
        ∃ pass, r = ops.reset pass s) :
      Step ops s { s with
        refs := r.refs
        borrowed := r.borrowed
        gathered := r.gathered
        rest := r.rest }
  | note {s : State κ σ} {e : Event} (enabled : Nat → Bool) (he : ∀ b, e ≠ .freed b) :
      Step ops s { s with enabled := enabled, log := s.log ++ [e] }
  /-- Fields that are no references. -/
  | mark {s : State κ σ} (isAbstract copied : Nat → Bool) (inList : List Nat)
      (inMacro inBoolif changed : Bool) (rest : σ) :
      Step ops s { s with
        isAbstract := isAbstract
        copied := copied
        inList := inList
        inMacro := inMacro
        inBoolif := inBoolif
        changed := changed
        rest := rest }

/-- Any number of changes. -/
abbrev Steps (ops : Ops κ σ) : State κ σ → State κ σ → Prop := Relation.ReflTransGen (Step ops)

section Walk

variable {ops : Ops κ σ} (fuel : Nat)

theorem steps_progress : Progress (Steps ops) := progress_reflTransGen _

theorem Step.steps {s s' : State κ σ} (h : Step ops s s') : Steps ops s s' :=
  Relation.ReflTransGen.single h

private theorem copyFrom_steps (orig k dest : Nat) :
    Follows (Steps ops) (copyFrom fuel orig k dest : M κ σ Unit) := by
  induction fuel generalizing orig k dest with
  | zero => exact Follows.outOfFuel
  | succ fuel ih =>
    rw [copyFrom]
    refine FollowsFrom.follows fun s => FollowsFrom.get_bind ?_
    split
    · exact FollowsFrom.crash
    · split
      · exact FollowsFrom.pure steps_progress _
      · rename_i n hn
        have hcopy : FollowsFrom (Steps ops) s (copyNode fuel n dest : M κ σ Nat) :=
          fun _ _ h => (Step.copy (List.mem_of_getElem? hn) h).steps
        refine hcopy.bind steps_progress fun new s₁ _ => FollowsFrom.of_follows ?_
        exact (ih n 0 new).bind steps_progress fun _ => ih orig (k + 1) dest

private theorem copyAst_steps (orig dest : Nat) :
    Follows (Steps ops) (copyAst fuel orig dest : M κ σ Unit) :=
  copyFrom_steps fuel orig 0 dest

private theorem childrenDestroy_steps (n : Nat) :
    Follows (Steps ops) (childrenDestroy fuel n : M κ σ (List Nat)) :=
  Follows.of_eq fun _ _ _ h => (Step.destroy h).steps

/-- The node of a datum is found only if the datum has one. -/
private theorem headNode_ok {s s' : State κ σ} {id node : Nat}
    (h : headNode id s = some (.ok node s')) : s' = s ∧ s.declNodes id ≠ [] := by
  unfold headNode at h
  split at h
  · cases h
  · rename_i m ns hnodes
    split at h
    · cases h
    · obtain ⟨_, rfl⟩ := Returned.ok.inj (Option.some.inj h)
      refine ⟨rfl, ?_⟩
      rw [hnodes]
      exact List.cons_ne_nil _ _

private theorem headNode_steps (id : Nat) : Follows (Steps ops) (headNode id : M κ σ Nat) := by
  refine Follows.of_eq fun s node s' h => ?_
  obtain ⟨rfl, _⟩ := headNode_ok h
  exact Relation.ReflTransGen.refl

private theorem resolveTunif_steps (n : Nat) : Follows (Steps ops) (resolveTunif ops fuel n) := by
  refine FollowsFrom.follows fun s => FollowsFrom.get_bind ?_
  split
  · exact FollowsFrom.pure steps_progress _
  · exact FollowsFrom.pure steps_progress _
  · rename_i value refs hfound
    refine FollowsFrom.modify_bind steps_progress (Step.tunable hfound).steps ?_
    have hdestroy : Follows (Steps ops) (do
        let _ ← childrenDestroy fuel n
        pure Rc.ok : M κ σ Rc) :=
      (childrenDestroy_steps fuel n).bind steps_progress fun _ => Follows.pure steps_progress _
    refine FollowsFrom.of_follows ?_
    split
    · exact hdestroy
    · exact (copyAst_steps fuel _ _).bind steps_progress fun _ => hdestroy

private theorem resolveBlockinheritLink_steps {s : State κ σ} {n : Nat} (hn : s.dead n = false)
    (blockStr : String) :
    FollowsFrom (Steps ops) s (resolveBlockinheritLink ops n blockStr) := by
  refine FollowsFrom.get_bind ?_
  split
  · exact FollowsFrom.pure steps_progress _
  · exact FollowsFrom.pure steps_progress _
  · refine FollowsFrom.bind steps_progress (.of_follows (headNode_steps _)) ?_
    intro node s₁ hhead
    obtain ⟨rfl, hb⟩ := headNode_ok hhead
    split
    · exact FollowsFrom.modify_bind steps_progress (Step.link hn hb).steps
        (FollowsFrom.pure steps_progress _)
    · exact FollowsFrom.pure steps_progress _

private theorem copyIntoAll_steps (left n b k : Nat) :
    Follows (Steps ops) (copyIntoAll fuel left n b k : M κ σ Unit) := by
  induction left generalizing k with
  | zero => exact Follows.outOfFuel
  | succ left ih =>
    rw [copyIntoAll]
    refine Follows.get_bind fun s => ?_
    split
    · exact Follows.pure steps_progress _
    · exact (copyAst_steps fuel _ _).bind steps_progress fun _ => ih (k + 1)

private theorem resolveBlockinheritCopy_steps (n : Nat) :
    Follows (Steps ops) (resolveBlockinheritCopy fuel n : M κ σ Rc) := by
  refine Follows.get_bind fun s => ?_
  dsimp only
  split
  · exact Follows.pure steps_progress _
  · refine (headNode_steps _).bind steps_progress fun first => ?_
    split
    · refine (copyIntoAll_steps fuel _ _ _ _).bind steps_progress fun _ => ?_
      exact Follows.pure steps_progress _
    · exact Follows.pure steps_progress _

/-- A change of fields that are no references. -/
private theorem modify_steps {f : State κ σ → State κ σ} (h : ∀ s, Step ops s (f s)) :
    Follows (Steps ops) (Call.modify f : M κ σ Unit) :=
  Follows.modify fun s => (h s).steps

private theorem resolveBlockabstract_steps (n : Nat) (blockStr : String) :
    Follows (Steps ops) (resolveBlockabstract ops n blockStr) := by
  refine Follows.get_bind fun s => ?_
  split
  · exact Follows.pure steps_progress _
  · exact Follows.pure steps_progress _
  · refine (headNode_steps _).bind steps_progress fun node => ?_
    split
    · refine Follows.bind steps_progress ?_ fun _ => Follows.pure steps_progress _
      exact modify_steps fun s => Step.mark _ s.copied s.inList s.inMacro s.inBoolif s.changed
        s.rest
    · exact Follows.pure steps_progress _

private theorem fill_steps {s : State κ σ} {r : Resolved σ}
    (h : (∃ n, r = ops.callArgs s n) ∨ (∃ pass n, r = ops.resolveNode pass s n) ∨
      ∃ pass, r = ops.reset pass s) : FollowsFrom (Steps ops) s (fill r : M κ σ Rc) :=
  FollowsFrom.modify_bind steps_progress (Step.fill h).steps (FollowsFrom.pure steps_progress _)

private theorem resolveCall1_steps (n : Nat) (macroStr : String) :
    Follows (Steps ops) (resolveCall1 ops fuel n macroStr) := by
  refine FollowsFrom.follows fun s => FollowsFrom.get_bind ?_
  split
  · exact FollowsFrom.pure steps_progress _
  · exact FollowsFrom.pure steps_progress _
  · refine FollowsFrom.bind steps_progress (.of_follows (headNode_steps _)) ?_
    intro node s₁ hhead
    obtain ⟨rfl, hm⟩ := headNode_ok hhead
    split
    · refine FollowsFrom.modify_bind steps_progress (Step.callee hm).steps ?_
      refine FollowsFrom.get_bind ?_
      refine FollowsFrom.bind steps_progress (fill_steps (Or.inl ⟨n, rfl⟩)) ?_
      intro rc s₂ _
      refine FollowsFrom.of_follows ?_
      split
      · split
        · exact Follows.pure steps_progress _
        · refine Follows.bind steps_progress ?_ fun _ => ?_
          · exact modify_steps fun s => Step.mark s.isAbstract _ s.inList s.inMacro s.inBoolif
              s.changed s.rest
          · refine (copyAst_steps fuel _ _).bind steps_progress fun _ => ?_
            exact Follows.pure steps_progress _
      · exact Follows.pure steps_progress _
    · exact FollowsFrom.pure steps_progress _

private theorem resolveInRound_steps (ins : List Nat) :
    Follows (Steps ops) (resolveInRound ops fuel ins) := by
  induction ins with
  | nil => exact Follows.pure steps_progress _
  | cons n ins ih =>
    rw [resolveInRound]
    refine Follows.get_bind fun s => ?_
    split
    · split
      · refine Follows.bind steps_progress ?_ fun _ => ih
        refine (headNode_steps _).bind steps_progress fun node => ?_
        refine (copyAst_steps fuel _ _).bind steps_progress fun _ => ?_
        exact (childrenDestroy_steps fuel n).bind steps_progress fun _ =>
          Follows.pure steps_progress _
      · exact ih.bind steps_progress fun _ => Follows.pure steps_progress _
    · exact Follows.crash

private theorem resolveInList_steps (left : Nat) (ins : List Nat) :
    Follows (Steps ops) (resolveInList ops fuel left ins) := by
  induction left generalizing ins with
  | zero => exact Follows.outOfFuel
  | succ left ih =>
    rw [resolveInList]
    refine (resolveInRound_steps fuel ins).bind steps_progress fun unresolved => ?_
    split
    · exact Follows.pure steps_progress _
    · split
      · exact Follows.fail _
      · exact ih unresolved

/-- Resolving a node that is there. -/
private theorem resolveAstNode_steps {s : State κ σ} {n : Nat} (hn : s.dead n = false)
    (pass : Pass) :
    FollowsFrom (Steps ops) s (resolveAstNode ops fuel pass n) := by
  refine FollowsFrom.get_bind ?_
  split
  · exact .of_follows (resolveTunif_steps fuel n)
  · refine FollowsFrom.modify_bind steps_progress ?_ (FollowsFrom.pure steps_progress _)
    exact (Step.mark s.isAbstract s.copied _ s.inMacro s.inBoolif s.changed s.rest).steps
  · exact resolveBlockinheritLink_steps hn _
  · refine FollowsFrom.of_follows ?_
    split
    · exact resolveBlockinheritCopy_steps fuel n
    · exact Follows.pure steps_progress _
  · exact .of_follows (resolveBlockabstract_steps n _)
  · refine FollowsFrom.of_follows ?_
    split
    · exact resolveCall1_steps fuel n _
    · exact Follows.pure steps_progress _
  · exact .of_follows (resolveCall1_steps fuel n _)
  · split
    · exact fill_steps (Or.inr (Or.inl ⟨_, n, rfl⟩))
    · exact FollowsFrom.pure steps_progress _

private theorem optionalDatum_steps (n : Nat) :
    Follows (Steps ops) (optionalDatum n : M κ σ Nat) := by
  refine Follows.of_eq fun s id s' h => ?_
  unfold optionalDatum at h
  split at h
  · cases h
  · split_ifs at h
    · obtain ⟨_, rfl⟩ := Returned.ok.inj (Option.some.inj h)
      exact Relation.ReflTransGen.refl
    · cases h

private theorem disable_steps (opt : Nat) : Follows (Steps ops) (disable opt : M κ σ Unit) := by
  refine (optionalDatum_steps opt).bind steps_progress fun id => modify_steps fun s => ?_
  exact Step.note _ fun b h => by cases h

private theorem nodeHelper_steps (pass : Pass) (stack : Stacks) (n : Nat) :
    Follows (Steps ops) (nodeHelper ops fuel pass stack n) := by
  refine FollowsFrom.follows fun s => FollowsFrom.get_bind ?_
  split_ifs with hdead hrefused hboolif hskip
  · exact FollowsFrom.crash
  · exact FollowsFrom.fail _
  · exact FollowsFrom.fail _
  · exact FollowsFrom.pure steps_progress _
  · have hn : s.dead n = false := Bool.eq_false_iff.mpr hdead
    refine FollowsFrom.bind steps_progress (resolveAstNode_steps fuel hn pass) ?_
    intro rc s₁ _
    refine FollowsFrom.of_follows ?_
    split
    · exact Follows.pure steps_progress _
    · exact (disable_steps _).bind steps_progress fun _ => Follows.pure steps_progress _
    · exact Follows.fail _

private theorem firstChild_steps (stack : Stacks) (n : Nat) :
    Follows (Steps ops) (firstChild stack n : M κ σ Stacks) := by
  refine Follows.of_eq fun s stack' s' h => ?_
  unfold firstChild at h
  split at h
  · split_ifs at h
    · cases h
    · obtain ⟨_, rfl⟩ := Returned.ok.inj (Option.some.inj h)
      exact Relation.ReflTransGen.refl
  · obtain ⟨_, rfl⟩ := Returned.ok.inj (Option.some.inj h)
    exact (Step.mark s.isAbstract s.copied s.inList s.inMacro true s.changed s.rest).steps
  · split at h
    · obtain ⟨_, rfl⟩ := Returned.ok.inj (Option.some.inj h)
      exact Relation.ReflTransGen.refl
    · obtain ⟨_, rfl⟩ := Returned.ok.inj (Option.some.inj h)
      exact (Step.mark s.isAbstract s.copied s.inList true s.inBoolif s.changed s.rest).steps
    · obtain ⟨_, rfl⟩ := Returned.ok.inj (Option.some.inj h)
      exact Relation.ReflTransGen.refl
  · obtain ⟨_, rfl⟩ := Returned.ok.inj (Option.some.inj h)
    exact Relation.ReflTransGen.refl

private theorem leaveOptional_steps (n : Nat) :
    Follows (Steps ops) (leaveOptional fuel n : M κ σ Unit) := by
  refine (optionalDatum_steps n).bind steps_progress fun id => Follows.get_bind fun s => ?_
  split
  · exact Follows.crash
  · split
    · refine (childrenDestroy_steps fuel n).bind steps_progress fun below => ?_
      refine Follows.modify fun s => ?_
      refine Relation.ReflTransGen.head
        (Step.mark s.isAbstract s.copied s.inList s.inMacro s.inBoolif true s.rest) ?_
      exact (Step.note s.enabled fun b h => by cases h).steps
    · exact Follows.pure steps_progress _

private theorem lastChild_steps (n : Nat) :
    Follows (Steps ops) (lastChild fuel n : M κ σ Unit) := by
  refine Follows.get_bind fun s => ?_
  split
  · exact modify_steps fun s => Step.mark s.isAbstract s.copied s.inList s.inMacro _ s.changed
      s.rest
  · split
    · exact leaveOptional_steps fuel n
    · exact modify_steps fun s => Step.mark s.isAbstract s.copied s.inList _ s.inBoolif s.changed
        s.rest
    · exact Follows.pure steps_progress _
  · exact Follows.pure steps_progress _

/-- The walk of a pass, by induction on its fuel. -/
theorem walkFrom_steps (pass : Pass) (left : Nat) (stack : Stacks) (parent k : Nat) :
    Follows (Steps ops) (walkFrom ops fuel pass left stack parent k) := by
  induction left generalizing stack parent k with
  | zero => exact Follows.outOfFuel
  | succ left ih =>
    rw [walkFrom]
    refine Follows.get_bind fun s => ?_
    split
    · exact Follows.crash
    · split
      · exact Follows.pure steps_progress _
      · rename_i n hn
        refine Follows.bind steps_progress ?_ fun _ => ih stack parent (k + 1)
        refine (nodeHelper_steps fuel pass stack n).bind steps_progress fun skipped => ?_
        split
        · exact Follows.pure steps_progress _
        · refine Follows.get_bind fun s => ?_
          split
          · exact Follows.pure steps_progress _
          · refine (firstChild_steps stack n).bind steps_progress fun stack' => ?_
            exact (ih stack' n 0).bind steps_progress fun _ => lastChild_steps fuel n

theorem endPass_steps (pass : Pass) : Follows (Steps ops) (endPass ops fuel pass) := by
  refine Follows.get_bind fun s => ?_
  split
  · refine (resolveInList_steps fuel _ _).bind steps_progress fun _ => modify_steps fun s => ?_
    exact Step.mark s.isAbstract s.copied _ s.inMacro s.inBoolif s.changed s.rest
  · refine Follows.bind steps_progress ?_ fun _ => ?_
    · exact modify_steps fun s => Step.mark s.isAbstract s.copied s.inList s.inMacro s.inBoolif
        s.changed _
    · split
      · exact Follows.pure steps_progress _
      · exact Follows.fail _
  · exact Follows.pure steps_progress _

theorem resetAst_steps (pass : Pass) : Follows (Steps ops) (resetAst ops pass) := by
  refine FollowsFrom.follows fun s => FollowsFrom.get_bind ?_
  refine FollowsFrom.bind steps_progress (fill_steps (Or.inr (Or.inr ⟨pass, rfl⟩))) ?_
  intro rc s₁ _
  split
  · exact FollowsFrom.pure steps_progress _
  · exact FollowsFrom.fail _

mutual

theorem buildSiblings_steps (dest : Nat) (ts : List (Tree (Stmt κ))) :
    Follows (Steps ops) (buildSiblings fuel dest ts : M κ σ Unit) := by
  match ts with
  | [] => exact Follows.pure steps_progress _
  | t :: ts =>
      rw [buildSiblings]
      exact (buildTree_steps dest t).bind steps_progress fun _ => buildSiblings_steps dest ts

private theorem buildTree_steps (dest : Nat) (t : Tree (Stmt κ)) :
    Follows (Steps ops) (buildTree fuel dest t : M κ σ Unit) := by
  match t with
  | .node stmt children =>
      rw [buildTree]
      have hnode : Follows (Steps ops) (buildNode fuel dest stmt : M κ σ Nat) :=
        Follows.of_eq fun _ _ _ h => (Step.build h).steps
      exact hnode.bind steps_progress fun n => buildSiblings_steps n children

end

end Walk

end Cil.Resolve.Walk
