/- Cil/Post/UserLevels
   digest: When users without level or range are an error of post-processing. -/

import Cil.Post.CategoryPass

set_option autoImplicit false
set_option relaxedAutoImplicit false

namespace Cil.Post.UserLevels

open Cil.Expr Cil.Library Cil.Post.Categories

section Pass

variable {β κ ς ι σ : Type} [DecidableEq κ] [DecidableEq ς] [DecidableEq ι]

/-- A database: what the other passes read and write, and the `cil_cats`. -/
abbrev Database (σ κ ς ι : Type) := σ × State κ ς ι

/-- What post-processing runs besides the category pass and the checks of users for a level and a
range: the checks and walks before it, and the rest of the verification. -/
structure Passes (σ κ ς ι : Type) where
  verifyNoClasspermsLoop : Call Rc σ Unit
  postDbCount : Call Rc σ Unit
  postDbArray : Call Rc σ Unit
  postDbAttr : Call Rc σ Unit
  postDbRoletype : Call Rc σ Unit
  postDbClassperms : Call Rc σ Unit
  verifyUserBounds : Level ι → LevelRange ι → Call Rc (Database σ κ ς ι) Unit
  verifyOther : Bool → NodeData ς ι → Call Rc (Database σ κ ς ι) Unit
  verifyCounts : Call Rc (Database σ κ ς ι) Unit

variable (B : Bitmap β) (P : Policy κ ς ι) (passes : Passes σ κ ς ι) (fuel : Nat)
  (ast : Tree (NodeData ς ι))

/-- `cil_post_db`; the sorting at its end neither fails nor reads levels. -/
def cilPostDb : Call Rc (Database σ κ ς ι) Unit := do
  Call.onFirst passes.postDbCount
  Call.onFirst passes.postDbArray
  Call.onFirst passes.postDbAttr
  Call.onFirst passes.postDbRoletype
  Call.onFirst passes.postDbClassperms
  Call.onSecond (postDbCat B P fuel ast)

/-- `__cil_verify_user`. -/
def verifyUser : Option (Level ι) → Option (LevelRange ι) → Call Rc (Database σ κ ς ι) Unit
  | none, _ => Call.fail .err
  | some _, none => Call.fail .err
  | some dftlevel, some range => passes.verifyUserBounds dftlevel range

/-- `__cil_verify_helper`, in the first or the second of its passes. -/
def verifyHelper (first : Bool) : NodeData ς ι → Call Rc (Database σ κ ς ι) Unit
  | .user dftlevel range => if first then verifyUser passes dftlevel range else pure ()
  | d => passes.verifyOther first d

/-- `cil_post_verify`. -/
def cilPostVerify : Call Rc (Database σ κ ς ι) Unit := do
  processAll (verifyHelper passes true) (ast.walk NodeData.skipHead)
  processAll (verifyHelper passes false) (ast.walk NodeData.skipHead)
  passes.verifyCounts

/-- `cil_post_process`. -/
def cilPostProcess : Call Rc (Database σ κ ς ι) Unit := do
  Call.onFirst passes.verifyNoClasspermsLoop
  cilPostDb B P passes fuel ast
  cilPostVerify passes ast

/-- What runs before the category pass. -/
def Passes.beforeCat : Call Rc σ Unit := do
  passes.verifyNoClasspermsLoop
  passes.postDbCount
  passes.postDbArray
  passes.postDbAttr
  passes.postDbRoletype
  passes.postDbClassperms

private theorem cilPostProcess_eq :
    cilPostProcess B P passes fuel ast =
      Call.onFirst passes.beforeCat >>= fun _ =>
        Call.onSecond (postDbCat B P fuel ast) >>= fun _ => cilPostVerify passes ast := by
  rw [Passes.beforeCat, cilPostProcess, cilPostDb]
  simp only [Call.onFirst_bind, Call.bind_assoc]

end Pass

section Exact

variable {β κ ς ι σ : Type} [DecidableEq κ] [DecidableEq ς] [DecidableEq ι]

/-- A user without userlevel or without userrange statement. -/
def LacksLevels : NodeData ς ι → Prop
  | .user none _ => True
  | .user _ none => True
  | _ => False

/-- A user outside macros and abstract blocks lacks its level or range. -/
def SomeUserLacks (ast : Tree (NodeData ς ι)) : Prop :=
  ∃ above d, (above, d) ∈ ast.nodes ∧ (∀ a ∈ above, a.skipHead = false) ∧ LacksLevels d

variable (B : Bitmap β) (P : Policy κ ς ι) (passes : Passes σ κ ς ι) (ast : Tree (NodeData ς ι))
  (s : σ)

/-- A missing level or range is an error of post-processing, and none is missing when it
succeeds. -/
def MissingLevelsAreErrors : Prop :=
  (SomeUserLacks ast →
    ∃ fuel rc s', cilPostProcess B P passes fuel ast (s, P.initial) = some (.failed rc s')) ∧
  ∀ fuel s', cilPostProcess B P passes fuel ast (s, P.initial) = some (.ok () s') →
    ¬ SomeUserLacks ast

/-- A range of categorysets is met before anything is that cannot be evaluated. -/
def StopsEarly : Prop :=
  ∃ pre x post, stepsOf (ast.walk NodeData.skipHead) = pre ++ x :: post ∧
    (∀ y ∈ pre, Evaluable P y) ∧ Stopping P x

omit [DecidableEq ς] [DecidableEq ι] in
private theorem SomeUserLacks.none_mem {ast : Tree (NodeData ς ι)} (h : SomeUserLacks ast) :
    none ∈ stepsOf (ast.walk NodeData.skipHead) := by
  obtain ⟨above, d, hd, habove, hlacks⟩ := h
  refine List.mem_flatMap.mpr ⟨d, Tree.mem_walk.mpr ⟨above, hd, habove⟩, ?_⟩
  cases d with
  | user dftlevel range =>
    rw [NodeData.steps, List.mem_append]
    cases dftlevel with
    | none => exact Or.inl List.mem_cons_self
    | some level =>
      cases range with
      | none => exact Or.inr List.mem_cons_self
      | some range => exact hlacks.elim
  | _ => exact hlacks.elim

variable {B P passes ast s}

private theorem postDbCat_ok {fuel : Nat} {s' : State κ ς ι}
    (h : postDbCat B P fuel ast P.initial = some (.ok () s')) : ¬ SomeUserLacks ast := by
  intro hlacks
  rw [postDbCat_eq] at h
  obtain ⟨-, -, hall⟩ := processAll_ok reached_initial h
  obtain ⟨id, hid, -⟩ := hall none hlacks.none_mem
  cases hid

private theorem cilPostProcess_ok {fuel : Nat} {s' : Database σ κ ς ι}
    (h : cilPostProcess B P passes fuel ast (s, P.initial) = some (.ok () s')) :
    ¬ SomeUserLacks ast := by
  rw [cilPostProcess_eq] at h
  obtain ⟨_, s1, hbefore, hrest⟩ := Call.bind_ok h
  obtain ⟨_, s2, hcat, -⟩ := Call.bind_ok hrest
  have hsame : s1.2 = P.initial := (Call.onFirst_ok hbefore).2
  have hcat' := Call.onSecond_ok hcat
  rw [hsame] at hcat'
  exact postDbCat_ok hcat'

private theorem cilPostProcess_failed {fuel : Nat} {rc : Rc} {s' : Database σ κ ς ι}
    (hlacks : SomeUserLacks ast)
    (h : cilPostProcess B P passes fuel ast (s, P.initial) = some (.failed rc s')) :
    (∃ rc s', passes.beforeCat s = some (.failed rc s')) ∨
      (∃ s', passes.beforeCat s = some (.ok () s')) ∧ StopsEarly P ast := by
  rw [cilPostProcess_eq] at h
  rcases Call.bind_failed h with hbefore | ⟨_, s1, hbefore, hrest⟩
  · exact Or.inl ⟨rc, _, Call.onFirst_failed hbefore⟩
  · obtain ⟨hfirst, hsame⟩ := Call.onFirst_ok hbefore
    rcases Call.bind_failed hrest with hcat | ⟨_, s2, hcat, -⟩
    · have hcat' := Call.onSecond_failed hcat
      rw [hsame, postDbCat_eq] at hcat'
      exact Or.inr ⟨⟨_, hfirst⟩, processAll_failed reached_initial hcat'⟩
    · have hcat' := Call.onSecond_ok hcat
      rw [hsame] at hcat'
      exact absurd hlacks (postDbCat_ok hcat')

private theorem cilPostProcess_fails_before {rc : Rc} {s' : σ}
    (h : passes.beforeCat s = some (.failed rc s')) (fuel : Nat) :
    cilPostProcess B P passes fuel ast (s, P.initial) = some (.failed rc (s', P.initial)) := by
  rw [cilPostProcess_eq]
  apply Call.bind_of_failed
  rw [Call.onFirst, h]

private theorem cilPostProcess_fails_early {s' : σ} (h : passes.beforeCat s = some (.ok () s'))
    (hstops : StopsEarly P ast) :
    ∃ fuel rc s'', cilPostProcess B P passes fuel ast (s, P.initial) = some (.failed rc s'') := by
  obtain ⟨pre, x, post, hxs, hpre, hx⟩ := hstops
  have hfails : Fails B P fun fuel => processAll (evaluateStep B P fuel) (pre ++ x :: post) :=
    processAll_fails hpre hx
  obtain ⟨fuel, hfuel⟩ := hfails
  obtain ⟨rc, s1, hrun⟩ := hfuel fuel (le_refl fuel) P.initial reached_initial
  have hcat : postDbCat B P fuel ast P.initial = some (.failed rc s1) := by
    rw [postDbCat_eq, hxs]
    exact hrun
  have hbefore : Call.onFirst passes.beforeCat (s, P.initial) = some (.ok () (s', P.initial)) := by
    rw [Call.onFirst, h]
  refine ⟨fuel, rc, (s', s1), ?_⟩
  rw [cilPostProcess_eq, Call.bind_of_ok hbefore]
  apply Call.bind_of_failed
  rw [Call.onSecond, hcat]

variable (B P passes ast s)

/-- A missing level or range is an error of post-processing exactly if what runs before the
evaluation of the levels fails, or that evaluation fails before it comes to a user without
them. -/
theorem missingLevelsAreErrors_iff :
    MissingLevelsAreErrors B P passes ast s ↔
      ¬ SomeUserLacks ast ∨ (∃ rc s', passes.beforeCat s = some (.failed rc s')) ∨
        (∃ s', passes.beforeCat s = some (.ok () s')) ∧ StopsEarly P ast := by
  constructor
  · intro h
    by_cases hlacks : SomeUserLacks ast
    · obtain ⟨fuel, rc, s', hrun⟩ := h.1 hlacks
      exact Or.inr (cilPostProcess_failed hlacks hrun)
    · exact Or.inl hlacks
  · intro h
    refine ⟨fun hlacks => ?_, fun fuel s' hrun => cilPostProcess_ok hrun⟩
    rcases h with hnone | ⟨rc, s', hbefore⟩ | ⟨⟨s', hbefore⟩, hstops⟩
    · exact absurd hlacks hnone
    · exact ⟨0, rc, _, cilPostProcess_fails_before hbefore 0⟩
    · exact cilPostProcess_fails_early hbefore hstops

end Exact

section Example

def noCategories : Policy Empty Empty Empty where
  catorder := []
  nodup := List.nodup_nil
  expr _ := none
  formed _ _ h := by cases h
  filled _ _ h := by cases h
  ordered _ _ h := by cases h
  noSelfReference _ _ h := by cases h

def succeedingPasses : Passes Unit Empty Empty Empty where
  verifyNoClasspermsLoop := pure ()
  postDbCount := pure ()
  postDbArray := pure ()
  postDbAttr := pure ()
  postDbRoletype := pure ()
  postDbClassperms := pure ()
  verifyUserBounds _ _ := pure ()
  verifyOther _ _ := pure ()
  verifyCounts := pure ()

/-- A single user, without userlevel and userrange statement. -/
def userTree : Tree (NodeData Empty Empty) := .node .other [.node (.user none none) []]

private theorem userTree_crash (fuel : Nat) :
    cilPostProcess finsetBitmap noCategories succeedingPasses fuel userTree
      ((), noCategories.initial) = some .crash := rfl

theorem not_missingLevelsAreErrors :
    ¬ MissingLevelsAreErrors finsetBitmap noCategories succeedingPasses userTree () := by
  intro h
  have hlacks : SomeUserLacks userTree :=
    ⟨[], .user none none, List.mem_cons_self, by simp, trivial⟩
  obtain ⟨fuel, rc, s', hrun⟩ := h.1 hlacks
  rw [userTree_crash] at hrun
  cases hrun

end Example

end Cil.Post.UserLevels
