/- Cil/Verify/Bounds
   digest: Bounds of users, roles and types, and the search for circular ones. -/

import Mathlib.Data.Finset.Image
import Mathlib.Logic.Function.Basic
import Cil.Library.Chain
import Cil.Verify.Levels

set_option autoImplicit false
set_option relaxedAutoImplicit false

namespace Cil.Verify

open Cil.Library

/-- The statements that give a parent: `userbounds`, `rolebounds` and `typebounds`. -/
inductive BoundsKind
  | user
  | role
  | type
  deriving DecidableEq, Repr

/-- `cil_bounds`; `node` tells the statements apart. -/
structure Bounds where
  node : Nat
  parentStr : String
  childStr : String
  deriving DecidableEq, Repr

section Resolve

variable {δ : Type} [DecidableEq δ] (lookup : Bounds → String → Except Rc δ)
  (isAttribute : δ → Bool)

/-- The part of `cil_resolve_bounds` after the names, on the field `bounds`. -/
def bindChild (kind : BoundsKind) (parent child : δ) (bounds : δ → Option δ) :
    Except Rc (δ → Option δ) :=
  if bounds child ≠ none then .error .err
  else if kind = .type ∧ isAttribute parent = true then .error .err
  else if kind = .type ∧ isAttribute child = true then .error .err
  else .ok (Function.update bounds child (some parent))

/-- `cil_resolve_bounds`. -/
def resolveBounds (kind : BoundsKind) (bounds : δ → Option δ) (stmt : Bounds) :
    Except Rc (δ → Option δ) := do
  let parent ← lookup stmt stmt.parentStr
  let child ← lookup stmt stmt.childStr
  bindChild isAttribute kind parent child bounds

/-- All statements of a kind, in the order of the walk. -/
def resolveAllBounds (kind : BoundsKind) (stmts : List Bounds) : Except Rc (δ → Option δ) :=
  stmts.foldlM (resolveBounds lookup isAttribute kind) fun _ => none

/-- The data that are bound to a parent are finitely many. -/
def FinitelyBound (bounds : δ → Option δ) : Prop :=
  ∃ S : Finset δ, ∀ x, bounds x ≠ none → x ∈ S

variable {lookup isAttribute}

private theorem resolveBounds_finitelyBound {kind : BoundsKind} {bounds bounds' : δ → Option δ}
    {stmt : Bounds} (h : FinitelyBound bounds)
    (hrun : resolveBounds lookup isAttribute kind bounds stmt = .ok bounds') :
    FinitelyBound bounds' := by
  obtain ⟨S, hS⟩ := h
  unfold resolveBounds at hrun
  cases hparent : lookup stmt stmt.parentStr with
  | error rc =>
    rw [hparent] at hrun
    cases hrun
  | ok parent =>
    cases hchild : lookup stmt stmt.childStr with
    | error rc =>
      rw [hparent, hchild] at hrun
      cases hrun
    | ok child =>
      rw [hparent, hchild] at hrun
      have hbind : bindChild isAttribute kind parent child bounds = .ok bounds' := hrun
      unfold bindChild at hbind
      split_ifs at hbind
      cases hbind
      refine ⟨insert child S, fun x hx => ?_⟩
      by_cases heq : x = child
      · exact Finset.mem_insert.mpr (Or.inl heq)
      · rw [Function.update_of_ne heq] at hx
        exact Finset.mem_insert_of_mem (hS x hx)

private theorem resolveAllBounds_finitelyBound {kind : BoundsKind} {stmts : List Bounds}
    {bounds : δ → Option δ}
    (h : resolveAllBounds lookup isAttribute kind stmts = .ok bounds) : FinitelyBound bounds := by
  have hrun : ∀ (stmts : List Bounds) (start : δ → Option δ), FinitelyBound start →
      stmts.foldlM (resolveBounds lookup isAttribute kind) start = .ok bounds →
        FinitelyBound bounds := by
    intro stmts
    induction stmts with
    | nil =>
      intro start hstart hrun
      cases hrun
      exact hstart
    | cons stmt rest ih =>
      intro start hstart hrun
      rw [List.foldlM_cons] at hrun
      cases hstep : resolveBounds lookup isAttribute kind start stmt with
      | error rc =>
        rw [hstep] at hrun
        cases hrun
      | ok next =>
        rw [hstep] at hrun
        exact ih next (resolveBounds_finitelyBound hstart hstep) hrun
  exact hrun stmts _ ⟨∅, fun x hx => absurd rfl hx⟩ h

end Resolve

/-- What the check of a declaration reports. -/
inductive Report
  | valid
  | noDefaultLevel
  | noRange
  | circularBounds
  | badRange
  | crash
  deriving DecidableEq, Repr

section Check

variable {δ σ κ : Type} [DecidableEq δ]

/-- The loop of `__cil_verify_type`, which users and roles have as well. -/
def verifyBoundsLoop (bounds : δ → Option δ) : Nat → δ → Option δ → Nat → Nat → Option Report
  | 0, _, _, _, _ => none
  | fuel + 1, t1, t2, steps, limit =>
      match t2 with
      | none => some .valid
      | some t =>
          if t1 = t then some .circularBounds
          else if steps = limit then verifyBoundsLoop bounds fuel t (bounds t) (0 + 1) (limit * 2)
          else verifyBoundsLoop bounds fuel t1 (bounds t) (steps + 1) limit

/-- `__cil_verify_type`. -/
def verifyType (bounds : δ → Option δ) (fuel : Nat) (type : δ) : Option Report :=
  verifyBoundsLoop bounds fuel type (bounds type) 0 2

/-- `__cil_verify_role`. -/
def verifyRole (bounds : δ → Option δ) (fuel : Nat) (role : δ) : Option Report :=
  verifyBoundsLoop bounds fuel role (bounds role) 0 2

/-- The default level and the range of a `cil_user`. -/
structure UserLevels (σ κ : Type) where
  dftlevel : Option (Level σ κ)
  range : Option (LevelRange σ κ)
  deriving DecidableEq, Repr

/-- The check of an anonymous range of a user. -/
def verifyUserRange [DecidableEq σ] [DecidableEq κ] (S : Sensitivities σ κ)
    (range : LevelRange σ κ) : Report :=
  if range.named = true then .valid
  else
    match verifyLevelrange S range with
    | none => .crash
    | some .ok => .valid
    | some _ => .badRange

/-- `__cil_verify_user`. -/
def verifyUser [DecidableEq σ] [DecidableEq κ] (S : Sensitivities σ κ)
    (levels : δ → UserLevels σ κ) (bounds : δ → Option δ) (fuel : Nat) (user : δ) :
    Option Report :=
  match (levels user).dftlevel, (levels user).range with
  | none, _ => some .noDefaultLevel
  | some _, none => some .noRange
  | some _, some range =>
      match bounds user with
      | none => some (verifyUserRange S range)
      | some parent =>
          match verifyBoundsLoop bounds fuel user (some parent) 0 2 with
          | some .valid => some (verifyUserRange S range)
          | report => report

attribute [simp] verifyBoundsLoop

end Check

section Exact

variable {δ : Type} [DecidableEq δ] {bounds : δ → Option δ}

/-- What a walk means for the check. -/
def walkReport {δ : Type} : Option δ → Report
  | some _ => .valid
  | none => .circularBounds

/-- From its second member on, the loop is the walk with a checkpoint. -/
private theorem verifyBoundsLoop_eq (fuel : Nat) (t1 a : δ) (steps limit : Nat) :
    verifyBoundsLoop bounds fuel t1 (bounds a) (steps + 1) limit =
      (Chain.doublingWalk bounds fuel a t1 steps limit).map walkReport := by
  induction fuel generalizing t1 a steps limit with
  | zero => rfl
  | succ fuel ih =>
    rw [Chain.doublingWalk]
    cases hnext : bounds a with
    | none => rfl
    | some t =>
      rw [verifyBoundsLoop]
      dsimp only
      by_cases heq : t1 = t
      · rw [if_pos heq, if_pos heq.symm]
        rfl
      · have hne : ¬ t = t1 := fun h => heq h.symm
        rw [if_neg heq, if_neg hne]
        by_cases hlimit : steps + 1 = limit
        · rw [if_pos hlimit, if_pos hlimit, ih, Nat.mul_comm]
        · rw [if_neg hlimit, if_neg hlimit]
          exact ih t1 t (steps + 1) limit

/-- On a chain that ends, the loop comes to the end. -/
private theorem verifyBoundsLoop_of_endsIn {n : Nat} {x z : δ} (h : Chain.EndsIn bounds n x z)
    {fuel : Nat} (hfuel : n < fuel) :
    verifyBoundsLoop bounds fuel x (bounds x) 0 2 = some .valid := by
  obtain ⟨fuel, rfl⟩ : ∃ k, fuel = k + 1 := ⟨fuel - 1, by omega⟩
  cases h with
  | stop hz =>
    rw [hz]
    rfl
  | @step n _ parent _ hs ht =>
    have hne : x ≠ parent := by
      intro heq
      have hlength := (ht.unique (heq ▸ Chain.EndsIn.step hs ht)).1
      omega
    have hless : n < fuel := by omega
    have hwalk := Chain.doublingWalk_of_endsIn ht (Chain.EndsIn.step hs ht) (Nat.le_succ n) hless
      0 2
    rw [hs, verifyBoundsLoop, if_neg hne, if_neg (by omega), verifyBoundsLoop_eq, hwalk]
    rfl

/-- On a chain without end, the loop reports a cycle: its first window has three members, and
after it the walk goes on from a checkpoint. -/
private theorem verifyBoundsLoop_of_runs {x : δ} {s : Nat → δ} (h : Chain.Runs bounds x s)
    {S : Finset δ}
    (hS : ∀ y, bounds y ≠ none → y ∈ S) {fuel : Nat} (hfuel : 6 * (S.card + 3) + 3 ≤ fuel) :
    verifyBoundsLoop bounds fuel x (bounds x) 0 2 = some .circularBounds := by
  obtain ⟨fuel, rfl⟩ : ∃ k, fuel = k + 3 := ⟨fuel - 3, by omega⟩
  have hlater := Chain.doublingWalk_of_runs h hS (Nat.le_add_right _ 3) 3 fuel 4
    (by omega) (by omega) (by omega)
  have hfirst : bounds x = some (s 1) := by
    have hnext := h.next 0
    rw [h.start] at hnext
    exact hnext
  rw [show fuel + 3 = fuel + 1 + 1 + 1 by omega, hfirst, verifyBoundsLoop]
  by_cases h1 : x = s 1
  · rw [if_pos h1]
  · rw [if_neg h1, if_neg (by omega), verifyBoundsLoop_eq, Chain.doublingWalk, h.next 1]
    dsimp only
    by_cases h2 : s 2 = x
    · rw [if_pos h2]
      rfl
    · rw [if_neg h2, if_neg (by omega), Chain.doublingWalk, h.next 2]
      dsimp only
      by_cases h3 : s 3 = x
      · rw [if_pos h3]
        rfl
      · rw [if_neg h3, if_pos (by omega), hlater]
        rfl

/-- With enough fuel the check comes to an end, and it reports a circular bound exactly when the
parents of the datum go on forever. -/
def Decides (check : Nat → δ → Option Report) (bounds : δ → Option δ) (x : δ) : Prop :=
  ∃ fuel report, (∀ more, fuel ≤ more → check more x = some report) ∧
    (report = .circularBounds ↔ ∃ s, Chain.Runs bounds x s)

private theorem verifyBoundsLoop_decides (h : FinitelyBound bounds) (x : δ) :
    Decides (fun fuel y => verifyBoundsLoop bounds fuel y (bounds y) 0 2) bounds x := by
  obtain ⟨S, hS⟩ := h
  rcases Chain.endsIn_or_runs bounds x with hends | hruns
  · obtain ⟨n, z, hends⟩ := hends
    refine ⟨n + 1, .valid, fun more hmore => verifyBoundsLoop_of_endsIn hends (by omega), ?_⟩
    constructor
    · intro heq
      cases heq
    · intro hruns
      obtain ⟨s, hs⟩ := hruns
      exact absurd hs hends.not_runs
  · obtain ⟨s, hs⟩ := hruns
    exact ⟨6 * (S.card + 3) + 3, .circularBounds,
      fun more hmore => verifyBoundsLoop_of_runs hs hS hmore, iff_of_true rfl ⟨s, hs⟩⟩

private theorem verifyUserRange_ne {σ κ : Type} [DecidableEq σ] [DecidableEq κ]
    (S : Sensitivities σ κ)
    (range : LevelRange σ κ) : verifyUserRange S range ≠ .circularBounds := by
  unfold verifyUserRange
  split_ifs
  · exact fun h => by cases h
  · split
    · exact fun h => by cases h
    · exact fun h => by cases h
    · exact fun h => by cases h

/-- A user with a default level and a range is checked as types and roles are. -/
private theorem verifyUser_decides {σ κ : Type} [DecidableEq σ] [DecidableEq κ]
    (S : Sensitivities σ κ) {levels : δ → UserLevels σ κ} (h : FinitelyBound bounds) {x : δ}
    (hlevel : (levels x).dftlevel ≠ none) (hrange : (levels x).range ≠ none) :
    Decides (verifyUser S levels bounds) bounds x := by
  obtain ⟨level, hlevel⟩ := Option.ne_none_iff_exists'.mp hlevel
  obtain ⟨range, hrange⟩ := Option.ne_none_iff_exists'.mp hrange
  obtain ⟨fuel, report, hloop, hcircular⟩ := verifyBoundsLoop_decides h x
  have hne := verifyUserRange_ne S range
  by_cases hvalid : report = .valid
  · refine ⟨fuel, verifyUserRange S range, fun more hmore => ?_, ?_⟩
    · have hrun := hloop more hmore
      dsimp only at hrun
      rw [hvalid] at hrun
      unfold verifyUser
      rw [hlevel, hrange]
      cases hparent : bounds x with
      | none => rfl
      | some parent =>
        rw [hparent] at hrun
        simp only [hrun]
    · rw [← hcircular, hvalid]
      exact iff_of_false hne fun heq => by cases heq
  · refine ⟨fuel, report, fun more hmore => ?_, hcircular⟩
    have hrun := hloop more hmore
    dsimp only at hrun
    unfold verifyUser
    rw [hlevel, hrange]
    cases hparent : bounds x with
    | none =>
      rw [hparent] at hrun
      cases more with
      | zero => cases hrun
      | succ more =>
        rw [verifyBoundsLoop] at hrun
        cases hrun
        exact absurd rfl hvalid
    | some parent =>
      rw [hparent] at hrun
      dsimp only
      rw [hrun]
      cases report with
      | valid => exact absurd rfl hvalid
      | _ => rfl

/-- The parents of a datum go on forever when it is on a cycle or leads into one. -/
private theorem runs_iff_cyclic (h : FinitelyBound bounds) (x : δ) :
    (∃ s, Chain.Runs bounds x s) ↔ Chain.Cyclic bounds x := by
  obtain ⟨S, hS⟩ := h
  constructor
  · intro hruns
    obtain ⟨s, hs⟩ := hruns
    rcases Chain.endsIn_or_cyclic hS x with hends | hcyclic
    · obtain ⟨n, z, hends⟩ := hends
      exact absurd hs hends.not_runs
    · exact hcyclic
  · intro hcyclic
    rcases Chain.endsIn_or_runs bounds x with hends | hruns
    · obtain ⟨n, z, hends⟩ := hends
      exact absurd hcyclic hends.not_cyclic
    · exact hruns

end Exact

section Decided

variable {δ : Type} [DecidableEq δ]

/-- After all bounds statements the search for a circular bound ends for every datum, and it finds
one exactly when the datum is on a cycle or leads into one. -/
theorem verify_bounds_exact {σ κ : Type} [DecidableEq σ] [DecidableEq κ] (S : Sensitivities σ κ)
    (lookup : Bounds → String → Except Rc δ) (isAttribute : δ → Bool) (kind : BoundsKind)
    (stmts : List Bounds) (bounds : δ → Option δ)
    (hbounds : resolveAllBounds lookup isAttribute kind stmts = .ok bounds)
    (levels : δ → UserLevels σ κ) (x : δ) :
    ((∃ s, Chain.Runs bounds x s) ↔ Chain.Cyclic bounds x) ∧
      Decides (verifyType bounds) bounds x ∧ Decides (verifyRole bounds) bounds x ∧
        ((levels x).dftlevel ≠ none → (levels x).range ≠ none →
          Decides (verifyUser S levels bounds) bounds x) := by
  have hfinite := resolveAllBounds_finitelyBound hbounds
  exact ⟨runs_iff_cyclic hfinite x, verifyBoundsLoop_decides hfinite x,
    verifyBoundsLoop_decides hfinite x, verifyUser_decides S hfinite⟩

/-- `(typebounds a b)` and `(typebounds b a)`. -/
def circularBounds : List Bounds := [⟨0, "a", "b"⟩, ⟨1, "b", "a"⟩]

/-- `a` is true and `b` is false. -/
def lookupPair (_ : Bounds) (name : String) : Except Rc Bool :=
  if name = "a" then .ok true else if name = "b" then .ok false else .error .enoent

private theorem units_nodup : [()].Nodup := List.nodup_singleton ()

private theorem mem_units (u : Unit) : u ∈ [()] := List.mem_singleton.mpr rfl

def oneSensitivity : Sensitivities Unit Unit := ⟨[()], fun _ => none, units_nodup, mem_units⟩

theorem circularBounds_decided :
    Decides (verifyType fun x : Bool => some !x) (fun x => some !x) true := by
  have hresolved : resolveAllBounds lookupPair (fun _ => false) .type circularBounds =
      .ok fun x => some !x := by
    refine congrArg Except.ok ?_
    ext x
    cases x <;> rfl
  exact (verify_bounds_exact oneSensitivity lookupPair (fun _ => false) .type circularBounds _
    hresolved (fun _ => ⟨none, none⟩) true).2.1

end Decided

end Cil.Verify
