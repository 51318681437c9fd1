/- Cil/Library/Nesting
   digest: Nested lists, how they are spelled with parentheses, and reading them with a stack. -/

import Mathlib.Data.List.Basic
import Mathlib.Tactic.SplitIfs

set_option autoImplicit false
set_option relaxedAutoImplicit false

namespace Cil.Library.Nesting

/-- Lists with a label, and what stands in them. -/
inductive Nested (L A : Type)
  | leaf (a : A)
  | list (label : L) (children : List (Nested L A))

/-- The letters of a spelling. -/
inductive Piece (L A : Type)
  | opening (label : L)
  | closing
  | leaf (a : A)
  deriving DecidableEq

variable {L A : Type}

mutual

/-- How a nested list is spelled. -/
def flatten : Nested L A → List (Piece L A)
  | .leaf a => [.leaf a]
  | .list label children => .opening label :: (flattenAll children ++ [.closing])

def flattenAll : List (Nested L A) → List (Piece L A)
  | [] => []
  | t :: ts => flatten t ++ flattenAll ts

end

attribute [simp] flatten flattenAll

private theorem flattenAll_append (ts ts' : List (Nested L A)) :
    flattenAll (ts ++ ts') = flattenAll ts ++ flattenAll ts' := by
  induction ts with
  | nil => rfl
  | cons t ts ih => rw [List.cons_append, flattenAll, flattenAll, ih, List.append_assoc]

/-- What has been read: the finished ones outside of all parentheses, and for each open list,
the innermost first, its label and what is finished in it. -/
structure Reading (L A : Type) where
  top : List (Nested L A)
  frames : List (L × List (Nested L A))

/-- Nothing has been read. -/
def Reading.start : Reading L A := ⟨[], []⟩

/-- One more stands in the innermost open list. -/
def Reading.add (r : Reading L A) (t : Nested L A) : Reading L A :=
  match r.frames with
  | [] => { r with top := r.top ++ [t] }
  | (label, ts) :: frames => { r with frames := (label, ts ++ [t]) :: frames }

/-- Reading a piece. A leaf stands in an open list, and what is closed was opened. -/
def Reading.step (r : Reading L A) : Piece L A → Option (Reading L A)
  | .opening label => some { r with frames := (label, []) :: r.frames }
  | .closing =>
      match r.frames with
      | [] => none
      | (label, ts) :: frames => some (Reading.add { r with frames := frames } (.list label ts))
  | .leaf a =>
      match r.frames with
      | [] => none
      | _ :: _ => some (r.add (.leaf a))

def Reading.run (r : Reading L A) : List (Piece L A) → Option (Reading L A)
  | [] => some r
  | p :: ps => (r.step p).bind fun r' => r'.run ps

attribute [simp] Reading.run

theorem Reading.run_append (r : Reading L A) (ps qs : List (Piece L A)) :
    r.run (ps ++ qs) = (r.run ps).bind fun r' => r'.run qs := by
  induction ps generalizing r with
  | nil => rfl
  | cons p ps ih =>
    rw [List.cons_append, Reading.run, Reading.run, Option.bind_assoc]
    exact congrArg _ (funext fun r' => ih r')

/-- What spells the open lists. -/
def spelledFrames (top : List (Nested L A)) :
    List (L × List (Nested L A)) → List (Piece L A)
  | [] => flattenAll top
  | (label, ts) :: frames => spelledFrames top frames ++ .opening label :: flattenAll ts

attribute [simp] spelledFrames

/-- The pieces that were read. -/
def Reading.spelled (r : Reading L A) : List (Piece L A) := spelledFrames r.top r.frames

private theorem Reading.add_spelled (r : Reading L A) (t : Nested L A) :
    (r.add t).spelled = r.spelled ++ flatten t := by
  obtain ⟨top, frames⟩ := r
  cases frames with
  | nil => simp [Reading.add, Reading.spelled, flattenAll_append]
  | cons frame frames => simp [Reading.add, Reading.spelled, flattenAll_append]

private theorem Reading.step_spelled {r r' : Reading L A} {p : Piece L A} (h : r.step p = some r') :
    r'.spelled = r.spelled ++ [p] := by
  cases p with
  | opening label =>
    simp only [Reading.step, Option.some.injEq] at h
    rw [← h]
    simp [Reading.spelled]
  | closing =>
    cases hframes : r.frames with
    | nil => simp [Reading.step, hframes] at h
    | cons frame frames =>
      obtain ⟨label, ts⟩ := frame
      simp only [Reading.step, hframes, Option.some.injEq] at h
      rw [← h, Reading.add_spelled]
      simp [Reading.spelled, hframes]
  | leaf a =>
    cases hframes : r.frames with
    | nil => simp [Reading.step, hframes] at h
    | cons frame frames =>
      simp only [Reading.step, hframes, Option.some.injEq] at h
      rw [← h, Reading.add_spelled]
      simp

/-- A reading spells what it has read. -/
theorem Reading.run_spelled {r r' : Reading L A} {ps : List (Piece L A)}
    (h : r.run ps = some r') : r'.spelled = r.spelled ++ ps := by
  induction ps generalizing r with
  | nil =>
    have heq : r = r' := Option.some.inj h
    rw [heq, List.append_nil]
  | cons p ps ih =>
    obtain ⟨r₁, hstep, hrun⟩ := Option.bind_eq_some_iff.mp h
    rw [ih hrun, Reading.step_spelled hstep, List.append_assoc, List.singleton_append]

/-- How many lists a spelling leaves open. -/
def depth : List (Piece L A) → Int
  | [] => 0
  | .opening _ :: ps => 1 + depth ps
  | .closing :: ps => depth ps - 1
  | .leaf _ :: ps => depth ps

attribute [simp] depth

theorem Reading.add_frames (r : Reading L A) (t : Nested L A) :
    (r.add t).frames.length = r.frames.length := by
  obtain ⟨top, frames⟩ := r
  cases frames with
  | nil => rfl
  | cons frame frames => rfl

private theorem Reading.step_frames {r r' : Reading L A} {p : Piece L A} (h : r.step p = some r') :
    (r'.frames.length : Int) = r.frames.length + depth [p] := by
  cases p with
  | opening label =>
    simp only [Reading.step, Option.some.injEq] at h
    rw [← h]
    simp
  | closing =>
    cases hframes : r.frames with
    | nil => simp [Reading.step, hframes] at h
    | cons frame frames =>
      obtain ⟨label, ts⟩ := frame
      simp only [Reading.step, hframes, Option.some.injEq] at h
      rw [← h, Reading.add_frames]
      simp only [List.length_cons, depth]
      omega
  | leaf a =>
    cases hframes : r.frames with
    | nil => simp [Reading.step, hframes] at h
    | cons frame frames =>
      simp only [Reading.step, hframes, Option.some.injEq] at h
      rw [← h, Reading.add_frames, hframes]
      simp

private theorem depth_cons (p : Piece L A) (ps : List (Piece L A)) :
    depth (p :: ps) = depth [p] + depth ps := by
  cases p with
  | opening label =>
    simp only [depth]
    omega
  | closing =>
    simp only [depth]
    omega
  | leaf a =>
    simp only [depth]
    omega

theorem Reading.run_frames {r r' : Reading L A} {ps : List (Piece L A)}
    (h : r.run ps = some r') : (r'.frames.length : Int) = r.frames.length + depth ps := by
  induction ps generalizing r with
  | nil =>
    have heq : r = r' := Option.some.inj h
    rw [heq]
    simp
  | cons p ps ih =>
    obtain ⟨r₁, hstep, hrun⟩ := Option.bind_eq_some_iff.mp h
    have hfirst := Reading.step_frames hstep
    have hrest := ih hrun
    rw [depth_cons]
    omega

/-- Whether a piece needs an open list around it. -/
def Piece.inside : Piece L A → Prop
  | .opening _ => False
  | _ => True

private theorem Reading.step_isSome (r : Reading L A) (p : Piece L A) :
    (∃ r', r.step p = some r') ↔ (p.inside → 0 < r.frames.length) := by
  cases p with
  | opening label => simp [Reading.step, Piece.inside]
  | closing =>
    cases hframes : r.frames with
    | nil => simp [Reading.step, hframes, Piece.inside]
    | cons frame frames => simp [Reading.step, hframes, Piece.inside]
  | leaf a =>
    cases hframes : r.frames with
    | nil => simp [Reading.step, hframes, Piece.inside]
    | cons frame frames => simp [Reading.step, hframes, Piece.inside]

/-- A spelling can be read if and only if what closes a list, and every leaf, comes while a
list is open. -/
theorem Reading.run_isSome (r : Reading L A) (ps : List (Piece L A)) :
    (∃ r', r.run ps = some r') ↔
      ∀ before p after, ps = before ++ p :: after → p.inside →
        0 < (r.frames.length : Int) + depth before := by
  induction ps generalizing r with
  | nil => simp
  | cons q qs ih =>
    constructor
    · intro hrun before p after hsplit hinside
      obtain ⟨r', hrun⟩ := hrun
      obtain ⟨r₁, hstep, hrun⟩ := Option.bind_eq_some_iff.mp hrun
      cases before with
      | nil =>
        obtain ⟨hp, -⟩ := List.cons.inj hsplit
        have hpos := (r.step_isSome q).mp ⟨r₁, hstep⟩ (hp ▸ hinside)
        simp only [depth]
        omega
      | cons b before =>
        obtain ⟨hb, hrest⟩ := List.cons.inj hsplit
        have hpos := (ih r₁).mp ⟨r', hrun⟩ before p after hrest hinside
        have hframes := Reading.step_frames hstep
        rw [depth_cons, ← hb]
        omega
    · intro hall
      have hfirst : q.inside → 0 < r.frames.length := by
        intro hinside
        have hpos := hall [] q qs rfl hinside
        simp only [depth] at hpos
        omega
      obtain ⟨r₁, hstep⟩ := (r.step_isSome q).mpr hfirst
      have hframes := Reading.step_frames hstep
      obtain ⟨r', hrun⟩ := (ih r₁).mpr (fun before p after hsplit hinside => by
        have hpos := hall (q :: before) p after (by rw [hsplit, List.cons_append]) hinside
        rw [depth_cons] at hpos
        omega)
      exact ⟨r', by simp only [Reading.run, hstep, Option.bind_some, hrun]⟩

mutual

/-- Reading a spelling inside an open list adds what it spells. -/
private theorem run_flatten (label : L) (ts : List (Nested L A)) (top : List (Nested L A))
    (frames : List (L × List (Nested L A))) (rest : List (Piece L A)) :
    (t : Nested L A) → Reading.run ⟨top, (label, ts) :: frames⟩ (flatten t ++ rest)
      = Reading.run ⟨top, (label, ts ++ [t]) :: frames⟩ rest
  | .leaf a => by simp [Reading.step, Reading.add]
  | .list label' children => by
    have hchildren := run_flattenAll label' [] top ((label, ts) :: frames)
      (.closing :: rest) children
    simp only [flatten, List.cons_append, List.append_assoc, Reading.run, Reading.step,
      Option.bind_some, List.nil_append] at hchildren ⊢
    rw [hchildren]
    simp [Reading.add]

private theorem run_flattenAll (label : L) (ts : List (Nested L A)) (top : List (Nested L A))
    (frames : List (L × List (Nested L A))) (rest : List (Piece L A)) :
    (us : List (Nested L A)) → Reading.run ⟨top, (label, ts) :: frames⟩ (flattenAll us ++ rest)
      = Reading.run ⟨top, (label, ts ++ us) :: frames⟩ rest
  | [] => by simp
  | u :: us => by
    rw [flattenAll, List.append_assoc, run_flatten label ts top frames _ u,
      run_flattenAll label (ts ++ [u]) top frames rest us, List.append_assoc,
      List.singleton_append]

end

/-- Different lists are spelled differently. -/
theorem flattenAll_injective [Nonempty L] {ts us : List (Nested L A)}
    (h : flattenAll ts = flattenAll us) : ts = us := by
  obtain ⟨label⟩ := ‹Nonempty L›
  have hts := run_flattenAll label [] [] [] [] ts
  have hus := run_flattenAll label [] [] [] [] us
  rw [h, hus] at hts
  simpa [Reading.run] using hts.symm

/-- What is finished outside of all parentheses are lists. -/
private theorem Reading.step_lists {r r' : Reading L A} {p : Piece L A} (h : r.step p = some r')
    (hr : ∀ t ∈ r.top, ∃ label ts, t = .list label ts) :
    ∀ t ∈ r'.top, ∃ label ts, t = .list label ts := by
  cases p with
  | opening label =>
    have heq := Option.some.inj h
    rw [← heq]
    exact hr
  | closing =>
    cases hframes : r.frames with
    | nil => simp [Reading.step, hframes] at h
    | cons frame frames =>
      obtain ⟨label, ts⟩ := frame
      simp only [Reading.step, hframes, Option.some.injEq] at h
      rw [← h]
      cases frames with
      | nil =>
        intro t ht
        rcases List.mem_append.mp ht with ht | ht
        · exact hr t ht
        · exact ⟨label, ts, List.mem_singleton.mp ht⟩
      | cons frame frames => exact hr
  | leaf a =>
    cases hframes : r.frames with
    | nil => simp [Reading.step, hframes] at h
    | cons frame frames =>
      simp only [Reading.step, hframes, Option.some.injEq, Reading.add] at h
      rw [← h]
      exact hr

theorem Reading.run_lists {r r' : Reading L A} {ps : List (Piece L A)} (h : r.run ps = some r')
    (hr : ∀ t ∈ r.top, ∃ label ts, t = .list label ts) :
    ∀ t ∈ r'.top, ∃ label ts, t = .list label ts := by
  induction ps generalizing r with
  | nil =>
    have heq : r = r' := Option.some.inj h
    rw [← heq]
    exact hr
  | cons p ps ih =>
    obtain ⟨r₁, hstep, hrun⟩ := Option.bind_eq_some_iff.mp h
    exact ih hrun (Reading.step_lists hstep hr)

end Cil.Library.Nesting
