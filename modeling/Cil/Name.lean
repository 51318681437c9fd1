/- Cil/Name
   digest: Names of declarations, and the names that the blocks around them make of them. -/

import Cil.Basic
import Cil.Library.Separated

set_option autoImplicit false
set_option relaxedAutoImplicit false

namespace Cil

open Library.Separated

/-- The characters of a string, without the NUL at its end. -/
abbrev Text := List Char

/-- `CIL_MAX_NAME_LENGTH`. -/
def maxNameLength : Nat := 2048

/-- The loop of `__cil_verify_name`. -/
def verifyNameLoop : Text → Rc
  | [] => .ok
  | c :: rest =>
      if c.isAlphanum = false ∧ c ≠ '_' ∧ c ≠ '-' then .err else verifyNameLoop rest

/-- `__cil_verify_name`. -/
def verifyName (name : Text) : Rc :=
  if name.length ≥ maxNameLength then .err
  else
    match name with
    | [] => .err
    | c :: rest => if c.isAlpha = false then .err else verifyNameLoop rest

attribute [simp] verifyNameLoop

/-- The characters that a name may have. -/
def NameChar (c : Char) : Prop := c.isAlphanum = true ∨ c = '_' ∨ c = '-'

private theorem verifyNameLoop_ok {name : Text} (h : verifyNameLoop name = .ok) :
    ∀ c ∈ name, NameChar c := by
  induction name with
  | nil => exact fun c hc => (List.not_mem_nil hc).elim
  | cons first rest ih =>
    rw [verifyNameLoop] at h
    split_ifs at h with hbad
    intro c hc
    rcases List.mem_cons.mp hc with heq | hc
    · rw [heq]
      by_cases halnum : first.isAlphanum = true
      · exact Or.inl halnum
      · by_cases hscore : first = '_'
        · exact Or.inr (Or.inl hscore)
        · by_cases hdash : first = '-'
          · exact Or.inr (Or.inr hdash)
          · exact absurd ⟨Bool.eq_false_iff.mpr halnum, hscore, hdash⟩ hbad
    · exact ih h c hc

theorem verifyName_ok {name : Text} (h : verifyName name = .ok) :
    name.length < maxNameLength ∧ name ≠ [] ∧ ∀ c ∈ name, NameChar c := by
  unfold verifyName at h
  split_ifs at h with hlength
  cases name with
  | nil => cases h
  | cons first rest =>
    dsimp only at h
    split_ifs at h with halpha
    refine ⟨by omega, List.cons_ne_nil _ _, fun c hc => ?_⟩
    rcases List.mem_cons.mp hc with heq | hc
    · rw [heq]
      have htrue : first.isAlpha = true := by simpa using halpha
      exact Or.inl (by rw [Char.isAlphanum, htrue, Bool.true_or])
    · exact verifyNameLoop_ok h c hc

/-- A name after the names of the blocks around its declaration. -/
def IsFqn (t : Text) : Prop :=
  ∃ names : List Text, names ≠ [] ∧ (∀ name ∈ names, verifyName name = .ok) ∧
    t = joined '.' names

private theorem IsFqn.nameChar {t : Text} (h : IsFqn t) : ∀ c ∈ t, c = '.' ∨ NameChar c := by
  obtain ⟨names, -, hok, rfl⟩ := h
  intro c hc
  rcases mem_joined hc with heq | ⟨name, hname, hc⟩
  · exact Or.inl heq
  · exact Or.inr ((verifyName_ok (hok name hname)).2.2 c hc)

/-- Punctuation other than dots is in no such name. -/
theorem IsFqn.not_mem {t : Text} (h : IsFqn t) {c : Char} (hdot : c ≠ '.') (hc : ¬ NameChar c) :
    c ∉ t :=
  fun hmem => hc ((h.nameChar c hmem).resolve_left hdot)

theorem comma_not_nameChar : ¬ NameChar ',' := by
  unfold NameChar
  decide

theorem colon_not_nameChar : ¬ NameChar ':' := by
  unfold NameChar
  decide

theorem dot_not_nameChar : ¬ NameChar '.' := by
  unfold NameChar
  decide

end Cil
