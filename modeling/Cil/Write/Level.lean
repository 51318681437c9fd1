/- Cil/Write/Level
   digest: The text of a level, and the length that is reckoned for it. -/

import Mathlib.Algebra.Group.Nat.Defs
import Cil.Name
import Cil.Verify.Levels

set_option autoImplicit false
set_option relaxedAutoImplicit false

namespace Cil.Write

open Cil.Verify

/-- A conversion to `int`. -/
def toInt (n : Int) : Int := n.bmod (2 ^ 32)

/-- `str_len += n` for an `int` and a number of characters. -/
def plus (strLen : Int) (n : Nat) : Int := toInt (strLen + n)

private theorem plus_toInt (m : Int) (n : Nat) :
    plus (toInt m) n = toInt (m + n) := Int.bmod_add_bmod

/-- `fqn` of sensitivities and categories, and `value` of categories. -/
structure LevelNames (σ κ : Type) where
  sensFqn : σ → Text
  catFqn : κ → Text
  value : κ → Nat

/-- The variables of the loops over categories: a run of consecutive values is under way, from
`str1` to `str2`, unless `first` is -1. -/
structure Run where
  first : Int
  last : Int
  str1 : Text
  str2 : Text
  deriving DecidableEq, Repr

def Run.start : Run := ⟨-1, -1, [], []⟩

section Write

variable {σ κ : Type} (N : LevelNames σ κ)

/-- The categories that are written; a null list counts as none. -/
def writtenCats (l : Level σ κ) : Option (List κ) :=
  match l.cats with
  | some (some cats) => some cats
  | _ => none

/-- The loop of `__cil_level_strlen`. -/
def strlenLoop : List κ → Run → Int → Int × Run
  | [], run, strLen => (strLen, run)
  | cat :: rest, run, strLen =>
      if run.first = -1 then
        strlenLoop rest { run with
          str1 := N.catFqn cat
          first := N.value cat
          last := N.value cat } strLen
      else if N.value cat = run.last + 1 then
        strlenLoop rest { run with last := run.last + 1, str2 := N.catFqn cat } strLen
      else
        let strLen :=
          if run.first = run.last then
            plus strLen (run.str1.length + (N.catFqn cat).length + 1)
          else if run.last = run.first + 1 then
            plus strLen (run.str1.length + run.str2.length + (N.catFqn cat).length + 2)
          else plus strLen (run.str1.length + run.str2.length + (N.catFqn cat).length + 2)
        let strLen := if rest ≠ [] then plus strLen 1 else strLen
        strlenLoop rest { run with first := -1, last := -1 } strLen

/-- The end of `__cil_level_strlen`, for a run that is still under way. -/
def strlenFlush (run : Run) (strLen : Int) : Int :=
  if run.first ≠ -1 then
    if run.first = run.last then plus strLen run.str1.length
    else if run.last = run.first + 1 then plus strLen (run.str1.length + run.str2.length + 1)
    else plus strLen (run.str1.length + run.str2.length + 1)
  else strLen

/-- `__cil_level_strlen`. -/
def levelStrlen (l : Level σ κ) : Int :=
  let strLen := plus 0 (N.sensFqn l.sens).length
  match writtenCats l with
  | none => strLen
  | some cats =>
      let (strLen, run) := strlenLoop N cats Run.start (plus strLen 1)
      strlenFlush run strLen

/-- The loop of `__cil_level_to_string`, on what is written so far. -/
def stringLoop : List κ → Run → Text → Text × Run
  | [], run, out => (out, run)
  | cat :: rest, run, out =>
      if run.first = -1 then
        stringLoop rest { run with
          str1 := N.catFqn cat
          first := N.value cat
          last := N.value cat } out
      else if N.value cat = run.last + 1 then
        stringLoop rest { run with last := run.last + 1, str2 := N.catFqn cat } out
      else
        let out :=
          if run.first = run.last then out ++ (run.str1 ++ [','] ++ N.catFqn cat)
          else if run.last = run.first + 1 then
            out ++ (run.str1 ++ [','] ++ run.str2 ++ [','] ++ N.catFqn cat)
          else out ++ (run.str1 ++ ['.'] ++ run.str2 ++ [','] ++ N.catFqn cat)
        let out := if rest ≠ [] then out ++ [','] else out
        stringLoop rest { run with first := -1, last := -1 } out

/-- The end of `__cil_level_to_string`. -/
def stringFlush (run : Run) (out : Text) : Text :=
  if run.first ≠ -1 then
    if run.first = run.last then out ++ run.str1
    else if run.last = run.first + 1 then out ++ (run.str1 ++ [','] ++ run.str2)
    else out ++ (run.str1 ++ ['.'] ++ run.str2)
  else out

/-- What `__cil_level_to_string` writes. -/
def levelText (l : Level σ κ) : Text :=
  match writtenCats l with
  | none => N.sensFqn l.sens
  | some cats =>
      let (out, run) := stringLoop N cats Run.start (N.sensFqn l.sens ++ [':'])
      stringFlush run out

/-- The return value of `__cil_level_to_string`. -/
def levelToString (l : Level σ κ) : Int := toInt (levelText N l).length

attribute [simp] strlenLoop stringLoop

end Write

section Length

variable {σ κ : Type} (N : LevelNames σ κ)

private theorem plus_length (out : Text) {text : Text} {n : Nat} (h : text.length = n) :
    plus (toInt out.length) n = toInt (out ++ text).length := by
  rw [plus_toInt, List.length_append, h, Int.natCast_add]

/-- Both loops keep the same run, and what is written has the length reckoned. -/
private theorem strlenLoop_eq (cats : List κ) (run : Run) (out : Text) :
    strlenLoop N cats run (toInt out.length) =
      (toInt (stringLoop N cats run out).1.length, (stringLoop N cats run out).2) := by
  induction cats generalizing run out with
  | nil => rfl
  | cons cat rest ih =>
    rw [strlenLoop, stringLoop]
    by_cases hfirst : run.first = -1
    · rw [if_pos hfirst, if_pos hfirst]
      exact ih _ _
    · rw [if_neg hfirst, if_neg hfirst]
      by_cases hnext : (N.value cat : Int) = run.last + 1
      · rw [if_pos hnext, if_pos hnext]
        exact ih _ _
      · rw [if_neg hnext, if_neg hnext]
        dsimp only
        have hcomma : ∀ text : Text, (if rest ≠ [] then plus (toInt text.length) 1
            else toInt text.length) = toInt (if rest ≠ [] then text ++ [','] else text).length := by
          intro text
          split_ifs
          · exact plus_length text rfl
          · rfl
        rw [← ih, ← hcomma]
        split_ifs
        all_goals
          rw [plus_length]
          simp only [List.length_append, List.length_singleton]
          omega

private theorem strlenFlush_eq (run : Run) (out : Text) :
    strlenFlush run (toInt out.length) = toInt (stringFlush run out).length := by
  unfold strlenFlush stringFlush
  split_ifs
  · exact plus_length out rfl
  · refine plus_length out ?_
    simp only [List.length_append, List.length_singleton]
    omega
  · refine plus_length out ?_
    simp only [List.length_append, List.length_singleton]
    omega
  · rfl

/-- The length reckoned is that of the text, as an `int`. -/
theorem levelStrlen_eq (l : Level σ κ) : levelStrlen N l = toInt (levelText N l).length := by
  unfold levelStrlen levelText
  have hsens : plus 0 (N.sensFqn l.sens).length = toInt (N.sensFqn l.sens).length := by
    rw [plus, Int.zero_add]
  cases writtenCats l with
  | none => exact hsens
  | some cats =>
    have hcolon : plus (plus 0 (N.sensFqn l.sens).length) 1 =
        toInt (N.sensFqn l.sens ++ [':']).length := by
      rw [hsens]
      exact plus_length _ rfl
    dsimp only
    rw [hcolon, strlenLoop_eq, strlenFlush_eq]

end Length

end Cil.Write
