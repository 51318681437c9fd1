/- Cil/Post/PathScan
   digest: The scan of a file context's path, and when it stays inside the string. -/

import Mathlib.Algebra.Group.Nat.Defs
import Cil.Parser.Lexer

/-!
The scan goes over a path of characters that is followed by a NUL. A backslash takes the
character after it along, whatever that is; at the end of a path it takes the NUL.
-/

set_option autoImplicit false
set_option relaxedAutoImplicit false

namespace Cil.Post.PathScan

open Cil.Parser

/-- `struct fc_data`. -/
structure FcData where
  hasMeta : Bool
  stemLen : Nat
  strLen : Nat
  deriving DecidableEq, Repr

/-- The characters that set `meta`. -/
def isMeta (c : Char) : Bool := ['.', '^', '$', '?', '*', '+', '|', '[', '(', '\x7b'].contains c

/-- How the scan of a string comes to an end. -/
inductive Scan
  | done (fc : FcData)
  /-- A read behind the NUL. -/
  | overrun
  /-- The index is no `int` any more. -/
  | overflow
  | running
  deriving DecidableEq, Repr

/-- The bound of an `int`. -/
def intBound : Nat := 2 ^ 31

/-- The turns of the loop of `cil_post_fc_fill_data` from the index `c` on. -/
def fillTurns (path : Text) : Nat → Nat → FcData → Scan
  | 0, _, _ => .running
  | fuel + 1, c, fc =>
      match (path ++ [nul])[c]? with
      | none => .overrun
      | some ch =>
          if ch = nul then .done fc
          else if isMeta ch then
            if c + 1 < intBound then
              fillTurns path fuel (c + 1) { fc with hasMeta := true, strLen := fc.strLen + 1 }
            else .overflow
          else
            -- The case of a backslash falls through to the default.
            let c' := if ch = '\\' then c + 1 else c
            if c' + 1 < intBound then
              fillTurns path fuel (c' + 1)
                { fc with
                  stemLen := if fc.hasMeta then fc.stemLen else fc.stemLen + 1
                  strLen := fc.strLen + 1 }
            else .overflow

attribute [simp] fillTurns

/-- `cil_post_fc_fill_data`. -/
def fillData (path : Text) : Scan := fillTurns path (path.length + 1) 0 ⟨false, 0, 0⟩

/-- What a path is made of. -/
inductive PathUnit
  | literal (c : Char)
  | escaped (c : Char)
  | metachar (c : Char)
  deriving DecidableEq, Repr

def PathUnit.isMetachar : PathUnit → Bool
  | .metachar _ => true
  | _ => false

/-- The unit of a character that no backslash stands before. -/
def unitOf (c : Char) : PathUnit := if isMeta c then .metachar c else .literal c

/-- The units of a path; a backslash with nothing after it is a literal. -/
def units : Text → List PathUnit
  | [] => []
  | c :: rest =>
      if c = '\\' then
        match rest with
        | [] => [.literal c]
        | d :: rest => .escaped d :: units rest
      else unitOf c :: units rest

attribute [simp] units

/-- The number of units before the first metacharacter. -/
def stem (us : List PathUnit) : Nat := (us.takeWhile fun u => !u.isMetachar).length

/-- The scan ends inside the string and counts the units. -/
def Counts (path : Text) : Prop :=
  ∃ fc, fillData path = .done fc ∧ fc.stemLen = stem (units path) ∧
    fc.strLen = (units path).length

/-- The backslashes at the end of a path. -/
def endingBackslashes (path : Text) : Nat := (path.reverse.takeWhile (· = '\\')).length

/-- The last character is a backslash that no other one stands before as its escape. -/
def loneEnd : Text → Bool
  | [] => false
  | c :: rest =>
      if c = '\\' then
        match rest with
        | [] => true
        | _ :: rest => loneEnd rest
      else loneEnd rest

attribute [simp] loneEnd

private theorem units_backslash (d : Char) (rest : Text) :
    units ('\\' :: d :: rest) = .escaped d :: units rest := by
  simp

private theorem loneEnd_backslash (d : Char) (rest : Text) :
    loneEnd ('\\' :: d :: rest) = loneEnd rest := by
  simp

private theorem units_char {c : Char} (hc : c ≠ '\\') (rest : Text) :
    units (c :: rest) = unitOf c :: units rest := by
  cases rest <;> simp [hc]

private theorem loneEnd_char {c : Char} (hc : c ≠ '\\') (rest : Text) :
    loneEnd (c :: rest) = loneEnd rest := by
  cases rest <;> simp [hc]

private theorem endingBackslashes_cons (c : Char) (rest : Text) :
    endingBackslashes (c :: rest) =
      if c = '\\' ∧ endingBackslashes rest = rest.length then rest.length + 1
      else endingBackslashes rest := by
  by_cases hall : endingBackslashes rest = rest.length
  · have hwhole : rest.reverse.takeWhile (· = '\\') = rest.reverse := by
      have hprefix := List.takeWhile_prefix (l := rest.reverse) (· = '\\')
      refine hprefix.eq_of_length ?_
      rw [List.length_reverse]
      exact hall
    by_cases hc : c = '\\'
    · rw [if_pos ⟨hc, hall⟩, endingBackslashes, List.reverse_cons, List.takeWhile_append,
        if_pos (by rw [hwhole]), hc]
      simp
    · rw [if_neg (fun h => hc h.1), endingBackslashes, List.reverse_cons, List.takeWhile_append,
        if_pos (by rw [hwhole])]
      simp [hc, hall]
  · have hpart : (rest.reverse.takeWhile (· = '\\')).length ≠ rest.reverse.length := by
      rw [List.length_reverse]
      exact hall
    rw [if_neg (fun h => hall h.2), endingBackslashes, List.reverse_cons, List.takeWhile_append,
      if_neg hpart]
    rfl

private theorem endingBackslashes_le (path : Text) : endingBackslashes path ≤ path.length := by
  have hsub := (List.takeWhile_sublist (l := path.reverse) (· = '\\')).length_le
  rw [List.length_reverse] at hsub
  exact hsub

/-- Whether the last backslash is a lone one is a matter of how many there are at the end. -/
private theorem loneEnd_iff (path : Text) :
    loneEnd path = true ↔ endingBackslashes path % 2 = 1 := by
  induction path using units.induct with
  | case1 => simp [endingBackslashes]
  | case2 => decide
  | case3 d rest ih =>
    have hle := endingBackslashes_le rest
    have hinner := endingBackslashes_cons d rest
    have houter := endingBackslashes_cons '\\' (d :: rest)
    rw [List.length_cons] at houter
    simp only [true_and] at houter
    rw [loneEnd_backslash, ih, houter]
    by_cases hd : d = '\\' ∧ endingBackslashes rest = rest.length
    · rw [if_pos hd] at hinner
      obtain ⟨-, hall⟩ := hd
      rw [if_pos hinner]
      omega
    · rw [if_neg hd] at hinner
      rw [if_neg (by omega), hinner]
  | case4 c rest hc ih =>
    rw [loneEnd_char hc, ih, endingBackslashes_cons, if_neg (fun h => hc h.1)]

/-- What a unit does to the data. -/
def FcData.advance (fc : FcData) (u : PathUnit) : FcData :=
  if u.isMetachar then { fc with hasMeta := true, strLen := fc.strLen + 1 }
  else
    { fc with
      stemLen := if fc.hasMeta then fc.stemLen else fc.stemLen + 1
      strLen := fc.strLen + 1 }

private theorem advance_strLen (us : List PathUnit) (fc : FcData) :
    (us.foldl FcData.advance fc).strLen = fc.strLen + us.length := by
  induction us generalizing fc with
  | nil => rfl
  | cons u us ih =>
    have hstep : (fc.advance u).strLen = fc.strLen + 1 := by
      unfold FcData.advance
      split_ifs <;> rfl
    rw [List.foldl_cons, ih, hstep, List.length_cons]
    omega

private theorem advance_stemLen (us : List PathUnit) (fc : FcData) :
    (us.foldl FcData.advance fc).stemLen
      = fc.stemLen + if fc.hasMeta then 0 else stem us := by
  induction us generalizing fc with
  | nil => simp [stem]
  | cons u us ih =>
    rw [List.foldl_cons, ih]
    by_cases hu : u.isMetachar = true
    · have hstem : stem (u :: us) = 0 := by simp [stem, hu]
      simp [FcData.advance, hu, hstem]
    · have hstem : stem (u :: us) = stem us + 1 := by simp [stem, hu]
      by_cases hmeta : fc.hasMeta = true
      · simp [FcData.advance, hu, hmeta]
      · simp only [FcData.advance, hu, hmeta, hstem, Bool.false_eq_true, if_false]
        omega

section Turns

variable {path pre : Text} {fc : FcData} (fuel : Nat)

private theorem read_at {c : Char} {rest : Text} (hpath : path = pre ++ c :: rest) :
    (path ++ [nul])[pre.length]? = some c := by
  rw [hpath, List.append_assoc, List.getElem?_append_right (Nat.le_refl _), Nat.sub_self]
  rfl

/-- A turn at a character that is no backslash. -/
private theorem fillTurns_char {c : Char} {rest : Text} (hpath : path = pre ++ c :: rest)
    (hnul : c ≠ nul) (hc : c ≠ '\\') :
    fillTurns path (fuel + 1) pre.length fc =
      if pre.length + 1 < intBound then
        fillTurns path fuel (pre ++ [c]).length (fc.advance (unitOf c))
      else .overflow := by
  have hlength : (pre ++ [c]).length = pre.length + 1 := by simp
  rw [fillTurns, read_at hpath, hlength]
  dsimp only
  rw [if_neg hnul]
  by_cases hmeta : isMeta c = true
  · rw [if_pos hmeta]
    simp only [FcData.advance, unitOf, hmeta, if_true, PathUnit.isMetachar]
  · rw [if_neg hmeta, if_neg hc]
    simp only [FcData.advance, unitOf, hmeta, Bool.false_eq_true, if_false, PathUnit.isMetachar]

/-- A turn at a backslash, which goes behind the character after it. -/
private theorem fillTurns_backslash {rest : Text} (hpath : path = pre ++ '\\' :: rest) (d : Char) :
    fillTurns path (fuel + 1) pre.length fc =
      if pre.length + 2 < intBound then
        fillTurns path fuel (pre.length + 2) (fc.advance (.escaped d))
      else .overflow := by
  have hnul : '\\' ≠ nul := by decide
  have hmeta : isMeta '\\' = false := by decide
  rw [fillTurns, read_at hpath]
  dsimp only
  rw [if_neg hnul, hmeta]
  simp only [Bool.false_eq_true, if_false, if_true, FcData.advance, PathUnit.isMetachar]

end Turns

/-- The scan counts the units of what it has not read yet. -/
private theorem fillTurns_done {path pre suf : Text} {fc : FcData} {fuel : Nat}
    (hpath : path = pre ++ suf) (hnul : nul ∉ suf) (hfuel : suf.length < fuel)
    (hend : loneEnd suf = false) (hbound : path.length < intBound) :
    fillTurns path fuel pre.length fc = .done ((units suf).foldl FcData.advance fc) := by
  obtain ⟨fuel, rfl⟩ : ∃ n, fuel = n + 1 := ⟨fuel - 1, by omega⟩
  induction suf using units.induct generalizing pre fc fuel with
  | case1 =>
    rw [List.append_nil] at hpath
    have hread : (path ++ [nul])[pre.length]? = some nul := by
      rw [hpath, List.getElem?_append_right (Nat.le_refl _), Nat.sub_self]
      rfl
    rw [fillTurns, hread]
    dsimp only
    rw [if_pos rfl, units, List.foldl_nil]
  | case2 => exact absurd hend (by decide)
  | case3 d rest ih =>
    have hlength : path.length = pre.length + (rest.length + 2) := by
      rw [hpath, List.length_append, List.length_cons, List.length_cons]
    have hpre : (pre ++ ['\\', d]).length = pre.length + 2 := by simp
    have hfuel' : rest.length + 2 < fuel + 1 := by simpa only [List.length_cons] using hfuel
    obtain ⟨fuel, rfl⟩ : ∃ n, fuel = n + 1 := ⟨fuel - 1, by omega⟩
    rw [fillTurns_backslash _ hpath d, if_pos (by omega), ← hpre,
      ih (by simp [hpath]) (fun hmem => hnul (by simp [hmem]))
        (by rwa [loneEnd_backslash] at hend) fuel (by omega),
      units_backslash, List.foldl_cons]
  | case4 c rest hc ih =>
    have hlength : path.length = pre.length + (rest.length + 1) := by
      rw [hpath, List.length_append, List.length_cons]
    have hcnul : c ≠ nul := fun heq => hnul (by simp [heq])
    have hfuel' : rest.length + 1 < fuel + 1 := by simpa using hfuel
    obtain ⟨fuel, rfl⟩ : ∃ n, fuel = n + 1 := ⟨fuel - 1, by omega⟩
    rw [fillTurns_char _ hpath hcnul hc, if_pos (by omega),
      ih (by simp [hpath]) (fun hmem => hnul (by simp [hmem]))
        (by rwa [loneEnd_char hc] at hend) fuel (by omega),
      units_char hc, List.foldl_cons]

/-- Past a lone backslash, or past the largest `int`, the scan does not end well. -/
private theorem fillTurns_not_done {path pre suf : Text} {fc fc' : FcData} {fuel : Nat}
    (hpath : path = pre ++ suf) (hnul : nul ∉ suf) (hpre : pre.length < intBound)
    (hbad : loneEnd suf = true ∨ intBound ≤ path.length) :
    fillTurns path fuel pre.length fc ≠ .done fc' := by
  induction suf using units.induct generalizing pre fc fuel with
  | case1 =>
    rw [List.append_nil] at hpath
    rcases hbad with hlone | hlong
    · exact absurd hlone (by decide)
    · rw [hpath] at hlong
      omega
  | case2 =>
    cases fuel with
    | zero => simp
    | succ fuel =>
      rw [fillTurns_backslash _ hpath nul]
      split_ifs
      · cases fuel with
        | zero => simp
        | succ fuel =>
          have hread : (path ++ [nul])[pre.length + 2]? = none := by
            rw [hpath]
            simp
          rw [fillTurns, hread]
          simp
      · simp
  | case3 d rest ih =>
    cases fuel with
    | zero => simp
    | succ fuel =>
      rw [fillTurns_backslash _ hpath d]
      split_ifs with hsmall
      · have hlength : (pre ++ ['\\', d]).length = pre.length + 2 := by simp
        rw [← hlength]
        exact ih (by simp [hpath]) (fun hmem => hnul (by simp [hmem])) (by omega)
          (by rwa [loneEnd_backslash] at hbad)
      · simp
  | case4 c rest hc ih =>
    cases fuel with
    | zero => simp
    | succ fuel =>
      have hcnul : c ≠ nul := fun heq => hnul (by simp [heq])
      rw [fillTurns_char _ hpath hcnul hc]
      split_ifs with hsmall
      · have hlength : (pre ++ [c]).length = pre.length + 1 := by simp
        exact ih (by simp [hpath]) (fun hmem => hnul (by simp [hmem])) (by omega)
          (by rwa [loneEnd_char hc] at hbad)
      · simp

/-- What the scan finds in a path. -/
def pathData (path : Text) : FcData := (units path).foldl FcData.advance ⟨false, 0, 0⟩

theorem fillData_done {path : Text} (hnul : nul ∉ path) (heven : endingBackslashes path % 2 = 0)
    (hbound : path.length < intBound) : fillData path = .done (pathData path) := by
  have hend : loneEnd path = false := by
    by_contra hlone
    have hodd := (loneEnd_iff path).mp (by simpa using hlone)
    omega
  exact fillTurns_done (List.nil_append path).symm hnul (Nat.lt_succ_self _) hend hbound

/-- The scan ends inside the string if and only if the path ends with an even number of
backslashes and its indices are of type `int`. -/
theorem fillData_done_iff {path : Text} (hnul : nul ∉ path) :
    (∃ fc, fillData path = .done fc) ↔
      endingBackslashes path % 2 = 0 ∧ path.length < intBound := by
  have hpre : ([] : Text).length < intBound := by decide
  constructor
  · intro hdone
    obtain ⟨fc, hdone⟩ := hdone
    refine ⟨?_, ?_⟩
    · by_contra hodd
      have hlone : loneEnd path = true := (loneEnd_iff path).mpr (by omega)
      exact fillTurns_not_done (List.nil_append path).symm hnul hpre (Or.inl hlone) hdone
    · by_contra hlong
      have hbound : intBound ≤ path.length := Nat.le_of_not_lt hlong
      exact fillTurns_not_done (List.nil_append path).symm hnul hpre (Or.inr hbound) hdone
  · intro hgood
    exact ⟨_, fillData_done hnul hgood.1 hgood.2⟩

/-- The scan of a path that can be delivered stays inside the string and counts its units, if
and only if the path ends with an even number of backslashes and its indices are of type `int`. -/
theorem fillData_counts_iff (path : Text) (h : Deliverable path) :
    Counts path ↔ endingBackslashes path % 2 = 0 ∧ path.length < 2 ^ 31 := by
  obtain ⟨-, hnul⟩ := deliverable_iff.mp h
  constructor
  · intro hcounts
    obtain ⟨fc, hdone, -⟩ := hcounts
    exact (fillData_done_iff hnul).mp ⟨fc, hdone⟩
  · intro heven
    obtain ⟨heven, hbound⟩ := heven
    refine ⟨_, fillData_done hnul heven hbound, ?_, ?_⟩
    · rw [pathData, advance_stemLen]
      simp
    · rw [pathData, advance_strLen, Nat.zero_add]

/-- The path `/a\.b`, with an escaped metacharacter. -/
theorem escaped_counts : Counts ['/', 'a', '\\', '.', 'b'] :=
  (fillData_counts_iff _ (deliverable_iff.mpr (by simp [isQuotedChar, nul]))).mpr (by decide)

/-- The path `/a\`, as a quoted string: the scan reads behind its end. -/
theorem lone_backslash_overruns :
    ∃ path : Text, Deliverable path ∧ fillData path = .overrun ∧ ¬ Counts path := by
  have hoverrun : fillData ['/', 'a', '\\'] = .overrun := by decide
  refine ⟨['/', 'a', '\\'], deliverable_iff.mpr (by simp [isQuotedChar, nul]), hoverrun,
    fun hcounts => ?_⟩
  obtain ⟨fc, hdone, -⟩ := hcounts
  rw [hoverrun] at hdone
  cases hdone

end Cil.Post.PathScan
