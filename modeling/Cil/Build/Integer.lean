/- Cil/Build/Integer
   digest: How the builder reads numbers, and the numbers of port and device statements. -/

import Mathlib.Algebra.Group.Nat.Defs
import Mathlib.Algebra.Ring.Int.Defs
import Mathlib.Data.List.TakeWhile
import Mathlib.Data.Nat.Notation
import Cil.Name

/-!
A number goes from a string to a `long`, from there to an `int`, and from there to a `uint32_t`;
only the first of these conversions is checked.
-/

set_option autoImplicit false
set_option relaxedAutoImplicit false

namespace Cil.Build.Integer

/-- `isspace`. -/
def isSpace (c : Char) : Bool := [' ', '\t', '\n', '\x0b', '\x0c', '\r'].contains c

/-- The value of decimal digits. -/
def digitsValue (digits : Text) : Nat :=
  digits.foldl (fun n d => 10 * n + (d.toNat - '0'.toNat)) 0

/-- `LONG_MAX`. -/
def longMax : Int := 2 ^ 63 - 1

/-- `LONG_MIN`. -/
def longMin : Int := - 2 ^ 63

/-- What a call of `strtol` gives: its value, how far it moves `endptr`, and whether it sets
`errno` to `ERANGE`. -/
structure Strtol where
  value : Int
  consumed : Nat
  erange : Bool
  deriving DecidableEq, Repr

/-- How many characters a sign takes. -/
def signLength : Text → Nat
  | '-' :: _ => 1
  | '+' :: _ => 1
  | _ => 0

def isNegative : Text → Bool
  | '-' :: _ => true
  | _ => false

/-- `strtol` with base 10. -/
def strtol (s : Text) : Strtol :=
  let blanks := (s.takeWhile isSpace).length
  let signed := s.drop blanks
  let digits := (signed.drop (signLength signed)).takeWhile Char.isDigit
  if digits = [] then ⟨0, 0, false⟩
  else
    let n : Int := digitsValue digits
    let value := if isNegative signed then -n else n
    let consumed := blanks + signLength signed + digits.length
    if value > longMax then ⟨longMax, consumed, true⟩
    else if value < longMin then ⟨longMin, consumed, true⟩
    else ⟨value, consumed, false⟩

/-- The conversion from `long` to `int`. -/
def toInt (x : Int) : Int := (BitVec.ofInt 32 x).toInt

/-- The conversion from `int` to `uint32_t`. -/
def toU32 (x : Int) : BitVec 32 := BitVec.ofInt 32 x

/-- `cil_fill_integer`. -/
def fillInteger (s : Text) : Option (BitVec 32) :=
  let r := strtol s
  let val := toInt r.value
  if r.erange = true ∨ r.consumed = 0 ∨ s[r.consumed]? ≠ none then none else some (toU32 val)

/-- What stands in the place of the numbers: a string, or a list of strings. -/
inductive Given
  | string (s : Text)
  | list (elements : List Text)

/-- The numbers in `cil_gen_portcon`, `cil_gen_iomemcon` and `cil_gen_ioportcon`: a low and a
high one, or one that is both. -/
def fillRange : Given → Option (BitVec 32 × BitVec 32)
  | .string s => (fillInteger s).map fun low => (low, low)
  | .list [s, t] =>
      match fillInteger s with
      | none => none
      | some low => (fillInteger t).map fun high => (low, high)
  | .list _ => none

/-- The number in `cil_gen_pirqcon` and `cil_gen_pcidevicecon`, whose syntax allows no list. -/
def fillSingle : Given → Option (BitVec 32 × BitVec 32)
  | .string s => (fillInteger s).map fun n => (n, n)
  | .list _ => none

/-- The statements with numbers. -/
inductive Kind
  | portcon | pirqcon | iomemcon | ioportcon | pcidevicecon
  deriving DecidableEq, Repr

/-- The numbers that a statement stores, when they are accepted. -/
def numbers : Kind → Given → Option (BitVec 32 × BitVec 32)
  | .portcon, given => fillRange given
  | .pirqcon, given => fillSingle given
  | .iomemcon, given => fillRange given
  | .ioportcon, given => fillRange given
  | .pcidevicecon, given => fillSingle given

/-- The number that is emitted, in a field of the policy with so many bits. -/
def emitted (bits : Nat) (n : BitVec 32) : Nat := n.toNat % 2 ^ bits

/-- A string of digits. -/
def Digits (s : Text) : Prop := s ≠ [] ∧ ∀ c ∈ s, c.isDigit = true

/-- A string reads as blanks, a sign or none, and digits. -/
structure Reads (s blanks sign digits : Text) : Prop where
  split : s = blanks ++ (sign ++ digits)
  blank : ∀ c ∈ blanks, isSpace c = true
  signed : sign = [] ∨ sign = ['+'] ∨ sign = ['-']
  digits : Digits digits

/-- The number that a sign and digits stand for. -/
def signedValue (sign digits : Text) : Int :=
  if sign = ['-'] then -(digitsValue digits : Int) else digitsValue digits

/-- The whole string is a number of type `long`. -/
def Readable (s : Text) : Prop :=
  ∃ blanks sign digits, Reads s blanks sign digits ∧
    longMin ≤ signedValue sign digits ∧ signedValue sign digits ≤ longMax

private theorem not_space_of_digit {c : Char} (h : c.isDigit = true) : isSpace c = false := by
  by_contra hspace
  simp only [isSpace, Bool.not_eq_false, List.contains_eq_mem, decide_eq_true_eq, List.mem_cons,
    List.not_mem_nil, or_false] at hspace
  rcases hspace with rfl | rfl | rfl | rfl | rfl | rfl <;> exact absurd h (by decide)

theorem Digits.head {s : Text} (h : Digits s) : ∃ c rest, s = c :: rest ∧ c.isDigit = true := by
  obtain ⟨c, rest, rfl⟩ := List.exists_cons_of_ne_nil h.1
  exact ⟨c, rest, rfl, h.2 c List.mem_cons_self⟩

/-- What comes after the blanks does not start with one. -/
theorem Reads.head {s blanks sign digits : Text} (h : Reads s blanks sign digits) :
    ∃ c rest, sign ++ digits = c :: rest ∧ isSpace c = false := by
  obtain ⟨d, rest, hdigits, hd⟩ := h.digits.head
  rcases h.signed with hsign | hsign | hsign
  · exact ⟨d, rest, by rw [hsign, hdigits]; rfl, not_space_of_digit hd⟩
  · exact ⟨'+', digits, by rw [hsign]; rfl, by decide⟩
  · exact ⟨'-', digits, by rw [hsign]; rfl, by decide⟩

private theorem Reads.takeWhile_blanks {s blanks sign digits : Text}
    (h : Reads s blanks sign digits) :
    s.takeWhile isSpace = blanks := by
  obtain ⟨c, rest, hcons, hc⟩ := h.head
  rw [h.split, List.takeWhile_append_of_pos h.blank, hcons,
    List.takeWhile_cons_of_neg (by simp [hc]),
    List.append_nil]

private theorem signLength_digits {digits : Text} (h : Digits digits) : signLength digits = 0 := by
  obtain ⟨c, rest, rfl, hc⟩ := h.head
  unfold signLength
  split
  · rename_i heq
    cases heq
    exact absurd hc (by decide)
  · rename_i heq
    cases heq
    exact absurd hc (by decide)
  · rfl

private theorem isNegative_digits {digits : Text} (h : Digits digits) :
    isNegative digits = false := by
  obtain ⟨c, rest, rfl, hc⟩ := h.head
  unfold isNegative
  split
  · rename_i heq
    cases heq
    exact absurd hc (by decide)
  · rfl

/-- The sign that `strtol` finds. -/
private theorem Reads.sign_eq {s blanks sign digits : Text} (h : Reads s blanks sign digits) :
    signLength (sign ++ digits) = sign.length ∧
      isNegative (sign ++ digits) = decide (sign = ['-']) := by
  rcases h.signed with hsign | hsign | hsign
  · rw [hsign, List.nil_append, signLength_digits h.digits, isNegative_digits h.digits]
    exact ⟨rfl, rfl⟩
  · rw [hsign]
    exact ⟨rfl, rfl⟩
  · rw [hsign]
    exact ⟨rfl, rfl⟩

/-- `strtol` of a string that reads as a number goes to its end. -/
private theorem strtol_reads {s blanks sign digits : Text} (h : Reads s blanks sign digits) :
    strtol s =
      if signedValue sign digits > longMax then ⟨longMax, s.length, true⟩
      else if signedValue sign digits < longMin then ⟨longMin, s.length, true⟩
      else ⟨signedValue sign digits, s.length, false⟩ := by
  obtain ⟨hlength, hnegative⟩ := h.sign_eq
  have hdrop : s.drop blanks.length = sign ++ digits := by
    rw [h.split, List.drop_left]
  have htake : digits.takeWhile Char.isDigit = digits :=
    List.takeWhile_eq_self_iff.mpr h.digits.2
  have hwhole : blanks.length + sign.length + digits.length = s.length := by
    rw [h.split, List.length_append, List.length_append]
    omega
  have hne : digits ≠ [] := h.digits.1
  have hvalue : (if isNegative (sign ++ digits) = true then -(digitsValue digits : Int)
      else digitsValue digits) = signedValue sign digits := by
    rw [hnegative]
    simp only [decide_eq_true_eq, signedValue]
  simp only [strtol, h.takeWhile_blanks, hdrop, hlength, List.drop_left, htake, if_neg hne,
    hvalue, hwhole]

private theorem fillInteger_reads {s blanks sign digits : Text} (h : Reads s blanks sign digits) :
    fillInteger s =
      if longMin ≤ signedValue sign digits ∧ signedValue sign digits ≤ longMax then
        some (toU32 (toInt (signedValue sign digits)))
      else none := by
  have hpos : s.length ≠ 0 := by
    obtain ⟨c, rest, hcons, -⟩ := h.head
    rw [h.split, hcons, List.length_append, List.length_cons]
    omega
  have hend : s[s.length]? = none := List.getElem?_eq_none_iff.mpr (Nat.le_refl _)
  have hstrtol := strtol_reads h
  by_cases hbig : signedValue sign digits > longMax
  · rw [if_pos hbig] at hstrtol
    have hout : ¬ (longMin ≤ signedValue sign digits ∧ signedValue sign digits ≤ longMax) := by
      omega
    rw [if_neg hout]
    simp only [fillInteger, hstrtol, true_or, if_true]
  · rw [if_neg hbig] at hstrtol
    by_cases hsmall : signedValue sign digits < longMin
    · rw [if_pos hsmall] at hstrtol
      have hout : ¬ (longMin ≤ signedValue sign digits ∧ signedValue sign digits ≤ longMax) := by
        omega
      rw [if_neg hout]
      simp only [fillInteger, hstrtol, true_or, if_true]
    · rw [if_neg hsmall] at hstrtol
      have hin : longMin ≤ signedValue sign digits ∧ signedValue sign digits ≤ longMax := by omega
      rw [if_pos hin]
      simp only [fillInteger, hstrtol, hpos, hend, ne_eq, not_true_eq_false, Bool.false_eq_true,
        or_false, if_false]

/-- A sign in front. -/
private theorem take_signLength (s : Text) :
    s.take (signLength s) = [] ∨ s.take (signLength s) = ['+'] ∨
      s.take (signLength s) = ['-'] := by
  unfold signLength
  split
  · exact Or.inr (Or.inr rfl)
  · exact Or.inr (Or.inl rfl)
  · exact Or.inl rfl

/-- What is accepted reads as a number from its start to its end. -/
private theorem reads_of_fillInteger {s : Text} {n : BitVec 32} (h : fillInteger s = some n) :
    ∃ blanks sign digits, Reads s blanks sign digits := by
  have hsplit : s = s.takeWhile isSpace ++ s.drop (s.takeWhile isSpace).length := by
    have hprefix := List.takeWhile_prefix (l := s) isSpace
    rw [List.prefix_iff_eq_append] at hprefix
    exact hprefix.symm
  generalize hblanks : s.takeWhile isSpace = blanks at hsplit
  generalize hsigned : s.drop blanks.length = signed at hsplit
  have hafter : signed = signed.take (signLength signed) ++ signed.drop (signLength signed) :=
    (List.take_append_drop _ _).symm
  generalize hrest : signed.drop (signLength signed) = rest at hafter
  have hdigits : rest = rest.takeWhile Char.isDigit ++ rest.dropWhile Char.isDigit :=
    List.takeWhile_append_dropWhile.symm
  have hsign : (signed.take (signLength signed)).length = signLength signed := by
    rw [List.length_take]
    unfold signLength
    split
    · simp
    · simp
    · simp
  have hconsumed : rest.takeWhile Char.isDigit ≠ [] ∧
      s.length ≤ blanks.length + signLength signed + (rest.takeWhile Char.isDigit).length := by
    by_contra hnot
    have hnone : fillInteger s = none := by
      by_cases hempty : rest.takeWhile Char.isDigit = []
      · have hstrtol : strtol s = ⟨0, 0, false⟩ := by
          simp only [strtol, hblanks, hsigned, hrest, hempty, if_true]
        simp only [fillInteger, hstrtol, true_or, or_true, if_true]
      · have hshort : blanks.length + signLength signed + (rest.takeWhile Char.isDigit).length
            < s.length := by
          by_contra hlong
          exact hnot ⟨hempty, Nat.le_of_not_lt hlong⟩
        have hend : (strtol s).consumed
            = blanks.length + signLength signed + (rest.takeWhile Char.isDigit).length := by
          simp only [strtol, hblanks, hsigned, hrest, if_neg hempty]
          split_ifs <;> rfl
        have hmore : s[(strtol s).consumed]? ≠ none := by
          rw [hend, List.getElem?_eq_getElem hshort]
          exact Option.some_ne_none _
        simp only [fillInteger, hmore, ne_eq, not_false_eq_true, or_true, if_true]
    rw [hnone] at h
    cases h
  obtain ⟨hne, hlong⟩ := hconsumed
  have hwhole : rest.dropWhile Char.isDigit = [] := by
    have hlength := congrArg List.length hsplit
    rw [hafter, List.length_append, List.length_append, hsign] at hlength
    rw [hdigits, List.length_append] at hlength
    have hzero : (rest.dropWhile Char.isDigit).length = 0 := by omega
    exact List.eq_nil_of_length_eq_zero hzero
  rw [hwhole, List.append_nil] at hdigits
  refine ⟨blanks, signed.take (signLength signed), rest, ?_, ?_, take_signLength signed, ?_⟩
  · rw [← hafter]
    exact hsplit
  · intro c hc
    rw [← hblanks] at hc
    exact List.all_eq_true.mp List.all_takeWhile c hc
  · refine ⟨fun hnil => hne (by rw [hnil]; rfl), fun c hc => ?_⟩
    rw [hdigits] at hc
    exact List.all_eq_true.mp List.all_takeWhile c hc

/-- A string is accepted if and only if the whole of it is a number of type `long`. -/
private theorem fillInteger_isSome (s : Text) : (∃ n, fillInteger s = some n) ↔ Readable s := by
  constructor
  · intro hsome
    obtain ⟨n, hn⟩ := hsome
    obtain ⟨blanks, sign, digits, hreads⟩ := reads_of_fillInteger hn
    rw [fillInteger_reads hreads] at hn
    split_ifs at hn with hrange
    exact ⟨blanks, sign, digits, hreads, hrange⟩
  · intro hreadable
    obtain ⟨blanks, sign, digits, hreads, hrange⟩ := hreadable
    exact ⟨_, by rw [fillInteger_reads hreads, if_pos hrange]⟩

/-- A string of digits is stored as its value modulo 2^32. -/
private theorem fillInteger_digits {s : Text} (hs : Digits s) {n : BitVec 32}
    (h : fillInteger s = some n) :
    n.toNat = digitsValue s % 2 ^ 32 := by
  have hreads : Reads s [] [] s := ⟨rfl, fun c hc => (List.not_mem_nil hc).elim, Or.inl rfl, hs⟩
  rw [fillInteger_reads hreads] at h
  split_ifs at h
  have hvalue : signedValue [] s = (digitsValue s : Int) := by simp [signedValue]
  rw [← Option.some.inj h, hvalue, toU32, toInt, BitVec.ofInt_toInt, BitVec.ofInt_natCast,
    BitVec.toNat_ofNat]

/-- A decimal numeral of a number. -/
def Numeral (s : Text) (n : Nat) : Prop := Digits s ∧ digitsValue s = n

/-- The strings are numerals of the numbers that are stored. -/
def Written : Given → BitVec 32 → BitVec 32 → Prop
  | .string s, low, high => Numeral s low.toNat ∧ Numeral s high.toNat
  | .list elements, low, high =>
      ∃ s t, elements = [s, t] ∧ Numeral s low.toNat ∧ Numeral t high.toNat

section Statements

variable (bits : Kind → Nat)

/-- What is accepted is emitted as it is written, with the low number first. The fields in which
the numbers of a statement are emitted have `bits` bits. -/
def AsWritten (k : Kind) (given : Given) : Prop :=
  ∀ low high, numbers k given = some (low, high) →
    Written given low high ∧ emitted (bits k) low = low.toNat ∧
      emitted (bits k) high = high.toNat ∧ low.toNat ≤ high.toNat

/-- The statements that may have a range of numbers. -/
def Kind.takesRanges : Kind → Bool
  | .portcon => true
  | .iomemcon => true
  | .ioportcon => true
  | .pirqcon => false
  | .pcidevicecon => false

/-- Digits only, of a number that fits the field and 32 bits. -/
def Small (bits : Nat) (s : Text) : Prop :=
  Digits s ∧ digitsValue s < 2 ^ 32 ∧ digitsValue s < 2 ^ bits

/-- No string that `strtol` reads has blanks or a sign in front or is too large, and no range
goes down. -/
def Careful (k : Kind) : Given → Prop
  | .string s => Readable s → Small (bits k) s
  | .list [s, t] =>
      k.takesRanges = true → Readable s → Readable t →
        Small (bits k) s ∧ Small (bits k) t ∧ digitsValue s ≤ digitsValue t
  | .list _ => True

private theorem small_iff {bits : Nat} {s : Text} {n : BitVec 32} (h : fillInteger s = some n) :
    (Numeral s n.toNat ∧ emitted bits n = n.toNat) ↔ Small bits s := by
  have hlt := n.isLt
  constructor
  · intro hwritten
    obtain ⟨⟨hdigits, hvalue⟩, hemitted⟩ := hwritten
    have hpos : 0 < 2 ^ bits := Nat.two_pow_pos bits
    have hfits := Nat.mod_lt n.toNat hpos
    rw [emitted] at hemitted
    exact ⟨hdigits, by omega, by omega⟩
  · intro hsmall
    obtain ⟨hdigits, hword, hfits⟩ := hsmall
    have hstored := fillInteger_digits hdigits h
    rw [Nat.mod_eq_of_lt hword] at hstored
    refine ⟨⟨hdigits, hstored.symm⟩, ?_⟩
    rw [emitted, hstored, Nat.mod_eq_of_lt hfits]

private theorem numbers_string (k : Kind) (s : Text) :
    numbers k (.string s) = (fillInteger s).map fun n => (n, n) := by
  cases k <;> rfl

private theorem numbers_list {k : Kind} (hk : k.takesRanges = false) (elements : List Text) :
    numbers k (.list elements) = none := by
  cases k with
  | portcon => cases hk
  | pirqcon => rfl
  | iomemcon => cases hk
  | ioportcon => cases hk
  | pcidevicecon => rfl

private theorem numbers_range {k : Kind} (hk : k.takesRanges = true) (elements : List Text) :
    numbers k (.list elements) = fillRange (.list elements) := by
  cases k with
  | portcon => rfl
  | pirqcon => cases hk
  | iomemcon => rfl
  | ioportcon => rfl
  | pcidevicecon => cases hk

private theorem string_iff (k : Kind) (s : Text) :
    AsWritten bits k (.string s) ↔ (Readable s → Small (bits k) s) := by
  constructor
  · intro h hreadable
    obtain ⟨n, hn⟩ := (fillInteger_isSome s).mpr hreadable
    obtain ⟨hwritten, hemitted, -, -⟩ := h n n (by rw [numbers_string, hn]; rfl)
    exact (small_iff hn).mp ⟨hwritten.1, hemitted⟩
  · intro h low high hnumbers
    rw [numbers_string] at hnumbers
    obtain ⟨n, hn, heq⟩ := Option.map_eq_some_iff.mp hnumbers
    obtain ⟨rfl, rfl⟩ := Prod.mk.inj heq
    obtain ⟨hnumeral, hemitted⟩ := (small_iff hn).mpr (h ((fillInteger_isSome s).mp ⟨n, hn⟩))
    exact ⟨⟨hnumeral, hnumeral⟩, hemitted, hemitted, Nat.le_refl _⟩

private theorem range_iff {k : Kind} (hk : k.takesRanges = true) (s t : Text) :
    AsWritten bits k (.list [s, t]) ↔
      (Readable s → Readable t →
        Small (bits k) s ∧ Small (bits k) t ∧ digitsValue s ≤ digitsValue t) := by
  constructor
  · intro h hs ht
    obtain ⟨low, hlow⟩ := (fillInteger_isSome s).mpr hs
    obtain ⟨high, hhigh⟩ := (fillInteger_isSome t).mpr ht
    have hnumbers : numbers k (.list [s, t]) = some (low, high) := by
      rw [numbers_range hk]
      simp only [fillRange, hlow, hhigh, Option.map_some]
    obtain ⟨⟨s', t', heq, hsnum, htnum⟩, hlowfits, hhighfits, hle⟩ := h low high hnumbers
    obtain ⟨rfl, heq'⟩ := List.cons.inj heq
    obtain ⟨rfl, -⟩ := List.cons.inj heq'
    refine ⟨(small_iff hlow).mp ⟨hsnum, hlowfits⟩, (small_iff hhigh).mp ⟨htnum, hhighfits⟩, ?_⟩
    rw [hsnum.2, htnum.2]
    exact hle
  · intro h low high hnumbers
    rw [numbers_range hk] at hnumbers
    cases hlow : fillInteger s with
    | none => simp only [fillRange, hlow, reduceCtorEq] at hnumbers
    | some low' =>
      simp only [fillRange, hlow] at hnumbers
      obtain ⟨high', hhigh, heq⟩ := Option.map_eq_some_iff.mp hnumbers
      obtain ⟨rfl, rfl⟩ := Prod.mk.inj heq
      obtain ⟨hs, ht, hle⟩ := h ((fillInteger_isSome s).mp ⟨_, hlow⟩)
        ((fillInteger_isSome t).mp ⟨_, hhigh⟩)
      obtain ⟨hsnum, hlowfits⟩ := (small_iff hlow).mpr hs
      obtain ⟨htnum, hhighfits⟩ := (small_iff hhigh).mpr ht
      refine ⟨⟨s, t, rfl, hsnum, htnum⟩, hlowfits, hhighfits, ?_⟩
      rw [hsnum.2, htnum.2] at hle
      exact hle

/-- The numbers of a statement are emitted as written or rejected, if and only if no string that
`strtol` reads has something in front of its digits or is too large, and no range goes down. -/
theorem asWritten_iff (k : Kind) (given : Given) :
    AsWritten bits k given ↔ Careful bits k given := by
  cases given with
  | string s => exact string_iff bits k s
  | list elements =>
    cases hk : k.takesRanges with
    | false =>
      have hright : AsWritten bits k (.list elements) := by
        intro low high hnumbers
        rw [numbers_list hk] at hnumbers
        cases hnumbers
      refine ⟨fun _ => ?_, fun _ => hright⟩
      unfold Careful
      split
      · trivial
      · intro hrange
        rw [hk] at hrange
        cases hrange
      · trivial
    | true =>
      match elements with
      | [s, t] =>
        rw [range_iff bits hk s t]
        exact ⟨fun h _ => h, fun h => h hk⟩
      | [] =>
        refine ⟨fun _ => trivial, fun _ low high hnumbers => ?_⟩
        rw [numbers_range hk] at hnumbers
        cases hnumbers
      | [_] =>
        refine ⟨fun _ => trivial, fun _ low high hnumbers => ?_⟩
        rw [numbers_range hk] at hnumbers
        cases hnumbers
      | _ :: _ :: _ :: _ =>
        refine ⟨fun _ => trivial, fun _ low high hnumbers => ?_⟩
        rw [numbers_range hk] at hnumbers
        cases hnumbers

end Statements

/-- The number `-1` of an iomemcon is accepted, and stored as 2^32 - 1. -/
theorem negative_not_asWritten :
    ∃ given : Given, numbers .iomemcon given = some (4294967295, 4294967295) ∧
      ¬ AsWritten (fun _ => 32) .iomemcon given := by
  have hnumbers : numbers .iomemcon (.string ['-', '1']) = some (4294967295, 4294967295) := by
    decide
  refine ⟨.string ['-', '1'], hnumbers, fun h => ?_⟩
  obtain ⟨⟨⟨hdigits, -⟩, -⟩, -⟩ := h _ _ hnumbers
  exact absurd (hdigits.2 '-' List.mem_cons_self) (by decide)

end Cil.Build.Integer
