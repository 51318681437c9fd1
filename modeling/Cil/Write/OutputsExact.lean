/- Cil/Write/OutputsExact
   digest: The sizes reported are the numbers of characters written, where an int counts levels. -/

import Cil.Write.Outputs

set_option autoImplicit false
set_option relaxedAutoImplicit false

namespace Cil.Write

open Cil.Verify

section Integers

/-- How many times 2^32 a conversion to `int` takes away from a number of characters. -/
def overflow (n : Nat) : Nat := (n + 2 ^ 31) / 2 ^ 32

private theorem toInt_eq (n : Nat) : toInt n = n - 2 ^ 32 * overflow n := by
  unfold toInt overflow
  rw [Int.bmod_def]
  split_ifs <;> omega

private theorem overflow_le (n : Nat) : 2 ^ 32 * overflow n ≤ 2 * n := by
  unfold overflow
  omega

private theorem overflow_eq_zero {n : Nat} : overflow n = 0 ↔ n < 2 ^ 31 := by
  unfold overflow
  omega

private theorem toInt_toInt_add (a b c : Int) :
    toInt (toInt a + toInt b + c) = toInt (a + b + c) := by
  unfold toInt
  rw [Int.add_assoc, Int.bmod_add_bmod, ← Int.add_assoc, Int.add_right_comm a, Int.add_bmod_bmod,
    Int.add_right_comm]

private theorem toInt_add (a c : Int) : toInt (toInt a + c) = toInt (a + c) := Int.bmod_add_bmod

private theorem addSize_mod (m n : Int) :
    addSize (m % 2 ^ 64).toNat n = ((m + n) % 2 ^ 64).toNat := by
  unfold addSize
  congr 1
  omega

end Integers

section Entries

variable {ε : Type}

/-- What one entry adds to the length reckoned, moves the place to write, and has as its text. The
integers take away multiples of 2^32 where they do not hold the lengths. -/
structure Reckoning (ε : Type) where
  text : ε → Text
  reckoned : ε → Int
  moved : ε → Int
  lost : ε → Nat
  skipped : ε → Nat
  reckoned_eq : ∀ e, reckoned e = (text e).length - 2 ^ 32 * lost e
  moved_eq : ∀ e, moved e = (text e).length - 2 ^ 32 * skipped e
  lost_le : ∀ e, 2 ^ 32 * lost e ≤ 2 * (text e).length
  skipped_of_lost : ∀ e, lost e = 0 → skipped e = 0

namespace Reckoning

variable (R : Reckoning ε)

def total (es : List ε) : Nat := (es.flatMap R.text).length

def size (es : List ε) : Nat := ((es.map R.reckoned).sum % 2 ^ 64).toNat

def buffer (es : List ε) : Buffer := ⟨es.flatMap R.text, (es.map R.moved).sum⟩

private theorem sum_eq (es : List ε) : ∃ lost skipped : Nat,
    (es.map R.reckoned).sum = R.total es - 2 ^ 32 * lost ∧
      (es.map R.moved).sum = R.total es - 2 ^ 32 * skipped ∧
        2 ^ 32 * lost ≤ 2 * R.total es ∧ (lost = 0 ↔ ∀ e ∈ es, R.lost e = 0) ∧
          (lost = 0 → skipped = 0) := by
  induction es with
  | nil => exact ⟨0, 0, rfl, rfl, Nat.zero_le _, by simp, fun _ => rfl⟩
  | cons e es ih =>
    obtain ⟨lost, skipped, hreckoned, hmoved, hle, hzero, hskipped⟩ := ih
    have htotal : R.total (e :: es) = (R.text e).length + R.total es := by
      rw [total, List.flatMap_cons, List.length_append]
      rfl
    refine ⟨R.lost e + lost, R.skipped e + skipped, ?_, ?_, ?_, ?_, fun h => ?_⟩
    · rw [List.map_cons, List.sum_cons, hreckoned, R.reckoned_eq, htotal]
      omega
    · rw [List.map_cons, List.sum_cons, hmoved, R.moved_eq, htotal]
      omega
    · have hfirst := R.lost_le e
      omega
    · rw [List.forall_mem_cons, ← hzero]
      omega
    · have hfirst := R.skipped_of_lost e (by omega)
      have hlater := hskipped (by omega)
      omega

/-- An output of all entries is exact where nothing is lost and the memory can be had. -/
theorem exact_iff (es : List ε) (o : Option Output)
    (ho : o = if R.size es + 1 ≤ ptrdiffMax ∨ R.size es = 2 ^ 64 - 1 then
      some ⟨R.size es, addSize (R.size es) 1, R.buffer es⟩ else none) :
    ExactOutput o ↔ (∀ e ∈ es, R.lost e = 0) ∧ R.total es < ptrdiffMax := by
  obtain ⟨lost, skipped, hreckoned, hmoved, hle, hzero, hskipped⟩ := R.sum_eq es
  have hsize : R.size es = ((R.total es - 2 ^ 32 * lost : Int) % 2 ^ 64).toNat := by
    rw [size, hreckoned]
  have hmax : ptrdiffMax = 2 ^ 63 - 1 := rfl
  rw [ho, ← hzero]
  constructor
  · intro h
    obtain ⟨out, hout, hexact⟩ := h
    split_ifs at hout with hmalloc
    cases hout
    obtain ⟨hwritten, -, hroom⟩ := hexact
    have hlength : R.size es = R.total es := hwritten
    have hroom' : R.total es = 0 ∨ R.total es + 1 ≤ addSize (R.size es) 1 := by
      rcases hroom with hnil | hroom
      · have htext : es.flatMap R.text = [] := hnil
        exact Or.inl (by rw [total, htext]; rfl)
      · exact Or.inr hroom
    have hadd : addSize (R.size es) 1 = ((R.size es + 1 : Int) % 2 ^ 64).toNat := rfl
    rw [hadd] at hroom'
    omega
  · intro h
    obtain ⟨hlost, htotal⟩ := h
    have hskip := hskipped hlost
    rw [hlost] at hsize
    have hlength : R.size es = R.total es := by omega
    rw [if_pos (by omega)]
    refine ⟨_, rfl, hlength, ?_, Or.inr ?_⟩
    · show (es.map R.moved).sum = R.total es
      rw [hmoved, hskip]
      omega
    · show R.total es + 1 ≤ addSize (R.size es) 1
      have hadd : addSize (R.size es) 1 = ((R.size es + 1 : Int) % 2 ^ 64).toNat := rfl
      rw [hadd]
      omega

private theorem size_lt (es : List ε) : R.size es < 2 ^ 64 := by
  unfold size
  omega

end Reckoning

/-- The memory can be had for a size and a NUL. -/
private theorem malloc_output (size : Nat) (b : Buffer) (h : size < 2 ^ 64) :
    ((cilMalloc (addSize size 1)).bind fun _ => some (⟨size, addSize size 1, b⟩ : Output)) =
      if size + 1 ≤ ptrdiffMax ∨ size = 2 ^ 64 - 1 then some ⟨size, addSize size 1, b⟩
      else none := by
  have hadd : addSize size 1 = ((size + 1 : Int) % 2 ^ 64).toNat := rfl
  have hmax : ptrdiffMax = 2 ^ 63 - 1 := rfl
  unfold cilMalloc
  split_ifs
  · rfl
  · omega
  · omega
  · rfl

end Entries

section Userprefixes

def userprefixesText (us : List Userprefix) : Text := us.flatMap userprefixText

private theorem userprefixText_length (u : Userprefix) : (userprefixText u).length =
    "user ".length + u.userFqn.length + " prefix ".length + u.prefixStr.length + 2 := by
  unfold userprefixText
  simp only [List.length_append, String.length_toList]
  rfl

private theorem userprefixesText_cons (u : Userprefix) (rest : List Userprefix) :
    (userprefixesText (u :: rest)).length =
      (userprefixText u).length + (userprefixesText rest).length := by
  rw [userprefixesText, List.flatMap_cons, List.length_append]
  rfl

private theorem userprefixesStrlen_eq (us : List Userprefix) (m : Int) :
    userprefixesStrlen (m % 2 ^ 64).toNat us =
      ((m + (userprefixesText us).length) % 2 ^ 64).toNat := by
  induction us generalizing m with
  | nil => exact congrArg (fun n : Int => (n % 2 ^ 64).toNat) (Int.add_zero m).symm
  | cons u rest ih =>
    rw [userprefixesStrlen, ← userprefixText_length, addSize_mod, ih, userprefixesText_cons,
      Int.natCast_add, Int.add_assoc]

private theorem userprefixesWrite_pos (us : List Userprefix) (strLen : Nat) (b : Buffer) :
    (userprefixesWrite strLen b us).pos = b.pos + (userprefixesText us).length := by
  induction us generalizing strLen b with
  | nil => exact (Int.add_zero b.pos).symm
  | cons u rest ih =>
    rw [userprefixesWrite, ih, userprefixesText_cons, Int.natCast_add, Int.add_assoc]

/-- With room for all nothing is cut off. -/
private theorem userprefixesWrite_written (us : List Userprefix) {strLen : Nat} (b : Buffer)
    (h : (userprefixesText us).length < strLen) (hmax : strLen < 2 ^ 64) :
    (userprefixesWrite strLen b us).written = b.written ++ userprefixesText us := by
  induction us generalizing strLen b with
  | nil => exact (List.append_nil b.written).symm
  | cons u rest ih =>
    rw [userprefixesText_cons] at h
    have hnext : addSize strLen (-(userprefixText u).length) =
        strLen - (userprefixText u).length := by
      unfold addSize
      omega
    have hall : (userprefixText u).take (strLen - 1) = userprefixText u :=
      List.take_of_length_le (by omega)
    rw [userprefixesWrite, hnext, ih _ (by omega) (by omega), hall, List.append_assoc]
    rfl

/-- The user prefixes are written exactly where the memory can be had. -/
private theorem userprefixesToString_exact (us : List Userprefix) :
    ExactOutput (userprefixesToString us) ↔ (userprefixesText us).length < ptrdiffMax := by
  have hmax : ptrdiffMax = 2 ^ 63 - 1 := rfl
  cases us with
  | nil =>
    refine iff_of_true ⟨_, rfl, rfl, rfl, Or.inl rfl⟩ ?_
    show 0 < ptrdiffMax
    omega
  | cons u rest =>
    have hsize := userprefixesStrlen_eq (u :: rest) 0
    have hrun : userprefixesToString (u :: rest) =
        (cilMalloc (addSize (userprefixesStrlen 0 (u :: rest)) 1)).bind fun _ =>
          some ⟨userprefixesStrlen 0 (u :: rest), addSize (userprefixesStrlen 0 (u :: rest)) 1,
            userprefixesWrite (addSize (userprefixesStrlen 0 (u :: rest)) 1) Buffer.start
              (u :: rest)⟩ := rfl
    rw [hrun]
    have hzero : ((0 : Int) % 2 ^ 64).toNat = 0 := rfl
    rw [hzero, Int.zero_add] at hsize
    generalize hgen : userprefixesStrlen 0 (u :: rest) = size at hsize ⊢
    have hadd : addSize size 1 = ((size + 1 : Int) % 2 ^ 64).toNat := rfl
    unfold cilMalloc
    constructor
    · intro h
      obtain ⟨out, hout, hexact⟩ := h
      split_ifs at hout with hmalloc
      · cases hout
        obtain ⟨-, hpos, hroom⟩ := hexact
        have htotal := userprefixesWrite_pos (u :: rest) (addSize size 1) Buffer.start
        have hstart : Buffer.start.pos = 0 := rfl
        rw [hstart] at htotal
        rcases hroom with hnil | hroom
        · have hzeroLength : (userprefixesWrite (addSize size 1) Buffer.start
              (u :: rest)).written.length = 0 := by
            have hempty : (userprefixesWrite (addSize size 1) Buffer.start
              (u :: rest)).written = [] := hnil
            rw [hempty]
            rfl
          have hposLength : (userprefixesWrite (addSize size 1) Buffer.start (u :: rest)).pos =
            (userprefixesWrite (addSize size 1) Buffer.start (u :: rest)).written.length := hpos
          omega
        · have hposLength : (userprefixesWrite (addSize size 1) Buffer.start (u :: rest)).pos =
            (userprefixesWrite (addSize size 1) Buffer.start (u :: rest)).written.length := hpos
          have hroomLength : (userprefixesWrite (addSize size 1) Buffer.start
            (u :: rest)).written.length + 1 ≤ addSize size 1 := hroom
          omega
      · cases hout
    · intro h
      have hlength : size = (userprefixesText (u :: rest)).length := by omega
      have hstrLen : addSize size 1 = size + 1 := by omega
      have hroom : (userprefixesText (u :: rest)).length < addSize size 1 := by omega
      have hwritten := userprefixesWrite_written (u :: rest) Buffer.start hroom (by omega)
      have hpos := userprefixesWrite_pos (u :: rest) (addSize size 1) Buffer.start
      have hstart : Buffer.start.written = [] := rfl
      rw [hstart, List.nil_append] at hwritten
      rw [if_pos (by omega)]
      refine ⟨_, rfl, ?_, ?_, Or.inr ?_⟩
      · show size = (userprefixesWrite (addSize size 1) Buffer.start (u :: rest)).written.length
        rw [hwritten, hlength]
      · show (userprefixesWrite (addSize size 1) Buffer.start (u :: rest)).pos =
          (userprefixesWrite (addSize size 1) Buffer.start (u :: rest)).written.length
        rw [hwritten, hpos]
        exact Int.zero_add _
      · show (userprefixesWrite (addSize size 1) Buffer.start (u :: rest)).written.length + 1 ≤
          addSize size 1
        rw [hwritten]
        omega

end Userprefixes

section Levels

variable {σ κ : Type} (N : LevelNames σ κ)

def levelLength (l : Level σ κ) : Nat := (levelText N l).length

private theorem levelStrlen_add (l : Level σ κ) :
    toInt (levelStrlen N l + 1) = toInt ((levelLength N l + 1 : Nat) : Int) := by
  rw [levelStrlen_eq, toInt_add]
  rfl

private theorem levelStrlen_add_levelStrlen (low high : Level σ κ) :
    toInt (levelStrlen N low + levelStrlen N high + 2) =
      toInt ((levelLength N low + levelLength N high + 2 : Nat) : Int) := by
  rw [levelStrlen_eq, levelStrlen_eq, toInt_toInt_add]
  rfl

/-- A level is written and reckoned exactly where an `int` holds its length. -/
private theorem level_exact (l : Level σ κ) :
    (levelStrlen N l = (levelText N l).length ∧ levelToString N l = (levelText N l).length) ↔
      (levelText N l).length < 2 ^ 31 := by
  rw [levelToString, levelStrlen_eq, and_self, toInt_eq, ← overflow_eq_zero]
  omega

section Selinuxusers

variable (mls : Bool)

def selinuxuserText (u : Selinuxuser σ κ) : Text :=
  u.nameStr ++ [':'] ++ u.userFqn ++
    (if mls = true then
      [':'] ++ levelText N u.range.low ++ ['-'] ++ levelText N u.range.high
    else []) ++ ['\n']

/-- What a login user takes in the two loops. -/
def selinuxuserReckoning : Reckoning (Selinuxuser σ κ) where
  text := selinuxuserText N mls
  reckoned u := (u.nameStr.length + u.userFqn.length + 1 : Nat) +
    (if mls = true then
      toInt (levelStrlen N u.range.low + levelStrlen N u.range.high + 2) else 0) + 1
  moved u := (u.nameStr ++ [':'] ++ u.userFqn).length +
    (if mls = true then
      1 + levelToString N u.range.low + 1 + levelToString N u.range.high else 0) + 1
  lost u := if mls = true then
    overflow (levelLength N u.range.low + levelLength N u.range.high + 2) else 0
  skipped u := if mls = true then
    overflow (levelLength N u.range.low) + overflow (levelLength N u.range.high) else 0
  reckoned_eq u := by
    rw [levelStrlen_add_levelStrlen, toInt_eq]
    unfold selinuxuserText levelLength
    split_ifs <;> simp only [List.length_append, List.length_singleton, List.length_nil] <;> omega
  moved_eq u := by
    unfold levelToString
    rw [toInt_eq, toInt_eq]
    unfold selinuxuserText levelLength
    split_ifs <;> simp only [List.length_append, List.length_singleton, List.length_nil] <;> omega
  lost_le u := by
    have hle := overflow_le (levelLength N u.range.low + levelLength N u.range.high + 2)
    unfold selinuxuserText
    unfold levelLength at *
    split_ifs <;> simp only [List.length_append, List.length_singleton, List.length_nil] <;> omega
  skipped_of_lost u h := by
    split_ifs at h ⊢ with hmls
    · rw [overflow_eq_zero] at h
      rw [Nat.add_eq_zero_iff, overflow_eq_zero, overflow_eq_zero]
      omega
    · rfl

private theorem selinuxusersStrlen_eq (us : List (Selinuxuser σ κ)) (m : Int) :
    selinuxusersStrlen N mls (m % 2 ^ 64).toNat us =
      ((m + (us.map (selinuxuserReckoning N mls).reckoned).sum) % 2 ^ 64).toNat := by
  induction us generalizing m with
  | nil => exact congrArg (fun n : Int => (n % 2 ^ 64).toNat) (Int.add_zero m).symm
  | cons u rest ih =>
    rw [selinuxusersStrlen, List.map_cons, List.sum_cons, ← Int.add_assoc]
    have hstep : m + (selinuxuserReckoning N mls).reckoned u =
        m + (u.nameStr.length + u.userFqn.length + 1 : Nat) + (if mls = true then
          toInt (levelStrlen N u.range.low + levelStrlen N u.range.high + 2) else 0) + 1 := by
      show m + (_ + _ + 1) = _
      omega
    rw [hstep]
    split_ifs
    · rw [addSize_mod, addSize_mod, addSize_mod, ih]
    · rw [addSize_mod, addSize_mod, ih, Int.add_zero]

private theorem selinuxusersWrite_eq (us : List (Selinuxuser σ κ)) (b : Buffer) :
    selinuxusersWrite N mls b us = ⟨b.written ++ us.flatMap (selinuxuserText N mls),
      b.pos + (us.map (selinuxuserReckoning N mls).moved).sum⟩ := by
  induction us generalizing b with
  | nil =>
    rw [selinuxusersWrite, List.flatMap_nil, List.append_nil, List.map_nil, List.sum_nil,
      Int.add_zero]
  | cons u rest ih =>
    rw [selinuxusersWrite, ih, List.flatMap_cons, List.map_cons, List.sum_cons]
    have hmoved : (selinuxuserReckoning N mls).moved u =
        (u.nameStr ++ [':'] ++ u.userFqn).length + (if mls = true then
          1 + levelToString N u.range.low + 1 + levelToString N u.range.high else 0) + 1 := rfl
    rw [hmoved]
    unfold selinuxuserText
    split_ifs
    · simp only [Buffer.put, Buffer.putLevel, List.append_assoc, List.length_singleton,
        Buffer.mk.injEq, true_and]
      omega
    · simp only [Buffer.put, List.append_assoc, List.length_singleton, List.append_nil,
        Buffer.mk.injEq, true_and]
      omega

/-- The login users are written exactly where an `int` holds the lengths of their levels and the
memory can be had. -/
private theorem selinuxusersToString_exact (us : List (Selinuxuser σ κ)) :
    ExactOutput (selinuxusersToString N mls us) ↔
      (∀ u ∈ us, mls = true →
        levelLength N u.range.low + levelLength N u.range.high + 2 < 2 ^ 31) ∧
        (us.flatMap (selinuxuserText N mls)).length < ptrdiffMax := by
  cases us with
  | nil =>
    refine iff_of_true ⟨_, rfl, rfl, rfl, Or.inl rfl⟩ ⟨fun u hu => ?_, ?_⟩
    · cases hu
    · show 0 < ptrdiffMax
      decide
  | cons first rest =>
    have hsize := selinuxusersStrlen_eq N mls (first :: rest) 0
    rw [Int.zero_add] at hsize
    have hwrite := selinuxusersWrite_eq N mls (first :: rest) Buffer.start
    have hout : selinuxusersToString N mls (first :: rest) =
        (cilMalloc (addSize (selinuxusersStrlen N mls 0 (first :: rest)) 1)).bind fun _ =>
          some ⟨selinuxusersStrlen N mls 0 (first :: rest),
            addSize (selinuxusersStrlen N mls 0 (first :: rest)) 1,
              selinuxusersWrite N mls Buffer.start (first :: rest)⟩ := rfl
    have hstart : selinuxusersWrite N mls Buffer.start (first :: rest) =
        (selinuxuserReckoning N mls).buffer (first :: rest) := by
      rw [hwrite]
      exact congrArg (Buffer.mk _) (Int.zero_add _)
    have hzero : ((0 : Int) % 2 ^ 64).toNat = 0 := rfl
    rw [hzero] at hsize
    rw [hsize, hstart] at hout
    rw [(selinuxuserReckoning N mls).exact_iff (first :: rest) _
      (hout.trans (malloc_output _ _ (Reckoning.size_lt _ _)))]
    refine and_congr_left fun _ => forall_congr' fun u => forall_congr' fun _ => ?_
    show (if mls = true then
      overflow (levelLength N u.range.low + levelLength N u.range.high + 2) else 0) = 0 ↔ _
    split_ifs with hmls
    · rw [overflow_eq_zero]
      exact ⟨fun h _ => h, fun h => h hmls⟩
    · exact iff_of_true rfl fun h => absurd h hmls

end Selinuxusers

section Filecons

variable (mls : Bool) (levelEquals : Level σ κ → Level σ κ → Bool)

def contextText (ctx : FileContext σ κ) : Text :=
  ['\t'] ++ ctx.userFqn ++ [':'] ++ ctx.roleFqn ++ [':'] ++ ctx.typeFqn ++
    (if mls = true then
      [':'] ++ levelText N ctx.range.low ++
        (if levelEquals ctx.range.low ctx.range.high = true then []
        else ['-'] ++ levelText N ctx.range.high)
    else [])

/-- The characters that the levels of a context take, with those around them. -/
def contextLevelsLength (ctx : FileContext σ κ) : Nat :=
  if mls = true then
    if levelEquals ctx.range.low ctx.range.high = true then levelLength N ctx.range.low + 1
    else levelLength N ctx.range.low + levelLength N ctx.range.high + 2
  else 0

/-- How many times 2^32 is missing where the levels of a context have been written. -/
def contextSkipped (ctx : FileContext σ κ) : Nat :=
  if mls = true then
    if levelEquals ctx.range.low ctx.range.high = true then overflow (levelLength N ctx.range.low)
    else overflow (levelLength N ctx.range.low) + overflow (levelLength N ctx.range.high)
  else 0

private theorem contextText_length (ctx : FileContext σ κ) :
    (contextText N mls levelEquals ctx).length =
      ctx.userFqn.length + ctx.roleFqn.length + ctx.typeFqn.length + 3 +
        contextLevelsLength N mls levelEquals ctx := by
  unfold contextText contextLevelsLength levelLength
  split_ifs <;> simp only [List.length_append, List.length_singleton, List.length_nil] <;> omega

private theorem contextStrlen_eq (ctx : FileContext σ κ) (m : Int) :
    contextStrlen N mls levelEquals (m % 2 ^ 64).toNat ctx =
      ((m + ((contextText N mls levelEquals ctx).length -
        2 ^ 32 * overflow (contextLevelsLength N mls levelEquals ctx) : Int)) % 2 ^ 64).toNat := by
  unfold contextStrlen
  rw [contextText_length]
  unfold contextLevelsLength
  dsimp only
  split_ifs with hmls hequal
  · rw [addSize_mod, addSize_mod, levelStrlen_add, toInt_eq]
    congr 2
    omega
  · rw [addSize_mod, addSize_mod, levelStrlen_add_levelStrlen, toInt_eq]
    congr 2
    omega
  · have hzero : overflow 0 = 0 := rfl
    rw [addSize_mod, hzero]
    congr 2

private theorem contextWrite_eq (ctx : FileContext σ κ) (b : Buffer) :
    contextWrite N mls levelEquals b ctx = ⟨b.written ++ contextText N mls levelEquals ctx,
      b.pos + ((contextText N mls levelEquals ctx).length -
        2 ^ 32 * contextSkipped N mls levelEquals ctx : Int)⟩ := by
  rw [contextText_length]
  unfold contextWrite contextText contextSkipped contextLevelsLength
  split_ifs
  · simp only [Buffer.put, Buffer.putLevel, levelToString, toInt_eq, levelLength,
      List.append_assoc, List.length_append, List.length_singleton, List.append_nil,
      Buffer.mk.injEq, true_and]
    omega
  · simp only [Buffer.put, Buffer.putLevel, levelToString, toInt_eq, levelLength,
      List.append_assoc, List.length_append, List.length_singleton, Buffer.mk.injEq, true_and]
    omega
  · simp only [Buffer.put, List.append_assoc, List.length_append, List.length_singleton,
      List.append_nil, Buffer.mk.injEq, true_and]
    omega

private theorem contextSkipped_eq_zero {ctx : FileContext σ κ}
    (h : overflow (contextLevelsLength N mls levelEquals ctx) = 0) :
    contextSkipped N mls levelEquals ctx = 0 := by
  rw [overflow_eq_zero] at h
  unfold contextLevelsLength at h
  unfold contextSkipped
  split_ifs at h ⊢
  · rw [overflow_eq_zero]
    omega
  · rw [Nat.add_eq_zero_iff, overflow_eq_zero, overflow_eq_zero]
    omega
  · rfl

def fileconText (f : Filecon σ κ) : Text :=
  f.pathStr ++ f.type.text ++
    (match f.context with
      | some ctx => contextText N mls levelEquals ctx
      | none => "\t<<none>>".toList) ++ ['\n']

def fileconLevelsLength (f : Filecon σ κ) : Nat :=
  match f.context with
  | some ctx => contextLevelsLength N mls levelEquals ctx
  | none => 0

def fileconSkipped (f : Filecon σ κ) : Nat :=
  match f.context with
  | some ctx => contextSkipped N mls levelEquals ctx
  | none => 0

/-- What a file context takes in the two loops. -/
def fileconReckoning : Reckoning (Filecon σ κ) where
  text := fileconText N mls levelEquals
  reckoned f := (fileconText N mls levelEquals f).length -
    2 ^ 32 * overflow (fileconLevelsLength N mls levelEquals f)
  moved f := (fileconText N mls levelEquals f).length -
    2 ^ 32 * fileconSkipped N mls levelEquals f
  lost f := overflow (fileconLevelsLength N mls levelEquals f)
  skipped := fileconSkipped N mls levelEquals
  reckoned_eq _ := rfl
  moved_eq _ := rfl
  lost_le f := by
    have hle := overflow_le (fileconLevelsLength N mls levelEquals f)
    have hlength : fileconLevelsLength N mls levelEquals f ≤
        (fileconText N mls levelEquals f).length := by
      unfold fileconLevelsLength fileconText
      cases f.context with
      | none => exact Nat.zero_le _
      | some ctx =>
        simp only [List.length_append, contextText_length]
        omega
    omega
  skipped_of_lost f h := by
    unfold fileconLevelsLength at h
    unfold fileconSkipped
    cases hctx : f.context with
    | none => rfl
    | some ctx =>
      rw [hctx] at h
      exact contextSkipped_eq_zero N mls levelEquals h

/-- The type takes three characters, or none. -/
private theorem FileconType.text_length (t : FileconType) :
    t.text.length = if t ≠ .any then 3 else 0 := by
  cases t <;> rfl

private theorem fileconsStrlen_eq (fs : List (Filecon σ κ)) (m : Int) :
    fileconsStrlen N mls levelEquals (m % 2 ^ 64).toNat fs =
      ((m + (fs.map (fileconReckoning N mls levelEquals).reckoned).sum) % 2 ^ 64).toNat := by
  induction fs generalizing m with
  | nil => exact congrArg (fun n : Int => (n % 2 ^ 64).toNat) (Int.add_zero m).symm
  | cons f rest ih =>
    rw [List.map_cons, List.sum_cons, ← Int.add_assoc, ← ih, fileconsStrlen]
    congr 1
    have htype : (if f.type ≠ .any then addSize (addSize (m % 2 ^ 64).toNat f.pathStr.length) 3
        else addSize (m % 2 ^ 64).toNat f.pathStr.length) =
          ((m + f.pathStr.length + f.type.text.length) % 2 ^ 64).toNat := by
      rw [FileconType.text_length]
      split_ifs
      · rw [addSize_mod, addSize_mod]
        rfl
      · rw [addSize_mod]
        congr 2
        omega
    have hreckoned : (fileconReckoning N mls levelEquals).reckoned f =
        (fileconText N mls levelEquals f).length -
          2 ^ 32 * overflow (fileconLevelsLength N mls levelEquals f) := rfl
    rw [htype, hreckoned]
    unfold fileconText fileconLevelsLength
    cases f.context with
    | none =>
      have hnone : "\t<<none>>".toList.length = "\t<<none>>".length := String.length_toList
      have hzero : overflow 0 = 0 := rfl
      simp only [addSize_mod, List.length_append, List.length_singleton, hnone, hzero]
      congr 2
      omega
    | some ctx =>
      simp only [contextStrlen_eq, addSize_mod, List.length_append, List.length_singleton]
      congr 2
      omega

private theorem fileconsWrite_eq (fs : List (Filecon σ κ)) (b : Buffer) :
    fileconsWrite N mls levelEquals b fs = ⟨b.written ++ fs.flatMap (fileconText N mls levelEquals),
      b.pos + (fs.map (fileconReckoning N mls levelEquals).moved).sum⟩ := by
  induction fs generalizing b with
  | nil =>
    rw [fileconsWrite, List.flatMap_nil, List.append_nil, List.map_nil, List.sum_nil,
      Int.add_zero]
  | cons f rest ih =>
    rw [fileconsWrite, ih, List.flatMap_cons, List.map_cons, List.sum_cons]
    have hmoved : (fileconReckoning N mls levelEquals).moved f =
        (fileconText N mls levelEquals f).length -
          2 ^ 32 * fileconSkipped N mls levelEquals f := rfl
    rw [hmoved]
    unfold fileconText fileconSkipped
    cases f.context with
    | none =>
      simp only [Buffer.put, List.append_assoc, List.length_append, List.length_singleton,
        Buffer.mk.injEq, true_and]
      omega
    | some ctx =>
      simp only [contextWrite_eq, Buffer.put, List.append_assoc, List.length_append,
        List.length_singleton, Buffer.mk.injEq, true_and]
      omega

/-- The file contexts are written exactly where an `int` holds the lengths of their levels and the
memory can be had. -/
private theorem fileconsToString_exact (fs : List (Filecon σ κ)) :
    ExactOutput (fileconsToString N mls levelEquals fs) ↔
      (∀ f ∈ fs, fileconLevelsLength N mls levelEquals f < 2 ^ 31) ∧
        (fs.flatMap (fileconText N mls levelEquals)).length < ptrdiffMax := by
  have hsize := fileconsStrlen_eq N mls levelEquals fs 0
  rw [Int.zero_add] at hsize
  have hwrite := fileconsWrite_eq N mls levelEquals fs Buffer.start
  have hout : fileconsToString N mls levelEquals fs =
      (cilMalloc (addSize (fileconsStrlen N mls levelEquals 0 fs) 1)).bind fun _ =>
        some ⟨fileconsStrlen N mls levelEquals 0 fs,
          addSize (fileconsStrlen N mls levelEquals 0 fs) 1,
            fileconsWrite N mls levelEquals Buffer.start fs⟩ := rfl
  have hstart : fileconsWrite N mls levelEquals Buffer.start fs =
      (fileconReckoning N mls levelEquals).buffer fs := by
    rw [hwrite]
    exact congrArg (Buffer.mk _) (Int.zero_add _)
  have hzero : ((0 : Int) % 2 ^ 64).toNat = 0 := rfl
  rw [hzero] at hsize
  rw [hsize, hstart] at hout
  rw [(fileconReckoning N mls levelEquals).exact_iff fs _
    (hout.trans (malloc_output _ _ (Reckoning.size_lt _ _)))]
  refine and_congr_left fun _ => forall_congr' fun f => forall_congr' fun _ => ?_
  exact overflow_eq_zero

end Filecons

end Levels

section WrittenOut

variable {σ κ : Type}

/-- What is written out besides the binary policy, and the levels there are. -/
structure Outputs (σ κ : Type) where
  names : LevelNames σ κ
  levels : List (Level σ κ)
  mls : Bool
  /-- `cil_level_equals`. -/
  levelEquals : Level σ κ → Level σ κ → Bool
  userprefixes : List Userprefix
  selinuxusers : List (Selinuxuser σ κ)
  filecons : List (Filecon σ κ)

/-- The three texts and all levels are written as reckoned. -/
structure Outputs.Exact (O : Outputs σ κ) : Prop where
  level : ∀ l ∈ O.levels, levelStrlen O.names l = (levelText O.names l).length ∧
    levelToString O.names l = (levelText O.names l).length
  userprefixes : ExactOutput (userprefixesToString O.userprefixes)
  selinuxusers : ExactOutput (selinuxusersToString O.names O.mls O.selinuxusers)
  filecons : ExactOutput (fileconsToString O.names O.mls O.levelEquals O.filecons)

/-- An `int` holds the lengths of levels, of those that are written together as well, and the
memory for the texts can be had. -/
structure Outputs.Fit (O : Outputs σ κ) : Prop where
  level : ∀ l ∈ O.levels, (levelText O.names l).length < 2 ^ 31
  userprefixes : (userprefixesText O.userprefixes).length < ptrdiffMax
  selinuxusers : ∀ u ∈ O.selinuxusers, O.mls = true →
    levelLength O.names u.range.low + levelLength O.names u.range.high + 2 < 2 ^ 31
  selinuxusersText : (O.selinuxusers.flatMap (selinuxuserText O.names O.mls)).length < ptrdiffMax
  filecons : ∀ f ∈ O.filecons, fileconLevelsLength O.names O.mls O.levelEquals f < 2 ^ 31
  fileconsText :
    (O.filecons.flatMap (fileconText O.names O.mls O.levelEquals)).length < ptrdiffMax

/-- A category that is named again and again has its name written each time. -/
private theorem stringLoop_replicate (N : LevelNames σ κ) (c : κ) (n : Nat) {run : Run}
    (h : run.first = -1) (out : Text) :
    out.length + (n + 1) * (2 * (N.catFqn c).length) ≤
      (stringFlush (stringLoop N (List.replicate (2 * (n + 1)) c) run out).2
        (stringLoop N (List.replicate (2 * (n + 1)) c) run out).1).length := by
  induction n generalizing run out with
  | zero =>
    have hrepeat : ¬ (N.value c : Int) = N.value c + 1 := by omega
    have hstarted : ¬ (N.value c : Int) = -1 := by omega
    have hpair : List.replicate (2 * (0 + 1)) c = [c, c] := rfl
    rw [hpair, stringLoop, if_pos h, stringLoop, if_neg hstarted, if_neg hrepeat, stringLoop]
    dsimp only
    rw [if_pos rfl, if_neg fun hne => hne rfl, stringFlush, if_neg fun hne => hne rfl]
    simp only [List.length_append, List.length_singleton]
    omega
  | succ n ih =>
    have hrepeat : ¬ (N.value c : Int) = N.value c + 1 := by omega
    have hstarted : ¬ (N.value c : Int) = -1 := by omega
    have hpair : List.replicate (2 * (n + 1 + 1)) c =
        c :: c :: List.replicate (2 * (n + 1)) c := by
      rw [Nat.mul_add 2 (n + 1) 1, List.replicate_succ, List.replicate_succ]
    have hmore : List.replicate (2 * (n + 1)) c ≠ [] := by
      rw [Nat.mul_add 2 n 1, List.replicate_succ]
      exact List.cons_ne_nil _ _
    rw [hpair, stringLoop, if_pos h, stringLoop, if_neg hstarted, if_neg hrepeat]
    dsimp only
    rw [if_pos rfl, if_pos hmore]
    refine Nat.le_trans ?_ (ih rfl _)
    simp only [List.length_append, List.length_singleton]
    have hsplit : (n + 1 + 1) * (2 * (N.catFqn c).length) =
        (n + 1) * (2 * (N.catFqn c).length) + 2 * (N.catFqn c).length := by
      rw [Nat.add_mul, Nat.one_mul]
    omega

/-- One sensitivity, and one category whose name is as long as names may be. -/
def longNames : LevelNames Unit Unit :=
  ⟨fun _ => ['s'], fun _ => List.replicate 2047 'c', fun _ => 0⟩

/-- A level that names the category again and again. -/
def repeatingLevel (n : Nat) : Level Unit Unit :=
  ⟨(), some (some (List.replicate (2 * (n + 1)) ()))⟩

private theorem repeatingLevel_length (n : Nat) :
    (n + 1) * 4094 ≤ (levelText longNames (repeatingLevel n)).length := by
  have hstart : Run.start.first = -1 := rfl
  have hlong := stringLoop_replicate longNames () n hstart (['s'] ++ [':'])
  have hname : (longNames.catFqn ()).length = 2047 := List.length_replicate
  rw [hname] at hlong
  exact Nat.le_trans (Nat.le_add_left _ _) hlong

end WrittenOut

end Cil.Write
