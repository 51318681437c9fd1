/- Cil/Library/WordBitmap
   digest: Bitmaps stored as a sorted list of words, and their comparison word by word. -/

set_option autoImplicit false
set_option relaxedAutoImplicit false

namespace Cil.Library

/-- A word of a bitmap: the bits from `startbit` on. -/
structure Word where
  startbit : Nat
  map : BitVec 64
  deriving DecidableEq, Repr

/-- A bitmap as the list of its words in ascending order. -/
structure WordBitmap where
  words : List Word
  aligned : ∀ n ∈ words, 64 ∣ n.startbit
  sorted : words.Pairwise fun m n => m.startbit < n.startbit

namespace Word

def getBit (n : Word) (i : Nat) : Bool :=
  decide (n.startbit ≤ i) && n.map.getLsbD (i - n.startbit)

private theorem getBit_bounds {n : Word} {i : Nat} (h : n.getBit i = true) :
    n.startbit ≤ i ∧ i < n.startbit + 64 := by
  simp only [getBit, Bool.and_eq_true, decide_eq_true_eq] at h
  have hlt := BitVec.lt_of_getLsbD h.2
  omega

end Word

/-- The comparison goes through the words of the second list that start before `n`. -/
def overlapFrom (rest : List Word → Bool) (n : Word) : List Word → Bool
  | [] => false
  | n' :: rest' =>
      if n.startbit < n'.startbit then rest (n' :: rest')
      else if n'.startbit < n.startbit then overlapFrom rest n rest'
      else if n.map &&& n'.map ≠ 0#64 then true
      else rest rest'

/-- Whether two lists of words have a bit in common. -/
def overlap : List Word → List Word → Bool
  | [], _ => false
  | n :: rest, words => overlapFrom (overlap rest) n words

private theorem and_ne_zero {x y : BitVec 64} {i : Nat} (hx : x.getLsbD i = true)
    (hy : y.getLsbD i = true) : x &&& y ≠ 0#64 := by
  intro hzero
  have hbit : (x &&& y).getLsbD i = true := by
    rw [BitVec.getLsbD_and, hx, hy]
    rfl
  rw [hzero, BitVec.getLsbD_zero] at hbit
  cases hbit

/-- A word of the first list is met when its partner in the second list has been reached. -/
private theorem overlapFrom_of_mem {rest : List Word → Bool} {n m : Word} {words : List Word}
    (hsorted : words.Pairwise fun m n => m.startbit < n.startbit) (hm : m ∈ words)
    (heq : n.startbit = m.startbit) (hand : n.map &&& m.map ≠ 0#64) :
    overlapFrom rest n words = true := by
  induction words with
  | nil => cases hm
  | cons n' words ih =>
      obtain ⟨hbefore, hsorted⟩ := List.pairwise_cons.mp hsorted
      rw [overlapFrom]
      rcases List.mem_cons.mp hm with rfl | hm
      · rw [if_neg (by omega), if_neg (by omega), if_pos hand]
      · have hlt := hbefore m hm
        rw [if_neg (by omega), if_pos (by omega)]
        exact ih hsorted hm

/-- What is found in the rest of the first list is found whatever word stands before it. -/
private theorem overlapFrom_of_rest {rest : List Word → Bool} {n m m' : Word} {words : List Word}
    (hrest : ∀ words', m' ∈ words' → words'.Pairwise (fun m n => m.startbit < n.startbit) →
      rest words' = true)
    (hsorted : words.Pairwise fun m n => m.startbit < n.startbit) (hm' : m' ∈ words)
    (heq : m.startbit = m'.startbit) (hlt : n.startbit < m.startbit) :
    overlapFrom rest n words = true := by
  induction words with
  | nil => cases hm'
  | cons n' words ih =>
      obtain ⟨hbefore, htail⟩ := List.pairwise_cons.mp hsorted
      rw [overlapFrom]
      have hlater : n'.startbit ≤ n.startbit → m' ∈ words := by
        intro hle
        rcases List.mem_cons.mp hm' with rfl | hm'
        · omega
        · exact hm'
      by_cases hfirst : n.startbit < n'.startbit
      · rw [if_pos hfirst]
        exact hrest (n' :: words) hm' hsorted
      · rw [if_neg hfirst]
        have hmem := hlater (by omega)
        by_cases hsecond : n'.startbit < n.startbit
        · rw [if_pos hsecond]
          exact ih htail hmem
        · rw [if_neg hsecond]
          split
          · rfl
          · exact hrest words hmem htail

private theorem overlap_of_mem {words words' : List Word} {m m' : Word}
    (hsorted : words.Pairwise fun m n => m.startbit < n.startbit)
    (hsorted' : words'.Pairwise fun m n => m.startbit < n.startbit)
    (hm : m ∈ words) (hm' : m' ∈ words') (heq : m.startbit = m'.startbit)
    (hand : m.map &&& m'.map ≠ 0#64) : overlap words words' = true := by
  induction words generalizing words' with
  | nil => cases hm
  | cons n words ih =>
      obtain ⟨hbefore, htail⟩ := List.pairwise_cons.mp hsorted
      rw [overlap]
      rcases List.mem_cons.mp hm with rfl | hm
      · exact overlapFrom_of_mem hsorted' hm' heq hand
      · apply overlapFrom_of_rest _ hsorted' hm' heq (hbefore m hm)
        intro words'' hmem hsorted''
        exact ih htail hsorted'' hm hmem

namespace WordBitmap

def getBit (b : WordBitmap) (i : Nat) : Bool := b.words.any fun n => n.getBit i

/-- The bitmap with one bit. -/
def single (i : Nat) : WordBitmap where
  words := [⟨i / 64 * 64, 1#64 <<< (i % 64)⟩]
  aligned := by
    intro n hn
    rw [List.mem_singleton.mp hn]
    exact Nat.dvd_mul_left 64 (i / 64)
  sorted := by simp

/-- The bits that are set, in ascending order. -/
def positions (b : WordBitmap) : List Nat :=
  b.words.flatMap fun n => ((List.range 64).map (n.startbit + ·)).filter b.getBit

private theorem mem_words_of_getBit {b : WordBitmap} {i : Nat} (h : b.getBit i = true) :
    ∃ n ∈ b.words, n.getBit i = true := List.any_eq_true.mp h

theorem mem_positions {b : WordBitmap} {i : Nat} : i ∈ b.positions ↔ b.getBit i = true := by
  simp only [positions, List.mem_flatMap, List.mem_filter, List.mem_map, List.mem_range]
  constructor
  · intro h
    obtain ⟨n, hn, hi, hbit⟩ := h
    exact hbit
  · intro h
    obtain ⟨n, hn, hbit⟩ := mem_words_of_getBit h
    have hbounds := Word.getBit_bounds hbit
    exact ⟨n, hn, ⟨i - n.startbit, by omega, by omega⟩, h⟩

theorem getBit_single {i j : Nat} : (single i).getBit j = true ↔ j = i := by
  simp only [getBit, single, List.any_cons, List.any_nil, Bool.or_false, Word.getBit,
    Bool.and_eq_true, decide_eq_true_eq, BitVec.getLsbD_shiftLeft, BitVec.getLsbD_one,
    Bool.not_eq_true', decide_eq_false_iff_not]
  have hi := Nat.div_add_mod i 64
  have hlt := Nat.mod_lt i (by decide : 0 < 64)
  omega

/-- Two bitmaps with a common bit overlap: the word of the bit starts at the same place. -/
theorem overlap_of_getBit {b c : WordBitmap} {i : Nat} (hb : b.getBit i = true)
    (hc : c.getBit i = true) : overlap b.words c.words = true := by
  obtain ⟨n, hn, hnbit⟩ := mem_words_of_getBit hb
  obtain ⟨m, hm, hmbit⟩ := mem_words_of_getBit hc
  have hnbounds := Word.getBit_bounds hnbit
  have hmbounds := Word.getBit_bounds hmbit
  obtain ⟨k, hk⟩ := b.aligned n hn
  obtain ⟨l, hl⟩ := c.aligned m hm
  have heq : n.startbit = m.startbit := by omega
  simp only [Word.getBit, Bool.and_eq_true] at hnbit hmbit
  apply overlap_of_mem b.sorted c.sorted hn hm heq
  apply and_ne_zero hnbit.2
  rw [heq]
  exact hmbit.2

end WordBitmap

end Cil.Library
