/- Cil/Library/Bitmap
   digest: Extensible bitmaps, given by their operations and the bits these set. -/

import Mathlib.Order.ConditionallyCompleteLattice.Basic
import Mathlib.Data.Set.Lattice
import Mathlib.Data.Finset.SymmDiff
import Mathlib.Order.SymmDiff

set_option autoImplicit false
set_option relaxedAutoImplicit false

namespace Cil.Library

/-- Bitmaps with the operations of an extensible bitmap library and what each of them does
to the bits. The complement is taken below a bound. -/
structure Bitmap (β : Type) where
  getBit : β → Nat → Bool
  init : β
  setBit : β → Nat → β
  union : β → β → β
  or : β → β → β
  and : β → β → β
  xor : β → β → β
  not : β → Nat → β
  getBit_init : ∀ i, getBit init i = false
  getBit_setBit : ∀ b v i, getBit (setBit b v) i = (getBit b i || decide (i = v))
  getBit_union : ∀ b c i, getBit (union b c) i = (getBit b i || getBit c i)
  getBit_or : ∀ b c i, getBit (or b c) i = (getBit b i || getBit c i)
  getBit_and : ∀ b c i, getBit (and b c) i = (getBit b i && getBit c i)
  getBit_xor : ∀ b c i, getBit (xor b c) i = (getBit b i ^^ getBit c i)
  getBit_not : ∀ b max i, getBit (not b max) i = (decide (i < max) && !getBit b i)

namespace Bitmap

variable {β : Type} (B : Bitmap β)

/-- The bits that are set. -/
def bits (b : β) : Set Nat := {i | B.getBit b i = true}

theorem mem_bits {b : β} {i : Nat} : i ∈ B.bits b ↔ B.getBit b i = true := Iff.rfl

@[simp] theorem bits_init : B.bits B.init = ∅ := by
  ext i
  simp [mem_bits, B.getBit_init]

@[simp] theorem bits_setBit (b : β) (v : Nat) : B.bits (B.setBit b v) = B.bits b ∪ {v} := by
  ext i
  simp [mem_bits, B.getBit_setBit, or_comm]

@[simp] theorem bits_union (b c : β) : B.bits (B.union b c) = B.bits b ∪ B.bits c := by
  ext i
  simp [mem_bits, B.getBit_union]

@[simp] theorem bits_or (b c : β) : B.bits (B.or b c) = B.bits b ∪ B.bits c := by
  ext i
  simp [mem_bits, B.getBit_or]

@[simp] theorem bits_and (b c : β) : B.bits (B.and b c) = B.bits b ∩ B.bits c := by
  ext i
  simp [mem_bits, B.getBit_and]

@[simp] theorem bits_xor (b c : β) : B.bits (B.xor b c) = symmDiff (B.bits b) (B.bits c) := by
  ext i
  rw [Set.mem_symmDiff, mem_bits, mem_bits, mem_bits, B.getBit_xor]
  cases B.getBit b i <;> cases B.getBit c i <;> simp

@[simp] theorem bits_not (b : β) (max : Nat) :
    B.bits (B.not b max) = {i | i < max} \ B.bits b := by
  ext i
  simp [mem_bits, B.getBit_not]

end Bitmap

/-- Finite sets as bitmaps. -/
def finsetBitmap : Bitmap (Finset Nat) where
  getBit b i := decide (i ∈ b)
  init := ∅
  setBit b v := insert v b
  union b c := b ∪ c
  or b c := b ∪ c
  and b c := b ∩ c
  xor b c := symmDiff b c
  not b max := Finset.range max \ b
  getBit_init i := by simp
  getBit_setBit b v i := by simp [Bool.or_comm]
  getBit_union b c i := by simp
  getBit_or b c i := by simp
  getBit_and b c i := by simp
  getBit_xor b c i := by
    by_cases hb : i ∈ b <;> by_cases hc : i ∈ c <;> simp [Finset.mem_symmDiff, hb, hc]
  getBit_not b max i := by simp

/-- Sets as bitmaps. -/
noncomputable def setBitmap : Bitmap (Set Nat) := by
  classical
  exact {
    getBit := fun b i => decide (i ∈ b)
    init := ∅
    setBit := fun b v => insert v b
    union := fun b c => b ∪ c
    or := fun b c => b ∪ c
    and := fun b c => b ∩ c
    xor := fun b c => symmDiff b c
    not := fun b max => {i | i < max} \ b
    getBit_init := by simp
    getBit_setBit := by simp [Bool.or_comm]
    getBit_union := by simp
    getBit_or := by simp
    getBit_and := by simp
    getBit_xor := by
      intro b c i
      by_cases hb : i ∈ b <;> by_cases hc : i ∈ c <;> simp [Set.mem_symmDiff, hb, hc]
    getBit_not := by simp }

theorem bits_setBitmap (S : Set Nat) : setBitmap.bits S = S := by
  ext i
  simp [Bitmap.mem_bits, setBitmap]

end Cil.Library
