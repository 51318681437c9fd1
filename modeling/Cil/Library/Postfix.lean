/- Cil/Library/Postfix
   digest: Postfix lists, what they leave on a stack and how many values they hold there. -/

import Mathlib.Data.List.Basic
import Mathlib.Order.Lattice

set_option autoImplicit false
set_option relaxedAutoImplicit false

namespace Cil.Library.Postfix

variable {α β : Type}

/-- A term over cells that stand for values and for operators with one or two operands. -/
inductive Term (α : Type)
  | leaf (a : α)
  | unary (a : α) (x : Term α)
  | binary (a : α) (x y : Term α)
  deriving DecidableEq, Repr

namespace Term

/-- The postfix list of a term: operands in order, and then the operator. -/
def flatten : Term α → List α
  | leaf a => [a]
  | unary a x => x.flatten ++ [a]
  | binary a x y => x.flatten ++ y.flatten ++ [a]

/-- How many values are on the stack at most while the postfix list of the term is read: the
value of a first operand waits while the second one is evaluated. -/
def need : Term α → Nat
  | leaf _ => 1
  | unary _ x => x.need
  | binary _ x y => max x.need (y.need + 1)

private theorem need_pos (t : Term α) : 0 < t.need := by
  induction t with
  | leaf a => exact Nat.one_pos
  | unary a x ih => exact ih
  | binary a x y ihx ihy => exact lt_of_lt_of_le ihx (le_max_left _ _)

end Term

section Machine

variable (step : α → List β → Option (List β))

/-- A postfix list, read on a stack. -/
def run : List α → List β → Option (List β)
  | [], stack => some stack
  | a :: as, stack => (step a stack).bind (run as)

/-- There are never more than `n` values on the stack. -/
def StaysWithin (n : Nat) : List α → List β → Prop
  | [], stack => stack.length ≤ n
  | a :: as, stack => stack.length ≤ n ∧ ∀ stack', step a stack = some stack' →
      StaysWithin n as stack'

/-- The cells of the term take as many values from the stack as they stand for operands, and the
term has the value `b`. -/
inductive Yields : Term α → β → Prop
  | leaf {a : α} {b : β} : (∀ stack, step a stack = some (b :: stack)) → Yields (.leaf a) b
  | unary {a : α} {x : Term α} {b c : β} : Yields x b →
      (∀ stack, step a (b :: stack) = some (c :: stack)) → Yields (.unary a x) c
  | binary {a : α} {x y : Term α} {b₁ b₂ c : β} : Yields x b₁ → Yields y b₂ →
      (∀ stack, step a (b₂ :: b₁ :: stack) = some (c :: stack)) → Yields (.binary a x y) c

variable {step}

theorem run_append (as as' : List α) (stack : List β) :
    run step (as ++ as') stack = (run step as stack).bind (run step as') := by
  induction as generalizing stack with
  | nil => rfl
  | cons a as ih =>
    rw [List.cons_append, run, run]
    cases step a stack with
    | none => rfl
    | some stack' => exact ih stack'

/-- The postfix list of a term leaves its value on the stack. -/
theorem Yields.run {t : Term α} {b : β} (h : Yields step t b) (stack : List β) :
    run step t.flatten stack = some (b :: stack) := by
  induction h generalizing stack with
  | leaf hstep =>
    rw [Term.flatten, Postfix.run, hstep]
    rfl
  | unary _ hstep ih =>
    rw [Term.flatten, run_append, ih stack, Option.bind_some, Postfix.run, hstep]
    rfl
  | binary _ _ hstep ihx ihy =>
    rw [Term.flatten, run_append, run_append, ihx stack, Option.bind_some, ihy, Option.bind_some,
      Postfix.run, hstep]
    rfl

private theorem staysWithin_cons {n : Nat} {a : α} {as : List α} {stack stack' : List β}
    (h : step a stack = some stack') :
    StaysWithin step n (a :: as) stack ↔ stack.length ≤ n ∧ StaysWithin step n as stack' := by
  rw [StaysWithin, h]
  simp

/-- What a list starts on is within the bound. -/
theorem StaysWithin.start {n : Nat} {as : List α} {stack : List β}
    (h : StaysWithin step n as stack) : stack.length ≤ n := by
  cases as with
  | nil => exact h
  | cons a as => exact h.1

/-- The list of a term stays within the bound if its need does, and what follows the term does,
read on the stack with its value. -/
private theorem Yields.staysWithin_append {n : Nat} {t : Term α} {b : β} (h : Yields step t b)
    (as : List α) (stack : List β) :
    StaysWithin step n (t.flatten ++ as) stack ↔
      stack.length + t.need ≤ n ∧ StaysWithin step n as (b :: stack) := by
  induction h generalizing as stack with
  | @leaf a b hstep =>
    rw [Term.flatten, Term.need, List.singleton_append, staysWithin_cons (hstep stack)]
    constructor
    · intro hwithin
      have hstart := hwithin.2.start
      rw [List.length_cons] at hstart
      exact ⟨hstart, hwithin.2⟩
    · intro hwithin
      exact ⟨by omega, hwithin.2⟩
  | @unary a x b c hx hstep ih =>
    rw [Term.flatten, Term.need, List.append_assoc, ih, List.singleton_append,
      staysWithin_cons (hstep stack), List.length_cons]
    have hpos := x.need_pos
    constructor
    · intro hwithin
      exact ⟨hwithin.1, hwithin.2.2⟩
    · intro hwithin
      exact ⟨hwithin.1, by omega, hwithin.2⟩
  | @binary a x y b₁ b₂ c hx hy hstep ihx ihy =>
    rw [Term.flatten, Term.need, List.append_assoc, List.append_assoc, ihx, ihy,
      List.singleton_append, staysWithin_cons (hstep stack), List.length_cons, List.length_cons,
      List.length_cons]
    have hpos := y.need_pos
    constructor
    · intro hwithin
      obtain ⟨hleft, hright, -, hrest⟩ := hwithin
      exact ⟨by omega, hrest⟩
    · intro hwithin
      obtain ⟨hboth, hrest⟩ := hwithin
      exact ⟨by omega, by omega, by omega, hrest⟩

/-- The list of a term holds at most its need of values above what is on the stack already. -/
theorem Yields.staysWithin {n : Nat} {t : Term α} {b : β} (h : Yields step t b)
    (stack : List β) : StaysWithin step n t.flatten stack ↔ stack.length + t.need ≤ n := by
  have happend := h.staysWithin_append (n := n) [] stack
  rw [List.append_nil] at happend
  rw [happend, StaysWithin, List.length_cons]
  have hpos := t.need_pos
  constructor
  · intro hwithin
    exact hwithin.1
  · intro hneed
    exact ⟨hneed, by omega⟩

end Machine

end Cil.Library.Postfix
