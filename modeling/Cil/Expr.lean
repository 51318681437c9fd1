/- Cil/Expr
   digest: Resolved set expressions, their evaluation to bitmaps and the sets they denote. -/

import Cil.Basic
import Cil.Library.Bitmap
import Cil.Library.Call

set_option autoImplicit false
set_option relaxedAutoImplicit false

namespace Cil.Expr

open Cil.Library

/-- The operators of set, boolean and tunable expressions. -/
inductive Op
  | and | or | xor | not | eq | neq | all | range
  deriving DecidableEq, Repr

/-- An item of an expression list. `other` stands for the flavors that a resolved expression
does not contain. -/
inductive Item (δ : Type)
  | op (o : Op)
  | datum (d : δ)
  | list (l : List (Item δ))
  | other

section Evaluation

variable {β δ σ : Type} (B : Bitmap β) (max : Nat) (datumToBitmap : δ → Call Rc σ β)
  (rangeToBitmap : Option (δ → δ → Call Rc σ β))

/-- The operators of two operands that have a meaning for sets. -/
def combine (o : Op) (b1 b2 : β) : Call Rc σ β :=
  match o with
  | .or => pure (B.or b1 b2)
  | .and => pure (B.and b1 b2)
  | .xor => pure (B.xor b1 b2)
  | _ => Call.fail .err

mutual

/-- `__cil_expr_to_bitmap`. `rangeToBitmap` is `__cil_expr_range_to_bitmap_helper`, for
category expressions only. -/
def exprToBitmap (out : β) : List (Item δ) → Call Rc σ β
  | [] => pure out
  | .op .all :: _ => pure (B.union out (B.not B.init max))
  | .op .range :: rest =>
      match rangeToBitmap, rest with
      | none, _ => Call.fail .err
      | some range, .datum d1 :: .datum d2 :: _ => do
          let tmp ← range d1 d2
          pure (B.union out tmp)
      | some _, _ => Call.crash
  | .op .not :: i :: _ => do
      let b1 ← exprToBitmapHelper i
      pure (B.union out (B.not b1 max))
  | .op o :: i :: j :: _ => do
      let b1 ← exprToBitmapHelper i
      let b2 ← exprToBitmapHelper j
      let tmp ← combine B o b1 b2
      pure (B.union out tmp)
  | .op _ :: i :: [] => do
      let _ ← exprToBitmapHelper i
      Call.crash
  | .op _ :: [] => Call.crash
  | i :: rest => do
      let b2 ← exprToBitmapHelper i
      let tmp ← exprToBitmapLoop (B.or B.init b2) rest
      pure (B.union out tmp)

/-- The loop over a list without operator. -/
def exprToBitmapLoop (tmp : β) : List (Item δ) → Call Rc σ β
  | [] => pure tmp
  | i :: rest => do
      let b2 ← exprToBitmapHelper i
      exprToBitmapLoop (B.or tmp b2) rest

/-- `__cil_expr_to_bitmap_helper`. -/
def exprToBitmapHelper : Item δ → Call Rc σ β
  | .datum d => datumToBitmap d
  | .list l => exprToBitmap B.init l
  | _ => Call.fail .err

end

theorem exprToBitmap_nil (out : β) :
    exprToBitmap B max datumToBitmap rangeToBitmap out [] = pure out := by
  rw [exprToBitmap]

end Evaluation

section Meaning

variable {δ : Type} (max : Nat) (env : δ → Set Nat) (range : δ → δ → Set Nat)

mutual

/-- The set an expression denotes when each declaration stands for the set that `env` gives,
with complements below `max`. -/
def denote : List (Item δ) → Set Nat
  | [] => ∅
  | .op .all :: _ => {i | i < max}
  | .op .range :: .datum d1 :: .datum d2 :: _ => range d1 d2
  | .op .not :: i :: _ => {i | i < max} \ denoteItem i
  | .op .and :: i :: j :: _ => denoteItem i ∩ denoteItem j
  | .op .or :: i :: j :: _ => denoteItem i ∪ denoteItem j
  | .op .xor :: i :: j :: _ => symmDiff (denoteItem i) (denoteItem j)
  | .op _ :: _ => ∅
  | i :: rest => denoteItem i ∪ denoteList rest

def denoteList : List (Item δ) → Set Nat
  | [] => ∅
  | i :: rest => denoteItem i ∪ denoteList rest

def denoteItem : Item δ → Set Nat
  | .datum d => env d
  | .list l => denote l
  | _ => ∅

end

theorem denote_nil : denote max env range [] = ∅ := by
  rw [denote]

end Meaning

section Form

variable {δ : Type} (ranges : Bool)

mutual

/-- What `cil_verify_expr_syntax` lets through, once resolved; `ranges` for categories. -/
def wellFormed : List (Item δ) → Bool
  | [.op .all] => true
  | [.op .range, .datum _, .datum _] => ranges
  | [.op .not, i] => operandFormed i
  | [.op .and, i, j] => operandFormed i && operandFormed j
  | [.op .or, i, j] => operandFormed i && operandFormed j
  | [.op .xor, i, j] => operandFormed i && operandFormed j
  | .op _ :: _ => false
  | [] => true
  | i :: rest => operandFormed i && operandsFormed rest

def operandsFormed : List (Item δ) → Bool
  | [] => true
  | i :: rest => operandFormed i && operandsFormed rest

def operandFormed : Item δ → Bool
  | .datum _ => true
  | .list l => wellFormed l
  | _ => false

end

mutual

/-- The declarations an expression mentions. -/
def mentioned : List (Item δ) → List δ
  | [] => []
  | i :: rest => mentionedItem i ++ mentioned rest

def mentionedItem : Item δ → List δ
  | .datum d => [d]
  | .list l => mentioned l
  | _ => []

end

mutual

/-- `cil_verify_no_self_reference`. -/
def verifyNoSelfReference [DecidableEq δ] (datum : δ) : List (Item δ) → Rc
  | [] => .ok
  | i :: rest =>
      match verifyNoSelfReferenceItem datum i with
      | .ok => verifyNoSelfReference datum rest
      | _ => .err

def verifyNoSelfReferenceItem [DecidableEq δ] (datum : δ) : Item δ → Rc
  | .datum d => if d = datum then .err else .ok
  | .list l => verifyNoSelfReference datum l
  | _ => .ok

end

end Form

end Cil.Expr
