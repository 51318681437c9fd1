/- Cil/Post/Attributes
   digest: The pass that expands type and role attributes to bitmaps. -/

import Cil.Expr
import Cil.Tree

set_option autoImplicit false
set_option relaxedAutoImplicit false

namespace Cil.Post.Attributes

open Cil.Expr Cil.Library

inductive Kind
  | type | role
  deriving DecidableEq, Repr

/-- A declaration that an attribute's expression names, with the value that its bit has. An
alias has the value of its actual type. -/
inductive Datum (α : Type)
  | attr (a : α)
  | typealias (value : Nat)
  | type (value : Nat)
  | role (value : Nat)
  deriving DecidableEq

/-- The resolved attributes. `exprList` is none while `expr_list` is null. -/
structure Policy (α : Type) where
  kind : α → Kind
  numTypes : Nat
  numRoles : Nat
  exprList : α → Option (List (List (Item (Datum α))))
  wellFormed : ∀ a l, exprList a = some l → ∀ e ∈ l, Expr.wellFormed false e = true
  noSelfReference : ∀ a l, exprList a = some l → ∀ e ∈ l, Datum.attr a ∉ mentioned e

/-- The fields `types` and `roles` of the attributes, none while null. -/
abbrev Bitmaps (α β : Type) := α → Option β

section Pass

variable {α β : Type} [DecidableEq α] (B : Bitmap β)

/-- `ebitmap_union` into the bitmap of an attribute. -/
def unionInto (a : α) (b : β) (bitmaps : Bitmaps α β) : Bitmaps α β :=
  Function.update bitmaps a (some (B.union ((bitmaps a).getD B.init) b))

/-- The loop of `__cil_expr_list_to_bitmap`, with the bitmap of `a` as `out`. -/
def exprListToBitmap (max : Nat) (datumToBitmap : Datum α → Call Rc (Bitmaps α β) β) (a : α) :
    List (List (Item (Datum α))) → Call Rc (Bitmaps α β) Unit
  | [] => pure ()
  | e :: rest => do
      let bitmap ← exprToBitmap B max datumToBitmap none B.init e
      Call.modify (unionInto B a bitmap)
      exprListToBitmap max datumToBitmap a rest

/-- What `__evaluate_type_expression` and `__evaluate_role_expression` share. The bitmap is
there, and empty, before the first expression is evaluated. -/
def evaluateExpression (max : Nat) (datumToBitmap : Datum α → Call Rc (Bitmaps α β) β)
    (exprList : Option (List (List (Item (Datum α))))) (a : α) : Call Rc (Bitmaps α β) Unit :=
  Call.onFailure (fun bitmaps => Function.update bitmaps a none) do
    Call.modify fun bitmaps => Function.update bitmaps a (some B.init)
    match exprList with
    | none => pure ()
    | some l => exprListToBitmap B max datumToBitmap a l

variable (P : Policy α)

/-- `__evaluate_type_expression`. -/
def evaluateTypeExpression (datumToBitmap : Datum α → Call Rc (Bitmaps α β) β) (a : α) :
    Call Rc (Bitmaps α β) Unit :=
  evaluateExpression B P.numTypes datumToBitmap (P.exprList a) a

/-- `__evaluate_role_expression`. -/
def evaluateRoleExpression (datumToBitmap : Datum α → Call Rc (Bitmaps α β) β) (a : α) :
    Call Rc (Bitmaps α β) Unit :=
  evaluateExpression B P.numRoles datumToBitmap (P.exprList a) a

def evaluate (datumToBitmap : Datum α → Call Rc (Bitmaps α β) β) (a : α) :
    Call Rc (Bitmaps α β) Unit :=
  match P.kind a with
  | .type => evaluateTypeExpression B P datumToBitmap a
  | .role => evaluateRoleExpression B P datumToBitmap a

/-- `__cil_type_to_bitmap` and `__cil_role_to_bitmap`; out of fuel when attributes nest deeper
than `fuel`. -/
def datumToBitmap : Nat → Datum α → Call Rc (Bitmaps α β) β
  | 0, _ => Call.outOfFuel
  | _ + 1, .type value => pure (B.setBit B.init value)
  | _ + 1, .typealias value => pure (B.setBit B.init value)
  | _ + 1, .role value => pure (B.setBit B.init value)
  | fuel + 1, .attr a => do
      let bitmaps ← Call.get
      match bitmaps a with
      | some bitmap => pure (B.union B.init bitmap)
      | none => do
          evaluate B P (datumToBitmap fuel) a
          let bitmaps ← Call.get
          pure (B.union B.init ((bitmaps a).getD B.init))

/-- A node of the resolved tree, as far as attributes go. -/
inductive NodeData (α : Type)
  | macroDef
  | block (isAbstract : Bool)
  | attr (a : α)
  | other
  deriving DecidableEq, Repr

/-- The nodes whose children are not visited. -/
def NodeData.skipHead : NodeData α → Bool
  | .macroDef => true
  | .block isAbstract => isAbstract
  | _ => false

/-- `__cil_post_db_attr_helper`. -/
def postDbAttrHelper (fuel : Nat) : NodeData α → Call Rc (Bitmaps α β) Unit
  | .attr a => do
      let bitmaps ← Call.get
      match bitmaps a with
      | some _ => pure ()
      | none => evaluate B P (datumToBitmap B P fuel) a
  | _ => pure ()

/-- The attribute pass of `cil_post_db`. -/
def postDbAttr (fuel : Nat) (ast : Tree (NodeData α)) : Call Rc (Bitmaps α β) Unit :=
  processAll (postDbAttrHelper B P fuel) (ast.walk NodeData.skipHead)

end Pass

end Cil.Post.Attributes
