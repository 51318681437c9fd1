/- Cil/Binary/Constraint
   digest: Constraint expressions become postfix lists of cells, those of their terms. -/

import Cil.Build.Constraint
import Cil.Library.LinkedList
import Cil.Library.Postfix
import Cil.Verify.Context

set_option autoImplicit false
set_option relaxedAutoImplicit false

namespace Cil.Constraint

open Cil.Library Cil.Library.Postfix Cil.Verify

/-- `CEXPR_NOT`, `CEXPR_AND`, `CEXPR_OR`, `CEXPR_ATTR` and `CEXPR_NAMES`. -/
inductive ExprType
  | not
  | and
  | or
  | attr
  | names
  deriving DecidableEq, Repr

/-- What the left operand of a leaf is: an attribute of the source, the target or the third
context, or two levels. -/
inductive Attr
  | user | userTarget | userXtarget
  | role | roleTarget | roleXtarget
  | type | typeTarget | typeXtarget
  | l1l2 | l1h2 | h1l2 | h1h2 | l1h1 | l2h2
  deriving DecidableEq, Repr

/-- `CEXPR_EQ`, `CEXPR_NEQ`, `CEXPR_DOM`, `CEXPR_DOMBY` and `CEXPR_INCOMP`. -/
inductive CexprOp
  | eq
  | neq
  | dom
  | domby
  | incomp
  deriving DecidableEq, Repr

/-- The content of a `constraint_expr_t`; `attr` and `op` are not set in an operator. -/
structure Cexpr (β : Type) where
  exprType : ExprType
  attr : Option Attr
  op : Option CexprOp
  names : β
  typeNames : β

/-- A role or a type, or an attribute with the bitmap of its members, null where it was not
reached. -/
inductive Declared (β : Type)
  | single (value : Nat)
  | attr (members : Option β)
  deriving DecidableEq, Repr

/-- What the back end looks up for a declaration: its value in the tables of the policy, none if
it is not there, and on the side of CIL what it expands to. -/
structure Tables (β δ : Type) where
  sepolUser : δ → Option Nat
  sepolRole : δ → Option Nat
  sepolType : δ → Option Nat
  role : δ → Declared β
  type : δ → Declared β
  valToRole : Nat → Option δ
  valToType : Nat → Option δ
  constraintNames : Bool

section Compile

variable {β δ σ : Type} (B : EnumBitmap β) (T : Tables β δ)

/-- `constraint_expr_init`, with the type of the expression. -/
def initCexpr (t : ExprType) : Cexpr β := ⟨t, none, none, B.init, B.init⟩

/-- `__cil_expand_role` and `__cil_expand_type`. -/
def expand : Declared β → Call Rc σ β
  | .single value => pure (B.setBit B.init value)
  | .attr (some members) => pure members
  | .attr none => Call.crash

/-- The loop over the bits of an expanded role or type. -/
def namesLoop (valTo : Nat → Option δ) (sepol : δ → Option Nat) : List Nat → β → Call Rc σ β
  | [], names => pure names
  | i :: rest, names =>
      match valTo i with
      | none => Call.crash
      | some d =>
          match sepol d with
          | none => Call.fail .err
          | some value => namesLoop valTo sepol rest (B.setBit names (value - 1))

/-- What `__cil_constrain_expr_datum_to_sepol_expr` does to `type_names`. Where the type is not in
the policy, a bitmap is destroyed that was never set. -/
def typeNamesToSepolExpr (d : δ) (typeNames : β) : Call Rc σ β :=
  if T.constraintNames then
    match T.sepolType d with
    | none => Call.crash
    | some value => pure (B.setBit typeNames (value - 1))
  else pure typeNames

/-- `__cil_constrain_expr_datum_to_sepol_expr`. -/
def constrainExprDatumToSepolExpr (d : δ) (flavor : LeafFlavor) (expr : Cexpr β) :
    Call Rc σ (Cexpr β) :=
  match flavor with
  | .user =>
      match T.sepolUser d with
      | none => Call.fail .err
      | some value => pure { expr with names := B.setBit expr.names (value - 1) }
  | .role => do
      let roles ← expand B (T.role d)
      let names ← namesLoop B T.valToRole T.sepolRole (B.positions roles) expr.names
      pure { expr with names := names }
  | .type => do
      let typeNames ← typeNamesToSepolExpr B T d expr.typeNames
      let types ← expand B (T.type d)
      let names ← namesLoop B T.valToType T.sepolType (B.positions types) expr.names
      pure { expr with names := names, typeNames := typeNames }
  | .level => Call.fail .err

/-- The loop over a list of names. -/
def datumsToSepolExpr (flavor : LeafFlavor) : List δ → Cexpr β → Call Rc σ (Cexpr β)
  | [], expr => pure expr
  | d :: rest, expr => do
      let expr ← constrainExprDatumToSepolExpr B T d flavor expr
      datumsToSepolExpr flavor rest expr

/-- The field `op` for an operator of leaves. -/
def cexprOp : Operator → Option CexprOp
  | .eq => some .eq
  | .neq => some .neq
  | .dom => some .dom
  | .domby => some .domby
  | .incomp => some .incomp
  | _ => none

/-- The field `attr` for the operands of a leaf. -/
def cexprAttr : Operand → Right δ → Option Attr
  | .u1, _ => some .user
  | .u2, _ => some .userTarget
  | .u3, _ => some .userXtarget
  | .r1, _ => some .role
  | .r2, _ => some .roleTarget
  | .r3, _ => some .roleXtarget
  | .t1, _ => some .type
  | .t2, _ => some .typeTarget
  | .t3, _ => some .typeXtarget
  | .l1, .operand .l2 => some .l1l2
  | .l1, .operand .h1 => some .l1h1
  | .l1, _ => some .l1h2
  | .l2, _ => some .l2h2
  | .h1, .operand .l2 => some .h1l2
  | .h1, _ => some .h1h2
  | .h2, _ => none

/-- `__cil_constrain_expr_leaf_to_sepol_expr`, on the cell with the operator. -/
def constrainExprLeafToSepolExpr (l : Leaf δ) : Call Rc σ (Cexpr β) :=
  match cexprAttr l.left l.right with
  | none => Call.fail .err
  | some attr =>
      let expr : Cexpr β := ⟨.names, some attr, cexprOp l.op, B.init, B.init⟩
      match l.right with
      | .operand _ => pure { expr with exprType := .attr }
      | .datum d => constrainExprDatumToSepolExpr B T d l.left.leafFlavor expr
      | .list ds => datumsToSepolExpr B T l.left.leafFlavor ds expr

/-- `__cil_constrain_expr_to_sepol_expr_helper`; it returns the head and the tail of the list it
makes. -/
def constrainExprToSepolExprHelper :
    ConstraintExpr (Leaf δ) → Call Rc (Heap (Cexpr β)) (Nat × Nat)
  | .leaf l => do
      let cell ← Call.lift (constrainExprLeafToSepolExpr B T l)
      let op ← Heap.alloc cell
      pure (op, op)
  | .not x => do
      let op ← Heap.alloc (initCexpr B .not)
      let (h1, t1) ← constrainExprToSepolExprHelper x
      Heap.setLink t1 op
      pure (h1, op)
  | .and x y => do
      let op ← Heap.alloc (initCexpr B .and)
      let (h1, t1) ← constrainExprToSepolExprHelper x
      let (h2, t2) ← constrainExprToSepolExprHelper y
      Heap.setLink t1 h2
      Heap.setLink t2 op
      pure (h1, op)
  | .or x y => do
      let op ← Heap.alloc (initCexpr B .or)
      let (h1, t1) ← constrainExprToSepolExprHelper x
      let (h2, t2) ← constrainExprToSepolExprHelper y
      Heap.setLink t1 h2
      Heap.setLink t2 op
      pure (h1, op)

/-- `__cil_constrain_expr_to_sepol_expr`. -/
def constrainExprToSepolExpr (x : ConstraintExpr (Leaf δ)) : Call Rc (Heap (Cexpr β)) Nat := do
  let (head, _) ← constrainExprToSepolExprHelper B T x
  pure head

end Compile

section Terms

variable {β δ : Type} (B : EnumBitmap β) (T : Tables β δ)

/-- The cell of a leaf, if it has one. -/
def leafCell (l : Leaf δ) : Option (Cexpr β) :=
  match (constrainExprLeafToSepolExpr B T l : Call Rc Unit (Cexpr β)) () with
  | some (.ok cell _) => some cell
  | _ => none

/-- The term that an expression is compiled to. -/
def exprTerm : ConstraintExpr (Leaf δ) → Option (Term (Cexpr β))
  | .leaf l => (leafCell B T l).map .leaf
  | .not x => (exprTerm x).map (.unary (initCexpr B .not))
  | .and x y => (exprTerm x).bind fun s => (exprTerm y).map fun t =>
      .binary (initCexpr B .and) s t
  | .or x y => (exprTerm x).bind fun s => (exprTerm y).map fun t =>
      .binary (initCexpr B .or) s t

variable {B T}

private theorem lift_leaf (l : Leaf δ) (h : Heap (Cexpr β)) :
    Ends (leafCell B T l = none) (fun cell h' => leafCell B T l = some cell ∧ h' = h)
      (Call.lift (constrainExprLeafToSepolExpr B T l) h) := by
  unfold leafCell Call.lift
  cases (constrainExprLeafToSepolExpr B T l : Call Rc Unit (Cexpr β)) () with
  | none => rfl
  | some r =>
    cases r with
    | ok cell u => exact ⟨rfl, rfl⟩
    | failed e u => rfl
    | crash => rfl

/-- Two compiled operands. -/
private theorem binary_ends {op : Cexpr β} {x y : ConstraintExpr (Leaf δ)}
    {z : ConstraintExpr (Leaf δ)} (hz : exprTerm B T z = (exprTerm B T x).bind fun s =>
      (exprTerm B T y).map fun t => .binary op s t)
    (hx : ∀ h, Ends (exprTerm B T x = none)
      (fun r h' => ∃ t, exprTerm B T x = some t ∧ Heap.Made t.flatten h r h')
      (constrainExprToSepolExprHelper B T x h))
    (hy : ∀ h, Ends (exprTerm B T y = none)
      (fun r h' => ∃ t, exprTerm B T y = some t ∧ Heap.Made t.flatten h r h')
      (constrainExprToSepolExprHelper B T y h)) (h : Heap (Cexpr β)) :
    Ends (exprTerm B T z = none)
      (fun r h' => ∃ t, exprTerm B T z = some t ∧ Heap.Made t.flatten h r h')
      ((do
        let op ← Heap.alloc op
        let (h1, t1) ← constrainExprToSepolExprHelper B T x
        let (h2, t2) ← constrainExprToSepolExprHelper B T y
        Heap.setLink t1 h2
        Heap.setLink t2 op
        pure (h1, op) : Call Rc (Heap (Cexpr β)) (Nat × Nat)) h) := by
  have hnoneleft : exprTerm B T x = none → exprTerm B T z = none := by
    intro hnone
    rw [hz, hnone]
    rfl
  have hnoneright : exprTerm B T y = none → exprTerm B T z = none := by
    intro hnone
    rw [hz, hnone]
    cases exprTerm B T x <;> rfl
  refine ((hx (Heap.allocated h op)).weaken hnoneleft).bind fun r₁ h₁ hpost₁ =>
    ((hy h₁).weaken hnoneright).bind fun r₂ h₂ hpost₂ => ?_
  obtain ⟨s, hs, hmade₁⟩ := hpost₁
  obtain ⟨t, ht, hmade₂⟩ := hpost₂
  refine ⟨.binary op s t, ?_, hmade₁.binary hmade₂⟩
  rw [hz, hs, ht]
  rfl

/-- An expression whose leaves have cells is compiled to the list of its term. -/
theorem constrainExprToSepolExprHelper_ends (x : ConstraintExpr (Leaf δ)) (h : Heap (Cexpr β)) :
    Ends (exprTerm B T x = none)
      (fun r h' => ∃ t, exprTerm B T x = some t ∧ Heap.Made t.flatten h r h')
      (constrainExprToSepolExprHelper B T x h) := by
  induction x generalizing h with
  | leaf l =>
    rw [constrainExprToSepolExprHelper]
    have hnone : leafCell B T l = none → exprTerm B T (.leaf l) = none := by
      intro hnone
      rw [exprTerm, hnone]
      rfl
    refine ((lift_leaf l h).weaken hnone).bind fun cell h₁ hpost => ?_
    obtain ⟨hcell, rfl⟩ := hpost
    refine ⟨.leaf cell, ?_, Heap.made_allocated h₁ cell⟩
    rw [exprTerm, hcell]
    rfl
  | not x ih =>
    rw [constrainExprToSepolExprHelper]
    have hnone : exprTerm B T x = none → exprTerm B T (.not x) = none := by
      intro hnone
      rw [exprTerm, hnone]
      rfl
    refine ((ih (Heap.allocated h (initCexpr B .not))).weaken hnone).bind fun r h₁ hpost => ?_
    obtain ⟨t, ht, hmade⟩ := hpost
    refine ⟨.unary (initCexpr B .not) t, ?_, hmade.unary⟩
    rw [exprTerm, ht]
    rfl
  | and x y ihx ihy =>
    rw [constrainExprToSepolExprHelper]
    exact binary_ends rfl ihx ihy h
  | or x y ihx ihy =>
    rw [constrainExprToSepolExprHelper]
    exact binary_ends rfl ihx ihy h

end Terms

section Stack

variable {β : Type} (value : Cexpr β → Option Bool)

/-- One cell of a postfix list, evaluated on a stack; `value` is what a leaf is worth. -/
def evalCell (cell : Cexpr β) (stack : List Bool) : Option (List Bool) :=
  match cell.exprType, stack with
  | .not, a :: stack => some ((!a) :: stack)
  | .and, b :: a :: stack => some ((a && b) :: stack)
  | .or, b :: a :: stack => some ((a || b) :: stack)
  | .attr, stack => (value cell).map (· :: stack)
  | .names, stack => (value cell).map (· :: stack)
  | _, _ => none

end Stack

end Cil.Constraint
