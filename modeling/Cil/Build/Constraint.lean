/- Cil/Build/Constraint
   digest: Constraint expressions are built from parse trees, and their names looked up. -/

import Cil.Build.Syntax
import Cil.Library.Call

set_option autoImplicit false
set_option relaxedAutoImplicit false

namespace Cil.Constraint

open Cil.Build Cil.Library

/-- The kinds of statements with a constraint expression. -/
inductive Statement
  | constrain
  | mlsconstrain
  | validatetrans
  | mlsvalidatetrans
  deriving DecidableEq, Repr

inductive Operator
  | and
  | or
  | not
  | eq
  | neq
  | dom
  | domby
  | incomp
  deriving DecidableEq, Repr

/-- The operand keywords. -/
inductive Operand
  | t1 | t2 | t3
  | r1 | r2 | r3
  | u1 | u2 | u3
  | l1 | l2
  | h1 | h2
  deriving DecidableEq, Repr

/-- What `__cil_get_constraint_operand_flavor` tells apart. -/
inductive OperandFlavor
  | operand (o : Operand)
  | string
  | list
  deriving DecidableEq, Repr

/-- The flavor of the list that a leaf is stored in. -/
inductive LeafFlavor
  | user
  | role
  | type
  | level
  deriving DecidableEq, Repr

/-- `__cil_get_constraint_operator_flavor`, `none` for `CIL_NONE`. -/
def constraintOperatorFlavor : String → Option Operator
  | "and" => some .and
  | "or" => some .or
  | "not" => some .not
  | "eq" => some .eq
  | "neq" => some .neq
  | "dom" => some .dom
  | "domby" => some .domby
  | "incomp" => some .incomp
  | _ => none

/-- `__cil_get_constraint_operand_flavor`. -/
def constraintOperandFlavor : Option String → OperandFlavor
  | none => .list
  | some "t1" => .operand .t1
  | some "t2" => .operand .t2
  | some "t3" => .operand .t3
  | some "r1" => .operand .r1
  | some "r2" => .operand .r2
  | some "r3" => .operand .r3
  | some "u1" => .operand .u1
  | some "u2" => .operand .u2
  | some "u3" => .operand .u3
  | some "l1" => .operand .l1
  | some "l2" => .operand .l2
  | some "h1" => .operand .h1
  | some "h2" => .operand .h2
  | some _ => .string

def stringSyn : Syn := { string := true }

def listSyn : Syn := { list := true }

def stringOrListSyn : Syn := { string := true, list := true }

def endSyn : Syn := { stop := true }

/-- `cil_verify_constraint_expr_syntax`. -/
def verifyConstraintExprSyntax (nodes : List ParseNode) : Option Operator → Bool
  | some .not => verifySyntax [stringSyn, listSyn, endSyn] nodes
  | some .and | some .or => verifySyntax [stringSyn, listSyn, listSyn, endSyn] nodes
  | some .eq | some .neq => verifySyntax [stringSyn, stringSyn, stringOrListSyn, endSyn] nodes
  | some .dom | some .domby | some .incomp =>
      verifySyntax [stringSyn, stringSyn, stringSyn, endSyn] nodes
  | none => false

/-- `cil_verify_constraint_leaf_expr_syntax`. -/
def verifyConstraintLeafExprSyntax (left : Operand) (right : OperandFlavor) (op : Operator)
    (statement : Statement) : Bool :=
  match right with
  | .string | .list =>
      match left with
      | .l1 | .l2 | .h1 | .h2 => false
      | .u3 | .r3 | .t3 => statement = .mlsvalidatetrans
      | _ => true
  | .operand .u2 => (op = .eq ∨ op = .neq) ∧ left = .u1
  | .operand .r2 => left = .r1
  | .operand .t2 => (op = .eq ∨ op = .neq) ∧ left = .t1
  | .operand .l2 => left = .l1 ∨ left = .h1
  | .operand .h2 => left = .l1 ∨ left = .l2 ∨ left = .h1
  | .operand .h1 => left = .l1
  | .operand _ => true

/-- The flavor of the list that a leaf with this left operand is stored in. -/
def Operand.leafFlavor : Operand → LeafFlavor
  | .u1 | .u2 | .u3 => .user
  | .r1 | .r2 | .r3 => .role
  | .t1 | .t2 | .t3 => .type
  | .l1 | .l2 | .h1 | .h2 => .level

/-- An expression over leaves. -/
inductive ConstraintExpr (Λ : Type)
  | leaf (l : Λ)
  | not (x : ConstraintExpr Λ)
  | and (x y : ConstraintExpr Λ)
  | or (x y : ConstraintExpr Λ)
  deriving DecidableEq, Repr

def ConstraintExpr.leaves {Λ : Type} : ConstraintExpr Λ → List Λ
  | .leaf l => [l]
  | .not x => x.leaves
  | .and x y => x.leaves ++ y.leaves
  | .or x y => x.leaves ++ y.leaves

/-- The right operand of a leaf as the builder stores it. Of a list it stores the address of its
own variable, which is gone when it returns. -/
inductive StoredRight
  | operand (o : Operand)
  | string (s : String)
  | address
  deriving DecidableEq, Repr

structure StoredLeaf where
  op : Operator
  left : Operand
  right : StoredRight
  deriving DecidableEq, Repr

/-- `CEXPR_MAXDEPTH`. -/
def cexprMaxdepth : Int := 5

section Build

variable (statement : Statement)

/-- `__cil_fill_constraint_leaf_expr`. -/
def fillConstraintLeafExpr (op : Operator) (left right : ParseNode) : Option StoredLeaf :=
  match constraintOperandFlavor left.data with
  | .operand l =>
      let flavor := constraintOperandFlavor right.data
      if verifyConstraintLeafExprSyntax l flavor op statement then
        match flavor with
        | .operand r => some ⟨op, l, .operand r⟩
        | .list => some ⟨op, l, .address⟩
        | .string => right.data.map fun s => ⟨op, l, .string s⟩
      else none
  | _ => none

/-- `__cil_fill_constraint_expr` on what a list holds; it returns the depth as well. No operator
takes another number of operands. -/
def fillConstraintExpr (depth : Int) : ParseNode → Option (ConstraintExpr StoredLeaf × Int)
  | .list [.string s, x] =>
      if depth > cexprMaxdepth then none
      else if verifyConstraintExprSyntax [.string s, x] (constraintOperatorFlavor s) then
        match constraintOperatorFlavor s with
        | some .not => (fillConstraintExpr depth x).map fun r => (.not r.1, r.2 - 1)
        | _ => none
      else none
  | .list [.string s, x, y] =>
      if depth > cexprMaxdepth then none
      else if verifyConstraintExprSyntax [.string s, x, y] (constraintOperatorFlavor s) then
        match constraintOperatorFlavor s with
        | none => none
        | some .not => none
        | some .and =>
            match fillConstraintExpr depth x with
            | none => none
            | some (lexpr, depth) =>
                (fillConstraintExpr depth y).map fun r => (.and lexpr r.1, r.2 - 1)
        | some .or =>
            match fillConstraintExpr depth x with
            | none => none
            | some (lexpr, depth) =>
                (fillConstraintExpr depth y).map fun r => (.or lexpr r.1, r.2 - 1)
        | some op =>
            (fillConstraintLeafExpr statement op x y).map fun l => (.leaf l, depth + 1 - 1)
      else none
  | _ => none

/-- `cil_gen_constraint_expr`. -/
def genConstraintExpr (node : ParseNode) : Option (ConstraintExpr StoredLeaf) :=
  (fillConstraintExpr statement 0 node).map Prod.fst

end Build

section Built

variable {statement : Statement}

/-- What is written at a node is stored as this expression, whatever the depth. -/
inductive Stored (statement : Statement) : ParseNode → ConstraintExpr StoredLeaf → Prop
  | leaf {s : String} {op : Operator} {x y : ParseNode} {l : StoredLeaf} :
      constraintOperatorFlavor s = some op → op ≠ .not → op ≠ .and → op ≠ .or →
      verifyConstraintExprSyntax [.string s, x, y] (some op) = true →
      fillConstraintLeafExpr statement op x y = some l →
      Stored statement (.list [.string s, x, y]) (.leaf l)
  | not {s : String} {x : ParseNode} {e : ConstraintExpr StoredLeaf} :
      constraintOperatorFlavor s = some .not →
      verifyConstraintExprSyntax [.string s, x] (some .not) = true → Stored statement x e →
      Stored statement (.list [.string s, x]) (.not e)
  | and {s : String} {x y : ParseNode} {e f : ConstraintExpr StoredLeaf} :
      constraintOperatorFlavor s = some .and →
      verifyConstraintExprSyntax [.string s, x, y] (some .and) = true → Stored statement x e →
      Stored statement y f → Stored statement (.list [.string s, x, y]) (.and e f)
  | or {s : String} {x y : ParseNode} {e f : ConstraintExpr StoredLeaf} :
      constraintOperatorFlavor s = some .or →
      verifyConstraintExprSyntax [.string s, x, y] (some .or) = true → Stored statement x e →
      Stored statement y f → Stored statement (.list [.string s, x, y]) (.or e f)

/-- The depth never grows. -/
private theorem stored_of_fill (node : ParseNode) {depth depth' : Int}
    {e : ConstraintExpr StoredLeaf}
    (h : fillConstraintExpr statement depth node = some (e, depth')) :
    Stored statement node e ∧ depth' ≤ depth := by
  fun_induction fillConstraintExpr statement depth node generalizing e depth' with
  | case1 depth s x hdepth => cases h
  | case2 depth s x hdepth hsyntax hop ih =>
    obtain ⟨r, hr, heq⟩ := Option.map_eq_some_iff.mp h
    cases heq
    obtain ⟨hstored, hle⟩ := ih hr
    rw [hop] at hsyntax
    exact ⟨.not hop hsyntax hstored, by omega⟩
  | case3 depth s x hdepth hsyntax hop => cases h
  | case4 depth s x hdepth hsyntax => cases h
  | case5 depth s x y hdepth => cases h
  | case6 depth s x y hdepth hsyntax hop => cases h
  | case7 depth s x y hdepth hsyntax hop => cases h
  | case8 depth s x y hdepth hsyntax hop hx ih => cases h
  | case9 depth s x y hdepth hsyntax hop lexpr depth₁ hx ihx ihy =>
    obtain ⟨r, hr, heq⟩ := Option.map_eq_some_iff.mp h
    cases heq
    obtain ⟨hstoredx, hlex⟩ := ihx hx
    obtain ⟨hstoredy, hley⟩ := ihy hr
    rw [hop] at hsyntax
    exact ⟨.and hop hsyntax hstoredx hstoredy, by omega⟩
  | case10 depth s x y hdepth hsyntax hop hx ih => cases h
  | case11 depth s x y hdepth hsyntax hop lexpr depth₁ hx ihx ihy =>
    obtain ⟨r, hr, heq⟩ := Option.map_eq_some_iff.mp h
    cases heq
    obtain ⟨hstoredx, hlex⟩ := ihx hx
    obtain ⟨hstoredy, hley⟩ := ihy hr
    rw [hop] at hsyntax
    exact ⟨.or hop hsyntax hstoredx hstoredy, by omega⟩
  | case12 depth s x y hdepth hsyntax op hnot hand hor hop =>
    obtain ⟨l, hl, heq⟩ := Option.map_eq_some_iff.mp h
    cases heq
    rw [hop] at hsyntax
    exact ⟨.leaf hop hnot hand hor hsyntax hl, by omega⟩
  | case13 depth s x y hdepth hsyntax => cases h
  | case14 depth t hone htwo => cases h

/-- What is stored is accepted at every depth within the bound: it is never exceeded later. -/
theorem Stored.fill {node : ParseNode} {e : ConstraintExpr StoredLeaf}
    (h : Stored statement node e) {depth : Int} (hdepth : depth ≤ cexprMaxdepth) :
    ∃ depth', fillConstraintExpr statement depth node = some (e, depth') := by
  induction h generalizing depth with
  | @leaf s op x y l hop hnot hand hor hsyntax hl =>
    refine ⟨depth + 1 - 1, ?_⟩
    rw [fillConstraintExpr, if_neg (by omega), hop, if_pos hsyntax]
    cases op with
    | not => exact absurd rfl hnot
    | and => exact absurd rfl hand
    | or => exact absurd rfl hor
    | _ =>
      dsimp only
      rw [hl]
      rfl
  | not hop hsyntax _ ih =>
    obtain ⟨d, hd⟩ := ih hdepth
    refine ⟨d - 1, ?_⟩
    rw [fillConstraintExpr, if_neg (by omega), hop, if_pos hsyntax, hd]
    rfl
  | and hop hsyntax _ _ ihx ihy =>
    obtain ⟨dx, hx⟩ := ihx hdepth
    obtain ⟨dy, hy⟩ := ihy (Int.le_trans (stored_of_fill _ hx).2 hdepth)
    refine ⟨dy - 1, ?_⟩
    rw [fillConstraintExpr, if_neg (by omega), hop, if_pos hsyntax]
    dsimp only
    rw [hx]
    dsimp only
    rw [hy]
    rfl
  | or hop hsyntax _ _ ihx ihy =>
    obtain ⟨dx, hx⟩ := ihx hdepth
    obtain ⟨dy, hy⟩ := ihy (Int.le_trans (stored_of_fill _ hx).2 hdepth)
    refine ⟨dy - 1, ?_⟩
    rw [fillConstraintExpr, if_neg (by omega), hop, if_pos hsyntax]
    dsimp only
    rw [hx]
    dsimp only
    rw [hy]
    rfl

theorem genConstraintExpr_iff {node : ParseNode} {e : ConstraintExpr StoredLeaf} :
    genConstraintExpr statement node = some e ↔ Stored statement node e := by
  constructor
  · intro h
    obtain ⟨r, hr, rfl⟩ := Option.map_eq_some_iff.mp h
    exact (stored_of_fill node hr).1
  · intro h
    obtain ⟨d, hd⟩ := h.fill (by decide : (0 : Int) ≤ cexprMaxdepth)
    rw [genConstraintExpr, hd]
    rfl

/-- No name stands beside a level in what is stored. -/
private theorem fillConstraintLeafExpr_string {statement : Statement} {op : Operator}
    {left right : ParseNode} {l : StoredLeaf}
    (h : fillConstraintLeafExpr statement op left right = some l) {s : String}
    (hs : l.right = .string s) : l.left.leafFlavor ≠ .level := by
  unfold fillConstraintLeafExpr at h
  split at h
  · rename_i o ho
    dsimp only at h
    split_ifs at h with hverify
    split at h
    · cases h
      cases hs
    · cases h
      cases hs
    · rename_i hflavor
      obtain ⟨s', -, rfl⟩ := Option.map_eq_some_iff.mp h
      rw [hflavor] at hverify
      cases o <;> simp [verifyConstraintLeafExprSyntax, Operand.leafFlavor] at hverify ⊢
  · cases h

theorem Stored.string {statement : Statement} {node : ParseNode} {e : ConstraintExpr StoredLeaf}
    (h : Stored statement node e) :
    ∀ l ∈ e.leaves, ∀ s, l.right = .string s → l.left.leafFlavor ≠ .level := by
  induction h with
  | leaf _ _ _ _ _ hl =>
    intro l' hl' s hs
    rw [ConstraintExpr.leaves, List.mem_singleton] at hl'
    subst hl'
    exact fillConstraintLeafExpr_string hl hs
  | not _ _ _ ih => exact ih
  | and _ _ _ _ ihx ihy =>
    intro l hl
    rcases List.mem_append.mp hl with hl | hl
    · exact ihx l hl
    · exact ihy l hl
  | or _ _ _ _ ihx ihy =>
    intro l hl
    rcases List.mem_append.mp hl with hl | hl
    · exact ihx l hl
    · exact ihy l hl

end Built

/-- The right operand of a resolved leaf. -/
inductive Right (δ : Type)
  | operand (o : Operand)
  | datum (d : δ)
  | list (ds : List δ)
  deriving DecidableEq, Repr

structure Leaf (δ : Type) where
  op : Operator
  left : Operand
  right : Right δ
  deriving DecidableEq, Repr

section Resolve

variable {δ σ : Type} (get : LeafFlavor → String → Option δ)

/-- `cil_resolve_expr` on a leaf. -/
def resolveLeaf (l : StoredLeaf) : Call Rc σ (Leaf δ) :=
  match l.right with
  | .operand o => pure ⟨l.op, l.left, .operand o⟩
  | .string s =>
      match get l.left.leafFlavor s with
      | some d => pure ⟨l.op, l.left, .datum d⟩
      | none => Call.fail .err
  | .address => Call.crash

/-- `cil_resolve_expr` on a constraint expression. -/
def resolveExpr : ConstraintExpr StoredLeaf → Call Rc σ (ConstraintExpr (Leaf δ))
  | .leaf l => do
      let l ← resolveLeaf get l
      pure (.leaf l)
  | .not x => do
      let x ← resolveExpr x
      pure (.not x)
  | .and x y => do
      let x ← resolveExpr x
      let y ← resolveExpr y
      pure (.and x y)
  | .or x y => do
      let x ← resolveExpr x
      let y ← resolveExpr y
      pure (.or x y)

end Resolve

end Cil.Constraint
