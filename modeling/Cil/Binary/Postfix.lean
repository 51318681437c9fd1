/- Cil/Binary/Postfix
   digest: Conditional expressions become postfix lists of cells, which evaluate to their truth. -/

import Cil.CondExpr
import Cil.Library.LinkedList
import Cil.Library.Postfix

set_option autoImplicit false
set_option relaxedAutoImplicit false

namespace Cil.Binary.Postfix

open Cil.Expr Cil.Build Cil.CondExpr Cil.Library Cil.Library.Postfix

/-- `COND_BOOL` and the operators. -/
inductive ExprType
  | bool
  | not
  | or
  | and
  | xor
  | eq
  | neq
  deriving DecidableEq, Repr

/-- The content of a `cond_expr_t`; `bool` is the value of a boolean, 0 in an operator. -/
structure CondExpr where
  exprType : ExprType
  bool : Nat
  deriving DecidableEq, Repr

/-- The type of the cell for an operator. -/
def exprType : Op → Option ExprType
  | .not => some .not
  | .or => some .or
  | .and => some .and
  | .xor => some .xor
  | .eq => some .eq
  | .neq => some .neq
  | _ => none

section Compile

variable {δ : Type} (bools : δ → Option Nat)

mutual

/-- `__cil_cond_item_to_sepol_expr`, with `bools` for the table of booleans; it returns the
head and the tail of the list it makes. -/
def condItemToSepolExpr : Item δ → Call Rc (Heap CondExpr) (Nat × Nat)
  | .datum d =>
      match bools d with
      | none => Call.fail .err
      | some v => do
          let head ← Heap.alloc ⟨.bool, v⟩
          pure (head, head)
  | .list l => condExprToSepolExprHelper l
  | _ => Call.fail .err

/-- `__cil_cond_expr_to_sepol_expr_helper`. -/
def condExprToSepolExprHelper : List (Item δ) → Call Rc (Heap CondExpr) (Nat × Nat)
  | [] => Call.fail .err
  | .op o :: [] =>
      match exprType o with
      | none => Call.fail .err
      | some t => do
          let _ ← Heap.alloc ⟨t, 0⟩
          Call.fail .err
  | .op o :: i :: [] =>
      match exprType o with
      | none => Call.fail .err
      | some t => do
          let op ← Heap.alloc ⟨t, 0⟩
          let (h1, t1) ← condItemToSepolExpr i
          if o = .not then do
            Heap.setLink t1 op
            pure (h1, op)
          else Call.fail .err
  | .op o :: i :: j :: _ =>
      match exprType o with
      | none => Call.fail .err
      | some t => do
          let op ← Heap.alloc ⟨t, 0⟩
          let (h1, t1) ← condItemToSepolExpr i
          if o = .not then do
            Heap.setLink t1 op
            pure (h1, op)
          else do
            let (h2, t2) ← condItemToSepolExpr j
            Heap.setLink t1 h2
            Heap.setLink t2 op
            pure (h1, op)
  | i :: rest => do
      let (h1, t1) ← condItemToSepolExpr i
      let t1 ← condItems t1 rest
      pure (h1, t1)

/-- The loop over the other items of a list without operator. -/
def condItems (t1 : Nat) : List (Item δ) → Call Rc (Heap CondExpr) Nat
  | [] => pure t1
  | i :: rest => do
      let (h2, t2) ← condItemToSepolExpr i
      let op ← Heap.alloc ⟨.or, 0⟩
      Heap.setLink t1 h2
      Heap.setLink t2 op
      condItems op rest

end

/-- `__cil_cond_expr_to_sepol_expr`. -/
def condExprToSepolExpr (l : List (Item δ)) : Call Rc (Heap CondExpr) Nat := do
  let (head, _) ← condExprToSepolExprHelper bools l
  pure head

end Compile

section Stack

variable (values : Nat → Bool)

/-- One cell of a postfix list, evaluated on a stack. -/
def evalCell : CondExpr → List Bool → Option (List Bool)
  | ⟨.bool, v⟩, stack => some (values v :: stack)
  | ⟨.not, _⟩, a :: stack => some ((!a) :: stack)
  | ⟨.or, _⟩, b :: a :: stack => some ((a || b) :: stack)
  | ⟨.and, _⟩, b :: a :: stack => some ((a && b) :: stack)
  | ⟨.xor, _⟩, b :: a :: stack => some ((a ^^ b) :: stack)
  | ⟨.eq, _⟩, b :: a :: stack => some ((a == b) :: stack)
  | ⟨.neq, _⟩, b :: a :: stack => some ((a != b) :: stack)
  | _, _ => none

/-- A postfix list, evaluated on a stack. -/
def evalCells : List CondExpr → List Bool → Option (List Bool)
  | [], stack => some stack
  | c :: cells, stack => (evalCell values c stack).bind (evalCells cells)

variable {values}

private theorem evalCells_eq_run (L : List CondExpr) (stack : List Bool) :
    evalCells values L stack = run (evalCell values) L stack := by
  induction L generalizing stack with
  | nil => rfl
  | cons c L ih =>
    rw [evalCells, run]
    cases evalCell values c stack with
    | none => rfl
    | some stack' => exact ih stack'

theorem evalCells_append (L M : List CondExpr) (stack : List Bool) :
    evalCells values (L ++ M) stack = (evalCells values L stack).bind (evalCells values M) := by
  have hM : evalCells values M = run (evalCell values) M := funext (evalCells_eq_run M)
  rw [evalCells_eq_run, evalCells_eq_run, hM]
  exact run_append L M stack

/-- Two operands and an operator. -/
private theorem evalCell_binary {o : Op} {t : ExprType} (ho : o ≠ .not) (ht : exprType o = some t)
    (v : Nat) (a b : Bool) (stack : List Bool) :
    evalCell values ⟨t, v⟩ (b :: a :: stack) = some (Cil.CondExpr.binary o a b :: stack) := by
  cases o <;> cases ht <;> first | rfl | exact absurd rfl ho

end Stack

section Terms

variable {δ : Type} (bools : δ → Option Nat)

mutual

/-- The term that an expression is compiled to; a list without operator is read from the left. -/
def exprTerm : List (Item δ) → Option (Term CondExpr)
  | [] => none
  | .op .not :: i :: _ => (itemTerm i).map (.unary ⟨.not, 0⟩)
  | .op o :: i :: j :: _ => do
      let t ← exprType o
      let x ← itemTerm i
      let y ← itemTerm j
      pure (.binary ⟨t, 0⟩ x y)
  | .op _ :: _ => none
  | i :: rest => (itemTerm i).bind fun x => restTerm x rest

def restTerm (x : Term CondExpr) : List (Item δ) → Option (Term CondExpr)
  | [] => some x
  | i :: rest => (itemTerm i).bind fun y => restTerm (.binary ⟨.or, 0⟩ x y) rest

def itemTerm : Item δ → Option (Term CondExpr)
  | .datum d => (bools d).map fun v => .leaf ⟨.bool, v⟩
  | .list l => exprTerm l
  | _ => none

end

theorem exprTerm_plain {i : Item δ} (rest : List (Item δ)) (hop : ∀ o, i ≠ .op o) :
    exprTerm bools (i :: rest) = (itemTerm bools i).bind fun x => restTerm bools x rest := by
  rw [exprTerm]
  all_goals simp [hop]

private theorem exprTerm_binary {o : Op} {t : ExprType} {x y : Term CondExpr} {i j : Item δ}
    (ho : o ≠ .not) (ht : exprType o = some t) (hx : itemTerm bools i = some x)
    (hy : itemTerm bools j = some y) :
    exprTerm bools [.op o, i, j] = some (.binary ⟨t, 0⟩ x y) := by
  rw [exprTerm, ht, hx, hy]
  · rfl
  · simp [ho]

end Terms

section Compiled

variable {δ : Type} {bools : δ → Option Nat}

/-- The values of the declarations, through their booleans. -/
def valueOf (bools : δ → Option Nat) (values : Nat → Bool) (d : δ) : Bool :=
  ((bools d).map values).getD false

/-- One of these declarations has no boolean in the table. -/
def Missing (bools : δ → Option Nat) (ds : List δ) : Prop := ∃ d ∈ ds, bools d = none

theorem Missing.mono {ds ds' : List δ} (h : Missing bools ds) (hsub : ds ⊆ ds') :
    Missing bools ds' := by
  obtain ⟨d, hd, hnone⟩ := h
  exact ⟨d, hsub hd, hnone⟩

/-- The item has a term, with this value. -/
def ItemMeans (bools : δ → Option Nat) (i : Item δ) (t : Term CondExpr) : Prop :=
  itemTerm bools i = some t ∧
    ∀ values, Yields (evalCell values) t (truthItem (valueOf bools values) i)

/-- The expression has a term, with this value. -/
def Means (bools : δ → Option Nat) (l : List (Item δ)) (t : Term CondExpr) : Prop :=
  exprTerm bools l = some t ∧
    ∀ values, Yields (evalCell values) t (truth (valueOf bools values) l)

/-- The list made for an item is that of its term. -/
def ItemCompiles (bools : δ → Option Nat) (i : Item δ) : Prop :=
  ∀ h, Ends (Missing bools (mentionedItem i))
    (fun r h' => ∃ t, ItemMeans bools i t ∧ Heap.Made t.flatten h r h')
    (condItemToSepolExpr bools i h)

/-- The list made for an expression is that of its term. -/
def Compiles (bools : δ → Option Nat) (l : List (Item δ)) : Prop :=
  ∀ h, Ends (Missing bools (mentioned l))
    (fun r h' => ∃ t, Means bools l t ∧ Heap.Made t.flatten h r h')
    (condExprToSepolExprHelper bools l h)

private theorem datum_compiles (d : δ) : ItemCompiles bools (.datum d) := by
  intro h
  rw [condItemToSepolExpr]
  cases hd : bools d with
  | none => exact ⟨d, by simp [mentionedItem], hd⟩
  | some v =>
    refine ⟨.leaf ⟨.bool, v⟩, ⟨by rw [itemTerm, hd]; rfl, fun values => .leaf fun stack => ?_⟩,
      Heap.made_allocated h ⟨.bool, v⟩⟩
    rw [truthItem, valueOf, hd]
    rfl

private theorem not_compiles {i : Item δ} (hi : ItemCompiles bools i) :
    Compiles bools [.op .not, i] := by
  intro h
  rw [condExprToSepolExprHelper]
  simp only [exprType, mentioned_cons, mentionedItem_op, mentioned_nil, List.nil_append,
    List.append_nil]
  refine (hi (Heap.allocated h ⟨.not, 0⟩)).bind fun r h₁ hpost => ?_
  obtain ⟨t, ⟨hterm, hyields⟩, hmade⟩ := hpost
  refine ⟨.unary ⟨.not, 0⟩ t, ⟨by rw [exprTerm, hterm]; rfl, fun values => ?_⟩, hmade.unary⟩
  rw [truth, truths, truths, truthOp]
  exact .unary (hyields values) fun stack => rfl

private theorem binary_compiles {o : Op} {i j : Item δ} (ho : o ≠ .not)
    (heq : ∀ a b, truthOp o [a, b] = Cil.CondExpr.binary o a b)
    (hoperands : operands .bool o = some 2)
    (hi : ItemCompiles bools i) (hj : ItemCompiles bools j) :
    Compiles bools [.op o, i, j] := by
  intro h
  obtain ⟨t, ht⟩ : ∃ t, exprType o = some t := by
    cases o <;> first | exact ⟨_, rfl⟩ | simp [operands] at hoperands
  rw [condExprToSepolExprHelper, ht]
  simp only [mentioned_cons, mentionedItem_op, mentioned_nil, List.nil_append, List.append_nil,
    if_neg ho]
  have hleft := fun h => (hi h).weaken fun hm =>
    hm.mono (List.subset_append_left (mentionedItem i) (mentionedItem j))
  have hright := fun h => (hj h).weaken fun hm =>
    hm.mono (List.subset_append_right (mentionedItem i) (mentionedItem j))
  refine (hleft (Heap.allocated h ⟨t, 0⟩)).bind fun r₁ h₁ hpost₁ =>
    (hright h₁).bind fun r₂ h₂ hpost₂ => ?_
  obtain ⟨x, ⟨hx, hyieldsx⟩, hmade₁⟩ := hpost₁
  obtain ⟨y, ⟨hy, hyieldsy⟩, hmade₂⟩ := hpost₂
  refine ⟨.binary ⟨t, 0⟩ x y, ⟨exprTerm_binary bools ho ht hx hy, fun values => ?_⟩,
    hmade₁.binary hmade₂⟩
  rw [truth, truths, truths, truths, heq]
  exact .binary (hyieldsx values) (hyieldsy values) (evalCell_binary ho ht 0 _ _)

/-- The loop over the other items: what it adds to the list is or-ed to what the list stands
for. -/
private theorem condItems_ends {l : List (Item δ)} (hl : ∀ i ∈ l, ItemCompiles bools i)
    {lo head t₁ : Nat} {x : Term CondExpr} {a : (Nat → Bool) → Bool} {h : Heap CondExpr}
    (hx : ∀ values, Yields (evalCell values) x (a values))
    (hgrown : Heap.Grown lo head x.flatten t₁ h) :
    Ends (Missing bools (mentioned l))
      (fun t h' => Heap.Agree 0 lo h h' ∧ ∃ y, restTerm bools x l = some y ∧
        Heap.Grown lo head y.flatten t h' ∧
        ∀ values, Yields (evalCell values) y
          (a values || (truths (valueOf bools values) l).any id))
      (condItems bools t₁ l h) := by
  induction l generalizing t₁ x a h with
  | nil =>
    simp only [condItems, truths, List.any_nil, Bool.or_false]
    exact ends_pure ⟨Heap.Agree.refl 0 lo h, x, by rw [restTerm], hgrown, hx⟩
  | cons i rest ih =>
    have hmissing : ∀ {ds}, ds ⊆ mentioned (i :: rest) → Missing bools ds →
        Missing bools (mentioned (i :: rest)) := fun hsub hm => hm.mono hsub
    have hitem := (hl i List.mem_cons_self h).weaken
      (hmissing (by rw [mentioned_cons]; exact List.subset_append_left _ _))
    rw [condItems]
    refine hitem.bind fun r h₁ hpost => ?_
    obtain ⟨y, ⟨hterm, hy⟩, hmade⟩ := hpost
    obtain ⟨hgrown', hagree⟩ := hgrown.binary (x := ⟨.or, 0⟩) hmade
    have hor : ∀ values, Yields (evalCell values) (.binary ⟨.or, 0⟩ x y)
        (a values || truthItem (valueOf bools values) i) :=
      fun values => .binary (hx values) (hy values) fun stack => rfl
    have hloop := ih (fun j hj => hl j (List.mem_cons_of_mem i hj)) hor hgrown'
    refine (hloop.weaken (hmissing ?_)).imp fun t h' hpost => ?_
    · rw [mentioned_cons]
      exact List.subset_append_right _ _
    · obtain ⟨hagree', z, hz, hgrown'', hyields⟩ := hpost
      refine ⟨hagree.trans hagree', z, by rw [restTerm, hterm]; exact hz, hgrown'', ?_⟩
      intro values
      have htruth := hyields values
      rw [Bool.or_assoc] at htruth
      rw [truths, List.any_cons]
      exact htruth

private theorem plain_compiles {i : Item δ} {rest : List (Item δ)} (hop : ∀ o, i ≠ .op o)
    (hi : ItemCompiles bools i) (hrest : ∀ j ∈ rest, ItemCompiles bools j) :
    Compiles bools (i :: rest) := by
  intro h
  have hstep : condExprToSepolExprHelper bools (i :: rest) = (do
      let (h1, t1) ← condItemToSepolExpr bools i
      let t1 ← condItems bools t1 rest
      pure (h1, t1)) := by
    rw [condExprToSepolExprHelper]
    all_goals simp [hop]
  rw [hstep, mentioned_cons]
  refine ((hi h).weaken fun hm => hm.mono (List.subset_append_left _ _)).bind
    fun r h₁ hpost => ?_
  obtain ⟨x, ⟨hterm, hx⟩, hmade⟩ := hpost
  have hloop := condItems_ends hrest hx ⟨hmade.size, hmade.seg⟩
  refine (hloop.weaken fun hm => hm.mono (List.subset_append_right _ _)).bind
    fun t h' hpost => ends_pure ?_
  obtain ⟨hagree, y, hy, hgrown, hyields⟩ := hpost
  refine ⟨y, ⟨?_, fun values => ?_⟩, hmade.below.trans hagree, hgrown.size, hgrown.seg⟩
  · rw [exprTerm_plain bools rest hop, hterm]
    exact hy
  · rw [truth_cons rest hop]
    exact hyields values

/-- Expressions of the right shape compile to the lists of their terms. -/
theorem compiles_of_shaped (l : List (Item δ)) (hl : shaped .bool l = true) :
    Compiles bools l := by
  refine shaped_induction (P := Compiles bools) (Q := ItemCompiles bools)
    datum_compiles ?list (fun _ => not_compiles) ?binary (fun _ _ => plain_compiles) l hl
  case list =>
    intro l ih h
    simp only [condItemToSepolExpr, ItemMeans, itemTerm, truthItem, mentionedItem]
    exact ih h
  case binary => exact fun o i j ho heq hoperands => binary_compiles ho heq hoperands

end Compiled

section Agreement

variable {δ : Type} (bools : δ → Option Nat)

/-- From the cell `head` one list is read, and for all values of the booleans it leaves on a
stack one value, the one that `b` has for them. -/
def LeavesOne (h : Heap CondExpr) (head : Nat) (b : (Nat → Bool) → Bool) : Prop :=
  ∃ L, h.contents h.size head = L ∧ ∀ values, evalCells values L [] = some [b values]

/-- An expression of the right shape is compiled to a list that leaves its truth. -/
theorem leavesOne_of_shaped {expr : List (Item δ)} (hshaped : shaped .bool expr = true)
    (h : Heap CondExpr) :
    Ends (∃ d ∈ mentioned expr, bools d = none)
      (fun head h' => LeavesOne h' head fun values => truth (valueOf bools values) expr)
      (condExprToSepolExpr bools expr h) := by
  have hcompiles : Compiles bools expr := compiles_of_shaped expr hshaped
  refine (hcompiles h).bind fun r h' hpost => ends_pure ?_
  obtain ⟨t, ⟨-, hyields⟩, -, hsize, hseg⟩ := hpost
  refine ⟨t.flatten, hseg.contents_eq h'.size (by omega), fun values => ?_⟩
  rw [evalCells_eq_run]
  exact (hyields values).run []

/-- A conditional expression that the builder accepts is compiled to a postfix list that leaves
its truth, unless a boolean is not in the table; as an expression over tunables it is built in
the same way and evaluates to the same. -/
theorem genExpr_compiled (get : String → Option δ) (node : ParseNode)
    (hnode : node.isString = true ∨ node.isList = true) (strExpr : List (Item String))
    (hbuild : genExpr .bool node = some strExpr) (expr : List (Item δ))
    (hresolve : resolveItems get strExpr = some expr) (h : Heap CondExpr) :
    Ends (∃ d ∈ mentioned expr, bools d = none)
        (fun head h' => LeavesOne h' head fun values => truth (valueOf bools values) expr)
        (condExprToSepolExpr bools expr h) ∧
      genExpr .tunable node = some strExpr ∧
      ∀ values, evaluateTunableExpr (valueOf bools values) expr =
        some (truth (valueOf bools values) expr) := by
  have hshaped := resolveItems_shaped strExpr expr hresolve (genExpr_shaped hnode hbuild)
  exact ⟨leavesOne_of_shaped bools hshaped h, genExpr_tunable hbuild,
    fun values => evaluateTunableExpr_eq expr hshaped⟩

end Agreement

section Nested

/-- `(and (not a) (b c))` as it is parsed. -/
def andNot : ParseNode :=
  .list [.string "and", .list [.string "not", .string "a"], .list [.string "b", .string "c"]]

def andNotExpr : List (Item String) :=
  [.op .and, .list [.op .not, .datum "a"], .list [.datum "b", .datum "c"]]

/-- The booleans of the expression. -/
def boolNumber (s : String) : Option Nat := ["a", "b", "c"].idxOf? s

theorem andNot_compiled :
    Ends (∃ d ∈ mentioned andNotExpr, boolNumber d = none)
        (fun head h' => LeavesOne h' head fun values =>
          truth (valueOf boolNumber values) andNotExpr)
        (condExprToSepolExpr boolNumber andNotExpr ⟨fun _ => ⟨.bool, 0⟩, fun _ => none, 0⟩) ∧
      genExpr .tunable andNot = some andNotExpr ∧
      ∀ values, evaluateTunableExpr (valueOf boolNumber values) andNotExpr =
        some (truth (valueOf boolNumber values) andNotExpr) :=
  genExpr_compiled boolNumber some andNot (Or.inr rfl) andNotExpr rfl andNotExpr rfl _

example : truth (valueOf boolNumber fun v => v == 2) andNotExpr = true := by decide

end Nested

end Cil.Binary.Postfix
