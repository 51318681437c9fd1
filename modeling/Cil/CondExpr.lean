/- Cil/CondExpr
   digest: The truth of conditional expressions, and the evaluation of those over tunables. -/

import Cil.Build.Expr
import Cil.ExprResolution

set_option autoImplicit false
set_option relaxedAutoImplicit false

namespace Cil.CondExpr

open Cil.Expr Cil.Build

section Truth

variable {δ : Type} (value : δ → Bool)

/-- The truth of an operator applied to operands. -/
def truthOp : Op → List Bool → Bool
  | .not, [a] => !a
  | .and, [a, b] => a && b
  | .or, [a, b] => a || b
  | .xor, [a, b] => a ^^ b
  | .eq, [a, b] => a == b
  | .neq, [a, b] => a != b
  | _, _ => false

mutual

/-- The truth of an expression: a list without operator is true when one of its items is. -/
def truth : List (Item δ) → Bool
  | [] => false
  | .op o :: rest => truthOp o (truths rest)
  | i :: rest => truthItem i || (truths rest).any id

def truths : List (Item δ) → List Bool
  | [] => []
  | i :: rest => truthItem i :: truths rest

def truthItem : Item δ → Bool
  | .datum d => value d
  | .list l => truth l
  | _ => false

end

end Truth

section Tunables

variable {δ : Type} (value : δ → Bool)

/-- What `__cil_evaluate_tunable_expr` makes of the values of two operands. -/
def binary (o : Op) (v1 v2 : Bool) : Bool :=
  match o with
  | .and => v1 && v2
  | .or => v1 || v2
  | .xor => v1 ^^ v2
  | .eq => v1 == v2
  | .neq => v1 != v2
  | _ => false

mutual

/-- `__cil_evaluate_tunable_expr`; `none` where a null pointer is followed. -/
def evaluateTunableExpr : List (Item δ) → Option Bool
  | [] => some false
  | .op .not :: [] => some true
  | .op .not :: i :: _ => (evaluateTunableExprHelper i).map not
  | .op _ :: [] => none
  | .op o :: i :: [] => (evaluateTunableExprHelper i).map fun v1 => binary o v1 false
  | .op o :: i :: j :: _ => do
      let v1 ← evaluateTunableExprHelper i
      let v2 ← evaluateTunableExprHelper j
      pure (binary o v1 v2)
  | i :: rest => do
      let v ← evaluateTunableExprHelper i
      if v then pure v else evaluateTunableLoop rest

/-- The loop over a list without operator. -/
def evaluateTunableLoop : List (Item δ) → Option Bool
  | [] => some false
  | i :: rest => do
      let v ← evaluateTunableExprHelper i
      if v then pure v else evaluateTunableLoop rest

/-- `__cil_evaluate_tunable_expr_helper`. -/
def evaluateTunableExprHelper : Item δ → Option Bool
  | .datum d => some (value d)
  | .list l => evaluateTunableExpr l
  | _ => some false

end

end Tunables

section Shapes

variable {δ : Type} {flavor : ExprFlavor}

/-- The operators of a conditional expression have one operand or two. -/
private theorem shaped_op_cases {o : Op} {rest : List (Item δ)}
    (h : shaped .bool (.op o :: rest) = true) :
    (∃ i, o = .not ∧ rest = [i] ∧ shapedItem .bool i = true) ∨
      ∃ i j, o ≠ .not ∧ rest = [i, j] ∧ shapedItem .bool i = true ∧ shapedItem .bool j = true ∧
        ∀ a b, truthOp o [a, b] = binary o a b := by
  rw [shaped, Bool.and_eq_true, decide_eq_true_eq] at h
  obtain ⟨hcount, hitems⟩ := h
  have htwo : some 2 = some rest.length → ∃ i j, rest = [i, j] ∧ shapedItem .bool i = true ∧
      shapedItem .bool j = true := by
    intro hlen
    obtain ⟨i, j, rfl⟩ := List.length_eq_two.mp (Option.some.inj hlen).symm
    rw [shapedItems, shapedItems, Bool.and_eq_true, Bool.and_eq_true] at hitems
    exact ⟨i, j, rfl, hitems.1, hitems.2.1⟩
  cases o with
  | not =>
    obtain ⟨i, rfl⟩ := List.length_eq_one_iff.mp (Option.some.inj hcount).symm
    rw [shapedItems, Bool.and_eq_true] at hitems
    exact Or.inl ⟨i, rfl, rfl, hitems.1⟩
  | and =>
    obtain ⟨i, j, rfl, hi, hj⟩ := htwo hcount
    exact Or.inr ⟨i, j, by simp, rfl, hi, hj, fun a b => rfl⟩
  | or =>
    obtain ⟨i, j, rfl, hi, hj⟩ := htwo hcount
    exact Or.inr ⟨i, j, by simp, rfl, hi, hj, fun a b => rfl⟩
  | xor =>
    obtain ⟨i, j, rfl, hi, hj⟩ := htwo hcount
    exact Or.inr ⟨i, j, by simp, rfl, hi, hj, fun a b => rfl⟩
  | eq =>
    obtain ⟨i, j, rfl, hi, hj⟩ := htwo hcount
    exact Or.inr ⟨i, j, by simp, rfl, hi, hj, fun a b => rfl⟩
  | neq =>
    obtain ⟨i, j, rfl, hi, hj⟩ := htwo hcount
    exact Or.inr ⟨i, j, by simp, rfl, hi, hj, fun a b => rfl⟩
  | all => simp [operands] at hcount
  | range => simp [operands] at hcount

/-- A list without operator is a first item and others. -/
private theorem shaped_cons_cases {i : Item δ} {rest : List (Item δ)} (hi : ∀ o, i ≠ .op o)
    (h : shaped flavor (i :: rest) = true) :
    shapedItem flavor i = true ∧ shapedItems flavor rest = true := by
  rw [shaped, Bool.and_eq_true] at h
  · exact h
  · simp [hi]

theorem truth_cons {value : δ → Bool} {i : Item δ} (rest : List (Item δ)) (hi : ∀ o, i ≠ .op o) :
    truth value (i :: rest) = (truthItem value i || (truths value rest).any id) := by
  rw [truth]
  simp [hi]

end Shapes

section Induction

variable {δ : Type} {P : List (Item δ) → Prop} {Q : Item δ → Prop}

/-- Induction over the conditional expressions that the builder accepts. -/
theorem shaped_induction (datum : ∀ d, Q (.datum d)) (list : ∀ l, P l → Q (.list l))
    (unary : ∀ i, Q i → P [.op .not, i])
    (binary : ∀ o i j, o ≠ .not → (∀ a b, truthOp o [a, b] = CondExpr.binary o a b) →
      operands .bool o = some 2 → Q i → Q j → P [.op o, i, j])
    (plain : ∀ i rest, (∀ o, i ≠ .op o) → Q i → (∀ j ∈ rest, Q j) → P (i :: rest))
    (l : List (Item δ)) (h : shaped .bool l = true) : P l := by
  revert h
  refine shaped.induct (fun l => shaped .bool l = true → P l)
    (fun i => shapedItem .bool i = true → Q i)
    (fun l => shapedItems .bool l = true → ∀ i ∈ l, Q i)
    ?datum ?list ?other ?nil ?op ?plain ?done ?cons l
  case datum => exact fun d _ => datum d
  case list =>
    intro l ih h
    rw [shapedItem] at h
    exact list l (ih h)
  case other =>
    intro i hdatum hlist h
    rw [shapedItem] at h
    · cases h
    all_goals assumption
  case nil =>
    intro h
    simp [shaped] at h
  case op =>
    intro o rest ih h
    have hitems := h
    rw [shaped, Bool.and_eq_true, decide_eq_true_eq] at hitems
    have hall := ih hitems.2
    obtain ⟨i, rfl, rfl, -⟩ | ⟨i, j, ho, rfl, -, -, heq⟩ := shaped_op_cases h
    · exact unary i (hall i (by simp))
    · exact binary o i j ho heq hitems.1 (hall i (by simp)) (hall j (by simp))
  case plain =>
    intro i rest hi hQ hrest h
    obtain ⟨hfirst, hothers⟩ := shaped_cons_cases (fun o heq => hi o heq) h
    exact plain i rest (fun o heq => hi o heq) (hQ hfirst) (hrest hothers)
  case done => simp
  case cons =>
    intro i rest hi hrest h j hj
    rw [shapedItems, Bool.and_eq_true] at h
    rcases List.mem_cons.mp hj with rfl | hj
    · exact hi h.1
    · exact hrest h.2 j hj

end Induction

section Evaluated

variable {δ : Type} {value : δ → Bool}

/-- The loop looks for an item that is true. -/
private theorem evaluateTunableLoop_eq {l : List (Item δ)}
    (h : ∀ i ∈ l, evaluateTunableExprHelper value i = some (truthItem value i)) :
    evaluateTunableLoop value l = some ((truths value l).any id) := by
  induction l with
  | nil => rw [evaluateTunableLoop, truths]; rfl
  | cons i rest ih =>
    have hrest := ih fun j hj => h j (List.mem_cons_of_mem i hj)
    rw [evaluateTunableLoop, h i List.mem_cons_self, truths]
    cases hi : truthItem value i with
    | true => rfl
    | false => exact hrest

/-- The evaluation of an expression of the right shape is its truth. -/
theorem evaluateTunableExpr_eq (l : List (Item δ)) (h : shaped .bool l = true) :
    evaluateTunableExpr value l = some (truth value l) := by
  refine shaped_induction
    (P := fun l => evaluateTunableExpr value l = some (truth value l))
    (Q := fun i => evaluateTunableExprHelper value i = some (truthItem value i))
    ?datum ?list ?unary ?binary ?plain l h
  case datum =>
    intro d
    rw [evaluateTunableExprHelper, truthItem]
  case list =>
    intro l ih
    rw [evaluateTunableExprHelper, truthItem]
    exact ih
  case unary =>
    intro i hi
    rw [evaluateTunableExpr, hi, truth, truths, truths, truthOp]
    rfl
  case binary =>
    intro o i j ho heq _ hi hj
    have hstep : evaluateTunableExpr value [.op o, i, j] = some (CondExpr.binary o
        (truthItem value i) (truthItem value j)) := by
      rw [evaluateTunableExpr, hi, hj]
      · rfl
      all_goals simp [ho]
    rw [hstep, truth, truths, truths, truths, heq]
  case plain =>
    intro i rest hop hi hrest
    have hloop : evaluateTunableExpr value (i :: rest) = evaluateTunableLoop value (i :: rest) := by
      rw [evaluateTunableLoop, evaluateTunableExpr]
      all_goals simp [hop]
    rw [hloop, truth_cons rest hop]
    apply evaluateTunableLoop_eq
    intro j hj
    rcases List.mem_cons.mp hj with rfl | hj
    · exact hi
    · exact hrest j hj

end Evaluated

section Resolved

variable {δ ε : Type} {get : δ → Option ε} {flavor : ExprFlavor}

/-- Resolution keeps the shape of an expression. -/
theorem resolveItems_shaped (l : List (Item δ)) (l' : List (Item ε))
    (h : resolveItems get l = some l') (hl : shaped flavor l = true) : shaped flavor l' = true := by
  revert l'
  revert hl
  refine shaped.induct
    (fun l => shaped flavor l = true → ∀ l', resolveItems get l = some l' →
      shaped flavor l' = true)
    (fun i => shapedItem flavor i = true → ∀ i', resolveItem get i = some i' →
      shapedItem flavor i' = true)
    (fun l => shapedItems flavor l = true → ∀ l', resolveItems get l = some l' →
      shapedItems flavor l' = true)
    ?datum ?list ?other ?nil ?op ?plain ?done ?cons l
  case datum =>
    intro d _ i' h
    obtain ⟨p, -, rfl⟩ := resolveItem_datum h
    rw [shapedItem]
  case list =>
    intro l ih hl i' h
    obtain ⟨l', hl', rfl⟩ := resolveItem_list h
    rw [shapedItem] at hl ⊢
    exact ih hl l' hl'
  case other =>
    intro i hdatum hlist hl
    rw [shapedItem] at hl
    · cases hl
    all_goals assumption
  case nil =>
    intro hl
    simp [shaped] at hl
  case op =>
    intro o rest ih hl l' h
    obtain ⟨rest', rfl, hrest⟩ := resolveItems_op h
    rw [shaped, Bool.and_eq_true, decide_eq_true_eq] at hl ⊢
    rw [resolveItems_length hrest]
    exact ⟨hl.1, ih hl.2 rest' hrest⟩
  case plain =>
    intro i rest hop ihi ihrest hl l' h
    obtain ⟨i', rest', rfl, hi, hrest⟩ := resolveItems_cons h
    have hop' : ∀ o, i' ≠ .op o := by
      intro o heq
      rw [heq] at hi
      exact hop o (resolveItem_eq_op hi)
    obtain ⟨hfirst, hothers⟩ := shaped_cons_cases (fun o heq => hop o heq) hl
    rw [shaped, Bool.and_eq_true]
    · exact ⟨ihi hfirst i' hi, ihrest hothers rest' hrest⟩
    · simp [hop']
  case done =>
    intro _ l' h
    rw [resolveItems_nil h, shapedItems]
  case cons =>
    intro i rest ihi ihrest hl l' h
    obtain ⟨i', rest', rfl, hi, hrest⟩ := resolveItems_cons h
    rw [shapedItems, Bool.and_eq_true] at hl ⊢
    exact ⟨ihi hl.1 i' hi, ihrest hl.2 rest' hrest⟩

end Resolved

end Cil.CondExpr
