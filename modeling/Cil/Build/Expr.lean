/- Cil/Build/Expr
   digest: Expressions are built from parse trees, and have the shape their operators want. -/

import Mathlib.Data.List.Basic
import Cil.Build.Syntax
import Cil.Expr

set_option autoImplicit false
set_option relaxedAutoImplicit false

namespace Cil.Build

open Cil.Expr

/-- The flavors of expressions that are told apart: boolean, tunable, category and other set
expressions. -/
inductive ExprFlavor
  | bool
  | tunable
  | cat
  | other
  deriving DecidableEq, Repr

/-- `__cil_get_expr_operator_flavor`, `none` for `CIL_NONE`. -/
def exprOperatorFlavor : Option String → Option Op
  | some "and" => some .and
  | some "or" => some .or
  | some "not" => some .not
  | some "eq" => some .eq
  | some "neq" => some .neq
  | some "xor" => some .xor
  | some "all" => some .all
  | some "range" => some .range
  | _ => none

def stringSyn : Syn := { string := true }

def operandSyn : Syn := { string := true, list := true }

def endSyn : Syn := { stop := true }

/-- `cil_verify_expr_syntax`. -/
def verifyExprSyntax (nodes : List ParseNode) (op : Option Op) (flavor : ExprFlavor) : Bool :=
  match op with
  | some .not => verifySyntax [stringSyn, operandSyn, endSyn] nodes
  | some .and | some .or | some .xor =>
      verifySyntax [stringSyn, operandSyn, operandSyn, endSyn] nodes
  | some .eq | some .neq =>
      (flavor == .bool || flavor == .tunable) &&
        verifySyntax [stringSyn, operandSyn, operandSyn, endSyn] nodes
  | some .all =>
      !(flavor == .bool || flavor == .tunable) && verifySyntax [stringSyn, endSyn] nodes
  | some .range =>
      flavor == .cat && verifySyntax [stringSyn, stringSyn, stringSyn, endSyn] nodes
  | none => verifySyntax [{ nStrings := true, nLists := true }, endSyn] nodes

/-- `COND_EXPR_MAXDEPTH`. -/
def condExprMaxdepth : Int := 10

/-- What `__cil_fill_expr_helper` does around its loop, which goes over all nodes, or over those
after the operator. -/
def aroundLoop (flavor : ExprFlavor) (depth : Int) (nodes : List ParseNode)
    (all afterOperator : Int → Option (List (Item String) × Int)) :
    Option (List (Item String) × Int) :=
  if flavor = .bool ∧ depth > condExprMaxdepth then none
  else
    let op := exprOperatorFlavor (nodes.head?.bind ParseNode.data)
    if verifyExprSyntax nodes op flavor then
      match op with
      | none => (all (depth + 1)).map fun r => (r.1, r.2 - 1)
      | some o =>
          (afterOperator (if o = .all then depth + 1 else depth)).map fun r =>
            (.op o :: r.1, r.2 - 1)
    else none

mutual

/-- `__cil_fill_expr`; it returns the item and the depth. -/
def fillExpr (flavor : ExprFlavor) (depth : Int) : ParseNode → Option (Item String × Int)
  | .string s => if exprOperatorFlavor (some s) = none then some (.datum s, depth) else none
  | .list [] => some (.other, depth)
  | .list (c :: rest) =>
      (aroundLoop flavor depth (c :: rest)
        (fun depth => fillItems flavor depth (c :: rest))
        (fun depth => fillItems flavor depth rest)).map fun r => (.list r.1, r.2)

/-- The loop of `__cil_fill_expr_helper`. -/
def fillItems (flavor : ExprFlavor) (depth : Int) : List ParseNode →
    Option (List (Item String) × Int)
  | [] => some ([], depth)
  | c :: rest =>
      match fillExpr flavor depth c with
      | none => none
      | some (i, depth) => (fillItems flavor depth rest).map fun r => (i :: r.1, r.2)

end

/-- `__cil_fill_expr_helper`. -/
def fillExprHelper (flavor : ExprFlavor) (depth : Int) (nodes : List ParseNode) :
    Option (List (Item String) × Int) :=
  aroundLoop flavor depth nodes (fun depth => fillItems flavor depth nodes)
    (fun depth => fillItems flavor depth nodes.tail)

/-- `cil_gen_expr`. -/
def genExpr (flavor : ExprFlavor) : ParseNode → Option (List (Item String))
  | .list (c :: rest) => (fillExprHelper flavor 0 (c :: rest)).map Prod.fst
  | node => (fillExpr flavor 0 node).map fun r => [r.1]

/-- How many operands an operator takes in an expression of the flavor. -/
def operands (flavor : ExprFlavor) : Op → Option Nat
  | .not => some 1
  | .and | .or | .xor => some 2
  | .eq | .neq => if flavor = .bool ∨ flavor = .tunable then some 2 else none
  | .all => if flavor = .bool ∨ flavor = .tunable then none else some 0
  | .range => if flavor = .cat then some 2 else none

section Shape

variable {δ : Type} (flavor : ExprFlavor)

mutual

/-- An operator with its operands, or a list of items. -/
def shaped : List (Item δ) → Bool
  | [] => false
  | .op o :: rest => decide (operands flavor o = some rest.length) && shapedItems rest
  | i :: rest => shapedItem i && shapedItems rest

def shapedItems : List (Item δ) → Bool
  | [] => true
  | i :: rest => shapedItem i && shapedItems rest

def shapedItem : Item δ → Bool
  | .datum _ => true
  | .list l => shaped l
  | _ => false

end

end Shape

/-- Strings and lists that are not empty. -/
def Filled (c : ParseNode) : Prop := c.isString = true ∨ c.isList = true

section Verified

variable {flavor : ExprFlavor} {nodes : List ParseNode}

private theorem filled_of_takes {c : ParseNode} (h : operandSyn.takes c = true) : Filled c := by
  simpa [operandSyn, Syn.takes, Filled] using h

private theorem filled_of_takes_string {c : ParseNode} (h : stringSyn.takes c = true) :
    Filled c := by
  left
  simpa [stringSyn, Syn.takes] using h

/-- One node, and the rest as `next` has it. -/
theorem verifyElements_cons {s : Syn} {rest : List Syn} {extras : Nat}
    (hs : s.nLists = false ∧ s.nStrings = false ∧ s.stop = false)
    (h : verifyElements (s :: rest) extras nodes = true) :
    ∃ c nodes', nodes = c :: nodes' ∧ s.takes c = true ∧ verifyElements rest extras nodes' = true :=
  (verifyElement_one hs).mp h

theorem verifyElements_end {extras : Nat} (h : verifyElements [endSyn] extras nodes = true) :
    nodes = [] :=
  verifyElement_stop.mp h

/-- After the operator there are as many operands as it takes. -/
theorem verifyExprSyntax_op {o : Op} (h : verifyExprSyntax nodes (some o) flavor = true) :
    ∃ c rest, nodes = c :: rest ∧ operands flavor o = some rest.length ∧ ∀ x ∈ rest, Filled x := by
  have hstring : stringSyn.nLists = false ∧ stringSyn.nStrings = false ∧ stringSyn.stop = false :=
    ⟨rfl, rfl, rfl⟩
  have hoperand : operandSyn.nLists = false ∧ operandSyn.nStrings = false ∧
      operandSyn.stop = false := ⟨rfl, rfl, rfl⟩
  have hnone : verifySyntax [stringSyn, endSyn] nodes = true → ∃ c, nodes = [c] := by
    intro h
    obtain ⟨c, l, rfl, -, h⟩ := verifyElements_cons hstring h
    exact ⟨c, by rw [verifyElements_end h]⟩
  have hone : verifySyntax [stringSyn, operandSyn, endSyn] nodes = true →
      ∃ c x, nodes = [c, x] ∧ Filled x := by
    intro h
    obtain ⟨c, l, rfl, -, h⟩ := verifyElements_cons hstring h
    obtain ⟨x, l, rfl, hx, h⟩ := verifyElements_cons hoperand h
    exact ⟨c, x, by rw [verifyElements_end h], filled_of_takes hx⟩
  have htwo : verifySyntax [stringSyn, operandSyn, operandSyn, endSyn] nodes = true →
      ∃ c x y, nodes = [c, x, y] ∧ Filled x ∧ Filled y := by
    intro h
    obtain ⟨c, l, rfl, -, h⟩ := verifyElements_cons hstring h
    obtain ⟨x, l, rfl, hx, h⟩ := verifyElements_cons hoperand h
    obtain ⟨y, l, rfl, hy, h⟩ := verifyElements_cons hoperand h
    exact ⟨c, x, y, by rw [verifyElements_end h], filled_of_takes hx, filled_of_takes hy⟩
  have hrange : verifySyntax [stringSyn, stringSyn, stringSyn, endSyn] nodes = true →
      ∃ c x y, nodes = [c, x, y] ∧ Filled x ∧ Filled y := by
    intro h
    obtain ⟨c, l, rfl, -, h⟩ := verifyElements_cons hstring h
    obtain ⟨x, l, rfl, hx, h⟩ := verifyElements_cons hstring h
    obtain ⟨y, l, rfl, hy, h⟩ := verifyElements_cons hstring h
    exact ⟨c, x, y, by rw [verifyElements_end h], filled_of_takes_string hx,
      filled_of_takes_string hy⟩
  have hpair : (∃ c x y, nodes = [c, x, y] ∧ Filled x ∧ Filled y) → operands flavor o = some 2 →
      ∃ c rest, nodes = c :: rest ∧ operands flavor o = some rest.length ∧
        ∀ x ∈ rest, Filled x := by
    intro h ho
    obtain ⟨c, x, y, rfl, hx, hy⟩ := h
    exact ⟨c, [x, y], rfl, ho, by simp [hx, hy]⟩
  cases o with
  | not =>
    obtain ⟨c, x, rfl, hx⟩ := hone h
    exact ⟨c, [x], rfl, rfl, by simp [hx]⟩
  | and => exact hpair (htwo h) rfl
  | or => exact hpair (htwo h) rfl
  | xor => exact hpair (htwo h) rfl
  | eq =>
    simp only [verifyExprSyntax, Bool.and_eq_true, Bool.or_eq_true, beq_iff_eq] at h
    exact hpair (htwo h.2) (if_pos h.1)
  | neq =>
    simp only [verifyExprSyntax, Bool.and_eq_true, Bool.or_eq_true, beq_iff_eq] at h
    exact hpair (htwo h.2) (if_pos h.1)
  | all =>
    simp only [verifyExprSyntax, Bool.and_eq_true, Bool.not_eq_true', Bool.or_eq_false_iff,
      beq_eq_false_iff_ne] at h
    obtain ⟨c, rfl⟩ := hnone h.2
    exact ⟨c, [], rfl, if_neg (by simp [h.1]), by simp⟩
  | range =>
    simp only [verifyExprSyntax, Bool.and_eq_true, beq_iff_eq] at h
    exact hpair (hrange h.2) (if_pos h.1)

theorem verifyExprSyntax_none (h : verifyExprSyntax nodes none flavor = true) :
    nodes ≠ [] ∧ ∀ x ∈ nodes, Filled x := by
  obtain ⟨hall, hne⟩ := verifyElement_all ⟨rfl, rfl, rfl, rfl⟩ nodes 0 h
  refine ⟨fun hnil => absurd (hne hnil) (by omega), ?_⟩
  intro x hx
  have hrepeats := hall x hx
  simpa [Syn.repeats, Filled, or_comm] using hrepeats

end Verified

section Shaped

variable {flavor : ExprFlavor}

/-- What a successful helper has checked, and what its loop returned. -/
private theorem aroundLoop_cases {depth depth' : Int} {nodes : List ParseNode}
    {all afterOperator : Int → Option (List (Item String) × Int)} {l : List (Item String)}
    (h : aroundLoop flavor depth nodes all afterOperator = some (l, depth')) :
    (nodes ≠ [] ∧ (∀ x ∈ nodes, Filled x) ∧ ∃ d d', all d = some (l, d')) ∨
      ∃ o c rest items d d', nodes = c :: rest ∧ operands flavor o = some rest.length ∧
        (∀ x ∈ rest, Filled x) ∧ l = .op o :: items ∧ afterOperator d = some (items, d') := by
  unfold aroundLoop at h
  split_ifs at h
  dsimp only at h
  split_ifs at h with hverify
  cases hop : exprOperatorFlavor (nodes.head?.bind ParseNode.data) with
  | none =>
    rw [hop] at h hverify
    obtain ⟨r, hr, heq⟩ := Option.map_eq_some_iff.mp h
    cases heq
    obtain ⟨hne, hfilled⟩ := verifyExprSyntax_none hverify
    exact Or.inl ⟨hne, hfilled, _, r.2, hr⟩
  | some o =>
    rw [hop] at h hverify
    obtain ⟨r, hr, heq⟩ := Option.map_eq_some_iff.mp h
    cases heq
    obtain ⟨c, rest, rfl, hoperands, hfilled⟩ := verifyExprSyntax_op hverify
    exact Or.inr ⟨o, c, rest, r.1, _, r.2, rfl, hoperands, hfilled, rfl, hr⟩

/-- The loop gives one item for each node, none of them an operator. -/
structure ItemsShaped (flavor : ExprFlavor) (nodes : List ParseNode) (l : List (Item String)) :
    Prop where
  length : l.length = nodes.length
  shaped : shapedItems flavor l = true

private theorem shaped_of_items {l : List (Item String)} (hne : l ≠ [])
    (h : shapedItems flavor l = true) : shaped flavor l = true := by
  cases l with
  | nil => exact absurd rfl hne
  | cons i rest =>
    rw [shapedItems] at h
    cases i with
    | op o => simp [shapedItem] at h
    | datum s =>
      rw [shaped]
      · exact h
      · simp
    | list l =>
      rw [shaped]
      · exact h
      · simp
    | other => simp [shapedItem] at h

/-- What the helper returns has the shape that its operator wants, if the loop does its part. -/
private theorem shaped_of_aroundLoop {depth depth' : Int} {nodes : List ParseNode}
    {all afterOperator : Int → Option (List (Item String) × Int)} {l : List (Item String)}
    (hall : ∀ d l d', (∀ x ∈ nodes, Filled x) → all d = some (l, d') →
      ItemsShaped flavor nodes l)
    (hafter : ∀ d l d', (∀ x ∈ nodes.tail, Filled x) → afterOperator d = some (l, d') →
      ItemsShaped flavor nodes.tail l)
    (h : aroundLoop flavor depth nodes all afterOperator = some (l, depth')) :
    shaped flavor l = true := by
  rcases aroundLoop_cases h with ⟨hne, hfilled, d, d', hloop⟩ |
    ⟨o, c, rest, items, d, d', rfl, hoperands, hfilled, rfl, hloop⟩
  · obtain ⟨hlength, hshaped⟩ := hall d l d' hfilled hloop
    apply shaped_of_items _ hshaped
    rintro rfl
    exact hne (List.length_eq_zero_iff.mp hlength.symm)
  · obtain ⟨hlength, hshaped⟩ := hafter d items d' hfilled hloop
    rw [shaped, Bool.and_eq_true, decide_eq_true_eq, hlength]
    exact ⟨hoperands, hshaped⟩

/-- The loop over these nodes does its part. -/
def LoopShaped (flavor : ExprFlavor) (nodes : List ParseNode) : Prop :=
  ∀ depth l depth', (∀ x ∈ nodes, Filled x) → fillItems flavor depth nodes = some (l, depth') →
    ItemsShaped flavor nodes l

private theorem loopShaped_cons {c : ParseNode} {rest : List ParseNode}
    (hc : ∀ depth i depth', Filled c → fillExpr flavor depth c = some (i, depth') →
      shapedItem flavor i = true)
    (hrest : LoopShaped flavor rest) : LoopShaped flavor (c :: rest) := by
  intro depth l depth' hfilled h
  rw [fillItems] at h
  split at h
  · cases h
  · rename_i i d hi
    obtain ⟨r, hr, heq⟩ := Option.map_eq_some_iff.mp h
    cases heq
    obtain ⟨hlength, hshaped⟩ := hrest _ _ _ (fun x hx => hfilled x (List.mem_cons_of_mem c hx)) hr
    refine ⟨by simp [hlength], ?_⟩
    rw [shapedItems, Bool.and_eq_true]
    exact ⟨hc depth i d (hfilled c List.mem_cons_self) hi, hshaped⟩

/-- The loops over the nodes, and over all but the first, do their part. -/
private theorem loopsShaped (flavor : ExprFlavor) (nodes : List ParseNode) :
    LoopShaped flavor nodes ∧ LoopShaped flavor nodes.tail := by
  have hnil : LoopShaped flavor [] := by
    intro depth l depth' _ h
    rw [fillItems] at h
    cases h
    exact ⟨rfl, by rw [shapedItems]⟩
  refine @ParseNode.rec_1
    (fun c => ∀ depth i depth', Filled c → fillExpr flavor depth c = some (i, depth') →
      shapedItem flavor i = true)
    (fun nodes => LoopShaped flavor nodes ∧ LoopShaped flavor nodes.tail)
    ?string ?list ?nil ?cons nodes
  case string =>
    intro s depth i depth' _ h
    rw [fillExpr] at h
    split_ifs at h
    cases h
    rw [shapedItem]
  case list =>
    intro children ih depth i depth' hfilled h
    cases children with
    | nil => simp [Filled, ParseNode.isString, ParseNode.isList] at hfilled
    | cons c rest =>
      rw [fillExpr] at h
      obtain ⟨r, hr, heq⟩ := Option.map_eq_some_iff.mp h
      cases heq
      rw [shapedItem]
      exact shaped_of_aroundLoop (fun d l d' hf hl => ih.1 d l d' hf hl)
        (fun d l d' hf hl => ih.2 d l d' hf hl) hr
  case nil => exact ⟨hnil, hnil⟩
  case cons =>
    intro c rest hc hrest
    exact ⟨loopShaped_cons hc hrest.1, hrest.1⟩

/-- Whatever `cil_gen_expr` accepts of a string or a list that is not empty has the shape its
operators want. -/
theorem genExpr_shaped {node : ParseNode} (hfilled : Filled node) {e : List (Item String)}
    (h : genExpr flavor node = some e) : shaped flavor e = true := by
  cases node with
  | string s =>
    rw [genExpr, fillExpr] at h
    · split_ifs at h
      · cases h
        rfl
      · cases h
    · simp
  | list children =>
    cases children with
    | nil => simp [Filled, ParseNode.isString, ParseNode.isList] at hfilled
    | cons c rest =>
      rw [genExpr] at h
      obtain ⟨r, hr, heq⟩ := Option.map_eq_some_iff.mp h
      cases heq
      obtain ⟨hall, hafter⟩ := loopsShaped flavor (c :: rest)
      exact shaped_of_aroundLoop (fun d l d' hf hl => hall d l d' hf hl)
        (fun d l d' hf hl => hafter d l d' hf hl) hr

end Shaped

section Tunable

private theorem verifyExprSyntax_tunable (nodes : List ParseNode) (op : Option Op) :
    verifyExprSyntax nodes op .tunable = verifyExprSyntax nodes op .bool := by
  cases op with
  | none => rfl
  | some o => cases o <;> rfl

/-- The loop builds the same items for a tunable expression. -/
def SameItems (nodes : List ParseNode) : Prop :=
  ∀ depth l d depth', fillItems .bool depth nodes = some (l, d) →
    ∃ d', fillItems .tunable depth' nodes = some (l, d')

private theorem aroundLoop_tunable {nodes : List ParseNode} (depth' : Int) (hall : SameItems nodes)
    (hafter : SameItems nodes.tail) {depth d : Int} {l : List (Item String)}
    (h : aroundLoop .bool depth nodes (fun d => fillItems .bool d nodes)
      (fun d => fillItems .bool d nodes.tail) = some (l, d)) :
    ∃ d', aroundLoop .tunable depth' nodes (fun d => fillItems .tunable d nodes)
      (fun d => fillItems .tunable d nodes.tail) = some (l, d') := by
  unfold aroundLoop at h ⊢
  split_ifs at h
  rw [if_neg (by simp)]
  dsimp only at h ⊢
  rw [verifyExprSyntax_tunable]
  split_ifs at h with hverify
  rw [if_pos hverify]
  cases hop : exprOperatorFlavor (nodes.head?.bind ParseNode.data) with
  | none =>
    rw [hop] at h
    obtain ⟨r, hr, heq⟩ := Option.map_eq_some_iff.mp h
    cases heq
    obtain ⟨d', hd'⟩ := hall _ r.1 r.2 (depth' + 1) hr
    exact ⟨d' - 1, by dsimp only; rw [hd']; rfl⟩
  | some o =>
    rw [hop] at h
    obtain ⟨r, hr, heq⟩ := Option.map_eq_some_iff.mp h
    cases heq
    obtain ⟨d', hd'⟩ := hafter _ r.1 r.2 (if o = .all then depth' + 1 else depth') hr
    exact ⟨d' - 1, by dsimp only; rw [hd']; rfl⟩

private theorem sameItems (nodes : List ParseNode) : SameItems nodes ∧ SameItems nodes.tail := by
  have hnil : SameItems [] := by
    intro depth l d depth' h
    rw [fillItems] at h
    cases h
    exact ⟨depth', by rw [fillItems]⟩
  refine @ParseNode.rec_1
    (fun c => ∀ depth i d depth', fillExpr .bool depth c = some (i, d) →
      ∃ d', fillExpr .tunable depth' c = some (i, d'))
    (fun nodes => SameItems nodes ∧ SameItems nodes.tail)
    ?string ?list ?nil ?cons nodes
  case string =>
    intro s depth i d depth' h
    rw [fillExpr] at h ⊢
    split_ifs at h with hs
    cases h
    exact ⟨depth', if_pos hs⟩
  case list =>
    intro children ih depth i d depth' h
    cases children with
    | nil =>
      rw [fillExpr] at h
      cases h
      exact ⟨depth', by rw [fillExpr]⟩
    | cons c rest =>
      rw [fillExpr] at h ⊢
      obtain ⟨r, hr, heq⟩ := Option.map_eq_some_iff.mp h
      cases heq
      obtain ⟨d', hd'⟩ := aroundLoop_tunable depth' ih.1 ih.2 hr
      exact ⟨d', Option.map_eq_some_iff.mpr ⟨(r.1, d'), hd', rfl⟩⟩
  case nil => exact ⟨hnil, hnil⟩
  case cons =>
    intro c rest hc hrest
    refine ⟨?_, hrest.1⟩
    intro depth l d depth' h
    rw [fillItems] at h ⊢
    split at h
    · cases h
    · rename_i i d₁ hi
      obtain ⟨r, hr, heq⟩ := Option.map_eq_some_iff.mp h
      cases heq
      obtain ⟨d₂, hd₂⟩ := hc depth i d₁ depth' hi
      obtain ⟨d₃, hd₃⟩ := hrest.1 _ r.1 r.2 d₂ hr
      rw [hd₂]
      exact ⟨d₃, Option.map_eq_some_iff.mpr ⟨(r.1, d₃), hd₃, rfl⟩⟩

/-- What is accepted as a boolean expression is built in the same way as a tunable one. -/
theorem genExpr_tunable {node : ParseNode} {e : List (Item String)}
    (h : genExpr .bool node = some e) : genExpr .tunable node = some e := by
  cases node with
  | string s =>
    rw [genExpr, fillExpr] at h ⊢
    · exact h
    all_goals simp
  | list children =>
    cases children with
    | nil =>
      rw [genExpr, fillExpr] at h ⊢
      · exact h
      all_goals simp
    | cons c rest =>
      rw [genExpr] at h ⊢
      obtain ⟨r, hr, rfl⟩ := Option.map_eq_some_iff.mp h
      obtain ⟨hall, hafter⟩ := sameItems (c :: rest)
      obtain ⟨d', hd'⟩ := aroundLoop_tunable 0 hall hafter hr
      exact Option.map_eq_some_iff.mpr ⟨(r.1, d'), hd', rfl⟩

end Tunable

end Cil.Build
