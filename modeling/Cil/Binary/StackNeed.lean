/- Cil/Binary/StackNeed
   digest: How many values the evaluation of an accepted conditional expression holds. -/

import Cil.Binary.Postfix

set_option autoImplicit false
set_option relaxedAutoImplicit false

namespace Cil.Binary.Postfix

open Cil.Expr Cil.Build Cil.CondExpr Cil.Library Cil.Library.Postfix

section Written

mutual

/-- How many values the evaluation of a written expression holds: while an operand is evaluated,
the value of what stands before it waits. -/
def stackNeed : ParseNode → Nat
  | .string _ => 1
  | .list [] => 0
  | .list (c :: rest) =>
      match exprOperatorFlavor c.data with
      | none => max (stackNeed c) (stackNeedAfter rest)
      | some _ => stackNeedFirst rest

/-- The operands, or the items of a list without operator. -/
def stackNeedFirst : List ParseNode → Nat
  | [] => 0
  | c :: rest => max (stackNeed c) (stackNeedAfter rest)

/-- Those after the first one. -/
def stackNeedAfter : List ParseNode → Nat
  | [] => 0
  | c :: rest => max (stackNeed c + 1) (stackNeedAfter rest)

end

attribute [simp] stackNeed stackNeedFirst stackNeedAfter

end Written

section Items

variable {δ ε : Type}

mutual

/-- The same for an expression as it is stored. -/
def exprNeed : List (Item δ) → Nat
  | [] => 0
  | .op _ :: rest => needFirst rest
  | i :: rest => max (itemNeed i) (needAfter rest)

def needFirst : List (Item δ) → Nat
  | [] => 0
  | i :: rest => max (itemNeed i) (needAfter rest)

def needAfter : List (Item δ) → Nat
  | [] => 0
  | i :: rest => max (itemNeed i + 1) (needAfter rest)

def itemNeed : Item δ → Nat
  | .datum _ => 1
  | .list l => exprNeed l
  | _ => 0

end

attribute [simp] exprNeed needFirst needAfter itemNeed

private theorem exprNeed_plain {i : Item δ} (rest : List (Item δ)) (hop : ∀ o, i ≠ .op o) :
    exprNeed (i :: rest) = max (itemNeed i) (needAfter rest) := by
  rw [exprNeed]
  simp [hop]

private theorem restTerm_need {bools : δ → Option Nat} {l : List (Item δ)}
    (hl : ∀ i ∈ l, ∀ y, itemTerm bools i = some y → y.need = itemNeed i) {x t : Term CondExpr}
    (ht : restTerm bools x l = some t) : t.need = max x.need (needAfter l) := by
  induction l generalizing x with
  | nil =>
    rw [restTerm] at ht
    cases ht
    simp
  | cons i rest ih =>
    rw [restTerm] at ht
    obtain ⟨y, hy, ht⟩ := Option.bind_eq_some_iff.mp ht
    have hneed := ih (fun j hj => hl j (List.mem_cons_of_mem i hj)) ht
    rw [hneed, Term.need, hl i List.mem_cons_self y hy, needAfter, max_assoc]

/-- The term of an expression needs what the expression needs. -/
private theorem exprTerm_need {bools : δ → Option Nat} (l : List (Item δ))
    (hl : shaped .bool l = true) :
    ∀ t, exprTerm bools l = some t → t.need = exprNeed l := by
  refine shaped_induction
    (P := fun l => ∀ t, exprTerm bools l = some t → t.need = exprNeed l)
    (Q := fun i => ∀ t, itemTerm bools i = some t → t.need = itemNeed i)
    ?datum ?list ?unary ?binary ?plain l hl
  case datum =>
    intro d t ht
    rw [itemTerm] at ht
    obtain ⟨v, -, rfl⟩ := Option.map_eq_some_iff.mp ht
    rw [itemNeed, Term.need]
  case list =>
    intro l ih t ht
    rw [itemTerm] at ht
    rw [itemNeed]
    exact ih t ht
  case unary =>
    intro i hi t ht
    rw [exprTerm] at ht
    obtain ⟨x, hx, rfl⟩ := Option.map_eq_some_iff.mp ht
    rw [Term.need, hi x hx]
    simp
  case binary =>
    intro o i j ho _ _ hi hj t ht
    rw [exprTerm] at ht
    · simp only [Option.bind_eq_bind, Option.bind_eq_some_iff, Option.pure_def,
        Option.some.injEq] at ht
      obtain ⟨e, -, x, hx, y, hy, rfl⟩ := ht
      rw [Term.need, hi x hx, hj y hy]
      simp
    · simp [ho]
  case plain =>
    intro i rest hop hi hrest t ht
    rw [exprTerm_plain bools rest hop] at ht
    obtain ⟨x, hx, ht⟩ := Option.bind_eq_some_iff.mp ht
    rw [exprNeed_plain rest hop, ← hi x hx]
    exact restTerm_need hrest ht

end Items

section Resolved

variable {δ ε : Type} {get : δ → Option ε}

/-- Resolution keeps the need of an expression. -/
private theorem resolveItems_need (l : List (Item δ)) (l' : List (Item ε))
    (h : resolveItems get l = some l') :
    exprNeed l' = exprNeed l ∧ needFirst l' = needFirst l ∧ needAfter l' = needAfter l := by
  revert l'
  refine mentioned.induct
    (fun l => ∀ l', resolveItems get l = some l' → exprNeed l' = exprNeed l ∧
      needFirst l' = needFirst l ∧ needAfter l' = needAfter l)
    (fun i => ∀ i', resolveItem get i = some i' → itemNeed i' = itemNeed i)
    ?datum ?list ?other ?nil ?cons l
  case datum =>
    intro d i' h
    obtain ⟨p, -, rfl⟩ := resolveItem_datum h
    rw [itemNeed, itemNeed]
  case list =>
    intro l ih i' h
    obtain ⟨l', hl', rfl⟩ := resolveItem_list h
    rw [itemNeed, itemNeed]
    exact (ih l' hl').1
  case other =>
    intro i hdatum hlist i' h
    cases i with
    | datum d => exact absurd rfl (hdatum d)
    | list l => exact absurd rfl (hlist l)
    | op o => rw [resolveItem_op h]; rfl
    | other => simp only [resolveItem, Option.some.injEq] at h; rw [← h]; rfl
  case nil =>
    intro l' h
    rw [resolveItems_nil h]
    exact ⟨rfl, rfl, rfl⟩
  case cons =>
    intro i rest ihi ihrest l' h
    obtain ⟨i', rest', rfl, hi, hrest⟩ := resolveItems_cons h
    obtain ⟨-, hfirst, hafter⟩ := ihrest rest' hrest
    have hitem := ihi i' hi
    refine ⟨?_, by rw [needFirst, needFirst, hitem, hafter],
      by rw [needAfter, needAfter, hitem, hafter]⟩
    by_cases hop : ∃ o, i = .op o
    · obtain ⟨o, rfl⟩ := hop
      rw [resolveItem_op hi, exprNeed, exprNeed, hfirst]
    · have hplain : ∀ o, i ≠ .op o := fun o heq => hop ⟨o, heq⟩
      have hplain' : ∀ o, i' ≠ .op o := by
        intro o heq
        rw [heq] at hi
        exact hplain o (resolveItem_eq_op hi)
      rw [exprNeed_plain rest hplain, exprNeed_plain rest' hplain', hitem, hafter]

end Resolved

section Accepted

variable {flavor : ExprFlavor}

/-- What a successful helper returns: the items of its loop, or an operator and the items of its
operands. -/
private theorem aroundLoop_items {depth depth' : Int} {nodes : List ParseNode}
    {all afterOperator : Int → Option (List (Item String) × Int)} {l : List (Item String)}
    (h : aroundLoop flavor depth nodes all afterOperator = some (l, depth')) :
    (exprOperatorFlavor (nodes.head?.bind ParseNode.data) = none ∧
        ∃ d d', all d = some (l, d')) ∨
      ∃ o items d d', exprOperatorFlavor (nodes.head?.bind ParseNode.data) = some o ∧
        l = .op o :: items ∧ afterOperator d = some (items, d') := by
  unfold aroundLoop at h
  split_ifs at h
  dsimp only at h
  split_ifs at h with hverify
  cases hop : exprOperatorFlavor (nodes.head?.bind ParseNode.data) with
  | none =>
    rw [hop] at h
    obtain ⟨r, hr, heq⟩ := Option.map_eq_some_iff.mp h
    cases heq
    exact Or.inl ⟨rfl, _, r.2, hr⟩
  | some o =>
    rw [hop] at h
    obtain ⟨r, hr, heq⟩ := Option.map_eq_some_iff.mp h
    cases heq
    exact Or.inr ⟨o, r.1, _, r.2, rfl, rfl, hr⟩

/-- The loop over these nodes makes items that need what the nodes do. -/
def LoopNeeds (flavor : ExprFlavor) (nodes : List ParseNode) : Prop :=
  ∀ depth l depth', fillItems flavor depth nodes = some (l, depth') →
    (∀ i ∈ l, ∀ o, i ≠ .op o) ∧ needFirst l = stackNeedFirst nodes ∧
      needAfter l = stackNeedAfter nodes

private theorem exprNeed_of_aroundLoop {depth depth' : Int} {c : ParseNode} {rest : List ParseNode}
    {l : List (Item String)} (hall : LoopNeeds flavor (c :: rest)) (hafter : LoopNeeds flavor rest)
    (h : aroundLoop flavor depth (c :: rest) (fun d => fillItems flavor d (c :: rest))
      (fun d => fillItems flavor d rest) = some (l, depth')) :
    exprNeed l = stackNeed (.list (c :: rest)) := by
  rcases aroundLoop_items h with ⟨hop, d, d', hloop⟩ | ⟨o, items, d, d', hop, rfl, hloop⟩
  · obtain ⟨hitems, hfirst, -⟩ := hall d l d' hloop
    have hop' : exprOperatorFlavor c.data = none := hop
    rw [stackNeed, hop']
    cases l with
    | nil => exact hfirst
    | cons i l =>
      rw [exprNeed_plain l (hitems i List.mem_cons_self)]
      exact hfirst
  · obtain ⟨-, hfirst, -⟩ := hafter d items d' hloop
    have hop' : exprOperatorFlavor c.data = some o := hop
    rw [stackNeed, hop', exprNeed]
    exact hfirst

private theorem loopNeeds (nodes : List ParseNode) :
    LoopNeeds flavor nodes ∧ LoopNeeds flavor nodes.tail := by
  have hnil : LoopNeeds flavor [] := by
    intro depth l depth' h
    rw [fillItems] at h
    cases h
    exact ⟨by simp, rfl, rfl⟩
  refine @ParseNode.rec_1
    (fun c => ∀ depth i depth', fillExpr flavor depth c = some (i, depth') →
      (∀ o, i ≠ .op o) ∧ itemNeed i = stackNeed c)
    (fun nodes => LoopNeeds flavor nodes ∧ LoopNeeds flavor nodes.tail)
    ?string ?list ?nil ?cons nodes
  case string =>
    intro s depth i depth' h
    rw [fillExpr] at h
    split_ifs at h
    cases h
    exact ⟨by simp, by rw [itemNeed, stackNeed]⟩
  case list =>
    intro children ih depth i depth' h
    cases children with
    | nil =>
      rw [fillExpr] at h
      cases h
      exact ⟨by simp, rfl⟩
    | cons c rest =>
      rw [fillExpr] at h
      obtain ⟨r, hr, heq⟩ := Option.map_eq_some_iff.mp h
      cases heq
      refine ⟨by simp, ?_⟩
      rw [itemNeed]
      exact exprNeed_of_aroundLoop ih.1 ih.2 hr
  case nil => exact ⟨hnil, hnil⟩
  case cons =>
    intro c rest hc hrest
    refine ⟨?_, hrest.1⟩
    intro depth l depth' h
    rw [fillItems] at h
    split at h
    · cases h
    · rename_i i d hi
      obtain ⟨r, hr, heq⟩ := Option.map_eq_some_iff.mp h
      cases heq
      obtain ⟨hop, hneed⟩ := hc depth i d hi
      obtain ⟨hops, -, hafter⟩ := hrest.1 _ _ _ hr
      refine ⟨?_, by rw [needFirst, stackNeedFirst, hneed, hafter],
        by rw [needAfter, stackNeedAfter, hneed, hafter]⟩
      intro j hj
      rcases List.mem_cons.mp hj with rfl | hj
      · exact hop
      · exact hops j hj

/-- An accepted expression needs what was written. -/
private theorem genExpr_need {node : ParseNode} {e : List (Item String)}
    (h : genExpr flavor node = some e) : exprNeed e = stackNeed node := by
  cases node with
  | string s =>
    rw [genExpr, fillExpr] at h
    · split_ifs at h
      · cases h
        simp
      · cases h
    · simp
  | list children =>
    cases children with
    | nil =>
      rw [genExpr, fillExpr] at h
      · cases h
        simp
      · simp
    | cons c rest =>
      rw [genExpr] at h
      obtain ⟨r, hr, heq⟩ := Option.map_eq_some_iff.mp h
      cases heq
      have hloops : LoopNeeds flavor (c :: rest) ∧ LoopNeeds flavor rest := loopNeeds _
      exact exprNeed_of_aroundLoop hloops.1 hloops.2 hr

end Accepted

section Bound

variable {δ : Type}

/-- Whatever the names of the expression are found to be, the evaluation of the list that it is
compiled to never holds more than `COND_EXPR_MAXDEPTH` values. -/
def FitsStack (node : ParseNode) : Prop :=
  ∀ (δ : Type) (get : String → Option δ) (bools : δ → Option Nat) (strExpr : List (Item String))
    (expr : List (Item δ)) (h h' : Heap CondExpr) (head : Nat),
    genExpr .bool node = some strExpr → resolveItems get strExpr = some expr →
    condExprToSepolExpr bools expr h = some (.ok head h') →
    ∀ values, StaysWithin (evalCell values) condExprMaxdepth.toNat (h'.contents h'.size head) []

/-- The list that an expression of the right shape is compiled to holds what the expression
needs. -/
theorem staysWithin_of_shaped {bools : δ → Option Nat} {expr : List (Item δ)}
    (hshaped : shaped .bool expr = true) (h : Heap CondExpr) :
    Ends (Missing bools (mentioned expr))
      (fun head h' => ∀ values n, StaysWithin (evalCell values) n (h'.contents h'.size head) [] ↔
        exprNeed expr ≤ n)
      (condExprToSepolExpr bools expr h) := by
  refine (compiles_of_shaped expr hshaped h).bind fun r h' hpost => ends_pure ?_
  obtain ⟨t, ⟨hterm, hyields⟩, -, hsize, hseg⟩ := hpost
  intro values n
  rw [hseg.contents_eq h'.size (by omega), (hyields values).staysWithin,
    exprTerm_need expr hshaped t hterm, List.length_nil, Nat.zero_add]

private theorem resolveItems_some (l : List (Item δ)) : resolveItems some l = some l := by
  refine mentioned.induct (fun l => resolveItems some l = some l)
    (fun i : Item δ => resolveItem some i = some i) ?datum ?list ?other ?nil ?cons l
  case datum => exact fun d => rfl
  case list =>
    intro l ih
    rw [resolveItem, ih]
    rfl
  case other =>
    intro i hdatum hlist
    cases i with
    | datum d => exact absurd rfl (hdatum d)
    | list l => exact absurd rfl (hlist l)
    | op o => rfl
    | other => rfl
  case nil => rfl
  case cons =>
    intro i rest hi hrest
    rw [resolveItems, hi, hrest]
    rfl

private theorem filled_or_empty (node : ParseNode) : Filled node ∨ node = .list [] := by
  cases node with
  | string s => exact Or.inl (Or.inl rfl)
  | list children =>
    cases children with
    | nil => exact Or.inr rfl
    | cons c rest => exact Or.inl (Or.inr rfl)

theorem fitsStack_of_need {node : ParseNode}
    (hneed : (genExpr .bool node).isSome = true → stackNeed node ≤ condExprMaxdepth.toNat) :
    FitsStack node := by
  intro δ get bools strExpr expr h h' head hbuild hresolve hcompile values
  have hbound : exprNeed expr ≤ condExprMaxdepth.toNat := by
    rw [(resolveItems_need strExpr expr hresolve).1, genExpr_need hbuild]
    exact hneed (by rw [hbuild]; rfl)
  rcases filled_or_empty node with hfilled | rfl
  · have hshaped := resolveItems_shaped strExpr expr hresolve (genExpr_shaped hfilled hbuild)
    exact ((staysWithin_of_shaped hshaped h).of_ok hcompile values _).mpr hbound
  · -- `()` is not compiled
    cases hbuild
    cases hresolve
    cases hcompile

theorem FitsStack.need {node : ParseNode} (h : FitsStack node)
    (haccepted : (genExpr .bool node).isSome = true) :
    stackNeed node ≤ condExprMaxdepth.toNat := by
  obtain ⟨e, hbuild⟩ := Option.isSome_iff_exists.mp haccepted
  rcases filled_or_empty node with hfilled | rfl
  · have hshaped : shaped .bool e = true := genExpr_shaped hfilled hbuild
    let bools : String → Option Nat := fun _ => some 0
    let h₀ : Heap CondExpr := ⟨fun _ => ⟨.bool, 0⟩, fun _ => none, 0⟩
    have hends : Ends (Missing bools (mentioned e)) _ (condExprToSepolExpr bools e h₀) :=
      staysWithin_of_shaped hshaped h₀
    have hnot : Missing bools (mentioned e) → False := by
      intro hmissing
      obtain ⟨d, -, hnone⟩ := hmissing
      cases hnone
    obtain ⟨head, h', hcompile, hwithin⟩ := ends_false_iff.mp (hends.weaken hnot)
    rw [← genExpr_need hbuild]
    exact (hwithin (fun _ => true) _).mp
      (h String some _ e e _ h' head hbuild (resolveItems_some e) hcompile _)
  · exact Nat.zero_le _

/-- Of the accepted conditional expressions exactly those fit the stack that do not need more
than there is. -/
theorem genExpr_fitsStack_iff (node : ParseNode) :
    FitsStack node ↔
      ((genExpr .bool node).isSome = true → stackNeed node ≤ condExprMaxdepth.toNat) :=
  ⟨FitsStack.need, fitsStack_of_need⟩

end Bound

section Nested

/-- `(or b (or b ... b))`. -/
def nestedOr : Nat → ParseNode
  | 0 => .string "b"
  | n + 1 => .list [.string "or", .string "b", nestedOr n]

private theorem stackNeed_nestedOr (n : Nat) : stackNeed (nestedOr n) = n + 1 := by
  induction n with
  | zero => rfl
  | succ n ih =>
    have hop : exprOperatorFlavor (ParseNode.string "or").data = some .or := rfl
    rw [nestedOr, stackNeed, hop]
    simp [ih]

/-- Ten operators, each in the second operand of the one before, are accepted and do not fit. -/
theorem nestedOr_not_fitsStack : ¬ FitsStack (nestedOr 10) := by
  intro h
  have hneed := h.need rfl
  rw [stackNeed_nestedOr] at hneed
  exact absurd hneed (by decide)

end Nested

end Cil.Binary.Postfix
