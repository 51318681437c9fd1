/- Cil/Build/SetExpr
   digest: Set expressions are built well-formed, and stay so when their names are looked up. -/

import Cil.Build.Expr
import Cil.ExprResolution

set_option autoImplicit false
set_option relaxedAutoImplicit false

namespace Cil.Build

open Cil.Expr

/-- The flavors of the set expressions. -/
def ExprFlavor.ofSets (flavor : ExprFlavor) : Prop := flavor = .cat ∨ flavor = .other

/-- Ranges are for categories. -/
def ExprFlavor.ranges (flavor : ExprFlavor) : Bool := decide (flavor = .cat)

section Formed

variable {flavor : ExprFlavor}

/-- The loop gives one operand for each node, a declaration for each string. -/
structure ItemsFormed (flavor : ExprFlavor) (nodes : List ParseNode) (l : List (Item String)) :
    Prop where
  length : l.length = nodes.length
  formed : operandsFormed flavor.ranges l = true
  strings : (∀ c ∈ nodes, c.isString = true) → ∀ i ∈ l, ∃ s, i = .datum s

private theorem wellFormed_of_operands {ranges : Bool} {l : List (Item String)}
    (h : operandsFormed ranges l = true) : wellFormed ranges l = true := by
  cases l with
  | nil => rw [wellFormed]
  | cons i rest =>
    rw [operandsFormed] at h
    cases i with
    | op o => simp [operandFormed] at h
    | other => simp [operandFormed] at h
    | datum s =>
      rw [wellFormed]
      · exact h
      all_goals simp
    | list l =>
      rw [wellFormed]
      · exact h
      all_goals simp

private theorem wellFormed_one {ranges : Bool} {i : Item String}
    (h : operandsFormed ranges [i] = true) :
    wellFormed ranges [.op .not, i] = true := by
  rw [operandsFormed, Bool.and_eq_true] at h
  rw [wellFormed]
  exact h.1

private theorem wellFormed_two {ranges : Bool} {o : Op} (ho : o = .and ∨ o = .or ∨ o = .xor)
    {i j : Item String} (h : operandsFormed ranges [i, j] = true) :
    wellFormed ranges [.op o, i, j] = true := by
  rw [operandsFormed, operandsFormed, Bool.and_eq_true, Bool.and_eq_true] at h
  rcases ho with rfl | rfl | rfl
  · rw [wellFormed, Bool.and_eq_true]
    exact ⟨h.1, h.2.1⟩
  · rw [wellFormed, Bool.and_eq_true]
    exact ⟨h.1, h.2.1⟩
  · rw [wellFormed, Bool.and_eq_true]
    exact ⟨h.1, h.2.1⟩

/-- The operands of a range are strings. -/
private theorem verifyExprSyntax_range {nodes : List ParseNode}
    (h : verifyExprSyntax nodes (some .range) flavor = true) :
    flavor = .cat ∧ ∀ c ∈ nodes.tail, c.isString = true := by
  have hstring : stringSyn.nLists = false ∧ stringSyn.nStrings = false ∧ stringSyn.stop = false :=
    ⟨rfl, rfl, rfl⟩
  have htakes : ∀ c, stringSyn.takes c = true → c.isString = true := by
    intro c hc
    simpa [stringSyn, Syn.takes] using hc
  simp only [verifyExprSyntax, Bool.and_eq_true, beq_iff_eq] at h
  obtain ⟨hflavor, h⟩ := h
  obtain ⟨c, l, rfl, -, h⟩ := verifyElements_cons hstring h
  obtain ⟨x, l, rfl, hx, h⟩ := verifyElements_cons hstring h
  obtain ⟨y, l, rfl, hy, h⟩ := verifyElements_cons hstring h
  rw [verifyElements_end h]
  refine ⟨hflavor, ?_⟩
  intro z hz
  rw [List.tail_cons, List.mem_cons, List.mem_singleton] at hz
  rcases hz with rfl | rfl
  · exact htakes z hx
  · exact htakes z hy

/-- An operator with the operands that it takes is well-formed. -/
private theorem wellFormed_of_operator (hsets : flavor.ofSets) {o : Op} {rest : List ParseNode}
    {items : List (Item String)}
    (hoperands : operands flavor o = some rest.length)
    (hrange : o = .range → ∀ c ∈ rest, c.isString = true) (h : ItemsFormed flavor rest items) :
    wellFormed flavor.ranges (.op o :: items) = true := by
  have hnot : ¬ (flavor = .bool ∨ flavor = .tunable) := by
    rcases hsets with rfl | rfl <;> simp
  obtain ⟨hlength, hformed, hstrings⟩ := h
  rw [← hlength] at hoperands
  have htwo : o = .and ∨ o = .or ∨ o = .xor → some 2 = some items.length →
      wellFormed flavor.ranges (.op o :: items) = true := by
    intro ho hcount
    obtain ⟨i, j, rfl⟩ := List.length_eq_two.mp (Option.some.inj hcount).symm
    exact wellFormed_two ho hformed
  cases o with
  | not =>
    obtain ⟨i, rfl⟩ := List.length_eq_one_iff.mp (Option.some.inj hoperands).symm
    exact wellFormed_one hformed
  | and => exact htwo (Or.inl rfl) hoperands
  | or => exact htwo (Or.inr (Or.inl rfl)) hoperands
  | xor => exact htwo (Or.inr (Or.inr rfl)) hoperands
  | eq =>
    rw [operands, if_neg hnot] at hoperands
    cases hoperands
  | neq =>
    rw [operands, if_neg hnot] at hoperands
    cases hoperands
  | all =>
    rw [operands, if_neg hnot] at hoperands
    rw [List.length_eq_zero_iff.mp (Option.some.inj hoperands).symm, wellFormed]
  | range =>
    rw [operands] at hoperands
    split_ifs at hoperands with hcat
    obtain ⟨i, j, rfl⟩ := List.length_eq_two.mp (Option.some.inj hoperands).symm
    have hdatums := hstrings (hrange rfl)
    obtain ⟨s, rfl⟩ := hdatums i List.mem_cons_self
    obtain ⟨t, rfl⟩ := hdatums j (List.mem_cons_of_mem _ List.mem_cons_self)
    rw [wellFormed]
    exact decide_eq_true hcat

/-- What the helper returns is well-formed, if the loop does its part. -/
private theorem wellFormed_of_aroundLoop (hsets : flavor.ofSets) {depth depth' : Int}
    {nodes : List ParseNode} {all afterOperator : Int → Option (List (Item String) × Int)}
    {l : List (Item String)}
    (hall : ∀ d l d', (∀ x ∈ nodes, Filled x) → all d = some (l, d') → ItemsFormed flavor nodes l)
    (hafter : ∀ d l d', (∀ x ∈ nodes.tail, Filled x) → afterOperator d = some (l, d') →
      ItemsFormed flavor nodes.tail l)
    (h : aroundLoop flavor depth nodes all afterOperator = some (l, depth')) :
    wellFormed flavor.ranges l = true ∧ l ≠ [] := by
  unfold aroundLoop at h
  split_ifs at h
  dsimp only at h
  split_ifs at h with hverify
  cases hop : exprOperatorFlavor (nodes.head?.bind ParseNode.data) with
  | none =>
    rw [hop] at h hverify
    obtain ⟨r, hr, heq⟩ := Option.map_eq_some_iff.mp h
    cases heq
    obtain ⟨hne, hfilled⟩ := verifyExprSyntax_none hverify
    obtain ⟨hlength, hformed, -⟩ := hall _ r.1 r.2 hfilled hr
    refine ⟨wellFormed_of_operands hformed, ?_⟩
    intro hnil
    rw [hnil] at hlength
    exact hne (List.length_eq_zero_iff.mp hlength.symm)
  | some o =>
    rw [hop] at h hverify
    obtain ⟨r, hr, heq⟩ := Option.map_eq_some_iff.mp h
    cases heq
    have hrange : o = .range → ∀ c ∈ nodes.tail, c.isString = true := by
      intro ho
      rw [ho] at hverify
      exact (verifyExprSyntax_range hverify).2
    obtain ⟨c, rest, rfl, hoperands, hfilled⟩ := verifyExprSyntax_op hverify
    exact ⟨wellFormed_of_operator hsets hoperands hrange (hafter _ r.1 r.2 hfilled hr),
      by simp⟩

/-- The loop over these nodes does its part. -/
def LoopFormed (flavor : ExprFlavor) (nodes : List ParseNode) : Prop :=
  ∀ depth l depth', (∀ x ∈ nodes, Filled x) → fillItems flavor depth nodes = some (l, depth') →
    ItemsFormed flavor nodes l

/-- The item for a node. -/
def ItemFormed (flavor : ExprFlavor) (c : ParseNode) : Prop :=
  ∀ depth i depth', Filled c → fillExpr flavor depth c = some (i, depth') →
    operandFormed flavor.ranges i = true ∧ (c.isString = true → ∃ s, i = .datum s)

private theorem loopFormed_cons {c : ParseNode} {rest : List ParseNode} (hc : ItemFormed flavor c)
    (hrest : LoopFormed flavor rest) : LoopFormed flavor (c :: rest) := by
  intro depth l depth' hfilled h
  rw [fillItems] at h
  split at h
  · cases h
  · rename_i i d hi
    obtain ⟨r, hr, heq⟩ := Option.map_eq_some_iff.mp h
    cases heq
    obtain ⟨hlength, hformed, hstrings⟩ :=
      hrest _ _ _ (fun x hx => hfilled x (List.mem_cons_of_mem c hx)) hr
    obtain ⟨hitem, hstring⟩ := hc depth i d (hfilled c List.mem_cons_self) hi
    refine ⟨by simp [hlength], ?_, ?_⟩
    · rw [operandsFormed, Bool.and_eq_true]
      exact ⟨hitem, hformed⟩
    · intro hall j hj
      rcases List.mem_cons.mp hj with rfl | hj
      · exact hstring (hall c List.mem_cons_self)
      · exact hstrings (fun x hx => hall x (List.mem_cons_of_mem c hx)) j hj

/-- The loops over the nodes, and over all but the first, do their part. -/
private theorem loopsFormed (hsets : flavor.ofSets) (nodes : List ParseNode) :
    LoopFormed flavor nodes ∧ LoopFormed flavor nodes.tail := by
  have hnil : LoopFormed flavor [] := by
    intro depth l depth' _ h
    rw [fillItems] at h
    cases h
    exact ⟨rfl, by rw [operandsFormed], by simp⟩
  refine @ParseNode.rec_1 (ItemFormed flavor)
    (fun nodes => LoopFormed flavor nodes ∧ LoopFormed flavor nodes.tail)
    ?string ?list ?nil ?cons nodes
  case string =>
    intro s depth i depth' _ h
    rw [fillExpr] at h
    split_ifs at h
    cases h
    exact ⟨by rw [operandFormed], fun _ => ⟨s, rfl⟩⟩
  case list =>
    intro children ih depth i depth' hfilled h
    cases children with
    | nil => simp [Filled, ParseNode.isString, ParseNode.isList] at hfilled
    | cons c rest =>
      rw [fillExpr] at h
      obtain ⟨r, hr, heq⟩ := Option.map_eq_some_iff.mp h
      cases heq
      rw [operandFormed]
      refine ⟨(wellFormed_of_aroundLoop hsets (fun d l d' hf hl => ih.1 d l d' hf hl)
        (fun d l d' hf hl => ih.2 d l d' hf hl) hr).1, ?_⟩
      intro hstring
      cases hstring
  case nil => exact ⟨hnil, hnil⟩
  case cons =>
    intro c rest hc hrest
    exact ⟨loopFormed_cons hc hrest.1, hrest.1⟩

/-- Whatever `cil_gen_expr` accepts as a set expression is well-formed. -/
theorem genExpr_wellFormed (hsets : flavor.ofSets) {node : ParseNode} (hfilled : Filled node)
    {e : List (Item String)} (h : genExpr flavor node = some e) :
    wellFormed flavor.ranges e = true ∧ e ≠ [] := by
  cases node with
  | string s =>
    rw [genExpr, fillExpr] at h
    · split_ifs at h
      · cases h
        exact ⟨rfl, by simp⟩
      · cases h
    · simp
  | list children =>
    cases children with
    | nil => simp [Filled, ParseNode.isString, ParseNode.isList] at hfilled
    | cons c rest =>
      rw [genExpr] at h
      obtain ⟨r, hr, heq⟩ := Option.map_eq_some_iff.mp h
      cases heq
      obtain ⟨hall, hafter⟩ := loopsFormed hsets (c :: rest)
      exact wellFormed_of_aroundLoop hsets (fun d l d' hf hl => hall d l d' hf hl)
        (fun d l d' hf hl => hafter d l d' hf hl) hr

end Formed

section Resolved

variable {δ ε : Type} {get : δ → Option ε} {ranges : Bool}

private theorem resolveItem_formed {i : Item δ} {i' : Item ε} (h : resolveItem get i = some i')
    (hlist : ∀ l l', i = .list l → resolveItems get l = some l' → wellFormed ranges l = true →
      wellFormed ranges l' = true)
    (hi : operandFormed ranges i = true) : operandFormed ranges i' = true := by
  cases i with
  | datum d =>
    obtain ⟨p, -, rfl⟩ := resolveItem_datum h
    rw [operandFormed]
  | list l =>
    obtain ⟨l', hl', rfl⟩ := resolveItem_list h
    rw [operandFormed] at hi ⊢
    exact hlist l l' rfl hl' hi
  | op o => simp [operandFormed] at hi
  | other => simp [operandFormed] at hi

/-- What its names are resolved to leaves an expression well-formed. -/
theorem resolveItems_wellFormed (l : List (Item δ)) (l' : List (Item ε))
    (h : resolveItems get l = some l') (hl : wellFormed ranges l = true) :
    wellFormed ranges l' = true := by
  revert l'
  revert hl
  refine wellFormed.induct
    (fun l => wellFormed ranges l = true → ∀ l', resolveItems get l = some l' →
      wellFormed ranges l' = true)
    (fun l => operandsFormed ranges l = true → ∀ l', resolveItems get l = some l' →
      operandsFormed ranges l' = true)
    (fun i => operandFormed ranges i = true → ∀ i', resolveItem get i = some i' →
      operandFormed ranges i' = true)
    ?datum ?list ?other ?all ?range ?not ?and ?or ?xor ?op ?empty ?plain ?nil ?cons l
  case all =>
    intro _ l' h
    obtain ⟨rest', rfl, hrest⟩ := resolveItems_op h
    rw [resolveItems_nil hrest, wellFormed]
  case range =>
    intro d1 d2 hl l' h
    obtain ⟨rest', rfl, hrest⟩ := resolveItems_op h
    obtain ⟨i, j, rfl, hi, hj⟩ := resolveItems_pair hrest
    obtain ⟨p, -, rfl⟩ := resolveItem_datum hi
    obtain ⟨q, -, rfl⟩ := resolveItem_datum hj
    rw [wellFormed] at hl ⊢
    exact hl
  case not =>
    intro i ih hl l' h
    obtain ⟨rest', rfl, hrest⟩ := resolveItems_op h
    obtain ⟨i', rfl, hi⟩ := resolveItems_singleton hrest
    rw [wellFormed] at hl ⊢
    exact ih hl i' hi
  case and =>
    intro i j ihi ihj hl l' h
    obtain ⟨rest', rfl, hrest⟩ := resolveItems_op h
    obtain ⟨i', j', rfl, hi, hj⟩ := resolveItems_pair hrest
    rw [wellFormed, Bool.and_eq_true] at hl ⊢
    exact ⟨ihi hl.1 i' hi, ihj hl.2 j' hj⟩
  case or =>
    intro i j ihi ihj hl l' h
    obtain ⟨rest', rfl, hrest⟩ := resolveItems_op h
    obtain ⟨i', j', rfl, hi, hj⟩ := resolveItems_pair hrest
    rw [wellFormed, Bool.and_eq_true] at hl ⊢
    exact ⟨ihi hl.1 i' hi, ihj hl.2 j' hj⟩
  case xor =>
    intro i j ihi ihj hl l' h
    obtain ⟨rest', rfl, hrest⟩ := resolveItems_op h
    obtain ⟨i', j', rfl, hi, hj⟩ := resolveItems_pair hrest
    rw [wellFormed, Bool.and_eq_true] at hl ⊢
    exact ⟨ihi hl.1 i' hi, ihj hl.2 j' hj⟩
  case op =>
    intro o tail hall hrange hnot hand hor hxor hl
    rw [wellFormed] at hl
    · cases hl
    all_goals assumption
  case empty =>
    intro _ l' h
    rw [resolveItems_nil h, wellFormed]
  case plain =>
    intro i rest _ _ _ _ _ _ hop ihi ihrest hl l' h
    have hi : ∀ o, i ≠ .op o := hop
    obtain ⟨i', rest', rfl, hi', hrest'⟩ := resolveItems_cons h
    have hop' : ∀ o, i' ≠ .op o := by
      intro o heq
      rw [heq] at hi'
      exact hi o (resolveItem_eq_op hi')
    rw [wellFormed, Bool.and_eq_true] at hl
    · rw [wellFormed, Bool.and_eq_true]
      · exact ⟨ihi hl.1 i' hi', ihrest hl.2 rest' hrest'⟩
      all_goals simp [hop']
    all_goals simp [hi]
  case nil =>
    intro _ l' h
    rw [resolveItems_nil h, operandsFormed]
  case cons =>
    intro i rest ihi ihrest hl l' h
    obtain ⟨i', rest', rfl, hi', hrest'⟩ := resolveItems_cons h
    rw [operandsFormed, Bool.and_eq_true] at hl ⊢
    exact ⟨ihi hl.1 i' hi', ihrest hl.2 rest' hrest'⟩
  case datum =>
    intro d hi i' h
    exact resolveItem_formed h (by simp) hi
  case list =>
    intro l ih hi i' h
    refine resolveItem_formed h ?_ hi
    intro l₁ l' heq hl' hl
    cases heq
    exact ih hl l' hl'
  case other =>
    intro i hdatum hlist hi
    rw [operandFormed] at hi
    · cases hi
    all_goals assumption

end Resolved

end Cil.Build
