/- Cil/Binary/ConstraintNames
   digest: Names in constraint expressions that are found, and the cells that they give. -/

import Cil.Binary.Constraint

set_option autoImplicit false
set_option relaxedAutoImplicit false

namespace Cil.Constraint

open Cil.Build Cil.Library Cil.Verify

section Values

variable {β δ : Type} (B : EnumBitmap β) (T : Tables β δ)

/-- The values on the side of CIL that a role or a type stands for. -/
def Declared.values : Declared β → List Nat
  | .single value => [value]
  | .attr (some members) => B.positions members
  | .attr none => []

/-- The value of the policy is that of the role or type itself, or of a member of the attribute. -/
def memberDenotes (valTo : Nat → Option δ) (sepol : δ → Option Nat) (d : δ) (value : Nat) :
    Declared β → Bool
  | .single _ => sepol d == some value
  | .attr (some members) => (B.positions members).any fun i => (valTo i).bind sepol == some value
  | .attr none => false

/-- The value of the policy is one that the declaration stands for. -/
def denotes (flavor : LeafFlavor) (d : δ) (value : Nat) : Bool :=
  match flavor with
  | .user => T.sepolUser d == some value
  | .role => memberDenotes B T.valToRole T.sepolRole d value (T.role d)
  | .type => memberDenotes B T.valToType T.sepolType d value (T.type d)
  | .level => false

/-- The value of a role or type stands for it, as outside of macros and abstract blocks. -/
def Declared.Numbered (valTo : Nat → Option δ) (d : δ) (e : Declared β) : Prop :=
  ∀ i, e = .single i → valTo i = some d

def Tables.Numbered (flavor : LeafFlavor) (d : δ) : Prop :=
  match flavor with
  | .role => (T.role d).Numbered T.valToRole d
  | .type => (T.type d).Numbered T.valToType d
  | _ => True

/-- The bitmap of an attribute is there, and what the values stand for is in the policy. -/
def Declared.Complete (valTo : Nat → Option δ) (sepol : δ → Option Nat) (d : Declared β) : Prop :=
  d ≠ .attr none ∧
    ∀ i ∈ d.values B, ∃ r value, valTo i = some r ∧ sepol r = some value ∧ 0 < value

/-- What the back end looks up for the declaration is there. -/
def Tables.Complete (flavor : LeafFlavor) (d : δ) : Prop :=
  match flavor with
  | .user => ∃ value, T.sepolUser d = some value ∧ 0 < value
  | .role => (T.role d).Complete B T.valToRole T.sepolRole
  | .type => (T.sepolType d).isSome = true ∧ (T.type d).Complete B T.valToType T.sepolType
  | .level => True

/-- The name in the leaf, if there is one, is found, and so is what the back end looks up. -/
def StoredLeaf.Found (get : LeafFlavor → String → Option δ) (l : StoredLeaf) : Prop :=
  ∀ s, l.right = .string s →
    ∃ d, get l.left.leafFlavor s = some d ∧ T.Complete B l.left.leafFlavor d

/-- The name in the leaf is not that of a role or type of an abstract block. -/
def StoredLeaf.Numbered (get : LeafFlavor → String → Option δ) (l : StoredLeaf) : Prop :=
  ∀ s d, l.right = .string s → get l.left.leafFlavor s = some d → T.Numbered l.left.leafFlavor d

end Values

section Names

variable {β δ σ : Type} {B : EnumBitmap β} {T : Tables β δ}

private theorem pred_eq_pred {v value : Nat} (hv : 0 < v) (hvalue : 0 < value) :
    decide (value - 1 = v - 1) = (some v == some value) := by
  rw [Option.some_beq_some]
  by_cases heq : v = value
  · subst heq
    simp
  · have hne : value - 1 ≠ v - 1 := by omega
    simp [hne, heq]

/-- The loop sets the bits of what the values stand for. -/
private theorem namesLoop_spec {valTo : Nat → Option δ} {sepol : δ → Option Nat}
    {positions : List Nat}
    (h : ∀ i ∈ positions, ∃ r value, valTo i = some r ∧ sepol r = some value ∧ 0 < value)
    (names : β) (s : σ) :
    ∃ names', namesLoop B valTo sepol positions names s = some (.ok names' s) ∧
      ∀ value, 0 < value → B.getBit names' (value - 1) = (B.getBit names (value - 1) ||
        positions.any fun i => (valTo i).bind sepol == some value) := by
  induction positions generalizing names with
  | nil => exact ⟨names, rfl, fun value _ => by simp⟩
  | cons i rest ih =>
    obtain ⟨r, v, hr, hv, hpos⟩ := h i List.mem_cons_self
    obtain ⟨names', hrun, hbits⟩ :=
      ih (fun j hj => h j (List.mem_cons_of_mem i hj)) (B.setBit names (v - 1))
    refine ⟨names', ?_, ?_⟩
    · rw [namesLoop]
      simp only [hr, hv]
      exact hrun
    · intro value hvalue
      rw [hbits value hvalue, B.getBit_setBit, List.any_cons, hr, Option.bind_some, hv,
        pred_eq_pred hpos hvalue, Bool.or_assoc]

/-- What a role or a type is expanded to has its values as positions. -/
private theorem expand_spec {valTo : Nat → Option δ} {sepol : δ → Option Nat} {d : Declared β}
    (h : d.Complete B valTo sepol) (s : σ) :
    ∃ bits, expand B d s = some (.ok bits s) ∧ ∀ i, i ∈ B.positions bits ↔ i ∈ d.values B := by
  cases d with
  | single value =>
    refine ⟨B.setBit B.init value, rfl, fun i => ?_⟩
    rw [B.mem_positions, B.getBit_setBit, B.getBit_init]
    simp [Declared.values]
  | attr members =>
    cases members with
    | none => exact absurd rfl h.1
    | some members => exact ⟨members, rfl, fun i => Iff.rfl⟩

/-- The names of an expanded role or type. -/
private theorem expanded_spec {valTo : Nat → Option δ} {sepol : δ → Option Nat} {d : Declared β}
    (h : d.Complete B valTo sepol) (names : β) (s : σ) :
    ∃ bits names', expand B d s = some (.ok bits s) ∧
      namesLoop B valTo sepol (B.positions bits) names s = some (.ok names' s) ∧
      ∀ value, 0 < value → B.getBit names' (value - 1) = (B.getBit names (value - 1) ||
        (d.values B).any fun i => (valTo i).bind sepol == some value) := by
  obtain ⟨bits, hexpand, hpositions⟩ := expand_spec h s
  have hfound : ∀ i ∈ B.positions bits, ∃ r value, valTo i = some r ∧ sepol r = some value ∧
      0 < value := fun i hi => h.2 i ((hpositions i).mp hi)
  obtain ⟨names', hrun, hbits⟩ := namesLoop_spec (B := B) hfound names s
  refine ⟨bits, names', hexpand, hrun, fun value hvalue => ?_⟩
  have hany : (B.positions bits).any (fun i => (valTo i).bind sepol == some value) =
      (d.values B).any fun i => (valTo i).bind sepol == some value := by
    rw [Bool.eq_iff_iff, List.any_eq_true, List.any_eq_true]
    constructor
    · intro hex
      obtain ⟨i, hi, hvalue⟩ := hex
      exact ⟨i, (hpositions i).mp hi, hvalue⟩
    · intro hex
      obtain ⟨i, hi, hvalue⟩ := hex
      exact ⟨i, (hpositions i).mpr hi, hvalue⟩
  rw [hbits value hvalue, hany]

/-- The values of a declaration are those of what it stands for. -/
private theorem Declared.Numbered.any_values {valTo : Nat → Option δ} {sepol : δ → Option Nat}
    {d : δ} {e : Declared β} (h : e.Numbered valTo d) (value : Nat) :
    (e.values B).any (fun i => (valTo i).bind sepol == some value) =
      memberDenotes B valTo sepol d value e := by
  cases e with
  | single i =>
    rw [Declared.values, List.any_cons, List.any_nil, Bool.or_false, h i rfl]
    rfl
  | attr members => cases members <;> rfl

/-- The names that are set for a declaration are, if it is numbered, those that it stands for. -/
theorem datum_spec {flavor : LeafFlavor} {d : δ} (h : T.Complete B flavor d)
    (hflavor : flavor ≠ .level) (expr : Cexpr β) (s : σ) :
    ∃ names typeNames, constrainExprDatumToSepolExpr B T d flavor expr s =
        some (.ok { expr with names := names, typeNames := typeNames } s) ∧
      (T.Numbered flavor d → ∀ value, 0 < value → B.getBit names (value - 1) =
        (B.getBit expr.names (value - 1) || denotes B T flavor d value)) := by
  cases flavor with
  | user =>
    obtain ⟨v, hv, hpos⟩ := h
    refine ⟨B.setBit expr.names (v - 1), expr.typeNames, ?_, ?_⟩
    · rw [constrainExprDatumToSepolExpr]
      simp only [hv]
      rfl
    · intro _ value hvalue
      rw [B.getBit_setBit, denotes, hv, pred_eq_pred hpos hvalue]
  | role =>
    obtain ⟨bits, names, hexpand, hrun, hbits⟩ := expanded_spec h expr.names s
    refine ⟨names, expr.typeNames, ?_, fun hnumbered value hvalue => ?_⟩
    · rw [constrainExprDatumToSepolExpr]
      exact (Call.bind_of_ok hexpand).trans ((Call.bind_of_ok hrun).trans rfl)
    · rw [hbits value hvalue, Declared.Numbered.any_values hnumbered]
      rfl
  | type =>
    obtain ⟨hsome, hcomplete⟩ := h
    obtain ⟨v, hv⟩ := Option.isSome_iff_exists.mp hsome
    obtain ⟨bits, names, hexpand, hrun, hbits⟩ := expanded_spec hcomplete expr.names s
    obtain ⟨typeNames, htypeNames⟩ : ∃ typeNames,
        typeNamesToSepolExpr B T d expr.typeNames s = some (.ok typeNames s) := by
      unfold typeNamesToSepolExpr
      rw [hv]
      split
      · exact ⟨_, rfl⟩
      · exact ⟨_, rfl⟩
    refine ⟨names, typeNames, ?_, fun hnumbered value hvalue => ?_⟩
    · rw [constrainExprDatumToSepolExpr]
      refine (Call.bind_of_ok htypeNames).trans ?_
      exact (Call.bind_of_ok hexpand).trans ((Call.bind_of_ok hrun).trans rfl)
    · rw [hbits value hvalue, Declared.Numbered.any_values hnumbered]
      rfl
  | level => exact absurd rfl hflavor

end Names

section Cells

variable {β δ σ : Type} {B : EnumBitmap β} {T : Tables β δ} {get : LeafFlavor → String → Option δ}

/-- The back end can make a cell of the leaf: its right operand is no list, and its left one has
an encoding. -/
def StoredLeaf.Encoded (l : StoredLeaf) : Prop := l.right ≠ .address ∧ l.left ≠ .h2

theorem cexprAttr_some {δ : Type} {left : Operand} (hleft : left ≠ .h2) (right : Right δ) :
    ∃ attr, cexprAttr left right = some attr := by
  cases left with
  | h2 => exact absurd rfl hleft
  | l1 =>
    cases right with
    | operand o => cases o <;> exact ⟨_, rfl⟩
    | datum d => exact ⟨_, rfl⟩
    | list ds => exact ⟨_, rfl⟩
  | h1 =>
    cases right with
    | operand o => cases o <;> exact ⟨_, rfl⟩
    | datum d => exact ⟨_, rfl⟩
    | list ds => exact ⟨_, rfl⟩
  | _ => exact ⟨_, rfl⟩

theorem leafCell_eq {l : Leaf δ} {cell : Cexpr β} (h : leafCell B T l = some cell) :
    ∃ u, (constrainExprLeafToSepolExpr B T l : Call Rc Unit (Cexpr β)) () = some (.ok cell u) := by
  unfold leafCell at h
  split at h
  · rename_i cell' u hrun
    cases h
    exact ⟨u, hrun⟩
  · cases h

/-- A cell that the evaluation pushes a value for. -/
def IsLeaf (cell : Cexpr β) : Prop := cell.exprType = .attr ∨ cell.exprType = .names

private theorem datum_isLeaf {d : δ} {flavor : LeafFlavor} {expr cell : Cexpr β} {s s' : σ}
    (h : constrainExprDatumToSepolExpr B T d flavor expr s = some (.ok cell s')) :
    cell.exprType = expr.exprType := by
  cases flavor with
  | user =>
    rw [constrainExprDatumToSepolExpr] at h
    cases hd : T.sepolUser d with
    | none =>
      rw [hd] at h
      cases h
    | some value =>
      rw [hd] at h
      cases h
      rfl
  | role =>
    rw [constrainExprDatumToSepolExpr] at h
    obtain ⟨roles, s₁, -, h⟩ := Call.bind_ok h
    obtain ⟨names, s₂, -, h⟩ := Call.bind_ok h
    cases h
    rfl
  | type =>
    rw [constrainExprDatumToSepolExpr] at h
    obtain ⟨typeNames, s₁, -, h⟩ := Call.bind_ok h
    obtain ⟨types, s₂, -, h⟩ := Call.bind_ok h
    obtain ⟨names, s₃, -, h⟩ := Call.bind_ok h
    cases h
    rfl
  | level => cases h

private theorem datums_isLeaf {ds : List δ} {flavor : LeafFlavor} {expr cell : Cexpr β} {s s' : σ}
    (h : datumsToSepolExpr B T flavor ds expr s = some (.ok cell s')) :
    cell.exprType = expr.exprType := by
  induction ds generalizing expr s with
  | nil =>
    cases h
    rfl
  | cons d ds ih =>
    obtain ⟨expr', s₁, hd, hds⟩ := Call.bind_ok h
    rw [ih hds, datum_isLeaf hd]

theorem leafCell_isLeaf {l : Leaf δ} {cell : Cexpr β} (h : leafCell B T l = some cell) :
    IsLeaf cell := by
  obtain ⟨u, hrun⟩ := leafCell_eq h
  obtain ⟨op, left, right⟩ := l
  rw [constrainExprLeafToSepolExpr] at hrun
  cases hattr : cexprAttr left right with
  | none =>
    simp only [hattr] at hrun
    cases hrun
  | some attr =>
    simp only [hattr] at hrun
    cases right with
    | operand o =>
      cases hrun
      exact Or.inl rfl
    | datum d => exact Or.inr (datum_isLeaf hrun)
    | list ds => exact Or.inr (datums_isLeaf hrun)

/-- A leaf with an encoding, whose name is found, is resolved and has a cell. -/
theorem leaf_found {l : StoredLeaf} (hencoded : l.Encoded) (hfound : l.Found B T get)
    (hstring : ∀ s, l.right = .string s → l.left.leafFlavor ≠ .level) :
    ∃ l' cell, (∀ (σ : Type) (s : σ), resolveLeaf get l s = some (.ok l' s)) ∧
      leafCell B T l' = some cell := by
  obtain ⟨op, left, right⟩ := l
  obtain ⟨hright, hleft⟩ := hencoded
  cases right with
  | operand o =>
    obtain ⟨attr, hattr⟩ := cexprAttr_some hleft (.operand o : Right δ)
    refine ⟨⟨op, left, .operand o⟩, ⟨.attr, some attr, cexprOp op, B.init, B.init⟩,
      fun σ s => rfl, ?_⟩
    unfold leafCell constrainExprLeafToSepolExpr
    simp only [hattr]
    rfl
  | string name =>
    obtain ⟨d, hget, hcomplete⟩ := hfound name rfl
    obtain ⟨attr, hattr⟩ := cexprAttr_some hleft (.datum d : Right δ)
    obtain ⟨names, typeNames, hrun, -⟩ := datum_spec hcomplete (hstring name rfl)
      ⟨.names, some attr, cexprOp op, B.init, B.init⟩ ()
    refine ⟨⟨op, left, .datum d⟩, ⟨.names, some attr, cexprOp op, names, typeNames⟩,
      fun σ s => ?_, ?_⟩
    · rw [resolveLeaf]
      simp only [hget]
      rfl
    · unfold leafCell constrainExprLeafToSepolExpr
      simp only [hattr, hrun]
  | address => exact absurd rfl hright

/-- An expression with such leaves is resolved and has a term. -/
theorem expr_found {e : ConstraintExpr StoredLeaf}
    (h : ∀ l ∈ e.leaves, l.Encoded ∧ l.Found B T get ∧
      ∀ s, l.right = .string s → l.left.leafFlavor ≠ .level) :
    ∃ x t, (∀ (σ : Type) (s : σ), resolveExpr get e s = some (.ok x s)) ∧
      exprTerm B T x = some t := by
  induction e with
  | leaf l =>
    obtain ⟨hencoded, hfound, hstring⟩ := h l List.mem_cons_self
    obtain ⟨l', cell, hl', hcell⟩ := leaf_found hencoded hfound hstring
    refine ⟨.leaf l', .leaf cell, fun σ s => (Call.bind_of_ok (hl' σ s)).trans rfl, ?_⟩
    rw [exprTerm, hcell]
    rfl
  | not e ih =>
    obtain ⟨x, t, hx, ht⟩ := ih h
    refine ⟨.not x, .unary (initCexpr B .not) t,
      fun σ s => (Call.bind_of_ok (hx σ s)).trans rfl, ?_⟩
    rw [exprTerm, ht]
    rfl
  | and e f ihe ihf =>
    obtain ⟨x, t, hx, ht⟩ := ihe fun l hl => h l (List.mem_append_left _ hl)
    obtain ⟨y, u, hy, hu⟩ := ihf fun l hl => h l (List.mem_append_right _ hl)
    refine ⟨.and x y, .binary (initCexpr B .and) t u, fun σ s =>
      (Call.bind_of_ok (hx σ s)).trans ((Call.bind_of_ok (hy σ s)).trans rfl), ?_⟩
    rw [exprTerm, ht, hu]
    rfl
  | or e f ihe ihf =>
    obtain ⟨x, t, hx, ht⟩ := ihe fun l hl => h l (List.mem_append_left _ hl)
    obtain ⟨y, u, hy, hu⟩ := ihf fun l hl => h l (List.mem_append_right _ hl)
    refine ⟨.or x y, .binary (initCexpr B .or) t u, fun σ s =>
      (Call.bind_of_ok (hx σ s)).trans ((Call.bind_of_ok (hy σ s)).trans rfl), ?_⟩
    rw [exprTerm, ht, hu]
    rfl

end Cells

section Full

/-- Tables in which everything is found. -/
def fullTables : Tables (Finset Nat) Unit where
  sepolUser _ := some 1
  sepolRole _ := some 1
  sepolType _ := some 1
  role _ := .single 0
  type _ := .single 0
  valToRole _ := some ()
  valToType _ := some ()
  constraintNames := true

private theorem single_complete : Declared.Complete (δ := Unit) finsetEnumBitmap (fun _ => some ())
    (fun _ => some 1) (.single 0) := by
  refine ⟨by simp, ?_⟩
  intro i _
  exact ⟨(), 1, rfl, rfl, Nat.one_pos⟩

theorem found_full (l : StoredLeaf) : l.Found finsetEnumBitmap fullTables fun _ _ => some () := by
  intro s _
  refine ⟨(), rfl, ?_⟩
  cases l.left.leafFlavor with
  | user => exact ⟨1, rfl, Nat.one_pos⟩
  | role => exact single_complete
  | type => exact ⟨rfl, single_complete⟩
  | level => trivial

theorem numbered_full (l : StoredLeaf) : l.Numbered fullTables fun _ _ => some () := by
  intro s d _ _
  cases l.left.leafFlavor with
  | user => trivial
  | role => exact fun _ _ => rfl
  | type => exact fun _ _ => rfl
  | level => trivial

end Full

end Cil.Constraint
