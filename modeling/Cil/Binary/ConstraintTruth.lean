/- Cil/Binary/ConstraintTruth
   digest: Which constraint expressions are compiled to lists that evaluate to what is written. -/

import Cil.Binary.ConstraintNames

set_option autoImplicit false
set_option relaxedAutoImplicit false

namespace Cil.Constraint

open Cil.Build Cil.Library Cil.Library.Postfix Cil.Verify

section Contexts

/-- A context of the policy, with the values of its user, role and type. -/
structure SepolContext (ℓ : Type) where
  user : Nat
  role : Nat
  type : Nat
  low : ℓ
  high : ℓ
  user_pos : 0 < user
  role_pos : 0 < role
  type_pos : 0 < type

/-- The contexts that a constraint is about; the third one only exists for transitions. -/
structure Contexts (ℓ : Type) where
  source : SepolContext ℓ
  target : SepolContext ℓ
  third : Option (SepolContext ℓ)

/-- How roles and levels of the policy are compared. -/
structure Comparison (ℓ : Type) where
  roleDom : Nat → Nat → Bool
  levelEq : ℓ → ℓ → Bool
  levelDom : ℓ → ℓ → Bool

variable {ℓ : Type} (C : Comparison ℓ)

/-- Two values compared for equality, which is all that users and types can be. -/
def compareValues (a b : Nat) : CexprOp → Option Bool
  | .eq => some (a == b)
  | .neq => some (a != b)
  | _ => none

def compareRoles (a b : Nat) : CexprOp → Bool
  | .eq => a == b
  | .neq => a != b
  | .dom => C.roleDom a b
  | .domby => C.roleDom b a
  | .incomp => !C.roleDom a b && !C.roleDom b a

def compareLevels (a b : ℓ) : CexprOp → Bool
  | .eq => C.levelEq a b
  | .neq => !C.levelEq a b
  | .dom => C.levelDom a b
  | .domby => C.levelDom b a
  | .incomp => !C.levelDom a b && !C.levelDom b a

/-- Membership, or its opposite. -/
def compareNames (member : Bool) : CexprOp → Option Bool
  | .eq => some member
  | .neq => some !member
  | _ => none

end Contexts

section Reading

variable {β ℓ : Type} (B : EnumBitmap β) (C : Comparison ℓ) (ctx : Contexts ℓ)

/-- The value that the names of a leaf are compared with. -/
def attrValue : Attr → Option Nat
  | .user => some ctx.source.user
  | .userTarget => some ctx.target.user
  | .userXtarget => ctx.third.map SepolContext.user
  | .role => some ctx.source.role
  | .roleTarget => some ctx.target.role
  | .roleXtarget => ctx.third.map SepolContext.role
  | .type => some ctx.source.type
  | .typeTarget => some ctx.target.type
  | .typeXtarget => ctx.third.map SepolContext.type
  | _ => none

/-- The policy library's reading of a leaf of type `CEXPR_ATTR`; `none` where it gives up. -/
def attrLeaf (op : CexprOp) : Attr → Option Bool
  | .user => compareValues ctx.source.user ctx.target.user op
  | .role => some (compareRoles C ctx.source.role ctx.target.role op)
  | .type => compareValues ctx.source.type ctx.target.type op
  | .l1l2 => some (compareLevels C ctx.source.low ctx.target.low op)
  | .l1h2 => some (compareLevels C ctx.source.low ctx.target.high op)
  | .h1l2 => some (compareLevels C ctx.source.high ctx.target.low op)
  | .h1h2 => some (compareLevels C ctx.source.high ctx.target.high op)
  | .l1h1 => some (compareLevels C ctx.source.low ctx.source.high op)
  | .l2h2 => some (compareLevels C ctx.target.low ctx.target.high op)
  | _ => none

/-- Its reading of a leaf. -/
def leafValue (cell : Cexpr β) : Option Bool := do
  let attr ← cell.attr
  let op ← cell.op
  match cell.exprType with
  | .attr => attrLeaf C ctx op attr
  | .names => do
      let value ← attrValue ctx attr
      compareNames (B.getBit cell.names (value - 1)) op
  | _ => none

end Reading

section Written

variable {β δ ℓ : Type} (B : EnumBitmap β) (T : Tables β δ) (get : LeafFlavor → String → Option δ)
  (C : Comparison ℓ) (ctx : Contexts ℓ)

/-- What an operand keyword stands for: the value of a user, a role or a type, or a level. -/
def operandValue : Operand → Option (LeafFlavor × Nat ⊕ ℓ)
  | .u1 => some (.inl (.user, ctx.source.user))
  | .u2 => some (.inl (.user, ctx.target.user))
  | .u3 => ctx.third.map fun c => .inl (.user, c.user)
  | .r1 => some (.inl (.role, ctx.source.role))
  | .r2 => some (.inl (.role, ctx.target.role))
  | .r3 => ctx.third.map fun c => .inl (.role, c.role)
  | .t1 => some (.inl (.type, ctx.source.type))
  | .t2 => some (.inl (.type, ctx.target.type))
  | .t3 => ctx.third.map fun c => .inl (.type, c.type)
  | .l1 => some (.inr ctx.source.low)
  | .l2 => some (.inr ctx.target.low)
  | .h1 => some (.inr ctx.source.high)
  | .h2 => some (.inr ctx.target.high)

/-- The comparison of two operands, if they can be compared. -/
def operandsTruth (op : CexprOp) : LeafFlavor × Nat ⊕ ℓ → LeafFlavor × Nat ⊕ ℓ → Option Bool
  | .inl (.role, a), .inl (.role, b) => some (compareRoles C a b op)
  | .inl (.user, a), .inl (.user, b) => compareValues a b op
  | .inl (.type, a), .inl (.type, b) => compareValues a b op
  | .inr a, .inr b => some (compareLevels C a b op)
  | _, _ => none

/-- An operand, compared with a name. -/
def nameTruth (op : CexprOp) (left : Operand) (s : String) : Option Bool := do
  let d ← get left.leafFlavor s
  match ← operandValue ctx left with
  | .inl (flavor, value) => compareNames (denotes B T flavor d value) op
  | .inr _ => none

/-- The truth of a written leaf; `none` where the operands cannot be compared. A list of names is
left out: what the builder stores of it is not a list. -/
def leafTruth (op : CexprOp) (left right : ParseNode) : Option Bool :=
  match constraintOperandFlavor left.data, constraintOperandFlavor right.data with
  | .operand l, .operand r => do
      let a ← operandValue ctx l
      let b ← operandValue ctx r
      operandsTruth C op a b
  | .operand l, .string => right.data.bind (nameTruth B T get ctx op l)
  | _, _ => none

/-- The truth of a written constraint expression. -/
def writtenTruth : ParseNode → Option Bool
  | .list [.string "not", x] => (writtenTruth x).map not
  | .list [.string "and", x, y] =>
      (writtenTruth x).bind fun a => (writtenTruth y).map fun b => a && b
  | .list [.string "or", x, y] =>
      (writtenTruth x).bind fun a => (writtenTruth y).map fun b => a || b
  | .list [.string s, x, y] =>
      (constraintOperatorFlavor s).bind fun o => (cexprOp o).bind fun op =>
        leafTruth B T get C ctx op x y
  | _ => none

end Written

section Encoding

/-- The operands of the policy library's comparisons, with an operator for them. -/
inductive EncodedPair (op : Operator) : Operand → Operand → Prop
  | users : op = .eq ∨ op = .neq → EncodedPair op .u1 .u2
  | types : op = .eq ∨ op = .neq → EncodedPair op .t1 .t2
  | roles : EncodedPair op .r1 .r2
  | l1l2 : EncodedPair op .l1 .l2
  | l1h2 : EncodedPair op .l1 .h2
  | h1l2 : EncodedPair op .h1 .l2
  | h1h2 : EncodedPair op .h1 .h2
  | l1h1 : EncodedPair op .l1 .h1
  | l2h2 : EncodedPair op .l2 .h2

/-- The policy library has an encoding for the leaf: a comparison of two operands, or
membership. -/
def StoredLeaf.HasEncoding (l : StoredLeaf) : Prop :=
  match l.right with
  | .operand r => EncodedPair l.op l.left r
  | _ => (l.op = .eq ∨ l.op = .neq) ∧ l.left.leafFlavor ≠ .level

end Encoding

section Leaves

variable {β δ ℓ : Type} {B : EnumBitmap β} {T : Tables β δ} {get : LeafFlavor → String → Option δ}
  {C : Comparison ℓ} {ctx : Contexts ℓ} {statement : Statement}

/-- There is a third context in transitions. -/
def Contexts.For (ctx : Contexts ℓ) (statement : Statement) : Prop :=
  statement = .validatetrans ∨ statement = .mlsvalidatetrans → ctx.third.isSome = true

/-- What a stored leaf says about what was written. -/
structure LeafOf (statement : Statement) (o : Operator) (left right : ParseNode)
    (l : StoredLeaf) : Prop where
  op : l.op = o
  left : constraintOperandFlavor left.data = .operand l.left
  right : match l.right with
    | .operand r => constraintOperandFlavor right.data = .operand r
    | .string s => constraintOperandFlavor right.data = .string ∧ right.data = some s ∧
        verifyConstraintLeafExprSyntax l.left .string o statement = true
    | .address => True

private theorem leafOf_of_fill {op : Operator} {left right : ParseNode} {l : StoredLeaf}
    (h : fillConstraintLeafExpr statement op left right = some l) :
    LeafOf statement op left right l := by
  unfold fillConstraintLeafExpr at h
  split at h
  · rename_i lop hleft
    dsimp only at h
    split_ifs at h with hverify
    split at h
    · rename_i r hright
      cases h
      exact ⟨rfl, hleft, hright⟩
    · cases h
      exact ⟨rfl, hleft, trivial⟩
    · rename_i hright
      obtain ⟨s, hs, rfl⟩ := Option.map_eq_some_iff.mp h
      rw [hright] at hverify
      exact ⟨rfl, hleft, hright, hs, hverify⟩
  · cases h

/-- The cell is worth what the leaf is worth as it is written. -/
def LeafMeans (B : EnumBitmap β) (T : Tables β δ) (get : LeafFlavor → String → Option δ)
    (statement : Statement) (o : CexprOp) (left right : ParseNode) (cell : Cexpr β) : Prop :=
  ∀ (ℓ : Type) (C : Comparison ℓ) (ctx : Contexts ℓ), ctx.For statement →
    ∃ b, leafTruth B T get C ctx o left right = some b ∧ leafValue B C ctx cell = some b

private theorem cexprOp_some {op : Operator} (hnot : op ≠ .not) (hand : op ≠ .and)
    (hor : op ≠ .or) :
    ∃ o, cexprOp op = some o := by
  cases op with
  | not => exact absurd rfl hnot
  | and => exact absurd rfl hand
  | or => exact absurd rfl hor
  | _ => exact ⟨_, rfl⟩

private theorem compareValues_some {op : Operator} (hop : op = .eq ∨ op = .neq) {o : CexprOp}
    (ho : cexprOp op = some o) (a b : Nat) : ∃ c, compareValues a b o = some c := by
  rcases hop with rfl | rfl
  · cases ho
    exact ⟨_, rfl⟩
  · cases ho
    exact ⟨_, rfl⟩

private theorem compareNames_some {op : Operator} (hop : op = .eq ∨ op = .neq) {o : CexprOp}
    (ho : cexprOp op = some o) (member : Bool) : ∃ c, compareNames member o = some c := by
  rcases hop with rfl | rfl
  · cases ho
    exact ⟨_, rfl⟩
  · cases ho
    exact ⟨_, rfl⟩

/-- An encoded pair is compared in the policy as it is written. -/
theorem EncodedPair.attr {op : Operator} {l r : Operand} (h : EncodedPair op l r) {o : CexprOp}
    (ho : cexprOp op = some o) :
    ∃ attr, cexprAttr l (.operand r : Right δ) = some attr ∧
      ∀ (ℓ : Type) (C : Comparison ℓ) (ctx : Contexts ℓ), ∃ a b c,
        operandValue ctx l = some a ∧ operandValue ctx r = some b ∧
        operandsTruth C o a b = some c ∧ attrLeaf C ctx o attr = some c := by
  cases h with
  | users hop =>
    refine ⟨.user, rfl, fun ℓ C ctx => ?_⟩
    obtain ⟨c, hc⟩ := compareValues_some hop ho ctx.source.user ctx.target.user
    exact ⟨_, _, c, rfl, rfl, hc, hc⟩
  | types hop =>
    refine ⟨.type, rfl, fun ℓ C ctx => ?_⟩
    obtain ⟨c, hc⟩ := compareValues_some hop ho ctx.source.type ctx.target.type
    exact ⟨_, _, c, rfl, rfl, hc, hc⟩
  | roles => exact ⟨.role, rfl, fun ℓ C ctx => ⟨_, _, _, rfl, rfl, rfl, rfl⟩⟩
  | l1l2 => exact ⟨.l1l2, rfl, fun ℓ C ctx => ⟨_, _, _, rfl, rfl, rfl, rfl⟩⟩
  | l1h2 => exact ⟨.l1h2, rfl, fun ℓ C ctx => ⟨_, _, _, rfl, rfl, rfl, rfl⟩⟩
  | h1l2 => exact ⟨.h1l2, rfl, fun ℓ C ctx => ⟨_, _, _, rfl, rfl, rfl, rfl⟩⟩
  | h1h2 => exact ⟨.h1h2, rfl, fun ℓ C ctx => ⟨_, _, _, rfl, rfl, rfl, rfl⟩⟩
  | l1h1 => exact ⟨.l1h1, rfl, fun ℓ C ctx => ⟨_, _, _, rfl, rfl, rfl, rfl⟩⟩
  | l2h2 => exact ⟨.l2h2, rfl, fun ℓ C ctx => ⟨_, _, _, rfl, rfl, rfl, rfl⟩⟩

/-- Two operands that are encoded. -/
private theorem operands_mean {op : Operator} {left right : ParseNode} {l r : Operand}
    (hleft : constraintOperandFlavor left.data = .operand l)
    (hright : constraintOperandFlavor right.data = .operand r) (hpair : EncodedPair op l r)
    {o : CexprOp} (ho : cexprOp op = some o) :
    ∃ cell, leafCell B T ⟨op, l, .operand r⟩ = some cell ∧
      LeafMeans B T get statement o left right cell := by
  obtain ⟨attr, hattr, hmeans⟩ := hpair.attr (δ := δ) ho
  refine ⟨⟨.attr, some attr, cexprOp op, B.init, B.init⟩, ?_, ?_⟩
  · unfold leafCell constrainExprLeafToSepolExpr
    simp only [hattr]
    rfl
  · intro ℓ C ctx _
    obtain ⟨a, b, c, ha, hb, htruth, hleaf⟩ := hmeans ℓ C ctx
    refine ⟨c, ?_, ?_⟩
    · unfold leafTruth
      simp only [hleft, hright, ha, hb]
      exact htruth
    · rw [leafValue, ho]
      exact hleaf

/-- The left operand of names is what the policy library takes their bit of. -/
private theorem operandValue_eq {l : Operand} (hlevel : l.leafFlavor ≠ .level) {d : δ} {attr : Attr}
    (hattr : cexprAttr l (.datum d) = some attr) :
    operandValue ctx l = (attrValue ctx attr).map fun value => .inl (l.leafFlavor, value) := by
  cases l with
  | l1 => exact absurd rfl hlevel
  | l2 => exact absurd rfl hlevel
  | h1 => exact absurd rfl hlevel
  | h2 => exact absurd rfl hlevel
  | u3 =>
    cases hattr
    rw [attrValue, operandValue, Option.map_map]
    rfl
  | r3 =>
    cases hattr
    rw [attrValue, operandValue, Option.map_map]
    rfl
  | t3 =>
    cases hattr
    rw [attrValue, operandValue, Option.map_map]
    rfl
  | _ =>
    cases hattr
    rfl

private theorem attrValue_pos {attr : Attr} {value : Nat} (h : attrValue ctx attr = some value) :
    0 < value := by
  cases attr with
  | user => cases h; exact ctx.source.user_pos
  | userTarget => cases h; exact ctx.target.user_pos
  | userXtarget =>
    obtain ⟨c, -, rfl⟩ := Option.map_eq_some_iff.mp h
    exact c.user_pos
  | role => cases h; exact ctx.source.role_pos
  | roleTarget => cases h; exact ctx.target.role_pos
  | roleXtarget =>
    obtain ⟨c, -, rfl⟩ := Option.map_eq_some_iff.mp h
    exact c.role_pos
  | type => cases h; exact ctx.source.type_pos
  | typeTarget => cases h; exact ctx.target.type_pos
  | typeXtarget =>
    obtain ⟨c, -, rfl⟩ := Option.map_eq_some_iff.mp h
    exact c.type_pos
  | _ => cases h

/-- The third context is only asked for where it exists. -/
private theorem attrValue_some {l : Operand} (hlevel : l.leafFlavor ≠ .level) {d : δ} {attr : Attr}
    (hattr : cexprAttr l (.datum d) = some attr) {op : Operator}
    (hverify : verifyConstraintLeafExprSyntax l .string op statement = true)
    (hctx : ctx.For statement) : ∃ value, attrValue ctx attr = some value := by
  have hthird : statement = .mlsvalidatetrans → ∃ c, ctx.third = some c := fun h =>
    Option.isSome_iff_exists.mp (hctx (Or.inr h))
  cases l with
  | l1 => exact absurd rfl hlevel
  | l2 => exact absurd rfl hlevel
  | h1 => exact absurd rfl hlevel
  | h2 => exact absurd rfl hlevel
  | u3 =>
    obtain ⟨c, hc⟩ := hthird (by simpa [verifyConstraintLeafExprSyntax] using hverify)
    cases hattr
    exact ⟨c.user, by rw [attrValue, hc]; rfl⟩
  | r3 =>
    obtain ⟨c, hc⟩ := hthird (by simpa [verifyConstraintLeafExprSyntax] using hverify)
    cases hattr
    exact ⟨c.role, by rw [attrValue, hc]; rfl⟩
  | t3 =>
    obtain ⟨c, hc⟩ := hthird (by simpa [verifyConstraintLeafExprSyntax] using hverify)
    cases hattr
    exact ⟨c.type, by rw [attrValue, hc]; rfl⟩
  | _ =>
    cases hattr
    exact ⟨_, rfl⟩

/-- A name that is found. -/
private theorem name_means {op : Operator} {left right : ParseNode} {l : Operand} {s : String}
    {d : δ} (hleft : constraintOperandFlavor left.data = .operand l)
    (hright : constraintOperandFlavor right.data = .string) (hs : right.data = some s)
    (hverify : verifyConstraintLeafExprSyntax l .string op statement = true)
    (hop : op = .eq ∨ op = .neq) (hlevel : l.leafFlavor ≠ .level)
    (hget : get l.leafFlavor s = some d) (hcomplete : T.Complete B l.leafFlavor d)
    (hnumbered : T.Numbered l.leafFlavor d) {o : CexprOp} (ho : cexprOp op = some o) :
    ∃ cell, leafCell B T ⟨op, l, .datum d⟩ = some cell ∧
      LeafMeans B T get statement o left right cell := by
  have hh2 : l ≠ .h2 := by
    intro hl
    rw [hl] at hlevel
    exact hlevel rfl
  obtain ⟨attr, hattr⟩ := cexprAttr_some hh2 (.datum d)
  obtain ⟨names, typeNames, hrun, hbits⟩ := datum_spec hcomplete hlevel
    ⟨.names, some attr, cexprOp op, B.init, B.init⟩ ()
  refine ⟨⟨.names, some attr, cexprOp op, names, typeNames⟩, ?_, ?_⟩
  · unfold leafCell constrainExprLeafToSepolExpr
    simp only [hattr, hrun]
  · intro ℓ C ctx hctx
    obtain ⟨value, hvalue⟩ := attrValue_some hlevel hattr hverify hctx
    have hoperand : operandValue ctx l = some (.inl (l.leafFlavor, value)) := by
      rw [operandValue_eq hlevel hattr, hvalue]
      rfl
    have hbit := hbits hnumbered value (attrValue_pos hvalue)
    rw [B.getBit_init, Bool.false_or] at hbit
    obtain ⟨b, hb⟩ := compareNames_some hop ho (denotes B T l.leafFlavor d value)
    rw [hs] at hright
    refine ⟨b, ?_, ?_⟩
    · unfold leafTruth nameTruth
      simp only [hleft, hright, hs, Option.bind_some, hget, Option.bind_eq_bind, hoperand]
      exact hb
    · rw [leafValue, ho]
      simp only [Option.bind_eq_bind, Option.bind_some, hvalue]
      rw [hbit]
      exact hb

end Leaves

section Expressions

variable {β δ ℓ : Type} {B : EnumBitmap β} {T : Tables β δ} {get : LeafFlavor → String → Option δ}
  {statement : Statement}

/-- The operators of expressions, as words. -/
private theorem constraintOperatorFlavor_word {s : String} {op : Operator}
    (h : constraintOperatorFlavor s = some op) :
    (op = .not ↔ s = "not") ∧ (op = .and ↔ s = "and") ∧ (op = .or ↔ s = "or") := by
  unfold constraintOperatorFlavor at h
  split at h <;> cases h <;> simp

private theorem writtenTruth_leaf {C : Comparison ℓ} {ctx : Contexts ℓ} {s : String} {op : Operator}
    {x y : ParseNode} (hop : constraintOperatorFlavor s = some op) (hand : op ≠ .and)
    (hor : op ≠ .or) {o : CexprOp} (ho : cexprOp op = some o) :
    writtenTruth B T get C ctx (.list [.string s, x, y]) = leafTruth B T get C ctx o x y := by
  obtain ⟨-, hands, hors⟩ := constraintOperatorFlavor_word hop
  rw [writtenTruth, hop, Option.bind_some, ho, Option.bind_some]
  · intro heq
    exact hand (hands.mpr heq)
  · intro heq
    exact hor (hors.mpr heq)

/-- The expression has a term that is worth what is written. -/
def Means (B : EnumBitmap β) (T : Tables β δ) (get : LeafFlavor → String → Option δ)
    (statement : Statement) (node : ParseNode) (t : Term (Cexpr β)) : Prop :=
  ∀ (ℓ : Type) (C : Comparison ℓ) (ctx : Contexts ℓ), ctx.For statement →
    ∃ b, writtenTruth B T get C ctx node = some b ∧ Yields (evalCell (leafValue B C ctx)) t b

/-- A leaf that has an encoding. -/
private theorem leaf_means {s : String} {op : Operator} {x y : ParseNode} {l : StoredLeaf}
    (hop : constraintOperatorFlavor s = some op) (hnot : op ≠ .not) (hand : op ≠ .and)
    (hor : op ≠ .or) (hfill : fillConstraintLeafExpr statement op x y = some l)
    (haddress : l.right ≠ .address) (hfound : l.Found B T get) (hnumbered : l.Numbered T get)
    (hencoding : l.HasEncoding) :
    ∃ l' cell, (∀ (σ : Type) (s : σ), resolveLeaf get l s = some (.ok l' s)) ∧
      leafCell B T l' = some cell ∧
      Means B T get statement (.list [.string s, x, y]) (.leaf cell) := by
  obtain ⟨o, ho⟩ := cexprOp_some hnot hand hor
  obtain ⟨hopl, hleft, hright⟩ := leafOf_of_fill hfill
  obtain ⟨lop, left, right⟩ := l
  dsimp only at hopl hleft hright
  subst hopl
  have hmeans : ∀ cell, LeafMeans B T get statement o x y cell → IsLeaf cell →
      Means B T get statement (.list [.string s, x, y]) (.leaf cell) := by
    intro cell hleaf hcell ℓ C ctx hctx
    obtain ⟨b, htruth, hvalue⟩ := hleaf ℓ C ctx hctx
    refine ⟨b, by rw [writtenTruth_leaf hop hand hor ho]; exact htruth, .leaf fun stack => ?_⟩
    unfold evalCell
    rcases hcell with hcell | hcell
    · rw [hcell]
      simp only [hvalue]
      rfl
    · rw [hcell]
      simp only [hvalue]
      rfl
  cases right with
  | operand r =>
    have hpair : ∃ cell, leafCell B T ⟨lop, left, .operand r⟩ = some cell ∧
        LeafMeans B T get statement o x y cell := operands_mean hleft hright hencoding ho
    obtain ⟨cell, hcell, hleaf⟩ := hpair
    exact ⟨_, cell, fun σ s => rfl, hcell, hmeans cell hleaf (leafCell_isLeaf hcell)⟩
  | string name =>
    obtain ⟨hflavor, hname, hverify⟩ := hright
    obtain ⟨d, hget, hcomplete⟩ := hfound name rfl
    obtain ⟨cell, hcell, hleaf⟩ := name_means hleft hflavor hname hverify hencoding.1 hencoding.2
      hget hcomplete (hnumbered name d rfl hget) ho
    refine ⟨_, cell, fun σ s => ?_, hcell, hmeans cell hleaf (leafCell_isLeaf hcell)⟩
    rw [resolveLeaf]
    simp only [hget]
    rfl
  | address => exact absurd rfl haddress

/-- An expression whose leaves have encodings. -/
theorem Stored.means {node : ParseNode} {e : ConstraintExpr StoredLeaf}
    (h : Stored statement node e)
    (hleaves : ∀ l ∈ e.leaves, l.right ≠ .address ∧ l.Found B T get ∧ l.Numbered T get ∧
      l.HasEncoding) :
    ∃ x t, (∀ (σ : Type) (s : σ), resolveExpr get e s = some (.ok x s)) ∧
      exprTerm B T x = some t ∧ Means B T get statement node t := by
  induction h with
  | @leaf s op x y l hop hnot hand hor _ hfill =>
    obtain ⟨haddress, hfound, hnumbered, hencoding⟩ := hleaves l List.mem_cons_self
    obtain ⟨l', cell, hl', hcell, hmeans⟩ :=
      leaf_means hop hnot hand hor hfill haddress hfound hnumbered hencoding
    refine ⟨.leaf l', .leaf cell, fun σ s => (Call.bind_of_ok (hl' σ s)).trans rfl, ?_, hmeans⟩
    rw [exprTerm, hcell]
    rfl
  | @not s y e hop _ _ ih =>
    obtain ⟨x, t, hx, ht, hmeans⟩ := ih hleaves
    refine ⟨.not x, .unary (initCexpr B .not) t,
      fun σ s => (Call.bind_of_ok (hx σ s)).trans rfl, by rw [exprTerm, ht]; rfl, ?_⟩
    intro ℓ C ctx hctx
    obtain ⟨b, htruth, hyields⟩ := hmeans ℓ C ctx hctx
    have hs : s = "not" := (constraintOperatorFlavor_word hop).1.mp rfl
    refine ⟨!b, ?_, .unary hyields fun stack => rfl⟩
    rw [hs, writtenTruth, htruth]
    rfl
  | @and s y z e f hop _ _ _ ihe ihf =>
    obtain ⟨x, t, hx, ht, hmeanse⟩ := ihe fun l hl => hleaves l (List.mem_append_left _ hl)
    obtain ⟨x', u, hx', hu, hmeansf⟩ := ihf fun l hl => hleaves l (List.mem_append_right _ hl)
    refine ⟨.and x x', .binary (initCexpr B .and) t u, fun σ s =>
      (Call.bind_of_ok (hx σ s)).trans ((Call.bind_of_ok (hx' σ s)).trans rfl),
      by rw [exprTerm, ht, hu]; rfl, ?_⟩
    intro ℓ C ctx hctx
    obtain ⟨b, htruthe, hyieldse⟩ := hmeanse ℓ C ctx hctx
    obtain ⟨c, htruthf, hyieldsf⟩ := hmeansf ℓ C ctx hctx
    have hs : s = "and" := (constraintOperatorFlavor_word hop).2.1.mp rfl
    refine ⟨b && c, ?_, .binary hyieldse hyieldsf fun stack => rfl⟩
    rw [hs, writtenTruth, htruthe, htruthf]
    rfl
  | @or s y z e f hop _ _ _ ihe ihf =>
    obtain ⟨x, t, hx, ht, hmeanse⟩ := ihe fun l hl => hleaves l (List.mem_append_left _ hl)
    obtain ⟨x', u, hx', hu, hmeansf⟩ := ihf fun l hl => hleaves l (List.mem_append_right _ hl)
    refine ⟨.or x x', .binary (initCexpr B .or) t u, fun σ s =>
      (Call.bind_of_ok (hx σ s)).trans ((Call.bind_of_ok (hx' σ s)).trans rfl),
      by rw [exprTerm, ht, hu]; rfl, ?_⟩
    intro ℓ C ctx hctx
    obtain ⟨b, htruthe, hyieldse⟩ := hmeanse ℓ C ctx hctx
    obtain ⟨c, htruthf, hyieldsf⟩ := hmeansf ℓ C ctx hctx
    have hs : s = "or" := (constraintOperatorFlavor_word hop).2.2.mp rfl
    refine ⟨b || c, ?_, .binary hyieldse hyieldsf fun stack => rfl⟩
    rw [hs, writtenTruth, htruthe, htruthf]
    rfl

end Expressions

section Rejected

variable {β δ : Type} {B : EnumBitmap β} {T : Tables β δ} {get : LeafFlavor → String → Option δ}

private theorem helper_returns {x : ConstraintExpr (Leaf δ)} {t : Term (Cexpr β)}
    (h : exprTerm B T x = some t) : Call.Returns (constrainExprToSepolExprHelper B T x) := by
  intro s
  have hnot : exprTerm B T x = none → False := by
    intro hnone
    rw [h] at hnone
    cases hnone
  obtain ⟨r, h', hrun, -⟩ :=
    ends_false_iff.mp ((constrainExprToSepolExprHelper_ends x s).weaken hnot)
  exact Or.inl ⟨r, h', hrun⟩

/-- A leaf with `h2` on the left is not encoded. -/
private theorem helper_rejects {op : Operator} {right : Right δ} :
    Call.Rejects (constrainExprToSepolExprHelper B T (.leaf ⟨op, .h2, right⟩)) := by
  intro s
  rw [constrainExprToSepolExprHelper]
  exact ⟨.err, s, rfl⟩

private theorem linked_returns {r₁ r₂ : Nat × Nat} {op : Nat} :
    Call.Returns (do
      Heap.setLink r₁.2 r₂.1
      Heap.setLink r₂.2 op
      pure (r₁.1, op) : Call Rc (Heap (Cexpr β)) (Nat × Nat)) :=
  (Call.returns_modify _).bind fun _ => (Call.returns_modify _).bind fun _ => Call.returns_pure _

private theorem alloc_returns (cell : Cexpr β) :
    Call.Returns (Heap.alloc cell : Call Rc (Heap (Cexpr β)) Nat) :=
  fun s => Or.inl ⟨s.size, Heap.allocated s cell, rfl⟩

/-- What is found, and has no list in it, is resolved and compiled, or rejected; it is rejected if
`h2` is on the left of a leaf. -/
theorem expr_returns {e : ConstraintExpr StoredLeaf}
    (h : ∀ l ∈ e.leaves, l.right ≠ .address ∧ l.Found B T get ∧
      ∀ s, l.right = .string s → l.left.leafFlavor ≠ .level) :
    ∃ x, (∀ (σ : Type) (s : σ), resolveExpr get e s = some (.ok x s)) ∧
      Call.Returns (constrainExprToSepolExprHelper B T x) ∧
      ((∃ l ∈ e.leaves, l.left = .h2) →
        Call.Rejects (constrainExprToSepolExprHelper B T x)) := by
  induction e with
  | leaf l =>
    obtain ⟨haddress, hfound, hstring⟩ := h l List.mem_cons_self
    by_cases hh2 : l.left = .h2
    · obtain ⟨op, left, right⟩ := l
      dsimp only at hh2
      subst hh2
      have hrejects : ∀ right : Right δ,
          Call.Rejects (constrainExprToSepolExprHelper B T (.leaf ⟨op, .h2, right⟩)) :=
        fun _ => helper_rejects
      cases right with
      | operand o =>
        exact ⟨.leaf ⟨op, .h2, .operand o⟩, fun σ s => rfl, fun s => Or.inr (hrejects _ s),
          fun _ => hrejects _⟩
      | string name => exact absurd rfl (hstring name rfl)
      | address => exact absurd rfl haddress
    · obtain ⟨l', cell, hl', hcell⟩ := leaf_found ⟨haddress, hh2⟩ hfound hstring
      have hterm : exprTerm B T (.leaf l') = some (.leaf cell) := by
        rw [exprTerm, hcell]
        rfl
      refine ⟨.leaf l', fun σ s => (Call.bind_of_ok (hl' σ s)).trans rfl, helper_returns hterm, ?_⟩
      intro hex
      obtain ⟨l₁, hl₁, hleft⟩ := hex
      rw [ConstraintExpr.leaves, List.mem_singleton] at hl₁
      rw [hl₁] at hleft
      exact absurd hleft hh2
  | not e ih =>
    obtain ⟨x, hx, hreturns, hrejects⟩ := ih h
    refine ⟨.not x, fun σ s => (Call.bind_of_ok (hx σ s)).trans rfl, ?_, ?_⟩
    · exact (alloc_returns _).bind fun _ => hreturns.bind fun _ =>
        (Call.returns_modify _).bind fun _ => Call.returns_pure _
    · intro hex
      exact (alloc_returns _).bind_rejects fun _ => (hrejects hex).bind _
  | and e f ihe ihf =>
    obtain ⟨x, hx, hreturnsx, hrejectsx⟩ := ihe fun l hl => h l (List.mem_append_left _ hl)
    obtain ⟨y, hy, hreturnsy, hrejectsy⟩ := ihf fun l hl => h l (List.mem_append_right _ hl)
    refine ⟨.and x y, fun σ s =>
      (Call.bind_of_ok (hx σ s)).trans ((Call.bind_of_ok (hy σ s)).trans rfl), ?_, ?_⟩
    · exact (alloc_returns _).bind fun _ => hreturnsx.bind fun _ => hreturnsy.bind fun _ =>
        linked_returns
    · intro hex
      obtain ⟨l, hl, hleft⟩ := hex
      rcases List.mem_append.mp hl with hl | hl
      · exact (alloc_returns _).bind_rejects fun _ => (hrejectsx ⟨l, hl, hleft⟩).bind _
      · exact (alloc_returns _).bind_rejects fun _ => hreturnsx.bind_rejects fun _ =>
          (hrejectsy ⟨l, hl, hleft⟩).bind _
  | or e f ihe ihf =>
    obtain ⟨x, hx, hreturnsx, hrejectsx⟩ := ihe fun l hl => h l (List.mem_append_left _ hl)
    obtain ⟨y, hy, hreturnsy, hrejectsy⟩ := ihf fun l hl => h l (List.mem_append_right _ hl)
    refine ⟨.or x y, fun σ s =>
      (Call.bind_of_ok (hx σ s)).trans ((Call.bind_of_ok (hy σ s)).trans rfl), ?_, ?_⟩
    · exact (alloc_returns _).bind fun _ => hreturnsx.bind fun _ => hreturnsy.bind fun _ =>
        linked_returns
    · intro hex
      obtain ⟨l, hl, hleft⟩ := hex
      rcases List.mem_append.mp hl with hl | hl
      · exact (alloc_returns _).bind_rejects fun _ => (hrejectsx ⟨l, hl, hleft⟩).bind _
      · exact (alloc_returns _).bind_rejects fun _ => hreturnsx.bind_rejects fun _ =>
          (hrejectsy ⟨l, hl, hleft⟩).bind _

end Rejected

section Agreement

variable {statement : Statement} {node : ParseNode}

/-- The names of a stored expression are looked up, and it is compiled. -/
def compileStored {β δ : Type} (B : EnumBitmap β) (T : Tables β δ)
    (get : LeafFlavor → String → Option δ) (e : ConstraintExpr StoredLeaf) :
    Call Rc (Heap (Cexpr β)) Nat := do
  let x ← resolveExpr get e
  constrainExprToSepolExpr B T x

/-- An accepted constraint expression, whose names are found and not those of roles or types of
abstract blocks, is rejected by the back end, or all its leaves have encodings and the list that it
is compiled to leaves its truth, for all contexts and however roles and levels compare. -/
def CompiledAsWritten (statement : Statement) (node : ParseNode) : Prop :=
  ∀ (β δ : Type) (B : EnumBitmap β) (T : Tables β δ) (get : LeafFlavor → String → Option δ)
    (e : ConstraintExpr StoredLeaf) (h : Heap (Cexpr β)),
    genConstraintExpr statement node = some e →
    (∀ l ∈ e.leaves, l.Found B T get ∧ l.Numbered T get) →
    (∃ rc h', compileStored B T get e h = some (.failed rc h')) ∨
      (∀ l ∈ e.leaves, l.HasEncoding) ∧
        ∃ head h', compileStored B T get e h = some (.ok head h') ∧
          ∀ (ℓ : Type) (C : Comparison ℓ) (ctx : Contexts ℓ), ctx.For statement →
            ∃ b, writtenTruth B T get C ctx node = some b ∧
              run (evalCell (leafValue B C ctx)) (h'.contents h'.size head) [] = some [b]

/-- Two resolved operands, or the address of a list is followed. -/
private theorem resolve_binary {δ σ : Type} {get : LeafFlavor → String → Option δ}
    {e f : ConstraintExpr StoredLeaf} {s : σ}
    {op : ConstraintExpr (Leaf δ) → ConstraintExpr (Leaf δ) → ConstraintExpr (Leaf δ)}
    (he : (∃ x, resolveExpr get e s = some (.ok x s)) ∧ (∀ l ∈ e.leaves, l.right ≠ .address) ∨
      resolveExpr get e s = some .crash)
    (hf : (∃ x, resolveExpr get f s = some (.ok x s)) ∧ (∀ l ∈ f.leaves, l.right ≠ .address) ∨
      resolveExpr get f s = some .crash) :
    (∃ x, (do
        let x ← resolveExpr get e
        let y ← resolveExpr get f
        pure (op x y) : Call Rc σ (ConstraintExpr (Leaf δ))) s = some (.ok x s)) ∧
        (∀ l ∈ e.leaves ++ f.leaves, l.right ≠ .address) ∨
      (do
        let x ← resolveExpr get e
        let y ← resolveExpr get f
        pure (op x y) : Call Rc σ (ConstraintExpr (Leaf δ))) s = some .crash := by
  rcases he with ⟨⟨x, hx⟩, haddresse⟩ | hcrash
  · rcases hf with ⟨⟨y, hy⟩, haddressf⟩ | hcrash
    · left
      refine ⟨⟨op x y, (Call.bind_of_ok hx).trans ((Call.bind_of_ok hy).trans rfl)⟩, ?_⟩
      intro l hl
      rcases List.mem_append.mp hl with hl | hl
      · exact haddresse l hl
      · exact haddressf l hl
    · exact Or.inr ((Call.bind_of_ok hx).trans (Call.bind_of_crash hcrash))
  · exact Or.inr (Call.bind_of_crash hcrash)

/-- Where every name is found, resolving only ends badly at the address of a list. -/
private theorem resolveExpr_crash {δ σ : Type} {get : LeafFlavor → String → Option δ}
    (hget : ∀ flavor s, ∃ d, get flavor s = some d) (e : ConstraintExpr StoredLeaf) (s : σ) :
    (∃ x, resolveExpr get e s = some (.ok x s)) ∧ (∀ l ∈ e.leaves, l.right ≠ .address) ∨
      resolveExpr get e s = some .crash := by
  induction e with
  | leaf l =>
    obtain ⟨op, left, right⟩ := l
    cases right with
    | operand o =>
      refine Or.inl ⟨⟨.leaf ⟨op, left, .operand o⟩, rfl⟩, ?_⟩
      intro l hl
      rw [ConstraintExpr.leaves, List.mem_singleton] at hl
      subst hl
      exact fun haddress => StoredRight.noConfusion haddress
    | string name =>
      obtain ⟨d, hd⟩ := hget left.leafFlavor name
      have hrun : resolveLeaf get ⟨op, left, .string name⟩ s =
          some (.ok ⟨op, left, .datum d⟩ s) := by
        rw [resolveLeaf]
        simp only [hd]
        rfl
      refine Or.inl ⟨⟨.leaf ⟨op, left, .datum d⟩, (Call.bind_of_ok hrun).trans rfl⟩, ?_⟩
      intro l hl
      rw [ConstraintExpr.leaves, List.mem_singleton] at hl
      subst hl
      exact fun haddress => StoredRight.noConfusion haddress
    | address => exact Or.inr rfl
  | not e ih =>
    rcases ih with ⟨⟨x, hx⟩, haddress⟩ | hcrash
    · exact Or.inl ⟨⟨.not x, (Call.bind_of_ok hx).trans rfl⟩, haddress⟩
    · exact Or.inr (Call.bind_of_crash hcrash)
  | and e f ihe ihf => exact resolve_binary ihe ihf
  | or e f ihe ihf => exact resolve_binary ihe ihf

/-- No cells yet. -/
def noCells : Heap (Cexpr (Finset Nat)) where
  cells _ := initCexpr finsetEnumBitmap .not
  link _ := none
  size := 0

theorem CompiledAsWritten.leaves (h : CompiledAsWritten statement node)
    {e : ConstraintExpr StoredLeaf} (hbuild : genConstraintExpr statement node = some e) :
    (∀ l ∈ e.leaves, l.right ≠ .address) ∧
      ((∃ l ∈ e.leaves, l.left = .h2) ∨ ∀ l ∈ e.leaves, l.HasEncoding) := by
  have hstored := genConstraintExpr_iff.mp hbuild
  have hends := h (Finset Nat) Unit finsetEnumBitmap fullTables (fun _ _ => some ()) e noCells
    hbuild fun l _ => ⟨found_full l, numbered_full l⟩
  have haddress : ∀ l ∈ e.leaves, l.right ≠ .address := by
    rcases resolveExpr_crash (fun _ _ => ⟨(), rfl⟩) e noCells with ⟨-, haddress⟩ | hcrash
    · exact haddress
    · have hrun : compileStored finsetEnumBitmap fullTables (fun _ _ => some ()) e noCells =
          some .crash := Call.bind_of_crash hcrash
      rw [hrun] at hends
      rcases hends with ⟨rc, h', hfailed⟩ | ⟨-, head, h', hok, -⟩
      · cases hfailed
      · cases hok
  refine ⟨haddress, ?_⟩
  by_cases hh2 : ∃ l ∈ e.leaves, l.left = .h2
  · exact Or.inl hh2
  · right
    obtain ⟨x, t, hx, ht⟩ := expr_found (B := finsetEnumBitmap) (T := fullTables) fun l hl =>
      ⟨⟨haddress l hl, fun hleft => hh2 ⟨l, hl, hleft⟩⟩, found_full l, hstored.string l hl⟩
    have hnot : exprTerm finsetEnumBitmap fullTables x = none → False := by
      intro hnone
      rw [ht] at hnone
      cases hnone
    obtain ⟨r, s', hrun, -⟩ :=
      ends_false_iff.mp ((constrainExprToSepolExprHelper_ends x noCells).weaken hnot)
    have hcompile : compileStored finsetEnumBitmap fullTables (fun _ _ => some ()) e noCells =
        some (.ok r.1 s') :=
      (Call.bind_of_ok (hx _ _)).trans ((Call.bind_of_ok hrun).trans rfl)
    rcases hends with ⟨rc, h', hfailed⟩ | ⟨hencoding, -⟩
    · rw [hcompile] at hfailed
      cases hfailed
    · exact hencoding

private theorem compiledAsWritten_of_leaves
    (h : ∀ e, genConstraintExpr statement node = some e →
      (∀ l ∈ e.leaves, l.right ≠ .address) ∧
        ((∃ l ∈ e.leaves, l.left = .h2) ∨ ∀ l ∈ e.leaves, l.HasEncoding)) :
    CompiledAsWritten statement node := by
  intro β δ B T get e s hbuild hfound
  have hstored := genConstraintExpr_iff.mp hbuild
  obtain ⟨haddress, hleaves⟩ := h e hbuild
  rcases hleaves with hh2 | hencoding
  · left
    obtain ⟨x, hx, -, hrejects⟩ := expr_returns fun l hl =>
      ⟨haddress l hl, (hfound l hl).1, hstored.string l hl⟩
    have hrejected : Call.Rejects (constrainExprToSepolExpr B T x) := (hrejects hh2).bind _
    obtain ⟨rc, s', hrun⟩ := hrejected s
    exact ⟨rc, s', (Call.bind_of_ok (hx _ s)).trans hrun⟩
  · right
    obtain ⟨x, t, hx, ht, hmeans⟩ := hstored.means fun l hl =>
      ⟨haddress l hl, (hfound l hl).1, (hfound l hl).2, hencoding l hl⟩
    have hnot : exprTerm B T x = none → False := by
      intro hnone
      rw [ht] at hnone
      cases hnone
    obtain ⟨r, s', hrun, t', ht', hmade⟩ :=
      ends_false_iff.mp ((constrainExprToSepolExprHelper_ends x s).weaken hnot)
    rw [ht] at ht'
    cases ht'
    have hcompile : constrainExprToSepolExpr B T x s = some (.ok r.1 s') :=
      (Call.bind_of_ok hrun).trans rfl
    refine ⟨hencoding, r.1, s', (Call.bind_of_ok (hx _ s)).trans hcompile, ?_⟩
    intro ℓ C ctx hctx
    obtain ⟨b, htruth, hyields⟩ := hmeans ℓ C ctx hctx
    refine ⟨b, htruth, ?_⟩
    rw [hmade.seg.contents_eq s'.size (by have hsize := hmade.size; omega)]
    exact hyields.run []

end Agreement

end Cil.Constraint
