/- Cil/Binary/ConstraintStack
   digest: How many values the evaluation of an accepted constraint expression holds. -/

import Cil.Binary.ConstraintNames

set_option autoImplicit false
set_option relaxedAutoImplicit false

namespace Cil.Constraint

open Cil.Build Cil.Library Cil.Library.Postfix Cil.Verify

section Need

/-- How many values the evaluation of a written constraint expression holds: while the second
operand is evaluated, the value of the first one waits. -/
def stackNeed : ParseNode → Nat
  | .list [_, x] => stackNeed x
  | .list [.string s, x, y] =>
      match constraintOperatorFlavor s with
      | some .and => max (stackNeed x) (stackNeed y + 1)
      | some .or => max (stackNeed x) (stackNeed y + 1)
      | _ => 1
  | _ => 0

variable {Λ : Type}

namespace ConstraintExpr

/-- The same for an expression as it is stored. -/
def need : ConstraintExpr Λ → Nat
  | .leaf _ => 1
  | .not x => x.need
  | .and x y => max x.need (y.need + 1)
  | .or x y => max x.need (y.need + 1)

end ConstraintExpr

end Need

section Stored

variable {statement : Statement}

/-- A stored expression needs what was written. -/
theorem Stored.need {node : ParseNode} {e : ConstraintExpr StoredLeaf}
    (h : Stored statement node e) : e.need = stackNeed node := by
  induction h with
  | @leaf s op x y l hop hnot hand hor _ _ =>
    rw [ConstraintExpr.need, stackNeed, hop]
    cases op with
    | not => exact absurd rfl hnot
    | and => exact absurd rfl hand
    | or => exact absurd rfl hor
    | _ => rfl
  | not _ _ _ ih =>
    rw [ConstraintExpr.need, stackNeed]
    exact ih
  | and hop _ _ _ ihx ihy =>
    rw [ConstraintExpr.need, stackNeed, hop, ihx, ihy]
  | or hop _ _ _ ihx ihy =>
    rw [ConstraintExpr.need, stackNeed, hop, ihx, ihy]

end Stored

section Compiled

variable {β δ σ : Type} {B : EnumBitmap β} {T : Tables β δ}

/-- The term of an expression has a value, whatever its leaves are worth, and needs what the
expression needs. -/
theorem exprTerm_yields (value : Cexpr β → Bool) (x : ConstraintExpr (Leaf δ))
    {t : Term (Cexpr β)} (h : exprTerm B T x = some t) :
    t.need = x.need ∧ ∃ b, Yields (evalCell fun cell => some (value cell)) t b := by
  induction x generalizing t with
  | leaf l =>
    obtain ⟨cell, hcell, rfl⟩ := Option.map_eq_some_iff.mp h
    refine ⟨rfl, value cell, .leaf fun stack => ?_⟩
    rcases leafCell_isLeaf hcell with hleaf | hleaf
    · unfold evalCell
      rw [hleaf]
      rfl
    · unfold evalCell
      rw [hleaf]
      rfl
  | not x ih =>
    obtain ⟨s, hs, rfl⟩ := Option.map_eq_some_iff.mp h
    obtain ⟨hneed, b, hb⟩ := ih hs
    exact ⟨hneed, !b, .unary hb fun stack => rfl⟩
  | and x y ihx ihy =>
    obtain ⟨s, hs, h⟩ := Option.bind_eq_some_iff.mp h
    obtain ⟨t, ht, rfl⟩ := Option.map_eq_some_iff.mp h
    obtain ⟨hneedx, b, hb⟩ := ihx hs
    obtain ⟨hneedy, c, hc⟩ := ihy ht
    refine ⟨?_, b && c, .binary hb hc fun stack => rfl⟩
    rw [Term.need, ConstraintExpr.need, hneedx, hneedy]
  | or x y ihx ihy =>
    obtain ⟨s, hs, h⟩ := Option.bind_eq_some_iff.mp h
    obtain ⟨t, ht, rfl⟩ := Option.map_eq_some_iff.mp h
    obtain ⟨hneedx, b, hb⟩ := ihx hs
    obtain ⟨hneedy, c, hc⟩ := ihy ht
    refine ⟨?_, b || c, .binary hb hc fun stack => rfl⟩
    rw [Term.need, ConstraintExpr.need, hneedx, hneedy]

/-- The list that an expression is compiled to holds what the expression needs. -/
private theorem constrainExprToSepolExpr_staysWithin (x : ConstraintExpr (Leaf δ))
    (h : Heap (Cexpr β)) :
    Ends (exprTerm B T x = none)
      (fun head h' => ∀ (value : Cexpr β → Bool) (n : Nat),
        StaysWithin (evalCell fun cell => some (value cell)) n (h'.contents h'.size head) [] ↔
          x.need ≤ n)
      (constrainExprToSepolExpr B T x h) := by
  refine (constrainExprToSepolExprHelper_ends x h).bind fun r h' hpost => ends_pure ?_
  obtain ⟨t, hterm, -, hsize, hseg⟩ := hpost
  intro value n
  obtain ⟨hneed, b, hyields⟩ := exprTerm_yields value x hterm
  rw [hseg.contents_eq h'.size (by omega), hyields.staysWithin, hneed, List.length_nil,
    Nat.zero_add]

end Compiled

section Resolved

variable {β δ σ : Type} {get : LeafFlavor → String → Option δ}

/-- Resolution keeps the need of an expression. -/
theorem resolveExpr_need {e : ConstraintExpr StoredLeaf} {x : ConstraintExpr (Leaf δ)} {s s' : σ}
    (h : resolveExpr get e s = some (.ok x s')) : x.need = e.need := by
  induction e generalizing x s s' with
  | leaf l =>
    obtain ⟨l', s₁, -, h⟩ := Call.bind_ok h
    cases h
    rfl
  | not e ih =>
    obtain ⟨x', s₁, hx, h⟩ := Call.bind_ok h
    cases h
    rw [ConstraintExpr.need, ConstraintExpr.need, ih hx]
  | and e f ihe ihf =>
    obtain ⟨x', s₁, hx, h⟩ := Call.bind_ok h
    obtain ⟨y', s₂, hy, h⟩ := Call.bind_ok h
    cases h
    rw [ConstraintExpr.need, ConstraintExpr.need, ihe hx, ihf hy]
  | or e f ihe ihf =>
    obtain ⟨x', s₁, hx, h⟩ := Call.bind_ok h
    obtain ⟨y', s₂, hy, h⟩ := Call.bind_ok h
    cases h
    rw [ConstraintExpr.need, ConstraintExpr.need, ihe hx, ihf hy]

end Resolved

section Bound

/-- Whatever is in the tables and whatever its leaves are worth, the evaluation of the list that
the expression is compiled to never holds more than `CEXPR_MAXDEPTH` values. -/
def FitsStack (statement : Statement) (node : ParseNode) : Prop :=
  ∀ (β δ : Type) (B : EnumBitmap β) (T : Tables β δ) (get : LeafFlavor → String → Option δ)
    (e : ConstraintExpr StoredLeaf) (x : ConstraintExpr (Leaf δ)) (h h' : Heap (Cexpr β))
    (head : Nat),
    genConstraintExpr statement node = some e →
    (resolveExpr get e : Call Rc Unit (ConstraintExpr (Leaf δ))) () = some (.ok x ()) →
    constrainExprToSepolExpr B T x h = some (.ok head h') →
    ∀ value : Cexpr β → Bool, StaysWithin (evalCell fun cell => some (value cell))
      cexprMaxdepth.toNat (h'.contents h'.size head) []

variable {statement : Statement} {node : ParseNode}

private theorem resolveLeaf_encoded {δ : Type} {get : LeafFlavor → String → Option δ}
    {l : StoredLeaf} {l' : Leaf δ} {u : Unit} (h : resolveLeaf get l () = some (.ok l' u)) :
    l.right ≠ .address ∧ l'.left = l.left := by
  obtain ⟨op, left, right⟩ := l
  cases right with
  | operand o =>
    cases h
    exact ⟨by simp, rfl⟩
  | string s =>
    rw [resolveLeaf] at h
    cases hget : get left.leafFlavor s with
    | none =>
      simp only [hget] at h
      cases h
    | some d =>
      simp only [hget] at h
      cases h
      exact ⟨by simp, rfl⟩
  | address => cases h

/-- Only what can be encoded is resolved and has a term. -/
private theorem encoded_of_term {β δ : Type} {B : EnumBitmap β} {T : Tables β δ}
    {get : LeafFlavor → String → Option δ} {e : ConstraintExpr StoredLeaf}
    {x : ConstraintExpr (Leaf δ)} {t : Term (Cexpr β)} {u u' : Unit}
    (h : resolveExpr get e u = some (.ok x u')) (ht : exprTerm B T x = some t) :
    ∀ l ∈ e.leaves, l.Encoded := by
  induction e generalizing x t u u' with
  | leaf l =>
    intro l₁ hl₁
    rw [ConstraintExpr.leaves, List.mem_singleton] at hl₁
    subst hl₁
    obtain ⟨l', s, hl', h⟩ := Call.bind_ok h
    cases h
    obtain ⟨cell, hcell, -⟩ := Option.map_eq_some_iff.mp ht
    obtain ⟨haddress, hleft⟩ := resolveLeaf_encoded hl'
    refine ⟨haddress, ?_⟩
    intro hh2
    obtain ⟨v, hrun⟩ := leafCell_eq hcell
    rw [constrainExprLeafToSepolExpr, hleft, hh2] at hrun
    cases hrun
  | not e ih =>
    obtain ⟨y, s, hy, h⟩ := Call.bind_ok h
    cases h
    obtain ⟨t', ht', -⟩ := Option.map_eq_some_iff.mp ht
    exact ih hy ht'
  | and e f ihe ihf =>
    obtain ⟨y, s, hy, h⟩ := Call.bind_ok h
    obtain ⟨z, s', hz, h⟩ := Call.bind_ok h
    cases h
    obtain ⟨ty, hty, ht⟩ := Option.bind_eq_some_iff.mp ht
    obtain ⟨tz, htz, -⟩ := Option.map_eq_some_iff.mp ht
    intro l hl
    rcases List.mem_append.mp hl with hl | hl
    · exact ihe hy hty l hl
    · exact ihf hz htz l hl
  | or e f ihe ihf =>
    obtain ⟨y, s, hy, h⟩ := Call.bind_ok h
    obtain ⟨z, s', hz, h⟩ := Call.bind_ok h
    cases h
    obtain ⟨ty, hty, ht⟩ := Option.bind_eq_some_iff.mp ht
    obtain ⟨tz, htz, -⟩ := Option.map_eq_some_iff.mp ht
    intro l hl
    rcases List.mem_append.mp hl with hl | hl
    · exact ihe hy hty l hl
    · exact ihf hz htz l hl

theorem fitsStack_of_need
    (hneed : ∀ e, genConstraintExpr statement node = some e → (∀ l ∈ e.leaves, l.Encoded) →
      stackNeed node ≤ cexprMaxdepth.toNat) : FitsStack statement node := by
  intro β δ B T get e x h h' head hbuild hresolve hcompile value
  have hends := constrainExprToSepolExpr_staysWithin (B := B) (T := T) x h
  have hterm : ∃ t, exprTerm B T x = some t := by
    obtain ⟨r, h₁, hhelper, -⟩ := Call.bind_ok hcompile
    obtain ⟨t, ht, -⟩ := (constrainExprToSepolExprHelper_ends x h).of_ok hhelper
    exact ⟨t, ht⟩
  obtain ⟨t, ht⟩ := hterm
  refine (hends.of_ok hcompile value _).mpr ?_
  rw [resolveExpr_need hresolve, (genConstraintExpr_iff.mp hbuild).need]
  exact hneed e hbuild (encoded_of_term hresolve ht)

theorem FitsStack.need (h : FitsStack statement node) {e : ConstraintExpr StoredLeaf}
    (hbuild : genConstraintExpr statement node = some e) (hencoded : ∀ l ∈ e.leaves, l.Encoded) :
    stackNeed node ≤ cexprMaxdepth.toNat := by
  have hstored := genConstraintExpr_iff.mp hbuild
  obtain ⟨x, t, hresolve, hterm⟩ := expr_found fun l hl =>
    ⟨hencoded l hl, found_full l, hstored.string l hl⟩
  let h₀ : Heap (Cexpr (Finset Nat)) := ⟨fun _ => initCexpr finsetEnumBitmap .not, fun _ => none, 0⟩
  have hends : Ends (exprTerm finsetEnumBitmap fullTables x = none) _
      (constrainExprToSepolExpr finsetEnumBitmap fullTables x h₀) :=
    constrainExprToSepolExpr_staysWithin x h₀
  have hnot : exprTerm finsetEnumBitmap fullTables x = none → False := by
    intro hnone
    rw [hterm] at hnone
    cases hnone
  obtain ⟨head, h', hcompile, hwithin⟩ := ends_false_iff.mp (hends.weaken hnot)
  have hbound := (hwithin (fun _ => true) _).mp
    (h _ _ finsetEnumBitmap fullTables _ e x h₀ h' head hbuild (hresolve Unit ()) hcompile _)
  rw [← hstored.need, ← resolveExpr_need (hresolve Unit ())]
  exact hbound

/-- Of the accepted constraint expressions that have a postfix list exactly those fit the stack
that do not need more than there is. -/
theorem genConstraintExpr_fitsStack_iff (statement : Statement) (node : ParseNode) :
    FitsStack statement node ↔
      ∀ e, genConstraintExpr statement node = some e → (∀ l ∈ e.leaves, l.Encoded) →
        stackNeed node ≤ cexprMaxdepth.toNat :=
  ⟨fun h _ hbuild hencoded => h.need hbuild hencoded, fitsStack_of_need⟩

end Bound

section Nested

/-- `(eq u1 u2)`. -/
def sameUser : ParseNode := .list [.string "eq", .string "u1", .string "u2"]

/-- `(and (eq u1 u2) (and (eq u1 u2) ... (eq u1 u2)))`. -/
def nestedAnd : Nat → ParseNode
  | 0 => sameUser
  | n + 1 => .list [.string "and", sameUser, nestedAnd n]

def sameUserStored : ConstraintExpr StoredLeaf := .leaf ⟨.eq, .u1, .operand .u2⟩

def nestedAndStored : Nat → ConstraintExpr StoredLeaf
  | 0 => sameUserStored
  | n + 1 => .and sameUserStored (nestedAndStored n)

theorem nestedAnd_stored (n : Nat) : Stored .constrain (nestedAnd n) (nestedAndStored n) := by
  have hleaf : Stored .constrain sameUser sameUserStored :=
    .leaf (rfl : constraintOperatorFlavor "eq" = some .eq) (by simp) (by simp) (by simp) rfl rfl
  induction n with
  | zero => exact hleaf
  | succ n ih =>
    have hsyntax : verifyConstraintExprSyntax [.string "and", sameUser, nestedAnd n]
        (some .and) = true := by
      cases n <;> rfl
    exact .and rfl hsyntax hleaf ih

private theorem stackNeed_nestedAnd (n : Nat) : stackNeed (nestedAnd n) = n + 1 := by
  rw [← (nestedAnd_stored n).need]
  induction n with
  | zero => rfl
  | succ n ih =>
    rw [nestedAndStored, ConstraintExpr.need, ih]
    show max 1 (n + 1 + 1) = n + 1 + 1
    omega

/-- Five operators, each in the second operand of the one before, are accepted and do not fit. -/
theorem nestedAnd_not_fitsStack : ¬ FitsStack .constrain (nestedAnd 5) := by
  intro h
  have hbuild : genConstraintExpr .constrain (nestedAnd 5) = some (nestedAndStored 5) :=
    genConstraintExpr_iff.mpr (nestedAnd_stored 5)
  have hencoded : ∀ l ∈ (nestedAndStored 5).leaves, l.Encoded := by
    intro l hl
    simp only [nestedAndStored, sameUserStored, ConstraintExpr.leaves, List.mem_append,
      List.mem_singleton, or_self] at hl
    subst hl
    exact ⟨by simp, by simp⟩
  have hneed := h.need hbuild hencoded
  rw [stackNeed_nestedAnd] at hneed
  exact absurd hneed (by decide)

end Nested

end Cil.Constraint
