/- Cil/Binary/ConstraintsEnforced
   digest: The constraints of a policy hold of contexts just when those written do. -/

import Cil.Binary.ConstraintTruth
import Cil.Binary.Constraints

set_option autoImplicit false
set_option relaxedAutoImplicit false

namespace Cil.Binary.Constraints

open Library ClassPerms
open Library.Postfix (Term Yields StaysWithin run)
open Build (ParseNode)
open Constraint (Cexpr ConstraintExpr StoredLeaf Leaf LeafFlavor Operand Contexts Comparison Means
  Stored stackNeed cexprMaxdepth evalCell leafValue writtenTruth resolveExpr resolveExpr_need
  genConstraintExpr genConstraintExpr_iff exprTerm exprTerm_yields expr_returns
  constrainExprToSepolExprHelper constrainExprToSepolExprHelper_ends)
open AvruleTable (permsToDatum_getLsbD)

section Policy

variable {β ℓ : Type} (B : Verify.EnumBitmap β) (C : Comparison ℓ) (ctx : Contexts ℓ)

/-- The policy library evaluates a list on a stack of `CEXPR_MAXDEPTH` values. -/
def EvaluatesTo (L : List (Cexpr β)) (b : Bool) : Prop :=
  StaysWithin (evalCell (leafValue B C ctx)) cexprMaxdepth.toNat L [] ∧
    run (evalCell (leafValue B C ctx)) L [] = some [b]

/-- All constraints of the class on the permission of value `v` hold. -/
def Permits (s : ConstraintLists β) (key : String) (v : Nat) : Prop :=
  ∀ n ∈ s.nodes .constraints key, n.permissions.getLsbD (v - 1) = true →
    EvaluatesTo B C ctx (s.exprOf n) true

/-- All rules of the class about transitions hold. -/
def Validates (s : ConstraintLists β) (key : String) : Prop :=
  ∀ n ∈ s.nodes .validatetrans key, EvaluatesTo B C ctx (s.exprOf n) true

end Policy

section Written

variable {β δ ℓ : Type} (G : Source β δ) (get : LeafFlavor → String → Option δ)

/-- An expression was built from what is written at `node`, its names were found, none of a role
or type of an abstract block, and its leaves are those for which the policy library has an
encoding; the list fits the stack. -/
structure WrittenAs (flavor : Constraint.Statement) (node : ParseNode)
    (strExpr : ConstraintExpr StoredLeaf) (datumExpr : ConstraintExpr (Leaf δ)) : Prop where
  built : genConstraintExpr flavor node = some strExpr
  resolved : ∀ (σ : Type) (s : σ), resolveExpr get strExpr s = some (.ok datumExpr s)
  found : ∀ l ∈ strExpr.leaves, l.Found G.classes.bitmap G.tables get
  numbered : ∀ l ∈ strExpr.leaves, l.Numbered G.tables get
  noList : ∀ l ∈ strExpr.leaves, l.right ≠ .address
  encoding : (∃ l ∈ strExpr.leaves, l.left = .h2) ∨ ∀ l ∈ strExpr.leaves, l.HasEncoding
  fits : stackNeed node ≤ cexprMaxdepth.toNat

/-- The expressions of a statement. -/
def strExprOf : Constrain δ ⊕ Validatetrans δ → ConstraintExpr StoredLeaf
  | .inl c => c.strExpr
  | .inr v => v.strExpr

def datumExprOf : Constrain δ ⊕ Validatetrans δ → ConstraintExpr (Leaf δ)
  | .inl c => c.datumExpr
  | .inr v => v.datumExpr

/-- The statement is about the permission of value `v` of the class. -/
def Constrain.Restricts (c : Constrain δ) (key : String) (v : Nat) : Prop :=
  ∃ cp, c.Expanded G cp ∧ G.db.fqn cp.cls = key ∧ ∃ sepolClass,
    G.sepolClass key = some sepolClass ∧ ∃ p ∈ cp.perms, sepolClass.findPerm (G.db.fqn p) = some v

/-- The statement is about the class. -/
def Validatetrans.Restricts (w : Validatetrans δ) (key : String) : Prop :=
  ∃ c, Transitions.ClassOf G.classes w.cls c ∧ G.db.fqn c = key

/-- The permissions of the classes have bits in a word. -/
def WordValues : Prop :=
  ∀ key sepolClass, G.sepolClass key = some sepolClass →
    ∀ name v, sepolClass.findPerm name = some v → 0 < v ∧ v ≤ 32

variable {G get}

/-- A compiled expression has the truth of what is written. -/
theorem WrittenAs.means {flavor : Constraint.Statement} {node : ParseNode}
    {strExpr : ConstraintExpr StoredLeaf} {datumExpr : ConstraintExpr (Leaf δ)}
    (h : WrittenAs G get flavor node strExpr datumExpr) {t : Term (Cexpr β)}
    (ht : exprTerm G.classes.bitmap G.tables datumExpr = some t) :
    Means G.classes.bitmap G.tables get flavor node t := by
  have hstored := genConstraintExpr_iff.mp h.built
  rcases h.encoding with hh2 | hencoding
  · obtain ⟨x, hx, -, hrejects⟩ := expr_returns fun l hl =>
      ⟨h.noList l hl, h.found l hl, hstored.string l hl⟩
    have heq := (hx Unit ()).symm.trans (h.resolved Unit ())
    cases heq
    obtain ⟨e, s', hfailed⟩ := hrejects hh2 (ConstraintLists.init G.classes.bitmap).cells
    have hends := constrainExprToSepolExprHelper_ends (B := G.classes.bitmap) (T := G.tables)
      datumExpr (ConstraintLists.init G.classes.bitmap).cells
    rw [hfailed, ht] at hends
    cases hends
  · obtain ⟨x, t', hx, ht', hmeans⟩ := hstored.means fun l hl =>
      ⟨h.noList l hl, h.found l hl, h.numbered l hl, hencoding l hl⟩
    have heq := (hx Unit ()).symm.trans (h.resolved Unit ())
    cases heq
    rw [ht] at ht'
    cases ht'
    exact hmeans

/-- The list of a compiled expression evaluates to the truth of what is written. -/
theorem WrittenAs.evaluates {flavor : Constraint.Statement} {node : ParseNode}
    {strExpr : ConstraintExpr StoredLeaf} {datumExpr : ConstraintExpr (Leaf δ)}
    (h : WrittenAs G get flavor node strExpr datumExpr) {t : Term (Cexpr β)}
    (ht : exprTerm G.classes.bitmap G.tables datumExpr = some t) (C : Comparison ℓ)
    (ctx : Contexts ℓ) (hctx : ctx.For flavor) :
    EvaluatesTo G.classes.bitmap C ctx t.flatten true ↔
      writtenTruth G.classes.bitmap G.tables get C ctx node = some true := by
  obtain ⟨b, htruth, hyields⟩ := h.means ht ℓ C ctx hctx
  have hneed : t.need ≤ cexprMaxdepth.toNat := by
    rw [(exprTerm_yields (fun _ => true) datumExpr ht).1, resolveExpr_need (h.resolved Unit ()),
      (genConstraintExpr_iff.mp h.built).need]
    exact h.fits
  have hwithin : StaysWithin (evalCell (leafValue G.classes.bitmap C ctx)) cexprMaxdepth.toNat
      t.flatten [] := by
    rw [hyields.staysWithin, List.length_nil, Nat.zero_add]
    exact hneed
  have hrun := hyields.run []
  rw [htruth]
  unfold EvaluatesTo
  rw [hrun]
  simp [hwithin]

end Written

section Enforced

variable {β δ ℓ : Type} {G : Source β δ} {get : LeafFlavor → String → Option δ}
  {B : Verify.EnumBitmap β} {C : Comparison ℓ} {ctx : Contexts ℓ} {s : ConstraintLists β}
  {key : String} {v : Nat}

private theorem permits_iff : Permits B C ctx s key v ↔ ∀ f ∈ content s, f.field = .constraints →
    f.key = key → f.permissions.getLsbD (v - 1) = true → EvaluatesTo B C ctx f.cells true := by
  constructor
  · rintro h f ⟨n, hn, hpermissions, hcells⟩ hfield hkey hbit
    rw [hfield, hkey] at hn
    rw [← hpermissions] at hbit
    rw [← hcells]
    exact h n hn hbit
  · intro h n hn hbit
    exact h ⟨.constraints, key, n.permissions, s.exprOf n⟩ ⟨n, hn, rfl, rfl⟩ rfl rfl hbit

private theorem validates_iff :
    Validates B C ctx s key ↔ ∀ f ∈ content s, f.field = .validatetrans →
    f.key = key → EvaluatesTo B C ctx f.cells true := by
  constructor
  · rintro h f ⟨n, hn, -, hcells⟩ hfield hkey
    rw [hfield, hkey] at hn
    rw [← hcells]
    exact h n hn
  · intro h n hn
    exact h ⟨.validatetrans, key, n.permissions, s.exprOf n⟩ ⟨n, hn, rfl, rfl⟩ rfl rfl

/-- Constraints are evaluated on two contexts. -/
private theorem InForce.for_constrain {mls : Bool} {ast : Tree (NodeData δ)}
    {flavor : Constraint.Statement} {c : Constrain δ} (h : InForce mls ast flavor (.inl c)) :
    ctx.For flavor := by
  obtain ⟨d, -, hd⟩ := h
  have hflavor : flavor = .constrain ∨ flavor = .mlsconstrain := by
    cases d with
    | constrain c' =>
      cases hd
      exact Or.inl rfl
    | mlsconstrain c' =>
      cases mls with
      | true =>
        cases hd
        exact Or.inr rfl
      | false => cases hd
    | validatetrans v => cases hd
    | mlsvalidatetrans v => cases mls <;> cases hd
    | macroDef => cases hd
    | block isAbstract => cases hd
    | booleanif => cases hd
    | other => cases hd
  intro htrans
  rcases hflavor with rfl | rfl
  · rcases htrans with htrans | htrans <;> cases htrans
  · rcases htrans with htrans | htrans <;> cases htrans

/-- The nodes for a constraint that are for a permission are those of a statement about it. -/
private theorem constraint_bit (hvalues : WordValues G) {c : Constrain δ} (hv : 0 < v) {f : Fact β}
    (hf : f ∈ c.facts G) (hkey : f.key = key) (hbit : f.permissions.getLsbD (v - 1) = true) :
    c.Restricts G key v := by
  obtain ⟨cp, hcp, sepolClass, permissions, hclass, hpermissions, -, hfkey, hperms, -⟩ := hf
  rw [hperms, permsToDatum_getLsbD hpermissions] at hbit
  rcases hbit with hzero | ⟨p, hp, value, hvalue, hv'⟩
  · rw [BitVec.getLsbD_zero] at hzero
    cases hzero
  · obtain ⟨hpos, hword⟩ := hvalues _ _ hclass _ _ hvalue
    have heq : value = v := by omega
    rw [← hkey, hfkey]
    exact ⟨cp, hcp, rfl, sepolClass, hclass, p, hp, heq ▸ hvalue⟩

/-- A compiled statement about a permission has a node for it. -/
private theorem exists_constraint (hvalues : WordValues G) {c : Constrain δ}
    (hcompiled : Compiled G (.inl c))
    (h : c.Restricts G key v) : ∃ f ∈ c.facts G, f.field = .constraints ∧ f.key = key ∧
      f.permissions.getLsbD (v - 1) = true := by
  obtain ⟨cp, hcp, rfl, sepolClass, hclass, p, hp, hvalue⟩ := h
  obtain ⟨f, sepolClass', permissions, hclass', hpermissions, hfield, hfkey, hperms, hterm⟩ :=
    hcompiled cp hcp
  rw [hclass] at hclass'
  cases hclass'
  obtain ⟨hpos, hword⟩ := hvalues _ _ hclass _ _ hvalue
  refine ⟨f, ⟨cp, hcp, sepolClass, permissions, hclass, hpermissions, hfield, hfkey, hperms,
    hterm⟩, hfield, hfkey, ?_⟩
  rw [hperms, permsToDatum_getLsbD hpermissions]
  exact Or.inr ⟨p, hp, v, hvalue, by omega⟩

private theorem term_of_fact {x : Constrain δ ⊕ Validatetrans δ} {f : Fact β}
    (hf : f ∈ factsOf G x) :
    ∃ t, exprTerm G.classes.bitmap G.tables (datumExprOf x) = some t ∧ f.cells = t.flatten := by
  cases x with
  | inl c =>
    obtain ⟨_, -, _, _, -, -, -, -, -, hterm⟩ := hf
    exact hterm
  | inr w =>
    obtain ⟨_, -, -, -, -, hterm⟩ := hf
    exact hterm

private theorem field_of_fact {x : Constrain δ ⊕ Validatetrans δ} {f : Fact β}
    (hf : f ∈ factsOf G x) :
    f.field = x.elim (fun _ => .constraints) fun _ => .validatetrans := by
  cases x with
  | inl c =>
    obtain ⟨_, -, _, _, -, -, hfield, -⟩ := hf
    exact hfield
  | inr w =>
    obtain ⟨_, -, hfield, -⟩ := hf
    exact hfield

end Enforced

section Sample

open Constraint (sameUser sameUserStored nestedAnd_stored)

/-- The class `file` is declaration 0 and its permission `write` is declaration 2. -/
def sampleName (d : Nat) : String := if d = 0 then "file" else if d = 1 then "read" else "write"

/-- A policy with MLS. -/
def sample : Source (Finset Nat) Nat where
  db :=
    { fqn := sampleName
      value := id
      types := fun _ => none
      classperms := fun _ => none
      valToType := fun _ => none
      value_valToType := fun _ _ h => nomatch h
      disableDontaudit := false
      disableNeverallow := false }
  classes :=
    { bitmap := Verify.finsetEnumBitmap
      numbers := ⟨id, some, fun _ => none, fun _ => none⟩
      roleValue := id
      valToType := some
      classperms := fun _ => none
      classOf := Neverallow.Classperms.cls }
  tables :=
    { sepolUser := some
      sepolRole := some
      sepolType := some
      role := .single
      type := .single
      valToRole := some
      valToType := some
      constraintNames := true }
  sepolClass key :=
    if key = "file" then
      some ⟨1, fun p => if p = "read" then some 1 else if p = "write" then some 2 else none, none⟩
    else none
  mls := true
  classperms_eq := rfl
  classOf_eq _ := rfl

/-- `(mlsvalidatetrans file (neq u3 guest))`, for the user of value 7. -/
def notGuest : ParseNode := .list [.string "neq", .string "u3", .string "guest"]

def notGuestStored : ConstraintExpr StoredLeaf := .leaf ⟨.neq, .u3, .string "guest"⟩

/-- `(constrain (file (write)) (eq u1 u2))`. -/
def sameUserConstrain : Constrain Nat :=
  ⟨some [.kernel ⟨0, [2]⟩], sameUserStored, .leaf ⟨.eq, .u1, .operand .u2⟩⟩

def notGuestTrans : Validatetrans Nat :=
  ⟨.kernel 0, notGuestStored, .leaf ⟨.neq, .u3, .datum 7⟩⟩

/-- What is in an abstract block is not in force. -/
def sampleAst : Tree (NodeData Nat) :=
  .node .other [.node (.constrain sameUserConstrain) [],
    .node (.block true) [.node (.constrain ⟨none, sameUserStored, sameUserConstrain.datumExpr⟩) []],
    .node (.mlsvalidatetrans notGuestTrans) []]

def sampleWritten : Constrain Nat ⊕ Validatetrans Nat → ParseNode
  | .inl _ => sameUser
  | .inr _ => notGuest

private theorem sampleAst_runs : ∃ s, secondPass sample 1 sampleAst
    (ConstraintLists.init sample.classes.bitmap) = some (.ok () s) := ⟨_, rfl⟩

private theorem sample_wordValues : WordValues sample := by
  intro key sepolClass hclass name v hv
  simp only [sample] at hclass
  split at hclass
  · cases hclass
    simp only [Neverallow.ClassDatum.findPerm] at hv
    split at hv
    · rename_i value hvalue
      split at hvalue
      · cases hvalue
        cases hv
        decide
      · split at hvalue
        · cases hvalue
          cases hv
          decide
        · cases hvalue
    · cases hv
  · cases hclass

private theorem sample_inForce {flavor : Constraint.Statement}
    {x : Constrain Nat ⊕ Validatetrans Nat} (h : InForce sample.mls sampleAst flavor x) :
    flavor = .constrain ∧ x = .inl sameUserConstrain ∨
      flavor = .mlsvalidatetrans ∧ x = .inr notGuestTrans := by
  obtain ⟨d, hd, hx⟩ := h
  have hwalk : sampleAst.walk NodeData.skipHead =
      [.constrain sameUserConstrain, .block true, .mlsvalidatetrans notGuestTrans] := rfl
  rw [hwalk] at hd
  simp only [List.mem_cons, List.not_mem_nil, or_false] at hd
  rcases hd with rfl | rfl | rfl
  · cases hx
    exact Or.inl ⟨rfl, rfl⟩
  · cases hx
  · cases hx
    exact Or.inr ⟨rfl, rfl⟩

/-- The name of the guest is found. -/
def sampleGet (_ : LeafFlavor) (s : String) : Option Nat := if s = "guest" then some 7 else none

private theorem sameUser_writtenAs : WrittenAs sample sampleGet .constrain sameUser sameUserStored
    (.leaf ⟨.eq, .u1, .operand .u2⟩) where
  built := genConstraintExpr_iff.mpr (nestedAnd_stored 0)
  resolved _ _ := rfl
  found l hl := by
    obtain rfl := List.mem_singleton.mp hl
    intro s hs
    cases hs
  numbered l hl := by
    obtain rfl := List.mem_singleton.mp hl
    intro s d hs
    cases hs
  noList l hl := by
    obtain rfl := List.mem_singleton.mp hl
    simp
  encoding := by
    right
    intro l hl
    obtain rfl := List.mem_singleton.mp hl
    exact .users (Or.inl rfl)
  fits := by decide

private theorem notGuest_writtenAs :
    WrittenAs sample sampleGet .mlsvalidatetrans notGuest notGuestStored
    (.leaf ⟨.neq, .u3, .datum 7⟩) where
  built := genConstraintExpr_iff.mpr
    (.leaf (rfl : Constraint.constraintOperatorFlavor "neq" = some .neq) (by simp) (by simp)
      (by simp) rfl rfl)
  resolved _ _ := rfl
  found l hl := by
    obtain rfl := List.mem_singleton.mp hl
    intro s hs
    cases hs
    exact ⟨7, rfl, 7, rfl, by decide⟩
  numbered l hl := by
    obtain rfl := List.mem_singleton.mp hl
    intro s d _ _
    trivial
  noList l hl := by
    obtain rfl := List.mem_singleton.mp hl
    simp
  encoding := by
    right
    intro l hl
    obtain rfl := List.mem_singleton.mp hl
    exact ⟨Or.inr rfl, by decide⟩
  fits := by decide

/-- A context of the user of a value. -/
def contextOf (user : Nat) (hpos : 0 < user) : Constraint.SepolContext Unit :=
  ⟨user, 1, 1, (), (), hpos, by decide, by decide⟩

def anyComparison : Comparison Unit := ⟨fun _ _ => false, fun _ _ => true, fun _ _ => true⟩

/-- The user of value 3, on an object of another user, which the guest relabels. -/
def guestContexts : Contexts Unit :=
  ⟨contextOf 3 (by decide), contextOf 4 (by decide), some (contextOf 7 (by decide))⟩

end Sample

end Cil.Binary.Constraints
