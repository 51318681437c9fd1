/- Cil/Post/SetExpressions
   digest: The evaluation of set expressions of types, roles, permissions and categories. -/

import Cil.Build.SetExpr
import Cil.ExprLeaves
import Cil.Post.Attributes
import Cil.Post.Categories
import Cil.Post.Classperms

set_option autoImplicit false
set_option relaxedAutoImplicit false

namespace Cil.Post

open Cil.Expr Cil.Library

section Leaves

variable {β δ σ : Type} {B : Bitmap β} {max : Nat} {toBitmap : δ → Call Rc σ β}
  {rangeToBitmap : Option (δ → δ → Call Rc σ β)} {set : Leaf δ → Set Nat} {s : σ}

/-- The leaf is read without a change of the state, as the bitmap of the set it stands for. -/
def ReadAs (B : Bitmap β) (toBitmap : δ → Call Rc σ β)
    (rangeToBitmap : Option (δ → δ → Call Rc σ β)) (set : Leaf δ → Set Nat) (s : σ)
    (x : Leaf δ) : Prop :=
  ∃ b, leafToBitmap toBitmap rangeToBitmap x s = some (.ok b s) ∧ B.bits b = set x

private theorem collect_of_readAs {xs : List (Leaf δ)}
    (h : ∀ x ∈ xs, ReadAs B toBitmap rangeToBitmap set s x) :
    ∃ bs, collect (leafToBitmap toBitmap rangeToBitmap) xs s = some (.ok bs s) ∧
      bs.map B.bits = xs.map set := by
  induction xs with
  | nil => exact ⟨[], rfl, rfl⟩
  | cons x xs ih =>
    obtain ⟨b, hb, hbits⟩ := h x List.mem_cons_self
    obtain ⟨bs, hbs, hmap⟩ := ih fun y hy => h y (List.mem_cons_of_mem x hy)
    refine ⟨b :: bs, ?_, by rw [List.map_cons, List.map_cons, hbits, hmap]⟩
    rw [collect, Call.bind_of_ok hb, Call.bind_of_ok hbs]
    rfl

/-- An expression all of whose leaves can be read adds what it denotes to the output. -/
private theorem exprToBitmap_of_readAs {ranges : Bool} {l : List (Item δ)}
    (hl : wellFormed ranges l = true) (hrange : ranges = true → ∃ r, rangeToBitmap = some r)
    (h : ∀ x ∈ leaves l, ReadAs B toBitmap rangeToBitmap set s x) (out : β) :
    ∃ b, exprToBitmap B max toBitmap rangeToBitmap out l s = some (.ok b s) ∧
      B.bits b = B.bits out ∪ denoteLeaves max l set := by
  have hcomputed : ExprComputed B max toBitmap rangeToBitmap l := exprComputed hrange l hl
  obtain ⟨compute, heq, hbits⟩ := hcomputed out
  obtain ⟨bs, hbs, hmap⟩ := collect_of_readAs h
  refine ⟨compute bs, ?_, hbits set bs hmap⟩
  rw [heq, Call.bind_of_ok hbs]
  rfl

/-- What an expression denotes is below the bound if this holds of its leaves. -/
theorem denoteLeaves_subset {ranges : Bool} (l : List (Item δ)) (hl : wellFormed ranges l = true)
    (h : ∀ x ∈ leaves l, set x ⊆ {i | i < max}) : denoteLeaves max l set ⊆ {i | i < max} := by
  have htwo : ∀ {o : Op} {i j : Item δ}, o ≠ .range → (∀ x ∈ leaves [.op o, i, j],
      set x ⊆ {i | i < max}) → (∀ x ∈ leavesItem i, set x ⊆ {i | i < max}) ∧
        ∀ x ∈ leavesItem j, set x ⊆ {i | i < max} := by
    intro o i j ho h
    rw [leaves_pair ho] at h
    exact ⟨fun x hx => h x (List.mem_append_left _ hx),
      fun x hx => h x (List.mem_append_right _ hx)⟩
  revert hl h
  refine wellFormed.induct
    (fun l => wellFormed ranges l = true → (∀ x ∈ leaves l, set x ⊆ {i | i < max}) →
      denoteLeaves max l set ⊆ {i | i < max})
    (fun l => operandsFormed ranges l = true → (∀ x ∈ leaves l, set x ⊆ {i | i < max}) →
      denoteList max (fun d => set (.datum d)) (fun d1 d2 => set (.range d1 d2)) l ⊆
        {i | i < max})
    (fun i => operandFormed ranges i = true → (∀ x ∈ leavesItem i, set x ⊆ {i | i < max}) →
      denoteItem max (fun d => set (.datum d)) (fun d1 d2 => set (.range d1 d2)) i ⊆
        {i | i < max})
    ?datum ?list ?other ?all ?range ?not ?and ?or ?xor ?op ?empty ?plain ?nil ?cons l
  case all =>
    intro _ _
    rw [denoteLeaves, denote]
  case range =>
    intro d1 d2 _ h
    rw [denoteLeaves, denote]
    exact h _ (by simp)
  case not =>
    intro i _ _ _
    rw [denoteLeaves, denote]
    exact Set.sdiff_subset
  case and =>
    intro i j ihi _ hl h
    rw [wellFormed, Bool.and_eq_true] at hl
    rw [denoteLeaves, denote]
    exact Set.inter_subset_left.trans (ihi hl.1 (htwo (by simp) h).1)
  case or =>
    intro i j ihi ihj hl h
    rw [wellFormed, Bool.and_eq_true] at hl
    obtain ⟨hi, hj⟩ := htwo (by simp) h
    rw [denoteLeaves, denote]
    exact Set.union_subset (ihi hl.1 hi) (ihj hl.2 hj)
  case xor =>
    intro i j ihi ihj hl h
    rw [wellFormed, Bool.and_eq_true] at hl
    obtain ⟨hi, hj⟩ := htwo (by simp) h
    rw [denoteLeaves, denote]
    exact symmDiff_le_sup.trans (Set.union_subset (ihi hl.1 hi) (ihj hl.2 hj))
  case op =>
    intro o tail hall hrange hnot hand hor hxor hl
    rw [wellFormed] at hl
    · cases hl
    all_goals assumption
  case empty =>
    intro _ _
    rw [denoteLeaves, denote]
    exact Set.empty_subset _
  case plain =>
    intro i rest _ _ _ _ _ _ hop ihi ihrest hl h
    have hi : ∀ o, i ≠ .op o := hop
    rw [wellFormed, Bool.and_eq_true] at hl
    · rw [leaves_cons (hi .range)] at h
      rw [denoteLeaves, denote]
      · exact Set.union_subset (ihi hl.1 fun x hx => h x (List.mem_append_left _ hx))
          (ihrest hl.2 fun x hx => h x (List.mem_append_right _ hx))
      all_goals simp [hi]
    all_goals simp [hi]
  case nil =>
    intro _ _
    rw [denoteList]
    exact Set.empty_subset _
  case cons =>
    intro i rest ihi ihrest hl h
    rw [operandsFormed, Bool.and_eq_true] at hl
    have hi : i ≠ .op .range := by
      intro heq
      rw [heq] at hl
      simp [operandFormed] at hl
    rw [leaves_cons hi] at h
    rw [denoteList]
    exact Set.union_subset (ihi hl.1 fun x hx => h x (List.mem_append_left _ hx))
      (ihrest hl.2 fun x hx => h x (List.mem_append_right _ hx))
  case datum =>
    intro d _ h
    rw [denoteItem]
    exact h _ (by simp)
  case list =>
    intro l ih hl h
    rw [operandFormed] at hl
    rw [leavesItem] at h
    rw [denoteItem]
    exact ih hl h
  case other =>
    intro i hdatum hlist hl
    rw [operandFormed] at hl
    · cases hl
    all_goals assumption

end Leaves

section Ranges

open Categories

variable {β κ ς ι : Type} [DecidableEq κ] {B : Bitmap β} (P : Categories.Policy κ ς ι)

private theorem bits_rangeLoop (low n : Nat) :
    B.bits (rangeLoop B low n) = {i | low ≤ i ∧ i < low + n} := by
  induction n with
  | zero =>
    rw [rangeLoop, B.bits_init]
    ext i
    simp
  | succ n ih =>
    rw [rangeLoop, B.bits_setBit, ih]
    ext i
    simp only [Set.mem_union, Set.mem_ofPred_eq, Set.mem_singleton_iff]
    omega

/-- The values of the categories from the first to the second in the category order. -/
def between : Categories.Datum κ ς → Categories.Datum κ ς → Set Nat
  | .cat c1, .cat c2 =>
      {i | ∃ c ∈ P.catorder, i = P.value c ∧ P.value c1 ≤ P.value c ∧ P.value c ≤ P.value c2}
  | _, _ => ∅

variable {P}

/-- A number below that of all categories is the value of one. -/
theorem exists_value {i : Nat} (hi : i < P.numCats) : ∃ c ∈ P.catorder, P.value c = i :=
  ⟨P.catorder.get ⟨i, hi⟩, List.get_mem _ _, P.nodup.idxOf_getElem i hi⟩

theorem value_lt {c : κ} (hc : c ∈ P.catorder) : P.value c < P.numCats :=
  List.idxOf_lt_length_of_mem hc

theorem bits_exprRange {c1 c2 : κ} (hc2 : c2 ∈ P.catorder) :
    B.bits (rangeLoop B (P.value c1) (P.value c2 + 1 - P.value c1)) =
      between P (.cat c1) (.cat c2) := by
  have hlt := value_lt hc2
  rw [bits_rangeLoop]
  ext i
  simp only [between, Set.mem_ofPred_eq]
  constructor
  · intro h
    obtain ⟨c, hc, hvalue⟩ := exists_value (P := P) (i := i) (by omega)
    exact ⟨c, hc, hvalue.symm, by omega, by omega⟩
  · intro h
    obtain ⟨c, -, rfl, hlow, hhigh⟩ := h
    omega

end Ranges

section Kinds

variable {β δ σ : Type} (B : Bitmap β) (max : Nat)

/-- The expression evaluates to what it denotes, within the universe, if each leaf has a value
below the bound. -/
def EvaluatesTo (toBitmap : δ → Call Rc σ β) (rangeToBitmap : Option (δ → δ → Call Rc σ β))
    (value : δ → Option Nat) (range : δ → δ → Set Nat) (l : List (Item δ)) : Prop :=
  (∀ d ∈ mentioned l, ∃ v < max, value d = some v) → ∀ out s,
    ∃ b, exprToBitmap B max toBitmap rangeToBitmap out l s = some (.ok b s) ∧
      B.bits b = B.bits out ∪ denote max (fun d => {v | value d = some v}) range l ∧
      denote max (fun d => {v | value d = some v}) range l ⊆ {i | i < max}

variable {B max}

private theorem evaluatesTo_of_reads {ranges : Bool} {toBitmap : δ → Call Rc σ β}
    {rangeToBitmap : Option (δ → δ → Call Rc σ β)} {value : δ → Option Nat}
    {range : δ → δ → Set Nat} {l : List (Item δ)} (hl : wellFormed ranges l = true)
    (hranges : ranges = true → ∃ r, rangeToBitmap = some r)
    (hdatum : ∀ d v, value d = some v →
      ∀ s, ∃ b, toBitmap d s = some (.ok b s) ∧ B.bits b = {v})
    (hrange : ranges = true → ∀ d1 d2 v1 v2, value d1 = some v1 → value d2 = some v2 → ∀ s,
      (∃ b, leafToBitmap toBitmap rangeToBitmap (.range d1 d2) s = some (.ok b s) ∧
        B.bits b = range d1 d2) ∧ ∀ i ∈ range d1 d2, i ≤ v2) :
    EvaluatesTo B max toBitmap rangeToBitmap value range l := by
  intro hmentioned out s
  let set : Leaf δ → Set Nat := Leaf.set (fun d => {v | value d = some v}) range
  have hleaf : ∀ x ∈ leaves l, ReadAs B toBitmap rangeToBitmap set s x ∧ set x ⊆ {i | i < max} := by
    intro x hx
    have hdatums := leaves_mentioned l x hx
    cases x with
    | datum d =>
      obtain ⟨v, hmax, hv⟩ := hmentioned d (hdatums d List.mem_cons_self)
      have hset : set (.datum d) = {v} := by
        ext i
        simp [set, Leaf.set, hv, eq_comm]
      obtain ⟨b, hb, hbits⟩ := hdatum d v hv s
      rw [hset]
      exact ⟨⟨b, hb, hbits.trans hset.symm⟩, Set.singleton_subset_iff.mpr hmax⟩
    | range d1 d2 =>
      obtain ⟨v1, hmax1, hv1⟩ := hmentioned d1 (hdatums d1 List.mem_cons_self)
      obtain ⟨v2, hmax2, hv2⟩ := hmentioned d2
        (hdatums d2 (List.mem_cons_of_mem d1 List.mem_cons_self))
      obtain ⟨hread, hbelow⟩ := hrange (ranges_of_leaf l hl hx) d1 d2 v1 v2 hv1 hv2 s
      exact ⟨hread, fun i hi => (hbelow i hi).trans_lt hmax2⟩
  obtain ⟨b, hb, hbits⟩ := exprToBitmap_of_readAs hl hranges (fun x hx => (hleaf x hx).1) out
  exact ⟨b, hb, hbits, denoteLeaves_subset l hl fun x hx => (hleaf x hx).2⟩

variable {α π κ ς ι : Type} [DecidableEq α] [DecidableEq κ] [DecidableEq ς] [DecidableEq ι]

/-- The value of a type or a role; an attribute is not one. -/
def attributeLeaf : Attributes.Datum α → Option Nat
  | .attr _ => none
  | .typealias v => some v
  | .type v => some v
  | .role v => some v

/-- The value of a category; a categoryset is not one. -/
def categoryLeaf (P : Categories.Policy κ ς ι) : Categories.Datum κ ς → Option Nat
  | .cat c => if c ∈ P.catorder then some (P.value c) else none
  | .catset _ => none

/-- The expressions that the builder accepts, of types and roles, of permissions and of
categories, evaluate to what they denote over the values below `max`. -/
theorem genExpr_evaluatesTo (B : Bitmap β) (max : Nat) (A : Attributes.Policy α)
    (C : Categories.Policy κ ς ι) (permValue : π → Nat) (fuel : Nat) {node : Build.ParseNode}
    (hfilled : Build.Filled node) :
    (∀ get e e', Build.genExpr .other node = some e → resolveItems get e = some e' →
      EvaluatesTo B max (Attributes.datumToBitmap B A (fuel + 1)) none attributeLeaf
        (fun _ _ => ∅) e') ∧
    (∀ get e e', Build.genExpr .other node = some e → resolveItems get e = some e' →
      EvaluatesTo B max (Classperms.permToBitmap B permValue) none (fun p => some (permValue p))
        (fun _ _ => ∅) e') ∧
    (∀ get e e', Build.genExpr .cat node = some e → resolveItems get e = some e' →
      EvaluatesTo B max (Categories.catToBitmap B C (fuel + 1))
        (some (Categories.exprRangeToBitmapHelper B C)) (categoryLeaf C) (between C) e') := by
  have hsingle : ∀ v, B.bits (B.setBit B.init v) = {v} := by simp
  have hother : ∀ {δ : Type} {get : String → Option δ} {e e'},
      Build.genExpr .other node = some e → resolveItems get e = some e' →
        wellFormed false e' = true := by
    intro δ get e e' he hres
    have hform := (Build.genExpr_wellFormed (Or.inr rfl) hfilled he).1
    exact Build.resolveItems_wellFormed e e' hres hform
  refine ⟨?_, ?_, ?_⟩
  · intro get e e' he hres
    refine evaluatesTo_of_reads (hother he hres) (by simp) ?_ (by simp)
    intro d v hv s
    cases d with
    | attr a => cases hv
    | typealias v' =>
      cases hv
      exact ⟨_, rfl, hsingle _⟩
    | type v' =>
      cases hv
      exact ⟨_, rfl, hsingle _⟩
    | role v' =>
      cases hv
      exact ⟨_, rfl, hsingle _⟩
  · intro get e e' he hres
    refine evaluatesTo_of_reads (hother he hres) (by simp) ?_ (by simp)
    intro p v hv s
    cases hv
    exact ⟨_, rfl, hsingle _⟩
  · intro get e e' he hres
    have hform := (Build.genExpr_wellFormed (Or.inl rfl) hfilled he).1
    refine evaluatesTo_of_reads (Build.resolveItems_wellFormed e e' hres hform)
      (fun _ => ⟨_, rfl⟩) ?_ ?_
    · intro d v hv s
      cases d with
      | catset s => cases hv
      | cat c =>
        rw [categoryLeaf] at hv
        split_ifs at hv
        cases hv
        exact ⟨_, rfl, hsingle _⟩
    · intro _ d1 d2 v1 v2 hv1 hv2 s
      cases d1 with
      | catset s => cases hv1
      | cat c1 =>
        cases d2 with
        | catset s => cases hv2
        | cat c2 =>
          rw [categoryLeaf] at hv2
          split_ifs at hv2 with hc2
          cases hv2
          refine ⟨⟨_, rfl, bits_exprRange hc2⟩, ?_⟩
          intro i hi
          obtain ⟨c, -, rfl, -, hhigh⟩ := hi
          exact hhigh

end Kinds

section Example

/-- Two categories in order. -/
def twoCategories : Categories.Policy String Empty Empty where
  catorder := ["c0", "c1"]
  nodup := by decide
  expr _ := none
  formed _ _ h := by cases h
  filled _ _ h := by cases h
  ordered _ _ h := by cases h
  noSelfReference _ _ h := by cases h

def noAttributes : Attributes.Policy Empty where
  kind a := a.elim
  numTypes := 0
  numRoles := 0
  exprList a := a.elim
  wellFormed a := a.elim
  noSelfReference a := a.elim

/-- All categories but those from the first to the second. -/
theorem genExpr_evaluatesTo_notRange :
    EvaluatesTo finsetBitmap 2 (Categories.catToBitmap finsetBitmap twoCategories 1)
      (some (Categories.exprRangeToBitmapHelper finsetBitmap twoCategories))
      (categoryLeaf twoCategories) (between twoCategories)
      [.op .not, .list [.op .range, .datum (.cat "c0"), .datum (.cat "c1")]] := by
  have hfilled : Build.Filled (.list [.string "not",
      .list [.string "range", .string "c0", .string "c1"]]) := Or.inr rfl
  have h := (genExpr_evaluatesTo finsetBitmap 2 noAttributes twoCategories (fun p : Nat => p) 0
    hfilled).2.2
  exact h (fun s => some (.cat s))
    [.op .not, .list [.op .range, .datum "c0", .datum "c1"]] _ rfl rfl

end Example

end Cil.Post
