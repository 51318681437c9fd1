/- Cil/ExprValues
   digest: The value of an expression over any universe, and how numbering its elements keeps it. -/

import Cil.ExprMeaning

set_option autoImplicit false
set_option relaxedAutoImplicit false

namespace Cil.Expr

section Value

variable {δ α : Type} (all : Set α) (env : δ → Set α)

mutual

/-- The value of an expression over the universe `all` when each name stands for the set that
`env` gives. -/
def value : List (Item δ) → Set α
  | [] => ∅
  | .op .all :: _ => all
  | .op .not :: i :: _ => all \ valueItem i
  | .op .and :: i :: j :: _ => valueItem i ∩ valueItem j
  | .op .or :: i :: j :: _ => valueItem i ∪ valueItem j
  | .op .xor :: i :: j :: _ => symmDiff (valueItem i) (valueItem j)
  | .op _ :: _ => ∅
  | i :: rest => valueItem i ∪ valueList rest

def valueList : List (Item δ) → Set α
  | [] => ∅
  | i :: rest => valueItem i ∪ valueList rest

def valueItem : Item δ → Set α
  | .datum d => env d
  | .list l => value l
  | _ => ∅

end

end Value

section Within

variable {δ α : Type} {all : Set α} {env : δ → Set α}

/-- The value of an expression stays in the universe. -/
theorem value_subset (l : List (Item δ)) (h : ∀ d ∈ mentioned l, env d ⊆ all) :
    value all env l ⊆ all := by
  revert h
  refine value.induct
    (fun l => (∀ d ∈ mentioned l, env d ⊆ all) → value all env l ⊆ all)
    (fun l => (∀ d ∈ mentioned l, env d ⊆ all) → valueList all env l ⊆ all)
    (fun i => (∀ d ∈ mentionedItem i, env d ⊆ all) → valueItem all env i ⊆ all)
    ?datum ?list ?other ?nil ?all ?not ?and ?or ?xor ?op ?plain ?done ?cons l
  case nil => simp [value]
  case all => simp [value]
  case not =>
    intro i rest _ _
    rw [value]
    exact Set.sdiff_subset
  case and =>
    intro i j rest ihi _ h
    simp only [mentioned_cons, List.mem_append] at h
    rw [value]
    exact Set.inter_subset_left.trans (ihi fun d hd => h d (Or.inr (Or.inl hd)))
  case or =>
    intro i j rest ihi ihj h
    simp only [mentioned_cons, List.mem_append] at h
    rw [value]
    exact Set.union_subset (ihi fun d hd => h d (Or.inr (Or.inl hd)))
      (ihj fun d hd => h d (Or.inr (Or.inr (Or.inl hd))))
  case xor =>
    intro i j rest ihi ihj h
    simp only [mentioned_cons, List.mem_append] at h
    rw [value]
    exact symmDiff_le_sup.trans (Set.union_subset (ihi fun d hd => h d (Or.inr (Or.inl hd)))
      (ihj fun d hd => h d (Or.inr (Or.inr (Or.inl hd)))))
  case op =>
    intro o tail hall hnot hand hor hxor _
    rw [value]
    · exact Set.empty_subset all
    all_goals assumption
  case plain =>
    intro i rest _ _ _ _ _ hop ihi ihrest h
    have hi : ∀ o, i ≠ .op o := hop
    rw [mentioned_cons] at h
    rw [value]
    · exact Set.union_subset (ihi fun d hd => h d (List.mem_append_left _ hd))
        (ihrest fun d hd => h d (List.mem_append_right _ hd))
    all_goals simp [hi]
  case done => simp [valueList]
  case cons =>
    intro i rest ihi ihrest h
    rw [mentioned_cons] at h
    rw [valueList]
    exact Set.union_subset (ihi fun d hd => h d (List.mem_append_left _ hd))
      (ihrest fun d hd => h d (List.mem_append_right _ hd))
  case datum =>
    intro d h
    simp only [valueItem]
    exact h d List.mem_cons_self
  case list =>
    intro l ih h
    simp only [valueItem]
    exact ih h
  case other =>
    intro i hdatum hlist _
    rw [valueItem]
    · exact Set.empty_subset all
    all_goals assumption

end Within

section Numbered

variable {δ α : Type} {all : Set α} {env : δ → Set α} {number : α → Nat} {max : Nat}

/-- A set of numbers holds the numbers of a set, as far as the universe goes. -/
def Numbers (all : Set α) (number : α → Nat) (S : Set Nat) (T : Set α) : Prop :=
  ∀ x ∈ all, number x ∈ S ↔ x ∈ T

theorem Numbers.union {S S' : Set Nat} {T T' : Set α} (h : Numbers all number S T)
    (h' : Numbers all number S' T') : Numbers all number (S ∪ S') (T ∪ T') := by
  intro x hx
  rw [Set.mem_union, Set.mem_union, h x hx, h' x hx]

private theorem Numbers.inter {S S' : Set Nat} {T T' : Set α} (h : Numbers all number S T)
    (h' : Numbers all number S' T') : Numbers all number (S ∩ S') (T ∩ T') := by
  intro x hx
  rw [Set.mem_inter_iff, Set.mem_inter_iff, h x hx, h' x hx]

theorem Numbers.xor {S S' : Set Nat} {T T' : Set α} (h : Numbers all number S T)
    (h' : Numbers all number S' T') :
    Numbers all number (symmDiff S S') (symmDiff T T') := by
  intro x hx
  rw [Set.mem_symmDiff, Set.mem_symmDiff, h x hx, h' x hx]

theorem Numbers.empty : Numbers all number ∅ ∅ := by
  intro x _
  simp

private theorem Numbers.complement (hmax : ∀ x ∈ all, number x < max) {S : Set Nat} {T : Set α}
    (h : Numbers all number S T) : Numbers all number ({i | i < max} \ S) (all \ T) := by
  intro x hx
  rw [Set.mem_sdiff, Set.mem_sdiff, Set.mem_ofPred_eq, h x hx]
  simp [hx, hmax x hx]

/-- What an expression denotes in numbers is what its value is in the universe. -/
theorem denote_numbers (hmax : ∀ x ∈ all, number x < max) {range : δ → δ → Set Nat}
    {numbers : δ → Set Nat} (l : List (Item δ)) (hl : wellFormed false l = true)
    (h : ∀ d ∈ mentioned l, Numbers all number (numbers d) (env d)) :
    Numbers all number (denote max numbers range l) (value all env l) := by
  revert hl h
  refine wellFormed.induct
    (fun l => wellFormed false l = true →
      (∀ d ∈ mentioned l, Numbers all number (numbers d) (env d)) →
        Numbers all number (denote max numbers range l) (value all env l))
    (fun l => operandsFormed false l = true →
      (∀ d ∈ mentioned l, Numbers all number (numbers d) (env d)) →
        Numbers all number (denoteList max numbers range l) (valueList all env l))
    (fun i => operandFormed false i = true →
      (∀ d ∈ mentionedItem i, Numbers all number (numbers d) (env d)) →
        Numbers all number (denoteItem max numbers range i) (valueItem all env i))
    ?datum ?list ?other ?all ?range ?not ?and ?or ?xor ?op ?empty ?plain ?nil ?cons l
  case all =>
    intro _ _ x hx
    simp [denote, value, hx, hmax x hx]
  case range =>
    intro d1 d2 hl
    simp [wellFormed] at hl
  case not =>
    intro i ih hl h
    simp only [wellFormed] at hl
    simp only [mentioned_cons, mentionedItem_op, mentioned_nil, List.nil_append,
      List.append_nil] at h
    simp only [denote, value]
    exact (ih hl h).complement hmax
  case and =>
    intro i j ihi ihj hl h
    simp only [wellFormed, Bool.and_eq_true] at hl
    simp only [mentioned_cons, mentionedItem_op, mentioned_nil, List.nil_append,
      List.append_nil, List.mem_append] at h
    simp only [denote, value]
    exact (ihi hl.1 fun d hd => h d (Or.inl hd)).inter (ihj hl.2 fun d hd => h d (Or.inr hd))
  case or =>
    intro i j ihi ihj hl h
    simp only [wellFormed, Bool.and_eq_true] at hl
    simp only [mentioned_cons, mentionedItem_op, mentioned_nil, List.nil_append,
      List.append_nil, List.mem_append] at h
    simp only [denote, value]
    exact (ihi hl.1 fun d hd => h d (Or.inl hd)).union (ihj hl.2 fun d hd => h d (Or.inr hd))
  case xor =>
    intro i j ihi ihj hl h
    simp only [wellFormed, Bool.and_eq_true] at hl
    simp only [mentioned_cons, mentionedItem_op, mentioned_nil, List.nil_append,
      List.append_nil, List.mem_append] at h
    simp only [denote, value]
    exact (ihi hl.1 fun d hd => h d (Or.inl hd)).xor
      (ihj hl.2 fun d hd => h d (Or.inr hd))
  case op =>
    intro o tail hall hrange hnot hand hor hxor hl _
    rw [wellFormed] at hl
    · cases hl
    all_goals assumption
  case empty =>
    intro _ _
    simp only [denote, value]
    exact Numbers.empty
  case plain =>
    intro i rest _ _ _ _ _ _ hop ihi ihrest hl h
    have hi : ∀ o, i ≠ .op o := hop
    rw [mentioned_cons] at h
    rw [wellFormed, Bool.and_eq_true] at hl
    · rw [denote, value]
      · exact (ihi hl.1 fun d hd => h d (List.mem_append_left _ hd)).union
          (ihrest hl.2 fun d hd => h d (List.mem_append_right _ hd))
      all_goals simp [hi]
    all_goals simp [hi]
  case nil =>
    intro _ _
    simp only [denoteList, valueList]
    exact Numbers.empty
  case cons =>
    intro i rest ihi ihrest hl h
    simp only [operandsFormed, Bool.and_eq_true] at hl
    rw [mentioned_cons] at h
    simp only [denoteList, valueList]
    exact (ihi hl.1 fun d hd => h d (List.mem_append_left _ hd)).union
      (ihrest hl.2 fun d hd => h d (List.mem_append_right _ hd))
  case datum =>
    intro d _ h
    simp only [denoteItem, valueItem]
    exact h d List.mem_cons_self
  case list =>
    intro l ih hl h
    simp only [operandFormed] at hl
    simp only [denoteItem, valueItem]
    exact ih hl h
  case other =>
    intro i hdatum hlist hl
    rw [operandFormed] at hl
    · cases hl
    all_goals assumption

end Numbered

end Cil.Expr
