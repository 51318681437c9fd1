/- Cil/ExprMeaning
   digest: The evaluation of an expression computes the set it denotes. -/

import Cil.Expr

set_option autoImplicit false
set_option relaxedAutoImplicit false

namespace Cil.Expr

open Cil.Library

variable {β δ σ : Type}

/-- What is relied on while an expression is evaluated: how states grow, what holds of them,
which set each declaration stands for, and what is known once a declaration was evaluated. -/
structure Guarantee (σ δ : Type) where
  le : σ → σ → Prop
  inv : σ → Prop
  env : δ → Set Nat
  seen : δ → σ → Prop
  refl : ∀ s, le s s
  trans : ∀ s t u, le s t → le t u → le s u
  keeps : ∀ d s t, le s t → seen d s → seen d t

/-- An evaluation came to the bitmap of the set `S` and went through the declarations `ds`. -/
structure Evaluated (B : Bitmap β) (G : Guarantee σ δ) (ds : List δ) (S : Set Nat) (s : σ)
    (b : β) (s' : σ) : Prop where
  grows : G.le s s'
  inv : G.inv s'
  value : B.bits b = S
  seen : ∀ d ∈ ds, G.seen d s'

variable {B : Bitmap β} {G : Guarantee σ δ} {max : Nat} {otherwise : Prop}

theorem Evaluated.refl {s : σ} {b : β} {S : Set Nat} (hs : G.inv s) (hb : B.bits b = S) :
    Evaluated B G [] S s b s where
  grows := G.refl s
  inv := hs
  value := hb
  seen := by simp

/-- The second of two evaluations, and what becomes of the two bitmaps. -/
theorem Evaluated.next {ds ds' : List δ} {S S' T : Set Nat} {s s' s'' : σ} {b b' c : β}
    (h : Evaluated B G ds S s b s') (h' : Evaluated B G ds' S' s' b' s'') (hc : B.bits c = T) :
    Evaluated B G (ds ++ ds') T s c s'' where
  grows := G.trans s s' s'' h.grows h'.grows
  inv := h'.inv
  value := hc
  seen := by
    intro d hd
    rcases List.mem_append.mp hd with hd | hd
    · exact G.keeps d s' s'' h'.grows (h.seen d hd)
    · exact h'.seen d hd

private theorem Evaluated.of_value {ds : List δ} {S T : Set Nat} {s s' : σ} {b c : β}
    (h : Evaluated B G ds S s b s') (hc : B.bits c = T) : Evaluated B G ds T s c s' where
  grows := h.grows
  inv := h.inv
  value := hc
  seen := h.seen

theorem mentioned_cons (i : Item δ) (rest : List (Item δ)) :
    mentioned (i :: rest) = mentionedItem i ++ mentioned rest := by
  simp [mentioned]

@[simp] theorem mentionedItem_op (o : Op) : mentionedItem (Item.op o : Item δ) = [] := by
  simp [mentionedItem]

@[simp] theorem mentioned_nil : mentioned ([] : List (Item δ)) = [] := by
  simp [mentioned]

variable {datumToBitmap : δ → Call Rc σ β}

/-- Every one of the declarations evaluates to the set it stands for. -/
def Evaluates (B : Bitmap β) (G : Guarantee σ δ) (otherwise : Prop)
    (datumToBitmap : δ → Call Rc σ β) (ds : List δ) : Prop :=
  ∀ d ∈ ds, ∀ s, G.inv s →
    Ends otherwise (Evaluated B G [d] (G.env d) s) (datumToBitmap d s)

theorem Evaluates.left {ds ds' : List δ}
    (h : Evaluates B G otherwise datumToBitmap (ds ++ ds')) :
    Evaluates B G otherwise datumToBitmap ds :=
  fun d hd => h d (List.mem_append_left ds' hd)

theorem Evaluates.right {ds ds' : List δ}
    (h : Evaluates B G otherwise datumToBitmap (ds ++ ds')) :
    Evaluates B G otherwise datumToBitmap ds' :=
  fun d hd => h d (List.mem_append_right ds hd)

/-- Operators that take two operands, with what they do to sets. -/
inductive Binary : Op → (Set Nat → Set Nat → Set Nat) → Prop
  | or : Binary .or fun S T => S ∪ T
  | and : Binary .and fun S T => S ∩ T
  | xor : Binary .xor fun S T => symmDiff S T

private theorem combine_binary {o : Op} {f : Set Nat → Set Nat → Set Nat} (h : Binary o f)
    (b1 b2 : β) :
    ∃ b, (combine B o b1 b2 : Call Rc σ β) = pure b ∧ B.bits b = f (B.bits b1) (B.bits b2) := by
  cases h with
  | or => exact ⟨_, rfl, B.bits_or b1 b2⟩
  | and => exact ⟨_, rfl, B.bits_and b1 b2⟩
  | xor => exact ⟨_, rfl, B.bits_xor b1 b2⟩

section Rule

variable (B G max otherwise) (datumToBitmap)
variable (rangeToBitmap : Option (δ → δ → Call Rc σ β)) (range : δ → δ → Set Nat)

/-- What is relied on where ranges may occur. -/
def RangeEvaluates : Prop :=
  ∃ r, rangeToBitmap = some r ∧ ∀ d1 d2 s, G.inv s →
    Ends otherwise (Evaluated B G [d1, d2] (range d1 d2) s) (r d1 d2 s)

/-- An expression evaluates to what it denotes, added to what `out` holds. -/
def ExprEnds (l : List (Item δ)) : Prop :=
  ∀ out s, G.inv s →
    Ends otherwise (Evaluated B G (mentioned l) (B.bits out ∪ denote max G.env range l) s)
      (exprToBitmap B max datumToBitmap rangeToBitmap out l s)

def LoopEnds (l : List (Item δ)) : Prop :=
  ∀ tmp s, G.inv s →
    Ends otherwise (Evaluated B G (mentioned l) (B.bits tmp ∪ denoteList max G.env range l) s)
      (exprToBitmapLoop B max datumToBitmap rangeToBitmap tmp l s)

def OperandEnds (i : Item δ) : Prop :=
  ∀ s, G.inv s →
    Ends otherwise (Evaluated B G (mentionedItem i) (denoteItem max G.env range i) s)
      (exprToBitmapHelper B max datumToBitmap rangeToBitmap i s)

variable {B G max otherwise datumToBitmap rangeToBitmap range}

private theorem exprEnds_nil : ExprEnds B G max otherwise datumToBitmap rangeToBitmap range [] := by
  intro out s hs
  rw [exprToBitmap_nil, denote_nil, Set.union_empty]
  exact ends_pure (Evaluated.refl hs rfl)

private theorem exprEnds_all :
    ExprEnds B G max otherwise datumToBitmap rangeToBitmap range [.op .all] := by
  intro out s hs
  simp only [exprToBitmap, mentioned, denote]
  refine ends_pure (Evaluated.refl hs ?_)
  simp

private theorem exprEnds_range (hrange : RangeEvaluates B G otherwise rangeToBitmap range)
    (d1 d2 : δ) :
    ExprEnds B G max otherwise datumToBitmap rangeToBitmap range
      [.op .range, .datum d1, .datum d2] := by
  intro out s hs
  obtain ⟨r, rfl, hr⟩ := hrange
  simp only [exprToBitmap, mentioned, denote]
  refine (hr d1 d2 s hs).bind fun b s' h => ends_pure (h.of_value ?_)
  simp [h.value]

private theorem exprEnds_not {i : Item δ}
    (hi : OperandEnds B G max otherwise datumToBitmap rangeToBitmap range i) :
    ExprEnds B G max otherwise datumToBitmap rangeToBitmap range [.op .not, i] := by
  intro out s hs
  simp only [exprToBitmap, mentioned_cons, mentionedItem_op, mentioned_nil, List.nil_append,
    List.append_nil, denote]
  refine (hi s hs).bind fun b s' h => ends_pure (h.of_value ?_)
  simp [h.value]

private theorem exprEnds_binary {o : Op} {f : Set Nat → Set Nat → Set Nat} (ho : Binary o f)
    {i j : Item δ} (hi : OperandEnds B G max otherwise datumToBitmap rangeToBitmap range i)
    (hj : OperandEnds B G max otherwise datumToBitmap rangeToBitmap range j) :
    ExprEnds B G max otherwise datumToBitmap rangeToBitmap range [.op o, i, j] := by
  intro out s hs
  have heq : exprToBitmap B max datumToBitmap rangeToBitmap out [.op o, i, j] =
      exprToBitmapHelper B max datumToBitmap rangeToBitmap i >>= fun b1 =>
        exprToBitmapHelper B max datumToBitmap rangeToBitmap j >>= fun b2 =>
          combine B o b1 b2 >>= fun tmp => pure (B.union out tmp) := by
    cases ho <;> simp only [exprToBitmap]
  have hset : denote max G.env range [.op o, i, j] =
      f (denoteItem max G.env range i) (denoteItem max G.env range j) := by
    cases ho <;> simp only [denote]
  rw [heq, hset]
  simp only [mentioned_cons, mentionedItem_op, mentioned_nil, List.nil_append, List.append_nil]
  refine (hi s hs).bind fun b1 s1 h1 => (hj s1 h1.inv).bind fun b2 s2 h2 => ?_
  obtain ⟨b, hb, hbits⟩ := combine_binary (σ := σ) (B := B) ho b1 b2
  rw [hb]
  refine ends_pure (h1.next h2 ?_)
  rw [B.bits_union, hbits, h1.value, h2.value]

private theorem loopEnds_nil : LoopEnds B G max otherwise datumToBitmap rangeToBitmap range [] := by
  intro tmp s hs
  simp only [exprToBitmapLoop, mentioned, denoteList, Set.union_empty]
  exact ends_pure (Evaluated.refl hs rfl)

private theorem loopEnds_cons {i : Item δ} {rest : List (Item δ)}
    (hi : OperandEnds B G max otherwise datumToBitmap rangeToBitmap range i)
    (hrest : LoopEnds B G max otherwise datumToBitmap rangeToBitmap range rest) :
    LoopEnds B G max otherwise datumToBitmap rangeToBitmap range (i :: rest) := by
  intro tmp s hs
  simp only [exprToBitmapLoop, mentioned_cons, denoteList]
  refine (hi s hs).bind fun b s1 h1 => (hrest _ s1 h1.inv).imp fun c s2 h2 => h1.next h2 ?_
  rw [h2.value, B.bits_or, h1.value, Set.union_assoc]

/-- A list without operator is evaluated by the loop. -/
private theorem exprEnds_of_loop {items : List (Item δ)} (hop : ∀ o tail, items ≠ .op o :: tail)
    (h : LoopEnds B G max otherwise datumToBitmap rangeToBitmap range items) :
    ExprEnds B G max otherwise datumToBitmap rangeToBitmap range items := by
  cases items with
  | nil => exact exprEnds_nil
  | cons i rest =>
    have hi : ∀ o, i ≠ .op o := fun o he => hop o rest (by rw [he])
    intro out s hs
    have heq : exprToBitmap B max datumToBitmap rangeToBitmap out (i :: rest) =
        exprToBitmapLoop B max datumToBitmap rangeToBitmap B.init (i :: rest) >>= fun tmp =>
          pure (B.union out tmp) := by
      rw [exprToBitmapLoop, Call.bind_assoc, exprToBitmap]
      all_goals simp [hi]
    have hset : denote max G.env range (i :: rest) = denoteList max G.env range (i :: rest) := by
      rw [denoteList, denote]
      all_goals simp [hi]
    rw [heq, hset]
    refine (h B.init s hs).bind fun b s' hb => ends_pure (hb.of_value ?_)
    rw [B.bits_union, hb.value, B.bits_init, Set.empty_union]

/-- An expression that `cil_verify_expr_syntax` lets through evaluates to what it denotes,
once all declarations in it evaluate to what they stand for. -/
private theorem exprEnds {ranges : Bool}
    (hrange : ranges = true → RangeEvaluates B G otherwise rangeToBitmap range)
    (l : List (Item δ)) (hl : wellFormed ranges l = true)
    (h : Evaluates B G otherwise datumToBitmap (mentioned l)) :
    ExprEnds B G max otherwise datumToBitmap rangeToBitmap range l := by
  revert hl h
  refine wellFormed.induct
    (fun l => wellFormed ranges l = true →
      Evaluates B G otherwise datumToBitmap (mentioned l) →
        ExprEnds B G max otherwise datumToBitmap rangeToBitmap range l)
    (fun l => operandsFormed ranges l = true →
      Evaluates B G otherwise datumToBitmap (mentioned l) →
        LoopEnds B G max otherwise datumToBitmap rangeToBitmap range l)
    (fun i => operandFormed ranges i = true →
      Evaluates B G otherwise datumToBitmap (mentionedItem i) →
        OperandEnds B G max otherwise datumToBitmap rangeToBitmap range i)
    ?datum ?list ?other ?all ?range ?not ?and ?or ?xor ?op ?empty ?plain ?nil ?cons l
  case all => exact fun _ _ => exprEnds_all
  case range =>
    intro d1 d2 hl _
    simp only [wellFormed] at hl
    exact exprEnds_range (hrange hl) d1 d2
  case not =>
    intro i ih hl h
    simp only [wellFormed] at hl
    simp only [mentioned_cons, mentionedItem_op, mentioned_nil, List.nil_append,
      List.append_nil] at h
    exact exprEnds_not (ih hl h)
  case and =>
    intro i j ihi ihj hl h
    simp only [wellFormed, Bool.and_eq_true] at hl
    simp only [mentioned_cons, mentionedItem_op, mentioned_nil, List.nil_append,
      List.append_nil] at h
    exact exprEnds_binary Binary.and (ihi hl.1 h.left) (ihj hl.2 h.right)
  case or =>
    intro i j ihi ihj hl h
    simp only [wellFormed, Bool.and_eq_true] at hl
    simp only [mentioned_cons, mentionedItem_op, mentioned_nil, List.nil_append,
      List.append_nil] at h
    exact exprEnds_binary Binary.or (ihi hl.1 h.left) (ihj hl.2 h.right)
  case xor =>
    intro i j ihi ihj hl h
    simp only [wellFormed, Bool.and_eq_true] at hl
    simp only [mentioned_cons, mentionedItem_op, mentioned_nil, List.nil_append,
      List.append_nil] at h
    exact exprEnds_binary Binary.xor (ihi hl.1 h.left) (ihj hl.2 h.right)
  case op =>
    intro o tail hall hrange hnot hand hor hxor hl _
    rw [wellFormed] at hl
    · cases hl
    all_goals assumption
  case empty => exact fun _ _ => exprEnds_nil
  case plain =>
    intro i rest _ _ _ _ _ _ hop ihi ihrest hl h
    have hi : ∀ o, i ≠ .op o := hop
    rw [mentioned_cons] at h
    rw [wellFormed, Bool.and_eq_true] at hl
    · refine exprEnds_of_loop ?_ (loopEnds_cons (ihi hl.1 h.left) (ihrest hl.2 h.right))
      rintro o tail ⟨⟩
      exact hi o rfl
    all_goals simp [hi]
  case nil => exact fun _ _ => loopEnds_nil
  case cons =>
    intro i rest ihi ihrest hl h
    simp only [operandsFormed, Bool.and_eq_true] at hl
    rw [mentioned_cons] at h
    exact loopEnds_cons (ihi hl.1 h.left) (ihrest hl.2 h.right)
  case datum =>
    intro d _ h s hs
    simp only [exprToBitmapHelper, denoteItem, mentionedItem]
    exact h d List.mem_cons_self s hs
  case list =>
    intro l ih hl h s hs
    simp only [operandFormed] at hl
    simp only [exprToBitmapHelper, denoteItem, mentionedItem]
    refine (ih hl h B.init s hs).imp fun b s' hb => hb.of_value ?_
    rw [hb.value, B.bits_init, Set.empty_union]
  case other =>
    intro i hdatum hlist hl
    rw [operandFormed] at hl
    · cases hl
    all_goals assumption

/-- The rule for expressions without ranges. -/
theorem exprToBitmap_ends (max : Nat) (l : List (Item δ)) (hl : wellFormed false l = true)
    (h : Evaluates B G otherwise datumToBitmap (mentioned l)) (out : β) (s : σ) (hs : G.inv s) :
    Ends otherwise
      (Evaluated B G (mentioned l) (B.bits out ∪ denote max G.env (fun _ _ => ∅) l) s)
      (exprToBitmap B max datumToBitmap none out l s) :=
  exprEnds (by simp) l hl h out s hs

end Rule

section Locality

variable {env env' : δ → Set Nat} {range : δ → δ → Set Nat}

theorem denote_congr (l : List (Item δ)) (h : ∀ d ∈ mentioned l, env d = env' d) :
    denote max env range l = denote max env' range l := by
  revert h
  refine denote.induct
    (fun l => (∀ d ∈ mentioned l, env d = env' d) →
      denote max env range l = denote max env' range l)
    (fun l => (∀ d ∈ mentioned l, env d = env' d) →
      denoteList max env range l = denoteList max env' range l)
    (fun i => (∀ d ∈ mentionedItem i, env d = env' d) →
      denoteItem max env range i = denoteItem max env' range i)
    ?datum ?list ?other ?nil ?all ?range ?not ?and ?or ?xor ?op ?plain ?done ?cons l
  case nil => simp [denote]
  case all => simp [denote]
  case range => simp [denote]
  case not =>
    intro i rest ih h
    simp only [mentioned_cons, List.mem_append] at h
    rw [denote, denote, ih fun d hd => h d (Or.inr (Or.inl hd))]
  case and =>
    intro i j rest ihi ihj h
    simp only [mentioned_cons, List.mem_append] at h
    rw [denote, denote, ihi fun d hd => h d (Or.inr (Or.inl hd)),
      ihj fun d hd => h d (Or.inr (Or.inr (Or.inl hd)))]
  case or =>
    intro i j rest ihi ihj h
    simp only [mentioned_cons, List.mem_append] at h
    rw [denote, denote, ihi fun d hd => h d (Or.inr (Or.inl hd)),
      ihj fun d hd => h d (Or.inr (Or.inr (Or.inl hd)))]
  case xor =>
    intro i j rest ihi ihj h
    simp only [mentioned_cons, List.mem_append] at h
    rw [denote, denote, ihi fun d hd => h d (Or.inr (Or.inl hd)),
      ihj fun d hd => h d (Or.inr (Or.inr (Or.inl hd)))]
  case op =>
    intro o tail hall hrange hnot hand hor hxor _
    rw [denote, denote]
    all_goals assumption
  case plain =>
    intro i rest _ _ _ _ _ _ hop ihi ihrest h
    have hi : ∀ o, i ≠ .op o := hop
    rw [mentioned_cons] at h
    rw [denote, denote, ihi fun d hd => h d (List.mem_append_left _ hd),
      ihrest fun d hd => h d (List.mem_append_right _ hd)]
    all_goals simp [hi]
  case done => simp [denoteList]
  case cons =>
    intro i rest ihi ihrest h
    rw [mentioned_cons] at h
    rw [denoteList, denoteList, ihi fun d hd => h d (List.mem_append_left _ hd),
      ihrest fun d hd => h d (List.mem_append_right _ hd)]
  case datum =>
    intro d h
    simp only [denoteItem]
    exact h d List.mem_cons_self
  case list =>
    intro l ih h
    simp only [denoteItem]
    exact ih h
  case other =>
    intro i hdatum hlist _
    rw [denoteItem, denoteItem]
    all_goals assumption

end Locality

end Cil.Expr
