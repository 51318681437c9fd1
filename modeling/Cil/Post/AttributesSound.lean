/- Cil/Post/AttributesSound
   digest: Attributes without circular references get the sets their equations define. -/

import Mathlib.Data.Fintype.Card
import Cil.ExprMeaning
import Cil.Library.Equations
import Cil.Post.Attributes

set_option autoImplicit false
set_option relaxedAutoImplicit false

namespace Cil.Post.Attributes

open Relation
open Cil.Expr Cil.Library Cil.Library.Equations

variable {α β : Type}

/-- The expressions in the `expr_list` of an attribute. -/
def Policy.exprs (P : Policy α) (a : α) : List (List (Item (Datum α))) := (P.exprList a).getD []

/-- The number that complements in the expressions of an attribute are taken below. -/
def Policy.max (P : Policy α) (a : α) : Nat :=
  match P.kind a with
  | .type => P.numTypes
  | .role => P.numRoles

/-- An expression of the first attribute mentions the second. -/
def Policy.refers (P : Policy α) (a c : α) : Prop :=
  ∃ e ∈ P.exprs a, Datum.attr c ∈ mentioned e

/-- The set a declaration stands for when the attributes have the values `f`. -/
def meaning (f : α → Set Nat) : Datum α → Set Nat
  | .attr a => f a
  | .typealias value => {value}
  | .type value => {value}
  | .role value => {value}

/-- The right hand side of the equation of an attribute. -/
def Policy.rhs (P : Policy α) (f : α → Set Nat) (a : α) : Set Nat :=
  ⋃ e ∈ P.exprs a, denote (P.max a) (meaning f) (fun _ _ => ∅) e

/-- The attributes among the nodes. -/
def attributes (nodes : List (NodeData α)) : List α :=
  nodes.filterMap fun
    | .attr a => some a
    | _ => none

/-- The attributes that the pass visits. -/
def visited (ast : Tree (NodeData α)) : List α := attributes (ast.walk NodeData.skipHead)

/-- The bits that an attribute has. -/
def valueOf (B : Bitmap β) (bitmaps : Bitmaps α β) (a : α) : Set Nat :=
  match bitmaps a with
  | some b => B.bits b
  | none => ∅

/-- The attributes in `as`, and all that they refer to, have bitmaps that satisfy their
equations. -/
structure Solved (B : Bitmap β) (P : Policy α) (as : List α) (bitmaps : Bitmaps α β) :
    Prop where
  evaluated : ∀ a ∈ as, bitmaps a ≠ none
  closed : ∀ a c, bitmaps a ≠ none → P.refers a c → bitmaps c ≠ none
  equation : ∀ a, bitmaps a ≠ none → valueOf B bitmaps a = P.rhs (valueOf B bitmaps) a

/-- The pass comes to an end with bitmaps that satisfy the equations, for every tree, and for
every two trees the bitmaps agree. -/
structure Sound [DecidableEq α] (B : Bitmap β) (P : Policy α) : Prop where
  solves : ∀ ast, ∃ fuel bitmaps,
    postDbAttr B P fuel ast (fun _ => none) = some (.ok () bitmaps) ∧
      Solved B P (visited ast) bitmaps
  agrees : ∀ ast ast' fuel fuel' bitmaps bitmaps',
    postDbAttr B P fuel ast (fun _ => none) = some (.ok () bitmaps) →
    postDbAttr B P fuel' ast' (fun _ => none) = some (.ok () bitmaps') →
    ∀ a, bitmaps a ≠ none → bitmaps' a ≠ none → valueOf B bitmaps a = valueOf B bitmaps' a

variable {B : Bitmap β} {P : Policy α}

private theorem mem_exprs {a : α} {e : List (Item (Datum α))} :
    e ∈ P.exprs a ↔ ∃ l, P.exprList a = some l ∧ e ∈ l := by
  unfold Policy.exprs
  cases P.exprList a <;> simp

private theorem wellFormed_of_mem {a : α} {e : List (Item (Datum α))} (he : e ∈ P.exprs a) :
    Expr.wellFormed false e = true := by
  obtain ⟨l, hl, he⟩ := mem_exprs.mp he
  exact P.wellFormed a l hl e he

theorem not_refers_self (a : α) : ¬ P.refers a a := by
  rintro ⟨e, he, ha⟩
  obtain ⟨l, hl, he⟩ := mem_exprs.mp he
  exact P.noSelfReference a l hl e he ha

private theorem rhs_local : Local P.refers P.rhs := by
  intro f g a h
  unfold Policy.rhs
  refine Set.iUnion₂_congr fun e he => denote_congr e fun d hd => ?_
  cases d with
  | attr c => exact h c ⟨e, he, hd⟩
  | _ => rfl

/-- Two runs that solve the equations agree where both have evaluated an attribute. -/
theorem Solved.agrees [Finite α] (hacyclic : Acyclic P.refers) {as as' : List α}
    {bitmaps bitmaps' : Bitmaps α β} (h : Solved B P as bitmaps) (h' : Solved B P as' bitmaps')
    (a : α) (ha : bitmaps a ≠ none) (ha' : bitmaps' a ≠ none) :
    valueOf B bitmaps a = valueOf B bitmaps' a := by
  refine hacyclic.solution_unique rhs_local
    (S := fun a => bitmaps a ≠ none ∧ bitmaps' a ≠ none) ?_ ?_ ?_ a ⟨ha, ha'⟩
  · rintro c d ⟨hc, hc'⟩ hcd
    exact ⟨h.closed c d hc hcd, h'.closed c d hc' hcd⟩
  · exact fun c hc => h.equation c hc.1
  · exact fun c hc => h'.equation c hc.2

section Update

variable [DecidableEq α] {bitmaps : Bitmaps α β}

private theorem valueOf_update_same {a : α} {b : β} :
    valueOf B (Function.update bitmaps a (some b)) a = B.bits b := by
  simp [valueOf]

private theorem valueOf_update_ne {a c : α} {b : Option β} (h : c ≠ a) :
    valueOf B (Function.update bitmaps a b) c = valueOf B bitmaps c := by
  simp [valueOf, h]

private theorem valueOf_unionInto {a : α} {b : β} :
    valueOf B (unionInto B a b bitmaps) a = valueOf B bitmaps a ∪ B.bits b := by
  rw [unionInto, valueOf_update_same, B.bits_union, valueOf]
  cases bitmaps a <;> simp

private theorem unionInto_of_ne {a c : α} {b : β} (h : c ≠ a) :
    unionInto B a b bitmaps c = bitmaps c :=
  Function.update_of_ne h _ _

end Update

theorem evaluate_eq [DecidableEq α] (toBitmap : Datum α → Call Rc (Bitmaps α β) β) (a : α) :
    evaluate B P toBitmap a =
      Call.onFailure (fun bitmaps => Function.update bitmaps a none)
        (Call.modify (fun bitmaps => Function.update bitmaps a (some B.init)) >>= fun _ =>
          exprListToBitmap B (P.max a) toBitmap a (P.exprs a)) := by
  have hlist : evaluate B P toBitmap a =
      evaluateExpression B (P.max a) toBitmap (P.exprList a) a := by
    unfold evaluate Policy.max
    cases P.kind a <;> rfl
  rw [hlist]
  unfold evaluateExpression Policy.exprs
  cases P.exprList a <;> rfl

section Acyclic

variable [Fintype α]

/-- The attributes that have no bitmap yet. -/
def unevaluated (bitmaps : Bitmaps α β) : Finset α :=
  Finset.univ.filter fun c => (bitmaps c).isNone

private theorem mem_unevaluated {bitmaps : Bitmaps α β} {c : α} :
    c ∈ unevaluated bitmaps ↔ bitmaps c = none := by
  simp [unevaluated]

/-- The bitmaps while the attributes in `O` are being evaluated: all others that are there
have the values `f`, and what they refer to is there. -/
structure Reached (B : Bitmap β) (P : Policy α) (f : α → Set Nat) (O : Set α) (n : Nat)
    (bitmaps : Bitmaps α β) : Prop where
  room : (unevaluated bitmaps).card ≤ n
  opened : ∀ c ∈ O, bitmaps c ≠ none
  value : ∀ c, bitmaps c ≠ none → c ∉ O → valueOf B bitmaps c = f c
  closed : ∀ c d, bitmaps c ≠ none → c ∉ O → P.refers c d → bitmaps d ≠ none

/-- Bitmaps are added and never changed. -/
def Extends (bitmaps bitmaps' : Bitmaps α β) : Prop :=
  ∀ c, bitmaps c ≠ none → bitmaps' c = bitmaps c

/-- What the evaluation of an expression relies on. -/
def guarantee (B : Bitmap β) (P : Policy α) (f : α → Set Nat) (O : Set α) (n : Nat) :
    Guarantee (Bitmaps α β) (Datum α) where
  le := Extends
  inv := Reached B P f O n
  env := meaning f
  seen d bitmaps := ∀ c, d = .attr c → bitmaps c ≠ none
  refl _ _ _ := rfl
  trans s t u hst htu c hc := by
    have ht : t c = s c := hst c hc
    have hu : u c = t c := htu c (by rwa [ht])
    rw [hu, ht]
  keeps d s t hst hd c hc := by
    rw [hst c (hd c hc)]
    exact hd c hc

variable {f : α → Set Nat} {O : Set α} {n : Nat} {bitmaps : Bitmaps α β} {otherwise : Prop}

private theorem evaluated_attr {a : α} {b : β} {bitmaps' : Bitmaps α β}
    (hext : Extends bitmaps bitmaps') (h : Reached B P f O n bitmaps')
    (ha : bitmaps' a ≠ none) (hb : B.bits b = f a) :
    Evaluated B (guarantee B P f O n) [.attr a] (meaning f (.attr a)) bitmaps b bitmaps' where
  grows := hext
  inv := h
  value := hb
  seen := by
    intro d hd c hc
    obtain rfl := List.mem_singleton.mp hd
    cases hc
    exact ha

private theorem evaluated_plain {d : Datum α} {v : Nat} (hd : ∀ a, d ≠ .attr a)
    (hv : meaning f d = {v}) (h : Reached B P f O n bitmaps) :
    Evaluated B (guarantee B P f O n) [d] (meaning f d) bitmaps (B.setBit B.init v) bitmaps where
  grows _ _ := rfl
  inv := h
  value := by simp [hv]
  seen := by
    intro d' hd' c hc
    obtain rfl := List.mem_singleton.mp hd'
    exact absurd hc (hd c)

theorem Reached.solved {as : List α} (hf : ∀ a, f a = P.rhs f a)
    (h : Reached B P f ∅ n bitmaps) (has : ∀ a ∈ as, bitmaps a ≠ none) :
    Solved B P as bitmaps where
  evaluated := has
  closed a c ha hac := h.closed a c ha (Set.notMem_empty a) hac
  equation a ha := by
    rw [h.value a ha (Set.notMem_empty a), hf a]
    refine rhs_local _ _ a fun c hac => ?_
    exact (h.value c (h.closed a c ha (Set.notMem_empty a) hac) (Set.notMem_empty c)).symm

variable [DecidableEq α]

/-- An attribute gets its empty bitmap. -/
theorem Reached.start {a : α} (h : Reached B P f O n bitmaps) (ha : bitmaps a = none) (b : β) :
    ∃ m, n = m + 1 ∧
      Reached B P f (insert a O) m (Function.update bitmaps a (some b)) := by
  have hnone : ∀ c, bitmaps c ≠ none → Function.update bitmaps a (some b) c ≠ none := by
    intro c hc
    rw [Function.update_apply]
    split_ifs
    · simp
    · exact hc
  have hsub : unevaluated (Function.update bitmaps a (some b)) ⊆ (unevaluated bitmaps).erase a := by
    intro c hc
    rw [mem_unevaluated, Function.update_apply] at hc
    split_ifs at hc with hca
    rw [Finset.mem_erase, mem_unevaluated]
    exact ⟨hca, hc⟩
  have hmem : a ∈ unevaluated bitmaps := mem_unevaluated.mpr ha
  have hcard := Finset.card_le_card hsub
  rw [Finset.card_erase_of_mem hmem] at hcard
  have hpos := Finset.card_pos.mpr ⟨a, hmem⟩
  have hroom := h.room
  refine ⟨n - 1, by omega, by omega, ?_, ?_, ?_⟩
  · rintro c (rfl | hc)
    · simp
    · exact hnone c (h.opened c hc)
  · intro c hc hcO
    have hca : c ≠ a := fun he => hcO (Or.inl he)
    rw [valueOf_update_ne hca]
    rw [Function.update_of_ne hca] at hc
    exact h.value c hc fun ho => hcO (Or.inr ho)
  · intro c d hc hcO hcd
    have hca : c ≠ a := fun he => hcO (Or.inl he)
    rw [Function.update_of_ne hca] at hc
    exact hnone d (h.closed c d hc (fun ho => hcO (Or.inr ho)) hcd)

/-- The bitmap of an attribute under evaluation may change. -/
theorem Reached.update {a : α} (h : Reached B P f O n bitmaps) (ha : a ∈ O) (b : β) :
    Reached B P f O n (Function.update bitmaps a (some b)) := by
  have hnone : ∀ c, Function.update bitmaps a (some b) c = none ↔ bitmaps c = none := by
    intro c
    rw [Function.update_apply]
    split_ifs with hca
    · subst hca
      simp [h.opened c ha]
    · rfl
  have hune : unevaluated (Function.update bitmaps a (some b)) = unevaluated bitmaps := by
    ext c
    rw [mem_unevaluated, mem_unevaluated, hnone]
  refine ⟨hune ▸ h.room, fun c hc => (hnone c).not.mpr (h.opened c hc), fun c hc hcO => ?_,
    fun c d hc hcO hcd => ?_⟩
  · have hca : c ≠ a := fun he => hcO (he ▸ ha)
    rw [valueOf_update_ne hca]
    exact h.value c ((hnone c).not.mp hc) hcO
  · exact (hnone d).not.mpr (h.closed c d ((hnone c).not.mp hc) hcO hcd)

/-- An attribute whose expressions were all evaluated is done. -/
theorem Reached.finish {a : α} {m : Nat} (h : Reached B P f (insert a O) m bitmaps)
    (hvalue : valueOf B bitmaps a = f a)
    (hclosed : ∀ d, P.refers a d → bitmaps d ≠ none) : Reached B P f O (m + 1) bitmaps where
  room := Nat.le_succ_of_le h.room
  opened c hc := h.opened c (Or.inr hc)
  value c hc hcO := by
    by_cases hca : c = a
    · exact hca ▸ hvalue
    · exact h.value c hc fun ho => ho.elim hca hcO
  closed c d hc hcO hcd := by
    by_cases hca : c = a
    · exact hclosed d (hca ▸ hcd)
    · exact h.closed c d hc (fun ho => ho.elim hca hcO) hcd

/-- The loop over expressions of `a` adds to its bitmap what they denote. -/
private theorem exprListToBitmap_ends (max : Nat) {a : α}
    {toBitmap : Datum α → Call Rc (Bitmaps α β) β} (ha : a ∈ O) (es : List (List (Item (Datum α))))
    (hform : ∀ e ∈ es, Expr.wellFormed false e = true)
    (heval : ∀ e ∈ es, Evaluates B (guarantee B P f O n) otherwise toBitmap (mentioned e))
    (bitmaps : Bitmaps α β) (h : Reached B P f O n bitmaps) :
    Ends otherwise
      (fun _ bitmaps' => Reached B P f O n bitmaps' ∧
        (∀ c, c ≠ a → bitmaps c ≠ none → bitmaps' c = bitmaps c) ∧
        valueOf B bitmaps' a =
          valueOf B bitmaps a ∪ ⋃ e ∈ es, denote max (meaning f) (fun _ _ => ∅) e ∧
        ∀ e ∈ es, ∀ c, Datum.attr c ∈ mentioned e → bitmaps' c ≠ none)
      (exprListToBitmap B max toBitmap a es bitmaps) := by
  induction es generalizing bitmaps with
  | nil =>
    refine ends_pure ⟨h, fun _ _ _ => rfl, ?_, ?_⟩
    · simp
    · simp
  | cons e es ih =>
    have hexpr := exprToBitmap_ends max e (hform e List.mem_cons_self)
      (heval e List.mem_cons_self) B.init bitmaps h
    refine hexpr.bind fun b bitmaps1 h1 => ?_
    have hopen : bitmaps a ≠ none := h.opened a ha
    have hunion : Reached B P f O n (unionInto B a b bitmaps1) := h1.inv.update ha _
    have hvalue : valueOf B (unionInto B a b bitmaps1) a =
        valueOf B bitmaps a ∪ denote max (meaning f) (fun _ _ => ∅) e := by
      rw [valueOf_unionInto, h1.value, B.bits_init, Set.empty_union, valueOf, valueOf,
        h1.grows a hopen]
      rfl
    refine ends_modify_bind ((ih (fun e' he => hform e' (List.mem_cons_of_mem e he))
      (fun e' he => heval e' (List.mem_cons_of_mem e he)) _ hunion).imp ?_)
    rintro _ bitmaps3 ⟨hreached, hkeep, hval, hseen⟩
    refine ⟨hreached, fun c hca hc => ?_, ?_, fun e' he c hc => ?_⟩
    · have hc1 : bitmaps1 c = bitmaps c := h1.grows c hc
      rw [hkeep c hca (by rwa [unionInto_of_ne hca, hc1]), unionInto_of_ne hca, hc1]
    · rw [hval, hvalue, Set.union_assoc]
      simp
    · rcases List.mem_cons.mp he with rfl | he
      · have hc1 : bitmaps1 c ≠ none := h1.seen _ hc c rfl
        by_cases hca : c = a
        · exact hreached.opened c (hca ▸ ha)
        · rwa [hkeep c hca (by rwa [unionInto_of_ne hca]), unionInto_of_ne hca]
      · exact hseen e' he c hc

/-- The evaluation of one attribute, given that of what its expressions mention. -/
private theorem evaluate_ends {toBitmap : Datum α → Call Rc (Bitmaps α β) β} {a : α} {m : Nat}
    (hf : f a = P.rhs f a)
    (heval : ∀ e ∈ P.exprs a,
      Evaluates B (guarantee B P f (insert a O) m) otherwise toBitmap (mentioned e))
    (h : Reached B P f (insert a O) m (Function.update bitmaps a (some B.init)))
    (ha : bitmaps a = none) :
    Ends otherwise
      (fun _ bitmaps' => Reached B P f O (m + 1) bitmaps' ∧ Extends bitmaps bitmaps' ∧
        bitmaps' a ≠ none ∧ valueOf B bitmaps' a = f a)
      (evaluate B P toBitmap a bitmaps) := by
  rw [evaluate_eq]
  refine Ends.onFailure (ends_modify_bind ?_)
  have hloop := exprListToBitmap_ends (P.max a) (Set.mem_insert a O) (P.exprs a)
    (fun e he => wellFormed_of_mem he) heval _ h
  refine hloop.imp ?_
  rintro _ bitmaps' ⟨hreached, hkeep, hval, hseen⟩
  have hvalue : valueOf B bitmaps' a = f a := by
    rw [hval, valueOf_update_same, B.bits_init, Set.empty_union, hf]
    rfl
  refine ⟨hreached.finish hvalue ?_, fun c hc => ?_, hreached.opened a (Set.mem_insert a O),
    hvalue⟩
  · rintro d ⟨e, he, hd⟩
    exact hseen e he d hd
  · have hca : c ≠ a := fun he => hc (he ▸ ha)
    rw [hkeep c hca (by rwa [Function.update_of_ne hca]), Function.update_of_ne hca]

/-- A declaration evaluates to what it stands for, unless it leads back to an attribute that
is being evaluated. -/
private theorem datumToBitmap_ends (hacyclic : Acyclic P.refers) (hf : ∀ a, f a = P.rhs f a)
    (fuel : Nat) (hfuel : otherwise ∨ n < fuel) (d : Datum α)
    (hd : ∀ c, d = .attr c → ∀ o ∈ O, ¬ ReflTransGen P.refers c o)
    (h : Reached B P f O n bitmaps) :
    Ends otherwise (Evaluated B (guarantee B P f O n) [d] (meaning f d) bitmaps)
      (datumToBitmap B P fuel d bitmaps) := by
  induction fuel generalizing O n d bitmaps with
  | zero => exact hfuel.resolve_right (Nat.not_lt_zero n)
  | succ fuel ih =>
    cases d with
    | typealias value => exact ends_pure (evaluated_plain (by simp) rfl h)
    | type value => exact ends_pure (evaluated_plain (by simp) rfl h)
    | role value => exact ends_pure (evaluated_plain (by simp) rfl h)
    | attr a =>
      refine ends_get_bind ?_
      have hopen : ∀ o ∈ O, ¬ ReflTransGen P.refers a o := hd a rfl
      cases ha : bitmaps a with
      | some b =>
        have haO : a ∉ O := fun hmem => hopen a hmem ReflTransGen.refl
        have hvalue : valueOf B bitmaps a = f a := h.value a (by simp [ha]) haO
        refine ends_pure (evaluated_attr (fun _ _ => rfl) h (by simp [ha]) ?_)
        rw [B.bits_union, B.bits_init, Set.empty_union, ← hvalue, valueOf, ha]
      | none =>
        obtain ⟨m, rfl, hstart⟩ := h.start ha B.init
        have hm : otherwise ∨ m < fuel := hfuel.imp_right (by omega)
        refine (evaluate_ends (hf a) (fun e he c hc t ht => ?_) hstart ha).bind ?_
        · refine ih hm c (fun c' hcc' o ho hco => ?_) ht
          have hac : P.refers a c' := ⟨e, he, hcc' ▸ hc⟩
          rcases ho with rfl | ho
          · exact hacyclic o (TransGen.head' hac hco)
          · exact hopen o ho (ReflTransGen.head hac hco)
        · rintro _ bitmaps' ⟨hreached, hext, hnone, hvalue⟩
          refine ends_get_bind (ends_pure (evaluated_attr hext hreached hnone ?_))
          rw [B.bits_union, B.bits_init, Set.empty_union, ← hvalue, valueOf]
          cases hb : bitmaps' a with
          | none => exact absurd hb hnone
          | some b => rfl

/-- One node of the pass. -/
private theorem postDbAttrHelper_ends (hacyclic : Acyclic P.refers) (hf : ∀ a, f a = P.rhs f a)
    (fuel : Nat) (hfuel : otherwise ∨ n < fuel) (d : NodeData α)
    (h : Reached B P f ∅ n bitmaps) :
    Ends otherwise
      (fun _ bitmaps' => Reached B P f ∅ n bitmaps' ∧ Extends bitmaps bitmaps' ∧
        ∀ a, d = .attr a → bitmaps' a ≠ none)
      (postDbAttrHelper B P fuel d bitmaps) := by
  cases d with
  | attr a =>
    refine ends_get_bind ?_
    cases ha : bitmaps a with
    | some b =>
      refine ends_pure ⟨h, fun _ _ => rfl, ?_⟩
      rintro c ⟨⟩
      simp [ha]
    | none =>
      obtain ⟨m, rfl, hstart⟩ := h.start ha B.init
      have hm : otherwise ∨ m < fuel := hfuel.imp_right (by omega)
      refine (evaluate_ends (hf a) (fun e he c hc t ht => ?_) hstart ha).imp ?_
      · refine datumToBitmap_ends hacyclic hf fuel hm c (fun c' hcc' o ho hco => ?_) ht
        have hac : P.refers a c' := ⟨e, he, hcc' ▸ hc⟩
        rcases ho with rfl | ho
        · exact hacyclic o (TransGen.head' hac hco)
        · exact ho
      · rintro _ bitmaps' ⟨hreached, hext, hnone, _⟩
        refine ⟨hreached, hext, ?_⟩
        rintro c ⟨⟩
        exact hnone
  | _ => exact ends_pure ⟨h, fun _ _ => rfl, by simp⟩

private theorem processAll_ends (otherwise : Prop) (hacyclic : Acyclic P.refers)
    (hf : ∀ a, f a = P.rhs f a)
    (fuel : Nat) (hfuel : otherwise ∨ n < fuel) (nodes : List (NodeData α))
    (h : Reached B P f ∅ n bitmaps) :
    Ends otherwise
      (fun _ bitmaps' => Reached B P f ∅ n bitmaps' ∧ Extends bitmaps bitmaps' ∧
        ∀ a ∈ attributes nodes, bitmaps' a ≠ none)
      (processAll (postDbAttrHelper B P fuel) nodes bitmaps) := by
  induction nodes generalizing bitmaps with
  | nil => exact ends_pure ⟨h, fun _ _ => rfl, by simp [attributes]⟩
  | cons d nodes ih =>
    refine (postDbAttrHelper_ends hacyclic hf fuel hfuel d h).bind ?_
    rintro _ bitmaps1 ⟨h1, hext1, hd⟩
    refine (ih h1).imp ?_
    rintro _ bitmaps2 ⟨h2, hext2, hnodes⟩
    refine ⟨h2, fun c hc => ?_, fun a ha => ?_⟩
    · rw [hext2 c (by rwa [hext1 c hc]), hext1 c hc]
    · obtain ⟨e, he, hea⟩ := List.mem_filterMap.mp ha
      rcases List.mem_cons.mp he with rfl | he
      · cases e with
        | attr c =>
          obtain rfl := Option.some.inj hea
          rw [hext2 c (hd c rfl)]
          exact hd c rfl
        | _ => cases hea
      · exact hnodes a (List.mem_filterMap.mpr ⟨e, he, hea⟩)

/-- Without circular references the pass is sound. -/
theorem sound_of_acyclic (hacyclic : Acyclic P.refers) : Sound B P := by
  obtain ⟨f, hf⟩ := hacyclic.exists_solution (rhs_local (P := P))
  have hinit : Reached B P f ∅ (Fintype.card α) (fun _ => none) := by
    refine ⟨Finset.card_le_univ _, ?_, ?_, ?_⟩
    · simp
    · simp
    · simp
  have hsolved : ∀ ast fuel bitmaps,
      postDbAttr B P fuel ast (fun _ => none) = some (.ok () bitmaps) →
        Solved B P (visited ast) bitmaps := by
    intro ast fuel bitmaps hrun
    have hends := processAll_ends True hacyclic hf fuel (Or.inl trivial)
      (ast.walk NodeData.skipHead) hinit
    obtain ⟨hreached, _, has⟩ := hends.of_ok hrun
    exact hreached.solved hf has
  constructor
  · intro ast
    have hends := processAll_ends False hacyclic hf (Fintype.card α + 1)
      (Or.inr (Nat.lt_succ_self _)) (ast.walk NodeData.skipHead) hinit
    obtain ⟨_, bitmaps, hrun, _⟩ := ends_false_iff.mp hends
    exact ⟨_, bitmaps, hrun, hsolved ast _ bitmaps hrun⟩
  · intro ast ast' fuel fuel' bitmaps bitmaps' hrun hrun' a ha ha'
    exact (hsolved ast fuel bitmaps hrun).agrees hacyclic
      (hsolved ast' fuel' bitmaps' hrun') a ha ha'

end Acyclic

end Cil.Post.Attributes
