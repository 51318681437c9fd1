/- Cil/Post/AttributesCyclic
   digest: On every circular reference graph some attributes get too small a bitmap. -/

import Cil.Post.AttributesSound

set_option autoImplicit false
set_option relaxedAutoImplicit false

namespace Cil.Post.Attributes

open Relation
open Cil.Expr Cil.Library Cil.Library.Equations

variable {α β : Type} {B : Bitmap β} {P : Policy α}

/-- The type or role with the given value that an attribute has for itself. -/
def own (P : Policy α) (index : α → Nat) (a : α) : Datum α :=
  match P.kind a with
  | .type => .type (index a)
  | .role => .role (index a)

/-- The attributes that the expressions of an attribute mention. -/
def references (P : Policy α) (a : α) : List (Datum α) :=
  ((P.exprs a).flatMap mentioned).filter fun
    | .attr _ => true
    | _ => false

private theorem mem_references {a c : α} : Datum.attr c ∈ references P a ↔ P.refers a c := by
  simp [references, Policy.refers]

private theorem attr_of_mem_references {a : α} {d : Datum α} (h : d ∈ references P a) :
    ∃ c, d = .attr c := by
  have hd := (List.mem_filter.mp h).2
  cases d with
  | attr c => exact ⟨c, rfl⟩
  | _ => cases hd

private theorem own_ne_attr {index : α → Nat} (a c : α) : own P index a ≠ .attr c := by
  unfold own
  cases P.kind a <;> simp

private theorem wellFormed_map_datum {δ : Type} (ds : List δ) :
    Expr.wellFormed false (ds.map Item.datum) = true := by
  have hoperands : ∀ ds : List δ, operandsFormed false (ds.map Item.datum) = true := by
    intro ds
    induction ds with
    | nil => simp [operandsFormed]
    | cons d ds ih => simp [operandsFormed, operandFormed, ih]
  cases ds with
  | nil => simp [Expr.wellFormed]
  | cons d ds =>
    rw [List.map_cons, Expr.wellFormed]
    · exact hoperands (d :: ds)
    all_goals simp

private theorem mentioned_map_datum {δ : Type} (ds : List δ) :
    mentioned (ds.map Item.datum) = ds := by
  induction ds with
  | nil => simp
  | cons d ds ih => simp [mentioned, mentionedItem, ih]

private theorem denote_map_datum {δ : Type} (max : Nat) (env : δ → Set Nat)
    (range : δ → δ → Set Nat) (ds : List δ) :
    denote max env range (ds.map Item.datum) = ⋃ d ∈ ds, env d := by
  have hlist : ∀ ds : List δ, denoteList max env range (ds.map Item.datum) = ⋃ d ∈ ds, env d := by
    intro ds
    induction ds with
    | nil => simp [denoteList]
    | cons d ds ih => simp [denoteList, denoteItem, ih]
  cases ds with
  | nil => simp [denote]
  | cons d ds =>
    rw [← hlist (d :: ds), List.map_cons, denote, denoteList]
    all_goals simp

/-- Every attribute gets a list without operator: what it has for itself and the attributes
it refers to in `P`. -/
def Policy.plain (P : Policy α) (num : Nat) (index : α → Nat) : Policy α where
  kind := P.kind
  numTypes := num
  numRoles := num
  exprList a := some [(own P index a :: references P a).map Item.datum]
  wellFormed a l hl e he := by
    cases hl
    obtain rfl := List.mem_singleton.mp he
    exact wellFormed_map_datum _
  noSelfReference a l hl e he hmem := by
    cases hl
    obtain rfl := List.mem_singleton.mp he
    rw [mentioned_map_datum] at hmem
    rcases List.mem_cons.mp hmem with h | h
    · exact own_ne_attr a a h.symm
    · exact not_refers_self a (mem_references.mp h)

private theorem exprs_plain {num : Nat} {index : α → Nat} (a : α) :
    (P.plain num index).exprs a = [(own P index a :: references P a).map Item.datum] := rfl

private theorem refers_plain {num : Nat} {index : α → Nat} :
    (P.plain num index).refers = P.refers := by
  funext a c
  rw [eq_iff_iff]
  have hiff : (P.plain num index).refers a c ↔
      Datum.attr c ∈ own P index a :: references P a := by
    simp only [Policy.refers, exprs_plain]
    constructor
    · rintro ⟨e, he, hc⟩
      obtain rfl := List.mem_singleton.mp he
      rwa [mentioned_map_datum] at hc
    · intro hc
      exact ⟨_, List.mem_singleton.mpr rfl, by rwa [mentioned_map_datum]⟩
  rw [hiff, List.mem_cons, mem_references]
  exact or_iff_right (own_ne_attr a c).symm

/-- No bitmap has the bit `v`. -/
def Avoids (B : Bitmap β) (v : Nat) (bitmaps : Bitmaps α β) : Prop :=
  ∀ c b, bitmaps c = some b → v ∉ B.bits b

/-- While `a` is being evaluated no bitmap with `v` is written, and if `q` none is returned. -/
def AvoidEnds (B : Bitmap β) (v : Nat) (a : α) (q : Prop) (c : Call Rc (Bitmaps α β) β) : Prop :=
  ∀ bitmaps, Avoids B v bitmaps → bitmaps a ≠ none →
    Ends True
      (fun b bitmaps' => (q → v ∉ B.bits b) ∧ Avoids B v bitmaps' ∧ bitmaps' a ≠ none)
      (c bitmaps)

section Avoiding

variable {v max : Nat} {a : α} {q : Prop} {toBitmap : Datum α → Call Rc (Bitmaps α β) β}

private theorem AvoidEnds.of_true {c : Call Rc (Bitmaps α β) β} (h : AvoidEnds B v a True c) :
    AvoidEnds B v a q c :=
  fun bitmaps hav ha => (h bitmaps hav ha).imp fun _ _ hb => ⟨fun _ => hb.1 trivial, hb.2⟩

private theorem exprToBitmapLoop_avoids (max : Nat) (ds : List (Datum α))
    (hds : ∀ d ∈ ds, AvoidEnds B v a q (toBitmap d)) (tmp : β) (htmp : q → v ∉ B.bits tmp) :
    AvoidEnds B v a q (exprToBitmapLoop B max toBitmap none tmp (ds.map Item.datum)) := by
  induction ds generalizing tmp with
  | nil =>
    intro bitmaps h ha
    simp only [List.map_nil, exprToBitmapLoop]
    exact ends_pure ⟨htmp, h, ha⟩
  | cons d ds ih =>
    intro bitmaps h ha
    simp only [List.map_cons, exprToBitmapLoop, exprToBitmapHelper]
    refine (hds d List.mem_cons_self bitmaps h ha).bind ?_
    rintro b bitmaps1 ⟨hb, h1, ha1⟩
    refine ih (fun e he => hds e (List.mem_cons_of_mem d he)) _ (fun hq => ?_) bitmaps1 h1 ha1
    rw [B.bits_or]
    exact fun hv => hv.elim (htmp hq) (hb hq)

private theorem exprToBitmap_avoids (ds : List (Datum α))
    (hds : ∀ d ∈ ds, AvoidEnds B v a q (toBitmap d)) :
    AvoidEnds B v a q (exprToBitmap B max toBitmap none B.init (ds.map Item.datum)) := by
  intro bitmaps h ha
  cases ds with
  | nil =>
    simp only [List.map_nil, exprToBitmap]
    exact ends_pure ⟨by simp, h, ha⟩
  | cons d ds =>
    rw [List.map_cons, exprToBitmap]
    · simp only [exprToBitmapHelper]
      refine (hds d List.mem_cons_self bitmaps h ha).bind ?_
      rintro b bitmaps1 ⟨hb, h1, ha1⟩
      have hloop := exprToBitmapLoop_avoids max ds
        (fun e he => hds e (List.mem_cons_of_mem d he)) (B.or B.init b)
        (fun hq => by simpa using hb hq) bitmaps1 h1 ha1
      refine hloop.bind ?_
      rintro c bitmaps2 ⟨hc, h2⟩
      exact ends_pure ⟨fun hq => by simpa using hc hq, h2⟩
    all_goals simp

theorem Avoids.getD {bitmaps : Bitmaps α β} (h : Avoids B v bitmaps) (c : α) :
    v ∉ B.bits ((bitmaps c).getD B.init) := by
  cases hc : bitmaps c with
  | none => simp
  | some b => exact h c b hc

variable [DecidableEq α]

theorem Avoids.update {bitmaps : Bitmaps α β} (h : Avoids B v bitmaps) {c : α} {b : β}
    (hb : v ∉ B.bits b) : Avoids B v (Function.update bitmaps c (some b)) := by
  intro d b' hd
  rw [Function.update_apply] at hd
  split_ifs at hd with hdc
  · cases hd
    exact hb
  · exact h d b' hd

private theorem update_ne_none {bitmaps : Bitmaps α β} (ha : bitmaps a ≠ none) (c : α) (b : β) :
    Function.update bitmaps c (some b) a ≠ none := by
  rw [Function.update_apply]
  split_ifs
  · simp
  · exact ha

variable {num : Nat} {index : α → Nat}

/-- What the evaluation of `c` writes, given that of what its expression mentions. -/
private theorem evaluate_avoids (c : α)
    (hds : ∀ d ∈ own P index c :: references P c, AvoidEnds B v a q (toBitmap d))
    {bitmaps : Bitmaps α β} (h : Avoids B v bitmaps)
    (ha : Function.update bitmaps c (some B.init) a ≠ none) :
    Ends True
      (fun _ bitmaps' => bitmaps' a ≠ none ∧
        ∀ d b, bitmaps' d = some b → (d = c → q) → v ∉ B.bits b)
      (evaluate B (P.plain num index) toBitmap c bitmaps) := by
  rw [evaluate_eq, exprs_plain]
  refine Ends.onFailure (ends_modify_bind ?_)
  have hstart : Avoids B v (Function.update bitmaps c (some B.init)) := h.update (by simp)
  refine (exprToBitmap_avoids _ hds _ hstart ha).bind ?_
  rintro b bitmaps1 ⟨hb, h1, ha1⟩
  refine ends_modify_bind (ends_pure ⟨update_ne_none ha1 c _, fun d b' hd hq => ?_⟩)
  rw [unionInto, Function.update_apply] at hd
  split_ifs at hd with hdc
  · cases hd
    rw [B.bits_union]
    exact fun hv => hv.elim (h1.getD c) (hb (hq hdc))
  · exact h1 d b' hd

private theorem own_avoids (fuel : Nat) (c : α) :
    AvoidEnds B v a False (datumToBitmap B (P.plain num index) fuel (own P index c)) := by
  intro bitmaps h ha
  cases fuel with
  | zero => trivial
  | succ fuel =>
    unfold own
    cases P.kind c <;> exact ends_pure ⟨False.elim, h, ha⟩

/-- Nothing but the evaluation of `a` itself reads the type or role that `a` has for itself. -/
private theorem datumToBitmap_avoids (hindex : ∀ c, c ≠ a → index c ≠ index a) (fuel : Nat)
    (d : Datum α) (hd : (∃ c, c ≠ a ∧ d = own P index c) ∨ ∃ c, d = .attr c) :
    AvoidEnds B (index a) a True (datumToBitmap B (P.plain num index) fuel d) := by
  induction fuel generalizing d with
  | zero => exact fun _ _ _ => trivial
  | succ fuel ih =>
    intro bitmaps h ha
    rcases hd with ⟨c, hca, rfl⟩ | ⟨c, rfl⟩
    · have hv : index a ∉ B.bits (B.setBit B.init (index c)) := by
        simpa using (hindex c hca).symm
      unfold own
      cases P.kind c <;> exact ends_pure ⟨fun _ => hv, h, ha⟩
    · refine ends_get_bind ?_
      cases hc : bitmaps c with
      | some b =>
        refine ends_pure ⟨fun _ => ?_, h, ha⟩
        rw [B.bits_union, B.bits_init, Set.empty_union]
        exact h c b hc
      | none =>
        have hca : c ≠ a := fun he => ha (he ▸ hc)
        refine (evaluate_avoids c (fun d hd => ih d ?_) h (update_ne_none ha c _)).bind ?_
        · rcases List.mem_cons.mp hd with rfl | hd
          · exact Or.inl ⟨c, hca, rfl⟩
          · exact Or.inr (attr_of_mem_references hd)
        · rintro _ bitmaps' ⟨ha', hav⟩
          have h' : Avoids B (index a) bitmaps' := fun d b hd => hav d b hd fun _ => trivial
          refine ends_get_bind (ends_pure ⟨fun _ => ?_, h', ha'⟩)
          rw [B.bits_union, B.bits_init, Set.empty_union]
          exact h'.getD c

/-- After the evaluation of `a` alone, no other attribute has what `a` has for itself. -/
private theorem postDbAttr_avoids (num : Nat) (hindex : ∀ c, c ≠ a → index c ≠ index a)
    (fuel : Nat) :
    Ends True (fun _ bitmaps => ∀ c b, bitmaps c = some b → c ≠ a → index a ∉ B.bits b)
      (postDbAttr B (P.plain num index) fuel (.node .other [.node (.attr a) []])
        fun _ => none) := by
  have hnone : Avoids B (index a) (fun _ : α => none) := fun c b hc => by cases hc
  have hstart : Function.update (fun _ : α => none) a (some B.init) a ≠ none := by simp
  have hds : ∀ d ∈ own P index a :: references P a,
      AvoidEnds B (index a) a False (datumToBitmap B (P.plain num index) fuel d) := by
    intro d hd
    rcases List.mem_cons.mp hd with rfl | hd
    · exact own_avoids fuel a
    · exact (datumToBitmap_avoids hindex fuel d (Or.inr (attr_of_mem_references hd))).of_true
  show Ends True _ (processAll _ [NodeData.attr a] fun _ => none)
  refine Ends.bind (ends_get_bind (evaluate_avoids a hds hnone hstart)) ?_
  rintro _ bitmaps ⟨_, hav⟩
  exact ends_pure fun c b hc hca => hav c b hc fun he => absurd he hca

end Avoiding

private theorem rhs_plain {num : Nat} {index : α → Nat} (f : α → Set Nat) (a : α) :
    (P.plain num index).rhs f a = {index a} ∪ ⋃ d ∈ references P a, meaning f d := by
  have hown : meaning f (own P index a) = {index a} := by
    unfold own
    cases P.kind a <;> rfl
  rw [Policy.rhs, exprs_plain]
  simp only [List.mem_singleton, Set.iUnion_iUnion_eq_left, denote_map_datum]
  simp [hown]

private theorem not_sound_plain [DecidableEq α] {num : Nat} {index : α → Nat}
    (hindex : Function.Injective index) {a : α} (ha : TransGen P.refers a a) :
    ¬ Sound B (P.plain num index) := by
  intro h
  obtain ⟨fuel, bitmaps, hrun, hsolved⟩ := h.solves (.node .other [.node (.attr a) []])
  have havoid := (postDbAttr_avoids (B := B) (P := P) num
    (fun c hca he => hca (hindex he)) fuel).of_ok hrun
  obtain ⟨z, haz, hza⟩ := TransGen.tail'_iff.mp ha
  have hzne : z ≠ a := fun he => not_refers_self a (he ▸ hza)
  have hreached : ∀ c, ReflTransGen P.refers a c → bitmaps c ≠ none := by
    intro c hac
    induction hac with
    | refl => exact hsolved.evaluated a List.mem_cons_self
    | tail _ hcd ih => exact hsolved.closed _ _ ih (by rwa [refers_plain])
  have ha_mem : index a ∈ valueOf B bitmaps a := by
    rw [hsolved.equation a (hreached a ReflTransGen.refl), rhs_plain]
    exact Or.inl rfl
  have hz_mem : index a ∈ valueOf B bitmaps z := by
    rw [hsolved.equation z (hreached z haz), rhs_plain]
    exact Or.inr (Set.mem_biUnion (mem_references.mpr hza) ha_mem)
  obtain ⟨b, hb⟩ := Option.ne_none_iff_exists'.mp (hreached z haz)
  rw [valueOf, hb] at hz_mem
  exact havoid z b hb hzne hz_mem

/-- `(typeattribute a)`, `(typeattribute b)`, `(typeattributeset a (b t))`,
`(typeattributeset b (a u))` with types `t` of value 0 and `u` of value 1. -/
def crossed : Policy (Fin 2) where
  kind _ := .type
  numTypes := 2
  numRoles := 0
  exprList
    | 0 => some [[.datum (.attr (Fin.last 1)), .datum (.type 0)]]
    | 1 => some [[.datum (.attr ⟨0, Nat.two_pos⟩), .datum (.type 1)]]
  wellFormed
    | 0, _, rfl, _, he => List.mem_singleton.mp he ▸ by decide
    | 1, _, rfl, _, he => List.mem_singleton.mp he ▸ by decide
  noSelfReference
    | 0, _, rfl, _, he => List.mem_singleton.mp he ▸ by decide
    | 1, _, rfl, _, he => List.mem_singleton.mp he ▸ by decide

end Cil.Post.Attributes
