/- Cil/Post/CategoriesExact
   digest: Which category expressions the pass evaluates, and that their values are right then. -/

import Cil.Post.SetExpressions

set_option autoImplicit false
set_option relaxedAutoImplicit false

namespace Cil.Post.Categories

open Cil.Expr Cil.Library

variable {β κ ς ι : Type} [DecidableEq κ]

section Meaning

variable (P : Policy κ ς ι)

/-- The set that a leaf stands for can be evaluated: no cycle of categorysets is below it, no
range of categorysets, no categoryset without expression and none that stands for no category. -/
inductive Reads : Leaf (Datum κ ς) → Set Nat → Prop
  | cat {c : κ} : c ∈ P.catorder → Reads (.datum (.cat c)) {P.value c}
  | range {c1 c2 : κ} : c2 ∈ P.catorder →
      Reads (.range (.cat c1) (.cat c2)) (between P (.cat c1) (.cat c2))
  | catset {t : ς} {e : List (Item (Datum κ ς))} {set : Leaf (Datum κ ς) → Set Nat} :
      P.expr (.set t) = some e → (∀ x ∈ leaves e, Reads x (set x)) →
      (denoteLeaves P.numCats e set).Nonempty →
      Reads (.datum (.catset t)) (denoteLeaves P.numCats e set)

/-- The expression can be evaluated, and to this set. -/
def Completes (id : CatsId ς ι) (S : Set Nat) : Prop :=
  ∃ e set, P.expr id = some e ∧ (∀ x ∈ leaves e, Reads P x (set x)) ∧
    S = denoteLeaves P.numCats e set

/-- All leaves before one that can be evaluated, and then one with this property. -/
def FirstLeaf (blocked : Leaf (Datum κ ς) → Prop) (e : List (Item (Datum κ ς))) : Prop :=
  ∃ pre x post, leaves e = pre ++ x :: post ∧ (∀ y ∈ pre, ∃ S, Reads P y S) ∧ blocked x

/-- The evaluation of a leaf comes to a range of categorysets. -/
inductive Blocked : Leaf (Datum κ ς) → Prop
  | range {d1 d2 : Datum κ ς} {t : ς} : d1 = .catset t ∨ d2 = .catset t → Blocked (.range d1 d2)
  | catset {t : ς} {e : List (Item (Datum κ ς))} {pre post : List (Leaf (Datum κ ς))}
      {x : Leaf (Datum κ ς)} : P.expr (.set t) = some e → leaves e = pre ++ x :: post →
      (∀ y ∈ pre, ∃ S, Reads P y S) → Blocked x → Blocked (.datum (.catset t))

/-- The evaluation of an expression comes to a range of categorysets. -/
def Stops (id : CatsId ς ι) : Prop := ∃ e, P.expr id = some e ∧ FirstLeaf P (Blocked P) e

end Meaning

section Values

variable {P : Policy κ ς ι}

/-- A leaf that can be evaluated stands for one set. -/
theorem Reads.unique {x : Leaf (Datum κ ς)} {S S' : Set Nat} (h : Reads P x S)
    (h' : Reads P x S') : S = S' := by
  induction h generalizing S' with
  | cat hc =>
    cases h'
    rfl
  | range hc =>
    cases h'
    rfl
  | catset hexpr hreads hfull ih =>
    cases h' with
    | catset hexpr' hreads' hfull' =>
      rw [hexpr] at hexpr'
      cases hexpr'
      exact denoteLeaves_congr _ (P.formed _ _ hexpr) fun x hx => ih x hx (hreads' x hx)

/-- The set that a leaf stands for. -/
def leafValue (P : Policy κ ς ι) (x : Leaf (Datum κ ς)) : Set Nat := {i | ∃ S, Reads P x S ∧ i ∈ S}

theorem Reads.leafValue {x : Leaf (Datum κ ς)} {S : Set Nat} (h : Reads P x S) :
    leafValue P x = S := by
  ext i
  constructor
  · intro hi
    obtain ⟨S', hS', hi⟩ := hi
    rw [h.unique hS']
    exact hi
  · intro hi
    exact ⟨S, h, hi⟩

theorem Completes.unique {id : CatsId ς ι} {S S' : Set Nat} (h : Completes P id S)
    (h' : Completes P id S') : S = S' := by
  obtain ⟨e, set, hexpr, hreads, rfl⟩ := h
  obtain ⟨e', set', hexpr', hreads', rfl⟩ := h'
  rw [hexpr] at hexpr'
  cases hexpr'
  exact denoteLeaves_congr _ (P.formed _ _ hexpr) fun x hx => (hreads x hx).unique (hreads' x hx)

theorem Reads.subset {x : Leaf (Datum κ ς)} {S : Set Nat} (h : Reads P x S) :
    S ⊆ {i | i < P.numCats} := by
  induction h with
  | cat hc => exact Set.singleton_subset_iff.mpr (value_lt hc)
  | range hc =>
    intro i hi
    obtain ⟨c, hc, rfl, -, -⟩ := hi
    exact value_lt hc
  | catset hexpr _ _ ih => exact denoteLeaves_subset _ (P.formed _ _ hexpr) ih

theorem Completes.subset {id : CatsId ς ι} {S : Set Nat} (h : Completes P id S) :
    S ⊆ {i | i < P.numCats} := by
  obtain ⟨e, set, hexpr, hreads, rfl⟩ := h
  exact denoteLeaves_subset _ (P.formed _ _ hexpr) fun x hx => (hreads x hx).subset

theorem reads_cat {c : κ} {S : Set Nat} (h : Reads P (.datum (.cat c)) S) : S = {P.value c} := by
  cases h with
  | cat hc => rfl

theorem reads_range {d1 d2 : Datum κ ς} {S : Set Nat} (h : Reads P (.range d1 d2) S) :
    S = between P d1 d2 := by
  cases h with
  | range hc => rfl

theorem reads_catset {t : ς} {S : Set Nat} :
    Reads P (.datum (.catset t)) S ↔ Completes P (.set t) S ∧ S.Nonempty := by
  constructor
  · intro h
    cases h with
    | catset hexpr hreads hfull => exact ⟨⟨_, _, hexpr, hreads, rfl⟩, hfull⟩
  · intro h
    obtain ⟨⟨e, set, hexpr, hreads, rfl⟩, hfull⟩ := h
    exact .catset hexpr hreads hfull

end Values

section Lists

variable {P : Policy κ ς ι} {B : Bitmap β} {σ : Type}

/-- A list of categories. -/
def catsList (cs : List κ) : List (Item (Datum κ ς)) := cs.map fun c => .datum (.cat c)

/-- The values of the categories in a list. -/
def valuesOf (P : Policy κ ς ι) (cs : List κ) : Set Nat := {i | ∃ c ∈ cs, i = P.value c}

omit [DecidableEq κ] in
private theorem catsList_of_operands {ranges : Bool} {l : List (Item (Datum κ ς))}
    (hl : operandsFormed ranges l = true) (h : verifyIsList l = true) :
    ∃ cs, l = catsList cs := by
  induction l with
  | nil => exact ⟨[], rfl⟩
  | cons i rest ih =>
    rw [operandsFormed, Bool.and_eq_true] at hl
    cases i with
    | op o => simp [verifyIsList] at h
    | list l => simp [verifyIsList] at h
    | other => simp [operandFormed] at hl
    | datum d =>
      cases d with
      | catset t => simp [verifyIsList] at h
      | cat c =>
        rw [verifyIsList] at h
        · obtain ⟨cs, rfl⟩ := ih hl.2 h
          exact ⟨c :: cs, rfl⟩
        all_goals simp

omit [DecidableEq κ] in
theorem catsList_of_verifyIsList {ranges : Bool} {l : List (Item (Datum κ ς))}
    (hl : wellFormed ranges l = true) (h : verifyIsList l = true) : ∃ cs, l = catsList cs := by
  cases l with
  | nil => exact ⟨[], rfl⟩
  | cons i rest =>
    have hi : ∀ o, i ≠ .op o := by
      intro o heq
      rw [heq, verifyIsList] at h
      cases h
    rw [wellFormed] at hl
    · exact catsList_of_operands (by rw [operandsFormed]; exact hl) h
    all_goals simp [hi]

omit [DecidableEq κ] in
theorem leaves_catsList (cs : List κ) :
    leaves (catsList cs : List (Item (Datum κ ς))) = cs.map fun c => .datum (.cat c) := by
  induction cs with
  | nil => simp [catsList]
  | cons c cs ih =>
    have hcons : (catsList (c :: cs) : List (Item (Datum κ ς))) =
        .datum (.cat c) :: catsList cs := rfl
    rw [hcons, leaves_cons (by simp), ih]
    simp

private theorem denoteList_catsList (cs : List κ) {max : Nat} {env : Datum κ ς → Set Nat}
    {range : Datum κ ς → Datum κ ς → Set Nat} (henv : ∀ c ∈ cs, env (.cat c) = {P.value c}) :
    denoteList max env range (catsList cs) = valuesOf P cs := by
  induction cs with
  | nil => simp [catsList, denoteList, valuesOf]
  | cons c cs ih =>
    have hcons : (catsList (c :: cs) : List (Item (Datum κ ς))) =
        .datum (.cat c) :: catsList cs := rfl
    rw [hcons, denoteList, ih fun d hd => henv d (List.mem_cons_of_mem c hd), denoteItem,
      henv c List.mem_cons_self]
    ext i
    simp [valuesOf]

private theorem denoteLeaves_catsList (cs : List κ) {max : Nat} {set : Leaf (Datum κ ς) → Set Nat}
    (hset : ∀ c ∈ cs, set (.datum (.cat c)) = {P.value c}) :
    denoteLeaves max (catsList cs) set = valuesOf P cs := by
  have hlist : denoteList max (fun d => set (.datum d)) (fun d1 d2 => set (.range d1 d2))
      (catsList cs) = valuesOf P cs := denoteList_catsList cs hset
  cases cs with
  | nil => simp [denoteLeaves, catsList, denote, valuesOf]
  | cons c cs =>
    have hcons : (catsList (c :: cs) : List (Item (Datum κ ς))) =
        .datum (.cat c) :: catsList cs := rfl
    rw [hcons, denoteList] at hlist
    rw [hcons, denoteLeaves, denote]
    · exact hlist
    all_goals simp

/-- The loop adds the values of the categories in a list. -/
private theorem catLoop_catsList (bitmap : β) (cs : List κ) :
    ∃ b, (catLoop B P bitmap (catsList cs) : Call Rc σ β) = pure b ∧
      B.bits b = B.bits bitmap ∪ valuesOf P cs := by
  induction cs generalizing bitmap with
  | nil =>
    refine ⟨bitmap, rfl, ?_⟩
    simp [valuesOf]
  | cons c cs ih =>
    obtain ⟨b, hb, hbits⟩ := ih (B.setBit bitmap (P.value c))
    refine ⟨b, hb, ?_⟩
    rw [hbits, B.bits_setBit]
    ext i
    simp [valuesOf, or_comm, or_assoc]

/-- The new list holds the categories of a bitmap, and is null if there is none. -/
private theorem newList_cases (b : β) (hbelow : B.bits b ⊆ {i | i < P.numCats}) :
    (B.bits b = ∅ ∧ newList B P b = none) ∨
      ((B.bits b).Nonempty ∧ ∃ cs, newList B P b = some (catsList cs) ∧
        valuesOf P cs = B.bits b) := by
  have hvalues : valuesOf P (P.catorder.filter fun c => B.getBit b (P.value c)) = B.bits b := by
    ext i
    simp only [valuesOf, Set.mem_ofPred_eq, List.mem_filter]
    constructor
    · intro h
      obtain ⟨c, ⟨-, hc⟩, rfl⟩ := h
      exact hc
    · intro hi
      obtain ⟨c, hc, rfl⟩ := exists_value (P := P) (hbelow hi)
      exact ⟨c, ⟨hc, hi⟩, rfl⟩
  unfold newList
  split
  · rename_i hnil
    rw [hnil] at hvalues
    left
    rw [← hvalues]
    exact ⟨by simp [valuesOf], rfl⟩
  · rename_i cs hne
    right
    refine ⟨?_, _, rfl, hvalues⟩
    rw [← hvalues]
    obtain ⟨c, hc⟩ := List.exists_mem_of_ne_nil _ hne
    exact ⟨P.value c, c, hc, rfl⟩

end Lists

section Run

variable {P : Policy κ ς ι} {B : Bitmap β}

/-- The field holds a list of categories, or is null, from now on. -/
def Done (P : Policy κ ς ι) (s : State κ ς ι) (id : CatsId ς ι) : Prop :=
  (s id).evaluated = true ∨ ∃ e, P.expr id = some e ∧ verifyIsList e = true

/-- The categoryset that a leaf names is done. -/
def Seen (P : Policy κ ς ι) (s : State κ ς ι) (x : Leaf (Datum κ ς)) : Prop :=
  ∀ t, x = .datum (.catset t) → Done P s (.set t)

/-- An evaluated field holds the list for what its expression evaluates to. -/
def Evaluated (B : Bitmap β) (P : Policy κ ς ι) (s : State κ ς ι) (id : CatsId ς ι) : Prop :=
  ∃ e set b, P.expr id = some e ∧ (∀ x ∈ leaves e, Reads P x (set x) ∧ Seen P s x) ∧
    B.bits b = denoteLeaves P.numCats e set ∧ (s id).datumExpr = newList B P b

/-- What holds whenever the pass evaluates an expression. -/
structure Reached (B : Bitmap β) (P : Policy κ ς ι) (s : State κ ς ι) : Prop where
  pending : ∀ id, (s id).evaluated = false → (s id).datumExpr = P.expr id
  done : ∀ id, (s id).evaluated = true → Evaluated B P s id

/-- Evaluated fields stay as they are. -/
def Extends (s s' : State κ ς ι) : Prop := ∀ id, (s id).evaluated = true → s' id = s id

omit [DecidableEq κ] in
theorem Extends.refl (s : State κ ς ι) : Extends s s := fun _ _ => rfl

omit [DecidableEq κ] in
theorem Extends.trans {s s' s'' : State κ ς ι} (h : Extends s s') (h' : Extends s' s'') :
    Extends s s'' := by
  intro id hid
  have hid' : (s' id).evaluated = true := by rw [h id hid]; exact hid
  rw [h' id hid', h id hid]

omit [DecidableEq κ] in
theorem Done.extends {s s' : State κ ς ι} {id : CatsId ς ι} (h : Done P s id)
    (hext : Extends s s') : Done P s' id := by
  rcases h with h | h
  · left
    rw [hext id h]
    exact h
  · exact Or.inr h

/-- The set of the categories that a field holds. -/
def contents (P : Policy κ ς ι) (s : State κ ς ι) (id : CatsId ς ι) : Set Nat :=
  match (s id).datumExpr with
  | none => ∅
  | some items => {i | ∃ c, .datum (.cat c) ∈ items ∧ i = P.value c}

/-- The field is null or holds a list of categories. -/
def Listed (s : State κ ς ι) (id : CatsId ς ι) : Prop :=
  ∀ items, (s id).datumExpr = some items → ∃ cs, items = catsList cs

private theorem contents_of_catsList {s : State κ ς ι} {id : CatsId ς ι} {cs : List κ}
    (h : (s id).datumExpr = some (catsList cs)) : contents P s id = valuesOf P cs := by
  rw [contents, h]
  ext i
  simp [catsList, valuesOf]

private theorem completes_of_verifyIsList {id : CatsId ς ι} {cs : List κ}
    (h : P.expr id = some (catsList cs)) : Completes P id (valuesOf P cs) := by
  have hreads : ∀ c ∈ cs, Reads P (.datum (.cat c)) {P.value c} := by
    intro c hc
    have hmem : Leaf.datum (Datum.cat c) ∈ leaves (catsList (ς := ς) cs) := by
      rw [leaves_catsList]
      exact List.mem_map_of_mem hc
    exact .cat (P.ordered id _ h c (leaves_mentioned _ _ hmem _ List.mem_cons_self))
  refine ⟨_, leafValue P, h, fun x hx => ?_,
    (denoteLeaves_catsList cs fun c hc => (hreads c hc).leafValue).symm⟩
  rw [leaves_catsList] at hx
  obtain ⟨c, hc, rfl⟩ := List.mem_map.mp hx
  rw [(hreads c hc).leafValue]
  exact hreads c hc

/-- What is done holds what its expression evaluates to. -/
theorem Reached.completes {s : State κ ς ι} (hs : Reached B P s) {id : CatsId ς ι}
    (h : Done P s id) :
    ∃ S, Completes P id S ∧ contents P s id = S ∧ Listed s id ∧
      ((s id).datumExpr = none ↔ S = ∅) := by
  cases hev : (s id).evaluated with
  | true =>
    obtain ⟨e, set, b, hexpr, hreads, hbits, hlist⟩ := hs.done id hev
    have hcompletes : Completes P id (B.bits b) :=
      ⟨e, set, hexpr, fun x hx => (hreads x hx).1, hbits⟩
    refine ⟨B.bits b, hcompletes, ?_⟩
    rcases newList_cases b hcompletes.subset with ⟨hempty, hnull⟩ | ⟨hfull, cs, hcs, hvalues⟩
    · rw [hnull] at hlist
      refine ⟨?_, ?_, by simp [hlist, hempty]⟩
      · rw [contents, hlist, hempty]
      · intro items hitems
        rw [hlist] at hitems
        cases hitems
    · rw [hcs] at hlist
      refine ⟨(contents_of_catsList hlist).trans hvalues, ?_, ?_⟩
      · intro items hitems
        rw [hlist] at hitems
        exact ⟨cs, (Option.some.inj hitems).symm⟩
      · simp [hlist, hfull.ne_empty]
  | false =>
    obtain ⟨e, hexpr, hlist⟩ := h.resolve_left (by simp [hev])
    obtain ⟨cs, rfl⟩ := catsList_of_verifyIsList (P.formed _ _ hexpr) hlist
    have hdatum := hs.pending id hev
    rw [hexpr] at hdatum
    refine ⟨valuesOf P cs, completes_of_verifyIsList hexpr, contents_of_catsList hdatum, ?_, ?_⟩
    · intro items hitems
      rw [hdatum] at hitems
      exact ⟨cs, (Option.some.inj hitems).symm⟩
    · have hne : cs ≠ [] := by
        intro hnil
        exact P.filled _ _ hexpr (by rw [hnil]; rfl)
      obtain ⟨c, hc⟩ := List.exists_mem_of_ne_nil cs hne
      have hmem : P.value c ∈ valuesOf P cs := ⟨c, hc, rfl⟩
      simp [hdatum, Set.nonempty_iff_ne_empty.mp ⟨_, hmem⟩]

end Run

section Sound

variable [DecidableEq ς] [DecidableEq ι] {P : Policy κ ς ι} {B : Bitmap β} {fuel : Nat}

/-- The leaf is of categories in the order and of categorysets. -/
def Ordered (P : Policy κ ς ι) (x : Leaf (Datum κ ς)) : Prop :=
  ∀ c, .cat c ∈ x.datums → c ∈ P.catorder

omit [DecidableEq κ] [DecidableEq ς] [DecidableEq ι] in
private theorem ordered_of_expr {id : CatsId ς ι} {e : List (Item (Datum κ ς))}
    (h : P.expr id = some e) : ∀ x ∈ leaves e, Ordered P x := by
  intro x hx c hc
  exact P.ordered id e h c (leaves_mentioned e x hx _ hc)

/-- How `__cil_expr_to_bitmap` reads a leaf of a category expression. -/
def readLeaf (B : Bitmap β) (P : Policy κ ς ι) (fuel : Nat) :
    Leaf (Datum κ ς) → Call Rc (State κ ς ι) β :=
  leafToBitmap (catToBitmap B P fuel) (some (exprRangeToBitmapHelper B P))

/-- A leaf that is read has the value that it stands for, and one whose reading fails is blocked
by a range. -/
structure LeafSound (B : Bitmap β) (P : Policy κ ς ι) (fuel : Nat) : Prop where
  ok : ∀ x s b s', Reached B P s → Ordered P x → readLeaf B P fuel x s = some (.ok b s') →
    Reads P x (B.bits b) ∧ Reached B P s' ∧ Extends s s' ∧ Seen P s' x
  failed : ∀ x s e s', Reached B P s → Ordered P x → readLeaf B P fuel x s = some (.failed e s') →
    Blocked P x

private theorem collect_ok (h : LeafSound B P fuel) {xs : List (Leaf (Datum κ ς))}
    (hxs : ∀ x ∈ xs, Ordered P x) {s s' : State κ ς ι} (hs : Reached B P s) {bs : List β}
    (hrun : collect (readLeaf B P fuel) xs s = some (.ok bs s')) :
    bs.map B.bits = xs.map (leafValue P) ∧
      (∀ x ∈ xs, Reads P x (leafValue P x) ∧ Seen P s' x) ∧ Reached B P s' ∧ Extends s s' := by
  induction xs generalizing s bs with
  | nil =>
    cases hrun
    exact ⟨rfl, by simp, hs, .refl _⟩
  | cons x xs ih =>
    rw [collect] at hrun
    obtain ⟨b, s1, hx, hrun⟩ := Call.bind_ok hrun
    obtain ⟨bs', s2, hrest, hrun⟩ := Call.bind_ok hrun
    cases hrun
    obtain ⟨hreads, hs1, hext, hseen⟩ := h.ok x s b s1 hs (hxs x List.mem_cons_self) hx
    obtain ⟨hmap, hall, hs2, hext'⟩ :=
      ih (fun y hy => hxs y (List.mem_cons_of_mem x hy)) hs1 hrest
    refine ⟨?_, ?_, hs2, hext.trans hext'⟩
    · rw [List.map_cons, List.map_cons, hmap, hreads.leafValue]
    · intro y hy
      rcases List.mem_cons.mp hy with rfl | hy
      · rw [hreads.leafValue]
        exact ⟨hreads, fun t ht => (hseen t ht).extends hext'⟩
      · exact hall y hy

private theorem collect_failed (h : LeafSound B P fuel) {xs : List (Leaf (Datum κ ς))}
    (hxs : ∀ x ∈ xs, Ordered P x) {s s' : State κ ς ι} (hs : Reached B P s) {e : Rc}
    (hrun : collect (readLeaf B P fuel) xs s = some (.failed e s')) :
    ∃ pre x post, xs = pre ++ x :: post ∧ (∀ y ∈ pre, ∃ S, Reads P y S) ∧ Blocked P x := by
  induction xs generalizing s with
  | nil => cases hrun
  | cons x xs ih =>
    rw [collect] at hrun
    rcases Call.bind_failed hrun with hx | ⟨b, s1, hx, hrun⟩
    · exact ⟨[], x, xs, rfl, by simp, h.failed x s e s' hs (hxs x List.mem_cons_self) hx⟩
    · obtain ⟨hreads, hs1, -, -⟩ := h.ok x s b s1 hs (hxs x List.mem_cons_self) hx
      rcases Call.bind_failed hrun with hrest | ⟨bs, s2, -, hrun⟩
      · obtain ⟨pre, y, post, rfl, hpre, hy⟩ :=
          ih (fun y hy => hxs y (List.mem_cons_of_mem x hy)) hs1 hrest
        refine ⟨x :: pre, y, post, rfl, ?_, hy⟩
        intro z hz
        rcases List.mem_cons.mp hz with rfl | hz
        · exact ⟨_, hreads⟩
        · exact hpre z hz
      · cases hrun

/-- The field is set to the list for what its expression evaluates to. -/
theorem Reached.update {s s1 : State κ ς ι} {id : CatsId ς ι} (hid : (s id).evaluated = false)
    (hs1 : Reached B P s1) (hext : Extends s s1) {b : β} {e : List (Item (Datum κ ς))}
    (hexpr : P.expr id = some e)
    (hreads : ∀ x ∈ leaves e, Reads P x (leafValue P x) ∧ Seen P s1 x)
    (hbits : B.bits b = denoteLeaves P.numCats e (leafValue P)) :
    Reached B P (Function.update s1 id ⟨true, newList B P b⟩) ∧
      Extends s (Function.update s1 id ⟨true, newList B P b⟩) := by
  have hdone : ∀ id', Done P s1 id' → Done P (Function.update s1 id ⟨true, newList B P b⟩) id' := by
    intro id' h
    by_cases hne : id' = id
    · left
      rw [hne, Function.update_self]
    · rw [Done, Function.update_of_ne hne]
      exact h
  refine ⟨⟨?_, ?_⟩, ?_⟩
  · intro id' hid'
    by_cases hne : id' = id
    · rw [hne, Function.update_self] at hid'
      cases hid'
    · rw [Function.update_of_ne hne] at hid' ⊢
      exact hs1.pending id' hid'
  · intro id' hid'
    by_cases hne : id' = id
    · subst hne
      refine ⟨e, leafValue P, b, hexpr, ?_, hbits, by rw [Function.update_self]⟩
      intro x hx
      exact ⟨(hreads x hx).1, fun t ht => hdone _ ((hreads x hx).2 t ht)⟩
    · rw [Function.update_of_ne hne] at hid'
      obtain ⟨e', set, b', hexpr', hreads', hbits', hlist'⟩ := hs1.done id' hid'
      refine ⟨e', set, b', hexpr', ?_, hbits', by rw [Function.update_of_ne hne]; exact hlist'⟩
      intro x hx
      exact ⟨(hreads' x hx).1, fun t ht => hdone _ ((hreads' x hx).2 t ht)⟩
  · intro id' hid'
    have hne : id' ≠ id := by
      intro heq
      rw [heq, hid] at hid'
      cases hid'
    rw [Function.update_of_ne hne]
    exact hext id' hid'

/-- What `__evaluate_cat_expression` does with a field that is not evaluated yet. -/
private theorem evaluateCats_eq {s : State κ ς ι} {id : CatsId ς ι} {e : List (Item (Datum κ ς))}
    (hs : Reached B P s) (hid : (s id).evaluated = false) (hexpr : P.expr id = some e) :
    evaluateCats B P fuel id s =
      if verifyIsList e then some (.ok () s)
      else (exprToBitmap B P.numCats (catToBitmap B P fuel) (some (exprRangeToBitmapHelper B P))
        B.init e >>= fun bitmap =>
          Call.modify fun cats => Function.update cats id ⟨true, newList B P bitmap⟩) s := by
  have hdatum := hs.pending id hid
  rw [hexpr] at hdatum
  show (Call.get >>= _ : Call Rc (State κ ς ι) Unit) s = _
  rw [Call.bind_of_ok (rfl : Call.get s = some (.ok s s))]
  simp only [hid, hdatum, Bool.false_eq_true, if_false]
  split <;> rfl

private theorem evaluateCats_evaluated {s : State κ ς ι} {id : CatsId ς ι}
    (hid : (s id).evaluated = true) : evaluateCats B P fuel id s = some (.ok () s) := by
  show (Call.get >>= _ : Call Rc (State κ ς ι) Unit) s = _
  rw [Call.bind_of_ok (rfl : Call.get s = some (.ok s s))]
  simp only [hid, if_true]
  rfl

private theorem evaluateCats_null {s : State κ ς ι} {id : CatsId ς ι} (hs : Reached B P s)
    (hid : (s id).evaluated = false) (hexpr : P.expr id = none) :
    evaluateCats B P fuel id s = some .crash := by
  have hdatum := hs.pending id hid
  rw [hexpr] at hdatum
  show (Call.get >>= _ : Call Rc (State κ ς ι) Unit) s = _
  rw [Call.bind_of_ok (rfl : Call.get s = some (.ok s s))]
  simp only [hid, hdatum, Bool.false_eq_true, if_false]
  rfl

variable (fuel) in
/-- The evaluation of an expression that is not a list of categories reads its leaves and sets the
field. -/
private theorem evaluateCats_collect {s : State κ ς ι} {id : CatsId ς ι}
    {e : List (Item (Datum κ ς))}
    (hs : Reached B P s) (hid : (s id).evaluated = false) (hexpr : P.expr id = some e)
    (hlist : verifyIsList e = false) :
    ∃ compute : List β → β,
      evaluateCats B P fuel id s =
        (collect (readLeaf B P fuel) (leaves e) >>= fun bs =>
          Call.modify fun cats => Function.update cats id ⟨true, newList B P (compute bs)⟩) s ∧
      ∀ set bs, bs.map B.bits = (leaves e).map set →
        B.bits (compute bs) = denoteLeaves P.numCats e set := by
  have hcomputed : ExprComputed B P.numCats (catToBitmap B P fuel)
      (some (exprRangeToBitmapHelper B P)) e :=
    exprComputed (fun _ => ⟨_, rfl⟩) e (P.formed id e hexpr)
  obtain ⟨compute, heq, hvalue⟩ := hcomputed B.init
  refine ⟨compute, ?_, ?_⟩
  · rw [evaluateCats_eq hs hid hexpr, heq, hlist, if_neg (by simp), Call.bind_assoc]
    rfl
  · intro set bs hbs
    rw [hvalue set bs hbs]
    simp only [B.bits_init, Set.empty_union]

theorem evaluateCats_ok (h : LeafSound B P fuel) {s s' : State κ ς ι} {id : CatsId ς ι}
    (hs : Reached B P s) (hrun : evaluateCats B P fuel id s = some (.ok () s')) :
    Reached B P s' ∧ Extends s s' ∧ Done P s' id := by
  cases hid : (s id).evaluated with
  | true =>
    rw [evaluateCats_evaluated hid] at hrun
    cases hrun
    exact ⟨hs, .refl _, Or.inl hid⟩
  | false =>
    cases hexpr : P.expr id with
    | none =>
      rw [evaluateCats_null hs hid hexpr] at hrun
      cases hrun
    | some e =>
      cases hlist : verifyIsList e with
      | true =>
        rw [evaluateCats_eq hs hid hexpr, if_pos hlist] at hrun
        cases hrun
        exact ⟨hs, .refl _, Or.inr ⟨e, hexpr, hlist⟩⟩
      | false =>
        obtain ⟨compute, heq, hvalue⟩ := evaluateCats_collect fuel hs hid hexpr hlist
        rw [heq] at hrun
        obtain ⟨bs, s1, hcollect, hset⟩ := Call.bind_ok hrun
        cases hset
        obtain ⟨hmap, hall, hs1, hext⟩ := collect_ok h (ordered_of_expr hexpr) hs hcollect
        obtain ⟨hreached, hextends⟩ :=
          Reached.update hid hs1 hext hexpr hall (hvalue (leafValue P) bs hmap)
        exact ⟨hreached, hextends, Or.inl (by simp only [Function.update_self])⟩

theorem evaluateCats_failed (h : LeafSound B P fuel) {s s' : State κ ς ι} {id : CatsId ς ι}
    {rc : Rc} (hs : Reached B P s) (hrun : evaluateCats B P fuel id s = some (.failed rc s')) :
    Stops P id := by
  cases hid : (s id).evaluated with
  | true =>
    rw [evaluateCats_evaluated hid] at hrun
    cases hrun
  | false =>
    cases hexpr : P.expr id with
    | none =>
      rw [evaluateCats_null hs hid hexpr] at hrun
      cases hrun
    | some e =>
      cases hlist : verifyIsList e with
      | true =>
        rw [evaluateCats_eq hs hid hexpr, if_pos hlist] at hrun
        cases hrun
      | false =>
        obtain ⟨compute, heq, -⟩ := evaluateCats_collect fuel hs hid hexpr hlist
        rw [heq] at hrun
        rcases Call.bind_failed hrun with hcollect | ⟨bs, s1, -, hset⟩
        · exact ⟨e, hexpr, collect_failed h (ordered_of_expr hexpr) hs hcollect⟩
        · cases hset

/-- What `__cil_cat_to_bitmap` reads once the categoryset has been evaluated. -/
def readSet (B : Bitmap β) (P : Policy κ ς ι) (t : ς) : Call Rc (State κ ς ι) β := do
  let cats ← Call.get
  match (cats (.set t)).datumExpr with
  | none => Call.crash
  | some items => catLoop B P B.init items

private theorem readLeaf_catset (t : ς) :
    readLeaf B P (fuel + 1) (.datum (.catset t)) =
      evaluateCats B P fuel (.set t) >>= fun _ => readSet B P t := by
  funext s
  show (Call.get >>= _ : Call Rc (State κ ς ι) β) s = _
  rw [Call.bind_of_ok (rfl : Call.get s = some (.ok s s))]
  cases hid : (s (.set t)).evaluated with
  | true =>
    rw [Call.bind_of_ok (evaluateCats_evaluated hid)]
    simp only [if_true]
    rfl
  | false =>
    simp only [Bool.false_eq_true, if_false]
    rfl

omit [DecidableEq ς] [DecidableEq ι] in
private theorem readSet_done {s : State κ ς ι} {t : ς} (hs : Reached B P s)
    (h : Done P s (.set t)) :
    (Completes P (.set t) ∅ ∧ readSet B P t s = some .crash) ∨
      ∃ b, readSet B P t s = some (.ok b s) ∧ Reads P (.datum (.catset t)) (B.bits b) := by
  obtain ⟨S, hcompletes, hcontents, hlisted, hnull⟩ := hs.completes h
  have heq : readSet B P t s = (match (s (.set t)).datumExpr with
      | none => Call.crash
      | some items => catLoop B P B.init items : Call Rc (State κ ς ι) β) s := rfl
  cases hdatum : (s (.set t)).datumExpr with
  | none =>
    left
    rw [hnull.mp hdatum] at hcompletes
    refine ⟨hcompletes, ?_⟩
    rw [heq, hdatum]
    rfl
  | some items =>
    right
    obtain ⟨cs, rfl⟩ := hlisted items hdatum
    obtain ⟨b, hb, hbits⟩ := catLoop_catsList (B := B) (P := P) (σ := State κ ς ι) B.init cs
    refine ⟨b, ?_, ?_⟩
    · rw [heq, hdatum]
      exact congrFun hb s
    · rw [hbits, B.bits_init, Set.empty_union, ← contents_of_catsList hdatum, hcontents]
      refine reads_catset.mpr ⟨hcompletes, Set.nonempty_iff_ne_empty.mpr ?_⟩
      intro hempty
      have hnone := hnull.mpr hempty
      rw [hdatum] at hnone
      cases hnone

/-- With one more level of categorysets, leaves are still read soundly. -/
theorem LeafSound.succ (h : LeafSound B P fuel) : LeafSound B P (fuel + 1) := by
  constructor
  · intro x s b s' hs hx hrun
    cases x with
    | range d1 d2 => exact h.ok (.range d1 d2) s b s' hs hx hrun
    | datum d =>
      cases d with
      | cat c =>
        cases hrun
        rw [B.bits_setBit, B.bits_init, Set.empty_union]
        refine ⟨.cat (hx c List.mem_cons_self), hs, .refl _, ?_⟩
        intro t ht
        cases ht
      | catset t =>
        rw [readLeaf_catset] at hrun
        obtain ⟨_, s1, hevaluate, hrun⟩ := Call.bind_ok hrun
        obtain ⟨hs1, hext, hdone⟩ := evaluateCats_ok h hs hevaluate
        rcases readSet_done hs1 hdone with ⟨-, hcrash⟩ | ⟨b', hread, hreads⟩
        · rw [hcrash] at hrun
          cases hrun
        · rw [hread] at hrun
          cases hrun
          refine ⟨hreads, hs1, hext, ?_⟩
          intro t' ht
          cases ht
          exact hdone
  · intro x s e s' hs hx hrun
    cases x with
    | range d1 d2 => exact h.failed (.range d1 d2) s e s' hs hx hrun
    | datum d =>
      cases d with
      | cat c => cases hrun
      | catset t =>
        rw [readLeaf_catset] at hrun
        rcases Call.bind_failed hrun with hevaluate | ⟨_, s1, hevaluate, hrun⟩
        · obtain ⟨e, hexpr, pre, y, post, hleaves, hpre, hy⟩ := evaluateCats_failed h hs hevaluate
          exact .catset hexpr hleaves hpre hy
        · obtain ⟨hs1, -, hdone⟩ := evaluateCats_ok h hs hevaluate
          rcases readSet_done hs1 hdone with ⟨-, hcrash⟩ | ⟨b', hread, -⟩
          · rw [hcrash] at hrun
            cases hrun
          · rw [hread] at hrun
            cases hrun

theorem leafSound (fuel : Nat) : LeafSound B P fuel := by
  induction fuel with
  | zero =>
    constructor
    · intro x s b s' hs hx hrun
      cases x with
      | datum d => cases hrun
      | range d1 d2 =>
        cases d1 with
        | catset t => cases hrun
        | cat c1 =>
          cases d2 with
          | catset t => cases hrun
          | cat c2 =>
            have hc2 : c2 ∈ P.catorder := hx c2 (List.mem_cons_of_mem _ List.mem_cons_self)
            cases hrun
            rw [bits_exprRange hc2]
            refine ⟨.range hc2, hs, .refl _, ?_⟩
            intro t ht
            cases ht
    · intro x s e s' hs hx hrun
      cases x with
      | datum d => cases hrun
      | range d1 d2 =>
        cases d1 with
        | catset t => exact .range (t := t) (Or.inl rfl)
        | cat c1 =>
          cases d2 with
          | catset t => exact .range (t := t) (Or.inr rfl)
          | cat c2 => cases hrun
  | succ fuel ih => exact ih.succ

end Sound

section Progress

variable [DecidableEq ς] [DecidableEq ι] {P : Policy κ ς ι} {B : Bitmap β} {α : Type}

/-- With enough fuel the call returns, whatever was evaluated before. -/
def Succeeds (B : Bitmap β) (P : Policy κ ς ι) (c : Nat → Call Rc (State κ ς ι) α) : Prop :=
  ∃ N, ∀ fuel, N ≤ fuel → ∀ s, Reached B P s → ∃ a s', c fuel s = some (.ok a s')

/-- With enough fuel the call fails, whatever was evaluated before. -/
def Fails (B : Bitmap β) (P : Policy κ ς ι) (c : Nat → Call Rc (State κ ς ι) α) : Prop :=
  ∃ N, ∀ fuel, N ≤ fuel → ∀ s, Reached B P s → ∃ e s', c fuel s = some (.failed e s')

private theorem collect_succeeds {xs : List (Leaf (Datum κ ς))}
    (h : ∀ x ∈ xs, Ordered P x ∧ Succeeds B P fun fuel => readLeaf B P fuel x) :
    Succeeds B P fun fuel => collect (readLeaf B P fuel) xs := by
  induction xs with
  | nil => exact ⟨0, fun fuel _ s _ => ⟨[], s, rfl⟩⟩
  | cons x xs ih =>
    obtain ⟨hx, N, hN⟩ := h x List.mem_cons_self
    obtain ⟨M, hM⟩ := ih fun y hy => h y (List.mem_cons_of_mem x hy)
    refine ⟨max N M, fun fuel hfuel s hs => ?_⟩
    obtain ⟨b, s1, hread⟩ := hN fuel (by omega) s hs
    obtain ⟨-, hs1, -, -⟩ := (leafSound fuel).ok x s b s1 hs hx hread
    obtain ⟨bs, s2, hrest⟩ := hM fuel (by omega) s1 hs1
    refine ⟨b :: bs, s2, ?_⟩
    show collect (readLeaf B P fuel) (x :: xs) s = _
    rw [collect, Call.bind_of_ok hread, Call.bind_of_ok hrest]
    rfl

private theorem collect_fails {pre post : List (Leaf (Datum κ ς))} {x : Leaf (Datum κ ς)}
    (hpre : ∀ y ∈ pre, Ordered P y ∧ Succeeds B P fun fuel => readLeaf B P fuel y)
    (hx : Fails B P fun fuel => readLeaf B P fuel x) :
    Fails B P fun fuel => collect (readLeaf B P fuel) (pre ++ x :: post) := by
  induction pre with
  | nil =>
    obtain ⟨N, hN⟩ := hx
    refine ⟨N, fun fuel hfuel s hs => ?_⟩
    obtain ⟨e, s', hfail⟩ := hN fuel hfuel s hs
    exact ⟨e, s', Call.bind_of_failed hfail⟩
  | cons y pre ih =>
    obtain ⟨hy, N, hN⟩ := hpre y List.mem_cons_self
    obtain ⟨M, hM⟩ := ih fun z hz => hpre z (List.mem_cons_of_mem y hz)
    refine ⟨max N M, fun fuel hfuel s hs => ?_⟩
    obtain ⟨b, s1, hread⟩ := hN fuel (by omega) s hs
    obtain ⟨-, hs1, -, -⟩ := (leafSound fuel).ok y s b s1 hs hy hread
    obtain ⟨e, s', hfail⟩ := hM fuel (by omega) s1 hs1
    refine ⟨e, s', ?_⟩
    show collect (readLeaf B P fuel) (y :: (pre ++ x :: post)) s = _
    rw [collect, Call.bind_of_ok hread, Call.bind_of_failed hfail]

private theorem evaluateCats_succeeds {id : CatsId ς ι} {e : List (Item (Datum κ ς))}
    (hexpr : P.expr id = some e)
    (h : ∀ x ∈ leaves e, Succeeds B P fun fuel => readLeaf B P fuel x) :
    Succeeds B P fun fuel => evaluateCats B P fuel id := by
  obtain ⟨N, hN⟩ := collect_succeeds fun x hx => ⟨ordered_of_expr hexpr x hx, h x hx⟩
  refine ⟨N, fun fuel hfuel s hs => ?_⟩
  cases hid : (s id).evaluated with
  | true => exact ⟨(), s, evaluateCats_evaluated hid⟩
  | false =>
    cases hlist : verifyIsList e with
    | true =>
      refine ⟨(), s, ?_⟩
      show evaluateCats B P fuel id s = _
      rw [evaluateCats_eq hs hid hexpr, if_pos hlist]
    | false =>
      obtain ⟨compute, heq, -⟩ := evaluateCats_collect fuel hs hid hexpr hlist
      obtain ⟨bs, s1, hcollect⟩ := hN fuel hfuel s hs
      refine ⟨(), Function.update s1 id ⟨true, newList B P (compute bs)⟩, ?_⟩
      show evaluateCats B P fuel id s = _
      rw [heq, Call.bind_of_ok hcollect]
      rfl

omit [DecidableEq ς] [DecidableEq ι] in
/-- A leaf is not both readable and blocked. -/
private theorem Reads.not_blocked {x : Leaf (Datum κ ς)} {S : Set Nat} (h : Reads P x S) :
    ¬ Blocked P x := by
  induction h with
  | cat hc =>
    intro hblocked
    cases hblocked
  | range hc =>
    intro hblocked
    cases hblocked with
    | range hset => rcases hset with h | h <;> cases h
  | catset hexpr hreads hfull ih =>
    intro hblocked
    cases hblocked with
    | catset hexpr' hleaves hpre hx =>
      rw [hexpr] at hexpr'
      cases hexpr'
      exact ih _ (by rw [hleaves]; simp) hx

omit [DecidableEq ς] [DecidableEq ι] in
private theorem Completes.not_stops {id : CatsId ς ι} {S : Set Nat} (h : Completes P id S) :
    ¬ Stops P id := by
  intro hstops
  obtain ⟨e, set, hexpr, hreads, -⟩ := h
  obtain ⟨e', hexpr', pre, x, post, hleaves, -, hx⟩ := hstops
  rw [hexpr] at hexpr'
  cases hexpr'
  exact (hreads x (by rw [hleaves]; simp)).not_blocked hx

private theorem evaluateCats_fails {id : CatsId ς ι} {e : List (Item (Datum κ ς))}
    {pre post : List (Leaf (Datum κ ς))} {x : Leaf (Datum κ ς)} (hexpr : P.expr id = some e)
    (hleaves : leaves e = pre ++ x :: post) (hstops : Stops P id)
    (hpre : ∀ y ∈ pre, Succeeds B P fun fuel => readLeaf B P fuel y)
    (hx : Fails B P fun fuel => readLeaf B P fuel x) :
    Fails B P fun fuel => evaluateCats B P fuel id := by
  have hordered : ∀ y ∈ pre, Ordered P y := fun y hy =>
    ordered_of_expr hexpr y (by rw [hleaves]; exact List.mem_append_left _ hy)
  have hcollect : Fails B P fun fuel => collect (readLeaf B P fuel) (pre ++ x :: post) :=
    collect_fails (fun y hy => ⟨hordered y hy, hpre y hy⟩) hx
  rw [← hleaves] at hcollect
  obtain ⟨N, hN⟩ := hcollect
  refine ⟨N, fun fuel hfuel s hs => ?_⟩
  have hnot : ¬ Done P s id := by
    intro hdone
    obtain ⟨S, hcompletes, -⟩ := hs.completes hdone
    exact hcompletes.not_stops hstops
  have hid : (s id).evaluated = false := by
    cases hid : (s id).evaluated with
    | true => exact absurd (Or.inl hid) hnot
    | false => rfl
  have hlist : verifyIsList e = false := by
    cases hlist : verifyIsList e with
    | true => exact absurd (Or.inr ⟨e, hexpr, hlist⟩) hnot
    | false => rfl
  obtain ⟨compute, heq, -⟩ := evaluateCats_collect fuel hs hid hexpr hlist
  obtain ⟨rc, s', hfail⟩ := hN fuel hfuel s hs
  refine ⟨rc, s', ?_⟩
  show evaluateCats B P fuel id s = _
  rw [heq, Call.bind_of_failed hfail]

theorem Reads.succeeds {x : Leaf (Datum κ ς)} {S : Set Nat} (h : Reads P x S) :
    Succeeds B P fun fuel => readLeaf B P fuel x := by
  induction h with
  | cat hc =>
    refine ⟨1, fun fuel hfuel s hs => ?_⟩
    obtain ⟨fuel, rfl⟩ := Nat.exists_eq_add_of_le' hfuel
    exact ⟨_, s, rfl⟩
  | range hc => exact ⟨0, fun fuel _ s _ => ⟨_, s, rfl⟩⟩
  | catset hexpr hreads hfull ih =>
    obtain ⟨N, hN⟩ := evaluateCats_succeeds hexpr ih
    refine ⟨N + 1, fun fuel hfuel s hs => ?_⟩
    obtain ⟨fuel, rfl⟩ := Nat.exists_eq_add_of_le' (Nat.le_of_add_left_le hfuel)
    obtain ⟨_, s1, hevaluate⟩ := hN fuel (by omega) s hs
    obtain ⟨hs1, -, hdone⟩ := evaluateCats_ok (leafSound fuel) hs hevaluate
    show ∃ a s', readLeaf B P (fuel + 1) _ s = _
    rw [readLeaf_catset, Call.bind_of_ok hevaluate]
    rcases readSet_done hs1 hdone with ⟨hempty, -⟩ | ⟨b, hread, -⟩
    · have hnone := hempty.unique ⟨_, _, hexpr, hreads, rfl⟩
      rw [← hnone] at hfull
      exact absurd rfl hfull.ne_empty
    · exact ⟨b, s1, hread⟩

theorem Blocked.fails {x : Leaf (Datum κ ς)} (h : Blocked P x) :
    Fails B P fun fuel => readLeaf B P fuel x := by
  induction h with
  | @range d1 d2 t hset =>
    refine ⟨0, fun fuel _ s _ => ⟨.err, s, ?_⟩⟩
    cases d1 with
    | catset t => rfl
    | cat c1 =>
      cases d2 with
      | catset t => rfl
      | cat c2 => rcases hset with h | h <;> cases h
  | @catset t e pre post x hexpr hleaves hpre hx ih =>
    have hstops : Stops P (.set t) := ⟨e, hexpr, pre, x, post, hleaves, hpre, hx⟩
    have hsucceeds : ∀ y ∈ pre, Succeeds B P fun fuel => readLeaf B P fuel y := by
      intro y hy
      obtain ⟨S, hS⟩ := hpre y hy
      exact hS.succeeds
    obtain ⟨N, hN⟩ := evaluateCats_fails hexpr hleaves hstops hsucceeds ih
    refine ⟨N + 1, fun fuel hfuel s hs => ?_⟩
    obtain ⟨fuel, rfl⟩ := Nat.exists_eq_add_of_le' (Nat.le_of_add_left_le hfuel)
    obtain ⟨e, s', hfail⟩ := hN fuel (by omega) s hs
    refine ⟨e, s', ?_⟩
    show readLeaf B P (fuel + 1) _ s = _
    rw [readLeaf_catset, Call.bind_of_failed hfail]

theorem Completes.succeeds {id : CatsId ς ι} {S : Set Nat} (h : Completes P id S) :
    Succeeds B P fun fuel => evaluateCats B P fuel id := by
  obtain ⟨e, set, hexpr, hreads, -⟩ := h
  exact evaluateCats_succeeds hexpr fun x hx => (hreads x hx).succeeds

theorem Stops.fails {id : CatsId ς ι} (h : Stops P id) :
    Fails B P fun fuel => evaluateCats B P fuel id := by
  obtain ⟨e, hexpr, pre, x, post, hleaves, hpre, hx⟩ := h
  refine evaluateCats_fails hexpr hleaves ⟨e, hexpr, pre, x, post, hleaves, hpre, hx⟩ ?_ hx.fails
  intro y hy
  obtain ⟨S, hS⟩ := hpre y hy
  exact hS.succeeds

end Progress

end Cil.Post.Categories
