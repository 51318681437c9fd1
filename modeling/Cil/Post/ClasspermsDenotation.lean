/- Cil/Post/ClasspermsDenotation
   digest: Rules reach just the permissions written, where the lists can be followed. -/

import Mathlib.Logic.Relation
import Mathlib.Data.Finite.Sum
import Mathlib.Data.Fin.VecNotation
import Mathlib.Tactic.FinCases
import Cil.ClassPermsExpansion
import Cil.ClassPermsGraph
import Cil.Post.Classperms

set_option autoImplicit false
set_option relaxedAutoImplicit false

namespace Cil.Post.Classperms

open Cil.Library Cil.Expr Cil.Resolve.Permissions Cil.ClassPerms Relation

section Evaluate

variable {π β : Type} (B : Bitmap β) (val : π → Nat)

/-- Nothing but the values of permissions is relied on. -/
def permGuarantee : Guarantee Unit π where
  le _ _ := True
  inv _ := True
  env p := {val p}
  seen _ _ := True
  refl _ := trivial
  trans _ _ _ _ _ := trivial
  keeps _ _ _ _ _ := trivial

private theorem permToBitmap_evaluates (ds : List π) :
    Evaluates B (permGuarantee val) False (permToBitmap B val) ds := by
  intro p _ s _
  refine ends_pure ⟨trivial, trivial, ?_, fun _ _ => trivial⟩
  rw [B.bits_setBit, B.bits_init, Set.empty_union]
  rfl

/-- The bitmap of a well-formed expression has the bits of what the expression denotes. -/
private theorem exprToBitmap_bits (max : Nat) {l : List (Item π)} (hl : wellFormed false l = true) :
    ∃ b, exprToBitmap B max (permToBitmap B val) none B.init l () = some (.ok b ()) ∧
      B.bits b = denote max (fun p => {val p}) (fun _ _ => ∅) l := by
  have hends :=
    exprToBitmap_ends max l hl (permToBitmap_evaluates B val (mentioned l)) B.init () trivial
  obtain ⟨b, _, hb, heval⟩ := ends_false_iff.mp hends
  refine ⟨b, hb, ?_⟩
  rw [heval.value, B.bits_init, Set.empty_union]
  rfl

variable {val}

/-- The value of an expression over the permissions of a class. -/
abbrev permsValue (t : Symtabs π) (l : List (Item π)) : Set π :=
  value {p | p ∈ t.all} (fun p => {p}) l

/-- The bits of an expression are those of the permissions in its value. -/
private theorem denote_permsValue {t : Symtabs π} {numPerms : Nat}
    (hnum : Numbered val numPerms t.all)
    {l : List (Item π)} (hl : wellFormed false l = true) (hknown : ∀ p ∈ mentioned l, p ∈ t.all) :
    ∀ p ∈ t.all, val p ∈ denote numPerms (fun p => {val p}) (fun _ _ => ∅) l ↔
      p ∈ permsValue t l := by
  apply denote_numbers hnum.below l hl
  intro d hd p hp
  rw [Set.mem_singleton_iff, Set.mem_singleton_iff]
  exact ⟨fun h => hnum.injective hp (hknown d hd) h, fun h => by rw [h]⟩

private theorem mem_permBitsToList {b : β} {symtab : List (String × π)} {p : π} :
    p ∈ permBitsToList B val b symtab ↔ p ∈ symtab.map Prod.snd ∧ val p ∈ B.bits b := by
  rw [permBitsToList, List.mem_filter, B.mem_bits]

private theorem mem_newList {t : Symtabs π} {b : β} {p : π} :
    p ∈ (newList B val t b).val ↔ p ∈ t.all ∧ val p ∈ B.bits b := by
  show p ∈ _ ++ _ ↔ _
  rw [List.mem_append, mem_permBitsToList, mem_permBitsToList, Symtabs.all, List.mem_append,
    or_and_right]

end Evaluate

section Value

variable {γ κ π ς : Type} {P : Policy γ κ π ς}

/-- What the class permissions `cp` stand for. -/
def Perms.valueOf (s : Perms P) (cp : κ) : Set π :=
  permsValue (P.symtabs (P.classOf cp)) (s.perms cp)

private theorem Perms.known_of_valueOf (s : Perms P) {cp : κ} {p : π} (h : p ∈ s.valueOf cp) :
    p ∈ (P.symtabs (P.classOf cp)).all := by
  have hsub : s.valueOf cp ⊆ {p | p ∈ (P.symtabs (P.classOf cp)).all} :=
    value_subset (s.perms cp) fun d hd => Set.singleton_subset_iff.mpr (s.known cp d hd)
  exact hsub h

variable (P)

/-- The permissions of the class whose numbers are in the value of the expression over numbers. -/
def Policy.numbersValue (cp : κ) (l : List (Item π)) : Set π :=
  {p | p ∈ (P.symtabs (P.classOf cp)).all ∧
    P.value p ∈ denote (P.numPerms (P.classOf cp)) (fun p => {P.value p}) (fun _ _ => ∅) l}

/-- The evaluation has replaced an expression by a list of permissions. -/
structure Evaluated (cp : κ) (l l' : List (Item π)) : Prop where
  expression : ¬ Plain l
  plain : Plain l'
  datums : ∀ p, .datum p ∈ l' ↔ p ∈ P.numbersValue cp l

variable {P}

/-- Lists of permissions stay, expressions may have been evaluated. -/
def Later (s s' : Perms P) : Prop :=
  ∀ cp, s'.perms cp = s.perms cp ∨ Evaluated P cp (s.perms cp) (s'.perms cp)

private theorem later_progress : Progress (Later (P := P)) where
  refl _ _ := Or.inl rfl
  trans s s' s'' h h' cp := by
    rcases h cp with heq | heval
    · rw [← heq]
      exact h' cp
    · rcases h' cp with heq' | heval'
      · rw [heq']
        exact Or.inr heval
      · exact absurd heval.plain heval'.expression

theorem Later.plain {s s' : Perms P} (h : Later s s') {cp : κ} (hplain : Plain (s.perms cp)) :
    Plain (s'.perms cp) := by
  rcases h cp with heq | heval
  · rw [heq]
    exact hplain
  · exact heval.plain

end Value

section Step

variable {γ κ π ς β : Type} [DecidableEq κ] {P : Policy γ κ π ς} (B : Bitmap β)

private theorem replace_later {s : Perms P} {cp : κ} {l : NewList (P.symtabs (P.classOf cp))}
    (h : Evaluated P cp (s.perms cp) (l.val.map .datum)) : Later s (s.replace cp l) := by
  intro cp'
  by_cases heq : cp' = cp
  · subst heq
    rw [s.replace_self]
    exact Or.inr h
  · rw [s.replace_of_ne l heq]
    exact Or.inl rfl

private theorem verifyIsList_plain {l : List (Item π)} (h : Plain l) : verifyIsList l = true := by
  obtain ⟨ds, rfl⟩ := h
  induction ds with
  | nil => rfl
  | cons d ds ih => exact ih

/-- The step never fails, and leaves a list of permissions. -/
private theorem evaluateClassperms_ok (s : Perms P) (cp : κ) :
    ∃ s', evaluateClassperms B s cp = (.ok, s') ∧ Later s s' ∧ Plain (s'.perms cp) := by
  have hformed := s.formed cp
  unfold evaluateClassperms evaluatePermExpression
  cases hlist : verifyIsList (s.perms cp) with
  | true => exact ⟨s, rfl, later_progress.refl s, plain_of_verifyIsList hformed hlist⟩
  | false =>
    obtain ⟨b, hb, hbits⟩ := exprToBitmap_bits B P.value (P.numPerms (P.classOf cp)) hformed
    refine ⟨s.replace cp (newList B P.value _ b), ?_, replace_later ⟨?_, ⟨_, rfl⟩, ?_⟩, ?_⟩
    · have hrun : (exprToBitmap B (P.numPerms (P.classOf cp)) (permToBitmap B P.value) none B.init
          (s.perms cp) >>= fun bitmap =>
            (pure (some (newList B P.value (P.symtabs (P.classOf cp)) bitmap)) :
              Call Rc Unit (Option (NewList (P.symtabs (P.classOf cp)))))) () =
          some (.ok (some (newList B P.value (P.symtabs (P.classOf cp)) b)) ()) := by
        show Call.andThen _ _ () = _
        unfold Call.andThen
        rw [hb]
        rfl
      simp only [Bool.false_eq_true, if_false]
      rw [hrun]
    · intro hplain
      rw [verifyIsList_plain hplain] at hlist
      cases hlist
    · intro p
      have hmem : Item.datum p ∈ (newList B P.value (P.symtabs (P.classOf cp)) b).val.map .datum ↔
          p ∈ (newList B P.value (P.symtabs (P.classOf cp)) b).val := by simp
      rw [hmem, mem_newList, hbits]
      rfl
    · rw [s.replace_self]
      exact ⟨_, rfl⟩

end Step

section Denotation

variable {γ κ π ς : Type} (P : Policy γ κ π ς)

/-- The value of a written expression over all permissions of its class or class map. -/
def Policy.exprValue (cp : κ) : Set π :=
  Expr.value {p | p ∈ (P.symtabs (P.classOf cp)).all} (named (P.symtabs (P.classOf cp)).get)
    (P.permStrs cp)

/-- The pairs of a kernel class and a permission that a list of class permissions denotes. -/
inductive Denotes : List (ListItem κ ς) → γ × π → Prop
  | kernel {items : List (ListItem κ ς)} {cp : κ} {p : π} (h : .classperms cp ∈ items)
      (hflavor : P.flavor (P.classOf cp) = .kernel) (hp : p ∈ P.exprValue cp) :
      Denotes items (P.classOf cp, p)
  | map {items below : List (ListItem κ ς)} {cp : κ} {q : π} {x : γ × π}
      (h : .classperms cp ∈ items) (hflavor : P.flavor (P.classOf cp) = .map)
      (hq : q ∈ P.exprValue cp) (hbelow : P.permClassperms q = some below)
      (hx : Denotes below x) : Denotes items x
  | set {items below : List (ListItem κ ς)} {s : ς} {x : γ × π} (h : .classpermsSet s ∈ items)
      (hbelow : P.setClassperms s = some below) (hx : Denotes below x) : Denotes items x

variable {P}

variable (P) in
/-- What is reached for class permissions: what is listed, or what the numbers of the permissions
make of the expression. -/
def Policy.taken (cp : κ) : Set π :=
  {p | (Plain (P.perms cp) ∧ p ∈ P.exprValue cp) ∨
    (¬ Plain (P.perms cp) ∧ p ∈ P.numbersValue cp (P.perms cp))}

private theorem initial_valueOf (cp : κ) : P.initial.valueOf cp = P.exprValue cp :=
  (resolvePerms_keeps _ _ (P.formed cp) _ (P.resolved cp)).2.symm

/-- A followable list of permissions of a map holds neither operators nor lists. -/
private theorem plain_of_followable {items : List (ListItem κ ς)}
    (h : Followable P.classperms (some (items.map P.item))) {cp : κ}
    (hmem : .classperms cp ∈ items) (hflavor : P.flavor (P.classOf cp) = .map) :
    Plain (P.perms cp) := by
  have hitem : P.item (.classperms cp) = .map ((P.perms cp).map Policy.permItem) := by
    rw [Policy.item, hflavor]
  have hsome : none ∉ ((P.perms cp).map (Policy.permItem (ς := ς))).map permSuccessor := by
    intro hnone
    obtain ⟨b, hb, -⟩ := h none (List.mem_flatMap.mpr
      ⟨_, List.mem_map_of_mem hmem, by rw [hitem]; exact hnone⟩)
    cases hb
  revert hsome
  generalize P.perms cp = l
  intro hsome
  induction l with
  | nil => exact ⟨[], rfl⟩
  | cons i l ih =>
    rw [List.map_cons, List.map_cons, List.mem_cons, not_or] at hsome
    obtain ⟨ds, rfl⟩ := ih hsome.2
    cases i with
    | datum d => exact ⟨d :: ds, rfl⟩
    | _ => exact absurd rfl hsome.1

private theorem successor_map {items : List (ListItem κ ς)} {cp : κ} (hmem : .classperms cp ∈ items)
    (hflavor : P.flavor (P.classOf cp) = .map) {q : π} (hq : .datum q ∈ P.perms cp) :
    some (.inl q) ∈ successors (some (items.map P.item)) := by
  refine List.mem_flatMap.mpr ⟨_, List.mem_map_of_mem hmem, ?_⟩
  rw [Policy.item, hflavor]
  exact List.mem_map_of_mem (f := permSuccessor) (List.mem_map_of_mem hq)

private theorem successor_set {items : List (ListItem κ ς)} {s : ς}
    (hmem : .classpermsSet s ∈ items) :
    some (.inr s) ∈ successors (some (items.map P.item)) :=
  List.mem_flatMap.mpr ⟨_, List.mem_map_of_mem hmem, List.mem_singleton_self _⟩

/-- In a plain list of permissions the value is what is listed. -/
private theorem mem_exprValue {cp : κ} (hplain : Plain (P.perms cp)) {q : π} :
    q ∈ P.exprValue cp ↔ .datum q ∈ P.perms cp := by
  obtain ⟨ds, hds⟩ := hplain
  rw [← initial_valueOf]
  show q ∈ permsValue _ (P.perms cp) ↔ _
  rw [hds, permsValue, value_datums]
  simp

/-- The items that come from a list as built. -/
private theorem mem_map_item {items : List (ListItem κ ς)} {i : Item κ (π ⊕ ς)}
    (h : i ∈ items.map P.item) :
    (∃ cp, .classperms cp ∈ items ∧ P.flavor (P.classOf cp) = .kernel ∧ i = .kernel cp) ∨
      (∃ cp, .classperms cp ∈ items ∧ P.flavor (P.classOf cp) = .map ∧
        i = .map ((P.perms cp).map Policy.permItem)) ∨
      ∃ s, .classpermsSet s ∈ items ∧ i = .set (.inr s) := by
  obtain ⟨j, hj, rfl⟩ := List.mem_map.mp h
  cases j with
  | classperms cp =>
    cases hflavor : P.flavor (P.classOf cp) with
    | kernel => exact Or.inl ⟨cp, hj, hflavor, by rw [Policy.item, hflavor]⟩
    | map => exact Or.inr (Or.inl ⟨cp, hj, hflavor, by rw [Policy.item, hflavor]⟩)
  | classpermsSet s => exact Or.inr (Or.inr ⟨s, hj, rfl⟩)

private theorem mem_permItem {l : List (Expr.Item π)} {b : π ⊕ ς}
    (h : .perm b ∈ l.map Policy.permItem) : ∃ q, b = .inl q ∧ .datum q ∈ l := by
  obtain ⟨i, hi, heq⟩ := List.mem_map.mp h
  cases i with
  | datum q =>
    cases heq
    exact ⟨q, rfl, hi⟩
  | _ => cases heq

section Follow

variable [Finite π] [Finite ς]

private theorem followable_below {l : ItemList κ (π ⊕ ς)} (h : Followable P.classperms l)
    {b : π ⊕ ς} (hb : some b ∈ successors l) : Followable P.classperms (P.classperms b) := by
  obtain ⟨b', hb', hunf⟩ := (followable_iff P.classperms).mp h _ hb
  obtain rfl := Option.some.inj hb'
  rw [followable_iff]
  intro e he
  cases hunf with
  | intro hsome hall =>
    obtain ⟨c, rfl⟩ := hsome e he
    exact ⟨c, rfl, hall c he⟩

/-- What a list denotes is among what the recursions expand it to. -/
private theorem expands_of_denotes {items : List (ListItem κ ς)} {x : γ × π}
    (hx : Denotes P items x) (h : Followable P.classperms (some (items.map P.item))) :
    ∃ cp, Expands P.classperms (items.map P.item) cp ∧ x.1 = P.classOf cp ∧
      x.2 ∈ P.exprValue cp := by
  induction hx with
  | @kernel items cp p hmem hflavor hp =>
    refine ⟨cp, .kernel ?_, rfl, hp⟩
    have hitem : P.item (.classperms cp) = .kernel cp := by
      rw [Policy.item, hflavor]
    rw [← hitem]
    exact List.mem_map_of_mem hmem
  | @map items below cp q x hmem hflavor hq hbelow _ ih =>
    have hq' := (mem_exprValue (plain_of_followable h hmem hflavor)).mp hq
    have hlist : P.classperms (.inl q) = some (below.map P.item) := by
      rw [Policy.classperms, hbelow]
      rfl
    have hfollow := followable_below h (successor_map hmem hflavor hq')
    rw [hlist] at hfollow
    obtain ⟨cp', hcp', hclass, hval⟩ := ih hfollow
    refine ⟨cp', .map (p := .inl q) ?_ (List.mem_map_of_mem (f := Policy.permItem) hq') hlist hcp',
      hclass, hval⟩
    have hitem : P.item (.classperms cp) = .map ((P.perms cp).map Policy.permItem) := by
      rw [Policy.item, hflavor]
    rw [← hitem]
    exact List.mem_map_of_mem hmem
  | @set items below s x hmem hbelow _ ih =>
    have hlist : P.classperms (.inr s) = some (below.map P.item) := by
      rw [Policy.classperms, hbelow]
      rfl
    have hfollow := followable_below h (successor_set hmem)
    rw [hlist] at hfollow
    obtain ⟨cp', hcp', hclass, hval⟩ := ih hfollow
    exact ⟨cp', .set (s := .inr s) (List.mem_map_of_mem hmem) hlist hcp', hclass, hval⟩

/-- What the recursions expand a list to is in its denotation. -/
private theorem denotes_of_expands {items : List (ListItem κ ς)} {cp : κ}
    (hcp : Expands P.classperms (items.map P.item) cp)
    (h : Followable P.classperms (some (items.map P.item))) {p : π} (hp : p ∈ P.exprValue cp) :
    Denotes P items (P.classOf cp, p) := by
  generalize hitems : items.map P.item = l at hcp
  induction hcp generalizing items with
  | kernel hmem =>
    subst hitems
    obtain ⟨cp', hmem', hflavor, heq⟩ | ⟨_, -, -, heq⟩ | ⟨_, -, heq⟩ := mem_map_item hmem
    · cases heq
      exact .kernel hmem' hflavor hp
    · cases heq
    · cases heq
  | map hmem hperm hbelow _ ih =>
    subst hitems
    obtain ⟨_, -, -, heq⟩ | ⟨cp', hmem', hflavor, heq⟩ | ⟨_, -, heq⟩ := mem_map_item hmem
    · cases heq
    · cases heq
      obtain ⟨q, rfl, hq⟩ := mem_permItem hperm
      obtain ⟨below, hlist, rfl⟩ := Option.map_eq_some_iff.mp hbelow
      have hfollow := followable_below h (successor_map hmem' hflavor hq)
      rw [hbelow] at hfollow
      have hvalue := (mem_exprValue (plain_of_followable h hmem' hflavor)).mpr hq
      exact .map hmem' hflavor hvalue hlist (ih hfollow hp rfl)
    · cases heq
  | set hmem hbelow _ ih =>
    subst hitems
    obtain ⟨_, -, -, heq⟩ | ⟨_, -, -, heq⟩ | ⟨s, hmem', heq⟩ := mem_map_item hmem
    · cases heq
    · cases heq
    · cases heq
      obtain ⟨below, hlist, rfl⟩ := Option.map_eq_some_iff.mp hbelow
      have hfollow := followable_below h (successor_set hmem')
      rw [hbelow] at hfollow
      exact .set hmem' hlist (ih hfollow hp rfl)

end Follow

end Denotation

section Gather

variable {γ κ π ς : Type} {P : Policy γ κ π ς}

private theorem datums_map (ds : List π) : datums (ds.map Expr.Item.datum) = some ds := by
  induction ds with
  | nil => rfl
  | cons d ds ih =>
    rw [List.map_cons, datums, ih]
    rfl

private theorem eq_of_datums {l : List (Expr.Item π)} {ds : List π} (h : datums l = some ds) :
    l = ds.map .datum := by
  induction l generalizing ds with
  | nil =>
    cases h
    rfl
  | cons i l ih =>
    cases i with
    | datum p =>
      rw [datums, Option.map_eq_some_iff] at h
      obtain ⟨ds', hds', rfl⟩ := h
      rw [ih hds']
      rfl
    | _ => cases h

private theorem mem_valueOf {s : Perms P} {cp : κ} {ds : List π} (h : s.perms cp = ds.map .datum)
    {p : π} :
    p ∈ s.valueOf cp ↔ p ∈ ds := by
  unfold Perms.valueOf
  rw [h, permsValue, value_datums]
  rfl

/-- On a list of permissions the step adds what the list stands for. -/
private theorem permsToDatum_plain {s : Perms P} {cp : κ} (hplain : Plain (s.perms cp))
    (pairs : List (γ × π)) :
    ∃ ds : List π, permsToDatum s (some pairs) cp =
        (.ok, some (pairs ++ ds.map fun p => (P.classOf cp, p))) ∧
      ∀ p, p ∈ ds ↔ p ∈ s.valueOf cp := by
  obtain ⟨ds, hds⟩ := hplain
  refine ⟨ds, ?_, fun p => (mem_valueOf hds).symm⟩
  unfold permsToDatum
  rw [hds, datums_map]

/-- The pairs gathered so far stay gathered. -/
def Gathered (o o' : Option (List (γ × π))) : Prop :=
  ∀ pairs, o = some pairs → ∃ pairs', o' = some pairs' ∧ pairs ⊆ pairs'

private theorem gathered_progress : Progress (Gathered (γ := γ) (π := π)) where
  refl _ pairs h := ⟨pairs, h, fun _ hx => hx⟩
  trans _ _ _ h h' pairs hp := by
    obtain ⟨pairs', hp', hsub⟩ := h pairs hp
    obtain ⟨pairs'', hp'', hsub'⟩ := h' pairs' hp'
    exact ⟨pairs'', hp'', fun x hx => hsub' (hsub hx)⟩

/-- The pairs that `cp` stands for are gathered. -/
def HasPairs (s : Perms P) (cp : κ) (o : Option (List (γ × π))) : Prop :=
  ∃ pairs, o = some pairs ∧ ∀ p ∈ s.valueOf cp, (P.classOf cp, p) ∈ pairs

/-- A step that succeeds has gathered what its class permissions stand for. -/
private theorem permsToDatum_gathers {s : Perms P} {o o' : Option (List (γ × π))} {cp : κ}
    (h : permsToDatum s o cp = (.ok, o')) : Gathered o o' ∧ HasPairs s cp o' := by
  unfold permsToDatum at h
  split at h
  · rename_i pairs ds hds
    cases h
    constructor
    · intro pairs' heq
      cases heq
      exact ⟨_, rfl, List.subset_append_left _ _⟩
    · refine ⟨_, rfl, fun p hp => List.mem_append_right _ (List.mem_map.mpr ⟨p, ?_, rfl⟩)⟩
      exact (mem_valueOf (eq_of_datums hds)).mp hp
  · cases h

variable (P)

/-- An expansion comes to its end and has reached the pairs denoted, and no others. -/
def Exactly (l : List (ListItem κ ς))
    (expand : Nat → List (ListItem κ ς) → Option (Walked (Option (List (γ × π))))) : Prop :=
  ∃ fuel pairs, expand fuel l = some (.done .ok (some pairs)) ∧ ∀ x, x ∈ pairs ↔ Denotes P l x

variable {P}

variable (P) in
/-- The pairs of a kernel class that the list leads to and a permission taken for it. -/
def Reached (l : List (ListItem κ ς)) (x : γ × π) : Prop :=
  ∃ cp, Expands P.classperms (l.map P.item) cp ∧ x.1 = P.classOf cp ∧ x.2 ∈ P.taken cp

variable (P) in
/-- The numbers of the permissions tell them apart as far as the expressions need it. -/
def NumbersTell (l : List (ListItem κ ς)) : Prop :=
  ∀ x, Reached P l x ↔ Denotes P l x

variable (P) in
/-- Where an expression is not a plain list, the permissions of its class have distinct numbers
below `num_perms`. -/
def NumberedClasses (l : List (ListItem κ ς)) : Prop :=
  ∀ cp, Expands P.classperms (l.map P.item) cp → ¬ Plain (P.perms cp) →
    Numbered P.value (P.numPerms (P.classOf cp)) (P.symtabs (P.classOf cp)).all

/-- A list of permissions that comes from evaluations has what is taken. -/
private theorem valueOf_of_plain {s : Perms P} (hs : Later P.initial s) {cp : κ}
    (hplain : Plain (s.perms cp)) : s.valueOf cp = P.taken cp := by
  obtain ⟨ds, hds⟩ := hplain
  ext p
  have hmem : p ∈ s.valueOf cp ↔ .datum p ∈ s.perms cp := by
    rw [mem_valueOf hds, hds]
    simp
  rw [hmem]
  rcases hs cp with heq | heval
  · have hplain : Plain (P.perms cp) := ⟨ds, heq.symm.trans hds⟩
    have hsame : s.perms cp = P.perms cp := heq
    rw [hsame, ← mem_exprValue hplain]
    simp [Policy.taken, hplain]
  · have hnot : ¬ Plain (P.perms cp) := heval.expression
    rw [heval.datums]
    simp [Policy.taken, hnot, Policy.initial]

/-- An expansion of evaluated lists reaches what is taken. -/
private theorem walk_reaches {s : Perms P} {l : List (ListItem κ ς)} (hs : Later P.initial s)
    (hplain : ∀ cp, Expands P.classperms (l.map P.item) cp → Plain (s.perms cp)) {fuel : Nat}
    {rc : Rc} {o : Option (List (γ × π))}
    (hrun : walk P.classperms (permsToDatum s) fuel (some []) (some (l.map P.item)) =
      some (.done rc o)) :
    rc = .ok ∧ ∃ pairs, o = some pairs ∧ ∀ x, x ∈ pairs ↔ Reached P l x := by
  -- the step succeeds on everything the list stands for, and adds only what is taken
  have hpreserves : ∀ cp, Expands P.classperms (l.map P.item) cp → Preserves (permsToDatum s)
      (fun o => ∃ pairs, o = some pairs ∧ ∀ x ∈ pairs, Reached P l x) cp := by
    intro cp hcp o ho
    obtain ⟨pairs, rfl, hpairs⟩ := ho
    obtain ⟨ds, hstep, hds⟩ := permsToDatum_plain (hplain cp hcp) pairs
    refine ⟨_, hstep, _, rfl, ?_⟩
    intro x hx
    rcases List.mem_append.mp hx with hx | hx
    · exact hpairs x hx
    · obtain ⟨p, hp, rfl⟩ := List.mem_map.mp hx
      refine ⟨cp, hcp, rfl, ?_⟩
      rw [← valueOf_of_plain hs (hplain cp hcp)]
      exact (hds p).mp hp
  obtain ⟨rfl, pairs, rfl, hsub⟩ :=
    walk_preserves fuel (l.map P.item) hpreserves (some []) rc o ⟨[], rfl, by simp⟩ hrun
  refine ⟨rfl, pairs, rfl, fun x => ⟨hsub x, ?_⟩⟩
  rintro ⟨cp, hcp, hclass, hval⟩
  have hcovers : Covers P.classperms Gathered (HasPairs s)
      (walk P.classperms (permsToDatum s) fuel) := by
    apply walk_covers gathered_progress
    · intro cp o o' hR hpairs
      obtain ⟨pairs, hpairs, hin⟩ := hpairs
      obtain ⟨pairs', hpairs', hsub⟩ := hR pairs hpairs
      exact ⟨pairs', hpairs', fun p hp => hsub (hin p hp)⟩
    · exact fun o cp o' => permsToDatum_gathers
  obtain ⟨items, hitems, -, hfacts⟩ := hcovers (some []) _ _ hrun
  cases hitems
  obtain ⟨pairs', heq, hin⟩ := hfacts cp hcp
  cases heq
  rw [show x = (P.classOf cp, x.2) from Prod.ext hclass rfl]
  rw [← valueOf_of_plain hs (hplain cp hcp)] at hval
  exact hin x.2 hval

end Gather

section Reach

variable {γ κ π ς β : Type} [DecidableEq κ] (P : Policy γ κ π ς) (B : Bitmap β)

/-- Class permission lists are evaluated, one after another. -/
def Evaluations : Perms P → Perms P → Prop :=
  ReflTransGen fun s s' => ∃ fuel l, evaluateClasspermsList B fuel s l = some (.done .ok s')

/-- Whatever was evaluated before, the list is evaluated; and whatever is evaluated after that,
rules and constraints with this list reach what it denotes. -/
def ReachesExactly (l : List (ListItem κ ς)) : Prop :=
  ∀ s₀, Evaluations P B P.initial s₀ → ∃ fuel s₁,
    evaluateClasspermsList B fuel s₀ l = some (.done .ok s₁) ∧
      ∀ s, Evaluations P B s₁ s → Exactly P l (avruleExpand s) ∧ Exactly P l (constrainExpand s)

variable {P B}

private theorem evaluateClasspermsList_later {fuel : Nat} {s s' : Perms P} {l : List (ListItem κ ς)}
    (h : evaluateClasspermsList B fuel s l = some (.done .ok s')) :
    Later s s' ∧ ∀ cp, Expands P.classperms (l.map P.item) cp → Plain (s'.perms cp) := by
  have hcovers : Covers P.classperms Later (fun cp (s : Perms P) => Plain (s.perms cp))
      (walk P.classperms (evaluateClassperms B) fuel) := by
    apply walk_covers later_progress
    · intro cp s s' hR
      exact hR.plain
    · intro s cp s' hstep
      obtain ⟨s'', hok, hlater, hplain⟩ := evaluateClassperms_ok B s cp
      rw [hok] at hstep
      cases hstep
      exact ⟨hlater, hplain⟩
  obtain ⟨items, hitems, hlater, hplain⟩ := hcovers s _ s' h
  cases hitems
  exact ⟨hlater, hplain⟩

private theorem evaluations_later {s s' : Perms P} (h : Evaluations P B s s') : Later s s' := by
  induction h with
  | refl => exact later_progress.refl s
  | tail _ hstep ih =>
    obtain ⟨fuel, l, hrun⟩ := hstep
    exact later_progress.trans _ _ _ ih (evaluateClasspermsList_later hrun).1

section Expand

variable [Finite π] [Finite ς]

private theorem reachesExactly_of_taken (P : Policy γ κ π ς) (B : Bitmap β)
    (l : List (ListItem κ ς)) :
    ReachesExactly P B l ↔ Followable P.classperms (some (l.map P.item)) ∧ NumbersTell P l := by
  have hleaf : ∀ (s : Perms P) cp, (evaluateClassperms B s cp).1 = .ok := by
    intro s cp
    obtain ⟨s', hok, -⟩ := evaluateClassperms_ok B s cp
    rw [hok]
  constructor
  · intro h
    obtain ⟨fuel, s₁, hrun, hexact⟩ := h P.initial .refl
    obtain ⟨hlater, hplain⟩ := evaluateClasspermsList_later hrun
    obtain ⟨⟨fuel', pairs, hexpand, hpairs⟩, -⟩ := hexact s₁ .refl
    obtain ⟨-, pairs', heq, hreached⟩ := walk_reaches hlater hplain hexpand
    cases heq
    exact ⟨followable_of_walk hleaf hrun, fun x => (hreached x).symm.trans (hpairs x)⟩
  · rintro ⟨hfollow, hsame⟩ s₀ hs₀
    have hdone : ∃ fuel rc s₁, evaluateClasspermsList B fuel s₀ l = some (.done rc s₁) :=
      walk_of_followable hfollow s₀
    obtain ⟨fuel, rc, s₁, hrun⟩ := hdone
    obtain rfl : rc = .ok := (of_walk hleaf hrun).1
    obtain ⟨hlater, hplain⟩ := evaluateClasspermsList_later hrun
    refine ⟨fuel, s₁, hrun, fun s hs => ?_⟩
    have hlater' := evaluations_later hs
    have hall := later_progress.trans _ _ _
      (later_progress.trans _ _ _ (evaluations_later hs₀) hlater) hlater'
    have hexpands : ∃ fuel rc o, walk P.classperms (permsToDatum s) fuel (some [])
        (some (l.map P.item)) = some (.done rc o) := walk_of_followable hfollow (some [])
    obtain ⟨fuel', rc, o, hexpand⟩ := hexpands
    obtain ⟨rfl, pairs, rfl, hreached⟩ :=
      walk_reaches hall (fun cp hcp => hlater'.plain (hplain cp hcp)) hexpand
    have hexact := fun x => (hreached x).trans (hsame x)
    exact ⟨⟨fuel', pairs, hexpand, hexact⟩, ⟨fuel', pairs, hexpand, hexact⟩⟩

omit [DecidableEq κ] in
/-- Distinct numbers make of the expressions what they denote. -/
private theorem NumberedClasses.numbersTell {l : List (ListItem κ ς)}
    (hnumbered : NumberedClasses P l)
    (hfollow : Followable P.classperms (some (l.map P.item))) : NumbersTell P l := by
  intro x
  have htaken : ∀ cp, Expands P.classperms (l.map P.item) cp → P.taken cp = P.exprValue cp := by
    intro cp hcp
    ext p
    by_cases hplain : Plain (P.perms cp)
    · simp [Policy.taken, hplain]
    · have hdenote := denote_permsValue (hnumbered cp hcp hplain) (P.perms_formed cp)
        (P.perms_known cp)
      have hvalue : permsValue (P.symtabs (P.classOf cp)) (P.perms cp) = P.exprValue cp :=
        initial_valueOf cp
      rw [hvalue] at hdenote
      have hknown : p ∈ P.exprValue cp → p ∈ (P.symtabs (P.classOf cp)).all := by
        rw [← initial_valueOf]
        exact P.initial.known_of_valueOf
      simp only [Policy.taken, hplain, false_and, false_or, not_false_iff, true_and,
        Policy.numbersValue, Set.mem_ofPred_eq]
      exact ⟨fun h => (hdenote p h.1).mp h.2, fun h => ⟨hknown h, (hdenote p (hknown h)).mpr h⟩⟩
  constructor
  · rintro ⟨cp, hcp, hclass, hval⟩
    rw [htaken cp hcp] at hval
    rw [show x = (P.classOf cp, x.2) from Prod.ext hclass rfl]
    exact denotes_of_expands hcp hfollow hval
  · intro hx
    obtain ⟨cp, hcp, hclass, hval⟩ := expands_of_denotes hx hfollow
    exact ⟨cp, hcp, hclass, by rwa [htaken cp hcp]⟩

/-- Where the classes with expressions have distinct numbers, rules and constraints reach exactly
what their class permissions denote just where nothing that the list leads to is a cycle, an
operator or a list taken for a permission, or a null list. Elsewhere this is still needed. -/
theorem reachesExactly_iff (P : Policy γ κ π ς) (B : Bitmap β) (l : List (ListItem κ ς)) :
    (NumberedClasses P l →
      (ReachesExactly P B l ↔ Followable P.classperms (some (l.map P.item)))) ∧
    (ReachesExactly P B l → Followable P.classperms (some (l.map P.item))) := by
  have hexact := reachesExactly_of_taken P B l
  refine ⟨fun hnumbered => ⟨fun h => (hexact.mp h).1, fun hfollow => ?_⟩,
    fun h => (hexact.mp h).1⟩
  exact hexact.mpr ⟨hfollow, hnumbered.numbersTell hfollow⟩

end Expand

end Reach

section Maps

/-- A class with the permission `open` and a common with the permission `read`, a map with the
permission `p` for `(file (read))`, the map permissions `(m (p))` and `(m (not (p)))`, and a set
for `(file (not (read)))`. -/
def filePolicy : Policy (Fin 2) (Fin 4) (Fin 3) Unit where
  flavor := ![.kernel, .map]
  symtabs := ![⟨[("open", 0)], some [("read", 1)]⟩, ⟨[("p", 2)], none⟩]
  value := ![1, 0, 0]
  numPerms := ![2, 1]
  classOf := ![0, 1, 1, 0]
  permStrs := ![[.datum "read"], [.datum "p"], [.op .not, .list [.datum "p"]],
    [.op .not, .list [.datum "read"]]]
  perms := ![[.datum 1], [.datum 2], [.op .not, .list [.datum 2]], [.op .not, .list [.datum 1]]]
  permClassperms := ![none, none, some [.classperms 0]]
  setClassperms _ := some [.classperms 3]
  formed := by decide
  resolved := by
    intro cp
    fin_cases cp <;> rfl

private theorem filePolicy_numbered (c : Fin 2) :
    Numbered filePolicy.value (filePolicy.numPerms c) (filePolicy.symtabs c).all := by
  refine ⟨fun p hp q hq => ?_, fun p => ?_⟩
  · revert c p q
    decide
  · revert c p
    decide

private theorem fileMap_followable : Followable filePolicy.classperms
    (some ([.classpermsSet (), .classperms 1].map filePolicy.item)) := by
  rw [followable_iff]
  intro e he
  have hleaf : ∀ b, (∀ e ∈ successors (filePolicy.classperms b), e = none ∧ False) →
      Descent.Unfolds (mentions filePolicy.classperms) b := by
    intro b hb
    exact .intro (fun e he => (hb e he).2.elim) fun c hc => (hb _ hc).2.elim
  have hcases : e = some (.inr ()) ∨ e = some (.inl 2) := by
    simpa [successors, itemSuccessors, Policy.item, Policy.permItem, filePolicy, permSuccessor]
      using he
  rcases hcases with rfl | rfl
  · refine ⟨_, rfl, hleaf _ fun e he => ?_⟩
    simp [successors, itemSuccessors, Policy.classperms, Policy.item, filePolicy] at he
  · refine ⟨_, rfl, hleaf _ fun e he => ?_⟩
    simp [successors, itemSuccessors, Policy.classperms, Policy.item, filePolicy] at he

/-- The named set and the list of a map permission. -/
theorem fileMap_reachesExactly :
    ReachesExactly filePolicy finsetBitmap [.classpermsSet (), .classperms 1] :=
  ((reachesExactly_iff filePolicy finsetBitmap [.classpermsSet (), .classperms 1]).1
    fun _ _ _ => filePolicy_numbered _).mpr fileMap_followable

/-- The expression over map permissions: the operator is taken for a permission. -/
theorem fileMapExpression_not_reachesExactly :
    ¬ ReachesExactly filePolicy finsetBitmap [.classperms 2] := by
  intro h
  obtain ⟨fuel, s, hrun, -⟩ := h filePolicy.initial .refl
  cases fuel with
  | zero => cases hrun
  | succ fuel => cases hrun

end Maps

end Cil.Post.Classperms
