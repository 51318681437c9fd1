/- Cil/Resolve/AliasChains
   digest: Alias statements as chains, and the passes over statements with fresh aliases. -/

import Mathlib.Data.Finset.Dedup
import Mathlib.Data.List.TakeWhile
import Cil.Resolve.Alias

set_option autoImplicit false
set_option relaxedAutoImplicit false

namespace Cil.Resolve.Alias

open Relation
open Cil.Library.Chain

variable {δ ν : Type} (S : Scope δ ν)

/-- The declaration that a statement names as its alias. -/
def aliasOf (s : AliasActual ν) : Option δ :=
  S.lookup s.node s.aliasStr (flavorToSymtabIndex s.kind.flavor)

/-- The declaration that a statement names as what the alias stands for. -/
def actualOf (s : AliasActual ν) : Option δ :=
  S.lookup s.node s.actualStr (flavorToSymtabIndex s.kind.flavor)

def IsAlias (d : δ) : Prop := isAlias (S.flavor d) = true

instance (d : δ) : Decidable (IsAlias S d) := inferInstanceAs (Decidable (_ = true))

/-- Some statement binds `a` to `x`. -/
def Binds (stmts : List (AliasActual ν)) (a x : δ) : Prop :=
  ∃ s ∈ stmts, aliasOf S s = some a ∧ actualOf S s = some x

/-- No statement binds the alias `a`. -/
def Unbound (stmts : List (AliasActual ν)) (a : δ) : Prop :=
  IsAlias S a ∧ ∀ s ∈ stmts, aliasOf S s ≠ some a

/-- The chain of `a` runs into a cycle. -/
def Circular (stmts : List (AliasActual ν)) (a : δ) : Prop :=
  ∃ b, ReflTransGen (Binds S stmts) a b ∧ TransGen (Binds S stmts) b b

/-- `z` is a declaration of the kind the alias `a` is for. -/
def RightKind (a z : δ) : Prop := actualFlavor (S.flavor a) = some (S.flavor z)

/-- The chain of `a` leads to another declaration, where it stops without having reached
the kind that `a` is for. -/
def Stray (stmts : List (AliasActual ν)) (a : δ) : Prop :=
  ∃ z, TransGen (Binds S stmts) a z ∧ (∀ x, ¬ Binds S stmts z x) ∧ ¬ RightKind S a z

/-- Both names of a statement are found. -/
def found (s : AliasActual ν) : Bool := (aliasOf S s).isSome && (actualOf S s).isSome

/-- The statements before the first one with a name that is not found. -/
def reached (stmts : List (AliasActual ν)) : List (AliasActual ν) := stmts.takeWhile (found S)

/-- Each statement names an alias, and none that an earlier statement names. -/
structure Distinct (stmts : List (AliasActual ν)) : Prop where
  alias_named : ∀ s ∈ stmts, ∀ a, aliasOf S s = some a → IsAlias S a
  once : stmts.Pairwise fun s t => aliasOf S s ≠ aliasOf S t

/-- The words after statements that each bound their own alias: every bound alias has a
word further down its chain. -/
structure Bound (stmts : List (AliasActual ν)) (words : δ → Word δ) : Prop where
  named : ∀ a x, Binds S stmts a x →
    ∃ c, words a = .datum c ∧ ReflTransGen (Binds S stmts) x c
  rest : ∀ d, (∀ s ∈ stmts, aliasOf S s ≠ some d) → words d = initialWords S d

variable {S}

theorem Binds.mono {P Q : List (AliasActual ν)} (h : P ⊆ Q) {a x : δ} (hb : Binds S P a x) :
    Binds S Q a x := by
  obtain ⟨s, hs, ha, hx⟩ := hb
  exact ⟨s, h hs, ha, hx⟩

private theorem reaches_mono {P Q : List (AliasActual ν)} (h : P ⊆ Q) {a x : δ}
    (hr : ReflTransGen (Binds S P) a x) : ReflTransGen (Binds S Q) a x :=
  hr.lift id fun _ _ hb => hb.mono h

theorem Distinct.tail {s : AliasActual ν} {P : List (AliasActual ν)} (h : Distinct S (s :: P)) :
    Distinct S P :=
  ⟨fun t ht => h.alias_named t (List.mem_cons_of_mem s ht), (List.pairwise_cons.mp h.once).2⟩

theorem found_iff {s : AliasActual ν} :
    found S s = true ↔ ∃ a x, aliasOf S s = some a ∧ actualOf S s = some x := by
  simp [found, Option.isSome_iff_exists]

theorem isAlias_of_actualFlavor {f g : Flavor} (h : actualFlavor f = some g) :
    isAlias g = false := by
  cases f <;> cases h <;> rfl

private theorem initialWords_of_isAlias {a : δ} (h : IsAlias S a) : initialWords S a = .null := by
  unfold IsAlias at h
  unfold initialWords
  split_ifs with hf
  · simp [hf, isAlias, actualFlavor] at h
  · rfl

theorem initialWords_ne_datum (d x : δ) : initialWords S d ≠ .datum x := by
  unfold initialWords
  split_ifs <;> simp

private theorem followAlias_null {words : δ → Word δ} {a : δ} (h : words a = .null) :
    followAlias S words a = a := by
  simp [followAlias, h]

theorem followAlias_of_not_isAlias {words : δ → Word δ} {d : δ} (h : ¬ IsAlias S d) :
    followAlias S words d = d :=
  if_neg h

/-- The alias of a chain with a step has a word to follow. -/
private theorem Bound.ne_null {P : List (AliasActual ν)} {words : δ → Word δ} (h : Bound S P words)
    {a b : δ} (hab : TransGen (Binds S P) a b) : words a ≠ .null := by
  obtain ⟨x, hax, _⟩ := TransGen.head'_iff.mp hab
  obtain ⟨c, hc, _⟩ := h.named a x hax
  simp [hc]

private theorem Circular.transGen {P : List (AliasActual ν)} {a : δ} (h : Circular S P a) :
    ∃ b, TransGen (Binds S P) a b := by
  obtain ⟨b, hab, hbb⟩ := h
  exact ⟨b, TransGen.trans_right hab hbb⟩

variable [DecidableEq δ]

/-- A statement with both names found writes the word of the declaration its alias leads to. -/
theorem resolveAliasactual_found {s : AliasActual ν} {a x : δ} (words : δ → Word δ)
    (ha : aliasOf S s = some a) (hx : actualOf S s = some x) :
    resolveAliasactual S words s =
      if words (followAlias S words a) ≠ .null then ⟨.failure .err, words⟩
      else ⟨.success, Function.update words (followAlias S words a)
        (.datum (followAlias S words x))⟩ := by
  have ha' : resolveName S words s.node s.aliasStr (flavorToSymtabIndex s.kind.flavor) =
      some (followAlias S words a) := congrArg _ ha
  have hx' : resolveName S words s.node s.actualStr (flavorToSymtabIndex s.kind.flavor) =
      some (followAlias S words x) := congrArg _ hx
  simp only [resolveAliasactual, ha', hx']

theorem resolveAliasactual_not_found {s : AliasActual ν} (words : δ → Word δ)
    (h : found S s = false) : resolveAliasactual S words s = ⟨.failure .enoent, words⟩ := by
  simp only [found, Bool.and_eq_false_iff, Option.isSome_eq_false_iff, Option.isNone_iff_eq_none]
    at h
  unfold resolveAliasactual
  rcases h with h | h
  · have ha : resolveName S words s.node s.aliasStr (flavorToSymtabIndex s.kind.flavor) = none :=
      congrArg _ h
    simp only [ha]
  · have hx : resolveName S words s.node s.actualStr (flavorToSymtabIndex s.kind.flavor) = none :=
      congrArg _ h
    simp only [hx]
    split <;> rfl

/-- A statement that names a fresh alias binds it, further down its chain. -/
theorem Bound.bind {P : List (AliasActual ν)} {words : δ → Word δ} (h : Bound S P words)
    (hP : ∀ s ∈ P, found S s = true) {s : AliasActual ν} {a x : δ} (ha : aliasOf S s = some a)
    (hx : actualOf S s = some x) (halias : IsAlias S a) (hfresh : ∀ t ∈ P, aliasOf S t ≠ some a) :
    resolveAliasactual S words s =
        ⟨.success, Function.update words a (.datum (followAlias S words x))⟩ ∧
      Bound S (P ++ [s]) (Function.update words a (.datum (followAlias S words x))) := by
  have hnull : words a = .null := (h.rest a hfresh).trans (initialWords_of_isAlias halias)
  have hsub : P ⊆ P ++ [s] := List.subset_append_left P [s]
  have hchain : ReflTransGen (Binds S (P ++ [s])) x (followAlias S words x) := by
    unfold followAlias
    split_ifs with hfx
    · split
      · rename_i c hc
        have hnamed : ∃ t ∈ P, aliasOf S t = some x := by
          by_contra hnone
          push Not at hnone
          exact initialWords_ne_datum x c ((h.rest x hnone).symm.trans hc)
        obtain ⟨t, ht, htx⟩ := hnamed
        obtain ⟨_, y, htx', hty⟩ := found_iff.mp (hP t ht)
        have hb : Binds S P x y := ⟨t, ht, htx, hty⟩
        obtain ⟨c', hc', hyc⟩ := h.named x y hb
        obtain rfl := Word.datum.inj (hc'.symm.trans hc)
        exact ReflTransGen.head (hb.mono hsub)
          (reaches_mono hsub hyc)
      · exact ReflTransGen.refl
    · exact ReflTransGen.refl
  refine ⟨?_, ?_, ?_⟩
  · rw [resolveAliasactual_found words ha hx, followAlias_null hnull]
    exact if_neg (not_not.mpr hnull)
  · rintro b y ⟨t, ht, htb, hty⟩
    by_cases hb : b = a
    · subst hb
      rcases List.mem_append.mp ht with ht | ht
      · exact absurd htb (hfresh t ht)
      · obtain rfl := List.mem_singleton.mp ht
        obtain rfl := Option.some.inj (hx.symm.trans hty)
        exact ⟨_, Function.update_self _ _ _, hchain⟩
    · rcases List.mem_append.mp ht with ht | ht
      · obtain ⟨c, hc, hyc⟩ := h.named b y ⟨t, ht, htb, hty⟩
        exact ⟨c, by rw [Function.update_of_ne hb, hc], reaches_mono hsub hyc⟩
      · obtain rfl := List.mem_singleton.mp ht
        exact absurd (Option.some.inj (htb.symm.trans ha)) hb
  · intro d hd
    have hda : d ≠ a := by
      intro he
      exact hd s (by simp) (he ▸ ha)
    rw [Function.update_of_ne hda]
    exact h.rest d fun t ht => hd t (hsub ht)

/-- The first pass binds every statement it reaches. -/
theorem aliasPass1_spec {P Q : List (AliasActual ν)} {words : δ → Word δ} (h : Bound S P words)
    (hP : ∀ s ∈ P, found S s = true) (hdistinct : Distinct S (P ++ reached S Q)) :
    Bound S (P ++ reached S Q) (aliasPass1 S words Q).words ∧
      ((aliasPass1 S words Q).verdict = .success ∧ reached S Q = Q ∨
        (aliasPass1 S words Q).verdict = .failure .enoent ∧ reached S Q ≠ Q) := by
  induction Q generalizing P words with
  | nil => simpa [aliasPass1, reached] using h
  | cons s rest ih =>
    cases hs : found S s with
    | false =>
      have hr : reached S (s :: rest) = [] := List.takeWhile_cons_of_neg (by simp [hs])
      rw [hr, List.append_nil]
      simp only [aliasPass1, resolveAliasactual_not_found words hs]
      exact ⟨h, Or.inr (by simp)⟩
    | true =>
      have hr : reached S (s :: rest) = s :: reached S rest := List.takeWhile_cons_of_pos hs
      obtain ⟨a, x, ha, hx⟩ := found_iff.mp hs
      rw [hr] at hdistinct
      have halias := hdistinct.alias_named s (by simp) a ha
      have hfresh : ∀ t ∈ P, aliasOf S t ≠ some a := by
        intro t ht
        have := (List.pairwise_append.mp hdistinct.once).2.2 t ht s List.mem_cons_self
        rwa [ha] at this
      obtain ⟨hres, hbound⟩ := h.bind hP ha hx halias hfresh
      have hP' : ∀ t ∈ P ++ [s], found S t = true := by
        intro t ht
        rcases List.mem_append.mp ht with ht | ht
        · exact hP t ht
        · rw [List.mem_singleton.mp ht]
          exact hs
      have hrec := ih hbound hP' (by simpa using hdistinct)
      simp only [aliasPass1, hres, hr]
      simpa using hrec

/-- The declaration that a statement binds `a` to. -/
def boundTo (stmts : List (AliasActual ν)) (a : δ) : Option δ :=
  (stmts.find? fun s => aliasOf S s = some a).bind (actualOf S)

theorem boundTo_eq_some {P : List (AliasActual ν)} (h : Distinct S P) {a x : δ} :
    boundTo (S := S) P a = some x ↔ Binds S P a x := by
  induction P with
  | nil => simp [boundTo, Binds]
  | cons s P ih =>
    by_cases ha : aliasOf S s = some a
    · have hfirst : boundTo (S := S) (s :: P) a = actualOf S s := by simp [boundTo, ha]
      rw [hfirst]
      constructor
      · exact fun hx => ⟨s, List.mem_cons_self, ha, hx⟩
      · rintro ⟨t, ht, hta, hx⟩
        rcases List.mem_cons.mp ht with rfl | ht
        · exact hx
        · exact absurd (ha.trans hta.symm) ((List.pairwise_cons.mp h.once).1 t ht)
    · have hskip : boundTo (S := S) (s :: P) a = boundTo (S := S) P a := by simp [boundTo, ha]
      rw [hskip, ih h.tail]
      constructor
      · exact Binds.mono (List.subset_cons_self s P)
      · rintro ⟨t, ht, hta, hx⟩
        rcases List.mem_cons.mp ht with rfl | ht
        · exact absurd hta ha
        · exact ⟨t, ht, hta, hx⟩

private theorem boundTo_eq_none {P : List (AliasActual ν)} (hP : ∀ s ∈ P, found S s = true)
    {a : δ} :
    boundTo (S := S) P a = none ↔ ∀ s ∈ P, aliasOf S s ≠ some a := by
  cases hfind : P.find? (fun s => aliasOf S s = some a) with
  | none =>
    simp only [boundTo, hfind, Option.bind_none, true_iff]
    simpa using hfind
  | some s =>
    have hs := List.mem_of_find?_eq_some hfind
    have ha : aliasOf S s = some a := by simpa using List.find?_some hfind
    obtain ⟨_, x, _, hx⟩ := found_iff.mp (hP s hs)
    simp only [boundTo, hfind, Option.bind_some, hx]
    constructor
    · intro h
      cases h
    · intro h
      exact absurd ha (h s hs)

theorem next_boundTo {P : List (AliasActual ν)} (h : Distinct S P) :
    Next (boundTo (S := S) P) = Binds S P := by
  ext a x
  exact boundTo_eq_some h

/-- Following words is a shortcut on the chain of statements. -/
private theorem Bound.shortcuts {P : List (AliasActual ν)} {words : δ → Word δ}
    (h : Bound S P words)
    (hP : ∀ s ∈ P, found S s = true) (hdistinct : Distinct S P) {flavor : Flavor}
    (hflavor : isAlias flavor = false) :
    Shortcuts (boundTo (S := S) P) (nextActual S words flavor) := by
  constructor
  · intro a ha
    have hinit := h.rest a ((boundTo_eq_none hP).mp ha)
    unfold nextActual
    split_ifs
    · rfl
    · split
      · rename_i x hx
        exact absurd (hinit.symm.trans hx) (initialWords_ne_datum a x)
      · rfl
  · intro a x hx
    have hb := (boundTo_eq_some hdistinct).mp hx
    obtain ⟨c, hc, hxc⟩ := h.named a x hb
    obtain ⟨s, hs, ha, _⟩ := hb
    have halias : isAlias (S.flavor a) = true := hdistinct.alias_named s hs a ha
    have hne : S.flavor a ≠ flavor := by
      intro he
      rw [he, hflavor] at halias
      cases halias
    refine ⟨c, ?_, next_boundTo hdistinct ▸ hxc⟩
    simp [nextActual, hne, hc]

/-- The declarations whose words can be followed are the aliases of the statements. -/
def boundAliases (stmts : List (AliasActual ν)) : Finset δ :=
  (stmts.filterMap (aliasOf S)).toFinset

private theorem card_boundAliases_le (P : List (AliasActual ν)) :
    (boundAliases (S := S) P).card ≤ P.length :=
  (List.toFinset_card_le _).trans (List.length_filterMap_le _ _)

private theorem Bound.mem_boundAliases {P : List (AliasActual ν)} {words : δ → Word δ}
    (h : Bound S P words) (flavor : Flavor) (a : δ) (ha : nextActual S words flavor a ≠ none) :
    a ∈ boundAliases (S := S) P := by
  by_contra hnot
  have hfresh : ∀ s ∈ P, aliasOf S s ≠ some a := by
    intro s hs hsa
    exact hnot (List.mem_toFinset.mpr (List.mem_filterMap.mpr ⟨s, hs, hsa⟩))
  have hinit := h.rest a hfresh
  apply ha
  unfold nextActual
  split_ifs
  · rfl
  · split
    · rename_i x hx
      exact absurd (hinit.symm.trans hx) (initialWords_ne_datum a x)
    · rfl

/-- The chain of statements of `a` stops at `z`, another declaration. -/
def Stops (stmts : List (AliasActual ν)) (a z : δ) : Prop :=
  TransGen (Binds S stmts) a z ∧ ∀ x, ¬ Binds S stmts z x

section Fates

variable {P : List (AliasActual ν)} (hdistinct : Distinct S P)
include hdistinct

theorem endsIn_of_stops {a z : δ} (h : Stops (S := S) P a z) :
    ∃ n, EndsIn (boundTo (S := S) P) (n + 1) a z := by
  have hz : boundTo (S := S) P z = none := by
    cases hb : boundTo (S := S) P z with
    | none => rfl
    | some x => exact absurd ((boundTo_eq_some hdistinct).mp hb) (h.2 x)
  obtain ⟨b, hab, hbz⟩ := TransGen.head'_iff.mp h.1
  rw [← next_boundTo hdistinct] at hab hbz
  obtain ⟨n, hn⟩ := endsIn_of_reaches hbz hz
  exact ⟨n, EndsIn.step hab hn⟩

private theorem stops_of_endsIn {n : Nat} {a z : δ} (h : EndsIn (boundTo (S := S) P) (n + 1) a z) :
    Stops (S := S) P a z := by
  cases h with
  | step hab ht =>
    have hreach := ht.reaches
    rw [next_boundTo hdistinct] at hreach
    refine ⟨TransGen.head' ((boundTo_eq_some hdistinct).mp hab) hreach, fun x hx => ?_⟩
    rw [← boundTo_eq_some hdistinct, ht.last] at hx
    cases hx

private theorem stops_unique {a y z : δ} (h : Stops (S := S) P a y) (h' : Stops (S := S) P a z) :
    y = z := by
  obtain ⟨m, hm⟩ := endsIn_of_stops hdistinct h
  obtain ⟨n, hn⟩ := endsIn_of_stops hdistinct h'
  exact (hm.unique hn).2

private theorem cyclic_iff_circular {a : δ} : Cyclic (boundTo (S := S) P) a ↔ Circular S P a := by
  unfold Cyclic
  rw [next_boundTo hdistinct]
  exact Iff.rfl

theorem not_circular_of_stops {a z : δ} (h : Stops (S := S) P a z) : ¬ Circular S P a := by
  obtain ⟨n, hn⟩ := endsIn_of_stops hdistinct h
  rw [← cyclic_iff_circular hdistinct]
  exact hn.not_cyclic

theorem not_bad_of_stops {a z : δ} (h : Stops (S := S) P a z) :
    ¬ (Unbound S P a ∨ Circular S P a) := by
  rintro (⟨_, hfresh⟩ | hcirc)
  · obtain ⟨_, ⟨s, hs, hsa, _⟩, _⟩ := TransGen.head'_iff.mp h.1
    exact hfresh s hs hsa
  · exact not_circular_of_stops hdistinct h hcirc

/-- An alias may be pointed at the end of its chain. -/
theorem Bound.update {words : δ → Word δ} (h : Bound S P words) {a t : δ}
    (ht : Stops (S := S) P a t) : Bound S P (Function.update words a (.datum t)) := by
  constructor
  · intro b x hb
    by_cases hba : b = a
    · subst hba
      refine ⟨t, Function.update_self _ _ _, ?_⟩
      obtain ⟨y, hby, hyt⟩ := TransGen.head'_iff.mp ht.1
      rw [← boundTo_eq_some hdistinct] at hb hby
      obtain rfl := Option.some.inj (hb.symm.trans hby)
      exact hyt
    · rw [Function.update_of_ne hba]
      exact h.named b x hb
  · intro d hd
    obtain ⟨y, ⟨s, hs, ha, _⟩, _⟩ := TransGen.head'_iff.mp ht.1
    have hda : d ≠ a := by
      intro he
      exact hd s hs (he ▸ ha)
    rw [Function.update_of_ne hda]
    exact h.rest d hd

/-- The chain of an alias is empty, stops somewhere or runs into a cycle. -/
private theorem stops_or_circular (hP : ∀ s ∈ P, found S s = true) (a : δ) :
    (∀ s ∈ P, aliasOf S s ≠ some a) ∨ (∃ z, Stops (S := S) P a z) ∨ Circular S P a := by
  have hS : ∀ x, boundTo (S := S) P x ≠ none → x ∈ boundAliases (S := S) P := by
    intro x hx
    rw [Ne, boundTo_eq_none hP] at hx
    push Not at hx
    obtain ⟨t, ht, hta⟩ := hx
    exact List.mem_toFinset.mpr (List.mem_filterMap.mpr ⟨t, ht, hta⟩)
  rcases endsIn_or_cyclic hS a with ⟨n, z, h⟩ | h
  · cases n with
    | zero =>
      cases h with
      | stop hz => exact Or.inl ((boundTo_eq_none hP).mp hz)
    | succ n => exact Or.inr (Or.inl ⟨z, stops_of_endsIn hdistinct h⟩)
  · exact Or.inr (Or.inr ((cyclic_iff_circular hdistinct).mp h))

/-- The second pass treats an alias as the fate of its chain of statements demands. -/
private theorem resolveAliasToActual_spec (hP : ∀ s ∈ P, found S s = true) {words : δ → Word δ}
    (h : Bound S P words) {a : δ} {flavor : Flavor}
    (ha : actualFlavor (S.flavor a) = some flavor) :
    (∃ t, Stops (S := S) P a t ∧ RightKind S a t ∧
        resolveAliasToActual S (6 * (P.length + 2)) words a flavor =
          some ⟨.success, Function.update words a (.datum t)⟩) ∨
      ((Unbound S P a ∨ Circular S P a) ∧
        resolveAliasToActual S (6 * (P.length + 2)) words a flavor =
          some ⟨.failure .err, words⟩) ∨
      (Stray S P a ∧
        resolveAliasToActual S (6 * (P.length + 2)) words a flavor = some ⟨.crash, words⟩) := by
  have halias : IsAlias S a := by simp [IsAlias, isAlias, ha]
  have hshort := h.shortcuts hP hdistinct (isAlias_of_actualFlavor ha)
  have hsupport := h.mem_boundAliases flavor
  have hcard : (boundAliases (S := S) P).card + 2 ≤ P.length + 2 :=
    Nat.add_le_add_right (card_boundAliases_le P) 2
  rcases stops_or_circular hdistinct hP a with hfresh | ⟨z, hz⟩ | hcirc
  · refine Or.inr (Or.inl ⟨Or.inl ⟨halias, hfresh⟩, ?_⟩)
    have hnull : words a = .null := (h.rest a hfresh).trans (initialWords_of_isAlias halias)
    simp [resolveAliasToActual, hnull]
  · obtain ⟨n, hn⟩ := endsIn_of_stops hdistinct hz
    obtain ⟨m, hm⟩ := hshort.endsIn hn
    have hwalk := doublingWalk_eq_end hsupport hcard hm
    have hnull := h.ne_null hz.1
    by_cases hkind : S.flavor z = flavor
    · exact Or.inl ⟨z, hz, by rw [RightKind, ha, hkind],
        by simp [resolveAliasToActual, hnull, hwalk, hkind]⟩
    · refine Or.inr (Or.inr ⟨⟨z, hz.1, hz.2, ?_⟩, ?_⟩)
      · rw [RightKind, ha]
        exact fun he => hkind (Option.some.inj he).symm
      · simp [resolveAliasToActual, hnull, hwalk, hkind]
  · refine Or.inr (Or.inl ⟨Or.inr hcirc, ?_⟩)
    obtain ⟨b, hab⟩ := hcirc.transGen
    have hnull := h.ne_null hab
    have hwalk : doublingWalk (nextActual S words flavor) (6 * (P.length + 2)) a a 0 2 =
        some none := by
      apply doublingWalk_eq_circular hsupport hcard
      intro n z hn
      obtain ⟨m, hm⟩ := hshort.of_endsIn hn
      exact hm.not_cyclic ((cyclic_iff_circular hdistinct).mpr hcirc)
    simp [resolveAliasToActual, hnull, hwalk]

end Fates

/-- The alias `a` has the end of its chain as its actual, and that end is of its kind. -/
def Ended (P : List (AliasActual ν)) (words : δ → Word δ) (a : δ) : Prop :=
  ∃ t, words a = .datum t ∧ Stops (S := S) P a t ∧ RightKind S a t

theorem Ended.update {P : List (AliasActual ν)} (hdistinct : Distinct S P) {words : δ → Word δ}
    {a b t : δ} (hb : Ended (S := S) P words b) (ht : Stops (S := S) P a t) :
    Ended (S := S) P (Function.update words a (.datum t)) b := by
  obtain ⟨u, hu, hbu, hkind⟩ := hb
  by_cases hba : b = a
  · subst hba
    obtain rfl := stops_unique hdistinct hbu ht
    exact ⟨u, Function.update_self _ _ _, hbu, hkind⟩
  · exact ⟨u, by rw [Function.update_of_ne hba, hu], hbu, hkind⟩

/-- How the second pass can come to an end: with every alias at the end of its chain, at an
unbound or circular alias, or at a stray one. Aliases before that point are none of these. -/
inductive Outcome (P : List (AliasActual ν)) (decls : List δ) (r : Ran δ) : Prop
  | success : r.verdict = .success → (∀ a ∈ decls, IsAlias S a → Ended (S := S) P r.words a) →
      Outcome P decls r
  | failure (pre post : List δ) (b : δ) : r.verdict = .failure .err → decls = pre ++ b :: post →
      IsAlias S b → Unbound S P b ∨ Circular S P b →
      (∀ a ∈ pre, IsAlias S a → ¬ Stray S P a) → Outcome P decls r
  | crash (pre post : List δ) (a : δ) : r.verdict = .crash → decls = pre ++ a :: post →
      IsAlias S a → Stray S P a →
      (∀ b ∈ pre, IsAlias S b → ¬ (Unbound S P b ∨ Circular S P b)) → Outcome P decls r

theorem Outcome.cons {P : List (AliasActual ν)} {decls : List δ} {r : Ran δ} {d : δ}
    (h : Outcome (S := S) P decls r)
    (hd : IsAlias S d → ∃ t, Stops (S := S) P d t ∧ RightKind S d t)
    (hended : IsAlias S d → Ended (S := S) P r.words d) (hdistinct : Distinct S P) :
    Outcome (S := S) P (d :: decls) r := by
  cases h with
  | success hv hall =>
    refine Outcome.success hv fun a ha halias => ?_
    rcases List.mem_cons.mp ha with rfl | ha
    · exact hended halias
    · exact hall a ha halias
  | failure pre post b hv hdecls halias hb hpre =>
    refine Outcome.failure (d :: pre) post b hv (by rw [hdecls]; rfl) halias hb ?_
    intro a ha haalias
    rcases List.mem_cons.mp ha with rfl | ha
    · rintro ⟨z, hz, hstop, hkind⟩
      obtain ⟨t, ht, htkind⟩ := hd haalias
      obtain rfl := stops_unique hdistinct ht ⟨hz, hstop⟩
      exact hkind htkind
    · exact hpre a ha haalias
  | crash pre post a hv hdecls halias ha hpre =>
    refine Outcome.crash (d :: pre) post a hv (by rw [hdecls]; rfl) halias ha ?_
    intro b hb hbalias
    rcases List.mem_cons.mp hb with rfl | hb
    · obtain ⟨t, ht, _⟩ := hd hbalias
      exact not_bad_of_stops hdistinct ht
    · exact hpre b hb hbalias

/-- The second pass never runs out of fuel. -/
theorem aliasPass2_spec {P : List (AliasActual ν)} (hdistinct : Distinct S P)
    (hP : ∀ s ∈ P, found S s = true) (decls : List δ) {words : δ → Word δ}
    (h : Bound S P words) :
    ∃ r, aliasPass2 S (6 * (P.length + 2)) words decls = some r ∧ Bound S P r.words ∧
      Outcome (S := S) P decls r ∧
      ∀ a, Ended (S := S) P words a → Ended (S := S) P r.words a := by
  induction decls generalizing words with
  | nil => exact ⟨_, rfl, h, Outcome.success rfl (by simp), fun a ha => ha⟩
  | cons d rest ih =>
    cases hd : actualFlavor (S.flavor d) with
    | none =>
      obtain ⟨r, hr, hbound, hout, hmono⟩ := ih h
      have hnot : ¬ IsAlias S d := by simp [IsAlias, isAlias, hd]
      refine ⟨r, by simpa only [aliasPass2, hd] using hr, hbound, ?_, hmono⟩
      exact hout.cons (fun halias => absurd halias hnot) (fun halias => absurd halias hnot)
        hdistinct
    | some flavor =>
      have halias : IsAlias S d := by simp [IsAlias, isAlias, hd]
      rcases resolveAliasToActual_spec hdistinct hP h hd with
        ⟨t, ht, hkind, hres⟩ | ⟨hbad, hres⟩ | ⟨hstray, hres⟩
      · obtain ⟨r, hr, hbound, hout, hmono⟩ := ih (h.update hdistinct ht)
        have hended : Ended (S := S) P (Function.update words d (.datum t)) d :=
          ⟨t, Function.update_self _ _ _, ht, hkind⟩
        refine ⟨r, by simpa only [aliasPass2, hd, hres] using hr, hbound, ?_, ?_⟩
        · exact hout.cons (fun _ => ⟨t, ht, hkind⟩) (fun _ => hmono d hended) hdistinct
        · exact fun a ha => hmono a (ha.update hdistinct ht)
      · refine ⟨⟨.failure .err, words⟩, by simp only [aliasPass2, hd, hres], h, ?_, fun a ha => ha⟩
        exact Outcome.failure [] rest d rfl rfl halias hbad (by simp)
      · refine ⟨⟨.crash, words⟩, by simp only [aliasPass2, hd, hres], h, ?_, fun a ha => ha⟩
        exact Outcome.crash [] rest d rfl rfl halias hstray (by simp)

end Cil.Resolve.Alias
