/- Cil/Resolve/AliasSoundness
   digest: When the alias passes bind each alias to the end of its chain of statements. -/

import Mathlib.Data.List.Count
import Cil.Resolve.AliasChains

set_option autoImplicit false
set_option relaxedAutoImplicit false

namespace Cil.Resolve.Alias

open Relation
open Cil.Library.Chain

variable {δ ν : Type} (S : Scope δ ν)

def timesBound [DecidableEq δ] (stmts : List (AliasActual ν)) (a : δ) : Nat :=
  stmts.countP fun s => aliasOf S s = some a

/-- What is to be reported about a set of declarations and alias statements. -/
inductive Defective [DecidableEq δ] (decls : List δ) (stmts : List (AliasActual ν)) : Prop
  | boundTwice (a : δ) : IsAlias S a → 1 < timesBound S stmts a → Defective decls stmts
  | circular (a : δ) : a ∈ decls → IsAlias S a → Circular S stmts a → Defective decls stmts
  | unbound (a b : δ) : a ∈ decls → IsAlias S a → ReflTransGen (Binds S stmts) a b →
      Unbound S stmts b → Defective decls stmts
  | wrongKind (a z : δ) : a ∈ decls → IsAlias S a → ReflTransGen (Binds S stmts) a z →
      ¬ IsAlias S z → ¬ RightKind S a z → Defective decls stmts

/-- The alias passes did what they are for. -/
structure Sound [DecidableEq δ] (decls : List δ) (stmts : List (AliasActual ν)) (r : Ran δ) :
    Prop where
  bound : r.verdict = .success → ∀ a ∈ decls, IsAlias S a →
    timesBound S stmts a = 1 ∧ ∃ t, r.words a = .datum t ∧ RightKind S a t ∧
      TransGen (Binds S stmts) a t ∧ ∀ z, TransGen (Binds S stmts) a z → ¬ IsAlias S z → z = t
  reported : Defective S decls stmts → ∃ rc, r.verdict = .failure rc
  unchanged : ∀ d, ¬ IsAlias S d → r.words d = initialWords S d

/-- An alias that is unbound itself or circular comes before every stray one. -/
def Orderly (decls : List δ) (stmts : List (AliasActual ν)) : Prop :=
  reached S stmts = stmts → ∀ pre a post, decls = pre ++ a :: post → IsAlias S a →
    Stray S stmts a → ∃ b ∈ pre, IsAlias S b ∧ (Unbound S stmts b ∨ Circular S stmts b)

variable {S}

private theorem RightKind.not_isAlias {a t : δ} (h : RightKind S a t) : ¬ IsAlias S t := by
  have := isAlias_of_actualFlavor h
  simp [IsAlias, this]

/-- At most `N` declarations have a word that can be followed. -/
def Supported (N : Nat) (words : δ → Word δ) : Prop :=
  ∃ T : Finset δ, T.card ≤ N ∧ ∀ d x, words d = .datum x → d ∈ T

theorem Supported.succ {N : Nat} {words : δ → Word δ} (h : Supported N words) :
    Supported (N + 1) words := by
  obtain ⟨T, hT, hmem⟩ := h
  exact ⟨T, by omega, hmem⟩

private theorem supported_initialWords : Supported 0 (initialWords S) :=
  ⟨∅, by simp, fun d x h => absurd h (initialWords_ne_datum d x)⟩

variable [DecidableEq δ]

private theorem resolveAliasactual_words (words : δ → Word δ) (s : AliasActual ν) :
    (resolveAliasactual S words s).words = words ∨
      ∃ d x, words d = .null ∧
        (resolveAliasactual S words s).words = Function.update words d (.datum x) := by
  cases hs : found S s with
  | false =>
    rw [resolveAliasactual_not_found words hs]
    exact Or.inl rfl
  | true =>
    obtain ⟨a, x, ha, hx⟩ := found_iff.mp hs
    rw [resolveAliasactual_found words ha hx]
    split_ifs with hnull
    · exact Or.inl rfl
    · exact Or.inr ⟨_, _, not_not.mp hnull, rfl⟩

theorem Supported.update {N : Nat} {words : δ → Word δ} (h : Supported N words) (d x : δ) :
    Supported (N + 1) (Function.update words d (.datum x)) := by
  obtain ⟨T, hT, hmem⟩ := h
  refine ⟨insert d T, (Finset.card_insert_le d T).trans (Nat.add_le_add_right hT 1), ?_⟩
  intro e y he
  by_cases hed : e = d
  · exact hed ▸ Finset.mem_insert_self d T
  · rw [Function.update_of_ne hed] at he
    exact Finset.mem_insert_of_mem (hmem e y he)

private theorem resolveAliasactual_supported {N : Nat} {words : δ → Word δ} (h : Supported N words)
    (s : AliasActual ν) : Supported (N + 1) (resolveAliasactual S words s).words := by
  rcases resolveAliasactual_words (S := S) words s with he | ⟨d, x, _, he⟩ <;> rw [he]
  · exact h.succ
  · exact h.update d x

private theorem aliasPass1_supported {N : Nat} {words : δ → Word δ} (h : Supported N words)
    (stmts : List (AliasActual ν)) :
    Supported (N + stmts.length) (aliasPass1 S words stmts).words := by
  induction stmts generalizing N words with
  | nil => exact h
  | cons s rest ih =>
    have hs := resolveAliasactual_supported (S := S) h s
    have hrest := ih hs
    rw [List.length_cons, show N + (rest.length + 1) = N + 1 + rest.length by omega]
    simp only [aliasPass1]
    split
    · exact hrest
    · obtain ⟨T, hT, hmem⟩ := hs
      exact ⟨T, by omega, hmem⟩

/-- The loop of the second pass always comes to an end, whatever the first pass wrote. -/
private theorem aliasPass2_isSome {N : Nat} (decls : List δ) {words : δ → Word δ}
    (h : Supported N words) : ∃ r, aliasPass2 S (6 * (N + 2)) words decls = some r := by
  induction decls generalizing words with
  | nil => exact ⟨_, rfl⟩
  | cons d rest ih =>
    cases hd : actualFlavor (S.flavor d) with
    | none =>
      obtain ⟨r, hr⟩ := ih h
      exact ⟨r, by simpa only [aliasPass2, hd] using hr⟩
    | some flavor =>
      have hne : S.flavor d ≠ flavor := by
        intro he
        have := isAlias_of_actualFlavor hd
        rw [← he, isAlias, hd] at this
        cases this
      obtain ⟨T, hT, hmem⟩ := h
      have hsupport : ∀ x, nextActual S words flavor x ≠ none → x ∈ T := by
        intro x hx
        unfold nextActual at hx
        split_ifs at hx
        · exact absurd rfl hx
        · cases hw : words x with
          | datum y => exact hmem x y hw
          | null => simp [hw] at hx
          | other => simp [hw] at hx
      obtain ⟨w, hw⟩ := doublingWalk_isSome hsupport (Nat.add_le_add_right hT 2) d
      simp only [aliasPass2, hd, resolveAliasToActual]
      by_cases hnull : words d = .null
      · simp [hnull]
      · cases w with
        | none => simp [hnull, hw]
        | some z =>
          by_cases hz : S.flavor z = flavor
          · have hstep : ∃ y, words d = .datum y := by
              obtain ⟨n, hn⟩ := endsIn_of_doublingWalk hw
              cases hn with
              | stop _ => exact absurd hz hne
              | step hs _ =>
                simp only [nextActual, if_neg hne] at hs
                cases hwd : words d with
                | datum y => exact ⟨y, rfl⟩
                | null => exact absurd hwd hnull
                | other => simp [hwd] at hs
            obtain ⟨y, hy⟩ := hstep
            have hsupp : Supported N (Function.update words d (.datum z)) := by
              refine ⟨T, hT, fun e x he => ?_⟩
              by_cases hed : e = d
              · exact hed ▸ hmem d y hy
              · rw [Function.update_of_ne hed] at he
                exact hmem e x he
            obtain ⟨r, hr⟩ := ih hsupp
            exact ⟨r, by simpa [hy, hw, hz] using hr⟩
          · simp [hnull, hw, hz]

/-- The first pass only writes words that are null. -/
private theorem aliasPass1_of_ne_null {words : δ → Word δ} {d : δ} (h : words d ≠ .null)
    (stmts : List (AliasActual ν)) : (aliasPass1 S words stmts).words d = words d := by
  induction stmts generalizing words with
  | nil => rfl
  | cons s rest ih =>
    have hs : (resolveAliasactual S words s).words d = words d := by
      rcases resolveAliasactual_words (S := S) words s with he | ⟨e, x, hnull, he⟩ <;> rw [he]
      apply Function.update_of_ne
      intro hde
      exact h (hde ▸ hnull)
    simp only [aliasPass1]
    split
    · rw [ih (hs ▸ h), hs]
    · exact hs

private theorem reached_of_aliasPass1 {words : δ → Word δ} {stmts : List (AliasActual ν)}
    (h : (aliasPass1 S words stmts).verdict = .success) : reached S stmts = stmts := by
  induction stmts generalizing words with
  | nil => rfl
  | cons s rest ih =>
    cases hs : found S s with
    | false => simp [aliasPass1, resolveAliasactual_not_found words hs] at h
    | true =>
      rw [reached, List.takeWhile_cons_of_pos hs]
      simp only [aliasPass1] at h
      split at h
      · exact congrArg _ (ih h)
      · rename_i hv
        exact absurd h hv

/-- A statement that names no alias leaves a word behind in what it names. -/
private theorem aliasPass1_not_alias {words : δ → Word δ} {stmts : List (AliasActual ν)}
    (h : (aliasPass1 S words stmts).verdict = .success) {s : AliasActual ν} (hs : s ∈ stmts)
    {d : δ} (hd : aliasOf S s = some d) (hnot : ¬ IsAlias S d) :
    words d = .null ∧ (aliasPass1 S words stmts).words d ≠ .null := by
  induction stmts generalizing words with
  | nil => cases hs
  | cons t rest ih =>
    have hall := reached_of_aliasPass1 h
    simp only [aliasPass1] at h ⊢
    split at h
    · rename_i hv
      rcases List.mem_cons.mp hs with rfl | hs
      · have hfound : found S s = true := by
          by_contra hf
          rw [reached, List.takeWhile_cons_of_neg hf] at hall
          cases hall
        obtain ⟨_, x, _, hx⟩ := found_iff.mp hfound
        have hres := resolveAliasactual_found words hd hx
        rw [followAlias_of_not_isAlias hnot] at hres
        by_cases hnull : words d = .null
        · rw [if_neg (not_not.mpr hnull)] at hres
          refine ⟨hnull, ?_⟩
          rw [aliasPass1_of_ne_null] <;> simp [hres]
        · rw [if_pos hnull] at hres
          rw [hres] at hv
          cases hv
      · obtain ⟨hnull, hfinal⟩ := ih h hs
        refine ⟨?_, hfinal⟩
        rcases resolveAliasactual_words (S := S) words t with he | ⟨e, x, he, hupd⟩
        · rwa [he] at hnull
        · rw [hupd] at hnull
          by_cases hde : d = e
          · rw [hde, Function.update_self] at hnull
            cases hnull
          · rwa [Function.update_of_ne hde] at hnull
    · rename_i hv
      exact absurd h hv

private theorem resolveAliasToActual_words {fuel : Nat} {words : δ → Word δ} {a : δ}
    {flavor : Flavor}
    {r : Ran δ} (h : resolveAliasToActual S fuel words a flavor = some r) {d : δ} (hd : d ≠ a) :
    r.words d = words d := by
  unfold resolveAliasToActual at h
  split_ifs at h
  · cases h
    rfl
  · split at h
    · cases h
    · cases h
      rfl
    · split_ifs at h
      · cases h
        exact Function.update_of_ne hd _ _
      · cases h
        rfl

/-- The second pass only writes aliases. -/
private theorem aliasPass2_not_alias {fuel : Nat} {words : δ → Word δ} {decls : List δ} {r : Ran δ}
    (h : aliasPass2 S fuel words decls = some r) {d : δ} (hd : ¬ IsAlias S d) :
    r.words d = words d := by
  induction decls generalizing words with
  | nil =>
    cases h
    rfl
  | cons e rest ih =>
    cases he : actualFlavor (S.flavor e) with
    | none =>
      simp only [aliasPass2, he] at h
      exact ih h
    | some flavor =>
      have hde : d ≠ e := by
        intro hde
        exact hd (by simp [hde, IsAlias, isAlias, he])
      simp only [aliasPass2, he] at h
      split at h
      · cases h
      · rename_i r' hr'
        have hwords := resolveAliasToActual_words hr' hde
        split at h
        · rw [ih h, hwords]
        · cases h
          exact hwords

private theorem pairwise_of_timesBound_le {P : List (AliasActual ν)}
    (hP : ∀ s ∈ P, found S s = true)
    (h : ∀ a, timesBound S P a ≤ 1) : P.Pairwise fun s t => aliasOf S s ≠ aliasOf S t := by
  induction P with
  | nil => exact List.Pairwise.nil
  | cons s P ih =>
    obtain ⟨a, _, ha, _⟩ := found_iff.mp (hP s List.mem_cons_self)
    have htail : ∀ b, timesBound S P b ≤ 1 := by
      intro b
      have hle : timesBound S P b ≤ timesBound S (s :: P) b :=
        (List.sublist_cons_self s P).countP_le
      exact hle.trans (h b)
    refine List.pairwise_cons.mpr ⟨fun t ht he => ?_,
      ih (fun t ht => hP t (List.mem_cons_of_mem s ht)) htail⟩
    have hpos : 0 < timesBound S P a :=
      List.countP_pos_iff.mpr ⟨t, ht, by simp [← he, ha]⟩
    have htwo : timesBound S (s :: P) a = timesBound S P a + 1 := by
      simp [timesBound, ha]
    have := h a
    omega

private theorem Distinct.timesBound_le {P : List (AliasActual ν)} (h : Distinct S P) (a : δ) :
    timesBound S P a ≤ 1 := by
  induction P with
  | nil => simp [timesBound]
  | cons s P ih =>
    have htail := ih h.tail
    by_cases ha : aliasOf S s = some a
    · have hnone : timesBound S P a = 0 := by
        refine List.countP_eq_zero.mpr fun t ht => ?_
        have := (List.pairwise_cons.mp h.once).1 t ht
        rw [ha] at this
        simpa using this.symm
      have hone : timesBound S (s :: P) a = timesBound S P a + 1 := by simp [timesBound, ha]
      omega
    · have hsame : timesBound S (s :: P) a = timesBound S P a := by simp [timesBound, ha]
      omega

private theorem stray_defective {decls : List δ} {P : List (AliasActual ν)}
    (hP : ∀ s ∈ P, found S s = true) {a : δ} (hmem : a ∈ decls) (ha : IsAlias S a)
    (h : Stray S P a) : Defective S decls P := by
  obtain ⟨z, hz, hstop, hkind⟩ := h
  by_cases halias : IsAlias S z
  · refine Defective.unbound a z hmem ha hz.to_reflTransGen ⟨halias, fun s hs hsz => ?_⟩
    obtain ⟨_, x, _, hx⟩ := found_iff.mp (hP s hs)
    exact hstop x ⟨s, hs, hsz, hx⟩
  · exact Defective.wrongKind a z hmem ha hz.to_reflTransGen halias hkind

/-- On a chain that stops every member but the last one is bound. -/
private theorem last_or_binds {P : List (AliasActual ν)} (hdistinct : Distinct S P) {a b t : δ}
    (h : Stops (S := S) P a t) (hab : ReflTransGen (Binds S P) a b) :
    b = t ∨ ∃ s ∈ P, aliasOf S s = some b := by
  obtain ⟨n, hn⟩ := endsIn_of_stops hdistinct h
  rw [← next_boundTo hdistinct] at hab
  obtain ⟨m, _, hm⟩ := hn.of_reaches hab
  cases hm with
  | stop _ => exact Or.inl rfl
  | step hs _ =>
    obtain ⟨s, hs, hb, _⟩ := (boundTo_eq_some hdistinct).mp hs
    exact Or.inr ⟨s, hs, hb⟩

/-- Bound aliases that all end in their kind leave nothing to report. -/
private theorem not_defective_of_ended {decls : List δ} {P : List (AliasActual ν)}
    (hdistinct : Distinct S P) {words : δ → Word δ}
    (h : ∀ a ∈ decls, IsAlias S a → Ended (S := S) P words a) : ¬ Defective S decls P := by
  intro hdef
  cases hdef with
  | boundTwice a _ htwo =>
    have := hdistinct.timesBound_le a
    omega
  | circular a hmem ha hcirc =>
    obtain ⟨t, _, ht, _⟩ := h a hmem ha
    exact not_circular_of_stops hdistinct ht hcirc
  | unbound a b hmem ha hab hb =>
    obtain ⟨t, _, ht, hkind⟩ := h a hmem ha
    rcases last_or_binds hdistinct ht hab with rfl | ⟨s, hs, hsb⟩
    · exact hkind.not_isAlias hb.1
    · exact hb.2 s hs hsb
  | wrongKind a z hmem ha haz hz hnot =>
    obtain ⟨t, _, ht, hkind⟩ := h a hmem ha
    rcases last_or_binds hdistinct ht haz with rfl | ⟨s, hs, hsz⟩
    · exact hnot hkind
    · exact hz (hdistinct.alias_named s hs z hsz)

private theorem words_of_aliasPasses {decls : List δ} {stmts : List (AliasActual ν)} {r : Ran δ}
    (hr : aliasPasses S decls stmts = some r) {d : δ} (hd : ¬ IsAlias S d) :
    r.words d = (aliasPass1 S (initialWords S) stmts).words d := by
  simp only [aliasPasses] at hr
  split at hr
  · exact aliasPass2_not_alias hr hd
  · cases hr
    rfl

private theorem resolveAliasactual_verdict (words : δ → Word δ) (s : AliasActual ν) :
    (resolveAliasactual S words s).verdict ≠ .crash := by
  unfold resolveAliasactual
  simp only
  split
  · simp
  · split
    · simp
    · split_ifs <;> simp

private theorem aliasPass1_verdict (words : δ → Word δ) (stmts : List (AliasActual ν)) :
    (aliasPass1 S words stmts).verdict ≠ .crash := by
  induction stmts generalizing words with
  | nil => simp [aliasPass1]
  | cons s rest ih =>
    simp only [aliasPass1]
    split
    · exact ih _
    · exact resolveAliasactual_verdict words s

private theorem aliasPass1_success_of {decls : List δ} {stmts : List (AliasActual ν)} {r : Ran δ}
    (hr : aliasPasses S decls stmts = some r) (hv : ∀ rc, r.verdict ≠ .failure rc) :
    (aliasPass1 S (initialWords S) stmts).verdict = .success := by
  have hcrash := aliasPass1_verdict (S := S) (initialWords S) stmts
  cases hpass : (aliasPass1 S (initialWords S) stmts).verdict with
  | success => rfl
  | crash => exact absurd hpass hcrash
  | failure rc =>
    simp only [aliasPasses, hpass, Option.some.injEq] at hr
    subst hr
    exact absurd hpass (hv rc)

/-- Sound passes that report no error have met nothing but fresh aliases. -/
private theorem distinct_of_sound {decls : List δ} {stmts : List (AliasActual ν)} {r : Ran δ}
    (hr : aliasPasses S decls stmts = some r) (h : Sound S decls stmts r)
    (hv : ∀ rc, r.verdict ≠ .failure rc) : Distinct S (reached S stmts) := by
  have hpass := aliasPass1_success_of hr hv
  have hall := reached_of_aliasPass1 hpass
  have hP : ∀ s ∈ stmts, found S s = true := by
    intro s hs
    rw [← hall] at hs
    exact List.mem_takeWhile_imp hs
  have hnamed : ∀ s ∈ stmts, ∀ a, aliasOf S s = some a → IsAlias S a := by
    intro s hs a ha
    by_contra hnot
    obtain ⟨hnull, hfinal⟩ := aliasPass1_not_alias hpass hs ha hnot
    rw [← words_of_aliasPasses hr hnot, h.unchanged a hnot] at hfinal
    exact hfinal hnull
  rw [hall]
  refine ⟨hnamed, pairwise_of_timesBound_le hP fun a => ?_⟩
  by_contra htwo
  have hpos : 0 < timesBound S stmts a := by omega
  obtain ⟨s, hs, hsa⟩ := List.countP_pos_iff.mp hpos
  have ha := hnamed s hs a (by simpa using hsa)
  obtain ⟨rc, hrc⟩ := h.reported (Defective.boundTwice a ha (by omega))
  exact hv rc hrc

private theorem sound_iff_orderly_of_outcome {decls : List δ} {P : List (AliasActual ν)} {r : Ran δ}
    (hdistinct : Distinct S P) (hP : ∀ s ∈ P, found S s = true) (hall : reached S P = P)
    (hbound : Bound S P r.words) (hout : Outcome (S := S) P decls r) :
    Sound S decls P r ↔ Orderly S decls P := by
  have hunchanged : ∀ d, ¬ IsAlias S d → r.words d = initialWords S d := fun d hd =>
    hbound.rest d fun s hs hsd => hd (hdistinct.alias_named s hs d hsd)
  cases hout with
  | success hv hended =>
    have hclean := not_defective_of_ended hdistinct hended
    refine iff_of_true ⟨fun _ a ha halias => ?_, fun hdef => absurd hdef hclean, hunchanged⟩
      fun _ pre a post hdecls halias hstray => ?_
    · obtain ⟨t, ht, hstop, hkind⟩ := hended a ha halias
      refine ⟨?_, t, ht, hkind, hstop.1, fun z hz hnot => ?_⟩
      · obtain ⟨_, ⟨s, hs, hsa, _⟩, _⟩ := TransGen.head'_iff.mp hstop.1
        have hpos : 0 < timesBound S P a := List.countP_pos_iff.mpr ⟨s, hs, by simp [hsa]⟩
        have hle := hdistinct.timesBound_le a
        omega
      · rcases last_or_binds hdistinct hstop hz.to_reflTransGen with rfl | ⟨s, hs, hsz⟩
        · rfl
        · exact absurd (hdistinct.alias_named s hs z hsz) hnot
    · exact absurd (stray_defective hP (by simp [hdecls]) halias hstray) hclean
  | failure pre post b hv hdecls hb hbad hpre =>
    refine iff_of_true ⟨fun hs => ?_, fun _ => ⟨.err, hv⟩, hunchanged⟩
      fun _ pre' a post' hdecls' halias hstray => ?_
    · rw [hv] at hs
      cases hs
    · rcases List.append_eq_append_iff.mp (hdecls.symm.trans hdecls') with
        ⟨mid, hpre', hmid⟩ | ⟨mid, hpre', hmid⟩
      · cases mid with
        | nil =>
          obtain rfl := (List.cons.inj hmid).1
          obtain ⟨z, hz, hstop, _⟩ := hstray
          exact absurd hbad (not_bad_of_stops hdistinct ⟨hz, hstop⟩)
        | cons c mid =>
          obtain rfl := (List.cons.inj hmid).1
          exact ⟨b, by simp [hpre'], hb, hbad⟩
      · cases mid with
        | nil =>
          obtain rfl := (List.cons.inj hmid).1
          obtain ⟨z, hz, hstop, _⟩ := hstray
          exact absurd hbad (not_bad_of_stops hdistinct ⟨hz, hstop⟩)
        | cons c mid =>
          obtain rfl := (List.cons.inj hmid).1
          exact absurd hstray (hpre a (by simp [hpre']) halias)
  | crash pre post a hv hdecls halias hstray hpre =>
    refine iff_of_false (fun hs => ?_) fun ho => ?_
    · obtain ⟨rc, hrc⟩ := hs.reported (stray_defective hP (by simp [hdecls]) halias hstray)
      rw [hv] at hrc
      cases hrc
    · obtain ⟨b, hb, hbalias, hbad⟩ := ho hall pre a post hdecls halias hstray
      exact hpre b hb hbalias hbad

/-- With fresh aliases only, the passes are sound exactly on orderly declarations. -/
private theorem sound_iff_orderly {decls : List δ} {stmts : List (AliasActual ν)} {r : Ran δ}
    (hr : aliasPasses S decls stmts = some r) (hdistinct : Distinct S (reached S stmts)) :
    Sound S decls stmts r ↔ Orderly S decls stmts := by
  have hstart : Bound S ([] : List (AliasActual ν)) (initialWords S) :=
    ⟨fun a x ⟨s, hs, _⟩ => absurd hs List.not_mem_nil, fun _ _ => rfl⟩
  obtain ⟨hbound, ⟨hv, hall⟩ | ⟨hv, hnot⟩⟩ :=
    aliasPass1_spec hstart (by simp) (Q := stmts) (by simpa using hdistinct)
  · rw [List.nil_append, hall] at hbound
    rw [hall] at hdistinct
    simp only [aliasPasses, hv] at hr
    have hP : ∀ s ∈ stmts, found S s = true := by
      intro s hs
      rw [← hall] at hs
      exact List.mem_takeWhile_imp hs
    obtain ⟨r', hr', hbound', hout, _⟩ := aliasPass2_spec hdistinct hP decls hbound
    obtain rfl := Option.some.inj (hr.symm.trans hr')
    exact sound_iff_orderly_of_outcome hdistinct hP hall hbound' hout
  · rw [List.nil_append] at hbound
    simp only [aliasPasses, hv, Option.some.injEq] at hr
    subst hr
    have hsound : Sound S decls stmts (aliasPass1 S (initialWords S) stmts) := by
      refine ⟨fun hs => ?_, fun _ => ⟨.enoent, hv⟩, fun d hd => ?_⟩
      · rw [hv] at hs
        cases hs
      · exact hbound.rest d fun s hs hsd => hd (hdistinct.alias_named s hs d hsd)
    exact iff_of_true hsound fun hall => absurd hall hnot

/-- The declarations `(typealias a)`, `(type t)` and `(type u)`. -/
def oneAlias : Scope (Fin 3) Unit where
  flavor d := if d.val = 0 then .typealias else .type
  lookup _ name _ := (["a", "t", "u"].zip (List.finRange 3)).lookup name

end Cil.Resolve.Alias
