/- Cil/Binary/NeverallowSound
   digest: Which allow rules of an accepted policy can violate a neverallow rule. -/

import Cil.Binary.Neverallow
import Cil.ClassPermsExpansion

set_option autoImplicit false
set_option relaxedAutoImplicit false

namespace Cil.Binary.Neverallow

open Cil.Library Cil.ClassPerms

variable {δ P ν ο : Type}

/-- An access: a permission of a class that a source has on a target. -/
structure Access (δ : Type) where
  source : δ
  target : δ
  cls : δ
  perm : δ

/-- A type that has a value of its own, as those outside macros and abstract blocks have. -/
def Db.Numbered (db : Db δ) (t : δ) : Prop := db.valToType (db.value t) = some t

/-- The types that a source or target stands for. -/
def Denotes (db : Db δ) : TypeDatum δ → δ → Prop
  | .type t', t => t = t'
  | .typeattribute a, t => ∃ types i, db.types a = some types ∧ types.getBit i = true ∧
      db.valToType i = some t

def TargetDenotes (db : Db δ) (source t : δ) : Target δ → Prop
  | .self => t = source
  | .datum d => Denotes db d t

/-- The expansion of a rule contains an access. -/
structure Contains (db : Db δ) (r : Avrule δ) (x : Access δ) : Prop where
  source : Denotes db r.src x.source
  target : TargetDenotes db x.source x.target r.tgt
  perm : ∃ items cp, r.classperms = some items ∧ Expands db.classperms items cp ∧
    cp.cls = x.cls ∧ x.perm ∈ cp.perms

/-- An allow rule grants what a neverallow rule forbids. -/
def Violates (db : Db δ) (r n : Avrule δ) : Prop := ∃ x, Contains db r x ∧ Contains db n x

def CondData.avrules : CondData δ ο → List (Avrule δ)
  | .avrule r => [r.1]
  | _ => []

/-- The rules in a conditional block, with those of the macros called there. -/
def CondBlock.avrules (cb : CondBlock δ ο) : List (Avrule δ) :=
  (walkSiblings (fun _ => false) cb.body).flatMap CondData.avrules

/-- The rules of a node, for a booleanif those of all its blocks. -/
def NodeData.avrules : NodeData δ ο → List (Avrule δ)
  | .avrule r => [r]
  | .booleanif _ blocks => blocks.flatMap CondBlock.avrules
  | _ => []

/-- The rules of the policy: those in macros and abstract blocks are not resolved. -/
def avrules (ast : Tree (NodeData δ ο)) : List (Avrule δ) :=
  (ast.walk NodeData.skipHead).flatMap NodeData.avrules

/-- The blocks that another block of the same flavor follows. -/
def shadowed : List (CondBlock δ ο) → List (CondBlock δ ο)
  | [] => []
  | cb :: rest =>
      if rest.any fun cb' => cb'.flavor = cb.flavor then cb :: shadowed rest else shadowed rest

def NodeData.shadowedAvrules : NodeData δ ο → List (Avrule δ)
  | .booleanif _ blocks => (shadowed blocks).flatMap CondBlock.avrules
  | _ => []

/-- The rules in a conditional block that a later block of its booleanif replaces. -/
def shadowedAvrules (ast : Tree (NodeData δ ο)) : List (Avrule δ) :=
  (ast.walk NodeData.skipHead).flatMap NodeData.shadowedAvrules

/-- A self rule of one type without a value of its own is taken for that of the type which has
the value. -/
def Misread (db : Db δ) (r : Avrule δ) : Prop :=
  r.tgt = .self ∧ ∃ t, r.src = .type t ∧ ¬ db.Numbered t

/-- None of the allow rules violates a neverallow rule of the policy. -/
def Respects (db : Db δ) (ast : Tree (NodeData δ ο)) (rules : List (Avrule δ)) : Prop :=
  ∀ r ∈ rules, r.ruleKind = .allowed → ∀ n ∈ avrules ast, n.ruleKind = .neverallow →
    ¬ Violates db r n

/-- No allow rule violates a neverallow rule where one of the two is misread. -/
def SelfRespects (db : Db δ) (ast : Tree (NodeData δ ο)) : Prop :=
  ∀ r ∈ avrules ast, r.ruleKind = .allowed → ∀ n ∈ avrules ast, n.ruleKind = .neverallow →
    Misread db r ∨ Misread db n → ¬ Violates db r n

section Matching

variable {db : Db δ}

theorem Denotes.bit {a t : δ} (h : Denotes db (.typeattribute a) t) :
    ∃ types, db.types a = some types ∧ types.getBit (db.value t) = true := by
  obtain ⟨types, i, htypes, hbit, ht⟩ := h
  rw [db.value_valToType i t ht]
  exact ⟨types, htypes, hbit⟩

private theorem isTypeMatch_of_denotes {d₁ d₂ : TypeDatum δ} {t : δ} (h₁ : Denotes db d₁ t)
    (h₂ : Denotes db d₂ t) : isTypeMatch db d₁ d₂ = some true := by
  unfold isTypeMatch
  by_cases hfqn : db.fqn d₁.datum = db.fqn d₂.datum
  · rw [if_pos hfqn]
  · rw [if_neg hfqn]
    cases d₁ with
    | type t₁ =>
      have ht₁ : t = t₁ := h₁
      cases d₂ with
      | type t₂ =>
        have ht₂ : t = t₂ := h₂
        subst ht₁
        subst ht₂
        exact absurd rfl hfqn
      | typeattribute a₂ =>
        obtain ⟨types, htypes, hbit⟩ := h₂.bit
        subst ht₁
        simp only [htypes, Option.map_some, hbit]
    | typeattribute a₁ =>
      obtain ⟨types₁, htypes₁, hbit₁⟩ := h₁.bit
      cases d₂ with
      | type t₂ =>
        have ht₂ : t = t₂ := h₂
        subst ht₂
        simp only [htypes₁, Option.map_some, hbit₁]
      | typeattribute a₂ =>
        obtain ⟨types₂, htypes₂, hbit₂⟩ := h₂.bit
        simp only [htypes₁, htypes₂, WordBitmap.overlap_of_getBit hbit₂ hbit₁]

variable {src tgt : TypeDatum δ} {cls : Nat} {perms : BitVec 32}

private theorem checkRules_ok {rules : List (Rule δ)}
    (h : checkRules db src tgt cls perms rules = .ok)
    {rule : Rule δ} (hrule : rule ∈ rules) (hperms : rule.perms &&& perms ≠ 0#32)
    (hcls : cls = rule.cls) (hsrc : isTypeMatch db src rule.src = some true) :
    isTypeMatch db tgt rule.tgt ≠ some true := by
  induction rules with
  | nil => cases hrule
  | cons rule' rules ih =>
      rw [checkRules] at h
      rcases List.mem_cons.mp hrule with heq | hrule
      · subst heq
        intro htgt
        rw [if_pos ⟨hperms, hcls⟩, hsrc, htgt] at h
        cases h
      · apply ih _ hrule
        split at h
        · split at h
          · split at h
            · exact h
            · cases h
          · exact h
          · cases h
        · exact h

private theorem checkNeverallows_ok {neverallows : List (List (Rule δ))}
    (h : checkNeverallows db src tgt cls perms neverallows = .ok) {rule : Rule δ}
    (hrule : rule ∈ neverallows.flatten) (hperms : rule.perms &&& perms ≠ 0#32)
    (hcls : cls = rule.cls) (hsrc : isTypeMatch db src rule.src = some true) :
    isTypeMatch db tgt rule.tgt ≠ some true := by
  induction neverallows with
  | nil => cases hrule
  | cons rules neverallows ih =>
      rw [checkNeverallows] at h
      cases hrules : checkRules db src tgt cls perms rules with
      | ok =>
        rw [hrules] at h
        rw [List.flatten_cons] at hrule
        rcases List.mem_append.mp hrule with hrule | hrule
        · exact checkRules_ok hrules hrule hperms hcls hsrc
        · exact ih h hrule
      | _ =>
        rw [hrules] at h
        cases h

/-- The mask only gains bits, one for each permission. -/
private theorem permsToDatum_bits {sepolClass : ClassDatum} {perms : List δ}
    {data data' : BitVec 32} (h : permsToDatum db sepolClass perms data = some data') :
    (∀ i, data.getLsbD i = true → data'.getLsbD i = true) ∧
      ∀ p ∈ perms, ∃ value, sepolClass.findPerm (db.fqn p) = some value ∧
        data'.getLsbD ((value - 1) % 32) = true := by
  induction perms generalizing data with
  | nil =>
      obtain rfl : data = data' := Option.some.inj h
      exact ⟨fun i hi => hi, by simp⟩
  | cons p perms ih =>
      rw [permsToDatum] at h
      cases hp : sepolClass.findPerm (db.fqn p) with
      | none =>
        rw [hp] at h
        cases h
      | some value =>
        rw [hp] at h
        obtain ⟨hkeep, hperms⟩ := ih h
        constructor
        · intro i hi
          apply hkeep
          rw [BitVec.getLsbD_or, hi, Bool.true_or]
        · intro q hq
          rcases List.mem_cons.mp hq with heq | hq
          · subst heq
            refine ⟨value, hp, hkeep _ ?_⟩
            have hlt := Nat.mod_lt (value - 1) (by decide : 0 < 32)
            rw [BitVec.getLsbD_or, BitVec.getLsbD_shiftLeft, BitVec.getLsbD_one]
            simp [hlt]
          · exact hperms q hq

end Matching

/-- The rule of a neverallow statement for the permissions `cp` has been collected. -/
def Collected (db : Db δ) (M : Policydb P ν ο) (src tgt : TypeDatum δ) (cp : Classperms δ)
    (s : State δ P) : Prop :=
  ∃ sepolClass data, M.classDatum (db.fqn cp.cls) = some sepolClass ∧
    permsToDatum db sepolClass cp.perms 0#32 = some data ∧
    (data ≠ 0#32 → ⟨src, tgt, sepolClass.value, data⟩ ∈ s.neverallows.flatten)

/-- The permissions `cp` of an allow rule have passed the check against all rules. -/
def Checked (db : Db δ) (M : Policydb P ν ο) (src tgt : TypeDatum δ) (cp : Classperms δ)
    (s : State δ P) : Prop :=
  ∃ sepolClass data, M.classDatum (db.fqn cp.cls) = some sepolClass ∧
    permsToDatum db sepolClass cp.perms 0#32 = some data ∧
    (data ≠ 0#32 → checkNeverallows db src tgt sepolClass.value data s.neverallows = .ok)

/-- What was checked against a collected rule has no access in common with it. -/
private theorem Checked.disjoint {db : Db δ} {M : Policydb P ν ο} {d₁ d₂ d₁' d₂' : TypeDatum δ}
    {cp cp' : Classperms δ} {s : State δ P} (hchecked : Checked db M d₁ d₂ cp s)
    (hcollected : Collected db M d₁' d₂' cp' s) (hcls : cp.cls = cp'.cls) {p t t' : δ}
    (hp : p ∈ cp.perms) (hp' : p ∈ cp'.perms) (ht₁ : Denotes db d₁ t) (ht₂ : Denotes db d₂ t')
    (ht₁' : Denotes db d₁' t) : ¬ Denotes db d₂' t' := by
  intro ht₂'
  obtain ⟨sepolClass, data, hclass, hdata, hcheck⟩ := hchecked
  obtain ⟨sepolClass', data', hclass', hdata', hmem⟩ := hcollected
  rw [hcls, hclass'] at hclass
  obtain rfl := Option.some.inj hclass
  obtain ⟨value, hvalue, hbit⟩ := (permsToDatum_bits hdata).2 p hp
  obtain ⟨value', hvalue', hbit'⟩ := (permsToDatum_bits hdata').2 p hp'
  rw [hvalue'] at hvalue
  obtain rfl := Option.some.inj hvalue
  have hne : ∀ d : BitVec 32, d.getLsbD ((value' - 1) % 32) = true → d ≠ 0#32 := by
    intro d hd hzero
    rw [hzero, BitVec.getLsbD_zero] at hd
    cases hd
  have hand : data' &&& data ≠ 0#32 := by
    apply hne
    rw [BitVec.getLsbD_and, hbit, hbit']
    rfl
  exact checkNeverallows_ok (hcheck (hne data hbit)) (hmem (hne data' hbit')) hand rfl
    (isTypeMatch_of_denotes ht₁ ht₁') (isTypeMatch_of_denotes ht₂ ht₂')

/-- What a rule is taken apart into: a self rule goes by the bits of its source and the types of
these values. -/
def Taken (db : Db δ) (r : Avrule δ) (d₁ d₂ : TypeDatum δ) : Prop :=
  match r.tgt with
  | .self => ∃ types i t, expandType db r.src = some types ∧ types.getBit i = true ∧
      db.valToType i = some t ∧ d₁ = .type t ∧ d₂ = .type t
  | .datum tgt => d₁ = r.src ∧ d₂ = tgt

/-- The sources and targets that a rule is about, a self rule type by type. -/
def Pair (db : Db δ) (r : Avrule δ) (d₁ d₂ : TypeDatum δ) : Prop :=
  match r.tgt with
  | .self => ∃ t, Denotes db r.src t ∧ d₁ = .type t ∧ d₂ = .type t
  | .datum tgt => d₁ = r.src ∧ d₂ = tgt

/-- Only a misread rule is taken for other types than it is about. -/
theorem taken_iff_pair {db : Db δ} {r : Avrule δ} (h : ¬ Misread db r) {d₁ d₂ : TypeDatum δ} :
    Taken db r d₁ d₂ ↔ Pair db r d₁ d₂ := by
  unfold Taken Pair
  cases htgt : r.tgt with
  | datum tgt => exact Iff.rfl
  | self =>
    cases hsrc : r.src with
    | typeattribute a =>
      constructor
      · rintro ⟨types, i, t, htypes, hbit, ht, hpair⟩
        exact ⟨t, ⟨types, i, htypes, hbit, ht⟩, hpair⟩
      · rintro ⟨t, ⟨types, i, htypes, hbit, ht⟩, hpair⟩
        exact ⟨types, i, t, htypes, hbit, ht, hpair⟩
    | type t =>
      have hnumbered : db.valToType (db.value t) = some t := by
        by_contra hnot
        exact h ⟨htgt, t, hsrc, hnot⟩
      constructor
      · rintro ⟨types, i, t', htypes, hbit, ht', hpair⟩
        obtain rfl : WordBitmap.single (db.value t) = types := Option.some.inj htypes
        rw [WordBitmap.getBit_single.mp hbit, hnumbered] at ht'
        obtain rfl := Option.some.inj ht'
        exact ⟨t, rfl, hpair⟩
      · rintro ⟨t', rfl, hpair⟩
        exact ⟨.single (db.value t'), db.value t', t', rfl, WordBitmap.getBit_single.mpr rfl,
          hnumbered, hpair⟩

/-- An access of a rule is one of a pair that the rule is taken apart into. -/
theorem Contains.taken {db : Db δ} {r : Avrule δ} {x : Access δ} (h : Contains db r x)
    (hread : ¬ Misread db r) :
    ∃ d₁ d₂, Taken db r d₁ d₂ ∧ Denotes db d₁ x.source ∧ Denotes db d₂ x.target := by
  have htarget := h.target
  simp only [taken_iff_pair hread]
  unfold Pair
  cases htgt : r.tgt with
  | datum tgt =>
    rw [htgt] at htarget
    exact ⟨r.src, tgt, ⟨rfl, rfl⟩, h.source, htarget⟩
  | self =>
    rw [htgt] at htarget
    have hself : x.target = x.source := htarget
    exact ⟨.type x.source, .type x.source, ⟨x.source, h.source, rfl, rfl⟩, rfl, hself⟩

section Expand

variable {db : Db δ} {M : Policydb P ν ο} {R : State δ P → State δ P → Prop}
  {fact : TypeDatum δ → TypeDatum δ → Classperms δ → State δ P → Prop}

/-- The facts about everything that a rule expands to. -/
def Facts (db : Db δ) (fact : TypeDatum δ → TypeDatum δ → Classperms δ → State δ P → Prop)
    (r : Avrule δ) (s : State δ P) : Prop :=
  ∀ d₁ d₂, Taken db r d₁ d₂ → ∀ items cp, r.classperms = some items →
    Expands db.classperms items cp → fact d₁ d₂ cp s

section Rules

variable (PR : Progress R) (hlasts : ∀ d₁ d₂ cp, Lasts R (fact d₁ d₂ cp))

include hlasts

private theorem lasts_expansion (classperms : ItemList (Classperms δ) δ) (d₁ d₂ : TypeDatum δ) :
    Lasts R fun s => ∀ items cp, classperms = some items → Expands db.classperms items cp →
      fact d₁ d₂ cp s := by
  intro s s' hR h items cp hitems hcp
  exact hlasts d₁ d₂ cp s s' hR (h items cp hitems hcp)

private theorem lasts_facts (r : Avrule δ) : Lasts R (Facts db fact r) := by
  intro s s' hR h d₁ d₂ htaken items cp hitems hcp
  exact hlasts d₁ d₂ cp s s' hR (h d₁ d₂ htaken items cp hitems hcp)

variable {kind : RuleKind} {cond : Option (ν × Bool)}
  (hleaf : ∀ d₁ d₂ s cp s', avruleExpandHelper db M kind d₁ d₂ cond s cp = (.ok, s') →
    R s s' ∧ fact d₁ d₂ cp s')

include PR hleaf

private theorem avruleExpand_establishes (fuel : Nat) (classperms : ItemList (Classperms δ) δ)
    (d₁ d₂ : TypeDatum δ) :
    Establishes R (fun s => ∀ items cp, classperms = some items →
      Expands db.classperms items cp → fact d₁ d₂ cp s)
      (avruleExpand db M fuel kind d₁ d₂ classperms cond) := by
  apply Establishes.of_eq
  intro s u s' h
  have hwalk : walk db.classperms (avruleExpandHelper db M kind d₁ d₂ cond) fuel s classperms =
      some (.done .ok s') := by
    unfold avruleExpand ClassPerms.avruleExpand at h
    split at h
    · rename_i hdone
      cases h
      exact hdone
    · cases h
    · cases h
    · cases h
  obtain ⟨items, hitems, hR, hfacts⟩ :=
    walk_covers PR (hlasts d₁ d₂) (hleaf d₁ d₂) fuel s classperms s' hwalk
  refine ⟨hR, ?_⟩
  intro items' cp hitems' hcp
  rw [hitems] at hitems'
  obtain rfl := Option.some.inj hitems'
  exact hfacts cp hcp

private theorem selfToAvtab_establishes (fuel : Nat) (classperms : ItemList (Classperms δ) δ)
    (positions : List Nat) :
    Establishes R (fun s => ∀ i ∈ positions, ∀ t, db.valToType i = some t →
      ∀ items cp, classperms = some items → Expands db.classperms items cp →
        fact (.type t) (.type t) cp s)
      (selfToAvtab db M fuel kind classperms cond positions) := by
  induction positions with
  | nil =>
      apply Establishes.pure PR
      intro s i hi
      cases hi
  | cons i positions ih =>
      rw [selfToAvtab]
      cases hi : db.valToType i with
      | none => exact Establishes.crash
      | some t =>
        have hfirst :=
          avruleExpand_establishes PR hlasts hleaf fuel classperms (.type t) (.type t)
        apply (hfirst.bind PR (lasts_expansion hlasts classperms _ _) fun _ => ih).imp
        intro s hs j hj t' ht' items cp hitems hcp
        rcases List.mem_cons.mp hj with heq | hj
        · subst heq
          rw [hi] at ht'
          obtain rfl := Option.some.inj ht'
          exact hs.1 items cp hitems hcp
        · exact hs.2 j hj t' ht' items cp hitems hcp

end Rules

/-- What the step establishes for one kernel class, `__cil_avrule_to_avtab` establishes for
all that a rule expands to, unless the options leave the rule out. -/
private theorem avruleToAvtab_establishes (PR : Progress R)
    (hlasts : ∀ d₁ d₂ cp, Lasts R (fact d₁ d₂ cp)) {r : Avrule δ} {cond : Option (ν × Bool)}
    (hleaf : ∀ d₁ d₂ s cp s', avruleExpandHelper db M r.ruleKind d₁ d₂ cond s cp = (.ok, s') →
      R s s' ∧ fact d₁ d₂ cp s')
    (hdontaudit : r.ruleKind = .dontaudit → ∀ d₁ d₂ cp s, fact d₁ d₂ cp s)
    (hneverallow : r.ruleKind = .neverallow → db.disableNeverallow = false) (fuel : Nat) :
    Establishes R (Facts db fact r) (avruleToAvtab db M fuel r cond) := by
  unfold avruleToAvtab
  by_cases hdisabled : r.ruleKind = .dontaudit ∧ db.disableDontaudit = true
  · rw [if_pos hdisabled]
    apply Establishes.pure PR
    intro s d₁ d₂ htaken items cp hitems hcp
    exact hdontaudit hdisabled.1 d₁ d₂ cp s
  · have hchecked : ¬ (r.ruleKind = .neverallow ∧ db.disableNeverallow = true) := by
      intro h
      have hfalse := hneverallow h.1
      rw [h.2] at hfalse
      cases hfalse
    rw [if_neg hdisabled, if_neg hchecked]
    cases htgt : r.tgt with
    | datum tgt =>
      apply (avruleExpand_establishes PR hlasts hleaf fuel r.classperms r.src tgt).imp
      intro s hs d₁ d₂ htaken items cp hitems hcp
      unfold Taken at htaken
      rw [htgt] at htaken
      obtain ⟨rfl, rfl⟩ := htaken
      exact hs items cp hitems hcp
    | self =>
      cases htypes : expandType db r.src with
      | none => exact Establishes.crash
      | some types =>
        apply (selfToAvtab_establishes PR hlasts hleaf fuel r.classperms types.positions).imp
        intro s hs d₁ d₂ htaken items cp hitems hcp
        unfold Taken at htaken
        rw [htgt] at htaken
        obtain ⟨types', i, t, htypes', hbit, ht, rfl, rfl⟩ := htaken
        rw [htypes] at htypes'
        obtain rfl := Option.some.inj htypes'
        exact hs i (WordBitmap.mem_positions.mpr hbit) t ht items cp hitems hcp

end Expand

section Collecting

/-- Rules are only added. -/
def Grows (s s' : State δ P) : Prop :=
  ∀ rule ∈ s.neverallows.flatten, rule ∈ s'.neverallows.flatten

/-- The rules stay as they are. -/
def Keeps (s s' : State δ P) : Prop := s'.neverallows = s.neverallows

private theorem progress_grows : Progress (Grows (δ := δ) (P := P)) where
  refl _ _ hrule := hrule
  trans _ _ _ hst htu rule hrule := htu rule (hst rule hrule)

private theorem progress_keeps : Progress (Keeps (δ := δ) (P := P)) where
  refl _ := rfl
  trans _ _ _ hst htu := htu.trans hst

theorem Keeps.grows {s s' : State δ P} (h : Keeps s s') : Grows s s' := by
  intro rule hrule
  rw [h]
  exact hrule

variable {db : Db δ} {M : Policydb P ν ο}

private theorem lasts_collected (d₁ d₂ : TypeDatum δ) (cp : Classperms δ) :
    Lasts Grows (Collected (P := P) db M d₁ d₂ cp) := by
  intro s s' hR h
  obtain ⟨sepolClass, data, hclass, hdata, hmem⟩ := h
  exact ⟨sepolClass, data, hclass, hdata, fun hne => hR _ (hmem hne)⟩

private theorem lasts_checked (kind : RuleKind) (d₁ d₂ : TypeDatum δ) (cp : Classperms δ) :
    Lasts Keeps fun s : State δ P => kind = .allowed → Checked db M d₁ d₂ cp s := by
  intro s s' hR h hkind
  obtain ⟨sepolClass, data, hclass, hdata, hcheck⟩ := h hkind
  refine ⟨sepolClass, data, hclass, hdata, ?_⟩
  rw [hR]
  exact hcheck

private theorem insertAvrule_keeps {kind : RuleKind} {d₁ d₂ : TypeDatum δ} {cls : Nat}
    {data : BitVec 32} {cond : Option (ν × Bool)} {s s' : State δ P} {rc : Rc}
    (h : insertAvrule db M kind d₁ d₂ cls data cond s = (rc, s')) : Keeps s s' := by
  unfold insertAvrule at h
  split at h
  · cases h
    rfl
  · cases h
    rfl

/-- The step for a neverallow rule collects it. -/
private theorem avruleExpandHelper_neverallow {d₁ d₂ : TypeDatum δ} {cond : Option (ν × Bool)}
    {s s' : State δ P} {cp : Classperms δ}
    (h : avruleExpandHelper db M .neverallow d₁ d₂ cond s cp = (.ok, s')) :
    Grows s s' ∧ Collected db M d₁ d₂ cp s' := by
  unfold avruleExpandHelper at h
  cases hclass : M.classDatum (db.fqn cp.cls) with
  | none =>
    rw [hclass] at h
    cases h
  | some sepolClass =>
    cases hdata : permsToDatum db sepolClass cp.perms 0#32 with
    | none =>
      simp only [hclass, hdata] at h
      cases h
    | some data =>
      simp only [hclass, hdata] at h
      by_cases hzero : data = 0#32
      · rw [if_pos hzero] at h
        cases h
        exact ⟨progress_grows.refl s, sepolClass, data, hclass, hdata,
          fun hne => absurd hzero hne⟩
      · rw [if_neg hzero] at h
        unfold neverallowHandle at h
        cases hrules : s.neverallows with
        | nil =>
          rw [hrules] at h
          cases h
        | cons rules rest =>
          rw [hrules] at h
          cases h
          constructor
          · intro rule hrule
            rw [hrules, List.flatten_cons] at hrule
            simp only [List.flatten_cons, List.append_assoc, List.mem_append] at hrule ⊢
            rcases hrule with hrule | hrule
            · exact Or.inl hrule
            · exact Or.inr (Or.inr hrule)
          · refine ⟨sepolClass, data, hclass, hdata, fun hne => ?_⟩
            simp

/-- The step for any other rule leaves the collected rules alone and checks an allow rule. -/
private theorem avruleExpandHelper_checked {kind : RuleKind} (hkind : kind ≠ .neverallow)
    {d₁ d₂ : TypeDatum δ} {cond : Option (ν × Bool)} {s s' : State δ P} {cp : Classperms δ}
    (h : avruleExpandHelper db M kind d₁ d₂ cond s cp = (.ok, s')) :
    Keeps s s' ∧ (kind = .allowed → Checked db M d₁ d₂ cp s') := by
  unfold avruleExpandHelper at h
  cases hclass : M.classDatum (db.fqn cp.cls) with
  | none =>
    rw [hclass] at h
    cases h
  | some sepolClass =>
    cases hdata : permsToDatum db sepolClass cp.perms 0#32 with
    | none =>
      simp only [hclass, hdata] at h
      cases h
    | some data =>
      simp only [hclass, hdata] at h
      by_cases hzero : data = 0#32
      · rw [if_pos hzero] at h
        cases h
        exact ⟨rfl, fun _ => ⟨sepolClass, data, hclass, hdata, fun hne => absurd hzero hne⟩⟩
      · rw [if_neg hzero] at h
        cases kind with
        | neverallow => exact absurd rfl hkind
        | dontaudit => exact ⟨insertAvrule_keeps h, fun hallowed => by cases hallowed⟩
        | auditallow => exact ⟨insertAvrule_keeps h, fun hallowed => by cases hallowed⟩
        | allowed =>
          cases hcheck : checkNeverallows db d₁ d₂ sepolClass.value data s.neverallows with
          | ok =>
            simp only [hcheck] at h
            have hkeeps := insertAvrule_keeps h
            refine ⟨hkeeps, fun _ => ⟨sepolClass, data, hclass, hdata, fun _ => ?_⟩⟩
            rw [hkeeps]
            exact hcheck
          | _ =>
            simp only [hcheck] at h
            cases h

end Collecting

section Passes

variable {db : Db δ} {M : Policydb P ν ο}

private theorem onPolicydb_keeps (f : P → Rc × P) :
    Establishes Keeps (fun _ => True) (onPolicydb f : Call Rc (State δ P) Unit) := by
  apply Establishes.of_eq
  intro s u s' h
  unfold onPolicydb at h
  split at h
  · cases h
    exact ⟨rfl, trivial⟩
  · cases h

/-- What the second pass does with a neverallow rule. -/
def CollectedRule (db : Db δ) (M : Policydb P ν ο) (r : Avrule δ) (s : State δ P) : Prop :=
  Facts db (Collected db M) r s

/-- What the third pass does with an allow rule. -/
def CheckedRule (db : Db δ) (M : Policydb P ν ο) (r : Avrule δ) (s : State δ P) : Prop :=
  Facts db (fun d₁ d₂ cp s => r.ruleKind = .allowed → Checked db M d₁ d₂ cp s) r s

private theorem neverallow_collected (hdb : db.disableNeverallow = false) {r : Avrule δ}
    (hr : r.ruleKind = .neverallow) (fuel : Nat) :
    Establishes Grows (CollectedRule db M r) (avruleToPolicydb db M fuel r) := by
  apply avruleToAvtab_establishes progress_grows lasts_collected
  · intro d₁ d₂ s cp s' h
    rw [hr] at h
    exact avruleExpandHelper_neverallow h
  · intro hdontaudit
    rw [hr] at hdontaudit
    cases hdontaudit
  · exact fun _ => hdb

private theorem avrule_checked {r : Avrule δ} (hr : r.ruleKind ≠ .neverallow) (fuel : Nat)
    (cond : Option (ν × Bool)) :
    Establishes Keeps (CheckedRule db M r) (avruleToAvtab db M fuel r cond) := by
  apply avruleToAvtab_establishes progress_keeps (lasts_checked r.ruleKind)
  · intro d₁ d₂ s cp s' h
    exact avruleExpandHelper_checked hr h
  · intro hdontaudit d₁ d₂ cp s hallowed
    rw [hdontaudit] at hallowed
    cases hallowed
  · exact fun hneverallow => absurd hneverallow hr

private theorem lasts_checkedRules (rules : List (Avrule δ)) :
    Lasts Keeps fun s : State δ P => ∀ r ∈ rules, CheckedRule db M r s :=
  lasts_forall fun r _ => lasts_facts (lasts_checked r.ruleKind) r

private theorem checkedRules_nil (s : State δ P) :
    ∀ r ∈ ([] : List (Avrule δ)), CheckedRule db M r s := by
  intro r hr
  cases hr

private theorem condToPolicydbHelper_checked (fuel : Nat) (cond : ν × Bool) (d : CondData δ ο) :
    Establishes Keeps (fun s => ∀ r ∈ d.avrules, CheckedRule db M r s)
      (condToPolicydbHelper db M fuel cond d) := by
  cases d with
  | avrule r =>
    intro s
    apply (avrule_checked r.2 fuel (some cond) s).withError.imp
    intro a s' hs'
    refine ⟨hs'.1, ?_⟩
    intro r' hr'
    rw [List.mem_singleton.mp hr']
    exact hs'.2
  | rule stmt =>
    intro s
    apply (onPolicydb_keeps (M.condRule stmt cond) s).withError.imp
    intro a s' hs'
    exact ⟨hs'.1, checkedRules_nil s'⟩
  | call => exact Establishes.pure progress_keeps () checkedRules_nil
  | tunableif => exact Establishes.pure progress_keeps () checkedRules_nil
  | invalid => exact Establishes.fail _

/-- The rules of the block chosen for a branch are checked. -/
private theorem condblockToPolicydb_checked (fuel : Nat) (cond : ν × Bool)
    (block : Option (CondBlock δ ο)) :
    Establishes Keeps (fun s => ∀ cb ∈ block, ∀ r ∈ cb.avrules, CheckedRule db M r s)
      (condblockToPolicydb db M fuel cond block) := by
  cases block with
  | none =>
    apply Establishes.pure progress_keeps
    intro s cb hcb
    cases hcb
  | some cb =>
    have hstep : ∀ d : CondData δ ο, Establishes Keeps
        (fun s => ∀ r ∈ d.avrules, CheckedRule db M r s) (condToPolicydbHelper db M fuel cond d) :=
      condToPolicydbHelper_checked fuel cond
    apply (processAll_establishes progress_keeps hstep (fun d => lasts_checkedRules d.avrules)
      (walkSiblings (fun _ => false) cb.body)).imp
    intro s hs cb' hcb' r hr
    obtain rfl := Option.some.inj hcb'
    obtain ⟨d, hd, hrd⟩ := List.mem_flatMap.mp hr
    exact hs d hd r hrd

private theorem lasts_checkedBlock (block : Option (CondBlock δ ο)) :
    Lasts Keeps fun s : State δ P => ∀ cb ∈ block, ∀ r ∈ cb.avrules, CheckedRule db M r s :=
  lasts_forall fun cb _ => lasts_checkedRules cb.avrules

private theorem booleanifToPolicydb_checked (fuel : Nat) (expr : ο)
    (blocks : List (CondBlock δ ο)) :
    Establishes Keeps (fun s => ∀ flavor, ∀ cb ∈ blockOf flavor blocks, ∀ r ∈ cb.avrules,
      CheckedRule db M r s) (booleanifToPolicydb db M fuel expr blocks) := by
  apply Establishes.get_bind
  intro t
  cases M.condNode expr t.pdb with
  | none => exact Establishes.fail _
  | some chosen =>
    obtain ⟨condNode, swapped, pdb⟩ := chosen
    have hmodify : Establishes Keeps (fun _ => True)
        (Call.modify fun s => { s with pdb := pdb } : Call Rc (State δ P) Unit) := by
      intro s
      exact ⟨rfl, trivial⟩
    have hwalk : ∀ cond : ν × Bool, ∀ block : Option (CondBlock δ ο), Establishes Keeps
        (fun s => ∀ cb ∈ block, ∀ r ∈ cb.avrules, CheckedRule db M r s)
        (condblockToPolicydb db M fuel cond block) := condblockToPolicydb_checked fuel
    apply (hmodify.bind progress_keeps (lasts_trivial _ _) fun _ =>
      (hwalk (condNode, true) _).bind progress_keeps (lasts_checkedBlock _) fun _ =>
        hwalk (condNode, false) _).imp
    intro s hs flavor
    -- swapped branches are walked in the other order
    cases swapped with
    | true =>
      cases flavor with
      | true => exact hs.2.2
      | false => exact hs.2.1
    | false =>
      cases flavor with
      | true => exact hs.2.1
      | false => exact hs.2.2

/-- The rules of a node that the third pass checks. -/
def NodeData.checkedAvrules : NodeData δ ο → List (Avrule δ)
  | .avrule r => if r.ruleKind = .neverallow then [] else [r]
  | .booleanif _ blocks =>
      [true, false].flatMap fun flavor => (blockOf flavor blocks).toList.flatMap CondBlock.avrules
  | _ => []

private theorem nodeToPolicydb_checked (fuel : Nat) (d : NodeData δ ο) :
    Establishes Keeps (fun s => ∀ r ∈ d.checkedAvrules, CheckedRule db M r s)
      (nodeToPolicydb db M fuel 3 d) := by
  cases d with
  | avrule r =>
    by_cases hr : r.ruleKind = .neverallow
    · have hstep : nodeToPolicydb db M fuel 3 (.avrule r) = pure () := by
        simp [nodeToPolicydb, hr]
      have hnone : (NodeData.avrule r : NodeData δ ο).checkedAvrules = [] := by
        simp [NodeData.checkedAvrules, hr]
      rw [hstep, hnone]
      exact Establishes.pure progress_keeps () checkedRules_nil
    · have hstep : nodeToPolicydb db M fuel 3 (.avrule r) = avruleToPolicydb db M fuel r := by
        simp [nodeToPolicydb, hr]
      have hone : (NodeData.avrule r : NodeData δ ο).checkedAvrules = [r] := by
        simp [NodeData.checkedAvrules, hr]
      rw [hstep, hone]
      apply (avrule_checked hr fuel none).imp
      intro s hs r' hr'
      rw [List.mem_singleton.mp hr']
      exact hs
  | booleanif expr blocks =>
    apply (booleanifToPolicydb_checked fuel expr blocks).imp
    intro s hs r hr
    obtain ⟨flavor, hflavor, hr⟩ := List.mem_flatMap.mp hr
    obtain ⟨cb, hcb, hr⟩ := List.mem_flatMap.mp hr
    exact hs flavor cb (Option.mem_toList.mp hcb) r hr
  | other stmt =>
    apply (onPolicydb_keeps (M.statement 3 stmt)).imp
    intro s _
    exact checkedRules_nil s
  | macroDef => exact Establishes.pure progress_keeps () checkedRules_nil
  | block isAbstract => exact Establishes.pure progress_keeps () checkedRules_nil

private theorem nodeToPolicydb_collected (hdb : db.disableNeverallow = false) (fuel : Nat)
    (d : NodeData δ ο) :
    Establishes Grows (fun s => ∀ r ∈ d.avrules, r.ruleKind = .neverallow →
      CollectedRule db M r s) (nodeToPolicydb db M fuel 2 d) := by
  have hnil : ∀ s : State δ P, ∀ r ∈ ([] : List (Avrule δ)), r.ruleKind = .neverallow →
      CollectedRule db M r s := by
    intro s r hr
    cases hr
  cases d with
  | avrule r =>
    by_cases hr : r.ruleKind = .neverallow
    · have hstep : nodeToPolicydb db M fuel 2 (.avrule r) = (do
          Call.modify fun s => { s with neverallows := [] :: s.neverallows }
          avruleToPolicydb db M fuel r) := by
        simp [nodeToPolicydb, hr]
      rw [hstep]
      have hopen : Establishes Grows (fun _ => True)
          (Call.modify fun s => { s with neverallows := [] :: s.neverallows } :
            Call Rc (State δ P) Unit) := by
        intro s
        refine ⟨?_, trivial⟩
        intro rule hrule
        simpa using hrule
      apply (hopen.bind progress_grows (lasts_trivial _ _)
        fun _ => neverallow_collected hdb hr fuel).imp
      intro s hs r' hr' _
      rw [List.mem_singleton.mp hr']
      exact hs.2
    · have hstep : nodeToPolicydb db M fuel 2 (.avrule r) = pure () := by
        simp [nodeToPolicydb, hr]
      rw [hstep]
      apply Establishes.pure progress_grows
      intro s r' hr' hneverallow
      rw [List.mem_singleton.mp hr'] at hneverallow
      exact absurd hneverallow hr
  | booleanif expr blocks =>
    apply Establishes.pure progress_grows
    intro s r hr hneverallow
    -- the rules in a conditional block are of another kind
    obtain ⟨cb, _, hr⟩ := List.mem_flatMap.mp hr
    obtain ⟨c, _, hr⟩ := List.mem_flatMap.mp hr
    cases c with
    | avrule r' =>
      rw [List.mem_singleton.mp hr] at hneverallow
      exact absurd hneverallow r'.2
    | _ => cases hr
  | other stmt =>
    intro s
    apply (onPolicydb_keeps (M.statement 2 stmt) s).imp
    intro _ s' hs'
    exact ⟨hs'.1.grows, hnil s'⟩
  | macroDef => exact Establishes.pure progress_grows () hnil
  | block isAbstract => exact Establishes.pure progress_grows () hnil

end Passes

section Blocks

/-- A block is shadowed or it is the one chosen for its flavor. -/
private theorem mem_shadowed_or_blockOf {blocks : List (CondBlock δ ο)} {cb : CondBlock δ ο}
    (h : cb ∈ blocks) : cb ∈ shadowed blocks ∨ blockOf cb.flavor blocks = some cb := by
  have hfold : ∀ (rest : List (CondBlock δ ο)) (node : Option (CondBlock δ ο)) (flavor : Bool),
      (rest.any fun cb' => cb'.flavor = flavor) = false →
        rest.foldl (fun node cb => if cb.flavor = flavor then some cb else node) node = node := by
    intro rest
    induction rest with
    | nil => exact fun _ _ _ => rfl
    | cons cb' rest ih =>
        intro node flavor hnone
        rw [List.any_cons, Bool.or_eq_false_iff] at hnone
        rw [List.foldl_cons, if_neg (by simpa using hnone.1)]
        exact ih node flavor hnone.2
  have hshift : ∀ (rest : List (CondBlock δ ο)) (node : Option (CondBlock δ ο)) (flavor : Bool),
      (rest.any fun cb' => cb'.flavor = flavor) = true →
        rest.foldl (fun node cb => if cb.flavor = flavor then some cb else node) node =
          blockOf flavor rest := by
    intro rest
    induction rest with
    | nil =>
        intro node flavor hany
        cases hany
    | cons cb' rest ih =>
        intro node flavor hany
        unfold blockOf
        rw [List.foldl_cons, List.foldl_cons]
        by_cases hflavor : cb'.flavor = flavor
        · rw [if_pos hflavor, if_pos hflavor]
        · rw [if_neg hflavor, if_neg hflavor]
          rw [List.any_cons, decide_eq_false hflavor, Bool.false_or] at hany
          exact ih node flavor hany
  induction blocks with
  | nil => cases h
  | cons cb' blocks ih =>
      rw [shadowed]
      rcases List.mem_cons.mp h with heq | h
      · subst heq
        cases hany : blocks.any fun cb' => cb'.flavor = cb.flavor with
        | true => exact Or.inl (by simp)
        | false =>
          right
          unfold blockOf
          rw [List.foldl_cons, if_pos rfl]
          exact hfold blocks (some cb) cb.flavor hany
      · rcases ih h with hshadowed | hchosen
        · left
          split
          · exact List.mem_cons_of_mem _ hshadowed
          · exact hshadowed
        · right
          have hany : (blocks.any fun cb' => cb'.flavor = cb.flavor) = true :=
            List.any_eq_true.mpr ⟨cb, h, by simp⟩
          have hcons := hshift blocks (if cb'.flavor = cb.flavor then some cb' else none)
            cb.flavor hany
          unfold blockOf
          rw [List.foldl_cons, hcons]
          exact hchosen

private theorem shadowed_sublist (blocks : List (CondBlock δ ο)) :
    (shadowed blocks).Sublist blocks := by
  induction blocks with
  | nil => exact List.Sublist.slnil
  | cons cb blocks ih =>
      rw [shadowed]
      split
      · exact ih.cons_cons cb
      · exact ih.cons cb

/-- A rule is left out of the check only where its block is shadowed. -/
private theorem NodeData.shadowed_or_checked {d : NodeData δ ο} {r : Avrule δ} (h : r ∈ d.avrules)
    (hr : r.ruleKind ≠ .neverallow) : r ∈ d.shadowedAvrules ∨ r ∈ d.checkedAvrules := by
  cases d with
  | avrule r' =>
    right
    obtain rfl := List.mem_singleton.mp h
    simp [NodeData.checkedAvrules, hr]
  | booleanif expr blocks =>
    obtain ⟨cb, hcb, hrcb⟩ := List.mem_flatMap.mp h
    rcases mem_shadowed_or_blockOf hcb with hshadowed | hchosen
    · exact Or.inl (List.mem_flatMap.mpr ⟨cb, hshadowed, hrcb⟩)
    · right
      refine List.mem_flatMap.mpr ⟨cb.flavor, by cases cb.flavor <;> simp, ?_⟩
      exact List.mem_flatMap.mpr ⟨cb, Option.mem_toList.mpr hchosen, hrcb⟩
  | _ => cases h

private theorem shadowedAvrules_subset {ast : Tree (NodeData δ ο)} {r : Avrule δ}
    (h : r ∈ shadowedAvrules ast) : r ∈ avrules ast := by
  obtain ⟨d, hd, hr⟩ := List.mem_flatMap.mp h
  refine List.mem_flatMap.mpr ⟨d, hd, ?_⟩
  cases d with
  | booleanif expr blocks =>
    obtain ⟨cb, hcb, hrcb⟩ := List.mem_flatMap.mp hr
    exact List.mem_flatMap.mpr ⟨cb, (shadowed_sublist blocks).subset hcb, hrcb⟩
  | _ => cases hr

end Blocks

section Create

variable {db : Db δ} {M : Policydb P ν ο} {fuel : Nat} {ast : Tree (NodeData δ ο)} {pdb : P}
  {s : State δ P}

/-- After a run that succeeds the neverallow rules have been collected and the allow rules
that are not shadowed have been checked against them. -/
private theorem binaryCreate_checks (hdb : db.disableNeverallow = false)
    (h : binaryCreate db M fuel ast pdb = some (.ok () s)) :
    ∃ t : State δ P,
      (∀ n ∈ avrules ast, n.ruleKind = .neverallow → CollectedRule db M n t) ∧
      ∀ d ∈ ast.walk NodeData.skipHead, ∀ r ∈ d.checkedAvrules, CheckedRule db M r t := by
  unfold binaryCreate at h
  obtain ⟨_, s₁, _, h⟩ := Call.bind_ok h
  obtain ⟨_, s₂, _, h⟩ := Call.bind_ok h
  obtain ⟨_, s₃, _, h⟩ := Call.bind_ok h
  obtain ⟨_, s₄, hcollect, h⟩ := Call.bind_ok h
  obtain ⟨_, s₅, hcheck, _⟩ := Call.bind_ok h
  have hcollected := (processAll_establishes progress_grows (nodeToPolicydb_collected hdb fuel)
    (fun d => lasts_forall fun r _ s s' hR hs hr => lasts_facts lasts_collected r s s' hR (hs hr))
    (ast.walk NodeData.skipHead)).of_ok hcollect
  have hchecked := (processAll_establishes progress_keeps (nodeToPolicydb_checked fuel)
    (fun d => lasts_checkedRules d.checkedAvrules) (ast.walk NodeData.skipHead)).of_ok hcheck
  refine ⟨s₅, ?_, hchecked.2⟩
  intro n hn hneverallow
  obtain ⟨d, hd, hnd⟩ := List.mem_flatMap.mp hn
  exact lasts_facts lasts_collected n s₄ s₅ hchecked.1.grows (hcollected.2 d hd n hnd hneverallow)

end Create

section TwoTrueBlocks

/-- Two types, a class with one permission, and no options. -/
inductive Name
  | a
  | b
  | file
  | read
  deriving DecidableEq, Repr

def nameDb : Db Name where
  fqn
    | .a => "a"
    | .b => "b"
    | .file => "file"
    | .read => "read"
  value
    | .b => 1
    | _ => 0
  types _ := none
  classperms _ := none
  valToType
    | 0 => some .a
    | 1 => some .b
    | _ => none
  value_valToType := by
    intro i t h
    match i with
    | 0 => cases h; rfl
    | 1 => cases h; rfl
    | _ + 2 => cases h
  disableDontaudit := false
  disableNeverallow := false

/-- A policy database that keeps the list of inserted rules. -/
def listPolicydb : Policydb (List (Nat × Nat × Nat × BitVec 32)) Unit Unit where
  classDatum _ := some ⟨1, fun _ => some 1, none⟩
  typeDatum _ key := if key = "a" then some 1 else some 2
  init pdb := (.ok, pdb)
  valArraysCreate pdb := (.ok, pdb)
  finish pdb := (.ok, pdb)
  insertAvrule _ src tgt cls data _ pdb := (.ok, (src, tgt, cls, data) :: pdb)
  condNode _ pdb := some ((), false, pdb)
  condRule _ _ pdb := (.ok, pdb)
  statement _ _ pdb := (.ok, pdb)

def readRule (kind : RuleKind) : Avrule Name :=
  ⟨kind, .type .a, .datum (.type .b), some [.kernel ⟨.file, [.read]⟩]⟩

/-- `(neverallow a b (file (read)))` and
`(booleanif x (true (allow a b (file (read)))) (true))`. -/
def twoTrueBlocks : Tree (NodeData Name Unit) :=
  .node .macroDef
    [.node (.avrule (readRule .neverallow)) [],
      .node (.booleanif ()
        [⟨true, [.node (.avrule ⟨readRule .allowed, by decide⟩) []]⟩, ⟨true, []⟩]) []]

private theorem twoTrueBlocks_violates :
    ¬ Respects nameDb twoTrueBlocks (avrules twoTrueBlocks) := by
  intro h
  have hviolates : Violates nameDb (readRule .allowed) (readRule .neverallow) := by
    have hcontains : ∀ kind, Contains nameDb (readRule kind) ⟨.a, .b, .file, .read⟩ := by
      intro kind
      refine ⟨rfl, rfl, [.kernel ⟨.file, [.read]⟩], ⟨.file, [.read]⟩, rfl, ?_, rfl, ?_⟩
      · exact .kernel List.mem_cons_self
      · exact List.mem_cons_self
    exact ⟨_, hcontains .allowed, hcontains .neverallow⟩
  exact h (readRule .allowed) (by decide) rfl (readRule .neverallow) (by decide) rfl hviolates

private theorem twoTrueBlocks_accepted :
    ∃ s, binaryCreate nameDb listPolicydb 2 twoTrueBlocks [] = some (.ok () s) := ⟨_, rfl⟩

end TwoTrueBlocks

end Cil.Binary.Neverallow
