/- Cil/Binary/AvruleUnion
   digest: The unconditional table holds the union of the rules while permissions fit in a word. -/

import Cil.Binary.AvruleTable

set_option autoImplicit false
set_option relaxedAutoImplicit false

namespace Cil.Binary.AvruleTable

open Cil.Library Cil.ClassPerms Cil.Binary.Neverallow

variable {δ P ν ο ι : Type}

/-- The options do not leave the rule out. -/
def Enforced (db : Db δ) (r : Avrule δ) : Prop :=
  ¬ (r.ruleKind = .dontaudit ∧ db.disableDontaudit = true) ∧
    ¬ (r.ruleKind = .neverallow ∧ db.disableNeverallow = true)

section Rules

variable {db : Db δ} {M : Policydb P ν ο} {content : State δ P → Set ι}
  {gain : TypeDatum δ → TypeDatum δ → Classperms δ → Set ι}

/-- What everything that a rule expands to adds. -/
def ruleGains (db : Db δ) (gain : TypeDatum δ → TypeDatum δ → Classperms δ → Set ι)
    (r : Avrule δ) : Set ι :=
  {x | Enforced db r ∧ ∃ d₁ d₂, Taken db r d₁ d₂ ∧ ∃ items, r.classperms = some items ∧
    x ∈ gains db.classperms (gain d₁ d₂) items}

section Expand

variable {kind : RuleKind} {cond : Option (ν × Bool)}
  (hleaf : ∀ d₁ d₂ s cp s', avruleExpandHelper db M kind d₁ d₂ cond s cp = (.ok, s') →
    content s' = content s ∪ gain d₁ d₂ cp)

include hleaf

private theorem avruleExpand_gains (fuel : Nat) (classperms : ItemList (Classperms δ) δ)
    (d₁ d₂ : TypeDatum δ) :
    Gains content {x | ∃ items, classperms = some items ∧
        x ∈ gains db.classperms (gain d₁ d₂) items}
      (Neverallow.avruleExpand db M fuel kind d₁ d₂ classperms cond) := by
  intro s u s' h
  have hwalk : walk db.classperms (avruleExpandHelper db M kind d₁ d₂ cond) fuel s classperms =
      some (.done .ok s') := by
    unfold Neverallow.avruleExpand ClassPerms.avruleExpand at h
    split at h
    · rename_i hdone
      cases h
      exact hdone
    · cases h
    · cases h
    · cases h
  obtain ⟨items, hitems, hadd⟩ := walk_adds (hleaf d₁ d₂) fuel s classperms s' hwalk
  rw [hadd]
  congr 1
  ext x
  simp [hitems]

private theorem selfToAvtab_gains (fuel : Nat) (classperms : ItemList (Classperms δ) δ)
    (positions : List Nat) :
    Gains content {x | ∃ i ∈ positions, ∃ t, db.valToType i = some t ∧
        ∃ items, classperms = some items ∧
          x ∈ gains db.classperms (gain (.type t) (.type t)) items}
      (selfToAvtab db M fuel kind classperms cond positions) := by
  induction positions with
  | nil =>
    rw [selfToAvtab]
    apply (Gains.pure ()).of_eq
    ext x
    simp
  | cons i positions ih =>
    rw [selfToAvtab]
    cases hi : db.valToType i with
    | none => exact Gains.crash
    | some t =>
      apply ((avruleExpand_gains hleaf fuel classperms (.type t) (.type t)).bind
        fun _ => ih).of_eq
      ext x
      simp only [Set.mem_union, Set.mem_ofPred_eq, List.mem_cons, or_and_right, exists_or,
        exists_eq_left, hi, Option.some.injEq, exists_eq_left']

end Expand

/-- What the step adds for one kernel class, `__cil_avrule_to_avtab` adds for all that a rule
expands to, and nothing else. -/
theorem avruleToAvtab_gains {r : Avrule δ} {cond : Option (ν × Bool)}
    (hleaf : ∀ d₁ d₂ s cp s', avruleExpandHelper db M r.ruleKind d₁ d₂ cond s cp = (.ok, s') →
      content s' = content s ∪ gain d₁ d₂ cp) (fuel : Nat) :
    Gains content (ruleGains db gain r) (avruleToAvtab db M fuel r cond) := by
  unfold avruleToAvtab
  by_cases hdontaudit : r.ruleKind = .dontaudit ∧ db.disableDontaudit = true
  · rw [if_pos hdontaudit]
    apply (Gains.pure ()).of_eq
    ext x
    simp [ruleGains, Enforced, hdontaudit]
  · rw [if_neg hdontaudit]
    by_cases hneverallow : r.ruleKind = .neverallow ∧ db.disableNeverallow = true
    · rw [if_pos hneverallow]
      apply (Gains.pure ()).of_eq
      ext x
      simp [ruleGains, Enforced, hneverallow]
    · rw [if_neg hneverallow]
      have henforced : Enforced db r := ⟨hdontaudit, hneverallow⟩
      cases htgt : r.tgt with
      | datum tgt =>
        apply (avruleExpand_gains hleaf fuel r.classperms r.src tgt).of_eq
        ext x
        simp [ruleGains, henforced, Taken, htgt]
      | self =>
        cases htypes : expandType db r.src with
        | none => exact Gains.crash
        | some types =>
          apply (selfToAvtab_gains hleaf fuel r.classperms types.positions).of_eq
          ext x
          simp only [ruleGains, henforced, true_and, Taken, htgt, htypes, Set.mem_ofPred_eq,
            Option.some.injEq, WordBitmap.mem_positions]
          constructor
          · intro hx
            obtain ⟨i, hi, t, ht, hitems⟩ := hx
            exact ⟨.type t, .type t, ⟨types, i, t, rfl, hi, ht, rfl, rfl⟩, hitems⟩
          · intro hx
            obtain ⟨_, _, ⟨_, i, t, rfl, hi, ht, rfl, rfl⟩, hitems⟩ := hx
            exact ⟨i, hi, t, ht, hitems⟩

end Rules

section Permissions

variable {db : Db δ}

/-- The bits of a mask are those it had and one for each permission. -/
theorem permsToDatum_getLsbD {sepolClass : ClassDatum} {perms : List δ} {data data' : BitVec 32}
    (h : permsToDatum db sepolClass perms data = some data') (i : Nat) :
    data'.getLsbD i = true ↔ data.getLsbD i = true ∨
      ∃ p ∈ perms, ∃ value, sepolClass.findPerm (db.fqn p) = some value ∧
        i = (value - 1) % 32 := by
  induction perms generalizing data with
  | nil =>
    obtain rfl : data = data' := Option.some.inj h
    simp
  | cons p perms ih =>
    rw [permsToDatum] at h
    cases hp : sepolClass.findPerm (db.fqn p) with
    | none =>
      rw [hp] at h
      cases h
    | some value =>
      rw [hp] at h
      have hlt : (value - 1) % 32 < 32 := Nat.mod_lt _ (by decide)
      have hbit : (data ||| 1#32 <<< ((value - 1) % 32)).getLsbD i = true ↔
          data.getLsbD i = true ∨ i = (value - 1) % 32 := by
        rw [BitVec.getLsbD_or, BitVec.getLsbD_shiftLeft, BitVec.getLsbD_one, Bool.or_eq_true]
        simp only [Bool.and_eq_true, decide_eq_true_eq, Bool.not_eq_true', decide_eq_false_iff_not]
        apply or_congr_right
        omega
      rw [ih h, hbit]
      simp only [List.mem_cons, or_and_right, exists_or, exists_eq_left, hp, Option.some.injEq,
        exists_eq_left', or_assoc]

/-- A mask is empty if there are no permissions. -/
theorem permsToDatum_ne_zero {sepolClass : ClassDatum} {perms : List δ} {data : BitVec 32}
    (h : permsToDatum db sepolClass perms 0#32 = some data) :
    data ≠ 0#32 ↔ ∃ p ∈ perms, ∃ value, sepolClass.findPerm (db.fqn p) = some value := by
  constructor
  · intro hne
    by_contra hnone
    apply hne
    apply BitVec.eq_of_getLsbD_eq
    intro i hi
    rw [Bool.eq_iff_iff, permsToDatum_getLsbD h]
    constructor
    · intro hbit
      rcases hbit with hbit | ⟨p, hp, value, hvalue, -⟩
      · exact hbit
      · exact absurd ⟨p, hp, value, hvalue⟩ hnone
    · intro hbit
      exact Or.inl hbit
  · intro hperm hzero
    obtain ⟨p, hp, value, hvalue⟩ := hperm
    have hbit := (permsToDatum_getLsbD h ((value - 1) % 32)).mpr
      (Or.inr ⟨p, hp, value, hvalue, rfl⟩)
    rw [hzero, BitVec.getLsbD_zero] at hbit
    cases hbit

end Permissions

/-- The rule expands to a rule that names, on the key `k`, the permission of value `v`. -/
def Names (db : Db δ) (types : String → Option Nat) (M : Policydb P ν ο) (kind : RuleKind)
    (d₁ d₂ : TypeDatum δ) (cp : Classperms δ) (k : Key) (v : Nat) : Prop :=
  ∃ spec sepolSrc sepolTgt sepolClass, specified kind = some spec ∧
    types (db.fqn d₁.datum) = some sepolSrc ∧ types (db.fqn d₂.datum) = some sepolTgt ∧
    M.classDatum (db.fqn cp.cls) = some sepolClass ∧
    k = ⟨sepolSrc, sepolTgt, sepolClass.value, spec⟩ ∧
    ∃ p ∈ cp.perms, sepolClass.findPerm (db.fqn p) = some v

/-- The entries for the permissions named on keys, at the bits that the code computes. -/
def bits (names : Key → Nat → Prop) : Set (Key × Option Nat) :=
  {x | ∃ v, names x.1 v ∧ ∀ i, x.2 = some i → i = (v - 1) % 32}

/-- What the unconditional table of a state holds. -/
def tableContent {τ : Type} (T : Avtab τ) (s : State δ (Tables τ P)) : Set (Key × Option Nat) :=
  content T s.pdb.teAvtab

section Helper

variable {τ : Type} {T : Avtab τ} {condInsertRule : Key → BitVec 32 → ν × Bool → P → Rc × P}
  {types : String → Option Nat} {M : Policydb P ν ο} {db : Db δ}

theorem names_of_neverallow {d₁ d₂ : TypeDatum δ} {cp : Classperms δ} {k : Key} {v : Nat} :
    ¬ Names db types M .neverallow d₁ d₂ cp k v := by
  intro h
  obtain ⟨spec, _, _, _, hspec, -⟩ := h
  cases hspec

theorem bits_of_none {names : Key → Nat → Prop} (h : ∀ k v, ¬ names k v) : bits names = ∅ := by
  ext x
  simp [bits, h]

/-- The lookup of source and target and the insertion add the bits of the permissions. -/
private theorem insertAvrule_gains {kind : RuleKind} {d₁ d₂ : TypeDatum δ} {cp : Classperms δ}
    {sepolClass : ClassDatum} {data : BitVec 32} {s s' : State δ (Tables τ P)}
    (hclass : M.classDatum (db.fqn cp.cls) = some sepolClass)
    (hdata : permsToDatum db sepolClass cp.perms 0#32 = some data) (hne : data ≠ 0#32)
    (h : Neverallow.insertAvrule db (tablePolicydb T condInsertRule types M) kind d₁ d₂
      sepolClass.value (datumOf kind data) none s = (.ok, s')) :
    content T s'.pdb.teAvtab = content T s.pdb.teAvtab ∪
      bits (Names db types M kind d₁ d₂ cp) := by
  simp only [Neverallow.insertAvrule, tablePolicydb] at h
  cases hsrc : types (db.fqn d₁.datum) with
  | none =>
    simp only [hsrc] at h
    cases h
  | some sepolSrc =>
    cases htgt : types (db.fqn d₂.datum) with
    | none =>
      simp only [hsrc, htgt] at h
      cases h
    | some sepolTgt =>
      simp only [hsrc, htgt, Prod.mk.injEq] at h
      obtain ⟨hrc, rfl⟩ := h
      obtain ⟨spec, hspec, hcontent⟩ := insertAvrule_content (Prod.ext hrc rfl)
      rw [hcontent]
      congr 1
      ext x
      obtain ⟨k, b⟩ := x
      have hnames : ∀ v, Names db types M kind d₁ d₂ cp k v ↔
          k = ⟨sepolSrc, sepolTgt, sepolClass.value, spec⟩ ∧
            ∃ p ∈ cp.perms, sepolClass.findPerm (db.fqn p) = some v := by
        intro v
        simp [Names, hspec, hsrc, htgt, hclass]
      simp only [entry, bits, Set.mem_ofPred_eq, hnames]
      cases b with
      | none =>
        have hperm := (permsToDatum_ne_zero hdata).mp hne
        constructor
        · intro hk
          obtain ⟨p, hp, v, hv⟩ := hperm
          exact ⟨v, ⟨hk.1, p, hp, hv⟩, by simp⟩
        · intro hv
          obtain ⟨v, hk, -⟩ := hv
          exact ⟨hk.1, by simp⟩
      | some i =>
        have hbit := permsToDatum_getLsbD hdata i
        rw [BitVec.getLsbD_zero, Bool.false_eq_true, false_or] at hbit
        simp only [Option.some.injEq, forall_eq', hbit]
        constructor
        · intro hk
          obtain ⟨hk, p, hp, v, hv, hi⟩ := hk
          exact ⟨v, ⟨hk, p, hp, hv⟩, hi⟩
        · intro hv
          obtain ⟨v, ⟨hk, p, hp, hv⟩, hi⟩ := hv
          exact ⟨hk, p, hp, v, hv, hi⟩

/-- What one call of `__cil_avrule_expand_helper` adds outside booleanifs. -/
private theorem avruleExpandHelper_gains {kind : RuleKind} (d₁ d₂ : TypeDatum δ)
    (s : State δ (Tables τ P)) (cp : Classperms δ) (s' : State δ (Tables τ P))
    (h : avruleExpandHelper db (tablePolicydb T condInsertRule types M) kind d₁ d₂ none s cp =
      (.ok, s')) :
    content T s'.pdb.teAvtab = content T s.pdb.teAvtab ∪
      bits (Names db types M kind d₁ d₂ cp) := by
  unfold avruleExpandHelper at h
  cases hclass : M.classDatum (db.fqn cp.cls) with
  | none =>
    simp only [tablePolicydb, hclass] at h
    cases h
  | some sepolClass =>
    have hclass' : (tablePolicydb T condInsertRule types M).classDatum (db.fqn cp.cls) =
        some sepolClass := hclass
    simp only [hclass'] at h
    cases hdata : permsToDatum db sepolClass cp.perms 0#32 with
    | none =>
      simp only [hdata] at h
      cases h
    | some data =>
      simp only [hdata] at h
      by_cases hne : data = 0#32
      · rw [if_pos hne] at h
        cases h
        rw [bits_of_none, Set.union_empty]
        intro k v hv
        obtain ⟨_, _, _, sepolClass', _, _, _, hclass'', _, p, hp, hv⟩ := hv
        rw [hclass] at hclass''
        cases hclass''
        exact (permsToDatum_ne_zero hdata).mpr ⟨p, hp, v, hv⟩ hne
      · rw [if_neg hne] at h
        cases kind with
        | neverallow =>
          have hempty : bits (Names db types M .neverallow d₁ d₂ cp) = ∅ :=
            bits_of_none fun k v => names_of_neverallow
          rw [hempty, Set.union_empty]
          simp only [neverallowHandle] at h
          split at h
          · cases h
          · cases h
            rfl
        | dontaudit => exact insertAvrule_gains hclass hdata hne h
        | auditallow => exact insertAvrule_gains hclass hdata hne h
        | allowed =>
          simp only at h
          split at h
          · exact insertAvrule_gains hclass hdata hne h
          · rename_i hrc
            exact (hrc (Prod.mk.inj h).1).elim

/-- A call in a booleanif leaves the unconditional table as it is. -/
private theorem avruleExpandHelper_cond {kind : RuleKind} {cond : ν × Bool} (d₁ d₂ : TypeDatum δ)
    (s : State δ (Tables τ P)) (cp : Classperms δ) (s' : State δ (Tables τ P))
    (h : avruleExpandHelper db (tablePolicydb T condInsertRule types M) kind d₁ d₂ (some cond)
      s cp = (.ok, s')) :
    content T s'.pdb.teAvtab = content T s.pdb.teAvtab ∪ ∅ := by
  have hinsert : ∀ kind cls data, Neverallow.insertAvrule db
      (tablePolicydb T condInsertRule types M) kind d₁ d₂ cls data (some cond) s = (.ok, s') →
      s'.pdb.teAvtab = s.pdb.teAvtab := by
    intro kind cls data h
    unfold Neverallow.insertAvrule at h
    split at h
    · simp only [Prod.mk.injEq] at h
      obtain ⟨hrc, rfl⟩ := h
      exact insertAvrule_cond (Prod.ext hrc rfl)
    · cases h
  rw [Set.union_empty]
  congr 1
  unfold avruleExpandHelper at h
  split at h
  · cases h
  · split at h
    · cases h
    · split at h
      · cases h
        rfl
      · split at h
        · simp only [neverallowHandle] at h
          split at h
          · cases h
          · cases h
            rfl
        · exact hinsert _ _ _ h
        · exact hinsert _ _ _ h
        · split at h
          · exact hinsert _ _ _ h
          · rename_i hrc
            exact (hrc (Prod.mk.inj h).1).elim

end Helper

/-- A rule in force outside booleanifs names, on the key `k`, the permission of value `v`. -/
def Mentioned (db : Db δ) (types : String → Option Nat) (M : Policydb P ν ο)
    (rules : List (Avrule δ × Option (ν × Bool))) (k : Key) (v : Nat) : Prop :=
  ∃ r, (r, none) ∈ rules ∧ Enforced db r ∧ ∃ d₁ d₂, Pair db r d₁ d₂ ∧
    ∃ items, r.classperms = some items ∧ ∃ cp, Expands db.classperms items cp ∧
      Names db types M r.ruleKind d₁ d₂ cp k v

/-- What the code inserts for the rules. -/
def Inserted (db : Db δ) (types : String → Option Nat) (M : Policydb P ν ο)
    (rules : List (Avrule δ × Option (ν × Bool))) (k : Key) (v : Nat) : Prop :=
  ∃ r, (r, none) ∈ rules ∧ Enforced db r ∧ ∃ d₁ d₂, Taken db r d₁ d₂ ∧
    ∃ items, r.classperms = some items ∧ ∃ cp, Expands db.classperms items cp ∧
      Names db types M r.ruleKind d₁ d₂ cp k v

/-- A misread self rule names, on the type for which its source is taken, the permission. -/
def Mistaken (db : Db δ) (types : String → Option Nat) (M : Policydb P ν ο)
    (rules : List (Avrule δ × Option (ν × Bool))) (k : Key) (v : Nat) : Prop :=
  ∃ r, (r, none) ∈ rules ∧ Enforced db r ∧ r.tgt = .self ∧
    ∃ t u, r.src = .type t ∧ ¬ db.Numbered t ∧ db.valToType (db.value t) = some u ∧
      ∃ items, r.classperms = some items ∧ ∃ cp, Expands db.classperms items cp ∧
        Names db types M r.ruleKind (.type u) (.type u) cp k v

/-- The source of a misread rule is not in the policy: the types put there have values. -/
def OnlyNumbered (db : Db δ) (types : String → Option Nat)
    (rules : List (Avrule δ × Option (ν × Bool))) : Prop :=
  ∀ r, (r, none) ∈ rules → Misread db r → types (db.fqn r.src.datum) = none

/-- The table is the union of the rules: entries for the keys with a permission, and the bit of
every permission named there, which is clear in an entry for dontaudit rules. -/
structure ExactUnion (search : Key → Option (BitVec 32)) (mentioned : Key → Nat → Prop) :
    Prop where
  entry : ∀ k, (∃ data, search k = some data) ↔ ∃ v, mentioned k v
  set : ∀ k data, search k = some data → k.specified ≠ .auditdeny → ∀ v, 0 < v →
    (v ≤ 32 ∧ data.getLsbD (v - 1) = true ↔ mentioned k v)
  clear : ∀ k data, search k = some data → k.specified = .auditdeny → ∀ v, 0 < v →
    (v ≤ 32 ∧ data.getLsbD (v - 1) = false ↔ mentioned k v)

section Union

variable {τ : Type} {T : Avtab τ} {condInsertRule : Key → BitVec 32 → ν × Bool → P → Rc × P}
  {types : String → Option Nat} {M : Policydb P ν ο} {db : Db δ}

/-- What the rule of a list entry adds. -/
def entryGains (db : Db δ) (types : String → Option Nat) (M : Policydb P ν ο)
    (r : Avrule δ × Option (ν × Bool)) : Set (Key × Option Nat) :=
  {x | r.2 = none ∧ x ∈ ruleGains db (fun d₁ d₂ cp => bits (Names db types M r.1.ruleKind d₁ d₂ cp))
    r.1}

private theorem avruleToAvtab_entryGains (fuel : Nat) (r : Avrule δ × Option (ν × Bool)) :
    Gains (tableContent T) (entryGains db types M r)
      (avruleToAvtab db (tablePolicydb T condInsertRule types M) fuel r.1 r.2) := by
  obtain ⟨r, cond⟩ := r
  cases cond with
  | some cond =>
    apply (avruleToAvtab_gains avruleExpandHelper_cond fuel).of_eq
    ext x
    simp [entryGains, ruleGains, gains]
  | none =>
    apply (avruleToAvtab_gains avruleExpandHelper_gains fuel).of_eq
    ext x
    simp [entryGains]

private theorem bits_inserted (rules : List (Avrule δ × Option (ν × Bool))) :
    bits (Inserted db types M rules) = {x | ∃ r ∈ rules, x ∈ entryGains db types M r} := by
  ext x
  simp only [bits, Inserted, entryGains, ruleGains, gains, Set.mem_ofPred_eq]
  constructor
  · intro hx
    obtain ⟨v, ⟨r, hr, he, d₁, d₂, hpair, items, hitems, cp, hcp, hnames⟩, hi⟩ := hx
    exact ⟨(r, none), hr, rfl, he, d₁, d₂, hpair, items, hitems, cp, hcp, v, hnames, hi⟩
  · intro hx
    obtain ⟨⟨r, _⟩, hr, rfl, he, d₁, d₂, hpair, items, hitems, cp, hcp, v, hnames, hi⟩ := hx
    exact ⟨v, ⟨r, hr, he, d₁, d₂, hpair, items, hitems, cp, hcp, hnames⟩, hi⟩

/-- What the rules of a list add, in whatever order they stand. -/
theorem processAll_content (fuel : Nat) (rules : List (Avrule δ × Option (ν × Bool))) :
    Gains (tableContent T)
      (bits (Inserted db types M rules))
      (processAll (fun r => avruleToAvtab db (tablePolicydb T condInsertRule types M) fuel r.1 r.2)
        rules) := by
  rw [bits_inserted]
  exact processAll_gains fun r _ => avruleToAvtab_entryGains fuel r

theorem content_empty {t : τ} (h : ∀ k, T.search t k = none) : content T t = ∅ := by
  ext x
  simp [content, h]

/-- A table that holds the bits of permissions of values 1 to 32 is their exact union. -/
theorem exactUnion_of_content {t : τ} {mentioned : Key → Nat → Prop}
    (hcontent : content T t = bits mentioned)
    (hvalues : ∀ k v, mentioned k v → 0 < v ∧ v ≤ 32) : ExactUnion (T.search t) mentioned := by
  have hmem : ∀ x, x ∈ content T t ↔ x ∈ bits mentioned := fun x => by rw [hcontent]
  have hbit : ∀ k data, T.search t k = some data → ∀ v, 0 < v →
      ((permsOf k.specified data).getLsbD (v - 1) = true ∧ v ≤ 32 ↔ mentioned k v) := by
    intro k data hsearch v hv
    have hx := hmem (k, some (v - 1))
    simp only [content, bits, Set.mem_ofPred_eq, hsearch, Option.some.injEq, exists_eq_left',
      forall_eq'] at hx
    constructor
    · intro h
      obtain ⟨v', hv', hi⟩ := hx.mp h.1
      obtain ⟨hpos, hle⟩ := hvalues k v' hv'
      have heq : v = v' := by omega
      rwa [heq]
    · intro h
      have hle := (hvalues k v h).2
      exact ⟨hx.mpr ⟨v, h, by omega⟩, hle⟩
  constructor
  · intro k
    have hx := hmem (k, none)
    simpa [content, bits] using hx
  · intro k data hsearch hspec v hv
    have h := hbit k data hsearch v hv
    rw [permsOf, if_neg hspec, and_comm] at h
    exact h
  · intro k data hsearch hspec v hv
    have h := hbit k data hsearch v hv
    rw [permsOf, if_pos hspec, BitVec.getLsbD_not, Bool.and_eq_true, decide_eq_true_eq,
      Bool.not_eq_true'] at h
    rw [← h]
    constructor
    · intro hclear
      have hlt : v - 1 < 32 := by omega
      exact ⟨⟨hlt, hclear.2⟩, hclear.1⟩
    · intro hset
      exact ⟨hset.2, hset.1.2⟩

/-- A word has bits for the permissions of values up to 32 only. -/
theorem ExactUnion.le {search : Key → Option (BitVec 32)} {mentioned : Key → Nat → Prop}
    (h : ExactUnion search mentioned) {k : Key} {v : Nat} (hv : mentioned k v) (hpos : 0 < v) :
    v ≤ 32 := by
  obtain ⟨data, hdata⟩ := (h.entry k).mpr ⟨v, hv⟩
  by_cases hspec : k.specified = .auditdeny
  · exact ((h.clear k data hdata hspec v hpos).mpr hv).1
  · exact ((h.set k data hdata hspec v hpos).mpr hv).1

/-- The bit of an entry is that of a permission whose bit it is. -/
theorem ExactUnion.mem_bits {t : τ} {mentioned : Key → Nat → Prop}
    (h : ExactUnion (T.search t) mentioned) {k : Key} {i : Nat} (hlt : i < 32)
    (hi : (k, some i) ∈ content T t) : (k, some i) ∈ bits mentioned := by
  obtain ⟨data, hdata, hbit⟩ := hi
  have hset := hbit i rfl
  refine ⟨i + 1, ?_, fun j hj => by cases hj; omega⟩
  by_cases hspec : k.specified = .auditdeny
  · rw [permsOf, if_pos hspec, BitVec.getLsbD_not, Bool.and_eq_true, Bool.not_eq_true'] at hset
    exact (h.clear k data hdata hspec (i + 1) (by omega)).mp ⟨hlt, hset.2⟩
  · rw [permsOf, if_neg hspec] at hset
    exact (h.set k data hdata hspec (i + 1) (by omega)).mp ⟨hlt, hset⟩

/-- A table that holds the bits of what was inserted is the exact union of what was mentioned
where this fits and has the bits of the rest. -/
private theorem exactUnion_iff_of_content {t : τ} {mentioned mistaken : Key → Nat → Prop}
    (hcontent : content T t = bits fun k v => mentioned k v ∨ mistaken k v)
    (hpositive : ∀ k v, mentioned k v → 0 < v) :
    ExactUnion (T.search t) mentioned ↔ (∀ k v, mentioned k v → v ≤ 32) ∧
      ∀ k v, mistaken k v → ∃ w, mentioned k w ∧ (w - 1) % 32 = (v - 1) % 32 := by
  constructor
  · intro hunion
    refine ⟨fun k v hv => hunion.le hv (hpositive k v hv), fun k v hv => ?_⟩
    have hinserted : (k, some ((v - 1) % 32)) ∈ content T t := by
      rw [hcontent]
      exact ⟨v, .inr hv, fun i hi => (Option.some.inj hi).symm⟩
    obtain ⟨w, hw, hbit⟩ := hunion.mem_bits (Nat.mod_lt _ (by decide)) hinserted
    exact ⟨w, hw, (hbit _ rfl).symm⟩
  · rintro ⟨hle, hmistaken⟩
    apply exactUnion_of_content _ fun k v hv => ⟨hpositive k v hv, hle k v hv⟩
    rw [hcontent]
    ext ⟨k, b⟩
    constructor
    · rintro ⟨v, hv | hv, hb⟩
      · exact ⟨v, hv, hb⟩
      · obtain ⟨w, hw, heq⟩ := hmistaken k v hv
        exact ⟨w, hw, fun i hi => (hb i hi).trans heq.symm⟩
    · rintro ⟨v, hv, hb⟩
      exact ⟨v, .inl hv, hb⟩

/-- The permissions of the classes in the policy database have values from 1 on. -/
def PositiveValues (M : Policydb P ν ο) : Prop :=
  ∀ cls sepolClass, M.classDatum cls = some sepolClass →
    ∀ key v, sepolClass.findPerm key = some v → 0 < v

theorem PositiveValues.mentioned (h : PositiveValues M)
    {rules : List (Avrule δ × Option (ν × Bool))} {k : Key} {v : Nat}
    (hv : Mentioned db types M rules k v) : 0 < v := by
  obtain ⟨r, -, -, d₁, d₂, -, items, -, cp, -, hnames⟩ := hv
  obtain ⟨_, _, _, sepolClass, -, -, -, hclass, -, p, -, hv⟩ := hnames
  exact h _ sepolClass hclass _ v hv

/-- A misread rule names nothing itself: its source is not in the policy. -/
private theorem inserted_iff {rules : List (Avrule δ × Option (ν × Bool))}
    (hknown : OnlyNumbered db types rules) {k : Key} {v : Nat} :
    Inserted db types M rules k v ↔
      Mentioned db types M rules k v ∨ Mistaken db types M rules k v := by
  constructor
  · rintro ⟨r, hr, henforced, d₁, d₂, htaken, items, hitems, cp, hcp, hnames⟩
    by_cases hread : Misread db r
    · right
      obtain ⟨htgt, t, hsrc, hnot⟩ := hread
      unfold Taken at htaken
      rw [htgt] at htaken
      obtain ⟨types', i, u, htypes, hbit, hu, rfl, rfl⟩ := htaken
      rw [hsrc] at htypes
      obtain rfl : WordBitmap.single (db.value t) = types' := Option.some.inj htypes
      rw [WordBitmap.getBit_single.mp hbit] at hu
      exact ⟨r, hr, henforced, htgt, t, u, hsrc, hnot, hu, items, hitems, cp, hcp, hnames⟩
    · left
      exact ⟨r, hr, henforced, d₁, d₂, (taken_iff_pair hread).mp htaken, items, hitems, cp, hcp,
        hnames⟩
  · rintro (⟨r, hr, henforced, d₁, d₂, hpair, items, hitems, cp, hcp, hnames⟩ |
      ⟨r, hr, henforced, htgt, t, u, hsrc, -, hu, items, hitems, cp, hcp, hnames⟩)
    · have hread : ¬ Misread db r := by
        intro hread
        have hnone := hknown r hr hread
        obtain ⟨htgt, t, hsrc, -⟩ := hread
        unfold Pair at hpair
        rw [htgt] at hpair
        obtain ⟨t', ht', rfl, rfl⟩ := hpair
        rw [hsrc] at ht' hnone
        obtain rfl : t' = t := ht'
        obtain ⟨_, _, _, _, -, hsepol, -⟩ := hnames
        rw [hnone] at hsepol
        cases hsepol
      exact ⟨r, hr, henforced, d₁, d₂, (taken_iff_pair hread).mpr hpair, items, hitems, cp, hcp,
        hnames⟩
    · refine ⟨r, hr, henforced, .type u, .type u, ?_, items, hitems, cp, hcp, hnames⟩
      unfold Taken
      rw [htgt, hsrc]
      exact ⟨.single (db.value t), db.value t, u, rfl, WordBitmap.getBit_single.mpr rfl, hu, rfl,
        rfl⟩

theorem inserted_eq_mentioned {rules : List (Avrule δ × Option (ν × Bool))}
    (hread : ∀ r, (r, none) ∈ rules → ¬ Misread db r) :
    Inserted db types M rules = Mentioned db types M rules := by
  funext k v
  apply propext
  constructor
  · rintro ⟨r, hr, henforced, d₁, d₂, htaken, hnames⟩
    exact ⟨r, hr, henforced, d₁, d₂, (taken_iff_pair (hread r hr)).mp htaken, hnames⟩
  · rintro ⟨r, hr, henforced, d₁, d₂, hpair, hnames⟩
    exact ⟨r, hr, henforced, d₁, d₂, (taken_iff_pair (hread r hr)).mpr hpair, hnames⟩

private theorem bits_inserted_iff {rules : List (Avrule δ × Option (ν × Bool))}
    (hknown : OnlyNumbered db types rules) :
    bits (Inserted db types M rules) =
      bits fun k v => Mentioned db types M rules k v ∨ Mistaken db types M rules k v := by
  congr 1
  funext k v
  exact propext (inserted_iff hknown)

end Union

section Create

variable {τ : Type} {T : Avtab τ} {condInsertRule : Key → BitVec 32 → ν × Bool → P → Rc × P}
  {types : String → Option Nat} {M : Policydb P ν ο} {db : Db δ}

/-- The rules outside booleanifs, in the order in which the walks reach them. -/
def unconditional (ast : Tree (NodeData δ ο)) : List (Avrule δ × Option (ν × Bool)) :=
  (ast.walk NodeData.skipHead).filterMap fun d =>
    match d with
    | .avrule r => some (r, none)
    | _ => none

private theorem onPolicydb_gains {f : Tables τ P → Rc × Tables τ P}
    (h : ∀ pdb, (f pdb).2.teAvtab = pdb.teAvtab) :
    Gains (tableContent T) ∅ (onPolicydb f : Call Rc (State δ (Tables τ P)) Unit) := by
  intro s u s' hrun
  unfold onPolicydb at hrun
  split at hrun
  · rename_i pdb heq
    cases hrun
    have hsame := h s.pdb
    rw [heq] at hsame
    show content T pdb.teAvtab = content T s.pdb.teAvtab ∪ ∅
    rw [hsame, Set.union_empty]
  · cases hrun

private theorem entryGains_some (r : Avrule δ) (cond : ν × Bool) :
    entryGains db types M (r, some cond) = ∅ := by
  ext x
  simp [entryGains]

theorem entryGains_neverallow {r : Avrule δ} (hr : r.ruleKind = .neverallow) :
    entryGains db types M (r, none) = ∅ := by
  ext x
  simp [entryGains, ruleGains, gains, hr, bits_of_none fun k v => names_of_neverallow]

private theorem condToPolicydbHelper_gains (fuel : Nat) (cond : ν × Bool) (d : CondData δ ο) :
    Gains (tableContent T) ∅
      (condToPolicydbHelper db (tablePolicydb T condInsertRule types M) fuel cond d) := by
  cases d with
  | avrule r =>
    have hrule : Gains (tableContent T) (entryGains db types M (r.1, some cond))
        (avruleToAvtab db (tablePolicydb T condInsertRule types M) fuel r.1 (some cond)) :=
      avruleToAvtab_entryGains fuel (r.1, some cond)
    exact (hrule.of_eq (entryGains_some r.1 cond)).withError Rc.err
  | rule stmt => exact (onPolicydb_gains fun _ => rfl).withError Rc.err
  | call => exact Gains.pure ()
  | tunableif => exact Gains.pure ()
  | invalid => exact Gains.fail Rc.err

private theorem condblockToPolicydb_gains (fuel : Nat) (cond : ν × Bool)
    (block : Option (CondBlock δ ο)) :
    Gains (tableContent T) ∅
      (condblockToPolicydb db (tablePolicydb T condInsertRule types M) fuel cond block) := by
  cases block with
  | none => exact Gains.pure ()
  | some cb =>
    apply (processAll_gains fun d _ => condToPolicydbHelper_gains fuel cond d).of_eq
    ext x
    simp

private theorem booleanifToPolicydb_gains (fuel : Nat) (expr : ο) (blocks : List (CondBlock δ ο)) :
    Gains (tableContent T) ∅
      (booleanifToPolicydb db (tablePolicydb T condInsertRule types M) fuel expr blocks) := by
  intro s u s' hrun
  unfold booleanifToPolicydb at hrun
  obtain ⟨t, t', hget, hrun⟩ := Call.bind_ok hrun
  cases hget
  cases hcond : M.condNode expr s.pdb.rest with
  | none =>
    simp only [tablePolicydb, hcond, Option.map_none] at hrun
    cases hrun
  | some r =>
    obtain ⟨condNode, swapped, rest⟩ := r
    simp only [tablePolicydb, hcond, Option.map_some] at hrun
    obtain ⟨_, t, hmodify, hrun⟩ := Call.bind_ok hrun
    cases hmodify
    obtain ⟨_, t', htrue, hfalse⟩ := Call.bind_ok hrun
    have h₁ := condblockToPolicydb_gains fuel _ _ _ _ _ htrue
    have h₂ := condblockToPolicydb_gains fuel _ _ _ _ _ hfalse
    rw [h₂, h₁, Set.union_empty]
    rfl

/-- A pass over the tree adds something in the third pass only, for the rules it reaches. -/
def nodeGains (db : Db δ) (types : String → Option Nat) (M : Policydb P ν ο) (pass : Nat)
    (d : NodeData δ ο) : Set (Key × Option Nat) :=
  {x | pass = 3 ∧ ∃ r, d = .avrule r ∧ x ∈ entryGains db types M (r, none)}

private theorem nodeToPolicydb_gains (fuel pass : Nat) (d : NodeData δ ο) :
    Gains (tableContent T) (nodeGains db types M pass d)
      (nodeToPolicydb db (tablePolicydb T condInsertRule types M) fuel pass d) := by
  have hnone : (∀ r, d ≠ .avrule r) → nodeGains db types M pass d = ∅ := by
    intro h
    ext x
    simp [nodeGains, h]
  cases d with
  | macroDef => exact (Gains.pure ()).of_eq (hnone (by simp)).symm
  | block isAbstract => exact (Gains.pure ()).of_eq (hnone (by simp)).symm
  | other stmt => exact (onPolicydb_gains fun _ => rfl).of_eq (hnone (by simp)).symm
  | booleanif expr blocks =>
    rw [hnone (by simp), nodeToPolicydb]
    split
    · exact booleanifToPolicydb_gains fuel expr blocks
    · exact Gains.pure ()
  | avrule r =>
    have hrule : Gains (tableContent T) (entryGains db types M (r, none))
        (avruleToPolicydb db (tablePolicydb T condInsertRule types M) fuel r) :=
      avruleToAvtab_entryGains fuel (r, none)
    have hnode : nodeGains db types M pass (.avrule r) =
        {x | pass = 3 ∧ x ∈ entryGains db types M (r, none)} := by
      ext x
      simp [nodeGains]
    rw [hnode, nodeToPolicydb]
    by_cases hpass : pass = 2 ∧ r.ruleKind = .neverallow
    · rw [if_pos hpass]
      have hnew : Gains (tableContent T) ∅ (Call.modify fun s : State δ (Tables τ P) =>
          { s with neverallows := [] :: s.neverallows } : Call Rc (State δ (Tables τ P)) Unit) :=
        Gains.modify fun _ => rfl
      apply (hnew.after fun _ => hrule).of_eq
      ext x
      simp [hpass.1, entryGains_neverallow hpass.2]
    · rw [if_neg hpass]
      split
      · rename_i hthird
        apply hrule.of_eq
        ext x
        simp [hthird.1]
      · rename_i hthird
        apply (Gains.pure ()).of_eq
        ext x
        simp only [Set.mem_empty_iff_false, Set.mem_ofPred_eq, false_iff]
        intro hx
        have hkind : r.ruleKind = .neverallow := by
          by_contra hne
          exact hthird ⟨hx.1, hne⟩
        rw [entryGains_neverallow hkind] at hx
        exact hx.2

private theorem binaryPass_gains (fuel pass : Nat) (ast : Tree (NodeData δ ο)) :
    Gains (tableContent T)
      {x | pass = 3 ∧ x ∈ bits (Inserted db types M (unconditional ast))}
      (binaryPass db (tablePolicydb T condInsertRule types M) fuel pass ast) := by
  apply (processAll_gains fun d _ => nodeToPolicydb_gains fuel pass d).of_eq
  ext x
  simp only [nodeGains, bits_inserted, unconditional, Set.mem_ofPred_eq, List.mem_filterMap]
  constructor
  · intro hx
    obtain ⟨d, hd, hpass, r, rfl, hr⟩ := hx
    exact ⟨hpass, (r, none), ⟨.avrule r, hd, rfl⟩, hr⟩
  · intro hx
    obtain ⟨hpass, r, ⟨d, hd, heq⟩, hr⟩ := hx
    cases d with
    | avrule r' =>
      obtain rfl := Option.some.inj heq
      exact ⟨.avrule r', hd, hpass, r', rfl, hr⟩
    | macroDef => cases heq
    | block isAbstract => cases heq
    | other stmt => cases heq
    | booleanif expr blocks => cases heq

/-- The creation of a binary policy leaves in the unconditional table the union of the bits of
the rules outside booleanifs. -/
private theorem binaryCreate_content (fuel : Nat) (ast : Tree (NodeData δ ο)) (pdb : Tables τ P)
    (s' : State δ (Tables τ P)) (hempty : ∀ k, T.search pdb.teAvtab k = none)
    (hrun : binaryCreate db (tablePolicydb T condInsertRule types M) fuel ast pdb =
      some (.ok () s')) :
    content T s'.pdb.teAvtab = bits (Inserted db types M (unconditional ast)) := by
  have hfirst : Gains (tableContent T) ∅
      (binaryPass db (tablePolicydb T condInsertRule types M) fuel 1 ast) :=
    (binaryPass_gains fuel 1 ast).of_eq (by ext x; simp)
  have hsecond : Gains (tableContent T) ∅
      (binaryPass db (tablePolicydb T condInsertRule types M) fuel 2 ast) :=
    (binaryPass_gains fuel 2 ast).of_eq (by ext x; simp)
  have hthird : Gains (tableContent T) (bits (Inserted db types M (unconditional ast)))
      (binaryPass db (tablePolicydb T condInsertRule types M) fuel 3 ast) :=
    (binaryPass_gains fuel 3 ast).of_eq (by ext x; simp)
  have hlast := hthird.bind fun _ =>
    (onPolicydb_gains fun _ => rfl : Gains (tableContent T) ∅
      (onPolicydb (tablePolicydb T condInsertRule types M).finish :
        Call Rc (State δ (Tables τ P)) Unit))
  have hall := (onPolicydb_gains fun _ => rfl : Gains (tableContent T) ∅
      (onPolicydb (tablePolicydb T condInsertRule types M).init :
        Call Rc (State δ (Tables τ P)) Unit)).after fun _ => hfirst.after fun _ =>
    (onPolicydb_gains fun _ => rfl : Gains (tableContent T) ∅
      (onPolicydb (tablePolicydb T condInsertRule types M).valArraysCreate :
        Call Rc (State δ (Tables τ P)) Unit)).after fun _ => hsecond.after fun _ => hlast
  have hrunGains : content T s'.pdb.teAvtab = content T pdb.teAvtab ∪
      (bits (Inserted db types M (unconditional ast)) ∪ ∅) := hall ⟨[], pdb⟩ () s' hrun
  rw [hrunGains, content_empty hempty, Set.empty_union, Set.union_empty]

/-- The policy that is written has the union of the rules of its source if and only if they
name no permission of a value above 32 and what is inserted for a misread self rule is named
anyway. -/
theorem binaryCreate_exactUnion (hvalues : PositiveValues M) (fuel : Nat)
    (ast : Tree (NodeData δ ο)) (hknown : OnlyNumbered (ν := ν) db types (unconditional ast))
    (pdb : Tables τ P) (s' : State δ (Tables τ P))
    (hempty : ∀ k, T.search pdb.teAvtab k = none)
    (hrun : binaryCreate db (tablePolicydb T condInsertRule types M) fuel ast pdb =
      some (.ok () s')) :
    ExactUnion (T.search s'.pdb.teAvtab) (Mentioned db types M (unconditional ast)) ↔
      (∀ k v, Mentioned db types M (unconditional ast) k v → v ≤ 32) ∧
        ∀ k v, Mistaken db types M (unconditional ast) k v →
          ∃ w, Mentioned db types M (unconditional ast) k w ∧ (w - 1) % 32 = (v - 1) % 32 := by
  apply exactUnion_iff_of_content
  · rw [binaryCreate_content fuel ast pdb s' hempty hrun, bits_inserted_iff hknown]
  · exact fun _ _ hv => hvalues.mentioned hv

end Create

section ManyPermissions

/-- The table of the policy library as a function. -/
def functionAvtab : Avtab (Key → Option (BitVec 32)) where
  search t k := t k
  insert t k data := (.ok, Function.update t k (some data))
  assign t k data := Function.update t k (some data)
  search_insert := by
    intro t k data t' h k'
    cases h
    rw [Function.update_apply]
  search_assign := by
    intro t k data k'
    rw [Function.update_apply]

/-- Two types, and the first and the last permission of a class with 33 permissions. -/
inductive Declaration
  | a
  | b
  | file
  | p1
  | p33
  deriving DecidableEq, Repr

def declarationDb : Db Declaration where
  fqn
    | .a => "a"
    | .b => "b"
    | .file => "file"
    | .p1 => "p1"
    | .p33 => "p33"
  value
    | .b => 1
    | _ => 0
  types _ := none
  classperms _ := none
  valToType
    | 0 => some .a
    | 1 => some .b
    | _ => none
  value_valToType := by
    intro i t h
    match i with
    | 0 => cases h; rfl
    | 1 => cases h; rfl
    | _ + 2 => cases h
  disableDontaudit := false
  disableNeverallow := false

def permissionValue (key : String) : Option Nat :=
  ((List.range 33).find? fun i => key = "p" ++ toString (i + 1)).map (· + 1)

/-- A policy database in which the class is, with nothing else to be done. -/
def classPolicydb : Policydb Unit Unit Unit where
  classDatum key := if key = "file" then some ⟨1, permissionValue, none⟩ else none
  typeDatum _ _ := none
  init _ := (.ok, ())
  valArraysCreate _ := (.ok, ())
  finish _ := (.ok, ())
  insertAvrule _ _ _ _ _ _ _ := (.ok, ())
  condNode _ _ := some ((), false, ())
  condRule _ _ _ := (.ok, ())
  statement _ _ _ := (.ok, ())

def typeValue (key : String) : Option Nat :=
  if key = "a" then some 1 else if key = "b" then some 2 else none

def ruleFor (p : Declaration) : Avrule Declaration :=
  ⟨.allowed, .type .a, .datum (.type .b), some [.kernel ⟨.file, [p]⟩]⟩

/-- The rules `(allow a b (file (p)))`. -/
def rulesFor (ps : List Declaration) : List (Avrule Declaration × Option (Unit × Bool)) :=
  ps.map fun p => (ruleFor p, none)

/-- The policy database with an empty table. -/
def emptyTable : State Declaration (Tables (Key → Option (BitVec 32)) Unit) :=
  ⟨[], ⟨fun _ => none, ()⟩⟩

def insertRules (ps : List Declaration) :
    Option (Returned Rc (State Declaration (Tables (Key → Option (BitVec 32)) Unit)) Unit) :=
  processAll (fun r => avruleToAvtab declarationDb
      (tablePolicydb functionAvtab (fun _ _ _ _ => (.ok, ())) typeValue classPolicydb) 2 r.1 r.2)
    (rulesFor ps) emptyTable

private theorem classPolicydb_positiveValues : PositiveValues classPolicydb := by
  intro cls sepolClass hclass key v hv
  simp only [classPolicydb] at hclass
  split at hclass
  · cases hclass
    simp only [ClassDatum.findPerm, permissionValue] at hv
    split at hv
    · rename_i value hvalue
      cases hv
      obtain ⟨i, -, rfl⟩ := Option.map_eq_some_iff.mp hvalue
      exact Nat.succ_pos i
    · cases hv
  · cases hclass

private theorem mentioned_p33 :
    Mentioned declarationDb typeValue classPolicydb (rulesFor [.p33]) ⟨1, 2, 1, .allowed⟩ 33 := by
  refine ⟨ruleFor .p33, List.mem_singleton.mpr rfl, ⟨by decide, by decide⟩, .type .a, .type .b,
    ⟨rfl, rfl⟩, [.kernel ⟨.file, [.p33]⟩], rfl, ⟨.file, [.p33]⟩, .kernel List.mem_cons_self, ?_⟩
  exact ⟨.allowed, 1, 2, ⟨1, permissionValue, none⟩, rfl, rfl, rfl, rfl, rfl, .p33,
    List.mem_cons_self, by decide +kernel⟩

theorem rulesFor_read (ps : List Declaration) :
    ∀ r, (r, none) ∈ rulesFor ps → ¬ Misread declarationDb r := by
  intro r hr hread
  obtain ⟨p, -, heq⟩ := List.mem_map.mp hr
  obtain rfl : ruleFor p = r := congrArg Prod.fst heq
  cases hread.1

end ManyPermissions

end Cil.Binary.AvruleTable
