/- Cil/Binary/ConditionalsFacts
   digest: What each step of the conversion of rules adds to the tables. -/

import Cil.Binary.Conditionals

set_option autoImplicit false
set_option relaxedAutoImplicit false

namespace Cil.Binary.Conditionals

open Library ClassPerms
open Cil.Expr (Item)
open Build (shaped)
open CondExpr (truth)
open Postfix (CondExpr evalCell evalCells valueOf exprNeed)
open Library.Postfix (StaysWithin)
open Conditional (CondLibrary sepolExpr)
open AvruleTable (Key Tables Avtab Names bits content entry permsOf datumOf specified tablePolicydb)
open Neverallow (Policydb State Db ClassDatum Avrule RuleKind TypeDatum Classperms Pair)

variable {τ τ₀ δ ο ρ : Type}

section Facts

/-- The entries for an access vector. -/
def Datum.content : Datum τ → Set (Key × Option Nat)
  | .accessVector key data => entry key (permsOf key.specified data)
  | .typeRule _ => ∅

/-- What the tables say: an entry outside conditionals, an entry on the list for a flavor of the
conditional node of a number, and the expression of that node. -/
inductive Fact
  | unconditional (x : Key × Option Nat)
  | filed (x : Key × Option Nat) (i : Nat) (flavor : Bool)
  | expr (i : Nat) (L : List CondExpr)

/-- An access vector is in the table node `p`. -/
def At (avtab : List (AvtabNode τ)) (p : Nat) (x : Key × Option Nat) : Prop :=
  ∃ a, avtab[p]? = some a ∧ x ∈ a.datum.content

def CondTables.Filed (t : CondTables τ) (x : Key × Option Nat) (i : Nat) (flavor : Bool) : Prop :=
  ∃ n, t.condList[i]? = some n ∧ ∃ p ∈ n.list flavor, At t.avtab p x

def CondTables.HasExpr (t : CondTables τ) (i : Nat) (L : List CondExpr) : Prop :=
  ∃ n, t.condList[i]? = some n ∧ n.expr = L

def Holds (T : Avtab τ₀) (pdb : Tables τ₀ (CondPolicydb τ ρ)) : Fact → Prop
  | .unconditional x => x ∈ content T pdb.teAvtab
  | .filed x i flavor => pdb.rest.cond.Filed x i flavor
  | .expr i L => pdb.rest.cond.HasExpr i L

def facts (T : Avtab τ₀) (s : State δ (Tables τ₀ (CondPolicydb τ ρ))) : Set Fact :=
  {f | Holds T s.pdb f}

/-- What an insertion for an entry of a rule says. -/
def place (x : Key × Option Nat) : Option (Nat × Bool) → Fact
  | none => .unconditional x
  | some cond => .filed x cond.1 cond.2

end Facts

section Insertion

variable {t t' : CondTables τ}

theorem mem_attached {n : CondNode} {p : Nat} {flavor : Bool} (hp : p ∈ n.list flavor) :
    p ∈ n.attached := by
  cases flavor with
  | true => exact List.mem_append_left _ hp
  | false => exact List.mem_append_right _ hp

private theorem lt_of_linked {i p : Nat} {n : CondNode} {flavor : Bool}
    (hn : t.condList[i]? = some n) (hp : p ∈ n.list flavor) : p < t.avtab.length := by
  have hmem : p ∈ t.condList.flatMap CondNode.attached :=
    List.mem_flatMap.mpr ⟨n, List.mem_of_getElem? hn, mem_attached hp⟩
  exact List.mem_range.mp (t.linked.mem_iff.mp hmem)

theorem CondNode.list_attach (n : CondNode) (flavor g : Bool) (p : Nat) :
    (n.attach g p).list flavor = if flavor = g then p :: n.list flavor else n.list flavor := by
  by_cases hg : flavor = g
  · subst hg
    rw [if_pos rfl]
    exact Function.update_self _ _ _
  · rw [if_neg hg]
    exact Function.update_of_ne hg _ _

/-- Pointers to the nodes that were there lead to what they led to. -/
private theorem at_append_of_lt {avtab : List (AvtabNode τ)} (a : AvtabNode τ) {p : Nat}
    (hp : p < avtab.length) (x : Key × Option Nat) : At (avtab ++ [a]) p x ↔ At avtab p x := by
  unfold At
  rw [List.getElem?_append_left hp]

private theorem at_append_length (avtab : List (AvtabNode τ)) (a : AvtabNode τ)
    (x : Key × Option Nat) :
    At (avtab ++ [a]) avtab.length x ↔ x ∈ a.datum.content := by
  unfold At
  rw [List.getElem?_concat_length]
  simp

/-- The list with the new table node on it. -/
private theorem exists_at_attach {n : CondNode} {i : Nat} (hn : t.condList[i]? = some n)
    (d : Datum τ) (g flavor : Bool) (x : Key × Option Nat) :
    (∃ p ∈ (n.attach g t.avtab.length).list flavor, At (t.avtab ++ [⟨d, false⟩]) p x) ↔
      (∃ p ∈ n.list flavor, At t.avtab p x) ∨ flavor = g ∧ x ∈ d.content := by
  have hold : (∃ p ∈ n.list flavor, At (t.avtab ++ [⟨d, false⟩]) p x) ↔
      ∃ p ∈ n.list flavor, At t.avtab p x := by
    apply exists_congr
    intro p
    apply and_congr_right
    intro hp
    exact at_append_of_lt _ (lt_of_linked hn hp) x
  rw [CondNode.list_attach]
  by_cases hg : flavor = g
  · subst hg
    rw [if_pos rfl]
    simp only [List.mem_cons, or_and_right, exists_or, exists_eq_left, hold, at_append_length,
      true_and]
    exact or_comm
  · rw [if_neg hg, hold]
    simp [hg]

/-- An insertion puts the new table node on its list, and leaves the expressions. -/
theorem condInsertRule_ok {d : Datum τ} {cond : Nat × Bool}
    (h : condInsertRule d cond t = (.ok, t')) :
    (∀ x i flavor, t'.Filed x i flavor ↔ t.Filed x i flavor ∨ (i, flavor) = cond ∧ x ∈ d.content) ∧
      ∀ i L, t'.HasExpr i L ↔ t.HasExpr i L := by
  obtain ⟨j, g⟩ := cond
  unfold condInsertRule at h
  split at h
  · cases h
  · rename_i n hn
    cases h
    have hlen : j < t.condList.length := (List.getElem?_eq_some_iff.mp hn).1
    refine ⟨fun x i flavor => ?_, fun i L => ?_⟩
    · unfold CondTables.Filed
      by_cases hij : i = j
      · subst hij
        rw [List.getElem?_set_self hlen]
        simp only [Option.some.injEq, exists_eq_left', hn, Prod.mk.injEq, true_and]
        exact exists_at_attach hn d g flavor x
      · rw [List.getElem?_set_ne fun heq => hij heq.symm]
        have hne : ¬ ((i, flavor) = (j, g) ∧ x ∈ d.content) := fun hx => hij (Prod.mk.inj hx.1).1
        rw [or_iff_left hne]
        apply exists_congr
        intro m
        apply and_congr_right
        intro hm
        apply exists_congr
        intro p
        apply and_congr_right
        intro hp
        exact at_append_of_lt _ (lt_of_linked hm hp) x
    · unfold CondTables.HasExpr
      by_cases hij : i = j
      · subst hij
        rw [List.getElem?_set_self hlen]
        simp only [Option.some.injEq, exists_eq_left', hn]
        exact Iff.rfl
      · rw [List.getElem?_set_ne fun heq => hij heq.symm]

/-- A type rule adds no access vectors. -/
private theorem condInsertRules_ok {cond : Nat × Bool} {rs : List τ}
    (h : condInsertRules cond rs t = (.ok, t')) :
    (∀ x i flavor, t'.Filed x i flavor ↔ t.Filed x i flavor) ∧
      ∀ i L, t'.HasExpr i L ↔ t.HasExpr i L := by
  induction rs generalizing t with
  | nil =>
      cases h
      exact ⟨fun _ _ _ => Iff.rfl, fun _ _ => Iff.rfl⟩
  | cons r rs ih =>
      rw [condInsertRules] at h
      split at h
      · rename_i t₁ hfirst
        obtain ⟨hfiled, hexpr⟩ := condInsertRule_ok hfirst
        obtain ⟨hfiled', hexpr'⟩ := ih h
        refine ⟨fun x i flavor => ?_, fun i L => (hexpr' i L).trans (hexpr i L)⟩
        rw [hfiled', hfiled]
        have hnone : ¬ ((i, flavor) = cond ∧ x ∈ (Datum.typeRule r).content) := fun hx => hx.2
        exact or_iff_left hnone
      · rename_i rc t₁ hne hfirst
        cases h
        exact absurd rfl hne

end Insertion

section Rules

/-- The entry for the permissions of a class, and the names of these on its key. -/
private theorem bits_eq_entry {db : Db δ} {names : Key → Nat → Prop} {key : Key}
    {sepolClass : ClassDatum} {perms : List δ} {data : BitVec 32}
    (hnames : ∀ k v, names k v ↔
      k = key ∧ ∃ p ∈ perms, sepolClass.findPerm (db.fqn p) = some v)
    (hdata : Neverallow.permsToDatum db sepolClass perms 0#32 = some data) (hne : data ≠ 0#32) :
    bits names = entry key data := by
  obtain ⟨p₀, hp₀, v₀, hv₀⟩ := (AvruleTable.permsToDatum_ne_zero hdata).mp hne
  ext ⟨k, b⟩
  simp only [bits, entry, Set.mem_ofPred_eq, hnames]
  constructor
  · rintro ⟨v, ⟨hk, p, hp, hv⟩, hbit⟩
    refine ⟨hk, fun i hi => ?_⟩
    exact (AvruleTable.permsToDatum_getLsbD hdata i).mpr (Or.inr ⟨p, hp, v, hv, hbit i hi⟩)
  · rintro ⟨hk, hbit⟩
    cases b with
    | none => exact ⟨v₀, ⟨hk, p₀, hp₀, hv₀⟩, by simp⟩
    | some i =>
        have hset := (AvruleTable.permsToDatum_getLsbD hdata i).mp (hbit i rfl)
        rw [BitVec.getLsbD_zero] at hset
        obtain ⟨p, hp, v, hv, hi⟩ := hset.resolve_left Bool.false_ne_true
        refine ⟨v, ⟨hk, p, hp, hv⟩, fun j hj => ?_⟩
        rw [← Option.some.inj hj]
        exact hi

variable {T : Avtab τ₀} {types : String → Option Nat} {db : Db δ}
  {M : Policydb (CondPolicydb τ ρ) Nat ο}

/-- What a call for one kernel class comes to: nothing for no permissions and for a neverallow rule,
else an insertion of the entry for the permissions named. -/
private theorem avruleExpandHelper_ok {kind : RuleKind} {d₁ d₂ : TypeDatum δ}
    {cond : Option (Nat × Bool)} {s s' : State δ (Tables τ₀ (CondPolicydb τ ρ))} {cp : Classperms δ}
    (h : Neverallow.avruleExpandHelper db (tablePolicydb T condAvrule types M) kind d₁ d₂ cond s
      cp = (.ok, s')) :
    (s'.pdb = s.pdb ∧ bits (Names db types M kind d₁ d₂ cp) = ∅) ∨
      ∃ src tgt cls spec data, specified kind = some spec ∧
        bits (Names db types M kind d₁ d₂ cp) = entry ⟨src, tgt, cls, spec⟩ data ∧
        AvruleTable.insertAvrule T condAvrule kind src tgt cls (datumOf kind data) cond s.pdb =
          (.ok, s'.pdb) := by
  unfold Neverallow.avruleExpandHelper at h
  split at h
  · cases h
  · rename_i sepolClass hclass
    split at h
    · cases h
    · rename_i data hdata
      split at h
      · rename_i hzero
        cases h
        refine Or.inl ⟨rfl, AvruleTable.bits_of_none fun k v hv => ?_⟩
        obtain ⟨_, _, _, sepolClass', _, _, _, hclass', _, p, hp, hv⟩ := hv
        have hsame : some sepolClass' = some sepolClass := hclass'.symm.trans hclass
        cases hsame
        exact (AvruleTable.permsToDatum_ne_zero hdata).mpr ⟨p, hp, v, hv⟩ hzero
      · rename_i hne
        -- the lookup of source and target, and the entry that the permissions make
        have hinsert : ∀ spec, specified kind = some spec →
            Neverallow.insertAvrule db (tablePolicydb T condAvrule types M) kind d₁ d₂
              sepolClass.value (datumOf kind data) cond s = (.ok, s') →
            ∃ src tgt cls spec data, specified kind = some spec ∧
              bits (Names db types M kind d₁ d₂ cp) = entry ⟨src, tgt, cls, spec⟩ data ∧
              AvruleTable.insertAvrule T condAvrule kind src tgt cls (datumOf kind data) cond
                s.pdb = (.ok, s'.pdb) := by
          intro spec hspec hins
          unfold Neverallow.insertAvrule at hins
          split at hins
          · rename_i src tgt hsrc htgt
            simp only [Prod.mk.injEq] at hins
            obtain ⟨hrc, rfl⟩ := hins
            refine ⟨src, tgt, sepolClass.value, spec, data, hspec, ?_, Prod.ext hrc rfl⟩
            have hnames : ∀ k v, Names db types M kind d₁ d₂ cp k v ↔
                k = ⟨src, tgt, sepolClass.value, spec⟩ ∧
                  ∃ p ∈ cp.perms, sepolClass.findPerm (db.fqn p) = some v := by
              intro k v
              have hsrc' : types (db.fqn d₁.datum) = some src := hsrc
              have htgt' : types (db.fqn d₂.datum) = some tgt := htgt
              have hclass' : M.classDatum (db.fqn cp.cls) = some sepolClass := hclass
              simp [Names, hspec, hsrc', htgt', hclass']
            exact bits_eq_entry hnames hdata hne
          · cases hins
        cases kind with
        | neverallow =>
            left
            refine ⟨?_, AvruleTable.bits_of_none fun k v => AvruleTable.names_of_neverallow⟩
            simp only [Neverallow.neverallowHandle] at h
            split at h
            · cases h
            · cases h
              rfl
        | dontaudit => exact Or.inr (hinsert _ rfl h)
        | auditallow => exact Or.inr (hinsert _ rfl h)
        | allowed =>
            right
            simp only at h
            split at h
            · exact hinsert _ rfl h
            · rename_i hrc
              exact (hrc (Prod.mk.inj h).1).elim

private theorem insertAvrule_none {kind : RuleKind} {src tgt cls : Nat} {data : BitVec 32}
    {pdb pdb' : Tables τ₀ (CondPolicydb τ ρ)}
    (h : AvruleTable.insertAvrule T condAvrule kind src tgt cls data none pdb = (.ok, pdb')) :
    pdb'.rest = pdb.rest := by
  unfold AvruleTable.insertAvrule at h
  split at h
  · cases h
  · simp only at h
    split at h
    · rw [← (Prod.mk.inj h).2]
    · rw [← (Prod.mk.inj h).2]

private theorem insertAvrule_some {kind : RuleKind} {src tgt cls : Nat} {data : BitVec 32}
    {spec : AvruleTable.Specified} (hspec : specified kind = some spec) {cond : Nat × Bool}
    {pdb pdb' : Tables τ₀ (CondPolicydb τ ρ)}
    (h : AvruleTable.insertAvrule T condAvrule kind src tgt cls data (some cond) pdb =
      (.ok, pdb')) :
    condInsertRule (.accessVector ⟨src, tgt, cls, spec⟩ data) cond pdb.rest.cond =
      (.ok, pdb'.rest.cond) := by
  simp only [AvruleTable.insertAvrule, hspec, condAvrule, Prod.mk.injEq] at h
  obtain ⟨hrc, rfl⟩ := h
  exact Prod.ext hrc rfl

/-- An insertion says where the entry is. -/
private theorem insertAvrule_holds {kind : RuleKind} {src tgt cls : Nat} {data : BitVec 32}
    {spec : AvruleTable.Specified} (hspec : specified kind = some spec)
    {cond : Option (Nat × Bool)} {pdb pdb' : Tables τ₀ (CondPolicydb τ ρ)}
    (h : AvruleTable.insertAvrule T condAvrule kind src tgt cls (datumOf kind data) cond pdb =
      (.ok, pdb')) (f : Fact) :
    Holds T pdb' f ↔ Holds T pdb f ∨ ∃ x ∈ entry ⟨src, tgt, cls, spec⟩ data, place x cond = f := by
  cases cond with
  | none =>
      obtain ⟨spec', hspec', hcontent⟩ := AvruleTable.insertAvrule_content h
      have hsame : spec' = spec := Option.some.inj (hspec'.symm.trans hspec)
      subst hsame
      have hrest := insertAvrule_none h
      cases f with
      | unconditional x =>
          simp only [Holds, hcontent, place, Fact.unconditional.injEq, exists_eq_right]
          exact Iff.rfl
      | filed x i flavor => simp [Holds, hrest, place]
      | expr i L => simp [Holds, hrest, place]
  | some cond =>
      have hte := AvruleTable.insertAvrule_cond h
      obtain ⟨hfiled, hexpr⟩ := condInsertRule_ok (insertAvrule_some hspec h)
      cases f with
      | unconditional x => simp [Holds, hte, place]
      | filed x i flavor =>
          have hcontent : (Datum.accessVector ⟨src, tgt, cls, spec⟩ (datumOf kind data) :
              Datum τ).content = entry ⟨src, tgt, cls, spec⟩ data := by
            simp only [Datum.content, AvruleTable.permsOf_datumOf hspec]
          simp only [Holds, hfiled, hcontent, place, Fact.filed.injEq]
          apply or_congr_right
          constructor
          · rintro ⟨rfl, hx⟩
            exact ⟨x, hx, rfl, rfl, rfl⟩
          · rintro ⟨x, hx, rfl, rfl, rfl⟩
            exact ⟨rfl, hx⟩
      | expr i L => simp [Holds, hexpr, place]

/-- What a rule says, outside conditionals or on the list for a flavor. -/
def ruleFacts (db : Db δ) (types : String → Option Nat) (M : Policydb (CondPolicydb τ ρ) Nat ο)
    (r : Avrule δ) (cond : Option (Nat × Bool)) : Set Fact :=
  {f | ∃ x, x ∈ AvruleTable.entryGains db types M (r, none) ∧ place x cond = f}

theorem avruleToAvtab_facts (fuel : Nat) (r : Avrule δ) (cond : Option (Nat × Bool)) :
    Gains (facts T) (ruleFacts db types M r cond)
      (Neverallow.avruleToAvtab db (tablePolicydb T condAvrule types M) fuel r cond) := by
  have hleaf : ∀ d₁ d₂ s cp s',
      Neverallow.avruleExpandHelper db (tablePolicydb T condAvrule types M) r.ruleKind d₁ d₂ cond
        s cp = (.ok, s') →
      facts T s' = facts T s ∪
        {f | ∃ x ∈ bits (Names db types M r.ruleKind d₁ d₂ cp), place x cond = f} := by
    intro d₁ d₂ s cp s' h
    ext f
    rcases avruleExpandHelper_ok h with ⟨hpdb, hnone⟩ |
      ⟨src, tgt, cls, spec, data, hspec, hbits, hins⟩
    · simp [facts, hpdb, hnone]
    · rw [hbits]
      exact insertAvrule_holds hspec hins f
  apply (AvruleTable.avruleToAvtab_gains hleaf fuel).of_eq
  ext f
  simp only [AvruleTable.ruleGains, ruleFacts, AvruleTable.entryGains, gains, Set.mem_ofPred_eq,
    true_and]
  constructor
  · rintro ⟨he, d₁, d₂, hpair, items, hitems, cp, hcp, x, hx, rfl⟩
    exact ⟨x, ⟨he, d₁, d₂, hpair, items, hitems, cp, hcp, hx⟩, rfl⟩
  · rintro ⟨x, ⟨he, d₁, d₂, hpair, items, hitems, cp, hcp, hx⟩, rfl⟩
    exact ⟨he, d₁, d₂, hpair, items, hitems, cp, hcp, x, hx, rfl⟩

end Rules

section Blocks

variable {T : Avtab τ₀} {types : String → Option Nat} {db : Db δ} {B : Backend τ δ ο ρ}

/-- A step that succeeds and leaves what the tables say. -/
theorem onPolicydb_facts {f : Tables τ₀ (CondPolicydb τ ρ) → Rc × Tables τ₀ (CondPolicydb τ ρ)}
    (h : ∀ pdb pdb', f pdb = (.ok, pdb') → ∀ x, Holds T pdb' x ↔ Holds T pdb x) :
    Gains (facts T) ∅ (Neverallow.onPolicydb f :
      Call Rc (State δ (Tables τ₀ (CondPolicydb τ ρ))) Unit) := by
  intro s u s' hrun
  unfold Neverallow.onPolicydb at hrun
  split at hrun
  · rename_i pdb heq
    cases hrun
    rw [Set.union_empty]
    ext x
    exact h s.pdb pdb heq x
  · cases hrun

private theorem condRule_holds {stmt : ο} {cond : Nat × Bool}
    {pdb pdb' : Tables τ₀ (CondPolicydb τ ρ)}
    (h : (tablePolicydb T condAvrule types B.policydb).condRule stmt cond pdb = (.ok, pdb'))
    (f : Fact) : Holds T pdb' f ↔ Holds T pdb f := by
  simp only [tablePolicydb, Backend.policydb, condRule, Prod.mk.injEq] at h
  obtain ⟨hrc, rfl⟩ := h
  cases htype : B.typeRules stmt pdb.rest with
  | none => rw [htype] at hrc
  | some rs =>
      rw [htype] at hrc
      obtain ⟨hfiled, hexpr⟩ := condInsertRules_ok (Prod.ext hrc rfl)
      cases f with
      | unconditional x => exact Iff.rfl
      | filed x i flavor => exact hfiled x i flavor
      | expr i L => exact hexpr i L

/-- What a node of a conditional block says. -/
def nodeFacts (db : Db δ) (types : String → Option Nat) (B : Backend τ δ ο ρ) (cond : Nat × Bool)
    (d : Neverallow.CondData δ ο) : Set Fact :=
  {f | ∃ r, d = .avrule r ∧ f ∈ ruleFacts db types B.policydb r.1 (some cond)}

private theorem condToPolicydbHelper_facts (fuel : Nat) (cond : Nat × Bool)
    (d : Neverallow.CondData δ ο) :
    Gains (facts T) (nodeFacts db types B cond d)
      (Neverallow.condToPolicydbHelper db (tablePolicydb T condAvrule types B.policydb) fuel cond
        d) := by
  have hnone : (∀ r, d ≠ .avrule r) → nodeFacts db types B cond d = ∅ := by
    intro h
    ext f
    simp [nodeFacts, h]
  cases d with
  | avrule r =>
      apply ((avruleToAvtab_facts fuel r.1 (some cond)).withError Rc.err).of_eq
      ext f
      simp [nodeFacts]
  | rule stmt =>
      rw [hnone (by simp)]
      exact (onPolicydb_facts fun _ _ h => condRule_holds h).withError Rc.err
  | call =>
      rw [hnone (by simp)]
      exact Gains.pure ()
  | tunableif =>
      rw [hnone (by simp)]
      exact Gains.pure ()
  | invalid => exact Gains.fail Rc.err

/-- The access vectors of the rules in a block. -/
def blockRules (db : Db δ) (types : String → Option Nat) (B : Backend τ δ ο ρ) :
    Option (Neverallow.CondBlock δ ο) → Set (Key × Option Nat)
  | none => ∅
  | some cb => {x | ∃ r, .avrule r ∈ walkSiblings (fun _ => false) cb.body ∧
      x ∈ AvruleTable.entryGains db types B.policydb (r.1, none)}

theorem condblockToPolicydb_facts (fuel : Nat) (cond : Nat × Bool)
    (block : Option (Neverallow.CondBlock δ ο)) :
    Gains (facts T) {f | ∃ x ∈ blockRules db types B block, place x (some cond) = f}
      (Neverallow.condblockToPolicydb db (tablePolicydb T condAvrule types B.policydb) fuel cond
        block) := by
  cases block with
  | none =>
      apply (Gains.pure ()).of_eq
      ext f
      simp [blockRules]
  | some cb =>
      apply (processAll_gains fun d _ => condToPolicydbHelper_facts fuel cond d).of_eq
      ext f
      simp only [nodeFacts, ruleFacts, blockRules, Set.mem_ofPred_eq]
      constructor
      · rintro ⟨_, hd, r, rfl, x, hx, rfl⟩
        exact ⟨x, ⟨r, hd, hx⟩, rfl⟩
      · rintro ⟨x, ⟨r, hd, hx⟩, rfl⟩
        exact ⟨_, hd, r, rfl, x, hx, rfl⟩

end Blocks

section Nodes

variable {lib : CondLibrary}

theorem findNode_some {L : List CondExpr} {condList : List CondNode} {i : Nat}
    (h : findNode lib L condList = some i) :
    ∃ n, condList[i]? = some n ∧ lib.exprEqual L n.expr = true := by
  induction condList generalizing i with
  | nil => cases h
  | cons m rest ih =>
      rw [findNode] at h
      split at h
      · rename_i j hj
        cases h
        obtain ⟨n, hn, hequal⟩ := ih hj
        exact ⟨n, hn, hequal⟩
      · split at h
        · rename_i hequal
          cases h
          exact ⟨m, rfl, hequal⟩
        · cases h

/-- A conditional node has been found for the expression `M`, or one without rules was made. -/
structure Found (t t' : CondTables τ) (M : List CondExpr) (i : Nat) : Prop where
  filed : ∀ x j flavor, t'.Filed x j flavor ↔ t.Filed x j flavor
  kept : ∀ j K, t.HasExpr j K → t'.HasExpr j K
  old : ∀ j K, t'.HasExpr j K → t.HasExpr j K ∨ K = M ∧ ∀ x flavor, ¬ t.Filed x j flavor
  node : ∃ K, t'.HasExpr i K ∧ ∀ values, evalCells values K [] = evalCells values M []

private theorem condNodeFind_found (M : List CondExpr) (t : CondTables τ) :
    Found t (condNodeFind lib M t).2 M (condNodeFind lib M t).1 := by
  unfold condNodeFind
  split
  · rename_i i hi
    obtain ⟨n, hn, hequal⟩ := findNode_some hi
    refine ⟨fun _ _ _ => Iff.rfl, fun _ _ h => h, fun _ _ h => Or.inl h, n.expr, ⟨n, hn, rfl⟩, ?_⟩
    intro values
    exact (lib.evalCells_of_exprEqual M n.expr hequal values).symm
  · have hlast : (t.condList ++ [CondNode.create M])[t.condList.length]? =
        some (CondNode.create M) := List.getElem?_concat_length
    have hlt : ∀ {j : Nat} {n : CondNode}, t.condList[j]? = some n →
        (t.condList ++ [CondNode.create M])[j]? = some n := by
      intro j n hn
      rw [List.getElem?_append_left (List.getElem?_eq_some_iff.mp hn).1]
      exact hn
    have hcases : ∀ {j : Nat} {n : CondNode}, (t.condList ++ [CondNode.create M])[j]? = some n →
        t.condList[j]? = some n ∨ j = t.condList.length ∧ n = CondNode.create M := by
      intro j n hn
      rcases Nat.lt_or_ge j t.condList.length with hj | hj
      · rw [List.getElem?_append_left hj] at hn
        exact Or.inl hn
      · have hbound := (List.getElem?_eq_some_iff.mp hn).1
        rw [List.length_append, List.length_singleton] at hbound
        have heq : j = t.condList.length := by omega
        subst heq
        rw [hlast] at hn
        exact Or.inr ⟨rfl, (Option.some.inj hn).symm⟩
    refine ⟨fun x j flavor => ⟨?_, ?_⟩, ?_, ?_, M, ⟨_, hlast, rfl⟩, fun _ => rfl⟩
    · rintro ⟨n, hn, p, hp, hat⟩
      rcases hcases hn with hn | ⟨-, rfl⟩
      · exact ⟨n, hn, p, hp, hat⟩
      · exact absurd hp List.not_mem_nil
    · rintro ⟨n, hn, p, hp, hat⟩
      exact ⟨n, hlt hn, p, hp, hat⟩
    · rintro j K ⟨n, hn, hK⟩
      exact ⟨n, hlt hn, hK⟩
    · rintro j K ⟨n, hn, rfl⟩
      rcases hcases hn with hn | ⟨rfl, rfl⟩
      · exact Or.inl ⟨n, hn, rfl⟩
      · right
        refine ⟨rfl, fun x flavor hfiled => ?_⟩
        obtain ⟨m, hm, -⟩ := hfiled
        have hbound := (List.getElem?_eq_some_iff.mp hm).1
        omega

/-- The list that an expression of the right shape is compiled to fits the stack if the expression
does not need more. -/
private theorem fits_sepolExpr {bools : δ → Option Nat} {expr : List (Item δ)}
    (hexpr : shaped .bool expr = true) (hneed : exprNeed expr ≤ Build.condExprMaxdepth.toNat)
    {L : List CondExpr} (h : sepolExpr bools expr = some L) : Fits L := by
  intro values
  unfold sepolExpr at h
  split at h
  · rename_i head heap hrun
    cases h
    exact ((Postfix.staysWithin_of_shaped hexpr _).of_ok hrun values _).mpr hneed
  · cases h

/-- A list fits the stack and leaves one value there. -/
def Fine (L : List CondExpr) : Prop := Fits L ∧ ∀ values, ∃ b, evalCells values L [] = some [b]

/-- The conditional node of a booleanif. -/
theorem condNode_found {lib : FlagLibrary τ} {bools : δ → Option Nat} {expr : List (Item δ)}
    (hexpr : shaped .bool expr = true) (hneed : exprNeed expr ≤ Build.condExprMaxdepth.toNat)
    {t t' : CondTables τ} {i : Nat} {swapped : Bool}
    (h : condNode lib.toCondLibrary bools expr t = some (i, swapped, t')) :
    ∃ M, Fine M ∧ Found t t' M i ∧ ∀ values, evalCells values M [] =
      some [if swapped then !truth (valueOf bools values) expr
        else truth (valueOf bools values) expr] := by
  unfold condNode at h
  obtain ⟨L, hL, h⟩ := Option.bind_eq_some_iff.mp h
  obtain ⟨M, sw, hnormal⟩ : ∃ M sw, lib.normalizeExpr L = (M, sw) := ⟨_, _, rfl⟩
  simp only [hnormal, Option.pure_def, Option.some.injEq, Prod.mk.injEq] at h
  obtain ⟨rfl, rfl, rfl⟩ := h
  have heval : ∀ values, evalCells values M [] = some [if sw then !truth (valueOf bools values) expr
      else truth (valueOf bools values) expr] := by
    intro values
    have hvalue := lib.evalCells_normalizeExpr values L _
      (Conditional.evalCells_sepolExpr hexpr hL values)
    rwa [hnormal] at hvalue
  have hfits : Fits M := by
    have hnormalFits := lib.fits_normalizeExpr L (fits_sepolExpr hexpr hneed hL)
    rwa [hnormal] at hnormalFits
  exact ⟨M, ⟨hfits, fun values => ⟨_, heval values⟩⟩, condNodeFind_found M t, heval⟩

end Nodes

end Cil.Binary.Conditionals
