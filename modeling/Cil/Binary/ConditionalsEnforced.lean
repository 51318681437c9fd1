/- Cil/Binary/ConditionalsEnforced
   digest: The access vectors that a policy enforces are those of the rules that are in force. -/

import Cil.Binary.ConditionalsFacts

set_option autoImplicit false
set_option relaxedAutoImplicit false

namespace Cil.Binary.Conditionals

open Library ClassPerms
open Cil.Expr (Item)
open Build (shaped)
open CondExpr (truth)
open Postfix (CondExpr evalCell evalCells valueOf exprNeed)
open Library.Postfix (StaysWithin)
open Conditional (CondLibrary sepolExpr)
open AvruleTable (Key Tables Avtab Names bits content entry permsOf datumOf specified tablePolicydb)
open Neverallow
  (Policydb State Db ClassDatum Avrule RuleKind TypeDatum Classperms Pair Misread taken_iff_pair)

variable {τ τ₀ δ ο ρ : Type}

section Views

variable (T : Avtab τ₀) (values : Nat → Bool)

/-- An access vector is in force: it has an entry outside conditionals or on the list that the
value of the node's expression makes active. -/
def InForceAt (pdb : Tables τ₀ (CondPolicydb τ ρ)) (x : Key × Option Nat) : Prop :=
  Holds T pdb (.unconditional x) ∨ ∃ i flavor L, Holds T pdb (.filed x i flavor) ∧
    Holds T pdb (.expr i L) ∧ evalCells values L [] = some [flavor]

/-- What is seen of the tables: the access vectors in force, and expressions with no value. -/
inductive View
  | vector (x : Key × Option Nat)
  | unfit (L : List CondExpr)

def Shows (pdb : Tables τ₀ (CondPolicydb τ ρ)) : View → Prop
  | .vector x => InForceAt T values pdb x
  | .unfit L => ¬ Fine L ∧ ∃ i, Holds T pdb (.expr i L)

def view (s : State δ (Tables τ₀ (CondPolicydb τ ρ))) : Set View := {v | Shows T values s.pdb v}

/-- Access vectors among the views. -/
def vectors (X : Set (Key × Option Nat)) : Set View := {v | ∃ x ∈ X, v = .vector x}

variable {T values} {s s' : State δ (Tables τ₀ (CondPolicydb τ ρ))} {X : Set (Key × Option Nat)}

theorem HasExpr.unique {t : CondTables τ} {i : Nat} {L M : List CondExpr} (h : t.HasExpr i L)
    (h' : t.HasExpr i M) : L = M := by
  obtain ⟨n, hn, rfl⟩ := h
  obtain ⟨m, hm, rfl⟩ := h'
  rw [hn] at hm
  cases hm
  rfl

private theorem view_unconditional
    (h : facts T s' = facts T s ∪ {f | ∃ x ∈ X, place x none = f}) :
    view T values s' = view T values s ∪ vectors X := by
  have hfact : ∀ f, Holds T s'.pdb f ↔ Holds T s.pdb f ∨ ∃ x ∈ X, place x none = f := by
    intro f
    exact Set.ext_iff.mp h f
  ext v
  cases v with
  | vector x =>
      simp only [view, Shows, InForceAt, vectors, Set.mem_union, Set.mem_ofPred_eq, hfact, place,
        Fact.unconditional.injEq, exists_eq_right, reduceCtorEq, and_false, exists_false, or_false,
        View.vector.injEq, exists_eq_right']
      exact or_right_comm
  | unfit L => simp [view, Shows, vectors, hfact, place]

/-- Entries on a list are seen if the list is active. -/
private theorem view_filed {i : Nat} {flavor b : Bool} {L : List CondExpr}
    (h : facts T s' = facts T s ∪ {f | ∃ x ∈ X, place x (some (i, flavor)) = f})
    (hexpr : Holds T s.pdb (.expr i L)) (hvalue : evalCells values L [] = some [b]) :
    view T values s' = view T values s ∪ vectors {x | flavor = b ∧ x ∈ X} := by
  have hfact : ∀ f, Holds T s'.pdb f ↔
      Holds T s.pdb f ∨ ∃ x ∈ X, place x (some (i, flavor)) = f := by
    intro f
    exact Set.ext_iff.mp h f
  have hsame : ∀ j K, Holds T s'.pdb (.expr j K) ↔ Holds T s.pdb (.expr j K) := by
    intro j K
    simp [hfact, place]
  ext v
  cases v with
  | vector x =>
      have hold : Holds T s'.pdb (.unconditional x) ↔ Holds T s.pdb (.unconditional x) := by
        simp [hfact, place]
      have hfiled : ∀ j g, Holds T s'.pdb (.filed x j g) ↔
          Holds T s.pdb (.filed x j g) ∨ x ∈ X ∧ i = j ∧ flavor = g := by
        intro j g
        rw [hfact]
        apply or_congr_right
        simp only [place, Fact.filed.injEq]
        constructor
        · rintro ⟨y, hy, rfl, hj, hg⟩
          exact ⟨hy, hj, hg⟩
        · rintro ⟨hx, hj, hg⟩
          exact ⟨x, hx, rfl, hj, hg⟩
      show InForceAt T values s'.pdb x ↔ InForceAt T values s.pdb x ∨
        ∃ y ∈ {x | flavor = b ∧ x ∈ X}, View.vector x = View.vector y
      unfold InForceAt
      simp only [hold, hfiled, hsame]
      constructor
      · rintro (hun | ⟨j, g, K, hf | ⟨hx, rfl, rfl⟩, hK, heval⟩)
        · exact Or.inl (Or.inl hun)
        · exact Or.inl (Or.inr ⟨j, g, K, hf, hK, heval⟩)
        · right
          have hLK : L = K := HasExpr.unique hexpr hK
          subst hLK
          rw [hvalue] at heval
          cases heval
          exact ⟨x, ⟨rfl, hx⟩, rfl⟩
      · rintro ((hun | ⟨j, g, K, hf, hK, heval⟩) | ⟨y, ⟨rfl, hy⟩, heq⟩)
        · exact Or.inl hun
        · exact Or.inr ⟨j, g, K, Or.inl hf, hK, heval⟩
        · cases heq
          exact Or.inr ⟨i, flavor, L, Or.inr ⟨hy, rfl, rfl⟩, hexpr, hvalue⟩
  | unfit K => simp [view, Shows, vectors, hsame]

/-- Nothing is seen of a conditional node that has been found, or made for a list that fits. -/
private theorem view_found {M : List CondExpr} {i : Nat} (hM : Fine M)
    (hte : s'.pdb.teAvtab = s.pdb.teAvtab) (hfound : Found s.pdb.rest.cond s'.pdb.rest.cond M i) :
    view T values s' = view T values s := by
  ext v
  cases v with
  | vector x =>
      show InForceAt T values s'.pdb x ↔ InForceAt T values s.pdb x
      have hold : Holds T s'.pdb (.unconditional x) ↔ Holds T s.pdb (.unconditional x) := by
        simp [Holds, hte]
      unfold InForceAt
      rw [hold]
      apply or_congr_right
      constructor
      · rintro ⟨j, g, K, hf, hK, heval⟩
        have hf' := (hfound.filed x j g).mp hf
        rcases hfound.old j K hK with hK | ⟨-, hnone⟩
        · exact ⟨j, g, K, hf', hK, heval⟩
        · exact absurd hf' (hnone x g)
      · rintro ⟨j, g, K, hf, hK, heval⟩
        exact ⟨j, g, K, (hfound.filed x j g).mpr hf, hfound.kept j K hK, heval⟩
  | unfit K =>
      show (¬ Fine K ∧ ∃ j, Holds T s'.pdb (.expr j K)) ↔ ¬ Fine K ∧ ∃ j, Holds T s.pdb (.expr j K)
      apply and_congr_right
      intro hunfit
      constructor
      · rintro ⟨j, hK⟩
        rcases hfound.old j K hK with hK | ⟨rfl, -⟩
        · exact ⟨j, hK⟩
        · exact absurd hM hunfit
      · rintro ⟨j, hK⟩
        exact ⟨j, hfound.kept j K hK⟩

end Views

section Passes

variable {T : Avtab τ₀} {types : String → Option Nat} {db : Db δ} {B : Backend τ δ ο ρ}
  {values : Nat → Bool}

/-- The value of the expression of a booleanif. -/
def exprValue (B : Backend τ δ ο ρ) (values : Nat → Bool) (expr : ο) : Bool :=
  truth (valueOf B.bools values) (B.exprOf expr)

/-- The expression of a booleanif has the shape that the builder accepts and the resolver keeps,
and does not need more than the stack of the policy library. -/
def Evaluable (B : Backend τ δ ο ρ) (expr : ο) : Prop :=
  shaped .bool (B.exprOf expr) = true ∧ exprNeed (B.exprOf expr) ≤ Build.condExprMaxdepth.toNat

/-- A booleanif puts in force what is in the block for the value of its expression. -/
private theorem booleanifToPolicydb_view (fuel : Nat) (expr : ο) (hexpr : Evaluable B expr)
    (blocks : List (Neverallow.CondBlock δ ο)) :
    Gains (view T values)
      (vectors (blockRules db types B (Neverallow.blockOf (exprValue B values expr) blocks)))
      (Neverallow.booleanifToPolicydb db (tablePolicydb T condAvrule types B.policydb) fuel expr
        blocks) := by
  intro s u s' hrun
  unfold Neverallow.booleanifToPolicydb at hrun
  obtain ⟨t, t', hget, hrun⟩ := Call.bind_ok hrun
  cases hget
  cases hcond : condNode B.lib.toCondLibrary B.bools (B.exprOf expr) s.pdb.rest.cond with
  | none =>
      simp only [tablePolicydb, Backend.policydb, hcond, Option.map_none] at hrun
      cases hrun
  | some r =>
      obtain ⟨i, swapped, cond⟩ := r
      simp only [tablePolicydb, Backend.policydb, hcond, Option.map_some] at hrun
      obtain ⟨⟨⟩, s₁, hmodify, hrun⟩ := Call.bind_ok hrun
      obtain ⟨⟨⟩, s₂, htrue, hfalse⟩ := Call.bind_ok hrun
      obtain ⟨M, hM, hfound, heval⟩ := condNode_found hexpr.1 hexpr.2 hcond
      obtain ⟨K, hK, hKM⟩ := hfound.node
      have hb : ∃ b, truth (valueOf B.bools values) (B.exprOf expr) = b := ⟨_, rfl⟩
      obtain ⟨b, hb⟩ := hb
      have hvalue : evalCells values K [] = some [if swapped then !b else b] := by
        rw [hKM, heval, hb]
      cases hmodify
      have hfirst := condblockToPolicydb_facts fuel (i, true) _ _ _ _ htrue
      have hsecond := condblockToPolicydb_facts fuel (i, false) _ _ _ _ hfalse
      have hK₂ : Holds T s₂.pdb (.expr i K) := by
        have hmem : Fact.expr i K ∈ facts T s₂ := by
          rw [hfirst]
          exact Or.inl hK
        exact hmem
      have hview : view T values ({ s with pdb := ⟨s.pdb.teAvtab, ⟨cond, s.pdb.rest.rest⟩⟩ } :
          State δ (Tables τ₀ (CondPolicydb τ ρ))) = view T values s := view_found hM rfl hfound
      rw [view_filed hsecond hK₂ hvalue, view_filed hfirst hK hvalue, hview, Set.union_assoc]
      congr 1
      unfold exprValue
      rw [hb]
      ext v
      cases swapped <;> cases b <;> simp [vectors]

private theorem Gains.view_of_facts {α : Type} {X : Set (Key × Option Nat)}
    {c : Call Rc (State δ (Tables τ₀ (CondPolicydb τ ρ))) α}
    (h : Gains (facts T) {f | ∃ x ∈ X, place x none = f} c) :
    Gains (view T values) (vectors X) c := by
  intro s a s' hrun
  exact view_unconditional (h s a s' hrun)

/-- A step that does not reach the tables. -/
private theorem onRest_view {f : Tables τ₀ (CondPolicydb τ ρ) → Rc × Tables τ₀ (CondPolicydb τ ρ)}
    (h : ∀ pdb, (f pdb).2.teAvtab = pdb.teAvtab ∧ (f pdb).2.rest.cond = pdb.rest.cond) :
    Gains (view T values) ∅ (Neverallow.onPolicydb f :
      Call Rc (State δ (Tables τ₀ (CondPolicydb τ ρ))) Unit) := by
  have hfacts : Gains (facts T) ∅ (Neverallow.onPolicydb f :
      Call Rc (State δ (Tables τ₀ (CondPolicydb τ ρ))) Unit) := by
    apply onPolicydb_facts
    intro pdb pdb' heq x
    obtain ⟨hte, hcond⟩ := h pdb
    rw [heq] at hte hcond
    have hte' : pdb'.teAvtab = pdb.teAvtab := hte
    have hcond' : pdb'.rest.cond = pdb.rest.cond := hcond
    cases x with
    | unconditional x => rw [Holds, Holds, hte']
    | filed x i flavor => rw [Holds, Holds, hcond']
    | expr i L => rw [Holds, Holds, hcond']
  have hnone : {f : Fact | ∃ x ∈ (∅ : Set (Key × Option Nat)), place x none = f} = ∅ := by
    ext f
    simp
  have hview : Gains (view T values) (vectors ∅) (Neverallow.onPolicydb f :
      Call Rc (State δ (Tables τ₀ (CondPolicydb τ ρ))) Unit) :=
    Gains.view_of_facts (hfacts.of_eq hnone.symm)
  apply hview.of_eq
  ext v
  simp [vectors]

/-- The access vectors that the third pass puts in force for a node. -/
def nodeVectors (db : Db δ) (types : String → Option Nat) (B : Backend τ δ ο ρ)
    (values : Nat → Bool) (d : Neverallow.NodeData δ ο) : Set (Key × Option Nat) :=
  {x | (∃ r, d = .avrule r ∧ x ∈ AvruleTable.entryGains db types B.policydb (r, none)) ∨
    ∃ expr blocks, d = .booleanif expr blocks ∧
      x ∈ blockRules db types B (Neverallow.blockOf (exprValue B values expr) blocks)}

private theorem nodeToPolicydb_view (fuel pass : Nat) (d : Neverallow.NodeData δ ο)
    (hd : ∀ expr blocks, d = .booleanif expr blocks → Evaluable B expr) :
    Gains (view T values) (vectors {x | pass = 3 ∧ x ∈ nodeVectors db types B values d})
      (Neverallow.nodeToPolicydb db (tablePolicydb T condAvrule types B.policydb) fuel pass d) := by
  have hnone : (∀ x, x ∈ nodeVectors db types B values d → pass ≠ 3) →
      vectors {x | pass = 3 ∧ x ∈ nodeVectors db types B values d} = ∅ := by
    intro h
    ext v
    simp only [vectors, Set.mem_ofPred_eq, Set.mem_empty_iff_false, iff_false]
    rintro ⟨x, ⟨hpass, hx⟩, -⟩
    exact h x hx hpass
  cases d with
  | macroDef =>
      rw [hnone (by simp [nodeVectors])]
      exact Gains.pure ()
  | block isAbstract =>
      rw [hnone (by simp [nodeVectors])]
      exact Gains.pure ()
  | other stmt =>
      rw [hnone (by simp [nodeVectors])]
      exact onRest_view fun _ => ⟨rfl, rfl⟩
  | booleanif expr blocks =>
      rw [Neverallow.nodeToPolicydb]
      split
      · rename_i hpass
        apply (booleanifToPolicydb_view fuel expr (hd expr blocks rfl) blocks).of_eq
        ext v
        simp [vectors, nodeVectors, hpass]
      · rename_i hpass
        rw [hnone fun _ _ => hpass]
        exact Gains.pure ()
  | avrule r =>
      have hrule : Gains (view T values)
          (vectors (AvruleTable.entryGains db types B.policydb (r, none)))
          (Neverallow.avruleToPolicydb db (tablePolicydb T condAvrule types B.policydb) fuel r) :=
        Gains.view_of_facts (avruleToAvtab_facts fuel r none)
      rw [Neverallow.nodeToPolicydb]
      split
      · rename_i hpass
        have hnew : Gains (view T values) ∅ (Call.modify
            fun s : State δ (Tables τ₀ (CondPolicydb τ ρ)) =>
              { s with neverallows := [] :: s.neverallows } :
            Call Rc (State δ (Tables τ₀ (CondPolicydb τ ρ))) Unit) :=
          Gains.modify fun _ => rfl
        apply (hnew.after fun _ => hrule).of_eq
        have hpass3 : pass ≠ 3 := by omega
        rw [hnone fun _ _ => hpass3, AvruleTable.entryGains_neverallow hpass.2]
        ext v
        simp [vectors]
      · split
        · rename_i hpass
          apply hrule.of_eq
          ext v
          simp [vectors, nodeVectors, hpass.1]
        · rename_i hpass
          rw [hnone]
          · exact Gains.pure ()
          · rintro x (⟨r', heq, hx⟩ | ⟨expr, blocks, heq, -⟩) hthird
            · cases heq
              have hkind : r.ruleKind = .neverallow := by
                by_contra hne
                exact hpass ⟨hthird, hne⟩
              rw [AvruleTable.entryGains_neverallow hkind] at hx
              exact hx
            · cases heq

/-- The access vectors that a pass over the tree puts in force. -/
def passVectors (db : Db δ) (types : String → Option Nat) (B : Backend τ δ ο ρ)
    (values : Nat → Bool) (ast : Tree (Neverallow.NodeData δ ο)) : Set (Key × Option Nat) :=
  {x | ∃ d ∈ ast.walk Neverallow.NodeData.skipHead, x ∈ nodeVectors db types B values d}

/-- The booleanifs that the walks reach can be evaluated. -/
def AllEvaluable (B : Backend τ δ ο ρ) (ast : Tree (Neverallow.NodeData δ ο)) : Prop :=
  ∀ expr blocks, .booleanif expr blocks ∈ ast.walk Neverallow.NodeData.skipHead → Evaluable B expr

variable (values) in
private theorem binaryPass_view (fuel pass : Nat) {ast : Tree (Neverallow.NodeData δ ο)}
    (hast : AllEvaluable B ast) :
    Gains (view T values) (vectors {x | pass = 3 ∧ x ∈ passVectors db types B values ast})
      (Neverallow.binaryPass db (tablePolicydb T condAvrule types B.policydb) fuel pass ast) := by
  have hnode : ∀ d ∈ ast.walk Neverallow.NodeData.skipHead, Gains (view T values)
      (vectors {x | pass = 3 ∧ x ∈ nodeVectors db types B values d})
      (Neverallow.nodeToPolicydb db (tablePolicydb T condAvrule types B.policydb) fuel pass d) := by
    intro d hd
    apply nodeToPolicydb_view
    rintro expr blocks rfl
    exact hast expr blocks hd
  apply (processAll_gains hnode).of_eq
  ext v
  simp only [vectors, passVectors, Set.mem_ofPred_eq]
  constructor
  · rintro ⟨d, hd, x, ⟨hpass, hx⟩, rfl⟩
    exact ⟨x, ⟨hpass, d, hd, hx⟩, rfl⟩
  · rintro ⟨x, ⟨hpass, d, hd, hx⟩, rfl⟩
    exact ⟨d, hd, x, ⟨hpass, hx⟩, rfl⟩

end Passes

section Flags

variable {lib : FlagLibrary τ} {values : Nat → Bool}

private theorem getElem?_setFlags (enabled : Bool) (ps : List Nat) (avtab : List (AvtabNode τ))
    (p : Nat) :
    (setFlags enabled ps avtab)[p]? =
      if p ∈ ps then (avtab[p]?).map fun a => { a with enabled := enabled } else avtab[p]? := by
  induction ps generalizing avtab with
  | nil => rfl
  | cons q ps ih =>
      have hrest := ih (avtab.modify q fun a => { a with enabled := enabled })
      rw [List.getElem?_modify] at hrest
      show (setFlags enabled ps (avtab.modify q fun a => { a with enabled := enabled }))[p]? = _
      rw [hrest]
      by_cases hq : q = p
      · subst hq
        simp only [if_pos, List.mem_cons_self, Option.map_eq_map, Option.map_map,
          Function.comp_def, ite_self]
      · have hpq : p ≠ q := fun heq => hq heq.symm
        simp only [if_neg hq, List.mem_cons, hpq, false_or, Option.map_eq_map, Option.map_id']

private theorem getElem?_setNodeFlags {n : CondNode} (hnodup : n.attached.Nodup)
    (avtab : List (AvtabNode τ)) {p : Nat} {flavor : Bool} (hp : p ∈ n.list flavor) :
    (setNodeFlags lib values n avtab)[p]? = (avtab[p]?).map fun a =>
      { a with enabled := lib.evaluateExpr values n.expr == some flavor } := by
  have hdisjoint := (List.nodup_append.mp hnodup).2.2
  unfold setNodeFlags
  rw [getElem?_setFlags, getElem?_setFlags]
  cases flavor with
  | false =>
      have htrue : p ∉ n.list true := fun h => hdisjoint p h p hp rfl
      rw [if_pos hp, if_neg htrue]
  | true =>
      have hfalse : p ∉ n.list false := fun h => hdisjoint p hp p h rfl
      rw [if_neg hfalse, if_pos hp]

private theorem getElem?_setNodeFlags_of_not_mem {n : CondNode} (avtab : List (AvtabNode τ))
    {p : Nat} (hp : p ∉ n.attached) : (setNodeFlags lib values n avtab)[p]? = avtab[p]? := by
  obtain ⟨htrue, hfalse⟩ := not_or.mp fun h => hp (List.mem_append.mpr h)
  unfold setNodeFlags
  rw [getElem?_setFlags, getElem?_setFlags, if_neg hfalse, if_neg htrue]

private theorem exists_list_of_mem_attached {n : CondNode} {p : Nat} (hp : p ∈ n.attached) :
    ∃ flavor, p ∈ n.list flavor := by
  rcases List.mem_append.mp hp with h | h
  · exact ⟨true, h⟩
  · exact ⟨false, h⟩

variable (lib values) in
/-- Where each table node is on one list, no turn for another list undoes its flag. -/
private theorem getElem?_foldr_setNodeFlags {ns : List CondNode}
    (hnodup : (ns.flatMap CondNode.attached).Nodup) (avtab : List (AvtabNode τ)) (p : Nat) :
    (∀ n ∈ ns, ∀ flavor, p ∈ n.list flavor →
      (ns.foldr (setNodeFlags lib values) avtab)[p]? = (avtab[p]?).map fun a =>
        { a with enabled := lib.evaluateExpr values n.expr == some flavor }) ∧
      (p ∉ ns.flatMap CondNode.attached →
        (ns.foldr (setNodeFlags lib values) avtab)[p]? = avtab[p]?) := by
  induction ns with
  | nil => exact ⟨fun n hn => absurd hn List.not_mem_nil, fun _ => rfl⟩
  | cons m ns ih =>
      rw [List.flatMap_cons] at hnodup ⊢
      obtain ⟨hm, hns, hdisjoint⟩ := List.nodup_append.mp hnodup
      obtain ⟨hmem, hnot⟩ := ih hns
      rw [List.foldr_cons]
      refine ⟨fun n hn flavor hp => ?_, fun hp => ?_⟩
      · rcases List.mem_cons.mp hn with rfl | hn
        · have hrest : p ∉ ns.flatMap CondNode.attached :=
            fun h => hdisjoint p (mem_attached hp) p h rfl
          rw [getElem?_setNodeFlags hm _ hp, hnot hrest]
        · have hattached : p ∈ ns.flatMap CondNode.attached :=
            List.mem_flatMap.mpr ⟨n, hn, mem_attached hp⟩
          have hfirst : p ∉ m.attached := fun h => hdisjoint p h p hattached rfl
          rw [getElem?_setNodeFlags_of_not_mem _ hfirst, hmem n hn flavor hp]
      · obtain ⟨hfirst, hrest⟩ := not_or.mp fun h => hp (List.mem_append.mpr h)
        rw [getElem?_setNodeFlags_of_not_mem _ hfirst, hnot hrest]

theorem CondTables.nodup (t : CondTables τ) : (t.condList.flatMap CondNode.attached).Nodup :=
  t.linked.nodup_iff.mpr List.nodup_range

/-- The enabled table nodes are those on the lists that the values of the expressions select. -/
private theorem enabled_iff (t : CondTables τ) (d : Datum τ) :
    (∃ a ∈ (setConditionalStateAndFlags lib values t).avtab, a.enabled = true ∧ a.datum = d) ↔
      ∃ n ∈ t.condList, ∃ flavor, ∃ p ∈ n.list flavor, ∃ a, t.avtab[p]? = some a ∧ a.datum = d ∧
        lib.evaluateExpr values n.expr = some flavor := by
  have hflags := getElem?_foldr_setNodeFlags lib values t.nodup t.avtab
  constructor
  · rintro ⟨a, ha, henabled, rfl⟩
    obtain ⟨p, hp⟩ := List.mem_iff_getElem?.mp ha
    have hlt : p < t.avtab.length := by
      have hbound := (List.getElem?_eq_some_iff.mp hp).1
      rw [setConditionalStateAndFlags, length_foldr_setNodeFlags] at hbound
      exact hbound
    have hlisted : p ∈ t.condList.flatMap CondNode.attached :=
      t.linked.mem_iff.mpr (List.mem_range.mpr hlt)
    obtain ⟨n, hn, hattached⟩ := List.mem_flatMap.mp hlisted
    obtain ⟨flavor, hflavor⟩ := exists_list_of_mem_attached hattached
    have hset : t.avtab[p]?.map (fun a =>
        ({ a with enabled := lib.evaluateExpr values n.expr == some flavor } : AvtabNode τ)) =
          some a := ((hflags p).1 n hn flavor hflavor).symm.trans hp
    obtain ⟨a', ha', rfl⟩ := Option.map_eq_some_iff.mp hset
    exact ⟨n, hn, flavor, p, hflavor, a', ha', rfl, eq_of_beq henabled⟩
  · rintro ⟨n, hn, flavor, p, hp, a, ha, rfl, heval⟩
    have hset := (hflags p).1 n hn flavor hp
    rw [ha, heval] at hset
    exact ⟨_, List.mem_of_getElem? hset, beq_self_eq_true _, rfl⟩

/-- A flag that is set changes nothing else. -/
private theorem map_datum_setConditionalStateAndFlags (t : CondTables τ) (p : Nat) :
    ((setConditionalStateAndFlags lib values t).avtab[p]?).map AvtabNode.datum =
      (t.avtab[p]?).map AvtabNode.datum := by
  obtain ⟨hmem, hnot⟩ :=
    getElem?_foldr_setNodeFlags lib values t.nodup t.avtab p
  unfold setConditionalStateAndFlags
  by_cases hp : p ∈ t.condList.flatMap CondNode.attached
  · obtain ⟨n, hn, hattached⟩ := List.mem_flatMap.mp hp
    obtain ⟨flavor, hflavor⟩ := exists_list_of_mem_attached hattached
    rw [hmem n hn flavor hflavor, Option.map_map]
    rfl
  · rw [hnot hp]

/-- The lists keep their table nodes when they are put in another order. -/
private theorem mem_optimizeLists {t : CondTables τ} {q : List CondExpr → Bool → Nat → Prop} :
    (∃ n ∈ (optimizeLists lib t).condList, ∃ flavor, ∃ p ∈ n.list flavor, q n.expr flavor p) ↔
      ∃ n ∈ t.condList, ∃ flavor, ∃ p ∈ n.list flavor, q n.expr flavor p := by
  have hmem : ∀ (n : CondNode) (flavor : Bool) (p : Nat),
      p ∈ lib.optimizeList t.avtab (n.list flavor) ↔ p ∈ n.list flavor :=
    fun n flavor p => (lib.optimizeList_perm t.avtab (n.list flavor)).mem_iff
  simp only [optimizeLists, List.mem_map, exists_exists_and_eq_and, hmem]

end Flags

section Enforced

variable {T : Avtab τ₀} {types : String → Option Nat} {db : Db δ} {B : Backend τ δ ο ρ}

/-- A rule that the walks reach is in force for values of the booleans: it stands outside
booleanifs, or in the last block for the value of the expression of a booleanif. -/
inductive InForce (B : Backend τ δ ο ρ) (values : Nat → Bool)
    (ast : Tree (Neverallow.NodeData δ ο)) (r : Avrule δ) : Prop
  | plain (hnode : .avrule r ∈ ast.walk Neverallow.NodeData.skipHead)
  | conditional {expr : ο} {before after : List (Neverallow.CondBlock δ ο)}
      {cb : Neverallow.CondBlock δ ο}
      (hnode : .booleanif expr (before ++ cb :: after) ∈ ast.walk Neverallow.NodeData.skipHead)
      (hflavor : cb.flavor = exprValue B values expr)
      (hlast : ∀ cb' ∈ after, cb'.flavor ≠ cb.flavor)
      {cr : Neverallow.CondRule δ} (hrule : .avrule cr ∈ walkSiblings (fun _ => false) cb.body)
      (hr : cr.1 = r)

private theorem InForce.mem_avrules {values : Nat → Bool} {ast : Tree (Neverallow.NodeData δ ο)}
    {r : Avrule δ} (h : InForce B values ast r) : r ∈ Neverallow.avrules ast := by
  cases h with
  | plain hnode => exact List.mem_flatMap.mpr ⟨_, hnode, List.mem_cons_self⟩
  | @conditional expr before after cb hnode hflavor hlast cr hrule hr =>
    subst hr
    refine List.mem_flatMap.mpr ⟨_, hnode, List.mem_flatMap.mpr ⟨cb, by simp, ?_⟩⟩
    exact List.mem_flatMap.mpr ⟨_, hrule, List.mem_cons_self⟩

/-- A rule in force grants, or says to audit or not, the permission of value `v` on the key. -/
def Demands (db : Db δ) (types : String → Option Nat) (B : Backend τ δ ο ρ) (values : Nat → Bool)
    (ast : Tree (Neverallow.NodeData δ ο)) (key : Key) (v : Nat) : Prop :=
  ∃ r, InForce B values ast r ∧ AvruleTable.Enforced db r ∧ ∃ d₁ d₂, Pair db r d₁ d₂ ∧
    ∃ items, r.classperms = some items ∧ ∃ cp, Expands db.classperms items cp ∧
      Names db types B.policydb r.ruleKind d₁ d₂ cp key v

/-- The policy has the permission on the key, in the entry outside conditionals or in one that is
enabled. -/
def Enforces (T : Avtab τ₀) (pdb : Tables τ₀ (CondPolicydb τ ρ)) (key : Key) (v : Nat) : Prop :=
  ∃ data, (T.search pdb.teAvtab key = some data ∨
      ∃ a ∈ pdb.rest.cond.avtab, a.enabled = true ∧ a.datum = .accessVector key data) ∧
    (permsOf key.specified data).getLsbD (v - 1) = true

/-- The permissions of the classes in the policy database have bits in a word. -/
def WordValues (B : Backend τ δ ο ρ) : Prop :=
  ∀ cls sepolClass, B.base.classDatum cls = some sepolClass →
    ∀ key v, sepolClass.findPerm key = some v → 0 < v ∧ v ≤ 32

private theorem blockOf_append (flavor : Bool) (blocks : List (Neverallow.CondBlock δ ο))
    (cb : Neverallow.CondBlock δ ο) :
    Neverallow.blockOf flavor (blocks ++ [cb]) =
      if cb.flavor = flavor then some cb else Neverallow.blockOf flavor blocks := by
  unfold Neverallow.blockOf
  rw [List.foldl_append]
  rfl

/-- The loop is left with the last block of the flavor. -/
private theorem blockOf_eq_some {flavor : Bool} {blocks : List (Neverallow.CondBlock δ ο)}
    {cb : Neverallow.CondBlock δ ο} :
    Neverallow.blockOf flavor blocks = some cb ↔ ∃ before after, blocks = before ++ cb :: after ∧
      cb.flavor = flavor ∧ ∀ cb' ∈ after, cb'.flavor ≠ cb.flavor := by
  induction blocks using List.reverseRecOn with
  | nil =>
      constructor
      · intro h
        cases h
      · rintro ⟨before, after, h, -⟩
        exact absurd h.symm (by simp)
  | append_singleton blocks last ih =>
      rw [blockOf_append]
      constructor
      · intro h
        split at h
        · rename_i hflavor
          cases h
          exact ⟨blocks, [], rfl, hflavor, by simp⟩
        · rename_i hflavor
          obtain ⟨before, after, rfl, hcb, hafter⟩ := ih.mp h
          refine ⟨before, after ++ [last], by simp, hcb, fun cb' hcb' => ?_⟩
          rcases List.mem_append.mp hcb' with hmem | hmem
          · exact hafter cb' hmem
          · rw [List.mem_singleton.mp hmem, hcb]
            exact hflavor
      · rintro ⟨before, after, heq, hcb, hafter⟩
        rcases List.eq_nil_or_concat after with rfl | ⟨after', x, rfl⟩
        · obtain ⟨-, hlast⟩ := List.append_inj' heq rfl
          cases hlast
          rw [if_pos hcb]
        · have heq' : blocks ++ [last] = (before ++ cb :: after') ++ [x] := by
            rw [heq]
            simp
          obtain ⟨hblocks, hlast⟩ := List.append_inj' heq' rfl
          cases hlast
          have hx : ¬ last.flavor = flavor := by
            rw [← hcb]
            exact hafter last (by simp)
          rw [if_neg hx]
          exact ih.mpr ⟨before, after', hblocks, hcb, fun cb' hmem =>
            hafter cb' (by simp [hmem])⟩

/-- The access vectors of a pass are those of the rules in force. -/
private theorem mem_passVectors {values : Nat → Bool} {ast : Tree (Neverallow.NodeData δ ο)}
    {x : Key × Option Nat} :
    x ∈ passVectors db types B values ast ↔
      ∃ r, InForce B values ast r ∧ x ∈ AvruleTable.entryGains db types B.policydb (r, none) := by
  constructor
  · rintro ⟨d, hd, ⟨r, rfl, hx⟩ | ⟨expr, blocks, rfl, hx⟩⟩
    · exact ⟨r, .plain hd, hx⟩
    · cases hblock : Neverallow.blockOf (exprValue B values expr) blocks with
      | none =>
          rw [hblock] at hx
          exact absurd hx (Set.notMem_empty x)
      | some cb =>
          rw [hblock] at hx
          obtain ⟨before, after, rfl, hflavor, hlast⟩ := blockOf_eq_some.mp hblock
          obtain ⟨cr, hcr, hx⟩ := hx
          exact ⟨cr.1, .conditional hd hflavor hlast hcr rfl, hx⟩
  · rintro ⟨r, hr, hx⟩
    cases hr with
    | plain hnode => exact ⟨_, hnode, Or.inl ⟨r, rfl, hx⟩⟩
    | @conditional expr before after cb hnode hflavor hlast cr hrule hr =>
        refine ⟨_, hnode, Or.inr ⟨expr, before ++ cb :: after, rfl, ?_⟩⟩
        have hblock : Neverallow.blockOf (exprValue B values expr) (before ++ cb :: after) =
            some cb := blockOf_eq_some.mpr ⟨before, after, rfl, hflavor, hlast⟩
        rw [hblock]
        subst hr
        exact ⟨cr, hrule, hx⟩

/-- The bit of a permission is the one that its value says. -/
private theorem demands_iff (hvalues : WordValues B) {values : Nat → Bool}
    {ast : Tree (Neverallow.NodeData δ ο)} (hread : ∀ r ∈ Neverallow.avrules ast, ¬ Misread db r)
    {key : Key} {v : Nat} (hv : 0 < v) :
    ((key, some (v - 1)) ∈ passVectors db types B values ast ∧ v ≤ 32) ↔
      Demands db types B values ast key v := by
  have hrange : ∀ {kind d₁ d₂ cp v'}, Names db types B.policydb kind d₁ d₂ cp key v' →
      0 < v' ∧ v' ≤ 32 := by
    rintro kind d₁ d₂ cp v' ⟨_, _, _, sepolClass, _, _, _, hclass, _, p, _, hp⟩
    exact hvalues _ sepolClass hclass _ v' hp
  rw [mem_passVectors]
  constructor
  · rintro ⟨⟨r, hr, -, he, d₁, d₂, htaken, items, hitems, cp, hcp, v', hnames, hbit⟩, hle⟩
    obtain ⟨hpos, hle'⟩ := hrange hnames
    have hmod : v - 1 = (v' - 1) % 32 := hbit (v - 1) rfl
    have hsame : v' = v := by omega
    subst hsame
    have hpair := (taken_iff_pair (hread r hr.mem_avrules)).mp htaken
    exact ⟨r, hr, he, d₁, d₂, hpair, items, hitems, cp, hcp, hnames⟩
  · rintro ⟨r, hr, he, d₁, d₂, hpair, items, hitems, cp, hcp, hnames⟩
    have hle := (hrange hnames).2
    have htaken := (taken_iff_pair (hread r hr.mem_avrules)).mpr hpair
    refine ⟨⟨r, hr, rfl, he, d₁, d₂, htaken, items, hitems, cp, hcp, v, hnames, fun i hi => ?_⟩,
      hle⟩
    rw [← Option.some.inj hi]
    omega

/-- A run up to its end, which sets the flags. -/
private theorem binaryCreate_split (fuel : Nat) {ast : Tree (Neverallow.NodeData δ ο)}
    (hast : AllEvaluable B ast) {pdb : Tables τ₀ (CondPolicydb τ ρ)}
    {s' : State δ (Tables τ₀ (CondPolicydb τ ρ))}
    (hrun : Neverallow.binaryCreate db (tablePolicydb T condAvrule types B.policydb) fuel ast pdb =
      some (.ok () s')) :
    ∃ s : State δ (Tables τ₀ (CondPolicydb τ ρ)),
      (∀ values, view T values s = view T values (⟨[], pdb⟩ :
        State δ (Tables τ₀ (CondPolicydb τ ρ))) ∪ vectors (passVectors db types B values ast)) ∧
      s'.pdb.teAvtab = s.pdb.teAvtab ∧ s'.pdb.rest.cond =
        setConditionalStateAndFlags B.lib B.values (optimizeLists B.lib s.pdb.rest.cond) := by
  unfold Neverallow.binaryCreate at hrun
  obtain ⟨⟨⟩, s₁, hinit, hrun⟩ := Call.bind_ok hrun
  obtain ⟨⟨⟩, s₂, hpass₁, hrun⟩ := Call.bind_ok hrun
  obtain ⟨⟨⟩, s₃, harrays, hrun⟩ := Call.bind_ok hrun
  obtain ⟨⟨⟩, s₄, hpass₂, hrun⟩ := Call.bind_ok hrun
  obtain ⟨⟨⟩, s₅, hpass₃, hfinish⟩ := Call.bind_ok hrun
  refine ⟨s₅, fun values => ?_, ?_⟩
  · have h₁ : view T values s₁ = view T values (⟨[], pdb⟩ :
        State δ (Tables τ₀ (CondPolicydb τ ρ))) ∪ ∅ :=
      onRest_view (fun _ => ⟨rfl, rfl⟩) _ _ _ hinit
    have h₂ := binaryPass_view values fuel 1 hast _ _ _ hpass₁
    have h₃ : view T values s₃ = view T values s₂ ∪ ∅ :=
      onRest_view (fun _ => ⟨rfl, rfl⟩) _ _ _ harrays
    have h₄ := binaryPass_view values fuel 2 hast _ _ _ hpass₂
    have h₅ := binaryPass_view values fuel 3 hast _ _ _ hpass₃
    rw [h₅, h₄, h₃, h₂, h₁]
    ext v
    simp [vectors]
  · unfold Neverallow.onPolicydb at hfinish
    split at hfinish
    · rename_i pdb' heq
      cases hfinish
      simp only [tablePolicydb, Backend.policydb, Prod.mk.injEq] at heq
      obtain ⟨hrc, rfl⟩ := heq
      refine ⟨rfl, ?_⟩
      unfold finish at hrc ⊢
      split at hrc
      · rename_i p hp
        have hcond : p.cond = s₅.pdb.rest.cond := by
          rw [← (Prod.mk.inj hp).2]
        simp only [hcond]
      · rename_i rc p hne hp
        exact absurd hrc (fun hok => hne hok)
    · cases hfinish

/-- The bit `i` of a key is in the entry outside conditionals, or in one on a list that values of
the booleans select. -/
def Selects (T : Avtab τ₀) (values : Nat → Bool) (pdb : Tables τ₀ (CondPolicydb τ ρ)) (key : Key)
    (i : Nat) : Prop :=
  ∃ data, (T.search pdb.teAvtab key = some data ∨ ∃ n ∈ pdb.rest.cond.condList, ∃ flavor,
      ∃ p ∈ n.list flavor, evalCells values n.expr [] = some [flavor] ∧
        (pdb.rest.cond.avtab[p]?).map AvtabNode.datum = some (.accessVector key data)) ∧
    (permsOf key.specified data).getLsbD i = true

private theorem inForceAt_iff {values : Nat → Bool} {pdb : Tables τ₀ (CondPolicydb τ ρ)} {key : Key}
    {i : Nat} : InForceAt T values pdb (key, some i) ↔ Selects T values pdb key i := by
  constructor
  · rintro (⟨data, hdata, hbit⟩ | ⟨j, flavor, L, ⟨n, hn, p, hp, a, ha, hx⟩, hexpr, heval⟩)
    · exact ⟨data, Or.inl hdata, hbit i rfl⟩
    · have hL : n.expr = L := HasExpr.unique ⟨n, hn, rfl⟩ hexpr
      rw [← hL] at heval
      cases hd : a.datum with
      | typeRule r =>
          rw [hd] at hx
          exact hx.elim
      | accessVector k data =>
          rw [hd] at hx
          obtain ⟨hk, hbit⟩ := hx
          have hkey : key = k := hk
          subst hkey
          refine ⟨data, Or.inr ⟨n, List.mem_of_getElem? hn, flavor, p, hp, heval, ?_⟩, hbit i rfl⟩
          rw [ha, Option.map_some, hd]
  · rintro ⟨data, hdata | ⟨n, hn, flavor, p, hp, heval, hd⟩, hbit⟩
    · left
      refine ⟨data, hdata, fun j hj => ?_⟩
      rw [← Option.some.inj hj]
      exact hbit
    · right
      obtain ⟨j, hj⟩ := List.mem_iff_getElem?.mp hn
      obtain ⟨a, ha, hd⟩ := Option.map_eq_some_iff.mp hd
      refine ⟨j, flavor, n.expr, ⟨n, hj, p, hp, a, ha, ?_⟩, ⟨n, hj, rfl⟩, heval⟩
      rw [hd]
      refine ⟨rfl, fun j hj => ?_⟩
      rw [← Option.some.inj hj]
      exact hbit

section Finished

variable {pdb pdb' : Tables τ₀ (CondPolicydb τ ρ)} (hte : pdb'.teAvtab = pdb.teAvtab)
  (hflags : pdb'.rest.cond =
    setConditionalStateAndFlags B.lib B.values (optimizeLists B.lib pdb.rest.cond))

include hte hflags

/-- The end of a run leaves what the values of the booleans select. -/
private theorem selects_finished {values : Nat → Bool} {key : Key} {i : Nat} :
    Selects T values pdb' key i ↔ Selects T values pdb key i := by
  unfold Selects
  rw [hte, hflags]
  apply exists_congr
  intro data
  apply and_congr_left
  intro _
  apply or_congr_right
  simp only [map_datum_setConditionalStateAndFlags]
  simp only [setConditionalStateAndFlags, List.mem_map, exists_exists_and_eq_and]
  exact mem_optimizeLists (q := fun L flavor p => evalCells values L [] = some [flavor] ∧
    (pdb.rest.cond.avtab[p]?).map AvtabNode.datum = some (.accessVector key data))

/-- What is enabled then is what the default values select. -/
private theorem enforces_finished (hfine : ∀ n ∈ pdb.rest.cond.condList, Fine n.expr) {key : Key}
    {v : Nat} :
    Enforces T pdb' key v ↔ Selects T B.values pdb key (v - 1) := by
  have hstate : ∀ n ∈ pdb.rest.cond.condList, ∀ flavor,
      B.lib.evaluateExpr B.values n.expr = some flavor ↔
        evalCells B.values n.expr [] = some [flavor] := by
    intro n hn flavor
    obtain ⟨b, hb⟩ := (hfine n hn).2 B.values
    rw [B.lib.evaluateExpr_eq _ _ _ (hfine n hn).1 hb, hb]
    simp
  unfold Enforces Selects
  rw [hte, hflags]
  apply exists_congr
  intro data
  apply and_congr_left
  intro _
  apply or_congr_right
  rw [enabled_iff]
  refine Iff.trans (mem_optimizeLists (q := fun L flavor p => ∃ a,
    pdb.rest.cond.avtab[p]? = some a ∧ a.datum = .accessVector key data ∧
      B.lib.evaluateExpr B.values L = some flavor)) ?_
  apply exists_congr
  intro n
  apply and_congr_right
  intro hn
  simp only [hstate n hn, Option.map_eq_some_iff]
  apply exists_congr
  intro flavor
  apply exists_congr
  intro p
  apply and_congr_right
  intro _
  constructor
  · rintro ⟨a, ha, hd, heval⟩
    exact ⟨heval, a, ha, hd⟩
  · rintro ⟨heval, a, ha, hd⟩
    exact ⟨a, ha, hd, heval⟩

end Finished

end Enforced

section NegatedBoolean

/-- The evaluation on a stack of `COND_EXPR_MAXDEPTH` values. -/
def evalBounded (values : Nat → Bool) : List CondExpr → List Bool → Option (List Bool)
  | [], stack => some stack
  | c :: L, stack => (evalCell values c stack).bind fun stack' =>
      if stack'.length ≤ Build.condExprMaxdepth.toNat then evalBounded values L stack' else none

private theorem evalBounded_eq {values : Nat → Bool} (L : List CondExpr) {stack : List Bool}
    (h : StaysWithin (evalCell values) Build.condExprMaxdepth.toNat L stack) :
    evalBounded values L stack = evalCells values L stack := by
  induction L generalizing stack with
  | nil => rfl
  | cons c L ih =>
      rw [evalBounded, evalCells]
      cases hstep : evalCell values c stack with
      | none => rfl
      | some stack' =>
          have hrest := h.2 stack' hstep
          rw [Option.bind_some, Option.bind_some, if_pos hrest.start, ih hrest]

private theorem staysWithin_left {values : Nat → Bool} {n : Nat} (L M : List CondExpr)
    {stack : List Bool} (h : StaysWithin (evalCell values) n (L ++ M) stack) :
    StaysWithin (evalCell values) n L stack := by
  induction L generalizing stack with
  | nil => exact h.start
  | cons c L ih => exact ⟨h.1, fun stack' hstep => ih (h.2 stack' hstep)⟩

def evaluateBounded (values : Nat → Bool) (L : List CondExpr) : Option Bool :=
  match evalBounded values L [] with
  | some [b] => some b
  | _ => none

def isTypeRule {τ : Type} (avtab : List (AvtabNode τ)) (p : Nat) : Bool :=
  match avtab[p]? with
  | some ⟨.typeRule _, _⟩ => true
  | _ => false

/-- A policy library that compares expressions as they stand and moves type rules to the front. -/
def plainLibrary : FlagLibrary Unit where
  toCondLibrary := Conditional.plainLibrary
  evaluateExpr := evaluateBounded
  optimizeList avtab l :=
    (l.filter (isTypeRule avtab)).reverse ++ l.filter fun p => !isTypeRule avtab p
  evaluateExpr_eq := by
    intro values L b hfits heval
    unfold evaluateBounded
    rw [evalBounded_eq L (hfits values), heval]
  fits_normalizeExpr := by
    intro L hfits values
    show StaysWithin (evalCell values) _ (Conditional.stripNot L).1 []
    rcases Conditional.stripNot_spec L with ⟨-, heq⟩ | ⟨v, -, heq⟩
    · rw [heq]
      exact hfits values
    · apply staysWithin_left (Conditional.stripNot L).1 [⟨.not, v⟩]
      rw [heq]
      exact hfits values
  optimizeList_perm := by
    intro avtab l
    exact ((List.reverse_perm _).append_right _).trans (List.filter_append_perm _ _)

/-- Two types, a class with two permissions, and a boolean. -/
inductive Symbol
  | a | b | file | read | write | flag
  deriving DecidableEq

def symbolDb : Db Symbol where
  fqn
    | .a => "a"
    | .b => "b"
    | .file => "file"
    | .read => "read"
    | .write => "write"
    | .flag => "flag"
  value
    | .b => 1
    | _ => 0
  types _ := none
  classperms _ := none
  valToType
    | 0 => some .a
    | 1 => some .b
    | _ => none
  value_valToType := by
    intro i t h
    match i with
    | 0 => cases h; rfl
    | 1 => cases h; rfl
    | _ + 2 => cases h
  disableDontaudit := false
  disableNeverallow := false

def fileClass : ClassDatum :=
  ⟨1, fun key => if key = "read" then some 1 else if key = "write" then some 2 else none, none⟩

/-- One boolean, false by default, and its negation in the booleanifs. -/
def symbolBackend : Backend Unit Symbol Unit Unit where
  lib := plainLibrary
  bools d := if d = .flag then some 0 else none
  values _ := false
  exprOf _ := [.op .not, .datum .flag]
  typeRules _ _ := some []
  base :=
    { classDatum := fun key => if key = "file" then some fileClass else none
      typeDatum := fun _ _ => none
      init := fun _ => (.ok, ())
      valArraysCreate := fun _ => (.ok, ())
      finish := fun _ => (.ok, ())
      insertAvrule := fun _ _ _ _ _ _ _ => (.ok, ())
      condNode := fun _ _ => none
      condRule := fun _ _ _ => (.ok, ())
      statement := fun _ _ _ => (.ok, ()) }

def fileRule (kind : RuleKind) (p : Symbol) : Avrule Symbol :=
  ⟨kind, .type .a, .datum (.type .b), some [.kernel ⟨.file, [p]⟩]⟩

/-- `(allow a b (file (read)))` and `(booleanif (not flag) (true (allow a b (file (write))))
(false (dontaudit a b (file (read)))))`. -/
def negatedAst : Tree (Neverallow.NodeData Symbol Unit) :=
  .node (.other ())
    [.node (.avrule (fileRule .allowed .read)) [],
      .node (.booleanif ()
        [⟨true, [.node (.avrule ⟨fileRule .allowed .write, by decide⟩) []]⟩,
          ⟨false, [.node (.avrule ⟨fileRule .dontaudit .read, by decide⟩) []]⟩]) []]

def emptyPolicydb : Tables (Key → Option (BitVec 32)) (CondPolicydb Unit Unit) :=
  ⟨fun _ => none, ⟨.empty, ()⟩⟩

private theorem symbolBackend_wordValues : WordValues symbolBackend := by
  intro cls sepolClass hclass key v hv
  simp only [symbolBackend] at hclass
  split at hclass
  · cases hclass
    simp only [ClassDatum.findPerm, fileClass] at hv
    split at hv
    · rename_i value hvalue
      cases hv
      split at hvalue
      · cases hvalue
        decide
      · split at hvalue
        · cases hvalue
          decide
        · cases hvalue
    · cases hv
  · cases hclass

end NegatedBoolean

end Cil.Binary.Conditionals
