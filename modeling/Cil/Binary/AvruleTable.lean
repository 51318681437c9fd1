/- Cil/Binary/AvruleTable
   digest: Insertion of access vector rules into the unconditional table of a binary policy. -/

import Cil.Binary.NeverallowSound
import Cil.ClassPermsGains

set_option autoImplicit false
set_option relaxedAutoImplicit false

namespace Cil.Binary.AvruleTable

open Cil.Library Cil.ClassPerms Cil.Binary.Neverallow

/-- The kind of an access vector, as the table specifies it. -/
inductive Specified
  | allowed
  | auditallow
  | auditdeny
  deriving DecidableEq, Repr

/-- `avtab_key_t`. -/
structure Key where
  sourceType : Nat
  targetType : Nat
  targetClass : Nat
  specified : Specified
  deriving DecidableEq, Repr

/-- The table of the policy library is a map; `assign` writes the datum that a search found. -/
structure Avtab (τ : Type) where
  search : τ → Key → Option (BitVec 32)
  insert : τ → Key → BitVec 32 → Rc × τ
  assign : τ → Key → BitVec 32 → τ
  search_insert : ∀ t k data t', insert t k data = (.ok, t') →
    ∀ k', search t' k' = if k' = k then some data else search t k'
  search_assign : ∀ t k data k',
    search (assign t k data) k' = if k' = k then some data else search t k'

/-- The unconditional table and the rest of the policy database. -/
structure Tables (τ P : Type) where
  teAvtab : τ
  rest : P

/-- The value of `avtab_key.specified` for a kind of rule. -/
def specified : RuleKind → Option Specified
  | .allowed => some .allowed
  | .auditallow => some .auditallow
  | .dontaudit => some .auditdeny
  | .neverallow => none

section Insertion

variable {τ P ν ο : Type} (T : Avtab τ)
  (condInsertRule : Key → BitVec 32 → ν × Bool → P → Rc × P)

/-- `__cil_insert_avrule`. -/
def insertAvrule (kind : RuleKind) (src tgt obj : Nat) (data : BitVec 32)
    (cond : Option (ν × Bool)) (pdb : Tables τ P) : Rc × Tables τ P :=
  match specified kind with
  | none => (.err, pdb)
  | some specified =>
      let avtabKey : Key := ⟨src, tgt, obj, specified⟩
      match cond with
      | none =>
          match T.search pdb.teAvtab avtabKey with
          | none =>
              let (rc, teAvtab) := T.insert pdb.teAvtab avtabKey data
              (rc, { pdb with teAvtab := teAvtab })
          | some dup =>
              let data := if kind = .dontaudit then dup &&& data else dup ||| data
              (.ok, { pdb with teAvtab := T.assign pdb.teAvtab avtabKey data })
      | some cond =>
          let (rc, rest) := condInsertRule avtabKey data cond pdb.rest
          (rc, { pdb with rest := rest })

/-- A policy database with its table of access vectors. The types are in it before the rules,
and `M` is what else is done to it. -/
def tablePolicydb (types : String → Option Nat) (M : Policydb P ν ο) :
    Policydb (Tables τ P) ν ο where
  classDatum := M.classDatum
  typeDatum _ key := types key
  init pdb := ((M.init pdb.rest).1, { pdb with rest := (M.init pdb.rest).2 })
  valArraysCreate pdb :=
    ((M.valArraysCreate pdb.rest).1, { pdb with rest := (M.valArraysCreate pdb.rest).2 })
  finish pdb := ((M.finish pdb.rest).1, { pdb with rest := (M.finish pdb.rest).2 })
  insertAvrule := insertAvrule T condInsertRule
  condNode expr pdb :=
    (M.condNode expr pdb.rest).map fun r => (r.1, r.2.1, { pdb with rest := r.2.2 })
  condRule stmt cond pdb :=
    ((M.condRule stmt cond pdb.rest).1, { pdb with rest := (M.condRule stmt cond pdb.rest).2 })
  statement pass stmt pdb :=
    ((M.statement pass stmt pdb.rest).1,
      { pdb with rest := (M.statement pass stmt pdb.rest).2 })

end Insertion

section Content

variable {τ P ν ο : Type} (T : Avtab τ)

/-- The permissions that a datum stands for: of a dontaudit entry those whose bit is clear. -/
def permsOf (specified : Specified) (data : BitVec 32) : BitVec 32 :=
  if specified = .auditdeny then ~~~data else data

/-- The keys with an entry, and the keys with the bits of the permissions there. -/
def content (t : τ) : Set (Key × Option Nat) :=
  {x | ∃ data, T.search t x.1 = some data ∧
    ∀ i, x.2 = some i → (permsOf x.1.specified data).getLsbD i = true}

/-- What an entry for the permissions `perms` adds. -/
def entry (k : Key) (perms : BitVec 32) : Set (Key × Option Nat) :=
  {x | x.1 = k ∧ ∀ i, x.2 = some i → perms.getLsbD i = true}

variable {T}

/-- Writing a key whose permissions grow by `perms`. -/
private theorem content_write {t t' : τ} {k : Key} {data perms : BitVec 32}
    (hsearch : ∀ k', T.search t' k' = if k' = k then some data else T.search t k')
    (hdata : ∀ i, (permsOf k.specified data).getLsbD i =
      (((T.search t k).elim false fun old => (permsOf k.specified old).getLsbD i) ||
        perms.getLsbD i)) :
    content T t' = content T t ∪ entry k perms := by
  ext x
  obtain ⟨k', b⟩ := x
  by_cases hk : k' = k
  · subst hk
    have hnew : T.search t' k' = some data := by rw [hsearch k', if_pos rfl]
    cases hold : T.search t k' with
    | none =>
      rw [hold] at hdata
      have hbit : ∀ i, (permsOf k'.specified data).getLsbD i = perms.getLsbD i := by
        intro i
        rw [hdata i]
        rfl
      simp [content, entry, hnew, hold, hbit]
    | some old =>
      rw [hold] at hdata
      have hbit : ∀ i, (permsOf k'.specified data).getLsbD i =
          ((permsOf k'.specified old).getLsbD i || perms.getLsbD i) := hdata
      cases b with
      | none => simp [content, entry, hnew, hold]
      | some i => simp [content, entry, hnew, hold, hbit, Bool.or_eq_true]
  · have hsame : T.search t' k' = T.search t k' := by rw [hsearch k', if_neg hk]
    simp [content, entry, hsame, hk]

/-- The datum that is inserted for the permissions `perms`. -/
def datumOf (kind : RuleKind) (perms : BitVec 32) : BitVec 32 :=
  if kind = .dontaudit then ~~~perms else perms

theorem permsOf_datumOf {kind : RuleKind} {spec : Specified} (h : specified kind = some spec)
    (perms : BitVec 32) : permsOf spec (datumOf kind perms) = perms := by
  cases kind <;> cases h <;> simp [permsOf, datumOf]

private theorem permsOf_combined {kind : RuleKind} {spec : Specified}
    (h : specified kind = some spec) (dup perms : BitVec 32) :
    permsOf spec (if kind = .dontaudit then dup &&& datumOf kind perms
      else dup ||| datumOf kind perms) = permsOf spec dup ||| perms := by
  cases kind with
  | allowed => cases h; simp [permsOf, datumOf]
  | auditallow => cases h; simp [permsOf, datumOf]
  | neverallow => cases h
  | dontaudit =>
    cases h
    simp [permsOf, datumOf, BitVec.not_and]

variable {condInsertRule : Key → BitVec 32 → ν × Bool → P → Rc × P}

/-- An insertion outside booleanifs adds one entry. -/
theorem insertAvrule_content {kind : RuleKind} {src tgt obj : Nat} {perms : BitVec 32}
    {pdb pdb' : Tables τ P}
    (h : insertAvrule T condInsertRule kind src tgt obj (datumOf kind perms) none pdb =
      (.ok, pdb')) :
    ∃ spec, specified kind = some spec ∧
      content T pdb'.teAvtab = content T pdb.teAvtab ∪ entry ⟨src, tgt, obj, spec⟩ perms := by
  unfold insertAvrule at h
  cases hspec : specified kind with
  | none =>
    rw [hspec] at h
    cases h
  | some spec =>
    refine ⟨spec, rfl, ?_⟩
    simp only [hspec] at h
    cases hsearch : T.search pdb.teAvtab ⟨src, tgt, obj, spec⟩ with
    | none =>
      simp only [hsearch, Prod.mk.injEq] at h
      obtain ⟨hrc, rfl⟩ := h
      refine content_write (T.search_insert _ _ _ _ (Prod.ext hrc rfl)) ?_
      intro i
      rw [hsearch, permsOf_datumOf hspec]
      rfl
    | some dup =>
      simp only [hsearch, Prod.mk.injEq, true_and] at h
      subst h
      refine content_write (T.search_assign _ _ _) ?_
      intro i
      rw [hsearch, permsOf_combined hspec, BitVec.getLsbD_or]
      rfl

/-- An insertion in a booleanif leaves the unconditional table as it is. -/
theorem insertAvrule_cond {kind : RuleKind} {src tgt obj : Nat} {data : BitVec 32}
    {cond : ν × Bool} {pdb pdb' : Tables τ P}
    (h : insertAvrule T condInsertRule kind src tgt obj data (some cond) pdb = (.ok, pdb')) :
    pdb'.teAvtab = pdb.teAvtab := by
  unfold insertAvrule at h
  cases hspec : specified kind with
  | none =>
    rw [hspec] at h
    cases h
  | some spec =>
    simp only [hspec, Prod.mk.injEq] at h
    rw [← h.2]

end Content

end Cil.Binary.AvruleTable
