/- Cil/Binary/TypeRules
   digest: Insertion of type rules into the two tables of a binary policy. -/

import Mathlib.Logic.Function.Basic
import Cil.Basic

set_option autoImplicit false
set_option relaxedAutoImplicit false

namespace Cil.Binary.TypeRules

/-- The kind of a type rule, as the tables specify it. -/
inductive Specified
  | transition
  | change
  | member
  deriving DecidableEq, Repr

/-- `avtab_key_t`. -/
structure Key where
  sourceType : Nat
  targetType : Nat
  targetClass : Nat
  specified : Specified
  deriving DecidableEq, Repr

/-- An entry of a table: a key and the result type. -/
structure Entry where
  key : Key
  result : Nat
  deriving DecidableEq, Repr

/-- A rule and where it stands: in a branch of a conditional node, true for
`CIL_CONDTRUE`, or in none. -/
structure Placed (ν : Type) where
  entry : Entry
  place : Option (ν × Bool)
  deriving DecidableEq, Repr

/-- The tables of the policy library: a search returns some entry with the key if there is
one, and an insertion that succeeds adds its entry. -/
structure Avtab (T : Type) where
  alloc : T
  contains : T → Entry → Prop
  searchNode : T → Key → Option Entry
  insert : T → Entry → Option T
  insertNonunique : T → Entry → Option T
  not_contains_alloc : ∀ e, ¬ contains alloc e
  searchNode_some : ∀ t k e, searchNode t k = some e → contains t e ∧ e.key = k
  searchNode_none : ∀ t k, searchNode t k = none → ∀ e, contains t e → e.key ≠ k
  contains_insert : ∀ t e t', insert t e = some t' →
    ∀ x, contains t' x ↔ x = e ∨ contains t x
  contains_insertNonunique : ∀ t e t', insertNonunique t e = some t' →
    ∀ x, contains t' x ↔ x = e ∨ contains t x

/-- The unconditional table, the conditional table, and the entries in `true_list` and
`false_list` of the conditional nodes. -/
structure Tables (ν T : Type) where
  teAvtab : T
  teCondAvtab : T
  avList : ν → Bool → List Entry

section Insert

variable {ν T : Type} [DecidableEq ν] (A : Avtab T)

/-- `cil_cond_av_list_search`. -/
def condAvListSearch (key : Key) (condList : List Entry) : Option Nat :=
  (condList.find? fun e => e.key = key).map Entry.result

/-- `__cil_cond_insert_rule`. -/
def condInsertRule (s : Tables ν T) (e : Entry) (node : ν) (flavor : Bool) : Rc × Tables ν T :=
  match A.insertNonunique s.teCondAvtab e with
  | none => (.err, s)
  | some teCondAvtab =>
      (.ok, { s with
        teCondAvtab := teCondAvtab
        avList := Function.update s.avList node
          (Function.update (s.avList node) flavor (e :: s.avList node flavor)) })

/-- `__cil_insert_type_rule`. -/
def insertTypeRule (s : Tables ν T) (r : Placed ν) : Rc × Tables ν T :=
  match A.searchNode s.teAvtab r.entry.key with
  | some existing => if existing.result = r.entry.result then (.ok, s) else (.err, s)
  | none =>
      match r.place with
      | none =>
          match A.insert s.teAvtab r.entry with
          | some teAvtab => (.ok, { s with teAvtab := teAvtab })
          | none => (.err, s)
      | some (node, flavor) =>
          match A.searchNode s.teCondAvtab r.entry.key with
          | none => condInsertRule A s r.entry node flavor
          | some existing =>
              match condAvListSearch r.entry.key (s.avList node (!flavor)) with
              -- a rule in the other branch ends the search for conflicts
              | some _ => condInsertRule A s r.entry node flavor
              | none =>
                  if existing.result = r.entry.result then
                    match condAvListSearch r.entry.key (s.avList node flavor) with
                    | some _ => (.ok, s)
                    | none => condInsertRule A s r.entry node flavor
                  else (.err, s)

/-- A sequence of insertions, up to the first that fails. -/
def insertAll : Tables ν T → List (Placed ν) → Rc × Tables ν T
  | s, [] => (.ok, s)
  | s, r :: rest =>
      match insertTypeRule A s r with
      | (.ok, s') => insertAll s' rest
      | (rc, s') => (rc, s')

/-- The tables as `__cil_policydb_init` leaves them. -/
def Tables.init : Tables ν T := ⟨A.alloc, A.alloc, fun _ _ => []⟩

end Insert

end Cil.Binary.TypeRules
