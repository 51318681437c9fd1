/- Cil/Binary/Conditionals
   digest: Conditional rules as nodes of a table, and the flags that say which are enabled. -/

import Mathlib.Data.List.Range
import Cil.Binary.AvruleUnion
import Cil.Binary.StackNeed
import Cil.Conditional.Booleanif

set_option autoImplicit false
set_option relaxedAutoImplicit false

namespace Cil.Binary.Conditionals

open Library
open Cil.Expr (Item)
open Postfix (CondExpr evalCell evalCells)
open Library.Postfix (StaysWithin)
open Conditional (CondLibrary sepolExpr)
open AvruleTable (Key)
open Neverallow (Policydb)

variable {τ δ ο ρ : Type}

section Tables

/-- What `avtab_insert_nonunique` is given: an access vector, or the entry of a type rule. -/
inductive Datum (τ : Type)
  | accessVector (key : Key) (data : BitVec 32)
  | typeRule (r : τ)

/-- A node of `te_cond_avtab`; `enabled` is the flag `AVTAB_ENABLED` of its key. -/
structure AvtabNode (τ : Type) where
  datum : Datum τ
  enabled : Bool

/-- `cond_node_t`. The lists, `true_list` for `true`, hold numbers of table nodes; there is no
`cur_state` when the expression is undefined. -/
structure CondNode where
  expr : List CondExpr
  curState : Option Bool
  list : Bool → List Nat

/-- `cond_node_create`. -/
def CondNode.create (L : List CondExpr) : CondNode := ⟨L, none, fun _ => []⟩

def CondNode.attach (flavor : Bool) (p : Nat) (n : CondNode) : CondNode :=
  { n with list := Function.update n.list flavor (p :: n.list flavor) }

/-- The table nodes on the lists of a conditional node. -/
def CondNode.attached (n : CondNode) : List Nat := n.list true ++ n.list false

/-- `te_cond_avtab`, its nodes in the order in which they were made, and the list of conditional
nodes from its end. Each table node is on one list. -/
structure CondTables (τ : Type) where
  avtab : List (AvtabNode τ)
  condList : List CondNode
  linked : (condList.flatMap CondNode.attached).Perm (List.range avtab.length)

/-- The policy database as far as conditional rules go, and the rest of it. -/
structure CondPolicydb (τ ρ : Type) where
  cond : CondTables τ
  rest : ρ

def CondTables.empty : CondTables τ := ⟨[], [], List.Perm.refl _⟩

end Tables

section Linked

private theorem CondNode.attached_attach (flavor : Bool) (p : Nat) (n : CondNode) :
    (n.attach flavor p).attached.Perm (p :: n.attached) := by
  cases flavor with
  | true =>
      apply List.Perm.of_eq
      simp [CondNode.attach, CondNode.attached]
  | false =>
      have hlists : (n.attach false p).attached = n.list true ++ p :: n.list false := by
        simp [CondNode.attach, CondNode.attached]
      rw [hlists]
      exact List.perm_middle

private theorem flatMap_set_perm {condList : List CondNode} {i p : Nat} {n n' : CondNode}
    (hn : condList[i]? = some n) (hlists : n'.attached.Perm (p :: n.attached)) :
    ((condList.set i n').flatMap CondNode.attached).Perm
      (p :: condList.flatMap CondNode.attached) := by
  induction condList generalizing i with
  | nil => cases hn
  | cons m rest ih =>
      cases i with
      | zero =>
          cases hn
          rw [List.set_cons_zero, List.flatMap_cons, List.flatMap_cons]
          exact hlists.append_right _
      | succ i =>
          rw [List.set_cons_succ, List.flatMap_cons, List.flatMap_cons]
          exact ((ih hn).append_left _).trans List.perm_middle

private theorem linked_insert {t : CondTables τ} {i : Nat} {n : CondNode} {flavor : Bool}
    (hn : t.condList[i]? = some n) (a : AvtabNode τ) :
    ((t.condList.set i (n.attach flavor t.avtab.length)).flatMap CondNode.attached).Perm
      (List.range (t.avtab ++ [a]).length) := by
  have hset := flatMap_set_perm hn (n.attached_attach flavor t.avtab.length)
  have hrange : (List.range (t.avtab ++ [a]).length).Perm
      (t.avtab.length :: List.range t.avtab.length) := by
    rw [List.length_append, List.length_singleton, List.range_succ]
    exact List.perm_append_singleton _ _
  exact (hset.trans (t.linked.cons _)).trans hrange.symm

private theorem linked_create (t : CondTables τ) (L : List CondExpr) :
    ((t.condList ++ [CondNode.create L]).flatMap CondNode.attached).Perm
      (List.range t.avtab.length) := by
  rw [List.flatMap_append]
  have hnew : [CondNode.create L].flatMap CondNode.attached = [] := rfl
  rw [hnew, List.append_nil]
  exact t.linked

end Linked

section Insertion

/-- `__cil_cond_insert_rule`, on the list for the flavor of the conditional node of number `i`. -/
def condInsertRule (d : Datum τ) (cond : Nat × Bool) (t : CondTables τ) : Rc × CondTables τ :=
  match hn : t.condList[cond.1]? with
  | none => (.err, t)
  | some n => (.ok, ⟨t.avtab ++ [⟨d, false⟩],
      t.condList.set cond.1 (n.attach cond.2 t.avtab.length), linked_insert hn _⟩)

/-- The insertions that a type rule of a conditional block makes. -/
def condInsertRules (cond : Nat × Bool) : List τ → CondTables τ → Rc × CondTables τ
  | [], t => (.ok, t)
  | r :: rs, t =>
      match condInsertRule (.typeRule r) cond t with
      | (.ok, t) => condInsertRules cond rs t
      | (rc, t) => (rc, t)

/-- The number of the last conditional node with an equal expression: it comes first in
`cond_list`. -/
def findNode (lib : CondLibrary) (L : List CondExpr) : List CondNode → Option Nat
  | [] => none
  | n :: rest =>
      match findNode lib L rest with
      | some i => some (i + 1)
      | none => if lib.exprEqual L n.expr then some 0 else none

/-- `cond_node_find`, and the link of a new node at the head of `cond_list`. -/
def condNodeFind (lib : CondLibrary) (L : List CondExpr) (t : CondTables τ) :
    Nat × CondTables τ :=
  match findNode lib L t.condList with
  | some i => (i, t)
  | none => (t.condList.length,
      ⟨t.avtab, t.condList ++ [CondNode.create L], linked_create t L⟩)

/-- The conditional node of a booleanif, and whether its branches were swapped. -/
def condNode (lib : CondLibrary) (bools : δ → Option Nat) (expr : List (Item δ))
    (t : CondTables τ) : Option (Nat × Bool × CondTables τ) := do
  let tmpExpr ← sepolExpr bools expr
  let (normalized, swapped) := lib.normalizeExpr tmpExpr
  let (i, t) := condNodeFind lib normalized t
  pure (i, swapped, t)

end Insertion

section Flags

/-- A list stays within the stack of `cond_evaluate_expr`. -/
def Fits (L : List CondExpr) : Prop :=
  ∀ values, StaysWithin (evalCell values) Build.condExprMaxdepth.toNat L []

/-- What else the policy library does with conditional nodes: `cond_evaluate_expr`, which has no
result for a list that does not fit its stack, and `cond_optimize_lists`. A normalized expression
needs no larger stack. -/
structure FlagLibrary (τ : Type) extends CondLibrary where
  evaluateExpr : (Nat → Bool) → List CondExpr → Option Bool
  optimizeList : List (AvtabNode τ) → List Nat → List Nat
  evaluateExpr_eq : ∀ values L b, Fits L → evalCells values L [] = some [b] →
    evaluateExpr values L = some b
  fits_normalizeExpr : ∀ L, Fits L → Fits (normalizeExpr L).1
  optimizeList_perm : ∀ avtab l, (optimizeList avtab l).Perm l

variable (lib : FlagLibrary τ) (values : Nat → Bool)

/-- `cond_optimize_lists`. -/
def optimizeLists (t : CondTables τ) : CondTables τ where
  avtab := t.avtab
  condList :=
    t.condList.map fun n => { n with list := fun b => lib.optimizeList t.avtab (n.list b) }
  linked := by
    rw [List.flatMap_map]
    refine List.Perm.trans ?_ t.linked
    apply List.Perm.flatMap_left
    intro n _
    exact (lib.optimizeList_perm _ _).append (lib.optimizeList_perm _ _)

/-- The loop over one list: the flag of each table node is set or cleared. -/
def setFlags (enabled : Bool) (ps : List Nat) (avtab : List (AvtabNode τ)) :
    List (AvtabNode τ) :=
  ps.foldl (fun avtab p => avtab.modify p fun a => { a with enabled := enabled }) avtab

/-- The turn for one conditional node. -/
def setNodeFlags (n : CondNode) (avtab : List (AvtabNode τ)) : List (AvtabNode τ) :=
  let newState := lib.evaluateExpr values n.expr
  setFlags (newState == some false) (n.list false)
    (setFlags (newState == some true) (n.list true) avtab)

private theorem length_setFlags (enabled : Bool) (ps : List Nat) (avtab : List (AvtabNode τ)) :
    (setFlags enabled ps avtab).length = avtab.length := by
  induction ps generalizing avtab with
  | nil => rfl
  | cons p ps ih =>
      have hrest := ih (avtab.modify p fun a => { a with enabled := enabled })
      rw [List.length_modify] at hrest
      exact hrest

private theorem length_setNodeFlags (n : CondNode) (avtab : List (AvtabNode τ)) :
    (setNodeFlags lib values n avtab).length = avtab.length := by
  unfold setNodeFlags
  rw [length_setFlags, length_setFlags]

theorem length_foldr_setNodeFlags (ns : List CondNode) (avtab : List (AvtabNode τ)) :
    (ns.foldr (setNodeFlags lib values) avtab).length = avtab.length := by
  induction ns with
  | nil => rfl
  | cons n ns ih =>
      rw [List.foldr_cons, length_setNodeFlags, ih]

/-- `__cil_set_conditional_state_and_flags`. The head of `cond_list` comes first. -/
def setConditionalStateAndFlags (t : CondTables τ) : CondTables τ where
  avtab := t.condList.foldr (setNodeFlags lib values) t.avtab
  condList := t.condList.map fun n => { n with curState := lib.evaluateExpr values n.expr }
  linked := by
    rw [List.flatMap_map, length_foldr_setNodeFlags]
    exact t.linked

end Flags

section Database

/-- What conditional rules rest on: the policy library, the booleans and their default values, the
expressions of booleanifs, the entries that a type rule adds, and what else is done to the policy
database. -/
structure Backend (τ δ ο ρ : Type) where
  lib : FlagLibrary τ
  bools : δ → Option Nat
  values : Nat → Bool
  exprOf : ο → List (Item δ)
  typeRules : ο → CondPolicydb τ ρ → Option (List τ)
  base : Policydb ρ Unit ο

variable (B : Backend τ δ ο ρ)

/-- A step of the rest of the policy database. -/
def onRest (f : ρ → Rc × ρ) (pdb : CondPolicydb τ ρ) : Rc × CondPolicydb τ ρ :=
  ((f pdb.rest).1, { pdb with rest := (f pdb.rest).2 })

/-- The end of `cil_binary_create`. -/
def finish (pdb : CondPolicydb τ ρ) : Rc × CondPolicydb τ ρ :=
  match onRest B.base.finish pdb with
  | (.ok, pdb) =>
      (.ok, { pdb with
        cond := setConditionalStateAndFlags B.lib B.values (optimizeLists B.lib pdb.cond) })
  | (rc, pdb) => (rc, pdb)

/-- A type rule of a conditional block. -/
def condRule (stmt : ο) (cond : Nat × Bool) (pdb : CondPolicydb τ ρ) : Rc × CondPolicydb τ ρ :=
  match B.typeRules stmt pdb with
  | none => (.err, pdb)
  | some rs =>
      ((condInsertRules cond rs pdb.cond).1,
        { pdb with cond := (condInsertRules cond rs pdb.cond).2 })

/-- An access vector rule of a conditional block, for one key. -/
def condAvrule (key : Key) (data : BitVec 32) (cond : Nat × Bool) (pdb : CondPolicydb τ ρ) :
    Rc × CondPolicydb τ ρ :=
  ((condInsertRule (.accessVector key data) cond pdb.cond).1,
    { pdb with cond := (condInsertRule (.accessVector key data) cond pdb.cond).2 })

/-- The policy database with its conditional rules. The access vectors of the rules outside
booleanifs come into a table of their own. -/
def Backend.policydb : Policydb (CondPolicydb τ ρ) Nat ο where
  classDatum := B.base.classDatum
  typeDatum pdb key := B.base.typeDatum pdb.rest key
  init := onRest B.base.init
  valArraysCreate := onRest B.base.valArraysCreate
  finish := finish B
  insertAvrule _ _ _ _ _ _ pdb := (.ok, pdb)
  condNode expr pdb := (condNode B.lib.toCondLibrary B.bools (B.exprOf expr) pdb.cond).map fun r =>
    (r.1, r.2.1, { pdb with cond := r.2.2 })
  condRule := condRule B
  statement pass stmt := onRest (B.base.statement pass stmt)

end Database

end Cil.Binary.Conditionals
