/- Cil/Binary/Neverallow
   digest: The passes that fill the binary policy, and their check of neverallow rules. -/

import Cil.ClassPerms
import Cil.Tree
import Cil.Library.WordBitmap

set_option autoImplicit false
set_option relaxedAutoImplicit false

namespace Cil.Binary.Neverallow

open Cil.Library Cil.ClassPerms

/-- The `rule_kind` of a `cil_avrule`. -/
inductive RuleKind
  | allowed
  | auditallow
  | dontaudit
  | neverallow
  deriving DecidableEq, Repr

/-- A resolved source or target, with the flavor of its declaration. -/
inductive TypeDatum (δ : Type)
  | type (t : δ)
  | typeattribute (a : δ)
  deriving DecidableEq, Repr

def TypeDatum.datum {δ : Type} : TypeDatum δ → δ
  | .type t => t
  | .typeattribute a => a

/-- The target of a rule; `self` is `db->selftype`. -/
inductive Target (δ : Type)
  | self
  | datum (d : TypeDatum δ)
  deriving DecidableEq, Repr

/-- `cil_classperms` of a kernel class after resolution. -/
structure Classperms (δ : Type) where
  cls : δ
  perms : List δ
  deriving DecidableEq, Repr

/-- `cil_avrule`. -/
structure Avrule (δ : Type) where
  ruleKind : RuleKind
  src : TypeDatum δ
  tgt : Target δ
  classperms : ItemList (Classperms δ) δ
  deriving DecidableEq, Repr

/-- A rule that `__cil_verify_booleanif_helper` accepts inside a conditional block. -/
abbrev CondRule (δ : Type) := {r : Avrule δ // r.ruleKind ≠ .neverallow}

/-- A node in a conditional block. `rule` is a type rule or a type transition, `invalid` any
statement that is not allowed there. -/
inductive CondData (δ ο : Type)
  | avrule (r : CondRule δ)
  | call
  | tunableif
  | rule (stmt : ο)
  | invalid

/-- `cil_condblock` with the nodes below it. The flavor is true for `CIL_CONDTRUE`. -/
structure CondBlock (δ ο : Type) where
  flavor : Bool
  body : List (Tree (CondData δ ο))

/-- A node of the tree, as far as neverallow rules go. A booleanif carries its children,
which the walk leaves to `cil_booleanif_to_policydb`. -/
inductive NodeData (δ ο : Type)
  | macroDef
  | block (isAbstract : Bool)
  | booleanif (expr : ο) (blocks : List (CondBlock δ ο))
  | avrule (r : Avrule δ)
  | other (stmt : ο)

/-- The nodes below which `__cil_binary_create_helper` does not go. -/
def NodeData.skipHead {δ ο : Type} : NodeData δ ο → Bool
  | .macroDef => true
  | .block isAbstract => isAbstract
  | .booleanif _ _ => true
  | _ => false

/-- What the passes read of `cil_db`. An entry of `val_to_type` is the type of that value. -/
structure Db (δ : Type) where
  fqn : δ → String
  value : δ → Nat
  types : δ → Option WordBitmap
  classperms : δ → ItemList (Classperms δ) δ
  valToType : Nat → Option δ
  value_valToType : ∀ i t, valToType i = some t → value t = i
  disableDontaudit : Bool
  disableNeverallow : Bool

/-- `class_datum_t`: the value of a class and the values of its permissions. -/
structure ClassDatum where
  value : Nat
  permissions : String → Option Nat
  comdatum : Option (String → Option Nat)

/-- The policy database and what is done to it beside the check. The classes are in it
before the walks. `condNode` also tells whether the two branches were swapped. -/
structure Policydb (P ν ο : Type) where
  classDatum : String → Option ClassDatum
  typeDatum : P → String → Option Nat
  init : P → Rc × P
  valArraysCreate : P → Rc × P
  finish : P → Rc × P
  insertAvrule : RuleKind → Nat → Nat → Nat → BitVec 32 → Option (ν × Bool) → P → Rc × P
  condNode : ο → P → Option (ν × Bool × P)
  condRule : ο → ν × Bool → P → Rc × P
  statement : Nat → ο → P → Rc × P

/-- `cil_neverallow_rule`. -/
structure Rule (δ : Type) where
  src : TypeDatum δ
  tgt : TypeDatum δ
  cls : Nat
  perms : BitVec 32
  deriving DecidableEq, Repr

/-- The policy database and the rules of each neverallow statement. -/
structure State (δ P : Type) where
  neverallows : List (List (Rule δ))
  pdb : P

section Matching

variable {δ : Type} (db : Db δ)

/-- `__cil_is_type_match`; `none` when it follows a null bitmap. -/
def isTypeMatch (d₁ d₂ : TypeDatum δ) : Option Bool :=
  if db.fqn d₁.datum = db.fqn d₂.datum then some true
  else
    match d₁, d₂ with
    | .typeattribute a, .type t => (db.types a).map fun types => types.getBit (db.value t)
    | .type t, .typeattribute a => (db.types a).map fun types => types.getBit (db.value t)
    | .typeattribute a₂, .typeattribute a₁ =>
        match db.types a₁, db.types a₂ with
        | some types₁, some types₂ => some (overlap types₁.words types₂.words)
        | _, _ => none
    | .type _, .type _ => some false

variable (src tgt : TypeDatum δ) (cls : Nat) (perms : BitVec 32)

/-- The loop of `__cil_check_neverallows` over the rules of a neverallow statement. Reading
through a null pointer counts as an error here and below. -/
def checkRules : List (Rule δ) → Rc
  | [] => .ok
  | rule :: rest =>
      if rule.perms &&& perms ≠ 0#32 ∧ cls = rule.cls then
        match isTypeMatch db src rule.src with
        | some true =>
            match isTypeMatch db tgt rule.tgt with
            | some false => checkRules rest
            | _ => .err
        | some false => checkRules rest
        | none => .err
      else checkRules rest

/-- `__cil_check_neverallows`. -/
def checkNeverallows : List (List (Rule δ)) → Rc
  | [] => .ok
  | rules :: rest =>
      match checkRules db src tgt cls perms rules with
      | .ok => checkNeverallows rest
      | rc => rc

end Matching

/-- The lookup of a permission in a class and then in its common. -/
def ClassDatum.findPerm (sepolClass : ClassDatum) (key : String) : Option Nat :=
  match sepolClass.permissions key with
  | some value => some value
  | none =>
      match sepolClass.comdatum with
      | some common => common key
      | none => none

/-- `__cil_perms_to_datum`. The count of a shift is taken modulo the width. -/
def permsToDatum {δ : Type} (db : Db δ) (sepolClass : ClassDatum) :
    List δ → BitVec 32 → Option (BitVec 32)
  | [], data => some data
  | p :: rest, data =>
      match sepolClass.findPerm (db.fqn p) with
      | some value => permsToDatum db sepolClass rest (data ||| 1#32 <<< ((value - 1) % 32))
      | none => none

section Expand

variable {δ P ν ο : Type} (db : Db δ) (M : Policydb P ν ο)

/-- `__cil_neverallow_handle`: the rule goes to the neverallow statement at the head. -/
def neverallowHandle (rule : Rule δ) (s : State δ P) : Rc × State δ P :=
  match s.neverallows with
  | [] => (.err, s)
  | rules :: rest => (.ok, { s with neverallows := (rules ++ [rule]) :: rest })

/-- The lookup of source and target and `__cil_insert_avrule`. -/
def insertAvrule (kind : RuleKind) (src tgt : TypeDatum δ) (cls : Nat) (data : BitVec 32)
    (cond : Option (ν × Bool)) (s : State δ P) : Rc × State δ P :=
  match M.typeDatum s.pdb (db.fqn src.datum), M.typeDatum s.pdb (db.fqn tgt.datum) with
  | some sepolSrc, some sepolTgt =>
      let (rc, pdb) := M.insertAvrule kind sepolSrc sepolTgt cls data cond s.pdb
      (rc, { s with pdb := pdb })
  | _, _ => (.err, s)

/-- `__cil_avrule_expand_helper`. -/
def avruleExpandHelper (kind : RuleKind) (src tgt : TypeDatum δ) (cond : Option (ν × Bool))
    (s : State δ P) (cp : Classperms δ) : Rc × State δ P :=
  match M.classDatum (db.fqn cp.cls) with
  | none => (.err, s)
  | some sepolClass =>
      match permsToDatum db sepolClass cp.perms 0#32 with
      | none => (.err, s)
      | some data =>
          if data = 0#32 then (.ok, s)
          else
            match kind with
            | .neverallow => neverallowHandle ⟨src, tgt, sepolClass.value, data⟩ s
            | .dontaudit => insertAvrule db M kind src tgt sepolClass.value (~~~data) cond s
            | .auditallow => insertAvrule db M kind src tgt sepolClass.value data cond s
            | .allowed =>
                match checkNeverallows db src tgt sepolClass.value data s.neverallows with
                | .ok => insertAvrule db M kind src tgt sepolClass.value data cond s
                | rc => (rc, s)

/-- `__cil_avrule_expand`. -/
def avruleExpand (fuel : Nat) (kind : RuleKind) (src tgt : TypeDatum δ)
    (classperms : ItemList (Classperms δ) δ) (cond : Option (ν × Bool)) :
    Call Rc (State δ P) Unit := fun s =>
  match ClassPerms.avruleExpand db.classperms (avruleExpandHelper db M kind src tgt cond)
      fuel s classperms with
  | some (.done .ok s') => some (.ok () s')
  | some (.done rc s') => some (.failed rc s')
  | some .crash => some .crash
  | none => none

/-- `__cil_expand_type`; `none` when it copies a null bitmap. -/
def expandType : TypeDatum δ → Option WordBitmap
  | .typeattribute a => db.types a
  | .type t => some (.single (db.value t))

/-- The loop of `__cil_avrule_to_avtab` over the types of the source of a self rule. -/
def selfToAvtab (fuel : Nat) (kind : RuleKind) (classperms : ItemList (Classperms δ) δ)
    (cond : Option (ν × Bool)) : List Nat → Call Rc (State δ P) Unit
  | [] => pure ()
  | i :: rest =>
      match db.valToType i with
      | none => Call.crash
      | some t => do
          avruleExpand db M fuel kind (.type t) (.type t) classperms cond
          selfToAvtab fuel kind classperms cond rest

/-- `__cil_avrule_to_avtab`. -/
def avruleToAvtab (fuel : Nat) (r : Avrule δ) (cond : Option (ν × Bool)) :
    Call Rc (State δ P) Unit :=
  if r.ruleKind = .dontaudit ∧ db.disableDontaudit = true then pure ()
  else if r.ruleKind = .neverallow ∧ db.disableNeverallow = true then pure ()
  else
    match r.tgt with
    | .self =>
        match expandType db r.src with
        | none => Call.crash
        | some types => selfToAvtab db M fuel r.ruleKind r.classperms cond types.positions
    | .datum tgt => avruleExpand db M fuel r.ruleKind r.src tgt r.classperms cond

/-- `cil_avrule_to_policydb`. -/
def avruleToPolicydb (fuel : Nat) (r : Avrule δ) : Call Rc (State δ P) Unit :=
  avruleToAvtab db M fuel r none

end Expand

section Passes

variable {δ P ν ο : Type} (db : Db δ) (M : Policydb P ν ο)

/-- A step that reads and writes the policy database only. -/
def onPolicydb (f : P → Rc × P) : Call Rc (State δ P) Unit := fun s =>
  match f s.pdb with
  | (.ok, pdb) => some (.ok () { s with pdb := pdb })
  | (rc, pdb) => some (.failed rc { s with pdb := pdb })

/-- `__cil_cond_to_policydb_helper`. Whatever fails, it returns `SEPOL_ERR`. -/
def condToPolicydbHelper (fuel : Nat) (cond : ν × Bool) :
    CondData δ ο → Call Rc (State δ P) Unit
  | .avrule r => Call.withError .err (avruleToAvtab db M fuel r.1 (some cond))
  | .rule stmt => Call.withError .err (onPolicydb (M.condRule stmt cond))
  | .call => pure ()
  | .tunableif => pure ()
  | .invalid => Call.fail .err

/-- The block of a flavor that the loop of `cil_booleanif_to_policydb` is left with. -/
def blockOf (flavor : Bool) (blocks : List (CondBlock δ ο)) : Option (CondBlock δ ο) :=
  blocks.foldl (fun node cb => if cb.flavor = flavor then some cb else node) none

/-- The walk over the block chosen for a branch. -/
def condblockToPolicydb (fuel : Nat) (cond : ν × Bool) :
    Option (CondBlock δ ο) → Call Rc (State δ P) Unit
  | none => pure ()
  | some cb =>
      processAll (condToPolicydbHelper db M fuel cond) (walkSiblings (fun _ => false) cb.body)

/-- `cil_booleanif_to_policydb`. -/
def booleanifToPolicydb (fuel : Nat) (expr : ο) (blocks : List (CondBlock δ ο)) :
    Call Rc (State δ P) Unit := do
  let s ← Call.get
  match M.condNode expr s.pdb with
  | none => Call.fail .err
  | some (condNode, swapped, pdb) => do
      Call.modify fun s => { s with pdb := pdb }
      let trueNode := blockOf true blocks
      let falseNode := blockOf false blocks
      condblockToPolicydb db M fuel (condNode, true) (if swapped then falseNode else trueNode)
      condblockToPolicydb db M fuel (condNode, false) (if swapped then trueNode else falseNode)

/-- `__cil_node_to_policydb`: neverallow rules are collected in the second pass and the other
rules are checked against them in the third. -/
def nodeToPolicydb (fuel pass : Nat) : NodeData δ ο → Call Rc (State δ P) Unit
  | .avrule r =>
      if pass = 2 ∧ r.ruleKind = .neverallow then do
        Call.modify fun s => { s with neverallows := [] :: s.neverallows }
        avruleToPolicydb db M fuel r
      else if pass = 3 ∧ r.ruleKind ≠ .neverallow then avruleToPolicydb db M fuel r
      else pure ()
  | .booleanif expr blocks =>
      if pass = 3 then booleanifToPolicydb db M fuel expr blocks else pure ()
  | .other stmt => onPolicydb (M.statement pass stmt)
  | .macroDef => pure ()
  | .block _ => pure ()

/-- A walk with `__cil_binary_create_helper`. -/
def binaryPass (fuel pass : Nat) (ast : Tree (NodeData δ ο)) : Call Rc (State δ P) Unit :=
  processAll (nodeToPolicydb db M fuel pass) (ast.walk NodeData.skipHead)

/-- `cil_binary_create`, from the policy database it is given. -/
def binaryCreate (fuel : Nat) (ast : Tree (NodeData δ ο)) (pdb : P) :
    Option (Returned Rc (State δ P) Unit) :=
  (do
    onPolicydb M.init
    binaryPass db M fuel 1 ast
    onPolicydb M.valArraysCreate
    binaryPass db M fuel 2 ast
    binaryPass db M fuel 3 ast
    onPolicydb M.finish : Call Rc (State δ P) Unit) ⟨[], pdb⟩

end Passes

end Cil.Binary.Neverallow
