/- Cil/Resolve/Used
   digest: Statements mark the type attributes they name as used, and resets clear the marks. -/

import Mathlib.Logic.Function.Basic
import Cil.Binary.Neverallow
import Cil.Build.Constraint
import Cil.Resolve.LastPass

set_option autoImplicit false
set_option relaxedAutoImplicit false

namespace Cil.Resolve.Used

open Cil.Constraint Cil.Library Passes
open Cil.Binary.Neverallow (RuleKind)

/-- What a name among the types is found to be; an alias only before it has an actual. -/
inductive TypeDatum (τ α ι : Type)
  | type (t : τ)
  | typeattribute (a : α)
  | typealias (x : ι)
  deriving DecidableEq, Repr

/-- `tgt` of a rule; `selftype` is `db->selftype`. -/
inductive Target (τ α ι : Type)
  | selftype
  | datum (d : TypeDatum τ α ι)
  deriving DecidableEq, Repr

/-- `CIL_KEY_SELF`. -/
def keySelf : String := "self"

/-- `cil_avrule` as it is built; `id` tells the rules apart. -/
structure Avrule where
  id : Nat
  ruleKind : RuleKind
  srcStr : String
  tgtStr : String
  deriving DecidableEq, Repr

/-- The right operand of a leaf: an operand, or one name, or those that a list has. -/
inductive StrRight
  | operand (o : Operand)
  | names (ss : List String)
  deriving DecidableEq, Repr

structure StrLeaf where
  op : Operator
  left : Operand
  right : StrRight
  deriving DecidableEq, Repr

/-- `cil_constrain` and `cil_validatetrans` as they are built. -/
structure Constrain where
  id : Nat
  statement : Statement
  strExpr : ConstraintExpr StrLeaf
  deriving DecidableEq, Repr

/-- The right operand of a resolved leaf, with data of users and roles apart. -/
inductive DatumRight (τ α ι ν : Type)
  | operand (o : Operand)
  | types (ds : List (TypeDatum τ α ι))
  | others (ds : List ν)
  deriving DecidableEq, Repr

structure DatumLeaf (τ α ι ν : Type) where
  op : Operator
  left : Operand
  right : DatumRight τ α ι ν
  deriving DecidableEq, Repr

/-- The statements, as far as they declare or name types, with the number of their node. -/
inductive Stmt (τ α ι ξ : Type)
  | type (node : Nat) (t : τ)
  | typeattribute (node : Nat) (a : α)
  | typealias (node : Nat) (x : ι)
  | avrule (r : Avrule)
  | typeRule (node : Nat) (srcStr tgtStr : String)
  | nametypetransition (node : Nat) (srcStr tgtStr : String)
  | rangetransition (node : Nat) (srcStr execStr : String)
  | roletype (node : Nat) (typeStr : String)
  | roletransition (node : Nat) (tgtStr : String)
  | constrain (c : Constrain)
  | other (stmt : ξ)
  deriving DecidableEq, Repr

/-- A lookup that fails. -/
inductive Failure
  | enoent
  | err
  deriving DecidableEq, Repr

def Failure.rc : Failure → Rc
  | .enoent => .enoent
  | .err => .err

/-- The field `used` of the type attributes, and what resolving leaves in the statements. -/
structure Database (τ α ι ν ρ : Type) where
  used : α → Bool
  src : Avrule → Option (TypeDatum τ α ι)
  tgt : Avrule → Option (Target τ α ι)
  datumExpr : Constrain → Option (ConstraintExpr (DatumLeaf τ α ι ν))
  rest : ρ

/-- What else the passes do, on the rest of the database: lookups of names, and what a statement
that names types resolves before and after these. -/
structure RestOps (ω μ γ δ τ α ι ξ ν ρ : Type) extends
    Ops ω μ (Stmt τ α ι ξ) γ δ ρ where
  lookupType : ρ → NodeData ω μ (Stmt τ α ι ξ) → String →
    Option (Except Failure (TypeDatum τ α ι))
  lookupOther : ρ → NodeData ω μ (Stmt τ α ι ξ) → LeafFlavor → String → Option (Except Failure ν)
  before : NodeData ω μ (Stmt τ α ι ξ) → ρ → Option Failure × ρ
  after : NodeData ω μ (Stmt τ α ι ξ) → ρ → Option Failure × ρ

section Resolve

variable {ω μ γ δ τ α ι ξ ν ρ : Type} [DecidableEq α] (O : RestOps ω μ γ δ τ α ι ξ ν ρ)

/-- A call that looks up names and marks attributes; it returns where its lookups do. -/
abbrev Resolving (τ α ι ν ρ : Type) := Call Failure (Database τ α ι ν ρ)

def onRest (f : ρ → Option Failure × ρ) : Resolving τ α ι ν ρ Unit := fun s =>
  match f s.rest with
  | (none, rest) => some (.ok () { s with rest := rest })
  | (some e, rest) => some (.failed e { s with rest := rest })

def found {β : Type} : Option (Except Failure β) → Resolving τ α ι ν ρ β
  | none => fun _ => none
  | some (.ok b) => pure b
  | some (.error e) => Call.fail e

/-- `cil_resolve_name` among the types. -/
def resolveTypeName (d : NodeData ω μ (Stmt τ α ι ξ)) (name : String) :
    Resolving τ α ι ν ρ (TypeDatum τ α ι) := do
  let s ← Call.get
  found (O.lookupType s.rest d name)

/-- `cil_type_used`. -/
def typeUsed : TypeDatum τ α ι → Resolving τ α ι ν ρ Unit
  | .typeattribute a => Call.modify fun s => { s with used := Function.update s.used a true }
  | _ => pure ()

/-- What the statements below do with a name. -/
def resolveUsedType (d : NodeData ω μ (Stmt τ α ι ξ)) (name : String) :
    Resolving τ α ι ν ρ (TypeDatum τ α ι) := do
  let datum ← resolveTypeName O d name
  typeUsed datum
  pure datum

/-- The mark that a rule gives to a name. -/
def ruleUsed (r : Avrule) (datum : TypeDatum τ α ι) : Resolving τ α ι ν ρ Unit :=
  if r.ruleKind ≠ .neverallow then typeUsed datum else pure ()

/-- The part of `cil_resolve_avrule` for the target. -/
def resolveTarget (d : NodeData ω μ (Stmt τ α ι ξ)) (r : Avrule) : Resolving τ α ι ν ρ Unit :=
  if r.tgtStr = keySelf then
    Call.modify fun s => { s with tgt := Function.update s.tgt r (some .selftype) }
  else do
    let tgtDatum ← resolveTypeName O d r.tgtStr
    Call.modify fun s => { s with tgt := Function.update s.tgt r (some (.datum tgtDatum)) }
    ruleUsed r tgtDatum

/-- `cil_resolve_avrule`. -/
def resolveAvrule (d : NodeData ω μ (Stmt τ α ι ξ)) (r : Avrule) : Resolving τ α ι ν ρ Unit := do
  let srcDatum ← resolveTypeName O d r.srcStr
  Call.modify fun s => { s with src := Function.update s.src r (some srcDatum) }
  ruleUsed r srcDatum
  resolveTarget O d r
  onRest (O.after d)

/-- A source and a target, or entry point, of a rule about types. -/
def resolveTypePair (d : NodeData ω μ (Stmt τ α ι ξ)) (src tgt : String) :
    Resolving τ α ι ν ρ Unit := do
  let _ ← resolveUsedType O d src
  let _ ← resolveUsedType O d tgt
  onRest (O.after d)

/-- `cil_resolve_type_rule`. -/
def resolveTypeRule (d : NodeData ω μ (Stmt τ α ι ξ)) (srcStr tgtStr : String) :
    Resolving τ α ι ν ρ Unit := resolveTypePair O d srcStr tgtStr

/-- `cil_resolve_nametypetransition`. -/
def resolveNametypetransition (d : NodeData ω μ (Stmt τ α ι ξ)) (srcStr tgtStr : String) :
    Resolving τ α ι ν ρ Unit := resolveTypePair O d srcStr tgtStr

/-- `cil_resolve_rangetransition`. -/
def resolveRangetransition (d : NodeData ω μ (Stmt τ α ι ξ)) (srcStr execStr : String) :
    Resolving τ α ι ν ρ Unit := resolveTypePair O d srcStr execStr

/-- A type that comes after a role. -/
def resolveTypeOfRole (d : NodeData ω μ (Stmt τ α ι ξ)) (type : String) :
    Resolving τ α ι ν ρ Unit := do
  onRest (O.before d)
  let _ ← resolveUsedType O d type
  onRest (O.after d)

/-- `cil_resolve_roletype`. -/
def resolveRoletype (d : NodeData ω μ (Stmt τ α ι ξ)) (typeStr : String) :
    Resolving τ α ι ν ρ Unit := resolveTypeOfRole O d typeStr

/-- `cil_resolve_roletransition`. -/
def resolveRoletransition (d : NodeData ω μ (Stmt τ α ι ξ)) (tgtStr : String) :
    Resolving τ α ι ν ρ Unit := resolveTypeOfRole O d tgtStr

/-- `cil_resolve_expr` on names of types, in a constraint. -/
def resolveTypes (d : NodeData ω μ (Stmt τ α ι ξ)) :
    List String → Resolving τ α ι ν ρ (List (TypeDatum τ α ι))
  | [] => pure []
  | name :: names => do
      let datum ← resolveUsedType O d name
      let data ← resolveTypes d names
      pure (datum :: data)

/-- `cil_resolve_expr` on names of users and roles. -/
def resolveOthers (d : NodeData ω μ (Stmt τ α ι ξ)) (flavor : LeafFlavor) :
    List String → Resolving τ α ι ν ρ (List ν)
  | [] => pure []
  | name :: names => do
      let s ← Call.get
      let datum ← found (O.lookupOther s.rest d flavor name)
      let data ← resolveOthers d flavor names
      pure (datum :: data)

/-- `cil_resolve_expr` on a leaf of a constraint. -/
def resolveLeaf (d : NodeData ω μ (Stmt τ α ι ξ)) (l : StrLeaf) :
    Resolving τ α ι ν ρ (DatumLeaf τ α ι ν) :=
  match l.right with
  | .operand o => pure ⟨l.op, l.left, .operand o⟩
  | .names names =>
      if l.left.leafFlavor = .type then do
        let data ← resolveTypes O d names
        pure ⟨l.op, l.left, .types data⟩
      else do
        let data ← resolveOthers O d l.left.leafFlavor names
        pure ⟨l.op, l.left, .others data⟩

/-- `cil_resolve_expr` with `CIL_CONSTRAIN` or `CIL_VALIDATETRANS`. -/
def resolveExpr (d : NodeData ω μ (Stmt τ α ι ξ)) :
    ConstraintExpr StrLeaf → Resolving τ α ι ν ρ (ConstraintExpr (DatumLeaf τ α ι ν))
  | .leaf l => do
      let l ← resolveLeaf O d l
      pure (.leaf l)
  | .not x => do
      let x ← resolveExpr d x
      pure (.not x)
  | .and x y => do
      let x ← resolveExpr d x
      let y ← resolveExpr d y
      pure (.and x y)
  | .or x y => do
      let x ← resolveExpr d x
      let y ← resolveExpr d y
      pure (.or x y)

/-- `cil_resolve_constrain` and `cil_resolve_validatetrans`: the class permissions, or the class,
come first. -/
def resolveConstrain (d : NodeData ω μ (Stmt τ α ι ξ)) (c : Constrain) :
    Resolving τ α ι ν ρ Unit := do
  onRest (O.before d)
  let datumExpr ← resolveExpr O d c.strExpr
  Call.modify fun s => { s with datumExpr := Function.update s.datumExpr c (some datumExpr) }

/-- The return code, and the state that the call leaves. -/
def ran (c : Resolving τ α ι ν ρ Unit) (s : Database τ α ι ν ρ) :
    Option (Rc × Database τ α ι ν ρ) :=
  match c s with
  | some (.ok _ s') => some (.ok, s')
  | some (.failed e s') => some (e.rc, s')
  | _ => none

/-- What does not concern the marks. -/
def resolveRest (pass : Pass) (d : NodeData ω μ (Stmt τ α ι ξ)) (s : Database τ α ι ν ρ) :
    Option (Rc × Database τ α ι ν ρ) :=
  (O.resolveNode pass d s.rest).map fun r => (r.1, { s with rest := r.2 })

/-- The part of `__cil_resolve_ast_node` for `CIL_PASS_MISC3`. -/
def resolveMisc3 (d : NodeData ω μ (Stmt τ α ι ξ)) (s : Database τ α ι ν ρ) :
    Option (Rc × Database τ α ι ν ρ) :=
  match d.stmt with
  | .avrule r => ran (resolveAvrule O d r) s
  | .typeRule _ srcStr tgtStr => ran (resolveTypeRule O d srcStr tgtStr) s
  | .nametypetransition _ srcStr tgtStr => ran (resolveNametypetransition O d srcStr tgtStr) s
  | .rangetransition _ srcStr execStr => ran (resolveRangetransition O d srcStr execStr) s
  | .roletype _ typeStr => ran (resolveRoletype O d typeStr) s
  | .roletransition _ tgtStr => ran (resolveRoletransition O d tgtStr) s
  | .constrain c => ran (resolveConstrain O d c) s
  | _ => resolveRest O .misc3 d s

/-- `cil_reset_typeattr` clears the mark; the rest is reset as well. -/
def resetMarks (d : NodeData ω μ (Stmt τ α ι ξ)) (s : Database τ α ι ν ρ) :
    Database τ α ι ν ρ :=
  match d.stmt with
  | .typeattribute _ a => { s with
      used := Function.update s.used a false
      rest := O.resetRest d s.rest }
  | _ => { s with rest := O.resetRest d s.rest }

private theorem resetMarks_rest (d : NodeData ω μ (Stmt τ α ι ξ)) (s : Database τ α ι ν ρ) :
    (resetMarks O d s).rest = O.resetRest d s.rest := by
  unfold resetMarks
  split <;> rfl

/-- The passes, on the database with the marks. -/
def usedOps : Ops ω μ (Stmt τ α ι ξ) γ δ (Database τ α ι ν ρ) where
  resolveNode pass d s :=
    if pass = .misc3 then resolveMisc3 O d s else resolveRest O pass d s
  childrenDestroy ts s := { s with rest := O.childrenDestroy ts s.rest }
  mergeOrders ts s :=
    let (rc, rest) := O.mergeOrders ts s.rest
    (rc, { s with rest := rest })
  resetOrders s := { s with rest := O.resetOrders s.rest }
  verifyInitsids s := O.verifyInitsids s.rest
  classpermsLists d s := O.classpermsLists d s.rest
  classperms s := O.classperms s.rest
  resetClassperms cp s := { s with rest := O.resetClassperms cp s.rest }
  resetRest := resetMarks O
  classperms_resetClassperms cp s := O.classperms_resetClassperms cp s.rest
  classperms_resetRest d s := by
    rw [resetMarks_rest]
    exact O.classperms_resetRest d s.rest
  classpermsLists_resetClassperms d cp s := O.classpermsLists_resetClassperms d cp s.rest
  classpermsLists_resetRest d d' s := by
    rw [resetMarks_rest]
    exact O.classpermsLists_resetRest d d' s.rest

end Resolve

section Lookups

variable {ω μ τ α ι ξ ν ρ : Type}

/-- The datum is no attribute, or one that is marked. -/
def Marked (s : Database τ α ι ν ρ) : TypeDatum τ α ι → Prop
  | .typeattribute a => s.used a = true
  | _ => True

def DatumLeaf.lookups (l : DatumLeaf τ α ι ν) : List (TypeDatum τ α ι) :=
  match l.right with
  | .types ds => ds
  | _ => []

/-- The types that the back end looks up by name for a statement: source and target of a rule
other than a neverallow rule, where the target is not `self`, and operands of a constraint. -/
def lookups (s : Database τ α ι ν ρ) : Stmt τ α ι ξ → List (TypeDatum τ α ι)
  | .avrule r =>
      if r.ruleKind = .neverallow then []
      else
        match s.src r, s.tgt r with
        | some src, some (.datum tgt) => [src, tgt]
        | _, _ => []
  | .constrain c =>
      match s.datumExpr c with
      | some x => x.leaves.flatMap DatumLeaf.lookups
      | none => []
  | _ => []

/-- What the back end looks up for a node is marked. -/
def LookupsMarked (d : NodeData ω μ (Stmt τ α ι ξ)) (s : Database τ α ι ν ρ) : Prop :=
  ∀ x ∈ lookups s d.stmt, Marked s x

end Lookups

section Marking

variable {ω μ γ δ τ α ι ξ ν ρ : Type} [DecidableEq α] {O : RestOps ω μ γ δ τ α ι ξ ν ρ}

/-- Attributes were marked, and no statement changed. -/
structure Marks (s s' : Database τ α ι ν ρ) : Prop where
  used : ∀ a, s.used a = true → s'.used a = true
  src : s'.src = s.src
  tgt : s'.tgt = s.tgt
  datumExpr : s'.datumExpr = s.datumExpr

omit [DecidableEq α] in
private theorem marks_progress :
    Progress (Marks : Database τ α ι ν ρ → Database τ α ι ν ρ → Prop) where
  refl _ := ⟨fun _ => id, rfl, rfl, rfl⟩
  trans _ _ _ h h' := ⟨fun a ha => h'.used a (h.used a ha), h'.src.trans h.src,
    h'.tgt.trans h.tgt, h'.datumExpr.trans h.datumExpr⟩

omit [DecidableEq α] in
private theorem lasts_marked (x : TypeDatum τ α ι) :
    Lasts (Marks : Database τ α ι ν ρ → Database τ α ι ν ρ → Prop) fun s => Marked s x := by
  intro s s' h hx
  cases x with
  | typeattribute a => exact h.used a hx
  | _ => trivial

omit [DecidableEq α] in
private theorem onRest_marks (f : ρ → Option Failure × ρ) :
    Establishes Marks (fun _ : Database τ α ι ν ρ => True) (onRest f) := by
  refine Establishes.of_eq fun s u s' h => ?_
  unfold onRest at h
  split at h
  · cases h
    exact ⟨⟨fun _ => id, rfl, rfl, rfl⟩, trivial⟩
  · cases h

omit [DecidableEq α] in
private theorem found_marks {β : Type} (r : Option (Except Failure β)) :
    Establishes Marks (fun _ : Database τ α ι ν ρ => True) (found r) := by
  rcases r with _ | e | b
  · exact .of_eq fun s u s' h => by cases h
  · exact .fail e
  · exact .pure marks_progress b fun _ => trivial

private theorem typeUsed_marks (x : TypeDatum τ α ι) :
    Establishes Marks (fun s : Database τ α ι ν ρ => Marked s x) (typeUsed x) := by
  cases x with
  | typeattribute a =>
    refine .of_eq fun s u s' h => ?_
    cases h
    refine ⟨⟨fun b hb => ?_, rfl, rfl, rfl⟩, ?_⟩
    swap
    · exact Function.update_self a true s.used
    by_cases heq : b = a
    · rw [heq]
      exact Function.update_self a true s.used
    · exact (Function.update_of_ne heq true s.used).trans hb
  | _ => exact .pure marks_progress () fun _ => trivial

omit [DecidableEq α] in
private theorem resolveTypeName_marks {d : NodeData ω μ (Stmt τ α ι ξ)} {name : String}
    {s s' : Database τ α ι ν ρ} {x : TypeDatum τ α ι}
    (h : resolveTypeName O d name s = some (.ok x s')) : Marks s s' := by
  obtain ⟨t, s₁, hget, h⟩ := Call.bind_ok h
  cases hget
  exact ((found_marks _).of_ok h).1

private theorem resolveUsedType_ok {d : NodeData ω μ (Stmt τ α ι ξ)} {name : String}
    {s s' : Database τ α ι ν ρ} {x : TypeDatum τ α ι}
    (h : resolveUsedType O d name s = some (.ok x s')) : Marks s s' ∧ Marked s' x := by
  obtain ⟨datum, s₁, hname, h⟩ := Call.bind_ok h
  obtain ⟨u, s₂, hused, h⟩ := Call.bind_ok h
  cases h
  have hmarks : Marks s s₁ := resolveTypeName_marks hname
  obtain ⟨hmarks', hmarked⟩ := (typeUsed_marks x).of_ok hused
  exact ⟨marks_progress.trans _ _ _ hmarks hmarks', hmarked⟩

private theorem resolveTypes_ok {d : NodeData ω μ (Stmt τ α ι ξ)} {names : List String}
    {s s' : Database τ α ι ν ρ} {data : List (TypeDatum τ α ι)}
    (h : resolveTypes O d names s = some (.ok data s')) :
    Marks s s' ∧ ∀ x ∈ data, Marked s' x := by
  induction names generalizing s data with
  | nil =>
    cases h
    exact ⟨marks_progress.refl _, fun x hx => by cases hx⟩
  | cons name names ih =>
    obtain ⟨datum, s₁, hname, h⟩ := Call.bind_ok h
    obtain ⟨rest, s₂, hnames, h⟩ := Call.bind_ok h
    cases h
    obtain ⟨hmarks, hmarked⟩ := resolveUsedType_ok hname
    obtain ⟨hmarks', hrest⟩ := ih hnames
    refine ⟨marks_progress.trans _ _ _ hmarks hmarks', fun x hx => ?_⟩
    rcases List.mem_cons.mp hx with heq | hx
    · rw [heq]
      exact lasts_marked datum _ _ hmarks' hmarked
    · exact hrest x hx

omit [DecidableEq α] in
private theorem resolveOthers_ok {d : NodeData ω μ (Stmt τ α ι ξ)} {flavor : LeafFlavor}
    {names : List String} {s s' : Database τ α ι ν ρ} {data : List ν}
    (h : resolveOthers O d flavor names s = some (.ok data s')) : Marks s s' := by
  induction names generalizing s data with
  | nil =>
    cases h
    exact marks_progress.refl _
  | cons name names ih =>
    obtain ⟨t, s₁, hget, h⟩ := Call.bind_ok h
    cases hget
    obtain ⟨datum, s₂, hname, h⟩ := Call.bind_ok h
    obtain ⟨rest, s₃, hnames, h⟩ := Call.bind_ok h
    cases h
    exact marks_progress.trans _ _ _ ((found_marks _).of_ok hname).1 (ih hnames)

private theorem resolveLeaf_ok {d : NodeData ω μ (Stmt τ α ι ξ)} {l : StrLeaf}
    {s s' : Database τ α ι ν ρ} {l' : DatumLeaf τ α ι ν}
    (h : resolveLeaf O d l s = some (.ok l' s')) :
    Marks s s' ∧ ∀ x ∈ l'.lookups, Marked s' x := by
  obtain ⟨op, left, right⟩ := l
  cases right with
  | operand o =>
    cases h
    exact ⟨marks_progress.refl _, fun x hx => by cases hx⟩
  | names names =>
    rw [resolveLeaf] at h
    dsimp only at h
    split_ifs at h with htype
    · obtain ⟨data, s₁, hdata, h⟩ := Call.bind_ok h
      cases h
      exact resolveTypes_ok hdata
    · obtain ⟨data, s₁, hdata, h⟩ := Call.bind_ok h
      cases h
      exact ⟨resolveOthers_ok hdata, fun x hx => by cases hx⟩

omit [DecidableEq α] in
/-- Two operands of an expression. -/
private theorem operands_marked {x y : List (DatumLeaf τ α ι ν)} {s₁ s₂ : Database τ α ι ν ρ}
    (hx : ∀ t ∈ x.flatMap DatumLeaf.lookups, Marked s₁ t) (hmarks : Marks s₁ s₂)
    (hy : ∀ t ∈ y.flatMap DatumLeaf.lookups, Marked s₂ t) :
    ∀ t ∈ (x ++ y).flatMap DatumLeaf.lookups, Marked s₂ t := by
  intro t ht
  rw [List.flatMap_append] at ht
  rcases List.mem_append.mp ht with ht | ht
  · exact lasts_marked t _ _ hmarks (hx t ht)
  · exact hy t ht

private theorem resolveExpr_ok {d : NodeData ω μ (Stmt τ α ι ξ)} {x : ConstraintExpr StrLeaf}
    {s s' : Database τ α ι ν ρ} {x' : ConstraintExpr (DatumLeaf τ α ι ν)}
    (h : resolveExpr O d x s = some (.ok x' s')) :
    Marks s s' ∧ ∀ t ∈ x'.leaves.flatMap DatumLeaf.lookups, Marked s' t := by
  induction x generalizing s s' x' with
  | leaf l =>
    obtain ⟨l', s₁, hl, h⟩ := Call.bind_ok h
    cases h
    obtain ⟨hmarks, hmarked⟩ := resolveLeaf_ok hl
    refine ⟨hmarks, fun t ht => hmarked t ?_⟩
    rw [ConstraintExpr.leaves, List.flatMap_singleton] at ht
    exact ht
  | not x ih =>
    obtain ⟨y, s₁, hx, h⟩ := Call.bind_ok h
    cases h
    obtain ⟨hmarks, hmarked⟩ := ih hx
    exact ⟨hmarks, hmarked⟩
  | and x y ihx ihy =>
    obtain ⟨x₁, s₁, hx, h⟩ := Call.bind_ok h
    obtain ⟨y₁, s₂, hy, h⟩ := Call.bind_ok h
    cases h
    obtain ⟨hmarksx, hmarkedx⟩ := ihx hx
    obtain ⟨hmarksy, hmarkedy⟩ := ihy hy
    exact ⟨marks_progress.trans _ _ _ hmarksx hmarksy,
      operands_marked hmarkedx hmarksy hmarkedy⟩
  | or x y ihx ihy =>
    obtain ⟨x₁, s₁, hx, h⟩ := Call.bind_ok h
    obtain ⟨y₁, s₂, hy, h⟩ := Call.bind_ok h
    cases h
    obtain ⟨hmarksx, hmarkedx⟩ := ihx hx
    obtain ⟨hmarksy, hmarkedy⟩ := ihy hy
    exact ⟨marks_progress.trans _ _ _ hmarksx hmarksy,
      operands_marked hmarkedx hmarksy hmarkedy⟩

/-- A statement was resolved: the others are as they were, and what is looked up for it is
marked. -/
structure Resolved (stmt : Stmt τ α ι ξ) (s s' : Database τ α ι ν ρ) : Prop where
  used : ∀ a, s.used a = true → s'.used a = true
  others : ∀ other, other ≠ stmt → lookups s' other = lookups s other
  marked : ∀ x ∈ lookups s' stmt, Marked s' x

omit [DecidableEq α] in
theorem Marks.resolved {stmt : Stmt τ α ι ξ} {s s' : Database τ α ι ν ρ} (h : Marks s s')
    (hnone : ∀ t : Database τ α ι ν ρ, lookups t stmt = []) : Resolved stmt s s' where
  used := h.used
  others other _ := by
    unfold lookups
    rw [h.src, h.tgt, h.datumExpr]
  marked x hx := by
    rw [hnone] at hx
    cases hx

omit [DecidableEq α] in
/-- A rule whose source and target were found and, unless it is a neverallow rule, marked. -/
private theorem resolved_avrule {r : Avrule} {s s' : Database τ α ι ν ρ} {src : TypeDatum τ α ι}
    {tgt : Target τ α ι} (hused : ∀ a, s.used a = true → s'.used a = true)
    (hsrc : s'.src = Function.update s.src r (some src))
    (htgt : s'.tgt = Function.update s.tgt r (some tgt)) (hexpr : s'.datumExpr = s.datumExpr)
    (hmarked : r.ruleKind ≠ .neverallow →
      Marked s' src ∧ ∀ x, tgt = .datum x → Marked s' x) :
    Resolved (.avrule r : Stmt τ α ι ξ) s s' where
  used := hused
  others other hne := by
    cases other with
    | avrule r' =>
      have hr : r' ≠ r := fun heq => hne (by rw [heq])
      rw [lookups, lookups, hsrc, htgt, Function.update_of_ne hr, Function.update_of_ne hr]
    | constrain c =>
      unfold lookups
      rw [hexpr]
    | _ => rfl
  marked x hx := by
    rw [lookups] at hx
    split_ifs at hx with hkind
    · cases hx
    · obtain ⟨hmarkedsrc, hmarkedtgt⟩ := hmarked hkind
      rw [hsrc, htgt, Function.update_self, Function.update_self] at hx
      cases tgt with
      | selftype => cases hx
      | datum t =>
        rcases List.mem_cons.mp hx with heq | hx
        · rw [heq]
          exact hmarkedsrc
        · rw [List.mem_singleton] at hx
          rw [hx]
          exact hmarkedtgt t rfl

/-- The mark that a name of a rule gets. -/
private theorem ruleUsed_marks (r : Avrule) (x : TypeDatum τ α ι) :
    Establishes Marks (fun s : Database τ α ι ν ρ => r.ruleKind ≠ .neverallow → Marked s x)
      (ruleUsed r x) := by
  unfold ruleUsed
  split_ifs with hkind
  · exact (typeUsed_marks x).imp fun s hs _ => hs
  · exact .pure marks_progress () fun s hnot => absurd hnot hkind

private theorem resolveTarget_ok {d : NodeData ω μ (Stmt τ α ι ξ)} {r : Avrule}
    {s s' : Database τ α ι ν ρ} (h : resolveTarget O d r s = some (.ok () s')) :
    ∃ tgt, Marks { s with tgt := Function.update s.tgt r (some tgt) } s' ∧
      (r.ruleKind ≠ .neverallow → ∀ x, tgt = .datum x → Marked s' x) := by
  unfold resolveTarget at h
  split_ifs at h with hself
  · cases h
    exact ⟨.selftype, marks_progress.refl _, fun _ x hx => by cases hx⟩
  · obtain ⟨tgt, s₁, htgt, h⟩ := Call.bind_ok h
    obtain ⟨u, s₂, hset, h⟩ := Call.bind_ok h
    cases hset
    have hname : Marks s s₁ := resolveTypeName_marks htgt
    obtain ⟨hmarks, hmarked⟩ := (ruleUsed_marks r tgt).of_ok h
    refine ⟨.datum tgt, ⟨fun a ha => hmarks.used a (hname.used a ha), ?_, ?_, ?_⟩, ?_⟩
    · exact hmarks.src.trans hname.src
    · rw [hmarks.tgt, ← hname.tgt]
    · exact hmarks.datumExpr.trans hname.datumExpr
    · intro hkind x hx
      cases hx
      exact hmarked hkind

private theorem resolveAvrule_resolved {d : NodeData ω μ (Stmt τ α ι ξ)} {r : Avrule}
    {s s' : Database τ α ι ν ρ} (h : resolveAvrule O d r s = some (.ok () s')) :
    Resolved (.avrule r : Stmt τ α ι ξ) s s' := by
  obtain ⟨src, s₁, hsrc, h⟩ := Call.bind_ok h
  obtain ⟨u, s₂, hset, h⟩ := Call.bind_ok h
  cases hset
  obtain ⟨u, s₃, hused, h⟩ := Call.bind_ok h
  obtain ⟨u, s₄, htgt, h⟩ := Call.bind_ok h
  have hname : Marks s s₁ := resolveTypeName_marks hsrc
  obtain ⟨hmarks₃, hmarkedsrc⟩ := (ruleUsed_marks r src).of_ok hused
  obtain ⟨tgt, hmarks₄, hmarkedtgt⟩ := resolveTarget_ok htgt
  obtain ⟨hmarks, -⟩ := (onRest_marks _).of_ok h
  have hlater : ∀ a, s₃.used a = true → s'.used a = true := fun a ha =>
    hmarks.used a (hmarks₄.used a ha)
  have hsrcs : s'.src = Function.update s.src r (some src) := by
    rw [hmarks.src, hmarks₄.src, ← hname.src]
    exact hmarks₃.src
  have htgts : s'.tgt = Function.update s.tgt r (some tgt) := by
    rw [hmarks.tgt, hmarks₄.tgt, ← hname.tgt]
    exact congrArg (fun f => Function.update f r (some tgt)) hmarks₃.tgt
  have hexprs : s'.datumExpr = s.datumExpr := by
    rw [hmarks.datumExpr, hmarks₄.datumExpr, ← hname.datumExpr]
    exact hmarks₃.datumExpr
  refine resolved_avrule (fun a ha => hlater a (hmarks₃.used a (hname.used a ha))) hsrcs htgts
    hexprs fun hkind => ⟨?_, fun x hx => ?_⟩
  · have hsrcmarked : Marked s₃ src := hmarkedsrc hkind
    cases src with
    | typeattribute a => exact hlater a hsrcmarked
    | _ => trivial
  · exact lasts_marked x _ _ hmarks (hmarkedtgt hkind x hx)

private theorem resolveConstrain_resolved {d : NodeData ω μ (Stmt τ α ι ξ)} {c : Constrain}
    {s s' : Database τ α ι ν ρ} (h : resolveConstrain O d c s = some (.ok () s')) :
    Resolved (.constrain c : Stmt τ α ι ξ) s s' := by
  obtain ⟨u, s₁, hbefore, h⟩ := Call.bind_ok h
  obtain ⟨x, s₂, hexpr, h⟩ := Call.bind_ok h
  cases h
  obtain ⟨hmarks₁, -⟩ := (onRest_marks _).of_ok hbefore
  obtain ⟨hmarks₂, hmarked⟩ := resolveExpr_ok hexpr
  refine ⟨fun a ha => hmarks₂.used a (hmarks₁.used a ha), fun other hne => ?_, fun t ht => ?_⟩
  · cases other with
    | avrule r => rw [lookups, lookups, hmarks₂.src, hmarks₂.tgt, hmarks₁.src, hmarks₁.tgt]
    | constrain c' =>
      have hc : c' ≠ c := fun heq => hne (by rw [heq])
      rw [lookups, lookups]
      dsimp only
      rw [Function.update_of_ne hc, hmarks₂.datumExpr, hmarks₁.datumExpr]
    | _ => rfl
  · rw [lookups] at ht
    dsimp only at ht
    rw [Function.update_self] at ht
    exact hmarked t ht

private theorem resolveTypePair_marks (d : NodeData ω μ (Stmt τ α ι ξ)) (src tgt : String) :
    Establishes Marks (fun _ : Database τ α ι ν ρ => True) (resolveTypePair O d src tgt) := by
  refine .of_eq fun s u s' h => ?_
  obtain ⟨x, s₁, hsrc, h⟩ := Call.bind_ok h
  obtain ⟨y, s₂, htgt, h⟩ := Call.bind_ok h
  have hfirst := (resolveUsedType_ok hsrc).1
  have hsecond := (resolveUsedType_ok htgt).1
  have hrest := ((onRest_marks _).of_ok h).1
  exact ⟨marks_progress.trans _ _ _ hfirst (marks_progress.trans _ _ _ hsecond hrest), trivial⟩

private theorem resolveTypeOfRole_marks (d : NodeData ω μ (Stmt τ α ι ξ)) (type : String) :
    Establishes Marks (fun _ : Database τ α ι ν ρ => True) (resolveTypeOfRole O d type) := by
  refine .of_eq fun s u s' h => ?_
  obtain ⟨u, s₁, hrole, h⟩ := Call.bind_ok h
  obtain ⟨x, s₂, htype, h⟩ := Call.bind_ok h
  have hfirst := ((onRest_marks _).of_ok hrole).1
  have hsecond := (resolveUsedType_ok htype).1
  have hrest := ((onRest_marks _).of_ok h).1
  exact ⟨marks_progress.trans _ _ _ hfirst (marks_progress.trans _ _ _ hsecond hrest), trivial⟩

omit [DecidableEq α] in
private theorem ran_ok {c : Resolving τ α ι ν ρ Unit} {s s' : Database τ α ι ν ρ}
    (h : ran c s = some (.ok, s')) : c s = some (.ok () s') := by
  unfold ran at h
  split at h
  · rename_i hrun
    cases h
    exact hrun
  · rename_i e s₁ hrun
    cases e <;> cases h
  · cases h

/-- A node that `CIL_PASS_MISC3` resolves. -/
private theorem resolveMisc3_resolved {d : NodeData ω μ (Stmt τ α ι ξ)} {s s' : Database τ α ι ν ρ}
    (h : resolveMisc3 O d s = some (.ok, s')) : Resolved d.stmt s s' := by
  obtain ⟨kind, stmt⟩ := d
  have hrest : resolveRest O .misc3 ⟨kind, stmt⟩ s = some (.ok, s') →
      (∀ t : Database τ α ι ν ρ, lookups t stmt = []) → Resolved stmt s s' := by
    intro hsome hnone
    obtain ⟨⟨rc, rest⟩, -, heq⟩ := Option.map_eq_some_iff.mp hsome
    have hs : s' = { s with rest := rest } := (Prod.mk.inj heq).2.symm
    have hmarks : Marks s s' := by
      rw [hs]
      exact ⟨fun _ => id, rfl, rfl, rfl⟩
    exact hmarks.resolved hnone
  cases stmt with
  | avrule r => exact resolveAvrule_resolved (ran_ok h)
  | constrain c => exact resolveConstrain_resolved (ran_ok h)
  | typeRule node srcStr tgtStr =>
    exact ((resolveTypePair_marks _ _ _).of_ok (ran_ok h)).1.resolved fun _ => rfl
  | nametypetransition node srcStr tgtStr =>
    exact ((resolveTypePair_marks _ _ _).of_ok (ran_ok h)).1.resolved fun _ => rfl
  | rangetransition node srcStr execStr =>
    exact ((resolveTypePair_marks _ _ _).of_ok (ran_ok h)).1.resolved fun _ => rfl
  | roletype node typeStr =>
    exact ((resolveTypeOfRole_marks _ _).of_ok (ran_ok h)).1.resolved fun _ => rfl
  | roletransition node tgtStr =>
    exact ((resolveTypeOfRole_marks _ _).of_ok (ran_ok h)).1.resolved fun _ => rfl
  | _ => exact hrest h fun _ => rfl

end Marking

section Runs

variable {ω μ γ δ τ α ι ξ ν ρ : Type} [DecidableEq α] {O : RestOps ω μ γ δ τ α ι ξ ν ρ}

/-- Nothing that is looked up loses its mark. -/
def Keeps (s s' : Database τ α ι ν ρ) : Prop :=
  ∀ stmt : Stmt τ α ι ξ, (∀ x ∈ lookups s stmt, Marked s x) → ∀ x ∈ lookups s' stmt, Marked s' x

omit [DecidableEq α] in
theorem Resolved.keeps {stmt : Stmt τ α ι ξ} {s s' : Database τ α ι ν ρ}
    (h : Resolved stmt s s') : Keeps (ξ := ξ) s s' := by
  intro other hother x hx
  by_cases heq : other = stmt
  · rw [heq] at hx
    exact h.marked x hx
  · rw [h.others other heq] at hx
    have hmarked := hother x hx
    cases x with
    | typeattribute a => exact h.used a hmarked
    | _ => trivial

/-- After all passes and restarts, what the back end looks up is marked. -/
theorem resolveFrom_marked [DecidableEq ω] [DecidableEq μ] {fuel : Nat}
    {c c' : Config ω μ (Stmt τ α ι ξ) (Database τ α ι ν ρ)} (hc : c.Unfinished)
    (h : resolveFrom (usedOps O) fuel c = some (.ok, c')) :
    (∀ d ∈ Cil.walkSiblings skipsHead c'.ast, skipsHead d = false → LookupsMarked d c'.db) ∧
      Allowed false c'.ast := by
  have P : Progress (Keeps (ξ := ξ) : Database τ α ι ν ρ → Database τ α ι ν ρ → Prop) :=
    ⟨fun _ _ => id, fun _ _ _ h h' stmt hs => h' stmt (h stmt hs)⟩
  refine resolveFrom_facts P (fun d s s' hkeeps hs => hkeeps d.stmt hs) ?_ hc h
  intro d s s' _ hok
  have hresolved : Resolved d.stmt s s' := by
    refine resolveMisc3_resolved (O := O) ?_
    exact hok
  exact ⟨hresolved.keeps, hresolved.marked⟩

end Runs

end Cil.Resolve.Used
