/- Cil/Resolve/Names
   digest: A name is looked up from a statement outwards through the namespaces around it. -/

import Cil.Copy.Declarations

set_option autoImplicit false
set_option relaxedAutoImplicit false

namespace Cil.Resolve.Names

open Cil.Copy

/-- `cil_args`; the datum is null while the argument is not resolved. -/
structure Arg where
  flavor : Flavor
  paramStr : String
  arg : Option Nat
  deriving DecidableEq, Repr

/-- A node with the nodes above it, as far as the lookup of names looks at them. The
`blockinherit` and `call` nodes point to another place of the tree as well: the inherited
block, and the parent of the called macro. An inherited block may lie below the blockinherit
itself; where the way comes back to a node it has passed it is `endless`, since the tables are
as they were the first time. -/
inductive Env
  | root
  | space (ns : Namespace) (parent : Env)
  | blockinherit (block : Env) (parent : Env)
  | call (args : List Arg) (macroParent : Env) (parent : Env)
  | endless

/-- What a lookup comes upon: a datum, which may be null, or a way that has no end. -/
inductive Hit
  | datum (id : Option Nat)
  | endless
  deriving DecidableEq, Repr

/-- `cil_resolve_name_call_args`. -/
def resolveNameCallArgs (args : List Arg) (i : SymIndex) (name : String) : Option Hit :=
  (args.find? fun a => flavorToSymtabIndex a.flavor = i ∧ a.paramStr = name).map
    fun a => .datum a.arg

variable (s : State)

/-- What the symbol table of a namespace has under a name. -/
def entry (ns : Namespace) (i : SymIndex) (name : String) : Option Hit :=
  (s.tables ns i name).map fun id => .datum (some id)

/-- `__cil_resolve_name_with_parents`. -/
def resolveNameWithParents (i : SymIndex) (name : String) : Env → Option Hit
  | .root => none
  | .space ns parent => (entry s ns i name).or (resolveNameWithParents i name parent)
  | .blockinherit block parent =>
      (resolveNameWithParents i name parent).or (resolveNameWithParents i name block)
  | .call args macroParent parent =>
      (resolveNameCallArgs args i name).or <|
        (resolveNameWithParents i name macroParent).or (resolveNameWithParents i name parent)
  | .endless => some .endless

/-- `__cil_resolve_name_with_root`. -/
def resolveNameWithRoot (i : SymIndex) (name : String) : Option Hit := entry s .root i name

/-- `__cil_resolve_name_helper`: the lookup of a name without dots, or of the first part of
a name with dots among the blocks, from the parent of the statement. -/
def resolveNameHelper (parent : Env) (i : SymIndex) (name : String) : Option Hit :=
  (resolveNameWithParents s i name parent).or (resolveNameWithRoot s i name)

/-- The namespace `cil_get_symtab` finds from a node. -/
def Env.getSymtab : Env → Namespace
  | .root => .root
  | .space ns _ => ns
  | .blockinherit _ parent => parent.getSymtab
  | .call _ _ parent => parent.getSymtab
  | .endless => .root

/-- Only nodes without symbol tables lie between the node and the root. -/
def Env.atRoot : Env → Bool
  | .root => true
  | .space _ _ => false
  | .blockinherit _ parent => parent.atRoot
  | .call _ _ parent => parent.atRoot
  | .endless => true

/-- The places the lookup reaches before the namespace `cil_get_symtab` finds; the root is
looked at last, after the inherited blocks. -/
def resolveNameBefore (i : SymIndex) (name : String) : Env → Option Hit
  | .root => none
  | .space _ _ => none
  | .blockinherit block parent =>
      (resolveNameBefore i name parent).or <|
        if parent.atRoot then resolveNameWithParents s i name block else none
  | .call args macroParent parent =>
      (resolveNameCallArgs args i name).or <|
        (resolveNameWithParents s i name macroParent).or (resolveNameBefore i name parent)
  | .endless => some .endless

section Lookup

variable {s} {env : Env} {i : SymIndex} {name : String}

private theorem getSymtab_of_atRoot (h : env.atRoot = true) : env.getSymtab = .root := by
  induction env with
  | root => rfl
  | space ns parent _ => cases h
  | blockinherit block parent _ ih => exact ih h
  | call args macroParent parent _ ih => exact ih h
  | endless => rfl

private theorem resolveNameWithParents_of_atRoot (h : env.atRoot = true) :
    resolveNameWithParents s i name env = resolveNameBefore s i name env := by
  induction env with
  | root => rfl
  | space ns parent _ => cases h
  | blockinherit block parent _ ih =>
      have hparent : parent.atRoot = true := h
      rw [resolveNameWithParents, resolveNameBefore, ih hparent, if_pos hparent]
  | call args macroParent parent _ ih =>
      have hparent : parent.atRoot = true := h
      rw [resolveNameWithParents, resolveNameBefore, ih hparent]
  | endless => rfl

private theorem resolveNameWithParents_of_entry {hit : Hit} (h : env.atRoot = false)
    (hid : entry s env.getSymtab i name = some hit) :
    resolveNameWithParents s i name env = (resolveNameBefore s i name env).or (some hit) := by
  induction env with
  | root => cases h
  | space ns parent _ =>
      have hentry : entry s ns i name = some hit := hid
      rw [resolveNameWithParents, resolveNameBefore, hentry]
      rfl
  | blockinherit block parent _ ih =>
      have hparent : parent.atRoot = false := h
      have hstop : (if parent.atRoot then resolveNameWithParents s i name block else none) =
          none := by
        rw [hparent]
        rfl
      rw [resolveNameWithParents, resolveNameBefore, hstop, Option.or_none, ih hparent hid,
        Option.or_assoc, Option.some_or]
  | call args macroParent parent _ ih =>
      have hparent : parent.atRoot = false := h
      rw [resolveNameWithParents, resolveNameBefore, ih hparent hid, Option.or_assoc,
        Option.or_assoc]
  | endless => rfl

/-- What is declared in the namespace of a node is found from there, unless the name is
found before. -/
theorem resolveNameHelper_of_entry {hit : Hit} (h : entry s env.getSymtab i name = some hit) :
    resolveNameHelper s env i name = (resolveNameBefore s i name env).or (some hit) := by
  cases hroot : env.atRoot with
  | true =>
      rw [getSymtab_of_atRoot hroot] at h
      rw [resolveNameHelper, resolveNameWithRoot, resolveNameWithParents_of_atRoot hroot, h]
  | false =>
      rw [resolveNameHelper, resolveNameWithParents_of_entry hroot h, Option.or_assoc,
        Option.some_or]

end Lookup

end Cil.Resolve.Names
