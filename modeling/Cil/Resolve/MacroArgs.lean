/- Cil/Resolve/MacroArgs
   digest: Arguments of a macro call are made at the call and looked up from the body. -/

import Mathlib.Data.List.Basic
import Cil.Resolve.Names

/-!
An argument is written as a name or as a list. `cil_resolve_call1` and `cil_resolve_call2`
turn a name into a datum; for a list they make an anonymous object whose names are resolved
by the statements that use the parameter, each time from where the statement stands.

The `cil_name` of a string, a file name of a type transition, has the number
`fileName string`, whether or not it has been inserted into the table of the root.
-/

set_option autoImplicit false
set_option relaxedAutoImplicit false

namespace Cil.Resolve.MacroArgs

open Cil.Copy Cil.Resolve.Names

/-- An argument of a call: `refs` are the names in a list, in their order. -/
inductive Written
  | named (str : String)
  | anonymous (id : Nat) (refs : List (SymIndex × String))

/-- The kinds of parameters for which an argument may be a list. -/
def mayBeAnonymous : Flavor → Bool
  | .catset | .level | .levelrange | .ipaddr | .classpermission => true
  | _ => false

/-- Where a statement stands: the nodes above it, and the parameters of the macro its parent
is or calls. -/
structure Site where
  env : Env
  parentParams : Option (List Param)

section Lookup

variable (fileName : String → Nat) (s : State)

/-- `__cil_insert_name`: the table of the root, then the parameters, then a new name. -/
def insertName (parentParams : Option (List Param)) (key : String) : Option Nat :=
  match s.tables .root .names key with
  | some id => some id
  | none =>
      match parentParams with
      | some params => if ∃ p ∈ params, p.str = key then none else some (fileName key)
      | none => some (fileName key)

/-- The file name of a type transition, or an argument for a name parameter: inserted in
the state `early`, else looked up. Below a call of a macro without parameters, whose list of
parameters is NULL, a new name is not survived. -/
def resolveFileName (early : State) (site : Site) (key : String) : Option Hit :=
  if early.tables .root .names key = none ∧ site.parentParams = some [] then none
  else
    ((insertName fileName early site.parentParams key).map fun id => .datum (some id)).or
      (resolveNameHelper s site.env .names key)

/-- The datum `cil_resolve_call1` and `cil_resolve_call2` give to one argument. -/
def resolveArg (early : State) (site : Site) (flavor : Flavor) : Written → Option Hit
  | .named str =>
      if flavor = .name then resolveFileName fileName s early site str
      else resolveNameHelper s site.env (flavorToSymtabIndex flavor) str
  | .anonymous id _ => if mayBeAnonymous flavor then some (.datum (some id)) else none

/-- The arguments of a call, parameter by parameter; an argument is null where the lookup has
come upon one that is. -/
def resolveArgs (early : State) (site : Site) : List (Param × Written) → Option (List Arg)
  | [] => some []
  | (p, w) :: rest =>
      match resolveArg fileName s early site p.flavor w, resolveArgs early site rest with
      | some (.datum id), some args => some (⟨p.flavor, p.str, id⟩ :: args)
      | _, _ => none

end Lookup

/-- A call whose arguments have been resolved: those of name parameters are inserted in the
state `early`, the others are looked up in the state `now`. -/
structure Call (fileName : String → Nat) where
  site : Site
  macroParent : Env
  params : List (Param × Written)
  early : State
  now : State
  args : List Arg
  resolved : resolveArgs fileName now early site params = some args
  /-- The table of file names maps each string to its own name. -/
  numbered : ∀ key id, now.tables .root .names key = some id → id = fileName key
  numbered_early : ∀ key id, early.tables .root .names key = some id → id = fileName key
  /-- No list has a file name in it. -/
  refs_ne_names : ∀ p id refs, (p, Written.anonymous id refs) ∈ params →
    ∀ r ∈ refs, r.1 ≠ .names

/-- A parameter of the called macro with its argument, in its place among the others. -/
structure Parameter {fileName : String → Nat} (c : Call fileName) where
  earlier : List (Param × Written)
  param : Param
  written : Written
  later : List (Param × Written)
  split : c.params = earlier ++ (param, written) :: later

/-- What stands between a statement and the call: a block of the body, or a call in it. -/
inductive Frame
  | space (ns : Namespace)
  | call (args : List Arg) (macroParent : Env)

def Frame.push : Frame → Env → Env
  | .space ns, env => .space ns env
  | .call args macroParent, env => .call args macroParent env

/-- What a statement takes a word for before it looks up any name: `self` as the target of an
access vector rule for the self type, and in an expression the operators and the operands of
constraints for themselves, which are no datum. -/
abbrev Keywords := List (String × Option Nat)

/-- A statement of the expanded body that names a parameter, or one further in, in the body
of a call the parameter has been passed on to, at a place with `keywords`. No declarations have
come or gone since the call was resolved, only file names. A statement that `reads` an anonymous
object resolves the names in it, except for a category set; a `classpermissionset` only looks up
the set it adds to. -/
structure Use {fileName : String → Nat} (c : Call fileName) where
  early : State
  now : State
  /-- The innermost first. -/
  inner : List Frame
  /-- The statement is a child of the call itself. -/
  direct : Bool
  /-- The statement names the parameter itself. -/
  named : Bool
  keywords : Keywords
  reads : Bool
  same : ∀ ns i name, i ≠ .names → now.tables ns i name = c.now.tables ns i name
  numbered_early : ∀ key id, early.tables .root .names key = some id → id = fileName key

variable {fileName : String → Nat} {c : Call fileName}

/-- The place of the statement. -/
def Use.site (u : Use c) : Site where
  env := u.inner.foldr Frame.push (.call c.args c.macroParent c.site.env)
  parentParams := if u.direct then some (c.params.map Prod.fst) else none

/-- What the lookup finds for the parameter. -/
def Use.lookedUp (u : Use c) (p : Param) : Option Hit :=
  if p.flavor = .name then resolveFileName fileName u.now u.early u.site p.str
  else resolveNameHelper u.now u.site.env (flavorToSymtabIndex p.flavor) p.str

/-- What the statement takes for the parameter. -/
def Use.found (u : Use c) (p : Param) : Option Hit :=
  match u.keywords.lookup p.str with
  | some id => id.map fun id => .datum (some id)
  | none => u.lookedUp p

/-- The names in an anonymous object as they are resolved from a place. -/
def resolveRefs (s : State) (env : Env) (refs : List (SymIndex × String)) : List (Option Hit) :=
  refs.map fun r => resolveNameHelper s env r.1 r.2

/-- What an anonymous object holds after the statements have been resolved in their order;
each overwrites what the one before has left. No statement resolves a category set. -/
def partsAfter (flavor : Flavor) (refs : List (SymIndex × String)) :
    List (Use c) → Option (List (Option Hit)) → Option (List (Option Hit))
  | [], parts => parts
  | u :: us, parts =>
      partsAfter flavor refs us <|
        if u.reads ∧ flavor ≠ .catset then some (resolveRefs u.now u.site.env refs) else parts

end Cil.Resolve.MacroArgs
