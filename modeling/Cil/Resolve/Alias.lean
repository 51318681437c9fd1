/- Cil/Resolve/Alias
   digest: Two passes bind aliases and then follow them to what they stand for. -/

import Mathlib.Logic.Function.Basic
import Cil.Basic
import Cil.Flavor
import Cil.Library.Chain

/-!
The passes `CIL_PASS_ALIAS1` and `CIL_PASS_ALIAS2` of one resolution round. A declaration
of any kind has its own fields after the common head; the second pass and name resolution
read the word right after that head as the `actual` of a `cil_alias`, whatever the
declaration is, so the state of the passes is that word of every declaration.
-/

set_option autoImplicit false
set_option relaxedAutoImplicit false

namespace Cil.Resolve.Alias

open Cil.Library.Chain

variable {δ ν : Type} [DecidableEq δ]

/-- The declarations of a policy and the search of `cil_resolve_name` for the declaration a
node means by a name, up to the point where an alias is followed. -/
structure Scope (δ ν : Type) where
  flavor : δ → Flavor
  lookup : ν → String → SymIndex → Option δ

/-- The word after the head of a declaration: `actual` of an alias, `bounds` of a type,
`expr_list` of a type attribute, `cats_list` of a sensitivity, `ordered` and `value` of a
category, `cats` of a category set. -/
inductive Word (δ : Type)
  | null
  | datum (d : δ)
  | other
  deriving DecidableEq, Repr

/-- The kinds of aliases. -/
inductive AliasKind
  | type | sens | cat
  deriving DecidableEq, Repr

/-- The flavor that `__cil_resolve_ast_node` passes on for an alias statement. -/
def AliasKind.flavor : AliasKind → Flavor
  | .type => .type
  | .sens => .sens
  | .cat => .cat

/-- `cil_aliasactual` with its kind and its node in the tree. -/
structure AliasActual (ν : Type) where
  kind : AliasKind
  node : ν
  aliasStr : String
  actualStr : String

/-- What the flavor of a declaration says about aliases: the flavor its chain must end in. -/
def actualFlavor : Flavor → Option Flavor
  | .typealias => some .type
  | .sensalias => some .sens
  | .catalias => some .cat
  | _ => none

/-- The flavors `cil_resolve_name` follows. -/
def isAlias (f : Flavor) : Bool := (actualFlavor f).isSome

/-- A pass at its end, with the words it leaves behind. -/
structure Ran (δ : Type) where
  verdict : Verdict
  words : δ → Word δ

variable (S : Scope δ ν)

/-- The words as the declarations are built or reset: only the categories of a category
set are there from the start. -/
def initialWords (d : δ) : Word δ := if S.flavor d = .catset then .other else .null

/-- The last step of `cil_resolve_name`. -/
def followAlias (words : δ → Word δ) (d : δ) : δ :=
  if isAlias (S.flavor d) then
    match words d with
    | .datum x => x
    | _ => d
  else d

/-- `cil_resolve_name`. -/
def resolveName (words : δ → Word δ) (node : ν) (name : String) (sym : SymIndex) : Option δ :=
  (S.lookup node name sym).map (followAlias S words)

/-- `cil_resolve_aliasactual`. -/
def resolveAliasactual (words : δ → Word δ) (s : AliasActual ν) : Ran δ :=
  let sym := flavorToSymtabIndex s.kind.flavor
  match resolveName S words s.node s.aliasStr sym with
  | none => ⟨.failure .enoent, words⟩
  | some aliasDatum =>
      match resolveName S words s.node s.actualStr sym with
      | none => ⟨.failure .enoent, words⟩
      | some actualDatum =>
          if words aliasDatum ≠ .null then ⟨.failure .err, words⟩
          else ⟨.success, Function.update words aliasDatum (.datum actualDatum)⟩

/-- `CIL_PASS_ALIAS1` over the alias statements in tree order. -/
def aliasPass1 (words : δ → Word δ) : List (AliasActual ν) → Ran δ
  | [] => ⟨.success, words⟩
  | s :: rest =>
      let r := resolveAliasactual S words s
      match r.verdict with
      | .success => aliasPass1 r.words rest
      | _ => r

/-- One turn of the loop of `cil_resolve_alias_to_actual`: the next declaration, unless the
flavor looked for is reached. A word that is no declaration has no next one either. -/
def nextActual (words : δ → Word δ) (flavor : Flavor) (d : δ) : Option δ :=
  if S.flavor d = flavor then none
  else
    match words d with
    | .datum x => some x
    | _ => none

/-- `cil_resolve_alias_to_actual`; `none` when the fuel of its loop runs out. -/
def resolveAliasToActual (fuel : Nat) (words : δ → Word δ) (current : δ) (flavor : Flavor) :
    Option (Ran δ) :=
  if words current = .null then some ⟨.failure .err, words⟩
  else
    match doublingWalk (nextActual S words flavor) fuel current current 0 2 with
    | none => none
    | some none => some ⟨.failure .err, words⟩
    | some (some a1) =>
        if S.flavor a1 = flavor then some ⟨.success, Function.update words current (.datum a1)⟩
        else some ⟨.crash, words⟩

/-- `CIL_PASS_ALIAS2` over the declarations in tree order. -/
def aliasPass2 (fuel : Nat) (words : δ → Word δ) : List δ → Option (Ran δ)
  | [] => some ⟨.success, words⟩
  | d :: rest =>
      match actualFlavor (S.flavor d) with
      | none => aliasPass2 fuel words rest
      | some flavor =>
          match resolveAliasToActual S fuel words d flavor with
          | none => none
          | some r =>
              match r.verdict with
              | .success => aliasPass2 fuel r.words rest
              | _ => some r

/-- Both passes. Every word a chain can follow was written by a statement, which bounds
the turns of the loop. -/
def aliasPasses (decls : List δ) (stmts : List (AliasActual ν)) : Option (Ran δ) :=
  let r := aliasPass1 S (initialWords S) stmts
  match r.verdict with
  | .success => aliasPass2 S (6 * (stmts.length + 2)) r.words decls
  | _ => some r

end Cil.Resolve.Alias
