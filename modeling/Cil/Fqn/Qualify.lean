/- Cil/Fqn/Qualify
   digest: The names of the blocks around a declaration are put before its own name. -/

import Mathlib.Logic.Relation
import Cil.Library.Sweep
import Cil.Name
import Cil.Resolve.DottedNames

set_option autoImplicit false
set_option relaxedAutoImplicit false

namespace Cil.Fqn

open Cil.Copy Cil.Library.Separated Cil.Resolve.DottedNames

/-- The symbol tables after resolution, with the `name` field of the data and the order in
which `hashtab_map` goes through each table. -/
structure Resolved where
  ast : Ast
  name : Nat → Text
  entries : Namespace → SymIndex → List Nat
  mem_entries {ns : Namespace} {i : SymIndex} {id : Nat} :
    id ∈ entries ns i ↔ ∃ key, ast.sym.tables ns i key = some id
  entry_key {ns : Namespace} {i : SymIndex} {key : String} {id : Nat} :
    ast.sym.tables ns i key = some id → key = String.ofList (name id)
  entry_home {ns : Namespace} {i : SymIndex} {key : String} {id : Nat} (h : i ≠ .perms) :
    ast.sym.tables ns i key = some id → ast.symtab id = some ⟨ns, number i⟩
  entry_name {ns : Namespace} {i : SymIndex} {key : String} {id : Nat} (h : i ≠ .names) :
    ast.sym.tables ns i key = some id → verifyName (name id) = .ok

/-- How the pass stops before its end. -/
inductive Halt
  | overrun
  | crash
  | failed (rc : Rc)
  deriving DecidableEq, Repr

/-- A string is written to a buffer of `CIL_MAX_NAME_LENGTH` bytes, with the NUL. -/
def strcpy (t : Text) : Except Halt Text :=
  if t.length < maxNameLength then .ok t else .error .overrun

def strcat (buffer t : Text) : Except Halt Text := strcpy (buffer ++ t)

/-- `cil_fqn_args`. -/
structure Args where
  path : Text
  len : Nat
  deriving DecidableEq, Repr

/-- The `fqn` fields of the data. -/
abbrev Names := Nat → Text

/-- The tables that `__cil_fqn_qualify_blocks` goes through besides that of the blocks. -/
def qualifiedKinds : List SymIndex :=
  [.users, .roles, .types, .commons, .classes, .bools, .tunables, .sens, .cats, .sids, .levels]

variable (d : Resolved)

/-- `__cil_fqn_qualify_decls`. -/
def qualifyDecl (args : Args) (fqn : Names) (id : Nat) : Except Halt Names :=
  if args.len = 0 then .ok fqn
  else if args.len + (d.name id).length ≥ maxNameLength then .error (.failed .err)
  else
    match strcpy args.path with
    | .error halt => .error halt
    | .ok path =>
        match strcat path (d.name id) with
        | .error halt => .error halt
        | .ok path => .ok (Function.update fqn id path)

/-- The path of a block: that of its parent, its name and a dot. -/
def childPath (args : Args) (id : Nat) : Except Halt Text :=
  match strcpy args.path with
  | .error halt => .error halt
  | .ok path =>
      match strcat path (d.name id) with
      | .error halt => .error halt
      | .ok path => strcat path ['.']

/-- `__cil_fqn_qualify_blocks`. Where the path is too long, the message after `exit` reads the
line of a node that is not set yet. -/
def qualifyBlock (args : Args) (fqn : Names) (id : Nat) : Except Halt Names :=
  match (d.ast.sym.data id).nodes.head? with
  | none => .error .crash
  | some flavor =>
      if flavor ≠ .block then .ok fqn
      else if args.len + (d.name id).length + 1 ≥ maxNameLength then .error .crash
      else
        match childPath d args id with
        | .error halt => .error halt
        | .ok path =>
            match qualifiedKinds.foldlM (fun fqn i =>
              (d.entries (.ofDatum id) i).foldlM
                (qualifyDecl d ⟨path, args.len + (d.name id).length + 1⟩) fqn) fqn with
            | .error halt => .error halt
            | .ok fqn =>
                (d.entries (.ofDatum id) .blocks).foldlM (fun fqn child =>
                  qualifyBlock ⟨path, args.len + (d.name id).length + 1⟩ fqn child) fqn
termination_by maxNameLength - args.len

/-- `cil_fqn_qualify`, on data whose `fqn` is what `cil_symtab_insert` made it. -/
def qualify : Except Halt Names :=
  (d.entries .root .blocks).foldlM (qualifyBlock d ⟨[], 0⟩) d.name

/-- The blocks from the root down to a namespace, by their names. -/
inductive BlockPath : Namespace → List Text → Prop
  | root : BlockPath .root []
  | inner {ns : Namespace} {path : List Text} {key : String} {id : Nat} (h : BlockPath ns path)
      (hid : d.ast.sym.tables ns .blocks key = some id)
      (hblock : (d.ast.sym.data id).nodes.head? = some .block) :
      BlockPath (.ofDatum id) (path ++ [d.name id])

/-- A declaration at the end of a path of blocks. -/
def DeclaredAt (i : SymIndex) (path : List Text) (id : Nat) : Prop :=
  ∃ ns, BlockPath d ns path ∧ id ∈ d.entries ns i

/-- The names of the enclosing blocks and the own name, with dots between them. -/
def qualifiedName (path : List Text) (id : Nat) : Text := joined '.' (path ++ [d.name id])

/-- The names of the blocks, with a dot after each. -/
def blockPrefix (path : List Text) : Text := (path.map (· ++ ['.'])).flatten

end Cil.Fqn
