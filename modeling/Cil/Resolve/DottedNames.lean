/- Cil/Resolve/DottedNames
   digest: A dotted name is resolved block by block; a name of dots alone has no part to look up. -/

import Cil.Basic
import Cil.Library.Strtok
import Cil.Parser.Lexer
import Cil.Resolve.Names

set_option autoImplicit false
set_option relaxedAutoImplicit false

namespace Cil.Resolve.DottedNames

open Cil.Copy Cil.Resolve.Names Cil.Library.Strtok

/-- The symbol tables of a namespace, in the order of the array that holds them. -/
def symtabs : List SymIndex :=
  [.blocks, .users, .roles, .types, .commons, .classes, .classpermsets, .bools, .tunables,
    .sens, .cats, .sids, .contexts, .levels, .levelranges, .policycaps, .ipaddrs, .names]

/-- The value of a `cil_sym_index`; the table of permissions is in no array. -/
def number (i : SymIndex) : Nat := symtabs.idxOf i

theorem symtabs_number {i : SymIndex} (h : i ≠ .perms) : symtabs[number i]? = some i := by
  cases i with
  | perms => exact absurd rfl h
  | _ => rfl

theorem number_blocks : number .blocks = 0 := rfl

/-- A `symtab_t *`: an element of the array of a namespace. -/
structure Pointer where
  ns : Namespace
  offset : Nat
  deriving DecidableEq, Repr

/-- The tree of `cil_db` as the lookup of names sees it: the tables and their data, the
`symtab` field of the data, and the `actual` field of those that are aliases. What is in a
table has a node and points back to the table. -/
structure Ast where
  sym : State
  symtab : Nat → Option Pointer
  actual : Nat → Option Nat
  entry_node {ns : Namespace} {i : SymIndex} {key : String} {id : Nat} :
    sym.tables ns i key = some id → (sym.data id).nodes ≠ []
  entry_symtab {ns : Namespace} {key : String} {id : Nat} :
    sym.tables ns .blocks key = some id → symtab id = some ⟨ns, number .blocks⟩
  entry_flavor {ns : Namespace} {key : String} {id : Nat} :
    sym.tables ns .blocks key = some id →
      ∀ flavor ∈ (sym.data id).nodes.head?, flavorToSymtabIndex flavor = .blocks

/-- What is looked up: a kind of symbol, never a permission, and blocks alone for the `in`
statement. -/
structure Request where
  kind : SymIndex
  isIn : Bool
  not_perms : kind ≠ .perms
  in_blocks : isIn = true → kind = .blocks

/-- The arguments of calls that the lookup can come across. -/
def args : Env → List Arg
  | .root => []
  | .space _ parent => args parent
  | .blockinherit block parent => args parent ++ args block
  | .call as macroParent parent => as ++ (args macroParent ++ args parent)
  | .endless => []

/-- A statement of the tree, as the nodes above it. -/
structure Statement (a : Ast) where
  parent : Env
  arg_node : ∀ arg ∈ args parent, ∀ id, arg.arg = some id → (a.sym.data id).nodes ≠ []

/-- The lookup of a copied string: `cil_resolve_name_call_args` compares the addresses of
strings, and no parameter has that of the copy. -/
def withoutArgs : Env → Env
  | .root => .root
  | .space ns parent => .space ns (withoutArgs parent)
  | .blockinherit block parent => .blockinherit (withoutArgs block) (withoutArgs parent)
  | .call _ macroParent parent => .call [] (withoutArgs macroParent) (withoutArgs parent)
  | .endless => .endless

/-- Why the search stops, or that it does not. -/
inductive Stopped
  | crash
  | endless
  | failed (rc : Rc)
  deriving DecidableEq, Repr

def isDot (c : Char) : Bool := c = '.'

section Code

variable (a : Ast) (r : Request)

/-- `cil_symtab_get_datum`. -/
def getDatum (symtab : Option Pointer) (key : Option (List Char)) : Except Stopped Nat :=
  match symtab, key with
  | some p, some key =>
      match symtabs[p.offset]? with
      | none => .error .crash
      | some i =>
          match a.sym.tables p.ns i (String.ofList key) with
          | none => .error (.failed .enoent)
          | some id => .ok id
  | _, _ => .error .crash

/-- The flavor of `NODE(datum)`. -/
def nodeFlavor (id : Nat) : Except Stopped Flavor :=
  match (a.sym.data id).nodes.head? with
  | none => .error .crash
  | some flavor => .ok flavor

/-- The body of the loop of `cil_resolve_name` once the datum of a part is there. -/
def enter (id : Nat) : Except Stopped (Option Pointer) :=
  match nodeFlavor a id with
  | .error stop => .error stop
  | .ok .block => .ok (some ⟨.ofDatum id, number .blocks⟩)
  | .ok .macroDef =>
      if r.isIn then .ok (some ⟨.ofDatum id, number r.kind⟩) else .error (.failed .err)
  | .ok _ => if r.isIn then .ok (a.symtab id) else .error (.failed .err)

/-- The loop of `cil_resolve_name`. -/
def walkBlocks (symtab : Option Pointer) (current next : Option (List Char))
    (sp : List Char) : Except Stopped (Option Pointer × Option (List Char)) :=
  match next with
  | none => .ok (symtab, current)
  | some token =>
      match getDatum a symtab current with
      | .error stop => .error stop
      | .ok id =>
          match enter a r id with
          | .error stop => .error stop
          | .ok symtab =>
              walkBlocks symtab (some token) (strtokR isDot sp).1 (strtokR isDot sp).2
termination_by sp.length + next.toList.length
decreasing_by
  have hlength := strtokR_length (p := isDot) sp
  simp only [Option.toList_some, List.length_singleton]
  omega

variable {a} (stmt : Statement a)

/-- The table from which the walk starts. -/
def startSymtab (name : List Char) (current : Option (List Char)) :
    Except Stopped (Option Pointer) :=
  if name.head? = some '.' then .ok (some ⟨.root, number .blocks⟩)
  else
    match current with
    | none => .error .crash
    | some first =>
        match resolveNameHelper a.sym (withoutArgs stmt.parent) .blocks
          (String.ofList first) with
        | none => .error (.failed .enoent)
        | some .endless => .error .endless
        | some (.datum none) => .error .crash
        | some (.datum (some id)) => .ok (a.symtab id)

/-- `cil_resolve_name` up to its label `exit`: the datum, which is null when it is the argument
of a call that has not been resolved. -/
def search (name : List Char) : Except Stopped (Option Nat) :=
  if '.' ∉ name then
    match resolveNameHelper a.sym stmt.parent r.kind (String.ofList name) with
    | none => .error (.failed .enoent)
    | some .endless => .error .endless
    | some (.datum id) => .ok id
  else
    match startSymtab stmt name (strtokR isDot name).1 with
    | .error stop => .error stop
    | .ok symtab =>
        match walkBlocks a r symtab (strtokR isDot name).1
          (strtokR isDot (strtokR isDot name).2).1 (strtokR isDot (strtokR isDot name).2).2 with
        | .error stop => .error stop
        | .ok (symtab, current) =>
            (getDatum a (symtab.map fun p => ⟨p.ns, p.offset + number r.kind⟩) current).map some

/-- What the caller sees: the return code with `*datum`, unless the program is gone or the call
does not return. -/
inductive Outcome
  | crashed
  | endless
  | returned (rc : Rc) (datum : Option Nat)
  deriving DecidableEq, Repr

/-- An alias is replaced by what it stands for, if that is known. -/
def actualOf (a : Ast) (flavor : Flavor) (id : Nat) : Nat :=
  match flavor with
  | .typealias | .sensalias | .catalias => (a.actual id).getD id
  | _ => id

/-- `cil_resolve_name`. -/
def resolveName (name : List Char) : Outcome :=
  match search r stmt name with
  | .error .crash => .crashed
  | .error .endless => .endless
  | .error (.failed rc) => .returned rc none
  | .ok none => .returned .ok none
  | .ok (some id) =>
      match nodeFlavor a id with
      | .error _ => .crashed
      | .ok flavor => .returned .ok (some (actualOf a flavor id))

end Code

attribute [simp] args withoutArgs

section Paths

variable (a : Ast) (r : Request)

/-- The namespace that a part of a path leads to from that of its table: a block, and in the
`in` statement a macro, or for an optional the namespace around it. -/
inductive Enters (ns : Namespace) (id : Nat) : Namespace → Prop
  | block (h : (a.sym.data id).nodes.head? = some .block) : Enters ns id (.ofDatum id)
  | ofMacro (h : (a.sym.data id).nodes.head? = some .macroDef) (hin : r.isIn = true) :
      Enters ns id (.ofDatum id)
  | ofOptional (h : (a.sym.data id).nodes.head? = some .optional) (hin : r.isIn = true) :
      Enters ns id ns

inductive Walks : Namespace → List (List Char) → Namespace → Prop
  | here (ns : Namespace) : Walks ns [] ns
  | part {ns mid last : Namespace} {part : List Char} {parts : List (List Char)} {id : Nat}
      (hid : a.sym.tables ns .blocks (String.ofList part) = some id)
      (henter : Enters a r ns id mid) (hrest : Walks mid parts last) :
      Walks ns (part :: parts) last

variable {a} (stmt : Statement a)

/-- Where the path of a name starts: at the root, or where its first part is found. -/
inductive Starts (name : List Char) : Namespace → Prop
  | root (h : name.head? = some '.') : Starts name .root
  | found {ns : Namespace} {first : List Char} {id : Nat} (h : name.head? ≠ some '.')
      (hfirst : (pieces isDot name).head? = some first)
      (hid : resolveNameHelper a.sym (withoutArgs stmt.parent) .blocks (String.ofList first) =
        some (.datum (some id)))
      (hns : a.sym.tables ns .blocks (String.ofList first) = some id) : Starts name ns

/-- The datum a name stands for. The parts of a dotted name are what stands between its dots
without the empty ones; all but the last lead to the namespace in which the last one is
looked up. -/
inductive Denotes (name : List Char) (id : Nat) : Prop
  | plain (hdot : '.' ∉ name)
      (hid : resolveNameHelper a.sym stmt.parent r.kind (String.ofList name) =
        some (.datum (some id)))
  | dotted {ns ns' : Namespace} {front : List (List Char)} {last : List Char}
      (hdot : '.' ∈ name) (hparts : pieces isDot name = front ++ [last])
      (hstart : Starts stmt name ns) (hwalk : Walks a r ns front ns')
      (hid : a.sym.tables ns' r.kind (String.ofList last) = some id)

/-- The datum is in a table of that kind, or it is the argument of a call. -/
def Declared (id : Nat) : Prop :=
  (∃ ns key, a.sym.tables ns r.kind key = some id) ∨
    ∃ arg ∈ args stmt.parent, flavorToSymtabIndex arg.flavor = r.kind ∧ arg.arg = some id

/-- The name gives its datum, or the actual one of an alias, and a name without a datum gives
an error. -/
def Total (name : List Char) : Prop :=
  (∃ id flavor, Denotes r stmt name id ∧ Declared r stmt id ∧
      (a.sym.data id).nodes.head? = some flavor ∧
      resolveName r stmt name = .returned .ok (some (actualOf a flavor id))) ∨
    ((∀ id, ¬ Denotes r stmt name id) ∧
      ∃ rc, rc ≠ .ok ∧ resolveName r stmt name = .returned rc none)

/-- The search outwards from a place does not go round for ever, and where it comes upon the
argument of a call, that has been resolved. -/
def Settled (a : Ast) (parent : Env) (i : SymIndex) (name : List Char) : Prop :=
  ∀ hit, resolveNameHelper a.sym parent i (String.ofList name) = some hit →
    ∃ id, hit = .datum (some id)

/-- The name, or the first part of one with dots that do not come first, can be searched for
outwards. -/
structure Searchable (name : List Char) : Prop where
  plain : '.' ∉ name → Settled a stmt.parent r.kind name
  dotted : '.' ∈ name → name.head? ≠ some '.' → ∀ first ∈ (pieces isDot name).head?,
    Settled a (withoutArgs stmt.parent) .blocks first

end Paths

end Cil.Resolve.DottedNames
