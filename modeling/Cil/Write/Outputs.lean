/- Cil/Write/Outputs
   digest: The texts of user prefixes, login users and file contexts, and the sizes reported. -/

import Mathlib.Algebra.Ring.Int.Defs
import Cil.Write.Level

set_option autoImplicit false
set_option relaxedAutoImplicit false

namespace Cil.Write

open Cil.Verify

/-- `str_len += n` for a `size_t`. -/
def addSize (strLen : Nat) (n : Int) : Nat := ((strLen + n) % 2 ^ 64).toNat

/-- No object is larger than `PTRDIFF_MAX`. -/
def ptrdiffMax : Nat := 2 ^ 63 - 1

/-- The characters written, in order, and where in the buffer the next ones go. -/
structure Buffer where
  written : Text
  pos : Int
  deriving DecidableEq, Repr

def Buffer.start : Buffer := ⟨[], 0⟩

/-- `buf_pos = sprintf(str_tmp, ..)` and `str_tmp += buf_pos`, for a piece made of names and one
token, which `buf_pos` can count. -/
def Buffer.put (b : Buffer) (text : Text) : Buffer := ⟨b.written ++ text, b.pos + text.length⟩

/-- What a writer leaves in `*size`, the memory it gets, and what it writes there. -/
structure Output where
  size : Nat
  allocated : Nat
  buffer : Buffer
  deriving DecidableEq, Repr

/-- `cil_malloc` ends the program when it gets no memory. -/
def cilMalloc (size : Nat) : Option Unit := if size ≤ ptrdiffMax then some () else none

section Userprefixes

/-- `cil_userprefix`, with the `fqn` of its user. -/
structure Userprefix where
  userFqn : Text
  prefixStr : Text
  deriving DecidableEq, Repr

/-- The counting loop of `cil_userprefixes_to_string`. -/
def userprefixesStrlen (strLen : Nat) : List Userprefix → Nat
  | [] => strLen
  | u :: rest =>
      userprefixesStrlen (addSize strLen
        ("user ".length + u.userFqn.length + " prefix ".length + u.prefixStr.length + 2 : Nat)) rest

def userprefixText (u : Userprefix) : Text :=
  "user ".toList ++ u.userFqn ++ " prefix ".toList ++ u.prefixStr ++ ";\n".toList

/-- The printing loop; `snprintf` writes as much as fits before the NUL. -/
def userprefixesWrite (strLen : Nat) (b : Buffer) : List Userprefix → Buffer
  | [] => b
  | u :: rest =>
      userprefixesWrite (addSize strLen (-(userprefixText u).length))
        ⟨b.written ++ (userprefixText u).take (strLen - 1), b.pos + (userprefixText u).length⟩ rest

/-- `cil_userprefixes_to_string`. -/
def userprefixesToString (userprefixes : List Userprefix) : Option Output :=
  match userprefixes with
  | [] => some ⟨0, 0, Buffer.start⟩
  | _ => do
      let size := userprefixesStrlen 0 userprefixes
      let strLen := addSize size 1
      cilMalloc strLen
      some ⟨size, strLen, userprefixesWrite strLen Buffer.start userprefixes⟩

attribute [simp] userprefixesStrlen userprefixesWrite

end Userprefixes

section Levels

variable {σ κ : Type} (N : LevelNames σ κ)

/-- `buf_pos = __cil_level_to_string(lvl, str_tmp)` and `str_tmp += buf_pos`. -/
def Buffer.putLevel (b : Buffer) (l : Level σ κ) : Buffer :=
  ⟨b.written ++ levelText N l, b.pos + levelToString N l⟩

/-- `cil_selinuxuser`, with the `fqn` of its user. -/
structure Selinuxuser (σ κ : Type) where
  nameStr : Text
  userFqn : Text
  range : LevelRange σ κ
  deriving DecidableEq, Repr

/-- The counting loop of `cil_selinuxusers_to_string`. -/
def selinuxusersStrlen (mls : Bool) (strLen : Nat) : List (Selinuxuser σ κ) → Nat
  | [] => strLen
  | u :: rest =>
      let strLen := addSize strLen (u.nameStr.length + u.userFqn.length + 1 : Nat)
      let strLen :=
        if mls = true then
          addSize strLen (toInt (levelStrlen N u.range.low + levelStrlen N u.range.high + 2))
        else strLen
      selinuxusersStrlen mls (addSize strLen 1) rest

/-- The printing loop. -/
def selinuxusersWrite (mls : Bool) (b : Buffer) : List (Selinuxuser σ κ) → Buffer
  | [] => b
  | u :: rest =>
      let b := b.put (u.nameStr ++ [':'] ++ u.userFqn)
      let b :=
        if mls = true then
          (((b.put [':']).putLevel N u.range.low).put ['-']).putLevel N u.range.high
        else b
      selinuxusersWrite mls (b.put ['\n']) rest

/-- `cil_selinuxusers_to_string`. -/
def selinuxusersToString (mls : Bool) (selinuxusers : List (Selinuxuser σ κ)) : Option Output :=
  match selinuxusers with
  | [] => some ⟨0, 0, Buffer.start⟩
  | _ => do
      let size := selinuxusersStrlen N mls 0 selinuxusers
      cilMalloc (addSize size 1)
      some ⟨size, addSize size 1, selinuxusersWrite N mls Buffer.start selinuxusers⟩

/-- `type` of a `cil_filecon`. -/
inductive FileconType
  | any
  | file
  | dir
  | char
  | block
  | socket
  | pipe
  | symlink
  deriving DecidableEq, Repr

/-- The context of a `cil_filecon`, with the `fqn` of its parts. -/
structure FileContext (σ κ : Type) where
  userFqn : Text
  roleFqn : Text
  typeFqn : Text
  range : LevelRange σ κ
  deriving DecidableEq, Repr

/-- `cil_filecon`; without a context it is written as `<<none>>`. -/
structure Filecon (σ κ : Type) where
  pathStr : Text
  type : FileconType
  context : Option (FileContext σ κ)
  deriving DecidableEq, Repr

/-- The length that is reckoned for a context. -/
def contextStrlen (mls : Bool) (levelEquals : Level σ κ → Level σ κ → Bool) (strLen : Nat)
    (ctx : FileContext σ κ) : Nat :=
  let strLen := addSize strLen
    (ctx.userFqn.length + ctx.roleFqn.length + ctx.typeFqn.length + 3 : Nat)
  if mls = true then
    if levelEquals ctx.range.low ctx.range.high = true then
      addSize strLen (toInt (levelStrlen N ctx.range.low + 1))
    else
      addSize strLen (toInt (levelStrlen N ctx.range.low + levelStrlen N ctx.range.high + 2))
  else strLen

/-- The counting loop of `cil_filecons_to_string`. -/
def fileconsStrlen (mls : Bool) (levelEquals : Level σ κ → Level σ κ → Bool) (strLen : Nat) :
    List (Filecon σ κ) → Nat
  | [] => strLen
  | f :: rest =>
      let strLen := addSize strLen f.pathStr.length
      let strLen := if f.type ≠ .any then addSize strLen 3 else strLen
      let strLen :=
        match f.context with
        | some ctx => contextStrlen N mls levelEquals strLen ctx
        | none => addSize strLen "\t<<none>>".length
      fileconsStrlen mls levelEquals (addSize strLen 1) rest

def FileconType.text : FileconType → Text
  | .file => "\t--".toList
  | .dir => "\t-d".toList
  | .char => "\t-c".toList
  | .block => "\t-b".toList
  | .socket => "\t-s".toList
  | .pipe => "\t-p".toList
  | .symlink => "\t-l".toList
  | .any => []

/-- What is written for a context. -/
def contextWrite (mls : Bool) (levelEquals : Level σ κ → Level σ κ → Bool) (b : Buffer)
    (ctx : FileContext σ κ) : Buffer :=
  let b := b.put (['\t'] ++ ctx.userFqn ++ [':'] ++ ctx.roleFqn ++ [':'] ++ ctx.typeFqn)
  if mls = true then
    let b := (b.put [':']).putLevel N ctx.range.low
    if levelEquals ctx.range.low ctx.range.high = true then b
    else (b.put ['-']).putLevel N ctx.range.high
  else b

/-- The printing loop. -/
def fileconsWrite (mls : Bool) (levelEquals : Level σ κ → Level σ κ → Bool) (b : Buffer) :
    List (Filecon σ κ) → Buffer
  | [] => b
  | f :: rest =>
      let b := b.put f.pathStr
      let b := b.put f.type.text
      let b :=
        match f.context with
        | some ctx => contextWrite N mls levelEquals b ctx
        | none => b.put "\t<<none>>".toList
      fileconsWrite mls levelEquals (b.put ['\n']) rest

/-- `cil_filecons_to_string`. -/
def fileconsToString (mls : Bool) (levelEquals : Level σ κ → Level σ κ → Bool)
    (filecons : List (Filecon σ κ)) : Option Output := do
  let size := fileconsStrlen N mls levelEquals 0 filecons
  cilMalloc (addSize size 1)
  some ⟨size, addSize size 1, fileconsWrite N mls levelEquals Buffer.start filecons⟩

attribute [simp] selinuxusersStrlen selinuxusersWrite fileconsStrlen fileconsWrite

end Levels

/-- The size reported is the number of characters written, each where the one before ends, and
with the NUL they fit in the memory. -/
def Output.Exact (o : Output) : Prop :=
  o.size = o.buffer.written.length ∧ o.buffer.pos = o.buffer.written.length ∧
    (o.buffer.written = [] ∨ o.buffer.written.length + 1 ≤ o.allocated)

/-- A writer returns, and its output is exact. -/
def ExactOutput (o : Option Output) : Prop := ∃ out, o = some out ∧ out.Exact

end Cil.Write
