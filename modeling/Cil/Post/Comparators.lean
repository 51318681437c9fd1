/- Cil/Post/Comparators
   digest: The comparators that sort the contexts of files, ports, devices and file systems. -/

import Mathlib.Data.BitVec
import Mathlib.Data.Nat.Notation
import Cil.Post.PathScan
import Cil.Library.Comparator

set_option autoImplicit false
set_option relaxedAutoImplicit false

namespace Cil.Post.Comparators

open Library.Comparator
open Cil.Parser (Deliverable)
open PathScan (Scan FcData fillData)

/-- `uint32_t`. -/
abbrev U32 := BitVec 32

/-- `cil_filecon_types`. -/
inductive FileconType
  | file | dir | char | block | socket | pipe | symlink | any
  deriving DecidableEq, Repr

/-- The constants start with 1. -/
def FileconType.value (type : FileconType) : Nat := type.ctorIdx + 1

/-- `cil_filecon`; its path is a string that the lexer can deliver. -/
structure Filecon where
  pathStr : Text
  type : FileconType
  deliverable : Deliverable pathStr

structure Portcon where
  portLow : U32
  portHigh : U32
  deriving DecidableEq, Repr

structure Genfscon where
  fsStr : Text
  pathStr : Text
  deriving DecidableEq, Repr

structure Netifcon where
  interfaceStr : Text
  deriving DecidableEq, Repr

/-- `AF_INET` and `AF_INET6`. -/
inductive Family
  | inet | inet6
  deriving DecidableEq, Repr

/-- `cil_ipaddr`: the union of the addresses as its bytes. -/
structure IpAddr where
  family : Family
  ip : List UInt8
  size : ip.length = 16

structure Nodecon where
  addr : IpAddr
  mask : IpAddr

structure Pirqcon where
  pirq : U32
  deriving DecidableEq, Repr

structure Iomemcon where
  iomemLow : U32
  iomemHigh : U32
  deriving DecidableEq, Repr

structure Ioportcon where
  ioportLow : U32
  ioportHigh : U32
  deriving DecidableEq, Repr

structure Pcidevicecon where
  dev : U32
  deriving DecidableEq, Repr

/-- `cil_fsuse`; `type` is the value of the constant. -/
structure Fsuse where
  type : Nat
  fsStr : Text
  deriving DecidableEq, Repr

/-- `strcmp`. -/
def strcmp (a b : Text) : Int := lexCompare Char.toNat a b

/-- `memcmp` of the first `size` bytes. -/
def memcmp (a b : List UInt8) (size : Nat) : Int :=
  lexCompare UInt8.toNat (a.take size) (b.take size)

/-- The comparison of the data of two scans, and of the types at last. -/
def fcDataCompare (a b : FcData) (aType bType : FileconType) : Int :=
  if a.hasMeta ∧ ¬ b.hasMeta then -1
  else if b.hasMeta ∧ ¬ a.hasMeta then 1
  else if a.stemLen < b.stemLen then -1
  else if b.stemLen < a.stemLen then 1
  else if a.strLen < b.strLen then -1
  else if b.strLen < a.strLen then 1
  else if aType.value < bType.value then -1
  else if bType.value < aType.value then 1
  else 0

/-- `cil_post_filecon_compare`. Without a result, a scan leaves its path. -/
def fileconCompare (a b : Filecon) : Option Int :=
  match fillData a.pathStr, fillData b.pathStr with
  | .done aData, .done bData => some (fcDataCompare aData bData a.type b.type)
  | _, _ => none

/-- The comparison of two ranges by their size and then by their low ends: the difference of the
sizes is one of `uint32_t`, and its conversion to `int` is the result. -/
def rangeCompare (aLow aHigh bLow bHigh : U32) : Int :=
  let rc := ((aHigh - aLow) - (bHigh - bLow)).toInt
  if rc = 0 then
    if aLow < bLow then -1 else if bLow < aLow then 1 else rc
  else rc

/-- `cil_post_portcon_compare`. -/
def portconCompare (a b : Portcon) : Int :=
  rangeCompare a.portLow a.portHigh b.portLow b.portHigh

/-- `cil_post_genfscon_compare`. -/
def genfsconCompare (a b : Genfscon) : Int :=
  let rc := strcmp a.fsStr b.fsStr
  if rc = 0 then strcmp a.pathStr b.pathStr else rc

/-- `cil_post_netifcon_compare`. -/
def netifconCompare (a b : Netifcon) : Int := strcmp a.interfaceStr b.interfaceStr

/-- The number of bytes of an address. -/
def Family.size : Family → Nat
  | .inet => 4
  | .inet6 => 16

/-- `cil_post_nodecon_compare`. -/
def nodeconCompare (a b : Nodecon) : Int :=
  if a.addr.family ≠ b.addr.family then
    if a.addr.family = .inet then -1 else 1
  else
    let size := a.addr.family.size
    let rc := memcmp a.mask.ip b.mask.ip size
    if rc ≠ 0 then -1 * rc else memcmp a.addr.ip b.addr.ip size

/-- The comparison of two numbers. -/
def valueCompare (a b : U32) : Int := if a < b then -1 else if b < a then 1 else 0

/-- `cil_post_pirqcon_compare`. -/
def pirqconCompare (a b : Pirqcon) : Int := valueCompare a.pirq b.pirq

/-- `cil_post_iomemcon_compare`. -/
def iomemconCompare (a b : Iomemcon) : Int :=
  rangeCompare a.iomemLow a.iomemHigh b.iomemLow b.iomemHigh

/-- `cil_post_ioportcon_compare`. -/
def ioportconCompare (a b : Ioportcon) : Int :=
  rangeCompare a.ioportLow a.ioportHigh b.ioportLow b.ioportHigh

/-- `cil_post_pcidevicecon_compare`. -/
def pcideviceconCompare (a b : Pcidevicecon) : Int := valueCompare a.dev b.dev

/-- `cil_post_fsuse_compare`. -/
def fsuseCompare (a b : Fsuse) : Int :=
  if a.type < b.type then -1
  else if b.type < a.type then 1
  else strcmp a.fsStr b.fsStr

end Cil.Post.Comparators
