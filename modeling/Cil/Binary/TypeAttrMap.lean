/- Cil/Binary/TypeAttrMap
   digest: Types and attributes in the policy, and the map from types to their attributes. -/

import Mathlib.Order.Lattice.Nat
import Cil.Post.Numbering
import Cil.Resolve.Used
import Cil.Verify.Context

set_option autoImplicit false
set_option relaxedAutoImplicit false

namespace Cil.Binary.TypeAttrMap

open Cil.Library Cil.Resolve.Passes Cil.Resolve.Used Cil.Verify

/-- The part of the binary policy with the types; `rest` is what else it has. An entry of `types`
is a key with its value. -/
structure Pdb (β ρ : Type) where
  types : List (String × Nat)
  nprim : Nat
  typeAttrMap : Option (List β)
  rest : ρ

/-- The walks of `cil_binary_create`, and what follows them. -/
inductive Phase
  | first
  | second
  | third
  | contexts
  deriving DecidableEq, Repr

/-- What `cil_binary_create` reads of types, attributes and aliases. -/
structure Data (τ α ι β : Type) where
  typeFqn : τ → String
  attrFqn : α → String
  aliasFqn : ι → String
  typeNodes : τ → List Nat
  attrNodes : α → List Nat
  aliasNodes : ι → List Nat
  used : α → Bool
  /-- `types` of an attribute. -/
  attrTypes : α → Option β
  valToType : Nat → Option τ
  actual : ι → Option τ

section Create

variable {ω μ τ α ι ξ β ρ : Type} (B : EnumBitmap β) (D : Data τ α ι β)

/-- What is done for the other statements, which changes neither the types nor their map. -/
abbrev Others (ω μ τ α ι ξ β ρ : Type) :=
  Phase → Option (NodeData ω μ (Stmt τ α ι ξ)) → Pdb β ρ → Returned Rc ρ Unit

abbrev Creating (β ρ : Type) := Call Rc (Pdb β ρ)

def other (others : Others ω μ τ α ι ξ β ρ) (phase : Phase)
    (d : Option (NodeData ω μ (Stmt τ α ι ξ))) : Creating β ρ Unit := fun pdb =>
  match others phase d pdb with
  | .ok _ rest => some (.ok () { pdb with rest := rest })
  | .failed rc rest => some (.failed rc { pdb with rest := rest })
  | .crash => some .crash

/-- `symtab_insert` of a primary name. -/
def symtabInsert (key : String) : Creating β ρ Unit := fun pdb =>
  match pdb.types.lookup key with
  | some _ => some (.failed .err pdb)
  | none => some (.ok () { pdb with
      types := pdb.types ++ [(key, pdb.nprim + 1)]
      nprim := pdb.nprim + 1 })

/-- `__cil_get_sepol_type_datum`. -/
def getSepolTypeDatum (key : String) : Creating β ρ Nat := fun pdb =>
  match pdb.types.lookup key with
  | some value => some (.ok value pdb)
  | none => some (.failed .err pdb)

/-- `cil_type_to_policydb`. -/
def typeToPolicydb (t : τ) : Creating β ρ Unit := symtabInsert (D.typeFqn t)

/-- `cil_typeattribute_to_policydb`. -/
def typeattributeToPolicydb (a : α) : Creating β ρ Unit :=
  if D.used a = false then pure () else symtabInsert (D.attrFqn a)

/-- `cil_typealias_to_policydb`. -/
def typealiasToPolicydb (x : ι) : Creating β ρ Unit :=
  match D.actual x with
  | none => Call.crash
  | some t => do
      let value ← getSepolTypeDatum (D.typeFqn t)
      fun pdb =>
        match pdb.types.lookup (D.aliasFqn x) with
        | some _ => some (.failed .err pdb)
        | none => some (.ok () { pdb with types := pdb.types ++ [(D.aliasFqn x, value)] })

/-- `__cil_typeattr_bitmap_init`. -/
def typeattrBitmapInit : Creating β ρ Unit :=
  Call.modify fun pdb => { pdb with
    typeAttrMap := some ((List.range pdb.nprim).map fun i => B.setBit B.init i) }

/-- One bit of the map. -/
def setTypeAttr (type value : Nat) : Creating β ρ Unit := fun pdb =>
  match pdb.typeAttrMap with
  | none => some .crash
  | some map =>
      match map[type - 1]? with
      | none => some .crash
      | some bits => some (.ok () { pdb with
          typeAttrMap := some (map.set (type - 1) (B.setBit bits (value - 1))) })

/-- The loop of `cil_typeattribute_to_bitmap`. -/
def bitmapLoop (value : Nat) : List Nat → Creating β ρ Unit
  | [] => pure ()
  | i :: rest =>
      match D.valToType i with
      | none => Call.crash
      | some t => do
          let type ← getSepolTypeDatum (D.typeFqn t)
          setTypeAttr B type value
          bitmapLoop value rest

/-- The map is allocated when the first attribute comes. -/
def ensureMap : Creating β ρ Unit := fun pdb =>
  match pdb.typeAttrMap with
  | none => typeattrBitmapInit B pdb
  | some _ => some (.ok () pdb)

/-- `cil_typeattribute_to_bitmap`. -/
def typeattributeToBitmap (a : α) : Creating β ρ Unit :=
  if D.used a = false then pure ()
  else do
    ensureMap B
    let value ← getSepolTypeDatum (D.attrFqn a)
    match D.attrTypes a with
    | none => Call.crash
    | some types => bitmapLoop B D value (B.positions types)

/-- `__cil_node_to_policydb`: of several nodes of a declaration only the first counts. -/
def nodeToPolicydb (others : Others ω μ τ α ι ξ β ρ) (phase : Phase)
    (d : NodeData ω μ (Stmt τ α ι ξ)) : Creating β ρ Unit :=
  match d.stmt with
  | .type n t =>
      if (D.typeNodes t).head? = some n then
        match phase with
        | .first => typeToPolicydb D t
        | _ => other others phase (some d)
      else pure ()
  | .typeattribute n a =>
      if (D.attrNodes a).head? = some n then
        match phase with
        | .first => typeattributeToPolicydb D a
        | .second => typeattributeToBitmap B D a
        | _ => pure ()
      else pure ()
  | .typealias n x =>
      if (D.aliasNodes x).head? = some n then
        match phase with
        | .second => typealiasToPolicydb D x
        | _ => pure ()
      else pure ()
  | _ => other others phase (some d)

/-- The nodes below which `__cil_binary_create_helper` does not go; what is below a booleanif is
left to `cil_booleanif_to_policydb`. -/
def binarySkips (d : NodeData ω μ (Stmt τ α ι ξ)) : Bool := skipsHead d || d.kind.isBooleanif

/-- What `__cil_binary_create_helper` does with a node. -/
def binaryCreateHelper (others : Others ω μ τ α ι ξ β ρ) (phase : Phase)
    (d : NodeData ω μ (Stmt τ α ι ξ)) : Creating β ρ Unit :=
  if skipsHead d = true then pure () else nodeToPolicydb B D others phase d

/-- One walk of `cil_binary_create`. -/
def binaryWalk (others : Others ω μ τ α ι ξ β ρ) (phase : Phase)
    (ast : List (Tree (NodeData ω μ (Stmt τ α ι ξ)))) : Creating β ρ Unit :=
  processAll (binaryCreateHelper B D others phase) (walkSiblings binarySkips ast)

/-- `cil_binary_create`. -/
def binaryCreate (others : Others ω μ τ α ι ξ β ρ)
    (ast : List (Tree (NodeData ω μ (Stmt τ α ι ξ)))) : Creating β ρ Unit := do
  binaryWalk B D others .first ast
  binaryWalk B D others .second ast
  binaryWalk B D others .third ast
  other others .contexts none
  ensureMap B

end Create

end Cil.Binary.TypeAttrMap
