/- Cil/Copy/Statements
   digest: Which fields the builder fills of each statement, and which its copy function copies. -/

import Cil.Copy.Declarations
import Cil.Copy.Parts

/-!
The functions `cil_gen_` and `cil_copy_` of a statement appear as the fields that they fill.
-/

set_option autoImplicit false
set_option relaxedAutoImplicit false

namespace Cil.Copy.Statements

/-- The flavors of the nodes that the builder makes. -/
inductive Kind
  | decl (flavor : Flavor)
  | avrule | blockabstract | blockinherit | booleanif | call | cataliasactual | catorder
  | classcommon | classmapping | classorder | classpermissionset | condblock (ofTunableif : Bool)
  | constrain | defaultrange | defaultrole | defaulttype | defaultuser | filecon | fsuse
  | genfscon | handleunknown | inStmt | iomemcon | ioportcon | mls | mlsconstrain
  | mlsvalidatetrans | nametypetransition | netifcon | nodecon | pcidevicecon | pirqcon | portcon
  | rangetransition | roleallow | roleattributeset | rolebounds | roletransition | roletype
  | selinuxuser | selinuxuserdefault | sensaliasactual | senscat | sensitivityorder | sidcontext
  | sidorder | tunableif | typealiasactual | typeattributeset | typebounds | typepermissive
  | typeRule | userbounds | userlevel | userprefixStmt | userrange | userrole | validatetrans
  deriving DecidableEq, Repr

section Builders

def genAliasactual : List Field := [.aliasStr, .actualStr]
def genAvrule : List Field := [.ruleKind, .srcStr, .tgtStr, .classperms]
def genBlockabstract : List Field := [.blockStr]
def genBlockinherit : List Field := [.blockStr]
def genBool : List Field := [.value]
def genBoolif : List Field := [.strExpr, .preservedTunable]
def genBounds : List Field := [.parentStr, .childStr]
def genCall : List Field := [.macroStr, .argsTree]
def genCatorder : List Field := [.catListStr]
def genCatset : List Field := [.cats]
def genClass : List Field := [.numPerms]
def genClasscommon : List Field := [.classStr, .commonStr]
def genClassmapping : List Field := [.mapClassStr, .mapPermStr, .classperms]
def genClassorder : List Field := [.classListStr]
def genClasspermissionset : List Field := [.setStr, .classperms]
def genCommon : List Field := [.numPerms]
def genCondblock : List Field := [.flavor]
def genConstrain : List Field := [.classperms, .strExpr]
def genContext : List Field := fillContext
def genDefault : List Field := [.flavor, .classStrs, .object]
def genDefaultrange : List Field := [.classStrs, .objectRange]
def genFilecon : List Field := [.pathStr, .fileType, .context]
def genFsuse : List Field := [.fsuseType, .fsStr, .context]
def genGenfscon : List Field := [.fsStr, .pathStr, .context]
def genHandleunknown : List Field := [.handleUnknown]
def genIn : List Field := [.blockStr]
def genIomemcon : List Field := [.iomemLow, .iomemHigh, .context]
def genIoportcon : List Field := [.ioportLow, .ioportHigh, .context]
def genIpaddr : List Field := fillIpaddr
def genLevel : List Field := fillLevel
def genLevelrange : List Field := fillLevelrange
def genMacro : List Field := [.params]
def genMapClass : List Field := [.numPerms]
def genMls : List Field := [.value]
def genNametypetransition : List Field := [.srcStr, .tgtStr, .objStr, .nameStr, .resultStr]
def genNetifcon : List Field := [.interfaceStr, .ifContext, .packetContext]
def genNodecon : List Field := [.addr, .mask, .context]
def genPcidevicecon : List Field := [.dev, .context]
def genPerm : List Field := [.value]
def genPirqcon : List Field := [.pirq, .context]
def genPortcon : List Field := [.proto, .portLow, .portHigh, .context]
def genRangetransition : List Field := [.srcStr, .execStr, .objStr, .range]
def genRoleallow : List Field := [.srcStr, .tgtStr]
def genRoleattributeset : List Field := [.attrStr, .strExpr]
def genRoletransition : List Field := [.srcStr, .tgtStr, .objStr, .resultStr]
def genRoletype : List Field := [.roleStr, .typeStr]
def genSelinuxuser : List Field := [.nameStr, .userStr, .range]
def genSelinuxuserdefault : List Field := [.nameStr, .userStr, .range]
def genSenscat : List Field := [.sensStr, .cats]
def genSensitivityorder : List Field := [.sensListStr]
def genSidcontext : List Field := [.sidStr, .context]
def genSidorder : List Field := [.sidListStr]
def genTunable : List Field := [.value]
def genTunif : List Field := [.strExpr]
def genTypeattributeset : List Field := [.attrStr, .strExpr]
def genTypepermissive : List Field := [.typeStr]
def genTypeRule : List Field := [.ruleKind, .srcStr, .tgtStr, .objStr, .resultStr]
def genUserlevel : List Field := [.userStr, .level]
def genUserprefix : List Field := [.userStr, .prefixStr]
def genUserrange : List Field := [.userStr, .range]
def genUserrole : List Field := [.userStr, .roleStr]
def genValidatetrans : List Field := [.classStr, .strExpr]

/-- The fields that the builder fills of a declaration, besides its name. -/
def genDeclaration : Flavor → List Field
  | .bool => genBool
  | .catset => genCatset
  | .common => genCommon
  | .context => genContext
  | .ipaddr => genIpaddr
  | .kernelClass => genClass
  | .level => genLevel
  | .levelrange => genLevelrange
  | .macroDef => genMacro
  | .mapClass => genMapClass
  | .perm | .mapPerm => genPerm
  | .tunable => genTunable
  | _ => []

/-- The fields that the builder fills of a statement. -/
def genFields : Kind → List Field
  | .decl flavor => genDeclaration flavor
  | .avrule => genAvrule
  | .blockabstract => genBlockabstract
  | .blockinherit => genBlockinherit
  | .booleanif => genBoolif
  | .call => genCall
  | .cataliasactual | .sensaliasactual | .typealiasactual => genAliasactual
  | .catorder => genCatorder
  | .classcommon => genClasscommon
  | .classmapping => genClassmapping
  | .classorder => genClassorder
  | .classpermissionset => genClasspermissionset
  | .condblock _ => genCondblock
  | .constrain | .mlsconstrain => genConstrain
  | .defaultrange => genDefaultrange
  | .defaultrole | .defaulttype | .defaultuser => genDefault
  | .filecon => genFilecon
  | .fsuse => genFsuse
  | .genfscon => genGenfscon
  | .handleunknown => genHandleunknown
  | .inStmt => genIn
  | .iomemcon => genIomemcon
  | .ioportcon => genIoportcon
  | .mls => genMls
  | .nametypetransition => genNametypetransition
  | .netifcon => genNetifcon
  | .nodecon => genNodecon
  | .pcidevicecon => genPcidevicecon
  | .pirqcon => genPirqcon
  | .portcon => genPortcon
  | .rangetransition => genRangetransition
  | .roleallow => genRoleallow
  | .roleattributeset => genRoleattributeset
  | .rolebounds | .typebounds | .userbounds => genBounds
  | .roletransition => genRoletransition
  | .roletype => genRoletype
  | .selinuxuser => genSelinuxuser
  | .selinuxuserdefault => genSelinuxuserdefault
  | .senscat => genSenscat
  | .sensitivityorder => genSensitivityorder
  | .sidcontext => genSidcontext
  | .sidorder => genSidorder
  | .tunableif => genTunif
  | .typeattributeset => genTypeattributeset
  | .typepermissive => genTypepermissive
  | .typeRule => genTypeRule
  | .userlevel => genUserlevel
  | .userprefixStmt => genUserprefix
  | .userrange => genUserrange
  | .userrole => genUserrole
  | .validatetrans | .mlsvalidatetrans => genValidatetrans

/-- What the passes before a copy fill. -/
def resolvedFields : Kind → List Field
  | .blockinherit => [.block]
  | .call => [.callee, .copied]
  | _ => []

end Builders

section CopyFunctions

/-- A copy function: the fields that it copies, or that it writes to a struct that is not
there. -/
inductive CopyFunc
  | fields (fs : List Field)
  | nullWrite

def copyAliasactual : CopyFunc := .fields [.aliasStr, .actualStr]
def copyAvrule : CopyFunc := .fields [.ruleKind, .srcStr, .tgtStr, .classperms]
def copyBlockabstract : CopyFunc := .fields [.blockStr]
def copyBlockinherit : CopyFunc := .fields [.blockStr, .block]
def copyBool : CopyFunc := .fields [.value]
def copyBoolif : CopyFunc := .fields [.strExpr, .preservedTunable]
def copyBounds : CopyFunc := .fields [.parentStr, .childStr]
def copyCall : CopyFunc := .fields [.macroStr, .callee, .argsTree, .copied]
def copyCatorder : CopyFunc := .fields [.catListStr]
def copyCatset : CopyFunc := .fields [.cats]
/-- Also for commons and class maps; `num_perms` is left out. -/
def copyClass : CopyFunc := .fields []
def copyClasscommon : CopyFunc := .fields [.classStr, .commonStr]
def copyClassmapping : CopyFunc := .fields [.mapClassStr, .mapPermStr, .classperms]
def copyClassorder : CopyFunc := .fields [.classListStr]
def copyClasspermissionset : CopyFunc := .nullWrite
def copyCondblock : CopyFunc := .fields [.flavor]
def copyConstrain : CopyFunc := .fields [.classperms, .strExpr]
def copyContext : CopyFunc := .fields copyFillContext
def copyDefault : CopyFunc := .fields [.flavor, .classStrs, .object]
def copyDefaultrange : CopyFunc := .fields [.classStrs, .objectRange]
def copyFilecon : CopyFunc := .fields [.pathStr, .fileType, .context]
def copyFsuse : CopyFunc := .fields [.fsuseType, .fsStr, .context]
def copyGenfscon : CopyFunc := .fields [.fsStr, .pathStr, .context]
def copyHandleunknown : CopyFunc := .fields [.handleUnknown]
def copyIomemcon : CopyFunc := .fields [.iomemLow, .iomemHigh, .context]
def copyIoportcon : CopyFunc := .fields [.ioportLow, .ioportHigh, .context]
def copyIpaddr : CopyFunc := .fields copyFillIpaddr
def copyLevel : CopyFunc := .fields copyFillLevel
def copyLevelrange : CopyFunc := .fields copyFillLevelrange
def copyMacro : CopyFunc := .fields [.params]
def copyMls : CopyFunc := .fields [.value]
def copyNametypetransition : CopyFunc := .fields [.srcStr, .tgtStr, .objStr, .nameStr, .resultStr]
def copyNetifcon : CopyFunc := .fields [.interfaceStr, .ifContext, .packetContext]
def copyNodecon : CopyFunc := .fields [.addr, .mask, .context]
def copyPcidevicecon : CopyFunc := .fields [.dev, .context]
/-- `value` is left out. -/
def copyPerm : CopyFunc := .fields []
def copyPirqcon : CopyFunc := .fields [.pirq, .context]
def copyPortcon : CopyFunc := .fields [.proto, .portLow, .portHigh, .context]
def copyRangetransition : CopyFunc := .fields [.srcStr, .execStr, .objStr, .range]
def copyRoleallow : CopyFunc := .fields [.srcStr, .tgtStr]
def copyRoleattributeset : CopyFunc := .fields [.attrStr, .strExpr]
def copyRoletransition : CopyFunc := .fields [.srcStr, .tgtStr, .objStr, .resultStr]
def copyRoletype : CopyFunc := .fields [.roleStr, .typeStr]
def copySenscat : CopyFunc := .fields [.sensStr, .cats]
def copySensitivityorder : CopyFunc := .fields [.sensListStr]
/-- `sid_str` is left out. -/
def copySidcontext : CopyFunc := .fields [.context]
def copySidorder : CopyFunc := .fields [.sidListStr]
def copyTunable : CopyFunc := .fields [.value]
def copyTunif : CopyFunc := .fields [.strExpr]
def copyTypeattributeset : CopyFunc := .fields [.attrStr, .strExpr]
def copyTypepermissive : CopyFunc := .fields [.typeStr]
def copyTypeRule : CopyFunc := .fields [.ruleKind, .srcStr, .tgtStr, .objStr, .resultStr]
def copyUserlevel : CopyFunc := .fields [.userStr, .level]
def copyUserprefix : CopyFunc := .fields [.userStr, .prefixStr]
def copyUserrange : CopyFunc := .fields [.userStr, .range]
def copyUserrole : CopyFunc := .fields [.userStr, .roleStr]
def copyValidatetrans : CopyFunc := .fields [.classStr, .strExpr]

/-- What the copy functions of declarations copy into a new datum. -/
def copyDeclaration : Flavor → CopyFunc
  | .bool => copyBool
  | .catset => copyCatset
  | .common | .kernelClass | .mapClass => copyClass
  | .context => copyContext
  | .ipaddr => copyIpaddr
  | .level => copyLevel
  | .levelrange => copyLevelrange
  | .macroDef => copyMacro
  | .perm | .mapPerm => copyPerm
  | .tunable => copyTunable
  | _ => .fields []

/-- The dispatch in `__cil_copy_node_helper`; `none` is its default. -/
def copyFunc : Kind → Option CopyFunc
  | .decl flavor => some (copyDeclaration flavor)
  | .avrule => some copyAvrule
  | .blockabstract => some copyBlockabstract
  | .blockinherit => some copyBlockinherit
  | .booleanif => some copyBoolif
  | .call => some copyCall
  | .cataliasactual | .sensaliasactual | .typealiasactual => some copyAliasactual
  | .catorder => some copyCatorder
  | .classcommon => some copyClasscommon
  | .classmapping => some copyClassmapping
  | .classorder => some copyClassorder
  | .classpermissionset => some copyClasspermissionset
  | .condblock _ => some copyCondblock
  | .constrain | .mlsconstrain => some copyConstrain
  | .defaultrange => some copyDefaultrange
  | .defaultrole | .defaulttype | .defaultuser => some copyDefault
  | .filecon => some copyFilecon
  | .fsuse => some copyFsuse
  | .genfscon => some copyGenfscon
  | .handleunknown => some copyHandleunknown
  | .iomemcon => some copyIomemcon
  | .ioportcon => some copyIoportcon
  | .mls => some copyMls
  | .nametypetransition => some copyNametypetransition
  | .netifcon => some copyNetifcon
  | .nodecon => some copyNodecon
  | .pcidevicecon => some copyPcidevicecon
  | .pirqcon => some copyPirqcon
  | .portcon => some copyPortcon
  | .rangetransition => some copyRangetransition
  | .roleallow => some copyRoleallow
  | .roleattributeset => some copyRoleattributeset
  | .rolebounds | .typebounds | .userbounds => some copyBounds
  | .roletransition => some copyRoletransition
  | .roletype => some copyRoletype
  | .senscat => some copySenscat
  | .sensitivityorder => some copySensitivityorder
  | .sidcontext => some copySidcontext
  | .sidorder => some copySidorder
  | .tunableif => some copyTunif
  | .typeattributeset => some copyTypeattributeset
  | .typepermissive => some copyTypepermissive
  | .typeRule => some copyTypeRule
  | .userlevel => some copyUserlevel
  | .userprefixStmt => some copyUserprefix
  | .userrange => some copyUserrange
  | .userrole => some copyUserrole
  | .validatetrans | .mlsvalidatetrans => some copyValidatetrans
  | .inStmt | .selinuxuser | .selinuxuserdefault => none

end CopyFunctions

/-- A node of the tree: `name` is that of a declaration, `data` the number of the datum or of
the struct. -/
structure Stmt where
  kind : Kind
  name : String
  data : Nat
  fields : List Part

namespace Stmt

def has (st : Stmt) (f : Field) : Bool := st.fields.any fun p => p.field = f

/-- The parameters in the list of a macro. -/
def paramOf : Part → Option Param
  | .node _ [.node ⟨.str, .str s⟩ _, .node ⟨.flavor, .flavor f⟩ _] => some ⟨f, s⟩
  | _ => none

def params (st : Stmt) : List Param :=
  match st.fields with
  | [.node ⟨.params, .list _⟩ items] => items.filterMap paramOf
  | _ => []

def decl (st : Stmt) (flavor : Flavor) : Decl := ⟨flavor, st.name, st.params⟩

end Stmt

/-- The symbol tables and data, what stands in each datum, and the first number of a list or
struct not in use. -/
structure State where
  sym : Copy.State
  contents : Nat → List Part
  fresh : Nat

section Copying

variable (s : State) (dest : Dest) (orig : Stmt)

/-- The part of `__cil_copy_node_helper` on a declaration: what is copied into a datum that
was there is left out. -/
def copyDeclNode (flavor : Flavor) : Except Stop (Stmt × State) :=
  match copyDecl s.sym dest (orig.decl flavor) with
  | .error stop => .error stop
  | .ok (id, sym) =>
      if id = s.sym.next then
        match copyDeclaration flavor with
        | .nullWrite => .error .nullDereference
        | .fields fs =>
            match copyParts (fun f => fs.contains f) orig.fields s.fresh with
            | none => .error .nullDereference
            | some (parts, fresh) =>
                .ok (⟨.decl flavor, orig.name, id, parts⟩,
                  { sym := sym, contents := Function.update s.contents id parts, fresh := fresh })
      else .ok (⟨.decl flavor, orig.name, id, s.contents id⟩, { s with sym := sym })

/-- The part on other statements. A copied blockinherit is entered in the `bi_nodes` of its
block. -/
def copyOther : Except Stop (Stmt × State) :=
  match copyFunc orig.kind with
  | none => .error .err
  | some .nullWrite => .error .nullDereference
  | some (.fields fs) =>
      match copyParts (fun f => fs.contains f) orig.fields (s.fresh + 1) with
      | none => .error .nullDereference
      | some (parts, fresh) =>
          let new : Stmt := ⟨orig.kind, orig.name, s.fresh, parts⟩
          if orig.kind = .blockinherit ∧ new.has .block = false then .error .nullDereference
          else .ok (new, { s with fresh := fresh })

/-- `__cil_copy_node_helper`. -/
def copyStmt : Except Stop (Stmt × State) :=
  match orig.kind with
  | .decl flavor => copyDeclNode s dest orig flavor
  | _ => copyOther s orig

/-- Where the children of a copied statement go. -/
def destBelow (new : Stmt) : Dest × State :=
  match new.kind with
  | .decl flavor => (dest.below s.sym flavor new.data, s)
  | .condblock ofTunableif =>
      let (dest', sym) := Copy.copyCondblock s.sym dest ofTunableif
      (dest', { s with sym := sym })
  | _ => ({ dest with perms := none }, s)

end Copying

mutual

/-- `cil_copy_ast`. -/
def copySiblings (dest : Dest) : List (Tree Stmt) → State → Except Stop (List (Tree Stmt) × State)
  | [], s => .ok ([], s)
  | t :: ts, s =>
      match copyNode dest t s with
      | .error stop => .error stop
      | .ok (t', s₁) =>
          match copySiblings dest ts s₁ with
          | .error stop => .error stop
          | .ok (ts', s₂) => .ok (t' :: ts', s₂)

def copyNode (dest : Dest) : Tree Stmt → State → Except Stop (Tree Stmt × State)
  | .node orig children, s =>
      match copyStmt s dest orig with
      | .error stop => .error stop
      | .ok (new, s₁) =>
          match copySiblings (destBelow s₁ dest new).1 children (destBelow s₁ dest new).2 with
          | .error stop => .error stop
          | .ok (children', s₂) => .ok (.node new children', s₂)

end

end Cil.Copy.Statements
