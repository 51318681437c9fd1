/- Cil/Build/Conditional
   digest: The build of booleanif and tunableif statements. -/

import Cil.Build.Expr

set_option autoImplicit false
set_option relaxedAutoImplicit false

namespace Cil.Build

open Cil.Expr

/-- The head of a conditional block, true for `CIL_KEY_CONDTRUE`. -/
def condFlavor : ParseNode → Option Bool
  | .list (.string s :: _) =>
      if s = "true" then some true else if s = "false" then some false else none
  | _ => none

def conditionalSyntax : List Syn :=
  [stringSyn, operandSyn, { list := true }, { list := true, stop := true }, endSyn]

/-- What `cil_gen_boolif` and `cil_gen_tunif` do with a statement: they read its expression and
leave its blocks, with their flavors, to the walk. -/
def genConditional (flavor : ExprFlavor) (statement : List ParseNode) :
    Option (List (Item String) × List Bool) :=
  if verifySyntax conditionalSyntax statement then
    match statement with
    | _ :: expr :: cond :: rest => do
        let strExpr ← genExpr flavor expr
        let first ← condFlavor cond
        match rest with
        | [] => pure (strExpr, [first])
        | next :: _ => do
            let second ← condFlavor next
            pure (strExpr, [first, second])
    | _ => none
  else none

/-- `cil_gen_boolif`. -/
def genBoolif (statement : List ParseNode) : Option (List (Item String) × List Bool) :=
  genConditional .bool statement

/-- `cil_gen_tunif`. -/
def genTunif (statement : List ParseNode) : Option (List (Item String) × List Bool) :=
  genConditional .tunable statement

/-- Expressions over booleans and over tunables have one shape. -/
theorem shaped_tunable {δ : Type} (l : List (Item δ)) :
    shaped .tunable l = shaped .bool l := by
  have hoperands : ∀ o, operands .tunable o = operands .bool o := by
    intro o
    cases o <;> rfl
  refine shaped.induct (fun l => shaped .tunable l = shaped .bool l)
    (fun i => shapedItem .tunable i = shapedItem .bool i)
    (fun l => shapedItems .tunable l = shapedItems .bool l)
    ?datum ?list ?other ?empty ?op ?plain ?nil ?cons l
  case datum =>
    intro d
    rw [shapedItem, shapedItem]
  case list =>
    intro l ih
    rw [shapedItem, shapedItem, ih]
  case other =>
    intro i hdatum hlist
    rw [shapedItem, shapedItem]
    · exact hdatum
    · exact hlist
    · exact hdatum
    · exact hlist
  case empty => rw [shaped, shaped]
  case op =>
    intro o rest ih
    rw [shaped, shaped, ih, hoperands]
  case plain =>
    intro i rest hop hi hrest
    rw [shaped, shaped, hi, hrest]
    · exact hop
    · exact hop
  case nil => rw [shapedItems, shapedItems]
  case cons =>
    intro i rest hi hrest
    rw [shapedItems, shapedItems, hi, hrest]

end Cil.Build
