/- Cil/Post/Categories
   digest: The pass that evaluates category expressions to lists of categories. -/

import Cil.ExprMeaning
import Cil.Tree

set_option autoImplicit false
set_option relaxedAutoImplicit false

namespace Cil.Post.Categories

open Cil.Expr Cil.Library

/-- What a name in a category expression was resolved to, aliases followed. -/
inductive Datum (κ ς : Type)
  | cat (c : κ)
  | catset (s : ς)
  deriving DecidableEq, Repr

/-- The `cil_cats` of a categoryset, or of a level or a sensitivitycategory statement. -/
inductive CatsId (ς ι : Type)
  | set (s : ς)
  | own (i : ι)
  deriving DecidableEq, Repr

/-- `cil_cats`; `datumExpr` is none while null. -/
structure Cats (κ ς : Type) where
  evaluated : Bool
  datumExpr : Option (List (Item (Datum κ ς)))

/-- A resolved policy. The expression of the anonymous categoryset that a call was given is never
resolved, and null. -/
structure Policy (κ ς ι : Type) where
  catorder : List κ
  nodup : catorder.Nodup
  expr : CatsId ς ι → Option (List (Item (Datum κ ς)))
  formed : ∀ id e, expr id = some e → wellFormed true e = true
  filled : ∀ id e, expr id = some e → e ≠ []
  ordered : ∀ id e, expr id = some e → ∀ c, .cat c ∈ mentioned e → c ∈ catorder
  noSelfReference : ∀ s e, expr (.set s) = some e → .catset s ∉ mentioned e

section Evaluation

variable {β κ ς ι σ : Type} [DecidableEq κ] (B : Bitmap β) (P : Policy κ ς ι)

/-- The field `value` of a category, from `cil_set_cat_values`. -/
def Policy.value (c : κ) : Nat := P.catorder.idxOf c

def Policy.numCats : Nat := P.catorder.length

/-- `cil_verify_is_list`. -/
def verifyIsList : List (Item (Datum κ ς)) → Bool
  | [] => true
  | .list _ :: _ => false
  | .op _ :: _ => false
  | .datum (.catset _) :: _ => false
  | _ :: rest => verifyIsList rest

/-- The loop of `__cil_expr_range_to_bitmap_helper`. -/
def rangeLoop (low : Nat) : Nat → β
  | 0 => B.init
  | n + 1 => B.setBit (rangeLoop low n) (low + n)

/-- `__cil_expr_range_to_bitmap_helper`. -/
def exprRangeToBitmapHelper : Datum κ ς → Datum κ ς → Call Rc σ β
  | .cat c1, .cat c2 => pure (rangeLoop B (P.value c1) (P.value c2 + 1 - P.value c1))
  | _, _ => Call.fail .err

/-- The loop of `__cil_cat_to_bitmap`, which takes each item for a category. -/
def catLoop (bitmap : β) : List (Item (Datum κ ς)) → Call Rc σ β
  | [] => pure bitmap
  | .datum (.cat c) :: rest => catLoop (B.setBit bitmap (P.value c)) rest
  | _ :: _ => Call.crash

/-- The categories whose bits are set, null when there is none. -/
def newList (bitmap : β) : Option (List (Item (Datum κ ς))) :=
  match P.catorder.filter fun c => B.getBit bitmap (P.value c) with
  | [] => none
  | cats => some (cats.map fun c => .datum (.cat c))

variable [DecidableEq ς] [DecidableEq ι]

/-- The `cil_cats` of the policy. -/
abbrev State (κ ς ι : Type) := CatsId ς ι → Cats κ ς

/-- `__evaluate_cat_expression`. -/
def evaluateCatExpression (catToBitmap : Datum κ ς → Call Rc (State κ ς ι) β) (id : CatsId ς ι) :
    Call Rc (State κ ς ι) Unit := do
  let cats ← Call.get
  if (cats id).evaluated then pure ()
  else
    match (cats id).datumExpr with
    | none => Call.crash
    | some e =>
        if verifyIsList e then pure ()
        else do
          let bitmap ← exprToBitmap B P.numCats catToBitmap (some (exprRangeToBitmapHelper B P))
            B.init e
          Call.modify fun cats => Function.update cats id ⟨true, newList B P bitmap⟩

/-- `__cil_cat_to_bitmap`; out of fuel when categorysets nest deeper than `fuel`. -/
def catToBitmap : Nat → Datum κ ς → Call Rc (State κ ς ι) β
  | 0, _ => Call.outOfFuel
  | _ + 1, .cat c => pure (B.setBit B.init (P.value c))
  | fuel + 1, .catset s => do
      let cats ← Call.get
      if (cats (.set s)).evaluated then pure ()
      else evaluateCatExpression B P (catToBitmap fuel) (.set s)
      let cats ← Call.get
      match (cats (.set s)).datumExpr with
      | none => Call.crash
      | some items => catLoop B P B.init items

end Evaluation

section Nodes

variable {β κ ς ι : Type}

/-- `cil_level`; its categories are null when none are written. -/
structure Level (ι : Type) where
  cats : Option ι
  deriving DecidableEq, Repr

structure LevelRange (ι : Type) where
  low : Option (Level ι)
  high : Option (Level ι)
  deriving DecidableEq, Repr

structure Context (ι : Type) where
  range : LevelRange ι
  deriving DecidableEq, Repr

/-- A node of the resolved tree, as far as categories go. A user without userlevel or userrange
statement has null there. -/
inductive NodeData (ς ι : Type)
  | macroDef
  | block (isAbstract : Bool)
  | catset (s : ς)
  | senscat (cats : ι)
  | level (level : Level ι)
  | levelrange (range : LevelRange ι)
  | user (dftlevel : Option (Level ι)) (range : Option (LevelRange ι))
  | selinuxuserdefault (range : LevelRange ι)
  | selinuxuser (range : LevelRange ι)
  | rangetransition (range : LevelRange ι)
  | context (context : Context ι)
  | sidcontext (context : Context ι)
  | filecon (context : Option (Context ι))
  | portcon (context : Context ι)
  | nodecon (context : Context ι)
  | genfscon (context : Context ι)
  | netifcon (ifContext packetContext : Context ι)
  | pirqcon (context : Context ι)
  | iomemcon (context : Context ι)
  | ioportcon (context : Context ι)
  | pcidevicecon (context : Context ι)
  | fsuse (context : Context ι)
  | other
  deriving DecidableEq, Repr

/-- The nodes whose children are not visited. -/
def NodeData.skipHead : NodeData ς ι → Bool
  | .macroDef => true
  | .block isAbstract => isAbstract
  | _ => false

end Nodes

section Pass

variable {β κ ς ι : Type} [DecidableEq κ] [DecidableEq ς] [DecidableEq ι] (B : Bitmap β)
  (P : Policy κ ς ι) (fuel : Nat)

/-- `__evaluate_cat_expression` on what a pointer to a level points to. -/
def evaluateCats (id : CatsId ς ι) : Call Rc (State κ ς ι) Unit :=
  evaluateCatExpression B P (catToBitmap B P fuel) id

/-- `__evaluate_level_expression`. -/
def evaluateLevelExpression : Option (Level ι) → Call Rc (State κ ς ι) Unit
  | none => Call.crash
  | some level =>
      match level.cats with
      | some i => evaluateCats B P fuel (.own i)
      | none => pure ()

/-- One of the two parts of `__evaluate_levelrange_expression`. -/
def evaluateEnd (level : Option (Level ι)) : Call Rc (State κ ς ι) Unit :=
  match level.bind Level.cats with
  | some i => evaluateCats B P fuel (.own i)
  | none => pure ()

/-- `__evaluate_levelrange_expression`. -/
def evaluateLevelrangeExpression : Option (LevelRange ι) → Call Rc (State κ ς ι) Unit
  | none => Call.crash
  | some range => do
      evaluateEnd B P fuel range.low
      evaluateEnd B P fuel range.high

/-- The range of a context. -/
def evaluateContext (context : Context ι) : Call Rc (State κ ς ι) Unit :=
  evaluateLevelrangeExpression B P fuel (some context.range)

/-- `__cil_post_db_cat_helper`. -/
def postDbCatHelper : NodeData ς ι → Call Rc (State κ ς ι) Unit
  | .macroDef => pure ()
  | .block _ => pure ()
  | .catset s => evaluateCats B P fuel (.set s)
  | .senscat i => evaluateCats B P fuel (.own i)
  | .level level => evaluateLevelExpression B P fuel (some level)
  | .levelrange range => evaluateLevelrangeExpression B P fuel (some range)
  | .user dftlevel range => do
      evaluateLevelExpression B P fuel dftlevel
      evaluateLevelrangeExpression B P fuel range
  | .selinuxuserdefault range => evaluateLevelrangeExpression B P fuel (some range)
  | .selinuxuser range => evaluateLevelrangeExpression B P fuel (some range)
  | .rangetransition range => evaluateLevelrangeExpression B P fuel (some range)
  | .context context => evaluateContext B P fuel context
  | .sidcontext context => evaluateContext B P fuel context
  | .filecon none => pure ()
  | .filecon (some context) => evaluateContext B P fuel context
  | .portcon context => evaluateContext B P fuel context
  | .nodecon context => evaluateContext B P fuel context
  | .genfscon context => evaluateContext B P fuel context
  | .netifcon ifContext packetContext => do
      evaluateContext B P fuel ifContext
      evaluateContext B P fuel packetContext
  | .pirqcon context => evaluateContext B P fuel context
  | .iomemcon context => evaluateContext B P fuel context
  | .ioportcon context => evaluateContext B P fuel context
  | .pcidevicecon context => evaluateContext B P fuel context
  | .fsuse context => evaluateContext B P fuel context
  | .other => pure ()

/-- The category pass of `cil_post_db`. -/
def postDbCat (ast : Tree (NodeData ς ι)) : Call Rc (State κ ς ι) Unit :=
  processAll (postDbCatHelper B P fuel) (ast.walk NodeData.skipHead)

/-- The `cil_cats` as resolution leaves them. -/
def Policy.initial : State κ ς ι := fun id => ⟨false, P.expr id⟩

end Pass

end Cil.Post.Categories
