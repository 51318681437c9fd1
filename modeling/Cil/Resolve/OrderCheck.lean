/- Cil/Resolve/OrderCheck
   digest: The order lists gathered in a pass are merged and checked when it ends. -/

import Cil.Tree
import Cil.Resolve.OrderedListsMarks

/-!
The end of the pass `CIL_PASS_MISC1`. The walk of the pass has gathered the resolved order
statements; an optional whose statements do not all resolve is emptied when the walk leaves
it, after what stood in it has been gathered. The marks of declarations that are freed with
an optional are what their memory holds, which is left open; so are those of a category or a
sensitivity that the copier has put over the datum of an alias or a category set.
-/

set_option autoImplicit false
set_option relaxedAutoImplicit false

namespace Cil.Resolve.OrderCheck

open Cil.Resolve.OrderedLists

/-- The kinds of declarations with an order statement. -/
inductive Kind
  | sid | kernelClass | cat | sens
  deriving DecidableEq, Repr

/-- A node as the walk of the pass leaves it. -/
inductive NodeData (δ : Type)
  | block (isAbstract : Bool)
  | macroDef
  | optional (enabled : Bool)
  | decl (kind : Kind) (datum : δ)
  | mapClass (datum : δ)
  | sensalias (datum : δ)
  | catalias (datum : δ)
  | catset (datum : δ)
  /-- An order statement with the declarations it names, when they all resolve. -/
  | order (kind : Kind) (list : Option (List δ))
  | other

variable {δ : Type}

namespace NodeData

/-- Where the walks of `cil_resolve_ast` set `CIL_TREE_SKIP_HEAD` in this pass. -/
def skipHead : NodeData δ → Bool
  | .block isAbstract => isAbstract
  | .macroDef => true
  | _ => false

def disabled : NodeData δ → Bool
  | .optional enabled => !enabled
  | _ => false

/-- The list an order statement of a kind contributes. -/
def orderList (kind : Kind) : NodeData δ → Option (List δ)
  | .order k list => if k = kind then list else none
  | _ => none

/-- What a node declares for a kind of order statement. -/
def declares (kind : Kind) : NodeData δ → Option δ
  | .decl k datum => if k = kind then some datum else none
  | _ => none

/-- What a node declares of another kind, over which one of a kind may be copied. -/
def foreign : Kind → NodeData δ → Option δ
  | .sens, .sensalias datum => some datum
  | .cat, .catalias datum => some datum
  | .cat, .catset datum => some datum
  | _, _ => none

end NodeData

mutual

/-- The removals of `__cil_resolve_ast_last_child_helper` below a list of siblings. -/
def pruneSiblings : List (Tree (NodeData δ)) → List (Tree (NodeData δ))
  | [] => []
  | t :: ts => pruneNode t :: pruneSiblings ts

def pruneNode : Tree (NodeData δ) → Tree (NodeData δ)
  | .node data children =>
      .node data <|
        if data.skipHead then children
        else if data.disabled then []
        else pruneSiblings children

end

mutual

/-- Whether one of the removals sets `changed`; an optional without children is never left. -/
def changesSiblings : List (Tree (NodeData δ)) → Bool
  | [] => false
  | t :: ts => changesNode t || changesSiblings ts

def changesNode : Tree (NodeData δ) → Bool
  | .node data children =>
      !data.skipHead && (data.disabled && !children.isEmpty || changesSiblings children)

end

/-- The tree the pass leaves behind. -/
def prune : Tree (NodeData δ) → Tree (NodeData δ)
  | .node data children => .node data (pruneSiblings children)

def changed : Tree (NodeData δ) → Bool
  | .node _ children => changesSiblings children

/-- The order lists of a kind that the walk gathers. -/
def gathered (ast : Tree (NodeData δ)) (kind : Kind) : List (List δ) :=
  (ast.walk NodeData.skipHead).filterMap (NodeData.orderList kind)

/-- The declarations of a kind anywhere in the tree, also in macros and abstract blocks. -/
def declared (ast : Tree (NodeData δ)) (kind : Kind) : List δ :=
  (ast.walk fun _ => false).filterMap (NodeData.declares kind)

/-- The declarations of a kind outside macros and abstract blocks. -/
def outside (ast : Tree (NodeData δ)) (kind : Kind) : List δ :=
  (ast.walk NodeData.skipHead).filterMap (NodeData.declares kind)

/-- The data of another kind in the symbol tables of a kind. -/
def foreign (ast : Tree (NodeData δ)) (kind : Kind) : List δ :=
  (ast.walk fun _ => false).filterMap (NodeData.foreign kind)

/-- The state in which the end of the pass begins, with the `ordered` fields of all data.
They are clear in the declarations of the tree that have a datum of their kind; a reset passes
over map classes, which a `classorder` statement may name as well. -/
structure State (δ : Type) where
  ast : Tree (NodeData δ)
  ordered : Kind → δ → Bool
  fresh : ∀ kind d, ordered kind d = true → d ∈ foreign ast kind ∨
    d ∉ declared (prune ast) kind ∧ (d ∈ declared ast kind ∨
      kind = .kernelClass ∧ NodeData.mapClass d ∈ ast.walk (fun _ => false))

/-- The composite lists and category values in `cil_db`; `none` is a NULL list. -/
structure Db (δ : Type) where
  sidorder : Option (List δ)
  classorder : Option (List δ)
  catorder : Option (List δ)
  sensitivityorder : Option (List δ)
  catValue : δ → Option Nat
  numCats : Nat

variable [DecidableEq δ]

/-- `cil_set_cat_values`: the values and their number. -/
def setCatValues : Option (List δ) → Except Stop ((δ → Option Nat) × Nat)
  | none => .error .nullDereference
  | some cats => .ok (fun d => if d ∈ cats then some (cats.idxOf d) else none, cats.length)

omit [DecidableEq δ] in
/-- `__cil_verify_ordered`. -/
def verifyOrdered (ast : Tree (NodeData δ)) (ordered : Kind → δ → Bool) (kind : Kind) :
    Except Stop Unit :=
  if (declared ast kind).all (ordered kind) then .ok () else .error .err

/-- The marks after the merge of one kind. -/
def State.marks (s : State δ) (kind : Kind) : δ → Bool :=
  (orderedListsMergeAll (s.ordered kind) (gathered s.ast kind)).2

/-- The composite list of one kind. -/
def State.composite (s : State δ) (kind : Kind) : Option (List δ) :=
  (orderedListsMergeAll (s.ordered kind) (gathered s.ast kind)).1

/-- What `cil_resolve_ast` does between the walk of the pass and the test of `changed`. -/
def misc1End (s : State δ) : Except Stop (Db δ) := do
  let (catValue, numCats) ← setCatValues (s.composite .cat)
  verifyOrdered (prune s.ast) s.marks .sid
  verifyOrdered (prune s.ast) s.marks .kernelClass
  verifyOrdered (prune s.ast) s.marks .cat
  verifyOrdered (prune s.ast) s.marks .sens
  return {
    sidorder := s.composite .sid
    classorder := s.composite .kernelClass
    catorder := s.composite .cat
    sensitivityorder := s.composite .sens
    catValue
    numCats }

omit [DecidableEq δ] in
/-- `__cil_verify_initsids` after the last pass; `context` tells which SIDs have one. -/
def verifyInitsids (context : δ → Bool) : Option (List δ) → Except Stop Unit
  | none => .error .nullDereference
  | some [] => .error .err
  | some sids => if sids.all context then .ok () else .error .err

end Cil.Resolve.OrderCheck
