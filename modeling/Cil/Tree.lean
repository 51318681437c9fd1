/- Cil/Tree
   digest: The syntax tree and the nodes that a tree walk visits. -/

import Cil.Basic
import Cil.Library.Lasting
import Cil.Library.Gains

set_option autoImplicit false
set_option relaxedAutoImplicit false

namespace Cil

/-- A tree of nodes with their children in order. -/
inductive Tree (π : Type)
  | node (data : π) (children : List (Tree π))

variable {π : Type}

mutual

/-- The nodes below a list of siblings in the order `cil_tree_walk` processes them, when
the processing function sets `CIL_TREE_SKIP_HEAD` on the nodes that satisfy `skip`. -/
def walkSiblings (skip : π → Bool) : List (Tree π) → List π
  | [] => []
  | t :: ts => walkNode skip t ++ walkSiblings skip ts

def walkNode (skip : π → Bool) : Tree π → List π
  | .node data children =>
      data :: if skip data then [] else walkSiblings skip children

end

/-- `cil_tree_walk`: it processes what is below a node, not the node itself. -/
def Tree.walk (skip : π → Bool) : Tree π → List π
  | .node _ children => walkSiblings skip children

mutual

/-- The nodes below a list of siblings, each with the nodes above it, outermost first. -/
def nodesOfSiblings (above : List π) : List (Tree π) → List (List π × π)
  | [] => []
  | t :: ts => nodesOfNode above t ++ nodesOfSiblings above ts

def nodesOfNode (above : List π) : Tree π → List (List π × π)
  | .node data children => (above, data) :: nodesOfSiblings (above ++ [data]) children

end

/-- All nodes below the root, with the nodes between the root and them. -/
def Tree.nodes : Tree π → List (List π × π)
  | .node _ children => nodesOfSiblings [] children

/-- Below nodes none of which is skipped, a walk visits what has no skipped node above it. -/
private theorem walkSiblings_eq (skip : π → Bool) (ts : List (Tree π)) (above : List π) :
    ((nodesOfSiblings above ts).filter fun n => !n.1.any skip).map Prod.snd =
      if above.any skip then [] else walkSiblings skip ts := by
  refine walkSiblings.induct
    (fun ts => ∀ above,
      ((nodesOfSiblings above ts).filter fun n => !n.1.any skip).map Prod.snd =
        if above.any skip then [] else walkSiblings skip ts)
    (fun t => ∀ above,
      ((nodesOfNode above t).filter fun n => !n.1.any skip).map Prod.snd =
        if above.any skip then [] else walkNode skip t)
    ?node ?nil ?cons ts above
  case node =>
    intro data children ih above
    have hbelow := ih (above ++ [data])
    simp only [List.any_append, List.any_cons, List.any_nil, Bool.or_false] at hbelow
    rw [nodesOfNode, walkNode, List.filter_cons]
    by_cases habove : above.any skip = true
    · simp only [habove, Bool.true_or, if_true, Bool.not_true, Bool.false_eq_true, if_false]
        at hbelow ⊢
      exact hbelow
    · simp only [Bool.not_eq_true] at habove
      simp only [habove, Bool.false_or, Bool.false_eq_true, if_false, Bool.not_false, if_true]
        at hbelow ⊢
      rw [List.map_cons, hbelow]
  case nil =>
    intro above
    simp [nodesOfSiblings, walkSiblings]
  case cons =>
    intro t ts iht ihts above
    rw [nodesOfSiblings, walkSiblings, List.filter_append, List.map_append, iht, ihts]
    cases above.any skip <;> rfl

/-- A walk visits the nodes that have no skipped node above them. -/
theorem Tree.walk_eq (skip : π → Bool) (ast : Tree π) :
    ast.walk skip = (ast.nodes.filter fun n => !n.1.any skip).map Prod.snd := by
  cases ast with
  | node data children =>
    rw [Tree.nodes, walkSiblings_eq]
    rfl

theorem Tree.mem_walk {skip : π → Bool} {ast : Tree π} {d : π} :
    d ∈ ast.walk skip ↔ ∃ above, (above, d) ∈ ast.nodes ∧ ∀ a ∈ above, skip a = false := by
  rw [Tree.walk_eq]
  simp

/-- Runs a processing function over the visited nodes until one fails; `none` when a call
runs out of fuel. -/
def process (step : π → Option Verdict) : List π → Option Verdict
  | [] => some .success
  | d :: rest =>
      match step d with
      | some .success => process step rest
      | r => r

/-- The same for a processing function that reads and writes a state. -/
def processAll {ε σ : Type} (step : π → Library.Call ε σ Unit) :
    List π → Library.Call ε σ Unit
  | [] => pure ()
  | d :: rest => do
      step d
      processAll step rest

theorem processAll_append {ε σ : Type} (step : π → Library.Call ε σ Unit) (xs ys : List π) :
    processAll step (xs ++ ys) = processAll step xs >>= fun _ => processAll step ys := by
  induction xs with
  | nil => rfl
  | cons x xs ih =>
    rw [List.cons_append, processAll, processAll, ih, Library.Call.bind_assoc]

/-- Processing in parts. -/
theorem processAll_flatMap {ε σ ρ : Type} {step : π → Library.Call ε σ Unit}
    {part : ρ → Library.Call ε σ Unit} {parts : π → List ρ}
    (h : ∀ d, step d = processAll part (parts d)) (ds : List π) :
    processAll step ds = processAll part (ds.flatMap parts) := by
  induction ds with
  | nil => rfl
  | cons d ds ih => rw [processAll, List.flatMap_cons, processAll_append, h, ih]

theorem processAll_establishes {ε σ : Type} {R : σ → σ → Prop} {fact : π → σ → Prop}
    {step : π → Library.Call ε σ Unit} (P : Library.Progress R)
    (hstep : ∀ d, Library.Establishes R (fact d) (step d))
    (hlasts : ∀ d, Library.Lasts R (fact d)) (ds : List π) :
    Library.Establishes R (fun s => ∀ d ∈ ds, fact d s) (processAll step ds) := by
  induction ds with
  | nil =>
      apply Library.Establishes.pure P
      intro s d hd
      cases hd
  | cons d ds ih =>
      apply ((hstep d).bind P (hlasts d) fun _ => ih).imp
      intro s hs d' hd'
      rcases List.mem_cons.mp hd' with heq | hd'
      · subst heq
        exact hs.1
      · exact hs.2 d' hd'

/-- A run adds what its steps add. -/
theorem processAll_gains {ε σ ι : Type} {content : σ → Set ι} {gain : π → Set ι}
    {step : π → Library.Call ε σ Unit} {ds : List π}
    (hstep : ∀ d ∈ ds, Library.Gains content (gain d) (step d)) :
    Library.Gains content {x | ∃ d ∈ ds, x ∈ gain d} (processAll step ds) := by
  induction ds with
  | nil =>
    apply (Library.Gains.pure ()).of_eq
    ext x
    simp
  | cons d ds ih =>
    have hfirst := hstep d List.mem_cons_self
    have hrest := ih fun d' hd' => hstep d' (List.mem_cons_of_mem d hd')
    apply (hfirst.bind fun _ => hrest).of_eq
    ext x
    simp only [Set.mem_union, Set.mem_ofPred_eq, List.mem_cons, or_and_right, exists_or,
      exists_eq_left]

end Cil
