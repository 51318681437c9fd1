/- Cil/Conditional/Statements
   digest: Conditional statements, and the rules in them that are in force. -/

import Mathlib.Data.List.Perm.Basic
import Cil.Build.Conditional
import Cil.CondExpr
import Cil.Tree

set_option autoImplicit false
set_option relaxedAutoImplicit false

namespace Cil.Conditional

open Cil.Expr Cil.Build Cil.CondExpr

/-- A node, as far as conditionals go. A call stands with what is in its macro; `scope` is any
statement that holds others and is not allowed in a booleanif. -/
inductive NodeData (δ ρ : Type)
  | rule (r : ρ)
  | booleanif (expr : List (Item δ))
  | tunableif (expr : List (Item δ))
  | condblock (flavor : Bool)
  | call
  | scope

variable {δ ρ : Type}

/-- A `(true ...)` or `(false ...)` block with its statements. -/
abbrev Block (δ ρ : Type) := Bool × List (Tree (NodeData δ ρ))

def Block.node (b : Block δ ρ) : Tree (NodeData δ ρ) := .node (.condblock b.1) b.2

/-- Statements as the builder makes them, with blocks below the conditionals only and one or two
of them there. In resolved statements no tunableif has blocks. -/
inductive Formed : Bool → Tree (NodeData δ ρ) → Prop
  | rule {resolved : Bool} (r : ρ) : Formed resolved (.node (.rule r) [])
  | booleanif {resolved : Bool} {expr : List (Item δ)} {blocks : List (Block δ ρ)}
      (hexpr : shaped .bool expr = true) (hlength : blocks.length = 1 ∨ blocks.length = 2)
      (hblocks : ∀ b ∈ blocks, ∀ t ∈ b.2, Formed resolved t) :
      Formed resolved (.node (.booleanif expr) (blocks.map Block.node))
  | tunableif {expr : List (Item δ)} {blocks : List (Block δ ρ)}
      (hexpr : shaped .tunable expr = true) (hlength : blocks.length = 1 ∨ blocks.length = 2)
      (hblocks : ∀ b ∈ blocks, ∀ t ∈ b.2, Formed false t) :
      Formed false (.node (.tunableif expr) (blocks.map Block.node))
  | emptied (expr : List (Item δ)) : Formed true (.node (.tunableif expr) [])
  | call {resolved : Bool} {body : List (Tree (NodeData δ ρ))}
      (hbody : ∀ t ∈ body, Formed resolved t) : Formed resolved (.node .call body)
  | scope {resolved : Bool} {body : List (Tree (NodeData δ ρ))}
      (hbody : ∀ t ∈ body, Formed resolved t) : Formed resolved (.node .scope body)

/-- The statements of the node if it is a block of the flavor. -/
def condblockOf (flavor : Bool) : Tree (NodeData δ ρ) → Option (List (Tree (NodeData δ ρ)))
  | .node (.condblock f) body => if f = flavor then some body else none
  | _ => none

/-- A block that one of the later nodes repeats the flavor of. -/
def shadows (later : List (Tree (NodeData δ ρ))) : Tree (NodeData δ ρ) → Bool
  | .node (.condblock f) _ => later.any fun t => (condblockOf f t).isSome
  | _ => false

section InForce

variable (booleans tunables : δ → Bool)

mutual

/-- The rules that are in force as written, for values of the booleans and the tunables, in blocks
of the flavor `active`; each with whether it stands in a shadowed block. -/
def written (shadowed : Bool) (active : Option Bool) :
    List (Tree (NodeData δ ρ)) → List (ρ × Bool)
  | [] => []
  | t :: ts =>
      writtenNode (shadowed || shadows ts t) active t ++ written shadowed active ts

def writtenNode (shadowed : Bool) (active : Option Bool) :
    Tree (NodeData δ ρ) → List (ρ × Bool)
  | .node (.rule r) _ => [(r, shadowed)]
  | .node (.booleanif expr) blocks => written shadowed (some (truth booleans expr)) blocks
  | .node (.tunableif expr) blocks => written shadowed (some (truth tunables expr)) blocks
  | .node (.condblock flavor) body =>
      if active = some flavor then written shadowed none body else []
  | .node .call body => written shadowed none body
  | .node .scope body => written shadowed none body

end

attribute [simp] written writtenNode

/-- The rules that are in force as written. -/
def meaning (ts : List (Tree (NodeData δ ρ))) : List ρ :=
  (written booleans tunables false none ts).map Prod.fst

/-- Those that stand in no shadowed block. -/
def kept (active : Option Bool) (ts : List (Tree (NodeData δ ρ))) : List ρ :=
  ((written booleans tunables false active ts).filter fun x => !x.2).map Prod.fst

def keptNode (active : Option Bool) (t : Tree (NodeData δ ρ)) : List ρ :=
  ((writtenNode booleans tunables false active t).filter fun x => !x.2).map Prod.fst

variable {booleans tunables}

/-- What stands in a shadowed block is marked. -/
private theorem written_shadowed (active : Option Bool) (ts : List (Tree (NodeData δ ρ))) :
    ∀ x ∈ written booleans tunables true active ts, x.2 = true := by
  refine walkSiblings.induct
    (fun ts => ∀ active, ∀ x ∈ written booleans tunables true active ts, x.2 = true)
    (fun t => ∀ active, ∀ x ∈ writtenNode booleans tunables true active t, x.2 = true)
    ?node ?nil ?cons ts active
  case node =>
    intro d children ih active
    cases d with
    | rule r =>
      intro x hx
      rw [writtenNode, List.mem_singleton] at hx
      rw [hx]
    | booleanif expr =>
      rw [writtenNode]
      exact ih _
    | tunableif expr =>
      rw [writtenNode]
      exact ih _
    | condblock flavor =>
      rw [writtenNode]
      split
      · exact ih none
      · simp
    | call =>
      rw [writtenNode]
      exact ih none
    | scope =>
      rw [writtenNode]
      exact ih none
  case nil =>
    intro active x hx
    rw [written] at hx
    cases hx
  case cons =>
    intro t ts iht ihts active x hx
    rw [written, Bool.true_or] at hx
    rcases List.mem_append.mp hx with hx | hx
    · exact iht active x hx
    · exact ihts active x hx

section Kept

theorem kept_nil (active : Option Bool) :
    kept booleans tunables active ([] : List (Tree (NodeData δ ρ))) = [] := by
  rw [kept, written]
  rfl

private theorem writtenNode_shadowed (active : Option Bool) (t : Tree (NodeData δ ρ)) :
    ((writtenNode booleans tunables true active t).filter fun x => !x.2) = [] := by
  apply List.filter_eq_nil_iff.mpr
  intro x hx
  have hmem : x ∈ written booleans tunables true active [t] := by
    rw [written, Bool.true_or]
    exact List.mem_append_left _ hx
  simp [written_shadowed active [t] x hmem]

theorem kept_cons (active : Option Bool) (t : Tree (NodeData δ ρ))
    (ts : List (Tree (NodeData δ ρ))) :
    kept booleans tunables active (t :: ts) =
      (if shadows ts t then [] else keptNode booleans tunables active t) ++
        kept booleans tunables active ts := by
  rw [kept, written, Bool.false_or, List.filter_append, List.map_append]
  cases shadows ts t with
  | true => rw [writtenNode_shadowed]; rfl
  | false => rfl

theorem keptNode_rule (active : Option Bool) (r : ρ) (children : List (Tree (NodeData δ ρ))) :
    keptNode booleans tunables active (.node (.rule r) children) = [r] := by
  rw [keptNode, writtenNode]
  rfl

theorem keptNode_booleanif (active : Option Bool) (expr : List (Item δ))
    (blocks : List (Tree (NodeData δ ρ))) :
    keptNode booleans tunables active (.node (.booleanif expr) blocks) =
      kept booleans tunables (some (truth booleans expr)) blocks := by
  rw [keptNode, writtenNode, kept]

theorem keptNode_tunableif (active : Option Bool) (expr : List (Item δ))
    (blocks : List (Tree (NodeData δ ρ))) :
    keptNode booleans tunables active (.node (.tunableif expr) blocks) =
      kept booleans tunables (some (truth tunables expr)) blocks := by
  rw [keptNode, writtenNode, kept]

theorem keptNode_condblock (active : Option Bool) (flavor : Bool)
    (body : List (Tree (NodeData δ ρ))) :
    keptNode booleans tunables active (.node (.condblock flavor) body) =
      if active = some flavor then kept booleans tunables none body else [] := by
  rw [keptNode, writtenNode]
  split <;> rfl

theorem keptNode_call (active : Option Bool) (body : List (Tree (NodeData δ ρ))) :
    keptNode booleans tunables active (.node .call body) = kept booleans tunables none body := by
  rw [keptNode, writtenNode, kept]

theorem keptNode_scope (active : Option Bool) (body : List (Tree (NodeData δ ρ))) :
    keptNode booleans tunables active (.node .scope body) = kept booleans tunables none body := by
  rw [keptNode, writtenNode, kept]

/-- The rules in shadowed blocks are what the rules kept lack. -/
theorem kept_perm_meaning_iff (ts : List (Tree (NodeData δ ρ))) :
    (kept booleans tunables none ts).Perm (meaning booleans tunables ts) ↔
      ∀ x ∈ written booleans tunables false none ts, x.2 = false := by
  constructor
  · intro h x hx
    have hlength := h.length_eq
    rw [kept, meaning, List.length_map, List.length_map] at hlength
    have hall := List.length_filter_eq_length_iff.mp hlength x hx
    simpa using hall
  · intro h
    rw [kept, meaning, List.filter_eq_self.mpr]
    intro x hx
    simp [h x hx]

end Kept

section Blocks

/-- A statement is no block. -/
theorem Formed.shadows_eq {resolved : Bool} {t : Tree (NodeData δ ρ)} (h : Formed resolved t)
    (later : List (Tree (NodeData δ ρ))) : shadows later t = false := by
  cases h <;> rfl

theorem kept_append {active : Option Bool} {resolved : Bool} {ts : List (Tree (NodeData δ ρ))}
    (hts : ∀ t ∈ ts, Formed resolved t) (us : List (Tree (NodeData δ ρ))) :
    kept booleans tunables active (ts ++ us) =
      kept booleans tunables active ts ++ kept booleans tunables active us := by
  induction ts with
  | nil => rw [kept_nil, List.nil_append, List.nil_append]
  | cons t ts ih =>
    have ht := (hts t List.mem_cons_self).shadows_eq
    rw [List.cons_append, kept_cons, kept_cons, ht, ht,
      ih fun t ht => hts t (List.mem_cons_of_mem _ ht), List.append_assoc]

/-- The block of a flavor that a loop over all blocks is left with. -/
def lastBlock (flavor : Bool) (ts : List (Tree (NodeData δ ρ))) :
    Option (List (Tree (NodeData δ ρ))) :=
  ts.foldl (fun node t => (condblockOf flavor t).or node) none

theorem lastBlock_cons (flavor : Bool) (t : Tree (NodeData δ ρ))
    (ts : List (Tree (NodeData δ ρ))) :
    lastBlock flavor (t :: ts) = (lastBlock flavor ts).or (condblockOf flavor t) := by
  have hfold : ∀ node, ts.foldl (fun node t => (condblockOf flavor t).or node) node =
      (lastBlock flavor ts).or node := by
    induction ts with
    | nil =>
      intro node
      rfl
    | cons u ts ih =>
      intro node
      rw [lastBlock, List.foldl_cons, List.foldl_cons, ih, ih, Option.or_none, Option.or_assoc]
  rw [lastBlock, List.foldl_cons, hfold, Option.or_none]

theorem condblockOf_node (flavor : Bool) (b : Block δ ρ) :
    condblockOf flavor b.node = if b.1 = flavor then some b.2 else none := rfl

private theorem shadows_eq_lastBlock (later : List (Tree (NodeData δ ρ))) (b : Block δ ρ) :
    shadows later b.node = (lastBlock b.1 later).isSome := by
  rw [Block.node, shadows]
  induction later with
  | nil => rfl
  | cons t ts ih =>
    rw [List.any_cons, ih, lastBlock_cons]
    cases lastBlock b.1 ts <;> simp

/-- Of the blocks of a statement the last one of the active flavor is kept. -/
theorem kept_blocks (active : Bool) (blocks : List (Block δ ρ)) :
    kept booleans tunables (some active) (blocks.map Block.node) =
      ((lastBlock active (blocks.map Block.node)).map (kept booleans tunables none)).getD [] := by
  induction blocks with
  | nil =>
    rw [List.map_nil, kept_nil]
    rfl
  | cons b blocks ih =>
    rw [List.map_cons, kept_cons, ih, shadows_eq_lastBlock, lastBlock_cons, condblockOf_node,
      Block.node, keptNode_condblock]
    by_cases hb : b.1 = active
    · subst hb
      cases lastBlock b.1 (blocks.map Block.node) <;> simp
    · have hne : active ≠ b.1 := fun h => hb h.symm
      simp [hb, hne]

end Blocks

end InForce

end Cil.Conditional
