/- Cil/TreeWalk
   digest: The tree walk along the links of nodes in memory, and the trees that it walks. -/

import Mathlib.Data.List.Basic
import Cil.Tree

/-!
Most passes are a `cil_tree_walk` whose functions do not change the links of the tree. What such
a walk does is what the recursion on the tree does, from which the passes are defined.
-/

set_option autoImplicit false
set_option relaxedAutoImplicit false

namespace Cil.TreeWalk

open Library

/-- The links of `cil_tree_node` that a walk follows. -/
structure Links where
  clHead : Option Nat
  clTail : Option Nat
  next : Option Nat
  deriving DecidableEq, Repr

/-- The bits `CIL_TREE_SKIP_NEXT` and `CIL_TREE_SKIP_HEAD` of `finished`. -/
structure Finished where
  skipNext : Bool
  skipHead : Bool
  deriving DecidableEq, Repr

/-- `CIL_TREE_SKIP_NOTHING`. -/
def Finished.skipNothing : Finished := ⟨false, false⟩

/-- The functions that a walk is given; each may be a null pointer. -/
structure Helpers (σ : Type) where
  processNode : Option (Nat → Call Rc σ Finished)
  firstChild : Option (Nat → Call Rc σ Unit)
  lastChild : Option (Nat → Call Rc σ Unit)

variable {σ : Type} (H : Helpers σ)

namespace Helpers

def process (n : Nat) : Call Rc σ Finished :=
  match H.processNode with
  | none => pure .skipNothing
  | some f => f n

def first (n : Nat) : Call Rc σ Unit :=
  match H.firstChild with
  | none => pure ()
  | some f => f n

/-- The last child is passed on as it is, also as a null pointer. -/
def last (n : Option Nat) : Call Rc σ Unit :=
  match H.lastChild with
  | none => pure ()
  | some f => Call.orCrash n >>= f

end Helpers

section Memory

variable (nodes : Nat → Option Links)

mutual

/-- `cil_tree_walk`. -/
def treeWalk : Nat → Nat → Call Rc σ Unit
  | 0, _ => Call.outOfFuel
  | fuel + 1, n =>
      Call.orCrash (nodes n) >>= fun links =>
      match links.clHead with
      | none => pure ()
      | some head =>
          H.first head >>= fun _ =>
          treeWalkCore fuel (some head) >>= fun _ =>
          H.last links.clTail

/-- `cil_tree_walk_core`. -/
def treeWalkCore : Nat → Option Nat → Call Rc σ Unit
  | 0, _ => Call.outOfFuel
  | _ + 1, none => pure ()
  | fuel + 1, some n =>
      H.process n >>= fun finished =>
      if finished.skipNext = true then pure ()
      else
        Call.orCrash (nodes n) >>= fun links =>
        (if links.clHead.isSome = true ∧ finished.skipHead = false then treeWalk fuel n
          else pure ()) >>= fun _ =>
        treeWalkCore fuel links.next

end

end Memory

section Trees

/-- The address of the topmost node. -/
def addr : Tree Nat → Nat
  | .node n _ => n

def headAddr (ts : List (Tree Nat)) : Option Nat := ts.head?.map addr
def lastAddr (ts : List (Tree Nat)) : Option Nat := ts.getLast?.map addr

mutual

/-- The nodes are in memory with the links of the tree; `next` is the node behind it. -/
def InMemory (nodes : Nat → Option Links) (next : Option Nat) : Tree Nat → Prop
  | .node n children =>
      nodes n = some ⟨headAddr children, lastAddr children, next⟩ ∧ InMemoryAll nodes children

def InMemoryAll (nodes : Nat → Option Links) : List (Tree Nat) → Prop
  | [] => True
  | t :: ts => InMemory nodes (headAddr ts) t ∧ InMemoryAll nodes ts

end

mutual

/-- How many nodes there are. -/
def count : Tree Nat → Nat
  | .node _ children => 1 + countAll children

def countAll : List (Tree Nat) → Nat
  | [] => 0
  | t :: ts => count t + countAll ts

end

mutual

/-- The walk of a tree: between the calls for its first and its last child the children are
walked through. -/
def walkBelow : Tree Nat → Call Rc σ Unit
  | .node _ children =>
      match headAddr children with
      | none => pure ()
      | some head =>
          H.first head >>= fun _ => walkAll children >>= fun _ => H.last (lastAddr children)

/-- The walk of siblings. -/
def walkAll : List (Tree Nat) → Call Rc σ Unit
  | [] => pure ()
  | t :: ts =>
      H.process (addr t) >>= fun finished =>
      if finished.skipNext = true then pure ()
      else if finished.skipHead = true then walkAll ts
      else walkBelow t >>= fun _ => walkAll ts

end

attribute [simp] InMemory InMemoryAll count countAll

variable {H} {nodes : Nat → Option Links}

private theorem walkBelow_childless (n : Nat) : walkBelow H (.node n []) = pure () := by
  rw [walkBelow]
  rfl

private theorem count_pos (t : Tree Nat) : 0 < count t := by
  cases t with
  | node n children =>
      rw [count]
      omega

private theorem pure_bind {α β : Type} (a : α) (f : α → Call Rc σ β) :
    (pure a : Call Rc σ α) >>= f = f a := rfl

private theorem orCrash_some_bind {α β : Type} (a : α) (f : α → Call Rc σ β) :
    Call.orCrash (some a) >>= f = f a := rfl

/-- With enough fuel the walk along the links is the walk of the tree. -/
private theorem treeWalkCore_eq (fuel : Nat) : (∀ (t : Tree Nat) (next : Option Nat),
      InMemory nodes next t → 2 * count t ≤ fuel → treeWalk H nodes fuel (addr t) = walkBelow H t) ∧
    ∀ ts : List (Tree Nat), InMemoryAll nodes ts → 2 * countAll ts + 1 ≤ fuel →
      treeWalkCore H nodes fuel (headAddr ts) = walkAll H ts := by
  induction fuel with
  | zero =>
      refine ⟨?_, ?_⟩
      · intro t next h hfuel
        have hpos := count_pos t
        omega
      · intro ts h hfuel
        omega
  | succ fuel ih =>
      obtain ⟨ihTree, ihAll⟩ := ih
      refine ⟨?_, ?_⟩
      · intro t next h hfuel
        cases t with
        | node n children =>
            obtain ⟨hlinks, hchildren⟩ := h
            have hsize : 2 * countAll children + 1 ≤ fuel := by
              rw [count] at hfuel
              omega
            rw [treeWalk, addr, hlinks, orCrash_some_bind, walkBelow]
            cases children with
            | nil => rfl
            | cons t ts =>
                have hcore := ihAll (t :: ts) hchildren hsize
                have hhead : headAddr (t :: ts) = some (addr t) := rfl
                rw [hhead] at hcore ⊢
                dsimp only
                rw [hcore]
      · intro ts h hfuel
        cases ts with
        | nil =>
            rw [walkAll]
            rfl
        | cons t ts =>
            obtain ⟨hfirst, hrest⟩ := h
            rw [countAll] at hfuel
            have hpos := count_pos t
            have hwalk := ihAll ts hrest (by omega)
            have hhead : headAddr (t :: ts) = some (addr t) := rfl
            rw [hhead, treeWalkCore, walkAll]
            congr 1
            funext finished
            by_cases hnext : finished.skipNext = true
            · rw [if_pos hnext, if_pos hnext]
            · rw [if_neg hnext, if_neg hnext]
              cases t with
              | node n children =>
                  obtain ⟨hlinks, hchildren⟩ := id hfirst
                  rw [addr, hlinks, orCrash_some_bind]
                  dsimp only
                  rw [hwalk]
                  by_cases hskip : finished.skipHead = true
                  · have hnot :
                        ¬ ((headAddr children).isSome = true ∧ finished.skipHead = false) := by
                      rw [hskip]
                      intro hboth
                      cases hboth.2
                    rw [if_neg hnot, if_pos hskip, pure_bind]
                  · rw [if_neg hskip]
                    have hno : finished.skipHead = false := Bool.not_eq_true _ ▸ hskip
                    cases children with
                    | nil =>
                        have hnot :
                            ¬ ((headAddr []).isSome = true ∧ finished.skipHead = false) := by
                          intro hboth
                          cases hboth.1
                        rw [if_neg hnot, walkBelow_childless]
                    | cons c cs =>
                        have hsize : 2 * count (.node n (c :: cs)) ≤ fuel := by omega
                        rw [if_pos ⟨rfl, hno⟩]
                        have hbelow := ihTree _ _ hfirst hsize
                        rw [addr] at hbelow
                        rw [hbelow]

/-- `cil_tree_walk` of a tree in memory: the order of the calls, what is skipped and how the walk
ends are those of the recursion, whatever the functions do. -/
theorem treeWalk_eq (H : Helpers σ) (nodes : Nat → Option Links) {t : Tree Nat}
    {next : Option Nat} (h : InMemory nodes next t) :
    ∃ n, ∀ fuel, n ≤ fuel → treeWalk H nodes fuel (addr t) = walkBelow H t :=
  ⟨2 * count t, fun fuel hfuel => (treeWalkCore_eq fuel).1 t next h hfuel⟩

/-- A root with two nodes, the second of which has another one below it. -/
def smallTree : Tree Nat := .node 0 [.node 1 [], .node 2 [.node 3 []]]

def smallTreeNodes : Nat → Option Links
  | 0 => some ⟨some 1, some 2, none⟩
  | 1 => some ⟨none, none, some 2⟩
  | 2 => some ⟨some 3, some 3, none⟩
  | 3 => some ⟨none, none, none⟩
  | _ => none

theorem inMemory_smallTree : InMemory smallTreeNodes none smallTree :=
  ⟨rfl, ⟨rfl, trivial⟩, ⟨rfl, ⟨rfl, trivial⟩, trivial⟩, trivial⟩

/-- The addresses that a walk processes when it does not go below the node 2. -/
def recordAddresses : Helpers (List Nat) where
  processNode := some fun n =>
    Call.modify (fun s => s ++ [n]) >>= fun _ => pure ⟨false, n == 2⟩
  firstChild := none
  lastChild := none

theorem smallTree_walked : ∃ n, ∀ fuel, n ≤ fuel →
    treeWalk recordAddresses smallTreeNodes fuel 0 = walkBelow recordAddresses smallTree :=
  treeWalk_eq recordAddresses smallTreeNodes inMemory_smallTree

end Trees

section Passes

variable {π : Type}

/-- A pass without functions for first and last children. It goes on below the nodes that are not
skipped, and fails with the first node that its function fails on. -/
def pass (data : Nat → π) (skip : π → Bool) (step : π → Call Rc σ Unit) : Helpers σ where
  processNode := some fun n => step (data n) >>= fun _ => pure ⟨false, skip (data n)⟩
  firstChild := none
  lastChild := none

mutual

/-- The tree with what the nodes hold in place of their addresses. -/
def contentsOf (data : Nat → π) : Tree Nat → Tree π
  | .node n children => .node (data n) (contentsOfAll data children)

def contentsOfAll (data : Nat → π) : List (Tree Nat) → List (Tree π)
  | [] => []
  | t :: ts => contentsOf data t :: contentsOfAll data ts

end

variable {data : Nat → π} {skip : π → Bool} {step : π → Call Rc σ Unit}

mutual

private theorem walkBelow_pass : (t : Tree Nat) → walkBelow (pass data skip step) t =
    processAll step ((contentsOf data t).walk skip)
  | .node n children => by
      have hall := walkAll_pass children
      rw [walkBelow, contentsOf, Tree.walk, ← hall]
      cases children with
      | nil =>
          rw [walkAll]
          rfl
      | cons c cs =>
          have hpure (call : Call Rc σ Unit) : (call >>= fun _ => pure ()) = call := by
            funext s
            show Call.andThen call (fun _ => Call.ret ()) s = call s
            unfold Call.andThen
            rcases call s with _ | (_ | _ | _) <;> rfl
          exact hpure _

private theorem walkAll_pass : (ts : List (Tree Nat)) → walkAll (pass data skip step) ts =
    processAll step (walkSiblings skip (contentsOfAll data ts))
  | [] => by
      rw [walkAll]
      rfl
  | .node n children :: ts => by
      have hbelow := walkBelow_pass (.node n children)
      have hrest := walkAll_pass ts
      have hprocess : (pass data skip step).process n =
          step (data n) >>= fun _ => pure ⟨false, skip (data n)⟩ := rfl
      have hcontents : contentsOf data (.node n children) =
          .node (data n) (contentsOfAll data children) := by rw [contentsOf]
      rw [hcontents, Tree.walk] at hbelow
      rw [walkAll, addr, hprocess, hrest, contentsOfAll, walkSiblings, hcontents, walkNode,
        List.cons_append, processAll, Call.bind_assoc]
      congr 1
      funext _
      rw [pure_bind]
      dsimp only
      rw [if_neg Bool.false_ne_true]
      by_cases hskip : skip (data n) = true
      · rw [if_pos hskip, if_pos hskip, List.nil_append]
      · rw [if_neg hskip, if_neg hskip, processAll_append, hbelow]

end

/-- A pass over the nodes in memory processes what the walk of the tree visits. -/
theorem treeWalk_pass (data : Nat → π) (skip : π → Bool) (step : π → Call Rc σ Unit)
    {nodes : Nat → Option Links} {t : Tree Nat} {next : Option Nat} (h : InMemory nodes next t) :
    ∃ n, ∀ fuel, n ≤ fuel → treeWalk (pass data skip step) nodes fuel (addr t) =
      processAll step ((contentsOf data t).walk skip) := by
  refine ⟨2 * count t, fun fuel hfuel => ?_⟩
  have hwalk := (treeWalkCore_eq (H := pass data skip step) fuel).1 t next h hfuel
  rw [hwalk, walkBelow_pass]

end Passes

end Cil.TreeWalk
