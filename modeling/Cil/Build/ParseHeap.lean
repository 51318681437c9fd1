/- Cil/Build/ParseHeap
   digest: Parse nodes in memory, their trees, and the destruction of what is below a node. -/

import Mathlib.Data.List.Basic
import Mathlib.Logic.Function.Basic
import Cil.Basic
import Cil.Build.Syntax
import Cil.Library.Call

set_option autoImplicit false
set_option relaxedAutoImplicit false

namespace Cil.Build

open Library

/-- `cil_tree_node`, without its flavor, line and path. -/
structure Cell where
  data : Option String
  parent : Option Nat
  clHead : Option Nat
  clTail : Option Nat
  next : Option Nat
  deriving DecidableEq, Repr

/-- The nodes by address; there is none where the memory was freed. -/
abbrev Heap := Nat → Option Cell

namespace Heap

def read (n : Nat) : Call Rc Heap Cell := fun h =>
  match h n with
  | none => some .crash
  | some c => some (.ok c h)

def write (n : Nat) (c : Cell) : Call Rc Heap Unit := fun h =>
  match h n with
  | none => some .crash
  | some _ => some (.ok () (Function.update h n (some c)))

def free (n : Nat) : Call Rc Heap Unit := fun h =>
  match h n with
  | none => some .crash
  | some _ => some (.ok () (Function.update h n none))

/-- The turns of the loop of `cil_tree_children_destroy`, which began at `start`. -/
def destroyTurns (start : Nat) : Nat → Nat → Call Rc Heap Unit
  | 0, _ => Call.outOfFuel
  | fuel + 1, node =>
      if node = start then pure ()
      else do
        let c ← read node
        match c.clHead with
        | some child => destroyTurns start fuel child
        | none =>
            match c.next with
            | some next => do
                free node
                destroyTurns start fuel next
            | none =>
                match c.parent with
                | none => do
                    free node
                    Call.crash
                | some parent => do
                    let p ← read parent
                    write parent { p with clHead := none }
                    free node
                    destroyTurns start fuel parent

/-- `cil_tree_children_destroy`. -/
def childrenDestroy (fuel n : Nat) : Call Rc Heap Unit := do
  let c ← read n
  match c.clHead with
  | none => pure ()
  | some child => destroyTurns n fuel child

/-- `cil_tree_subtree_destroy`. -/
def subtreeDestroy (fuel n : Nat) : Call Rc Heap Unit := do
  childrenDestroy fuel n
  free n

/-- The node with its later siblings, as the builders of statements read them. -/
def readNodes : Nat → Option Nat → Call Rc Heap (List ParseNode)
  | 0, _ => Call.outOfFuel
  | _ + 1, none => pure []
  | fuel + 1, some n => do
      let c ← read n
      let node ← match c.data with
        | some s => pure (.string s)
        | none => do
            let children ← readNodes fuel c.clHead
            pure (.list children)
      let rest ← readNodes fuel c.next
      pure (node :: rest)

theorem read_of {h : Heap} {n : Nat} {c : Cell} (hc : h n = some c) :
    read n h = some (.ok c h) := by
  simp only [read, hc]

theorem write_of {h : Heap} {n : Nat} {c : Cell} (hc : h n = some c) (c' : Cell) :
    write n c' h = some (.ok () (Function.update h n (some c'))) := by
  simp only [write, hc]

theorem free_of {h : Heap} {n : Nat} {c : Cell} (hc : h n = some c) :
    free n h = some (.ok () (Function.update h n none)) := by
  simp only [free, hc]

end Heap

/-- A parse node with the address it has. -/
inductive Located
  | node (id : Nat) (data : Option String) (children : List Located)

namespace Located

def id : Located → Nat
  | node id _ _ => id

def data : Located → Option String
  | node _ data _ => data

def children : Located → List Located
  | node _ _ children => children

mutual

/-- The addresses of a node and of all below it. -/
def ids : Located → List Nat
  | node id _ children => id :: idsAll children

def idsAll : List Located → List Nat
  | [] => []
  | t :: ts => ids t ++ idsAll ts

end

mutual

/-- What the node says. -/
def forget : Located → ParseNode
  | node _ (some s) _ => .string s
  | node _ none children => .list (forgetAll children)

def forgetAll : List Located → List ParseNode
  | [] => []
  | t :: ts => forget t :: forgetAll ts

end

attribute [simp] ids idsAll forget forgetAll

def headId (ts : List Located) : Option Nat := ts.head?.map id
def lastId (ts : List Located) : Option Nat := ts.getLast?.map id

mutual

/-- The heap has the nodes as siblings below `parent`. With `tails`, the links to the last
children are right. -/
def LinkedAll (h : Heap) (tails : Bool) (parent : Nat) : List Located → Prop
  | [] => True
  | t :: ts => Linked h tails parent (headId ts) t ∧ LinkedAll h tails parent ts

def Linked (h : Heap) (tails : Bool) (parent : Nat) (next : Option Nat) : Located → Prop
  | node id data children =>
      (∃ tail, (tails = true → tail = lastId children) ∧
        h id = some ⟨data, some parent, headId children, tail, next⟩) ∧
      (data.isSome = true → children = []) ∧ LinkedAll h tails id children

end

attribute [simp] LinkedAll Linked

/-- The node when everything below it has been destroyed. -/
def husk (t : Located) : Located := node t.id t.data []

@[simp] theorem id_node (n : Nat) (data : Option String) (ts : List Located) :
    (node n data ts).id = n := rfl

@[simp] theorem headId_nil : headId [] = none := rfl

@[simp] theorem headId_cons (t : Located) (ts : List Located) : headId (t :: ts) = some t.id := rfl

theorem id_mem_ids (t : Located) : t.id ∈ t.ids := by
  cases t with
  | node n data children => simp [Located.id]

theorem ids_subset_idsAll {t : Located} {ts : List Located} (h : t ∈ ts) :
    ∀ n ∈ t.ids, n ∈ idsAll ts := by
  induction ts with
  | nil => cases h
  | cons u us ih =>
      intro n hn
      rw [idsAll]
      rcases List.mem_cons.mp h with heq | h
      · rw [← heq]
        exact List.mem_append_left _ hn
      · exact List.mem_append_right _ (ih h n hn)

mutual

theorem linkedAll_congr {h h' : Heap} {tails : Bool} (ts : List Located) {parent : Nat}
    (heq : ∀ n ∈ idsAll ts, h' n = h n) (hl : LinkedAll h tails parent ts) :
    LinkedAll h' tails parent ts := by
  match ts with
  | [] => trivial
  | t :: ts =>
      rw [idsAll] at heq
      exact ⟨linked_congr t (fun n hn => heq n (List.mem_append_left _ hn)) hl.1,
        linkedAll_congr ts (fun n hn => heq n (List.mem_append_right _ hn)) hl.2⟩

theorem linked_congr {h h' : Heap} {tails : Bool} (t : Located) {parent : Nat}
    {next : Option Nat} (heq : ∀ n ∈ t.ids, h' n = h n) (hl : Linked h tails parent next t) :
    Linked h' tails parent next t := by
  match t with
  | node n data children =>
      rw [ids] at heq
      obtain ⟨⟨tail, htail, hcell⟩, hdata, hchildren⟩ := hl
      refine ⟨⟨tail, htail, ?_⟩, hdata, linkedAll_congr children
        (fun m hm => heq m (List.mem_cons_of_mem _ hm)) hchildren⟩
      rw [heq n List.mem_cons_self, hcell]

end

mutual

theorem linkedAll_untailed {h : Heap} {tails : Bool} (ts : List Located) {parent : Nat}
    (hl : LinkedAll h tails parent ts) : LinkedAll h false parent ts := by
  match ts with
  | [] => trivial
  | t :: ts => exact ⟨linked_untailed t hl.1, linkedAll_untailed ts hl.2⟩

theorem linked_untailed {h : Heap} {tails : Bool} (t : Located) {parent : Nat}
    {next : Option Nat} (hl : Linked h tails parent next t) :
    Linked h false parent next t := by
  match t with
  | node n data children =>
      obtain ⟨⟨tail, htail, hcell⟩, hdata, hchildren⟩ := hl
      refine ⟨⟨tail, ?_, hcell⟩, hdata, linkedAll_untailed children hchildren⟩
      intro hfalse
      cases hfalse

end

end Located

namespace Heap

open Located

/-- Some turns of the loop lead from one node and heap to others. -/
def Turns (start : Nat) (bound : Nat) (node : Nat) (h : Heap) (node' : Nat) (h' : Heap) : Prop :=
  ∃ k, k ≤ bound ∧ ∀ fuel, destroyTurns start (fuel + k) node h = destroyTurns start fuel node' h'

theorem Turns.trans {start b b' n n' n'' : Nat} {h h' h'' : Heap} (ht : Turns start b n h n' h')
    (ht' : Turns start b' n' h' n'' h'') : Turns start (b + b') n h n'' h'' := by
  obtain ⟨k, hk, hrun⟩ := ht
  obtain ⟨k', hk', hrun'⟩ := ht'
  refine ⟨k' + k, by omega, fun fuel => ?_⟩
  rw [← Nat.add_assoc, hrun, hrun']

/-- The heap after the nodes have been freed and their parent has no children. -/
def cleared (h : Heap) (ids : List Nat) (parent : Nat) (p : Cell) : Heap := fun n =>
  if n ∈ ids then none else if n = parent then some { p with clHead := none } else h n

/-- A turn at a node without children and with a sibling behind it. -/
theorem turn_next {start n next : Nat} {h : Heap} {c : Cell} (hne : n ≠ start)
    (hc : h n = some c) (hhead : c.clHead = none) (hnext : c.next = some next) :
    Turns start 1 n h next (Function.update h n none) := by
  refine ⟨1, Nat.le_refl 1, fun fuel => ?_⟩
  rw [destroyTurns, if_neg hne, Call.bind_of_ok (read_of hc)]
  simp only [hhead, hnext]
  rw [Call.bind_of_ok (free_of hc)]

/-- A turn at a last child without children. -/
private theorem turn_last {start n parent : Nat} {h : Heap} {c p : Cell} (hne : n ≠ start)
    (hc : h n = some c) (hhead : c.clHead = none) (hnext : c.next = none)
    (hparent : c.parent = some parent) (hp : h parent = some p) (hself : parent ≠ n) :
    Turns start 1 n h parent (cleared h [n] parent p) := by
  refine ⟨1, Nat.le_refl 1, fun fuel => ?_⟩
  have hc' : (Function.update h parent (some { p with clHead := none }) : Heap) n = some c := by
    rw [Function.update_of_ne hself.symm, hc]
  rw [destroyTurns, if_neg hne, Call.bind_of_ok (read_of hc)]
  simp only [hhead, hnext, hparent]
  rw [Call.bind_of_ok (read_of hp), Call.bind_of_ok (write_of hp _), Call.bind_of_ok (free_of hc')]
  congr 1
  funext m
  unfold cleared
  by_cases hm : m = n
  · rw [hm, Function.update_self, if_pos (List.mem_singleton_self n)]
  · rw [Function.update_of_ne hm, if_neg (by simpa using hm)]
    by_cases hm' : m = parent
    · rw [hm', Function.update_self, if_pos rfl]
    · rw [Function.update_of_ne hm', if_neg hm']

/-- A turn at a node with children. -/
private theorem turn_down {start n child : Nat} {h : Heap} {c : Cell} (hne : n ≠ start)
    (hc : h n = some c) (hhead : c.clHead = some child) : Turns start 1 n h child h := by
  refine ⟨1, Nat.le_refl 1, fun fuel => ?_⟩
  rw [destroyTurns, if_neg hne, Call.bind_of_ok (read_of hc)]
  simp only [hhead]

private theorem cleared_nil {h : Heap} {n : Nat} {c : Cell} (hc : h n = some c)
    (hhead : c.clHead = none) : cleared h [] n c = h := by
  funext m
  unfold cleared
  rw [if_neg List.not_mem_nil]
  by_cases hm : m = n
  · rw [if_pos hm, hm, hc, ← hhead]
  · rw [if_neg hm]

theorem cleared_of_not_mem {h : Heap} {ids : List Nat} {parent m : Nat} {p : Cell}
    (hm : m ∉ ids) (hne : m ≠ parent) : cleared h ids parent p m = h m := by
  rw [cleared, if_neg hm, if_neg hne]

theorem cleared_parent {h : Heap} {ids : List Nat} {parent : Nat} {p : Cell}
    (hm : parent ∉ ids) : cleared h ids parent p parent = some { p with clHead := none } := by
  rw [cleared, if_neg hm, if_pos rfl]

/-- A last child goes after what was below it. -/
private theorem cleared_last {h : Heap} {ids : List Nat} {n parent : Nat} {c p : Cell}
    (hparent : parent ∉ ids) :
    cleared (cleared h ids n c) [n] parent p = cleared h (n :: ids) parent p := by
  funext m
  unfold cleared
  by_cases hn : m = n
  · simp [hn]
  · by_cases hm : m ∈ ids
    · have hmp : m ≠ parent := fun heq => hparent (heq ▸ hm)
      simp [hm, hmp]
    · simp [hn, hm]

/-- A node goes after what was below it, and its later siblings after it. -/
private theorem cleared_next {h : Heap} {ids ids' : List Nat} {n parent : Nat} {c p : Cell}
    (hparent : parent ∉ ids) (hne : parent ≠ n) :
    cleared (Function.update (cleared h ids n c) n none) ids' parent p =
      cleared h (n :: ids ++ ids') parent p := by
  funext m
  simp only [cleared, List.cons_append, List.mem_cons, List.mem_append]
  by_cases hm' : m ∈ ids'
  · simp [hm']
  · by_cases hmp : m = parent
    · simp [hmp, hparent, hne]
    · by_cases hn : m = n
      · rw [hn] at hm' hmp
        simp [hn, hm', hmp]
      · by_cases hm : m ∈ ids
        · simp [cleared, hm, hn, hmp, hm']
        · simp [cleared, hm, hn, hmp, hm']

/-- The loop goes through siblings and all below them, and comes back to their parent. -/
private theorem turns_siblings {start : Nat} (t : Located) (ts : List Located) {h : Heap}
    {parent : Nat} {p : Cell} (hl : LinkedAll h false parent (t :: ts)) (hp : h parent = some p)
    (hnodup : (idsAll (t :: ts)).Nodup) (hparent : parent ∉ idsAll (t :: ts))
    (hstart : start ∉ idsAll (t :: ts)) :
    Turns start (2 * (idsAll (t :: ts)).length) t.id h parent
      (cleared h (idsAll (t :: ts)) parent p) := by
  obtain ⟨size, hsize⟩ : ∃ size, (idsAll (t :: ts)).length = size := ⟨_, rfl⟩
  induction size using Nat.strongRecOn generalizing t ts h parent p with
  | _ size ih =>
      match t with
      | .node n data children =>
          have hlength : (idsAll children).length + (idsAll ts).length + 1 = size := by
            rw [← hsize, idsAll, ids, List.length_append, List.length_cons]
            omega
          simp only [LinkedAll, Linked] at hl
          obtain ⟨⟨⟨tail, -, hcell⟩, -, hchildren⟩, hrest⟩ := hl
          have hmem (m : Nat) : m ∉ idsAll (.node n data children :: ts) ↔
              m ≠ n ∧ m ∉ idsAll children ∧ m ∉ idsAll ts := by
            simp only [idsAll, ids, List.cons_append, List.mem_cons, List.mem_append, not_or]
          rw [hmem] at hparent hstart
          simp only [idsAll, ids, List.cons_append, List.nodup_cons, List.mem_append, not_or,
            List.nodup_append] at hnodup
          obtain ⟨⟨hn, hn'⟩, hnodupChildren, hnodupRest, hdisjoint⟩ := hnodup
          obtain ⟨hparentNe, hparentChildren, hparentRest⟩ := hparent
          obtain ⟨hstartNe, hstartChildren, hstartRest⟩ := hstart
          -- the children first, if there are any
          have hdown : ∃ b, b ≤ 2 * (idsAll children).length + 1 ∧ Turns start b n h n
              (cleared h (idsAll children) n
                ⟨data, some parent, headId children, tail, headId ts⟩) := by
            match children with
            | [] =>
                refine ⟨0, Nat.zero_le _, 0, Nat.le_refl 0, fun fuel => ?_⟩
                rw [idsAll, cleared_nil hcell rfl]
                rfl
            | child :: siblings =>
                have hturns := ih _ (by omega) child siblings hchildren hcell hnodupChildren hn
                  hstartChildren rfl
                exact ⟨1 + 2 * (idsAll (child :: siblings)).length, by omega,
                  (turn_down (Ne.symm hstartNe) hcell rfl).trans hturns⟩
          obtain ⟨b, hb, hturns⟩ := hdown
          have hhere := cleared_parent (h := h)
            (p := ⟨data, some parent, headId children, tail, headId ts⟩) hn
          have hparentCell : cleared h (idsAll children) n
              ⟨data, some parent, headId children, tail, headId ts⟩ parent = some p := by
            rw [cleared_of_not_mem hparentChildren hparentNe, hp]
          match ts with
          | [] =>
              have hlast := turn_last (Ne.symm hstartNe) hhere rfl rfl rfl hparentCell hparentNe
              obtain ⟨k, hk, hrun⟩ := hturns.trans hlast
              refine ⟨k, ?_, fun fuel => ?_⟩
              · simp only [idsAll, ids, List.append_nil, List.length_cons] at hk ⊢
                omega
              · rw [id_node, hrun]
                rw [cleared_last hparentChildren]
                simp only [idsAll, ids, List.append_nil]
          | next :: siblings =>
              have hclNext :
                  (⟨data, some parent, none, tail, headId (next :: siblings)⟩ : Cell).next =
                  some next.id := rfl
              have hnext := turn_next (Ne.symm hstartNe) hhere rfl hclNext
              have hframe : ∀ m ∈ idsAll (next :: siblings), (Function.update (cleared h
                  (idsAll children) n ⟨data, some parent, headId children, tail,
                    headId (next :: siblings)⟩) n none : Heap) m = h m := by
                intro m hm
                have hmn : m ≠ n := fun heq => hn' (heq ▸ hm)
                have hmc : m ∉ idsAll children := fun hmem => hdisjoint m hmem m hm rfl
                rw [Function.update_of_ne hmn, cleared_of_not_mem hmc hmn]
              have hparentCell' : (Function.update (cleared h (idsAll children) n
                  ⟨data, some parent, headId children, tail, headId (next :: siblings)⟩) n none :
                    Heap) parent = some p := by
                rw [Function.update_of_ne hparentNe, hparentCell]
              have hsiblings := ih _ (by omega) next siblings (linkedAll_congr _ hframe hrest)
                hparentCell' hnodupRest hparentRest hstartRest rfl
              obtain ⟨k, hk, hrun⟩ := (hturns.trans hnext).trans hsiblings
              refine ⟨k, ?_, fun fuel => ?_⟩
              · rw [idsAll, ids, List.length_append, List.length_cons]
                omega
              · rw [id_node, hrun]
                rw [cleared_next hparentChildren hparentNe]
                simp only [idsAll, ids]

/-- What is below a node is freed, and nothing else. -/
theorem childrenDestroy_of {h : Heap} {fuel n : Nat} {c : Cell} {ts : List Located}
    (hc : h n = some c) (hhead : c.clHead = headId ts) (hl : LinkedAll h false n ts)
    (hnodup : (idsAll ts).Nodup) (hn : n ∉ idsAll ts) (hfuel : 2 * (idsAll ts).length < fuel) :
    childrenDestroy fuel n h = some (.ok () (cleared h (idsAll ts) n c)) := by
  rw [childrenDestroy, Call.bind_of_ok (read_of hc)]
  match ts with
  | [] =>
      have hnone : c.clHead = none := hhead
      simp only [hnone]
      rw [idsAll, cleared_nil hc hnone]
      rfl
  | t :: ts =>
      have hsome : c.clHead = some t.id := hhead
      simp only [hsome]
      have hturns : Turns n (2 * (idsAll (t :: ts)).length) t.id h n
          (cleared h (idsAll (t :: ts)) n c) := turns_siblings t ts hl hc hnodup hn hn
      obtain ⟨k, hk, hrun⟩ := hturns
      obtain ⟨rest, hrest⟩ : ∃ rest, fuel = rest + 1 + k := ⟨fuel - k - 1, by omega⟩
      rw [hrest, hrun, destroyTurns, if_pos rfl]
      rfl

end Heap

end Cil.Build
