/- Cil/Parser/Parser
   digest: The parse tree in a heap, and how the parser adds what it reads to it. -/

import Mathlib.Logic.Function.Basic
import Cil.Parser.Lexer

set_option autoImplicit false
set_option relaxedAutoImplicit false

namespace Cil.Parser

/-- The flavors of the nodes of a parse tree, `CIL_ROOT` and `CIL_NODE`. -/
inductive NodeFlavor
  | root | node
  deriving DecidableEq, Repr

/-- `struct cil_tree_node`. -/
structure TreeNode where
  parent : Option Nat
  clHead : Option Nat
  clTail : Option Nat
  next : Option Nat
  data : Option Text
  flavor : NodeFlavor
  line : Nat
  path : Option Text

/-- What `cil_tree_node_init` makes of a node. -/
def treeNodeInit : TreeNode := ⟨none, none, none, none, none, .root, 0, none⟩

/-- The nodes; new ones are allocated from `size` on. -/
structure Heap where
  cells : Nat → TreeNode
  size : Nat

namespace Heap

/-- A node is written. -/
def write (h : Heap) (n : Nat) (x : TreeNode) : Heap :=
  { h with cells := Function.update h.cells n x }

def alloc (h : Heap) (x : TreeNode) : Heap :=
  { cells := Function.update h.cells h.size x, size := h.size + 1 }

/-- A node becomes the last child of another one. Without a result, a null pointer is written
through. -/
def append (h : Heap) (current n : Nat) : Option Heap :=
  match (h.cells current).clHead with
  | none =>
      let h := h.write current { h.cells current with clHead := some n }
      some (h.write current { h.cells current with clTail := some n })
  | some _ =>
      match (h.cells current).clTail with
      | none => none
      | some tail =>
          let h := h.write tail { h.cells tail with next := some n }
          some (h.write current { h.cells current with clTail := some n })

end Heap

/-- The variables of `cil_parser`. -/
structure ParserState where
  heap : Heap
  current : Option Nat
  parenCount : Int

/-- The node of a token below `current`. -/
def newNode (path : Text) (tok : Token) (current : Option Nat) (data : Option Text) : TreeNode :=
  { treeNodeInit with
    parent := current
    flavor := .node
    line := tok.line
    path := some path
    data := data }

/-- The node is allocated and becomes the last child of `current`. -/
def addNode (s : ParserState) (x : TreeNode) : Except Verdict Heap :=
  match s.current with
  | none => .error .crash
  | some current =>
      match (s.heap.alloc x).append current s.heap.size with
      | none => .error .crash
      | some h => .ok h

/-- The cases of the switch of `cil_parser`, the end of the file apart. -/
def parserStep (path : Text) (tok : Token) (s : ParserState) : Except Verdict ParserState :=
  match tok.type with
  | .oparen =>
      match addNode s (newNode path tok s.current none) with
      | .error v => .error v
      | .ok h => .ok ⟨h, some s.heap.size, s.parenCount + 1⟩
  | .cparen =>
      if s.parenCount - 1 < 0 then .error (.failure .err)
      else
        match s.current with
        | none => .error .crash
        | some current =>
            .ok { s with current := (s.heap.cells current).parent, parenCount := s.parenCount - 1 }
  | .symbol | .qstring =>
      if s.parenCount = 0 then .error (.failure .err)
      else
        match addNode s (newNode path tok s.current (some (tokenData tok))) with
        | .error v => .error v
        | .ok h => .ok { s with heap := h }
  | .comment => .ok s
  | .endOfFile => .ok s
  | .unknown => .error (.failure .err)

/-- The loop of `cil_parser`. -/
def parserTurns (path : Text) : Nat → Scanner → ParserState → Option (Except Verdict ParserState)
  | 0, _, _ => none
  | fuel + 1, scanner, s =>
      let (tok, scanner') := lexerNext scanner
      if tok.type = .endOfFile then
        if s.parenCount > 0 then some (.error (.failure .err)) else some (.ok s)
      else
        match parserStep path tok s with
        | .error v => some (.error v)
        | .ok s' => parserTurns path fuel scanner' s'

attribute [simp] parserTurns

/-- The nodes of the list are chained by `next`. -/
def Chained (h : Heap) : List Nat → Prop
  | [] => True
  | n :: rest => (h.cells n).next = rest.head? ∧ Chained h rest

attribute [simp] Chained

/-- The children of a node: they go from `cl_head` along `next` to `cl_tail`, and their `parent`
is the node. -/
structure Children (h : Heap) (p : Nat) (ids : List Nat) : Prop where
  head : (h.cells p).clHead = ids.head?
  tail : (h.cells p).clTail = ids.getLast?
  chained : Chained h ids
  parent : ∀ n ∈ ids, (h.cells n).parent = some p

/-- A tree with the children that its root has before the parser is called. -/
structure ParseTree where
  heap : Heap
  root : Nat
  previous : List Nat
  root_lt : root < heap.size
  previous_lt : ∀ n ∈ previous, n < heap.size
  root_not_mem : root ∉ previous
  children : Children heap root previous

/-- `cil_parser`. Without a result, it does not come to an end. -/
def cilParser (path buffer : Text) (tree : ParseTree) : Option (Except Verdict ParserState) :=
  parserTurns path (buffer.length + 1) (lexerSetup buffer) ⟨tree.heap, some tree.root, 0⟩

/-- The cases of the switch one token after the other. -/
def parserRun (path : Text) (s : ParserState) : List Token → Except Verdict ParserState
  | [] => if s.parenCount > 0 then .error (.failure .err) else .ok s
  | tok :: toks =>
      match parserStep path tok s with
      | .error v => .error v
      | .ok s' => parserRun path s' toks

attribute [simp] parserRun

/-- With enough fuel the loop ends, and works on the tokens of the buffer. -/
private theorem parserTurns_eq (path : Text) (fuel : Nat) (scanner : Scanner) (s : ParserState)
    (hfuel : scanner.rest.length < fuel) :
    parserTurns path fuel scanner s = some (parserRun path s (tokensFrom fuel scanner)) := by
  induction fuel generalizing scanner s with
  | zero => exact absurd hfuel (Nat.not_lt_zero _)
  | succ fuel ih =>
    simp only [parserTurns, tokensFrom]
    by_cases hend : (lexerNext scanner).1.type = .endOfFile
    · rw [if_pos hend, if_pos hend, parserRun]
      split_ifs <;> rfl
    · rw [if_neg hend, if_neg hend, parserRun]
      have hless := ((lexerNext_spec scanner).resolve_left hend).2
      cases parserStep path (lexerNext scanner).1 s with
      | error v => rfl
      | ok s' => exact ih _ s' (by omega)

theorem cilParser_eq (path buffer : Text) (tree : ParseTree) :
    cilParser path buffer tree
      = some (parserRun path ⟨tree.heap, some tree.root, 0⟩ (tokens buffer)) :=
  parserTurns_eq path (buffer.length + 1) (lexerSetup buffer) _ (Nat.lt_succ_self _)

end Cil.Parser
