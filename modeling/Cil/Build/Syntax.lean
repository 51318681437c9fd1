/- Cil/Build/Syntax
   digest: Parse trees, and the check of a statement against its syntax. -/

import Mathlib.Data.List.Basic
import Cil.Basic

set_option autoImplicit false
set_option relaxedAutoImplicit false

namespace Cil.Build

/-- A node of the parse tree: a string, or what stands in parentheses. -/
inductive ParseNode
  | string (s : String)
  | list (children : List ParseNode)

namespace ParseNode

/-- The field `data`, null in a list. -/
def data : ParseNode → Option String
  | .string s => some s
  | .list _ => none

def isString : ParseNode → Bool
  | .string _ => true
  | .list _ => false

/-- A list that is not empty. -/
def isList : ParseNode → Bool
  | .list (_ :: _) => true
  | _ => false

def isEmptyList : ParseNode → Bool
  | .list [] => true
  | _ => false

end ParseNode

/-- An element of a syntax: the flags `CIL_SYN_STRING`, `CIL_SYN_LIST`, `CIL_SYN_EMPTY_LIST`,
`CIL_SYN_N_LISTS`, `CIL_SYN_N_STRINGS` and `CIL_SYN_END`. -/
structure Syn where
  string : Bool := false
  list : Bool := false
  emptyList : Bool := false
  nLists : Bool := false
  nStrings : Bool := false
  stop : Bool := false
  deriving DecidableEq, Repr

/-- One of the nodes that may occur any number of times. -/
def Syn.repeats (s : Syn) (c : ParseNode) : Bool :=
  s.nLists && c.isList || s.nStrings && c.isString

/-- A node that the element takes once. -/
def Syn.takes (s : Syn) (c : ParseNode) : Bool :=
  s.string && c.isString || s.list && c.isList || s.emptyList && c.isEmptyList

/-- The turns of the loop of `__cil_verify_syntax` that stay at the element `s`, with the count
`num_extras`; `next` goes on with the next element. -/
def verifyElement (next : Nat → List ParseNode → Bool) (s : Syn) : Nat → List ParseNode → Bool
  | extras, [] => s.stop || (s.nLists || s.nStrings) && decide (extras > 0) && next extras []
  | extras, c :: rest =>
      if s.repeats c then verifyElement next s (extras + 1) rest
      else s.takes c && next extras rest

/-- `__cil_verify_syntax` from an element on. -/
def verifyElements : List Syn → Nat → List ParseNode → Bool
  | [] => fun _ _ => true
  | s :: rest => verifyElement (verifyElements rest) s

/-- `__cil_verify_syntax`. -/
def verifySyntax (syn : List Syn) (nodes : List ParseNode) : Bool := verifyElements syn 0 nodes

theorem verifyElement_stop {next : Nat → List ParseNode → Bool} {extras : Nat}
    {nodes : List ParseNode} :
    verifyElement next { stop := true } extras nodes = true ↔ nodes = [] := by
  cases nodes with
  | nil => simp [verifyElement]
  | cons c rest => simp [verifyElement, Syn.repeats, Syn.takes]

/-- An element that takes one node. -/
theorem verifyElement_one {next : Nat → List ParseNode → Bool} {s : Syn} {extras : Nat}
    {nodes : List ParseNode} (hs : s.nLists = false ∧ s.nStrings = false ∧ s.stop = false) :
    verifyElement next s extras nodes = true ↔
      ∃ c rest, nodes = c :: rest ∧ s.takes c = true ∧ next extras rest = true := by
  obtain ⟨hlists, hstrings, hstop⟩ := hs
  cases nodes with
  | nil => simp [verifyElement, hlists, hstrings, hstop]
  | cons c rest =>
    rw [verifyElement, if_neg (by simp [Syn.repeats, hlists, hstrings]), Bool.and_eq_true]
    constructor
    · intro h
      exact ⟨c, rest, rfl, h⟩
    · intro h
      obtain ⟨_, _, heq, h⟩ := h
      cases heq
      exact h

/-- Nodes that may occur any number of times, at least once. -/
theorem verifyElement_all {next : Nat → List ParseNode → Bool} {s : Syn}
    (hs : s.string = false ∧ s.list = false ∧ s.emptyList = false ∧ s.stop = false)
    (nodes : List ParseNode) :
    ∀ extras, verifyElement next s extras nodes = true →
      (∀ c ∈ nodes, s.repeats c = true) ∧ (nodes = [] → 0 < extras) := by
  obtain ⟨hstring, hlist, hempty, hstop⟩ := hs
  induction nodes with
  | nil =>
    intro extras h
    simp only [verifyElement, hstop, Bool.false_or, Bool.and_eq_true, decide_eq_true_eq] at h
    exact ⟨by simp, fun _ => h.1.2⟩
  | cons c rest ih =>
    intro extras h
    rw [verifyElement] at h
    split_ifs at h with hc
    · refine ⟨?_, by simp⟩
      intro x hx
      rcases List.mem_cons.mp hx with rfl | hx
      · exact hc
      · exact (ih _ h).1 x hx
    · simp [Syn.takes, hstring, hlist, hempty] at h

end Cil.Build
