/- Cil/Verify/Syntax
   digest: The loop that compares a statement with its syntax decides the patterns in use. -/

import Cil.Build.Syntax

set_option autoImplicit false
set_option relaxedAutoImplicit false

namespace Cil.Verify.Syntax

open Build

/-- The turns of the loop of `__cil_verify_syntax`: `i` is the element, `c` the node with its
later siblings and `extras` is `num_extras`. Without a result, the fuel is used up. -/
def verifyTurns (s : List Syn) : Nat → Nat → List ParseNode → Nat → Option Bool
  | 0, _, _, _ => none
  | fuel + 1, i, c, extras =>
      match s[i]? with
      | none => some true
      | some e =>
          if e.stop && c.isEmpty then some true
          else
            match c with
            | [] =>
                if e.nLists || e.nStrings then
                  if extras > 0 then verifyTurns s fuel (i + 1) [] extras else some false
                else some false
            | x :: rest =>
                if e.nLists && x.isList then verifyTurns s fuel i rest (extras + 1)
                else if e.nStrings && x.isString then verifyTurns s fuel i rest (extras + 1)
                else if e.string && x.isString then verifyTurns s fuel (i + 1) rest extras
                else if e.list && x.isList then verifyTurns s fuel (i + 1) rest extras
                else if e.emptyList && x.isEmptyList then verifyTurns s fuel (i + 1) rest extras
                else some false

attribute [simp] verifyTurns

/-- `__cil_verify_syntax` of a node with its later siblings. A turn passes an element or a node,
so that as much fuel as there are of both is enough. -/
def verifySyntax (s : List Syn) (nodes : List ParseNode) : Option Bool :=
  verifyTurns s (s.length + nodes.length + 1) 0 nodes 0

/-- The turns of the loop are those that go through the elements one by one. -/
private theorem verifyTurns_eq (s : List Syn) (fuel i : Nat) (c : List ParseNode) (extras : Nat)
    (hfuel : (s.length - i) + c.length < fuel) :
    verifyTurns s fuel i c extras = some (verifyElements (s.drop i) extras c) := by
  induction fuel generalizing i c extras with
  | zero => exact absurd hfuel (Nat.not_lt_zero _)
  | succ fuel ih =>
    cases hi : s[i]? with
    | none =>
      have hge : s.length ≤ i := List.getElem?_eq_none_iff.mp hi
      have hdrop : s.drop i = [] := List.drop_eq_nil_of_le hge
      rw [hdrop]
      simp only [verifyTurns, hi]
      rfl
    | some e =>
      obtain ⟨hlt, he⟩ := List.getElem?_eq_some_iff.mp hi
      have hdrop : s.drop i = e :: s.drop (i + 1) := by
        rw [List.drop_eq_getElem_cons hlt, he]
      rw [hdrop]
      cases c with
      | nil =>
        have hnext := ih (i + 1) [] extras (by simp only [List.length_nil] at hfuel ⊢; omega)
        simp only [verifyTurns, hi, hnext, verifyElements, verifyElement]
        by_cases hstop : e.stop = true
        · simp [hstop]
        · by_cases hrepeat : (e.nLists || e.nStrings) = true
          · by_cases hpos : extras > 0
            · simp [hstop, hrepeat, hpos]
            · simp [hstop, hpos]
          · simp [hstop, hrepeat]
      | cons x rest =>
        rw [List.length_cons] at hfuel
        have hstay := ih i rest (extras + 1) (by omega)
        have hnext := ih (i + 1) rest extras (by omega)
        rw [hdrop] at hstay
        simp only [verifyTurns, hi, hstay, hnext, verifyElements, verifyElement, Syn.repeats,
          Syn.takes]
        rw [List.isEmpty_cons, Bool.and_false, if_neg Bool.false_ne_true]
        by_cases hlists : (e.nLists && x.isList) = true
        · simp [hlists]
        · by_cases hstrings : (e.nStrings && x.isString) = true
          · simp [hstrings]
          · by_cases hstring : (e.string && x.isString) = true
            · simp [hlists, hstrings, hstring]
            · by_cases hlist : (e.list && x.isList) = true
              · simp [hlists, hstrings, hlist]
              · by_cases hempty : (e.emptyList && x.isEmptyList) = true
                · simp [hlists, hstrings, hempty]
                · simp [hlists, hstrings, hstring, hlist, hempty]

/-- The loop comes to an end, with the result that the builders' model takes it to have. -/
private theorem verifySyntax_eq (s : List Syn) (nodes : List ParseNode) :
    verifySyntax s nodes = some (Build.verifySyntax s nodes) := by
  have hturns := verifyTurns_eq s (s.length + nodes.length + 1) 0 nodes 0 (by omega)
  rw [List.drop_zero] at hturns
  exact hturns

/-- What a node is to a syntax. -/
inductive Kind
  | string
  | list
  | emptyList
  deriving DecidableEq, Repr

def kind : ParseNode → Kind
  | .string _ => .string
  | .list (_ :: _) => .list
  | .list [] => .emptyList

/-- An element for one node of some kinds, with `CIL_SYN_END` or not. -/
structure Single where
  kinds : Kind → Bool
  stop : Bool

/-- An element for any number of nodes, with `CIL_SYN_END` or not. -/
structure Repeated where
  lists : Bool
  strings : Bool
  stop : Bool
  some_kind : (lists || strings) = true

/-- The patterns in use: elements for one node, an element for any number of nodes or none such,
and `CIL_SYN_END`. -/
structure Pattern where
  singles : List Single
  repeated : Option Repeated

namespace Pattern

def singleSyn (e : Single) : Syn where
  string := e.kinds .string
  list := e.kinds .list
  emptyList := e.kinds .emptyList
  stop := e.stop

def repeatedSyn (e : Repeated) : Syn where
  nLists := e.lists
  nStrings := e.strings
  stop := e.stop

/-- The array that stands for a pattern. -/
def elements (p : Pattern) : List Syn :=
  p.singles.map singleSyn ++ (p.repeated.toList.map repeatedSyn ++ [{ stop := true }])

/-- A kind that the element takes. -/
def allowed (e : Repeated) : Kind → Bool
  | .string => e.strings
  | .list => e.lists
  | .emptyList => false

/-- What is left after the elements for one node. -/
def MatchesRest : Option Repeated → List ParseNode → Prop
  | none, nodes => nodes = []
  | some e, nodes => (∀ c ∈ nodes, allowed e (kind c) = true) ∧ (e.stop = false → nodes ≠ [])

def MatchesFrom (repeated : Option Repeated) : List Single → List ParseNode → Prop
  | [], nodes => MatchesRest repeated nodes
  | e :: singles, nodes =>
      (e.stop = true ∧ nodes = []) ∨
        ∃ c rest, nodes = c :: rest ∧ e.kinds (kind c) = true ∧ MatchesFrom repeated singles rest

attribute [simp] MatchesFrom

/-- The nodes are what the pattern says: each element for one node has a node of one of its
kinds, and with `CIL_SYN_END` the nodes may end before it; the other element has at least one
node, with `CIL_SYN_END` also none; and nothing is left over. -/
def Matches (p : Pattern) (nodes : List ParseNode) : Prop :=
  MatchesFrom p.repeated p.singles nodes

private theorem takes_singleSyn (e : Single) (c : ParseNode) :
    (singleSyn e).takes c = e.kinds (kind c) := by
  cases c with
  | string s => simp [Syn.takes, singleSyn, kind, ParseNode.isString, ParseNode.isList,
      ParseNode.isEmptyList]
  | list children =>
    cases children with
    | nil => simp [Syn.takes, singleSyn, kind, ParseNode.isString, ParseNode.isList,
        ParseNode.isEmptyList]
    | cons child children => simp [Syn.takes, singleSyn, kind, ParseNode.isString,
        ParseNode.isList, ParseNode.isEmptyList]

private theorem repeats_repeatedSyn (e : Repeated) (c : ParseNode) :
    (repeatedSyn e).repeats c = allowed e (kind c) := by
  cases c with
  | string s => simp [Syn.repeats, repeatedSyn, kind, allowed, ParseNode.isString,
      ParseNode.isList]
  | list children =>
    cases children with
    | nil => simp [Syn.repeats, repeatedSyn, kind, allowed, ParseNode.isString, ParseNode.isList]
    | cons child children => simp [Syn.repeats, repeatedSyn, kind, allowed, ParseNode.isString,
        ParseNode.isList]

/-- The element for any number of nodes goes through all that is left, once `extras` of them
have been passed. -/
private theorem verify_repeated (e : Repeated) (extras : Nat) (nodes : List ParseNode) :
    verifyElements [repeatedSyn e, { stop := true }] extras nodes = true ↔
      (∀ c ∈ nodes, allowed e (kind c) = true) ∧ (e.stop = false → nodes ≠ [] ∨ 0 < extras) := by
  induction nodes generalizing extras with
  | nil =>
    have hkind := e.some_kind
    by_cases hstop : e.stop = true
    · simp [verifyElements, verifyElement, repeatedSyn, hstop]
    · simp [verifyElements, verifyElement, repeatedSyn, hstop, hkind]
  | cons c rest ih =>
    rw [verifyElements, verifyElement, repeats_repeatedSyn]
    by_cases hc : allowed e (kind c) = true
    · rw [if_pos hc]
      have hrest := ih (extras + 1)
      rw [verifyElements] at hrest
      rw [hrest, List.forall_mem_cons]
      simp [hc]
    · have hnone : (repeatedSyn e).takes c = false := by simp [Syn.takes, repeatedSyn]
      rw [if_neg hc, hnone, Bool.false_and, List.forall_mem_cons]
      simp [hc]

private theorem verify_rest (repeated : Option Repeated) (nodes : List ParseNode) :
    verifyElements (repeated.toList.map repeatedSyn ++ [{ stop := true }]) 0 nodes = true ↔
      MatchesRest repeated nodes := by
  cases repeated with
  | none => exact verifyElement_stop
  | some e =>
    have hrest := verify_repeated e 0 nodes
    simpa [MatchesRest] using hrest

/-- The elements for one node pass what the pattern lets them pass. -/
private theorem verify_singles (repeated : Option Repeated) (singles : List Single)
    (nodes : List ParseNode) :
    verifyElements (singles.map singleSyn ++
        (repeated.toList.map repeatedSyn ++ [{ stop := true }])) 0 nodes = true ↔
      MatchesFrom repeated singles nodes := by
  induction singles generalizing nodes with
  | nil => exact verify_rest repeated nodes
  | cons e singles ih =>
    rw [List.map_cons, List.cons_append, verifyElements]
    cases nodes with
    | nil => simp [verifyElement, singleSyn]
    | cons c rest =>
      have hnone : (singleSyn e).repeats c = false := by simp [Syn.repeats, singleSyn]
      have htakes := takes_singleSyn e c
      rw [verifyElement, hnone, if_neg Bool.false_ne_true, htakes, Bool.and_eq_true, ih rest]
      constructor
      · intro h
        exact Or.inr ⟨c, rest, rfl, h⟩
      · intro h
        rcases h with ⟨-, hnil⟩ | ⟨_, _, heq, h⟩
        · cases hnil
        · cases heq
          exact h

end Pattern

/-- On the patterns in use the loop comes to an end, and succeeds if and only if the nodes match
the pattern. -/
theorem verifySyntax_decides (p : Pattern) (nodes : List ParseNode) :
    ∃ ok, verifySyntax p.elements nodes = some ok ∧ (ok = true ↔ p.Matches nodes) :=
  ⟨_, verifySyntax_eq p.elements nodes, Pattern.verify_singles p.repeated p.singles nodes⟩

end Cil.Verify.Syntax
