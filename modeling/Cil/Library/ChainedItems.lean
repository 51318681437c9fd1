/- Cil/Library/ChainedItems
   digest: Items at addresses, each linked to the next one. -/

set_option autoImplicit false
set_option relaxedAutoImplicit false

namespace Cil.Library

/-- Data, and the address of the next item. -/
structure LinkedItem (α : Type) where
  data : α
  next : Option Nat
  deriving DecidableEq, Repr

section Chained

variable {α : Type} {items items' : Nat → Option (LinkedItem α)} {xs ys after : List (Nat × α)}
  {e : Nat × α} {stop : Option Nat}

/-- Where the items begin; behind them comes `stop`. -/
def firstOf : List (Nat × α) → Option Nat → Option Nat
  | [], stop => stop
  | e :: _, _ => some e.1

/-- The address of the last item. -/
def lastOf (xs : List (Nat × α)) : Option Nat := xs.getLast?.map Prod.fst

/-- The items with the entries are linked one to the next, and the last one to `stop`. -/
def Chained (items : Nat → Option (LinkedItem α)) : List (Nat × α) → Option Nat → Prop
  | [], _ => True
  | e :: xs, stop => items e.1 = some ⟨e.2, firstOf xs stop⟩ ∧ Chained items xs stop

theorem firstOf_append : firstOf (xs ++ ys) stop = firstOf xs (firstOf ys stop) := by
  cases xs with
  | nil => rfl
  | cons e xs => rfl

theorem chained_append :
    Chained items (xs ++ ys) stop ↔ Chained items xs (firstOf ys stop) ∧ Chained items ys stop := by
  induction xs with
  | nil => simp [Chained]
  | cons e xs ih => rw [List.cons_append, Chained, Chained, firstOf_append, ih, and_assoc]

theorem chained_singleton : Chained items [e] stop ↔ items e.1 = some ⟨e.2, stop⟩ := by
  simp [Chained, firstOf]

theorem Chained.congr (h : Chained items xs stop)
    (hsame : ∀ p ∈ xs.map Prod.fst, items' p = items p) : Chained items' xs stop := by
  induction xs with
  | nil => trivial
  | cons e xs ih =>
    obtain ⟨hitem, hrest⟩ := h
    rw [List.map_cons] at hsame
    refine ⟨(hsame e.1 List.mem_cons_self).trans hitem, ih hrest fun p hp => ?_⟩
    exact hsame p (List.mem_cons_of_mem _ hp)

theorem Chained.live (h : Chained items xs stop) {p : Nat} (hp : p ∈ xs.map Prod.fst) :
    items p ≠ none := by
  induction xs with
  | nil => cases hp
  | cons e xs ih =>
    rcases List.mem_cons.mp hp with rfl | hp
    · rw [h.1]
      simp
    · exact ih h.2 hp

theorem Chained.without (h : Chained items xs stop) {ps : List Nat}
    (happart : ∀ p ∈ xs.map Prod.fst, p ∉ ps) :
    Chained (fun p => if p ∈ ps then none else items p) xs stop :=
  h.congr fun p hp => if_neg (happart p hp)

theorem lastOf_append_singleton : lastOf (xs ++ [e]) = some e.1 := by
  simp [lastOf]

theorem lastOf_append_cons : lastOf (xs ++ e :: after) = lastOf (e :: after) := by
  simp [lastOf, List.getLast?_cons]

theorem lastOf_cons_cons (x : Nat × α) : lastOf (e :: x :: xs) = lastOf (x :: xs) := by
  simp [lastOf, List.getLast?_cons]

theorem lastOf_mem {p : Nat} (hp : lastOf xs = some p) : p ∈ xs.map Prod.fst := by
  rw [lastOf, Option.map_eq_some_iff] at hp
  obtain ⟨e, he, rfl⟩ := hp
  exact List.mem_map_of_mem (List.mem_of_getLast? he)

end Chained

end Cil.Library
