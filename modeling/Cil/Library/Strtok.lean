/- Cil/Library/Strtok
   digest: What successive calls of strtok_r return are the nonempty pieces between delimiters. -/

import Mathlib.Data.List.TakeWhile

set_option autoImplicit false
set_option relaxedAutoImplicit false

namespace Cil.Library.Strtok

variable {α : Type*} (p : α → Bool)

/-- One call of `strtok_r`: the next token if there is one, and what is left after the
delimiter that ends it. -/
def strtokR (s : List α) : Option (List α) × List α :=
  match s.dropWhile p with
  | [] => (none, [])
  | c :: cs => (some ((c :: cs).takeWhile (!p ·)), ((c :: cs).dropWhile (!p ·)).tail)

/-- The nonempty pieces between the delimiters. -/
def pieces (s : List α) : List (List α) := (s.splitOnP p).filter fun piece => !piece.isEmpty

/-- How a call cuts the string: delimiters, the token, the delimiter that ends it. -/
inductive Cut (s : List α) : Option (List α) → List α → Prop
  | none (hs : ∀ c ∈ s, p c = true) : Cut s none []
  | last {lead token : List α} (hs : s = lead ++ token) (hlead : ∀ c ∈ lead, p c = true)
      (htoken : ∀ c ∈ token, p c = false) (hne : token ≠ []) : Cut s (some token) []
  | more {lead token rest : List α} {c : α} (hs : s = lead ++ (token ++ c :: rest))
      (hlead : ∀ c ∈ lead, p c = true) (htoken : ∀ c ∈ token, p c = false) (hne : token ≠ [])
      (hc : p c = true) : Cut s (some token) rest

variable {p}

private theorem strtokR_cut (s : List α) : Cut p s (strtokR p s).1 (strtokR p s).2 := by
  have hlead : ∀ c ∈ s.takeWhile p, p c = true := fun c hc => List.mem_takeWhile_imp hc
  have hs : s = s.takeWhile p ++ s.dropWhile p := List.takeWhile_append_dropWhile.symm
  unfold strtokR
  cases hdrop : s.dropWhile p with
  | nil =>
      rw [hdrop, List.append_nil] at hs
      exact .none (hs ▸ hlead)
  | cons c cs =>
      have hc : p c = false := by
        have hhead :=
          List.head_dropWhile_not p (l := s) (by rw [hdrop]; exact List.cons_ne_nil c cs)
        simpa [hdrop] using hhead
      have htoken : ∀ d ∈ (c :: cs).takeWhile (!p ·), p d = false := by
        intro d hd
        have hnot := List.mem_takeWhile_imp hd
        simpa using hnot
      have hne : (c :: cs).takeWhile (!p ·) ≠ [] := by
        simp [hc]
      have hrest : c :: cs = (c :: cs).takeWhile (!p ·) ++ (c :: cs).dropWhile (!p ·) :=
        List.takeWhile_append_dropWhile.symm
      cases hend : (c :: cs).dropWhile (!p ·) with
      | nil =>
          simp only [hend]
          have hcut : s = s.takeWhile p ++ (c :: cs).takeWhile (!p ·) := by
            rw [hend, List.append_nil] at hrest
            rw [← hrest, ← hdrop]
            exact hs
          exact .last hcut hlead htoken hne
      | cons d ds =>
          have hd : p d = true := by
            have hhead := List.head_dropWhile_not (!p ·) (l := c :: cs)
              (by rw [hend]; exact List.cons_ne_nil d ds)
            simpa [hend] using hhead
          simp only [hend]
          have hcut : s = s.takeWhile p ++ ((c :: cs).takeWhile (!p ·) ++ d :: ds) := by
            rw [hend] at hrest
            rw [← hrest, ← hdrop]
            exact hs
          exact .more hcut hlead htoken hne hd

/-- A call takes its token and what stands before it off the string. -/
theorem strtokR_length (s : List α) :
    (strtokR p s).2.length + (strtokR p s).1.toList.length ≤ s.length := by
  have hcut := strtokR_cut (p := p) s
  cases hcall : strtokR p s with
  | mk current rest =>
      rw [hcall] at hcut
      change Cut p s current rest at hcut
      show rest.length + current.toList.length ≤ s.length
      cases hcut with
      | none hs => exact Nat.zero_le _
      | last hs hlead htoken hne =>
          have hpos : 0 < List.length _ := List.length_pos_iff.mpr hne
          rw [hs, List.length_append, List.length_nil, Option.toList_some, List.length_singleton]
          omega
      | more hs hlead htoken hne hc =>
          rw [hs, List.length_append, List.length_append, List.length_cons, Option.toList_some,
            List.length_singleton]
          omega

section Pieces

theorem pieces_cons {c : α} (s : List α) (hc : p c = true) : pieces p (c :: s) = pieces p s := by
  simp [pieces, List.splitOnP_cons_eq_if_modifyHead, hc]

theorem pieces_append {lead : List α} (s : List α) (hlead : ∀ c ∈ lead, p c = true) :
    pieces p (lead ++ s) = pieces p s := by
  induction lead with
  | nil => rfl
  | cons c lead ih =>
      have hc : p c = true := hlead c List.mem_cons_self
      rw [List.cons_append, pieces_cons _ hc]
      exact ih fun d hd => hlead d (List.mem_cons_of_mem _ hd)

private theorem pieces_nil : pieces p [] = [] := by
  simp [pieces]

theorem pieces_token {token : List α} (htoken : ∀ c ∈ token, p c = false) (hne : token ≠ []) :
    pieces p token = [token] := by
  rw [pieces, List.splitOnP_eq_singleton htoken]
  simp [hne]

theorem pieces_token_cons {token : List α} {c : α} (rest : List α)
    (htoken : ∀ c ∈ token, p c = false) (hne : token ≠ []) (hc : p c = true) :
    pieces p (token ++ c :: rest) = token :: pieces p rest := by
  rw [pieces, List.splitOnP_append_cons_of_forall_mem htoken c hc]
  simp [pieces, hne]

/-- The first of the pieces is what a call returns, and the others are those of the rest. -/
theorem pieces_strtokR (s : List α) :
    pieces p s = match (strtokR p s).1 with
      | none => []
      | some token => token :: pieces p (strtokR p s).2 := by
  have hcut := strtokR_cut (p := p) s
  cases hcall : strtokR p s with
  | mk current rest =>
      rw [hcall] at hcut
      cases hcut with
      | none hs =>
          have happend := pieces_append [] hs
          rw [List.append_nil, pieces_nil] at happend
          exact happend
      | last hs hlead htoken hne =>
          rw [hs, pieces_append _ hlead, pieces_token htoken hne, pieces_nil]
      | more hs hlead htoken hne hc =>
          rw [hs, pieces_append _ hlead, pieces_token_cons _ htoken hne hc]

theorem pieces_eq_nil_iff {s : List α} : pieces p s = [] ↔ ∀ c ∈ s, p c = true := by
  constructor
  · intro h
    have hcut := strtokR_cut (p := p) s
    rw [pieces_strtokR] at h
    cases hcall : strtokR p s with
    | mk current rest =>
        rw [hcall] at h hcut
        cases hcut with
        | none hs => exact hs
        | last hs hlead htoken hne => cases h
        | more hs hlead htoken hne hc => cases h
  · intro h
    have happend := pieces_append [] h
    rw [List.append_nil, pieces_nil] at happend
    exact happend

theorem strtokR_of_forall {s : List α} (h : ∀ c ∈ s, p c = true) : strtokR p s = (none, []) := by
  have hdrop : s.dropWhile p = [] := List.dropWhile_eq_nil_iff.mpr h
  unfold strtokR
  rw [hdrop]

end Pieces

end Cil.Library.Strtok
