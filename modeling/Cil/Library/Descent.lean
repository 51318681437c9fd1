/- Cil/Library/Descent
   digest: Depth-first descent in a graph of ordered successors, and how it can end. -/

import Mathlib.Data.Fintype.EquivFin
import Mathlib.Order.WellFounded
import Mathlib.Data.Finite.Defs
import Mathlib.Logic.Relation

/-!
A vertex has a list of successors, in order. A successor `none` is a place where a
descent gets stuck. A descent looks for a goal and goes down into every other successor;
it keeps no record of where it has been.
-/

set_option autoImplicit false
set_option relaxedAutoImplicit false

namespace Cil.Library.Descent

open Relation

variable {α : Type*} (succ : α → List (Option α))

def Edge (a b : α) : Prop := some b ∈ succ a

/-- Everything below `a` can be unfolded in finitely many steps without getting stuck. -/
inductive Unfolds : α → Prop
  | intro {a : α} : (∀ e ∈ succ a, ∃ b, e = some b) → (∀ b, Edge succ a b → Unfolds b) → Unfolds a

/-- A cycle or a place to get stuck at is below `a`. -/
def Trouble (a : α) : Prop :=
  ∃ b, ReflTransGen (Edge succ) a b ∧ (none ∈ succ b ∨ TransGen (Edge succ) b b)

/-- A successor without trouble. -/
def Fine (e : Option α) : Prop := ∃ b, e = some b ∧ ¬ Trouble succ b

/-- `b` is the first successor of `a` in trouble. -/
def FirstTrouble (a b : α) : Prop :=
  ∃ pre post, succ a = pre ++ some b :: post ∧ (∀ e ∈ pre, Fine succ e) ∧ Trouble succ b

variable {succ}

theorem Unfolds.edge {a b : α} (h : Unfolds succ a) (hab : Edge succ a b) : Unfolds succ b := by
  cases h with
  | intro _ hall => exact hall b hab

theorem Unfolds.reaches {a b : α} (h : Unfolds succ a) (hab : ReflTransGen (Edge succ) a b) :
    Unfolds succ b := by
  induction hab with
  | refl => exact h
  | tail _ hbc ih => exact ih.edge hbc

private theorem Unfolds.not_stuck {a : α} (h : Unfolds succ a) : none ∉ succ a := by
  cases h with
  | intro hsome _ =>
    intro hnone
    obtain ⟨b, hb⟩ := hsome none hnone
    cases hb

theorem Unfolds.not_cyclic {a : α} (h : Unfolds succ a) : ¬ TransGen (Edge succ) a a := by
  induction h with
  | intro _ _ ih =>
    intro hcycle
    obtain ⟨b, hab, hba⟩ := TransGen.head'_iff.mp hcycle
    exact ih b hab (TransGen.tail' hba hab)

theorem Unfolds.not_trouble {a : α} (h : Unfolds succ a) : ¬ Trouble succ a := by
  rintro ⟨b, hab, hstuck | hcycle⟩
  · exact (h.reaches hab).not_stuck hstuck
  · exact (h.reaches hab).not_cyclic hcycle

/-- In a finite graph trouble is all that keeps a vertex from unfolding. -/
theorem unfolds_iff [Finite α] {a : α} : Unfolds succ a ↔ ¬ Trouble succ a := by
  constructor
  · exact Unfolds.not_trouble
  · intro h
    let below (x y : {b // ReflTransGen (Edge succ) a b}) : Prop :=
      TransGen (Edge succ) y.1 x.1
    have htrans : IsTrans _ below := ⟨fun x y z hxy hyz => hyz.trans hxy⟩
    have hirrefl : Std.Irrefl below := ⟨fun x hx => h ⟨x.1, x.2, Or.inr hx⟩⟩
    have hwf : WellFounded below := Finite.wellFounded_of_trans_of_irrefl below
    have hall : ∀ x : {b // ReflTransGen (Edge succ) a b}, Unfolds succ x.1 := by
      intro x
      induction x using hwf.induction with
      | _ x ih =>
        refine Unfolds.intro (fun e he => ?_) fun b hb => ?_
        · cases e with
          | none => exact absurd ⟨x.1, x.2, Or.inl he⟩ h
          | some b => exact ⟨b, rfl⟩
        · exact ih ⟨b, x.2.tail hb⟩ (TransGen.single hb)
    exact hall ⟨a, ReflTransGen.refl⟩

private theorem Trouble.of_edge {a b : α} (h : Trouble succ b)
    (hab : ReflTransGen (Edge succ) a b) :
    Trouble succ a := by
  obtain ⟨c, hbc, hc⟩ := h
  exact ⟨c, hab.trans hbc, hc⟩

theorem FirstTrouble.edge {a b : α} (h : FirstTrouble succ a b) : Edge succ a b := by
  obtain ⟨pre, post, hsucc, _⟩ := h
  rw [Edge, hsucc]
  simp

/-- How a descent ends: nothing found, the goal found, or stuck. -/
inductive Outcome
  | clean | found | stuck
  deriving DecidableEq, Repr

variable [DecidableEq α]

/-- The descent into one list of successors. -/
def descendList (goal : α) (below : α → Option Outcome) : List (Option α) → Option Outcome
  | [] => some .clean
  | none :: _ => some .stuck
  | some b :: rest =>
      if b = goal then some .found
      else
        match below b with
        | some .clean => descendList goal below rest
        | r => r

/-- The descent from a vertex; `none` when the fuel for its depth runs out. -/
def descend (succ : α → List (Option α)) (goal : α) : Nat → α → Option Outcome
  | 0, _ => none
  | fuel + 1, a => descendList goal (descend succ goal fuel) (succ a)

attribute [simp] descendList

/-- A successor that a descent leaves behind. -/
def Passed (goal : α) (below : α → Option Outcome) (e : Option α) : Prop :=
  ∃ b, e = some b ∧ b ≠ goal ∧ below b = some .clean

private theorem descendList_passed {goal : α} {below : α → Option Outcome} {pre : List (Option α)}
    (h : ∀ e ∈ pre, Passed goal below e) (post : List (Option α)) :
    descendList goal below (pre ++ post) = descendList goal below post := by
  induction pre with
  | nil => rfl
  | cons e pre ih =>
    obtain ⟨b, rfl, hb, hclean⟩ := h e List.mem_cons_self
    have hrest := ih fun x hx => h x (List.mem_cons_of_mem _ hx)
    simp only [List.cons_append, descendList, if_neg hb, hclean]
    exact hrest

private theorem descendList_clean {goal : α} {below : α → Option Outcome} {l : List (Option α)} :
    descendList goal below l = some .clean ↔ ∀ e ∈ l, Passed goal below e := by
  constructor
  · intro h
    induction l with
    | nil => simp
    | cons e l ih =>
      cases e with
      | none => simp [descendList] at h
      | some b =>
        simp only [descendList] at h
        split_ifs at h with hb
        · cases h
        · split at h
          · rename_i hclean
            intro x hx
            rcases List.mem_cons.mp hx with rfl | hx
            · exact ⟨b, rfl, hb, hclean⟩
            · exact ih h x hx
          · rename_i hnot
            exact absurd h hnot
  · intro h
    have := descendList_passed h []
    rwa [List.append_nil] at this

theorem descendList_append {goal : α} {below : α → Option Outcome} (l l' : List (Option α)) :
    descendList goal below (l ++ l') =
      match descendList goal below l with
      | some .clean => descendList goal below l'
      | r => r := by
  induction l with
  | nil => rfl
  | cons e l ih =>
    cases e with
    | none => rfl
    | some b =>
      simp only [List.cons_append, descendList]
      split_ifs
      · rfl
      · split
        · exact ih
        · rename_i hnot
          split
          · rename_i hclean
            exact absurd hclean hnot
          · rfl

private theorem descendList_found {goal : α} {below : α → Option Outcome} {l : List (Option α)}
    (h : descendList goal below l = some .found) :
    ∃ pre b post, l = pre ++ some b :: post ∧ (∀ e ∈ pre, Passed goal below e) ∧
      (b = goal ∨ below b = some .found) := by
  induction l with
  | nil => simp [descendList] at h
  | cons e l ih =>
    cases e with
    | none => simp [descendList] at h
    | some b =>
      simp only [descendList] at h
      split_ifs at h with hb
      · exact ⟨[], b, l, rfl, by simp, Or.inl hb⟩
      · split at h
        · rename_i hclean
          obtain ⟨pre, c, post, rfl, hpre, hc⟩ := ih h
          refine ⟨some b :: pre, c, post, rfl, fun x hx => ?_, hc⟩
          rcases List.mem_cons.mp hx with rfl | hx
          · exact ⟨b, rfl, hb, hclean⟩
          · exact hpre x hx
        · exact ⟨[], b, l, rfl, by simp, Or.inr h⟩

private theorem descendList_mono {goal : α} {below below' : α → Option Outcome}
    (h : ∀ b r, below b = some r → below' b = some r) {l : List (Option α)} {r : Outcome}
    (hl : descendList goal below l = some r) : descendList goal below' l = some r := by
  induction l with
  | nil => exact hl
  | cons e l ih =>
    cases e with
    | none => exact hl
    | some b =>
      simp only [descendList] at hl ⊢
      split_ifs with hb
      · rwa [if_pos hb] at hl
      · rw [if_neg hb] at hl
        cases hbelow : below b with
        | none => simp [hbelow] at hl
        | some d =>
          rw [hbelow] at hl
          rw [h b d hbelow]
          cases d with
          | clean => exact ih hl
          | found => exact hl
          | stuck => exact hl

private theorem descend_succ {goal : α} {fuel : Nat} {a : α} {r : Outcome}
    (h : descend succ goal fuel a = some r) : descend succ goal (fuel + 1) a = some r := by
  induction fuel generalizing a r with
  | zero => simp [descend] at h
  | succ fuel ih =>
    rw [descend] at h ⊢
    exact descendList_mono (fun b r hb => ih hb) h

/-- More fuel does not change an answer. -/
theorem descend_mono {goal : α} {fuel fuel' : Nat} (hle : fuel ≤ fuel') {a : α} {r : Outcome}
    (h : descend succ goal fuel a = some r) : descend succ goal fuel' a = some r := by
  induction hle with
  | refl => exact h
  | step _ ih => exact descend_succ ih

private theorem descend_unique {goal : α} {fuel fuel' : Nat} {a : α} {r r' : Outcome}
    (h : descend succ goal fuel a = some r) (h' : descend succ goal fuel' a = some r') :
    r = r' := by
  have hmax := descend_mono (Nat.le_max_left fuel fuel') h
  have hmax' := descend_mono (Nat.le_max_right fuel fuel') h'
  exact Option.some.inj (hmax.symm.trans hmax')

private theorem unfolds_of_descend {goal : α} {fuel : Nat} {a : α}
    (h : descend succ goal fuel a = some .clean) : Unfolds succ a := by
  induction fuel generalizing a with
  | zero => simp [descend] at h
  | succ fuel ih =>
    rw [descend, descendList_clean] at h
    refine Unfolds.intro (fun e he => ?_) fun b hb => ?_
    · obtain ⟨b, hb, _⟩ := h e he
      exact ⟨b, hb⟩
    · obtain ⟨c, hc, _, hclean⟩ := h (some b) hb
      obtain rfl := Option.some.inj hc
      exact ih hclean

/-- One amount of fuel suffices for all successors of a list. -/
theorem exists_fuel {goal : α} {l : List (Option α)}
    (h : ∀ e ∈ l, ∃ b fuel, e = some b ∧ b ≠ goal ∧ descend succ goal fuel b = some .clean) :
    ∃ fuel, ∀ e ∈ l, Passed goal (descend succ goal fuel) e := by
  induction l with
  | nil => exact ⟨0, by simp⟩
  | cons e l ih =>
    obtain ⟨b, m, he, hb, hclean⟩ := h e List.mem_cons_self
    obtain ⟨n, hn⟩ := ih fun x hx => h x (List.mem_cons_of_mem e hx)
    refine ⟨max m n, fun x hx => ?_⟩
    rcases List.mem_cons.mp hx with rfl | hx
    · exact ⟨b, he, hb, descend_mono (Nat.le_max_left m n) hclean⟩
    · obtain ⟨c, hc, hne, hclean'⟩ := hn x hx
      exact ⟨c, hc, hne, descend_mono (Nat.le_max_right m n) hclean'⟩

private theorem descend_of_unfolds {goal a : α} (h : Unfolds succ a)
    (hgoal : ¬ TransGen (Edge succ) a goal) : ∃ fuel, descend succ goal fuel a = some .clean := by
  induction h with
  | @intro a hsome _ ih =>
    have hall : ∀ e ∈ succ a, ∃ b fuel, e = some b ∧ b ≠ goal ∧
        descend succ goal fuel b = some .clean := by
      intro e he
      obtain ⟨b, rfl⟩ := hsome e he
      have hab : Edge succ a b := he
      obtain ⟨fuel, hclean⟩ := ih b hab fun hb => hgoal (TransGen.head hab hb)
      refine ⟨b, fuel, rfl, ?_, hclean⟩
      intro hb
      exact hgoal (hb ▸ TransGen.single hab)
    obtain ⟨fuel, hpass⟩ := exists_fuel hall
    exact ⟨fuel + 1, by rw [descend]; exact descendList_clean.mpr hpass⟩

private theorem trouble_of_descend_found {s : α} (hs : Trouble succ s) {fuel : Nat} {a : α}
    (h : descend succ s fuel a = some .found) :
    Trouble succ a ∧ TransGen (FirstTrouble succ) a s := by
  induction fuel generalizing a with
  | zero => simp [descend] at h
  | succ fuel ih =>
    rw [descend] at h
    obtain ⟨pre, b, post, hsucc, hpass, hb⟩ := descendList_found h
    have hfine : ∀ e ∈ pre, Fine succ e := by
      intro e he
      obtain ⟨c, hc, _, hclean⟩ := hpass e he
      exact ⟨c, hc, (unfolds_of_descend hclean).not_trouble⟩
    have hb' : Trouble succ b ∧ (b = s ∨ TransGen (FirstTrouble succ) b s) := by
      rcases hb with rfl | hb
      · exact ⟨hs, Or.inl rfl⟩
      · exact ⟨(ih hb).1, Or.inr (ih hb).2⟩
    have hab : FirstTrouble succ a b := ⟨pre, post, hsucc, hfine, hb'.1⟩
    refine ⟨hb'.1.of_edge (ReflTransGen.single hab.edge), ?_⟩
    rcases hb'.2 with rfl | hbs
    · exact TransGen.single hab
    · exact TransGen.head hab hbs

section Finite

variable [Finite α]

/-- A descent for its own start comes to an end empty-handed exactly if nothing is wrong
below the start. -/
theorem descend_clean_iff {s : α} :
    (∃ fuel, descend succ s fuel s = some .clean) ↔ ¬ Trouble succ s := by
  rw [← unfolds_iff]
  exact ⟨fun ⟨_, h⟩ => unfolds_of_descend h, fun h => descend_of_unfolds h h.not_cyclic⟩

private theorem passed_of_fine {s : α} (hs : Trouble succ s) {l : List (Option α)}
    (h : ∀ e ∈ l, Fine succ e) : ∃ fuel, ∀ e ∈ l, Passed s (descend succ s fuel) e := by
  apply exists_fuel
  intro e he
  obtain ⟨b, rfl, hb⟩ := h e he
  have hbs : ¬ TransGen (Edge succ) b s := fun hbs => hb (hs.of_edge hbs.to_reflTransGen)
  obtain ⟨fuel, hclean⟩ := descend_of_unfolds (unfolds_iff.mpr hb) hbs
  refine ⟨b, fuel, rfl, ?_, hclean⟩
  intro he
  exact hb (he ▸ hs)

private theorem descend_found_of_trouble {s a : α} (h : TransGen (FirstTrouble succ) a s) :
    ∃ fuel, descend succ s fuel a = some .found := by
  have hs : Trouble succ s := by
    obtain ⟨_, _, _, _, _, _, hs⟩ := TransGen.tail'_iff.mp h
    exact hs
  induction h using TransGen.head_induction_on with
  | single hstep =>
    obtain ⟨pre, post, hsucc, hfine, _⟩ := hstep
    obtain ⟨fuel, hpass⟩ := passed_of_fine hs hfine
    refine ⟨fuel + 1, ?_⟩
    rw [descend, hsucc, descendList_passed hpass, descendList, if_pos rfl]
  | @head a b hstep _ ih =>
    obtain ⟨pre, post, hsucc, hfine, _⟩ := hstep
    obtain ⟨m, hpass⟩ := passed_of_fine hs hfine
    obtain ⟨n, hfound⟩ := ih
    refine ⟨max m n + 1, ?_⟩
    have hpass' : ∀ e ∈ pre, Passed s (descend succ s (max m n)) e := by
      intro e he
      obtain ⟨c, hc, hne, hclean⟩ := hpass e he
      exact ⟨c, hc, hne, descend_mono (Nat.le_max_left m n) hclean⟩
    rw [descend, hsucc, descendList_passed hpass', descendList]
    split_ifs with hb
    · rfl
    · rw [descend_mono (Nat.le_max_right m n) hfound]

/-- A descent for its own start finds it exactly if the first successors in trouble lead
back to it. -/
theorem descend_found_iff {s : α} :
    (∃ fuel, descend succ s fuel s = some .found) ↔ TransGen (FirstTrouble succ) s s := by
  constructor
  · rintro ⟨fuel, h⟩
    have hs : Trouble succ s := by
      by_contra hs
      obtain ⟨fuel', hclean⟩ := descend_clean_iff.mpr hs
      cases descend_unique h hclean
    exact (trouble_of_descend_found hs h).2
  · exact descend_found_of_trouble

end Finite

end Cil.Library.Descent
