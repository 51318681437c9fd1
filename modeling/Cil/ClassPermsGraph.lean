/- Cil/ClassPermsGraph
   digest: The recursions over class permissions end where the lists form no cycle. -/

import Cil.ClassPerms
import Cil.Library.Descent

set_option autoImplicit false
set_option relaxedAutoImplicit false

namespace Cil.ClassPerms

open Cil.Library.Descent

variable {κ δ : Type}

/-- What a permission item leads to: an operand leads nowhere a call could go. -/
def permSuccessor : PermItem δ → Option δ
  | .perm p => some p
  | .operand => none

def itemSuccessors : Item κ δ → List (Option δ)
  | .kernel _ => []
  | .map perms => perms.map permSuccessor
  | .set s => [some s]

/-- Everything a list mentions. A null list cannot be followed. -/
def successors : ItemList κ δ → List (Option δ)
  | none => [none]
  | some items => items.flatMap itemSuccessors

variable (classperms : δ → ItemList κ δ)

/-- Edges to every set and map permission mentioned anywhere in the list. -/
abbrev mentions (a : δ) : List (Option δ) := successors (classperms a)

/-- Nothing a list leads to is a cycle or a list that cannot be followed. -/
def Followable (l : ItemList κ δ) : Prop := ∀ e ∈ successors l, Fine (mentions classperms) e

theorem followable_iff [Finite δ] {l : ItemList κ δ} :
    Followable classperms l ↔
      ∀ e ∈ successors l, ∃ b, e = some b ∧ Unfolds (mentions classperms) b := by
  refine forall₂_congr fun e _ => exists_congr fun b => and_congr_right fun _ => ?_
  exact unfolds_iff.symm

variable {classperms}

section Done

variable {σ : Type} {leaf : σ → κ → Rc × σ}

/-- The recursion from `l` comes to an end from every state. -/
def Done (below : σ → ItemList κ δ → Option (Walked σ))
    (l : ItemList κ δ) : Prop :=
  ∀ state, ∃ rc state', below state l = some (.done rc state')

private theorem andThen_done {r : Option (Walked σ)} {next : σ → Option (Walked σ)}
    (hr : ∃ rc state, r = some (.done rc state))
    (hnext : ∀ state, ∃ rc state', next state = some (.done rc state')) :
    ∃ rc state, Walked.andThen r next = some (.done rc state) := by
  obtain ⟨rc, state, rfl⟩ := hr
  cases rc with
  | ok => exact hnext state
  | _ => exact ⟨_, _, rfl⟩

private theorem walkPerms_done {below : σ → ItemList κ δ → Option (Walked σ)}
    {perms : List (PermItem δ)}
    (h : ∀ e ∈ perms.map permSuccessor, ∃ b, e = some b ∧ Done below (classperms b))
    (state : σ) : ∃ rc state', walkPerms classperms below state perms = some (.done rc state') := by
  induction perms generalizing state with
  | nil => exact ⟨_, _, rfl⟩
  | cons i perms ih =>
    obtain ⟨b, hb, hdone⟩ := h _ List.mem_cons_self
    have hrest := ih fun e he => h e (List.mem_cons_of_mem _ he)
    cases i with
    | operand => cases hb
    | perm p =>
      obtain rfl := Option.some.inj hb
      exact andThen_done (hdone state) hrest

private theorem walkItems_done {below : σ → ItemList κ δ → Option (Walked σ)}
    {items : List (Item κ δ)}
    (h : ∀ e ∈ successors (some items), ∃ b, e = some b ∧ Done below (classperms b))
    (state : σ) :
    ∃ rc state', walkItems classperms leaf below state items = some (.done rc state') := by
  induction items generalizing state with
  | nil => exact ⟨_, _, rfl⟩
  | cons i items ih =>
    have hi := fun e he => h e (List.mem_flatMap.mpr ⟨i, List.mem_cons_self, he⟩)
    have hrest := ih fun e he => h e (by
      obtain ⟨x, hx, hex⟩ := List.mem_flatMap.mp he
      exact List.mem_flatMap.mpr ⟨x, List.mem_cons_of_mem i hx, hex⟩)
    cases i with
    | kernel cp => exact andThen_done ⟨_, _, rfl⟩ hrest
    | map perms => exact andThen_done (walkPerms_done hi state) hrest
    | set s =>
      obtain ⟨b, hb, hdone⟩ := hi (some s) List.mem_cons_self
      obtain rfl := Option.some.inj hb
      exact andThen_done (hdone state) hrest

/-- The recursion ends once its depth suffices for everything the list mentions. -/
private theorem walk_done {l : ItemList κ δ}
    (h : ∀ e ∈ successors l, ∃ b m, e = some b ∧
      ∀ fuel, m ≤ fuel → Done (walk classperms leaf fuel) (classperms b)) :
    ∃ m, ∀ fuel, m ≤ fuel → Done (walk classperms leaf fuel) l := by
  have hbound : ∃ m, ∀ e ∈ successors l, ∃ b, e = some b ∧
      ∀ fuel, m ≤ fuel → Done (walk classperms leaf fuel) (classperms b) := by
    generalize successors l = es at h
    induction es with
    | nil => exact ⟨0, by simp⟩
    | cons e es ih =>
      obtain ⟨b, m, hb, hm⟩ := h e List.mem_cons_self
      obtain ⟨n, hn⟩ := ih fun x hx => h x (List.mem_cons_of_mem e hx)
      refine ⟨max m n, fun x hx => ?_⟩
      rcases List.mem_cons.mp hx with rfl | hx
      · exact ⟨b, hb, fun fuel hle => hm fuel (by omega)⟩
      · obtain ⟨c, hc, hfuel⟩ := hn x hx
        exact ⟨c, hc, fun fuel hle => hfuel fuel (by omega)⟩
  obtain ⟨m, hm⟩ := hbound
  refine ⟨m + 1, fun fuel hle state => ?_⟩
  obtain ⟨fuel, rfl⟩ : ∃ n, fuel = n + 1 := ⟨fuel - 1, by omega⟩
  cases l with
  | none =>
    obtain ⟨b, hb, _⟩ := hm none List.mem_cons_self
    cases hb
  | some items =>
    apply walkItems_done
    intro e he
    obtain ⟨b, hb, hfuel⟩ := hm e he
    exact ⟨b, hb, hfuel fuel (by omega)⟩

theorem walk_of_unfolds {a : δ} (h : Unfolds (mentions classperms) a) :
    ∃ m, ∀ fuel, m ≤ fuel → Done (walk classperms leaf fuel) (classperms a) := by
  induction h with
  | intro hsome _ ih =>
    apply walk_done
    intro e he
    obtain ⟨b, rfl⟩ := hsome e he
    obtain ⟨m, hm⟩ := ih b he
    exact ⟨b, m, rfl, hm⟩

/-- The recursions end on every followable list. -/
theorem walk_of_followable [Finite δ] {l : ItemList κ δ} (h : Followable classperms l) (state : σ) :
    ∃ fuel rc state', walk classperms leaf fuel state l = some (.done rc state') := by
  have hdone : ∃ m, ∀ fuel, m ≤ fuel → Done (walk classperms leaf fuel) l := by
    apply walk_done
    intro e he
    obtain ⟨b, rfl, hb⟩ := followable_iff classperms |>.mp h e he
    obtain ⟨m, hm⟩ := walk_of_unfolds hb
    exact ⟨b, m, rfl, hm⟩
  obtain ⟨m, hm⟩ := hdone
  obtain ⟨rc, state', h⟩ := hm m (Nat.le_refl m) state
  exact ⟨m, rc, state', h⟩

end Done

section Converse

variable {σ : Type} {leaf : σ → κ → Rc × σ}

private theorem of_andThen {r : Option (Walked σ)} {next : σ → Option (Walked σ)} {rc : Rc}
    {state' : σ} (h : Walked.andThen r next = some (.done rc state'))
    (hr : ∀ rc state, r = some (.done rc state) → rc = .ok) :
    ∃ state, r = some (.done .ok state) ∧ next state = some (.done rc state') := by
  cases r with
  | none => cases h
  | some w =>
    cases w with
    | crash => cases h
    | done rc' state =>
      obtain rfl := hr rc' state rfl
      exact ⟨state, rfl, h⟩

/-- Calls that end have unfolded the list they were made for. -/
def Unfolded (classperms : δ → ItemList κ δ)
    (below : σ → ItemList κ δ → Option (Walked σ)) : Prop :=
  ∀ state b rc state', below state (classperms b) = some (.done rc state') →
    rc = .ok ∧ Unfolds (mentions classperms) b

private theorem of_walkPerms {below : σ → ItemList κ δ → Option (Walked σ)}
    (hbelow : Unfolded classperms below) {perms : List (PermItem δ)} {state state' : σ} {rc : Rc}
    (h : walkPerms classperms below state perms = some (.done rc state')) :
    rc = .ok ∧
      ∀ e ∈ perms.map permSuccessor, ∃ b, e = some b ∧ Unfolds (mentions classperms) b := by
  induction perms generalizing state with
  | nil =>
    cases h
    exact ⟨rfl, by simp⟩
  | cons i perms ih =>
    cases i with
    | operand => cases h
    | perm p =>
      obtain ⟨mid, hp, hrest⟩ := of_andThen h fun rc st hst => (hbelow state p rc st hst).1
      obtain ⟨hrc, hall⟩ := ih hrest
      refine ⟨hrc, fun e he => ?_⟩
      rcases List.mem_cons.mp he with rfl | he
      · exact ⟨p, rfl, (hbelow state p .ok mid hp).2⟩
      · exact hall e he

private theorem of_walkItems (hleaf : ∀ state cp, (leaf state cp).1 = .ok)
    {below : σ → ItemList κ δ → Option (Walked σ)} (hbelow : Unfolded classperms below)
    {items : List (Item κ δ)} {state state' : σ} {rc : Rc}
    (h : walkItems classperms leaf below state items = some (.done rc state')) :
    rc = .ok ∧ ∀ e ∈ successors (some items),
      ∃ b, e = some b ∧ Unfolds (mentions classperms) b := by
  induction items generalizing state with
  | nil =>
    cases h
    exact ⟨rfl, by simp [successors]⟩
  | cons i items ih =>
    have hsplit : ∀ e ∈ successors (some (i :: items)),
        e ∈ itemSuccessors i ∨ e ∈ successors (some items) := by
      intro e he
      simpa [successors] using he
    cases i with
    | kernel cp =>
      obtain ⟨mid, _, hrest⟩ := of_andThen h fun rc st hst => by
        cases hst
        exact hleaf state cp
      obtain ⟨hrc, hall⟩ := ih hrest
      exact ⟨hrc, fun e he => (hsplit e he).elim (fun he => absurd he List.not_mem_nil) (hall e)⟩
    | map perms =>
      obtain ⟨mid, hp, hrest⟩ := of_andThen h fun rc st hst => (of_walkPerms hbelow hst).1
      obtain ⟨hrc, hall⟩ := ih hrest
      exact ⟨hrc, fun e he => (hsplit e he).elim ((of_walkPerms hbelow hp).2 e) (hall e)⟩
    | set s =>
      obtain ⟨mid, hp, hrest⟩ := of_andThen h fun rc st hst => (hbelow state s rc st hst).1
      obtain ⟨hrc, hall⟩ := ih hrest
      refine ⟨hrc, fun e he => (hsplit e he).elim (fun he => ?_) (hall e)⟩
      exact ⟨s, List.mem_singleton.mp he, (hbelow state s .ok mid hp).2⟩

/-- A recursion that never gives up on a kernel class ends on nothing but followable lists. -/
theorem of_walk (hleaf : ∀ state cp, (leaf state cp).1 = .ok) {fuel : Nat} {l : ItemList κ δ}
    {state state' : σ} {rc : Rc} (h : walk classperms leaf fuel state l = some (.done rc state')) :
    rc = .ok ∧ ∀ e ∈ successors l, ∃ b, e = some b ∧ Unfolds (mentions classperms) b := by
  induction fuel generalizing l state state' rc with
  | zero => cases h
  | succ fuel ih =>
    have hbelow : Unfolded classperms (walk classperms leaf fuel) := by
      intro st b rc st' hb
      obtain ⟨hrc, hall⟩ := ih hb
      refine ⟨hrc, Unfolds.intro (fun e he => ?_) fun c hc => ?_⟩
      · obtain ⟨c, hc, _⟩ := hall e he
        exact ⟨c, hc⟩
      · obtain ⟨c', hc', hunf⟩ := hall (some c) hc
        exact Option.some.inj hc' ▸ hunf
    cases l with
    | none => cases h
    | some items => exact of_walkItems hleaf hbelow h

theorem followable_of_walk (hleaf : ∀ state cp, (leaf state cp).1 = .ok) {fuel : Nat}
    {l : ItemList κ δ} {state state' : σ} {rc : Rc}
    (h : walk classperms leaf fuel state l = some (.done rc state')) : Followable classperms l := by
  intro e he
  obtain ⟨b, hb, hunf⟩ := (of_walk hleaf h).2 e he
  exact ⟨b, hb, hunf.not_trouble⟩

end Converse

end Cil.ClassPerms
