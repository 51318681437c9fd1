/- Cil/Resolve/Resets
   digest: The reset of class permissions, and what it needs to come to an end. -/

import Cil.Resolve.Passes
import Cil.Library.Descent

set_option autoImplicit false
set_option relaxedAutoImplicit false

namespace Cil.Resolve.Passes

open Cil.Library.Descent

variable {ω μ κ γ δ σ : Type}

section Resetting

variable {ops : Ops ω μ κ γ δ σ}

/-- The named sets that a list leads to, with nothing for an item that was freed. -/
def setsOf : Option (List (ClasspermsItem γ δ)) → List (Option δ)
  | none => []
  | some items => items.filterMap fun
      | .classperms _ => none
      | .set s => s.map some
      | .freed => some none

/-- The named sets in the list of a named set. -/
def setsBelow (classperms : δ → Option (List (ClasspermsItem γ δ))) (d : δ) : List (Option δ) :=
  setsOf (classperms d)

/-- What a list leads to is a set that can be followed to the end. -/
def Leads (classperms : δ → Option (List (ClasspermsItem γ δ))) (e : Option δ) : Prop :=
  ∃ d, e = some d ∧ Unfolds (setsBelow classperms) d

/-- The database has the same named sets and lists. -/
def SameSets (ops : Ops ω μ κ γ δ σ) (s s' : σ) : Prop :=
  ops.classperms s' = ops.classperms s ∧
    ∀ d, ops.classpermsLists d s' = ops.classpermsLists d s

theorem SameSets.trans {s s' s₂ : σ} (h : SameSets ops s s') (h' : SameSets ops s' s₂) :
    SameSets ops s s₂ :=
  ⟨h'.1.trans h.1, fun d => (h'.2 d).trans (h.2 d)⟩

private theorem resetItems_sameSets {below : Option (List (ClasspermsItem γ δ)) → σ → Option σ}
    (hbelow : ∀ l s s', below l s = some s' → SameSets ops s s')
    {items : List (ClasspermsItem γ δ)} {s s' : σ} (h : resetItems ops below items s = some s') :
    SameSets ops s s' := by
  induction items generalizing s with
  | nil =>
    cases h
    exact ⟨rfl, fun _ => rfl⟩
  | cons item items ih =>
    cases item with
    | classperms cp =>
      have hcp : SameSets ops s (ops.resetClassperms cp s) :=
        ⟨ops.classperms_resetClassperms cp s,
          fun d => ops.classpermsLists_resetClassperms d cp s⟩
      exact hcp.trans (ih h)
    | freed => cases h
    | set d =>
      cases d with
      | none => exact ih h
      | some d =>
        rw [resetItems] at h
        split at h
        · cases h
        · rename_i s₁ hd
          exact (hbelow _ _ _ hd).trans (ih h)

private theorem resetClasspermsList_sameSets {fuel : Nat} {l : Option (List (ClasspermsItem γ δ))}
    {s s' : σ} (h : resetClasspermsList ops fuel l s = some s') : SameSets ops s s' := by
  induction fuel generalizing l s s' with
  | zero => cases h
  | succ fuel ih =>
    cases l with
    | none =>
      cases h
      exact ⟨rfl, fun _ => rfl⟩
    | some items => exact resetItems_sameSets (fun l s s' => ih) h

private theorem resetLists_sameSets {fuel : Nat} {lists : List (Option (List (ClasspermsItem γ δ)))}
    {s s' : σ} (h : resetLists ops fuel lists s = some s') : SameSets ops s s' := by
  induction lists generalizing s with
  | nil =>
    cases h
    exact ⟨rfl, fun _ => rfl⟩
  | cons l lists ih =>
    rw [resetLists] at h
    split at h
    · cases h
    · rename_i s₁ hl
      exact (resetClasspermsList_sameSets hl).trans (ih h)

private theorem resetNode_sameSets {fuel : Nat} {d : NodeData ω μ κ} {s s' : σ}
    (h : resetNode ops fuel d s = some s') : SameSets ops s s' := by
  obtain ⟨s₁, hs₁, rfl⟩ := Option.map_eq_some_iff.mp h
  exact (resetLists_sameSets hs₁).trans
    ⟨ops.classperms_resetRest d s₁, fun d' => ops.classpermsLists_resetRest d' d s₁⟩

/-- What a reset that ends has unfolded. -/
private theorem resetItems_unfolds {below : Option (List (ClasspermsItem γ δ)) → σ → Option σ}
    (hsame : ∀ l s s', below l s = some s' → SameSets ops s s')
    (hbelow : ∀ d s s', below (ops.classperms s d) s = some s' →
      Unfolds (setsBelow (ops.classperms s)) d)
    {items : List (ClasspermsItem γ δ)} {s s' : σ}
    (h : resetItems ops below items s = some s') :
    ∀ e ∈ setsOf (some items), Leads (ops.classperms s) e := by
  induction items generalizing s with
  | nil =>
    intro d hd
    cases hd
  | cons item items ih =>
    cases item with
    | classperms cp =>
      have hrest := ih h
      rw [ops.classperms_resetClassperms] at hrest
      exact hrest
    | freed => cases h
    | set e =>
      cases e with
      | none => exact ih h
      | some e =>
        rw [resetItems] at h
        split at h
        · cases h
        · rename_i s₁ he
          have hrest := ih h
          rw [(hsame _ _ _ he).1] at hrest
          intro d hd
          rcases List.mem_cons.mp hd with heq | hd
          · exact ⟨e, heq, hbelow e s s₁ he⟩
          · exact hrest d hd

private theorem resetClasspermsList_unfolds {fuel : Nat} {l : Option (List (ClasspermsItem γ δ))}
    {s s' : σ} (h : resetClasspermsList ops fuel l s = some s') :
    ∀ e ∈ setsOf l, Leads (ops.classperms s) e := by
  induction fuel generalizing l s s' with
  | zero => cases h
  | succ fuel ih =>
    cases l with
    | none =>
      intro d hd
      cases hd
    | some items =>
      apply resetItems_unfolds (fun _ _ _ => resetClasspermsList_sameSets) _ h
      intro d s s' hd
      refine .intro (fun e he => ?_) fun b hb => ?_
      · obtain ⟨b, rfl, -⟩ := ih hd e he
        exact ⟨b, rfl⟩
      · obtain ⟨b', heq, hunf⟩ := ih hd _ hb
        cases heq
        exact hunf

/-- The reset of a list comes to an end from every database with these named sets. -/
def Resets (ops : Ops ω μ κ γ δ σ) (classperms : δ → Option (List (ClasspermsItem γ δ)))
    (fuel : Nat) (l : Option (List (ClasspermsItem γ δ))) : Prop :=
  ∀ s, ops.classperms s = classperms → ∃ s', resetClasspermsList ops fuel l s = some s'

private theorem resetItems_resets {classperms : δ → Option (List (ClasspermsItem γ δ))} {fuel : Nat}
    {items : List (ClasspermsItem γ δ)}
    (h : ∀ e ∈ setsOf (some items), ∃ d, e = some d ∧ Resets ops classperms fuel (classperms d)) :
    Resets ops classperms (fuel + 1) (some items) := by
  intro s hs
  show ∃ s', resetItems ops (resetClasspermsList ops fuel) items s = some s'
  induction items generalizing s with
  | nil => exact ⟨s, rfl⟩
  | cons item items ih =>
    cases item with
    | classperms cp =>
      apply ih h
      rw [ops.classperms_resetClassperms]
      exact hs
    | freed =>
      obtain ⟨d, hd, -⟩ := h none List.mem_cons_self
      cases hd
    | set e =>
      cases e with
      | none => exact ih h s hs
      | some e =>
        obtain ⟨d, hd, hresets⟩ := h (some e) List.mem_cons_self
        cases hd
        obtain ⟨s₁, hs₁⟩ := hresets s hs
        have hsame := (resetClasspermsList_sameSets hs₁).1
        obtain ⟨s', hs'⟩ := ih (fun d hd => h d (List.mem_cons_of_mem _ hd)) s₁ (hsame.trans hs)
        refine ⟨s', ?_⟩
        rw [resetItems, hs, hs₁]
        exact hs'

/-- Enough fuel for finitely many is enough for all of them. -/
private theorem exists_bound {α : Type} {p : Nat → α → Prop} {xs : List α}
    (h : ∀ x ∈ xs, ∃ m, ∀ fuel, m ≤ fuel → p fuel x) :
    ∃ m, ∀ fuel, m ≤ fuel → ∀ x ∈ xs, p fuel x := by
  induction xs with
  | nil =>
    refine ⟨0, ?_⟩
    intro fuel _ x hx
    cases hx
  | cons x xs ih =>
    obtain ⟨m, hm⟩ := h x List.mem_cons_self
    obtain ⟨n, hn⟩ := ih fun y hy => h y (List.mem_cons_of_mem x hy)
    refine ⟨max m n, ?_⟩
    intro fuel hle y hy
    rcases List.mem_cons.mp hy with heq | hy
    · rw [heq]
      exact hm fuel (by omega)
    · exact hn fuel (by omega) y hy

private theorem resets_of_sets {classperms : δ → Option (List (ClasspermsItem γ δ))}
    {l : Option (List (ClasspermsItem γ δ))}
    (h : ∀ e ∈ setsOf l, ∃ d, e = some d ∧
      ∃ m, ∀ fuel, m ≤ fuel → Resets ops classperms fuel (classperms d)) :
    ∃ m, ∀ fuel, m ≤ fuel → Resets ops classperms fuel l := by
  have heach : ∀ e ∈ setsOf l, ∃ m, ∀ fuel, m ≤ fuel →
      ∃ d, e = some d ∧ Resets ops classperms fuel (classperms d) := by
    intro e he
    obtain ⟨d, hd, m, hm⟩ := h e he
    exact ⟨m, fun fuel hle => ⟨d, hd, hm fuel hle⟩⟩
  obtain ⟨m, hm⟩ := exists_bound heach
  refine ⟨m + 1, ?_⟩
  intro fuel hle
  obtain ⟨fuel, rfl⟩ : ∃ n, fuel = n + 1 := ⟨fuel - 1, by omega⟩
  cases l with
  | none =>
    intro s _
    exact ⟨s, rfl⟩
  | some items => exact resetItems_resets (hm fuel (by omega))

private theorem resets_of_unfolds {classperms : δ → Option (List (ClasspermsItem γ δ))} {d : δ}
    (h : Unfolds (setsBelow classperms) d) :
    ∃ m, ∀ fuel, m ≤ fuel → Resets ops classperms fuel (classperms d) := by
  induction h with
  | intro hsome _ ih =>
    apply resets_of_sets
    intro e he
    obtain ⟨b, rfl⟩ := hsome e he
    exact ⟨b, rfl, ih b he⟩

private theorem resetLists_of_unfolds {classperms : δ → Option (List (ClasspermsItem γ δ))}
    {lists : List (Option (List (ClasspermsItem γ δ)))}
    (h : ∀ l ∈ lists, ∀ e ∈ setsOf l, Leads classperms e) :
    ∃ m, ∀ fuel, m ≤ fuel → ∀ s, ops.classperms s = classperms →
      ∃ s', resetLists ops fuel lists s = some s' := by
  have hall : ∀ l ∈ lists, ∃ m, ∀ fuel, m ≤ fuel → Resets ops classperms fuel l := by
    intro l hl
    refine resets_of_sets fun e he => ?_
    obtain ⟨d, hd, hunf⟩ := h l hl e he
    exact ⟨d, hd, resets_of_unfolds hunf⟩
  obtain ⟨m, hm⟩ := exists_bound hall
  refine ⟨m, ?_⟩
  intro fuel hle
  have hlists := hm fuel hle
  clear hall h
  induction lists with
  | nil => exact fun s _ => ⟨s, rfl⟩
  | cons l lists ih =>
    intro s hs
    obtain ⟨s₁, hs₁⟩ := hlists l List.mem_cons_self s hs
    obtain ⟨s', hs'⟩ := ih (fun fuel hle l' hl' => hm fuel hle l' (List.mem_cons_of_mem l hl'))
      (fun l' hl' => hlists l' (List.mem_cons_of_mem l hl')) s₁
      ((resetClasspermsList_sameSets hs₁).1.trans hs)
    refine ⟨s', ?_⟩
    rw [resetLists, hs₁]
    exact hs'

/-- The named sets that the reset of these nodes starts from. -/
def resetStarts (ops : Ops ω μ κ γ δ σ) (nodes : List (NodeData ω μ κ)) (s : σ) :
    List (Option δ) :=
  nodes.flatMap fun d => (ops.classpermsLists d s).flatMap setsOf

theorem resetNodes_unfolds {fuel : Nat} {nodes : List (NodeData ω μ κ)} {s s' : σ}
    (h : resetNodes ops fuel nodes s = some s') :
    ∀ e ∈ resetStarts ops nodes s, Leads (ops.classperms s) e := by
  have hlists : ∀ lists s s', resetLists ops fuel lists s = some s' →
      ∀ l ∈ lists, ∀ e ∈ setsOf l, Leads (ops.classperms s) e := by
    intro lists
    induction lists with
    | nil =>
      intro s s' _ l hl
      cases hl
    | cons l lists ih =>
      intro s s' h l' hl'
      rw [resetLists] at h
      split at h
      · cases h
      · rename_i s₁ hl
        rcases List.mem_cons.mp hl' with heq | hl'
        · rw [heq]
          exact resetClasspermsList_unfolds hl
        · have hrest := ih s₁ s' h l' hl'
          rw [(resetClasspermsList_sameSets hl).1] at hrest
          exact hrest
  induction nodes generalizing s with
  | nil =>
    intro d hd
    cases hd
  | cons n nodes ih =>
    rw [resetNodes] at h
    split at h
    · cases h
    · rename_i s₁ hn
      have hsame := resetNode_sameSets hn
      have hrest := ih h
      rw [hsame.1] at hrest
      obtain ⟨s₂, hs₂, _⟩ := Option.map_eq_some_iff.mp hn
      intro d hd
      rcases List.mem_append.mp hd with hd | hd
      · obtain ⟨l, hl, hdl⟩ := List.mem_flatMap.mp hd
        exact hlists _ _ _ hs₂ l hl d hdl
      · apply hrest d
        obtain ⟨n', hn', hd⟩ := List.mem_flatMap.mp hd
        rw [← hsame.2 n'] at hd
        exact List.mem_flatMap.mpr ⟨n', hn', hd⟩

theorem resetNodes_of_unfolds {nodes : List (NodeData ω μ κ)} {s : σ}
    (h : ∀ e ∈ resetStarts ops nodes s, Leads (ops.classperms s) e) :
    ∃ m, ∀ fuel, m ≤ fuel → ∀ s₁, SameSets ops s s₁ →
      ∃ s', resetNodes ops fuel nodes s₁ = some s' := by
  induction nodes with
  | nil => exact ⟨0, fun fuel _ s₁ _ => ⟨s₁, rfl⟩⟩
  | cons n nodes ih =>
    have hn : ∀ l ∈ ops.classpermsLists n s, ∀ e ∈ setsOf l, Leads (ops.classperms s) e := by
      intro l hl d hd
      exact h d (List.mem_append_left _ (List.mem_flatMap.mpr ⟨l, hl, hd⟩))
    have hlists : ∃ m, ∀ fuel, m ≤ fuel → ∀ s₁, ops.classperms s₁ = ops.classperms s →
        ∃ s', resetLists ops fuel (ops.classpermsLists n s) s₁ = some s' :=
      resetLists_of_unfolds hn
    obtain ⟨m, hm⟩ := hlists
    obtain ⟨m', hm'⟩ := ih fun d hd => h d (List.mem_append_right _ hd)
    refine ⟨max m m', ?_⟩
    intro fuel hle s₁ hs₁
    obtain ⟨s₂, hs₂⟩ := hm fuel (by omega) s₁ hs₁.1
    have hnode : resetNode ops fuel n s₁ = some (ops.resetRest n s₂) := by
      rw [resetNode, hs₁.2 n, hs₂]
      rfl
    obtain ⟨s', hs'⟩ := hm' fuel (by omega) _ (hs₁.trans (resetNode_sameSets hnode))
    refine ⟨s', ?_⟩
    rw [resetNodes, hnode]
    exact hs'

private theorem resetItems_mono {below below' : Option (List (ClasspermsItem γ δ)) → σ → Option σ}
    (hbelow : ∀ l s s', below l s = some s' → below' l s = some s')
    {items : List (ClasspermsItem γ δ)} {s s' : σ} (h : resetItems ops below items s = some s') :
    resetItems ops below' items s = some s' := by
  induction items generalizing s with
  | nil => exact h
  | cons item items ih =>
    cases item with
    | classperms cp => exact ih h
    | freed => cases h
    | set d =>
      cases d with
      | none => exact ih h
      | some d =>
        rw [resetItems] at h ⊢
        split at h
        · cases h
        · rename_i s₁ hd
          rw [hbelow _ _ _ hd]
          exact ih h

private theorem resetClasspermsList_mono {fuel fuel' : Nat} (hle : fuel ≤ fuel')
    {l : Option (List (ClasspermsItem γ δ))} {s s' : σ}
    (h : resetClasspermsList ops fuel l s = some s') :
    resetClasspermsList ops fuel' l s = some s' := by
  induction fuel generalizing fuel' l s s' with
  | zero => cases h
  | succ fuel ih =>
    obtain ⟨fuel', rfl⟩ : ∃ n, fuel' = n + 1 := ⟨fuel' - 1, by omega⟩
    cases l with
    | none => exact h
    | some items => exact resetItems_mono (fun l s s' => ih (by omega)) h

private theorem resetLists_mono {fuel fuel' : Nat} (hle : fuel ≤ fuel')
    {lists : List (Option (List (ClasspermsItem γ δ)))} {s s' : σ}
    (h : resetLists ops fuel lists s = some s') : resetLists ops fuel' lists s = some s' := by
  induction lists generalizing s with
  | nil => exact h
  | cons l lists ih =>
    rw [resetLists] at h ⊢
    split at h
    · cases h
    · rename_i s₁ hl
      rw [resetClasspermsList_mono hle hl]
      exact ih h

theorem resetAst_mono {fuel fuel' : Nat} (hle : fuel ≤ fuel')
    {ast : List (Tree (NodeData ω μ κ))} {s s' : σ} (h : resetAst ops fuel ast s = some s') :
    resetAst ops fuel' ast s = some s' := by
  unfold resetAst at h ⊢
  generalize Cil.walkSiblings (fun _ => false) ast = nodes at h ⊢
  induction nodes generalizing s with
  | nil => exact h
  | cons d nodes ih =>
    rw [resetNodes] at h ⊢
    split at h
    · cases h
    · rename_i s₁ hd
      obtain ⟨s₂, hs₂, heq⟩ := Option.map_eq_some_iff.mp hd
      rw [resetNode, resetLists_mono hle hs₂, Option.map_some, heq]
      exact ih h

theorem resetAst_unique {fuel fuel' : Nat} {ast : List (Tree (NodeData ω μ κ))} {s s₁ s₂ : σ}
    (h : resetAst ops fuel ast s = some s₁) (h' : resetAst ops fuel' ast s = some s₂) :
    s₁ = s₂ := by
  have hmax := resetAst_mono (Nat.le_max_left fuel fuel') h
  have hmax' := resetAst_mono (Nat.le_max_right fuel fuel') h'
  exact Option.some.inj (hmax.symm.trans hmax')

end Resetting

end Cil.Resolve.Passes
