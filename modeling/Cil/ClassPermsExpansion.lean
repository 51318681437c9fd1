/- Cil/ClassPermsExpansion
   digest: What class permission lists expand to, and what a recursion does with all of it. -/

import Cil.ClassPerms
import Cil.Library.Lasting

set_option autoImplicit false
set_option relaxedAutoImplicit false

namespace Cil.ClassPerms

open Cil.Library

variable {κ δ σ : Type}

/-- Permissions of a kernel class are among what a list stands for, directly or through map
permissions and sets. -/
inductive Expands (classperms : δ → ItemList κ δ) : List (Item κ δ) → κ → Prop
  | kernel {items : List (Item κ δ)} {cp : κ} (h : .kernel cp ∈ items) :
      Expands classperms items cp
  | map {items below : List (Item κ δ)} {perms : List (PermItem δ)} {p : δ} {cp : κ}
      (h : .map perms ∈ items) (hp : .perm p ∈ perms) (hbelow : classperms p = some below)
      (hcp : Expands classperms below cp) : Expands classperms items cp
  | set {items below : List (Item κ δ)} {s : δ} {cp : κ}
      (h : .set s ∈ items) (hbelow : classperms s = some below)
      (hcp : Expands classperms below cp) : Expands classperms items cp

variable {classperms : δ → ItemList κ δ} {leaf : σ → κ → Rc × σ} {R : σ → σ → Prop}
  {fact : κ → σ → Prop}

/-- A recursion that succeeds has established the facts about all that its list stands for. -/
def Covers (classperms : δ → ItemList κ δ) (R : σ → σ → Prop) (fact : κ → σ → Prop)
    (below : σ → ItemList κ δ → Option (Walked σ)) : Prop :=
  ∀ s l s', below s l = some (.done .ok s') →
    ∃ items, l = some items ∧ R s s' ∧ ∀ cp, Expands classperms items cp → fact cp s'

theorem andThen_ok {r : Option (Walked σ)} {next : σ → Option (Walked σ)} {s' : σ}
    (h : Walked.andThen r next = some (.done .ok s')) :
    ∃ s, r = some (.done .ok s) ∧ next s = some (.done .ok s') := by
  unfold Walked.andThen at h
  split at h
  · exact ⟨_, rfl, h⟩
  · rename_i hne
    exact absurd h (hne s')

section Covering

variable (P : Progress R) (hlasts : ∀ cp, Lasts R (fact cp))
  (hleaf : ∀ s cp s', leaf s cp = (.ok, s') → R s s' ∧ fact cp s')

include P hlasts

/-- The facts about what the map permissions `perms` stand for. -/
private theorem walkPerms_covers {below : σ → ItemList κ δ → Option (Walked σ)}
    (hbelow : Covers classperms R fact below) {perms : List (PermItem δ)} {s s' : σ}
    (h : walkPerms classperms below s perms = some (.done .ok s')) :
    R s s' ∧ ∀ p, .perm p ∈ perms → ∃ items, classperms p = some items ∧
      ∀ cp, Expands classperms items cp → fact cp s' := by
  induction perms generalizing s with
  | nil =>
    simp only [walkPerms, Option.some.injEq, Walked.done.injEq, true_and] at h
    subst h
    exact ⟨P.refl s, by simp⟩
  | cons i perms ih =>
    cases i with
    | operand => cases h
    | perm p =>
      obtain ⟨t, hp, hrest⟩ := andThen_ok h
      obtain ⟨items, hitems, hR, hfacts⟩ := hbelow s _ t hp
      obtain ⟨hR', hperms⟩ := ih hrest
      refine ⟨P.trans s t s' hR hR', ?_⟩
      intro q hq
      rcases List.mem_cons.mp hq with heq | hq
      · cases heq
        exact ⟨items, hitems, fun cp hcp => hlasts cp t s' hR' (hfacts cp hcp)⟩
      · exact hperms q hq

include hleaf

private theorem walkItems_covers {below : σ → ItemList κ δ → Option (Walked σ)}
    (hbelow : Covers classperms R fact below) {items : List (Item κ δ)} {s s' : σ}
    (h : walkItems classperms leaf below s items = some (.done .ok s')) :
    R s s' ∧ ∀ cp, Expands classperms items cp → fact cp s' := by
  induction items generalizing s with
  | nil =>
    simp only [walkItems, Option.some.injEq, Walked.done.injEq, true_and] at h
    subst h
    refine ⟨P.refl s, ?_⟩
    intro cp hcp
    cases hcp with
    | kernel h => cases h
    | map h => cases h
    | set h => cases h
  | cons i items ih =>
    cases i with
    | kernel cp =>
      obtain ⟨t, hcp, hrest⟩ := andThen_ok h
      have hok : leaf s cp = (.ok, t) := by
        cases hpair : leaf s cp with
        | mk rc u =>
          rw [hpair] at hcp
          cases hcp
          rfl
      obtain ⟨hR, hfact⟩ := hleaf s cp t hok
      obtain ⟨hR', hfacts⟩ := ih hrest
      refine ⟨P.trans s t s' hR hR', ?_⟩
      intro cp' hcp'
      cases hcp' with
      | kernel hmem =>
        rcases List.mem_cons.mp hmem with heq | hmem
        · cases heq
          exact hlasts cp t s' hR' hfact
        · exact hfacts cp' (.kernel hmem)
      | map hmem hp hl hcp' =>
        exact hfacts cp' (.map ((List.mem_cons.mp hmem).resolve_left (by simp)) hp hl hcp')
      | set hmem hl hcp' =>
        exact hfacts cp' (.set ((List.mem_cons.mp hmem).resolve_left (by simp)) hl hcp')
    | map perms =>
      obtain ⟨t, hperms, hrest⟩ := andThen_ok h
      obtain ⟨hR, hcover⟩ := walkPerms_covers P hlasts hbelow hperms
      obtain ⟨hR', hfacts⟩ := ih hrest
      refine ⟨P.trans s t s' hR hR', ?_⟩
      intro cp' hcp'
      cases hcp' with
      | kernel hmem =>
        exact hfacts cp' (.kernel ((List.mem_cons.mp hmem).resolve_left (by simp)))
      | map hmem hp hl hcp' =>
        rcases List.mem_cons.mp hmem with heq | hmem
        · cases heq
          obtain ⟨items', hitems', hfact⟩ := hcover _ hp
          obtain rfl : _ = items' := Option.some.inj (hl.symm.trans hitems')
          exact hlasts cp' t s' hR' (hfact cp' hcp')
        · exact hfacts cp' (.map hmem hp hl hcp')
      | set hmem hl hcp' =>
        exact hfacts cp' (.set ((List.mem_cons.mp hmem).resolve_left (by simp)) hl hcp')
    | set d =>
      obtain ⟨t, hd, hrest⟩ := andThen_ok h
      obtain ⟨items', hitems', hR, hfact⟩ := hbelow s _ t hd
      obtain ⟨hR', hfacts⟩ := ih hrest
      refine ⟨P.trans s t s' hR hR', ?_⟩
      intro cp' hcp'
      cases hcp' with
      | kernel hmem =>
        exact hfacts cp' (.kernel ((List.mem_cons.mp hmem).resolve_left (by simp)))
      | map hmem hp hl hcp' =>
        exact hfacts cp' (.map ((List.mem_cons.mp hmem).resolve_left (by simp)) hp hl hcp')
      | set hmem hl hcp' =>
        rcases List.mem_cons.mp hmem with heq | hmem
        · cases heq
          obtain rfl : _ = items' := Option.some.inj (hl.symm.trans hitems')
          exact hlasts cp' t s' hR' (hfact cp' hcp')
        · exact hfacts cp' (.set hmem hl hcp')

/-- What the step establishes for the permissions of one kernel class, the recursion
establishes for all that the list stands for. -/
theorem walk_covers (fuel : Nat) : Covers classperms R fact (walk classperms leaf fuel) := by
  induction fuel with
  | zero =>
    intro s l s' h
    cases h
  | succ fuel ih =>
    intro s l s' h
    cases l with
    | none => cases h
    | some items =>
      obtain ⟨hR, hfacts⟩ := walkItems_covers P hlasts hleaf ih h
      exact ⟨items, rfl, hR, hfacts⟩

end Covering

section Preserving

variable {I : σ → Prop}

/-- The step succeeds on the permissions `cp` and keeps the invariant. -/
def Preserves (leaf : σ → κ → Rc × σ) (I : σ → Prop) (cp : κ) : Prop :=
  ∀ s, I s → ∃ s', leaf s cp = (.ok, s') ∧ I s'

/-- Calls that end on a list have succeeded and kept the invariant, if the step does so on all
that the list stands for. -/
def PreservesBelow (classperms : δ → ItemList κ δ) (leaf : σ → κ → Rc × σ) (I : σ → Prop)
    (below : σ → ItemList κ δ → Option (Walked σ)) : Prop :=
  ∀ items, (∀ cp, Expands classperms items cp → Preserves leaf I cp) →
    ∀ s rc s', I s → below s (some items) = some (.done rc s') → rc = .ok ∧ I s'

private theorem andThen_preserves {r : Option (Walked σ)} {next : σ → Option (Walked σ)} {rc : Rc}
    {s' : σ} (h : Walked.andThen r next = some (.done rc s'))
    (hr : ∀ rc s, r = some (.done rc s) → rc = .ok ∧ I s)
    (hnext : ∀ s, I s → ∀ rc s', next s = some (.done rc s') → rc = .ok ∧ I s') :
    rc = .ok ∧ I s' := by
  cases r with
  | none => cases h
  | some w =>
    cases w with
    | crash => cases h
    | done rc₁ s₁ =>
      obtain ⟨rfl, hs₁⟩ := hr rc₁ s₁ rfl
      exact hnext s₁ hs₁ rc s' h

private theorem walkPerms_preserves {below : σ → ItemList κ δ → Option (Walked σ)}
    (hbelow : PreservesBelow classperms leaf I below)
    (hnull : ∀ s, ∀ rc s', below s none ≠ some (.done rc s')) {perms : List (PermItem δ)}
    (h : ∀ p, .perm p ∈ perms → ∀ items, classperms p = some items →
      ∀ cp, Expands classperms items cp → Preserves leaf I cp)
    (s : σ) (hs : I s) (rc : Rc) (s' : σ)
    (hrun : walkPerms classperms below s perms = some (.done rc s')) : rc = .ok ∧ I s' := by
  induction perms generalizing s rc s' with
  | nil =>
    cases hrun
    exact ⟨rfl, hs⟩
  | cons i perms ih =>
    cases i with
    | operand => cases hrun
    | perm p =>
      refine andThen_preserves hrun ?_ fun s₁ hs₁ rc s' hrest =>
        ih (fun q hq => h q (List.mem_cons_of_mem _ hq)) s₁ hs₁ rc s' hrest
      intro rc₁ s₁ hp
      cases hitems : classperms p with
      | none =>
        rw [hitems] at hp
        exact absurd hp (hnull s rc₁ s₁)
      | some items =>
        rw [hitems] at hp
        exact hbelow items (h p List.mem_cons_self items hitems) s rc₁ s₁ hs hp

private theorem walkItems_preserves {below : σ → ItemList κ δ → Option (Walked σ)}
    (hbelow : PreservesBelow classperms leaf I below)
    (hnull : ∀ s, ∀ rc s', below s none ≠ some (.done rc s')) {items : List (Item κ δ)}
    (h : ∀ cp, Expands classperms items cp → Preserves leaf I cp)
    (s : σ) (hs : I s) (rc : Rc) (s' : σ)
    (hrun : walkItems classperms leaf below s items = some (.done rc s')) : rc = .ok ∧ I s' := by
  induction items generalizing s rc s' with
  | nil =>
    cases hrun
    exact ⟨rfl, hs⟩
  | cons i items ih =>
    have hrest : ∀ s₁, I s₁ → ∀ rc s', walkItems classperms leaf below s₁ items =
        some (.done rc s') → rc = .ok ∧ I s' := by
      intro s₁ hs₁ rc s' hrun
      refine ih (fun cp hcp => h cp ?_) s₁ hs₁ rc s' hrun
      cases hcp with
      | kernel hmem => exact .kernel (List.mem_cons_of_mem i hmem)
      | map hmem hp hl hcp => exact .map (List.mem_cons_of_mem i hmem) hp hl hcp
      | set hmem hl hcp => exact .set (List.mem_cons_of_mem i hmem) hl hcp
    cases i with
    | kernel cp =>
      refine andThen_preserves hrun ?_ hrest
      intro rc₁ s₁ heq
      obtain ⟨s₂, hleaf, hs₂⟩ := h cp (.kernel List.mem_cons_self) s hs
      rw [hleaf] at heq
      cases heq
      exact ⟨rfl, hs₂⟩
    | map perms =>
      refine andThen_preserves hrun ?_ hrest
      refine walkPerms_preserves hbelow hnull (fun p hp below hl cp hcp => ?_) s hs
      exact h cp (.map List.mem_cons_self hp hl hcp)
    | set d =>
      refine andThen_preserves hrun ?_ hrest
      intro rc₁ s₁ heq
      cases hitems : classperms d with
      | none =>
        rw [hitems] at heq
        exact absurd heq (hnull s rc₁ s₁)
      | some items' =>
        rw [hitems] at heq
        refine hbelow items' (fun cp hcp => ?_) s rc₁ s₁ hs heq
        exact h cp (.set List.mem_cons_self hitems hcp)

/-- A recursion whose step keeps the invariant on all that the list stands for succeeds when
it ends, and keeps the invariant. -/
theorem walk_preserves (fuel : Nat) :
    PreservesBelow classperms leaf I (walk classperms leaf fuel) := by
  induction fuel with
  | zero =>
    intro items _ s rc s' _ hrun
    cases hrun
  | succ fuel ih =>
    intro items h s rc s' hs hrun
    refine walkItems_preserves ih ?_ h s hs rc s' hrun
    intro s rc s' hnull
    cases fuel with
    | zero => cases hnull
    | succ fuel => cases hnull

end Preserving

end Cil.ClassPerms
