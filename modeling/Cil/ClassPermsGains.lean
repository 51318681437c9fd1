/- Cil/ClassPermsGains
   digest: What a recursion over a class permission list adds to a state. -/

import Cil.ClassPermsExpansion
import Cil.Library.Gains

set_option autoImplicit false
set_option relaxedAutoImplicit false

namespace Cil.ClassPerms

variable {κ δ σ ι : Type} {classperms : δ → ItemList κ δ}

section Expansion

private theorem expands_nil {cp : κ} : ¬ Expands classperms [] cp := by
  intro h
  cases h with
  | kernel hmem => cases hmem
  | map hmem _ _ _ => cases hmem
  | set hmem _ _ => cases hmem

theorem expands_kernel {k cp : κ} : Expands classperms [.kernel k] cp ↔ cp = k := by
  constructor
  · intro h
    cases h with
    | kernel hmem =>
      cases List.mem_singleton.mp hmem
      rfl
    | map hmem _ _ _ => cases List.mem_singleton.mp hmem
    | set hmem _ _ => cases List.mem_singleton.mp hmem
  · rintro rfl
    exact .kernel (List.mem_singleton.mpr rfl)

private theorem expands_map {perms : List (PermItem δ)} {cp : κ} :
    Expands classperms [.map perms] cp ↔
      ∃ p, .perm p ∈ perms ∧ ∃ below, classperms p = some below ∧ Expands classperms below cp := by
  constructor
  · intro h
    cases h with
    | kernel hmem => cases List.mem_singleton.mp hmem
    | map hmem hp hbelow hcp =>
      cases List.mem_singleton.mp hmem
      exact ⟨_, hp, _, hbelow, hcp⟩
    | set hmem _ _ => cases List.mem_singleton.mp hmem
  · intro h
    obtain ⟨p, hp, below, hbelow, hcp⟩ := h
    exact .map (List.mem_singleton.mpr rfl) hp hbelow hcp

private theorem expands_set {s : δ} {cp : κ} :
    Expands classperms [.set s] cp ↔
      ∃ below, classperms s = some below ∧ Expands classperms below cp := by
  constructor
  · intro h
    cases h with
    | kernel hmem => cases List.mem_singleton.mp hmem
    | map hmem _ _ _ => cases List.mem_singleton.mp hmem
    | set hmem hbelow hcp =>
      cases List.mem_singleton.mp hmem
      exact ⟨_, hbelow, hcp⟩
  · intro h
    obtain ⟨below, hbelow, hcp⟩ := h
    exact .set (List.mem_singleton.mpr rfl) hbelow hcp

theorem Expands.mono {items items' : List (Item κ δ)} {cp : κ} (h : Expands classperms items cp)
    (hsub : items ⊆ items') : Expands classperms items' cp := by
  cases h with
  | kernel hmem => exact .kernel (hsub hmem)
  | map hmem hp hbelow hcp => exact .map (hsub hmem) hp hbelow hcp
  | set hmem hbelow hcp => exact .set (hsub hmem) hbelow hcp

private theorem expands_cons {i : Item κ δ} {items : List (Item κ δ)} {cp : κ} :
    Expands classperms (i :: items) cp ↔
      Expands classperms [i] cp ∨ Expands classperms items cp := by
  constructor
  · intro h
    cases h with
    | kernel hmem =>
      rcases List.mem_cons.mp hmem with heq | hmem
      · exact Or.inl (.kernel (List.mem_singleton.mpr heq))
      · exact Or.inr (.kernel hmem)
    | map hmem hp hbelow hcp =>
      rcases List.mem_cons.mp hmem with heq | hmem
      · exact Or.inl (.map (List.mem_singleton.mpr heq) hp hbelow hcp)
      · exact Or.inr (.map hmem hp hbelow hcp)
    | set hmem hbelow hcp =>
      rcases List.mem_cons.mp hmem with heq | hmem
      · exact Or.inl (.set (List.mem_singleton.mpr heq) hbelow hcp)
      · exact Or.inr (.set hmem hbelow hcp)
  · intro h
    rcases h with h | h
    · exact h.mono (List.cons_subset_cons i (List.nil_subset items))
    · exact h.mono (List.subset_cons_self i items)

end Expansion

section Walk

variable {leaf : σ → κ → Rc × σ} {content : σ → Set ι} {gain : κ → Set ι}

/-- What all that a list stands for adds. -/
def gains (classperms : δ → ItemList κ δ) (gain : κ → Set ι) (items : List (Item κ δ)) : Set ι :=
  {x | ∃ cp, Expands classperms items cp ∧ x ∈ gain cp}

private theorem gains_nil : gains classperms gain [] = ∅ := by
  ext x
  simp [gains, expands_nil]

private theorem gains_cons (i : Item κ δ) (items : List (Item κ δ)) :
    gains classperms gain (i :: items) =
      gains classperms gain [i] ∪ gains classperms gain items := by
  ext x
  have hcons : ∀ cp, Expands classperms (i :: items) cp ↔
      Expands classperms [i] cp ∨ Expands classperms items cp := fun _ => expands_cons
  simp only [gains, Set.mem_ofPred_eq, Set.mem_union, hcons, or_and_right, exists_or]

private theorem gains_kernel (k : κ) : gains classperms gain [.kernel k] = gain k := by
  ext x
  simp [gains, expands_kernel]

private theorem gains_set {s : δ} {below : List (Item κ δ)} (h : classperms s = some below) :
    gains classperms gain [.set s] = gains classperms gain below := by
  ext x
  simp [gains, expands_set, h]

private theorem gains_map_nil : gains classperms gain [.map []] = ∅ := by
  ext x
  simp [gains, expands_map]

private theorem gains_map_cons {p : δ} {below : List (Item κ δ)} (h : classperms p = some below)
    (perms : List (PermItem δ)) :
    gains classperms gain [.map (.perm p :: perms)] =
      gains classperms gain below ∪ gains classperms gain [.map perms] := by
  ext x
  simp only [gains, expands_map, Set.mem_ofPred_eq, Set.mem_union, List.mem_cons,
    PermItem.perm.injEq]
  constructor
  · intro hx
    obtain ⟨cp, ⟨q, hq, items, hitems, hcp⟩, hgain⟩ := hx
    rcases hq with rfl | hq
    · rw [h] at hitems
      cases hitems
      exact Or.inl ⟨cp, hcp, hgain⟩
    · exact Or.inr ⟨cp, ⟨q, hq, items, hitems, hcp⟩, hgain⟩
  · intro hx
    rcases hx with ⟨cp, hcp, hgain⟩ | ⟨cp, ⟨q, hq, hitems⟩, hgain⟩
    · exact ⟨cp, ⟨p, Or.inl rfl, below, h, hcp⟩, hgain⟩
    · exact ⟨cp, ⟨q, Or.inr hq, hitems⟩, hgain⟩

/-- A recursion that succeeds has added what its list stands for. -/
def AddsBelow (classperms : δ → ItemList κ δ) (content : σ → Set ι) (gain : κ → Set ι)
    (below : σ → ItemList κ δ → Option (Walked σ)) : Prop :=
  ∀ s l s', below s l = some (.done .ok s') →
    ∃ items, l = some items ∧ content s' = content s ∪ gains classperms gain items

private theorem walkPerms_adds {below : σ → ItemList κ δ → Option (Walked σ)}
    (hbelow : AddsBelow classperms content gain below) {perms : List (PermItem δ)} {s s' : σ}
    (h : walkPerms classperms below s perms = some (.done .ok s')) :
    content s' = content s ∪ gains classperms gain [.map perms] := by
  induction perms generalizing s with
  | nil =>
    cases h
    rw [gains_map_nil, Set.union_empty]
  | cons i perms ih =>
    cases i with
    | operand => cases h
    | perm p =>
      obtain ⟨t, hp, hrest⟩ := andThen_ok h
      obtain ⟨items, hitems, hadd⟩ := hbelow s (classperms p) t hp
      rw [gains_map_cons hitems, ← Set.union_assoc, ← hadd]
      exact ih hrest

variable (hleaf : ∀ s cp s', leaf s cp = (.ok, s') → content s' = content s ∪ gain cp)

include hleaf

private theorem walkItems_adds {below : σ → ItemList κ δ → Option (Walked σ)}
    (hbelow : AddsBelow classperms content gain below) {items : List (Item κ δ)} {s s' : σ}
    (h : walkItems classperms leaf below s items = some (.done .ok s')) :
    content s' = content s ∪ gains classperms gain items := by
  induction items generalizing s with
  | nil =>
    cases h
    rw [gains_nil, Set.union_empty]
  | cons i items ih =>
    have hfirst : ∀ r : Option (Walked σ), Walked.andThen r
        (fun t => walkItems classperms leaf below t items) = some (.done .ok s') →
        (∀ t, r = some (.done .ok t) →
          content t = content s ∪ gains classperms gain [i]) →
        content s' = content s ∪ gains classperms gain (i :: items) := by
      intro r hr hadd
      obtain ⟨t, ht, hrest⟩ := andThen_ok hr
      rw [gains_cons, ← Set.union_assoc, ← hadd t ht]
      exact ih hrest
    cases i with
    | kernel cp =>
      refine hfirst _ h fun t ht => ?_
      rw [gains_kernel]
      apply hleaf
      simp only [Option.some.injEq, Walked.done.injEq] at ht
      exact Prod.ext ht.1 ht.2
    | map perms => exact hfirst _ h fun t ht => walkPerms_adds hbelow ht
    | set d =>
      refine hfirst _ h fun t ht => ?_
      obtain ⟨items', hitems, hadd⟩ := hbelow s (classperms d) t ht
      rw [gains_set hitems]
      exact hadd

/-- What the step adds for the permissions of one kernel class, the recursion adds for all that
the list stands for, and nothing else. -/
theorem walk_adds (fuel : Nat) :
    AddsBelow classperms content gain (walk classperms leaf fuel) := by
  induction fuel with
  | zero =>
    intro s l s' h
    cases h
  | succ fuel ih =>
    intro s l s' h
    cases l with
    | none => cases h
    | some items => exact ⟨items, rfl, walkItems_adds hleaf ih h⟩

end Walk

end Cil.ClassPerms
