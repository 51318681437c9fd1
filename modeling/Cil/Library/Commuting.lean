/- Cil/Library/Commuting
   digest: Actions that commute wherever both can be taken lead to one state in any order. -/

import Mathlib.Data.List.Perm.Basic

set_option autoImplicit false
set_option relaxedAutoImplicit false

namespace Cil.Library.Commuting

variable {ι σ : Type} (step : ι → σ → Option σ)

/-- Takes one action after another; `none` when one of them cannot be taken. -/
def runAll : List ι → σ → Option σ
  | [], s => some s
  | i :: is, s => (step i s).bind (runAll is)

/-- Wherever two of the actions to come can be taken, they can be taken in either order. -/
def Commutes (pending : List ι) (s : σ) : Prop :=
  ∀ done i j rest t, (done ++ i :: j :: rest).Perm pending → runAll step done s = some t →
    ∀ t₁ t₂, step i t = some t₁ → step j t = some t₂ →
      ∃ u, step j t₁ = some u ∧ step i t₂ = some u

variable {step}

theorem runAll_append (is js : List ι) (s : σ) :
    runAll step (is ++ js) s = (runAll step is s).bind (runAll step js) := by
  induction is generalizing s with
  | nil => rfl
  | cons i is ih =>
    rw [List.cons_append, runAll, runAll]
    cases step i s with
    | none => rfl
    | some t => exact ih t

theorem runAll_cons {i : ι} {is : List ι} {s t : σ} (h : runAll step (i :: is) s = some t) :
    ∃ u, step i s = some u ∧ runAll step is u = some t :=
  Option.bind_eq_some_iff.mp h

private theorem Commutes.of_step {pending : List ι} {s t : σ} {i : ι}
    (h : Commutes step (i :: pending) s) (hstep : step i s = some t) : Commutes step pending t := by
  intro done j k rest u hperm hrun
  refine h (i :: done) j k rest u (hperm.cons i) ?_
  rw [runAll, hstep]
  exact hrun

theorem Commutes.perm {pending pending' : List ι} {s : σ} (h : Commutes step pending s)
    (hperm : pending'.Perm pending) : Commutes step pending' s :=
  fun done i j rest t hd => h done i j rest t (hd.trans hperm)

/-- An action that can be taken now can be taken first. -/
theorem runAll_move {is : List ι} {s t s₁ : σ} {i : ι} (hc : Commutes step is s)
    (hrun : runAll step is s = some t) (hi : i ∈ is) (hstep : step i s = some s₁) :
    ∃ js, (i :: js).Perm is ∧ runAll step js s₁ = some t := by
  induction is generalizing s s₁ with
  | nil => cases hi
  | cons a is ih =>
    obtain ⟨s₂, ha, hrest⟩ := runAll_cons hrun
    rcases List.mem_cons.mp hi with rfl | hmem
    · rw [ha] at hstep
      obtain rfl := Option.some.inj hstep
      exact ⟨is, List.Perm.refl _, hrest⟩
    · obtain ⟨pre, post, rfl⟩ := List.append_of_mem hmem
      have hperm : (i :: a :: (pre ++ post)).Perm (a :: (pre ++ i :: post)) :=
        (List.Perm.swap a i _).trans ((List.perm_middle.symm).cons a)
      obtain ⟨u, hau, hiu⟩ := hc [] i a (pre ++ post) s hperm rfl s₁ s₂ hstep ha
      obtain ⟨js, hjs, hrun'⟩ := ih (hc.of_step ha) hrest hmem hiu
      refine ⟨a :: js, (List.Perm.swap a i js).trans (hjs.cons a), ?_⟩
      rw [runAll, hau]
      exact hrun'

/-- From wherever some of the actions lead, the others lead to where all of them lead. -/
theorem runAll_extend {is done rest : List ι} {s t u : σ} (hc : Commutes step is s)
    (hrun : runAll step is s = some t) (hperm : (done ++ rest).Perm is)
    (hdone : runAll step done s = some u) :
    ∃ js, js.Perm rest ∧ runAll step js u = some t := by
  induction done generalizing is s with
  | nil =>
    obtain rfl := Option.some.inj hdone
    exact ⟨is, hperm.symm, hrun⟩
  | cons i done ih =>
    obtain ⟨s₁, hstep, hdone'⟩ := runAll_cons hdone
    have hi : i ∈ is := hperm.subset List.mem_cons_self
    obtain ⟨js, hjs, hrun'⟩ := runAll_move hc hrun hi hstep
    have hperm' : (done ++ rest).Perm js := (hperm.trans hjs.symm).cons_inv
    exact ih ((hc.perm hjs).of_step hstep) hrun' hperm' hdone'

end Cil.Library.Commuting
