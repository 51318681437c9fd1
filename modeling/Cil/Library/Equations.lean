/- Cil/Library/Equations
   digest: Systems of equations whose dependencies have no cycle have one solution. -/

import Mathlib.Data.Fintype.Order
import Mathlib.Data.Fintype.EquivFin
import Mathlib.Logic.Relation
import Mathlib.Order.WellFounded

set_option autoImplicit false
set_option relaxedAutoImplicit false

namespace Cil.Library.Equations

open Relation

variable {α V : Type} {dep : α → α → Prop} {F : (α → V) → α → V}

/-- No unknown depends on itself, however indirectly. -/
def Acyclic (dep : α → α → Prop) : Prop := ∀ a, ¬ TransGen dep a a

/-- The right hand side for an unknown reads only what the unknown depends on. -/
def Local (dep : α → α → Prop) (F : (α → V) → α → V) : Prop :=
  ∀ f g a, (∀ b, dep a b → f b = g b) → F f a = F g a

private theorem Acyclic.wellFounded [Finite α] (h : Acyclic dep) :
    WellFounded fun b a => TransGen dep a b := by
  have htrans : IsTrans α fun b a => TransGen dep a b := ⟨fun _ _ _ hba hcb => hcb.trans hba⟩
  have hirrefl : Std.Irrefl fun b a => TransGen dep a b := ⟨h⟩
  exact Finite.wellFounded_of_trans_of_irrefl _

theorem Acyclic.exists_solution [Finite α] [Inhabited V] (h : Acyclic dep) (hF : Local dep F) :
    ∃ f : α → V, ∀ a, f a = F f a := by
  classical
  let step : (a : α) → ((b : α) → TransGen dep a b → V) → V := fun a below =>
    F (fun b => if hb : TransGen dep a b then below b hb else default) a
  refine ⟨h.wellFounded.fix step, fun a => ?_⟩
  rw [h.wellFounded.fix_eq]
  refine hF _ _ a fun b hab => ?_
  rw [dif_pos (TransGen.single hab)]

/-- Two solutions agree on whatever is closed under the dependencies. -/
theorem Acyclic.solution_unique [Finite α] (h : Acyclic dep) (hF : Local dep F) {f g : α → V}
    {S : α → Prop} (hclosed : ∀ a b, S a → dep a b → S b) (hf : ∀ a, S a → f a = F f a)
    (hg : ∀ a, S a → g a = F g a) (a : α) (ha : S a) : f a = g a := by
  induction a using h.wellFounded.induction with
  | _ a ih =>
    calc f a = F f a := hf a ha
      _ = F g a := hF f g a fun b hab => ih b (TransGen.single hab) (hclosed a b ha hab)
      _ = g a := (hg a ha).symm

end Cil.Library.Equations
