/- Cil/Library/Gains
   digest: Calls that add a fixed set to what a state holds. -/

import Mathlib.Data.Set.Lattice
import Cil.Library.Call

set_option autoImplicit false
set_option relaxedAutoImplicit false

namespace Cil.Library

variable {ε σ α β ι : Type}

/-- When the call returns, the state holds what it held before and `gain`. -/
def Gains (content : σ → Set ι) (gain : Set ι) (c : Call ε σ α) : Prop :=
  ∀ s a s', c s = some (.ok a s') → content s' = content s ∪ gain

namespace Gains

variable {content : σ → Set ι} {gain gain' : Set ι}

theorem pure (a : α) : Gains content ∅ (Pure.pure a : Call ε σ α) := by
  intro s b s' h
  cases h
  rw [Set.union_empty]

theorem fail (e : ε) : Gains content gain (Call.fail e : Call ε σ α) := by
  intro s a s' h
  cases h

theorem crash : Gains content gain (Call.crash : Call ε σ α) := by
  intro s a s' h
  cases h

theorem get : Gains content ∅ (Call.get : Call ε σ σ) := by
  intro s a s' h
  cases h
  rw [Set.union_empty]

theorem modify {f : σ → σ} (h : ∀ s, content (f s) = content s) :
    Gains content ∅ (Call.modify f : Call ε σ Unit) := by
  intro s a s' hrun
  cases hrun
  rw [h, Set.union_empty]

theorem withError {c : Call ε σ α} (h : Gains content gain c) (e : ε) :
    Gains content gain (Call.withError e c) := by
  intro s a s' hrun
  apply h s a s'
  unfold Call.withError at hrun
  split at hrun
  · cases hrun
  · exact hrun

theorem bind {c : Call ε σ α} {f : α → Call ε σ β} (hc : Gains content gain c)
    (hf : ∀ a, Gains content gain' (f a)) : Gains content (gain ∪ gain') (c >>= f) := by
  intro s b s'' h
  obtain ⟨a, s', hfirst, hsecond⟩ := Call.bind_ok h
  rw [hf a s' b s'' hsecond, hc s a s' hfirst, Set.union_assoc]

/-- After a call that adds nothing. -/
theorem after {c : Call ε σ α} {f : α → Call ε σ β} (hc : Gains content ∅ c)
    (hf : ∀ a, Gains content gain (f a)) : Gains content gain (c >>= f) := by
  have h := hc.bind hf
  rwa [Set.empty_union] at h

theorem of_eq {c : Call ε σ α} (h : Gains content gain c) (heq : gain = gain') :
    Gains content gain' c := heq ▸ h

end Gains

end Cil.Library
