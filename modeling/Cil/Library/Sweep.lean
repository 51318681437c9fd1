/- Cil/Library/Sweep
   digest: A function applied to all members of a list, up to the first error. -/

import Cil.Library.Lasting

set_option autoImplicit false
set_option relaxedAutoImplicit false

namespace Cil.Library

variable {ε σ α : Type} {f : σ → α → Except ε σ} {l : List α} {s : σ}

/-- What each application leaves for its member is there for all members in the end. -/
theorem foldlM_establishes {s' : σ} {R : σ → σ → Prop} (P : Progress R)
    (fact : α → σ → Prop) (hlasts : ∀ a ∈ l, Lasts R (fact a))
    (hstep : ∀ a ∈ l, ∀ s s', f s a = .ok s' → R s s' ∧ fact a s')
    (h : l.foldlM f s = .ok s') : R s s' ∧ ∀ a ∈ l, fact a s' := by
  induction l generalizing s with
  | nil =>
      have heq : s = s' := Except.ok.inj h
      rw [← heq]
      exact ⟨P.refl s, fun a ha => (List.not_mem_nil ha).elim⟩
  | cons a l ih =>
      rw [List.foldlM_cons] at h
      cases hfirst : f s a with
      | error e =>
          rw [hfirst] at h
          cases h
      | ok t =>
          rw [hfirst] at h
          obtain ⟨hst, hfact⟩ := hstep a List.mem_cons_self s t hfirst
          obtain ⟨hts, hrest⟩ := ih (fun b hb => hlasts b (List.mem_cons_of_mem a hb))
            (fun b hb => hstep b (List.mem_cons_of_mem a hb)) h
          refine ⟨P.trans s t s' hst hts, fun b hb => ?_⟩
          rcases List.mem_cons.mp hb with heq | hb
          · rw [heq]
            exact hlasts a List.mem_cons_self t s' hts hfact
          · exact hrest b hb

theorem foldlM_error {e : ε} (h : l.foldlM f s = .error e) : ∃ a ∈ l, ∃ t, f t a = .error e := by
  induction l generalizing s with
  | nil => cases h
  | cons a l ih =>
      rw [List.foldlM_cons] at h
      cases hfirst : f s a with
      | error e' =>
          rw [hfirst] at h
          cases h
          exact ⟨a, List.mem_cons_self, s, hfirst⟩
      | ok t =>
          rw [hfirst] at h
          obtain ⟨b, hb, ht⟩ := ih h
          exact ⟨b, List.mem_cons_of_mem a hb, ht⟩

end Cil.Library
