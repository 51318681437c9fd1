/- Cil/Library/Lasting
   digest: Facts that calls establish and that no later call undoes. -/

import Cil.Library.Call

set_option autoImplicit false
set_option relaxedAutoImplicit false

namespace Cil.Library

variable {ε σ α β : Type}

/-- A relation between earlier and later states. -/
structure Progress (R : σ → σ → Prop) : Prop where
  refl : ∀ s, R s s
  trans : ∀ s t u, R s t → R t u → R s u

/-- What holds of a state holds of every later one. -/
def Lasts (R : σ → σ → Prop) (fact : σ → Prop) : Prop :=
  ∀ s s', R s s' → fact s → fact s'

/-- When the call returns, the state is a later one and the fact holds of it. -/
def Establishes (R : σ → σ → Prop) (fact : σ → Prop) (c : Call ε σ α) : Prop :=
  ∀ s, Ends True (fun _ s' => R s s' ∧ fact s') (c s)

theorem lasts_forall {R : σ → σ → Prop} {p : β → Prop} {fact : β → σ → Prop}
    (h : ∀ b, p b → Lasts R (fact b)) : Lasts R fun s => ∀ b, p b → fact b s := by
  intro s s' hR hfact b hb
  exact h b hb s s' hR (hfact b hb)

theorem lasts_trivial (R : σ → σ → Prop) (p : Prop) : Lasts R fun _ => p := by
  intro s s' hR hp
  exact hp

namespace Establishes

variable {R : σ → σ → Prop} {fact fact' : σ → Prop}

theorem of_eq {c : Call ε σ α}
    (h : ∀ s a s', c s = some (.ok a s') → R s s' ∧ fact s') : Establishes R fact c := by
  intro s
  cases hc : c s with
  | none => trivial
  | some r =>
    cases r with
    | ok a s' => exact h s a s' hc
    | failed e s' => trivial
    | crash => trivial

theorem of_ok {c : Call ε σ α} (h : Establishes R fact c) {s s' : σ} {a : α}
    (hc : c s = some (.ok a s')) : R s s' ∧ fact s' :=
  (h s).of_ok hc

theorem imp {c : Call ε σ α} (h : Establishes R fact c) (himp : ∀ s, fact s → fact' s) :
    Establishes R fact' c := by
  intro s
  apply (h s).imp
  intro a s' hs'
  exact ⟨hs'.1, himp s' hs'.2⟩

theorem pure (P : Progress R) (a : α) (h : ∀ s, fact s) :
    Establishes R fact (Pure.pure a : Call ε σ α) := by
  intro s
  exact ends_pure ⟨P.refl s, h s⟩

theorem fail (e : ε) : Establishes R fact (Call.fail e : Call ε σ α) := fun _ => trivial

theorem crash : Establishes R fact (Call.crash : Call ε σ α) := fun _ => trivial

/-- A call after another: what the first establishes lasts through the second. -/
theorem bind (P : Progress R) {c : Call ε σ α} {f : α → Call ε σ β}
    (hc : Establishes R fact c) (hlasts : Lasts R fact) (hf : ∀ a, Establishes R fact' (f a)) :
    Establishes R (fun s => fact s ∧ fact' s) (c >>= f) := by
  intro s
  apply (hc s).bind
  intro a s' hs'
  apply (hf a s').imp
  intro b s'' hs''
  exact ⟨P.trans s s' s'' hs'.1 hs''.1, hlasts s' s'' hs''.1 hs'.2, hs''.2⟩

theorem get_bind {f : σ → Call ε σ α} (h : ∀ t, Establishes R fact (f t)) :
    Establishes R fact (Call.get >>= f) := by
  intro s
  exact ends_get_bind (h s s)

end Establishes

end Cil.Library
