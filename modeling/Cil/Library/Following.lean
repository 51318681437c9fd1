/- Cil/Library/Following
   digest: Calls that lead from a state only to states that follow it. -/

import Mathlib.Logic.Relation
import Cil.Library.Lasting

set_option autoImplicit false
set_option relaxedAutoImplicit false

namespace Cil.Library

variable {ε σ α β : Type}

/-- When the call returns, its last state follows its first. -/
def Follows (R : σ → σ → Prop) (c : Call ε σ α) : Prop := Establishes R (fun _ => True) c

/-- What a relation keeps of one step is kept by every sequence of steps. -/
theorem progress_reflTransGen (R : σ → σ → Prop) : Progress (Relation.ReflTransGen R) :=
  ⟨fun _ => Relation.ReflTransGen.refl, fun _ _ _ h h' => h.trans h'⟩

namespace Follows

variable {R : σ → σ → Prop}

theorem of_eq {c : Call ε σ α} (h : ∀ s a s', c s = some (.ok a s') → R s s') : Follows R c :=
  Establishes.of_eq fun s a s' hc => ⟨h s a s' hc, trivial⟩

theorem of_ok {c : Call ε σ α} (h : Follows R c) {s s' : σ} {a : α}
    (hc : c s = some (.ok a s')) : R s s' :=
  (Establishes.of_ok h hc).1

theorem pure (P : Progress R) (a : α) : Follows R (Pure.pure a : Call ε σ α) :=
  Establishes.pure P a fun _ => trivial

theorem fail (e : ε) : Follows R (Call.fail e : Call ε σ α) := Establishes.fail e

theorem crash : Follows R (Call.crash : Call ε σ α) := Establishes.crash

theorem outOfFuel : Follows R (Call.outOfFuel : Call ε σ α) := fun _ => trivial

theorem bind (P : Progress R) {c : Call ε σ α} {f : α → Call ε σ β} (hc : Follows R c)
    (hf : ∀ a, Follows R (f a)) : Follows R (c >>= f) :=
  (Establishes.bind P hc (lasts_trivial _ _) hf).imp fun _ _ => trivial

theorem get_bind {f : σ → Call ε σ α} (h : ∀ s, Follows R (f s)) :
    Follows R (Call.get >>= f) :=
  Establishes.get_bind h

theorem modify {f : σ → σ} (h : ∀ s, R s (f s)) : Follows R (Call.modify f : Call ε σ Unit) := by
  refine of_eq fun s a s' hc => ?_
  obtain ⟨_, rfl⟩ := Returned.ok.inj (Option.some.inj hc)
  exact h s

end Follows

/-- When the call made in a state returns, its last state follows that one. -/
def FollowsFrom (R : σ → σ → Prop) (s : σ) (c : Call ε σ α) : Prop :=
  ∀ a s', c s = some (.ok a s') → R s s'

namespace FollowsFrom

variable {R : σ → σ → Prop} {s : σ}

theorem of_follows {c : Call ε σ α} (h : Follows R c) : FollowsFrom R s c :=
  fun _ _ hc => h.of_ok hc

theorem follows {c : Call ε σ α} (h : ∀ s, FollowsFrom R s c) : Follows R c :=
  Follows.of_eq h

theorem pure (P : Progress R) (a : α) : FollowsFrom R s (Pure.pure a : Call ε σ α) :=
  of_follows (Follows.pure P a)

theorem crash : FollowsFrom R s (Call.crash : Call ε σ α) := of_follows Follows.crash

theorem fail (e : ε) : FollowsFrom R s (Call.fail e : Call ε σ α) := of_follows (Follows.fail e)

theorem bind (P : Progress R) {c : Call ε σ α} {f : α → Call ε σ β} (hc : FollowsFrom R s c)
    (hf : ∀ a s', c s = some (.ok a s') → FollowsFrom R s' (f a)) :
    FollowsFrom R s (c >>= f) := by
  intro b s'' h
  obtain ⟨a, s', hca, hfa⟩ := Call.bind_ok h
  exact P.trans s s' s'' (hc a s' hca) (hf a s' hca b s'' hfa)

theorem get_bind {f : σ → Call ε σ α} (h : FollowsFrom R s (f s)) :
    FollowsFrom R s (Call.get >>= f) := by
  intro a s' hget
  obtain ⟨_, _, heq, hf⟩ := Call.bind_ok hget
  obtain ⟨rfl, rfl⟩ := Returned.ok.inj (Option.some.inj heq)
  exact h a s' hf

theorem modify_bind (P : Progress R) {g : σ → σ} {f : Unit → Call ε σ α} (hg : R s (g s))
    (hf : FollowsFrom R (g s) (f ())) : FollowsFrom R s (Call.modify g >>= f) := by
  intro a s' h
  obtain ⟨_, _, heq, hfa⟩ := Call.bind_ok h
  obtain ⟨_, rfl⟩ := Returned.ok.inj (Option.some.inj heq)
  exact P.trans s (g s) s' hg (hf a s' hfa)

end FollowsFrom

end Cil.Library
