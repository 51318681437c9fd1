/- Cil/Library/Call
   digest: Calls that read and write a state and can fail, and what holds when they return. -/

set_option autoImplicit false
set_option relaxedAutoImplicit false

namespace Cil.Library

/-- How a call ends that takes a state and returns a value. A failed call leaves a state. -/
inductive Returned (ε σ α : Type)
  | ok (a : α) (s : σ)
  | failed (e : ε) (s : σ)
  | crash

/-- A call on a state; `none` when it runs out of fuel. -/
def Call (ε σ α : Type) := σ → Option (Returned ε σ α)

variable {ε σ α β : Type}

namespace Call

/-- Returns at once. -/
def ret (a : α) : Call ε σ α := fun s => some (.ok a s)

/-- One call after another that has not failed. -/
def andThen (c : Call ε σ α) (f : α → Call ε σ β) : Call ε σ β := fun s =>
  match c s with
  | some (.ok a s') => f a s'
  | some (.failed e s') => some (.failed e s')
  | some .crash => some .crash
  | none => none

instance : Monad (Call ε σ) where
  pure := ret
  bind := andThen

theorem bind_assoc {γ : Type} (c : Call ε σ α) (f : α → Call ε σ β) (g : β → Call ε σ γ) :
    (c >>= f) >>= g = c >>= fun a => f a >>= g := by
  funext s
  show andThen (andThen c f) g s = andThen c (fun a => andThen (f a) g) s
  unfold andThen
  rcases c s with _ | (_ | _ | _) <;> rfl

theorem bind_ok {c : Call ε σ α} {f : α → Call ε σ β} {s s'' : σ} {b : β}
    (h : (c >>= f) s = some (.ok b s'')) :
    ∃ a s', c s = some (.ok a s') ∧ f a s' = some (.ok b s'') := by
  have h' : andThen c f s = some (.ok b s'') := h
  unfold andThen at h'
  split at h'
  · rename_i a s' hc
    exact ⟨a, s', hc, h'⟩
  · cases h'
  · cases h'
  · cases h'

theorem bind_failed {c : Call ε σ α} {f : α → Call ε σ β} {s s'' : σ} {e : ε}
    (h : (c >>= f) s = some (.failed e s'')) :
    c s = some (.failed e s'') ∨
      ∃ a s', c s = some (.ok a s') ∧ f a s' = some (.failed e s'') := by
  have h' : andThen c f s = some (.failed e s'') := h
  unfold andThen at h'
  split at h'
  · rename_i a s' hc
    exact Or.inr ⟨a, s', hc, h'⟩
  · rename_i e' s' hc
    cases h'
    exact Or.inl hc
  · cases h'
  · cases h'

theorem bind_of_ok {c : Call ε σ α} {f : α → Call ε σ β} {s s' : σ} {a : α}
    (h : c s = some (.ok a s')) : (c >>= f) s = f a s' := by
  show andThen c f s = f a s'
  rw [andThen, h]

theorem bind_of_failed {c : Call ε σ α} {f : α → Call ε σ β} {s s' : σ} {e : ε}
    (h : c s = some (.failed e s')) : (c >>= f) s = some (.failed e s') := by
  show andThen c f s = some (.failed e s')
  rw [andThen, h]

theorem bind_of_crash {c : Call ε σ α} {f : α → Call ε σ β} {s : σ}
    (h : c s = some .crash) : (c >>= f) s = some .crash := by
  show andThen c f s = some .crash
  rw [andThen, h]

def fail (e : ε) : Call ε σ α := fun s => some (.failed e s)

def crash : Call ε σ α := fun _ => some .crash

def outOfFuel : Call ε σ α := fun _ => none

def get : Call ε σ σ := fun s => some (.ok s s)

def modify (f : σ → σ) : Call ε σ Unit := fun s => some (.ok () (f s))

/-- Changes the state that a failing call leaves. -/
def onFailure (cleanUp : σ → σ) (c : Call ε σ α) : Call ε σ α := fun s =>
  match c s with
  | some (.failed e s') => some (.failed e (cleanUp s'))
  | r => r

/-- Changes the error of a failing call. -/
def withError (e : ε) (c : Call ε σ α) : Call ε σ α := fun s =>
  match c s with
  | some (.failed _ s') => some (.failed e s')
  | r => r

/-- A call that reads and writes nothing, in a program that does. -/
def lift (c : Call ε Unit α) : Call ε σ α := fun s =>
  match c () with
  | some (.ok a _) => some (.ok a s)
  | some (.failed e _) => some (.failed e s)
  | some .crash => some .crash
  | none => none

/-- The call comes back, with a value or an error. -/
def Returns (c : Call ε σ α) : Prop :=
  ∀ s, (∃ a s', c s = some (.ok a s')) ∨ ∃ e s', c s = some (.failed e s')

/-- The call comes back with an error. -/
def Rejects (c : Call ε σ α) : Prop := ∀ s, ∃ e s', c s = some (.failed e s')

theorem Returns.bind {c : Call ε σ α} {f : α → Call ε σ β} (hc : Returns c)
    (hf : ∀ a, Returns (f a)) : Returns (c >>= f) := by
  intro s
  rcases hc s with ⟨a, s', h⟩ | ⟨e, s', h⟩
  · rw [bind_of_ok h]
    exact hf a s'
  · exact Or.inr ⟨e, s', bind_of_failed h⟩

theorem Rejects.bind {c : Call ε σ α} (hc : Rejects c) (f : α → Call ε σ β) :
    Rejects (c >>= f) := by
  intro s
  obtain ⟨e, s', h⟩ := hc s
  exact ⟨e, s', bind_of_failed h⟩

theorem Returns.bind_rejects {c : Call ε σ α} {f : α → Call ε σ β} (hc : Returns c)
    (hf : ∀ a, Rejects (f a)) : Rejects (c >>= f) := by
  intro s
  rcases hc s with ⟨a, s', h⟩ | ⟨e, s', h⟩
  · rw [bind_of_ok h]
    exact hf a s'
  · exact ⟨e, s', bind_of_failed h⟩

theorem returns_modify (f : σ → σ) : Returns (modify f : Call ε σ Unit) :=
  fun s => Or.inl ⟨(), f s, rfl⟩

theorem returns_pure (a : α) : Returns (pure a : Call ε σ α) := fun s => Or.inl ⟨a, s, rfl⟩

section Loops

/-- A loop that ends with the first call that fails. -/
def forEach (f : α → Call ε σ Unit) : List α → Call ε σ Unit
  | [] => pure ()
  | x :: xs => f x >>= fun _ => forEach f xs

/-- Reads through a pointer that may be null. -/
def orCrash : Option α → Call ε σ α
  | some a => pure a
  | none => crash

/-- The result of a search that may fail. -/
def orFail (e : ε) : Option α → Call ε σ α
  | some a => pure a
  | none => fail e

theorem orCrash_ok {o : Option α} {f : α → Call ε σ β} {s s' : σ} {b : β}
    (h : (orCrash o >>= f) s = some (.ok b s')) : ∃ a, o = some a ∧ f a s = some (.ok b s') := by
  cases o with
  | none => cases h
  | some a => exact ⟨a, rfl, h⟩

theorem orFail_ok {e : ε} {o : Option α} {f : α → Call ε σ β} {s s' : σ} {b : β}
    (h : (orFail e o >>= f) s = some (.ok b s')) : ∃ a, o = some a ∧ f a s = some (.ok b s') := by
  cases o with
  | none => cases h
  | some a => exact ⟨a, rfl, h⟩

theorem orFail_failed {e e' : ε} {o : Option α} {f : α → Call ε σ β} {s s' : σ}
    (h : (orFail e o >>= f) s = some (.failed e' s')) :
    e' = e ∨ ∃ a, o = some a ∧ f a s = some (.failed e' s') := by
  cases o with
  | none =>
    cases h
    exact Or.inl rfl
  | some a => exact Or.inr ⟨a, rfl, h⟩

/-- From a state with `inv` the call comes back, and leaves such a state if it has not failed. -/
def ReturnsFrom (inv : σ → Prop) (c : Call ε σ α) : Prop :=
  ∀ s, inv s → (∃ a s', c s = some (.ok a s') ∧ inv s') ∨ ∃ e s', c s = some (.failed e s')

variable {inv : σ → Prop}

theorem ReturnsFrom.pure (a : α) : ReturnsFrom inv (Pure.pure a : Call ε σ α) :=
  fun s h => Or.inl ⟨a, s, rfl, h⟩

theorem ReturnsFrom.bind {c : Call ε σ α} {f : α → Call ε σ β} (hc : ReturnsFrom inv c)
    (hf : ∀ a, ReturnsFrom inv (f a)) : ReturnsFrom inv (c >>= f) := by
  intro s hs
  rcases hc s hs with ⟨a, s', h, hs'⟩ | ⟨e, s', h⟩
  · rw [bind_of_ok h]
    exact hf a s' hs'
  · exact Or.inr ⟨e, s', bind_of_failed h⟩

theorem ReturnsFrom.forEach {f : α → Call ε σ Unit} {xs : List α}
    (hf : ∀ x ∈ xs, ReturnsFrom inv (f x)) : ReturnsFrom inv (forEach f xs) := by
  induction xs with
  | nil => exact ReturnsFrom.pure ()
  | cons x xs ih =>
    have hx := hf x List.mem_cons_self
    have hrest := ih fun y hy => hf y (List.mem_cons_of_mem x hy)
    exact hx.bind fun _ => hrest

theorem ReturnsFrom.orCrash {o : Option α} {f : α → Call ε σ β} (hsome : ∃ a, o = some a)
    (hf : ∀ a, o = some a → ReturnsFrom inv (f a)) :
    ReturnsFrom inv (orCrash o >>= f) := by
  obtain ⟨a, rfl⟩ := hsome
  exact hf a rfl

theorem ReturnsFrom.orFail {e : ε} {o : Option α} {f : α → Call ε σ β}
    (hf : ∀ a, o = some a → ReturnsFrom inv (f a)) :
    ReturnsFrom inv (orFail e o >>= f) := by
  intro s hs
  cases o with
  | none => exact Or.inr ⟨e, s, rfl⟩
  | some a => exact hf a rfl s hs

end Loops

section Parts

variable {τ : Type}

/-- A call on a part of a state. -/
def onPart (part : τ → σ) (store : σ → τ → τ) (c : Call ε σ Unit) : Call ε τ Unit := fun s =>
  match c (part s) with
  | some (.ok a part') => some (.ok a (store part' s))
  | some (.failed e part') => some (.failed e (store part' s))
  | some .crash => some .crash
  | none => none

theorem onPart_ok {part : τ → σ} {store : σ → τ → τ} {c : Call ε σ Unit} {s s' : τ}
    (h : onPart part store c s = some (.ok () s')) :
    ∃ part', c (part s) = some (.ok () part') ∧ s' = store part' s := by
  unfold onPart at h
  split at h
  · rename_i a part' hc
    cases h
    exact ⟨part', hc, rfl⟩
  · cases h
  · cases h
  · cases h

theorem ReturnsFrom.onPart {part : τ → σ} {store : σ → τ → τ} {c : Call ε σ Unit}
    {inv : σ → Prop} {inv' : τ → Prop} (hc : ReturnsFrom inv c)
    (hpart : ∀ s, inv' s → inv (part s))
    (hstore : ∀ s part', inv' s → inv part' → inv' (store part' s)) :
    ReturnsFrom inv' (onPart part store c) := by
  intro s hs
  unfold Call.onPart
  rcases hc (part s) (hpart s hs) with ⟨a, part', h, hpart'⟩ | ⟨e, part', h⟩
  · rw [h]
    exact Or.inl ⟨a, store part' s, rfl, hstore s part' hs hpart'⟩
  · rw [h]
    exact Or.inr ⟨e, store part' s, rfl⟩

/-- A call on the first part of a state. -/
def onFirst (c : Call ε σ Unit) : Call ε (σ × τ) Unit := fun s =>
  match c s.1 with
  | some (.ok a s') => some (.ok a (s', s.2))
  | some (.failed e s') => some (.failed e (s', s.2))
  | some .crash => some .crash
  | none => none

/-- A call on the second part of a state. -/
def onSecond (c : Call ε τ Unit) : Call ε (σ × τ) Unit := fun s =>
  match c s.2 with
  | some (.ok a s') => some (.ok a (s.1, s'))
  | some (.failed e s') => some (.failed e (s.1, s'))
  | some .crash => some .crash
  | none => none

theorem onFirst_bind (c d : Call ε σ Unit) :
    (onFirst (c >>= fun _ => d) : Call ε (σ × τ) Unit) = onFirst c >>= fun _ => onFirst d := by
  funext s
  show (match Call.andThen c (fun _ => d) s.1 with
    | some (.ok a s') => some (.ok a (s', s.2))
    | some (.failed e s') => some (.failed e (s', s.2))
    | some .crash => some .crash
    | none => none) = Call.andThen (onFirst c) (fun _ => onFirst d) s
  unfold Call.andThen onFirst
  rcases c s.1 with _ | (_ | _ | _) <;> rfl

theorem onFirst_ok {c : Call ε σ Unit} {s s' : σ × τ}
    (h : onFirst c s = some (.ok () s')) : c s.1 = some (.ok () s'.1) ∧ s'.2 = s.2 := by
  unfold onFirst at h
  split at h
  · rename_i a s1 hc
    cases h
    exact ⟨hc, rfl⟩
  · cases h
  · cases h
  · cases h

theorem onFirst_failed {c : Call ε σ Unit} {s s' : σ × τ} {e : ε}
    (h : onFirst c s = some (.failed e s')) : c s.1 = some (.failed e s'.1) := by
  unfold onFirst at h
  split at h
  · cases h
  · rename_i e' s1 hc
    cases h
    exact hc
  · cases h
  · cases h

theorem onSecond_ok {c : Call ε τ Unit} {s s' : σ × τ}
    (h : onSecond c s = some (.ok () s')) : c s.2 = some (.ok () s'.2) := by
  unfold onSecond at h
  split at h
  · rename_i a s1 hc
    cases h
    exact hc
  · cases h
  · cases h
  · cases h

theorem onSecond_failed {c : Call ε τ Unit} {s s' : σ × τ} {e : ε}
    (h : onSecond c s = some (.failed e s')) : c s.2 = some (.failed e s'.2) := by
  unfold onSecond at h
  split at h
  · cases h
  · rename_i e' s1 hc
    cases h
    exact hc
  · cases h
  · cases h

end Parts

end Call

/-- `post` holds of what a call returns; `otherwise` holds if it does not return. -/
def Ends (otherwise : Prop) (post : α → σ → Prop) : Option (Returned ε σ α) → Prop
  | some (.ok a s) => post a s
  | _ => otherwise

section Rules

variable {otherwise : Prop} {post post' : α → σ → Prop} {s : σ}

theorem ends_false_iff {r : Option (Returned ε σ α)} :
    Ends False post r ↔ ∃ a s, r = some (.ok a s) ∧ post a s := by
  constructor
  · intro h
    rcases r with _ | (⟨a, s⟩ | ⟨e, s⟩ | _)
    · exact h.elim
    · exact ⟨a, s, rfl, h⟩
    · exact h.elim
    · exact h.elim
  · rintro ⟨a, s, rfl, h⟩
    exact h

theorem Ends.of_ok {r : Option (Returned ε σ α)} {a : α} (h : Ends otherwise post r)
    (hr : r = some (.ok a s)) : post a s := by
  subst hr
  exact h

theorem Ends.imp {r : Option (Returned ε σ α)} (h : Ends otherwise post r)
    (himp : ∀ a s, post a s → post' a s) : Ends otherwise post' r := by
  rcases r with _ | (⟨a, s⟩ | ⟨e, s⟩ | _)
  · exact h
  · exact himp a s h
  · exact h
  · exact h

theorem Ends.weaken {otherwise' : Prop} {r : Option (Returned ε σ α)} (h : Ends otherwise post r)
    (himp : otherwise → otherwise') : Ends otherwise' post r := by
  rcases r with _ | (⟨a, s⟩ | ⟨e, s⟩ | _)
  · exact himp h
  · exact h
  · exact himp h
  · exact himp h

theorem ends_pure {a : α} (h : post a s) :
    Ends otherwise post ((pure a : Call ε σ α) s) := h

theorem Ends.bind {c : Call ε σ α} {f : α → Call ε σ β} {post' : β → σ → Prop}
    (hc : Ends otherwise post (c s))
    (hf : ∀ a s', post a s' → Ends otherwise post' (f a s')) :
    Ends otherwise post' ((c >>= f) s) := by
  show Ends otherwise post' (Call.andThen c f s)
  unfold Call.andThen
  cases h : c s with
  | none =>
    rw [h] at hc
    exact hc
  | some r =>
    rw [h] at hc
    cases r with
    | ok a s' => exact hf a s' hc
    | failed e s' => exact hc
    | crash => exact hc

theorem ends_get_bind {f : σ → Call ε σ α} (h : Ends otherwise post (f s s)) :
    Ends otherwise post ((Call.get >>= f) s) := h

theorem ends_modify_bind {g : σ → σ} {f : Unit → Call ε σ α}
    (h : Ends otherwise post (f () (g s))) :
    Ends otherwise post ((Call.modify g >>= f) s) := h

theorem Ends.onFailure {c : Call ε σ α} {cleanUp : σ → σ} (h : Ends otherwise post (c s)) :
    Ends otherwise post (Call.onFailure cleanUp c s) := by
  unfold Call.onFailure
  cases hr : c s with
  | none =>
    rw [hr] at h
    exact h
  | some r =>
    rw [hr] at h
    cases r with
    | ok a s' => exact h
    | failed e s' => exact h
    | crash => exact h

theorem Ends.withError {c : Call ε σ α} {e : ε} (h : Ends otherwise post (c s)) :
    Ends otherwise post (Call.withError e c s) := by
  unfold Call.withError
  cases hr : c s with
  | none =>
    rw [hr] at h
    exact h
  | some r =>
    rw [hr] at h
    cases r with
    | ok a s' => exact h
    | failed e s' => exact h
    | crash => exact h

end Rules

end Cil.Library
