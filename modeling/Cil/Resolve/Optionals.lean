/- Cil/Resolve/Optionals
   digest: When the optionals that are removed are those in which a statement fails. -/

import Mathlib.Data.List.Basic
import Cil.Library.Following
import Cil.Copy.Levels
import Cil.Resolve.Walk

set_option autoImplicit false
set_option relaxedAutoImplicit false

namespace Cil.Resolve.Optionals

open Library Ast Walk

section Events

variable (log : List Event)

/-- In some round a statement of the optional, but of no optional inside, fails to resolve. -/
def Failed (x : Nat) : Prop := ∃ sharers, .disabled x sharers ∈ log

def Destroyed (x : Nat) : Prop := ∃ below, .destroyed x below ∈ log

/-- The children of an optional around the node are destroyed. -/
def Enclosed (x : Nat) : Prop := ∃ opt below, .destroyed opt below ∈ log ∧ x ∈ below

/-- The children of the node are destroyed with its own optional or with one around it. -/
def Removed (x : Nat) : Prop := Destroyed log x ∨ Enclosed log x

/-- An optional goes if and only if a statement of it fails or an optional around it goes. -/
def RemovedOnFailure : Prop := ∀ x, Removed log x ↔ Failed log x ∨ Enclosed log x

/-- No other node has the datum of an optional when it is disabled, and none gets it later. -/
def Unshared : Event → Prop
  | .disabled _ sharers => sharers = []
  | .copied _ enabled => enabled = true
  | .destroyed _ _ => True
  | .freed _ => True

instance : DecidablePred Unshared
  | .disabled _ sharers => inferInstanceAs (Decidable (sharers = []))
  | .copied _ enabled => inferInstanceAs (Decidable (enabled = true))
  | .destroyed _ _ => inferInstanceAs (Decidable True)
  | .freed _ => inferInstanceAs (Decidable True)

def AllUnshared : Prop := ∀ e ∈ log, Unshared e

instance : Decidable (AllUnshared log) := inferInstanceAs (Decidable (∀ e ∈ log, Unshared e))

end Events

/-- What a run that succeeds leaves in the log. -/
def logOf {κ σ : Type} : Option (Returned Rc (State κ σ) Unit) → Option (List Event)
  | some (.ok _ s) => some s.log
  | _ => none

section Log

variable {log log' : List Event} {x : Nat}

theorem Failed.mono (h : Failed log x) (hlog : log <+: log') : Failed log' x := by
  obtain ⟨sharers, hmem⟩ := h
  exact ⟨sharers, hlog.subset hmem⟩

theorem Destroyed.mono (h : Destroyed log x) (hlog : log <+: log') : Destroyed log' x := by
  obtain ⟨below, hmem⟩ := h
  exact ⟨below, hlog.subset hmem⟩

theorem Removed.mono (h : Removed log x) (hlog : log <+: log') : Removed log' x := by
  rcases h with h | ⟨opt, below, hmem, hx⟩
  · exact Or.inl (h.mono hlog)
  · exact Or.inr ⟨opt, below, hlog.subset hmem, hx⟩

private theorem AllUnshared.of_prefix (h : AllUnshared log') (hlog : log <+: log') :
    AllUnshared log :=
  fun e he => h e (hlog.subset he)

private theorem failed_append_destroyed {opt : Nat} {below : List Nat} :
    Failed (log ++ [.destroyed opt below]) x ↔ Failed log x := by
  simp [Failed]

private theorem failed_append_copied {opt : Nat} {enabled : Bool} :
    Failed (log ++ [.copied opt enabled]) x ↔ Failed log x := by
  simp [Failed]

private theorem failed_append_freed {dangling : Bool} :
    Failed (log ++ [.freed dangling]) x ↔ Failed log x := by
  simp [Failed]

private theorem failed_append_disabled {opt : Nat} {sharers : List Nat} :
    Failed (log ++ [.disabled opt sharers]) x ↔ Failed log x ∨ x = opt := by
  simp [Failed, exists_or]

private theorem destroyed_append_disabled {opt : Nat} {sharers : List Nat} :
    Destroyed (log ++ [.disabled opt sharers]) x ↔ Destroyed log x := by
  simp [Destroyed]

private theorem destroyed_append_copied {opt : Nat} {enabled : Bool} :
    Destroyed (log ++ [.copied opt enabled]) x ↔ Destroyed log x := by
  simp [Destroyed]

private theorem destroyed_append_freed {dangling : Bool} :
    Destroyed (log ++ [.freed dangling]) x ↔ Destroyed log x := by
  simp [Destroyed]

private theorem destroyed_append_destroyed {opt : Nat} {below : List Nat} :
    Destroyed (log ++ [.destroyed opt below]) x ↔ Destroyed log x ∨ x = opt := by
  simp [Destroyed, exists_or]

end Log

variable {κ σ : Type}

/-- What holds between any two steps, as long as no datum is shared. -/
structure Inv (s : State κ σ) : Prop where
  optional_lt : ∀ x id, s.optional x = some id → x < s.next ∧ id < s.sym.next
  bounded : Copy.Bounded s.sym
  failed_of_disabled : ∀ x id, s.optional x = some id → s.dead x = false →
    s.enabled id = false → Failed s.log x
  disabled_of_failed : ∀ x, Failed s.log x → ∃ id, s.optional x = some id ∧ s.enabled id = false
  failed_of_destroyed : ∀ x, Destroyed s.log x → Failed s.log x

theorem inv_init (rest : σ) : Inv (State.init rest : State κ σ) where
  optional_lt x id h := by cases h
  bounded ns i key id h := by cases h
  failed_of_disabled x id h := by cases h
  disabled_of_failed x h := by
    obtain ⟨sharers, hmem⟩ := h
    cases hmem
  failed_of_destroyed x h := by
    obtain ⟨below, hmem⟩ := h
    cases hmem

section Updates

variable {s : State κ σ}

private theorem optional_addNode (dest : Nat) (stmt : Stmt κ) (data x : Nat) :
    (s.addNode dest stmt data).optional x =
      if x = s.next then (if stmt.isDecl .optional then some data else none) else s.optional x := by
  unfold State.optional State.addNode
  by_cases hx : x = s.next
  · subst hx
    simp
  · by_cases hdest : x = dest
    · subst hdest
      simp [hx]
    · simp [Function.update_of_ne hdest, hx]

/-- A new node keeps the invariant if its datum is enabled. -/
theorem Inv.addNode (h : Inv s) {dest : Nat} {stmt : Stmt κ} {data : Nat}
    (hnew : stmt.isDecl .optional = true → data < s.sym.next ∧ s.enabled data = true) :
    Inv (s.addNode dest stmt data) where
  optional_lt x id hx := by
    rw [optional_addNode] at hx
    split_ifs at hx with hnext hopt
    · obtain rfl := Option.some.inj hx
      exact ⟨by rw [hnext]; exact Nat.lt_succ_self _, (hnew hopt).1⟩
    · obtain ⟨hlt, hid⟩ := h.optional_lt x id hx
      exact ⟨Nat.lt_succ_of_lt hlt, hid⟩
  bounded := h.bounded
  failed_of_disabled x id hx hlive hdisabled := by
    rw [optional_addNode] at hx
    split_ifs at hx with hnext hopt
    · obtain rfl := Option.some.inj hx
      have henabled : s.enabled data = true := (hnew hopt).2
      rw [show s.enabled data = false from hdisabled] at henabled
      cases henabled
    · exact h.failed_of_disabled x id hx hlive hdisabled
  disabled_of_failed x hx := by
    obtain ⟨id, hid, hdisabled⟩ := h.disabled_of_failed x hx
    have hne : x ≠ s.next := Nat.ne_of_lt (h.optional_lt x id hid).1
    refine ⟨id, ?_, hdisabled⟩
    rw [optional_addNode, if_neg hne]
    exact hid
  failed_of_destroyed := h.failed_of_destroyed

theorem Inv.declare (h : Inv s) {id : Nat} {sym : Copy.State} (hbounded : Copy.Bounded sym)
    (hnext : s.sym.next ≤ sym.next) : Inv (s.declare id sym) where
  optional_lt x datum hx := by
    obtain ⟨hlt, hid⟩ := h.optional_lt x datum hx
    exact ⟨hlt, Nat.lt_of_lt_of_le hid hnext⟩
  bounded := hbounded
  failed_of_disabled x datum hx hlive hdisabled := by
    refine h.failed_of_disabled x datum hx hlive ?_
    have hne : datum ≠ s.sym.next := Nat.ne_of_lt (h.optional_lt x datum hx).2
    simp only [State.declare] at hdisabled
    split_ifs at hdisabled with hfresh
    · rw [hfresh, Function.update_of_ne hne] at hdisabled
      exact hdisabled
    · exact hdisabled
  disabled_of_failed x hx := by
    obtain ⟨datum, hdatum, hdisabled⟩ := h.disabled_of_failed x hx
    refine ⟨datum, hdatum, ?_⟩
    have hne : datum ≠ s.sym.next := Nat.ne_of_lt (h.optional_lt x datum hdatum).2
    simp only [State.declare]
    split_ifs with hfresh
    · rw [hfresh, Function.update_of_ne hne]
      exact hdisabled
    · exact hdisabled
  failed_of_destroyed := h.failed_of_destroyed

/-- An event about no failure and no removal. -/
theorem Inv.note (h : Inv s) {e : Event}
    (hfailed : ∀ x, Failed (s.log ++ [e]) x ↔ Failed s.log x)
    (hdestroyed : ∀ x, Destroyed (s.log ++ [e]) x ↔ Destroyed s.log x) :
    Inv { s with log := s.log ++ [e] } where
  optional_lt := h.optional_lt
  bounded := h.bounded
  failed_of_disabled x datum hx hlive hdisabled :=
    (hfailed x).mpr (h.failed_of_disabled x datum hx hlive hdisabled)
  disabled_of_failed x hx := h.disabled_of_failed x ((hfailed x).mp hx)
  failed_of_destroyed x hx := (hfailed x).mpr (h.failed_of_destroyed x ((hdestroyed x).mp hx))

theorem Inv.noteCopied (h : Inv s) (id : Nat) (d : Copy.Decl) : Inv (s.noteCopied id d) := by
  unfold State.noteCopied
  split_ifs with hopt
  · exact h.note (fun _ => failed_append_copied) fun _ => destroyed_append_copied
  · exact h

theorem Inv.withTables (h : Inv s) : Inv s.withTables where
  optional_lt x id hx := by
    obtain ⟨hlt, hid⟩ := h.optional_lt x id hx
    exact ⟨hlt, Nat.lt_succ_of_lt hid⟩
  bounded ns i key id hid := Nat.lt_succ_of_lt (h.bounded ns i key id hid)
  failed_of_disabled := h.failed_of_disabled
  disabled_of_failed := h.disabled_of_failed
  failed_of_destroyed := h.failed_of_destroyed

/-- What destroying nodes leaves as it is. -/
structure Shrunk (s s' : State κ σ) : Prop where
  optional : ∀ x, s'.optional x = s.optional x
  next : s'.next = s.next
  symNext : s'.sym.next = s.sym.next
  tables : ∀ ns i key id, s'.sym.tables ns i key = some id → s.sym.tables ns i key = some id
  dead : ∀ x, s'.dead x = false → s.dead x = false
  enabled : s'.enabled = s.enabled
  log : s'.log = s.log

theorem Shrunk.refl (s : State κ σ) : Shrunk s s :=
  ⟨fun _ => rfl, rfl, rfl, fun _ _ _ _ h => h, fun _ h => h, rfl, rfl⟩

theorem Shrunk.trans {s₁ s₂ s₃ : State κ σ} (h₁ : Shrunk s₁ s₂) (h₂ : Shrunk s₂ s₃) :
    Shrunk s₁ s₃ where
  optional x := (h₂.optional x).trans (h₁.optional x)
  next := h₂.next.trans h₁.next
  symNext := h₂.symNext.trans h₁.symNext
  tables ns i key id h := h₁.tables ns i key id (h₂.tables ns i key id h)
  dead x h := h₁.dead x (h₂.dead x h)
  enabled := h₂.enabled.trans h₁.enabled
  log := h₂.log.trans h₁.log

private theorem shrunk_removeNode (s : State κ σ) (id n : Nat) : Shrunk s (s.removeNode id n) := by
  unfold State.removeNode
  dsimp only
  split_ifs
  · refine ⟨fun _ => rfl, rfl, rfl, ?_, fun _ h => h, rfl, rfl⟩
    intro ns i key datum h
    exact (Option.filter_eq_some_iff.mp h).1
  · exact ⟨fun _ => rfl, rfl, rfl, fun _ _ _ _ h => h, fun _ h => h, rfl, rfl⟩

private theorem shrunk_destroyNode (s : State κ σ) (n : Nat) : Shrunk s (s.destroyNode n) := by
  have hdead : Shrunk s { s with dead := Function.update s.dead n true } := by
    refine ⟨fun _ => rfl, rfl, rfl, fun _ _ _ _ h => h, ?_, rfl, rfl⟩
    intro x hx
    by_cases hne : x = n
    · subst hne
      simp at hx
    · simpa [hne] using hx
  unfold State.destroyNode
  split
  · exact hdead.trans (shrunk_removeNode _ _ _)
  · exact hdead

private theorem shrunk_foldl (ns : List Nat) (s : State κ σ) :
    Shrunk s (ns.foldl State.destroyNode s) := by
  induction ns generalizing s with
  | nil => exact Shrunk.refl s
  | cons n ns ih => exact (shrunk_destroyNode s n).trans (ih _)

private theorem shrunk_childrenDestroy {s' : State κ σ} {fuel n : Nat} {below : List Nat}
    (h : s.childrenDestroy fuel n = some (below, s')) : Shrunk s s' := by
  unfold State.childrenDestroy at h
  split at h
  · cases h
  · obtain ⟨rfl, rfl⟩ := Prod.mk.inj (Option.some.inj h)
    refine (shrunk_foldl _ s).trans ⟨?_, rfl, rfl, fun _ _ _ _ h => h, fun _ h => h, rfl, rfl⟩
    intro x
    unfold State.optional
    by_cases hx : x = n
    · subst hx
      simp
    · simp [hx]

private theorem Inv.shrunk (h : Inv s) {s' : State κ σ} (hs : Shrunk s s') : Inv s' where
  optional_lt x id hx := by
    rw [hs.next, hs.symNext]
    exact h.optional_lt x id (hs.optional x ▸ hx)
  bounded ns i key id hid := by
    rw [hs.symNext]
    exact h.bounded ns i key id (hs.tables ns i key id hid)
  failed_of_disabled x id hx hlive hdisabled := by
    rw [hs.log]
    rw [hs.enabled] at hdisabled
    exact h.failed_of_disabled x id (hs.optional x ▸ hx) (hs.dead x hlive) hdisabled
  disabled_of_failed x hx := by
    rw [hs.log] at hx
    rw [hs.optional, hs.enabled]
    exact h.disabled_of_failed x hx
  failed_of_destroyed x hx := by
    rw [hs.log] at hx ⊢
    exact h.failed_of_destroyed x hx

end Updates

/-- What a call leads to that is made inside an optional, the `top` of the stack: only for
that one can it be open whether a statement failed. -/
structure Kept (top : Option Nat) (s s' : State κ σ) : Prop where
  inv : Inv s'
  optional : ∀ x id, s.optional x = some id → s'.optional x = some id
  accounted : ∀ x, Failed s'.log x → Failed s.log x ∨ top = some x ∨ Removed s'.log x

structure Goes (top : Option Nat) (s s' : State κ σ) : Prop where
  log : s.log <+: s'.log
  kept : AllUnshared s'.log → Inv s → Kept top s s'

theorem Goes.refl {top : Option Nat} (s : State κ σ) : Goes top s s :=
  ⟨List.prefix_refl _, fun _ hinv => ⟨hinv, fun _ _ h => h, fun _ h => Or.inl h⟩⟩

theorem Goes.trans {top : Option Nat} {s₁ s₂ s₃ : State κ σ} (h₁ : Goes top s₁ s₂)
    (h₂ : Goes top s₂ s₃) : Goes top s₁ s₃ := by
  refine ⟨h₁.log.trans h₂.log, fun hall hinv => ?_⟩
  have hkept₁ := h₁.kept (hall.of_prefix h₂.log) hinv
  have hkept₂ := h₂.kept hall hkept₁.inv
  refine ⟨hkept₂.inv, fun x id h => hkept₂.optional x id (hkept₁.optional x id h), ?_⟩
  intro x hx
  rcases hkept₂.accounted x hx with hx | hx | hx
  · rcases hkept₁.accounted x hx with hx | hx | hx
    · exact Or.inl hx
    · exact Or.inr (Or.inl hx)
    · exact Or.inr (Or.inr (hx.mono h₂.log))
  · exact Or.inr (Or.inl hx)
  · exact Or.inr (Or.inr hx)

private theorem goes_progress (top : Option Nat) :
    Progress (Goes top : State κ σ → State κ σ → Prop) :=
  ⟨Goes.refl, fun _ _ _ => Goes.trans⟩

/-- A step in which nothing fails. -/
private theorem goes_of_inv {top : Option Nat} {s s' : State κ σ} (hlog : s'.log = s.log)
    (hinv : Inv s → Inv s')
    (hoptional : Inv s → ∀ x id, s.optional x = some id → s'.optional x = some id) :
    Goes top s s' := by
  refine ⟨hlog ▸ List.prefix_refl _, fun _ h => ⟨hinv h, hoptional h, ?_⟩⟩
  intro x hx
  rw [hlog] at hx
  exact Or.inl hx

/-- A step that writes other fields than those the invariant is about. -/
private theorem goes_otherFields {top : Option Nat} {s s' : State κ σ} (hsym : s'.sym = s.sym)
    (hnodes : s'.nodes = s.nodes) (hnext : s'.next = s.next) (hdead : s'.dead = s.dead)
    (henabled : s'.enabled = s.enabled) (hlog : s'.log = s.log) : Goes top s s' := by
  have hoptional : ∀ x, s'.optional x = s.optional x := by
    intro x
    unfold State.optional
    rw [hnodes]
  refine goes_of_inv hlog (fun h => ?_) fun _ x id hx => (hoptional x).trans hx
  refine h.shrunk ⟨hoptional, hnext, by rw [hsym], ?_, ?_, henabled, hlog⟩
  · intro ns i key id hid
    exact hsym ▸ hid
  · intro x hx
    exact hdead ▸ hx

/-- Every call that returns leads to such a state. -/
def Keeps {α : Type} (top : Option Nat) (c : M κ σ α) : Prop :=
  Establishes (Goes top) (fun _ => True) c

namespace Keeps

variable {α β : Type} {top : Option Nat}

theorem of_eq {c : M κ σ α} (h : ∀ s a s', c s = some (.ok a s') → Goes top s s') : Keeps top c :=
  Follows.of_eq h

theorem goes {c : M κ σ α} (h : Keeps top c) {s s' : State κ σ} {a : α}
    (hc : c s = some (.ok a s')) : Goes top s s' :=
  Follows.of_ok h hc

theorem pure (a : α) : Keeps top (Pure.pure a : M κ σ α) := Follows.pure (goes_progress top) a

theorem fail (rc : Rc) : Keeps top (Call.fail rc : M κ σ α) := Follows.fail rc

theorem crash : Keeps top (Call.crash : M κ σ α) := Follows.crash

theorem outOfFuel : Keeps top (Call.outOfFuel : M κ σ α) := Follows.outOfFuel

theorem bind {c : M κ σ α} {f : α → M κ σ β} (hc : Keeps top c) (hf : ∀ a, Keeps top (f a)) :
    Keeps top (c >>= f) :=
  Follows.bind (goes_progress top) hc hf

theorem get_bind {f : State κ σ → M κ σ α} (h : ∀ s, Keeps top (f s)) :
    Keeps top (Call.get >>= f) :=
  Follows.get_bind h

theorem modify {f : State κ σ → State κ σ} (h : ∀ s, Goes top s (f s)) :
    Keeps top (Call.modify f) :=
  Follows.modify h

end Keeps

section Copying

variable {top : Option Nat}

private theorem goes_addNode (s : State κ σ) (dest : Nat) {stmt : Stmt κ} (data : Nat)
    (hstmt : stmt.isDecl .optional = false) : Goes top s (s.addNode dest stmt data) := by
  refine goes_of_inv rfl (fun h => h.addNode ?_) ?_
  · intro hopt
    rw [hstmt] at hopt
    cases hopt
  · intro h x id hx
    rw [optional_addNode, if_neg (Nat.ne_of_lt (h.optional_lt x id hx).1)]
    exact hx

private theorem goes_withTables (s : State κ σ) : Goes top s s.withTables :=
  goes_of_inv rfl (fun h => h.withTables) fun _ _ _ h => h

private theorem optional_noteCopied (s : State κ σ) (id : Nat) (d : Copy.Decl) (x : Nat) :
    (s.noteCopied id d).optional x = s.optional x := by
  unfold State.noteCopied
  split_ifs <;> rfl

/-- A copied declaration: the optional it may be has an enabled datum. -/
private theorem goes_copyDecl (s : State κ σ) {place : Copy.Dest} {d : Copy.Decl} {id : Nat}
    {sym : Copy.State} (hcopy : Copy.copyDecl s.sym place d = .ok (id, sym)) (dest : Nat) :
    Goes top s (((s.declare id sym).noteCopied id d).addNode dest (.decl d) id) := by
  have hlog : s.log <+: ((s.declare id sym).noteCopied id d).log := by
    unfold State.noteCopied
    split_ifs
    · exact List.prefix_append _ _
    · exact List.prefix_refl _
  refine ⟨hlog, fun hall hinv => ?_⟩
  obtain ⟨hbounded, hlt, hle, _⟩ := Copy.copyDecl_bounded hinv.bounded hcopy
  have hdeclared : Inv ((s.declare id sym).noteCopied id d) :=
    (hinv.declare hbounded hle).noteCopied id d
  refine ⟨hdeclared.addNode ?_, ?_, ?_⟩
  · intro hopt
    have hflavor : d.flavor = .optional := by simpa [Stmt.isDecl] using hopt
    have hnoted : ((s.declare id sym).noteCopied id d) =
        { s.declare id sym with
          log := s.log ++ [.copied s.next ((s.declare id sym).enabled id)] } := if_pos hflavor
    have hunshared := hall (.copied s.next ((s.declare id sym).enabled id)) (by
      show _ ∈ ((s.declare id sym).noteCopied id d).log
      rw [hnoted]
      simp)
    rw [hnoted]
    exact ⟨hlt, hunshared⟩
  · intro x datum hx
    rw [optional_addNode, optional_noteCopied]
    have hne : x ≠ ((s.declare id sym).noteCopied id d).next := by
      have hnext : ((s.declare id sym).noteCopied id d).next = s.next := by
        unfold State.noteCopied
        split_ifs <;> rfl
      rw [hnext]
      exact Nat.ne_of_lt (hinv.optional_lt x datum hx).1
    rw [if_neg hne]
    exact hx
  · intro x hx
    have hfailed : Failed ((s.declare id sym).noteCopied id d).log x := hx
    unfold State.noteCopied at hfailed
    split_ifs at hfailed
    · exact Or.inl (failed_append_copied.mp hfailed)
    · exact Or.inl hfailed

theorem copyNode_keeps (fuel orig dest : Nat) :
    Keeps top (copyNode fuel orig dest : M κ σ Nat) := by
  refine Keeps.of_eq fun s new s' h => ?_
  unfold copyNode at h
  split at h
  · cases h
  · split at h
    · split at h
      · cases h
      · split at h
        · cases h
        · cases h
        · rename_i id sym hcopy
          obtain ⟨_, rfl⟩ := Returned.ok.inj (Option.some.inj h)
          exact goes_copyDecl s hcopy dest
    · split at h
      · cases h
      · split at h
        · cases h
        · split at h
          · cases h
          · obtain ⟨_, rfl⟩ := Returned.ok.inj (Option.some.inj h)
            refine (goes_addNode s dest 0 ?_).trans (goes_otherFields rfl rfl rfl rfl rfl rfl)
            rfl
    · obtain ⟨_, rfl⟩ := Returned.ok.inj (Option.some.inj h)
      refine (goes_addNode s dest 0 ?_).trans (goes_otherFields rfl rfl rfl rfl rfl rfl)
      rfl
    · obtain ⟨_, rfl⟩ := Returned.ok.inj (Option.some.inj h)
      exact (goes_withTables s).trans (goes_addNode _ dest _ rfl)
    · cases h
    · cases h
    · cases h
    · rename_i hnotDecl _ _ _ _ _ _
      obtain ⟨_, rfl⟩ := Returned.ok.inj (Option.some.inj h)
      refine goes_addNode s dest 0 ?_
      cases hstmt : (s.nodes orig).stmt with
      | decl d => exact absurd hstmt (hnotDecl d)
      | _ => rfl

private theorem copyFrom_keeps (fuel orig k dest : Nat) :
    Keeps top (copyFrom fuel orig k dest : M κ σ Unit) := by
  induction fuel generalizing orig k dest with
  | zero => exact Keeps.outOfFuel
  | succ fuel ih =>
    rw [copyFrom]
    refine Keeps.get_bind fun s => ?_
    split
    · exact Keeps.crash
    · split
      · exact Keeps.pure _
      · rename_i n hn
        refine (copyNode_keeps fuel n dest).bind fun new => ?_
        exact (ih n 0 new).bind fun _ => ih orig (k + 1) dest

end Copying

section Statements

variable {top : Option Nat} (ops : Ops κ σ) (fuel : Nat)

private theorem modify_keeps {f : State κ σ → State κ σ} (hsym : ∀ s, (f s).sym = s.sym)
    (hnodes : ∀ s, (f s).nodes = s.nodes) (hnext : ∀ s, (f s).next = s.next)
    (hdead : ∀ s, (f s).dead = s.dead) (henabled : ∀ s, (f s).enabled = s.enabled)
    (hlog : ∀ s, (f s).log = s.log) : Keeps top (Call.modify f) :=
  Keeps.modify fun s =>
    goes_otherFields (hsym s) (hnodes s) (hnext s) (hdead s) (henabled s) (hlog s)

private theorem headNode_keeps (id : Nat) : Keeps top (headNode id : M κ σ Nat) := by
  refine Keeps.of_eq fun s n s' h => ?_
  unfold headNode at h
  split at h
  · cases h
  · split at h
    · cases h
    · obtain ⟨_, rfl⟩ := Returned.ok.inj (Option.some.inj h)
      exact Goes.refl s

/-- The state after nodes have been destroyed. -/
private theorem childrenDestroy_ok {s s' : State κ σ} {n : Nat} {below : List Nat}
    (h : childrenDestroy fuel n s = some (.ok below s')) :
    ∃ s₁ dangling, Shrunk s s₁ ∧ s' = { s₁ with log := s₁.log ++ [.freed dangling] } := by
  unfold childrenDestroy at h
  split at h
  · cases h
  · rename_i s₁ hdestroy
    obtain ⟨_, rfl⟩ := Returned.ok.inj (Option.some.inj h)
    exact ⟨s₁, _, shrunk_childrenDestroy hdestroy, rfl⟩

theorem childrenDestroy_keeps (n : Nat) :
    Keeps top (childrenDestroy fuel n : M κ σ (List Nat)) := by
  refine Keeps.of_eq fun s below s' h => ?_
  obtain ⟨s₁, dangling, hs, rfl⟩ := childrenDestroy_ok fuel h
  have hlog : s₁.log = s.log := hs.log
  refine ⟨by rw [← hlog]; exact List.prefix_append _ _, fun _ hinv => ⟨?_, ?_, ?_⟩⟩
  · exact (hinv.shrunk hs).note (fun _ => failed_append_freed) fun _ => destroyed_append_freed
  · exact fun x _ hx => (hs.optional x).trans hx
  · intro x hx
    rw [← hlog]
    exact Or.inl (failed_append_freed.mp hx)

private theorem copyAst_keeps (orig dest : Nat) : Keeps top (copyAst fuel orig dest : M κ σ Unit) :=
  copyFrom_keeps fuel orig 0 dest

private theorem resolveTunif_keeps (n : Nat) : Keeps top (resolveTunif ops fuel n) := by
  refine Keeps.get_bind fun s => ?_
  split
  · exact Keeps.pure _
  · exact Keeps.pure _
  · have hdestroy : Keeps top (do
        let _ ← childrenDestroy fuel n
        pure Rc.ok : M κ σ Rc) := (childrenDestroy_keeps fuel n).bind fun _ => Keeps.pure _
    refine Keeps.bind ?_ fun _ => ?_
    · exact modify_keeps (fun _ => rfl) (fun _ => rfl) (fun _ => rfl) (fun _ => rfl)
        (fun _ => rfl) fun _ => rfl
    · split
      · exact hdestroy
      · exact (copyAst_keeps fuel _ _).bind fun _ => hdestroy

private theorem resolveBlockinheritLink_keeps (n : Nat) (blockStr : String) :
    Keeps top (resolveBlockinheritLink ops n blockStr) := by
  refine Keeps.get_bind fun s => ?_
  split
  · exact Keeps.pure _
  · exact Keeps.pure _
  · refine (headNode_keeps _).bind fun node => ?_
    split
    · refine Keeps.bind ?_ fun _ => Keeps.pure _
      exact modify_keeps (fun _ => rfl) (fun _ => rfl) (fun _ => rfl) (fun _ => rfl)
        (fun _ => rfl) fun _ => rfl
    · exact Keeps.pure _

private theorem copyIntoAll_keeps (left n b k : Nat) :
    Keeps top (copyIntoAll fuel left n b k : M κ σ Unit) := by
  induction left generalizing k with
  | zero => exact Keeps.outOfFuel
  | succ left ih =>
    rw [copyIntoAll]
    refine Keeps.get_bind fun s => ?_
    split
    · exact Keeps.pure _
    · exact (copyAst_keeps fuel _ _).bind fun _ => ih (k + 1)

private theorem resolveBlockinheritCopy_keeps (n : Nat) :
    Keeps top (resolveBlockinheritCopy fuel n : M κ σ Rc) := by
  refine Keeps.get_bind fun s => ?_
  dsimp only
  split
  · exact Keeps.pure _
  · refine (headNode_keeps _).bind fun first => ?_
    split
    · exact (copyIntoAll_keeps fuel _ _ _ _).bind fun _ => Keeps.pure _
    · exact Keeps.pure _

private theorem resolveBlockabstract_keeps (n : Nat) (blockStr : String) :
    Keeps top (resolveBlockabstract ops n blockStr) := by
  refine Keeps.get_bind fun s => ?_
  split
  · exact Keeps.pure _
  · exact Keeps.pure _
  · refine (headNode_keeps _).bind fun node => ?_
    split
    · refine Keeps.bind ?_ fun _ => Keeps.pure _
      exact modify_keeps (fun _ => rfl) (fun _ => rfl) (fun _ => rfl) (fun _ => rfl)
        (fun _ => rfl) fun _ => rfl
    · exact Keeps.pure _

private theorem rest_keeps (rest : σ) :
    Keeps top (Call.modify fun s => { s with rest := rest } : M κ σ Unit) :=
  modify_keeps (fun _ => rfl) (fun _ => rfl) (fun _ => rfl) (fun _ => rfl) (fun _ => rfl)
    fun _ => rfl

private theorem fill_keeps (r : Resolved σ) : Keeps top (fill r : M κ σ Rc) := by
  refine Keeps.bind ?_ fun _ => Keeps.pure _
  exact modify_keeps (fun _ => rfl) (fun _ => rfl) (fun _ => rfl) (fun _ => rfl)
    (fun _ => rfl) fun _ => rfl

private theorem resolveCall1_keeps (n : Nat) (macroStr : String) :
    Keeps top (resolveCall1 ops fuel n macroStr) := by
  refine Keeps.get_bind fun s => ?_
  split
  · exact Keeps.pure _
  · exact Keeps.pure _
  · refine (headNode_keeps _).bind fun node => ?_
    split
    · refine Keeps.bind ?_ fun _ => Keeps.get_bind fun s => ?_
      · exact modify_keeps (fun _ => rfl) (fun _ => rfl) (fun _ => rfl) (fun _ => rfl)
          (fun _ => rfl) fun _ => rfl
      · refine (fill_keeps _).bind fun rc => ?_
        split
        · split
          · exact Keeps.pure _
          · refine Keeps.bind ?_ fun _ => (copyAst_keeps fuel _ _).bind fun _ => Keeps.pure _
            exact modify_keeps (fun _ => rfl) (fun _ => rfl) (fun _ => rfl) (fun _ => rfl)
              (fun _ => rfl) fun _ => rfl
        · exact Keeps.pure _
    · exact Keeps.pure _

private theorem resolveInRound_keeps (ins : List Nat) :
    Keeps top (resolveInRound ops fuel ins) := by
  induction ins with
  | nil => exact Keeps.pure _
  | cons n ins ih =>
    rw [resolveInRound]
    refine Keeps.get_bind fun s => ?_
    split
    · split
      · refine Keeps.bind ?_ fun _ => ih
        refine (headNode_keeps _).bind fun node => ?_
        exact (copyAst_keeps fuel _ _).bind fun _ =>
          (childrenDestroy_keeps fuel n).bind fun _ => Keeps.pure _
      · exact ih.bind fun _ => Keeps.pure _
    · exact Keeps.crash

private theorem resolveInList_keeps (left : Nat) (ins : List Nat) :
    Keeps top (resolveInList ops fuel left ins) := by
  induction left generalizing ins with
  | zero => exact Keeps.outOfFuel
  | succ left ih =>
    rw [resolveInList]
    refine (resolveInRound_keeps ops fuel ins).bind fun unresolved => ?_
    split
    · exact Keeps.pure _
    · split
      · exact Keeps.fail _
      · exact ih _

private theorem resolveAstNode_keeps (pass : Pass) (n : Nat) :
    Keeps top (resolveAstNode ops fuel pass n) := by
  refine Keeps.get_bind fun s => ?_
  split
  · exact resolveTunif_keeps ops fuel n
  · refine Keeps.bind ?_ fun _ => Keeps.pure _
    exact modify_keeps (fun _ => rfl) (fun _ => rfl) (fun _ => rfl) (fun _ => rfl)
      (fun _ => rfl) fun _ => rfl
  · exact resolveBlockinheritLink_keeps ops n _
  · split
    · exact resolveBlockinheritCopy_keeps fuel n
    · exact Keeps.pure _
  · exact resolveBlockabstract_keeps ops n _
  · split
    · exact resolveCall1_keeps ops fuel n _
    · exact Keeps.pure _
  · exact resolveCall1_keeps ops fuel n _
  · split
    · exact fill_keeps _
    · exact Keeps.pure _

end Statements

section Walk

variable (ops : Ops κ σ) (fuel : Nat) (pass : Pass)

private theorem optionalDatum_ok {s s' : State κ σ} {n id : Nat}
    (h : optionalDatum n s = some (.ok id s')) : s' = s ∧ s.optional n = some id := by
  unfold optionalDatum at h
  split at h
  · cases h
  · rename_i datum hdatum
    split at h
    · obtain ⟨rfl, rfl⟩ := Returned.ok.inj (Option.some.inj h)
      exact ⟨rfl, hdatum⟩
    · cases h

/-- A failing statement: no live optional but its own has the datum that is disabled. -/
private theorem disable_keeps (opt : Nat) : Keeps (some opt) (disable opt : M κ σ Unit) := by
  refine Keeps.of_eq fun s u s' h => ?_
  obtain ⟨id, s₁, hdatum, hmodify⟩ := Call.bind_ok h
  obtain ⟨rfl, hopt⟩ := optionalDatum_ok hdatum
  obtain ⟨_, rfl⟩ := Returned.ok.inj (Option.some.inj hmodify)
  refine ⟨List.prefix_append _ _, fun hall hinv => ⟨⟨hinv.optional_lt, hinv.bounded, ?_, ?_, ?_⟩,
    fun _ _ hx => hx, ?_⟩⟩
  · intro x datum hx hlive hdisabled
    refine failed_append_disabled.mpr ?_
    by_cases heq : datum = id
    · subst heq
      by_cases hne : x = opt
      · exact Or.inr hne
      · have hunshared : s₁.sharers opt datum = [] :=
          hall (.disabled opt (s₁.sharers opt datum)) (List.mem_append_right _ (by simp))
        have hmem : x ∈ s₁.sharers opt datum := by
          refine List.mem_filter.mpr ⟨List.mem_range.mpr (hinv.optional_lt x datum hx).1, ?_⟩
          have hlive' : s₁.dead x = false := hlive
          have hx' : s₁.optional x = some datum := hx
          simp [hne, hlive', hx']
        rw [hunshared] at hmem
        cases hmem
    · left
      refine hinv.failed_of_disabled x datum hx hlive ?_
      simpa [heq] using hdisabled
  · intro x hx
    rcases failed_append_disabled.mp hx with hx | rfl
    · obtain ⟨datum, hdatum, hdisabled⟩ := hinv.disabled_of_failed x hx
      refine ⟨datum, hdatum, ?_⟩
      by_cases heq : datum = id
      · simp [heq]
      · simpa [heq] using hdisabled
    · exact ⟨id, hopt, by simp⟩
  · intro x hx
    refine failed_append_disabled.mpr (Or.inl ?_)
    exact hinv.failed_of_destroyed x (destroyed_append_disabled.mp hx)
  · intro x hx
    rcases failed_append_disabled.mp hx with hx | hx
    · exact Or.inl hx
    · exact Or.inr (Or.inl (by rw [hx]))

private theorem nodeHelper_keeps (stack : Stacks) (n : Nat) :
    Keeps stack.opts.head? (nodeHelper ops fuel pass stack n) := by
  refine Keeps.get_bind fun s => ?_
  split
  · exact Keeps.crash
  · split
    · exact Keeps.fail _
    · split
      · exact Keeps.fail _
      · split
        · exact Keeps.pure _
        · refine (resolveAstNode_keeps ops fuel pass n).bind fun rc => ?_
          split
          · exact Keeps.pure _
          · rename_i opt opts hopts
            rw [hopts]
            exact (disable_keeps opt).bind fun _ => Keeps.pure _
          · exact Keeps.fail _

/-- At the end of an optional in which a statement has failed, its children are gone. -/
private theorem leaveOptional_goes {s s' : State κ σ} {n : Nat} {u : Unit}
    (h : leaveOptional fuel n s = some (.ok u s')) (top : Option Nat) :
    Goes top s s' ∧ (AllUnshared s'.log → Inv s → Failed s'.log n → Removed s'.log n) := by
  obtain ⟨id, s₁, hdatum, hrest⟩ := Call.bind_ok h
  obtain ⟨rfl, hopt⟩ := optionalDatum_ok hdatum
  obtain ⟨s₂, s₃, hget, hrest⟩ := Call.bind_ok hrest
  obtain ⟨rfl, rfl⟩ := Returned.ok.inj (Option.some.inj hget)
  split_ifs at hrest with hdead hdisabled
  · cases hrest
  · obtain ⟨below, s₃, hdestroy, hmodify⟩ := Call.bind_ok hrest
    obtain ⟨_, rfl⟩ := Returned.ok.inj (Option.some.inj hmodify)
    have hgoes : Goes top s₁ s₃ := (childrenDestroy_keeps fuel n).goes hdestroy
    obtain ⟨s₄, dangling, hshrunk, rfl⟩ := childrenDestroy_ok fuel hdestroy
    have hlog : s₄.log = s₁.log := hshrunk.log
    constructor
    · refine ⟨hgoes.log.trans (List.prefix_append _ _), fun hall hinv => ?_⟩
      have hinv' := (hgoes.kept (hall.of_prefix (List.prefix_append _ _)) hinv).inv
      have hfailed : Failed (s₄.log ++ [.freed dangling]) n := by
        rw [hlog]
        refine failed_append_freed.mpr ?_
        exact hinv.failed_of_disabled n id hopt (Bool.eq_false_iff.mpr hdead) hdisabled
      refine ⟨⟨hinv'.optional_lt, hinv'.bounded, ?_, ?_, ?_⟩, ?_, ?_⟩
      · intro x datum hx hlive hx'
        exact failed_append_destroyed.mpr (hinv'.failed_of_disabled x datum hx hlive hx')
      · intro x hx
        exact hinv'.disabled_of_failed x (failed_append_destroyed.mp hx)
      · intro x hx
        refine failed_append_destroyed.mpr ?_
        rcases destroyed_append_destroyed.mp hx with hx | rfl
        · exact hinv'.failed_of_destroyed x hx
        · exact hfailed
      · intro x datum hx
        exact (hshrunk.optional x).trans hx
      · intro x hx
        left
        rw [← hlog]
        exact failed_append_freed.mp (failed_append_destroyed.mp hx)
    · intro _ _ _
      exact Or.inl (destroyed_append_destroyed.mpr (Or.inr rfl))
  · obtain ⟨_, rfl⟩ := Returned.ok.inj (Option.some.inj hrest)
    refine ⟨Goes.refl _, fun _ hinv hfailed => ?_⟩
    obtain ⟨datum, hdatum', hdis⟩ := hinv.disabled_of_failed n hfailed
    rw [hopt] at hdatum'
    obtain rfl := Option.some.inj hdatum'
    exact absurd hdis hdisabled

private theorem lastChild_keeps {top : Option Nat} (n : Nat) :
    Keeps top (lastChild fuel n : M κ σ Unit) := by
  refine Keeps.get_bind fun s => ?_
  split
  · exact modify_keeps (fun _ => rfl) (fun _ => rfl) (fun _ => rfl) (fun _ => rfl)
      (fun _ => rfl) fun _ => rfl
  · split
    · exact Keeps.of_eq fun s u s' h => (leaveOptional_goes fuel h top).1
    · exact modify_keeps (fun _ => rfl) (fun _ => rfl) (fun _ => rfl) (fun _ => rfl)
        (fun _ => rfl) fun _ => rfl
    · exact Keeps.pure _
  · exact Keeps.pure _

private theorem lastChild_of_optional {s : State κ σ} {n id : Nat} {fuel : Nat}
    (h : s.optional n = some id) : lastChild fuel n s = leaveOptional fuel n s := by
  unfold State.optional at h
  split_ifs at h with hdecl
  cases hstmt : (s.nodes n).stmt with
  | decl d =>
    rw [hstmt] at hdecl
    have hflavor : d.flavor = .optional := by simpa [Stmt.isDecl] using hdecl
    unfold lastChild
    simp only [bind, Call.andThen, Call.get, hstmt, hflavor]
  | _ =>
    rw [hstmt] at hdecl
    cases hdecl

section Below

variable {ops fuel pass} {below : Stacks → Nat → M κ σ Unit}
  (hbelow : ∀ stack n, Keeps stack.opts.head? (below stack n))
include hbelow

/-- A walk below an optional: whether a statement of it failed is settled at its end. -/
private theorem enterOptional_goes {s s' : State κ σ} {n id : Nat} {opts : List Nat}
    {stack : Stacks} (hopt : s.optional n = some id) (hstack : stack.opts = n :: opts)
    (h : (below stack n >>= fun _ => lastChild fuel n) s = some (.ok () s'))
    (top : Option Nat) : Goes top s s' := by
  obtain ⟨_, s₁, hwalk, hlast⟩ := Call.bind_ok h
  have hgoes : Goes (some n) s s₁ := by
    have hkeeps := hbelow stack n
    rw [hstack] at hkeeps
    exact hkeeps.goes hwalk
  have hgoes' : Goes (some n) s₁ s' := (lastChild_keeps fuel n).goes hlast
  refine ⟨hgoes.log.trans hgoes'.log, fun hall hinv => ?_⟩
  have hkept := (hgoes.trans hgoes').kept hall hinv
  have hkept₁ := hgoes.kept (hall.of_prefix hgoes'.log) hinv
  refine ⟨hkept.inv, hkept.optional, fun x hx => ?_⟩
  rcases hkept.accounted x hx with hx' | hx' | hx'
  · exact Or.inl hx'
  · obtain rfl := Option.some.inj hx'
    have hopt₁ := hkept₁.optional n id hopt
    rw [lastChild_of_optional hopt₁] at hlast
    exact Or.inr (Or.inr ((leaveOptional_goes fuel hlast none).2 hall hkept₁.inv hx))
  · exact Or.inr (Or.inr hx')

private theorem enter_keeps (stack : Stacks) (n : Nat) :
    Keeps stack.opts.head? (enter fuel below stack n) := by
  refine Keeps.of_eq fun s u s' h => ?_
  obtain ⟨s₀, s₁, hget, h⟩ := Call.bind_ok h
  obtain ⟨rfl, rfl⟩ := Returned.ok.inj (Option.some.inj hget)
  split_ifs at h with hchildren
  · obtain ⟨_, rfl⟩ := Returned.ok.inj (Option.some.inj h)
    exact Goes.refl _
  · obtain ⟨stack', s₁, hfirst, h⟩ := Call.bind_ok h
    have hsame : stack'.opts = stack.opts → Goes stack.opts.head? s s₁ →
        Goes stack.opts.head? s s' := by
      intro hopts hgoes
      refine hgoes.trans (Keeps.goes ?_ h)
      rw [← hopts]
      exact (hbelow stack' n).bind fun _ => lastChild_keeps fuel n
    unfold firstChild at hfirst
    split at hfirst
    · split_ifs at hfirst
      · cases hfirst
      · obtain ⟨rfl, rfl⟩ := Returned.ok.inj (Option.some.inj hfirst)
        exact hsame rfl (Goes.refl _)
    · obtain ⟨rfl, rfl⟩ := Returned.ok.inj (Option.some.inj hfirst)
      exact hsame rfl (goes_otherFields rfl rfl rfl rfl rfl rfl)
    · rename_i d hstmt
      split at hfirst
      · rename_i hflavor
        obtain ⟨rfl, rfl⟩ := Returned.ok.inj (Option.some.inj hfirst)
        have hopt : s.optional n = some (s.nodes n).data := by
          simp [State.optional, hstmt, Stmt.isDecl, hflavor]
        exact enterOptional_goes hbelow hopt rfl h _
      · obtain ⟨rfl, rfl⟩ := Returned.ok.inj (Option.some.inj hfirst)
        exact hsame rfl (goes_otherFields rfl rfl rfl rfl rfl rfl)
      · obtain ⟨rfl, rfl⟩ := Returned.ok.inj (Option.some.inj hfirst)
        exact hsame rfl (Goes.refl _)
    · obtain ⟨rfl, rfl⟩ := Returned.ok.inj (Option.some.inj hfirst)
      exact hsame rfl (Goes.refl _)

end Below

/-- The walk of a pass, by induction on its fuel. -/
private theorem walkFrom_keeps (left : Nat) (stack : Stacks) (parent k : Nat) :
    Keeps stack.opts.head? (walkFrom ops fuel pass left stack parent k) := by
  induction left generalizing stack parent k with
  | zero => exact Keeps.outOfFuel
  | succ left ih =>
    rw [walkFrom]
    refine Keeps.get_bind fun s => ?_
    split
    · exact Keeps.crash
    · split
      · exact Keeps.pure _
      · rename_i n hn
        refine Keeps.bind ?_ fun _ => ih stack parent (k + 1)
        refine (nodeHelper_keeps ops fuel pass stack n).bind fun skipped => ?_
        split
        · exact Keeps.pure _
        · exact enter_keeps (fun stack' n' => ih stack' n' 0) stack n

end Walk

section Loop

variable (ops : Ops κ σ) (fuel : Nat)

private theorem endPass_keeps (pass : Pass) : Keeps none (endPass ops fuel pass) := by
  refine Keeps.get_bind fun s => ?_
  split
  · refine (resolveInList_keeps ops fuel _ _).bind fun _ => ?_
    exact modify_keeps (fun _ => rfl) (fun _ => rfl) (fun _ => rfl) (fun _ => rfl)
      (fun _ => rfl) fun _ => rfl
  · refine (rest_keeps _).bind fun _ => ?_
    split
    · exact Keeps.pure _
    · exact Keeps.fail _
  · exact Keeps.pure _

private theorem resetAst_keeps (pass : Pass) : Keeps none (resetAst ops pass) := by
  refine Keeps.get_bind fun s => (fill_keeps _).bind fun rc => ?_
  split
  · exact Keeps.pure _
  · exact Keeps.fail _

/-- All passes and resets, by induction on the fuel of the loop. -/
private theorem resolveLoop_keeps (left : Nat) (passes : List Pass) :
    Keeps none (resolveLoop ops fuel left passes) := by
  induction left generalizing passes with
  | zero => exact Keeps.outOfFuel
  | succ left ih =>
    have hchanged : Keeps none
        (Call.modify fun s => { s with changed := false } : M κ σ Unit) :=
      modify_keeps (fun _ => rfl) (fun _ => rfl) (fun _ => rfl) (fun _ => rfl) (fun _ => rfl)
        fun _ => rfl
    cases passes with
    | nil =>
      rw [resolveLoop]
      refine Keeps.get_bind fun s => ?_
      dsimp only
      split
      · exact Keeps.pure _
      · exact Keeps.fail _
    | cons pass rest =>
      rw [resolveLoop]
      refine (walkFrom_keeps ops fuel pass fuel .empty 0 0).bind fun _ => ?_
      refine (endPass_keeps ops fuel pass).bind fun _ => Keeps.get_bind fun s => ?_
      split
      · exact (resetAst_keeps ops pass).bind fun _ => hchanged.bind fun _ => ih afterCall1
      · exact hchanged.bind fun _ => ih rest

theorem buildNode_keeps (dest : Nat) (stmt : Stmt κ) :
    Keeps none (buildNode fuel dest stmt : M κ σ Nat) := by
  refine Keeps.of_eq fun s new s' h => ?_
  unfold buildNode at h
  split at h
  · cases h
  · split at h
    · cases h
    · split at h
      · cases h
      · rename_i d place _ sym hgen
        obtain ⟨_, rfl⟩ := Returned.ok.inj (Option.some.inj h)
        refine ⟨List.prefix_refl _, fun _ hinv => ?_⟩
        obtain ⟨hbounded, hnext⟩ := Copy.genNode_bounded hinv.bounded hgen
        have hdeclared : Inv (s.declare s.sym.next sym) := hinv.declare hbounded (by omega)
        refine ⟨hdeclared.addNode fun _ => ⟨?_, ?_⟩, ?_, fun x hx => Or.inl hx⟩
        · show s.sym.next < sym.next
          omega
        · simp [State.declare]
        · intro x datum hx
          have hne : x ≠ (s.declare s.sym.next sym).next :=
            Nat.ne_of_lt (hinv.optional_lt x datum hx).1
          rw [optional_addNode, if_neg hne]
          exact hx
  · obtain ⟨_, rfl⟩ := Returned.ok.inj (Option.some.inj h)
    exact (goes_withTables s).trans (goes_addNode _ dest _ rfl)
  · obtain ⟨_, rfl⟩ := Returned.ok.inj (Option.some.inj h)
    exact (goes_withTables s).trans (goes_addNode _ dest _ rfl)
  · rename_i hnotDecl _ _
    obtain ⟨_, rfl⟩ := Returned.ok.inj (Option.some.inj h)
    refine goes_addNode s dest 0 ?_
    cases stmt with
    | decl d => exact absurd rfl (hnotDecl d)
    | _ => rfl

mutual

private theorem buildSiblings_keeps (dest : Nat) (ts : List (Tree (Stmt κ))) :
    Keeps none (buildSiblings fuel dest ts : M κ σ Unit) := by
  match ts with
  | [] => exact Keeps.pure _
  | t :: ts =>
      rw [buildSiblings]
      exact (buildTree_keeps dest t).bind fun _ => buildSiblings_keeps dest ts

private theorem buildTree_keeps (dest : Nat) (t : Tree (Stmt κ)) :
    Keeps none (buildTree fuel dest t : M κ σ Unit) := by
  match t with
  | .node stmt children =>
      rw [buildTree]
      exact (buildNode_keeps fuel dest stmt).bind fun n => buildSiblings_keeps n children

end

private theorem resolveAst_keeps (policy : List (Tree (Stmt κ))) :
    Keeps none (resolveAst ops fuel policy) :=
  (buildSiblings_keeps fuel 0 policy).bind fun _ => resolveLoop_keeps ops fuel fuel allPasses

variable {ops fuel}

/-- In a run in which no optional that is disabled shares its datum, the optionals that go
are those in which a statement fails, with what is inside them. -/
theorem removedOnFailure_of_unshared {policy : List (Tree (Stmt κ))} {rest : σ}
    {log : List Event} (hrun : logOf (resolveAst ops fuel policy (.init rest)) = some log)
    (hunshared : AllUnshared log) : RemovedOnFailure log := by
  cases hcall : resolveAst ops fuel policy (.init rest) with
  | none =>
    rw [hcall] at hrun
    cases hrun
  | some r =>
    rw [hcall] at hrun
    cases r with
    | failed rc s => cases hrun
    | crash => cases hrun
    | ok u s =>
      obtain rfl := Option.some.inj hrun
      have hkept := ((resolveAst_keeps ops fuel policy).goes hcall).kept hunshared (inv_init rest)
      intro x
      constructor
      · intro hremoved
        rcases hremoved with hdestroyed | henclosed
        · exact Or.inl (hkept.inv.failed_of_destroyed x hdestroyed)
        · exact Or.inr henclosed
      · intro h
        rcases h with hfailed | henclosed
        · rcases hkept.accounted x hfailed with h | h | h
          · obtain ⟨sharers, hmem⟩ := h
            cases hmem
          · cases h
          · exact h
        · exact Or.inr henclosed

end Loop

section Witnesses

/-- Statements that resolve or do not, in a policy where macros are called from the root. -/
def rootOps : Ops Bool Unit where
  resolveName s _ name :=
    match s.sym.tables .root .blocks name with
    | some id => .found id
    | none => .enoent
  evaluateTunable _ _ := .found (true, [])
  callArgs s _ := ⟨.ok, s.refs, s.borrowed, [], ()⟩
  resolveNode pass s n :=
    match pass, (s.nodes n).stmt with
    | .misc3, .other true => ⟨.enoent, s.refs, s.borrowed, [], ()⟩
    | _, _ => ⟨.ok, s.refs, s.borrowed, [], ()⟩
  mergeOrders _ := (.ok, ())
  reset _ s := ⟨.ok, fun _ => [], s.borrowed, [], ()⟩
  verifyInitsids _ := .ok

/-- An optional with one statement, which resolves or does not. -/
def optionalOf (name : String) (fails : Bool) : Tree (Stmt Bool) :=
  .node (.decl ⟨.optional, name, []⟩) [.node (.other fails) []]

/-- `(optional o ...) (macro m () ((optional inner ...))) (call m)`, where the statement of the
macro's optional does not resolve. -/
def calledOptional (inner : String) : List (Tree (Stmt Bool)) :=
  [optionalOf "o" false, .node (.decl ⟨.macroDef, "m", []⟩) [optionalOf inner true],
    .node (.call "m") []]

/-- Where the macro's optional has the name of one around the call, both go. -/
theorem sharedOptional_not_removedOnFailure :
    ∃ log, logOf (resolveAst rootOps 40 (calledOptional "o") (.init ())) = some log ∧
      ¬ RemovedOnFailure log := by
  refine ⟨[.copied 7 true, .disabled 7 [1], .freed false, .destroyed 7 [8], .freed false,
    .destroyed 1 [2]],
    by decide +kernel, fun h => ?_⟩
  rcases (h 1).mp (Or.inl ⟨[2], by simp⟩) with hfailed | henclosed
  · obtain ⟨sharers, hmem⟩ := hfailed
    simp at hmem
  · obtain ⟨opt, below, hmem, hbelow⟩ := henclosed
    simp only [List.mem_cons, List.not_mem_nil, reduceCtorEq, Event.destroyed.injEq, or_false,
      false_or] at hmem
    rcases hmem with ⟨_, rfl⟩ | ⟨_, rfl⟩
    · simp at hbelow
    · simp at hbelow

theorem removedOnFailure_calledOptional :
    RemovedOnFailure [.copied 7 true, .disabled 7 [], .freed false, .destroyed 7 [8]] := by
  have hrun : logOf (resolveAst rootOps 40 (calledOptional "p") (.init ())) =
      some [.copied 7 true, .disabled 7 [], .freed false, .destroyed 7 [8]] := by decide +kernel
  exact removedOnFailure_of_unshared hrun (by decide)

end Witnesses

end Cil.Resolve.Optionals
