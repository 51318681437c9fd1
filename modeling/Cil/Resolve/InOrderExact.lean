/- Cil/Resolve/InOrderExact
   digest: The order of in statements is immaterial when none disturbs what another denotes. -/

import Cil.Resolve.InOrder

set_option autoImplicit false
set_option relaxedAutoImplicit false

namespace Cil.Resolve.InStatements

open Copy (Decl Param)
open Library.Commuting

variable {κ : Type}

/-- A policy before `cil_resolve_in_list`: every in statement is a node of its own. -/
structure Policy (κ : Type) where
  start : State κ
  ins : List (In κ)
  distinct : (ins.map In.node).Nodup
  none_placed : start.placed = 0

/-- An in statement whose name denotes something is resolved. -/
def insert (i : In κ) (s : State κ) : Option (State κ) :=
  match resolveName s i with
  | none => none
  | some t => (resolveIn i t s).toOption

/-- What two in statements both declare anew, they declare alike and as a kind of which a
copy takes the datum that is there. -/
def Mergeable (s : State κ) (ops ops' : List (Op κ)) : Prop :=
  ∀ key d e, s.entries key = none → declared key ops = some d → declared key ops' = some e →
    d.flavor = e.flavor ∧ d.params = e.params ∧ reuses e (.ofDecl e) = true

/-- In every state that is reached, an in statement that is resolved leaves alone what the
names of the others denote, and shares with them only declarations that can be merged. -/
def Undisturbed (pending : List (In κ)) (s : State κ) : Prop :=
  ∀ done i j rest t, (done ++ i :: j :: rest).Perm pending → runAll insert done s = some t →
    ∀ c t', resolveName t i = some c → insert j t = some t' →
      resolveName t' i = some c ∧
        ∀ c', resolveName t j = some c' → Mergeable t (opsOf i c) (opsOf j c')

/-- In every state that is reached, a name that denotes something goes on to do so. Names
without dots and names that begin with a dot always do. -/
def KeepsNames (pending : List (In κ)) (s : State κ) : Prop :=
  ∀ done i j rest t, (done ++ i :: j :: rest).Perm pending → runAll insert done s = some t →
    ∀ c t', resolveName t i = some c → insert j t = some t' → ∃ c', resolveName t' i = some c'

/-- Some order of the in statements can be gone through. -/
def Policy.Resolvable (p : Policy κ) : Prop :=
  ∃ ins, ins.Perm p.ins ∧ ∃ s, resolveInList ins p.start = .ok s

/-- The order of the in statements makes no difference. -/
structure Policy.OrderIndependent (p : Policy κ) : Prop where
  /-- Every order fails, or every order leads to the same tables and contents. -/
  same : ∀ ins, ins.Perm p.ins →
    (resolveInList ins p.start).toOption = (resolveInList p.ins p.start).toOption
  /-- Every body is copied once. -/
  once : ∀ s, resolveInList p.ins p.start = .ok s → s.placed.map Prod.fst = p.ins.map In.node
  /-- It is copied to what the name denotes once all the others are in place. -/
  denoted : ∀ s, resolveInList p.ins p.start = .ok s →
    ∀ i others t, (i :: others).Perm p.ins → resolveInList others p.start = .ok t →
      ∃ c, resolveName t i = some c ∧ (i.node, c) ∈ s.placed

section Insert

variable {s s' : State κ} {i j : In κ} {c : Target}

private theorem descend_there {ns : Space} {parts : List String} (h : descend s ns parts = some c)
    (hbody : c.dest.macroBody = true) : (s.entries c.dest.ns).isSome = true := by
  induction parts generalizing ns with
  | nil => cases h
  | cons part rest ih =>
    rw [descend.eq_def] at h
    dsimp only at h
    split at h
    · cases h
    · rename_i entry hentry
      obtain rfl := Option.some.inj h
      unfold target at hbody ⊢
      dsimp only at hbody ⊢
      split at hbody
      · cases hbody
      · rw [hentry]
        rfl
      · obtain ⟨entry', hentry', _⟩ := (Option.any_eq_true _ _).mp hbody
        rw [hentry']
        rfl
    · exact ih h

private theorem resolveName_there (h : resolveName s i = some c) (hbody : c.dest.macroBody = true) :
    (s.entries c.dest.ns).isSome = true := by
  unfold resolveName at h
  split_ifs at h
  · exact descend_there h hbody
  · split at h
    · cases h
    · split at h
      · cases h
      · exact descend_there h hbody

private theorem resolveIn_eq (i : In κ) (c : Target) (s : State κ) :
    resolveIn i c s =
      match runOps (opsOf i c) s with
      | .error stop => .error stop
      | .ok s' => .ok { s' with placed := s'.placed + {(i.node, c)} } := by
  have hcopy : copySiblings c.dest c.container [] i.body s = runOps (opsOf i c) s :=
    copySiblings_eq c.dest c.container [] i.body s
  unfold resolveIn
  cases hrun : runOps (opsOf i c) s with
  | error stop => simp only [hcopy, hrun]
  | ok s' => simp only [hcopy, hrun]

/-- What resolving an in statement leads to. -/
private theorem insert_some (h : insert i s = some s') :
    ∃ c s₁, resolveName s i = some c ∧ runOps (opsOf i c) s = .ok s₁ ∧
      s' = { s₁ with placed := s₁.placed + {(i.node, c)} } := by
  unfold insert at h
  split at h
  · cases h
  · rename_i c hc
    rw [resolveIn_eq] at h
    cases hrun : runOps (opsOf i c) s with
    | error stop =>
      rw [hrun] at h
      cases h
    | ok s₁ =>
      rw [hrun] at h
      exact ⟨c, s₁, hc, hrun, (Option.some.inj h).symm⟩

private theorem insert_of_run {s₁ : State κ} (hc : resolveName s i = some c)
    (hrun : runOps (opsOf i c) s = .ok s₁) :
    insert i s = some { s₁ with placed := s₁.placed + {(i.node, c)} } := by
  unfold insert
  rw [hc]
  simp only [resolveIn_eq, hrun]
  rfl

theorem Mergeable.symm {ops ops' : List (Op κ)} (h : Mergeable s ops ops') :
    Mergeable s ops' ops := by
  intro key d e hnone hd he
  obtain ⟨hflavor, hparams, hreuses⟩ := h key e d hnone he hd
  refine ⟨hflavor.symm, hparams.symm, ?_⟩
  have hentry : Entry.ofDecl e = .ofDecl d := by simp [Entry.ofDecl, hflavor, hparams]
  rw [hentry]
  unfold reuses at hreuses ⊢
  rw [hflavor, hparams]
  exact hreuses

/-- Where the declarations can be merged, the body of one statement is copied, or fails to
be, as it would be before the other. -/
private theorem runOps_after {ci cj : Target} {s₂ : State κ} (hi : resolveName s i = some ci)
    (hrun : runOps (opsOf j cj) s = .ok s₂)
    (hmerge : Mergeable s (opsOf i ci) (opsOf j cj)) :
    (∃ s', runOps (opsOf i ci) s = .ok s') ↔
      ∃ s', runOps (opsOf i ci) { s₂ with placed := s₂.placed + {(j.node, cj)} } = .ok s' := by
  refine runOps_agree ?_ (grounded_opsOfSiblings _ _ _ _ (resolveName_there hi))
  intro key
  have hentries := runOps_entries hrun key
  cases hs : s.entries key with
  | some entry =>
    rw [hs] at hentries
    exact Or.inl hentries
  | none =>
    rw [hs, Option.none_or] at hentries
    cases he : declared key (opsOf j cj) with
    | none =>
      rw [he] at hentries
      exact Or.inl hentries
    | some e =>
      rw [he] at hentries
      refine Or.inr ⟨rfl, fun d hd => ?_⟩
      obtain ⟨hflavor, hparams, _⟩ := hmerge key d e hs hd he
      have hentry : Entry.ofDecl e = .ofDecl d := by simp [Entry.ofDecl, hflavor, hparams]
      refine ⟨?_, (hmerge.symm key e d hs he hd).2.2⟩
      rw [← hentry]
      exact hentries

/-- Two statements that leave each other alone can be resolved in either order. -/
private theorem insert_comm {ci cj : Target} {s₁ s₂ : State κ} (hi : insert i s = some s₁)
    (hj : insert j s = some s₂) (hci : resolveName s i = some ci)
    (hcj : resolveName s j = some cj) (hi₂ : resolveName s₂ i = some ci)
    (hj₁ : resolveName s₁ j = some cj) (hmerge : Mergeable s (opsOf i ci) (opsOf j cj)) :
    ∃ u, insert j s₁ = some u ∧ insert i s₂ = some u := by
  obtain ⟨ci', a, hci', hai, rfl⟩ := insert_some hi
  obtain ⟨cj', b, hcj', hbj, rfl⟩ := insert_some hj
  rw [hci] at hci'
  rw [hcj] at hcj'
  obtain rfl := Option.some.inj hci'
  obtain rfl := Option.some.inj hcj'
  obtain ⟨ab, hab⟩ := (runOps_after hcj hai hmerge.symm).mp ⟨b, hbj⟩
  obtain ⟨ba, hba⟩ := (runOps_after hci hbj hmerge).mp ⟨a, hai⟩
  refine ⟨_, insert_of_run hj₁ hab, ?_⟩
  rw [insert_of_run hi₂ hba]
  have hentries : ba.entries = ab.entries := by
    funext key
    have h₁ := runOps_entries hab key
    have h₂ := runOps_entries hba key
    dsimp only at h₁ h₂
    rw [runOps_entries hai key] at h₁
    rw [runOps_entries hbj key] at h₂
    rw [h₁, h₂]
    cases hs : s.entries key with
    | some entry => rfl
    | none =>
      cases hd : declared key (opsOf i ci) with
      | none => simp
      | some d =>
        cases he : declared key (opsOf j cj) with
        | none => simp
        | some e =>
          obtain ⟨hflavor, hparams, _⟩ := hmerge key d e hs hd he
          simp [Entry.ofDecl, hflavor, hparams]
  have hcontents : ba.contents = ab.contents := by
    funext c
    have h₁ := runOps_contents hab c
    have h₂ := runOps_contents hba c
    dsimp only at h₁ h₂
    rw [runOps_contents hai c] at h₁
    rw [runOps_contents hbj c] at h₂
    rw [h₁, h₂, Multiset.add_assoc, Multiset.add_assoc, Multiset.add_comm (added c _)]
  have hplaced : ba.placed + {(i.node, ci)} = ab.placed + {(j.node, cj)} := by
    have h₁ := runOps_placed hab
    have h₂ := runOps_placed hba
    dsimp only at h₁ h₂
    rw [h₁, h₂, runOps_placed hai, runOps_placed hbj, Multiset.add_assoc, Multiset.add_assoc,
      Multiset.add_comm {(i.node, ci)}]
  rw [hentries, hcontents, hplaced]

end Insert

section Undisturbed

variable {pending : List (In κ)} {s s' : State κ} {i : In κ}

private theorem Undisturbed.of_insert (h : Undisturbed (i :: pending) s)
    (hi : insert i s = some s') :
    Undisturbed pending s' := by
  intro done j k rest t hperm hrun
  refine h (i :: done) j k rest t (hperm.cons i) ?_
  rw [runAll, hi]
  exact hrun

theorem Undisturbed.perm {pending' : List (In κ)} (h : Undisturbed pending s)
    (hperm : pending'.Perm pending) : Undisturbed pending' s :=
  fun done i j rest t hd => h done i j rest t (hd.trans hperm)

private theorem Undisturbed.commutes (h : Undisturbed pending s) : Commutes insert pending s := by
  intro done i j rest t hperm hrun t₁ t₂ hi hj
  obtain ⟨ci, a, hci, hai, _⟩ := insert_some hi
  obtain ⟨cj, b, hcj, hbj, _⟩ := insert_some hj
  obtain ⟨hi₂, hmerge⟩ := h done i j rest t hperm hrun ci t₂ hci hj
  have hperm' : (done ++ j :: i :: rest).Perm pending :=
    ((List.Perm.swap i j rest).append_left done).trans hperm
  obtain ⟨hj₁, _⟩ := h done j i rest t hperm' hrun cj t₁ hcj hi
  exact insert_comm hi hj hci hcj hi₂ hj₁ (hmerge cj hcj)

/-- A statement whose name is resolved and whose body cannot be copied. -/
def Refused (i : In κ) (s : State κ) : Prop :=
  ∃ c stop, resolveName s i = some c ∧ runOps (opsOf i c) s = .error stop

private theorem insert_of_refused (h : Refused i s) : insert i s = none := by
  obtain ⟨c, stop, hc, hrun⟩ := h
  unfold insert
  rw [hc]
  simp only [resolveIn_eq, hrun]
  rfl

/-- What cannot be copied now cannot be copied later. -/
theorem Refused.after {j : In κ} {rest : List (In κ)} (h : Refused i s)
    (hundisturbed : Undisturbed (i :: j :: rest) s) (hj : insert j s = some s') :
    Refused i s' := by
  obtain ⟨ci, stop, hci, hrun⟩ := h
  obtain ⟨cj, b, hcj, hbj, rfl⟩ := insert_some hj
  obtain ⟨hi', hmerge⟩ := hundisturbed [] i j rest s (List.Perm.refl _) rfl ci _ hci hj
  cases hafter : runOps (opsOf i ci) { b with placed := b.placed + {(j.node, cj)} } with
  | error stop' => exact ⟨ci, stop', hi', hafter⟩
  | ok a =>
    obtain ⟨s₁, hs₁⟩ := (runOps_after hci hbj (hmerge cj hcj)).mpr ⟨a, hafter⟩
    rw [hrun] at hs₁
    cases hs₁

/-- All statements cannot be resolved when one of them is refused. -/
private theorem not_refused {t : State κ} (h : Undisturbed pending s)
    (hrun : runAll insert pending s = some t) (hi : i ∈ pending) : ¬ Refused i s := by
  induction pending generalizing s with
  | nil => cases hi
  | cons a pending ih =>
    intro hrefused
    obtain ⟨s₁, ha, hrest⟩ := runAll_cons hrun
    rcases List.mem_cons.mp hi with rfl | hmem
    · rw [insert_of_refused hrefused] at ha
      cases ha
    · obtain ⟨pre, post, rfl⟩ := List.append_of_mem hmem
      have hperm : (i :: a :: (pre ++ post)).Perm (a :: (pre ++ i :: post)) :=
        (List.Perm.swap a i _).trans ((List.perm_middle.symm).cons a)
      exact ih (h.of_insert ha) hrest hmem (hrefused.after (h.perm hperm) ha)

end Undisturbed

section Rounds

variable {ins unresolved : List (In κ)} {s s' t : State κ}

/-- What a round has resolved and what it has left. -/
private theorem resolveInRound_ok (h : resolveInRound ins s = .ok (unresolved, s')) :
    ∃ done, (done ++ unresolved).Perm ins ∧ runAll insert done s = some s' := by
  induction ins generalizing s unresolved with
  | nil =>
    obtain ⟨rfl, rfl⟩ := Prod.mk.inj (Except.ok.inj h)
    exact ⟨[], List.Perm.refl _, rfl⟩
  | cons i ins ih =>
    rw [resolveInRound] at h
    split at h
    · split at h
      · cases h
      · rename_i left t hround
        obtain ⟨rfl, rfl⟩ := Prod.mk.inj (Except.ok.inj h)
        obtain ⟨done, hperm, hrun⟩ := ih hround
        exact ⟨done, List.perm_middle.trans (hperm.cons i), hrun⟩
    · rename_i c hc
      split at h
      · cases h
      · rename_i s₁ hs₁
        obtain ⟨done, hperm, hrun⟩ := ih h
        refine ⟨i :: done, hperm.cons i, ?_⟩
        have hinsert : insert i s = some s₁ := by
          unfold insert
          rw [hc]
          simp only [hs₁]
          rfl
        rw [runAll, hinsert]
        exact hrun

/-- `cil_resolve_in_list` resolves all statements one after another. -/
private theorem resolveInRounds_ok {left : Nat} (h : resolveInRounds left ins s = .ok t)
    (hleft : ins.length ≤ left) :
    ∃ order, order.Perm ins ∧ runAll insert order s = some t := by
  induction left generalizing ins s with
  | zero =>
    obtain rfl := List.length_eq_zero_iff.mp (Nat.le_zero.mp hleft)
    obtain rfl := Except.ok.inj h
    exact ⟨[], List.Perm.refl _, rfl⟩
  | succ left ih =>
    rw [resolveInRounds] at h
    split at h
    · cases h
    · rename_i s' hround
      obtain rfl := Except.ok.inj h
      obtain ⟨done, hperm, hrun⟩ := resolveInRound_ok hround
      rw [List.append_nil] at hperm
      exact ⟨done, hperm, hrun⟩
    · rename_i unresolved s' _ hround
      split_ifs at h with hlength
      obtain ⟨done, hperm, hrun⟩ := resolveInRound_ok hround
      have hsum := hperm.length_eq
      rw [List.length_append] at hsum
      obtain ⟨order, horder, hrest⟩ := ih h (by omega)
      refine ⟨done ++ order, (horder.append_left done).trans hperm, ?_⟩
      rw [runAll_append, hrun]
      exact hrest

/-- A round that resolves nothing leaves the state, and no name denotes anything. -/
private theorem resolveInRound_idle (h : resolveInRound ins s = .ok (unresolved, s'))
    (hlength : unresolved.length = ins.length) :
    s' = s ∧ ∀ i ∈ ins, resolveName s i = none := by
  induction ins generalizing unresolved with
  | nil =>
    obtain ⟨rfl, rfl⟩ := Prod.mk.inj (Except.ok.inj h)
    exact ⟨rfl, fun i hi => by cases hi⟩
  | cons i ins ih =>
    rw [resolveInRound] at h
    split at h
    · rename_i hnone
      split at h
      · cases h
      · rename_i left t hround
        obtain ⟨rfl, rfl⟩ := Prod.mk.inj (Except.ok.inj h)
        obtain ⟨rfl, hall⟩ := ih hround (Nat.succ.inj hlength)
        refine ⟨rfl, fun j hj => ?_⟩
        rcases List.mem_cons.mp hj with rfl | hj
        · exact hnone
        · exact hall j hj
    · split at h
      · cases h
      · obtain ⟨done, hperm, _⟩ := resolveInRound_ok h
        have hsum := hperm.length_eq
        rw [List.length_append] at hsum
        rw [List.length_cons] at hlength
        omega

/-- From a state from which all statements can be resolved, a round comes to such a state. -/
private theorem resolveInRound_complete {order before : List (In κ)}
    (hundisturbed : Undisturbed order s) (hrun : runAll insert order s = some t)
    (hperm : (before ++ ins).Perm order) :
    ∃ unresolved s' order', resolveInRound ins s = .ok (unresolved, s') ∧
      Undisturbed order' s' ∧ runAll insert order' s' = some t ∧
      (before ++ unresolved).Perm order' := by
  induction ins generalizing s before order with
  | nil => exact ⟨[], s, order, rfl, hundisturbed, hrun, hperm⟩
  | cons i ins ih =>
    cases hname : resolveName s i with
    | none =>
      have hperm' : (before ++ [i] ++ ins).Perm order := by
        rw [List.append_assoc]
        exact hperm
      obtain ⟨unresolved, s', order', hround, hund, hrun', hp⟩ := ih hundisturbed hrun hperm'
      refine ⟨i :: unresolved, s', order', ?_, hund, hrun', ?_⟩
      · rw [resolveInRound]
        simp only [hname, hround]
      · rw [List.append_assoc] at hp
        exact hp
    | some c =>
      have hi : i ∈ order := hperm.subset (by simp)
      cases hcopy : runOps (opsOf i c) s with
      | error stop => exact absurd ⟨c, stop, hname, hcopy⟩ (not_refused hundisturbed hrun hi)
      | ok a =>
        have hinsert := insert_of_run hname hcopy
        obtain ⟨order₁, hmove, hrun₁⟩ :=
          runAll_move hundisturbed.commutes hrun hi hinsert
        have hperm₁ : (before ++ ins).Perm order₁ :=
          (List.perm_middle.symm.trans (hperm.trans hmove.symm)).cons_inv
        obtain ⟨unresolved, s', order', hround, hund, hrun', hp⟩ :=
          ih ((hundisturbed.perm hmove).of_insert hinsert) hrun₁ hperm₁
        refine ⟨unresolved, s', order', ?_, hund, hrun', hp⟩
        rw [resolveInRound]
        simp only [hname, resolveIn_eq, hcopy]
        exact hround

/-- If the statements can be resolved one after another, they are, to the same state. -/
private theorem resolveInRounds_complete {left : Nat} {order : List (In κ)}
    (hundisturbed : Undisturbed order s) (hrun : runAll insert order s = some t)
    (hperm : ins.Perm order) (hleft : ins.length ≤ left) :
    resolveInRounds left ins s = .ok t := by
  induction left generalizing ins s order with
  | zero =>
    obtain rfl := List.length_eq_zero_iff.mp (Nat.le_zero.mp hleft)
    obtain rfl := hperm.nil_eq
    obtain rfl := Option.some.inj hrun
    rfl
  | succ left ih =>
    have hperm' : ([] ++ ins).Perm order := hperm
    obtain ⟨unresolved, s', order', hround, hund, hrun', hp⟩ :=
      resolveInRound_complete hundisturbed hrun hperm'
    rw [List.nil_append] at hp
    obtain ⟨done, hdone, _⟩ := resolveInRound_ok hround
    have hsum := hdone.length_eq
    rw [List.length_append] at hsum
    rw [resolveInRounds, hround]
    cases order' with
    | nil =>
      obtain rfl := hp.eq_nil
      obtain rfl := Option.some.inj hrun'
      rfl
    | cons a order' =>
      have hmem : a ∈ unresolved := hp.symm.subset List.mem_cons_self
      have hlength : unresolved.length ≠ ins.length := by
        intro hlength
        obtain ⟨rfl, hnone⟩ := resolveInRound_idle hround hlength
        obtain ⟨s₁, ha, _⟩ := runAll_cons hrun'
        obtain ⟨c, _, hc, _⟩ := insert_some ha
        rw [hnone a (hdone.subset (List.mem_append_right done hmem))] at hc
        cases hc
      cases unresolved with
      | nil => cases hmem
      | cons i rest =>
        simp only [if_neg hlength]
        exact ih hund hrun' hp (by omega)

private theorem resolveInList_ok (h : resolveInList ins s = .ok t) :
    ∃ order, order.Perm ins ∧ runAll insert order s = some t :=
  resolveInRounds_ok h (Nat.le_refl _)

private theorem resolveInList_complete {order : List (In κ)} (hundisturbed : Undisturbed order s)
    (hrun : runAll insert order s = some t) (hperm : ins.Perm order) :
    resolveInList ins s = .ok t :=
  resolveInRounds_complete hundisturbed hrun hperm (Nat.le_refl _)

/-- What has been copied, and where to. -/
private theorem runAll_placed {order : List (In κ)} (hrun : runAll insert order s = some t) :
    t.placed.map Prod.fst = s.placed.map Prod.fst + order.map In.node := by
  induction order generalizing s with
  | nil =>
    obtain rfl := Option.some.inj hrun
    simp
  | cons i order ih =>
    obtain ⟨s₁, hi, hrest⟩ := runAll_cons hrun
    obtain ⟨c, a, _, ha, rfl⟩ := insert_some hi
    rw [ih hrest]
    dsimp only
    rw [Multiset.map_add, runOps_placed ha, Multiset.add_assoc]
    congr 1

end Rounds

section Later

variable {order : List (In κ)} {s t : State κ}

private theorem runAll_entries (hrun : runAll insert order s = some t) {key : Space} {entry : Entry}
    (h : s.entries key = some entry) : t.entries key = some entry := by
  induction order generalizing s with
  | nil =>
    obtain rfl := Option.some.inj hrun
    exact h
  | cons i order ih =>
    obtain ⟨s₁, hi, hrest⟩ := runAll_cons hrun
    obtain ⟨c, a, _, ha, rfl⟩ := insert_some hi
    refine ih hrest ?_
    have hentries := runOps_entries ha key
    rw [h] at hentries
    exact hentries

private theorem runAll_keeps_placed (hrun : runAll insert order s = some t) {x : Nat × Target}
    (h : x ∈ s.placed) : x ∈ t.placed := by
  induction order generalizing s with
  | nil =>
    obtain rfl := Option.some.inj hrun
    exact h
  | cons i order ih =>
    obtain ⟨s₁, hi, hrest⟩ := runAll_cons hrun
    obtain ⟨c, a, _, ha, rfl⟩ := insert_some hi
    refine ih hrest ?_
    dsimp only
    rw [runOps_placed ha]
    exact Multiset.mem_add.mpr (Or.inl h)

/-- A round goes through statements that can be resolved one after another. -/
private theorem resolveInRound_append {tail : List (In κ)} (hrun : runAll insert order s = some t) :
    resolveInRound (order ++ tail) s = resolveInRound tail t := by
  induction order generalizing s with
  | nil =>
    obtain rfl := Option.some.inj hrun
    rfl
  | cons i order ih =>
    obtain ⟨s₁, hi, hrest⟩ := runAll_cons hrun
    obtain ⟨c, a, hc, ha, rfl⟩ := insert_some hi
    rw [List.cons_append, resolveInRound]
    simp only [hc, resolveIn_eq, ha]
    exact ih hrest

/-- When all is resolved, so is the statement after those that were resolved first. -/
private theorem resolveInList_next {i : In κ} {tail : List (In κ)} {u : State κ} {c : Target}
    (h : resolveInList (order ++ i :: tail) s = .ok u) (hrun : runAll insert order s = some t)
    (hc : resolveName t i = some c) :
    ∃ a t₁, runOps (opsOf i c) t = .ok a ∧ insert i t = some t₁ ∧
      t₁ = { a with placed := a.placed + {(i.node, c)} } ∧
      ∃ more, runAll insert more t₁ = some u := by
  obtain ⟨left, hleft⟩ : ∃ left, (order ++ i :: tail).length = left + 1 :=
    ⟨(order ++ tail).length, by simp; omega⟩
  unfold resolveInList at h
  rw [hleft, resolveInRounds, resolveInRound_append hrun, resolveInRound] at h
  simp only [hc, resolveIn_eq] at h
  cases ha : runOps (opsOf i c) t with
  | error stop =>
    rw [ha] at h
    cases h
  | ok a =>
    rw [ha] at h
    dsimp only at h
    refine ⟨a, _, rfl, insert_of_run hc ha, rfl, ?_⟩
    cases hround : resolveInRound tail { a with placed := a.placed + {(i.node, c)} } with
    | error stop =>
      rw [hround] at h
      cases h
    | ok r =>
      obtain ⟨unresolved, s'⟩ := r
      rw [hround] at h
      obtain ⟨done, hperm, hdone⟩ := resolveInRound_ok hround
      cases unresolved with
      | nil =>
        obtain rfl := Except.ok.inj h
        exact ⟨done, hdone⟩
      | cons j unresolved =>
        dsimp only at h
        split_ifs at h with hlength
        have hsum := hperm.length_eq
        have htotal : (order ++ i :: tail).length = left + 1 := hleft
        simp only [List.length_append, List.length_cons] at hsum htotal
        obtain ⟨more, _, hmore⟩ := resolveInRounds_ok h (by simp only [List.length_cons]; omega)
        refine ⟨done ++ more, ?_⟩
        rw [runAll_append, hdone]
        exact hmore

end Later

namespace Policy

variable {p : Policy κ}

/-- Where no in statement disturbs another, their order makes no difference. -/
private theorem orderIndependent_of_undisturbed (h : Undisturbed p.ins p.start) :
    p.OrderIndependent := by
  have hmove : ∀ ins ins' s, ins.Perm p.ins → ins'.Perm p.ins →
      resolveInList ins p.start = .ok s → resolveInList ins' p.start = .ok s := by
    intro ins ins' s hins hins' hs
    obtain ⟨order, horder, hrun⟩ := resolveInList_ok hs
    exact resolveInList_complete (h.perm (horder.trans hins)) hrun
      (hins'.trans (horder.trans hins).symm)
  constructor
  · intro ins hins
    cases hs : resolveInList ins p.start with
    | ok s => rw [hmove ins p.ins s hins (List.Perm.refl _) hs]
    | error stop =>
      cases hs' : resolveInList p.ins p.start with
      | error stop' => rfl
      | ok s =>
        rw [hmove p.ins ins s (List.Perm.refl _) hins hs'] at hs
        cases hs
  · intro s hs
    obtain ⟨order, horder, hrun⟩ := resolveInList_ok hs
    rw [runAll_placed hrun, p.none_placed, Multiset.map_zero, Multiset.zero_add]
    exact Multiset.coe_eq_coe.mpr (horder.map In.node)
  · intro s hs i others t hperm ht
    obtain ⟨order, horder, hrun⟩ := resolveInList_ok hs
    obtain ⟨done, hdone, hrun'⟩ := resolveInList_ok ht
    have hlast : (done ++ [i]).Perm order :=
      (List.perm_append_singleton i done).trans
        ((hdone.cons i).trans (hperm.trans horder.symm))
    obtain ⟨last, hone, hrest⟩ :=
      runAll_extend (h.perm horder).commutes hrun hlast hrun'
    obtain rfl := List.perm_singleton.mp hone
    obtain ⟨u, hi, hu⟩ := runAll_cons hrest
    obtain rfl := Option.some.inj hu
    obtain ⟨c, a, hc, _, rfl⟩ := insert_some hi
    exact ⟨c, hc, by simp⟩

/-- Where the order makes no difference, no in statement disturbs another. -/
private theorem OrderIndependent.undisturbed (h : p.OrderIndependent)
    (hkeeps : KeepsNames p.ins p.start) (hresolvable : p.Resolvable) :
    Undisturbed p.ins p.start := by
  obtain ⟨ins₀, hins₀, s₀, hs₀⟩ := hresolvable
  have hall : ∀ ins, ins.Perm p.ins → resolveInList ins p.start = .ok s₀ := by
    intro ins hins
    have hsame := (h.same ins hins).trans (h.same ins₀ hins₀).symm
    rw [hs₀] at hsame
    cases hlist : resolveInList ins p.start with
    | error stop =>
      rw [hlist] at hsame
      cases hsame
    | ok s =>
      rw [hlist] at hsame
      rw [Option.some.inj hsame]
  have hunique : ∀ n c c', (n, c) ∈ s₀.placed → (n, c') ∈ s₀.placed → c = c' := by
    intro n c c' hc hc'
    have hnodup : (s₀.placed.map Prod.fst).Nodup := by
      rw [h.once s₀ (hall p.ins (List.Perm.refl _))]
      exact Multiset.coe_nodup.mpr p.distinct
    exact congrArg Prod.snd (Multiset.inj_on_of_nodup_map hnodup _ hc _ hc' rfl)
  intro done i j rest t hperm hrun c t' hc hj
  have hperm' : (done ++ j :: i :: rest).Perm p.ins :=
    ((List.Perm.swap i j rest).append_left done).trans hperm
  obtain ⟨a, t₁, ha, hi, rfl, more, hmore⟩ := resolveInList_next (hall _ hperm) hrun hc
  have hplaced : (i.node, c) ∈ s₀.placed := runAll_keeps_placed hmore (by simp)
  -- the other order: first `j`, then `i`
  obtain ⟨cj, b, hcj, hb, rfl⟩ := insert_some hj
  obtain ⟨b', t₂, hb', _, rfl, more', hmore'⟩ := resolveInList_next (hall _ hperm') hrun hcj
  rw [hb] at hb'
  obtain rfl := Except.ok.inj hb'
  have hplacedj : (j.node, cj) ∈ s₀.placed := runAll_keeps_placed hmore' (by simp)
  have hrunj : runAll insert (done ++ [j]) p.start =
      some { b with placed := b.placed + {(j.node, cj)} } := by
    rw [runAll_append, hrun]
    show (insert j t).bind (runAll insert []) = _
    rw [hj]
    rfl
  have hruni : runAll insert (done ++ [i]) p.start =
      some { a with placed := a.placed + {(i.node, c)} } := by
    rw [runAll_append, hrun]
    show (insert i t).bind (runAll insert []) = _
    rw [hi]
    rfl
  obtain ⟨c₂, hc₂⟩ := hkeeps done i j rest t hperm hrun c _ hc hj
  have hnext := hall (done ++ [j] ++ i :: rest) (by rw [List.append_assoc]; exact hperm')
  obtain ⟨_, _, _, _, rfl, more₂, hmore₂⟩ := resolveInList_next hnext hrunj hc₂
  have heq : c = c₂ := hunique i.node c c₂ hplaced (runAll_keeps_placed hmore₂ (by simp))
  refine ⟨heq ▸ hc₂, fun c' hc' key d e hnone hd he => ?_⟩
  rw [hcj] at hc'
  obtain rfl := Option.some.inj hc'
  have hentryi : a.entries key = some (.ofDecl d) := by
    rw [runOps_entries ha key, hnone, hd]
    rfl
  have hentryj : b.entries key = some (.ofDecl e) := by
    rw [runOps_entries hb key, hnone, he]
    rfl
  have hfinali : s₀.entries key = some (.ofDecl d) := runAll_entries hmore hentryi
  have hfinalj : s₀.entries key = some (.ofDecl e) := runAll_entries hmore' hentryj
  rw [hfinali] at hfinalj
  have hentry : Entry.ofDecl d = .ofDecl e := Option.some.inj hfinalj
  obtain ⟨c₃, hc₃⟩ := hkeeps done j i rest t hperm' hrun cj _ hcj hi
  have hnext' := hall (done ++ [i] ++ j :: rest) (by rw [List.append_assoc]; exact hperm)
  obtain ⟨_, _, ha₃, _, rfl, more₃, hmore₃⟩ := resolveInList_next hnext' hruni hc₃
  obtain rfl := hunique j.node cj c₃ hplacedj (runAll_keeps_placed hmore₃ (by simp))
  have hreuses := runOps_reuses ha₃ hentryi he
  rw [hentry] at hreuses
  exact ⟨congrArg Entry.flavor hentry, congrArg Entry.params hentry, hreuses⟩

/-- The order makes no difference if no in statement disturbs another; unless a name with
dots can come to denote nothing, only then, or when every order fails. -/
theorem orderIndependent_iff (p : Policy κ) :
    (Undisturbed p.ins p.start → p.OrderIndependent) ∧
      (KeepsNames p.ins p.start →
        (p.OrderIndependent ↔ Undisturbed p.ins p.start ∨ ¬ p.Resolvable)) := by
  refine ⟨orderIndependent_of_undisturbed, fun hkeeps => ⟨fun h => ?_, fun h => ?_⟩⟩
  · by_cases hresolvable : p.Resolvable
    · exact Or.inl (h.undisturbed hkeeps hresolvable)
    · exact Or.inr hresolvable
  · rcases h with h | hfails
    · exact orderIndependent_of_undisturbed h
    · have hnone : ∀ ins, ins.Perm p.ins → ∀ s, resolveInList ins p.start ≠ .ok s :=
        fun ins hins s hs => hfails ⟨ins, hins, s, hs⟩
      have hself := hnone p.ins (List.Perm.refl _)
      refine ⟨fun ins hins => ?_, fun s hs => absurd hs (hself s), fun s hs => absurd hs (hself s)⟩
      cases hs : resolveInList ins p.start with
      | ok s => exact absurd hs (hnone ins hins s)
      | error stop =>
        cases hs' : resolveInList p.ins p.start with
        | ok s => exact absurd hs' (hself s)
        | error stop' => rfl

/-- `(block a) (block b (in a (...))) (in b (block a))`. -/
def nestedPolicy : Policy Unit where
  start := {
    entries := fun c =>
      if c = .named .root .blocks "a" ∨ c = .named .root .blocks "b" then some ⟨.block, []⟩
      else none
    contents := fun _ => 0
    placed := 0 }
  ins := [⟨0, .named .root .blocks "b", false, ["a"], [.node (.other ()) []]⟩,
    ⟨1, .root, false, ["b"], [.node (.decl ⟨.block, "a", []⟩) []]⟩]
  distinct := by decide
  none_placed := rfl

/-- The body goes to the outer block `a` or to the one that is inserted, by the order. -/
theorem nestedPolicy_not_orderIndependent : ¬ nestedPolicy.OrderIndependent := by
  intro h
  have hsame := h.same nestedPolicy.ins.reverse (List.reverse_perm _)
  have hcard := congrArg
    (Option.map fun s => (s.contents (.named .root .blocks "a")).card) hsame
  revert hcard
  decide

end Policy

section Names

variable {s s' : State κ} {i : In κ}

theorem descend_mono (hmono : ∀ key entry, s.entries key = some entry →
    s'.entries key = some entry) {ns : Space} {parts : List String} {c : Target}
    (h : descend s ns parts = some c) : ∃ c', descend s' ns parts = some c' := by
  induction parts generalizing ns with
  | nil => cases h
  | cons part rest ih =>
    rw [descend.eq_def] at h ⊢
    dsimp only at h ⊢
    split at h
    · cases h
    · rename_i entry hentry
      rw [hmono _ _ hentry]
      exact ⟨_, rfl⟩
    · rename_i entry hentry hrest
      rw [hmono _ _ hentry]
      obtain ⟨c', hc'⟩ := ih h
      refine ⟨c', ?_⟩
      split
      · rename_i hnone
        cases hnone
      · exact absurd rfl hrest
      · rename_i hsome _
        obtain rfl := Option.some.inj hsome
        exact hc'

private theorem findSpace_mono (hmono : ∀ key entry, s.entries key = some entry →
    s'.entries key = some entry) {part : String} {scope ns : Space}
    (h : findSpace s part scope = some ns) :
    ∃ ns' entry, findSpace s' part scope = some ns' ∧
      s'.entries (.named ns' .blocks part) = some entry := by
  induction scope with
  | root =>
    rw [findSpace] at h ⊢
    split_ifs at h with hsome
    obtain ⟨entry, hentry⟩ := Option.isSome_iff_exists.mp hsome
    have hentry' := hmono _ _ hentry
    exact ⟨.root, entry, if_pos (by rw [hentry']; rfl), hentry'⟩
  | named parent i name ih =>
    rw [findSpace] at h ⊢
    by_cases hsome' : (s'.entries (.named (.named parent i name) .blocks part)).isSome = true
    · obtain ⟨entry, hentry⟩ := Option.isSome_iff_exists.mp hsome'
      exact ⟨_, entry, if_pos hsome', hentry⟩
    · rw [if_neg hsome']
      split_ifs at h with hsome
      · obtain ⟨entry, hentry⟩ := Option.isSome_iff_exists.mp hsome
        rw [hmono _ _ hentry] at hsome'
        exact absurd rfl hsome'
      · exact ih h

/-- Names without dots, and names that begin with a dot, go on to denote something. -/
theorem keepsNames_of_plain {pending : List (In κ)} {start : State κ}
    (hplain : ∀ i ∈ pending, i.absolute = true ∨ i.parts.length = 1) :
    KeepsNames pending start := by
  intro done i j rest t hperm hrun c t' hc hj
  have hmono : ∀ key entry, t.entries key = some entry → t'.entries key = some entry := by
    intro key entry hentry
    have hone : runAll insert [j] t = some t' := by
      rw [runAll, hj]
      rfl
    exact runAll_entries hone hentry
  have hi : i ∈ pending := hperm.subset (by simp)
  unfold resolveName at hc ⊢
  by_cases habsolute : i.absolute = true
  · rw [if_pos habsolute] at hc ⊢
    exact descend_mono hmono hc
  · rw [if_neg habsolute] at hc ⊢
    obtain ⟨part, hparts⟩ := List.length_eq_one_iff.mp ((hplain i hi).resolve_left habsolute)
    rw [hparts] at hc ⊢
    dsimp only at hc ⊢
    split at hc
    · cases hc
    · rename_i ns hns
      obtain ⟨ns', entry, hns', hentry⟩ := findSpace_mono hmono hns
      rw [hns']
      refine ⟨target t' ns' part entry, ?_⟩
      show descend t' ns' [part] = _
      rw [descend.eq_def]
      simp only [hentry]

end Names

end Cil.Resolve.InStatements
