/- Cil/Resolve/InOrder
   digest: When the order of the in statements makes no difference. -/

import Mathlib.Data.Multiset.MapFold
import Cil.Library.Commuting
import Cil.Resolve.InStatements

set_option autoImplicit false
set_option relaxedAutoImplicit false

namespace Cil.Resolve.InStatements

open Copy (Decl Param)
open Library.Commuting

variable {κ : Type}

section Steps

/-- The steps of a copy. What they are depends on where it goes, not on the state. -/
inductive Op (κ : Type)
  | declare (key : Space) (d : Decl) (shadowed : Option Space)
  | add (c : Space) (item : List (Stmt κ) × Stmt κ)
  | stop (stop : Stop)

def runOp (s : State κ) : Op κ → Except Stop (State κ)
  | .declare key d shadowed => s.declare key d shadowed
  | .add c item => .ok (s.add c item)
  | .stop stop => .error stop

def runOps : List (Op κ) → State κ → Except Stop (State κ)
  | [], s => .ok s
  | op :: ops, s =>
      match runOp s op with
      | .error stop => .error stop
      | .ok s' => runOps ops s'

mutual

def opsOfSiblings (dest : Dest) (c : Space) (inside : List (Stmt κ)) :
    List (Tree (Stmt κ)) → List (Op κ)
  | [] => []
  | t :: ts => opsOfNode dest c inside t ++ opsOfSiblings dest c inside ts

def opsOfNode (dest : Dest) (c : Space) (inside : List (Stmt κ)) : Tree (Stmt κ) → List (Op κ)
  | .node (.decl d) children =>
      match dest.key d with
      | none => [.stop .err]
      | some key =>
          .declare key d (dest.shadowed d.flavor key) :: .add c (inside, .decl d) ::
            opsOfSiblings (dest.below d.flavor key) key [] children
  | .node (.blockinherit _) _ => [.stop .nullDereference]
  | .node (.uncopied _) _ => [.stop .err]
  | .node (.other stmt) children =>
      .add c (inside, .other stmt) ::
        opsOfSiblings { dest with perms := none } c (inside ++ [.other stmt]) children

end

/-- The steps by which the body of an in statement is copied. -/
def opsOf (i : In κ) (t : Target) : List (Op κ) := opsOfSiblings t.dest t.container [] i.body

/-- The first declaration of a datum. -/
def declared (key : Space) : List (Op κ) → Option Decl
  | [] => none
  | .declare key' d _ :: ops => if key' = key then some d else declared key ops
  | _ :: ops => declared key ops

/-- What becomes a child of a container. -/
def added (c : Space) : List (Op κ) → Multiset (List (Stmt κ) × Stmt κ)
  | [] => 0
  | .add c' item :: ops => (if c' = c then {item} else 0) + added c ops
  | _ :: ops => added c ops

private theorem runOps_append (ops ops' : List (Op κ)) (s : State κ) :
    runOps (ops ++ ops') s =
      match runOps ops s with
      | .error stop => .error stop
      | .ok s' => runOps ops' s' := by
  induction ops generalizing s with
  | nil => rfl
  | cons op ops ih =>
    rw [List.cons_append, runOps, runOps]
    cases runOp s op with
    | error stop => rfl
    | ok s' => exact ih s'

mutual

theorem copySiblings_eq (dest : Dest) (c : Space) (inside : List (Stmt κ))
    (ts : List (Tree (Stmt κ))) (s : State κ) :
    copySiblings dest c inside ts s = runOps (opsOfSiblings dest c inside ts) s := by
  match ts with
  | [] => rfl
  | t :: ts =>
      rw [copySiblings, opsOfSiblings, runOps_append, copyNode_eq dest c inside t s]
      cases runOps (opsOfNode dest c inside t) s with
      | error stop => rfl
      | ok s' => exact copySiblings_eq dest c inside ts s'

private theorem copyNode_eq (dest : Dest) (c : Space) (inside : List (Stmt κ)) (t : Tree (Stmt κ))
    (s : State κ) : copyNode dest c inside t s = runOps (opsOfNode dest c inside t) s := by
  match t with
  | .node (.decl d) children =>
      rw [copyNode, opsOfNode]
      cases dest.key d with
      | none => rfl
      | some key =>
          simp only [runOps, runOp]
          cases s.declare key d (dest.shadowed d.flavor key) with
          | error stop => rfl
          | ok s' => exact copySiblings_eq _ key [] children _
  | .node (.blockinherit _) _ => rfl
  | .node (.uncopied _) _ => rfl
  | .node (.other stmt) children =>
      rw [copyNode, opsOfNode]
      exact copySiblings_eq _ c _ children _

end

end Steps

section Results

variable {s s' : State κ} {ops : List (Op κ)} {key : Space} {d : Decl} {shadowed : Option Space}

def Entry.ofDecl (d : Decl) : Entry := ⟨d.flavor, d.params⟩

private theorem runOps_cons {op : Op κ} (h : runOps (op :: ops) s = .ok s') :
    ∃ s₁, runOp s op = .ok s₁ ∧ runOps ops s₁ = .ok s' := by
  rw [runOps] at h
  split at h
  · cases h
  · rename_i s₁ hop
    exact ⟨s₁, hop, h⟩

private theorem copied_of_none {entry : Entry} (h : copied d none = .ok entry) :
    entry = .ofDecl d := by
  unfold copied at h
  split at h
  · rename_i hnone
    split at h
    · cases h
    · cases h
    · exact (Except.ok.inj h).symm
  · rename_i hsome
    cases hsome

private theorem copied_of_some {entry entry' : Entry} (h : copied d (some entry) = .ok entry') :
    entry' = entry ∧ reuses d entry = true := by
  unfold copied at h
  split at h
  · rename_i hnone
    cases hnone
  · rename_i hsome
    obtain rfl := Option.some.inj hsome
    split_ifs at h with hreuses
    exact ⟨(Except.ok.inj h).symm, hreuses⟩

/-- A declaration makes an entry if there is none; it changes nothing else. -/
private theorem declare_ok (h : s.declare key d shadowed = .ok s') :
    ∃ entry, copied d (s.entries key) = .ok entry ∧
      s' = { s with entries := Function.update s.entries key (some entry) } := by
  unfold State.declare at h
  split at h
  · cases h
  · rename_i entry hentry
    dsimp only at h
    split_ifs at h
    exact ⟨entry, hentry, (Except.ok.inj h).symm⟩

/-- A copy adds the entries that were missing. -/
theorem runOps_entries (h : runOps ops s = .ok s') (key : Space) :
    s'.entries key = (s.entries key).or ((declared key ops).map .ofDecl) := by
  induction ops generalizing s with
  | nil =>
    obtain rfl := Except.ok.inj h
    simp [declared]
  | cons op ops ih =>
    obtain ⟨s₁, hop, hrest⟩ := runOps_cons h
    rw [ih hrest]
    cases op with
    | declare key' d shadowed =>
      obtain ⟨entry, hentry, rfl⟩ := declare_ok hop
      rw [declared]
      by_cases heq : key' = key
      · subst heq
        rw [if_pos rfl]
        dsimp only
        rw [Function.update_self]
        cases hs : s.entries key' with
        | none =>
          rw [hs] at hentry
          rw [copied_of_none hentry]
          rfl
        | some existing =>
          rw [hs] at hentry
          rw [(copied_of_some hentry).1]
          rfl
      · dsimp only
        rw [if_neg heq, Function.update_of_ne (Ne.symm heq)]
    | add c item =>
      obtain rfl := Except.ok.inj hop
      rfl
    | stop stop => cases hop

theorem runOps_contents (h : runOps ops s = .ok s') (c : Space) :
    s'.contents c = s.contents c + added c ops := by
  induction ops generalizing s with
  | nil =>
    obtain rfl := Except.ok.inj h
    simp [added]
  | cons op ops ih =>
    obtain ⟨s₁, hop, hrest⟩ := runOps_cons h
    rw [ih hrest]
    cases op with
    | declare key d shadowed =>
      obtain ⟨entry, hentry, rfl⟩ := declare_ok hop
      rfl
    | add c' item =>
      obtain rfl := Except.ok.inj hop
      rw [added, ← Multiset.add_assoc]
      congr 1
      by_cases heq : c' = c
      · subst heq
        simp [State.add]
      · simp [State.add, heq, Function.update_of_ne (Ne.symm heq)]
    | stop stop => cases hop

theorem runOps_placed (h : runOps ops s = .ok s') : s'.placed = s.placed := by
  induction ops generalizing s with
  | nil =>
    obtain rfl := Except.ok.inj h
    rfl
  | cons op ops ih =>
    obtain ⟨s₁, hop, hrest⟩ := runOps_cons h
    rw [ih hrest]
    cases op with
    | declare key d shadowed =>
      obtain ⟨entry, hentry, rfl⟩ := declare_ok hop
      rfl
    | add c item =>
      obtain rfl := Except.ok.inj hop
      rfl
    | stop stop => cases hop

/-- Where there is an entry already, the first declaration of it in a copy reuses it. -/
theorem runOps_reuses {entry : Entry} (h : runOps ops s = .ok s')
    (hentry : s.entries key = some entry) (hd : declared key ops = some d) :
    reuses d entry = true := by
  induction ops generalizing s with
  | nil => cases hd
  | cons op ops ih =>
    obtain ⟨s₁, hop, hrest⟩ := runOps_cons h
    cases op with
    | declare key' d' shadowed =>
      obtain ⟨entry', hcopied, rfl⟩ := declare_ok hop
      rw [declared] at hd
      split_ifs at hd with heq
      · subst heq
        obtain rfl := Option.some.inj hd
        rw [hentry] at hcopied
        exact (copied_of_some hcopied).2
      · refine ih hrest ?_ hd
        dsimp only
        rw [Function.update_of_ne (Ne.symm heq)]
        exact hentry
    | add c item =>
      obtain rfl := Except.ok.inj hop
      exact ih hrest hentry hd
    | stop stop => cases hop

end Results

section Agreement

/-- Declarations are compared with the parameters of macros only whose datum is there, or is
declared before. -/
def Grounded (there : Space → Prop) : List (Op κ) → Prop
  | [] => True
  | .declare key _ shadowed :: ops =>
      (∀ c, shadowed = some c → there c ∨ c = key) ∧ Grounded (fun c => there c ∨ c = key) ops
  | _ :: ops => Grounded there ops

theorem Grounded.mono {ops : List (Op κ)} {there there' : Space → Prop} (h : Grounded there ops)
    (himp : ∀ c, there c → there' c) : Grounded there' ops := by
  induction ops generalizing there there' with
  | nil => trivial
  | cons op ops ih =>
    cases op with
    | declare key d shadowed =>
      refine ⟨fun c hc => (h.1 c hc).imp_left (himp c), ih h.2 fun c hc => ?_⟩
      exact hc.imp_left (himp c)
    | add c item => exact ih h himp
    | stop stop => exact ih h himp

theorem Grounded.append {ops ops' : List (Op κ)} {there : Space → Prop} (h : Grounded there ops)
    (h' : Grounded there ops') : Grounded there (ops ++ ops') := by
  induction ops generalizing there with
  | nil => exact h'
  | cons op ops ih =>
    cases op with
    | declare key d shadowed => exact ⟨h.1, ih h.2 (h'.mono fun c hc => Or.inl hc)⟩
    | add c item => exact ih h h'
    | stop stop => exact ih h h'

mutual

theorem grounded_opsOfSiblings {there : Space → Prop} (dest : Dest) (c : Space)
    (inside : List (Stmt κ)) (ts : List (Tree (Stmt κ)))
    (hdest : dest.macroBody = true → there dest.ns) :
    Grounded there (opsOfSiblings dest c inside ts) := by
  match ts with
  | [] => trivial
  | t :: ts =>
      rw [opsOfSiblings]
      exact (grounded_opsOfNode dest c inside t hdest).append
        (grounded_opsOfSiblings dest c inside ts hdest)

private theorem grounded_opsOfNode {there : Space → Prop} (dest : Dest) (c : Space)
    (inside : List (Stmt κ)) (t : Tree (Stmt κ)) (hdest : dest.macroBody = true → there dest.ns) :
    Grounded there (opsOfNode dest c inside t) := by
  match t with
  | .node (.decl d) children =>
      rw [opsOfNode]
      split
      · trivial
      · rename_i key hkey
        refine ⟨?_, grounded_opsOfSiblings _ key [] children ?_⟩
        · intro c' hc'
          unfold Dest.shadowed at hc'
          split at hc'
          · cases hc'
          · exact Or.inr (Option.some.inj hc').symm
          · split_ifs at hc' with hbody
            obtain rfl := Option.some.inj hc'
            exact Or.inl (hdest hbody)
        · unfold Dest.below
          split
          · intro hfalse
            cases hfalse
          · exact fun _ => Or.inr rfl
          · exact fun hbody => Or.inl (hdest hbody)
          · exact fun hbody => Or.inl (hdest hbody)
          · exact fun hbody => Or.inl (hdest hbody)
          · exact fun hbody => Or.inl (hdest hbody)
  | .node (.blockinherit _) _ => trivial
  | .node (.uncopied _) _ => trivial
  | .node (.other stmt) children =>
      rw [opsOfNode]
      exact grounded_opsOfSiblings { dest with perms := none } c _ children hdest

end

/-- For the steps to come, two states have the same entries, or one has an entry that the
first declaration among the steps would make just so. -/
def Agrees (ops : List (Op κ)) (s s₂ : State κ) : Prop :=
  ∀ key, s₂.entries key = s.entries key ∨
    s.entries key = none ∧ ∀ d, declared key ops = some d →
      s₂.entries key = some (.ofDecl d) ∧ reuses d (.ofDecl d) = true

private theorem copied_of_reuses {d : Decl} (h : reuses d (.ofDecl d) = true) :
    copied d none = .ok (.ofDecl d) ∧ copied d (some (.ofDecl d)) = .ok (.ofDecl d) := by
  refine ⟨?_, if_pos h⟩
  unfold reuses at h
  unfold copied
  cases hf : d.flavor <;> simp only [hf, Bool.false_eq_true] at h <;>
    simp [hf, Entry.ofDecl]

private theorem shadows_congr {s s₂ : State κ} {c : Space} {d : Decl}
    (h : s₂.entries c = s.entries c) : s₂.shadows d (some c) = s.shadows d (some c) := by
  have hparams : s₂.paramsOf c = s.paramsOf c := by
    unfold State.paramsOf
    rw [h]
  simp only [State.shadows, hparams]

/-- The steps of a copy end alike in states that agree. -/
theorem runOps_agree {ops : List (Op κ)} {s s₂ : State κ} (hagrees : Agrees ops s s₂)
    (hgrounded : Grounded (fun c => (s.entries c).isSome = true) ops) :
    (∃ s', runOps ops s = .ok s') ↔ ∃ s', runOps ops s₂ = .ok s' := by
  induction ops generalizing s s₂ with
  | nil => exact ⟨fun _ => ⟨s₂, rfl⟩, fun _ => ⟨s, rfl⟩⟩
  | cons op ops ih =>
    cases op with
    | declare key d shadowed =>
      have hcopied : copied d (s₂.entries key) = copied d (s.entries key) := by
        rcases hagrees key with heq | ⟨hnone, hdecl⟩
        · rw [heq]
        · obtain ⟨hsome, hreuses⟩ := hdecl d (by rw [declared, if_pos rfl])
          rw [hsome, hnone, (copied_of_reuses hreuses).1, (copied_of_reuses hreuses).2]
      cases hentry : copied d (s.entries key) with
      | error stop =>
        rw [hentry] at hcopied
        simp only [runOps, runOp, State.declare, hcopied, hentry]
      | ok entry =>
        rw [hentry] at hcopied
        have hshadows : State.shadows { s₂ with
              entries := Function.update s₂.entries key (some entry) } d shadowed =
            State.shadows { s with entries := Function.update s.entries key (some entry) }
              d shadowed := by
          cases hshadowed : shadowed with
          | none => rfl
          | some c =>
            have hsame : Function.update s₂.entries key (some entry) c =
                Function.update s.entries key (some entry) c := by
              by_cases hc : c = key
              · subst hc
                simp
              · rw [Function.update_of_ne hc, Function.update_of_ne hc]
                have hsome : (s.entries c).isSome = true :=
                  (hgrounded.1 c hshadowed).resolve_right hc
                rcases hagrees c with heq | ⟨hnone, _⟩
                · exact heq
                · rw [hnone] at hsome
                  cases hsome
            exact shadows_congr hsame
        simp only [runOps, runOp, State.declare, hcopied, hentry, hshadows]
        by_cases hshadow : State.shadows { s with
            entries := Function.update s.entries key (some entry) } d shadowed = true
        · simp only [if_pos hshadow, reduceCtorEq]
        · simp only [if_neg hshadow]
          refine ih ?_ (hgrounded.2.mono ?_)
          · intro key'
            by_cases heq : key' = key
            · subst heq
              simp
            · have hkey := hagrees key'
              simp only [Function.update_of_ne heq]
              rw [declared, if_neg (Ne.symm heq)] at hkey
              exact hkey
          · intro c hc
            by_cases heq : c = key
            · subst heq
              simp
            · simp only [Function.update_of_ne heq]
              exact hc.resolve_right heq
    | add c item => exact ih hagrees hgrounded
    | stop stop => simp only [runOps, runOp, reduceCtorEq]

end Agreement

end Cil.Resolve.InStatements
