/- Cil/Verify/ClasspermsLoopExact
   digest: When the check for loops is exact and protects the recursions behind it. -/

import Cil.ClassPermsGraph
import Cil.Verify.ClasspermsLoop

set_option autoImplicit false
set_option relaxedAutoImplicit false

namespace Cil.Verify.ClasspermsLoop

open Relation
open Cil.ClassPerms Cil.Library.Descent

variable {κ δ : Type}

def isKernel : Item κ δ → Bool
  | .kernel _ => true
  | _ => false

/-- What a list mentions before its first kernel class. -/
def visibleSuccessors : ItemList κ δ → List (Option δ)
  | none => [none]
  | some items => (items.takeWhile fun i => !isKernel i).flatMap itemSuccessors

variable (classperms : δ → ItemList κ δ)

/-- What the check sees. -/
abbrev sees (a : δ) : List (Option δ) := visibleSuccessors (classperms a)

/-- The sets and map permissions a node declares. -/
def declares : NodeData κ δ → List δ
  | .mapClass perms => perms
  | .classpermission s => [s]
  | _ => []

/-- The sets and map permissions declared outside macros and abstract blocks. -/
def starts (ast : Tree (NodeData κ δ)) : List δ :=
  (ast.walk NodeData.skipHead).flatMap declares

/-- A cycle is reachable from a declaration outside macros and abstract blocks. -/
def HasCycle (ast : Tree (NodeData κ δ)) : Prop :=
  ∃ s ∈ starts ast, ∃ b, ReflTransGen (Edge (mentions classperms)) s b ∧
    TransGen (Edge (mentions classperms)) b b

/-- The lists that `__evaluate_classperms_list` is called with for a node. -/
def evaluated : NodeData κ δ → List (ItemList κ δ)
  | .mapClass perms => perms.map classperms
  | .classpermission s => [classperms s]
  | .avrule l => [some l]
  | .constrain l => [some l]
  | _ => []

/-- A recursion comes to an end, from every state and whatever it does with kernel classes. -/
def Terminates (run : ∀ σ : Type, (σ → κ → Rc × σ) → Nat → σ → Option (Walked σ)) : Prop :=
  ∀ σ leaf (state : σ), ∃ fuel rc state', run σ leaf fuel state = some (.done rc state')

/-- The four recursions come to an end on everything they are called with. -/
structure Protected (ast : Tree (NodeData κ δ)) : Prop where
  evaluate : ∀ d ∈ ast.walk NodeData.skipHead, ∀ l ∈ evaluated classperms d,
    Terminates fun _ leaf fuel state => evaluateClasspermsList classperms leaf fuel state l
  avrule : ∀ l, NodeData.avrule l ∈ ast.walk NodeData.skipHead →
    Terminates fun _ leaf fuel state => avruleExpand classperms leaf fuel state (some l)
  constrain : ∀ l, NodeData.constrain l ∈ ast.walk NodeData.skipHead →
    Terminates fun _ leaf fuel state => constrainExpand classperms leaf fuel state (some l)
  classes : ∀ perms, NodeData.mapClassUse perms ∈ ast.walk NodeData.skipHead → ∀ p ∈ perms,
    ∀ (γ : Type) (classOf : κ → γ) (gathered : List γ), ∃ fuel rc gathered',
      addClassesFromClasspermsList classperms classOf fuel gathered (classperms p) =
        some (.done rc gathered')

/-- Nothing the check sees below `s` is a cycle or a list it cannot follow. -/
def Good (s : δ) : Prop := ¬ Trouble (sees classperms) s

/-- The first successors in sight that lead into trouble lead back to `s`. -/
def Homing (s : δ) : Prop := TransGen (FirstTrouble (sees classperms)) s s

/-- The check of a node fails: something it declares is in trouble, and all of that comes
back to itself. -/
def Fails (d : NodeData κ δ) : Prop :=
  (∃ s ∈ declares d, Homing classperms s) ∧
    ∀ s ∈ declares d, Good classperms s ∨ Homing classperms s

/-- Every list that a declaration or a rule outside macros and abstract blocks uses can be
followed to its ends. -/
def AllFollowable (ast : Tree (NodeData κ δ)) : Prop :=
  (∀ d ∈ ast.walk NodeData.skipHead, ∀ l ∈ evaluated classperms d, Followable classperms l) ∧
    ∀ perms, NodeData.mapClassUse perms ∈ ast.walk NodeData.skipHead →
      ∀ p ∈ perms, Followable classperms (classperms p)

/-- The first node with a declaration in trouble fails the check. -/
def FirstFails (ast : Tree (NodeData κ δ)) : Prop :=
  ∃ pre d post, ast.walk NodeData.skipHead = pre ++ d :: post ∧
    (∀ e ∈ pre, ∀ s ∈ declares e, Good classperms s) ∧ Fails classperms d

variable {classperms}

private theorem Homing.not_good {s : δ} (h : Homing classperms s) : ¬ Good classperms s := by
  obtain ⟨_, _, _, _, _, _, hs⟩ := TransGen.tail'_iff.mp h
  exact not_not.mpr hs

private theorem allFollowable_of_protected {ast : Tree (NodeData κ δ)}
    (h : Protected classperms ast) :
    AllFollowable classperms ast := by
  constructor
  · intro d hd l hl
    obtain ⟨fuel, rc, state', hdone⟩ := h.evaluate d hd l hl Unit (fun _ _ => (.ok, ())) ()
    exact followable_of_walk (fun _ _ => rfl) hdone
  · intro perms hd p hp
    obtain ⟨fuel, rc, gathered, hdone⟩ := h.classes perms hd p hp Unit (fun _ => ()) []
    exact followable_of_walk (fun _ _ => rfl) hdone

private theorem mem_evaluated {d : NodeData κ δ} {s : δ} (hs : s ∈ declares d) :
    classperms s ∈ evaluated classperms d := by
  cases d with
  | mapClass perms => exact List.mem_map_of_mem hs
  | classpermission t =>
    obtain rfl := List.mem_singleton.mp hs
    exact List.mem_cons_self
  | _ => cases hs

/-- The check sees nothing that is not mentioned. -/
private theorem mem_successors_of_visible {l : ItemList κ δ} {e : Option δ}
    (h : e ∈ visibleSuccessors l) : e ∈ successors l := by
  cases l with
  | none => exact h
  | some items =>
    obtain ⟨i, hi, he⟩ := List.mem_flatMap.mp h
    exact List.mem_flatMap.mpr ⟨i, (List.takeWhile_sublist _).subset hi, he⟩

private theorem edge_of_sees {a b : δ} (h : Edge (sees classperms) a b) :
    Edge (mentions classperms) a b :=
  mem_successors_of_visible h

private theorem trouble_of_sees {a : δ} (h : Trouble (sees classperms) a) :
    Trouble (mentions classperms) a := by
  obtain ⟨b, hab, hb⟩ := h
  refine ⟨b, hab.lift id fun _ _ => edge_of_sees, hb.imp mem_successors_of_visible ?_⟩
  exact fun hbb => hbb.lift id fun _ _ => edge_of_sees

private theorem Homing.hasCycle {s : δ} (h : Homing classperms s) :
    TransGen (Edge (mentions classperms)) s s := by
  have hedge : ∀ a b, FirstTrouble (sees classperms) a b → Edge (mentions classperms) a b :=
    fun a b hstep => edge_of_sees hstep.edge
  exact TransGen.mono hedge s s h

private theorem hasCycle_of_firstFails {ast : Tree (NodeData κ δ)} (h : FirstFails classperms ast) :
    HasCycle classperms ast := by
  obtain ⟨pre, d, post, hast, _, ⟨s, hs, hhome⟩, _⟩ := h
  refine ⟨s, List.mem_flatMap.mpr ⟨d, ?_, hs⟩, s, ReflTransGen.refl, hhome.hasCycle⟩
  rw [hast]
  simp

section Finite

variable [Finite δ]

private theorem terminates_of_followable {l : ItemList κ δ} (h : Followable classperms l) :
    Terminates fun _ leaf fuel state => walk classperms leaf fuel state l :=
  fun _ _ state => walk_of_followable h state

private theorem protected_of_allFollowable {ast : Tree (NodeData κ δ)}
    (h : AllFollowable classperms ast) : Protected classperms ast where
  evaluate d hd l hl := terminates_of_followable (h.1 d hd l hl)
  avrule _ hl := terminates_of_followable (h.1 _ hl _ List.mem_cons_self)
  constrain _ hl := terminates_of_followable (h.1 _ hl _ List.mem_cons_self)
  classes perms hd p hp _ _ gathered := walk_of_followable (h.2 perms hd p hp) gathered

private theorem not_trouble_of_followable {s : δ} (h : Followable classperms (classperms s)) :
    ¬ Trouble (mentions classperms) s := by
  rw [← unfolds_iff]
  refine Unfolds.intro (fun e he => ?_) fun b hb => ?_
  · obtain ⟨b, hb, _⟩ := h e he
    exact ⟨b, hb⟩
  · obtain ⟨c, hc, hfine⟩ := h (some b) hb
    obtain rfl := Option.some.inj hc
    exact unfolds_iff.mpr hfine

private theorem good_of_allFollowable {ast : Tree (NodeData κ δ)}
    (h : AllFollowable classperms ast) :
    ∀ d ∈ ast.walk NodeData.skipHead, ∀ s ∈ declares d, Good classperms s := by
  intro d hd s hs htrouble
  exact not_trouble_of_followable (h.1 d hd _ (mem_evaluated hs)) (trouble_of_sees htrouble)

private theorem not_hasCycle_of_allFollowable {ast : Tree (NodeData κ δ)}
    (h : AllFollowable classperms ast) : ¬ HasCycle classperms ast := by
  rintro ⟨s, hs, b, hsb, hbb⟩
  obtain ⟨d, hd, hs⟩ := List.mem_flatMap.mp hs
  exact not_trouble_of_followable (h.1 d hd _ (mem_evaluated hs)) ⟨b, hsb, Or.inr hbb⟩

end Finite

variable (classperms)

variable [DecidableEq δ]

/-- The check comes to an end, accepts exactly what has no cycle, and accepts nothing that
the recursions behind it cannot finish. -/
structure Exact (ast : Tree (NodeData κ δ)) : Prop where
  rejects : HasCycle classperms ast →
    ∃ fuel, verifyNoClasspermsLoop classperms fuel ast = some (.failure .err)
  accepts : ¬ HasCycle classperms ast →
    ∃ fuel, verifyNoClasspermsLoop classperms fuel ast = some .success
  protects : (∃ fuel, verifyNoClasspermsLoop classperms fuel ast = some .success) →
    Protected classperms ast

/-- The verdict of the check on a descent. -/
def verdict : Outcome → Verdict
  | .clean => .success
  | .found => .failure .err
  | .stuck => .crash

section Simulation

variable {classperms} {orig : δ} {below : ItemList κ δ → Option Verdict}
  {below' : δ → Option Outcome}

private theorem verifyPerms_eq (h : ∀ b, below (classperms b) = (below' b).map verdict)
    (perms : List (PermItem δ)) :
    verifyPerms classperms orig below perms =
      (descendList orig below' (perms.map permSuccessor)).map verdict := by
  induction perms with
  | nil => rfl
  | cons i perms ih =>
    cases i with
    | operand => rfl
    | perm p =>
      simp only [verifyPerms, List.map_cons, permSuccessor, descendList]
      split_ifs
      · rfl
      · rw [h p]
        cases below' p with
        | none => rfl
        | some r =>
          cases r with
          | clean => exact ih
          | found => rfl
          | stuck => rfl

private theorem verifyItems_eq (h : ∀ b, below (classperms b) = (below' b).map verdict)
    (items : List (Item κ δ)) :
    verifyItems classperms orig below items =
      (descendList orig below' (visibleSuccessors (some items))).map verdict := by
  induction items with
  | nil => rfl
  | cons i items ih =>
    cases i with
    | kernel cp => rfl
    | map perms =>
      simp only [visibleSuccessors] at ih
      simp only [verifyItems, visibleSuccessors, List.takeWhile_cons, isKernel, Bool.not_false,
        if_true, List.flatMap_cons, itemSuccessors, descendList_append, verifyPerms_eq h, ih]
      cases descendList orig below' (perms.map permSuccessor) with
      | none => rfl
      | some r => cases r <;> rfl
    | set s =>
      simp only [visibleSuccessors] at ih
      simp only [verifyItems, visibleSuccessors, List.takeWhile_cons, isKernel, Bool.not_false,
        if_true, List.flatMap_cons, itemSuccessors, List.singleton_append, descendList, ih]
      split_ifs
      · rfl
      · rw [h s]
        cases below' s with
        | none => rfl
        | some r => cases r <;> rfl

/-- The check is a descent through what it sees, for the declaration it started from. -/
private theorem verifyClassperms_eq (fuel : Nat) (a : δ) :
    verifyClassperms classperms orig fuel (classperms a) =
      (descend (sees classperms) orig fuel a).map verdict := by
  induction fuel generalizing a with
  | zero => rfl
  | succ fuel ih =>
    simp only [descend, sees]
    cases classperms a with
    | none => rfl
    | some items => exact verifyItems_eq ih items

end Simulation

variable [Finite δ] {classperms}

private theorem verify_of_good {s : δ} (h : Good classperms s) :
    ∃ m, ∀ fuel, m ≤ fuel →
      verifyClassperms classperms s fuel (classperms s) = some .success := by
  obtain ⟨m, hm⟩ := descend_clean_iff.mpr h
  refine ⟨m, fun fuel hle => ?_⟩
  rw [verifyClassperms_eq, descend_mono hle hm]
  rfl

private theorem verify_of_homing {s : δ} (h : Homing classperms s) :
    ∃ m, ∀ fuel, m ≤ fuel →
      verifyClassperms classperms s fuel (classperms s) = some (.failure .err) := by
  obtain ⟨m, hm⟩ := descend_found_iff.mpr h
  refine ⟨m, fun fuel hle => ?_⟩
  rw [verifyClassperms_eq, descend_mono hle hm]
  rfl

private theorem good_of_verify {s : δ} {fuel : Nat}
    (h : verifyClassperms classperms s fuel (classperms s) = some .success) :
    Good classperms s := by
  rw [verifyClassperms_eq] at h
  obtain ⟨r, hr, hv⟩ := Option.map_eq_some_iff.mp h
  cases r with
  | clean => exact descend_clean_iff.mp ⟨fuel, hr⟩
  | found => cases hv
  | stuck => cases hv

private theorem homing_of_verify {s : δ} {fuel : Nat} {rc : Rc}
    (h : verifyClassperms classperms s fuel (classperms s) = some (.failure rc)) :
    rc = .err ∧ Homing classperms s := by
  rw [verifyClassperms_eq] at h
  obtain ⟨r, hr, hv⟩ := Option.map_eq_some_iff.mp h
  cases r with
  | clean => cases hv
  | found =>
    cases hv
    exact ⟨rfl, descend_found_iff.mp ⟨fuel, hr⟩⟩
  | stuck => cases hv

private theorem verifyMapClass_of_good {perms : List δ} (h : ∀ p ∈ perms, Good classperms p) :
    ∃ m, ∀ fuel, m ≤ fuel → ∀ rc, verifyMapClass classperms fuel rc perms = some rc := by
  induction perms with
  | nil => exact ⟨0, fun _ _ _ => rfl⟩
  | cons p perms ih =>
    obtain ⟨m, hm⟩ := ih fun q hq => h q (List.mem_cons_of_mem p hq)
    obtain ⟨n, hn⟩ := verify_of_good (h p List.mem_cons_self)
    refine ⟨max m n, fun fuel hle rc => ?_⟩
    simp only [verifyMapClass, hn fuel (by omega)]
    exact hm fuel (by omega) rc

private theorem verifyMapClass_of_homing {perms : List δ}
    (h : ∀ p ∈ perms, Good classperms p ∨ Homing classperms p) :
    ∃ m, ∀ fuel, m ≤ fuel →
      verifyMapClass classperms fuel (.failure .err) perms = some (.failure .err) ∧
        ((∃ p ∈ perms, Homing classperms p) →
          verifyMapClass classperms fuel .success perms = some (.failure .err)) := by
  induction perms with
  | nil => exact ⟨0, fun _ _ => ⟨rfl, fun ⟨_, hp, _⟩ => absurd hp List.not_mem_nil⟩⟩
  | cons p perms ih =>
    obtain ⟨m, hm⟩ := ih fun q hq => h q (List.mem_cons_of_mem p hq)
    rcases h p List.mem_cons_self with hp | hp
    · obtain ⟨n, hn⟩ := verify_of_good hp
      refine ⟨max m n, fun fuel hle => ?_⟩
      simp only [verifyMapClass, hn fuel (by omega)]
      refine ⟨(hm fuel (by omega)).1, fun ⟨q, hq, hhome⟩ => (hm fuel (by omega)).2 ⟨q, ?_, hhome⟩⟩
      refine List.mem_of_ne_of_mem ?_ hq
      intro he
      exact hhome.not_good (he ▸ hp)
    · obtain ⟨n, hn⟩ := verify_of_homing hp
      refine ⟨max m n, fun fuel hle => ?_⟩
      simp only [verifyMapClass, hn fuel (by omega)]
      exact ⟨(hm fuel (by omega)).1, fun _ => (hm fuel (by omega)).1⟩

private theorem of_verifyMapClass {fuel : Nat} {rc r : Verdict} {perms : List δ}
    (h : verifyMapClass classperms fuel rc perms = some r) (hr : r ≠ .crash) :
    (∀ p ∈ perms, Good classperms p ∨ Homing classperms p) ∧
      (r = rc ∨ r = .failure .err ∧ ∃ p ∈ perms, Homing classperms p) ∧
      (r = .success → ∀ p ∈ perms, Good classperms p) := by
  induction perms generalizing rc with
  | nil =>
    cases h
    exact ⟨by simp, Or.inl rfl, by simp⟩
  | cons p perms ih =>
    simp only [verifyMapClass] at h
    split at h
    · rename_i hp
      have hgood := good_of_verify hp
      obtain ⟨hall, hres, hsucc⟩ := ih h
      refine ⟨?_, hres.imp_right fun ⟨he, q, hq, hhome⟩ => ⟨he, q, by simp [hq], hhome⟩, ?_⟩
      · intro q hq
        rcases List.mem_cons.mp hq with rfl | hq
        · exact Or.inl hgood
        · exact hall q hq
      · intro hs q hq
        rcases List.mem_cons.mp hq with rfl | hq
        · exact hgood
        · exact hsucc hs q hq
    · rename_i hp
      have hhome := (homing_of_verify hp).2
      obtain ⟨hall, hres, hsucc⟩ := ih h
      have hfail : r = .failure .err := by
        rcases hres with he | ⟨he, _⟩ <;> exact he
      refine ⟨?_, Or.inr ⟨hfail, p, List.mem_cons_self, hhome⟩, ?_⟩
      · intro q hq
        rcases List.mem_cons.mp hq with rfl | hq
        · exact Or.inr hhome
        · exact hall q hq
      · intro hs
        rw [hfail] at hs
        cases hs
    · rename_i hnot hnot'
      cases r with
      | success => exact absurd h hnot
      | failure rc' => exact absurd h (hnot' rc')
      | crash => exact absurd rfl hr

/-- How the check of one node comes to an end. -/
private theorem helper_of_good {d : NodeData κ δ} (h : ∀ s ∈ declares d, Good classperms s) :
    ∃ m, ∀ fuel, m ≤ fuel →
      verifyNoClasspermsLoopHelper classperms fuel d = some .success := by
  cases d with
  | mapClass perms =>
    obtain ⟨m, hm⟩ := verifyMapClass_of_good h
    exact ⟨m, fun fuel hle => hm fuel hle .success⟩
  | classpermission s => exact verify_of_good (h s List.mem_cons_self)
  | _ => exact ⟨0, fun _ _ => rfl⟩

private theorem helper_of_fails {d : NodeData κ δ} (h : Fails classperms d) :
    ∃ m, ∀ fuel, m ≤ fuel →
      verifyNoClasspermsLoopHelper classperms fuel d = some (.failure .err) := by
  obtain ⟨hhome, hall⟩ := h
  cases d with
  | mapClass perms =>
    obtain ⟨m, hm⟩ := verifyMapClass_of_homing hall
    exact ⟨m, fun fuel hle => (hm fuel hle).2 hhome⟩
  | classpermission s =>
    obtain ⟨p, hp, hhome⟩ := hhome
    obtain rfl := List.mem_singleton.mp hp
    exact verify_of_homing hhome
  | _ =>
    obtain ⟨p, hp, _⟩ := hhome
    cases hp

private theorem of_helper {fuel : Nat} {d : NodeData κ δ} {r : Verdict}
    (h : verifyNoClasspermsLoopHelper classperms fuel d = some r) (hr : r ≠ .crash) :
    r = .success ∧ (∀ s ∈ declares d, Good classperms s) ∨
      r = .failure .err ∧ Fails classperms d := by
  cases d with
  | mapClass perms =>
    obtain ⟨hall, hres, hsucc⟩ := of_verifyMapClass h hr
    rcases hres with rfl | ⟨rfl, hhome⟩
    · exact Or.inl ⟨rfl, hsucc rfl⟩
    · exact Or.inr ⟨rfl, hhome, hall⟩
  | classpermission s =>
    cases r with
    | success =>
      have hgood := good_of_verify h
      exact Or.inl ⟨rfl, fun p hp => List.mem_singleton.mp hp ▸ hgood⟩
    | failure rc =>
      obtain ⟨rfl, hhome⟩ := homing_of_verify h
      refine Or.inr ⟨rfl, ⟨s, List.mem_cons_self, hhome⟩, fun p hp => ?_⟩
      exact Or.inr (List.mem_singleton.mp hp ▸ hhome)
    | crash => exact absurd rfl hr
  | _ =>
    cases h
    exact Or.inl ⟨rfl, by simp [declares]⟩

/-- The check of the whole tree succeeds once every declaration is good. -/
private theorem process_of_good {ds : List (NodeData κ δ)}
    (h : ∀ d ∈ ds, ∀ s ∈ declares d, Good classperms s) :
    ∃ m, ∀ fuel, m ≤ fuel →
      process (verifyNoClasspermsLoopHelper classperms fuel) ds = some .success := by
  induction ds with
  | nil => exact ⟨0, fun _ _ => rfl⟩
  | cons d ds ih =>
    obtain ⟨m, hm⟩ := ih fun e he => h e (List.mem_cons_of_mem d he)
    obtain ⟨n, hn⟩ := helper_of_good (h d List.mem_cons_self)
    refine ⟨max m n, fun fuel hle => ?_⟩
    simp only [process, hn fuel (by omega)]
    exact hm fuel (by omega)

private theorem process_of_fails {pre : List (NodeData κ δ)} {d : NodeData κ δ}
    (post : List (NodeData κ δ))
    (hpre : ∀ e ∈ pre, ∀ s ∈ declares e, Good classperms s) (hd : Fails classperms d) :
    ∃ m, ∀ fuel, m ≤ fuel →
      process (verifyNoClasspermsLoopHelper classperms fuel) (pre ++ d :: post) =
        some (.failure .err) := by
  induction pre with
  | nil =>
    obtain ⟨m, hm⟩ := helper_of_fails hd
    refine ⟨m, fun fuel hle => ?_⟩
    simp only [List.nil_append, process, hm fuel hle]
  | cons e pre ih =>
    obtain ⟨m, hm⟩ := ih fun x hx => hpre x (List.mem_cons_of_mem e hx)
    obtain ⟨n, hn⟩ := helper_of_good (hpre e List.mem_cons_self)
    refine ⟨max m n, fun fuel hle => ?_⟩
    simp only [List.cons_append, process, hn fuel (by omega)]
    exact hm fuel (by omega)

private theorem of_process {fuel : Nat} {ds : List (NodeData κ δ)} {r : Verdict}
    (h : process (verifyNoClasspermsLoopHelper classperms fuel) ds = some r) (hr : r ≠ .crash) :
    r = .success ∧ (∀ d ∈ ds, ∀ s ∈ declares d, Good classperms s) ∨
      r = .failure .err ∧ ∃ pre d post, ds = pre ++ d :: post ∧
        (∀ e ∈ pre, ∀ s ∈ declares e, Good classperms s) ∧ Fails classperms d := by
  induction ds with
  | nil =>
    cases h
    exact Or.inl ⟨rfl, by simp⟩
  | cons d ds ih =>
    simp only [process] at h
    split at h
    · rename_i hd
      have hgood : ∀ s ∈ declares d, Good classperms s := by
        rcases of_helper hd (by simp) with ⟨_, hgood⟩ | ⟨he, _⟩
        · exact hgood
        · cases he
      rcases ih h with ⟨hs, hall⟩ | ⟨hf, pre, e, post, rfl, hpre, he⟩
      · refine Or.inl ⟨hs, fun e he => ?_⟩
        rcases List.mem_cons.mp he with rfl | he
        · exact hgood
        · exact hall e he
      · refine Or.inr ⟨hf, d :: pre, e, post, rfl, fun x hx => ?_, he⟩
        rcases List.mem_cons.mp hx with rfl | hx
        · exact hgood
        · exact hpre x hx
    · rename_i hnot
      rcases of_helper h hr with ⟨rfl, _⟩ | ⟨hf, hfails⟩
      · exact absurd h hnot
      · exact Or.inr ⟨hf, [], d, ds, rfl, by simp, hfails⟩

/-- The first list in trouble keeps the check from accepting. -/
private theorem all_good_of_success {fuel : Nat} {ast : Tree (NodeData κ δ)}
    (h : verifyNoClasspermsLoop classperms fuel ast = some .success) :
    ∀ d ∈ ast.walk NodeData.skipHead, ∀ s ∈ declares d, Good classperms s := by
  rcases of_process h (by simp) with ⟨_, hall⟩ | ⟨hf, _⟩
  · exact hall
  · cases hf

private theorem exact_of_allFollowable {ast : Tree (NodeData κ δ)}
    (h : AllFollowable classperms ast) :
    Exact classperms ast where
  rejects hcycle := absurd hcycle (not_hasCycle_of_allFollowable h)
  accepts _ := by
    obtain ⟨m, hm⟩ := process_of_good (good_of_allFollowable h)
    exact ⟨m, hm m (Nat.le_refl m)⟩
  protects _ := protected_of_allFollowable h

private theorem exact_of_firstFails {ast : Tree (NodeData κ δ)} (h : FirstFails classperms ast) :
    Exact classperms ast where
  rejects _ := by
    obtain ⟨pre, d, post, hast, hpre, hd⟩ := h
    obtain ⟨m, hm⟩ := process_of_fails post hpre hd
    refine ⟨m, ?_⟩
    rw [verifyNoClasspermsLoop, hast]
    exact hm m (Nat.le_refl m)
  accepts hcycle := absurd (hasCycle_of_firstFails h) hcycle
  protects := by
    rintro ⟨fuel, hsuccess⟩
    obtain ⟨pre, d, post, hast, _, ⟨s, hs, hhome⟩, _⟩ := h
    have hd : d ∈ ast.walk NodeData.skipHead := by
      rw [hast]
      simp
    exact absurd (all_good_of_success hsuccess d hd s hs) hhome.not_good

theorem classpermsLoop_exact_iff {κ δ : Type} [DecidableEq δ] [Fintype δ]
    (classperms : δ → ItemList κ δ) (ast : Tree (NodeData κ δ)) :
    Exact classperms ast ↔ AllFollowable classperms ast ∨ FirstFails classperms ast := by
  constructor
  · intro h
    by_cases hcycle : HasCycle classperms ast
    · obtain ⟨fuel, hfail⟩ := h.rejects hcycle
      rcases of_process hfail (by simp) with ⟨he, _⟩ | ⟨_, hfirst⟩
      · cases he
      · exact Or.inr hfirst
    · exact Or.inl (allFollowable_of_protected (h.protects (h.accepts hcycle)))
  · rintro (h | h)
    · exact exact_of_allFollowable h
    · exact exact_of_firstFails h

/-- `(classpermissionset a (c (p)))`, `(classpermissionset a b)`, `(classpermissionset b a)`. -/
def circularPair : Fin 2 → ItemList Unit (Fin 2)
  | 0 => some [.kernel (), .set (Fin.last 1)]
  | 1 => some [.set ⟨0, Nat.two_pos⟩]

/-- Both checks turn back at the kernel class. -/
theorem circularPair_not_exact :
    verifyNoClasspermsLoop circularPair 3
        (.node .other [.node (.classpermission 0) [], .node (.classpermission 1) []]) =
      some .success ∧
    ¬ Exact circularPair
      (.node .other [.node (.classpermission 0) [], .node (.classpermission 1) []]) := by
  refine ⟨by decide, fun h => ?_⟩
  have haccepted : ∃ fuel, verifyNoClasspermsLoop circularPair fuel
      (.node .other [.node (.classpermission 0) [], .node (.classpermission 1) []]) =
        some .success := ⟨3, by decide⟩
  have hfollow := allFollowable_of_protected (h.protects haccepted)
  refine not_hasCycle_of_allFollowable hfollow ⟨0, by decide, 0, ReflTransGen.refl, ?_⟩
  have h01 : Edge (mentions circularPair) 0 1 := by
    show some (1 : Fin 2) ∈ successors (circularPair 0)
    decide
  have h10 : Edge (mentions circularPair) 1 0 := by
    show some (0 : Fin 2) ∈ successors (circularPair 1)
    decide
  exact TransGen.head h01 (TransGen.single h10)

end Cil.Verify.ClasspermsLoop
