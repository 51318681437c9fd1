/- Cil/Copy/DeclarationKinds
   digest: When copying leaves every declaration the kind it was allocated for. -/

import Mathlib.Data.List.Basic
import Cil.Copy.Declarations

set_option autoImplicit false
set_option relaxedAutoImplicit false

namespace Cil.Copy

/-- The steps by which declarations come into being: a statement is built, or one node of
some tree is copied. -/
inductive Op
  | gen (dest : Dest) (d : Decl)
  | copy (dest : Dest) (d : Decl)
  | condblock (dest : Dest) (ofTunableif : Bool)

def step (s : State) : Op → Except Stop State
  | .gen dest d => genNode s dest d
  | .copy dest d => (copyDecl s dest d).map Prod.snd
  | .condblock dest ofTunableif => .ok (copyCondblock s dest ofTunableif).2

def run (s : State) : List Op → Except Stop State
  | [] => .ok s
  | op :: ops => do
      let s ← step s op
      run s ops

/-- All nodes registered for the declaration of a symbol table entry have one flavor, that
for which the datum was allocated. -/
def OneKind (s : State) : Prop :=
  ∀ ns i name id, s.tables ns i name = some id →
    ∀ node ∈ (s.data id).nodes, node = (s.data id).flavor

/-- The table of the destination has the name for a declaration of another kind. -/
def TakenByOther (s : State) (dest : Dest) (d : Decl) (id : Nat) : Prop :=
  ∃ ns, dest.getSymtab (flavorToSymtabIndex d.flavor) = some ns ∧
    getDatum s ns d = some id ∧ (s.data id).flavor ≠ d.flavor

/-- Declarations keep one kind through a sequence of steps. -/
structure KeepKinds (ops : List Op) : Prop where
  oneKind : ∀ pre s, pre <+: ops → run .init pre = .ok s → OneKind s
  rejected : ∀ pre dest d s id, pre ++ [.copy dest d] <+: ops → run .init pre = .ok s →
    TakenByOther s dest d id → ∃ stop, step s (.copy dest d) = .error stop

/-- The copy function of the declaration uses a datum that is there. -/
def Reuses (d : Decl) (datum : Datum) : Prop :=
  match d.flavor with
  | .block | .optional | .policycap | .perm | .mapPerm | .sid | .user | .role | .roleattribute
  | .type | .typeattribute | .sens | .cat => True
  | .macroDef => d.params = datum.params
  | _ => False

/-- No declaration is copied over one of another kind that its copy function would reuse,
unless it shadows a parameter of the macro it is copied into. -/
def Compatible (s : State) : Op → Prop
  | .copy dest d => ∀ id, TakenByOther s dest d id → Reuses d (s.data id) →
      ⟨d.flavor, d.name⟩ ∈ paramsInScope s dest d.flavor id
  | _ => True

/-- Every step that is reached is compatible with the state it is reached in. -/
def AllCompatible (s : State) : List Op → Prop
  | [] => True
  | op :: ops => Compatible s op ∧ ∀ s', step s op = .ok s' → AllCompatible s' ops

section Steps

variable {s s' : State}

@[simp] theorem alloc_tables (s : State) (flavor : Flavor) (params : List Param) :
    (s.alloc flavor params).2.tables = s.tables := rfl

@[simp] theorem appendNode_tables (s : State) (id : Nat) (node : Flavor) :
    (s.appendNode id node).tables = s.tables := rfl

@[simp] theorem setEntry_data (s : State) (ns : Namespace) (i : SymIndex) (key : String)
    (id : Nat) : (s.setEntry ns i key id).data = s.data := rfl

/-- Every datum is registered with nodes of its own kind only. -/
def DataOneKind (s : State) : Prop := ∀ id, ∀ node ∈ (s.data id).nodes, node = (s.data id).flavor

private theorem DataOneKind.oneKind (h : DataOneKind s) : OneKind s :=
  fun _ _ _ id _ => h id

theorem DataOneKind.alloc (h : DataOneKind s) (flavor : Flavor) (params : List Param) :
    DataOneKind (s.alloc flavor params).2 := by
  intro id node hnode
  by_cases hid : id = s.next
  · subst hid
    simp [State.alloc] at hnode
  · simp only [State.alloc, Function.update_of_ne hid] at hnode ⊢
    exact h id node hnode

theorem DataOneKind.appendNode {id : Nat} (h : DataOneKind s) :
    DataOneKind (s.appendNode id (s.data id).flavor) := by
  intro j node hnode
  by_cases hj : j = id
  · subst hj
    simp only [State.appendNode, Function.update_self, List.mem_append, List.mem_singleton]
      at hnode ⊢
    rcases hnode with hnode | hnode
    · exact h j node hnode
    · exact hnode
  · simp only [State.appendNode, Function.update_of_ne hj] at hnode ⊢
    exact h j node hnode

private theorem symtabInsert_data (ns : Namespace) (i : SymIndex) (key : String) (id : Nat)
    (node : Flavor) :
    (symtabInsert s ns i key id node).2.data = (s.appendNode id node).data := by
  unfold symtabInsert
  split <;> rfl

private theorem paramsInScope_symtabInsert {ns : Namespace} {i : SymIndex} {key : String} {id : Nat}
    {node : Flavor} (dest : Dest) (flavor : Flavor) :
    paramsInScope (symtabInsert s ns i key id node).2 dest flavor id =
      paramsInScope s dest flavor id := by
  have hparams : ((symtabInsert s ns i key id node).2.data id).params = (s.data id).params := by
    rw [symtabInsert_data]
    simp [State.appendNode]
  unfold paramsInScope
  split
  · rfl
  · exact hparams
  · rfl

theorem DataOneKind.symtabInsert {ns : Namespace} {i : SymIndex} {key : String} {id : Nat}
    {node : Flavor} (h : DataOneKind s) (hnode : node = (s.data id).flavor) :
    DataOneKind (symtabInsert s ns i key id node).2 := by
  subst hnode
  intro j
  rw [symtabInsert_data]
  exact h.appendNode j

section CopyFunctions

variable {ns : Namespace} {d : Decl} {id : Nat}

attribute [local simp] copyBlock copyMacro copyOptional copyBool copyTunable copyPerm copyClass
  copyClasspermission copyUser copyRole copyRoleattribute copyType copyTypeattribute copyAlias
  copySens copyCat copyCatset copyLevel copyLevelrange copySid copyContext copyIpaddr
  copyPolicycap copyReusing copyRejecting

/-- A name that is free gets a fresh datum, unless the kind cannot be copied at all. -/
private theorem copyFunc_of_free (hd : getDatum s ns d = none) :
    copyFunc s ns d = .ok (s.alloc d.flavor d.params) ∨ ∃ stop, copyFunc s ns d = .error stop := by
  unfold copyFunc
  cases hf : d.flavor <;> simp [hd, hf]

theorem copyFunc_alloc (hd : getDatum s ns d = none) (hcp : d.flavor ≠ .classpermission)
    (hname : d.flavor ≠ .name) : copyFunc s ns d = .ok (s.alloc d.flavor d.params) := by
  unfold copyFunc
  cases hf : d.flavor <;> simp only [hf, ne_eq, not_true_eq_false] at hcp hname <;> simp [hd, hf]

/-- The kinds that no copy function copies where their name is free. -/
theorem copyFunc_stops (hd : getDatum s ns d = none)
    (hkind : d.flavor = .classpermission ∨ d.flavor = .name) :
    ∃ stop, copyFunc s ns d = .error stop := by
  unfold copyFunc
  rcases hkind with hf | hf <;> simp [hd, hf]

theorem copyFunc_of_reuses (hd : getDatum s ns d = some id) (hr : Reuses d (s.data id)) :
    copyFunc s ns d = .ok (id, s) := by
  unfold copyFunc
  unfold Reuses at hr
  cases hf : d.flavor <;> simp only [hf] at hr <;> simp [hd, hr]

private theorem copyFunc_of_not_reuses (hd : getDatum s ns d = some id)
    (hr : ¬ Reuses d (s.data id)) :
    ∃ stop, copyFunc s ns d = .error stop := by
  unfold copyFunc
  unfold Reuses at hr
  cases hf : d.flavor <;> simp only [hf, not_true_eq_false] at hr <;> simp [hd, hr]

/-- What a copy function hands back: a fresh datum of its kind, or the one it reuses. -/
theorem copyFunc_cases (h : copyFunc s ns d = .ok (id, s')) :
    getDatum s ns d = none ∧ (id, s') = s.alloc d.flavor d.params ∨
      getDatum s ns d = some id ∧ s' = s ∧ Reuses d (s.data id) := by
  cases hd : getDatum s ns d with
  | none =>
      left
      rcases copyFunc_of_free hd with hok | ⟨stop, herr⟩
      · rw [hok] at h
        exact ⟨rfl, (Except.ok.inj h).symm⟩
      · rw [herr] at h
        cases h
  | some existing =>
      right
      by_cases hr : Reuses d (s.data existing)
      · rw [copyFunc_of_reuses hd hr] at h
        obtain ⟨rfl, rfl⟩ := Prod.mk.inj (Except.ok.inj h)
        exact ⟨rfl, rfl, hr⟩
      · obtain ⟨stop, herr⟩ := copyFunc_of_not_reuses hd hr
        rw [herr] at h
        cases h

end CopyFunctions

section CopyDecl

variable {dest : Dest} {ns : Namespace} {d : Decl} {id : Nat}

/-- The stages a copied declaration goes through. -/
theorem copyDecl_cases (h : copyDecl s dest d = .ok (id, s')) :
    ∃ ns s₁, dest.getSymtab (flavorToSymtabIndex d.flavor) = some ns ∧
      copyFunc s ns d = .ok (id, s₁) ∧
      s' = (symtabInsert s₁ ns (flavorToSymtabIndex d.flavor) d.name id d.flavor).2 ∧
      ⟨d.flavor, d.name⟩ ∉ paramsInScope s₁ dest d.flavor id := by
  unfold copyDecl at h
  split at h
  · cases h
  · rename_i ns hns
    cases hf : copyFunc s ns d with
    | error stop =>
        rw [hf] at h
        cases h
    | ok r =>
        obtain ⟨j, s₁⟩ := r
        rw [hf] at h
        simp only [bind, Except.bind] at h
        split_ifs at h with hshadow
        obtain ⟨rfl, rfl⟩ := Prod.mk.inj (Except.ok.inj h)
        rw [paramsInScope_symtabInsert] at hshadow
        exact ⟨ns, s₁, hns, hf, rfl, hshadow⟩

variable (hns : dest.getSymtab (flavorToSymtabIndex d.flavor) = some ns)
include hns

theorem copyDecl_of_error {stop : Stop} (hf : copyFunc s ns d = .error stop) :
    copyDecl s dest d = .error stop := by
  unfold copyDecl
  simp only [hns, hf]
  rfl

theorem copyDecl_of_ok (hf : copyFunc s ns d = .ok (id, s'))
    (hshadow : ⟨d.flavor, d.name⟩ ∉ paramsInScope s' dest d.flavor id) :
    ∃ r, copyDecl s dest d = .ok r := by
  unfold copyDecl
  simp only [hns, hf, bind, Except.bind, paramsInScope_symtabInsert, if_neg hshadow]
  exact ⟨_, rfl⟩

private theorem copyDecl_of_shadow (hf : copyFunc s ns d = .ok (id, s'))
    (hshadow : ⟨d.flavor, d.name⟩ ∈ paramsInScope s' dest d.flavor id) :
    copyDecl s dest d = .error .err := by
  unfold copyDecl
  simp only [hns, hf, bind, Except.bind, paramsInScope_symtabInsert, if_pos hshadow]

end CopyDecl

theorem genNode_cases {dest : Dest} {d : Decl} (h : genNode s dest d = .ok s') :
    ∃ ns, s' = (symtabInsert (s.alloc d.flavor d.params).2 ns (flavorToSymtabIndex d.flavor)
      d.name s.next d.flavor).2 := by
  unfold genNode at h
  split at h
  · cases h
  · rename_i ns hns
    simp only [State.alloc] at h
    split at h
    · rename_i s₁ hins
      split_ifs at h
      obtain rfl := Except.ok.inj h
      exact ⟨ns, by simp only [State.alloc, hins]⟩
    · cases h

/-- A compatible step registers nodes only in data of their kind. -/
theorem DataOneKind.step {op : Op} (h : DataOneKind s) (hc : Compatible s op)
    (hstep : step s op = .ok s') : DataOneKind s' := by
  cases op with
  | gen dest d =>
      obtain ⟨ns, rfl⟩ := genNode_cases hstep
      apply (h.alloc d.flavor d.params).symtabInsert
      simp [State.alloc]
  | copy dest d =>
      cases hcopy : copyDecl s dest d with
      | error stop =>
          rw [Cil.Copy.step, hcopy] at hstep
          cases hstep
      | ok r =>
          obtain ⟨id, s₂⟩ := r
          rw [Cil.Copy.step, hcopy] at hstep
          obtain rfl := Except.ok.inj hstep
          obtain ⟨ns, s₁, hns, hf, hs', hshadow⟩ := copyDecl_cases hcopy
          rcases copyFunc_cases hf with ⟨_, halloc⟩ | ⟨hd, rfl, hr⟩
          · obtain ⟨rfl, rfl⟩ := Prod.mk.inj halloc
            rw [hs']
            apply (h.alloc d.flavor d.params).symtabInsert
            simp [State.alloc]
          · have hkind : d.flavor = (s₁.data id).flavor := by
              by_contra hne
              have hin := hc id ⟨ns, hns, hd, Ne.symm hne⟩ hr
              exact hshadow hin
            rw [hs']
            exact h.symtabInsert hkind
  | condblock dest ofTunableif =>
      obtain rfl := Except.ok.inj hstep
      unfold copyCondblock
      split
      · exact h
      · exact h

/-- A step is compatible just where a declaration over another kind is rejected. -/
private theorem compatible_copy_iff {dest : Dest} {d : Decl} :
    Compatible s (.copy dest d) ↔
      ∀ id, TakenByOther s dest d id → ∃ stop, step s (.copy dest d) = .error stop := by
  constructor
  · intro h id htaken
    have htable := htaken
    obtain ⟨ns, hns, hd, _⟩ := htable
    by_cases hr : Reuses d (s.data id)
    · have hshadow := h id htaken hr
      have herr := copyDecl_of_shadow hns (copyFunc_of_reuses hd hr) hshadow
      exact ⟨.err, by rw [step, herr]; rfl⟩
    · obtain ⟨stop, hf⟩ := copyFunc_of_not_reuses hd hr
      have herr := copyDecl_of_error hns hf
      exact ⟨stop, by rw [step, herr]; rfl⟩
  · intro h id htaken hr
    by_contra hshadow
    obtain ⟨stop, herr⟩ := h id htaken
    obtain ⟨ns, hns, hd, _⟩ := htaken
    obtain ⟨r, hok⟩ := copyDecl_of_ok hns (copyFunc_of_reuses hd hr) hshadow
    rw [step, hok] at herr
    cases herr

end Steps

section Runs

variable {s s' : State} {ops : List Op}

theorem run_append (pre post : List Op) :
    run s (pre ++ post) = (run s pre).bind fun s' => run s' post := by
  induction pre generalizing s with
  | nil => rfl
  | cons op pre ih =>
      rw [List.cons_append, run, run]
      cases step s op with
      | error stop => rfl
      | ok s₁ => exact ih

mutual

/-- A copied tree is a sequence of copied nodes. -/
theorem copySiblings_isRun (dest : Dest) (ts : List (Tree NodeData)) (s s' : State)
    (h : copySiblings dest ts s = .ok s') : ∃ ops, run s ops = .ok s' := by
  match ts with
  | [] => exact ⟨[], by simpa [copySiblings, run] using h⟩
  | t :: ts =>
      rw [copySiblings] at h
      cases ht : copyNode dest t s with
      | error stop =>
          rw [ht] at h
          cases h
      | ok s₁ =>
          rw [ht] at h
          obtain ⟨ops, hops⟩ := copyNode_isRun dest t s s₁ ht
          obtain ⟨ops', hops'⟩ := copySiblings_isRun dest ts s₁ s' h
          refine ⟨ops ++ ops', ?_⟩
          rw [run_append, hops]
          exact hops'

private theorem copyNode_isRun (dest : Dest) (t : Tree NodeData) (s s' : State)
    (h : copyNode dest t s = .ok s') : ∃ ops, run s ops = .ok s' := by
  match t with
  | .node (.decl d) children =>
      rw [copyNode] at h
      cases hd : copyDecl s dest d with
      | error stop =>
          rw [hd] at h
          cases h
      | ok r =>
          rw [hd] at h
          obtain ⟨ops, hops⟩ := copySiblings_isRun _ children r.2 s' h
          refine ⟨.copy dest d :: ops, ?_⟩
          rw [run, step, hd]
          exact hops
  | .node (.condblock ofTunableif) children =>
      rw [copyNode] at h
      obtain ⟨ops, hops⟩ := copySiblings_isRun _ children _ s' h
      exact ⟨.condblock dest ofTunableif :: ops, hops⟩
  | .node .other children =>
      rw [copyNode] at h
      exact copySiblings_isRun _ children s s' h
  | .node .unknown children =>
      rw [copyNode] at h
      cases h

end

/-- Compatibility of a whole sequence, step by step. -/
private theorem allCompatible_iff :
    AllCompatible s ops ↔ ∀ pre op s', pre ++ [op] <+: ops → run s pre = .ok s' →
      Compatible s' op := by
  induction ops generalizing s with
  | nil =>
      refine ⟨fun _ pre op s' hpre => ?_, fun _ => trivial⟩
      have hnil := List.prefix_nil.mp hpre
      exact absurd hnil (by simp)
  | cons op ops ih =>
      constructor
      · intro h pre op' s' hpre hrun
        obtain ⟨hop, hrest⟩ := h
        cases pre with
        | nil =>
            obtain ⟨rfl, _⟩ := List.cons_prefix_cons.mp hpre
            obtain rfl := Except.ok.inj hrun
            exact hop
        | cons first pre =>
            obtain ⟨rfl, htail⟩ := List.cons_prefix_cons.mp hpre
            rw [run] at hrun
            cases hstep : step s first with
            | error stop =>
                rw [hstep] at hrun
                cases hrun
            | ok s₁ =>
                rw [hstep] at hrun
                exact ih.mp (hrest s₁ hstep) pre op' s' htail hrun
      · intro h
        refine ⟨h [] op s (by simp) rfl, fun s₁ hstep => ih.mpr ?_⟩
        intro pre op' s' hpre hrun
        apply h (op :: pre) op' s' (List.cons_prefix_cons.mpr ⟨rfl, hpre⟩)
        rw [run, hstep]
        exact hrun

/-- Compatible steps only ever reach states in which each datum has one kind. -/
theorem DataOneKind.run {pre : List Op} (h : DataOneKind s) (hc : AllCompatible s ops)
    (hpre : pre <+: ops) (hrun : run s pre = .ok s') : DataOneKind s' := by
  induction pre generalizing s ops with
  | nil =>
      obtain rfl := Except.ok.inj hrun
      exact h
  | cons op pre ih =>
      cases ops with
      | nil => exact absurd (List.prefix_nil.mp hpre) (by simp)
      | cons op' ops =>
          obtain ⟨rfl, htail⟩ := List.cons_prefix_cons.mp hpre
          rw [Cil.Copy.run] at hrun
          cases hstep : Cil.Copy.step s op with
          | error stop =>
              rw [hstep] at hrun
              cases hrun
          | ok s₁ =>
              rw [hstep] at hrun
              exact ih (h.step hc.1 hstep) (hc.2 s₁ hstep) htail hrun

end Runs

/-- Declarations keep one kind through a sequence of statements built and copied just where
no declaration of a reusing kind is copied over one of another kind. -/
theorem keepKinds_iff (ops : List Op) : KeepKinds ops ↔ AllCompatible .init ops := by
  constructor
  · intro h
    refine allCompatible_iff.mpr fun pre op s hpre hrun => ?_
    cases op with
    | gen dest d => trivial
    | condblock dest ofTunableif => trivial
    | copy dest d =>
        refine compatible_copy_iff.mpr fun id htaken => ?_
        exact h.rejected pre dest d s id hpre hrun htaken
  · intro h
    have hinit : DataOneKind .init := fun id node hnode => absurd hnode (by simp [State.init])
    refine ⟨fun pre s hpre hrun => (hinit.run h hpre hrun).oneKind, ?_⟩
    intro pre dest d s id hpre hrun htaken
    have hc := allCompatible_iff.mp h pre (.copy dest d) s hpre hrun
    exact compatible_copy_iff.mp hc id htaken

/-- A macro that declares the type `t`, called where `t` is a type attribute. -/
def typeOverAttribute : List Op :=
  let root : Dest := ⟨.root, none, []⟩
  [.gen root ⟨.macroDef, "m", []⟩,
    .gen ⟨.ofDatum 0, none, []⟩ ⟨.type, "t", []⟩,
    .gen root ⟨.typeattribute, "t", []⟩,
    .copy root ⟨.type, "t", []⟩]

theorem typeOverAttribute_not_keepKinds :
    (∃ s, run .init typeOverAttribute = .ok s ∧ s.tables .root .types "t" = some 2 ∧
      (s.data 2).nodes = [.typeattribute, .type]) ∧ ¬ KeepKinds typeOverAttribute := by
  have hrun : ∃ s, run .init typeOverAttribute = .ok s ∧ s.tables .root .types "t" = some 2 ∧
      (s.data 2).nodes = [.typeattribute, .type] ∧ (s.data 2).flavor = .typeattribute :=
    ⟨_, rfl, rfl, rfl, rfl⟩
  obtain ⟨s, hs, hentry, hnodes, hflavor⟩ := hrun
  refine ⟨⟨s, hs, hentry, hnodes⟩, fun h => ?_⟩
  have hone := h.oneKind typeOverAttribute s List.prefix_rfl hs _ _ _ 2 hentry .type
    (by simp [hnodes])
  rw [hflavor] at hone
  cases hone

end Cil.Copy
