/- Cil/Ast/Symtabs/Agreement
   digest: Symbol tables and tree agree, as long as no class is taken back with permissions. -/

import Cil.Ast.Symtabs.Making
import Cil.Ast.Symtabs.Destroying

set_option autoImplicit false
set_option relaxedAutoImplicit false

namespace Cil.Ast.Symtabs

open Copy (Decl Namespace Param)

section Runs

variable {s u : State} {fuel n : Nat} {rc : Rc}

/-- `cil_tree_node_destroy` on a node that hangs below none and has none below it. -/
theorem Inv.nodeDestroy (hi : Inv s) (hn : s.Live n) (hclean : Clean s (.nodeDestroy n)) :
    Inv (s.destroyNode n) := by
  obtain ⟨hnil, hloose⟩ := hclean
  have hchildless : Childless s n := by
    intro m hm hm0 hparent
    have hin := hi.shape.attached m hm hm0 (by simp)
    rw [hparent, hnil] at hin
    cases hin
  obtain ⟨hkill, hdata⟩ := destroyNode_kills hi.shape hi.data hn hchildless
  refine ⟨hkill.shape hi.shape hn hchildless, ?_, hdata⟩
  intro q hq c hc
  obtain ⟨hqlive, _⟩ := (hkill.live_iff q).mp hq
  rw [hkill.nodes] at hc
  refine (hkill.live_iff c).mpr ⟨hi.whole q hqlive c hc, ?_⟩
  rintro rfl
  exact hloose q ((hi.astNode_iff q).mpr hqlive) hc

/-- A clean step keeps the invariant, whether it succeeds or fails. -/
theorem Inv.step {op : Op} (hi : Inv s) (hclean : Clean s op)
    (h : step fuel s op = some (rc, u)) : Inv u := by
  cases op with
  | gen p d perms =>
    rw [Symtabs.step] at h
    split_ifs at h with hp
    rcases genDecl_cases hi hp hclean (Option.some.inj h) with ⟨_, hu⟩ | ⟨_, hundone⟩
    · exact hu
    · exact hundone.inv hi
  | genOther p stmt =>
    rw [Symtabs.step] at h
    split_ifs at h with hp
    obtain ⟨_, rfl⟩ := Prod.mk.inj (Option.some.inj h)
    exact (hi.genOther hp.1 hp.2).1
  | copy orig dest =>
    rw [Symtabs.step] at h
    split_ifs at h with hlive
    exact (copyFrom_cases hi hlive.1 hlive.2 h).1
  | childrenDestroy n =>
    rw [Symtabs.step] at h
    split_ifs at h with hn
    obtain ⟨v, hv, heq⟩ := Option.map_eq_some_iff.mp h
    obtain ⟨_, rfl⟩ := Prod.mk.inj heq
    exact hi.childrenDestroy hn hv
  | nodeDestroy n =>
    rw [Symtabs.step] at h
    split_ifs at h with hn
    obtain ⟨_, rfl⟩ := Prod.mk.inj (Option.some.inj h)
    exact hi.nodeDestroy hn hclean

/-- Every state that clean steps reach has the invariant, and the step after it is clean. -/
theorem Inv.run {ops pre : List Op} (hi : Inv s) (hclean : AllClean fuel s ops)
    (hpre : pre <+: ops) (h : run fuel s pre = some u) :
    Inv u ∧ ∀ op, pre ++ [op] <+: ops → Clean u op := by
  induction pre generalizing s ops with
  | nil =>
    obtain rfl := Option.some.inj h
    refine ⟨hi, fun op hop => ?_⟩
    obtain ⟨rest, hrest⟩ := hop
    subst hrest
    exact hclean.1
  | cons op pre ih =>
    obtain ⟨rest, rfl⟩ := hpre
    obtain ⟨hop, hnext⟩ := hclean
    rw [Symtabs.run] at h
    split at h
    · cases h
    · rename_i rc s₁ hstep
      have hclean₁ : AllClean fuel s₁ (pre ++ rest) := hnext rc s₁ hstep
      obtain ⟨hinv, hlast⟩ := ih (hi.step hop hstep) hclean₁ (List.prefix_append pre rest) h
      refine ⟨hinv, fun op' hop' => hlast op' ?_⟩
      rw [List.cons_append, List.cons_append] at hop'
      exact (List.cons_prefix_cons.mp hop').2

/-- Symbol tables and tree agree through a sequence of steps, and a declaration that fails to be
built or copied leaves the others as they were. -/
structure KeepsAgreement (fuel : Nat) (ops : List Op) : Prop where
  agree : ∀ pre s, pre <+: ops → run fuel .init pre = some s → Agree s
  built : ∀ pre p d perms s rc u, pre ++ [.gen p d perms] <+: ops →
    run fuel .init pre = some s → step fuel s (.gen p d perms) = some (rc, u) → rc ≠ .ok →
      Unchanged s u
  copied : ∀ pre orig dest s rc u, pre ++ [.copy orig dest] <+: ops →
    run fuel .init pre = some s → step fuel s (.copy orig dest) = some (rc, u) → rc ≠ .ok →
      ∃ s₁ c d, copyNode s₁ c d = some (rc, u) ∧ Agree s₁ ∧ Unchanged s₁ u

/-- Clean steps keep symbol tables and tree in agreement. -/
theorem keepsAgreement_of_clean (fuel : Nat) (ops : List Op) (h : AllClean fuel .init ops) :
    KeepsAgreement fuel ops where
  agree pre s hpre hrun := (inv_init.run h hpre hrun).1.agree
  built pre p d perms s rc u hpre hrun hstep hbad := by
    obtain ⟨hi, hlast⟩ := inv_init.run h ((List.prefix_append pre _).trans hpre) hrun
    have hclean := hlast _ hpre
    rw [step] at hstep
    split_ifs at hstep with hp
    rcases genDecl_cases hi hp hclean (Option.some.inj hstep) with ⟨hok, _⟩ | ⟨_, hundone⟩
    · exact absurd hok hbad
    · exact hundone.unchanged hi.data
  copied pre orig dest s rc u hpre hrun hstep hbad := by
    obtain ⟨hi, _⟩ := inv_init.run h ((List.prefix_append pre _).trans hpre) hrun
    rw [step] at hstep
    split_ifs at hstep with hlive
    obtain ⟨s₁, c, d, hcopy, hi₁, hundone⟩ := (copyFrom_cases hi hlive.1 hlive.2 hstep).2.2 hbad
    exact ⟨s₁, c, d, hcopy, hi₁.agree, hundone.unchanged hi₁.data⟩

/-- A block with a type, declared twice, copied to the root and destroyed; a class. -/
def blockSteps : List Op :=
  [.gen 0 ⟨.block, "b", []⟩ [], .gen 1 ⟨.type, "t", []⟩ [], .gen 1 ⟨.type, "t", []⟩ [],
    .gen 0 ⟨.kernelClass, "file", []⟩ [some "read", some "write"], .copy 1 0, .copy 1 0,
    .childrenDestroy 1]

theorem blockSteps_keepsAgreement : KeepsAgreement 10 blockSteps := by
  refine keepsAgreement_of_clean 10 blockSteps ?_
  refine ⟨fun h => absurd rfl h, fun _ _ _ => ⟨fun h => absurd rfl h, fun _ _ _ => ?_⟩⟩
  refine ⟨fun h => absurd rfl h, fun _ _ _ => ⟨fun _ _ => Or.inl ⟨?_, by decide⟩, fun _ _ _ => ?_⟩⟩
  · intro perm hperm
    rcases List.mem_cons.mp hperm with rfl | hperm
    · exact ⟨"read", rfl, by decide⟩
    · obtain rfl := List.mem_singleton.mp hperm
      exact ⟨"write", rfl, by decide⟩
  · exact ⟨trivial, fun _ _ _ => ⟨trivial, fun _ _ _ => ⟨trivial, fun _ _ _ => trivial⟩⟩⟩

/-- `(class c (p p))`. -/
def twicePermission : List Op := [.gen 0 ⟨.kernelClass, "c", []⟩ [some "p", some "p"]]

theorem twicePermission_not_keepsAgreement : ¬ KeepsAgreement 1 twicePermission := by
  intro h
  obtain ⟨s, hrun, hnodes, hsym⟩ : ∃ s, run 1 .init twicePermission = some s ∧
      s.nodesOf 1 = [2] ∧ (s.data 1).symtab = none := ⟨_, rfl, rfl, rfl⟩
  have hagree := h.agree twicePermission s List.prefix_rfl hrun
  obtain ⟨ns, i, key, hentry⟩ := (hagree.listed 1).mpr (by rw [hnodes]; simp)
  have hplace := ((hagree.entry ns i key 1).mp hentry).1
  rw [hsym] at hplace
  cases hplace

end Runs

end Cil.Ast.Symtabs
