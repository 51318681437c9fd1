/- Cil/Resolve/PermissionNumbers
   digest: The values of permissions, shifted by classcommon statements and by resets. -/

import Mathlib.Algebra.Group.Nat.Defs
import Mathlib.Data.List.Basic
import Mathlib.Data.Set.Function
import Mathlib.Logic.Function.Basic
import Cil.Basic

set_option autoImplicit false
set_option relaxedAutoImplicit false

namespace Cil.Resolve.PermissionNumbers

/-- A permission, by the class or the common that declares it and its place there. -/
inductive Perm (γ χ : Type)
  | own (c : γ) (i : Nat)
  | common (d : χ) (i : Nat)
  deriving DecidableEq, Repr

/-- The classes and the commons, with how many permissions each declares, and which of them
`cil_copy_ast` has made: for a call, an inherited block, a tunableif or an in statement. -/
structure Declared (γ χ : Type) where
  classes : List γ
  commons : List χ
  own : γ → Nat
  common : χ → Nat
  copied : γ → Bool
  copiedCommon : χ → Bool
  mem_classes : ∀ c, c ∈ classes
  mem_commons : ∀ d, d ∈ commons

/-- The fields `value` of the permissions, and `num_perms` and `common` of the classes. -/
structure Numbering (γ χ : Type) where
  value : Perm γ χ → UInt32
  numPerms : γ → UInt32
  commonNumPerms : χ → UInt32
  common : γ → Option χ

section Model

variable {γ χ : Type} [DecidableEq γ] [DecidableEq χ] (D : Declared γ χ)

def ownPerms (c : γ) : List (Perm γ χ) := (List.range (D.own c)).map (Perm.own c)

def commonPerms (d : χ) : List (Perm γ χ) := (List.range (D.common d)).map (Perm.common d)

/-- `cil_gen_perm_nodes`: the permissions are counted. -/
def genPermNodes (perms : List (Perm γ χ)) (s : (Perm γ χ → UInt32) × UInt32) :
    (Perm γ χ → UInt32) × UInt32 :=
  perms.foldl (fun s p => (Function.update s.1 p s.2, s.2 + 1)) s

/-- `cil_gen_class`, as far as it counts permissions. -/
def genClass (s : Numbering γ χ) (c : γ) : Numbering γ χ :=
  let r := genPermNodes (ownPerms D c) (s.value, 0)
  { s with value := r.1, numPerms := Function.update s.numPerms c r.2 }

/-- `cil_gen_common`, likewise. -/
def genCommon (s : Numbering γ χ) (d : χ) : Numbering γ χ :=
  let r := genPermNodes (commonPerms D d) (s.value, 0)
  { s with value := r.1, commonNumPerms := Function.update s.commonNumPerms d r.2 }

def Numbering.init : Numbering γ χ := ⟨fun _ => 0, fun _ => 0, fun _ => 0, fun _ => none⟩

/-- The numbers with which classes and commons are declared. -/
def declared : Numbering γ χ :=
  D.commons.foldl (genCommon D) (D.classes.foldl (genClass D) Numbering.init)

/-- The permission is of a class or common that was copied. -/
def copiedPerm : Perm γ χ → Bool
  | .own c _ => D.copied c
  | .common d _ => D.copiedCommon d

/-- What the passes start from: `cil_copy_perm` and `cil_copy_class` leave the numbers of a copy as
`cil_perm_init` and `cil_class_init` set them. -/
def start : Numbering γ χ where
  value p := if copiedPerm D p then 0 else (declared D).value p
  numPerms c := if D.copied c then 0 else (declared D).numPerms c
  commonNumPerms d := if D.copiedCommon d then 0 else (declared D).commonNumPerms d
  common := (declared D).common

/-- `cil_symtab_map` with a change of the values. -/
def symtabMap (f : UInt32 → UInt32) (perms : List (Perm γ χ)) (value : Perm γ χ → UInt32) :
    Perm γ χ → UInt32 :=
  fun p => if p ∈ perms then f (value p) else value p

/-- `cil_resolve_classcommon`. -/
def resolveClasscommon (s : Numbering γ χ) (c : γ) (d : χ) : Rc × Numbering γ χ :=
  match s.common c with
  | some _ => (.err, s)
  | none =>
      (.ok, { s with
        common := Function.update s.common c (some d)
        value := symtabMap (· + s.commonNumPerms d) (ownPerms D c) s.value
        numPerms := Function.update s.numPerms c (s.numPerms c + s.commonNumPerms d) })

/-- `cil_reset_class`: the values of the permissions of the common are changed. -/
def resetClass (s : Numbering γ χ) (c : γ) : Numbering γ χ :=
  match s.common c with
  | none => s
  | some d =>
      { s with
        value := symtabMap (· - s.commonNumPerms d) (commonPerms D d) s.value
        numPerms := Function.update s.numPerms c (s.numPerms c - s.commonNumPerms d)
        common := Function.update s.common c none }

/-- What resolution does to the numbering. -/
inductive Op (γ χ : Type)
  | classcommon (c : γ) (d : χ)
  | reset (c : γ)
  deriving DecidableEq, Repr

def step (s : Numbering γ χ) : Op γ χ → Rc × Numbering γ χ
  | .classcommon c d => resolveClasscommon D s c d
  | .reset c => (.ok, resetClass D s c)

/-- The passes stop at the first statement that fails. -/
def run (s : Numbering γ χ) : List (Op γ χ) → Rc × Numbering γ χ
  | [] => (.ok, s)
  | op :: ops =>
      match step D s op with
      | (.ok, s') => run s' ops
      | r => r

/-- The rounds of `cil_resolve_ast`, given by the classcommon statements that each resolves
before it ends: all rounds but the last one end with the reset of every class. -/
def rounds : List (List (γ × χ)) → List (Op γ χ)
  | [] => []
  | [last] => last.map fun s => .classcommon s.1 s.2
  | round :: rest =>
      round.map (fun s => .classcommon s.1 s.2) ++ D.classes.map .reset ++ rounds rest

end Model

private theorem own_injective {γ χ : Type} (c : γ) : Function.Injective (Perm.own (χ := χ) c) := by
  intro i j h
  cases h
  rfl

private theorem common_injective {γ χ : Type} (d : χ) :
    Function.Injective (Perm.common (γ := γ) d) := by
  intro i j h
  cases h
  rfl

private theorem mem_ownPerms {γ χ : Type} {D : Declared γ χ} {c : γ} {p : Perm γ χ} :
    p ∈ ownPerms D c ↔ ∃ i < D.own c, p = .own c i := by
  simp [ownPerms, eq_comm]

private theorem mem_commonPerms {γ χ : Type} {D : Declared γ χ} {d : χ} {p : Perm γ χ} :
    p ∈ commonPerms D d ↔ ∃ i < D.common d, p = .common d i := by
  simp [commonPerms, eq_comm]

section Declaring

variable {γ χ : Type} [DecidableEq γ] [DecidableEq χ] {D : Declared γ χ}

/-- The permissions of a list are numbered by their places, the others keep their values. -/
private theorem genPermNodes_range (f : Nat → Perm γ χ) (hf : Function.Injective f) (n : Nat)
    (value : Perm γ χ → UInt32) :
    (genPermNodes ((List.range n).map f) (value, 0)).2 = UInt32.ofNat n ∧
      (∀ i < n, (genPermNodes ((List.range n).map f) (value, 0)).1 (f i) = UInt32.ofNat i) ∧
      ∀ p, (∀ i < n, p ≠ f i) →
        (genPermNodes ((List.range n).map f) (value, 0)).1 p = value p := by
  induction n with
  | zero => exact ⟨rfl, by omega, fun p _ => rfl⟩
  | succ n ih =>
    obtain ⟨hcount, hvalues, hothers⟩ := ih
    have hlast : genPermNodes ((List.range (n + 1)).map f) (value, 0) =
        (Function.update (genPermNodes ((List.range n).map f) (value, 0)).1 (f n)
          (genPermNodes ((List.range n).map f) (value, 0)).2,
          (genPermNodes ((List.range n).map f) (value, 0)).2 + 1) := by
      rw [List.range_succ, List.map_append, genPermNodes, List.foldl_append]
      rfl
    rw [hlast]
    dsimp only
    refine ⟨?_, ?_, ?_⟩
    · rw [hcount]
      exact (UInt32.ofNat_add n 1).symm
    · intro i hi
      by_cases heq : i = n
      · rw [heq, Function.update_self, hcount]
      · rw [Function.update_of_ne fun h => heq (hf h)]
        exact hvalues i (by omega)
    · intro p hp
      rw [Function.update_of_ne (hp n (by omega))]
      exact hothers p fun i hi => hp i (by omega)

/-- The own permissions of a class have the values of their places. -/
structure ClassDeclared (D : Declared γ χ) (c : γ) (s : Numbering γ χ) : Prop where
  value : ∀ i < D.own c, s.value (.own c i) = UInt32.ofNat i
  numPerms : s.numPerms c = UInt32.ofNat (D.own c)
  common : s.common c = none

structure CommonDeclared (D : Declared γ χ) (d : χ) (s : Numbering γ χ) : Prop where
  value : ∀ i < D.common d, s.value (.common d i) = UInt32.ofNat i
  numPerms : s.commonNumPerms d = UInt32.ofNat (D.common d)

private theorem genClass_declares (s : Numbering γ χ) (hs : ∀ c, s.common c = none) (c : γ) :
    ClassDeclared D c (genClass D s c) := by
  obtain ⟨hcount, hvalues, -⟩ :=
    genPermNodes_range (Perm.own c) (own_injective c) (D.own c) s.value
  refine ⟨hvalues, ?_, hs c⟩
  show Function.update s.numPerms c _ c = _
  rw [Function.update_self]
  exact hcount

private theorem genClass_keeps {s : Numbering γ χ} {c : γ} (h : ClassDeclared D c s) (c' : γ) :
    ClassDeclared D c (genClass D s c') := by
  obtain ⟨hcount, hvalues, hothers⟩ :=
    genPermNodes_range (Perm.own c') (own_injective c') (D.own c') s.value
  by_cases heq : c = c'
  · subst heq
    refine ⟨hvalues, ?_, h.common⟩
    show Function.update s.numPerms c _ c = _
    rw [Function.update_self]
    exact hcount
  · refine ⟨?_, ?_, h.common⟩
    · intro i hi
      exact (hothers _ fun j _ hj => heq (by cases hj; rfl)).trans (h.value i hi)
    · show Function.update s.numPerms c' _ c = _
      rw [Function.update_of_ne heq]
      exact h.numPerms

private theorem genCommon_declares (s : Numbering γ χ) (d : χ) :
    CommonDeclared D d (genCommon D s d) := by
  obtain ⟨hcount, hvalues, -⟩ :=
    genPermNodes_range (Perm.common d) (common_injective d) (D.common d) s.value
  refine ⟨hvalues, ?_⟩
  show Function.update s.commonNumPerms d _ d = _
  rw [Function.update_self]
  exact hcount

private theorem genCommon_keeps {s : Numbering γ χ} {d : χ} (h : CommonDeclared D d s) (d' : χ) :
    CommonDeclared D d (genCommon D s d') := by
  by_cases heq : d = d'
  · subst heq
    exact genCommon_declares s d
  · obtain ⟨-, -, hothers⟩ :=
      genPermNodes_range (Perm.common d') (common_injective d') (D.common d') s.value
    refine ⟨?_, ?_⟩
    · intro i hi
      exact (hothers _ fun j _ hj => heq (by cases hj; rfl)).trans (h.value i hi)
    · show Function.update s.commonNumPerms d' _ d = _
      rw [Function.update_of_ne heq]
      exact h.numPerms

private theorem genCommon_keeps_class {s : Numbering γ χ} {c : γ} (h : ClassDeclared D c s)
    (d : χ) :
    ClassDeclared D c (genCommon D s d) := by
  obtain ⟨-, -, hothers⟩ :=
    genPermNodes_range (Perm.common d) (common_injective d) (D.common d) s.value
  refine ⟨?_, h.numPerms, h.common⟩
  intro i hi
  exact (hothers _ fun j _ hj => by cases hj).trans (h.value i hi)

private theorem foldl_genClass_declares (l : List γ) {s : Numbering γ χ}
    (hs : ∀ c, s.common c = none)
    {c : γ} (hc : c ∈ l) : ClassDeclared D c (l.foldl (genClass D) s) := by
  induction l generalizing s with
  | nil => cases hc
  | cons c' l ih =>
    rcases List.mem_cons.mp hc with rfl | hc
    · exact List.foldlRecOn l (genClass D) (genClass_declares s hs c)
        fun _ h c' _ => genClass_keeps h c'
    · exact ih (s := genClass D s c') hs hc

private theorem foldl_genCommon_declares (l : List χ) (s : Numbering γ χ) {d : χ} (hd : d ∈ l) :
    CommonDeclared D d (l.foldl (genCommon D) s) := by
  induction l generalizing s with
  | nil => cases hd
  | cons d' l ih =>
    rcases List.mem_cons.mp hd with rfl | hd
    · exact List.foldlRecOn l (genCommon D) (genCommon_declares s d)
        fun _ h d' _ => genCommon_keeps h d'
    · exact ih (genCommon D s d') hd

private theorem declared_class (c : γ) : ClassDeclared D c (declared D) :=
  List.foldlRecOn D.commons (genCommon D)
    (foldl_genClass_declares D.classes (fun _ => rfl) (D.mem_classes c))
    fun _ h d _ => genCommon_keeps_class h d

private theorem declared_common (d : χ) : CommonDeclared D d (declared D) :=
  foldl_genCommon_declares D.commons _ (D.mem_commons d)

end Declaring

section Running

variable {γ χ : Type} [DecidableEq γ] [DecidableEq χ] (D : Declared γ χ)

/-- What the common of a class adds to the values of its own permissions. -/
def shift (s : Numbering γ χ) (c : γ) : UInt32 :=
  match s.common c with
  | none => 0
  | some d => UInt32.ofNat (D.common d)

/-- The class has the numbers with which it was declared: it is no copy, or has no permissions. -/
def Whole (c : γ) : Prop := D.copied c = false ∨ D.own c = 0

def WholeCommon (d : χ) : Prop := D.copiedCommon d = false ∨ D.common d = 0

/-- The values are the declared ones, those of the own permissions of a class shifted once by
the permissions of its common, as far as they are not those of a copy, which has no common. -/
structure Shifted (s : Numbering γ χ) : Prop where
  own : ∀ c, Whole D c → ∀ i < D.own c, s.value (.own c i) = UInt32.ofNat i + shift D s c
  numPerms : ∀ c, Whole D c → s.numPerms c = UInt32.ofNat (D.own c) + shift D s c
  common : ∀ d, WholeCommon D d → CommonDeclared D d s
  whole : ∀ c d, s.common c = some d → Whole D c ∧ WholeCommon D d

/-- A classcommon statement relates no copies with permissions, and a reset that goes through a
class with a common changes no value of the common. -/
def CleanStep (s : Numbering γ χ) : Op γ χ → Prop
  | .classcommon c d => Whole D c ∧ WholeCommon D d
  | .reset c => ∀ d, s.common c = some d → D.common d = 0

/-- All steps of a run are clean. -/
def Clean : Numbering γ χ → List (Op γ χ) → Prop
  | _, [] => True
  | s, op :: ops => CleanStep D s op ∧ Clean (step D s op).2 ops

variable {D}

private theorem start_shifted : Shifted D (start D) := by
  have hnone : ∀ c, (start D).common c = none := fun c => (declared_class c).common
  have hshift : ∀ c, shift D (start D) c = 0 := by
    intro c
    unfold shift
    rw [hnone c]
  refine ⟨?_, ?_, ?_, fun c d hc => by rw [hnone c] at hc; cases hc⟩
  · intro c hwhole i hi
    have hcopied : D.copied c = false := hwhole.resolve_right (by omega)
    rw [hshift, UInt32.add_zero]
    simp only [start, copiedPerm, hcopied, Bool.false_eq_true, if_false]
    exact (declared_class c).value i hi
  · intro c hwhole
    rw [hshift, UInt32.add_zero]
    rcases hwhole with hcopied | hzero
    · simp only [start, hcopied, Bool.false_eq_true, if_false]
      exact (declared_class c).numPerms
    · simp only [start, (declared_class c).numPerms, hzero]
      exact ite_self 0
  · intro d hwhole
    constructor
    · intro i hi
      have hcopied : D.copiedCommon d = false := hwhole.resolve_right (by omega)
      simp only [start, copiedPerm, hcopied, Bool.false_eq_true, if_false]
      exact (declared_common d).value i hi
    · rcases hwhole with hcopied | hzero
      · simp only [start, hcopied, Bool.false_eq_true, if_false]
        exact (declared_common d).numPerms
      · simp only [start, (declared_common d).numPerms, hzero]
        exact ite_self 0

private theorem resolveClasscommon_shifted {s : Numbering γ χ} (hs : Shifted D s) {c : γ} {d : χ}
    (hc : Whole D c) (hd : WholeCommon D d) : Shifted D (resolveClasscommon D s c d).2 := by
  unfold resolveClasscommon
  cases hcommon : s.common c with
  | some _ => exact hs
  | none =>
    dsimp only
    have hzero : shift D s c = 0 := by
      unfold shift
      rw [hcommon]
    refine ⟨?_, ?_, ?_, ?_⟩
    · intro c' hc' i hi
      simp only [symtabMap, shift, mem_ownPerms]
      by_cases heq : c' = c
      · subst heq
        rw [if_pos ⟨i, hi, rfl⟩, Function.update_self, hs.own c' hc' i hi, hzero, UInt32.add_zero,
          (hs.common d hd).numPerms]
      · rw [if_neg, Function.update_of_ne heq]
        · exact hs.own c' hc' i hi
        · intro h
          obtain ⟨j, -, hj⟩ := h
          cases hj
          exact heq rfl
    · intro c' hc'
      simp only [shift]
      by_cases heq : c' = c
      · subst heq
        rw [Function.update_self, Function.update_self, hs.numPerms c' hc', hzero, UInt32.add_zero,
          (hs.common d hd).numPerms]
      · rw [Function.update_of_ne heq, Function.update_of_ne heq]
        exact hs.numPerms c' hc'
    · intro d' hd'
      refine ⟨?_, (hs.common d' hd').numPerms⟩
      intro i hi
      simp only [symtabMap, mem_ownPerms]
      rw [if_neg]
      · exact (hs.common d' hd').value i hi
      · intro h
        obtain ⟨j, -, hj⟩ := h
        cases hj
    · intro c' d' hc'
      by_cases heq : c' = c
      · subst heq
        have hlinked := (Function.update_self c' (some d) s.common).symm.trans hc'
        obtain rfl := Option.some.inj hlinked
        exact ⟨hc, hd⟩
      · have hc' : Function.update s.common c (some d) c' = some d' := hc'
        rw [Function.update_of_ne heq] at hc'
        exact hs.whole c' d' hc'

private theorem resetClass_shifted {s : Numbering γ χ} (hs : Shifted D s) (c : γ)
    (hclean : ∀ d, s.common c = some d → D.common d = 0) : Shifted D (resetClass D s c) := by
  unfold resetClass
  cases hc : s.common c with
  | none => exact hs
  | some d =>
    dsimp only
    have hempty := hclean d hc
    have hcount : s.commonNumPerms d = 0 := by
      rw [(hs.common d (.inr hempty)).numPerms, hempty]
      rfl
    have hvalue : symtabMap (· - s.commonNumPerms d) (commonPerms D d) s.value = s.value := by
      funext p
      simp [symtabMap, hcount]
    have hshift : shift D s c = 0 := by
      unfold shift
      rw [hc]
      simp only [hempty]
      rfl
    refine ⟨?_, ?_, ?_, ?_⟩
    · intro c' hc' i hi
      rw [hvalue]
      simp only [shift]
      by_cases heq : c' = c
      · subst heq
        rw [Function.update_self, hs.own c' hc' i hi, hshift]
      · rw [Function.update_of_ne heq]
        exact hs.own c' hc' i hi
    · intro c' hc'
      simp only [shift]
      by_cases heq : c' = c
      · subst heq
        rw [Function.update_self, Function.update_self, hs.numPerms c' hc', hshift, hcount,
          UInt32.sub_zero]
      · rw [Function.update_of_ne heq, Function.update_of_ne heq]
        exact hs.numPerms c' hc'
    · intro d' hd'
      exact ⟨by rw [hvalue]; exact (hs.common d' hd').value, (hs.common d' hd').numPerms⟩
    · intro c' d' hc'
      by_cases heq : c' = c
      · subst heq
        have hunlinked := (Function.update_self c' none s.common).symm.trans hc'
        cases hunlinked
      · have hc' : Function.update s.common c none c' = some d' := hc'
        rw [Function.update_of_ne heq] at hc'
        exact hs.whole c' d' hc'

private theorem step_shifted {s : Numbering γ χ} (hs : Shifted D s) (op : Op γ χ)
    (hclean : CleanStep D s op) : Shifted D (step D s op).2 := by
  cases op with
  | classcommon c d => exact resolveClasscommon_shifted hs hclean.1 hclean.2
  | reset c => exact resetClass_shifted hs c hclean

/-- Clean runs keep the values shifted once. -/
private theorem run_shifted {s : Numbering γ χ} (hs : Shifted D s) (ops : List (Op γ χ))
    (hclean : Clean D s ops) : Shifted D (run D s ops).2 := by
  induction ops generalizing s with
  | nil => exact hs
  | cons op ops ih =>
    obtain ⟨hstep, hrest⟩ := hclean
    have hs' := step_shifted hs op hstep
    unfold run
    split
    · rename_i s' heq
      rw [heq] at hs' hrest
      exact ih hs' hrest
    · exact hs'

end Running

section Values

variable {γ χ : Type} {D : Declared γ χ} {s : Numbering γ χ}

private theorem toNat_ofNat_add {m n : Nat} (h : m + n < 2 ^ 32) :
    (UInt32.ofNat m + UInt32.ofNat n).toNat = m + n := by
  rw [← UInt32.ofNat_add, UInt32.toNat_ofNat_of_lt' h]

private theorem shift_eq {c : γ} {d : χ} (hc : s.common c = some d) :
    shift D s c = UInt32.ofNat (D.common d) := by
  unfold shift
  rw [hc]

private theorem CommonDeclared.value_toNat {d : χ} (h : CommonDeclared D d s)
    (hsmall : D.common d < 2 ^ 32) {i : Nat} (hi : i < D.common d) :
    (s.value (.common d i)).toNat = i := by
  rw [h.value i hi]
  exact UInt32.toNat_ofNat_of_lt' (show i < 2 ^ 32 by omega)

private theorem Shifted.value_toNat (hs : Shifted D s) {c : γ} {d : χ} (hc : s.common c = some d)
    (hsmall : D.own c + D.common d < 2 ^ 32) {i : Nat} (hi : i < D.own c) :
    (s.value (.own c i)).toNat = i + D.common d := by
  rw [hs.own c (hs.whole c d hc).1 i hi, shift_eq hc]
  exact toNat_ofNat_add (by omega)

end Values

section Numbered

variable {γ χ : Type} [DecidableEq γ] [DecidableEq χ] (D : Declared γ χ)

/-- A class with a common is numbered as it should be. -/
structure NumberedOnce (s : Numbering γ χ) (c : γ) (d : χ) : Prop where
  common : ∀ p ∈ commonPerms D d, s.value p = (declared D).value p
  own : ∀ p ∈ ownPerms D c, s.value p = (declared D).value p + (declared D).commonNumPerms d
  numPerms : s.numPerms c = UInt32.ofNat (D.own c) + (declared D).commonNumPerms d
  bijective : Set.BijOn (fun p => (s.value p).toNat) {p | p ∈ ownPerms D c ++ commonPerms D d}
    {i | i < (s.numPerms c).toNat}

/-- All classes that have a common are. -/
def Numbered (s : Numbering γ χ) : Prop :=
  ∀ c d, s.common c = some d → NumberedOnce D s c d

variable {D}

/-- The common takes the values from zero on, the class those that follow. -/
private theorem Shifted.bijective {s : Numbering γ χ} (hs : Shifted D s) {c : γ} {d : χ}
    (hc : s.common c = some d) (hsmall : D.own c + D.common d < 2 ^ 32) :
    Set.BijOn (fun p => (s.value p).toNat) {p | p ∈ ownPerms D c ++ commonPerms D d}
      {i | i < (s.numPerms c).toNat} := by
  have hcommon : ∀ i < D.common d, (s.value (.common d i)).toNat = i :=
    fun i hi => (hs.common d (hs.whole c d hc).2).value_toNat (by omega) hi
  have hown : ∀ i < D.own c, (s.value (.own c i)).toNat = i + D.common d :=
    fun i hi => hs.value_toNat hc hsmall hi
  have hnum : (s.numPerms c).toNat = D.own c + D.common d := by
    rw [hs.numPerms c (hs.whole c d hc).1, shift_eq hc]
    exact toNat_ofNat_add hsmall
  rw [hnum]
  refine ⟨?_, ?_, ?_⟩
  · intro p hp
    show (s.value p).toNat < _
    rcases List.mem_append.mp hp with hp | hp
    · obtain ⟨i, hi, rfl⟩ := mem_ownPerms.mp hp
      rw [hown i hi]
      omega
    · obtain ⟨i, hi, rfl⟩ := mem_commonPerms.mp hp
      rw [hcommon i hi]
      omega
  · intro p hp q hq (heq : (s.value p).toNat = (s.value q).toNat)
    rcases List.mem_append.mp hp with hp | hp <;> rcases List.mem_append.mp hq with hq | hq
    · obtain ⟨i, hi, rfl⟩ := mem_ownPerms.mp hp
      obtain ⟨j, hj, rfl⟩ := mem_ownPerms.mp hq
      rw [hown i hi, hown j hj] at heq
      rw [show i = j by omega]
    · obtain ⟨i, hi, rfl⟩ := mem_ownPerms.mp hp
      obtain ⟨j, hj, rfl⟩ := mem_commonPerms.mp hq
      rw [hown i hi, hcommon j hj] at heq
      omega
    · obtain ⟨i, hi, rfl⟩ := mem_commonPerms.mp hp
      obtain ⟨j, hj, rfl⟩ := mem_ownPerms.mp hq
      rw [hcommon i hi, hown j hj] at heq
      omega
    · obtain ⟨i, hi, rfl⟩ := mem_commonPerms.mp hp
      obtain ⟨j, hj, rfl⟩ := mem_commonPerms.mp hq
      rw [hcommon i hi, hcommon j hj] at heq
      rw [heq]
  · intro n (hn : n < _)
    by_cases hlt : n < D.common d
    · exact ⟨.common d n, List.mem_append_right _ (mem_commonPerms.mpr ⟨n, hlt, rfl⟩),
        hcommon n hlt⟩
    · refine ⟨.own c (n - D.common d), List.mem_append_left _
        (mem_ownPerms.mpr ⟨n - D.common d, by omega, rfl⟩), ?_⟩
      show (s.value _).toNat = n
      rw [hown _ (by omega)]
      omega

private theorem Shifted.numberedOnce {s : Numbering γ χ} (hs : Shifted D s) {c : γ} {d : χ}
    (hc : s.common c = some d) (hsmall : D.own c + D.common d < 2 ^ 32) :
    NumberedOnce D s c d where
  common := by
    intro p hp
    obtain ⟨i, hi, rfl⟩ := mem_commonPerms.mp hp
    rw [(hs.common d (hs.whole c d hc).2).value i hi, (declared_common d).value i hi]
  own := by
    intro p hp
    obtain ⟨i, hi, rfl⟩ := mem_ownPerms.mp hp
    rw [hs.own c (hs.whole c d hc).1 i hi, (declared_class c).value i hi, shift_eq hc,
      (declared_common d).numPerms]
  numPerms := by
    rw [hs.numPerms c (hs.whole c d hc).1, shift_eq hc, (declared_common d).numPerms]
  bijective := hs.bijective hc hsmall

/-- Where classcommon statements relate no copies with permissions, and resets go through no class
that has a common with permissions, the numbers are right in the end. -/
theorem run_numbered (hsmall : ∀ c d, D.own c + D.common d < 2 ^ 32) (ops : List (Op γ χ))
    (hclean : Clean D (start D) ops) : Numbered D (run D (start D) ops).2 :=
  fun c d hc => (run_shifted start_shifted ops hclean).numberedOnce hc (hsmall c d)

end Numbered

section Reset

/-- A class with the permission `open` and a common with the permission `read`. -/
def file : Declared Unit Unit where
  classes := [()]
  commons := [()]
  own _ := 1
  common _ := 1
  copied _ := false
  copiedCommon _ := false
  mem_classes _ := List.mem_cons_self
  mem_commons _ := List.mem_cons_self

/-- A first round that ends before the classcommon statement, and a second one. -/
theorem run_numbered_early :
    Numbered file (run file (start file) (rounds file [[], [((), ())]])).2 :=
  run_numbered (fun _ _ => (by decide : 1 + 1 < 2 ^ 32)) (rounds file [[], [((), ())]])
    ⟨fun _ h => Option.some_ne_none _ (h.symm.trans (declared_class (D := file) ()).common) |>.elim,
      ⟨Or.inl rfl, Or.inl rfl⟩, trivial⟩

/-- A first round that ends after the classcommon statement, and a second one. -/
theorem run_late_not_numbered :
    (run file (start file) (rounds file [[((), ())], [((), ())]])).1 = .ok ∧
      ¬ Numbered file (run file (start file) (rounds file [[((), ())], [((), ())]])).2 := by
  refine ⟨by decide, ?_⟩
  intro h
  have hcommon := (h () () (by decide)).common (.common () 0) (by decide)
  exact absurd hcommon (by decide)

end Reset

end Cil.Resolve.PermissionNumbers
