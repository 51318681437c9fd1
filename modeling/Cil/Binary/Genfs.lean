/- Cil/Binary/Genfs
   digest: The lists of file systems and of their labels in a binary policy. -/

import Cil.Basic
import Cil.Library.Consecutive
import Cil.Post.ComparatorsExact

set_option autoImplicit false
set_option relaxedAutoImplicit false

namespace Cil.Binary.Genfs

open Library
open Library.Comparator (Sorted)
open Post.Comparators (Genfscon genfsconCompare strcmp total codes)

/-- `cil_genfscon`. -/
structure Statement (γ : Type) extends Genfscon where
  context : γ
  deriving DecidableEq, Repr

/-- `ocontext_t`, which is all zero at first. -/
structure Ocontext (χ : Type) where
  name : Option Text
  context : Option χ
  deriving DecidableEq, Repr

/-- `genfs_t`. -/
structure GenfsNode where
  fstype : Text
  head : Nat
  deriving DecidableEq, Repr

/-- The objects that were allocated, `pdb->genfs`, and the variables of the loop. -/
structure Memory (χ : Type) where
  genfs : Heap GenfsNode
  ocons : Heap (Ocontext χ)
  first : Option Nat
  genfsTail : Option Nat
  oconTail : Option Nat

section Code

variable {γ χ : Type}

/-- A new policy has no genfs entries. -/
def Memory.init : Memory χ where
  genfs := ⟨fun _ => ⟨[], 0⟩, fun _ => none, 0⟩
  ocons := ⟨fun _ => ⟨none, none⟩, fun _ => none, 0⟩
  first := none
  genfsTail := none
  oconTail := none

/-- The new label goes behind the last one of its file system, or a file system is added;
`none` where a null pointer is followed. -/
def linkOcon (m : Memory χ) (fsStr : Text) (newOcon : Nat) : Option (Memory χ) :=
  match m.genfsTail with
  | some tail =>
      if strcmp (m.genfs.cells tail).fstype fsStr = 0 then
        m.oconTail.map fun oconTail => { m with ocons := m.ocons.linked oconTail newOcon }
      else
        some { m with
          genfs := (m.genfs.allocated ⟨fsStr, newOcon⟩).linked tail m.genfs.size
          genfsTail := some m.genfs.size }
  | none =>
      some { m with
        genfs := m.genfs.allocated ⟨fsStr, newOcon⟩
        first := some m.genfs.size
        genfsTail := some m.genfs.size }

/-- A turn of the loop of `cil_genfscon_to_policydb`. -/
def genfsconTurn (toSepolContext : γ → Option χ) (m : Memory χ) (s : Statement γ) :
    Option (Rc × Memory χ) :=
  let newOcon := m.ocons.size
  match linkOcon { m with ocons := m.ocons.allocated ⟨none, none⟩ } s.fsStr newOcon with
  | none => none
  | some m =>
      let m := { m with
        ocons := m.ocons.stored newOcon ⟨some s.pathStr, none⟩
        oconTail := some newOcon }
      match toSepolContext s.context with
      | none => some (.err, m)
      | some context =>
          some (.ok, { m with ocons := m.ocons.stored newOcon ⟨some s.pathStr, some context⟩ })

def genfsconLoop (toSepolContext : γ → Option χ) :
    Memory χ → List (Statement γ) → Option (Rc × Memory χ)
  | m, [] => some (.ok, m)
  | m, s :: rest =>
      match genfsconTurn toSepolContext m s with
      | none => none
      | some (.ok, m) => genfsconLoop toSepolContext m rest
      | some (rc, m) => some (rc, m)

/-- `cil_genfscon_to_policydb`. -/
def genfsconToPolicydb (toSepolContext : γ → Option χ) (genfscons : List (Statement γ)) :
    Option (Rc × Memory χ) :=
  genfsconLoop toSepolContext Memory.init genfscons

end Code

section Meaning

variable {γ χ : Type} (m : Memory χ)

/-- The file systems of the policy, with their labels. -/
def Memory.read : List (Text × List (Ocontext χ)) :=
  match m.first with
  | none => []
  | some a =>
      (m.genfs.contents m.genfs.size a).map fun g =>
        (g.fstype, m.ocons.contents m.ocons.size g.head)

/-- Links lead from `pdb->genfs` to the file system. -/
def ReachesGenfs (a : Nat) : Prop := ∃ first, m.first = some first ∧ m.genfs.Reaches first a

/-- Links lead from the head of a file system to the label. -/
def ReachesOcon (b : Nat) : Prop :=
  ∃ a, ReachesGenfs m a ∧ m.ocons.Reaches (m.genfs.cells a).head b

/-- The label that a statement stands for. -/
def Statement.ocon (toSepolContext : γ → Option χ) (s : Statement γ) : Ocontext χ :=
  ⟨some s.pathStr, toSepolContext s.context⟩

/-- The labels of each file system are together, each statement has its label, and nothing that
was allocated is lost. -/
structure Grouped (toSepolContext : γ → Option χ) (genfscons : List (Statement γ)) : Prop where
  names : (m.read.map Prod.fst).Nodup
  once : (m.read.flatMap fun g => g.2.map (Prod.mk g.1)).Perm
    (genfscons.map fun s => (s.fsStr, s.ocon toSepolContext))
  byPath : ∀ g ∈ m.read, g.2.Pairwise fun a b =>
    ∀ p q, a.name = some p → b.name = some q → strcmp p q ≤ 0
  genfs : ∀ a < m.genfs.size, ReachesGenfs m a
  ocons : ∀ b < m.ocons.size, ReachesOcon m b

end Meaning

section Layout

variable {γ χ : Type}

/-- The file systems of groups of labels that lie one behind the other. -/
def genfsNodes : Nat → List (Text × List (Ocontext χ)) → List GenfsNode
  | _, [] => []
  | a, (fs, es) :: rest => ⟨fs, a⟩ :: genfsNodes (a + es.length) rest

attribute [simp] genfsNodes

abbrev labels (groups : List (Text × List (Ocontext χ))) : List (List (Ocontext χ)) :=
  groups.map Prod.snd

private theorem length_genfsNodes (a : Nat) (groups : List (Text × List (Ocontext χ))) :
    (genfsNodes a groups).length = groups.length := by
  induction groups generalizing a with
  | nil => rfl
  | cons g rest ih =>
      obtain ⟨fs, es⟩ := g
      rw [genfsNodes, List.length_cons, List.length_cons, ih]

private theorem genfsNodes_snoc (a : Nat) (groups : List (Text × List (Ocontext χ))) (fs : Text)
    (es : List (Ocontext χ)) : genfsNodes a (groups ++ [(fs, es)]) =
      genfsNodes a groups ++ [⟨fs, a + Heap.total (labels groups)⟩] := by
  induction groups generalizing a with
  | nil => simp [Heap.total]
  | cons g rest ih =>
      obtain ⟨fs', es'⟩ := g
      have htotal : a + es'.length + Heap.total (labels rest) =
          a + Heap.total (labels ((fs', es') :: rest)) := by
        simp [Heap.total]
        omega
      rw [List.cons_append, genfsNodes, genfsNodes, ih, htotal, List.cons_append]

/-- The objects hold the groups, and the variables of the loop point to the last ones. -/
structure Laid (m : Memory χ) (groups : List (Text × List (Ocontext χ))) : Prop where
  genfs : m.genfs.Run 0 (genfsNodes 0 groups)
  genfs_size : m.genfs.size = groups.length
  ocons : m.ocons.Runs 0 (labels groups)
  ocons_size : m.ocons.size = Heap.total (labels groups)
  nonempty : ∀ g ∈ groups, g.2 ≠ []
  first : m.first = if groups = [] then none else some 0
  genfsTail : m.genfsTail = if groups = [] then none else some (groups.length - 1)
  oconTail : m.oconTail = if groups = [] then none else some (m.ocons.size - 1)

theorem laid_init : Laid (Memory.init : Memory χ) [] where
  genfs := Heap.Run.nil _ _
  genfs_size := rfl
  ocons := trivial
  ocons_size := rfl
  nonempty _ hg := (List.not_mem_nil hg).elim
  first := rfl
  genfsTail := rfl
  oconTail := rfl

/-- Where the label of a statement goes: to the end of `es`, which comes behind the groups `gs`. -/
inductive Place (groups : List (Text × List (Ocontext χ))) (fs : Text) :
    List (Text × List (Ocontext χ)) → List (Ocontext χ) → Prop
  | behind {gs : List (Text × List (Ocontext χ))} {es : List (Ocontext χ)}
      (hlast : groups = gs ++ [(fs, es)]) : Place groups fs gs es
  | new (hlast : ∀ gs fs' es, groups = gs ++ [(fs', es)] → fs' ≠ fs) : Place groups fs groups []

theorem strcmp_eq_zero {a b : Text} : strcmp a b = 0 ↔ a = b := by
  rw [← Comparator.compare_zero_eq, Post.Comparators.strcmp_compare]
  exact Post.Comparators.codes_compare_eq

private theorem labels_snoc (gs : List (Text × List (Ocontext χ))) (fs : Text)
    (es : List (Ocontext χ)) : labels (gs ++ [(fs, es)]) = labels gs ++ [es] := by
  rw [labels, List.map_append]
  rfl

private theorem total_labels_snoc (gs : List (Text × List (Ocontext χ))) (fs : Text)
    (es : List (Ocontext χ)) :
    Heap.total (labels (gs ++ [(fs, es)])) = Heap.total (labels gs) + es.length := by
  rw [labels_snoc]
  exact Heap.total_append _ _

private theorem nonempty_snoc {gs : List (Text × List (Ocontext χ))} {fs : Text}
    {es : List (Ocontext χ)} (h : ∀ g ∈ gs, g.2 ≠ []) (e : Ocontext χ) :
    ∀ g ∈ gs ++ [(fs, es ++ [e])], g.2 ≠ [] := by
  intro g hg
  rcases List.mem_append.mp hg with hg | hg
  · exact h g hg
  · rw [List.mem_singleton.mp hg]
    simp

/-- The labels with one of a new file system. -/
private theorem Laid.ocons_new {m : Memory χ} {groups : List (Text × List (Ocontext χ))}
    (h : Laid m groups) (fs : Text) (e : Ocontext χ) :
    (m.ocons.allocated e).Runs 0 (labels (groups ++ [(fs, [e])])) := by
  have hagree := Heap.agree_allocated m.ocons e
  have hsize := h.ocons_size
  rw [labels_snoc]
  refine Heap.runs_append.mpr ⟨h.ocons.congr (hagree.mono (Nat.le_refl _) (by omega)), ?_⟩
  rw [Nat.zero_add, ← hsize]
  exact Heap.run_allocated m.ocons e

/-- A file system with a first label is added. -/
theorem Laid.added {m m' : Memory χ} {groups : List (Text × List (Ocontext χ))}
    (h : Laid m groups) {fs : Text} {e : Ocontext χ} (hocons : m'.ocons = m.ocons.allocated e)
    (hgenfs : m'.genfs.Run 0 (genfsNodes 0 groups ++ [⟨fs, m.ocons.size⟩]))
    (hsize : m'.genfs.size = m.genfs.size + 1) (hfirst : m'.first = some 0)
    (hgenfsTail : m'.genfsTail = some m.genfs.size) (hoconTail : m'.oconTail = some m.ocons.size) :
    Laid m' (groups ++ [(fs, [] ++ [e])]) := by
  have hne : groups ++ [(fs, [e])] ≠ [] := by simp
  have hgenfsSize := h.genfs_size
  have hoconsSize := h.ocons_size
  have hoconsSize' : m'.ocons.size = m.ocons.size + 1 := by
    rw [hocons]
    rfl
  rw [List.nil_append]
  constructor
  · rw [genfsNodes_snoc, Nat.zero_add, ← hoconsSize]
    exact hgenfs
  · rw [hsize, hgenfsSize, List.length_append, List.length_singleton]
  · rw [hocons]
    exact h.ocons_new fs e
  · rw [hoconsSize', hoconsSize, total_labels_snoc, List.length_singleton]
  · have hnonempty : ∀ g ∈ groups ++ [(fs, [] ++ [e])], g.2 ≠ [] := nonempty_snoc h.nonempty e
    exact hnonempty
  · rw [hfirst, if_neg hne]
  · rw [hgenfsTail, if_neg hne, hgenfsSize, List.length_append, List.length_singleton,
      Nat.add_sub_cancel]
  · rw [hoconTail, if_neg hne, hoconsSize', Nat.add_sub_cancel]

/-- A label is added to the last file system. -/
theorem Laid.behind {m : Memory χ} {gs : List (Text × List (Ocontext χ))} {fs : Text}
    {es : List (Ocontext χ)} (h : Laid m (gs ++ [(fs, es)])) (e : Ocontext χ) :
    Laid { m with
        ocons := (m.ocons.allocated e).linked (m.ocons.size - 1) m.ocons.size
        oconTail := some m.ocons.size } (gs ++ [(fs, es ++ [e])]) := by
  have hne : gs ++ [(fs, es)] ≠ [] := by simp
  have hne' : gs ++ [(fs, es ++ [e])] ≠ [] := by simp
  have hes : es ≠ [] :=
    h.nonempty (fs, es) (List.mem_append_right _ (List.mem_singleton_self _))
  have hpos := List.length_pos_iff.mpr hes
  have htotal := h.ocons_size
  rw [total_labels_snoc] at htotal
  have hocons := h.ocons
  rw [labels_snoc] at hocons
  obtain ⟨hruns, hrun⟩ := Heap.runs_append.mp hocons
  rw [Nat.zero_add] at hrun
  have hagree : Heap.Agree 0 (0 + Heap.total (labels gs)) m.ocons
      ((m.ocons.allocated e).linked (m.ocons.size - 1) m.ocons.size) :=
    ((Heap.agree_allocated m.ocons e).mono (Nat.le_refl _) (by omega)).trans
      (Heap.agree_linked _ _ (Or.inr (by omega)))
  constructor
  · have hgenfs := h.genfs
    rw [genfsNodes_snoc] at hgenfs ⊢
    exact hgenfs
  · have hsize := h.genfs_size
    rw [List.length_append, List.length_singleton] at hsize ⊢
    exact hsize
  · rw [labels_snoc]
    refine Heap.runs_append.mpr ⟨hruns.congr hagree, ?_⟩
    rw [Nat.zero_add]
    have hsnoc := hrun.snoc hes htotal e
    rw [← htotal] at hsnoc
    exact hsnoc
  · show m.ocons.size + 1 = _
    rw [total_labels_snoc, List.length_append, List.length_singleton]
    omega
  · exact nonempty_snoc (fun g hg => h.nonempty g (List.mem_append_left _ hg)) e
  · have hfirst := h.first
    rw [if_neg hne] at hfirst
    rw [if_neg hne']
    exact hfirst
  · have htail := h.genfsTail
    rw [if_neg hne] at htail
    rw [if_neg hne', htail]
    simp only [List.length_append, List.length_singleton]
  · rw [if_neg hne']
    rfl

/-- The variables of the loop point to the last file system and its last label. -/
theorem Laid.tails {m : Memory χ} {gs : List (Text × List (Ocontext χ))} {fs : Text}
    {es : List (Ocontext χ)} (h : Laid m (gs ++ [(fs, es)])) :
    m.genfsTail = some gs.length ∧ (m.genfs.cells gs.length).fstype = fs ∧
      m.oconTail = some (m.ocons.size - 1) := by
  have hne : gs ++ [(fs, es)] ≠ [] := by simp
  have hget : (genfsNodes 0 (gs ++ [(fs, es)]))[gs.length]? =
      some ⟨fs, 0 + Heap.total (labels gs)⟩ := by
    rw [genfsNodes_snoc, List.getElem?_append_right (by rw [length_genfsNodes]),
      length_genfsNodes, Nat.sub_self]
    rfl
  have hread := h.genfs.cells gs.length _ hget
  rw [Nat.zero_add] at hread
  refine ⟨?_, ?_, ?_⟩
  · rw [h.genfsTail, if_neg hne, List.length_append, List.length_singleton, Nat.add_sub_cancel]
  · rw [hread]
  · rw [h.oconTail, if_neg hne]

private theorem linkOcon_laid {m : Memory χ} {groups : List (Text × List (Ocontext χ))}
    (h : Laid m groups) (fs : Text) (e : Ocontext χ) :
    ∃ gs es m', Place groups fs gs es ∧
      linkOcon { m with ocons := m.ocons.allocated e } fs m.ocons.size = some m' ∧
      m'.ocons.size = m.ocons.size + 1 ∧
      Laid { m' with oconTail := some m.ocons.size } (gs ++ [(fs, es ++ [e])]) := by
  have hgenfsSize := h.genfs_size
  rcases List.eq_nil_or_concat groups with hnil | ⟨gs, ⟨fs', es⟩, hconcat⟩
  · have htail : m.genfsTail = none := by rw [h.genfsTail, if_pos hnil]
    have hzero : m.genfs.size = 0 := by rw [hgenfsSize, hnil, List.length_nil]
    refine ⟨groups, [], { m with
        ocons := m.ocons.allocated e
        genfs := m.genfs.allocated ⟨fs, m.ocons.size⟩
        first := some m.genfs.size
        genfsTail := some m.genfs.size }, .new fun gs fs' es heq => ?_, ?_, rfl,
      h.added rfl ?_ rfl ?_ rfl rfl⟩
    · rw [hnil] at heq
      simp at heq
    · simp only [linkOcon, htail]
    · have hrun := Heap.run_allocated m.genfs ⟨fs, m.ocons.size⟩
      rw [hzero] at hrun
      rw [hnil]
      exact hrun
    · show some m.genfs.size = some 0
      rw [hzero]
  · rw [List.concat_eq_append] at hconcat
    rw [hconcat] at h hgenfsSize ⊢
    obtain ⟨htail, hcell, hoconTail⟩ := h.tails
    by_cases hsame : strcmp fs' fs = 0
    · have hfs : fs' = fs := strcmp_eq_zero.mp hsame
      rw [hfs] at h hcell hsame ⊢
      refine ⟨gs, es, { m with
        ocons := (m.ocons.allocated e).linked (m.ocons.size - 1) m.ocons.size }, .behind rfl,
        ?_, rfl, h.behind e⟩
      simp only [linkOcon, htail, hcell, hsame, hoconTail, if_true, Option.map_some]
    · refine ⟨gs ++ [(fs', es)], [], { m with
          ocons := m.ocons.allocated e
          genfs := (m.genfs.allocated ⟨fs, m.ocons.size⟩).linked gs.length m.genfs.size
          genfsTail := some m.genfs.size }, .new fun gs' fs'' es' heq => ?_, ?_, rfl,
        h.added rfl ?_ rfl ?_ rfl rfl⟩
      · have hlast := (List.cons.inj (List.append_inj_right' heq rfl)).1
        have hfs : fs' = fs'' := congrArg Prod.fst hlast
        rw [← hfs]
        exact fun hfs => hsame (strcmp_eq_zero.mpr hfs)
      · simp only [linkOcon, htail, hcell, hsame, if_false]
      · have hlength : (genfsNodes 0 (gs ++ [(fs', es)])).length = gs.length + 1 := by
          rw [length_genfsNodes, List.length_append, List.length_singleton]
        have hnodes : genfsNodes 0 (gs ++ [(fs', es)]) ≠ [] :=
          List.length_pos_iff.mp (by omega)
        have hsnoc := h.genfs.snoc hnodes
          (by rw [hgenfsSize, length_genfsNodes, Nat.zero_add]) ⟨fs, m.ocons.size⟩
        rw [Nat.zero_add, hlength, Nat.add_sub_cancel] at hsnoc
        exact hsnoc
      · show m.first = some 0
        rw [h.first, if_neg (by simp)]

theorem Laid.store {m : Memory χ} {gs : List (Text × List (Ocontext χ))} {fs : Text}
    {es : List (Ocontext χ)} {e : Ocontext χ} (h : Laid m (gs ++ [(fs, es ++ [e])]))
    (e' : Ocontext χ) :
    Laid { m with ocons := m.ocons.stored (m.ocons.size - 1) e' }
      (gs ++ [(fs, es ++ [e'])]) := by
  have hne (x : Ocontext χ) : gs ++ [(fs, es ++ [x])] ≠ [] := by simp
  have htotal := h.ocons_size
  rw [total_labels_snoc, List.length_append, List.length_singleton] at htotal
  have hocons := h.ocons
  rw [labels_snoc] at hocons
  obtain ⟨hruns, hrun⟩ := Heap.runs_append.mp hocons
  have hcell : m.ocons.size - 1 = 0 + Heap.total (labels gs) + es.length := by omega
  constructor
  · have hgenfs := h.genfs
    rw [genfsNodes_snoc] at hgenfs ⊢
    exact hgenfs
  · have hsize := h.genfs_size
    rw [List.length_append, List.length_singleton] at hsize ⊢
    exact hsize
  · rw [labels_snoc]
    refine Heap.runs_append.mpr ⟨hruns.congr fun b hlo hhi => ⟨?_, rfl⟩, ?_⟩
    · exact Function.update_of_ne (by omega) _ _
    · rw [hcell]
      exact hrun.store e'
  · show m.ocons.size = _
    rw [total_labels_snoc, List.length_append, List.length_singleton]
    exact htotal
  · exact nonempty_snoc (fun g hg => h.nonempty g (List.mem_append_left _ hg)) e'
  · have hfirst := h.first
    rw [if_neg (hne e)] at hfirst
    rw [if_neg (hne e')]
    exact hfirst
  · have htail := h.genfsTail
    rw [if_neg (hne e)] at htail
    rw [if_neg (hne e'), htail]
    simp only [List.length_append, List.length_singleton]
  · have htail := h.oconTail
    rw [if_neg (hne e)] at htail
    rw [if_neg (hne e')]
    exact htail

/-- A turn adds the label of its statement to the end of a group, and fails if its context does
not convert. -/
private theorem genfsconTurn_laid {γ : Type} (toSepolContext : γ → Option χ) {m : Memory χ}
    {groups : List (Text × List (Ocontext χ))} (h : Laid m groups) (s : Statement γ) :
    ∃ gs es m', Place groups s.fsStr gs es ∧
      genfsconTurn toSepolContext m s =
        some (if (toSepolContext s.context).isSome then .ok else .err, m') ∧
      Laid m' (gs ++ [(s.fsStr, es ++ [s.ocon toSepolContext])]) := by
  obtain ⟨gs, es, m₁, hplace, hlink, hsize, hlaid⟩ := linkOcon_laid h s.fsStr ⟨none, none⟩
  have hlast : m₁.ocons.size - 1 = m.ocons.size := by omega
  have hnamed := hlaid.store ⟨some s.pathStr, none⟩
  cases hcontext : toSepolContext s.context with
  | none =>
      have hturn : genfsconTurn toSepolContext m s = some (.err, { m₁ with
          ocons := m₁.ocons.stored (m₁.ocons.size - 1) ⟨some s.pathStr, none⟩
          oconTail := some m.ocons.size }) := by
        simp only [genfsconTurn, hlink, hcontext, hlast]
      refine ⟨gs, es, _, hplace, hturn, ?_⟩
      rw [Statement.ocon, hcontext]
      exact hnamed
  | some context =>
      have hfilled := hnamed.store ⟨some s.pathStr, some context⟩
      have hlast' : (m₁.ocons.stored m.ocons.size ⟨some s.pathStr, none⟩).size - 1 =
          m.ocons.size := hlast
      have hturn : genfsconTurn toSepolContext m s = some (.ok, { m₁ with
          ocons := (m₁.ocons.stored m.ocons.size ⟨some s.pathStr, none⟩).stored m.ocons.size
            ⟨some s.pathStr, some context⟩
          oconTail := some m.ocons.size }) := by
        simp only [genfsconTurn, hlink, hcontext]
      refine ⟨gs, es, _, hplace, hturn, ?_⟩
      rw [Statement.ocon, hcontext]
      simp only [hlast, hlast'] at hfilled
      exact hfilled

end Layout

section Reading

variable {γ χ : Type} {m : Memory χ} {groups : List (Text × List (Ocontext χ))}

private theorem read_nodes (h : Heap (Ocontext χ)) (groups : List (Text × List (Ocontext χ)))
    {a : Nat} (hruns : h.Runs a (labels groups)) (hnonempty : ∀ g ∈ groups, g.2 ≠ [])
    (hsize : a + Heap.total (labels groups) ≤ h.size) :
    ((genfsNodes a groups).map fun g => (g.fstype, h.contents h.size g.head)) = groups := by
  induction groups generalizing a with
  | nil => rfl
  | cons g rest ih =>
      obtain ⟨fs, es⟩ := g
      have hrun : h.Run a es := hruns.1
      have hrest : h.Runs (a + es.length) (labels rest) := hruns.2
      have htotal : Heap.total (labels ((fs, es) :: rest)) =
          es.length + Heap.total (labels rest) := by
        simp [Heap.total]
      rw [htotal] at hsize
      have hes := hnonempty (fs, es) List.mem_cons_self
      have hle : es.length ≤ h.size := by omega
      have hhead : h.contents h.size a = es := hrun.contents_eq hes hle
      have htail := ih hrest (fun g hg => hnonempty g (List.mem_cons_of_mem _ hg)) (by omega)
      rw [genfsNodes, List.map_cons, hhead, htail]

/-- The policy is read as the groups. -/
theorem Laid.read (h : Laid m groups) : m.read = groups := by
  have hfirst := h.first
  by_cases hnil : groups = []
  · rw [if_pos hnil] at hfirst
    simp only [Memory.read, hfirst, hnil]
  · rw [if_neg hnil] at hfirst
    have hnodes : genfsNodes 0 groups ≠ [] := by
      have hlength := length_genfsNodes 0 groups
      have hpos := List.length_pos_iff.mpr hnil
      exact List.length_pos_iff.mp (by omega)
    have hcontents : m.genfs.contents m.genfs.size 0 = genfsNodes 0 groups :=
      h.genfs.contents_eq hnodes (by rw [length_genfsNodes, h.genfs_size])
    simp only [Memory.read, hfirst, hcontents]
    exact read_nodes m.ocons groups h.ocons h.nonempty (by rw [Nat.zero_add, h.ocons_size])

private theorem reaches_label (h : Heap (Ocontext χ)) (groups : List (Text × List (Ocontext χ)))
    {a b : Nat} (hruns : h.Runs a (labels groups)) (hlo : a ≤ b)
    (hhi : b < a + Heap.total (labels groups)) :
    ∃ (k : Nat) (g : GenfsNode), (genfsNodes a groups)[k]? = some g ∧ h.Reaches g.head b := by
  induction groups generalizing a with
  | nil =>
      have hzero : Heap.total (labels ([] : List (Text × List (Ocontext χ)))) = 0 := rfl
      omega
  | cons g rest ih =>
      obtain ⟨fs, es⟩ := g
      have hrun : h.Run a es := hruns.1
      have hrest : h.Runs (a + es.length) (labels rest) := hruns.2
      have htotal : Heap.total (labels ((fs, es) :: rest)) =
          es.length + Heap.total (labels rest) := by
        simp [Heap.total]
      by_cases hhere : b < a + es.length
      · exact ⟨0, ⟨fs, a⟩, rfl, hrun.reaches hlo hhere⟩
      · obtain ⟨k, g, hget, hreaches⟩ := ih hrest (by omega) (by omega)
        exact ⟨k + 1, g, hget, hreaches⟩

private theorem Laid.reachesGenfs (h : Laid m groups) {a : Nat} (ha : a < m.genfs.size) :
    ReachesGenfs m a := by
  have hsize := h.genfs_size
  have hnil : groups ≠ [] := by
    apply List.length_pos_iff.mp
    omega
  refine ⟨0, by rw [h.first, if_neg hnil], h.genfs.reaches (Nat.zero_le _) ?_⟩
  rw [length_genfsNodes]
  omega

private theorem Laid.reachesOcon (h : Laid m groups) {b : Nat} (hb : b < m.ocons.size) :
    ReachesOcon m b := by
  have hsize := h.ocons_size
  obtain ⟨k, g, hget, hreaches⟩ :=
    reaches_label m.ocons groups h.ocons (Nat.zero_le b) (by omega)
  have hk := (List.getElem?_eq_some_iff.mp hget).1
  rw [length_genfsNodes, ← h.genfs_size] at hk
  have hcell := h.genfs.cells k g hget
  rw [Nat.zero_add] at hcell
  refine ⟨k, h.reachesGenfs hk, ?_⟩
  rw [hcell]
  exact hreaches

end Reading

section Order

variable {γ χ : Type} {toSepolContext : γ → Option χ}

/-- One name is before another one. -/
def Before (a b : Text) : Prop := compare (codes a) (codes b) = .lt

theorem Before.trans {a b c : Text} (h : Before a b) (h' : Before b c) : Before a c :=
  Std.TransCmp.lt_trans h h'

private theorem Before.ne {a b : Text} (h : Before a b) : a ≠ b := by
  intro heq
  rw [heq, Before, Post.Comparators.codes_compare_eq.mpr rfl] at h
  cases h

private theorem before_of_strcmp {a b : Text} (h : strcmp a b ≤ 0) (hne : a ≠ b) : Before a b := by
  have hzero : strcmp a b ≠ 0 := fun heq => hne (strcmp_eq_zero.mp heq)
  have hless : strcmp a b < 0 := by omega
  rw [← Comparator.compare_zero_lt, Post.Comparators.strcmp_compare] at hless
  exact hless

/-- The order of statements after the sort. -/
def InOrder (s t : Statement γ) : Prop :=
  strcmp s.fsStr t.fsStr ≤ 0 ∧ (s.fsStr = t.fsStr → strcmp s.pathStr t.pathStr ≤ 0)

theorem inOrder_of_compare {s t : Statement γ}
    (h : ∃ r, total genfsconCompare s.toGenfscon t.toGenfscon = some r ∧ r ≤ 0) :
    InOrder s t := by
  obtain ⟨r, hr, hle⟩ := h
  have hcompare : (if strcmp s.fsStr t.fsStr = 0 then strcmp s.pathStr t.pathStr
      else strcmp s.fsStr t.fsStr) = r := Option.some.inj hr
  by_cases hsame : strcmp s.fsStr t.fsStr = 0
  · rw [if_pos hsame] at hcompare
    exact ⟨by omega, fun _ => by omega⟩
  · rw [if_neg hsame] at hcompare
    refine ⟨by omega, fun heq => (hsame (strcmp_eq_zero.mpr heq)).elim⟩

variable (toSepolContext) in
/-- The groups hold the labels of the statements, in their order, under increasing names. -/
structure Holds (done : List (Statement γ)) (groups : List (Text × List (Ocontext χ))) : Prop where
  flat : (groups.flatMap fun g => g.2.map (Prod.mk g.1)) =
    done.map fun s => (s.fsStr, s.ocon toSepolContext)
  names : (groups.map Prod.fst).Pairwise Before

/-- The name of a group is that of a statement. -/
theorem Holds.statement {done : List (Statement γ)} {groups : List (Text × List (Ocontext χ))}
    (h : Holds toSepolContext done groups) {g : Text × List (Ocontext χ)} (hg : g ∈ groups)
    (hne : g.2 ≠ []) : ∃ s ∈ done, s.fsStr = g.1 := by
  obtain ⟨e, he⟩ := List.exists_mem_of_ne_nil _ hne
  have hmem : (g.1, e) ∈ groups.flatMap fun g => g.2.map (Prod.mk g.1) :=
    List.mem_flatMap.mpr ⟨g, hg, List.mem_map_of_mem he⟩
  rw [h.flat] at hmem
  obtain ⟨s, hs, heq⟩ := List.mem_map.mp hmem
  exact ⟨s, hs, congrArg Prod.fst heq⟩

theorem Holds.place {done : List (Statement γ)} {groups gs : List (Text × List (Ocontext χ))}
    {es : List (Ocontext χ)} {s : Statement γ} (h : Holds toSepolContext done groups)
    (hplace : Place groups s.fsStr gs es) (hnonempty : ∀ g ∈ groups, g.2 ≠ [])
    (horder : ∀ t ∈ done, InOrder t s) :
    Holds toSepolContext (done ++ [s]) (gs ++ [(s.fsStr, es ++ [s.ocon toSepolContext])]) := by
  have hflat := h.flat
  have hnames := h.names
  cases hplace with
  | behind hlast =>
      rw [hlast] at hflat hnames
      constructor
      · rw [List.map_append, ← hflat, List.flatMap_append, List.flatMap_append]
        simp
      · rw [List.map_append] at hnames ⊢
        exact hnames
  | new hlast =>
      constructor
      · rw [List.map_append, ← hflat, List.flatMap_append]
        simp
      · rw [List.map_append, List.map_singleton, List.pairwise_append]
        refine ⟨hnames, List.pairwise_singleton _ _, fun a ha b hb => ?_⟩
        rw [List.mem_singleton.mp hb]
        rcases List.eq_nil_or_concat groups with hnil | ⟨front, ⟨fs, last⟩, hconcat⟩
        · rw [hnil] at ha
          cases ha
        · rw [List.concat_eq_append] at hconcat
          have hmem : (fs, last) ∈ groups := by
            rw [hconcat]
            exact List.mem_append_right _ (List.mem_singleton_self _)
          obtain ⟨t, ht, hname⟩ := h.statement hmem (hnonempty _ hmem)
          have hle := (horder t ht).1
          rw [hname] at hle
          have hbefore := before_of_strcmp hle (hlast front fs last hconcat)
          rw [hconcat, List.map_append, List.map_singleton] at ha hnames
          rcases List.mem_append.mp ha with ha | ha
          · have hfront := (List.pairwise_append.mp hnames).2.2 a ha fs List.mem_cons_self
            exact hfront.trans hbefore
          · rw [List.mem_singleton.mp ha]
            exact hbefore

theorem genfsconLoop_laid (rest : List (Statement γ)) {m : Memory χ}
    {groups : List (Text × List (Ocontext χ))} {done : List (Statement γ)} (hlaid : Laid m groups)
    (hholds : Holds toSepolContext done groups) (horder : (done ++ rest).Pairwise InOrder) :
    ∃ rc m' groups', genfsconLoop toSepolContext m rest = some (rc, m') ∧ Laid m' groups' ∧
      (rc = .ok ↔ ∀ s ∈ rest, (toSepolContext s.context).isSome = true) ∧
      (rc = .ok → Holds toSepolContext (done ++ rest) groups') := by
  induction rest generalizing m groups done with
  | nil =>
      refine ⟨.ok, m, groups, rfl, hlaid, ?_, fun _ => ?_⟩
      · simp
      · rw [List.append_nil]
        exact hholds
  | cons s rest ih =>
      obtain ⟨gs, es, m₁, hplace, hturn, hlaid₁⟩ := genfsconTurn_laid toSepolContext hlaid s
      have hbefore : ∀ t ∈ done, InOrder t s := fun t ht =>
        (List.pairwise_append.mp horder).2.2 t ht s List.mem_cons_self
      have hholds₁ := hholds.place hplace hlaid.nonempty hbefore
      cases hcontext : (toSepolContext s.context).isSome with
      | false =>
          rw [hcontext] at hturn
          have hloop : genfsconLoop toSepolContext m (s :: rest) = some (.err, m₁) := by
            rw [genfsconLoop, hturn]
            rfl
          refine ⟨.err, m₁, _, hloop, hlaid₁, ?_, fun hok => by cases hok⟩
          simp [hcontext]
      | true =>
          rw [hcontext] at hturn
          have hloop : genfsconLoop toSepolContext m (s :: rest) =
              genfsconLoop toSepolContext m₁ rest := by
            rw [genfsconLoop, hturn]
            rfl
          rw [List.append_cons] at horder ⊢
          obtain ⟨rc, m', groups', hrun, hlaid', hok, hholds'⟩ := ih hlaid₁ hholds₁ horder
          refine ⟨rc, m', groups', hloop.trans hrun, hlaid', ?_, hholds'⟩
          rw [hok]
          simp [hcontext]

end Order

section Grouping

variable {γ χ : Type}

/-- After the sort, the labels of all statements are in the policy, grouped by file systems;
a context that does not convert is an error. -/
theorem genfsconToPolicydb_grouped (toSepolContext : γ → Option χ)
    {genfscons sorted : List (Statement γ)} (hperm : sorted.Perm genfscons)
    (hsorted : Sorted (fun s t => total genfsconCompare s.toGenfscon t.toGenfscon) sorted) :
    ∃ rc m, genfsconToPolicydb toSepolContext sorted = some (rc, m) ∧
      (rc = .ok ↔ ∀ s ∈ genfscons, (toSepolContext s.context).isSome = true) ∧
      (rc = .ok → Grouped m toSepolContext genfscons) := by
  have horder : sorted.Pairwise InOrder := hsorted.imp inOrder_of_compare
  have hnone : Holds toSepolContext [] ([] : List (Text × List (Ocontext χ))) := ⟨rfl, .nil⟩
  obtain ⟨rc, m, groups, hloop, hlaid, hok, hholds⟩ :=
    genfsconLoop_laid sorted laid_init hnone horder
  refine ⟨rc, m, hloop, ?_, fun hrc => ?_⟩
  · rw [hok]
    simp only [hperm.mem_iff]
  · obtain ⟨hflat, hnames⟩ := hholds hrc
    rw [List.nil_append] at hflat
    have hread := hlaid.read
    constructor
    · rw [hread]
      exact hnames.imp Before.ne
    · rw [hread, hflat]
      exact hperm.map _
    · intro g hg
      rw [hread] at hg
      have hpaths : (groups.flatMap fun g => g.2.map (Prod.mk g.1)).Pairwise fun x y =>
          x.1 = y.1 → ∀ p q, x.2.name = some p → y.2.name = some q → strcmp p q ≤ 0 := by
        rw [hflat, List.pairwise_map]
        refine horder.imp fun {s t} hst heq p q hp hq => ?_
        cases hp
        cases hq
        exact hst.2 heq
      have hgroup := (List.pairwise_flatMap.mp hpaths).1 g hg
      rw [List.pairwise_map] at hgroup
      exact hgroup.imp fun {a b} h => h rfl
    · exact fun a ha => hlaid.reachesGenfs ha
    · exact fun b hb => hlaid.reachesOcon hb

/-- Labels of `f` and `g`, the sorted array being the one that is given. -/
def twoFileSystems : List (Statement Unit) :=
  [⟨⟨['f'], ['/']⟩, ()⟩, ⟨⟨['f'], ['/', 'a']⟩, ()⟩, ⟨⟨['g'], ['/']⟩, ()⟩]

theorem twoFileSystems_grouped : ∃ rc m,
    genfsconToPolicydb some twoFileSystems = some (rc, m) ∧
      (rc = .ok ↔ ∀ s ∈ twoFileSystems, (some s.context).isSome = true) ∧
      (rc = .ok → Grouped m some twoFileSystems) :=
  genfsconToPolicydb_grouped some (List.Perm.refl _)
    (.cons (by simp [total, genfsconCompare, strcmp])
      (.cons (by simp [total, genfsconCompare, strcmp]) (.cons (by simp) .nil)))

end Grouping

end Cil.Binary.Genfs
