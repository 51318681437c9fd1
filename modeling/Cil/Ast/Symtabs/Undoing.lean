/- Cil/Ast/Symtabs/Undoing
   digest: What the undo steps leave of a declaration that fails. -/

import Cil.Ast.Symtabs.Invariant

set_option autoImplicit false
set_option relaxedAutoImplicit false

namespace Cil.Ast.Symtabs

open Copy (Decl Namespace Param)

section Undoing

variable {s u : State} {pend : List Nat}

/-- What is left of a step that has been undone: nodes without data or freed, and data freed. -/
structure Undone (s u : State) : Prop where
  tables : u.tables = s.tables
  data : ∀ id < s.nextDatum, u.data id = s.data id
  gone : ∀ id, s.nextDatum ≤ id → u.nodesOf id = [] ∧ (u.data id).symtab = none
  grown : s.nextDatum ≤ u.nextDatum
  freed : ∀ id, u.freed.count id =
    if s.nextDatum ≤ id ∧ id < u.nextDatum then 1 else s.freed.count id
  next : s.next ≤ u.next
  nodes : ∀ n < s.next, u.nodes n = s.nodes n ∧ u.dead n = s.dead n
  dead : ∀ n, s.next ≤ n → ¬ u.Live n
  fresh : ∀ n, u.next ≤ n → u.dead n = false

namespace Undone

theorem refl (hs : Shape pend s) (hd : Data s) : Undone s s where
  tables := rfl
  data _ _ := rfl
  gone id hid := by
    have hnil := hd.bounded id hid
    refine ⟨hnil, ?_⟩
    by_contra hne
    exact (hd.listed id).mp hne hnil
  grown := Nat.le_refl _
  freed id := by
    rw [if_neg]
    omega
  next := Nat.le_refl _
  nodes _ _ := ⟨rfl, rfl⟩
  dead n hn hlive := absurd hlive.1 (Nat.not_lt.mpr hn)
  fresh := hs.fresh

variable (h : Undone s u)
include h

theorem live_iff (n : Nat) : u.Live n ↔ s.Live n := by
  by_cases hn : n < s.next
  · obtain ⟨hnode, hdead⟩ := h.nodes n hn
    have hlt : n < u.next := Nat.lt_of_lt_of_le hn h.next
    simp only [State.Live, hnode, hdead, hlt, hn]
  · constructor
    · intro hlive
      exact absurd hlive (h.dead n (Nat.not_lt.mp hn))
    · intro hlive
      exact absurd hlive.1 hn

theorem node {n : Nat} (hn : s.Live n) : u.nodes n = s.nodes n := (h.nodes n hn.1).1

theorem shape (hs : Shape pend s) : Shape pend u := by
  have hlive := h.live_iff
  refine ⟨⟨?_, ?_, ?_⟩, Nat.lt_of_lt_of_le hs.first h.next, ?_, ?_, ?_, h.fresh⟩
  · rw [(h.nodes 0 hs.first).1]
    exact hs.root
  · intro n hn hr
    have hn' := (hlive n).mp hn
    rw [h.node hn'] at hr
    exact hs.only n hn' hr
  · intro n hn hn0
    have hn' := (hlive n).mp hn
    rw [h.node hn', hlive]
    exact hs.parent n hn' hn0
  · intro n hn hn0 hpend
    have hn' := (hlive n).mp hn
    rw [h.node hn', h.node (hs.parent n hn' hn0).2]
    exact hs.attached n hn' hn0 hpend
  · intro p hp c hc
    have hp' := (hlive p).mp hp
    rw [h.node hp'] at hc
    obtain ⟨hlt, hc0, hparent, hpend⟩ := hs.child p hp' c hc
    refine ⟨Nat.lt_of_lt_of_le hlt h.next, hc0, ?_, hpend⟩
    rw [(h.nodes c hlt).1]
    exact hparent
  · intro p hp
    have hp' := (hlive p).mp hp
    rw [h.node hp']
    exact hs.nodup p hp'

theorem whole (hw : Whole s) : Whole u := by
  intro p hp c hc
  have hp' := (h.live_iff p).mp hp
  rw [h.node hp'] at hc
  exact (h.live_iff c).mpr (hw p hp' c hc)

theorem nodesOf (hd : Data s) (id : Nat) : u.nodesOf id = s.nodesOf id := by
  by_cases hid : id < s.nextDatum
  · unfold State.nodesOf
    rw [h.data id hid]
  · have hle := Nat.not_lt.mp hid
    rw [(h.gone id hle).1, hd.bounded id hle]

theorem symtab (hd : Data s) (id : Nat) : (u.data id).symtab = (s.data id).symtab := by
  by_cases hid : id < s.nextDatum
  · rw [h.data id hid]
  · have hle := Nat.not_lt.mp hid
    rw [(h.gone id hle).2]
    by_contra hne
    exact (hd.listed id).mp (Ne.symm hne) (hd.bounded id hle)

private theorem dataKept (hs : Shape pend s) (hd : Data s) : Data u := by
  have hlive := h.live_iff
  refine ⟨?_, ?_, ?_, ?_, ?_, ?_, ?_⟩
  · intro id n
    rw [h.nodesOf hd, hd.registered, hlive]
    constructor
    · intro hin
      obtain ⟨hn, hdecl⟩ := hin
      exact ⟨hn, by rw [h.node hn]; exact hdecl⟩
    · intro hin
      obtain ⟨hn, hdecl⟩ := hin
      exact ⟨hn, by rw [h.node hn] at hdecl; exact hdecl⟩
  · intro id
    rw [h.nodesOf hd]
    exact hd.once id
  · intro ns i key id
    rw [h.tables, hd.entry]
    by_cases hid : id < s.nextDatum
    · rw [h.data id hid]
    · have hle := Nat.not_lt.mp hid
      have hnone : (s.data id).symtab = none := by rw [← h.symtab hd, (h.gone id hle).2]
      rw [hnone, (h.gone id hle).2]
      simp
  · intro id
    rw [h.symtab hd, h.nodesOf hd]
    exact hd.listed id
  · intro id hid
    rw [h.nodesOf hd]
    exact hd.bounded id (Nat.le_trans h.grown hid)
  · intro id
    rw [h.freed, h.nodesOf hd, hd.freed]
    by_cases hid : id < s.nextDatum
    · have hlt : id < u.nextDatum := Nat.lt_of_lt_of_le hid h.grown
      rw [if_neg (by omega)]
      simp only [hid, hlt, true_and]
    · have hnil := hd.bounded id (Nat.not_lt.mp hid)
      simp only [hnil, and_true, hid, if_false, Nat.not_lt.mp hid, true_and]
  · intro n flavor id hn hdecl
    have hn' := (hlive n).mp hn
    rw [h.node hn'] at hdecl ⊢
    obtain ⟨ns, hsym, hget⟩ := hd.place n flavor id hn' hdecl
    have hn0 : n ≠ 0 := by
      rintro rfl
      rw [hs.root] at hdecl
      cases hdecl
    refine ⟨ns, by rw [h.symtab hd]; exact hsym, ?_⟩
    rw [getSymtab_congr hs.toRooted (fun m hm => by rw [h.node hm]; exact ⟨rfl, rfl⟩)
      (hs.parent n hn' hn0).2]
    exact hget

theorem inv (hi : Inv s) : Inv u :=
  ⟨h.shape hi.shape, h.whole hi.whole, h.dataKept hi.shape hi.data⟩

theorem unchanged (hd : Data s) : Unchanged s u := ⟨h.tables, fun id _ => h.nodesOf hd id⟩

end Undone

end Undoing

section Begun

variable {s u : State} {pend : List Nat}

/-- A declaration has been begun with the next datum and the next node; what else was made has
been undone. -/
structure Begun (s u : State) : Prop where
  data : ∀ id < s.nextDatum, u.data id = s.data id
  own : (u.data s.nextDatum).symtab = none ∧ u.tables = s.tables ∨
    ∃ ns i, (u.data s.nextDatum).symtab = some (ns, i) ∧
      s.tables ns i (u.data s.nextDatum).name = none ∧
        u.tables = (s.setEntry ns i (u.data s.nextDatum).name (some s.nextDatum)).tables
  gone : ∀ id, s.nextDatum < id → u.nodesOf id = [] ∧ (u.data id).symtab = none
  grown : s.nextDatum < u.nextDatum
  freed : ∀ id, u.freed.count id =
    if s.nextDatum < id ∧ id < u.nextDatum then 1 else s.freed.count id
  next : s.next < u.next
  nodes : ∀ n < s.next, u.nodes n = s.nodes n ∧ u.dead n = s.dead n
  dead : ∀ n, s.next < n → ¬ u.Live n
  fresh : ∀ n, u.next ≤ n → u.dead n = false

private theorem setEntry_setEntry_none {ns : Namespace} {i : SymIndex} {key : String} {id : Nat}
    (hfree : s.tables ns i key = none) (hu : u.tables = (s.setEntry ns i key (some id)).tables) :
    (u.setEntry ns i key none).tables = s.tables := by
  funext ns' i' key'
  rw [setEntry_tables_iff]
  split_ifs with hkey
  · obtain ⟨rfl, rfl, rfl⟩ := hkey
    exact hfree.symm
  · rw [hu, setEntry_tables_iff, if_neg hkey]

namespace Begun

variable (h : Begun s u)
include h

theorem datumDestroy_tables : (u.datumDestroy s.nextDatum).tables = s.tables := by
  rw [Symtabs.datumDestroy_tables]
  rcases h.own with ⟨hnone, htables⟩ | ⟨ns, i, hsome, hfree, htables⟩
  · rw [hnone]
    exact htables
  · rw [hsome]
    exact setEntry_setEntry_none hfree htables

theorem destroyData (hs : Shape pend s) (hd : Data s) :
    u.destroyData s.nextDatum =
      { u.datumDestroy s.nextDatum with freed := u.freed ++ [s.nextDatum] } := by
  have hempty := no_tables_of_new hs hd (hd.bounded s.nextDatum (Nat.le_refl _))
  refine destroyData_eq u s.nextDatum ⟨fun id' => ?_, fun i key => ?_⟩
  · rw [datumDestroy_data]
    split_ifs with hid
    · simp
    · rcases Nat.lt_or_gt_of_ne hid with hlt | hgt
      · rw [h.data id' hlt]
        exact hempty.1 id'
      · rw [(h.gone id' hgt).2]
        simp
  · rw [h.datumDestroy_tables]
    exact hempty.2 i key

/-- Destroying the datum undoes the declaration, once the node is not there. -/
theorem undone {v : State} (hs : Shape pend s) (hd : Data s)
    (htables : v.tables = (u.destroyData s.nextDatum).tables)
    (hdata : v.data = (u.destroyData s.nextDatum).data)
    (hgrown : v.nextDatum = u.nextDatum) (hfreed : v.freed = u.freed ++ [s.nextDatum])
    (hnext : v.next = u.next)
    (hnodes : ∀ n, n ≠ s.next → v.nodes n = u.nodes n ∧ v.dead n = u.dead n)
    (hdead : ¬ v.Live s.next) : Undone s v := by
  rw [h.destroyData hs hd] at htables hdata
  have hlive : ∀ n, n ≠ s.next → (v.Live n ↔ u.Live n) := by
    intro n hn
    obtain ⟨hnode, hd'⟩ := hnodes n hn
    simp only [State.Live, hnode, hd', hnext]
  refine ⟨?_, ?_, ?_, ?_, ?_, ?_, ?_, ?_, ?_⟩
  · rw [htables]
    exact h.datumDestroy_tables
  · intro id hid
    rw [hdata]
    show (u.datumDestroy s.nextDatum).data id = s.data id
    rw [datumDestroy_data, if_neg (Nat.ne_of_lt hid)]
    exact h.data id hid
  · intro id hid
    unfold State.nodesOf
    rw [hdata]
    show ((u.datumDestroy s.nextDatum).data id).nodes.getD [] = [] ∧
      ((u.datumDestroy s.nextDatum).data id).symtab = none
    rw [datumDestroy_data]
    split_ifs with heq
    · exact ⟨rfl, rfl⟩
    · exact h.gone id (by omega)
  · rw [hgrown]
    exact Nat.le_of_lt h.grown
  · intro id
    have hcount : s.freed.count s.nextDatum = 0 ∨ s.freed.count s.nextDatum = 0 := by
      rw [hd.freed, if_neg (by omega)]
      exact Or.inl rfl
    rw [hfreed, List.count_append, h.freed, hgrown]
    by_cases hid : id = s.nextDatum
    · subst hid
      have hlt := h.grown
      rw [if_neg (by omega), if_pos (by omega), List.count_singleton_self]
      omega
    · have hsingle : List.count id [s.nextDatum] = 0 := by
        rw [List.count_eq_zero]
        simpa using hid
      rw [hsingle]
      have hiff : (s.nextDatum < id ∧ id < u.nextDatum) ↔
          (s.nextDatum ≤ id ∧ id < u.nextDatum) := by omega
      simp only [hiff]
      omega
  · rw [hnext]
    exact Nat.le_of_lt h.next
  · intro n hn
    have hne : n ≠ s.next := Nat.ne_of_lt hn
    obtain ⟨hnode, hd'⟩ := hnodes n hne
    obtain ⟨hnode', hd''⟩ := h.nodes n hn
    exact ⟨hnode.trans hnode', hd'.trans hd''⟩
  · intro n hn
    by_cases hne : n = s.next
    · subst hne
      exact hdead
    · rw [hlive n hne]
      exact h.dead n (by omega)
  · intro n hn
    rw [hnext] at hn
    have hlt := h.next
    rw [(hnodes n (by omega)).2]
    exact h.fresh n hn

/-- The undo steps of the builder. -/
theorem undone_gen (hs : Shape pend s) (hd : Data s) :
    Undone s (((u.destroyData s.nextDatum).clearNode s.next).destroyNode s.next) := by
  have hframe := datumDestroy_frame u s.nextDatum
  have hcleared : (((u.destroyData s.nextDatum).clearNode s.next).nodes s.next).stmt = .none := by
    simp [State.clearNode, State.setStmt]
  have hdestroy : (((u.destroyData s.nextDatum).clearNode s.next).destroyNode s.next) =
      ((u.destroyData s.nextDatum).clearNode s.next).freeNode s.next := by
    unfold State.destroyNode
    rw [hcleared]
  rw [hdestroy]
  refine h.undone hs hd rfl rfl ?_ ?_ ?_ ?_ ?_
  · rw [h.destroyData hs hd]
    exact hframe.2.2.2.2
  · rw [h.destroyData hs hd]
    rfl
  · rw [h.destroyData hs hd]
    exact hframe.2.1
  · intro n hn
    rw [h.destroyData hs hd]
    simp [State.freeNode, State.clearNode, State.setStmt, hn, hframe.1, hframe.2.2.1]
  · intro hlive
    have hdead := hlive.2.1
    simp [State.freeNode] at hdead

/-- The undo steps of `cil_gen_perm`. -/
theorem undone_genPerm (hs : Shape pend s) (hd : Data s) :
    Undone s ((u.destroyData s.nextDatum).clearNode s.next) := by
  have hframe := datumDestroy_frame u s.nextDatum
  refine h.undone hs hd rfl rfl ?_ ?_ ?_ ?_ ?_
  · rw [h.destroyData hs hd]
    exact hframe.2.2.2.2
  · rw [h.destroyData hs hd]
    rfl
  · rw [h.destroyData hs hd]
    exact hframe.2.1
  · intro n hn
    rw [h.destroyData hs hd]
    simp [State.clearNode, State.setStmt, hn, hframe.1, hframe.2.2.1]
  · intro hlive
    have hstmt := hlive.2.2
    simp [State.clearNode, State.setStmt] at hstmt

end Begun

end Begun

end Cil.Ast.Symtabs
