/- Cil/Ast/Symtabs/Destroying
   digest: Nodes are destroyed from the leaves up, and their declarations with the last of them. -/

import Cil.Ast.Symtabs.Invariant

set_option autoImplicit false
set_option relaxedAutoImplicit false

namespace Cil.Ast.Symtabs

open Copy (Decl Namespace Param)

section Killing

variable {s u : State} {n : Nat}

/-- A node is freed, and the others stay. -/
structure Kills (s u : State) (n : Nat) : Prop where
  nodes : u.nodes = s.nodes
  next : u.next = s.next
  dead : u.dead = Function.update s.dead n true
  nextDatum : u.nextDatum = s.nextDatum

/-- No node that is there has this one as its parent. -/
def Childless (s : State) (n : Nat) : Prop := ∀ m, s.Live m → m ≠ 0 → (s.nodes m).parent ≠ n

private theorem Childless.eq_of_under (hs : Shape [] s) (hc : Childless s n) {m : Nat}
    (hm : s.Live m) (h : Under s m n) : m = n := by
  induction h using Relation.ReflTransGen.head_induction_on with
  | refl => rfl
  | head hstep hrest ih =>
    rename_i x y
    obtain ⟨hx0, hparent⟩ := hstep
    have hy := (hs.parent x hm hx0).2
    rw [hparent] at hy
    have heq := ih hy
    rw [heq] at hparent
    exact absurd hparent (hc x hm hx0)

/-- Nothing is in the tables that only a childless node owns. -/
theorem Childless.no_tables (hs : Shape [] s) (hd : Data s) (hc : Childless s n) (ns : Namespace)
    (honly : ∀ m, s.Live m → Owns s m ns → m = n) :
    (∀ id, (s.data id).symtab.map Prod.fst ≠ some ns) ∧ ∀ i key, s.tables ns i key = none := by
  refine Symtabs.no_tables hs hd ?_
  intro m a hm hm0 hunder ha howns
  obtain rfl := honly a ha howns
  have hparent := hc.eq_of_under hs (hs.parent m hm hm0).2 hunder
  exact hc m hm hm0 hparent

namespace Kills

variable (h : Kills s u n)
include h

theorem live_iff (m : Nat) : u.Live m ↔ s.Live m ∧ m ≠ n := by
  by_cases hm : m = n
  · subst hm
    simp [State.Live, h.dead]
  · simp [State.Live, h.dead, h.nodes, h.next, hm]

theorem shape (hs : Shape [] s) (hn : s.Live n) (hc : Childless s n) : Shape [] u := by
  have hlive := h.live_iff
  refine ⟨⟨?_, ?_, ?_⟩, ?_, ?_, ?_, ?_, ?_⟩
  · rw [h.nodes]
    exact hs.root
  · intro m hm hr
    rw [h.nodes] at hr
    exact hs.only m ((hlive m).mp hm).1 hr
  · intro m hm hm0
    have hm' := ((hlive m).mp hm).1
    obtain ⟨hlt, hparent⟩ := hs.parent m hm' hm0
    rw [h.nodes, hlive]
    exact ⟨hlt, hparent, hc m hm' hm0⟩
  · rw [h.next]
    exact hs.first
  · intro m hm hm0 hpend
    rw [h.nodes]
    exact hs.attached m ((hlive m).mp hm).1 hm0 hpend
  · intro q hq c hcin
    rw [h.nodes] at hcin ⊢
    rw [h.next]
    exact hs.child q ((hlive q).mp hq).1 c hcin
  · intro q hq
    rw [h.nodes]
    exact hs.nodup q ((hlive q).mp hq).1
  · intro m hm
    rw [h.next] at hm
    have hne : m ≠ n := by
      rintro rfl
      exact absurd hn.1 (Nat.not_lt.mpr hm)
    rw [h.dead, Function.update_of_ne hne]
    exact hs.fresh m hm

theorem getSymtab (hs : Shape [] s) {m : Nat} (hm : s.Live m) (i : SymIndex) :
    u.getSymtab m i = s.getSymtab m i :=
  getSymtab_congr hs.toRooted (fun _ _ => by rw [h.nodes]; exact ⟨rfl, rfl⟩) hm i

/-- The node of no declaration is freed. -/
private theorem data_other (hs : Shape [] s) (hd : Data s)
    (hstmt : ∀ flavor id, (s.nodes n).stmt ≠ .decl flavor id) (htables : u.tables = s.tables)
    (hdata : u.data = s.data) (hfreed : u.freed = s.freed) : Data u := by
  have hlive := h.live_iff
  have hof : ∀ id, u.nodesOf id = s.nodesOf id := fun id => by rw [State.nodesOf, hdata]; rfl
  refine ⟨?_, ?_, ?_, ?_, ?_, ?_, ?_⟩
  · intro id m
    rw [hof, hd.registered, hlive, h.nodes]
    constructor
    · intro hin
      obtain ⟨hm, flavor, hdecl⟩ := hin
      refine ⟨⟨hm, ?_⟩, flavor, hdecl⟩
      rintro rfl
      exact hstmt flavor id hdecl
    · intro hin
      exact ⟨hin.1.1, hin.2⟩
  · intro id
    rw [hof]
    exact hd.once id
  · intro ns i key id
    rw [htables, hdata]
    exact hd.entry ns i key id
  · intro id
    rw [hof, hdata]
    exact hd.listed id
  · intro id hid
    rw [hof]
    exact hd.bounded id (by rw [h.nextDatum] at hid; exact hid)
  · intro id
    rw [hof, hfreed, h.nextDatum]
    exact hd.freed id
  · intro m flavor id hm hdecl
    have hm' := ((hlive m).mp hm).1
    rw [h.nodes] at hdecl ⊢
    obtain ⟨ns, hsym, hget⟩ := hd.place m flavor id hm' hdecl
    have hm0 : m ≠ 0 := by
      rintro rfl
      rw [hs.root] at hdecl
      cases hdecl
    refine ⟨ns, by rw [hdata]; exact hsym, ?_⟩
    rw [h.getSymtab hs (hs.parent m hm' hm0).2]
    exact hget

end Kills

/-- A datum loses a node, and with the last one its entry; it is freed then. -/
structure Undeclares (s u : State) (n id : Nat) : Prop where
  nodesOf : ∀ id', u.nodesOf id' = if id' = id then (s.nodesOf id).erase n else s.nodesOf id'
  name : ∀ id', (u.data id').name = (s.data id').name
  symtab : ∀ id', (u.data id').symtab =
    if id' = id ∧ (s.nodesOf id).erase n = [] then none else (s.data id').symtab
  tables : ∀ ns i key, u.tables ns i key =
    if s.tables ns i key = some id ∧ (s.nodesOf id).erase n = [] then none else s.tables ns i key
  freed : u.freed = if (s.nodesOf id).erase n = [] then s.freed ++ [id] else s.freed

section Undeclaring

variable {id : Nat} (h : Kills s u n) (hgone : Undeclares s u n id) (hd : Data s)

include h hgone hd

private theorem registered_undeclared {flavor : Flavor} (hstmt : (s.nodes n).stmt = .decl flavor id)
    (id' m : Nat) :
    m ∈ u.nodesOf id' ↔ u.Live m ∧ ∃ flavor, (u.nodes m).stmt = .decl flavor id' := by
  rw [hgone.nodesOf, h.live_iff, h.nodes]
  split_ifs with hid
  · subst hid
    rw [(hd.once id').mem_erase_iff, hd.registered]
    constructor
    · intro hm
      exact ⟨⟨hm.2.1, hm.1⟩, hm.2.2⟩
    · intro hm
      exact ⟨hm.1.2, hm.1.1, hm.2⟩
  · rw [hd.registered]
    constructor
    · intro hm
      obtain ⟨hm, flavor', hdecl⟩ := hm
      refine ⟨⟨hm, ?_⟩, flavor', hdecl⟩
      rintro rfl
      rw [hstmt] at hdecl
      injection hdecl with _ heq
      exact hid heq.symm
    · intro hm
      exact ⟨hm.1.1, hm.2⟩

omit h in
private theorem once_undeclared (id' : Nat) : (u.nodesOf id').Nodup := by
  rw [hgone.nodesOf]
  split_ifs
  · exact (hd.once id).erase n
  · exact hd.once id'

omit h in
/-- The datum leaves its table with its last node only. -/
private theorem entry_undeclared (ns : Namespace) (i : SymIndex) (key : String) (id' : Nat) :
    u.tables ns i key = some id' ↔
      (u.data id').symtab = some (ns, i) ∧ (u.data id').name = key := by
  rw [hgone.tables, hgone.symtab, hgone.name]
  by_cases hlast : (s.nodesOf id).erase n = []
  · simp only [hlast, and_true]
    by_cases hid : id' = id
    · subst hid
      rw [if_pos rfl]
      constructor
      · intro hentry
        split_ifs at hentry with htaken
        exact absurd hentry htaken
      · intro hboth
        cases hboth.1
    · rw [if_neg hid, ← hd.entry]
      split_ifs with htaken
      · rw [htaken]
        constructor
        · intro heq
          cases heq
        · intro heq
          exact absurd (Option.some.inj heq).symm hid
      · exact Iff.rfl
  · simp only [hlast, and_false, if_false]
    exact hd.entry ns i key id'

omit h in
private theorem listed_undeclared (hin : n ∈ s.nodesOf id) (id' : Nat) :
    (u.data id').symtab ≠ none ↔ u.nodesOf id' ≠ [] := by
  rw [hgone.nodesOf, hgone.symtab]
  by_cases hid : id' = id
  · subst hid
    rw [if_pos rfl]
    by_cases hlast : (s.nodesOf id').erase n = []
    · rw [if_pos ⟨rfl, hlast⟩, hlast]
      simp
    · rw [if_neg fun hboth => hlast hboth.2]
      constructor
      · intro _
        exact hlast
      · intro _
        exact (hd.listed id').mpr (List.ne_nil_of_mem hin)
  · rw [if_neg fun hboth => hid hboth.1, if_neg hid]
    exact hd.listed id'

private theorem bounded_undeclared (hlt : id < s.nextDatum) (id' : Nat) (hle : u.nextDatum ≤ id') :
    u.nodesOf id' = [] := by
  rw [h.nextDatum] at hle
  have hid : id' ≠ id := by
    rintro rfl
    exact absurd hlt (Nat.not_lt.mpr hle)
  rw [hgone.nodesOf, if_neg hid]
  exact hd.bounded id' hle

/-- What has lost its last node has been freed once. -/
private theorem freed_undeclared (hin : n ∈ s.nodesOf id) (hlt : id < s.nextDatum) (id' : Nat) :
    u.freed.count id' = if id' < u.nextDatum ∧ u.nodesOf id' = [] then 1 else 0 := by
  rw [hgone.nodesOf, hgone.freed, h.nextDatum]
  by_cases hid : id' = id
  · subst hid
    have hcount : s.freed.count id' = 0 := by
      rw [hd.freed, if_neg]
      exact fun hboth => List.ne_nil_of_mem hin hboth.2
    rw [if_pos rfl]
    by_cases hlast : (s.nodesOf id').erase n = []
    · rw [if_pos hlast, if_pos ⟨hlt, hlast⟩, List.count_append, hcount,
        List.count_singleton_self]
    · rw [if_neg hlast, if_neg fun hboth => hlast hboth.2]
      exact hcount
  · rw [if_neg hid, ← hd.freed]
    split_ifs
    · have hsingle : List.count id' [id] = 0 := by
        rw [List.count_eq_zero]
        simpa using hid
      rw [List.count_append, hsingle]
      rfl
    · rfl

/-- The declarations that are left stand in the tables that they stood in. -/
private theorem place_undeclared (hs : Shape [] s) (m : Nat) (flavor : Flavor) (id' : Nat)
    (hm : u.Live m) (hdecl : (u.nodes m).stmt = .decl flavor id') :
    ∃ ns, (u.data id').symtab = some (ns, flavorToSymtabIndex flavor) ∧
      u.getSymtab (u.nodes m).parent (flavorToSymtabIndex flavor) = some ns := by
  obtain ⟨hm', hmn⟩ := (h.live_iff m).mp hm
  rw [h.nodes] at hdecl ⊢
  obtain ⟨ns, hplace, hget⟩ := hd.place m flavor id' hm' hdecl
  have hm0 : m ≠ 0 := by
    rintro rfl
    rw [hs.root] at hdecl
    cases hdecl
  have hkept : ¬ (id' = id ∧ (s.nodesOf id).erase n = []) := by
    intro hboth
    obtain ⟨rfl, hlast⟩ := hboth
    have hmin : m ∈ (s.nodesOf id').erase n :=
      (hd.once id').mem_erase_iff.mpr ⟨hmn, (hd.registered id' m).mpr ⟨hm', flavor, hdecl⟩⟩
    rw [hlast] at hmin
    cases hmin
  refine ⟨ns, by rw [hgone.symtab, if_neg hkept]; exact hplace, ?_⟩
  rw [h.getSymtab hs (hs.parent m hm' hm0).2]
  exact hget

/-- A node of a declaration is freed. -/
private theorem data_undeclared {flavor : Flavor} (hs : Shape [] s) (hn : s.Live n)
    (hstmt : (s.nodes n).stmt = .decl flavor id) : Data u := by
  have hin : n ∈ s.nodesOf id := (hd.registered id n).mpr ⟨hn, flavor, hstmt⟩
  have hlt : id < s.nextDatum := by
    by_contra hge
    rw [hd.bounded id (Nat.not_lt.mp hge)] at hin
    cases hin
  exact ⟨registered_undeclared h hgone hd hstmt, once_undeclared hgone hd,
    entry_undeclared hgone hd, listed_undeclared hgone hd hin, bounded_undeclared h hgone hd hlt,
    freed_undeclared h hgone hd hin hlt, place_undeclared h hgone hd hs⟩

end Undeclaring

end Killing

section Destroying

variable {s u : State} {n : Nat}

/-- A datum that loses its last node has no entry and no list any more. -/
private theorem lastNode_destroyed {id : Nat} (hs : Shape [] s) (hd : Data s) (hc : Childless s n)
    (hnodes : (s.data id).nodes = some [n]) :
    ∃ w, s.datumRemoveNode id n = w ∧ (w.data id).nodes.isNone = true ∧
      w.destroyData id = { w.datumDestroy id with freed := w.freed ++ [id] } ∧
      (∀ id', (w.data id').symtab = if id' = id then none else (s.data id').symtab) ∧
      (∀ id', w.nodesOf id' = if id' = id then [] else s.nodesOf id') ∧
      (∀ id', (w.data id').name = (s.data id').name) ∧
      (∀ ns i key, w.tables ns i key =
        if s.tables ns i key = some id then none else s.tables ns i key) ∧
      w.nodes = s.nodes ∧ w.next = s.next ∧ w.dead = s.dead ∧ w.freed = s.freed ∧
        w.nextDatum = s.nextDatum := by
  have hof : s.nodesOf id = [n] := by
    unfold State.nodesOf
    rw [hnodes]
    rfl
  have hempty := hc.no_tables hs hd (.ofDatum id) (by
    intro m hm howns
    obtain ⟨flavor, hdecl⟩ := howns
    have hin := (hd.registered id m).mpr ⟨hm, flavor, hdecl⟩
    rw [hof] at hin
    exact List.mem_singleton.mp hin)
  have hbefore : (s.setDatum id fun d => { d with nodes := some [] }).data id =
      { s.data id with nodes := some [] } := Function.update_self ..
  have hother : ∀ id', id' ≠ id →
      (s.setDatum id fun d => { d with nodes := some [] }).data id' = s.data id' :=
    fun id' hid => Function.update_of_ne hid _ _
  have hwdata : ∀ id', ((s.setDatum id fun d => { d with nodes := some [] }).datumDestroy id).data
      id' = if id' = id then { s.data id with symtab := none, nodes := none } else s.data id' := by
    intro id'
    rw [datumDestroy_data, hbefore]
    split_ifs with hid
    · rfl
    · exact hother id' hid
  have hwtables : ∀ ns i key,
      ((s.setDatum id fun d => { d with nodes := some [] }).datumDestroy id).tables ns i key =
        if s.tables ns i key = some id then none else s.tables ns i key := by
    intro ns i key
    obtain ⟨place, hplace⟩ := Option.ne_none_iff_exists'.mp
      ((hd.listed id).mpr (by rw [hof]; simp))
    rw [datumDestroy_tables, hbefore]
    simp only [hplace]
    rw [setEntry_tables_iff]
    have hiff : (ns = place.1 ∧ i = place.2 ∧ key = (s.data id).name) ↔
        s.tables ns i key = some id := by
      rw [hd.entry, hplace]
      constructor
      · intro heq
        obtain ⟨rfl, rfl, rfl⟩ := heq
        exact ⟨rfl, rfl⟩
      · intro heq
        obtain ⟨hpair, rfl⟩ := heq
        obtain rfl := Option.some.inj hpair
        exact ⟨rfl, rfl, rfl⟩
    by_cases htaken : s.tables ns i key = some id
    · rw [if_pos (hiff.mpr htaken), if_pos htaken]
    · rw [if_neg fun heq => htaken (hiff.mp heq), if_neg htaken]
      rfl
  have hframe := datumDestroy_frame (s.setDatum id fun d => { d with nodes := some [] }) id
  refine ⟨(s.setDatum id fun d => { d with nodes := some [] }).datumDestroy id, ?_, ?_, ?_, ?_, ?_,
    ?_, hwtables, hframe⟩
  · unfold State.datumRemoveNode
    rw [hnodes]
    simp
  · rw [hwdata, if_pos rfl]
    rfl
  · refine destroyData_eq _ id ⟨fun id' => ?_, fun i key => ?_⟩
    · rw [datumDestroy_data]
      by_cases hid : id' = id
      · rw [if_pos hid]
        simp
      · rw [if_neg hid, hwdata, if_neg hid]
        exact hempty.1 id'
    · rw [datumDestroy_tables]
      have hnone : (((s.setDatum id fun d => { d with nodes := some [] }).datumDestroy id).data
          id).symtab = none := by rw [hwdata, if_pos rfl]
      rw [hnone]
      dsimp only
      rw [hwtables, hempty.2 i key]
      simp
  · intro id'
    rw [hwdata]
    split_ifs <;> rfl
  · intro id'
    unfold State.nodesOf
    rw [hwdata]
    split_ifs <;> rfl
  · intro id'
    rw [hwdata]
    split_ifs with hid
    · rw [hid]
    · rfl

private theorem nodesOf_of_nodes {id : Nat} {l : List Nat} (h : (s.data id).nodes = some l) :
    s.nodesOf id = l := by
  unfold State.nodesOf
  rw [h]
  rfl

/-- The last node of a declaration is destroyed. -/
private theorem destroyNode_last {flavor : Flavor} {id : Nat} (hs : Shape [] s) (hd : Data s)
    (hn : s.Live n) (hc : Childless s n) (hstmt : (s.nodes n).stmt = .decl flavor id)
    (hnodes : (s.data id).nodes = some [n]) :
    Kills s (s.destroyNode n) n ∧ Data (s.destroyNode n) := by
  obtain ⟨w, hw, hnone, hdestroy, hsym, hwof, hname, htables, hwnodes, hnext, hdead, hfreed,
    hgrown⟩ := lastNode_destroyed hs hd hc hnodes
  obtain ⟨hnodes', hnext', hdead', _, hgrown'⟩ := datumDestroy_frame w id
  have hu : s.destroyNode n = (w.destroyData id).freeNode n := by
    unfold State.destroyNode
    rw [hstmt]
    simp only [hw, hnone, if_true]
  have hk : Kills s (s.destroyNode n) n := by
    rw [hu, hdestroy]
    refine ⟨hnodes'.trans hwnodes, hnext'.trans hnext, ?_, hgrown'.trans hgrown⟩
    show Function.update (w.datumDestroy id).dead n true = Function.update s.dead n true
    rw [hdead', hdead]
  refine ⟨hk, ?_⟩
  have herase : (s.nodesOf id).erase n = [] := by
    rw [nodesOf_of_nodes hnodes]
    simp
  have hwnone : (w.data id).symtab = none := by rw [hsym, if_pos rfl]
  have hudata : ∀ id', ((s.destroyNode n).data id').name = (w.data id').name ∧
      ((s.destroyNode n).data id').symtab = (w.data id').symtab ∧
        (s.destroyNode n).nodesOf id' = w.nodesOf id' := by
    intro id'
    rw [hu, hdestroy]
    unfold State.nodesOf
    show ((w.datumDestroy id).data id').name = (w.data id').name ∧
      ((w.datumDestroy id).data id').symtab = (w.data id').symtab ∧
        ((w.datumDestroy id).data id').nodes.getD [] = (w.data id').nodes.getD []
    rw [datumDestroy_data]
    split_ifs with hid
    · subst hid
      refine ⟨rfl, hwnone.symm, ?_⟩
      rw [Option.isNone_iff_eq_none.mp hnone]
    · exact ⟨rfl, rfl, rfl⟩
  refine data_undeclared hk ⟨?_, ?_, ?_, ?_, ?_⟩ hd hs hn hstmt
  · intro id'
    rw [(hudata id').2.2, hwof, herase]
  · intro id'
    rw [(hudata id').1, hname]
  · intro id'
    rw [(hudata id').2.1, hsym]
    simp only [herase, and_true]
  · intro ns i key
    simp only [herase, and_true]
    rw [← htables, hu, hdestroy]
    show (w.datumDestroy id).tables ns i key = w.tables ns i key
    rw [datumDestroy_tables, hwnone]
  · rw [if_pos herase, hu, hdestroy]
    show w.freed ++ [id] = s.freed ++ [id]
    rw [hfreed]

/-- A node of a declaration that has others is destroyed. -/
private theorem destroyNode_kept {flavor : Flavor} {id : Nat} {l : List Nat} (hs : Shape [] s)
    (hd : Data s) (hn : s.Live n) (hstmt : (s.nodes n).stmt = .decl flavor id)
    (hnodes : (s.data id).nodes = some l) (hlast : l.erase n ≠ []) :
    Kills s (s.destroyNode n) n ∧ Data (s.destroyNode n) := by
  have hremove : s.datumRemoveNode id n =
      s.setDatum id fun d => { d with nodes := some (l.erase n) } := by
    unfold State.datumRemoveNode
    rw [hnodes]
    simp only [if_neg hlast]
  have hself : (s.setDatum id fun d => { d with nodes := some (l.erase n) }).data id =
      { s.data id with nodes := some (l.erase n) } := Function.update_self ..
  have hother : ∀ id', id' ≠ id →
      (s.setDatum id fun d => { d with nodes := some (l.erase n) }).data id' = s.data id' :=
    fun id' hid => Function.update_of_ne hid _ _
  have hu : s.destroyNode n =
      (s.setDatum id fun d => { d with nodes := some (l.erase n) }).freeNode n := by
    unfold State.destroyNode
    rw [hstmt]
    simp only [hremove, hself, Option.isNone_some, Bool.false_eq_true, if_false]
  have hk : Kills s (s.destroyNode n) n := by
    rw [hu]
    exact ⟨rfl, rfl, rfl, rfl⟩
  refine ⟨hk, ?_⟩
  have herase : (s.nodesOf id).erase n ≠ [] := by
    rw [nodesOf_of_nodes hnodes]
    exact hlast
  have hkept : ∀ id', ((s.destroyNode n).data id').name = (s.data id').name ∧
      ((s.destroyNode n).data id').symtab = (s.data id').symtab := by
    intro id'
    rw [hu]
    show ((s.setDatum id fun d => { d with nodes := some (l.erase n) }).data id').name = _ ∧
      ((s.setDatum id fun d => { d with nodes := some (l.erase n) }).data id').symtab = _
    by_cases hid : id' = id
    · subst hid
      rw [hself]
      exact ⟨rfl, rfl⟩
    · rw [hother id' hid]
      exact ⟨rfl, rfl⟩
  refine data_undeclared hk ⟨?_, fun id' => (hkept id').1, ?_, ?_, ?_⟩ hd hs hn hstmt
  · intro id'
    rw [hu]
    unfold State.nodesOf
    show ((s.setDatum id fun d => { d with nodes := some (l.erase n) }).data id').nodes.getD []
      = _
    split_ifs with hid
    · subst hid
      rw [hself, hnodes]
      rfl
    · rw [hother id' hid]
  · intro id'
    rw [(hkept id').2, if_neg fun hboth => herase hboth.2]
  · intro ns i key
    rw [hu, if_neg fun hboth => herase hboth.2]
    rfl
  · rw [if_neg herase, hu]
    rfl

/-- `cil_tree_node_destroy` on a node with nothing below it. -/
theorem destroyNode_kills (hs : Shape [] s) (hd : Data s) (hn : s.Live n) (hc : Childless s n) :
    Kills s (s.destroyNode n) n ∧ Data (s.destroyNode n) := by
  -- a node that is no declaration, with tables or without
  have other (hstmt : ∀ flavor id, (s.nodes n).stmt ≠ .decl flavor id)
      (hdestroy : s.destroyNode n = s.freeNode n) :
      Kills s (s.destroyNode n) n ∧ Data (s.destroyNode n) := by
    rw [hdestroy]
    have hk : Kills s (s.freeNode n) n := ⟨rfl, rfl, rfl, rfl⟩
    exact ⟨hk, hk.data_other hs hd hstmt rfl rfl rfl⟩
  have owned (ns : Namespace) (honly : ∀ m, s.Live m → Owns s m ns → m = n) :
      (s.symtabArrayDestroy ns).freeNode n = s.freeNode n := by
    rw [symtabArrayDestroy_eq (hc.no_tables hs hd ns honly)]
  cases hstmt : (s.nodes n).stmt with
  | root =>
    refine other (by rw [hstmt]; simp) ?_
    unfold State.destroyNode
    rw [hstmt]
    refine owned .root fun m hm howns => ?_
    rw [hs.only m hm howns, hs.only n hn hstmt]
  | condblock b =>
    refine other (by rw [hstmt]; simp) ?_
    unfold State.destroyNode
    rw [hstmt]
    exact owned (.ofCondblock n) fun m _ howns => howns.symm
  | inStmt =>
    refine other (by rw [hstmt]; simp) ?_
    unfold State.destroyNode
    rw [hstmt]
    exact owned (.ofCondblock n) fun m _ howns => howns.symm
  | other =>
    refine other (by rw [hstmt]; simp) ?_
    unfold State.destroyNode
    rw [hstmt]
  | uncopied =>
    refine other (by rw [hstmt]; simp) ?_
    unfold State.destroyNode
    rw [hstmt]
  | none => exact absurd hstmt hn.2.2
  | decl flavor id =>
    have hin : n ∈ s.nodesOf id := (hd.registered id n).mpr ⟨hn, flavor, hstmt⟩
    obtain ⟨l, hl⟩ : ∃ l, (s.data id).nodes = some l := by
      cases hnodes : (s.data id).nodes with
      | none =>
        unfold State.nodesOf at hin
        rw [hnodes] at hin
        cases hin
      | some l => exact ⟨l, rfl⟩
    have hof : s.nodesOf id = l := nodesOf_of_nodes hl
    by_cases hlast : l.erase n = []
    · have hsingle : l = [n] := by
        rw [hof] at hin
        have hlen := List.length_erase_of_mem hin
        rw [hlast] at hlen
        obtain ⟨a, rfl⟩ : ∃ a, l = [a] := by
          refine List.length_eq_one_iff.mp ?_
          have hpos := List.length_pos_of_mem hin
          simp only [List.length_nil] at hlen
          omega
        rw [List.mem_singleton.mp hin]
      rw [hsingle] at hl
      exact destroyNode_last hs hd hn hc hstmt hl
    · exact destroyNode_kept hs hd hn hstmt hl hlast

end Destroying

section DestroyingBelow

variable {s u : State} {n p : Nat}

private theorem under_congr (h : ∀ m, (u.nodes m).parent = (s.nodes m).parent) {a b : Nat} :
    Under u a b ↔ Under s a b := by
  unfold Under
  simp only [h]

/-- What is above a node that is there is there, and has no greater number. -/
theorem Shape.under (hs : Shape [] s) {a b : Nat} (ha : s.Live a) (h : Under s a b) :
    b ≤ a ∧ s.Live b := by
  induction h using Relation.ReflTransGen.head_induction_on with
  | refl => exact ⟨Nat.le_refl _, ha⟩
  | head hstep hrest ih =>
    rename_i x y
    obtain ⟨hx0, hparent⟩ := hstep
    obtain ⟨hlt, hy⟩ := hs.parent x ha hx0
    rw [hparent] at hlt hy
    obtain ⟨hle, hb⟩ := ih hy
    exact ⟨by omega, hb⟩

private theorem under_parent_or_eq {a b : Nat} (h : Under s a b) :
    a = b ∨ a ≠ 0 ∧ Under s (s.nodes a).parent b := by
  rcases Relation.ReflTransGen.cases_head h with rfl | ⟨c, ⟨ha0, hparent⟩, hrest⟩
  · exact Or.inl rfl
  · rw [← hparent] at hrest
    exact Or.inr ⟨ha0, hrest⟩

/-- What is below a node is the node or below one of its children. -/
private theorem Shape.under_iff (hs : Shape [] s) {m : Nat} (hm : s.Live m) (hn : s.Live n) :
    Under s m n ↔ m = n ∨ ∃ c ∈ (s.nodes n).children, Under s m c := by
  constructor
  · intro h
    rcases Relation.ReflTransGen.cases_tail h with heq | ⟨c, hmc, hc0, hparent⟩
    · exact Or.inl heq.symm
    · right
      refine ⟨c, ?_, hmc⟩
      have hc := (hs.under hm hmc).2
      have hin := hs.attached c hc hc0 (by simp)
      rw [hparent] at hin
      exact hin
  · intro h
    rcases h with rfl | ⟨c, hc, hmc⟩
    · exact Relation.ReflTransGen.refl
    · obtain ⟨_, hc0, hparent, _⟩ := hs.child n hn c hc
      exact hmc.tail ⟨hc0, hparent⟩

/-- The nodes below some siblings are destroyed, and the others stay. -/
structure DestroyedBelow (s u : State) (ns : List Nat) : Prop where
  shape : Shape [] u
  data : Data u
  next : u.next = s.next
  live : ∀ m, u.Live m ↔ s.Live m ∧ ¬ ∃ n ∈ ns, Under s m n
  parent : ∀ m, (u.nodes m).parent = (s.nodes m).parent
  nodes : ∀ m, u.Live m → u.nodes m = s.nodes m

/-- A childless node forgets its children. -/
theorem Childless.clear (hs : Shape [] s) (hd : Data s)
    (hgone : ∀ c ∈ (s.nodes n).children, ¬ s.Live c) :
    Shape [] (s.clearChildren n) ∧ Data (s.clearChildren n) ∧ Childless (s.clearChildren n) n := by
  have hlive := clearChildren_live s n
  have hchildless : ∀ m, s.Live m → m ≠ 0 → (s.nodes m).parent ≠ n := by
    intro m hm hm0 hparent
    have hin := hs.attached m hm hm0 (by simp)
    rw [hparent] at hin
    exact hgone m hin hm
  refine ⟨⟨⟨?_, ?_, ?_⟩, hs.first, ?_, ?_, ?_, hs.fresh⟩, ?_, ?_⟩
  · rw [clearChildren_stmt]
    exact hs.root
  · intro m hm hr
    rw [clearChildren_stmt] at hr
    exact hs.only m ((hlive m).mp hm) hr
  · intro m hm hm0
    rw [clearChildren_parent, hlive]
    exact hs.parent m ((hlive m).mp hm) hm0
  · intro m hm hm0 hpend
    have hm' := (hlive m).mp hm
    rw [clearChildren_parent, clearChildren_children, if_neg (hchildless m hm' hm0)]
    exact hs.attached m hm' hm0 hpend
  · intro q hq c hc
    rw [clearChildren_children] at hc
    rw [clearChildren_parent]
    split_ifs at hc
    · cases hc
    · exact hs.child q ((hlive q).mp hq) c hc
  · intro q hq
    rw [clearChildren_children]
    split_ifs
    · exact List.nodup_nil
    · exact hs.nodup q ((hlive q).mp hq)
  · exact hd.congr hs.toRooted rfl rfl rfl rfl hlive fun m _ =>
      ⟨clearChildren_stmt s n m, clearChildren_parent s n m⟩
  · intro m hm hm0
    rw [clearChildren_parent]
    exact hchildless m ((hlive m).mp hm) hm0

/-- A node is destroyed after what is below it. -/
theorem DestroyedBelow.node (hs : Shape [] s) (hn : s.Live n)
    (h : DestroyedBelow s u (s.nodes n).children) :
    DestroyedBelow s ((u.clearChildren n).destroyNode n) [n] := by
  have hnu : u.Live n := by
    refine (h.live n).mpr ⟨hn, ?_⟩
    intro hex
    obtain ⟨c, hc, hunder⟩ := hex
    obtain ⟨_, hc0, hparent, _⟩ := hs.child n hn c hc
    have hle := hs.under hn hunder
    have hlt := (hs.parent c hle.2 hc0).1
    omega
  have hgone : ∀ c ∈ (u.nodes n).children, ¬ u.Live c := by
    intro c hc hlive
    rw [h.nodes n hnu] at hc
    exact ((h.live c).mp hlive).2 ⟨c, hc, Relation.ReflTransGen.refl⟩
  obtain ⟨hshape, hdata, hchildless⟩ := Childless.clear h.shape h.data hgone
  have hlive := clearChildren_live u n
  obtain ⟨hkill, hdata'⟩ := destroyNode_kills hshape hdata ((hlive n).mpr hnu) hchildless
  refine ⟨hkill.shape hshape ((hlive n).mpr hnu) hchildless, hdata', ?_, ?_, ?_, ?_⟩
  · rw [hkill.next]
    exact h.next
  · intro m
    rw [hkill.live_iff, hlive, h.live]
    simp only [List.mem_singleton, exists_eq_left]
    constructor
    · intro hm
      obtain ⟨⟨hm, hnone⟩, hne⟩ := hm
      refine ⟨hm, fun hunder => ?_⟩
      rcases (hs.under_iff hm hn).mp hunder with heq | hex
      · exact hne heq
      · exact hnone hex
    · intro hm
      obtain ⟨hm, hnone⟩ := hm
      refine ⟨⟨hm, fun hex => ?_⟩, ?_⟩
      · exact hnone ((hs.under_iff hm hn).mpr (Or.inr hex))
      · rintro rfl
        exact hnone Relation.ReflTransGen.refl
  · intro m
    rw [hkill.nodes, clearChildren_parent, h.parent]
  · intro m hm
    obtain ⟨hm', hne⟩ := (hkill.live_iff m).mp hm
    rw [hkill.nodes]
    show Function.update u.nodes n _ m = s.nodes m
    rw [Function.update_of_ne hne, h.nodes m ((hlive m).mp hm')]

/-- First a node is destroyed, and then its later siblings. -/
theorem DestroyedBelow.cons {v : State} {ns : List Nat} (h : DestroyedBelow s v [n])
    (hrest : DestroyedBelow v u ns) : DestroyedBelow s u (n :: ns) := by
  refine ⟨hrest.shape, hrest.data, hrest.next.trans h.next, ?_, ?_, ?_⟩
  · intro m
    rw [hrest.live, h.live]
    simp only [under_congr h.parent, List.mem_cons, List.not_mem_nil, or_false, exists_eq_left,
      exists_eq_or_imp, not_or, and_assoc]
  · intro m
    rw [hrest.parent, h.parent]
  · intro m hm
    rw [hrest.nodes m hm, h.nodes m ((hrest.live m).mp hm).1]

private theorem destroySiblings_destroys {fuel : Nat} {ns : List Nat} (hs : Shape [] s)
    (hd : Data s) (hp : s.Live p) (hns : ∀ n ∈ ns, s.Live n ∧ n ≠ 0 ∧ (s.nodes n).parent = p)
    (hnodup : ns.Nodup)
    (hwhole : ∀ q, s.Live q → (∃ n ∈ ns, Under s q n) → ∀ c ∈ (s.nodes q).children, s.Live c)
    (h : destroySiblings fuel ns s = some u) : DestroyedBelow s u ns := by
  induction fuel generalizing s u p ns with
  | zero => cases h
  | succ fuel ih =>
    cases ns with
    | nil =>
      rw [destroySiblings] at h
      obtain rfl := Option.some.inj h
      exact ⟨hs, hd, rfl, fun m => by simp, fun _ => rfl, fun _ _ => rfl⟩
    | cons n ns =>
      rw [destroySiblings] at h
      split_ifs at h
      split at h
      · cases h
      · rename_i s₁ hbelow
        obtain ⟨hn, hn0, hnp⟩ := hns n (List.mem_cons_self ..)
        obtain ⟨hnotin, hnodup'⟩ := List.nodup_cons.mp hnodup
        have hplt := (hs.parent n hn hn0).1
        rw [hnp] at hplt
        -- first what is below the node
        have h₁ : DestroyedBelow s s₁ (s.nodes n).children := by
          refine ih hs hd hn ?_ (hs.nodup n hn) ?_ hbelow
          · intro c hc
            obtain ⟨_, hc0, hparent, _⟩ := hs.child n hn c hc
            exact ⟨hwhole n hn ⟨n, List.mem_cons_self .., Relation.ReflTransGen.refl⟩ c hc, hc0,
              hparent⟩
          · intro q hq hqc
            obtain ⟨c, hc, hunder⟩ := hqc
            exact hwhole q hq ⟨n, List.mem_cons_self ..,
              (hs.under_iff hq hn).mpr (Or.inr ⟨c, hc, hunder⟩)⟩
        have h₃ := h₁.node hs hn
        have hlive₃ : ∀ m, ((s₁.clearChildren n).destroyNode n).Live m ↔
            s.Live m ∧ ¬ Under s m n := by
          intro m
          rw [h₃.live]
          simp only [List.mem_singleton, exists_eq_left]
        have hp₃ : ¬ Under s p n := by
          intro hunder
          have hle := (hs.under hp hunder).1
          omega
        refine h₃.cons (ih h₃.shape h₃.data ((hlive₃ p).mpr ⟨hp, hp₃⟩) ?_ hnodup' ?_ h)
        · intro m hm
          obtain ⟨hlive, hm0, hmp⟩ := hns m (List.mem_cons_of_mem _ hm)
          refine ⟨(hlive₃ m).mpr ⟨hlive, ?_⟩, hm0, by rw [h₃.parent, hmp]⟩
          intro hunder
          rcases under_parent_or_eq hunder with rfl | ⟨_, hunder'⟩
          · exact hnotin hm
          · rw [hmp] at hunder'
            exact hp₃ hunder'
        · intro q hq hqm c hc
          obtain ⟨m, hm, hunder⟩ := hqm
          rw [under_congr h₃.parent] at hunder
          rw [h₃.nodes q hq] at hc
          obtain ⟨hqlive, hqn⟩ := (hlive₃ q).mp hq
          have hclive := hwhole q hqlive ⟨m, List.mem_cons_of_mem _ hm, hunder⟩ c hc
          obtain ⟨_, hc0, hparent, _⟩ := hs.child q hqlive c hc
          refine (hlive₃ c).mpr ⟨hclive, fun hcn => ?_⟩
          rcases under_parent_or_eq hcn with rfl | ⟨_, hcn'⟩
          · -- then `m` would be above its own parent
            rw [hnp] at hparent
            subst hparent
            obtain ⟨hmlive, hm0, hmp⟩ := hns m (List.mem_cons_of_mem _ hm)
            have hle := (hs.under hqlive hunder).1
            have hlt := (hs.parent m hmlive hm0).1
            rw [hmp] at hlt
            omega
          · rw [hparent] at hcn'
            exact hqn hcn'

/-- `cil_tree_children_destroy`, on any node of the tree. -/
theorem Inv.childrenDestroy {fuel : Nat} (hi : Inv s) (hn : s.Live n)
    (h : childrenDestroy fuel n s = some u) : Inv u := by
  unfold Symtabs.childrenDestroy at h
  split at h
  · cases h
  · rename_i v hbelow
    obtain rfl := Option.some.inj h
    have hv : DestroyedBelow s v (s.nodes n).children := by
      refine destroySiblings_destroys hi.shape hi.data hn ?_ (hi.shape.nodup n hn) ?_ hbelow
      · intro c hc
        obtain ⟨_, hc0, hparent, _⟩ := hi.shape.child n hn c hc
        exact ⟨hi.whole n hn c hc, hc0, hparent⟩
      · intro q hq _
        exact hi.whole q hq
    have hgone : ∀ c ∈ (v.nodes n).children, ¬ v.Live c := by
      intro c hc hlive
      by_cases hnlive : v.Live n
      · rw [hv.nodes n hnlive] at hc
        exact ((hv.live c).mp hlive).2 ⟨c, hc, Relation.ReflTransGen.refl⟩
      · have hself : v.Live n := by
          refine (hv.live n).mpr ⟨hn, fun hex => ?_⟩
          obtain ⟨b, hb, hunder⟩ := hex
          obtain ⟨_, hb0, hparent, _⟩ := hi.shape.child n hn b hb
          have hle := hi.shape.under hn hunder
          have hlt := (hi.shape.parent b hle.2 hb0).1
          omega
        exact hnlive hself
    obtain ⟨hshape, hdata, _⟩ := Childless.clear hv.shape hv.data hgone
    refine ⟨hshape, ?_, hdata⟩
    intro q hq c hc
    rw [clearChildren_live] at hq ⊢
    rw [clearChildren_children] at hc
    by_cases hqn : q = n
    · rw [if_pos hqn] at hc
      cases hc
    · rw [if_neg hqn] at hc
      have hc' : c ∈ (s.nodes q).children := by
        rw [← hv.nodes q hq]
        exact hc
      obtain ⟨hqlive, hqnone⟩ := (hv.live q).mp hq
      obtain ⟨_, _, hparent, _⟩ := hi.shape.child q hqlive c hc'
      refine (hv.live c).mpr ⟨hi.whole q hqlive c hc', fun hex => ?_⟩
      obtain ⟨b, hb, hunder⟩ := hex
      rcases under_parent_or_eq hunder with rfl | ⟨_, hunder'⟩
      · obtain ⟨_, _, hparent', _⟩ := hi.shape.child n hn c hb
        exact hqn (hparent.symm.trans hparent')
      · rw [hparent] at hunder'
        exact hqnone ⟨b, hb, hunder'⟩

end DestroyingBelow

end Cil.Ast.Symtabs
