/- Cil/Resolve/Dangling
   digest: Nothing points to what has been freed, unless it did when it was freed. -/

import Mathlib.Data.List.Nodup
import Cil.Copy.Levels
import Cil.Resolve.Optionals
import Cil.Resolve.Steps

set_option autoImplicit false
set_option relaxedAutoImplicit false

namespace Cil.Resolve.Dangling

open Library Ast Walk

variable {κ σ : Type}

section Lookups

variable (s : State κ σ)

/-- The data that a lookup can find: those in a symbol table, and those that a node or a list
points to already. -/
def Known (id : Nat) : Prop :=
  (∃ ns i key, s.sym.tables ns i key = some id) ∨
    (∃ n < s.next, s.dead n = false ∧ id ∈ s.held n) ∨ id ∈ s.gathered

/-- The fields that are filled are filled with what can be found, and with objects of
statements in the tree. -/
structure Named (r : Resolved σ) : Prop where
  refs : ∀ n, ∀ id ∈ r.refs n, id ∈ s.refs n ∨ Known s id
  borrowed : ∀ id, ∀ n ∈ r.borrowed id,
    n ∈ s.borrowed id ∨ Known s id ∧ s.dead n = false
  gathered : ∀ id ∈ r.gathered, Known s id

end Lookups

/-- Operations that find what they fill fields with in the state. -/
structure Lookups (κ σ : Type) extends Ops κ σ where
  tunable_known : ∀ s n value refs, evaluateTunable s n = .found (value, refs) →
    ∀ id ∈ refs, Known s id
  callArgs_named : ∀ s n, Named s (callArgs s n)
  resolveNode_named : ∀ pass s n, Named s (resolveNode pass s n)
  reset_named : ∀ pass s, Named s (reset pass s)

section Invariant

/-- The nodes and the symbol tables agree about which data there are. -/
structure Registered (s : State κ σ) : Prop where
  entry : ∀ ns i key id, s.sym.tables ns i key = some id → s.declNodes id ≠ []
  fresh_data : ∀ id, s.sym.next ≤ id → s.declNodes id = [] ∧ s.pointed id = []
  fresh_node : ∀ n, s.next ≤ n → s.dead n = false
  child : ∀ p, ∀ c ∈ (s.nodes p).children, c < s.next
  declared : ∀ id, ∀ n ∈ s.declNodes id, n < s.next ∧ s.dead n = false ∧
    (∃ d, (s.nodes n).stmt = .decl d) ∧ (s.nodes n).data = id
  nodup : ∀ id, (s.declNodes id).Nodup

/-- Between any two steps, as long as what goes is detached. -/
structure Live (s : State κ σ) : Prop extends Registered s where
  held : ∀ n < s.next, s.dead n = false → ∀ id ∈ s.held n, s.declNodes id ≠ []
  points : ∀ id, s.declNodes id ≠ [] → ∀ n ∈ s.pointed id, s.dead n = false
  gathered : ∀ id ∈ s.gathered, s.declNodes id ≠ []

private theorem Live.noDangling {s : State κ σ} (h : Live s) : s.NoDangling :=
  ⟨h.held, fun id _ => h.points id, h.gathered⟩

private theorem Live.of_known {s : State κ σ} (h : Live s) {id : Nat} (hid : Known s id) :
    s.declNodes id ≠ [] := by
  rcases hid with ⟨ns, i, key, hentry⟩ | ⟨n, hlt, hn, hheld⟩ | hgathered
  · exact h.entry ns i key id hentry
  · exact h.held n hlt hn id hheld
  · exact h.gathered id hgathered

private theorem live_init (rest : σ) : Live (State.init rest : State κ σ) where
  entry ns i key id h := by cases h
  fresh_data id _ := ⟨rfl, rfl⟩
  fresh_node n _ := rfl
  child p c h := by cases h
  declared id n h := by cases h
  nodup id := List.nodup_nil
  held n _ _ id h := by cases h
  points id h := absurd rfl h
  gathered id h := by cases h

end Invariant

section Growing

variable {s : State κ σ}

private theorem mem_held {n id : Nat} :
    id ∈ s.held n ↔ s.block n = some id ∨ s.callee n = some id ∨ id ∈ s.refs n := by
  simp [State.held]

private theorem children_addNode {dest : Nat} {stmt : Stmt κ} {data p c : Nat}
    (h : c ∈ ((s.addNode dest stmt data).nodes p).children) :
    c = s.next ∨ ∃ q, c ∈ (s.nodes q).children := by
  unfold State.addNode at h
  by_cases hp : p = s.next
  · subst hp
    simp at h
  · by_cases hdest : p = dest
    · subst hdest
      simp only [ne_eq, hp, not_false_eq_true, Function.update_of_ne, Function.update_self,
        List.mem_append, List.mem_singleton] at h
      rcases h with h | h
      · exact Or.inr ⟨p, h⟩
      · exact Or.inl h
    · simp only [ne_eq, hp, not_false_eq_true, Function.update_of_ne, hdest] at h
      exact Or.inr ⟨p, h⟩

/-- A node that is there keeps its statement and its datum. -/
private theorem nodes_addNode (dest : Nat) (stmt : Stmt κ) (data : Nat) {n : Nat}
    (hn : n < s.next) :
    ((s.addNode dest stmt data).nodes n).stmt = (s.nodes n).stmt ∧
      ((s.addNode dest stmt data).nodes n).data = (s.nodes n).data := by
  unfold State.addNode
  have hne : n ≠ s.next := Nat.ne_of_lt hn
  by_cases hdest : n = dest
  · subst hdest
    simp [hne]
  · simp [hne, hdest]

private theorem held_addNode {dest : Nat} {stmt : Stmt κ} {data n : Nat} :
    (s.addNode dest stmt data).held n = if n = s.next then [] else s.held n := by
  unfold State.held State.addNode
  by_cases hn : n = s.next
  · subst hn
    simp
  · simp [hn]

theorem Live.addNode (h : Live s) (dest : Nat) (stmt : Stmt κ) (data : Nat) :
    Live (s.addNode dest stmt data) where
  entry := h.entry
  fresh_data := h.fresh_data
  fresh_node n hn := h.fresh_node n (Nat.le_of_succ_le hn)
  child p c hc := by
    show c < s.next + 1
    rcases children_addNode hc with rfl | ⟨q, hq⟩
    · exact Nat.lt_succ_self _
    · exact Nat.lt_succ_of_lt (h.child q c hq)
  declared id n hn := by
    obtain ⟨hlt, hlive, hdecl, hdata⟩ := h.declared id n hn
    obtain ⟨hstmt, hdata'⟩ := nodes_addNode dest stmt data hlt
    rw [hstmt, hdata']
    exact ⟨Nat.lt_succ_of_lt hlt, hlive, hdecl, hdata⟩
  nodup := h.nodup
  held n hn hlive id hid := by
    rw [held_addNode] at hid
    split_ifs at hid with hnext
    · cases hid
    · have hlt : n < s.next := by
        have hle : n < s.next + 1 := hn
        omega
      exact h.held n hlt hlive id hid
  points := h.points
  gathered := h.gathered

theorem Live.withTables (h : Live s) : Live s.withTables :=
  { h with fresh_data := fun id hid => h.fresh_data id (Nat.le_of_succ_le hid) }

/-- A node that declares something is registered in its datum. -/
private theorem Live.register (h : Live s) {s' : State κ σ} {n id : Nat} (hlt : n < s.next)
    (hlive : s.dead n = false) (hdecl : ∃ d, (s.nodes n).stmt = .decl d)
    (hdata : (s.nodes n).data = id) (hnew : n ∉ s.declNodes id)
    (hentries : ∀ ns i key id', s'.sym.tables ns i key = some id' →
      id' = id ∨ s.sym.tables ns i key = some id')
    (hid : id < s'.sym.next) (hsymNext : s.sym.next ≤ s'.sym.next)
    (hdatum : s.sym.next ≤ id ∨ s.declNodes id ≠ [])
    (hself : s'.declNodes id = s.declNodes id ++ [n])
    (hother : ∀ id', id' ≠ id → s'.declNodes id' = s.declNodes id')
    (hnodes : s'.nodes = s.nodes) (hnext : s'.next = s.next) (hdead : s'.dead = s.dead)
    (hheld : ∀ n, s'.held n = s.held n) (hpointed : ∀ id, s'.pointed id = s.pointed id)
    (hgathered : s'.gathered = s.gathered) : Live s' := by
  have hmore : ∀ id', s.declNodes id' ≠ [] → s'.declNodes id' ≠ [] := by
    intro id' hne
    by_cases heq : id' = id
    · subst heq
      rw [hself]
      simp
    · rw [hother id' heq]
      exact hne
  refine ⟨⟨?_, ?_, ?_, ?_, ?_, ?_⟩, ?_, ?_, ?_⟩
  · intro ns i key id' hentry
    rcases hentries ns i key id' hentry with rfl | hentry
    · rw [hself]
      simp
    · exact hmore id' (h.entry ns i key id' hentry)
  · intro id' hfresh
    have hne : id' ≠ id := by omega
    rw [hother id' hne, hpointed]
    exact h.fresh_data id' (Nat.le_trans hsymNext hfresh)
  · rw [hnext, hdead]
    exact h.fresh_node
  · rw [hnodes, hnext]
    exact h.child
  · rw [hnodes, hnext, hdead]
    intro id' m hm
    by_cases heq : id' = id
    · subst heq
      rw [hself] at hm
      rcases List.mem_append.mp hm with hm | hm
      · exact h.declared id' m hm
      · obtain rfl := List.mem_singleton.mp hm
        exact ⟨hlt, hlive, hdecl, hdata⟩
    · rw [hother id' heq] at hm
      exact h.declared id' m hm
  · intro id'
    by_cases heq : id' = id
    · subst heq
      rw [hself]
      refine (h.nodup id').append (List.nodup_singleton n) ?_
      intro m hm hm'
      obtain rfl := List.mem_singleton.mp hm'
      exact hnew hm
    · rw [hother id' heq]
      exact h.nodup id'
  · rw [hnext, hdead]
    intro m hm hmlive id' hid'
    rw [hheld] at hid'
    exact hmore id' (h.held m hm hmlive id' hid')
  · rw [hdead]
    intro id' hne m hm
    rw [hpointed] at hm
    by_cases heq : id' = id
    · subst heq
      rcases hdatum with hfresh | hne'
      · rw [(h.fresh_data id' hfresh).2] at hm
        cases hm
      · exact h.points id' hne' m hm
    · rw [hother id' heq] at hne
      exact h.points id' hne m hm
  · rw [hgathered]
    intro id' hid'
    exact hmore id' (h.gathered id' hid')

/-- The fields of nodes, and the lists, are filled with data that have nodes. -/
private theorem Live.refill (h : Live s) {s' : State κ σ} (hsym : s'.sym = s.sym)
    (hdeclNodes : s'.declNodes = s.declNodes) (hnodes : s'.nodes = s.nodes)
    (hnext : s'.next = s.next) (hdead : s'.dead = s.dead)
    (hheld : ∀ n < s.next, s.dead n = false → ∀ id ∈ s'.held n, s.declNodes id ≠ [])
    (hpointed : ∀ id, s.declNodes id = [] → s.pointed id = [] → s'.pointed id = [])
    (hpoints : ∀ id, s.declNodes id ≠ [] → ∀ n ∈ s'.pointed id, s.dead n = false)
    (hgathered : ∀ id ∈ s'.gathered, s.declNodes id ≠ []) : Live s' := by
  refine ⟨⟨?_, ?_, ?_, ?_, ?_, ?_⟩, ?_, ?_, ?_⟩
  · rw [hsym, hdeclNodes]
    exact h.entry
  · rw [hsym, hdeclNodes]
    intro id hid
    obtain ⟨hnone, hnil⟩ := h.fresh_data id hid
    exact ⟨hnone, hpointed id hnone hnil⟩
  · rw [hnext, hdead]
    exact h.fresh_node
  · rw [hnodes, hnext]
    exact h.child
  · rw [hdeclNodes, hnodes, hnext, hdead]
    exact h.declared
  · rw [hdeclNodes]
    exact h.nodup
  · rw [hnext, hdead, hdeclNodes]
    exact hheld
  · rw [hdeclNodes, hdead]
    exact hpoints
  · rw [hdeclNodes]
    exact hgathered

end Growing

section Shrinking

variable {s : State κ σ}

/-- What is left when some nodes have gone. -/
structure Gone (gone : List Nat) (s s' : State κ σ) : Prop where
  nodes : s'.nodes = s.nodes
  next : s'.next = s.next
  symNext : s'.sym.next = s.sym.next
  dead : ∀ n, s'.dead n = false ↔ s.dead n = false ∧ n ∉ gone
  declNodes : ∀ id n, n ∈ s'.declNodes id ↔ n ∈ s.declNodes id ∧ n ∉ gone
  held : ∀ n, s'.held n = s.held n
  pointed : ∀ id, s'.pointed id = s.pointed id
  gathered : s'.gathered = s.gathered

/-- The nodes of a datum that are left when a node is destroyed. -/
private theorem Registered.declNodes_destroyNode (h : Registered s) (n id m : Nat) :
    m ∈ (s.destroyNode n).declNodes id ↔ m ∈ s.declNodes id ∧ m ≠ n := by
  have hother : (∀ d, (s.nodes n).stmt ≠ .decl d) ∨ (s.nodes n).data ≠ id →
      m ∈ s.declNodes id → m ≠ n := by
    intro hn hm heq
    subst heq
    obtain ⟨_, _, ⟨d, hd⟩, hdata⟩ := h.declared id m hm
    rcases hn with hn | hn
    · exact hn d hd
    · exact hn hdata
  unfold State.destroyNode
  split
  · have hlist : ((({ s with dead := Function.update s.dead n true } : State κ σ).removeNode
        (s.nodes n).data n).declNodes) =
        Function.update s.declNodes (s.nodes n).data ((s.declNodes (s.nodes n).data).erase n) := by
      unfold State.removeNode
      dsimp only
      split_ifs <;> rfl
    rw [hlist]
    by_cases hid : id = (s.nodes n).data
    · subst hid
      rw [Function.update_self, (h.nodup _).mem_erase_iff]
      exact and_comm
    · rw [Function.update_of_ne hid]
      exact ⟨fun hm => ⟨hm, hother (Or.inr fun heq => hid heq.symm) hm⟩, fun hm => hm.1⟩
  · rename_i hstmt
    exact ⟨fun hm => ⟨hm, hother (Or.inl fun d hd => hstmt d hd) hm⟩, fun hm => hm.1⟩

private theorem gone_destroyNode (h : Registered s) (n : Nat) : Gone [n] s (s.destroyNode n) := by
  have hdead : ∀ m, Function.update s.dead n true m = false ↔ s.dead m = false ∧ m ∉ [n] := by
    intro m
    by_cases hm : m = n
    · subst hm
      simp
    · simp [hm]
  have hnodes := h.declNodes_destroyNode n
  unfold State.destroyNode at hnodes ⊢
  split at hnodes
  · refine ⟨?_, ?_, ?_, ?_, ?_, ?_, ?_, ?_⟩
    all_goals unfold State.removeNode at hnodes ⊢
    all_goals dsimp only at hnodes ⊢
    all_goals split_ifs at hnodes ⊢
    all_goals first | rfl | exact hdead | simpa using hnodes | exact fun _ => rfl
  · refine ⟨rfl, rfl, rfl, hdead, ?_, fun _ => rfl, fun _ => rfl, rfl⟩
    simpa using hnodes

/-- A datum without nodes is in no symbol table. -/
private theorem Registered.entry_destroyNode (h : Registered s) (n : Nat) {ns : Copy.Namespace}
    {i : SymIndex} {key : String} {id : Nat}
    (hentry : (s.destroyNode n).sym.tables ns i key = some id) :
    (s.destroyNode n).declNodes id ≠ [] := by
  unfold State.destroyNode at hentry ⊢
  split at hentry
  · unfold State.removeNode at hentry ⊢
    dsimp only at hentry ⊢
    by_cases hid : id = (s.nodes n).data
    · subst hid
      split_ifs at hentry ⊢ with hleft
      · exact absurd (Option.filter_eq_some_iff.mp hentry).2 (by simp)
      · simpa [Function.update_self] using hleft
    · have hold : s.sym.tables ns i key = some id := by
        split_ifs at hentry
        · exact (Option.filter_eq_some_iff.mp hentry).1
        · exact hentry
      have hne := h.entry ns i key id hold
      split_ifs
      · simpa [State.removeDatum, Function.update_of_ne hid] using hne
      · simpa [Function.update_of_ne hid] using hne
  · exact h.entry ns i key id hentry

theorem Registered.destroyNode (h : Registered s) {n : Nat} (hn : n < s.next) :
    Registered (s.destroyNode n) := by
  have hgone := gone_destroyNode h n
  refine ⟨fun _ _ _ _ => h.entry_destroyNode n, ?_, ?_, ?_, ?_, ?_⟩
  · intro id hid
    rw [hgone.symNext] at hid
    obtain ⟨hnone, hnil⟩ := h.fresh_data id hid
    refine ⟨List.eq_nil_iff_forall_not_mem.mpr fun m hm => ?_, by rw [hgone.pointed]; exact hnil⟩
    have hold := ((hgone.declNodes id m).mp hm).1
    rw [hnone] at hold
    cases hold
  · intro m hm
    rw [hgone.next] at hm
    rw [hgone.dead]
    refine ⟨h.fresh_node m hm, fun hmem => ?_⟩
    obtain rfl := List.mem_singleton.mp hmem
    omega
  · rw [hgone.nodes, hgone.next]
    exact h.child
  · intro id m hm
    obtain ⟨hold, hne⟩ := (hgone.declNodes id m).mp hm
    obtain ⟨hlt, hlive, hrest⟩ := h.declared id m hold
    rw [hgone.nodes, hgone.next, hgone.dead]
    exact ⟨hlt, ⟨hlive, hne⟩, hrest⟩
  · intro id
    have hsub : (s.destroyNode n).declNodes id = (s.declNodes id).erase n ∨
        (s.destroyNode n).declNodes id = s.declNodes id := by
      unfold State.destroyNode
      split
      · unfold State.removeNode
        dsimp only
        by_cases hid : id = (s.nodes n).data
        · left
          subst hid
          split_ifs <;> simp [State.removeDatum]
        · right
          split_ifs <;> simp [State.removeDatum, hid]
      · exact Or.inr rfl
    rcases hsub with hsub | hsub
    · rw [hsub]
      exact (h.nodup id).erase n
    · rw [hsub]
      exact h.nodup id

theorem Gone.trans {s₁ s₂ s₃ : State κ σ} {gone gone' : List Nat} (h : Gone gone s₁ s₂)
    (h' : Gone gone' s₂ s₃) : Gone (gone ++ gone') s₁ s₃ where
  nodes := h'.nodes.trans h.nodes
  next := h'.next.trans h.next
  symNext := h'.symNext.trans h.symNext
  dead n := by rw [h'.dead, h.dead, List.mem_append, not_or, and_assoc]
  declNodes id n := by rw [h'.declNodes, h.declNodes, List.mem_append, not_or, and_assoc]
  held n := (h'.held n).trans (h.held n)
  pointed id := (h'.pointed id).trans (h.pointed id)
  gathered := h'.gathered.trans h.gathered

/-- By induction on the nodes that are destroyed. -/
private theorem gone_foldl (ns : List Nat) (h : Registered s) (hns : ∀ n ∈ ns, n < s.next) :
    Registered (ns.foldl State.destroyNode s) ∧ Gone ns s (ns.foldl State.destroyNode s) := by
  induction ns generalizing s with
  | nil =>
    refine ⟨h, rfl, rfl, rfl, ?_, ?_, fun _ => rfl, fun _ => rfl, rfl⟩
    · simp
    · simp
  | cons n ns ih =>
    have hgone := gone_destroyNode h n
    have hreg := h.destroyNode (hns n (List.mem_cons_self ..))
    obtain ⟨hreg', hgone'⟩ := ih hreg fun m hm => by
      rw [hgone.next]
      exact hns m (List.mem_cons_of_mem _ hm)
    exact ⟨hreg', hgone.trans hgone'⟩

/-- The nodes below others are nodes that there are. -/
private theorem Registered.subtree_lt (h : Registered s) {fuel : Nat} {ns below : List Nat}
    (hns : ∀ n ∈ ns, n < s.next) (hbelow : s.subtree fuel ns = some below) :
    ∀ m ∈ below, m < s.next := by
  induction fuel generalizing ns below with
  | zero => cases hbelow
  | succ fuel ih =>
    cases ns with
    | nil =>
      obtain rfl := Option.some.inj hbelow
      intro m hm
      cases hm
    | cons n ns =>
      rw [State.subtree] at hbelow
      split at hbelow
      · rename_i inner rest hinner hrest
        obtain rfl := Option.some.inj hbelow
        intro m hm
        rcases List.mem_append.mp hm with hm | hm
        · exact ih (h.child n) hinner m hm
        · rcases List.mem_cons.mp hm with rfl | hm
          · exact hns m (List.mem_cons_self ..)
          · exact ih (fun m' hm' => hns m' (List.mem_cons_of_mem _ hm')) hrest m hm
      · cases hbelow

/-- What nothing outside points to can be destroyed. -/
theorem Live.destroy (h : Live s) {s' : State κ σ} {below : List Nat}
    (hreg : Registered s') (hgone : Gone below s s') (hdetached : s.Detached below) :
    Live s' := by
  obtain ⟨hheld, hpoints, hgathered⟩ := hdetached
  have hleft : ∀ id, s.Outlives below id → s'.declNodes id ≠ [] := by
    intro id hid
    obtain ⟨m, hm, hout⟩ := hid
    exact List.ne_nil_of_mem ((hgone.declNodes id m).mpr ⟨hm, hout⟩)
  refine ⟨hreg, ?_, ?_, ?_⟩
  · intro n hn hlive id hid
    rw [hgone.next] at hn
    rw [hgone.held] at hid
    obtain ⟨hlive', hout⟩ := (hgone.dead n).mp hlive
    exact hleft id (hheld n hn hlive' hout id hid)
  · intro id hne n hn
    rw [hgone.pointed] at hn
    obtain ⟨m, hm⟩ := List.exists_mem_of_ne_nil _ hne
    obtain ⟨hm, hout⟩ := (hgone.declNodes id m).mp hm
    have hlt : id < s.sym.next := by
      by_contra hge
      rw [(h.fresh_data id (Nat.le_of_not_lt hge)).1] at hm
      cases hm
    rw [hgone.dead]
    exact ⟨h.points id (List.ne_nil_of_mem hm) n hn, hpoints id hlt ⟨m, hm, hout⟩ n hn⟩
  · intro id hid
    rw [hgone.gathered] at hid
    exact hleft id (hgathered id hid)

/-- If something outside points to what goes, it dangles then. -/
theorem dangling_of_not_detached {s' : State κ σ} {below : List Nat} (hgone : Gone below s s')
    (hnot : ¬ s.Detached below) : ¬ s'.NoDangling := by
  intro hno
  obtain ⟨hheld, hpoints, hgathered⟩ := hno
  have houtlives : ∀ id, s'.declNodes id ≠ [] → s.Outlives below id := by
    intro id hne
    obtain ⟨m, hm⟩ := List.exists_mem_of_ne_nil _ hne
    exact ⟨m, (hgone.declNodes id m).mp hm⟩
  refine hnot ⟨?_, ?_, ?_⟩
  · intro n hn hlive hout id hid
    refine houtlives id (hheld n (by rw [hgone.next]; exact hn) ?_ id ?_)
    · exact (hgone.dead n).mpr ⟨hlive, hout⟩
    · rw [hgone.held]
      exact hid
  · intro id hlt hid n hn hgoes
    obtain ⟨m, hm, hout⟩ := hid
    have hne : s'.declNodes id ≠ [] :=
      List.ne_nil_of_mem ((hgone.declNodes id m).mpr ⟨hm, hout⟩)
    have hn' : n ∈ s'.pointed id := by
      rw [hgone.pointed]
      exact hn
    have hlive := hpoints id (by rw [hgone.symNext]; exact hlt) hne n hn'
    exact ((hgone.dead n).mp hlive).2 hgoes
  · intro id hid
    refine houtlives id (hgathered id ?_)
    rw [hgone.gathered]
    exact hid

/-- The destruction is logged as one of detached nodes if it is one. -/
theorem Live.childrenDestroy (h : Live s) {fuel n : Nat} {s' : State κ σ} {below : List Nat}
    (hdestroy : Walk.childrenDestroy fuel n s = some (.ok below s'))
    (hlog : .freed true ∉ s'.log) : Live s' := by
  unfold Walk.childrenDestroy at hdestroy
  split at hdestroy
  · cases hdestroy
  · rename_i below' s₁ hchildren
    obtain ⟨rfl, rfl⟩ := Returned.ok.inj (Option.some.inj hdestroy)
    have hdetached : s.Detached below' := by
      by_contra hnot
      exact hlog (by simp [hnot])
    unfold State.childrenDestroy at hchildren
    split at hchildren
    · cases hchildren
    · rename_i below hsubtree
      obtain ⟨rfl, rfl⟩ := Prod.mk.inj (Option.some.inj hchildren)
      have hlt := h.subtree_lt (h.child n) hsubtree
      obtain ⟨hreg, hgone⟩ := gone_foldl below h.toRegistered hlt
      have hlive := h.destroy hreg hgone hdetached
      -- the children of the node are left out
      have hnodes : ∀ m, (Function.update (below.foldl State.destroyNode s).nodes n
          { (below.foldl State.destroyNode s).nodes n with children := [] } m).stmt =
            ((below.foldl State.destroyNode s).nodes m).stmt ∧
          (Function.update (below.foldl State.destroyNode s).nodes n
          { (below.foldl State.destroyNode s).nodes n with children := [] } m).data =
            ((below.foldl State.destroyNode s).nodes m).data := by
        intro m
        by_cases hm : m = n
        · subst hm
          simp
        · simp [hm]
      refine ⟨⟨hlive.entry, hlive.fresh_data, hlive.fresh_node, ?_, ?_, hlive.nodup⟩,
        hlive.held, hlive.points, hlive.gathered⟩
      · intro p c hc
        by_cases hp : p = n
        · subst hp
          simp at hc
        · exact hlive.child p c (by simpa [hp] using hc)
      · intro id m hm
        obtain ⟨hstmt, hdata⟩ := hnodes m
        dsimp only
        rw [hstmt, hdata]
        exact hlive.declared id m hm

end Shrinking

section Steps

variable {s s' : State κ σ}

/-- A new declaration, built or copied. -/
theorem Live.declare (h : Live s) (dest : Nat) (d : Copy.Decl) {id : Nat} {sym : Copy.State}
    (hentries : ∀ ns i key id', sym.tables ns i key = some id' →
      id' = id ∨ s.sym.tables ns i key = some id')
    (hid : id < sym.next) (hnext : s.sym.next ≤ sym.next)
    (hdatum : s.sym.next ≤ id ∨ s.declNodes id ≠ []) (hs' : s'.sym = sym)
    (hdeclNodes : s'.declNodes = Function.update s.declNodes id (s.declNodes id ++ [s.next]))
    (hnodes : s'.nodes = (s.addNode dest (.decl d) id).nodes)
    (hnext' : s'.next = s.next + 1) (hdead : s'.dead = s.dead)
    (hheld : ∀ n, s'.held n = (s.addNode dest (.decl d) id).held n)
    (hpointed : ∀ id, s'.pointed id = s.pointed id) (hgathered : s'.gathered = s.gathered) :
    Live s' := by
  have hadd := h.addNode dest (.decl d) id
  refine hadd.register (n := s.next) (Nat.lt_succ_self _)
    (h.fresh_node _ (Nat.le_refl _)) ?_ ?_ ?_ ?_ ?_ ?_ hdatum ?_ ?_ hnodes hnext' hdead hheld
    hpointed hgathered
  · exact ⟨d, by simp [State.addNode]⟩
  · simp [State.addNode]
  · intro hmem
    exact Nat.lt_irrefl _ (h.declared id s.next hmem).1
  · rw [hs']
    exact hentries
  · rw [hs']
    exact hid
  · rw [hs']
    exact hnext
  · rw [hdeclNodes, Function.update_self]
    rfl
  · intro id' hne
    rw [hdeclNodes, Function.update_of_ne hne]
    rfl

theorem Live.build (h : Live s) {fuel dest new : Nat} {stmt : Stmt κ}
    (hbuild : buildNode fuel dest stmt s = some (.ok new s')) : Live s' := by
  unfold buildNode at hbuild
  split at hbuild
  · cases hbuild
  · split at hbuild
    · cases hbuild
    · split at hbuild
      · cases hbuild
      · rename_i _ d _ _ _ _ sym hgen
        obtain ⟨_, rfl⟩ := Returned.ok.inj (Option.some.inj hbuild)
        obtain ⟨hentries, hnext⟩ := Copy.genNode_entries hgen
        exact h.declare dest d hentries (by omega) (by omega)
          (Or.inl (Nat.le_refl _)) rfl rfl rfl rfl rfl (fun _ => rfl) (fun _ => rfl) rfl
  · obtain ⟨_, rfl⟩ := Returned.ok.inj (Option.some.inj hbuild)
    exact h.withTables.addNode dest _ _
  · obtain ⟨_, rfl⟩ := Returned.ok.inj (Option.some.inj hbuild)
    exact h.withTables.addNode dest _ _
  · obtain ⟨_, rfl⟩ := Returned.ok.inj (Option.some.inj hbuild)
    exact h.addNode dest _ _

private theorem mem_pointed_link {n b id m : Nat} :
    m ∈ State.pointed { s with
      block := Function.update s.block n (some b)
      biNodes := Function.update s.biNodes b (some ((s.biNodes b).getD [] ++ [n])) } id ↔
      m ∈ s.pointed id ∨ id = b ∧ m = n := by
  unfold State.pointed
  by_cases heq : id = b
  · subst heq
    simp only [Function.update_self, Option.getD_some, List.mem_append, List.mem_singleton,
      true_and]
    exact or_right_comm
  · simp [heq]

theorem Live.link (h : Live s) {n b : Nat} (hn : s.dead n = false) (hb : s.declNodes b ≠ []) :
    Live { s with
      block := Function.update s.block n (some b)
      biNodes := Function.update s.biNodes b (some ((s.biNodes b).getD [] ++ [n])) } := by
  refine h.refill rfl rfl rfl rfl rfl ?_ ?_ ?_ h.gathered
  · intro m hm hlive id hid
    rcases mem_held.mp hid with hid | hid
    · by_cases hmn : m = n
      · subst hmn
        simp only [Function.update_self, Option.some.injEq] at hid
        rw [← hid]
        exact hb
      · simp only [ne_eq, hmn, not_false_eq_true, Function.update_of_ne] at hid
        exact h.held m hm hlive id (mem_held.mpr (Or.inl hid))
    · exact h.held m hm hlive id (mem_held.mpr (Or.inr hid))
  · intro id hnone hnil
    have hne : id ≠ b := by
      intro heq
      rw [heq] at hnone
      exact hb hnone
    simpa [State.pointed, hne] using hnil
  · intro id hid m hm
    rcases mem_pointed_link.mp hm with hm | ⟨_, rfl⟩
    · exact h.points id hid m hm
    · exact hn

private theorem Live.setCallee (h : Live s) {n : Nat} {m : Option Nat} (copied : Nat → Bool)
    (hm : ∀ id, m = some id → s.declNodes id ≠ []) :
    Live { s with callee := Function.update s.callee n m, copied := copied } := by
  refine h.refill rfl rfl rfl rfl rfl ?_ (fun _ _ hnil => hnil) h.points h.gathered
  intro k hk hlive id hid
  rcases mem_held.mp hid with hid | hid | hid
  · exact h.held k hk hlive id (mem_held.mpr (Or.inl hid))
  · by_cases hkn : k = n
    · subst hkn
      simp only [Function.update_self] at hid
      exact hm id hid
    · simp only [ne_eq, hkn, not_false_eq_true, Function.update_of_ne] at hid
      exact h.held k hk hlive id (mem_held.mpr (Or.inr (Or.inl hid)))
  · exact h.held k hk hlive id (mem_held.mpr (Or.inr (Or.inr hid)))

theorem Live.fill (h : Live s) {r : Resolved σ} (hr : Named s r) :
    Live { s with
      refs := r.refs
      borrowed := r.borrowed
      gathered := r.gathered
      rest := r.rest } := by
  have hpointed : ∀ id m, m ∈ (s.biNodes id).getD [] ++ r.borrowed id →
      m ∈ s.pointed id ∨ Known s id ∧ s.dead m = false := by
    intro id m hm
    rcases List.mem_append.mp hm with hm | hm
    · exact Or.inl (List.mem_append_left _ hm)
    · exact (hr.borrowed id m hm).imp_left (List.mem_append_right _)
  refine h.refill rfl rfl rfl rfl rfl ?_ ?_ ?_ ?_
  · intro n hn hlive id hid
    rcases mem_held.mp hid with hid | hid | hid
    · exact h.held n hn hlive id (mem_held.mpr (Or.inl hid))
    · exact h.held n hn hlive id (mem_held.mpr (Or.inr (Or.inl hid)))
    · rcases hr.refs n id hid with hold | hknown
      · exact h.held n hn hlive id (mem_held.mpr (Or.inr (Or.inr hold)))
      · exact h.of_known hknown
  · intro id hnone hnil
    refine List.eq_nil_iff_forall_not_mem.mpr fun m hm => ?_
    rcases hpointed id m hm with hm | ⟨hknown, _⟩
    · rw [hnil] at hm
      cases hm
    · exact h.of_known hknown hnone
  · intro id hid m hm
    rcases hpointed id m hm with hm | ⟨_, hlive⟩
    · exact h.points id hid m hm
    · exact hlive
  · intro id hid
    exact h.of_known (hr.gathered id hid)

/-- The copy of a node points to nothing that the node does not point to. -/
theorem Live.copy (h : Live s) {fuel orig dest new : Nat} (hlt : orig < s.next)
    (hcopy : copyNode fuel orig dest s = some (.ok new s')) : Live s' := by
  unfold copyNode at hcopy
  split at hcopy
  · cases hcopy
  · rename_i hdead
    have horig : s.dead orig = false := Bool.eq_false_iff.mpr fun h => hdead (Or.inl h)
    split at hcopy
    · split at hcopy
      · cases hcopy
      · split at hcopy
        · cases hcopy
        · cases hcopy
        · rename_i id sym hdecl
          obtain ⟨_, rfl⟩ := Returned.ok.inj (Option.some.inj hcopy)
          obtain ⟨hentries, hdatum⟩ := Copy.copyDecl_entries hdecl
          have hplace : id < sym.next ∧ s.sym.next ≤ sym.next ∧
              (s.sym.next ≤ id ∨ s.declNodes id ≠ []) := by
            rcases hdatum with ⟨rfl, hnext⟩ | ⟨⟨ns, i, key, hentry⟩, hnext⟩
            · exact ⟨by omega, by omega, Or.inl (Nat.le_refl _)⟩
            · have hne := h.entry ns i key id hentry
              have hlt : id < s.sym.next := by
                by_contra hge
                exact hne (h.fresh_data id (Nat.le_of_not_lt hge)).1
              exact ⟨by omega, by omega, Or.inr hne⟩
          obtain ⟨hid, hnext, hdatum⟩ := hplace
          unfold State.noteCopied
          split_ifs
          · exact h.declare dest _ hentries hid hnext hdatum rfl rfl rfl rfl rfl (fun _ => rfl)
              (fun _ => rfl) rfl
          · exact h.declare dest _ hentries hid hnext hdatum rfl rfl rfl rfl rfl (fun _ => rfl)
              (fun _ => rfl) rfl
    · rename_i blockStr _
      split at hcopy
      · cases hcopy
      · rename_i b hb
        split at hcopy
        · cases hcopy
        · rename_i hdeclared
          split at hcopy
          · cases hcopy
          · rename_i bi hbi
            obtain ⟨_, rfl⟩ := Returned.ok.inj (Option.some.inj hcopy)
            have hnew : s.dead s.next = false := h.fresh_node s.next (Nat.le_refl _)
            have hlink := (h.addNode dest (.blockinherit blockStr) 0).link hnew hdeclared
            have hbi' : (s.addNode dest (.blockinherit blockStr) 0).biNodes b = some bi := hbi
            rw [hbi'] at hlink
            exact hlink
    · obtain ⟨_, rfl⟩ := Returned.ok.inj (Option.some.inj hcopy)
      refine (h.addNode dest _ 0).setCallee _ fun id hid => ?_
      exact h.held orig hlt horig id (mem_held.mpr (Or.inr (Or.inl hid)))
    · obtain ⟨_, rfl⟩ := Returned.ok.inj (Option.some.inj hcopy)
      exact h.withTables.addNode dest _ _
    · cases hcopy
    · cases hcopy
    · cases hcopy
    · obtain ⟨_, rfl⟩ := Returned.ok.inj (Option.some.inj hcopy)
      exact h.addNode dest _ _

variable {lookups : Lookups κ σ}

/-- Nothing is taken from the log. -/
private theorem step_log {ops : Ops κ σ} (hstep : Step ops s s') : s.log <+: s'.log := by
  cases hstep with
  | build hbuild => exact ((Optionals.buildNode_keeps _ _ _).goes hbuild).log
  | copy _ hcopy =>
    have hgoes : Optionals.Goes none s s' := (Optionals.copyNode_keeps _ _ _).goes hcopy
    exact hgoes.log
  | destroy hdestroy =>
    have hgoes : Optionals.Goes none s s' := (Optionals.childrenDestroy_keeps _ _).goes hdestroy
    exact hgoes.log
  | tunable _ => exact List.prefix_refl _
  | link _ _ => exact List.prefix_refl _
  | callee _ => exact List.prefix_refl _
  | fill _ => exact List.prefix_refl _
  | note _ _ => exact List.prefix_append _ _
  | mark _ _ _ _ _ _ _ => exact List.prefix_refl _

/-- One step keeps the invariant. -/
theorem Live.step (h : Live s) (hstep : Step lookups.toOps s s') (hlog : .freed true ∉ s'.log) :
    Live s' := by
  cases hstep with
  | build hbuild => exact h.build hbuild
  | copy horig hcopy => exact h.copy (h.child _ _ horig) hcopy
  | destroy hdestroy => exact h.childrenDestroy hdestroy hlog
  | @tunable n value refs hfound =>
    have hnamed : Named s ⟨.ok, Function.update s.refs n refs, s.borrowed, s.gathered, s.rest⟩ := by
      refine ⟨fun m id hid => ?_, fun _ _ hm => Or.inl hm, fun id hid => Or.inr (Or.inr hid)⟩
      by_cases hm : m = n
      · subst hm
        simp only [Function.update_self] at hid
        exact Or.inr (lookups.tunable_known s m value refs hfound id hid)
      · simp only [ne_eq, hm, not_false_eq_true, Function.update_of_ne] at hid
        exact Or.inl hid
    exact h.fill hnamed
  | link hn hb => exact h.link hn hb
  | callee hm =>
    refine h.setCallee s.copied fun id hid => ?_
    rw [← Option.some.inj hid]
    exact hm
  | fill hr =>
    refine h.fill ?_
    rcases hr with ⟨n, rfl⟩ | ⟨pass, n, rfl⟩ | ⟨pass, rfl⟩
    · exact lookups.callArgs_named s n
    · exact lookups.resolveNode_named pass s n
    · exact lookups.reset_named pass s
  | note enabled he =>
    exact h.refill rfl rfl rfl rfl rfl h.held (fun _ _ hnil => hnil) h.points h.gathered
  | mark isAbstract copied inList inMacro inBoolif changed rest =>
    exact h.refill rfl rfl rfl rfl rfl h.held (fun _ _ hnil => hnil) h.points h.gathered

/-- Any number of steps keeps the invariant: by induction on the steps. -/
theorem Live.steps (h : Live s) (hsteps : Steps lookups.toOps s s')
    (hlog : .freed true ∉ s'.log) : Live s' := by
  induction hsteps with
  | refl => exact h
  | tail _ hstep ih =>
    refine (ih fun hmem => hlog ?_).step hstep hlog
    exact (step_log hstep).subset hmem

end Steps

section Checkpoints

variable (ops : Ops κ σ) (fuel : Nat)

/-- A pass: its walk, and what follows it. -/
def runPass (pass : Pass) : M κ σ Unit := do
  walkFrom ops fuel pass fuel .empty 0 0
  endPass ops fuel pass

/-- The states at the end of each pass and of each reset, in the order in which
`resolveLoop` comes to them. -/
def checkpoints : Nat → List Pass → State κ σ → List (State κ σ)
  | 0, _, _ => []
  | _ + 1, [], _ => []
  | left + 1, pass :: rest, s =>
      match runPass ops fuel pass s with
      | some (.ok _ s₁) =>
          s₁ :: if s₁.changed = true ∧ pass ∈ afterCall1 then
            match resetAst ops pass s₁ with
            | some (.ok _ s₂) => s₂ :: checkpoints left afterCall1 { s₂ with changed := false }
            | _ => []
          else checkpoints left rest { s₁ with changed := false }
      | _ => []

/-- Those of a run on a policy. -/
def checkpointsOf (policy : List (Tree (Stmt κ))) (rest : σ) : List (State κ σ) :=
  match buildSiblings fuel 0 policy (.init rest) with
  | some (.ok _ s) => checkpoints ops fuel fuel allPasses s
  | _ => []

variable {ops fuel}

/-- Every state at the end of a pass or a reset is reached by steps. -/
private theorem steps_of_checkpoints {left : Nat} {passes : List Pass} {s t : State κ σ}
    (h : t ∈ checkpoints ops fuel left passes s) : Steps ops s t := by
  induction left generalizing passes s with
  | zero => cases h
  | succ left ih =>
    cases passes with
    | nil => cases h
    | cons pass rest =>
      rw [checkpoints] at h
      split at h
      · rename_i s₁ hrun
        have hpass : Steps ops s s₁ :=
          Follows.of_ok ((walkFrom_steps fuel pass fuel .empty 0 0).bind steps_progress
            fun _ => endPass_steps fuel pass) hrun
        have hunchanged : ∀ s : State κ σ, Steps ops s { s with changed := false } := fun s =>
          (Step.mark s.isAbstract s.copied s.inList s.inMacro s.inBoolif false s.rest).steps
        rcases List.mem_cons.mp h with rfl | h
        · exact hpass
        · refine hpass.trans ?_
          split_ifs at h
          · split at h
            · rename_i s₂ hreset
              have hreset' : Steps ops s₁ s₂ := (resetAst_steps pass).of_ok hreset
              rcases List.mem_cons.mp h with rfl | h
              · exact hreset'
              · exact (hreset'.trans (hunchanged s₂)).trans (ih h)
            · cases h
          · exact (hunchanged s₁).trans (ih h)
      · cases h

end Checkpoints

section Run

/-- The operations that succeed or fail by the statement leave the fields as they are. -/
def rootLookups : Lookups Bool Unit where
  toOps := Optionals.rootOps
  tunable_known s n value refs h id hid := by
    obtain ⟨_, rfl⟩ := Prod.mk.inj (Found.found.inj h)
    cases hid
  callArgs_named s n :=
    ⟨fun _ _ hid => Or.inl hid, fun _ _ hm => Or.inl hm, fun _ hid => by cases hid⟩
  resolveNode_named pass s n := by
    unfold Optionals.rootOps
    dsimp only
    split <;>
      exact ⟨fun _ _ hid => Or.inl hid, fun _ _ hm => Or.inl hm, fun _ hid => by cases hid⟩
  reset_named pass s := by
    refine ⟨fun n id hid => ?_, fun _ _ hm => Or.inl hm, fun id hid => ?_⟩
    · cases hid
    · cases hid

/-- `(block b ()) (optional o (blockinherit b) (blockinherit missing))`. -/
def earlyDisabled : List (Tree (Stmt Bool)) :=
  [.node (.decl ⟨.block, "b", []⟩) [],
    .node (.decl ⟨.optional, "o", []⟩)
      [.node (.blockinherit "b") [], .node (.blockinherit "missing") []]]

end Run
end Cil.Resolve.Dangling
