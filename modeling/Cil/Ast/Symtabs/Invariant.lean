/- Cil/Ast/Symtabs/Invariant
   digest: What holds of nodes, data and symbol tables between any two steps. -/

import Mathlib.Data.List.Basic
import Mathlib.Logic.Relation
import Cil.Ast.Symtabs

set_option autoImplicit false
set_option relaxedAutoImplicit false

namespace Cil.Ast.Symtabs

open Copy (Decl Namespace Param)

section Agreement

/-- The nodes of the tree, from the root on. -/
inductive AstNode (s : State) : Nat → Prop
  | root (halive : s.dead 0 = false) : AstNode s 0
  | child {p c : Nat} (hp : AstNode s p) (hc : c ∈ (s.nodes p).children) : AstNode s c

/-- The nodes of a declaration. -/
def State.nodesOf (s : State) (id : Nat) : List Nat := (s.data id).nodes.getD []

/-- Symbol tables and tree agree on who is alive: a declaration is in its table just if it has
nodes, these are the nodes of the tree whose data it is, and it is freed once when there are
none left. -/
structure Agree (s : State) : Prop where
  alive : ∀ n, AstNode s n → s.dead n = false
  entry : ∀ ns i key id, s.tables ns i key = some id ↔
    (s.data id).symtab = some (ns, i) ∧ (s.data id).name = key
  listed : ∀ id, (∃ ns i key, s.tables ns i key = some id) ↔ s.nodesOf id ≠ []
  exact : ∀ id n, n ∈ s.nodesOf id ↔ AstNode s n ∧ ∃ flavor, (s.nodes n).stmt = .decl flavor id
  once : ∀ id, (s.nodesOf id).Nodup
  freed : ∀ id, s.freed.count id = if id < s.nextDatum ∧ s.nodesOf id = [] then 1 else 0

/-- The tables, and the nodes of the declarations that were there, are as they were. -/
def Unchanged (s s' : State) : Prop :=
  s'.tables = s.tables ∧ ∀ id < s.nextDatum, s'.nodesOf id = s.nodesOf id

end Agreement

section Conditions

/-- A declaration of this name can be made below the node. -/
def CanDeclare (s : State) (parent : Nat) (d : Decl) : Prop :=
  verifyName d.name = true ∧ ∃ ns, s.getSymtab parent (flavorToSymtabIndex d.flavor) = some ns ∧
    s.tables ns (flavorToSymtabIndex d.flavor) d.name = none ∧
      ⟨d.flavor, d.name⟩ ∉ s.macroParams parent

/-- All permissions are different names. -/
def PermsDeclared (perms : List (Option String)) : Prop :=
  (∀ p ∈ perms, ∃ key, p = some key ∧ verifyName key = true) ∧ perms.Nodup

/-- Not even the first permission is a name. -/
def FirstRefused : List (Option String) → Prop
  | [] => False
  | none :: _ => True
  | some key :: _ => verifyName key = false

/-- No class is taken back that has a permission already, and a node is destroyed by itself only
if nothing is below it and it is below nothing. -/
def Clean (s : State) : Op → Prop
  | .gen parent d perms =>
      permFlavor d.flavor ≠ none → CanDeclare s parent d → PermsDeclared perms ∨ FirstRefused perms
  | .nodeDestroy n =>
      (s.nodes n).children = [] ∧ ∀ p, AstNode s p → n ∉ (s.nodes p).children
  | _ => True

/-- Every step that is reached is clean in the state it is reached in. -/
def AllClean (fuel : Nat) (s : State) : List Op → Prop
  | [] => True
  | op :: ops => Clean s op ∧ ∀ rc s', step fuel s op = some (rc, s') → AllClean fuel s' ops

end Conditions

section Ancestors

variable {s s' : State}

/-- The second node is the first one, or above it. -/
def Under (s : State) : Nat → Nat → Prop :=
  Relation.ReflTransGen fun a b => a ≠ 0 ∧ (s.nodes a).parent = b

/-- The symbol tables are in the data of the node. -/
def Owns (s : State) (n : Nat) : Namespace → Prop
  | .root => (s.nodes n).stmt = .root
  | .ofDatum id => ∃ flavor, (s.nodes n).stmt = .decl flavor id
  | .ofCondblock k => k = n

/-- Parents are there, and have smaller numbers. -/
structure Rooted (s : State) : Prop where
  root : (s.nodes 0).stmt = .root
  only : ∀ n, s.Live n → (s.nodes n).stmt = .root → n = 0
  parent : ∀ n, s.Live n → n ≠ 0 → (s.nodes n).parent < n ∧ s.Live (s.nodes n).parent

private theorem spaceFrom_owner (hr : Rooted s) {fuel n : Nat} {ns : Namespace} (hn : s.Live n)
    (h : s.spaceFrom fuel n = some ns) : ∃ m, Under s n m ∧ s.Live m ∧ Owns s m ns := by
  induction fuel generalizing n with
  | zero => cases h
  | succ fuel ih =>
    -- where the search goes on above the node
    have above (hne : (s.nodes n).stmt ≠ .root)
        (hup : s.spaceFrom fuel (s.nodes n).parent = some ns) :
        ∃ m, Under s n m ∧ s.Live m ∧ Owns s m ns := by
      have hn0 : n ≠ 0 := by
        intro h0
        rw [h0] at hne
        exact hne hr.root
      obtain ⟨m, hm, hlive, howns⟩ := ih (hr.parent n hn hn0).2 hup
      exact ⟨m, Relation.ReflTransGen.head ⟨hn0, rfl⟩ hm, hlive, howns⟩
    rw [State.spaceFrom] at h
    split at h
    · rename_i hstmt
      obtain rfl := Option.some.inj h
      exact ⟨n, Relation.ReflTransGen.refl, hn, hstmt⟩
    · rename_i flavor id hstmt
      split_ifs at h
      · obtain rfl := Option.some.inj h
        exact ⟨n, Relation.ReflTransGen.refl, hn, flavor, hstmt⟩
      · exact above (by rw [hstmt]; simp) h
    · obtain rfl := Option.some.inj h
      exact ⟨n, Relation.ReflTransGen.refl, hn, rfl⟩
    · obtain rfl := Option.some.inj h
      exact ⟨n, Relation.ReflTransGen.refl, hn, rfl⟩
    · rename_i hroot _ _ _
      exact above hroot h

private theorem getSymtab_owner (hr : Rooted s) {n : Nat} {i : SymIndex} {ns : Namespace}
    (hn : s.Live n)
    (h : s.getSymtab n i = some ns) : ∃ m, Under s n m ∧ s.Live m ∧ Owns s m ns := by
  unfold State.getSymtab at h
  split at h
  · split at h
    · rename_i id hstmt
      obtain rfl := Option.some.inj h
      exact ⟨n, Relation.ReflTransGen.refl, hn, _, hstmt⟩
    · rename_i id hstmt
      obtain rfl := Option.some.inj h
      exact ⟨n, Relation.ReflTransGen.refl, hn, _, hstmt⟩
    · rename_i id hstmt
      obtain rfl := Option.some.inj h
      exact ⟨n, Relation.ReflTransGen.refl, hn, _, hstmt⟩
    · cases h
  · exact spaceFrom_owner hr hn h

/-- Where declarations go depends on what the nodes above are. -/
private theorem spaceFrom_congr (hr : Rooted s)
    (hsame : ∀ m, s.Live m → (s'.nodes m).stmt = (s.nodes m).stmt ∧
      (s'.nodes m).parent = (s.nodes m).parent) {fuel n : Nat} (hn : s.Live n) :
    s'.spaceFrom fuel n = s.spaceFrom fuel n := by
  induction fuel generalizing n with
  | zero => rfl
  | succ fuel ih =>
    obtain ⟨hstmt, hparent⟩ := hsame n hn
    have above (hne : (s.nodes n).stmt ≠ .root) :
        s'.spaceFrom fuel (s.nodes n).parent = s.spaceFrom fuel (s.nodes n).parent := by
      have hn0 : n ≠ 0 := by
        intro h0
        rw [h0] at hne
        exact hne hr.root
      exact ih (hr.parent n hn hn0).2
    rw [State.spaceFrom, State.spaceFrom, hstmt, hparent]
    cases hcase : (s.nodes n).stmt with
    | root => rfl
    | condblock b => cases b with
      | true => rfl
      | false => exact above (by rw [hcase]; simp)
    | inStmt => rfl
    | _ => simp only [above (by rw [hcase]; simp)]

theorem getSymtab_congr (hr : Rooted s)
    (hsame : ∀ m, s.Live m → (s'.nodes m).stmt = (s.nodes m).stmt ∧
      (s'.nodes m).parent = (s.nodes m).parent) {n : Nat} (hn : s.Live n) (i : SymIndex) :
    s'.getSymtab n i = s.getSymtab n i := by
  unfold State.getSymtab State.space
  rw [(hsame n hn).1, spaceFrom_congr hr hsame hn]

end Ancestors

section Invariant

variable {s s' : State} {pend : List Nat}

/-- The tree; the nodes that are `pend` do not hang below their parents yet. -/
structure Shape (pend : List Nat) (s : State) : Prop extends Rooted s where
  first : 0 < s.next
  attached : ∀ n, s.Live n → n ≠ 0 → n ∉ pend → n ∈ (s.nodes (s.nodes n).parent).children
  child : ∀ p, s.Live p → ∀ c ∈ (s.nodes p).children,
    c < s.next ∧ c ≠ 0 ∧ (s.nodes c).parent = p ∧ c ∉ pend
  nodup : ∀ p, s.Live p → (s.nodes p).children.Nodup
  fresh : ∀ n, s.next ≤ n → s.dead n = false

/-- No node has a child that has been destroyed. -/
def Whole (s : State) : Prop := ∀ p, s.Live p → ∀ c ∈ (s.nodes p).children, s.Live c

/-- The data of the nodes that are there. -/
structure Data (s : State) : Prop where
  registered : ∀ id n, n ∈ s.nodesOf id ↔ s.Live n ∧ ∃ flavor, (s.nodes n).stmt = .decl flavor id
  once : ∀ id, (s.nodesOf id).Nodup
  entry : ∀ ns i key id, s.tables ns i key = some id ↔
    (s.data id).symtab = some (ns, i) ∧ (s.data id).name = key
  listed : ∀ id, (s.data id).symtab ≠ none ↔ s.nodesOf id ≠ []
  bounded : ∀ id, s.nextDatum ≤ id → s.nodesOf id = []
  freed : ∀ id, s.freed.count id = if id < s.nextDatum ∧ s.nodesOf id = [] then 1 else 0
  place : ∀ n flavor id, s.Live n → (s.nodes n).stmt = .decl flavor id →
    ∃ ns, (s.data id).symtab = some (ns, flavorToSymtabIndex flavor) ∧
      s.getSymtab (s.nodes n).parent (flavorToSymtabIndex flavor) = some ns

/-- Between the steps. -/
structure Inv (s : State) : Prop where
  shape : Shape [] s
  whole : Whole s
  data : Data s

private theorem Shape.live_zero (h : Shape pend s) (hdead : s.dead 0 = false) : s.Live 0 :=
  ⟨h.first, hdead, by rw [h.root]; simp⟩

/-- The nodes of the tree are those that are there. -/
theorem Inv.astNode_iff (h : Inv s) (n : Nat) : AstNode s n ↔ s.Live n := by
  constructor
  · intro hn
    induction hn with
    | root halive => exact h.shape.live_zero halive
    | child _ hc ih => exact h.whole _ ih _ hc
  · intro hn
    induction n using Nat.strongRecOn with
    | ind n ih =>
      by_cases hn0 : n = 0
      · subst hn0
        exact .root hn.2.1
      · obtain ⟨hlt, hparent⟩ := h.shape.parent n hn hn0
        exact .child (ih _ hlt hparent) (h.shape.attached n hn hn0 (by simp))

theorem Data.in_table_iff (h : Data s) (id : Nat) :
    (∃ ns i key, s.tables ns i key = some id) ↔ s.nodesOf id ≠ [] := by
  rw [← h.listed id]
  constructor
  · intro hin
    obtain ⟨ns, i, key, hentry⟩ := hin
    rw [((h.entry ns i key id).mp hentry).1]
    simp
  · intro hne
    obtain ⟨p, hp⟩ := Option.ne_none_iff_exists'.mp hne
    exact ⟨p.1, p.2, _, (h.entry p.1 p.2 _ id).mpr ⟨hp, rfl⟩⟩

theorem Inv.agree (h : Inv s) : Agree s where
  alive n hn := ((h.astNode_iff n).mp hn).2.1
  entry := h.data.entry
  listed := h.data.in_table_iff
  exact id n := by rw [h.data.registered, h.astNode_iff]
  once := h.data.once
  freed := h.data.freed

theorem inv_init : Inv State.init := by
  have hlive : ∀ n, State.init.Live n ↔ n = 0 := by
    intro n
    simp [State.Live, State.init]
  have hnodes : ∀ id, State.init.nodesOf id = [] := fun _ => rfl
  refine ⟨⟨⟨rfl, fun n hn _ => (hlive n).mp hn, ?_⟩, Nat.one_pos, ?_, ?_, ?_, fun _ _ => rfl⟩,
    ?_, ?_⟩
  · intro n hn hn0
    exact absurd ((hlive n).mp hn) hn0
  · intro n hn hn0
    exact absurd ((hlive n).mp hn) hn0
  · intro p _ c hc
    cases hc
  · intro p _
    exact List.nodup_nil
  · intro p _ c hc
    cases hc
  · refine ⟨?_, fun id => List.nodup_nil, ?_, ?_, fun _ _ => rfl, ?_, ?_⟩
    · intro id n
      rw [hnodes]
      simp [State.init]
    · intro ns i key id
      simp [State.init]
    · intro id
      simp [State.init, State.nodesOf]
    · intro id
      simp [State.init]
    · intro n flavor id _ hstmt
      cases hstmt

end Invariant

section Hanging

variable (s : State) (p n m : Nat)

@[simp] theorem attach_stmt : ((s.attach p n).nodes m).stmt = (s.nodes m).stmt := by
  by_cases hm : m = p
  · subst hm
    simp [State.attach]
  · simp [State.attach, hm]

@[simp] theorem attach_parent : ((s.attach p n).nodes m).parent = (s.nodes m).parent := by
  by_cases hm : m = p
  · subst hm
    simp [State.attach]
  · simp [State.attach, hm]

theorem attach_children : ((s.attach p n).nodes m).children =
    if m = p then (s.nodes m).children ++ [n] else (s.nodes m).children := by
  by_cases hm : m = p
  · subst hm
    simp [State.attach]
  · simp [State.attach, hm]

theorem attach_live : (s.attach p n).Live m ↔ s.Live m := by
  simp only [State.Live, attach_stmt]
  exact Iff.rfl

@[simp] theorem clearChildren_stmt : ((s.clearChildren n).nodes m).stmt = (s.nodes m).stmt := by
  by_cases hm : m = n
  · subst hm
    simp [State.clearChildren]
  · simp [State.clearChildren, hm]

@[simp] theorem clearChildren_parent :
    ((s.clearChildren n).nodes m).parent = (s.nodes m).parent := by
  by_cases hm : m = n
  · subst hm
    simp [State.clearChildren]
  · simp [State.clearChildren, hm]

theorem clearChildren_children : ((s.clearChildren n).nodes m).children =
    if m = n then [] else (s.nodes m).children := by
  by_cases hm : m = n
  · subst hm
    simp [State.clearChildren]
  · simp [State.clearChildren, hm]

theorem clearChildren_live : (s.clearChildren n).Live m ↔ s.Live m := by
  simp only [State.Live, clearChildren_stmt]
  exact Iff.rfl

end Hanging

section Adding

variable {s s' : State} {pend : List Nat} {p : Nat} {stmt : Stmt}

/-- A new node with something in it. -/
structure Adds (s s' : State) (p : Nat) (stmt : Stmt) : Prop where
  next : s'.next = s.next + 1
  nodes : s'.nodes = Function.update s.nodes s.next ⟨stmt, p, []⟩
  dead : s'.dead = s.dead

namespace Adds

variable (hadd : Adds s s' p stmt)
include hadd

theorem node_new : s'.nodes s.next = ⟨stmt, p, []⟩ := by
  rw [hadd.nodes, Function.update_self]

theorem node_old {n : Nat} (hn : n ≠ s.next) : s'.nodes n = s.nodes n := by
  rw [hadd.nodes, Function.update_of_ne hn]

theorem live_iff (hs : Shape pend s) (hstmt : stmt ≠ .none) (n : Nat) :
    s'.Live n ↔ s.Live n ∨ n = s.next := by
  by_cases hn : n = s.next
  · subst hn
    have hdead : s.dead s.next = false := hs.fresh _ (Nat.le_refl _)
    simp [State.Live, hadd.node_new, hadd.next, hadd.dead, hdead, hstmt]
  · simp only [State.Live, hadd.node_old hn, hadd.next, hadd.dead, hn, or_false]
    constructor
    · intro h
      exact ⟨by omega, h.2⟩
    · intro h
      exact ⟨by omega, h.2⟩

theorem shape (hs : Shape pend s) (hp : s.Live p) (hstmt : stmt ≠ .none) (hroot : stmt ≠ .root) :
    Shape (s.next :: pend) s' := by
  have hlive := hadd.live_iff hs hstmt
  have old : ∀ {n}, s.Live n → n ≠ s.next := fun hn => Nat.ne_of_lt hn.1
  refine ⟨⟨?_, ?_, ?_⟩, ?_, ?_, ?_, ?_, ?_⟩
  · rw [hadd.node_old (Nat.ne_of_lt hs.first)]
    exact hs.root
  · intro n hn hr
    rcases (hlive n).mp hn with hn | rfl
    · rw [hadd.node_old (old hn)] at hr
      exact hs.only n hn hr
    · rw [hadd.node_new] at hr
      exact absurd hr hroot
  · intro n hn hn0
    rcases (hlive n).mp hn with hn | rfl
    · rw [hadd.node_old (old hn)]
      obtain ⟨hlt, hparent⟩ := hs.parent n hn hn0
      exact ⟨hlt, (hlive _).mpr (Or.inl hparent)⟩
    · rw [hadd.node_new]
      exact ⟨hp.1, (hlive _).mpr (Or.inl hp)⟩
  · rw [hadd.next]
    exact Nat.succ_pos _
  · intro n hn hn0 hpend
    rw [List.mem_cons, not_or] at hpend
    rcases (hlive n).mp hn with hn | rfl
    · have hparent := (hs.parent n hn hn0).2
      rw [hadd.node_old (old hn), hadd.node_old (old hparent)]
      exact hs.attached n hn hn0 hpend.2
    · exact absurd rfl hpend.1
  · intro q hq c hc
    rcases (hlive q).mp hq with hq | rfl
    · rw [hadd.node_old (old hq)] at hc
      obtain ⟨hlt, hc0, hparent, hpend⟩ := hs.child q hq c hc
      have hne : c ≠ s.next := Nat.ne_of_lt hlt
      refine ⟨by rw [hadd.next]; omega, hc0, ?_, ?_⟩
      · rw [hadd.node_old hne]
        exact hparent
      · rw [List.mem_cons, not_or]
        exact ⟨hne, hpend⟩
    · rw [hadd.node_new] at hc
      cases hc
  · intro q hq
    rcases (hlive q).mp hq with hq | rfl
    · rw [hadd.node_old (old hq)]
      exact hs.nodup q hq
    · rw [hadd.node_new]
      exact List.nodup_nil
  · intro n hn
    rw [hadd.next] at hn
    rw [hadd.dead]
    exact hs.fresh n (by omega)

theorem whole (hs : Shape pend s) (hw : Whole s) (hstmt : stmt ≠ .none) : Whole s' := by
  have hlive := hadd.live_iff hs hstmt
  intro q hq c hc
  rcases (hlive q).mp hq with hq | rfl
  · rw [hadd.node_old (Nat.ne_of_lt hq.1)] at hc
    exact (hlive c).mpr (Or.inl (hw q hq c hc))
  · rw [hadd.node_new] at hc
    cases hc

theorem getSymtab (hs : Shape pend s) {n : Nat} (hn : s.Live n) (i : SymIndex) :
    s'.getSymtab n i = s.getSymtab n i := by
  refine getSymtab_congr hs.toRooted (fun m hm => ?_) hn i
  rw [hadd.node_old (Nat.ne_of_lt hm.1)]
  exact ⟨rfl, rfl⟩

end Adds

/-- A new node is hung below its parent. -/
theorem Shape.attach {n : Nat} (hs : Shape (n :: pend) s) (hn : s.Live n) (hn0 : n ≠ 0)
    (hpend : n ∉ pend) (hp : (s.nodes n).parent = p) : Shape pend (s.attach p n) := by
  have hlive := attach_live s p n
  refine ⟨⟨?_, ?_, ?_⟩, hs.first, ?_, ?_, ?_, hs.fresh⟩
  · rw [attach_stmt]
    exact hs.root
  · intro m hm hr
    rw [attach_stmt] at hr
    exact hs.only m ((hlive m).mp hm) hr
  · intro m hm hm0
    rw [attach_parent]
    obtain ⟨hlt, hparent⟩ := hs.parent m ((hlive m).mp hm) hm0
    exact ⟨hlt, (hlive _).mpr hparent⟩
  · intro m hm hm0 hmpend
    rw [attach_parent, attach_children]
    by_cases hmn : m = n
    · subst hmn
      rw [if_pos hp]
      simp
    · have hin := hs.attached m ((hlive m).mp hm) hm0 (by simp [hmn, hmpend])
      split_ifs
      · exact List.mem_append_left _ hin
      · exact hin
  · intro q hq c hc
    rw [attach_children] at hc
    rw [attach_parent]
    have hold : c ∈ (s.nodes q).children →
        c < s.next ∧ c ≠ 0 ∧ (s.nodes c).parent = q ∧ c ∉ pend := by
      intro hc
      obtain ⟨hlt, hc0, hparent, hcpend⟩ := hs.child q ((hlive q).mp hq) c hc
      exact ⟨hlt, hc0, hparent, fun h => hcpend (List.mem_cons_of_mem _ h)⟩
    split_ifs at hc with hqp
    · rcases List.mem_append.mp hc with hc | hc
      · exact hold hc
      · obtain rfl := List.mem_singleton.mp hc
        exact ⟨hn.1, hn0, by rw [hp, hqp], hpend⟩
    · exact hold hc
  · intro q hq
    rw [attach_children]
    have hnodup := hs.nodup q ((hlive q).mp hq)
    split_ifs
    · refine List.nodup_append.mpr ⟨hnodup, by simp, ?_⟩
      intro a ha b hb
      obtain rfl := List.mem_singleton.mp hb
      intro hab
      subst hab
      exact (hs.child q ((hlive q).mp hq) a ha).2.2.2 (List.mem_cons_self ..)
    · exact hnodup

end Adding

section Declaring

variable {s s' : State} {pend : List Nat} {p : Nat}

/-- Tables and data are the same, and so are the nodes that are there. -/
theorem Data.congr (hd : Data s) (hr : Rooted s) (htables : s'.tables = s.tables)
    (hdata : s'.data = s.data) (hnext : s'.nextDatum = s.nextDatum) (hfreed : s'.freed = s.freed)
    (hlive : ∀ n, s'.Live n ↔ s.Live n)
    (hnodes : ∀ n, s.Live n → (s'.nodes n).stmt = (s.nodes n).stmt ∧
      (s'.nodes n).parent = (s.nodes n).parent) : Data s' := by
  have hof : ∀ id, s'.nodesOf id = s.nodesOf id := fun id => by rw [State.nodesOf, hdata]; rfl
  refine ⟨?_, ?_, ?_, ?_, ?_, ?_, ?_⟩
  · intro id n
    rw [hof, hd.registered, hlive]
    constructor
    · intro h
      obtain ⟨hn, hstmt⟩ := h
      exact ⟨hn, by rw [(hnodes n hn).1]; exact hstmt⟩
    · intro h
      obtain ⟨hn, hstmt⟩ := h
      exact ⟨hn, by rw [(hnodes n hn).1] at hstmt; exact hstmt⟩
  · intro id
    rw [hof]
    exact hd.once id
  · intro ns i key id
    rw [htables, hdata]
    exact hd.entry ns i key id
  · intro id
    rw [hof, hdata]
    exact hd.listed id
  · intro id hid
    rw [hof]
    exact hd.bounded id (by rw [hnext] at hid; exact hid)
  · intro id
    rw [hof, hfreed, hnext]
    exact hd.freed id
  · intro n flavor id hn hstmt
    have hn' := (hlive n).mp hn
    obtain ⟨hsame, hparent⟩ := hnodes n hn'
    rw [hsame] at hstmt
    obtain ⟨ns, hsym, hget⟩ := hd.place n flavor id hn' hstmt
    refine ⟨ns, by rw [hdata]; exact hsym, ?_⟩
    by_cases hn0 : n = 0
    · subst hn0
      rw [hr.root] at hstmt
      cases hstmt
    · rw [hparent, getSymtab_congr hr hnodes (hr.parent n hn' hn0).2]
      exact hget

theorem Data.attach {n : Nat} (hd : Data s) (hr : Rooted s) : Data (s.attach p n) :=
  hd.congr hr rfl rfl rfl rfl (attach_live s p n) fun m _ =>
    ⟨attach_stmt s p n m, attach_parent s p n m⟩

theorem Data.other {stmt : Stmt} (hd : Data s) (hs : Shape pend s) (hadd : Adds s s' p stmt)
    (hstmt : stmt.isOther = true) (htables : s'.tables = s.tables) (hdata : s'.data = s.data)
    (hnext : s'.nextDatum = s.nextDatum) (hfreed : s'.freed = s.freed) : Data s' := by
  have hnone : stmt ≠ .none := by
    rintro rfl
    cases hstmt
  have hlive := hadd.live_iff hs hnone
  have hof : ∀ id, s'.nodesOf id = s.nodesOf id := fun id => by rw [State.nodesOf, hdata]; rfl
  have hnew : ∀ flavor id, (s'.nodes s.next).stmt ≠ .decl flavor id := by
    intro flavor id h
    rw [hadd.node_new] at h
    simp only at h
    rw [h] at hstmt
    cases hstmt
  have hold : ∀ n, s.Live n → s'.nodes n = s.nodes n :=
    fun n hn => hadd.node_old (Nat.ne_of_lt hn.1)
  refine ⟨?_, ?_, ?_, ?_, ?_, ?_, ?_⟩
  · intro id n
    rw [hof, hd.registered, hlive]
    constructor
    · intro h
      obtain ⟨hn, hdecl⟩ := h
      exact ⟨Or.inl hn, by rw [hold n hn]; exact hdecl⟩
    · intro h
      obtain ⟨hn | rfl, flavor, hdecl⟩ := h
      · exact ⟨hn, flavor, by rw [hold n hn] at hdecl; exact hdecl⟩
      · exact absurd hdecl (hnew flavor id)
  · intro id
    rw [hof]
    exact hd.once id
  · intro ns i key id
    rw [htables, hdata]
    exact hd.entry ns i key id
  · intro id
    rw [hof, hdata]
    exact hd.listed id
  · intro id hid
    rw [hof]
    exact hd.bounded id (by rw [hnext] at hid; exact hid)
  · intro id
    rw [hof, hfreed, hnext]
    exact hd.freed id
  · intro n flavor id hn hdecl
    rcases (hlive n).mp hn with hn | rfl
    · rw [hold n hn] at hdecl ⊢
      obtain ⟨ns, hsym, hget⟩ := hd.place n flavor id hn hdecl
      refine ⟨ns, by rw [hdata]; exact hsym, ?_⟩
      have hn0 : n ≠ 0 := by
        rintro rfl
        rw [hs.root] at hdecl
        cases hdecl
      rw [hadd.getSymtab hs (hs.parent n hn hn0).2]
      exact hget
    · exact absurd hdecl (hnew flavor id)

/-- A new node of a declaration, registered in its datum. -/
structure Declares (s s' : State) (p : Nat) (flavor : Flavor) (id : Nat) : Prop extends
    Adds s s' p (.decl flavor id) where
  freed : s'.freed = s.freed
  nodesOf : ∀ id', s'.nodesOf id' = if id' = id then s.nodesOf id ++ [s.next] else s.nodesOf id'
  bound : id < s'.nextDatum
  grown : s.nextDatum ≤ s'.nextDatum
  only : ∀ id', s.nextDatum ≤ id' → id' < s'.nextDatum → id' = id
  known : s.nextDatum ≤ id ∨ s.nodesOf id ≠ []
  kept : ∀ id', s.nodesOf id' ≠ [] → (s'.data id').symtab = (s.data id').symtab
  others : ∀ id', id' ≠ id → (s'.data id').symtab = (s.data id').symtab
  entry : ∀ ns i key id', s'.tables ns i key = some id' ↔
    (s'.data id').symtab = some (ns, i) ∧ (s'.data id').name = key
  place : ∃ ns, (s'.data id).symtab = some (ns, flavorToSymtabIndex flavor) ∧
    s.getSymtab p (flavorToSymtabIndex flavor) = some ns

section Declared

variable {flavor : Flavor} {id : Nat} (hd : Data s) (hs : Shape pend s)
  (h : Declares s s' p flavor id)

include hd hs h

theorem Declares.registered (id' n : Nat) :
    n ∈ s'.nodesOf id' ↔ s'.Live n ∧ ∃ flavor, (s'.nodes n).stmt = .decl flavor id' := by
  have hold : ∀ n, s.Live n → s'.nodes n = s.nodes n :=
    fun n hn => h.toAdds.node_old (Nat.ne_of_lt hn.1)
  have hnew := h.toAdds.node_new
  rw [h.nodesOf, h.toAdds.live_iff hs (by simp)]
  by_cases hid : id' = id
  · subst hid
    rw [if_pos rfl, List.mem_append, List.mem_singleton, hd.registered]
    constructor
    · intro hin
      rcases hin with ⟨hn, hdecl⟩ | rfl
      · exact ⟨Or.inl hn, by rw [hold n hn]; exact hdecl⟩
      · exact ⟨Or.inr rfl, flavor, by rw [hnew]⟩
    · intro hin
      obtain ⟨hn | rfl, hdecl⟩ := hin
      · rw [hold n hn] at hdecl
        exact Or.inl ⟨hn, hdecl⟩
      · exact Or.inr rfl
  · rw [if_neg hid, hd.registered]
    constructor
    · intro hin
      obtain ⟨hn, hdecl⟩ := hin
      exact ⟨Or.inl hn, by rw [hold n hn]; exact hdecl⟩
    · intro hin
      obtain ⟨hn | rfl, flavor', hdecl⟩ := hin
      · rw [hold n hn] at hdecl
        exact ⟨hn, flavor', hdecl⟩
      · rw [hnew] at hdecl
        injection hdecl with _ heq
        exact absurd heq.symm hid

omit hs in
/-- What had no node and is not the new datum has none now, and the new one was not freed. -/
private theorem Declares.freed_count (id' : Nat) :
    s'.freed.count id' = if id' < s'.nextDatum ∧ s'.nodesOf id' = [] then 1 else 0 := by
  rw [h.freed, h.nodesOf, hd.freed]
  by_cases hid : id' = id
  · subst hid
    rw [if_pos rfl]
    have hleft : ¬ (id' < s.nextDatum ∧ s.nodesOf id' = []) := by
      intro hboth
      rcases h.known with hle | hne
      · exact absurd hboth.1 (Nat.not_lt.mpr hle)
      · exact hne hboth.2
    rw [if_neg hleft, if_neg]
    simp
  · rw [if_neg hid]
    have hiff : id' < s'.nextDatum ↔ id' < s.nextDatum := by
      constructor
      · intro hlt
        by_contra hge
        exact hid (h.only id' (Nat.not_lt.mp hge) hlt)
      · intro hlt
        exact Nat.lt_of_lt_of_le hlt h.grown
    simp only [hiff]

theorem Declares.placed (hp : s.Live p) (n : Nat) (flavor' : Flavor) (id' : Nat)
    (hn : s'.Live n) (hdecl : (s'.nodes n).stmt = .decl flavor' id') :
    ∃ ns, (s'.data id').symtab = some (ns, flavorToSymtabIndex flavor') ∧
      s'.getSymtab (s'.nodes n).parent (flavorToSymtabIndex flavor') = some ns := by
  have hnew := h.toAdds.node_new
  rcases (h.toAdds.live_iff hs (by simp) n).mp hn with hn | rfl
  · rw [h.toAdds.node_old (Nat.ne_of_lt hn.1)] at hdecl ⊢
    obtain ⟨ns, hsym, hget⟩ := hd.place n flavor' id' hn hdecl
    have hne : s.nodesOf id' ≠ [] := by
      have hin := (hd.registered id' n).mpr ⟨hn, flavor', hdecl⟩
      exact List.ne_nil_of_mem hin
    have hn0 : n ≠ 0 := by
      rintro rfl
      rw [hs.root] at hdecl
      cases hdecl
    refine ⟨ns, by rw [h.kept id' hne]; exact hsym, ?_⟩
    rw [h.toAdds.getSymtab hs (hs.parent n hn hn0).2]
    exact hget
  · rw [hnew] at hdecl
    injection hdecl with hflavor hid
    subst hflavor hid
    obtain ⟨ns, hsym, hget⟩ := h.place
    refine ⟨ns, hsym, ?_⟩
    rw [hnew, h.toAdds.getSymtab hs hp]
    exact hget

end Declared

theorem Data.declares {flavor : Flavor} {id : Nat} (hd : Data s) (hs : Shape pend s)
    (hp : s.Live p) (h : Declares s s' p flavor id) : Data s' := by
  refine ⟨h.registered hd hs, ?_, h.entry, ?_, ?_, h.freed_count hd, h.placed hd hs hp⟩
  · intro id'
    rw [h.nodesOf]
    split_ifs with hid
    · refine List.nodup_append.mpr ⟨hd.once id, by simp, ?_⟩
      intro a ha b hb
      obtain rfl := List.mem_singleton.mp hb
      rintro rfl
      exact absurd ((hd.registered id _).mp ha).1.1 (Nat.lt_irrefl _)
    · exact hd.once id'
  · intro id'
    rw [h.nodesOf]
    by_cases hid : id' = id
    · subst hid
      obtain ⟨ns, hsym, _⟩ := h.place
      rw [hsym]
      simp
    · rw [if_neg hid, h.others id' hid]
      exact hd.listed id'
  · intro id' hle
    have hne : id' ≠ id := by
      rintro rfl
      exact absurd h.bound (Nat.not_lt.mpr hle)
    rw [h.nodesOf, if_neg hne]
    exact hd.bounded id' (Nat.le_trans h.grown hle)

end Declaring

section Inserting

variable {s : State} {pend : List Nat} {p id n : Nat} {flavor : Flavor} {key : String}
  {ns : Namespace} {i : SymIndex}

theorem setEntry_tables_iff {e : Option Nat} (ns' : Namespace) (i' : SymIndex) (key' : String) :
    (s.setEntry ns i key e).tables ns' i' key' =
      if ns' = ns ∧ i' = i ∧ key' = key then e else s.tables ns' i' key' := by
  by_cases hns : ns' = ns
  · subst hns
    by_cases hi : i' = i
    · subst hi
      by_cases hkey : key' = key
      · subst hkey
        simp [State.setEntry]
      · simp [State.setEntry, hkey]
    · simp [State.setEntry, hi]
  · simp [State.setEntry, hns]

/-- A new node and a new datum. -/
def State.fresh (s : State) (p : Nat) (flavor : Flavor) (params : List Param) : State :=
  (s.alloc flavor params).newNode p (.decl flavor s.nextDatum)

theorem initDecl_setStmt (params : List Param) :
    (initDecl s p flavor params).setStmt s.next (.decl flavor s.nextDatum) =
      s.fresh p flavor params := by
  simp [initDecl, State.setStmt, State.fresh, State.newNode, State.alloc]

/-- A new datum is entered under a free name. -/
theorem declares_fresh (hd : Data s) (params : List Param)
    (hns : s.getSymtab p (flavorToSymtabIndex flavor) = some ns)
    (hfree : s.tables ns (flavorToSymtabIndex flavor) key = none) :
    Declares s ((s.fresh p flavor params).symtabInsert ns (flavorToSymtabIndex flavor) key
      s.nextDatum s.next).2 p flavor s.nextDatum := by
  have hins : ((s.fresh p flavor params).symtabInsert ns (flavorToSymtabIndex flavor) key
      s.nextDatum s.next).2 =
        ((((s.fresh p flavor params).setEntry ns (flavorToSymtabIndex flavor) key
          (some s.nextDatum)).setDatum s.nextDatum fun d =>
            { d with name := key, symtab := some (ns, flavorToSymtabIndex flavor) }).appendNode
              s.nextDatum s.next) := by
    unfold State.symtabInsert
    have hnone : (s.fresh p flavor params).tables ns (flavorToSymtabIndex flavor) key = none :=
      hfree
    rw [hnone]
  rw [hins]
  have hempty := hd.bounded s.nextDatum (Nat.le_refl _)
  -- what stands in the data
  have hself : ((((s.fresh p flavor params).setEntry ns (flavorToSymtabIndex flavor) key
      (some s.nextDatum)).setDatum s.nextDatum fun d =>
        { d with name := key, symtab := some (ns, flavorToSymtabIndex flavor) }).appendNode
          s.nextDatum s.next).data s.nextDatum =
            ⟨flavor, params, key, some (ns, flavorToSymtabIndex flavor), some [s.next]⟩ := by
    simp [State.appendNode, State.setDatum, State.setEntry, State.fresh, State.newNode, State.alloc]
  have hother : ∀ id', id' ≠ s.nextDatum →
      ((((s.fresh p flavor params).setEntry ns (flavorToSymtabIndex flavor) key
        (some s.nextDatum)).setDatum s.nextDatum fun d =>
          { d with name := key, symtab := some (ns, flavorToSymtabIndex flavor) }).appendNode
            s.nextDatum s.next).data id' = s.data id' := by
    intro id' hne
    simp [State.appendNode, State.setDatum, State.setEntry, State.fresh, State.newNode, State.alloc,
      hne]
  refine ⟨⟨rfl, rfl, rfl⟩, rfl, ?_, Nat.lt_succ_self _, Nat.le_succ _, ?_, Or.inl (Nat.le_refl _),
    ?_, ?_, ?_, ?_⟩
  · intro id'
    unfold State.nodesOf
    by_cases hid : id' = s.nextDatum
    · subst hid
      rw [if_pos rfl, hself]
      have hnil : (s.data s.nextDatum).nodes.getD [] = [] := hempty
      rw [hnil]
      rfl
    · rw [if_neg hid, hother id' hid]
  · intro id' hle hlt
    have hlt' : id' < s.nextDatum + 1 := hlt
    omega
  · intro id' hne
    have hid : id' ≠ s.nextDatum := by
      rintro rfl
      exact hne hempty
    rw [hother id' hid]
  · intro id' hid
    rw [hother id' hid]
  · intro ns' i' key' id'
    have htables : ((((s.fresh p flavor params).setEntry ns (flavorToSymtabIndex flavor) key
        (some s.nextDatum)).setDatum s.nextDatum fun d =>
          { d with name := key, symtab := some (ns, flavorToSymtabIndex flavor) }).appendNode
            s.nextDatum s.next).tables ns' i' key' =
              if ns' = ns ∧ i' = flavorToSymtabIndex flavor ∧ key' = key then some s.nextDatum
              else s.tables ns' i' key' := setEntry_tables_iff ns' i' key'
    rw [htables]
    by_cases hid : id' = s.nextDatum
    · subst hid
      rw [hself]
      constructor
      · intro hentry
        split_ifs at hentry with hkey
        · obtain ⟨rfl, rfl, rfl⟩ := hkey
          exact ⟨rfl, rfl⟩
        · have hsym := ((hd.entry ns' i' key' s.nextDatum).mp hentry).1
          have hne := (hd.listed s.nextDatum).mp (by rw [hsym]; simp)
          exact absurd hempty hne
      · intro hsym
        obtain ⟨hplace, rfl⟩ := hsym
        obtain ⟨rfl, rfl⟩ := Prod.mk.inj (Option.some.inj hplace)
        rw [if_pos ⟨rfl, rfl, rfl⟩]
    · rw [hother id' hid, ← hd.entry]
      split_ifs with hkey
      · obtain ⟨rfl, rfl, rfl⟩ := hkey
        rw [hfree]
        constructor
        · intro heq
          exact absurd (Option.some.inj heq).symm hid
        · intro heq
          cases heq
      · exact Iff.rfl
  · exact ⟨ns, by rw [hself], hns⟩

/-- A new node of a datum that has the name. -/
theorem declares_merged (hd : Data s)
    (hns : s.getSymtab p (flavorToSymtabIndex flavor) = some ns)
    (htaken : s.tables ns (flavorToSymtabIndex flavor) key = some id) :
    Declares s ((s.newNode p (.decl flavor id)).symtabInsert ns (flavorToSymtabIndex flavor) key
      id s.next).2 p flavor id := by
  have hins : ((s.newNode p (.decl flavor id)).symtabInsert ns (flavorToSymtabIndex flavor) key
      id s.next).2 = (s.newNode p (.decl flavor id)).appendNode id s.next := by
    unfold State.symtabInsert
    have hsome : (s.newNode p (.decl flavor id)).tables ns (flavorToSymtabIndex flavor) key =
        some id := htaken
    rw [hsome]
  rw [hins]
  obtain ⟨hsym, hname⟩ := (hd.entry _ _ _ _).mp htaken
  have hne : s.nodesOf id ≠ [] := (hd.listed id).mp (by rw [hsym]; simp)
  have hlt : id < s.nextDatum := by
    by_contra hge
    exact hne (hd.bounded id (Nat.not_lt.mp hge))
  obtain ⟨l, hl⟩ : ∃ l, (s.data id).nodes = some l := by
    cases hnodes : (s.data id).nodes with
    | none => exact absurd (by rw [State.nodesOf, hnodes]; rfl) hne
    | some l => exact ⟨l, rfl⟩
  have hself : ((s.newNode p (.decl flavor id)).appendNode id s.next).data id =
      { s.data id with nodes := some (l ++ [s.next]) } := by
    simp [State.appendNode, State.setDatum, State.newNode, hl]
  have hother : ∀ id', id' ≠ id →
      ((s.newNode p (.decl flavor id)).appendNode id s.next).data id' = s.data id' := by
    intro id' hid
    simp [State.appendNode, State.setDatum, State.newNode, hid]
  have hkept : ∀ id',
      (((s.newNode p (.decl flavor id)).appendNode id s.next).data id').symtab =
        (s.data id').symtab ∧
      (((s.newNode p (.decl flavor id)).appendNode id s.next).data id').name =
        (s.data id').name := by
    intro id'
    by_cases hid : id' = id
    · subst hid
      rw [hself]
      exact ⟨rfl, rfl⟩
    · rw [hother id' hid]
      exact ⟨rfl, rfl⟩
  refine ⟨⟨rfl, rfl, rfl⟩, rfl, ?_, hlt, Nat.le_refl _, ?_, Or.inr hne, ?_, ?_, ?_, ?_⟩
  · intro id'
    unfold State.nodesOf
    by_cases hid : id' = id
    · subst hid
      rw [if_pos rfl, hself, hl]
      rfl
    · rw [if_neg hid, hother id' hid]
  · intro id' hle hlt'
    have hlt'' : id' < s.nextDatum := hlt'
    omega
  · intro id' _
    exact (hkept id').1
  · intro id' _
    exact (hkept id').1
  · intro ns' i' key' id'
    rw [(hkept id').1, (hkept id').2]
    exact hd.entry ns' i' key' id'
  · exact ⟨ns, by rw [(hkept id).1]; exact hsym, hns⟩

end Inserting

section Emptiness

variable {s : State} {pend : List Nat}

/-- A namespace that no node owns has empty tables. -/
theorem no_tables (hs : Shape pend s) (hd : Data s) {ns : Namespace}
    (howner : ∀ n m, s.Live n → n ≠ 0 → Under s (s.nodes n).parent m → s.Live m → ¬ Owns s m ns) :
    (∀ id, (s.data id).symtab.map Prod.fst ≠ some ns) ∧ ∀ i key, s.tables ns i key = none := by
  have hnone : ∀ id, (s.data id).symtab.map Prod.fst ≠ some ns := by
    intro id hsym
    have hne : (s.data id).symtab ≠ none := by
      intro h
      rw [h] at hsym
      cases hsym
    obtain ⟨n, hin⟩ := List.exists_mem_of_ne_nil _ ((hd.listed id).mp hne)
    obtain ⟨hn, flavor, hdecl⟩ := (hd.registered id n).mp hin
    obtain ⟨ns', hsym', hget⟩ := hd.place n flavor id hn hdecl
    rw [hsym'] at hsym
    obtain rfl := Option.some.inj hsym
    have hn0 : n ≠ 0 := by
      rintro rfl
      rw [hs.root] at hdecl
      cases hdecl
    obtain ⟨m, hunder, hm, howns⟩ := getSymtab_owner hs.toRooted (hs.parent n hn hn0).2 hget
    exact howner n m hn hn0 hunder hm howns
  refine ⟨hnone, fun i key => ?_⟩
  cases hentry : s.tables ns i key with
  | none => rfl
  | some id =>
    have hsym := ((hd.entry ns i key id).mp hentry).1
    exact absurd (by rw [hsym]; rfl) (hnone id)

/-- Nothing is in the tables of a datum that no node has. -/
theorem no_tables_of_new (hs : Shape pend s) (hd : Data s) {id : Nat} (hnil : s.nodesOf id = []) :
    (∀ id', (s.data id').symtab.map Prod.fst ≠ some (.ofDatum id)) ∧
      ∀ i key, s.tables (.ofDatum id) i key = none := by
  refine no_tables hs hd ?_
  intro n m _ _ _ hm howns
  obtain ⟨flavor, hdecl⟩ := howns
  have hin := (hd.registered id m).mpr ⟨hm, flavor, hdecl⟩
  rw [hnil] at hin
  cases hin

theorem symtabArrayDestroy_eq {ns : Namespace}
    (h : (∀ id, (s.data id).symtab.map Prod.fst ≠ some ns) ∧ ∀ i key, s.tables ns i key = none) :
    s.symtabArrayDestroy ns = s := by
  have htables : Function.update s.tables ns (fun _ _ => none) = s.tables := by
    funext ns' i key
    by_cases hns : ns' = ns
    · subst hns
      rw [Function.update_self, h.2 i key]
    · rw [Function.update_of_ne hns]
  unfold State.symtabArrayDestroy
  simp only [htables, h.1, if_false]

end Emptiness

section Frames

variable (s : State) (id n : Nat)

@[simp] theorem removeDatum_nodes : (s.removeDatum id).nodes = s.nodes := by
  unfold State.removeDatum
  split <;> rfl

@[simp] theorem removeDatum_next : (s.removeDatum id).next = s.next := by
  unfold State.removeDatum
  split <;> rfl

@[simp] theorem removeDatum_dead : (s.removeDatum id).dead = s.dead := by
  unfold State.removeDatum
  split <;> rfl

@[simp] theorem removeDatum_freed : (s.removeDatum id).freed = s.freed := by
  unfold State.removeDatum
  split <;> rfl

@[simp] theorem removeDatum_nextDatum : (s.removeDatum id).nextDatum = s.nextDatum := by
  unfold State.removeDatum
  split <;> rfl

theorem datumDestroy_data (id' : Nat) :
    (s.datumDestroy id).data id' =
      if id' = id then { s.data id with symtab := none, nodes := none } else s.data id' := by
  unfold State.datumDestroy State.removeDatum
  by_cases hid : id' = id
  · subst hid
    rw [if_pos rfl]
    split
    · rename_i hnone
      simp only [State.setDatum, Function.update_self] at hnone ⊢
      rw [hnone]
    · simp [State.setDatum, State.setEntry]
  · rw [if_neg hid]
    split
    · simp [State.setDatum, hid]
    · simp [State.setDatum, State.setEntry, hid]

/-- The entry of a datum that is in a table is taken from it. -/
theorem datumDestroy_tables :
    (s.datumDestroy id).tables =
      match (s.data id).symtab with
      | none => s.tables
      | some (ns, i) => (s.setEntry ns i (s.data id).name none).tables := by
  unfold State.datumDestroy State.removeDatum
  have hdatum : (s.setDatum id fun d => { d with nodes := none }).data id =
      { s.data id with nodes := none } := by
    simp [State.setDatum]
  rw [hdatum]
  dsimp only
  cases (s.data id).symtab with
  | none => rfl
  | some place => rfl

theorem datumDestroy_frame :
    (s.datumDestroy id).nodes = s.nodes ∧ (s.datumDestroy id).next = s.next ∧
      (s.datumDestroy id).dead = s.dead ∧ (s.datumDestroy id).freed = s.freed ∧
        (s.datumDestroy id).nextDatum = s.nextDatum := by
  unfold State.datumDestroy
  simp [State.setDatum]

/-- Without tables of its own a datum is only taken from its table and freed. -/
theorem destroyData_eq
    (h : (∀ id', ((s.datumDestroy id).data id').symtab.map Prod.fst ≠ some (.ofDatum id)) ∧
      ∀ i key, (s.datumDestroy id).tables (.ofDatum id) i key = none) :
    s.destroyData id = { s.datumDestroy id with freed := s.freed ++ [id] } := by
  unfold State.destroyData
  rw [symtabArrayDestroy_eq h]

end Frames

end Cil.Ast.Symtabs
