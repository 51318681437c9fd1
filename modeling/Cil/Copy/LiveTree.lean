/- Cil/Copy/LiveTree
   digest: A copy walks the tree that it appends to, and ends where it is made outside it. -/

import Mathlib.Logic.Relation
import Cil.Copy.Statements

/-!
`cil_copy_ast` goes from node to node of the original while the new nodes become children of
the destination. Where the destination is in the original, the walk comes to what it has
appended.
-/

set_option autoImplicit false
set_option relaxedAutoImplicit false

namespace Cil.Copy.Statements

/-- The nodes of the tree, and the first number not in use. -/
structure Nodes where
  stmt : Nat → Stmt
  children : Nat → List Nat
  next : Nat

namespace Nodes

/-- `cil_tree_node_init`; the new node becomes the last child of its parent. -/
def append (t : Nodes) (parent : Nat) (st : Stmt) : Nodes where
  stmt := Function.update t.stmt t.next st
  children := Function.update (Function.update t.children t.next []) parent
    (t.children parent ++ [t.next])
  next := t.next + 1

/-- The second node is the first, or lies below it. -/
def Below (t : Nodes) : Nat → Nat → Prop := Relation.ReflTransGen fun n c => c ∈ t.children n

/-- Nodes that are not in use have no children, and are none. -/
structure Closed (t : Nodes) : Prop where
  unused : ∀ n, t.next ≤ n → t.children n = []
  bounded : ∀ n, ∀ c ∈ t.children n, c < t.next

/-- The walk from a child of the original on comes to the destination. -/
def Reaches (t : Nodes) (orig k dest : Nat) : Prop :=
  (dest = orig ∧ k < (t.children orig).length) ∨ ∃ c ∈ (t.children orig).drop k, t.Below c dest

mutual

/-- The tree of which a node is the root. -/
def HoldsNode (t : Nodes) : Nat → Tree Stmt → Prop
  | n, .node st children => t.stmt n = st ∧ HoldsSiblings t (t.children n) children

def HoldsSiblings (t : Nodes) : List Nat → List (Tree Stmt) → Prop
  | [], [] => True
  | n :: ns, x :: xs => HoldsNode t n x ∧ HoldsSiblings t ns xs
  | _, _ => False

end

end Nodes

/-- `cil_copy_ast`, from the child number `k` of the original on; `none` when it does not end
within the fuel. `dest` is the place that the node `dst` is. -/
def copyFrom : Nat → Nat → Nat → Nat → Dest → Nodes → State → Option (Except Stop (Nodes × State))
  | 0, _, _, _, _, _, _ => none
  | fuel + 1, orig, k, dst, dest, t, s =>
      match (t.children orig)[k]? with
      | none => some (.ok (t, s))
      | some c =>
          match copyStmt s dest (t.stmt c) with
          | .error stop => some (.error stop)
          | .ok (new, s₁) =>
              match copyFrom fuel c 0 t.next (destBelow s₁ dest new).1 (t.append dst new)
                  (destBelow s₁ dest new).2 with
              | some (.ok (t₂, s₂)) => copyFrom fuel orig (k + 1) dst dest t₂ s₂
              | r => r

section Endless

variable {t t' t₁ t₂ t₃ : Nodes} {s s' : State} {dest : Dest} {orig k dst a b : Nat}

/-- A run that has ended ends the same with more fuel. -/
private theorem copyFrom_succ {fuel : Nat} {r : Except Stop (Nodes × State)}
    (h : copyFrom fuel orig k dst dest t s = some r) :
    copyFrom (fuel + 1) orig k dst dest t s = some r := by
  induction fuel generalizing orig k dst dest t s r with
  | zero => cases h
  | succ fuel ih =>
    rw [copyFrom] at h ⊢
    split at h
    · exact h
    · split at h
      · exact h
      · split at h
        · rename_i hinner
          rw [ih hinner]
          exact ih h
        · rename_i hinner
          rw [ih h]
          cases r with
          | error stop => rfl
          | ok p => exact absurd h (hinner p.1 p.2)

theorem copyFrom_le {fuel fuel' : Nat} {r : Except Stop (Nodes × State)} (hle : fuel ≤ fuel')
    (h : copyFrom fuel orig k dst dest t s = some r) :
    copyFrom fuel' orig k dst dest t s = some r := by
  induction hle with
  | refl => exact h
  | step _ ih => exact copyFrom_succ ih

/-- Nodes are only added, at the end. -/
structure Grown (t t' : Nodes) : Prop where
  closed : t'.Closed
  next : t.next ≤ t'.next
  children : ∀ n, t.children n <+: t'.children n

theorem Grown.trans (h : Grown t₁ t₂) (h' : Grown t₂ t₃) : Grown t₁ t₃ where
  closed := h'.closed
  next := Nat.le_trans h.next h'.next
  children n := (h.children n).trans (h'.children n)

theorem Grown.below (h : Grown t t') (hbelow : t.Below a b) : t'.Below a b :=
  Relation.ReflTransGen.mono (fun n _ hc => (h.children n).subset hc) _ _ hbelow

private theorem append_children_of_ne {n : Nat} {st : Stmt} (hto : n ≠ dst) (hnext : n ≠ t.next) :
    (t.append dst st).children n = t.children n := by
  simp [Nodes.append, hto, hnext]

private theorem append_children_self {st : Stmt} :
    (t.append dst st).children dst = t.children dst ++ [t.next] := by
  simp [Nodes.append]

private theorem append_children_next {st : Stmt} (hto : dst < t.next) :
    (t.append dst st).children t.next = [] := by
  simp [Nodes.append, Nat.ne_of_gt hto]

private theorem grown_append (hclosed : t.Closed) (hto : dst < t.next) (st : Stmt) :
    Grown t (t.append dst st) where
  closed := by
    refine ⟨fun n hn => ?_, fun n c hc => ?_⟩
    · have hlt : t.next < n := hn
      rw [append_children_of_ne (by omega) (by omega)]
      exact hclosed.unused n (by omega)
    · show c < t.next + 1
      by_cases hn : n = dst
      · subst hn
        rw [append_children_self] at hc
        rcases List.mem_append.mp hc with hc | hc
        · exact Nat.lt_succ_of_lt (hclosed.bounded n c hc)
        · rw [List.mem_singleton.mp hc]
          exact Nat.lt_succ_self _
      · by_cases hnext : n = t.next
        · subst hnext
          rw [append_children_next hto] at hc
          cases hc
        · rw [append_children_of_ne hn hnext] at hc
          exact Nat.lt_succ_of_lt (hclosed.bounded n c hc)
  next := Nat.le_succ _
  children n := by
    by_cases hn : n = dst
    · subst hn
      rw [append_children_self]
      exact List.prefix_append _ _
    · by_cases hnext : n = t.next
      · rw [hnext, hclosed.unused t.next (Nat.le_refl _)]
        exact List.nil_prefix
      · simp only [append_children_of_ne hn hnext, List.prefix_rfl]

private theorem copyFrom_grown {fuel : Nat} (hclosed : t.Closed) (hto : dst < t.next)
    (h : copyFrom fuel orig k dst dest t s = some (.ok (t', s'))) : Grown t t' := by
  induction fuel generalizing orig k dst dest t s t' s' with
  | zero => cases h
  | succ fuel ih =>
    rw [copyFrom] at h
    split at h
    · cases h
      exact ⟨hclosed, Nat.le_refl _, fun _ => List.prefix_rfl⟩
    · split at h
      · cases h
      · rename_i new s₁ _
        have happend := grown_append hclosed hto new
        split at h
        · rename_i t₂ s₂ hinner
          have hbelow : Grown (t.append dst new) t₂ :=
            ih happend.closed (Nat.lt_succ_self t.next) hinner
          have hgrown := happend.trans hbelow
          exact hgrown.trans (ih hgrown.closed (Nat.lt_of_lt_of_le hto hgrown.next) h)
        · rename_i hinner
          exact absurd h (hinner t' s')

/-- A copy into the subtree that is walked does not end well: whatever is appended is still to
be walked. -/
theorem copyFrom_of_reaches {fuel : Nat} (hclosed : t.Closed) (hto : dst < t.next)
    (hreaches : t.Reaches orig k dst) :
    copyFrom fuel orig k dst dest t s ≠ some (.ok (t', s')) := by
  induction fuel generalizing orig k dst dest t s t' s' with
  | zero =>
    intro h
    cases h
  | succ fuel ih =>
    intro h
    rw [copyFrom] at h
    split at h
    · rename_i hk
      have hlen := List.getElem?_eq_none_iff.mp hk
      rcases hreaches with ⟨_, hlt⟩ | ⟨c, hc, _⟩
      · omega
      · rw [List.drop_eq_nil_of_le hlen] at hc
        cases hc
    · rename_i c hk
      obtain ⟨hlt, hget⟩ := List.getElem?_eq_some_iff.mp hk
      split at h
      · cases h
      · rename_i new s₁ _
        have happend := grown_append hclosed hto new
        have hnew : t.next ∈ (t.append dst new).children dst := by
          rw [append_children_self]
          exact List.mem_append_right _ List.mem_cons_self
        split at h
        · rename_i t₂ s₂ hinner
          have hgrown₂ := copyFrom_grown happend.closed (Nat.lt_succ_self t.next) hinner
          have hgrown := happend.trans hgrown₂
          refine ih hgrown.closed (Nat.lt_of_lt_of_le hto hgrown.next) ?_ h
          rcases hreaches with ⟨rfl, _⟩ | ⟨c', hc', hbelow⟩
          · -- what was appended comes after the last child
            left
            refine ⟨rfl, ?_⟩
            have hlen := (hgrown₂.children dst).length_le
            rw [append_children_self, List.length_append, List.length_singleton] at hlen
            omega
          · rw [List.drop_eq_getElem_cons hlt, hget] at hc'
            rcases List.mem_cons.mp hc' with rfl | hlater
            · -- the destination is below this child, and so is its copy
              refine absurd hinner (ih happend.closed (Nat.lt_succ_self t.next) (Or.inr ?_))
              rw [List.drop_zero]
              rcases Relation.ReflTransGen.cases_head hbelow with rfl | ⟨d, hd, hdto⟩
              · exact ⟨t.next, hnew, Relation.ReflTransGen.refl⟩
              · exact ⟨d, (happend.children c').subset hd, (happend.below hdto).tail hnew⟩
            · right
              refine ⟨c', ?_, hgrown.below hbelow⟩
              obtain ⟨added, hadded⟩ := hgrown.children orig
              rw [← hadded, List.drop_append]
              exact List.mem_append_left _ hlater
        · rename_i hinner
          exact absurd h (hinner t' s')

end Endless

section Apart

variable {t t' t₁ t₂ : Nodes} {P : Nat → Prop}

/-- Nodes that stay as they are, with all that is below them. -/
structure Keeps (P : Nat → Prop) (t t' : Nodes) : Prop where
  below : ∀ n, P n → ∀ c ∈ t.children n, P c
  stmt : ∀ n, P n → t'.stmt n = t.stmt n
  children : ∀ n, P n → t'.children n = t.children n

mutual

private theorem Keeps.holdsNode (h : Keeps P t t') (n : Nat) (x : Tree Stmt) (hn : P n)
    (hx : t.HoldsNode n x) : t'.HoldsNode n x := by
  match x with
  | .node st children =>
      rw [Nodes.HoldsNode] at hx ⊢
      rw [h.stmt n hn, h.children n hn]
      exact ⟨hx.1, h.holdsSiblings _ children (h.below n hn) hx.2⟩

private theorem Keeps.holdsSiblings (h : Keeps P t t') (ns : List Nat) (xs : List (Tree Stmt))
    (hns : ∀ n ∈ ns, P n) (hxs : t.HoldsSiblings ns xs) : t'.HoldsSiblings ns xs := by
  match ns, xs with
  | [], [] => exact trivial
  | n :: ns, x :: xs =>
      obtain ⟨hn, hrest⟩ := List.forall_mem_cons.mp hns
      exact ⟨h.holdsNode n x hn hxs.1, h.holdsSiblings ns xs hrest hxs.2⟩
  | [], _ :: _ => exact hxs
  | _ :: _, [] => exact hxs

end

theorem Keeps.below_iff (h : Keeps P t t') {a b : Nat} (ha : P a) :
    t'.Below a b → t.Below a b ∧ P b := by
  intro hbelow
  induction hbelow with
  | refl => exact ⟨Relation.ReflTransGen.refl, ha⟩
  | tail _ hstep ih =>
    rw [h.children _ ih.2] at hstep
    exact ⟨ih.1.tail hstep, h.below _ ih.2 _ hstep⟩

mutual

private theorem holdsNode_unique (n : Nat) (x y : Tree Stmt) (hx : t.HoldsNode n x)
    (hy : t.HoldsNode n y) : x = y := by
  match x, y with
  | .node st xs, .node st' ys =>
      obtain ⟨rfl, hxs⟩ := hx
      obtain ⟨rfl, hys⟩ := hy
      rw [holdsSiblings_unique _ xs ys hxs hys]

theorem holdsSiblings_unique (ns : List Nat) (xs ys : List (Tree Stmt))
    (hxs : t.HoldsSiblings ns xs) (hys : t.HoldsSiblings ns ys) : xs = ys := by
  match ns, xs, ys with
  | [], [], [] => rfl
  | n :: ns, x :: xs, y :: ys =>
      rw [holdsNode_unique n x y hxs.1 hys.1, holdsSiblings_unique ns xs ys hxs.2 hys.2]
  | [], _ :: _, _ => exact hxs.elim
  | [], [], _ :: _ => exact hys.elim
  | _ :: _, [], _ => exact hxs.elim
  | _ :: _, _ :: _, [] => exact hys.elim

end

/-- Nodes have been appended to one that was there, with new nodes only below them. -/
structure Appended (t t' : Nodes) (dst : Nat) (news : List Nat) : Prop where
  closed : t'.Closed
  next : t.next ≤ t'.next
  stmt : ∀ n, n < t.next → t'.stmt n = t.stmt n
  children : ∀ n, n < t.next → n ≠ dst → t'.children n = t.children n
  appended : t'.children dst = t.children dst ++ news
  fresh : ∀ n ∈ news, t.next ≤ n
  inner : ∀ n, t.next ≤ n → ∀ c ∈ t'.children n, t.next ≤ c

theorem Appended.refl (hclosed : t.Closed) (dst : Nat) : Appended t t dst [] where
  closed := hclosed
  next := Nat.le_refl _
  stmt _ _ := rfl
  children _ _ _ := rfl
  appended := (List.append_nil _).symm
  fresh n hn := by cases hn
  inner n hn c hc := by
    rw [hclosed.unused n hn] at hc
    cases hc

/-- What does not have the destination below it stays. -/
theorem Appended.keeps {dst : Nat} {news : List Nat} (hclosed : t.Closed)
    (h : Appended t t' dst news) : Keeps (fun n => n < t.next ∧ ¬ t.Below n dst) t t' where
  below n hn c hc := ⟨hclosed.bounded n c hc, fun hbelow => hn.2 (hbelow.head hc)⟩
  stmt n hn := h.stmt n hn.1
  children n hn := h.children n hn.1 fun heq => hn.2 (heq ▸ Relation.ReflTransGen.refl)

/-- The nodes that have been appended stay when others are. -/
private theorem Appended.keeps_new {dst : Nat} {news news' : List Nat} (hto : dst < t.next)
    (h : Appended t t₁ dst news) (h' : Appended t₁ t₂ dst news') :
    Keeps (fun n => t.next ≤ n ∧ n < t₁.next) t₁ t₂ where
  below n hn c hc := ⟨h.inner n hn.1 c hc, h.closed.bounded n c hc⟩
  stmt n hn := h'.stmt n hn.2
  children n hn := h'.children n hn.2 (by omega)

theorem Appended.trans {dst : Nat} {news news' : List Nat} (hto : dst < t.next)
    (h : Appended t t₁ dst news) (h' : Appended t₁ t₂ dst news') :
    Appended t t₂ dst (news ++ news') where
  closed := h'.closed
  next := Nat.le_trans h.next h'.next
  stmt n hn := by rw [h'.stmt n (Nat.lt_of_lt_of_le hn h.next), h.stmt n hn]
  children n hn hne := by
    rw [h'.children n (Nat.lt_of_lt_of_le hn h.next) hne, h.children n hn hne]
  appended := by rw [h'.appended, h.appended, List.append_assoc]
  fresh n hn := by
    rcases List.mem_append.mp hn with hn | hn
    · exact h.fresh n hn
    · exact Nat.le_trans h.next (h'.fresh n hn)
  inner n hn c hc := by
    by_cases hold : n < t₁.next
    · rw [h'.children n hold (by omega)] at hc
      exact h.inner n hn c hc
    · exact Nat.le_trans h.next (h'.inner n (by omega) c hc)

/-- A copied node with what is copied below it. -/
private theorem appended_node {dst : Nat} {st : Stmt} {news : List Nat} (hto : dst < t.next)
    (h : Appended (t.append dst st) t₁ t.next news) : Appended t t₁ dst [t.next] where
  closed := h.closed
  next := Nat.le_of_succ_le h.next
  stmt n hn := by
    rw [h.stmt n (Nat.lt_succ_of_lt hn)]
    exact Function.update_of_ne (Nat.ne_of_lt hn) _ _
  children n hn hne := by
    rw [h.children n (Nat.lt_succ_of_lt hn) (Nat.ne_of_lt hn),
      append_children_of_ne hne (Nat.ne_of_lt hn)]
  appended := by
    rw [h.children dst (Nat.lt_succ_of_lt hto) (Nat.ne_of_lt hto), append_children_self]
  fresh n hn := Nat.le_of_eq (List.mem_singleton.mp hn).symm
  inner n hn c hc := by
    by_cases heq : n = t.next
    · subst heq
      rw [h.appended, append_children_next hto, List.nil_append] at hc
      exact Nat.le_of_succ_le (h.fresh c hc)
    · exact Nat.le_of_succ_le (h.inner n (Nat.lt_of_le_of_ne hn (Ne.symm heq)) c hc)

private theorem holdsNode_of_appended {dst : Nat} {st : Stmt} {news : List Nat}
    {xs : List (Tree Stmt)} (hto : dst < t.next) (h : Appended (t.append dst st) t₁ t.next news)
    (hxs : t₁.HoldsSiblings news xs) : t₁.HoldsNode t.next (.node st xs) := by
  refine ⟨?_, ?_⟩
  · rw [h.stmt t.next (Nat.lt_succ_self t.next)]
    exact Function.update_self ..
  · rw [h.appended, append_children_next hto, List.nil_append]
    exact hxs

/-- The walk ends as the copy of the trees does, with what is copied below the destination. -/
def Follows (t : Nodes) (orig k dst : Nat) (dest : Dest) (s : State) :
    Except Stop (List (Tree Stmt) × State) → Prop
  | .error stop => ∃ enough, ∀ fuel, enough ≤ fuel →
      copyFrom fuel orig k dst dest t s = some (.error stop)
  | .ok (xs, s') => ∃ t' news, Appended t t' dst news ∧ t'.HoldsSiblings news xs ∧
      ∃ enough, ∀ fuel, enough ≤ fuel → copyFrom fuel orig k dst dest t s = some (.ok (t', s'))

/-- A node is copied, then what is below it, then the rest of the list. -/
private theorem follows_cons {t : Nodes} {orig k dst c : Nat} {dest : Dest} {s s₁ : State}
    {new : Stmt} {cs rest : List (Tree Stmt)} (hto : dst < t.next)
    (hk : (t.children orig)[k]? = some c) (hcopy : copyStmt s dest (t.stmt c) = .ok (new, s₁))
    (hbelow : Follows (t.append dst new) c 0 t.next (destBelow s₁ dest new).1
      (destBelow s₁ dest new).2
      (copySiblings (destBelow s₁ dest new).1 cs (destBelow s₁ dest new).2))
    (hlater : ∀ t₂ news s₂, Appended (t.append dst new) t₂ t.next news →
      Follows t₂ orig (k + 1) dst dest s₂ (copySiblings dest rest s₂)) :
    Follows t orig k dst dest s (copySiblings dest (.node (t.stmt c) cs :: rest) s) := by
  rw [copySiblings, copyNode, hcopy]
  dsimp only
  cases hcopies : copySiblings (destBelow s₁ dest new).1 cs (destBelow s₁ dest new).2 with
  | error stop =>
    rw [hcopies] at hbelow
    obtain ⟨enough, hrun⟩ := hbelow
    refine ⟨enough + 1, fun fuel hfuel => ?_⟩
    obtain ⟨fuel, rfl⟩ : ∃ n, fuel = n + 1 := ⟨fuel - 1, by omega⟩
    simp only [copyFrom, hk, hcopy, hrun fuel (Nat.le_of_succ_le_succ hfuel)]
  | ok q =>
    obtain ⟨cs', s₂⟩ := q
    rw [hcopies] at hbelow
    obtain ⟨t₂, news, hnew, hcs', enough, hrun⟩ := hbelow
    have happended := appended_node hto hnew
    have hrest := hlater t₂ news s₂ hnew
    dsimp only
    cases hcopies' : copySiblings dest rest s₂ with
    | error stop =>
      rw [hcopies'] at hrest
      obtain ⟨enough', hrun'⟩ := hrest
      refine ⟨max enough enough' + 1, fun fuel hfuel => ?_⟩
      obtain ⟨fuel, rfl⟩ : ∃ n, fuel = n + 1 := ⟨fuel - 1, by omega⟩
      simp only [copyFrom, hk, hcopy, hrun fuel (by omega)]
      exact hrun' fuel (by omega)
    | ok q =>
      obtain ⟨rest', s₃⟩ := q
      rw [hcopies'] at hrest
      obtain ⟨t₃, news', hnew', hrest', enough', hrun'⟩ := hrest
      refine ⟨t₃, t.next :: news', happended.trans hto hnew', ⟨?_, hrest'⟩,
        max enough enough' + 1, fun fuel hfuel => ?_⟩
      · exact (happended.keeps_new hto hnew').holdsNode t.next (.node new cs')
          ⟨Nat.le_refl _, happended.closed.bounded dst t.next (by simp [happended.appended])⟩
          (holdsNode_of_appended hto hnew hcs')
      · obtain ⟨fuel, rfl⟩ : ∃ n, fuel = n + 1 := ⟨fuel - 1, by omega⟩
        simp only [copyFrom, hk, hcopy, hrun fuel (by omega)]
        exact hrun' fuel (by omega)

/-- Apart from the destination the walk is the copy of the trees. -/
theorem copyFrom_follows (xs : List (Tree Stmt)) (t : Nodes) (orig k dst : Nat) (dest : Dest)
    (s : State) (hclosed : t.Closed) (hto : dst < t.next)
    (hxs : t.HoldsSiblings ((t.children orig).drop k) xs) (hapart : ¬ t.Reaches orig k dst) :
    Follows t orig k dst dest s (copySiblings dest xs s) := by
  match xs with
  | [] =>
      have hk : (t.children orig)[k]? = none := by
        rw [← List.head?_drop]
        cases hdrop : (t.children orig).drop k with
        | nil => rfl
        | cons c ns =>
          rw [hdrop] at hxs
          exact hxs.elim
      refine ⟨t, [], .refl hclosed dst, trivial, 1, fun fuel hfuel => ?_⟩
      obtain ⟨fuel, rfl⟩ : ∃ n, fuel = n + 1 := ⟨fuel - 1, by omega⟩
      simp only [copyFrom, hk]
  | .node st cs :: rest =>
      obtain ⟨c, hlt, hget⟩ : ∃ c, ∃ hlt : k < (t.children orig).length,
          (t.children orig)[k] = c := by
        by_cases hlt : k < (t.children orig).length
        · exact ⟨_, hlt, rfl⟩
        · rw [List.drop_eq_nil_of_le (Nat.le_of_not_lt hlt)] at hxs
          exact hxs.elim
      have hk : (t.children orig)[k]? = some c := List.getElem?_eq_some_iff.mpr ⟨hlt, hget⟩
      rw [List.drop_eq_getElem_cons hlt, hget] at hxs
      obtain ⟨⟨rfl, hcs⟩, hrest⟩ := hxs
      have hother : orig ≠ dst := fun heq => hapart (Or.inl ⟨heq.symm, hlt⟩)
      have hnot : ∀ d ∈ (t.children orig).drop k, d < t.next ∧ ¬ t.Below d dst := fun d hd =>
        ⟨hclosed.bounded orig d (List.mem_of_mem_drop hd), fun h => hapart (Or.inr ⟨d, hd, h⟩)⟩
      rw [List.drop_eq_getElem_cons hlt, hget] at hnot
      obtain ⟨hc, hns⟩ := List.forall_mem_cons.mp hnot
      have horig : orig < t.next := by
        by_contra hge
        rw [hclosed.unused orig (Nat.le_of_not_lt hge)] at hk
        cases hk
      cases hcopy : copyStmt s dest (t.stmt c) with
      | error stop =>
        rw [copySiblings, copyNode, hcopy]
        refine ⟨1, fun fuel hfuel => ?_⟩
        obtain ⟨fuel, rfl⟩ : ∃ n, fuel = n + 1 := ⟨fuel - 1, by omega⟩
        simp only [copyFrom, hk, hcopy]
      | ok p =>
        obtain ⟨new, s₁⟩ := p
        have hclosed₁ := (grown_append hclosed hto new).closed
        have hkeeps := (appended_node hto (.refl hclosed₁ t.next)).keeps hclosed
        refine follows_cons hto hk hcopy ?below ?later
        case below =>
          refine copyFrom_follows cs (t.append dst new) c 0 t.next _ _ hclosed₁
            (Nat.lt_succ_self t.next) ?_ ?_
          · rw [List.drop_zero, hkeeps.children c hc]
            exact hkeeps.holdsSiblings _ cs (hkeeps.below c hc) hcs
          · rintro (⟨heq, _⟩ | ⟨d, hd, hd'⟩)
            · exact absurd hc.1 (heq ▸ Nat.lt_irrefl _)
            · rw [List.drop_zero, hkeeps.children c hc] at hd
              exact absurd (hkeeps.below_iff (hkeeps.below c hc d hd) hd').2.1 (Nat.lt_irrefl _)
        case later =>
          intro t₂ news s₂ hnew
          have happended := appended_node hto hnew
          have hkeeps₂ := happended.keeps hclosed
          have hsame : t₂.children orig = t.children orig := happended.children orig horig hother
          refine copyFrom_follows rest t₂ orig (k + 1) dst dest s₂ happended.closed
            (Nat.lt_of_lt_of_le hto happended.next) ?_ ?_
          · rw [hsame]
            exact hkeeps₂.holdsSiblings _ rest hns hrest
          · rintro (⟨heq, _⟩ | ⟨d, hd, hd'⟩)
            · exact hother heq.symm
            · rw [hsame] at hd
              exact (hns d hd).2 (hkeeps₂.below_iff (hns d hd) hd').1

end Apart

end Cil.Copy.Statements
