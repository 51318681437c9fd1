/- Cil/Post/NumberingFaithful
   digest: When the values of the types and roles that occur denote these and nothing else. -/

import Mathlib.Data.List.Nodup
import Cil.Post.Numbering

set_option autoImplicit false
set_option relaxedAutoImplicit false

namespace Cil.Post.Numbering

variable {α τ ρ : Type}

/-- The datums that occur in a statement outside macros and abstract blocks. -/
def occurring (refers : NodeData τ ρ → List α) (ast : Tree (NodeData τ ρ)) : List α :=
  (ast.walk NodeData.skipHead).flatMap refers

/-- The values of the datums are below their number, lead back to them and are different. -/
structure Numbered (s : Values α) (valTo : Nat → Option α) (xs : List α) : Prop where
  lt_num : ∀ x ∈ xs, s.value x < s.num
  valTo_value : ∀ x ∈ xs, valTo (s.value x) = some x
  injective : ∀ x ∈ xs, ∀ y ∈ xs, s.value x = s.value y → x = y

/-- A datum is declared outside macros and abstract blocks. -/
def Declared.Outside {decl : NodeData τ ρ → Option (Nat × α)} {refers : NodeData τ ρ → List α}
    {ast : Tree (NodeData τ ρ)} (D : Declared decl refers ast) (x : α) : Prop :=
  ∀ s ∈ D.space x, s.skipHead = false

section Counting

/-- The datums counted among declarations. -/
def counted (nodes : α → List Nat) (decls : List (Nat × α)) : List α :=
  (decls.filter fun p => (nodes p.2).head? = some p.1).map Prod.snd

theorem mem_counted {nodes : α → List Nat} {decls : List (Nat × α)} {x : α} :
    x ∈ counted nodes decls ↔ ∃ n, (n, x) ∈ decls ∧ (nodes x).head? = some n := by
  simp only [counted, List.mem_map, List.mem_filter, decide_eq_true_eq]
  constructor
  · rintro ⟨⟨n, y⟩, ⟨hmem, hhead⟩, rfl⟩
    exact ⟨n, hmem, hhead⟩
  · rintro ⟨n, hmem, hhead⟩
    exact ⟨(n, x), ⟨hmem, hhead⟩, rfl⟩

private theorem nodup_counted {nodes : α → List Nat} {decls : List (Nat × α)}
    (h : (decls.map Prod.fst).Nodup) : (counted nodes decls).Nodup := by
  have hsub : ((decls.filter fun p => (nodes p.2).head? = some p.1).map Prod.fst).Nodup :=
    h.sublist (List.filter_sublist.map Prod.fst)
  rw [List.Nodup, List.pairwise_map] at hsub
  rw [counted, List.Nodup, List.pairwise_map]
  refine hsub.imp_of_mem fun {p q} hp hq hne heq => hne ?_
  have hp' : (nodes p.2).head? = some p.1 := by simpa using (List.mem_filter.mp hp).2
  have hq' : (nodes q.2).head? = some q.1 := by simpa using (List.mem_filter.mp hq).2
  rw [heq, hq'] at hp'
  exact (Option.some.inj hp').symm

variable [DecidableEq α]

/-- What the count gives to the datums counted: the next numbers, each to one of them. -/
structure Counts (s r : Values α) (xs : List α) : Prop where
  num : r.num = s.num + xs.length
  range : ∀ x ∈ xs, s.num ≤ r.value x ∧ r.value x < r.num
  injective : ∀ x ∈ xs, ∀ y ∈ xs, r.value x = r.value y → x = y
  others : ∀ x, x ∉ xs → r.value x = s.value x

theorem Counts.cons {s r : Values α} {x : α} {xs : List α} (hx : x ∉ xs)
    (h : Counts ⟨Function.update s.value x s.num, s.num + 1⟩ r xs) : Counts s r (x :: xs) := by
  have hnum := h.num
  have hvalue : r.value x = s.num := by
    rw [h.others x hx]
    exact Function.update_self x s.num s.value
  have hlater : ∀ y ∈ xs, s.num + 1 ≤ r.value y := fun y hy => (h.range y hy).1
  refine ⟨?_, fun y hy => ?_, fun y hy z hz heq => ?_, fun y hy => ?_⟩
  · simp only [List.length_cons] at hnum ⊢
    omega
  · rcases List.mem_cons.mp hy with rfl | hy
    · simp only at hnum
      omega
    · have hrange := h.range y hy
      simp only at hrange
      omega
  · rcases List.mem_cons.mp hy with hyx | hy <;> rcases List.mem_cons.mp hz with hzx | hz
    · rw [hyx, hzx]
    · have hz' := hlater z hz
      rw [hyx, hvalue] at heq
      omega
    · have hy' := hlater y hy
      rw [hzx, hvalue] at heq
      omega
    · exact h.injective y hy z hz heq
  · rw [List.mem_cons, not_or] at hy
    rw [h.others y hy.2]
    exact Function.update_of_ne hy.1 s.num s.value

private theorem foldl_count (nodes : α → List Nat) (decls : List (Nat × α)) (s : Values α)
    (h : (counted nodes decls).Nodup) :
    Counts s (decls.foldl (fun s p => s.count nodes p.1 p.2) s) (counted nodes decls) := by
  induction decls generalizing s with
  | nil => exact ⟨rfl, by simp [counted], by simp [counted], fun _ _ => rfl⟩
  | cons p decls ih =>
    obtain ⟨n, x⟩ := p
    simp only [List.foldl_cons, Values.count]
    by_cases hhead : (nodes x).head? = some n
    · have hcons : counted nodes ((n, x) :: decls) = x :: counted nodes decls := by
        simp [counted, hhead]
      rw [hcons] at h ⊢
      rw [if_pos hhead]
      exact Counts.cons (List.nodup_cons.mp h).1 (ih _ (List.nodup_cons.mp h).2)
    · have hcons : counted nodes ((n, x) :: decls) = counted nodes decls := by
        simp [counted, hhead]
      rw [hcons] at h ⊢
      rw [if_neg hhead]
      exact ih s h

end Counting

section Storing

/-- The array after the declarations were stored: an entry leads to a datum with that value. -/
theorem foldl_store_some {value : α → Nat} {decls : List (Nat × α)} {valTo : Nat → Option α}
    {v : Nat} {y : α}
    (h : (decls.foldl (fun f p => Function.update f (value p.2) (some p.2)) valTo) v = some y) :
    valTo v = some y ∨ value y = v ∧ ∃ n, (n, y) ∈ decls := by
  induction decls generalizing valTo with
  | nil => exact Or.inl h
  | cons p decls ih =>
    rcases ih h with hv | ⟨hv, n, hn⟩
    · simp only [Function.update_apply] at hv
      split_ifs at hv with hvp
      · cases hv
        exact Or.inr ⟨hvp.symm, p.1, List.mem_cons_self⟩
      · exact Or.inl hv
    · exact Or.inr ⟨hv, n, List.mem_cons_of_mem p hn⟩

private theorem foldl_store_ne_none {value : α → Nat} {decls : List (Nat × α)}
    {valTo : Nat → Option α} {v : Nat} (h : valTo v ≠ none ∨ ∃ n x, (n, x) ∈ decls ∧ value x = v) :
    (decls.foldl (fun f p => Function.update f (value p.2) (some p.2)) valTo) v ≠ none := by
  induction decls generalizing valTo with
  | nil =>
    rcases h with h | ⟨n, x, hmem, _⟩
    · exact h
    · cases hmem
  | cons p decls ih =>
    refine ih ?_
    by_cases hvp : v = value p.2
    · left
      simp [hvp]
    · rcases h with h | ⟨n, x, hmem, hx⟩
      · left
        simpa [Function.update_of_ne hvp] using h
      · rcases List.mem_cons.mp hmem with rfl | hmem
        · exact absurd hx.symm hvp
        · exact Or.inr ⟨n, x, hmem, hx⟩

end Storing

section Kind

variable {decl : NodeData τ ρ → Option (Nat × α)} {refers : NodeData τ ρ → List α}
  {ast : Tree (NodeData τ ρ)} (D : Declared decl refers ast)

/-- The declarations that the two walks visit. -/
def visitedDecls (decl : NodeData τ ρ → Option (Nat × α)) (ast : Tree (NodeData τ ρ)) :
    List (Nat × α) :=
  (ast.walk NodeData.skipHead).filterMap decl

private theorem skipHead_of_not_isSpace {d : NodeData τ ρ} (h : d.isSpace = false) :
    d.skipHead = false := by
  cases d <;> first | rfl | cases h

variable {D}

/-- All declarations of a datum are visited or none, as its table is. -/
private theorem mem_visitedDecls {n : Nat} {x : α} :
    (n, x) ∈ visitedDecls decl ast ↔
      (∃ above d, (above, d) ∈ ast.nodes ∧ decl d = some (n, x)) ∧ D.Outside x := by
  have houtside : ∀ above d, (above, d) ∈ ast.nodes → decl d = some (n, x) →
      ((∀ a ∈ above, a.skipHead = false) ↔ D.Outside x) := by
    intro above d hd hdecl
    unfold Declared.Outside
    rw [← D.same_space above d n x hd hdecl]
    constructor
    · exact fun h s hs => h s (List.mem_filter.mp hs).1
    · intro h a ha
      cases hspace : a.isSpace with
      | false => exact skipHead_of_not_isSpace hspace
      | true => exact h a (List.mem_filter.mpr ⟨ha, hspace⟩)
  constructor
  · intro h
    obtain ⟨d, hd, hdecl⟩ := List.mem_filterMap.mp h
    obtain ⟨above, hd, habove⟩ := Tree.mem_walk.mp hd
    exact ⟨⟨above, d, hd, hdecl⟩, (houtside above d hd hdecl).mp habove⟩
  · rintro ⟨⟨above, d, hd, hdecl⟩, hout⟩
    refine List.mem_filterMap.mpr ⟨d, Tree.mem_walk.mpr ⟨above, hd, ?_⟩, hdecl⟩
    exact (houtside above d hd hdecl).mpr hout

variable (D) in
/-- No datum declared outside macros and abstract blocks has a node of another kind. -/
def Declared.Unshared : Prop :=
  ∀ n x, (n, x) ∈ visitedDecls decl ast → ∀ m ∈ D.nodes x,
    ∃ above d, (above, d) ∈ ast.nodes ∧ decl d = some (m, x)

/-- A statement can refer to the datum: its first node declares it as one of this kind. -/
def Declared.Native (D : Declared decl refers ast) (x : α) : Prop :=
  ∃ n above d, (D.nodes x).head? = some n ∧ (above, d) ∈ ast.nodes ∧ decl d = some (n, x)

theorem Declared.Native.mem_counted {x : α} (h : D.Native x) :
    x ∈ counted D.nodes (visitedDecls decl ast) ↔ D.Outside x := by
  obtain ⟨n, above, d, hhead, hd, hdecl⟩ := h
  rw [Post.Numbering.mem_counted]
  constructor
  · rintro ⟨m, hm, -⟩
    exact (mem_visitedDecls.mp hm).2
  · intro hout
    exact ⟨n, mem_visitedDecls.mpr ⟨⟨above, d, hd, hdecl⟩, hout⟩, hhead⟩

private theorem nodup_visitedDecls (D : Declared decl refers ast) :
    ((visitedDecls decl ast).map Prod.fst).Nodup := by
  refine D.distinct.sublist ?_
  rw [visitedDecls, Tree.walk_eq, List.filterMap_map, List.map_filterMap]
  exact List.filter_sublist.filterMap _

theorem counted_of_visited (hunshared : D.Unshared) {n : Nat} {x : α}
    (h : (n, x) ∈ visitedDecls decl ast) : x ∈ counted D.nodes (visitedDecls decl ast) := by
  obtain ⟨⟨above, d, hd, hdecl⟩, hout⟩ := (mem_visitedDecls (D := D)).mp h
  obtain ⟨m, rest, hnodes⟩ :=
    List.exists_cons_of_ne_nil (List.ne_nil_of_mem (D.mem_nodes above d n x hd hdecl))
  obtain ⟨above', d', hd', hdecl'⟩ := hunshared n x h m (by rw [hnodes]; exact List.mem_cons_self)
  have hnative : D.Native x := ⟨m, above', d', by rw [hnodes]; rfl, hd', hdecl'⟩
  exact hnative.mem_counted.mpr hout

private theorem native_of_occurring (D : Declared decl refers ast) :
    ∀ x ∈ occurring refers ast, D.Native x := by
  intro x hx
  obtain ⟨d, hd, hx⟩ := List.mem_flatMap.mp hx
  obtain ⟨above, hd, _⟩ := Tree.mem_walk.mp hd
  exact D.alive above d hd x hx

variable [DecidableEq α]

/-- The values and the array of one kind after the two walks. -/
def valuesOf (D : Declared decl refers ast) : Values α :=
  (visitedDecls decl ast).foldl (fun s p => s.count D.nodes p.1 p.2) ⟨D.initial, 0⟩

def arrayOf (D : Declared decl refers ast) : Nat → Option α :=
  (visitedDecls decl ast).foldl
    (fun f p => Function.update f ((valuesOf D).value p.2) (some p.2)) fun _ => none

private theorem counts_valuesOf (D : Declared decl refers ast) :
    Counts ⟨D.initial, 0⟩ (valuesOf D) (counted D.nodes (visitedDecls decl ast)) :=
  foldl_count D.nodes (visitedDecls decl ast) _ (nodup_counted (nodup_visitedDecls D))

theorem valTo_of_counted (hunshared : D.Unshared) {x : α}
    (h : x ∈ counted D.nodes (visitedDecls decl ast)) :
    arrayOf D ((valuesOf D).value x) = some x := by
  obtain ⟨n, hn, -⟩ := mem_counted.mp h
  have hsome : arrayOf D ((valuesOf D).value x) ≠ none :=
    foldl_store_ne_none (Or.inr ⟨n, x, hn, rfl⟩)
  obtain ⟨y, hy⟩ := Option.ne_none_iff_exists'.mp hsome
  -- the entry may have been written again, but by no other datum
  rcases foldl_store_some hy with hnone | ⟨hvalue, m, hm⟩
  · cases hnone
  · rw [hy, (counts_valuesOf D).injective y (counted_of_visited hunshared hm) x h hvalue]

/-- The values of datums that are declared are faithful exactly when all of them are declared
outside macros and abstract blocks. -/
private theorem numbered_iff (hunshared : D.Unshared) {xs : List α} (hxs : ∀ x ∈ xs, D.Native x) :
    Numbered (valuesOf D) (arrayOf D) xs ↔ ∀ x ∈ xs, D.Outside x := by
  have hcounts := counts_valuesOf D
  constructor
  · intro h x hx
    have hentry := h.valTo_value x hx
    rcases foldl_store_some hentry with hnone | ⟨_, n, hn⟩
    · cases hnone
    · exact ((mem_visitedDecls (D := D)).mp hn).2
  · intro h
    have hmem : ∀ x ∈ xs, x ∈ counted D.nodes (visitedDecls decl ast) :=
      fun x hx => (hxs x hx).mem_counted.mpr (h x hx)
    exact ⟨fun x hx => (hcounts.range x (hmem x hx)).2,
      fun x hx => valTo_of_counted hunshared (hmem x hx),
      fun x hx y hy => hcounts.injective x (hmem x hx) y (hmem y hy)⟩

end Kind

section Database

private theorem foldl_arrayHelper (nodes : List (NodeData τ ρ)) (s : State τ ρ) :
    nodes.foldl postDbArrayHelper s =
      { s with
        valToType := (nodes.filterMap NodeData.typeDecl).foldl
          (fun f p => Function.update f (s.types.value p.2) (some p.2)) s.valToType
        valToRole := (nodes.filterMap NodeData.roleDecl).foldl
          (fun f p => Function.update f (s.roles.value p.2) (some p.2)) s.valToRole } := by
  induction nodes generalizing s with
  | nil => rfl
  | cons d nodes ih =>
    rw [List.foldl_cons, ih]
    cases d <;> rfl

variable [DecidableEq τ] [DecidableEq ρ] (db : Database τ ρ)

private theorem foldl_countHelper (nodes : List (NodeData τ ρ)) (s : State τ ρ) :
    nodes.foldl (postDbCountHelper db) s =
      { s with
        types := (nodes.filterMap NodeData.typeDecl).foldl
          (fun v p => v.count db.types.nodes p.1 p.2) s.types
        roles := (nodes.filterMap NodeData.roleDecl).foldl
          (fun v p => v.count db.roles.nodes p.1 p.2) s.roles } := by
  induction nodes generalizing s with
  | nil => rfl
  | cons d nodes ih =>
    rw [List.foldl_cons, ih]
    cases d <;> rfl

theorem postDb_eq :
    postDb db = ⟨valuesOf db.types, valuesOf db.roles, arrayOf db.types, arrayOf db.roles⟩ := by
  show (db.ast.walk NodeData.skipHead).foldl postDbArrayHelper
    ((db.ast.walk NodeData.skipHead).foldl (postDbCountHelper db) (State.init db)) = _
  rw [foldl_countHelper, foldl_arrayHelper]
  rfl

end Database

/-- `(block ab (type t))`, `(type u)` and a rule that names `u` and `ab.t`. -/
def blockTypeTree (isAbstract : Bool) : Tree (NodeData (Fin 2) Empty) :=
  .node .other
    [.node (.block isAbstract) [.node (.type 0 ⟨0, Nat.two_pos⟩) []],
      .node (.type 1 (Fin.last 1)) [], .node (.statement [Fin.last 1, ⟨0, Nat.two_pos⟩] []) []]

private theorem nodes_blockTypeTree (isAbstract : Bool) :
    (blockTypeTree isAbstract).nodes =
      [([], .block isAbstract), ([.block isAbstract], .type 0 0), ([], .type 1 1),
        ([], .statement [1, 0] [])] := rfl

private theorem typeDecl_blockTypeTree {isAbstract : Bool} {above : List (NodeData (Fin 2) Empty)}
    {d : NodeData (Fin 2) Empty} {n : Nat} {x : Fin 2}
    (hd : (above, d) ∈ (blockTypeTree isAbstract).nodes) (hdecl : d.typeDecl = some (n, x)) :
    above = [.block isAbstract] ∧ n = 0 ∧ x = 0 ∨ above = [] ∧ n = 1 ∧ x = 1 := by
  rw [nodes_blockTypeTree] at hd
  simp only [List.mem_cons, Prod.mk.injEq, List.not_mem_nil, or_false] at hd
  rcases hd with ⟨rfl, rfl⟩ | ⟨rfl, rfl⟩ | ⟨rfl, rfl⟩ | ⟨rfl, rfl⟩
  · cases hdecl
  · cases hdecl
    exact Or.inl ⟨rfl, rfl, rfl⟩
  · cases hdecl
    exact Or.inr ⟨rfl, rfl, rfl⟩
  · cases hdecl

private theorem declared_blockTypeTree (isAbstract : Bool) (x : Fin 2) :
    ∃ above d, (above, d) ∈ (blockTypeTree isAbstract).nodes ∧ d.typeDecl = some (x.val, x) := by
  rw [nodes_blockTypeTree]
  match x with
  | 0 => exact ⟨[.block isAbstract], .type 0 0, by simp, rfl⟩
  | 1 => exact ⟨[], .type 1 1, by simp, rfl⟩

/-- A block with a type, which may be abstract. -/
def blockType (isAbstract : Bool) : Database (Fin 2) Empty where
  ast := blockTypeTree isAbstract
  types :=
    { nodes := fun x => [x.val]
      space := fun x => if x.val = 0 then [.block isAbstract] else []
      initial := fun _ => 0
      distinct := by
        show ([0, 1] : List Nat).Nodup
        decide
      mem_nodes := by
        intro above d n x hd hdecl
        rcases typeDecl_blockTypeTree hd hdecl with ⟨_, rfl, rfl⟩ | ⟨_, rfl, rfl⟩
        · exact List.mem_cons_self
        · exact List.mem_cons_self
      same_space := by
        intro above d n x hd hdecl
        rcases typeDecl_blockTypeTree hd hdecl with ⟨rfl, rfl, rfl⟩ | ⟨rfl, rfl, rfl⟩
        · rfl
        · rfl
      alive := by
        intro _ _ _ x _
        obtain ⟨above, d, hd, hdecl⟩ := declared_blockTypeTree isAbstract x
        exact ⟨x.val, above, d, rfl, hd, hdecl⟩ }
  roles :=
    { nodes := Empty.elim
      space := Empty.elim
      initial := Empty.elim
      distinct := List.nodup_nil
      mem_nodes := fun _ _ _ x => x.elim
      same_space := fun _ _ _ x => x.elim
      alive := fun _ _ _ x => x.elim }

private theorem blockType_unshared (isAbstract : Bool) : (blockType isAbstract).types.Unshared := by
  intro n x _ m hm
  obtain rfl := List.mem_singleton.mp hm
  exact declared_blockTypeTree isAbstract x

end Cil.Post.Numbering
