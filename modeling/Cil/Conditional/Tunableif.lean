/- Cil/Conditional/Tunableif
   digest: The resolution of tunableifs puts the rules of the chosen blocks beside them. -/

import Cil.Conditional.Statements

set_option autoImplicit false
set_option relaxedAutoImplicit false

namespace Cil.Conditional

open Cil.Expr Cil.Build Cil.CondExpr

variable {δ ρ : Type}

mutual

/-- The number of nodes in a list of siblings and below them. -/
def siblingsSize : List (Tree (NodeData δ ρ)) → Nat
  | [] => 0
  | t :: ts => nodeSize t + siblingsSize ts

def nodeSize : Tree (NodeData δ ρ) → Nat
  | .node _ children => siblingsSize children + 1

end

/-- The block that `cil_resolve_tunif` finds in the first two children. -/
def tunifBlock (result : Bool) :
    List (Tree (NodeData δ ρ)) → Option (List (Tree (NodeData δ ρ)))
  | [] => none
  | [first] => condblockOf result first
  | first :: second :: _ => (condblockOf result second).or (condblockOf result first)

/-- The walk of `CIL_PASS_TIF` over siblings: a tunableif loses its blocks, and copies of the
statements in the one that is chosen come after the last of its siblings. -/
def resolveTunif (tunables : δ → Bool) :
    Nat → List (Tree (NodeData δ ρ)) → Option (List (Tree (NodeData δ ρ)))
  | _, [] => some []
  | 0, _ :: _ => none
  | fuel + 1, .node (.tunableif expr) children :: rest => do
      let result ← evaluateTunableExpr tunables expr
      let copies := (tunifBlock result children).getD []
      let rest ← resolveTunif tunables fuel (rest ++ copies)
      pure (.node (.tunableif expr) [] :: rest)
  | fuel + 1, .node d children :: rest => do
      let children ← resolveTunif tunables fuel children
      let rest ← resolveTunif tunables fuel rest
      pure (.node d children :: rest)

section Size

private theorem siblingsSize_append (ts us : List (Tree (NodeData δ ρ))) :
    siblingsSize (ts ++ us) = siblingsSize ts + siblingsSize us := by
  induction ts with
  | nil => simp [siblingsSize]
  | cons t ts ih =>
    rw [List.cons_append, siblingsSize, siblingsSize, ih]
    omega

private theorem siblingsSize_condblockOf {flavor : Bool} {t : Tree (NodeData δ ρ)}
    {body : List (Tree (NodeData δ ρ))} (h : condblockOf flavor t = some body) :
    siblingsSize body < nodeSize t := by
  unfold condblockOf at h
  split at h
  · split at h
    · cases h
      rw [nodeSize]
      omega
    · cases h
  · cases h

private theorem siblingsSize_lastBlock {flavor : Bool} {ts body : List (Tree (NodeData δ ρ))}
    (h : lastBlock flavor ts = some body) : siblingsSize body < siblingsSize ts := by
  induction ts with
  | nil => cases h
  | cons t ts ih =>
    rw [lastBlock_cons] at h
    rw [siblingsSize]
    rcases Option.or_eq_some_iff.mp h with h | ⟨-, h⟩
    · have hlt := ih h
      omega
    · have hlt := siblingsSize_condblockOf h
      omega

/-- Among one or two blocks the two searches find the same. -/
private theorem tunifBlock_eq {result : Bool} {blocks : List (Block δ ρ)}
    (hlength : blocks.length = 1 ∨ blocks.length = 2) :
    tunifBlock result (blocks.map Block.node) = lastBlock result (blocks.map Block.node) := by
  rcases hlength with hlength | hlength
  · obtain ⟨b, rfl⟩ := List.length_eq_one_iff.mp hlength
    rw [List.map_singleton, lastBlock_cons]
    rfl
  · obtain ⟨b, c, rfl⟩ := List.length_eq_two.mp hlength
    rw [List.map_cons, List.map_singleton, lastBlock_cons, lastBlock_cons]
    rfl

end Size

section Resolution

variable {tunables : δ → Bool}

theorem lastBlock_mem {flavor : Bool} {blocks : List (Block δ ρ)}
    {body : List (Tree (NodeData δ ρ))} (h : lastBlock flavor (blocks.map Block.node) = some body) :
    ∃ b ∈ blocks, b.2 = body := by
  induction blocks with
  | nil => cases h
  | cons b blocks ih =>
    rw [List.map_cons, lastBlock_cons, condblockOf_node] at h
    rcases Option.or_eq_some_iff.mp h with h | ⟨-, h⟩
    · obtain ⟨c, hc, hbody⟩ := ih h
      exact ⟨c, List.mem_cons_of_mem b hc, hbody⟩
    · split at h
      · cases h
        exact ⟨b, List.mem_cons_self, rfl⟩
      · cases h

/-- The same rules are kept of statements, whatever the values of the booleans. -/
def SameKept (tunables : δ → Bool) (ts us : List (Tree (NodeData δ ρ))) : Prop :=
  ∀ booleans, (kept booleans tunables none ts).Perm (kept booleans tunables none us)

/-- A block of the same flavor with statements of which the same rules are kept. -/
structure SameBlock (tunables : δ → Bool) (b c : Block δ ρ) : Prop where
  flavor : c.1 = b.1
  formed : ∀ t ∈ c.2, Formed true t
  kept : SameKept tunables c.2 b.2

theorem SameBlock.shadows_eq {bs cs : List (Block δ ρ)}
    (h : List.Forall₂ (SameBlock tunables) bs cs) {b c : Block δ ρ} (hflavor : c.1 = b.1) :
    shadows (cs.map Block.node) c.node = shadows (bs.map Block.node) b.node := by
  rw [Block.node, Block.node, shadows, shadows, hflavor]
  induction h with
  | nil => rfl
  | cons hsame _ ih =>
    rw [List.map_cons, List.map_cons, List.any_cons, List.any_cons, ih, condblockOf_node,
      condblockOf_node, hsame.flavor]
    congr 1
    split <;> rfl

private theorem SameBlock.formed_of_mem {bs cs : List (Block δ ρ)}
    (h : List.Forall₂ (SameBlock tunables) bs cs) : ∀ c ∈ cs, ∀ t ∈ c.2, Formed true t := by
  induction h with
  | nil =>
    intro c hc
    cases hc
  | cons hsame _ ih =>
    intro c hc
    rcases List.mem_cons.mp hc with rfl | hc
    · exact hsame.formed
    · exact ih c hc

private theorem SameBlock.kept_perm {bs cs : List (Block δ ρ)}
    (h : List.Forall₂ (SameBlock tunables) bs cs) (booleans : δ → Bool) (active : Option Bool) :
    (Conditional.kept booleans tunables active (cs.map Block.node)).Perm
      (Conditional.kept booleans tunables active (bs.map Block.node)) := by
  induction h with
  | nil => exact List.Perm.refl _
  | cons hsame hrest ih =>
    rw [List.map_cons, List.map_cons, kept_cons, kept_cons,
      SameBlock.shadows_eq hrest hsame.flavor, Block.node, Block.node, keptNode_condblock,
      keptNode_condblock, hsame.flavor]
    apply List.Perm.append _ ih
    split
    · exact List.Perm.refl _
    · split
      · exact hsame.kept booleans
      · exact List.Perm.refl _

private theorem resolveTunif_nil (fuel : Nat) :
    resolveTunif tunables fuel ([] : List (Tree (NodeData δ ρ))) = some [] := by
  cases fuel <;> rfl

/-- With enough fuel the statements are resolved, and the same rules are kept. -/
def ResolvesStatements (tunables : δ → Bool) (fuel : Nat)
    (ts : List (Tree (NodeData δ ρ))) : Prop :=
  siblingsSize ts ≤ fuel → (∀ t ∈ ts, Formed false t) →
    ∃ us, resolveTunif tunables fuel ts = some us ∧ (∀ u ∈ us, Formed true u) ∧
      SameKept tunables us ts

def ResolvesBlocks (tunables : δ → Bool) (fuel : Nat) (bs : List (Block δ ρ)) : Prop :=
  siblingsSize (bs.map Block.node) ≤ fuel → (∀ b ∈ bs, ∀ t ∈ b.2, Formed false t) →
    ∃ cs, resolveTunif tunables fuel (bs.map Block.node) = some (cs.map Block.node) ∧
      List.Forall₂ (SameBlock tunables) bs cs

private theorem resolvesBlocks_succ {fuel : Nat} (hstatements : ∀ ts : List (Tree (NodeData δ ρ)),
      ResolvesStatements tunables fuel ts)
    (hblocks : ∀ bs : List (Block δ ρ), ResolvesBlocks tunables fuel bs)
    (bs : List (Block δ ρ)) : ResolvesBlocks tunables (fuel + 1) bs := by
  intro hsize hformed
  cases bs with
  | nil => exact ⟨[], rfl, List.Forall₂.nil⟩
  | cons b bs =>
    rw [List.map_cons, siblingsSize, Block.node, nodeSize] at hsize
    obtain ⟨body, hbody, hbodyFormed, hbodyKept⟩ := hstatements b.2 (by omega)
      (hformed b List.mem_cons_self)
    obtain ⟨cs, hcs, hsame⟩ := hblocks bs (by omega)
      fun c hc => hformed c (List.mem_cons_of_mem b hc)
    refine ⟨(b.1, body) :: cs, ?_, List.Forall₂.cons ⟨rfl, hbodyFormed, hbodyKept⟩ hsame⟩
    rw [List.map_cons, Block.node, resolveTunif]
    · simp only [hbody, hcs]
      rfl
    · simp

theorem SameKept.cons {resolved resolved' : Bool} {t u : Tree (NodeData δ ρ)}
    {ts us : List (Tree (NodeData δ ρ))} (ht : Formed resolved t) (hu : Formed resolved' u)
    (hnode : ∀ booleans, (keptNode booleans tunables none u).Perm
      (keptNode booleans tunables none t)) (h : SameKept tunables us ts) :
    SameKept tunables (u :: us) (t :: ts) := by
  intro booleans
  rw [kept_cons, kept_cons, ht.shadows_eq, hu.shadows_eq]
  exact (hnode booleans).append (h booleans)

/-- The statements that take the place of a `tunableif`. -/
private theorem copies_of (tunables : δ → Bool) (flavor : Bool) {blocks : List (Block δ ρ)}
    (hbody : ∀ b ∈ blocks, ∀ t ∈ b.2, Formed false t) :
    ∃ copies, (lastBlock flavor (blocks.map Block.node)).getD [] = copies ∧
      siblingsSize copies ≤ siblingsSize (blocks.map Block.node) ∧
      (∀ t ∈ copies, Formed false t) ∧
      ∀ booleans, kept booleans tunables none copies =
        kept booleans tunables (some flavor) (blocks.map Block.node) := by
  refine ⟨_, rfl, ?_, ?_, ?_⟩
  · cases hlast : lastBlock flavor (blocks.map Block.node) with
    | none => exact Nat.zero_le _
    | some body => exact (siblingsSize_lastBlock hlast).le
  · intro t ht
    cases hlast : lastBlock flavor (blocks.map Block.node) with
    | none =>
      rw [hlast] at ht
      cases ht
    | some body =>
      rw [hlast] at ht
      obtain ⟨b, hb, rfl⟩ := lastBlock_mem hlast
      exact hbody b hb t ht
  · intro booleans
    rw [kept_blocks]
    cases lastBlock flavor (blocks.map Block.node) with
    | none => exact kept_nil none
    | some body => rfl

private theorem resolvesStatements_succ {fuel : Nat}
    (hstatements : ∀ ts : List (Tree (NodeData δ ρ)),
      ResolvesStatements tunables fuel ts)
    (hblocks : ∀ bs : List (Block δ ρ), ResolvesBlocks tunables fuel bs)
    (ts : List (Tree (NodeData δ ρ))) : ResolvesStatements tunables (fuel + 1) ts := by
  intro hsize hformed
  cases ts with
  | nil => exact ⟨[], rfl, by simp, fun booleans => List.Perm.refl _⟩
  | cons t ts =>
    obtain ⟨d, children⟩ := t
    rw [siblingsSize, nodeSize] at hsize
    have hts : ∀ t ∈ ts, Formed false t := fun t ht => hformed t (List.mem_cons_of_mem _ ht)
    have ht := hformed _ List.mem_cons_self
    obtain ⟨us, hus, husFormed, husKept⟩ := hstatements ts (by omega) hts
    -- all statements but a tunableif: what is below them is resolved, then their siblings are
    have hother : ∀ children', (∀ expr, d ≠ .tunableif expr) →
        resolveTunif tunables fuel children = some children' →
        Formed true (.node d children') →
        (∀ booleans, (keptNode booleans tunables none (.node d children')).Perm
          (keptNode booleans tunables none (.node d children))) →
        ∃ us, resolveTunif tunables (fuel + 1) (.node d children :: ts) = some us ∧
          (∀ u ∈ us, Formed true u) ∧ SameKept tunables us (.node d children :: ts) := by
      intro children' hd hchildren hnew hnode
      refine ⟨.node d children' :: us, ?_, ?_, SameKept.cons ht hnew hnode husKept⟩
      · rw [resolveTunif]
        · simp only [hchildren, hus]
          rfl
        · exact hd
      · intro u hu
        rcases List.mem_cons.mp hu with rfl | hu
        · exact hnew
        · exact husFormed u hu
    cases ht with
    | rule r =>
      refine hother [] (by simp) (resolveTunif_nil fuel) (.rule r) fun booleans => ?_
      rfl
    | call hbody =>
      obtain ⟨body, hrun, hbodyFormed, hkept⟩ := hstatements children (by omega) hbody
      refine hother body (by simp) hrun (.call hbodyFormed) fun booleans => ?_
      rw [keptNode_call, keptNode_call]
      exact hkept booleans
    | scope hbody =>
      obtain ⟨body, hrun, hbodyFormed, hkept⟩ := hstatements children (by omega) hbody
      refine hother body (by simp) hrun (.scope hbodyFormed) fun booleans => ?_
      rw [keptNode_scope, keptNode_scope]
      exact hkept booleans
    | @booleanif _ expr blocks hexpr hlength hbody =>
      obtain ⟨cs, hrun, hsame⟩ := hblocks blocks (by omega) hbody
      have hcs : cs.length = blocks.length := hsame.length_eq.symm
      have hcsFormed : ∀ c ∈ cs, ∀ t ∈ c.2, Formed true t := SameBlock.formed_of_mem hsame
      refine hother (cs.map Block.node) (by simp) hrun
        (.booleanif hexpr (by rw [hcs]; exact hlength) hcsFormed) fun booleans => ?_
      rw [keptNode_booleanif, keptNode_booleanif]
      exact SameBlock.kept_perm hsame booleans _
    | @tunableif expr blocks hexpr hlength hbody =>
      have hresult : evaluateTunableExpr tunables expr = some (truth tunables expr) := by
        apply evaluateTunableExpr_eq
        rw [← shaped_tunable]
        exact hexpr
      obtain ⟨copies, hcopies, hcopiesSize, hcopiesFormed, hcopiesKept⟩ :=
        copies_of tunables (truth tunables expr) hbody
      obtain ⟨us, hus, husFormed, husKept⟩ := hstatements (ts ++ copies)
        (by rw [siblingsSize_append]; omega) (by
          intro t ht
          rcases List.mem_append.mp ht with ht | ht
          · exact hts t ht
          · exact hcopiesFormed t ht)
      refine ⟨.node (.tunableif expr) [] :: us, ?_, ?_, ?_⟩
      · rw [resolveTunif, hresult, Option.bind_eq_bind, Option.bind_some, tunifBlock_eq hlength]
        simp only [hcopies, hus]
        rfl
      · intro u hu
        rcases List.mem_cons.mp hu with rfl | hu
        · exact .emptied expr
        · exact husFormed u hu
      · intro booleans
        have hempty : keptNode booleans tunables none
            (.node (.tunableif expr) [] : Tree (NodeData δ ρ)) = [] := by
          rw [keptNode_tunableif, kept_nil]
        have hsplit : (kept booleans tunables none us).Perm
            (kept booleans tunables none ts ++ kept booleans tunables none copies) := by
          rw [← kept_append hts]
          exact husKept booleans
        rw [kept_cons, kept_cons, (Formed.emptied expr).shadows_eq,
          (Formed.tunableif hexpr hlength hbody).shadows_eq, hempty, keptNode_tunableif,
          ← hcopiesKept]
        exact hsplit.trans List.perm_append_comm

/-- The pass resolves every statement that the builder makes, and keeps the rules that stand in
no shadowed block. -/
theorem resolveTunif_kept (tunables : δ → Bool) (ts : List (Tree (NodeData δ ρ)))
    (hformed : ∀ t ∈ ts, Formed false t) :
    ∃ us, resolveTunif tunables (siblingsSize ts) ts = some us ∧ (∀ u ∈ us, Formed true u) ∧
      SameKept tunables us ts := by
  have hall : ∀ fuel, (∀ ts : List (Tree (NodeData δ ρ)), ResolvesStatements tunables fuel ts) ∧
      ∀ bs : List (Block δ ρ), ResolvesBlocks tunables fuel bs := by
    intro fuel
    induction fuel with
    | zero =>
      constructor
      · intro ts hsize hformed
        cases ts with
        | nil => exact ⟨[], rfl, by simp, fun booleans => List.Perm.refl _⟩
        | cons t ts =>
          obtain ⟨d, children⟩ := t
          rw [siblingsSize, nodeSize] at hsize
          omega
      · intro bs hsize hformed
        cases bs with
        | nil => exact ⟨[], rfl, List.Forall₂.nil⟩
        | cons b bs =>
          rw [List.map_cons, siblingsSize, Block.node, nodeSize] at hsize
          omega
    | succ fuel ih =>
      exact ⟨resolvesStatements_succ ih.1 ih.2, resolvesBlocks_succ ih.1 ih.2⟩
  exact (hall (siblingsSize ts)).1 ts le_rfl hformed

end Resolution

end Cil.Conditional
