/- Cil/Conditional/Booleanif
   digest: Booleanifs in the binary policy, and the rules in force there. -/

import Cil.Conditional.Tunableif
import Cil.Binary.Postfix

set_option autoImplicit false
set_option relaxedAutoImplicit false

namespace Cil.Conditional

open Cil.Expr Cil.Build Cil.CondExpr Cil.Library Cil.Binary.Postfix

variable {δ ρ P : Type}

/-- `cond_node_t` with the rules on its lists. -/
structure CondNode (ρ : Type) where
  expr : List CondExpr
  trueList : List ρ
  falseList : List ρ

/-- What the policy library does with expressions: `cond_normalize_expr`, which also tells whether
it has negated the expression, and `cond_expr_equal`. -/
structure CondLibrary where
  normalizeExpr : List CondExpr → List CondExpr × Bool
  exprEqual : List CondExpr → List CondExpr → Bool
  evalCells_normalizeExpr : ∀ values L b, evalCells values L [] = some [b] →
    evalCells values (normalizeExpr L).1 [] = some [if (normalizeExpr L).2 then !b else b]
  evalCells_of_exprEqual : ∀ L M, exprEqual L M = true →
    ∀ values, evalCells values L [] = evalCells values M []

/-- The rules outside conditionals, the conditional nodes, and the rest of the policy database. -/
structure Policydb (ρ P : Type) where
  rules : List ρ
  condList : List (CondNode ρ)
  rest : P

def CondNode.attach (flavor : Bool) (r : ρ) (n : CondNode ρ) : CondNode ρ :=
  if flavor then { n with trueList := r :: n.trueList }
  else { n with falseList := r :: n.falseList }

section Creation

variable (lib : CondLibrary) (bools : δ → Option Nat)
  (insertRule : ρ → Option (List CondExpr × Bool) → P → Option P)

/-- The list that `__cil_cond_expr_to_sepol_expr` builds. -/
def sepolExpr (expr : List (Item δ)) : Option (List CondExpr) :=
  match condExprToSepolExpr bools expr ⟨fun _ => ⟨.bool, 0⟩, fun _ => none, 0⟩ with
  | some (.ok head h) => some (h.contents h.size head)
  | _ => none

/-- The search of `cond_node_find`: the nodes before the one that is found, and those after. -/
def findNode (L : List CondExpr) :
    List (CondNode ρ) → Option (List (CondNode ρ) × CondNode ρ × List (CondNode ρ))
  | [] => none
  | n :: rest =>
      if lib.exprEqual L n.expr then some ([], n, rest)
      else (findNode L rest).map fun r => (n :: r.1, r.2)

/-- `cond_node_find`, which makes a node where there is none, and the link of a new node. -/
def condNodeFind (L : List CondExpr) (condList : List (CondNode ρ)) :
    List (CondNode ρ) × CondNode ρ × List (CondNode ρ) :=
  (findNode lib L condList).getD ([], ⟨L, [], []⟩, condList)

/-- The nodes of a conditional block, handed to `__cil_cond_to_policydb_helper`. Whether an
insertion succeeds and what it does to the tables is left to `insertRule`. -/
def condToPolicydb (flavor : Bool) :
    List (NodeData δ ρ) → CondNode ρ × P → Option (CondNode ρ × P)
  | [], s => some s
  | .rule r :: ds, (n, rest) => do
      let rest ← insertRule r (some (n.expr, flavor)) rest
      condToPolicydb flavor ds (n.attach flavor r, rest)
  | .call :: ds, s => condToPolicydb flavor ds s
  | .tunableif _ :: ds, s => condToPolicydb flavor ds s
  | _ :: _, _ => none

/-- The walk over the block chosen for a list. -/
def condblockToPolicydb (flavor : Bool) (block : Option (List (Tree (NodeData δ ρ))))
    (s : CondNode ρ × P) : Option (CondNode ρ × P) :=
  match block with
  | none => some s
  | some body => condToPolicydb insertRule flavor (walkSiblings (fun _ => false) body) s

/-- `cil_booleanif_to_policydb`. -/
def booleanifToPolicydb (expr : List (Item δ)) (blocks : List (Tree (NodeData δ ρ)))
    (pdb : Policydb ρ P) : Option (Policydb ρ P) := do
  let tmpExpr ← sepolExpr bools expr
  let (normalized, swapped) := lib.normalizeExpr tmpExpr
  let (before, condNode, after) := condNodeFind lib normalized pdb.condList
  let trueNode := lastBlock true blocks
  let falseNode := lastBlock false blocks
  let (trueNode, falseNode) := if swapped then (falseNode, trueNode) else (trueNode, falseNode)
  let s ← condblockToPolicydb insertRule true trueNode (condNode, pdb.rest)
  let (condNode, rest) ← condblockToPolicydb insertRule false falseNode s
  pure { pdb with condList := before ++ condNode :: after, rest := rest }

mutual

/-- The walk of `cil_binary_create` over siblings. -/
def toPolicydb : List (Tree (NodeData δ ρ)) → Policydb ρ P → Option (Policydb ρ P)
  | [], pdb => some pdb
  | t :: ts, pdb => do
      let pdb ← nodeToPolicydb t pdb
      toPolicydb ts pdb

def nodeToPolicydb : Tree (NodeData δ ρ) → Policydb ρ P → Option (Policydb ρ P)
  | .node (.rule r) _, pdb => do
      let rest ← insertRule r none pdb.rest
      pure { pdb with rules := r :: pdb.rules, rest := rest }
  | .node (.booleanif expr) blocks, pdb => booleanifToPolicydb lib bools insertRule expr blocks pdb
  | .node (.tunableif _) children, pdb => toPolicydb children pdb
  | .node (.condblock _) children, pdb => toPolicydb children pdb
  | .node .call children, pdb => toPolicydb children pdb
  | .node .scope children, pdb => toPolicydb children pdb

end

/-- A policy from its statements, for values of the tunables. -/
def compile (tunables : δ → Bool) (ts : List (Tree (NodeData δ ρ))) (rest : P) :
    Option (Policydb ρ P) := do
  let ts ← resolveTunif tunables (siblingsSize ts) ts
  toPolicydb lib bools insertRule ts ⟨[], [], rest⟩

end Creation

section InForce

variable (values : Nat → Bool)

/-- `true_list` or `false_list`. -/
def CondNode.list (n : CondNode ρ) (flavor : Bool) : List ρ :=
  if flavor then n.trueList else n.falseList

/-- The list of a node that its expression makes active. -/
def CondNode.active (n : CondNode ρ) : List ρ :=
  match evalCells values n.expr [] with
  | some [b] => n.list b
  | _ => []

/-- The rules of a policy that are in force for values of the booleans. -/
def Policydb.inForce (pdb : Policydb ρ P) : List ρ :=
  pdb.rules ++ pdb.condList.flatMap (CondNode.active values)

end InForce

section Nodes

variable {values : Nat → Bool}

@[simp] theorem CondNode.expr_attach (flavor : Bool) (r : ρ) (n : CondNode ρ) :
    (n.attach flavor r).expr = n.expr := by
  cases flavor <;> rfl

theorem CondNode.list_attach (flavor flavor' : Bool) (r : ρ) (n : CondNode ρ) :
    (n.attach flavor r).list flavor' =
      if flavor' = flavor then r :: n.list flavor' else n.list flavor' := by
  cases flavor <;> cases flavor' <;> rfl

private theorem CondNode.active_eq {n : CondNode ρ} {b : Bool}
    (h : evalCells values n.expr [] = some [b]) :
    n.active values = n.list b := by
  rw [CondNode.active, h]

private theorem CondNode.active_new (L : List CondExpr) :
    (⟨L, [], []⟩ : CondNode ρ).active values = [] := by
  unfold CondNode.active
  split
  · rename_i b _
    cases b <;> rfl
  · rfl

variable {lib : CondLibrary}

theorem findNode_some {L : List CondExpr} {condList before after : List (CondNode ρ)}
    {n : CondNode ρ} (h : findNode lib L condList = some (before, n, after)) :
    condList = before ++ n :: after ∧ lib.exprEqual L n.expr = true := by
  induction condList generalizing before with
  | nil => cases h
  | cons m rest ih =>
    rw [findNode] at h
    split at h
    · rename_i hequal
      cases h
      exact ⟨rfl, hequal⟩
    · obtain ⟨r, hr, heq⟩ := Option.map_eq_some_iff.mp h
      obtain ⟨before', n', after'⟩ := r
      cases heq
      obtain ⟨rfl, hequal⟩ := ih hr
      exact ⟨rfl, hequal⟩

/-- The node has an expression of the same truth, and with it the list has the same rules. -/
private theorem condNodeFind_spec (L : List CondExpr) (condList : List (CondNode ρ))
    {before after : List (CondNode ρ)} {n : CondNode ρ}
    (h : condNodeFind lib L condList = (before, n, after)) (values : Nat → Bool) :
    evalCells values n.expr [] = evalCells values L [] ∧
      condList.flatMap (CondNode.active values) =
        (before ++ n :: after).flatMap (CondNode.active values) := by
  unfold condNodeFind at h
  cases hfind : findNode lib L condList with
  | none =>
    rw [hfind] at h
    cases h
    refine ⟨rfl, ?_⟩
    rw [List.nil_append, List.flatMap_cons, CondNode.active_new, List.nil_append]
  | some r =>
    obtain ⟨before', n', after'⟩ := r
    rw [hfind] at h
    cases h
    obtain ⟨rfl, hequal⟩ := findNode_some hfind
    exact ⟨(lib.evalCells_of_exprEqual L _ hequal values).symm, rfl⟩

end Nodes

section Blocks

/-- The nodes that `__cil_cond_to_policydb_helper` accepts. -/
def NodeData.allowed : NodeData δ ρ → Bool
  | .rule _ => true
  | .call => true
  | .tunableif _ => true
  | _ => false

def NodeData.rule? : NodeData δ ρ → Option ρ
  | .rule r => some r
  | _ => none

/-- All rules among the nodes have been put on the list of the flavor, and nothing else has. -/
structure Attached (flavor : Bool) (ds : List (NodeData δ ρ)) (n n' : CondNode ρ) : Prop where
  allowed : ∀ d ∈ ds, d.allowed = true
  expr : n'.expr = n.expr
  list : n'.list flavor = (ds.filterMap NodeData.rule?).reverse ++ n.list flavor
  other : n'.list (!flavor) = n.list (!flavor)

theorem Attached.nil (flavor : Bool) (n : CondNode ρ) :
    Attached flavor ([] : List (NodeData δ ρ)) n n :=
  ⟨by simp, rfl, rfl, rfl⟩

theorem Attached.skip {flavor : Bool} {d : NodeData δ ρ} {ds : List (NodeData δ ρ)}
    {n n' : CondNode ρ} (h : Attached flavor ds n n') (hd : d.allowed = true)
    (hrule : d.rule? = none) : Attached flavor (d :: ds) n n' where
  allowed := List.forall_mem_cons.mpr ⟨hd, h.allowed⟩
  expr := h.expr
  list := by rw [List.filterMap_cons_none hrule]; exact h.list
  other := h.other

theorem Attached.rule {flavor : Bool} {r : ρ} {ds : List (NodeData δ ρ)} {n n' : CondNode ρ}
    (h : Attached flavor ds (n.attach flavor r) n') : Attached flavor (.rule r :: ds) n n' where
  allowed := List.forall_mem_cons.mpr ⟨rfl, h.allowed⟩
  expr := h.expr.trans (n.expr_attach flavor r)
  list := by
    have hr : (NodeData.rule r : NodeData δ ρ).rule? = some r := rfl
    rw [h.list, CondNode.list_attach, if_pos rfl, List.filterMap_cons_some hr,
      List.reverse_cons, List.append_assoc, List.singleton_append]
  other := by
    rw [h.other, CondNode.list_attach, if_neg (by cases flavor <;> decide)]

variable {insertRule : ρ → Option (List CondExpr × Bool) → P → Option P}

private theorem condToPolicydb_attached {flavor : Bool} {ds : List (NodeData δ ρ)}
    {n n' : CondNode ρ}
    {rest rest' : P} (h : condToPolicydb insertRule flavor ds (n, rest) = some (n', rest')) :
    Attached flavor ds n n' := by
  induction ds generalizing n rest with
  | nil =>
    cases h
    exact Attached.nil flavor _
  | cons d ds ih =>
    cases d with
    | rule r =>
      rw [condToPolicydb] at h
      obtain ⟨rest₁, hrest, h⟩ := Option.bind_eq_some_iff.mp h
      exact (ih h).rule
    | call => exact (ih h).skip rfl rfl
    | tunableif expr => exact (ih h).skip rfl rfl
    | booleanif expr => cases h
    | condblock flavor' => cases h
    | scope => cases h

private theorem kept_allowed {booleans tunables : δ → Bool} {ts : List (Tree (NodeData δ ρ))}
    (hts : ∀ t ∈ ts, Formed true t)
    (hnode : ∀ t ∈ ts, (∀ d ∈ walkNode (fun _ => false) t, d.allowed = true) →
      keptNode booleans tunables none t =
        (walkNode (fun _ => false) t).filterMap NodeData.rule?)
    (hallowed : ∀ d ∈ walkSiblings (fun _ => false) ts, d.allowed = true) :
    kept booleans tunables none ts =
      (walkSiblings (fun _ => false) ts).filterMap NodeData.rule? := by
  induction ts with
  | nil =>
    rw [kept_nil]
    rfl
  | cons t ts ih =>
    rw [walkSiblings] at hallowed
    obtain ⟨hfirst, hrest⟩ := List.forall_mem_append.mp hallowed
    rw [kept_cons, (hts t List.mem_cons_self).shadows_eq, walkSiblings, List.filterMap_append,
      ← hnode t List.mem_cons_self hfirst,
      ← ih (fun u hu => hts u (List.mem_cons_of_mem t hu))
        (fun u hu => hnode u (List.mem_cons_of_mem t hu)) hrest]
    rfl

/-- What is kept of a resolved statement that a block may hold: the rules that a walk meets. -/
private theorem keptNode_allowed {booleans tunables : δ → Bool} {t : Tree (NodeData δ ρ)}
    (ht : Formed true t) (hallowed : ∀ d ∈ walkNode (fun _ => false) t, d.allowed = true) :
    keptNode booleans tunables none t =
      (walkNode (fun _ => false) t).filterMap NodeData.rule? := by
  obtain ⟨resolved, hresolved⟩ : ∃ resolved, true = resolved := ⟨true, rfl⟩
  rw [hresolved] at ht
  induction ht with
  | rule r =>
    rw [keptNode_rule]
    rfl
  | booleanif hexpr hlength hblocks ih =>
    have hd := hallowed _ (by rw [walkNode]; exact List.mem_cons_self)
    cases hd
  | tunableif hexpr hlength hblocks ih => cases hresolved
  | emptied expr =>
    rw [keptNode_tunableif, kept_nil]
    rfl
  | scope hbody ih =>
    have hd := hallowed _ (by rw [walkNode]; exact List.mem_cons_self)
    cases hd
  | @call resolved body hbody ih =>
    have hcall : (NodeData.call : NodeData δ ρ).rule? = none := rfl
    rw [walkNode] at hallowed
    rw [keptNode_call, walkNode, List.filterMap_cons_none hcall]
    apply kept_allowed
    · rw [hresolved]
      exact hbody
    · intro t ht hbelow
      exact ih t ht hbelow hresolved
    · exact fun d hd => hallowed d (List.mem_cons_of_mem _ hd)

/-- What is kept of the statements in the block that was chosen for a list. -/
def blockKept (booleans tunables : δ → Bool)
    (block : Option (List (Tree (NodeData δ ρ)))) : List ρ :=
  (block.map (kept booleans tunables none)).getD []

/-- The rules of the block chosen for a flavor come on its list. -/
private theorem condblockToPolicydb_spec (booleans tunables : δ → Bool) {flavor : Bool}
    {block : Option (List (Tree (NodeData δ ρ)))}
    (hblock : ∀ body, block = some body → ∀ t ∈ body, Formed true t) {n n' : CondNode ρ}
    {rest rest' : P}
    (h : condblockToPolicydb insertRule flavor block (n, rest) = some (n', rest')) :
    n'.expr = n.expr ∧
      (n'.list flavor).Perm (blockKept booleans tunables block ++ n.list flavor) ∧
      n'.list (!flavor) = n.list (!flavor) := by
  cases block with
  | none =>
    cases h
    exact ⟨rfl, List.Perm.refl _, rfl⟩
  | some body =>
    have hattached := condToPolicydb_attached h
    have hbody := hblock body rfl
    have hkept : kept booleans tunables none body =
        (walkSiblings (fun _ => false) body).filterMap NodeData.rule? :=
      kept_allowed hbody (fun t ht hallowed => keptNode_allowed (hbody t ht) hallowed)
        hattached.allowed
    refine ⟨hattached.expr, ?_, hattached.other⟩
    rw [hattached.list, blockKept, Option.map_some, Option.getD_some, hkept]
    exact (List.reverse_perm _).append_right _

end Blocks

section Compilation

variable {lib : CondLibrary} {bools : δ → Option Nat}
  {insertRule : ρ → Option (List CondExpr × Bool) → P → Option P}

theorem evalCells_sepolExpr {expr : List (Item δ)} (hexpr : shaped .bool expr = true)
    {L : List CondExpr} (h : sepolExpr bools expr = some L) (values : Nat → Bool) :
    evalCells values L [] = some [truth (valueOf bools values) expr] := by
  unfold sepolExpr at h
  split at h
  · rename_i head heap hrun
    cases h
    obtain ⟨L', hL', heval⟩ := (leavesOne_of_shaped bools hexpr _).of_ok hrun
    rw [hL']
    exact heval values
  · cases h

private theorem inForce_append (values : Nat → Bool) (rules : List ρ)
    (before after : List (CondNode ρ)) (n : CondNode ρ) (rest : P) :
    Policydb.inForce values ⟨rules, before ++ n :: after, rest⟩ =
      rules ++ (before.flatMap (CondNode.active values) ++
        (n.active values ++ after.flatMap (CondNode.active values))) := by
  rw [Policydb.inForce, List.flatMap_append, List.flatMap_cons]

/-- A booleanif adds the rules kept of its blocks to the rules in force. -/
private theorem booleanifToPolicydb_inForce {tunables : δ → Bool} {expr : List (Item δ)}
    {blocks : List (Block δ ρ)} (hexpr : shaped .bool expr = true)
    (hblocks : ∀ b ∈ blocks, ∀ t ∈ b.2, Formed true t) {pdb pdb' : Policydb ρ P}
    (h : booleanifToPolicydb lib bools insertRule expr (blocks.map Block.node) pdb = some pdb')
    (values : Nat → Bool) :
    (pdb'.inForce values).Perm (pdb.inForce values ++
      kept (valueOf bools values) tunables (some (truth (valueOf bools values) expr))
        (blocks.map Block.node)) := by
  unfold booleanifToPolicydb at h
  obtain ⟨L, hL, h⟩ := Option.bind_eq_some_iff.mp h
  rcases hnormal : lib.normalizeExpr L with ⟨M, swapped⟩
  rcases hfind : condNodeFind lib M pdb.condList with ⟨before, n, after⟩
  simp only [hnormal, hfind] at h
  obtain ⟨⟨n₁, rest₁⟩, htrue, h⟩ := Option.bind_eq_some_iff.mp h
  obtain ⟨⟨n₂, rest₂⟩, hfalse, h⟩ := Option.bind_eq_some_iff.mp h
  cases h
  have hformed : ∀ flavor body, lastBlock flavor (blocks.map Block.node) = some body →
      ∀ t ∈ body, Formed true t := by
    intro flavor body hbody
    obtain ⟨block, hblock, rfl⟩ := lastBlock_mem hbody
    exact hblocks block hblock
  obtain ⟨b, hb⟩ : ∃ b, truth (valueOf bools values) expr = b := ⟨_, rfl⟩
  obtain ⟨heval, hsame⟩ := condNodeFind_spec M pdb.condList hfind values
  have hnode : evalCells values n.expr [] = some [if swapped then !b else b] := by
    have hnegated := lib.evalCells_normalizeExpr values L b
      (hb ▸ evalCells_sepolExpr hexpr hL values)
    rw [heval]
    simpa only [hnormal] using hnegated
  have hlists : ∀ flavor, (n₂.list flavor).Perm
      (blockKept (valueOf bools values) tunables
        (lastBlock (if swapped then !flavor else flavor) (blocks.map Block.node)) ++
          n.list flavor) ∧ n₂.expr = n.expr := by
    intro flavor
    cases swapped with
    | false =>
      obtain ⟨hexpr₁, hlist₁, hother₁⟩ :=
        condblockToPolicydb_spec (valueOf bools values) tunables (hformed true) htrue
      obtain ⟨hexpr₂, hlist₂, hother₂⟩ :=
        condblockToPolicydb_spec (valueOf bools values) tunables (hformed false) hfalse
      refine ⟨?_, hexpr₂.trans hexpr₁⟩
      cases flavor with
      | true => exact (List.Perm.of_eq hother₂).trans hlist₁
      | false => exact hlist₂.trans (List.Perm.of_eq (congrArg _ hother₁))
    | true =>
      obtain ⟨hexpr₁, hlist₁, hother₁⟩ :=
        condblockToPolicydb_spec (valueOf bools values) tunables (hformed false) htrue
      obtain ⟨hexpr₂, hlist₂, hother₂⟩ :=
        condblockToPolicydb_spec (valueOf bools values) tunables (hformed true) hfalse
      refine ⟨?_, hexpr₂.trans hexpr₁⟩
      cases flavor with
      | true => exact (List.Perm.of_eq hother₂).trans hlist₁
      | false => exact hlist₂.trans (List.Perm.of_eq (congrArg _ hother₁))
  -- the list that the node makes active gets the block of the value of the expression
  have hactive : (n₂.active values).Perm
      (blockKept (valueOf bools values) tunables (lastBlock b (blocks.map Block.node)) ++
        n.active values) := by
    obtain ⟨hperm, hexpr₂⟩ := hlists (if swapped then !b else b)
    rw [CondNode.active_eq (hexpr₂ ▸ hnode), CondNode.active_eq hnode]
    have hflavor : (if swapped then !(if swapped then !b else b)
        else (if swapped then !b else b)) = b := by
      cases swapped <;> simp
    rwa [hflavor] at hperm
  have hall : (before.flatMap (CondNode.active values) ++
      (n₂.active values ++ after.flatMap (CondNode.active values))).Perm
      (pdb.condList.flatMap (CondNode.active values) ++
        kept (valueOf bools values) tunables (some b) (blocks.map Block.node)) := by
    rw [kept_blocks, hsame, List.flatMap_append, List.flatMap_cons]
    refine ((hactive.append_right _).append_left _).trans ?_
    rw [List.append_assoc]
    exact List.perm_append_comm_assoc _ _ _ |>.trans (List.perm_append_comm)
  rw [inForce_append, hb, Policydb.inForce, List.append_assoc]
  exact hall.append_left _

section Walk

variable {tunables : δ → Bool} {values : Nat → Bool}

/-- A node adds the rules kept of it to the rules in force. -/
def NodeAdds (lib : CondLibrary) (bools : δ → Option Nat)
    (insertRule : ρ → Option (List CondExpr × Bool) → P → Option P) (tunables : δ → Bool)
    (values : Nat → Bool) (t : Tree (NodeData δ ρ)) : Prop :=
  ∀ pdb pdb' : Policydb ρ P, nodeToPolicydb lib bools insertRule t pdb = some pdb' →
    (pdb'.inForce values).Perm
      (pdb.inForce values ++ keptNode (valueOf bools values) tunables none t)

private theorem toPolicydb_of_nodes {ts : List (Tree (NodeData δ ρ))}
    (hts : ∀ t ∈ ts, Formed true t)
    (hnode : ∀ t ∈ ts, NodeAdds lib bools insertRule tunables values t)
    (pdb pdb' : Policydb ρ P) (h : toPolicydb lib bools insertRule ts pdb = some pdb') :
    (pdb'.inForce values).Perm
      (pdb.inForce values ++ kept (valueOf bools values) tunables none ts) := by
  induction ts generalizing pdb with
  | nil =>
    cases h
    rw [kept_nil, List.append_nil]
  | cons t ts ih =>
    rw [toPolicydb] at h
    obtain ⟨pdb₁, hfirst, hrest⟩ := Option.bind_eq_some_iff.mp h
    have hperm := hnode t List.mem_cons_self pdb pdb₁ hfirst
    have hperm' := ih (fun u hu => hts u (List.mem_cons_of_mem t hu))
      (fun u hu => hnode u (List.mem_cons_of_mem t hu)) pdb₁ hrest
    rw [kept_cons, (hts t List.mem_cons_self).shadows_eq, if_neg Bool.false_ne_true,
      ← List.append_assoc]
    exact hperm'.trans (hperm.append_right _)

private theorem nodeAdds_of_formed {t : Tree (NodeData δ ρ)} (ht : Formed true t) :
    NodeAdds lib bools insertRule tunables values t := by
  obtain ⟨resolved, hresolved⟩ : ∃ resolved, true = resolved := ⟨true, rfl⟩
  rw [hresolved] at ht
  induction ht with
  | rule r =>
    intro pdb pdb' h
    rw [nodeToPolicydb] at h
    obtain ⟨rest, -, h⟩ := Option.bind_eq_some_iff.mp h
    cases h
    rw [keptNode_rule]
    exact (List.perm_append_singleton r (pdb.inForce values)).symm
  | booleanif hexpr hlength hblocks ih =>
    intro pdb pdb' h
    rw [nodeToPolicydb] at h
    rw [keptNode_booleanif]
    subst hresolved
    exact booleanifToPolicydb_inForce hexpr hblocks h values
  | tunableif hexpr hlength hblocks ih => cases hresolved
  | emptied expr =>
    intro pdb pdb' h
    rw [nodeToPolicydb, toPolicydb] at h
    cases h
    rw [keptNode_tunableif, kept_nil, List.append_nil]
  | call hbody ih =>
    intro pdb pdb' h
    rw [nodeToPolicydb] at h
    rw [keptNode_call]
    subst hresolved
    exact toPolicydb_of_nodes hbody (fun t ht => ih t ht rfl) pdb pdb' h
  | scope hbody ih =>
    intro pdb pdb' h
    rw [nodeToPolicydb] at h
    rw [keptNode_scope]
    subst hresolved
    exact toPolicydb_of_nodes hbody (fun t ht => ih t ht rfl) pdb pdb' h

end Walk

/-- The rules in force in a compiled policy: those that stand in no shadowed block. -/
private theorem compile_kept {tunables : δ → Bool} {ts : List (Tree (NodeData δ ρ))}
    (hts : ∀ t ∈ ts, Formed false t) {rest : P} {pdb : Policydb ρ P}
    (hrun : compile lib bools insertRule tunables ts rest = some pdb) (values : Nat → Bool) :
    (pdb.inForce values).Perm (kept (valueOf bools values) tunables none ts) := by
  obtain ⟨us, hus, husFormed, hsame⟩ := resolveTunif_kept tunables ts hts
  unfold compile at hrun
  rw [hus, Option.bind_eq_bind, Option.bind_some] at hrun
  have hperm : (pdb.inForce values).Perm (kept (valueOf bools values) tunables none us) :=
    toPolicydb_of_nodes husFormed (fun t ht => nodeAdds_of_formed (husFormed t ht))
      ⟨[], [], rest⟩ pdb hrun
  exact hperm.trans (hsame (valueOf bools values))

/-- Every rule is in force exactly when its blocks are active, for all values of the booleans, if
and only if no rule that is then in force as written stands in a shadowed block. -/
theorem compile_inForce_iff (lib : CondLibrary) (bools : δ → Option Nat)
    (insertRule : ρ → Option (List CondExpr × Bool) → P → Option P) (tunables : δ → Bool)
    (ts : List (Tree (NodeData δ ρ))) (hts : ∀ t ∈ ts, Formed false t) (rest : P)
    (pdb : Policydb ρ P) (hrun : compile lib bools insertRule tunables ts rest = some pdb) :
    (∀ values, (pdb.inForce values).Perm (meaning (valueOf bools values) tunables ts)) ↔
      ∀ values, ∀ x ∈ written (valueOf bools values) tunables false none ts, x.2 = false := by
  apply forall_congr'
  intro values
  have hkept := compile_kept hts hrun values
  rw [← kept_perm_meaning_iff]
  constructor
  · intro h
    exact hkept.symm.trans h
  · intro h
    exact hkept.trans h

end Compilation

section TwoTrueBlocks

/-- The negation at the end of an expression is taken off by swapping the lists. -/
def stripNot : List CondExpr → List CondExpr × Bool
  | [] => ([], false)
  | [x, ⟨.not, _⟩] => ([x], true)
  | x :: rest => (x :: (stripNot rest).1, (stripNot rest).2)

theorem stripNot_spec (L : List CondExpr) :
    (stripNot L).2 = false ∧ (stripNot L).1 = L ∨
      ∃ v, (stripNot L).2 = true ∧ (stripNot L).1 ++ [⟨.not, v⟩] = L := by
  induction L using stripNot.induct with
  | case1 => exact Or.inl ⟨rfl, rfl⟩
  | case2 x v => exact Or.inr ⟨v, rfl, rfl⟩
  | case3 x rest hnot ih =>
    rw [stripNot]
    · rcases ih with ⟨hswapped, heq⟩ | ⟨v, hswapped, heq⟩
      · exact Or.inl ⟨hswapped, by rw [heq]⟩
      · exact Or.inr ⟨v, hswapped, by rw [List.cons_append, heq]⟩
    · exact hnot

/-- A policy library that compares expressions as they stand. -/
def plainLibrary : CondLibrary where
  normalizeExpr := stripNot
  exprEqual L M := L == M
  evalCells_normalizeExpr := by
    intro values L b h
    rcases stripNot_spec L with ⟨hswapped, heq⟩ | ⟨v, hswapped, heq⟩
    · rw [hswapped, heq]
      exact h
    · rw [hswapped]
      rw [← heq, evalCells_append] at h
      obtain ⟨stack, hstack, hnot⟩ := Option.bind_eq_some_iff.mp h
      rw [hstack]
      cases stack with
      | nil => cases hnot
      | cons a stack =>
        simp only [evalCells, evalCell, Option.bind_some, Option.some.injEq,
          List.cons.injEq] at hnot
        obtain ⟨rfl, rfl⟩ := hnot
        simp
  evalCells_of_exprEqual := by
    intro L M h values
    rw [eq_of_beq h]

/-- `(booleanif (not b) (true 1) (false 2))`, with numbers for rules. -/
def eitherBlock : List (Tree (NodeData Unit Nat)) :=
  [.node (.booleanif [.op .not, .datum ()])
    (List.map Block.node [(true, [.node (.rule 1) []]), (false, [.node (.rule 2) []])])]

/-- `(booleanif b (true (allow a a (c (p)))) (true (allow a a (c (q)))))`. -/
def twoTrueStatement : List ParseNode :=
  let allow p := ParseNode.list [.string "allow", .string "a", .string "a",
    .list [.string "c", .list [.string p]]]
  [.string "booleanif", .string "b", .list [.string "true", allow "p"],
    .list [.string "true", allow "q"]]

/-- The node for that statement, with the rules 1 and 2. -/
def twoTrue : List (Tree (NodeData Unit Nat)) :=
  [.node (.booleanif [.datum ()])
    (List.map Block.node [(true, [.node (.rule 1) []]), (true, [.node (.rule 2) []])])]

def compilePlain (ts : List (Tree (NodeData Unit Nat))) : Option (Policydb Nat Unit) :=
  compile plainLibrary (fun _ => some 0) (fun _ _ _ => some ()) (fun _ => false) ts ()

private theorem formed_booleanif {expr : List (Item Unit)} (hexpr : shaped .bool expr = true)
    (f g : Bool) : ∀ t ∈ [(.node (.booleanif expr) (List.map Block.node
      [(f, [.node (.rule 1) []]), (g, [.node (.rule 2) []])]) : Tree (NodeData Unit Nat))],
    Formed false t := by
  intro t ht
  rw [List.mem_singleton.mp ht]
  apply Formed.booleanif hexpr (Or.inr rfl)
  intro b hb u hu
  simp only [List.mem_cons, List.not_mem_nil, or_false] at hb
  rcases hb with rfl | rfl
  · rw [List.mem_singleton.mp hu]
    exact .rule 1
  · rw [List.mem_singleton.mp hu]
    exact .rule 2

/-- Of two true blocks the first one is left out. -/
theorem compile_twoTrue_not_inForce :
    genBoolif twoTrueStatement = some ([.datum "b"], [true, true]) ∧
      (∀ t ∈ twoTrue, Formed false t) ∧
      ∃ pdb, compilePlain twoTrue = some pdb ∧
        ¬ ∀ values, (pdb.inForce values).Perm
          (meaning (valueOf (fun _ => some 0) values) (fun _ => false) twoTrue) := by
  refine ⟨rfl, formed_booleanif (by decide) true true, _, rfl, ?_⟩
  intro h
  have hperm := (h fun _ => true).length_eq
  revert hperm
  decide

theorem compile_inForce_iff_eitherBlock :
    ∃ pdb, compilePlain eitherBlock = some pdb ∧
      ((∀ values, (pdb.inForce values).Perm
          (meaning (valueOf (fun _ => some 0) values) (fun _ => false) eitherBlock)) ↔
        ∀ values, ∀ x ∈ written (valueOf (fun _ => some 0) values) (fun _ => false) false none
          eitherBlock, x.2 = false) := by
  refine ⟨_, rfl, ?_⟩
  exact compile_inForce_iff plainLibrary (fun _ => some 0) (fun _ _ _ => some ()) (fun _ => false)
    eitherBlock (formed_booleanif (by decide) true false) () _ rfl

end TwoTrueBlocks

end Cil.Conditional
