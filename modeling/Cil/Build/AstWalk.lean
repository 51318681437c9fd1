/- Cil/Build/AstWalk
   digest: The walk that builds the syntax tree, over parse nodes in memory that it destroys. -/

import Cil.Build.ParseHeap
import Cil.Build.Statements

set_option autoImplicit false
set_option relaxedAutoImplicit false

namespace Cil.Build

open Library Located Heap

/-- The parse nodes and `cil_args_build`. With `sources` goes for `args->ast` and each node above
it the parse node of the list that it was made from; `calls` has every parse node with which the
helpers were called, and what `args->ast` was made from at that time. -/
structure WalkState (σ : Type) where
  heap : Heap
  args : BuildState σ
  sources : List Nat
  calls : List (Nat × Option Nat)

section Walk

variable {σ : Type}

/-- A call on the parse nodes. -/
def onHeap {α : Type} (c : Call Rc Heap α) : Call Rc (WalkState σ) α := fun s =>
  match c s.heap with
  | some (.ok a heap) => some (.ok a { s with heap := heap })
  | some (.failed e heap) => some (.failed e { s with heap := heap })
  | some .crash => some .crash
  | none => none

def setNext (n : Nat) (next : Option Nat) : Call Rc Heap Unit := do
  let c ← read n
  write n { c with next := next }

def setTail (n : Nat) (tail : Option Nat) : Call Rc Heap Unit := do
  let c ← read n
  write n { c with clTail := tail }

/-- What `cil_gen_macro`, `cil_gen_boolif` and `cil_gen_tunif` do to the parse tree: they destroy
the parameters or the expression, which they have read. -/
def splice (fuel : Nat) (kw : String) (n : Nat) : Call Rc Heap Unit :=
  if kw = "macro" then do
    let c ← read n
    let name ← Call.orCrash c.next
    let nameCell ← read name
    let params ← Call.orCrash nameCell.next
    let paramsCell ← read params
    subtreeDestroy fuel params
    setNext name paramsCell.next
    match paramsCell.next with
    | some _ => pure ()
    | none => do
        let parent ← Call.orCrash c.parent
        setTail parent (some name)
  else if kw = "booleanif" ∨ kw = "tunableif" then do
    let c ← read n
    let expr ← Call.orCrash c.next
    let exprCell ← read expr
    subtreeDestroy fuel expr
    setNext n exprCell.next
  else pure ()

def visit (n : Nat) : Call Rc (WalkState σ) Unit :=
  Call.modify fun s => { s with calls := s.calls ++ [(n, s.sources.head?)] }

variable (preserve : Bool) (b : Builder σ)

/-- `__cil_build_ast_node_helper`; it returns whether `CIL_TREE_SKIP_NEXT` was set. -/
def nodeHelper (fuel n : Nat) : Call Rc (WalkState σ) Bool := do
  let c ← onHeap (read n)
  let parent ← Call.orCrash c.parent
  let p ← onHeap (read parent)
  if p.clHead = some n then
    match c.data with
    | none =>
        -- only at the root may a parenthesis follow a parenthesis
        if p.parent = none then do
          visit n
          pure false
        else Call.fail .err
    | some kw => do
        let rest ← onHeap (readNodes fuel c.next)
        let s ← Call.get
        match buildNode preserve b kw rest s.args with
        | none => Call.fail .err
        | some (args, skipNext) => do
            onHeap (splice fuel kw n)
            Call.modify fun s => { s with args := args, sources := parent :: s.sources }
            visit n
            pure skipNext
  else do
    visit n
    pure false

/-- `__cil_build_ast_last_child_helper`. -/
def lastChildHelper (fuel : Nat) (last : Option Nat) : Call Rc (WalkState σ) Unit := do
  let s ← Call.get
  if s.args.current.label = .root then pure ()
  else do
    let n ← Call.orCrash last
    visit n
    Call.modify fun s => { s with args := s.args.leave preserve, sources := s.sources.tail }
    let c ← onHeap (read n)
    match c.parent with
    | none => pure ()
    | some parent => onHeap (childrenDestroy fuel parent)

mutual

/-- `cil_tree_walk`. -/
def treeWalk : Nat → Nat → Call Rc (WalkState σ) Unit
  | 0, _ => Call.outOfFuel
  | fuel + 1, n => do
      let c ← onHeap (read n)
      match c.clHead with
      | none => pure ()
      | some head => do
          treeWalkCore fuel (some head)
          let c ← onHeap (read n)
          lastChildHelper preserve fuel c.clTail

/-- `cil_tree_walk_core`. -/
def treeWalkCore : Nat → Option Nat → Call Rc (WalkState σ) Unit
  | 0, _ => Call.outOfFuel
  | _ + 1, none => pure ()
  | fuel + 1, some n =>
      nodeHelper preserve b fuel n >>= fun skipNext =>
      if skipNext = true then pure ()
      else
        onHeap (read n) >>= fun c =>
        (if c.clHead.isSome = true then treeWalk fuel n else pure ()) >>= fun _ =>
        onHeap (read n) >>= fun c =>
        treeWalkCore fuel c.next

end

end Walk

/-- A parse tree in memory: below the root are lists, and no two nodes have one address. -/
structure ParseTree where
  heap : Heap
  root : Nat
  nodes : List Located
  rootCell : heap root = some ⟨none, none, headId nodes, lastId nodes, none⟩
  linked : LinkedAll heap true root nodes
  nodup : (root :: idsAll nodes).Nodup
  lists : ∀ t ∈ nodes, t.data = none

/-- The lists at the root. -/
def ParseTree.input (P : ParseTree) : List (List ParseNode) :=
  P.nodes.map fun t => forgetAll t.children

/-- `parse_current->parent`, before the walk. -/
def ParseTree.parent (P : ParseTree) (n : Nat) : Option Nat := (P.heap n).bind Cell.parent

section Build

variable {σ : Type} (preserve : Bool) (b : Builder σ)

/-- What `cil_build_ast` begins with. -/
def WalkState.start (db : σ) (heap : Heap) (root : Nat) : WalkState σ :=
  ⟨heap, ⟨db, ⟨.root, []⟩, [], fun _ => false⟩, [root], []⟩

/-- `cil_build_ast`. -/
def cilBuildAst (fuel : Nat) (db : σ) (heap : Heap) (root : Nat) :
    Option (Returned Rc (WalkState σ) Unit) :=
  treeWalk preserve b fuel root (.start db heap root)

def WalkState.ast (s : WalkState σ) : Tree Label :=
  .node s.args.current.label s.args.current.children

end Build

section Reading

namespace Located

theorem forgetAll_eq_map (ts : List Located) : forgetAll ts = ts.map forget := by
  induction ts with
  | nil => rfl
  | cons t ts ih => rw [forgetAll, ih, List.map_cons]

theorem forget_of_data_none {t : Located} (h : t.data = none) :
    t.forget = .list (forgetAll t.children) := by
  cases t with
  | node n data children =>
      have hdata : data = none := h
      rw [hdata, forget]
      rfl

end Located

theorem ParseTree.forgetAll_nodes (P : ParseTree) :
    forgetAll P.nodes = P.input.map .list := by
  rw [forgetAll_eq_map, ParseTree.input, List.map_map]
  apply List.map_congr_left
  intro t ht
  exact forget_of_data_none (P.lists t ht)

/-- The builders read what is there. -/
theorem readNodes_of {h : Heap} {tails : Bool} {fuel parent : Nat} {ts : List Located}
    (hl : LinkedAll h tails parent ts) (hfuel : (idsAll ts).length < fuel) :
    readNodes fuel (headId ts) h = some (.ok (forgetAll ts) h) := by
  induction fuel generalizing ts parent with
  | zero => exact absurd hfuel (Nat.not_lt_zero _)
  | succ fuel ih =>
      match ts with
      | [] => rfl
      | .node n data children :: ts =>
          simp only [idsAll, ids, List.length_append, List.length_cons] at hfuel
          simp only [LinkedAll, Linked] at hl
          obtain ⟨⟨⟨tail, -, hcell⟩, -, hchildren⟩, hrest⟩ := hl
          have hrest' := ih hrest (by omega)
          have hchildren' := ih hchildren (by omega)
          rw [headId_cons, id_node, readNodes, Call.bind_of_ok (read_of hcell)]
          cases data with
          | some s =>
              have hnode : (pure (.string s) : Call Rc Heap ParseNode) h =
                  some (.ok (.string s) h) := rfl
              dsimp only
              rw [Call.bind_of_ok hnode, Call.bind_of_ok hrest']
              rfl
          | none =>
              have hnode : (pure (.list (forgetAll children)) : Call Rc Heap ParseNode) h =
                  some (.ok (.list (forgetAll children)) h) := rfl
              dsimp only
              rw [Call.bind_of_ok hchildren', Call.bind_of_ok hnode, Call.bind_of_ok hrest']
              rfl

end Reading

section Destroying

namespace Heap

/-- The heap without some nodes. -/
def removed (h : Heap) (gone : List Nat) : Heap := fun m => if m ∈ gone then none else h m

private theorem removed_of_mem {h : Heap} {gone : List Nat} {m : Nat} (hm : m ∈ gone) :
    removed h gone m = none := if_pos hm

private theorem removed_of_not_mem {h : Heap} {gone : List Nat} {m : Nat} (hm : m ∉ gone) :
    removed h gone m = h m := if_neg hm

/-- A node is freed with all that is below it. -/
private theorem subtreeDestroy_of {h : Heap} {tails : Bool} {fuel parent : Nat} {next : Option Nat}
    {t : Located} (hl : Linked h tails parent next t) (hnodup : t.ids.Nodup)
    (hfuel : 2 * t.ids.length < fuel) :
    subtreeDestroy fuel t.id h = some (.ok () (removed h t.ids)) := by
  cases t with
  | node n data children =>
      rw [ids, List.nodup_cons] at hnodup
      rw [ids, List.length_cons] at hfuel
      obtain ⟨⟨tail, -, hcell⟩, -, hchildren⟩ := hl
      rw [subtreeDestroy, id_node, Call.bind_of_ok (childrenDestroy_of hcell rfl
        (linkedAll_untailed _ hchildren) hnodup.2 hnodup.1 (by omega)),
        free_of (cleared_parent hnodup.1)]
      rw [ids]
      congr 2
      funext m
      by_cases hm : m = n
      · rw [hm, Function.update_self, removed_of_mem List.mem_cons_self]
      · rw [Function.update_of_ne hm]
        by_cases hmem : m ∈ idsAll children
        · rw [cleared, if_pos hmem, removed_of_mem (List.mem_cons_of_mem n hmem)]
        · have hnot : m ∉ n :: idsAll children := by
            rw [List.mem_cons, not_or]
            exact ⟨hm, hmem⟩
          rw [cleared_of_not_mem hmem hm, removed_of_not_mem hnot]

theorem linked_cell {h : Heap} {tails : Bool} {parent : Nat} {next : Option Nat} {t : Located}
    (hl : Linked h tails parent next t) :
    ∃ c, h t.id = some c ∧ c.data = t.data ∧ c.parent = some parent ∧
      c.clHead = headId t.children ∧ c.next = next := by
  cases t with
  | node n data children =>
      obtain ⟨⟨tail, -, hcell⟩, -⟩ := hl
      exact ⟨_, hcell, rfl, rfl, rfl, rfl⟩

/-- A node gets another sibling. -/
private theorem linked_setNext {h : Heap} {tails : Bool} {parent : Nat} {next : Option Nat}
    {t : Located}
    {c : Cell} (hl : Linked h tails parent next t) (hc : h t.id = some c) (hnodup : t.ids.Nodup)
    (next' : Option Nat) :
    Linked (Function.update h t.id (some { c with next := next' })) tails parent next' t := by
  cases t with
  | node n data children =>
      rw [ids, List.nodup_cons] at hnodup
      obtain ⟨⟨tail, htail, hcell⟩, hdata, hchildren⟩ := hl
      rw [id_node, hcell] at hc
      obtain rfl := Option.some.inj hc
      refine ⟨⟨tail, htail, ?_⟩, hdata, linkedAll_congr children (fun m hm => ?_) hchildren⟩
      · rw [id_node, Function.update_self]
      · have hne : m ≠ n := fun heq => hnodup.1 (heq ▸ hm)
        rw [id_node, Function.update_of_ne hne]

private theorem setNext_of {h : Heap} {n : Nat} {c : Cell} (hc : h n = some c) (next : Option Nat) :
    setNext n next h = some (.ok () (Function.update h n (some { c with next := next }))) := by
  rw [setNext, Call.bind_of_ok (read_of hc), write_of hc]

private theorem setTail_of {h : Heap} {n : Nat} {c : Cell} (hc : h n = some c) (tail : Option Nat) :
    setTail n tail h = some (.ok () (Function.update h n (some { c with clTail := tail }))) := by
  rw [setTail, Call.bind_of_ok (read_of hc), write_of hc]

end Heap

end Destroying

section Splicing

namespace Located

theorem idsAll_append (ts us : List Located) : idsAll (ts ++ us) = idsAll ts ++ idsAll us := by
  induction ts with
  | nil => rfl
  | cons t ts ih => rw [List.cons_append, idsAll, idsAll, ih, List.append_assoc]

private theorem headId_append_cons (pre : List Located) (t : Located) (ts us : List Located) :
    headId (pre ++ t :: ts) = headId (pre ++ t :: us) := by
  cases pre <;> rfl

end Located

/-- Among the nodes of a list, `new` are left of `old`. -/
structure Spliced (h h' : Heap) (list : Nat) (p : Cell) (old new : List Located) : Prop where
  cell : h' list = some { p with clTail := lastId new }
  linked : LinkedAll h' true list new
  gone : ∀ m ∈ idsAll old, m ∉ idsAll new → h' m = none
  same : ∀ m, m ≠ list → m ∉ idsAll old → h' m = h m

variable {h : Heap} {list : Nat} {p c : Cell} {pre content : List Located} {before out : Located}

/-- The heap after the node behind `before` has been taken out. -/
def without (h : Heap) (list : Nat) (p c : Cell) (pre : List Located) (before out : Located)
    (content : List Located) : Heap :=
  Function.update (Function.update (removed h out.ids) before.id
    (some { c with next := headId content })) list
    (some { p with clTail := lastId (pre ++ before :: content) })

private theorem without_of_ne {m : Nat} (hlist : m ≠ list) (hbefore : m ≠ before.id)
    (hout : m ∉ out.ids) : without h list p c pre before out content m = h m := by
  rw [without, Function.update_of_ne hlist, Function.update_of_ne hbefore,
    removed_of_not_mem hout]

/-- The links of the nodes that are left. -/
private theorem linked_without {all : List Located} (hc : h before.id = some c)
    (hl : LinkedAll h true list (pre ++ before :: out :: content))
    (hnodup : (idsAll (pre ++ before :: out :: content)).Nodup)
    (hlist : list ∉ idsAll (pre ++ before :: out :: content)) :
    LinkedAll (without h list p c all before out content) true list (pre ++ before :: content) := by
  induction pre with
  | nil =>
      obtain ⟨hbefore, -, hcontent⟩ := hl
      simp only [List.nil_append, idsAll] at hnodup hlist
      have hdisjoint := List.disjoint_of_nodup_append hnodup
      have hdisjoint' := List.disjoint_of_nodup_append (List.nodup_append.mp hnodup).2.1
      simp only [List.mem_append, not_or] at hlist
      have hbeforeOut : before.id ∉ out.ids := fun hmem =>
        hdisjoint (id_mem_ids before) (List.mem_append_left _ hmem)
      refine ⟨?_, linkedAll_congr content (fun m hm => ?_) hcontent⟩
      · have hremoved : Linked (removed h out.ids) true list (headId (out :: content)) before := by
          refine linked_congr before (fun m hm => removed_of_not_mem fun hmem => ?_) hbefore
          exact hdisjoint hm (List.mem_append_left _ hmem)
        have hcell : removed h out.ids before.id = some c := by
          rw [removed_of_not_mem hbeforeOut, hc]
        have hnext := linked_setNext hremoved hcell (List.nodup_append.mp hnodup).1
          (headId content)
        refine linked_congr before (fun m hm => ?_) hnext
        have hne : m ≠ list := fun heq => hlist.1 (heq ▸ hm)
        rw [without, Function.update_of_ne hne]
      · refine without_of_ne (fun heq => hlist.2.2 (heq ▸ hm)) (fun heq => ?_) fun hmem => ?_
        · exact hdisjoint (id_mem_ids before) (List.mem_append_right _ (heq ▸ hm))
        · exact hdisjoint' hmem hm
  | cons t pre ih =>
      obtain ⟨ht, hrest⟩ := hl
      rw [List.cons_append, idsAll] at hnodup hlist
      have hdisjoint := List.disjoint_of_nodup_append hnodup
      rw [List.mem_append, not_or] at hlist
      refine ⟨?_, ih hrest (List.nodup_append.mp hnodup).2.1 hlist.2⟩
      have hnext : Linked h true list (headId (pre ++ before :: out :: content)) t := ht
      rw [headId_append_cons pre before (out :: content) content] at hnext
      refine linked_congr t (fun m hm => ?_) hnext
      have hnot : m ∉ idsAll (pre ++ before :: out :: content) := hdisjoint hm
      simp only [idsAll_append, idsAll, List.mem_append, not_or] at hnot
      refine without_of_ne (fun heq => hlist.1 (heq ▸ hm)) (fun heq => ?_) hnot.2.2.1
      exact hnot.2.1 (heq ▸ id_mem_ids before)

private theorem spliced_without (hc : h before.id = some c)
    (hl : LinkedAll h true list (pre ++ before :: out :: content))
    (hnodup : (idsAll (pre ++ before :: out :: content)).Nodup)
    (hlist : list ∉ idsAll (pre ++ before :: out :: content)) :
    Spliced h (without h list p c pre before out content) list p
      (pre ++ before :: out :: content) (pre ++ before :: content) where
  cell := Function.update_self ..
  linked := linked_without hc hl hnodup hlist
  gone m hm hnot := by
    simp only [idsAll_append, idsAll, List.mem_append, not_or] at hm hnot hlist
    have hout : m ∈ out.ids := by
      rcases hm with hm | hm | hm | hm
      · exact absurd hm hnot.1
      · exact absurd hm hnot.2.1
      · exact hm
      · exact absurd hm hnot.2.2
    have hne : m ≠ list := fun heq => hlist.2.2.1 (heq ▸ hout)
    have hne' : m ≠ before.id := fun heq => hnot.2.1 (heq ▸ id_mem_ids before)
    rw [without, Function.update_of_ne hne, Function.update_of_ne hne', removed_of_mem hout]
  same m hne hnot := by
    simp only [idsAll_append, idsAll, List.mem_append, not_or] at hnot
    refine without_of_ne hne (fun heq => ?_) hnot.2.2.1
    exact hnot.2.1 (heq ▸ id_mem_ids before)

/-- The parameters of a macro are taken out. -/
theorem splice_macro {fuel : Nat} {first name params : Located} (hp : h list = some p)
    (htail : p.clTail = lastId (first :: name :: params :: content))
    (hl : LinkedAll h true list (first :: name :: params :: content))
    (hnodup : (idsAll (first :: name :: params :: content)).Nodup)
    (hlist : list ∉ idsAll (first :: name :: params :: content))
    (hfuel : 2 * params.ids.length < fuel) :
    ∃ h', splice fuel "macro" first.id h = some (.ok () h') ∧
      Spliced h h' list p (first :: name :: params :: content) (first :: name :: content) := by
  obtain ⟨hfirst, hname, hparams, hcontent⟩ := id hl
  obtain ⟨firstCell, hfirstCell, -, hparent, -, hnext⟩ := linked_cell hfirst
  obtain ⟨nameCell, hnameCell, -, -, -, hnameNext⟩ := linked_cell hname
  obtain ⟨paramsCell, hparamsCell, -, -, -, hparamsNext⟩ := linked_cell hparams
  refine ⟨without h list p nameCell [first] name params content, ?_,
    spliced_without hnameCell hl hnodup hlist⟩
  have hids := hnodup
  simp only [idsAll] at hids
  have hdisjoint := List.disjoint_of_nodup_append (List.nodup_append.mp hids).2.1
  have hparamsNodup : params.ids.Nodup :=
    (List.nodup_append.mp (List.nodup_append.mp (List.nodup_append.mp hids).2.1).2.1).1
  simp only [idsAll, List.mem_append, not_or] at hlist
  have hnameCell' : removed h params.ids name.id = some nameCell := by
    rw [removed_of_not_mem fun hmem => hdisjoint (id_mem_ids name)
      (List.mem_append_left _ hmem), hnameCell]
  have hne : list ≠ name.id := fun heq => hlist.2.1 (heq ▸ id_mem_ids name)
  have hcell : Function.update (removed h params.ids) name.id
      (some { nameCell with next := headId content }) list = some p := by
    rw [Function.update_of_ne hne, removed_of_not_mem hlist.2.2.1, hp]
  have horCrash : ∀ (n : Nat) (g : Heap), Call.orCrash (some n) g =
      some (Returned.ok (ε := Rc) n g) := fun _ _ => rfl
  rw [splice, if_pos rfl, Call.bind_of_ok (read_of hfirstCell), hnext, headId_cons,
    Call.bind_of_ok (horCrash _ _), Call.bind_of_ok (read_of hnameCell), hnameNext, headId_cons,
    Call.bind_of_ok (horCrash _ _), Call.bind_of_ok (read_of hparamsCell),
    Call.bind_of_ok (subtreeDestroy_of hparams hparamsNodup hfuel), hparamsNext,
    Call.bind_of_ok (setNext_of hnameCell' _)]
  cases content with
  | nil =>
      rw [headId_nil] at hcell ⊢
      dsimp only
      rw [hparent, Call.bind_of_ok (horCrash _ _), setTail_of hcell]
      rfl
  | cons t content =>
      have hsame : lastId ([first] ++ name :: t :: content) = p.clTail := by
        rw [htail]
        simp [lastId]
      rw [without, hsame]
      have hupdate := Function.update_eq_self list (Function.update (removed h params.ids) name.id
        (some { nameCell with next := headId (t :: content) }))
      rw [hcell] at hupdate
      rw [hupdate]
      rfl

/-- The expression of a conditional is taken out. -/
theorem splice_conditional {fuel : Nat} {kw : String} {first expr cond : Located}
    (hkw : kw = "booleanif" ∨ kw = "tunableif") (hp : h list = some p)
    (htail : p.clTail = lastId (first :: expr :: cond :: content))
    (hl : LinkedAll h true list (first :: expr :: cond :: content))
    (hnodup : (idsAll (first :: expr :: cond :: content)).Nodup)
    (hlist : list ∉ idsAll (first :: expr :: cond :: content))
    (hfuel : 2 * expr.ids.length < fuel) :
    ∃ h', splice fuel kw first.id h = some (.ok () h') ∧
      Spliced h h' list p (first :: expr :: cond :: content) (first :: cond :: content) := by
  obtain ⟨hfirst, hexpr, -⟩ := id hl
  obtain ⟨firstCell, hfirstCell, -, -, -, hnext⟩ := linked_cell hfirst
  obtain ⟨exprCell, hexprCell, -, -, -, hexprNext⟩ := linked_cell hexpr
  refine ⟨without h list p firstCell [] first expr (cond :: content), ?_,
    spliced_without hfirstCell hl hnodup hlist⟩
  have hids := hnodup
  simp only [idsAll] at hids
  have hdisjoint := List.disjoint_of_nodup_append hids
  have hexprNodup : expr.ids.Nodup := (List.nodup_append.mp (List.nodup_append.mp hids).2.1).1
  simp only [idsAll, List.mem_append, not_or] at hlist
  have hfirstCell' : removed h expr.ids first.id = some firstCell := by
    rw [removed_of_not_mem fun hmem => hdisjoint (id_mem_ids first)
      (List.mem_append_left _ hmem), hfirstCell]
  have hne : list ≠ first.id := fun heq => hlist.1 (heq ▸ id_mem_ids first)
  have hcell : Function.update (removed h expr.ids) first.id
      (some { firstCell with next := headId (cond :: content) }) list = some p := by
    rw [Function.update_of_ne hne, removed_of_not_mem hlist.2.1, hp]
  have horCrash : ∀ (n : Nat) (g : Heap), Call.orCrash (some n) g =
      some (Returned.ok (ε := Rc) n g) := fun _ _ => rfl
  have hmacro : kw ≠ "macro" := by
    rcases hkw with heq | heq
    · rw [heq]
      decide
    · rw [heq]
      decide
  rw [splice, if_neg hmacro, if_pos hkw, Call.bind_of_ok (read_of hfirstCell), hnext, headId_cons,
    Call.bind_of_ok (horCrash _ _), Call.bind_of_ok (read_of hexprCell),
    Call.bind_of_ok (subtreeDestroy_of hexpr hexprNodup hfuel), hexprNext,
    setNext_of hfirstCell']
  have hsame : lastId ([] ++ first :: cond :: content) = p.clTail := by
    rw [htail]
    simp [lastId]
  have hupdate := Function.update_eq_self list (Function.update (removed h expr.ids) first.id
    (some { firstCell with next := headId (cond :: content) }))
  rw [hcell] at hupdate
  rw [without, hsame, hupdate]

end Splicing

end Cil.Build
