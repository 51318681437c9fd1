/- Cil/Build/FrontEnd
   digest: From the texts of the files to the syntax tree, and what is left in memory. -/

import Cil.Build.AstWalkExact
import Cil.Parser.ParserExact

set_option autoImplicit false
set_option relaxedAutoImplicit false

namespace Cil.Build

open Library Located Heap
open Library.Nesting (flattenAll flattenAll_injective Reading)
open Cil.Parser (Token Expression Accepted tokens pieces parserTurns lexerSetup cilParser Labelled
  Chained Children Spells SpellsAll SameButNext)

/-- `cil_tree_init`: the parse tree before the first file is read. -/
def treeInit : Parser.Heap := ⟨fun _ => Parser.treeNodeInit, 1⟩

/-- `cil_add_file`. -/
def cilAddFile (name data : Text) (root : Nat) (heap : Parser.Heap) :
    Option (Except Verdict Parser.Heap) :=
  match parserTurns name (data.length + 1) (lexerSetup data) ⟨heap, some root, 0⟩ with
  | none => none
  | some (.error v) => some (.error v)
  | some (.ok s) => some (.ok s.heap)

/-- One call for each file, until one of them fails. -/
def cilAddFiles (root : Nat) :
    List (Text × Text) → Parser.Heap → Option (Except Verdict Parser.Heap)
  | [], heap => some (.ok heap)
  | (name, data) :: files, heap =>
      match cilAddFile name data root heap with
      | some (.ok heap) => cilAddFiles root files heap
      | result => result

/-- A node of the parser, as far as the builders read it. -/
def cellOf (x : Parser.TreeNode) : Cell :=
  ⟨x.data.map String.ofList, x.parent, x.clHead, x.clTail, x.next⟩

/-- The nodes that the parser has allocated. -/
def memory (h : Parser.Heap) : Heap :=
  fun n => if n < h.size then some (cellOf (h.cells n)) else none

section FrontEnd

variable {σ : Type} (preserve : Bool) (b : Builder σ)

/-- `cil_add_file` of each file, and what `cil_compile` does with the parse tree: it builds the
syntax tree and destroys the parse tree. The heap is what is left of that. -/
def frontEnd (fuel : Nat) (db : σ) (files : List (Text × Text)) :
    Option (Except Verdict (Tree Label × Heap)) :=
  match cilAddFiles 0 files treeInit with
  | none => none
  | some (.error v) => some (.error v)
  | some (.ok heap) =>
      match cilBuildAst preserve b fuel db (memory heap) 0 with
      | none => none
      | some .crash => some (.error .crash)
      | some (.failed rc _) => some (.error (.failure rc))
      | some (.ok () s) =>
          match subtreeDestroy fuel 0 s.heap with
          | none => none
          | some .crash => some (.error .crash)
          | some (.failed rc _) => some (.error (.failure rc))
          | some (.ok () heap) => some (.ok (s.ast, heap))

end FrontEnd

section Input

mutual

/-- The parse node that an expression is. -/
def parseNode : Expression → ParseNode
  | .leaf (data, _) => .string (String.ofList data)
  | .list _ ts => .list (parseNodes ts)

def parseNodes : List Expression → List ParseNode
  | [] => []
  | t :: ts => parseNode t :: parseNodes ts

end

/-- The lists among the expressions. -/
def listsOf (forest : List Expression) : List (List ParseNode) :=
  forest.filterMap fun t =>
    match t with
    | .list _ ts => some (parseNodes ts)
    | .leaf _ => none

end Input

section Locating

variable {h h' : Parser.Heap} {path : Text} {root : Nat}

/-- A node is where its fields say, whatever stands around it. -/
def PlacedAt (h : Heap) (u : Located) : Prop :=
  ∀ c parent, h u.id = some c → c.parent = some parent → Linked h true parent c.next u

private theorem memory_of_lt {n : Nat} (hn : n < h.size) : memory h n = some (cellOf (h.cells n)) :=
  if_pos hn

/-- Nodes that are chained below a node are linked, if each of them is placed. -/
private theorem linkedAll_of_chained {us : List Located} (hchained : Chained h (us.map Located.id))
    (hsize : ∀ u ∈ us, u.id < h.size) (hparent : ∀ u ∈ us, (h.cells u.id).parent = some root)
    (hplaced : ∀ u ∈ us, PlacedAt (memory h) u) : LinkedAll (memory h) true root us := by
  induction us with
  | nil => trivial
  | cons u us ih =>
      have hu : u ∈ u :: us := List.mem_cons_self
      have hnext : (h.cells u.id).next = headId us := by
        have hhead : (us.map Located.id).head? = headId us := List.head?_map
        rw [← hhead]
        exact hchained.1
      have hcell := memory_of_lt (hsize u hu)
      have hlinked := hplaced u hu _ root hcell (hparent u hu)
      refine ⟨?_, ih hchained.2 (fun v hv => hsize v (List.mem_cons_of_mem u hv))
        (fun v hv => hparent v (List.mem_cons_of_mem u hv))
        fun v hv => hplaced v (List.mem_cons_of_mem u hv)⟩
      rw [← hnext]
      exact hlinked

private theorem range'_append_of {lo mid hi : Nat} (hlo : lo ≤ mid) (hhi : mid ≤ hi) :
    List.range' lo (mid - lo) ++ List.range' mid (hi - mid) = List.range' lo (hi - lo) := by
  have happend := @List.range'_append lo (mid - lo) (hi - mid) 1
  have hmid : lo + 1 * (mid - lo) = mid := by omega
  have hlength : mid - lo + (hi - mid) = hi - lo := by omega
  rw [hmid, hlength] at happend
  exact happend

mutual

/-- The nodes that say an expression make a tree in memory. -/
private theorem located_of_spells : (t : Expression) → {n hi : Nat} → Spells h path t n hi →
    hi ≤ h.size → ∃ u : Located, u.id = n ∧ u.ids = List.range' n (hi - n) ∧
      u.forget = parseNode t ∧ PlacedAt (memory h) u
  | .leaf (data, line), n, hi, hs, hsize => by
      obtain ⟨rfl, hlabel, hchildren⟩ := hs
      have hone : n + 1 - n = 1 := by omega
      refine ⟨.node n (some (String.ofList data)) [], rfl, ?_, ?_, ?_⟩
      · rw [hone]
        rfl
      · rw [forget, parseNode]
      · intro c parent hc hparent
        have hn : n < h.size := by omega
        have hcell : memory h n = some c := hc
        rw [memory_of_lt hn] at hcell
        obtain rfl := Option.some.inj hcell
        refine ⟨⟨none, fun _ => rfl, ?_⟩, fun _ => rfl, trivial⟩
        have hp : (h.cells n).parent = some parent := hparent
        have hhead : (h.cells n).clHead = none := hchildren.head
        have htail : (h.cells n).clTail = none := hchildren.tail
        rw [memory_of_lt hn, cellOf, hlabel.data, hp, hhead, htail]
        rfl
  | .list line ts, n, hi, hs, hsize => by
      obtain ⟨hlabel, tops, hchildren, hall⟩ := hs
      obtain ⟨hle, hbounds⟩ := SpellsAll.bounds ts hall
      obtain ⟨us, hids, hrange, hforget, hplaced⟩ := located_of_spellsAll ts hall hsize
      have hsucc : hi - n = hi - (n + 1) + 1 := by omega
      refine ⟨.node n none us, rfl, ?_, ?_, ?_⟩
      · rw [ids, hrange, hsucc, List.range'_succ]
      · rw [forget, parseNode, hforget]
      · intro c parent hc hparent
        have hn : n < h.size := by omega
        have hcell : memory h n = some c := hc
        rw [memory_of_lt hn] at hcell
        obtain rfl := Option.some.inj hcell
        have hmem (u : Located) (hu : u ∈ us) : u.id ∈ tops := by
          rw [← hids]
          exact List.mem_map_of_mem hu
        refine ⟨⟨lastId us, fun _ => rfl, ?_⟩, Bool.noConfusion, ?_⟩
        · have hp : (h.cells n).parent = some parent := hparent
          have hhead : (h.cells n).clHead = headId us := by
            rw [hchildren.head, ← hids, List.head?_map]
            rfl
          have htail : (h.cells n).clTail = lastId us := by
            rw [hchildren.tail, ← hids, List.getLast?_map]
            rfl
          rw [memory_of_lt hn, cellOf, hlabel.data, hp, hhead, htail]
          rfl
        · apply linkedAll_of_chained
          · rw [hids]
            exact hchildren.chained
          · intro u hu
            have hlt := (hbounds u.id (hmem u hu)).2
            omega
          · exact fun u hu => hchildren.parent u.id (hmem u hu)
          · exact hplaced

private theorem located_of_spellsAll : (ts : List Expression) → {ids : List Nat} → {lo hi : Nat} →
    SpellsAll h path ts ids lo hi → hi ≤ h.size → ∃ us : List Located, us.map Located.id = ids ∧
      idsAll us = List.range' lo (hi - lo) ∧ forgetAll us = parseNodes ts ∧
      ∀ u ∈ us, PlacedAt (memory h) u
  | [], _, lo, hi, hs, _ => by
      obtain ⟨rfl, rfl⟩ := hs
      refine ⟨[], rfl, ?_, rfl, ?_⟩
      · rw [Nat.sub_self]
        rfl
      · intro u hu
        cases hu
  | t :: ts, _, lo, hi, hs, hsize => by
      obtain ⟨mid, rest, rfl, hfirst, hrest⟩ := hs
      have hlt := Spells.lt t hfirst
      have hle := (SpellsAll.bounds ts hrest).1
      obtain ⟨u, hid, hids, hforget, hplaced⟩ := located_of_spells t hfirst (by omega)
      obtain ⟨us, hmap, hall, hforgetAll, hplacedAll⟩ := located_of_spellsAll ts hrest hsize
      refine ⟨u :: us, ?_, ?_, ?_, ?_⟩
      · rw [List.map_cons, hid, hmap]
      · rw [idsAll, hids, hall]
        exact range'_append_of (by omega) hle
      · rw [forgetAll, hforget, hforgetAll, parseNodes]
      · exact List.forall_mem_cons.mpr ⟨hplaced, hplacedAll⟩

end

end Locating

section Loading

variable {h : Parser.Heap} {root : Nat} {nodes : List Located}

/-- The parse tree in memory after some files: the lists that they say, below the root. -/
structure Loaded (h : Parser.Heap) (root : Nat) (nodes : List Located) : Prop where
  rootCell : memory h root = some ⟨none, none, headId nodes, lastId nodes, none⟩
  linked : LinkedAll (memory h) true root nodes
  nodup : (root :: idsAll nodes).Nodup
  below : ∀ n ∈ root :: idsAll nodes, n < h.size
  all : ∀ n, n < h.size → n ∈ root :: idsAll nodes
  lists : ∀ t ∈ nodes, t.data = none

private theorem loaded_init : Loaded treeInit 0 [] where
  rootCell := rfl
  linked := trivial
  nodup := List.nodup_singleton 0
  below n hn := by
    rw [List.mem_singleton.mp hn]
    exact Nat.zero_lt_one
  all n hn := by
    have hsize : n < 1 := hn
    have hzero : n = 0 := by omega
    exact List.mem_singleton.mpr hzero
  lists t ht := by cases ht

/-- What the builders of statements get. -/
def Loaded.parseTree (hloaded : Loaded h root nodes) : ParseTree :=
  ⟨memory h, root, nodes, hloaded.rootCell, hloaded.linked, hloaded.nodup, hloaded.lists⟩

theorem Loaded.cell {n : Nat} {c : Cell} (hc : memory h n = some c) : cellOf (h.cells n) = c := by
  unfold memory at hc
  split_ifs at hc
  exact Option.some.inj hc

theorem Loaded.children (hloaded : Loaded h root nodes) :
    Children h root (nodes.map Located.id) where
  head := by
    have hcell := Loaded.cell hloaded.rootCell
    rw [List.head?_map]
    exact congrArg Cell.clHead hcell
  tail := by
    have hcell := Loaded.cell hloaded.rootCell
    rw [List.getLast?_map]
    exact congrArg Cell.clTail hcell
  chained := by
    have hlinked := hloaded.linked
    clear hloaded
    induction nodes with
    | nil => trivial
    | cons t ts ih =>
        obtain ⟨c, hc, -, -, -, hnext⟩ := linked_cell hlinked.1
        refine ⟨?_, ih hlinked.2⟩
        have hhead : (h.cells t.id).next = c.next := congrArg Cell.next (Loaded.cell hc)
        rw [hhead, hnext, List.head?_map]
        rfl
  parent n hn := by
    obtain ⟨t, ht, rfl⟩ := List.mem_map.mp hn
    obtain ⟨next, hlinked⟩ := linked_of_mem hloaded.linked ht
    obtain ⟨c, hc, -, hparent, -⟩ := linked_cell hlinked
    have heq : (h.cells t.id).parent = c.parent := congrArg Cell.parent (Loaded.cell hc)
    rw [heq, hparent]

/-- What the parser gets for the next file. -/
def Loaded.tree (hloaded : Loaded h root nodes) : Parser.ParseTree where
  heap := h
  root := root
  previous := nodes.map Located.id
  root_lt := hloaded.below root List.mem_cons_self
  previous_lt n hn := hloaded.below n (List.mem_cons_of_mem root ((map_id_sublist nodes).subset hn))
  root_not_mem hn := (List.nodup_cons.mp hloaded.nodup).1 ((map_id_sublist nodes).subset hn)
  children := hloaded.children

/-- A node from before is where it was, but for the link behind it. -/
private theorem placed_of_linked {h' : Parser.Heap} {t : Located} {next : Option Nat}
    (hl : Linked (memory h) true root next t) (hsize : h.size ≤ h'.size)
    (hnext : SameButNext h h' t.id) (hbelow : ∀ m ∈ t.ids, m < h.size)
    (hsame : ∀ m ∈ idsAll t.children, h'.cells m = h.cells m) : PlacedAt (memory h') t := by
  cases t with
  | node n data children =>
      obtain ⟨⟨tail, htail, hcell⟩, hdata, hchildren⟩ := hl
      obtain ⟨other, hother⟩ := hnext
      have hn : n < h.size := hbelow n List.mem_cons_self
      have hold : cellOf (h.cells n) = ⟨data, some root, headId children, tail, next⟩ :=
        Loaded.cell hcell
      have hnew : memory h' n = some ⟨data, some root, headId children, tail, other⟩ := by
        have hcells : h'.cells n = { h.cells n with next := other } := hother
        have heq : cellOf { h.cells n with next := other } =
            { cellOf (h.cells n) with next := other } := rfl
        have hlt : n < h'.size := by omega
        rw [memory_of_lt hlt, hcells, heq, hold]
      intro c parent hc hparent
      have hcell' : memory h' n = some c := hc
      rw [hnew] at hcell'
      obtain rfl := Option.some.inj hcell'
      obtain rfl := Option.some.inj hparent
      refine ⟨⟨tail, htail, hnew⟩, hdata, linkedAll_congr children (fun m hm => ?_) hchildren⟩
      have hlt : m < h.size := hbelow m (List.mem_cons_of_mem n hm)
      have hlt' : m < h'.size := by omega
      have hm' : h'.cells m = h.cells m := hsame m hm
      rw [memory_of_lt hlt, memory_of_lt hlt', hm']

/-- The expressions of an accepted file are lists. -/
private theorem lists_of_accepted {toks : List Token} {forest : List Expression} (h : Accepted toks)
    (hforest : flattenAll forest = pieces toks) : ∀ t ∈ forest, ∃ line ts, t = .list line ts := by
  have hrun := (Parser.run_pieces_iff toks).mpr ⟨h.balanced, h.prefixes, h.inside⟩
  obtain ⟨r, hrun, hframes⟩ := hrun
  have hspelled := Reading.run_spelled hrun
  rw [Reading.spelled, hframes] at hspelled
  have htop : flattenAll r.top = pieces toks := by
    simpa [Reading.start, Reading.spelled] using hspelled
  have heq : forest = r.top := flattenAll_injective (hforest.trans htop.symm)
  rw [heq]
  apply Reading.run_lists hrun
  intro t ht
  cases ht

private theorem data_of_forget {u : Located} {ts : List ParseNode} (h : u.forget = .list ts) :
    u.data = none := by
  cases u with
  | node n data children =>
      cases data with
      | none => rfl
      | some word => cases h

private theorem parseNodes_eq_map (ts : List Expression) : parseNodes ts = ts.map parseNode := by
  induction ts with
  | nil => rfl
  | cons t ts ih => rw [parseNodes, ih, List.map_cons]

private theorem not_top_of_below {ts : List Located} {u : Located} {m : Nat}
    (hnodup : (idsAll ts).Nodup)
    (hu : u ∈ ts) (hm : m ∈ idsAll u.children) : m ∉ ts.map Located.id := by
  induction ts with
  | nil => cases hu
  | cons t ts ih =>
      rw [idsAll] at hnodup
      have hdisjoint := List.disjoint_of_nodup_append hnodup
      obtain ⟨hids, hrest, -⟩ := List.nodup_append.mp hnodup
      have hmem : m ∈ u.ids := mem_ids.mpr (Or.inr hm)
      rw [List.map_cons, List.mem_cons, not_or]
      rcases List.mem_cons.mp hu with rfl | hu
      · refine ⟨?_, fun htop => hdisjoint hmem ((map_id_sublist ts).subset htop)⟩
        cases u with
        | node n data children =>
            have hn : n ∉ idsAll children := (List.nodup_cons.mp hids).1
            intro heq
            rw [heq] at hm
            exact hn hm
      · refine ⟨?_, ih hrest hu⟩
        intro heq
        exact hdisjoint (id_mem_ids t) (heq ▸ ids_subset_idsAll hu m hmem)

section Added

variable {h' : Parser.Heap} {us : List Located} (hloaded : Loaded h root nodes)
  (hkept : Parser.Kept hloaded.tree h')
  (hchained : Children h' root ((nodes ++ us).map Located.id)) (hsize : h.size ≤ h'.size)

include hkept hchained hsize

/-- The root has the new lists behind those from before. -/
private theorem Loaded.rootCell_added :
    memory h' root = some ⟨none, none, headId (nodes ++ us), lastId (nodes ++ us), none⟩ := by
  obtain ⟨clHead, clTail, hsame⟩ := hkept.root
  have hcells : h'.cells root = { h.cells root with clHead := clHead, clTail := clTail } := hsame
  have hold : cellOf (h.cells root) = ⟨none, none, headId nodes, lastId nodes, none⟩ :=
    Loaded.cell hloaded.rootCell
  have hhead : (h'.cells root).clHead = headId (nodes ++ us) := by
    rw [hchained.head, List.head?_map]
    rfl
  have htail : (h'.cells root).clTail = lastId (nodes ++ us) := by
    rw [hchained.tail, List.getLast?_map]
    rfl
  have hroot : root < h.size := hloaded.below root List.mem_cons_self
  have hlt : root < h'.size := by omega
  have hdata : (h'.cells root).data.map String.ofList = none := by
    rw [hcells]
    exact congrArg Cell.data hold
  have hparent : (h'.cells root).parent = none := by
    rw [hcells]
    exact congrArg Cell.parent hold
  have hnext : (h'.cells root).next = none := by
    rw [hcells]
    exact congrArg Cell.next hold
  rw [memory_of_lt hlt, cellOf, hdata, hparent, hhead, htail, hnext]

omit hchained in
/-- A list from before is where it was. -/
theorem Loaded.placed {u : Located} (hu : u ∈ nodes) : PlacedAt (memory h') u := by
  have hnodup := List.nodup_cons.mp hloaded.nodup
  have hbelow : ∀ m ∈ idsAll nodes, m < h.size := fun m hm =>
    hloaded.below m (List.mem_cons_of_mem root hm)
  obtain ⟨next, hlinked⟩ := linked_of_mem hloaded.linked hu
  have hin : ∀ m ∈ u.ids, m ∈ idsAll nodes := ids_subset_idsAll hu
  have hne : ∀ m ∈ u.ids, m ≠ root := fun m hm heq => hnodup.1 (heq ▸ hin m hm)
  apply placed_of_linked hlinked hsize
  · exact hkept.next u.id (hbelow _ (hin _ (id_mem_ids u))) (hne _ (id_mem_ids u))
  · exact fun m hm => hbelow m (hin m hm)
  · intro m hm
    have hmem : m ∈ u.ids := mem_ids.mpr (Or.inr hm)
    apply hkept.same m (hbelow m (hin m hmem)) (hne m hmem)
    intro hlast
    -- a node below another one is not among the topmost nodes
    exact not_top_of_below hnodup.2 hu hm (List.mem_of_getLast? hlast)

private theorem Loaded.linked_added (hids : ∀ m ∈ root :: idsAll (nodes ++ us), m < h'.size)
    (hplaced : ∀ u ∈ us, PlacedAt (memory h') u) :
    LinkedAll (memory h') true root (nodes ++ us) := by
  apply linkedAll_of_chained hchained.chained
  · intro u hu
    exact hids u.id (List.mem_cons_of_mem root (id_mem_idsAll hu))
  · intro u hu
    exact hchained.parent u.id (List.mem_map_of_mem hu)
  · intro u hu
    rcases List.mem_append.mp hu with hu | hu
    · exact hloaded.placed hkept hsize hu
    · exact hplaced u hu

end Added

/-- The next file adds what it says. -/
theorem Loaded.add (hloaded : Loaded h root nodes) {path : Text} {toks : List Token}
    {forest : List Expression} {s : Parser.ParserState} (haccepted : Accepted toks)
    (hforest : flattenAll forest = pieces toks) (hbuilt : Parser.Built path hloaded.tree forest s) :
    ∃ us, Loaded s.heap root (nodes ++ us) ∧ forgetAll us = parseNodes forest := by
  obtain ⟨⟨added, hchildren, hspells⟩, hkept⟩ := hbuilt
  obtain ⟨us, hmap, hrange, hforget, hplaced⟩ :=
    located_of_spellsAll forest hspells (Nat.le_refl _)
  have hsize : h.size ≤ s.heap.size := (SpellsAll.bounds forest hspells).1
  have hnew : ∀ m ∈ idsAll us, h.size ≤ m ∧ m < s.heap.size := by
    intro m hm
    rw [hrange, List.mem_range'_1] at hm
    have hlo : h.size ≤ m := hm.1
    have hhi : m < h.size + (s.heap.size - h.size) := hm.2
    omega
  have hchained : Children s.heap root ((nodes ++ us).map Located.id) := by
    have hids : (nodes ++ us).map Located.id = nodes.map Located.id ++ added := by
      rw [List.map_append, hmap]
    rw [hids]
    exact hchildren
  have hbelow : ∀ m ∈ root :: idsAll (nodes ++ us), m < s.heap.size := by
    intro m hm
    rw [idsAll_append, ← List.cons_append, List.mem_append] at hm
    rcases hm with hm | hm
    · have hlt := hloaded.below m hm
      omega
    · exact (hnew m hm).2
  refine ⟨us, ⟨hloaded.rootCell_added hkept hchained hsize,
    hloaded.linked_added hkept hchained hsize hbelow hplaced, ?_, hbelow, ?_, ?_⟩, hforget⟩
  · rw [idsAll_append, ← List.cons_append, List.nodup_append]
    refine ⟨hloaded.nodup, ?_, ?_⟩
    · rw [hrange]
      exact List.nodup_range'
    · intro a ha c hc heq
      have hlt : a < h.size := hloaded.below a ha
      have hge := (hnew c hc).1
      omega
  · intro m hm
    rw [idsAll_append, ← List.cons_append, List.mem_append]
    by_cases hlt : m < h.size
    · exact Or.inl (hloaded.all m hlt)
    · right
      rw [hrange, List.mem_range'_1]
      show h.size ≤ m ∧ m < h.size + (s.heap.size - h.size)
      omega
  · intro t ht
    rcases List.mem_append.mp ht with ht | ht
    · exact hloaded.lists t ht
    · have hmem : t.forget ∈ forgetAll us := by
        rw [forgetAll_eq_map]
        exact List.mem_map_of_mem ht
      rw [hforget, parseNodes_eq_map] at hmem
      obtain ⟨e, he, heq⟩ := List.mem_map.mp hmem
      obtain ⟨line, ts, rfl⟩ := lists_of_accepted haccepted hforest e he
      rw [parseNode] at heq
      exact data_of_forget heq.symm

private theorem cilAddFile_of (hloaded : Loaded h root nodes) (name data : Text) :
    (¬ Accepted (tokens data) → cilAddFile name data root h = some (.error (.failure .err))) ∧
      (Accepted (tokens data) → ∃ heap forest us, cilAddFile name data root h = some (.ok heap) ∧
        flattenAll forest = pieces (tokens data) ∧ Loaded heap root (nodes ++ us) ∧
        forgetAll us = parseNodes forest) := by
  obtain ⟨hok, herr, hbuilt⟩ := Parser.cilParser_exact name data hloaded.tree
  have hturns : parserTurns name (data.length + 1) (lexerSetup data) ⟨h, some root, 0⟩ =
      cilParser name data hloaded.tree := rfl
  unfold cilAddFile
  rw [hturns]
  constructor
  · intro hnot
    rw [herr hnot]
  · intro haccepted
    obtain ⟨s, hs⟩ := hok.mpr haccepted
    obtain ⟨forest, hforest, -, hgrown⟩ := hbuilt s hs
    obtain ⟨us, hloaded', hforget⟩ := hloaded.add haccepted hforest hgrown
    rw [hs]
    exact ⟨s.heap, forest, us, rfl, hforest, hloaded', hforget⟩

/-- The forests that files say, one after the other. -/
def Reads (files : List (Text × Text)) (forests : List (List Expression)) : Prop :=
  List.Forall₂ (fun file forest => flattenAll forest = pieces (tokens file.2)) files forests

private theorem parseNodes_append (ts us : List Expression) :
    parseNodes (ts ++ us) = parseNodes ts ++ parseNodes us := by
  rw [parseNodes_eq_map, parseNodes_eq_map, parseNodes_eq_map, List.map_append]

private theorem cilAddFiles_of (files : List (Text × Text)) {h : Parser.Heap} {nodes : List Located}
    (hloaded : Loaded h root nodes) :
    ((∃ file ∈ files, ¬ Accepted (tokens file.2)) →
      cilAddFiles root files h = some (.error (.failure .err))) ∧
    ((∀ file ∈ files, Accepted (tokens file.2)) → ∃ heap forests us,
      cilAddFiles root files h = some (.ok heap) ∧ Reads files forests ∧
        Loaded heap root (nodes ++ us) ∧ forgetAll us = parseNodes forests.flatten) := by
  induction files generalizing h nodes with
  | nil =>
      refine ⟨?_, fun _ => ⟨h, [], [], rfl, .nil, ?_, rfl⟩⟩
      · intro hnot
        obtain ⟨file, hfile, -⟩ := hnot
        cases hfile
      · rw [List.append_nil]
        exact hloaded
  | cons file files ih =>
      obtain ⟨name, data⟩ := file
      obtain ⟨herr, hok⟩ := cilAddFile_of hloaded name data
      by_cases haccepted : Accepted (tokens data)
      · obtain ⟨heap, forest, us, hadd, hforest, hloaded', hforget⟩ := hok haccepted
        obtain ⟨herr', hok'⟩ := ih hloaded'
        simp only [cilAddFiles, hadd, List.exists_mem_cons_iff, List.forall_mem_cons]
        constructor
        · intro hnot
          exact herr' (hnot.resolve_left fun hno => hno haccepted)
        · intro hall
          obtain ⟨heap', forests, vs, hadds, hreads, hloaded'', hforgets⟩ := hok' hall.2
          refine ⟨heap', forest :: forests, us ++ vs, hadds, .cons hforest hreads, ?_, ?_⟩
          · rw [← List.append_assoc]
            exact hloaded''
          · rw [forgetAll_eq_map, List.map_append, ← forgetAll_eq_map, ← forgetAll_eq_map, hforget,
              hforgets, List.flatten_cons, parseNodes_append]
      · simp only [cilAddFiles, herr haccepted, List.forall_mem_cons]
        refine ⟨fun _ => trivial, ?_⟩
        intro hall
        exact absurd hall.1 haccepted

private theorem lists_of_reads {files : List (Text × Text)} {forests : List (List Expression)}
    (hreads : Reads files forests) (haccepted : ∀ file ∈ files, Accepted (tokens file.2)) :
    ∀ t ∈ forests.flatten, ∃ line ts, t = .list line ts := by
  unfold Reads at hreads
  induction hreads with
  | nil =>
      intro t ht
      cases ht
  | cons hforest _ ih =>
      rw [List.forall_mem_cons] at haccepted
      intro t ht
      rw [List.flatten_cons, List.mem_append] at ht
      rcases ht with ht | ht
      · exact lists_of_accepted haccepted.1 hforest t ht
      · exact ih haccepted.2 t ht

private theorem parseNodes_of_lists {forest : List Expression}
    (h : ∀ t ∈ forest, ∃ line ts, t = .list line ts) :
    parseNodes forest = (listsOf forest).map .list := by
  induction forest with
  | nil => rfl
  | cons t forest ih =>
      rw [List.forall_mem_cons] at h
      obtain ⟨line, ts, rfl⟩ := h.1
      rw [parseNodes, ih h.2, parseNode]
      rfl

end Loading

section Memory

variable {σ : Type} {parentOf : Nat → Option Nat} {s s' : WalkState σ} {root : Nat}
  {ts : List Located}

/-- The rest of the parse tree is destroyed. -/
theorem Reaped.destroyed {c : Cell} {fuel : Nat} (hreaped : Reaped parentOf s s' root ts)
    (hcell : s.heap root = some c) (hhead : c.clHead = headId ts)
    (hnodup : (root :: idsAll ts).Nodup) (hall : ∀ m, m ∉ root :: idsAll ts → s.heap m = none)
    (hfuel : 2 * (idsAll ts).length < fuel) :
    subtreeDestroy fuel root s'.heap = some (.ok () fun _ => none) := by
  obtain ⟨hroot, hids⟩ := List.nodup_cons.mp hnodup
  have hsub := map_id_sublist ts
  have hrootTop : root ∉ idsAll (ts.map husk) := by
    rw [idsAll_map_husk]
    exact fun hmem => hroot (hsub.subset hmem)
  have hcell' : s'.heap root = some c := by
    rw [hreaped.same root hroot, hcell]
  have hhead' : c.clHead = headId (ts.map husk) := by rw [headId_map_husk, hhead]
  have hnodup' : (idsAll (ts.map husk)).Nodup := by
    rw [idsAll_map_husk]
    exact hids.sublist hsub
  have hlength : 2 * (idsAll (ts.map husk)).length < fuel := by
    rw [idsAll_map_husk]
    have hle := hsub.length_le
    omega
  have hclear := childrenDestroy_of hcell' hhead' hreaped.linked hnodup' hrootTop hlength
  rw [subtreeDestroy, Call.bind_of_ok hclear, free_of (cleared_parent hrootTop)]
  congr 2
  funext m
  by_cases hm : m = root
  · rw [hm, Function.update_self]
  · rw [Function.update_of_ne hm]
    by_cases htop : m ∈ idsAll (ts.map husk)
    · rw [cleared, if_pos htop]
    · rw [cleared_of_not_mem htop hm]
      rw [idsAll_map_husk] at htop
      by_cases hmem : m ∈ idsAll ts
      · exact hreaped.gone m hmem htop
      · rw [hreaped.same m hmem]
        apply hall
        rw [List.mem_cons, not_or]
        exact ⟨hm, hmem⟩

end Memory

/-- The front end accepts files that are balanced and whose statements the builder takes. It ends
with the tree of the statements in them, and every parse node has been freed. -/
theorem frontEnd_exact {σ : Type} (preserve : Bool) (b : Builder σ) (db : σ)
    (files : List (Text × Text)) :
    ((∃ file ∈ files, ¬ Accepted (tokens file.2)) →
      ∀ fuel, frontEnd preserve b fuel db files = some (.error (.failure .err))) ∧
    ((∀ file ∈ files, Accepted (tokens file.2)) → ∃ forests, Reads files forests ∧
      ∃ n, ∀ fuel, n ≤ fuel → frontEnd preserve b fuel db files =
        (buildAst preserve b db (listsOf forests.flatten)).elim (some (.error (.failure .err)))
          fun _ => some (.ok (statements (listsOf forests.flatten), fun _ => none))) := by
  obtain ⟨herr, hok⟩ := cilAddFiles_of files loaded_init
  constructor
  · intro hnot fuel
    rw [frontEnd, herr hnot]
  · intro haccepted
    obtain ⟨heap, forests, us, hadds, hreads, hloaded, hforget⟩ := hok haccepted
    rw [List.nil_append] at hloaded
    have hinput : hloaded.parseTree.input = listsOf forests.flatten := by
      have hlists := parseNodes_of_lists (lists_of_reads hreads haccepted)
      have hnodes : forgetAll us = hloaded.parseTree.input.map .list :=
        hloaded.parseTree.forgetAll_nodes
      rw [hforget, hlists] at hnodes
      exact (List.map_injective_iff.mpr (fun _ _ heq => ParseNode.list.inj heq) hnodes).symm
    refine ⟨forests, hreads, 3 * (idsAll us).length + 3, fun fuel hfuel => ?_⟩
    have hwalk : Simulates (cilBuildAst preserve b fuel db (memory heap) 0)
        (walkNodes preserve b (hloaded.parseTree.input.map .list) (hloaded.parseTree.start db).args)
        (Reaped hloaded.parseTree.parent (hloaded.parseTree.start db) · 0 us) :=
      cilBuildAst_walk preserve b db hloaded.parseTree hfuel
    have hbuild := buildAst_eq preserve b db hloaded.parseTree
    unfold frontEnd
    rw [hadds]
    dsimp only
    rw [← hinput]
    cases hspec : walkNodes preserve b (hloaded.parseTree.input.map .list)
      (hloaded.parseTree.start db).args with
    | none =>
        rw [hspec] at hwalk hbuild
        obtain ⟨s, hs⟩ := hwalk
        rw [hs, hbuild]
        rfl
    | some args =>
        rw [hspec] at hwalk hbuild
        obtain ⟨s, hs, rfl, hreaped⟩ := hwalk
        have hast : buildAst preserve b db hloaded.parseTree.input = some s.ast := hbuild
        have hdestroyed : subtreeDestroy fuel 0 s.heap = some (.ok () fun _ => none) := by
          refine hreaped.destroyed hloaded.rootCell rfl hloaded.nodup ?_ (by omega)
          intro m hm
          have hlarge : ¬ m < heap.size := fun hlt => hm (hloaded.all m hlt)
          exact if_neg hlarge
        rw [hs, hast, ← (buildAst_built hast).1]
        dsimp only
        rw [hdestroyed]
        rfl

end Cil.Build
