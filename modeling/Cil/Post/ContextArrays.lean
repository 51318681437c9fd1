/- Cil/Post/ContextArrays
   digest: The arrays of the labelled objects: counted, filled and sorted. -/

import Cil.Library.Sorting
import Cil.Post.ComparatorsExact
import Cil.TreeWalk

set_option autoImplicit false
set_option relaxedAutoImplicit false

namespace Cil.Post.ContextArrays

open Library
open Library.Comparator (Sorting Sorted Consistent)
open Comparators
open TreeWalk (Links InMemory treeWalk pass addr smallTree smallTreeNodes inMemory_smallTree)

/-- The statements that label objects, each of which has an array in `cil_db`. -/
inductive Kind
  | netifcon | genfscon | filecon | nodecon | portcon | pirqcon | iomemcon | ioportcon
  | pcidevicecon | fsuse
  deriving DecidableEq, Repr

/-- `cil_protocol`. -/
inductive Protocol
  | udp | tcp
  deriving DecidableEq, Repr

/-- `cil_portcon` without its context. -/
structure Port extends Portcon where
  proto : Protocol
  deriving DecidableEq, Repr

/-- A statement: what it labels, and the context. -/
structure Labelling (α γ : Type) where
  con : α
  context : γ

/-- What `node->data` points to. A `netifcon` has contexts for the interface and for its
packets; the context of a `filecon` may be a null pointer. -/
def Kind.Data (γ : Type) : Kind → Type
  | .netifcon => Labelling Netifcon (γ × γ)
  | .genfscon => Labelling Genfscon γ
  | .filecon => Labelling Filecon (Option γ)
  | .nodecon => Labelling Nodecon γ
  | .portcon => Labelling Port γ
  | .pirqcon => Labelling Pirqcon γ
  | .iomemcon => Labelling Iomemcon γ
  | .ioportcon => Labelling Ioportcon γ
  | .pcidevicecon => Labelling Pcidevicecon γ
  | .fsuse => Labelling Fsuse γ

/-- The comparator of each array. -/
def Kind.compare {γ : Type} : (k : Kind) → k.Data γ → k.Data γ → Option Int
  | .netifcon => fun a b => total netifconCompare a.con b.con
  | .genfscon => fun a b => total genfsconCompare a.con b.con
  | .filecon => fun a b => fileconCompare a.con b.con
  | .nodecon => fun a b => total nodeconCompare a.con b.con
  | .portcon => fun a b => total portconCompare a.con.toPortcon b.con.toPortcon
  | .pirqcon => fun a b => total pirqconCompare a.con b.con
  | .iomemcon => fun a b => total iomemconCompare a.con b.con
  | .ioportcon => fun a b => total ioportconCompare a.con b.con
  | .pcidevicecon => fun a b => total pcideviceconCompare a.con b.con
  | .fsuse => fun a b => total fsuseCompare a.con b.con

/-- `cil_sort`; a slot of the array is none while it was not written. -/
structure CilSort (δ : Type) where
  count : Nat
  index : Nat
  array : Option (List (Option δ))

/-- `cil_sort_init`. -/
def CilSort.init {δ : Type} : CilSort δ := ⟨0, 0, none⟩

/-- The flavors of the entries of `db->selinuxusers`. -/
inductive SelinuxuserFlavor
  | selinuxuser | selinuxuserdefault
  deriving DecidableEq, Repr

/-- A node of the resolved tree. -/
inductive NodeData (γ υ : Type)
  | macroDef
  | block (isAbstract : Bool)
  | con (k : Kind) (d : k.Data γ)
  | userPrefix (u : υ)
  | selinuxuser (u : υ)
  | selinuxuserdefault (u : υ)
  | other

variable {γ υ : Type}

/-- The nodes whose children are not visited. -/
def NodeData.skipHead : NodeData γ υ → Bool
  | .macroDef => true
  | .block isAbstract => isAbstract
  | _ => false

/-- The part of `cil_db` that is filled here. -/
structure Db (γ υ : Type) where
  sorts : (k : Kind) → CilSort (k.Data γ)
  userprefixes : List υ
  selinuxusers : List (SelinuxuserFlavor × υ)

def Db.init : Db γ υ := ⟨fun _ => .init, [], []⟩

def Db.setSort (db : Db γ υ) (k : Kind) (s : CilSort (k.Data γ)) : Db γ υ :=
  { db with sorts := Function.update db.sorts k s }

section Code

/-- `__cil_post_db_count_helper`, for the arrays. -/
def postDbCountHelper : NodeData γ υ → Call Rc (Db γ υ) Unit
  | .con k _ => Call.modify fun db =>
      db.setSort k { db.sorts k with count := (db.sorts k).count + 1 }
  | _ => pure ()

/-- The array is allocated for the first entry; a write behind its end is a crash. -/
def CilSort.store {δ : Type} (s : CilSort δ) (d : δ) : Option (CilSort δ) :=
  let slots := s.array.getD (List.replicate s.count none)
  if s.index < slots.length then
    some { s with array := some (slots.set s.index (some d)), index := s.index + 1 }
  else none

/-- `__cil_post_db_array_helper`, for the arrays and the lists of users. -/
def postDbArrayHelper : NodeData γ υ → Call Rc (Db γ υ) Unit
  | .con k d =>
      Call.get >>= fun db =>
      Call.orCrash ((db.sorts k).store d) >>= fun s =>
      Call.modify fun db => db.setSort k s
  | .userPrefix u => Call.modify fun db => { db with userprefixes := db.userprefixes ++ [u] }
  | .selinuxuser u =>
      Call.modify fun db => { db with selinuxusers := (.selinuxuser, u) :: db.selinuxusers }
  | .selinuxuserdefault u =>
      Call.modify fun db =>
        { db with selinuxusers := db.selinuxusers ++ [(.selinuxuserdefault, u)] }
  | _ => pure ()

/-- What an array holds in its first `count` slots; none if one of them was not written. -/
def CilSort.entries {δ : Type} (s : CilSort δ) : Option (List δ) :=
  let slots := s.array.getD []
  if s.count ≤ slots.length then (slots.take s.count).mapM id else none

/-- `qsort` of an array. -/
def CilSort.qsort {δ : Type} (Q : Sorting) (compare : δ → δ → Option Int) (s : CilSort δ) :
    Option (CilSort δ) :=
  s.entries.map fun l =>
    { s with array := s.array.map fun slots => (Q.sort compare l).map some ++ slots.drop s.count }

def sortArray (Q : Sorting) (k : Kind) : Call Rc (Db γ υ) Unit :=
  Call.get >>= fun db =>
  Call.orCrash ((db.sorts k).qsort Q k.compare) >>= fun s =>
  Call.modify fun db => db.setSort k s

/-- `cil_post_db`, for the arrays: two walks, and the sorts. The walks between them read the
arrays as little as they write them. -/
def cilPostDb (Q : Sorting) (nodes : Nat → Option Links) (data : Nat → NodeData γ υ)
    (fuel root : Nat) : Call Rc (Db γ υ) Unit :=
  treeWalk (pass data NodeData.skipHead postDbCountHelper) nodes fuel root >>= fun _ =>
  treeWalk (pass data NodeData.skipHead postDbArrayHelper) nodes fuel root >>= fun _ =>
  Call.forEach (sortArray Q) [.netifcon, .genfscon, .portcon, .nodecon, .fsuse, .filecon, .pirqcon,
    .iomemcon, .ioportcon, .pcidevicecon]

end Code

section Meaning

/-- The nodes that are outside of macros and abstract blocks. -/
def outside (ast : Tree (NodeData γ υ)) : List (NodeData γ υ) :=
  (ast.nodes.filter fun n => !n.1.any NodeData.skipHead).map Prod.snd

def NodeData.con? (k : Kind) : NodeData γ υ → Option (k.Data γ)
  | .con k' d => if h : k' = k then some (h ▸ d) else none
  | _ => none

/-- The statements of one kind, in the order of the tree. -/
def declared (ast : Tree (NodeData γ υ)) (k : Kind) : List (k.Data γ) :=
  (outside ast).filterMap (NodeData.con? k)

/-- The entries that a node adds to the lists of users. -/
def userPrefix? : NodeData γ υ → Option υ
  | .userPrefix u => some u
  | _ => none

def selinuxuser? : NodeData γ υ → Option (SelinuxuserFlavor × υ)
  | .selinuxuser u => some (.selinuxuser, u)
  | _ => none

def selinuxuserdefault? : NodeData γ υ → Option (SelinuxuserFlavor × υ)
  | .selinuxuserdefault u => some (.selinuxuserdefault, u)
  | _ => none

def userprefixes (ast : Tree (NodeData γ υ)) : List υ := (outside ast).filterMap userPrefix?

/-- Users are prepended, the default is appended. -/
def selinuxusers (ast : Tree (NodeData γ υ)) : List (SelinuxuserFlavor × υ) :=
  ((outside ast).filterMap selinuxuser?).reverse ++ (outside ast).filterMap selinuxuserdefault?

/-- The comparators can order the statements: the scans of paths stay inside them, and the sizes
of ranges are less than 2^31 apart. -/
structure Sortable (declared : (k : Kind) → List (k.Data γ)) : Prop where
  filecons : ∀ f ∈ declared .filecon, Filecon.Scanned f.con
  portcons : Near Portcon.portLow Portcon.portHigh
    ((declared .portcon).map fun p => p.con.toPortcon)
  iomemcons : Near Iomemcon.iomemLow Iomemcon.iomemHigh ((declared .iomemcon).map Labelling.con)
  ioportcons : Near Ioportcon.ioportLow Ioportcon.ioportHigh
    ((declared .ioportcon).map Labelling.con)

/-- The array holds the statements, sorted, and nothing else. -/
structure Filled (k : Kind) (s : CilSort (k.Data γ)) (statements : List (k.Data γ)) : Prop where
  count : s.count = statements.length
  holds : ∃ l, s.entries = some l ∧ l.Perm statements ∧ Sorted k.compare l

end Meaning

section Arrays

variable {δ : Type}

/-- An array of `n` slots, the first of which were written. -/
def part (n : Nat) (done : List δ) : CilSort δ where
  count := n
  index := done.length
  array := match done with
    | [] => none
    | _ :: _ => some (done.map some ++ List.replicate (n - done.length) none)

private theorem part_slots (n : Nat) (done : List δ) :
    (part n done).array.getD (List.replicate n none) =
      done.map some ++ List.replicate (n - done.length) none := by
  cases done with
  | nil => rfl
  | cons d done => rfl

private theorem part_snoc (n : Nat) (done : List δ) (d : δ) :
    part n (done ++ [d]) = ⟨n, done.length + 1,
      some ((done ++ [d]).map some ++ List.replicate (n - (done.length + 1)) none)⟩ := by
  unfold part
  rw [List.length_append, List.length_singleton]
  cases done with
  | nil => rfl
  | cons e done => rfl

/-- The next slot is written while there is one. -/
private theorem store_part {n : Nat} {done : List δ} (d : δ) (hroom : done.length < n) :
    (part n done).store d = some (part n (done ++ [d])) := by
  have hslots := part_slots n done
  have hcount : (part n done).count = n := rfl
  have hindex : (part n done).index = done.length := rfl
  have hlength :
      (done.map some ++ List.replicate (n - done.length) (none : Option δ)).length = n := by
    rw [List.length_append, List.length_map, List.length_replicate]
    omega
  obtain ⟨m, hm⟩ : ∃ m, n - done.length = m + 1 := ⟨n - done.length - 1, by omega⟩
  have hrest : n - (done.length + 1) = m := by omega
  unfold CilSort.store
  dsimp only
  rw [hcount, hindex, hslots, if_pos (by omega), part_snoc, hm, hrest]
  congr 1
  show CilSort.mk _ _ _ = CilSort.mk _ _ _
  congr 2
  rw [List.set_append_right _ _ (by rw [List.length_map]), List.length_map, Nat.sub_self,
    List.replicate_succ, List.set_cons_zero, List.map_append, List.map_singleton, List.append_assoc]
  rfl

private theorem mapM_id_some (l : List δ) : (l.map some).mapM id = some l := by
  induction l with
  | nil => rfl
  | cons d l ih =>
      rw [List.map_cons, List.mapM_cons, ih]
      rfl

private theorem eq_of_mapM_id {slots : List (Option δ)} {l : List δ} (h : slots.mapM id = some l) :
    slots = l.map some := by
  induction slots generalizing l with
  | nil =>
      obtain rfl := Option.some.inj h
      rfl
  | cons slot slots ih =>
      rw [List.mapM_cons] at h
      obtain ⟨d, hd, h⟩ := Option.bind_eq_some_iff.mp h
      obtain ⟨rest, hrest, h⟩ := Option.bind_eq_some_iff.mp h
      obtain rfl := Option.some.inj h
      have hslot : slot = some d := hd
      rw [ih hrest, hslot, List.map_cons]

/-- The first slots hold the entries. -/
theorem slots_of_entries {s : CilSort δ} {l : List δ} (h : s.entries = some l) :
    s.count = l.length ∧ ∃ rest, s.array.getD [] = l.map some ++ rest := by
  unfold CilSort.entries at h
  dsimp only at h
  by_cases hcount : s.count ≤ (s.array.getD []).length
  · rw [if_pos hcount] at h
    have htake := eq_of_mapM_id h
    have hlength := congrArg List.length htake
    rw [List.length_take, List.length_map, Nat.min_eq_left hcount] at hlength
    refine ⟨hlength, (s.array.getD []).drop s.count, ?_⟩
    rw [← htake, List.take_append_drop]
  · rw [if_neg hcount] at h
    cases h

/-- All slots were written. -/
theorem entries_part (l : List δ) : (part l.length l).entries = some l := by
  have hslots : (part l.length l).array.getD [] = l.map some := by
    cases l with
    | nil => rfl
    | cons d l =>
        show (d :: l).map some ++ List.replicate (_ - _) none = _
        rw [Nat.sub_self, List.replicate_zero, List.append_nil]
  unfold CilSort.entries
  dsimp only
  rw [hslots]
  have hcount : (part l.length l).count = (l.map some).length := by
    rw [List.length_map]
    rfl
  rw [hcount, if_pos (Nat.le_refl _), List.take_length, mapM_id_some]

private theorem qsort_part (Q : Sorting) {compare : δ → δ → Option Int} {l : List δ}
    (hperm : (Q.sort compare l).Perm l) :
    (part l.length l).qsort Q compare = some (part l.length (Q.sort compare l)) := by
  have hlength := hperm.length_eq
  unfold CilSort.qsort
  rw [entries_part, Option.map_some]
  congr 1
  cases l with
  | nil =>
      have hnil := hperm.eq_nil
      rw [hnil]
      rfl
  | cons d l =>
      unfold part
      rw [hlength]
      cases hsort : Q.sort compare (d :: l) with
      | nil =>
          rw [hsort] at hlength
          cases hlength
      | cons e rest =>
          dsimp only [Option.map_some]
          rw [List.drop_append_of_le_length (by rw [List.length_map]), Nat.sub_self,
            List.replicate_zero, List.append_nil, List.append_nil]
          have hdrop : ((d :: l).map some).drop (d :: l).length = [] := by
            apply List.drop_eq_nil_of_le
            rw [List.length_map]
          rw [hdrop, List.append_nil]

end Arrays

section Walks

private theorem con_self (k : Kind) (d : k.Data γ) :
    NodeData.con? k (.con k d : NodeData γ υ) = some d := by
  exact dif_pos rfl

private theorem con_other {k k' : Kind} (d : k'.Data γ) (h : k ≠ k') :
    NodeData.con? k (.con k' d : NodeData γ υ) = none := by
  exact dif_neg fun heq => h heq.symm

/-- The walk that counts. -/
private theorem count_run (ds : List (NodeData γ υ)) (db : Db γ υ) :
    processAll postDbCountHelper ds db = some (.ok ()
      { db with sorts := fun k => { db.sorts k with
          count := (db.sorts k).count + (ds.filterMap (NodeData.con? k)).length } }) := by
  induction ds generalizing db with
  | nil => rfl
  | cons d ds ih =>
      have hpure (hd : postDbCountHelper d = pure ()) (hcon : ∀ k, NodeData.con? k d = none) :
          processAll postDbCountHelper (d :: ds) db = some (.ok ()
            { db with sorts := fun k => { db.sorts k with
                count := (db.sorts k).count +
                  ((d :: ds).filterMap (NodeData.con? k)).length } }) := by
        rw [processAll, hd]
        refine (ih db).trans ?_
        simp only [List.filterMap_cons, hcon]
      cases d with
      | con k' d =>
          rw [processAll]
          refine (ih (db.setSort k' { db.sorts k' with count := (db.sorts k').count + 1 })).trans ?_
          congr 2
          unfold Db.setSort
          dsimp only
          congr 1
          funext k
          by_cases hk : k = k'
          · subst hk
            rw [Function.update_self, List.filterMap_cons, con_self, List.length_cons]
            congr 1
            show _ + 1 + _ = _
            omega
          · rw [Function.update_of_ne hk, List.filterMap_cons, con_other d hk]
      | macroDef => exact hpure rfl fun k => rfl
      | block isAbstract => exact hpure rfl fun k => rfl
      | userPrefix u => exact hpure rfl fun k => rfl
      | selinuxuser u => exact hpure rfl fun k => rfl
      | selinuxuserdefault u => exact hpure rfl fun k => rfl
      | other => exact hpure rfl fun k => rfl

/-- The walk of these nodes finds a slot for each statement, whatever the arrays hold so far. -/
def Fills (ds : List (NodeData γ υ)) : Prop :=
  ∀ (db : Db γ υ) (n : Kind → Nat) (done : (k : Kind) → List (k.Data γ)),
    (∀ k, db.sorts k = part (n k) (done k)) →
    (∀ k, (done k).length + (ds.filterMap (NodeData.con? k)).length = n k) →
    processAll postDbArrayHelper ds db = some (.ok ()
      { sorts := fun k => part (n k) (done k ++ ds.filterMap (NodeData.con? k))
        userprefixes := db.userprefixes ++ ds.filterMap userPrefix?
        selinuxusers := (ds.filterMap selinuxuser?).reverse ++
          (db.selinuxusers ++ ds.filterMap selinuxuserdefault?) })

private theorem fills_nil : Fills ([] : List (NodeData γ υ)) := by
  intro db n done hsorts _
  have hdb : db.sorts = fun k => part (n k) (done k ++ []) := by
    funext k
    rw [hsorts k, List.append_nil]
  show some (Returned.ok () db) = _
  simp only [List.filterMap_nil, List.append_nil, List.reverse_nil, List.nil_append]
  cases db with
  | mk sorts userprefixes selinuxusers =>
      simp only [List.append_nil] at hdb
      rw [hdb]

/-- A node that has no array leaves all arrays as they are. -/
theorem Fills.other {d : NodeData γ υ} {ds : List (NodeData γ υ)} (hds : Fills ds)
    {db db' : Db γ υ} {n : Kind → Nat} {done : (k : Kind) → List (k.Data γ)}
    (hsorts : ∀ k, db.sorts k = part (n k) (done k))
    (hroom : ∀ k, (done k).length + ((d :: ds).filterMap (NodeData.con? k)).length = n k)
    (hd : postDbArrayHelper d db = some (.ok () db')) (hcon : ∀ k, NodeData.con? k d = none)
    (hsame : db'.sorts = db.sorts) :
    processAll postDbArrayHelper (d :: ds) db = some (.ok ()
      { sorts := fun k => part (n k) (done k ++ (d :: ds).filterMap (NodeData.con? k))
        userprefixes := db'.userprefixes ++ ds.filterMap userPrefix?
        selinuxusers := (ds.filterMap selinuxuser?).reverse ++
          (db'.selinuxusers ++ ds.filterMap selinuxuserdefault?) }) := by
  have hrest := hds db' n done (fun k => by rw [hsame, hsorts k]) fun k => by
    have hk := hroom k
    rwa [List.filterMap_cons_none (hcon k)] at hk
  rw [processAll]
  show (postDbArrayHelper d >>= fun _ => processAll postDbArrayHelper ds) db = _
  rw [Call.bind_of_ok hd, hrest]
  simp only [List.filterMap_cons_none (hcon _)]

/-- A statement takes the next slot of its array. -/
theorem Fills.con {ds : List (NodeData γ υ)} (hds : Fills ds) (k : Kind) (d : k.Data γ) :
    Fills (.con k d :: ds : List (NodeData γ υ)) := by
  intro db n done hsorts hroom
  have hk := hroom k
  rw [List.filterMap_cons_some (con_self k d), List.length_cons] at hk
  have hlt : (done k).length < n k := by omega
  have hstore := store_part d hlt
  have hstep : postDbArrayHelper (.con k d) db =
      some (.ok () (db.setSort k (part (n k) (done k ++ [d])))) := by
    show (Call.orCrash ((db.sorts k).store d) >>= fun s =>
      Call.modify fun db => db.setSort k s) db = _
    rw [hsorts k, hstore]
    rfl
  have hrest := hds (db.setSort k (part (n k) (done k ++ [d]))) n
    (Function.update done k (done k ++ [d])) ?hsorts ?hroom
  case hsorts =>
    intro k'
    show Function.update db.sorts k _ k' = _
    by_cases heq : k' = k
    · subst heq
      rw [Function.update_self, Function.update_self]
    · rw [Function.update_of_ne heq, Function.update_of_ne heq]
      exact hsorts k'
  case hroom =>
    intro k'
    have hk' := hroom k'
    by_cases heq : k' = k
    · subst heq
      rw [Function.update_self, List.length_append, List.length_singleton]
      omega
    · rw [Function.update_of_ne heq]
      rwa [List.filterMap_cons_none (con_other d heq)] at hk'
  rw [processAll]
  show (postDbArrayHelper (.con k d) >>= fun _ => processAll postDbArrayHelper ds) db = _
  rw [Call.bind_of_ok hstep, hrest]
  congr 3
  funext k'
  by_cases heq : k' = k
  · subst heq
    rw [Function.update_self, List.filterMap_cons_some (con_self k' d), List.append_assoc]
    rfl
  · rw [Function.update_of_ne heq, List.filterMap_cons_none (con_other d heq)]

/-- The walk that fills the arrays finds a slot for each statement. -/
private theorem array_run (ds : List (NodeData γ υ)) : Fills ds := by
  induction ds with
  | nil => exact fills_nil
  | cons d ds ih =>
      cases d with
      | con k d => exact ih.con k d
      | macroDef =>
          intro db n done hsorts hroom
          exact ih.other hsorts hroom rfl (fun k => rfl) rfl
      | block isAbstract =>
          intro db n done hsorts hroom
          exact ih.other hsorts hroom rfl (fun k => rfl) rfl
      | other =>
          intro db n done hsorts hroom
          exact ih.other hsorts hroom rfl (fun k => rfl) rfl
      | userPrefix u =>
          intro db n done hsorts hroom
          have hstep : postDbArrayHelper (.userPrefix u) db =
              some (.ok () { db with userprefixes := db.userprefixes ++ [u] }) := rfl
          refine (ih.other hsorts hroom hstep (fun k => rfl) rfl).trans ?_
          have hlist : (NodeData.userPrefix u :: ds).filterMap (userPrefix? (γ := γ)) =
              u :: ds.filterMap userPrefix? := rfl
          dsimp only
          rw [hlist, ← List.append_cons]
          rfl
      | selinuxuser u =>
          intro db n done hsorts hroom
          have hstep : postDbArrayHelper (.selinuxuser u) db =
              some (.ok () { db with selinuxusers := (.selinuxuser, u) :: db.selinuxusers }) := rfl
          refine (ih.other hsorts hroom hstep (fun k => rfl) rfl).trans ?_
          have hlist : (NodeData.selinuxuser u :: ds).filterMap (selinuxuser? (γ := γ)) =
              (.selinuxuser, u) :: ds.filterMap selinuxuser? := rfl
          rw [hlist, List.reverse_cons, List.append_assoc]
          rfl
      | selinuxuserdefault u =>
          intro db n done hsorts hroom
          have hstep : postDbArrayHelper (.selinuxuserdefault u) db = some (.ok ()
              { db with selinuxusers := db.selinuxusers ++ [(.selinuxuserdefault, u)] }) := rfl
          refine (ih.other hsorts hroom hstep (fun k => rfl) rfl).trans ?_
          have hlist :
              (NodeData.selinuxuserdefault u :: ds).filterMap (selinuxuserdefault? (γ := γ)) =
              (.selinuxuserdefault, u) :: ds.filterMap selinuxuserdefault? := rfl
          dsimp only
          rw [hlist, ← List.append_cons]
          rfl

end Walks

section Sorts

/-- The statements of each kind can be sorted. -/
theorem Sortable.consistent {declared : (k : Kind) → List (k.Data γ)} (h : Sortable declared)
    (k : Kind) : ∃ (κ : Type) (key : k.Data γ → κ), Consistent k.compare key (declared k) := by
  cases k with
  | netifcon => exact ⟨_, _, (netifcon_orders ((declared .netifcon).map Labelling.con)).1.part⟩
  | genfscon => exact ⟨_, _, (genfscon_orders ((declared .genfscon).map Labelling.con)).1.part⟩
  | filecon =>
      have hscanned : ∀ f ∈ (declared .filecon).map Labelling.con, Filecon.Scanned f := by
        intro f hf
        obtain ⟨d, hd, rfl⟩ := List.mem_map.mp hf
        exact h.filecons d hd
      exact ⟨_, _, ((filecon_orders_iff _).mpr hscanned).1.part⟩
  | nodecon => exact ⟨_, _, (nodecon_orders ((declared .nodecon).map Labelling.con)).1.part⟩
  | portcon => exact ⟨_, _, ((ranges_iff _ _ _).mpr h.portcons).1.1.part⟩
  | pirqcon => exact ⟨_, _, (pirqcon_orders ((declared .pirqcon).map Labelling.con)).1.part⟩
  | iomemcon => exact ⟨_, _, ((ranges_iff _ _ _).mpr h.iomemcons).1.1.part⟩
  | ioportcon => exact ⟨_, _, ((ranges_iff _ _ _).mpr h.ioportcons).1.1.part⟩
  | pcidevicecon =>
      exact ⟨_, _, (pcidevicecon_orders ((declared .pcidevicecon).map Labelling.con)).1.part⟩
  | fsuse => exact ⟨_, _, (fsuse_orders ((declared .fsuse).map Labelling.con)).1.part⟩

/-- The arrays are sorted one after the other. -/
private theorem sorts_run (Q : Sorting) (content : (k : Kind) → List (k.Data γ))
    (hperm : ∀ k, (Q.sort k.compare (content k)).Perm (content k)) (ks : List Kind)
    (hnodup : ks.Nodup) (db : Db γ υ)
    (hsorts : ∀ k ∈ ks, db.sorts k = part (content k).length (content k)) :
    Call.forEach (sortArray Q) ks db = some (.ok () { db with
      sorts := fun k =>
        if k ∈ ks then part (content k).length (Q.sort k.compare (content k))
        else db.sorts k }) := by
  induction ks generalizing db with
  | nil => rfl
  | cons k ks ih =>
      obtain ⟨hfresh, hnodup⟩ := List.nodup_cons.mp hnodup
      have hqsort := qsort_part Q (hperm k)
      have hstep : sortArray Q k db = some (.ok ()
          (db.setSort k (part (content k).length (Q.sort k.compare (content k))))) := by
        show (Call.orCrash ((db.sorts k).qsort Q k.compare) >>= fun s =>
          Call.modify fun db => db.setSort k s) db = _
        rw [hsorts k List.mem_cons_self, hqsort]
        rfl
      have hkept (k' : Kind) (hk' : k' ≠ k) (s : CilSort (k.Data γ)) :
          (db.setSort k s).sorts k' = db.sorts k' := Function.update_of_ne hk' _ _
      have hrest := ih hnodup
          (db.setSort k (part (content k).length (Q.sort k.compare (content k)))) fun k' hk' => by
        have hne : k' ≠ k := by
          intro heq
          rw [heq] at hk'
          exact hfresh hk'
        rw [hkept k' hne]
        exact hsorts k' (List.mem_cons_of_mem k hk')
      show (sortArray Q k >>= fun _ => Call.forEach (sortArray Q) ks) db = _
      rw [Call.bind_of_ok hstep, hrest]
      congr 2
      show Db.mk _ _ _ = Db.mk _ _ _
      congr 1
      funext k'
      by_cases heq : k' = k
      · subst heq
        rw [if_neg hfresh, if_pos List.mem_cons_self]
        exact Function.update_self ..
      · rw [hkept k' heq]
        simp only [List.mem_cons, heq, false_or]

end Sorts

section Pass

variable {nodes : Nat → Option Links} {data : Nat → NodeData γ υ} {t : Tree Nat}

/-- What the walks visit of a tree in memory. -/
private theorem visited_eq (ast : Tree (NodeData γ υ)) : ast.walk NodeData.skipHead = outside ast :=
  Tree.walk_eq NodeData.skipHead ast

/-- What `cil_post_db` leaves. -/
def posted (Q : Sorting) (ast : Tree (NodeData γ υ)) : Db γ υ where
  sorts k := part (declared ast k).length (Q.sort k.compare (declared ast k))
  userprefixes := userprefixes ast
  selinuxusers := selinuxusers ast

theorem cilPostDb_posted (Q : Sorting) {next : Option Nat} (h : InMemory nodes next t)
    (hsortable : Sortable (declared (TreeWalk.contentsOf data t))) :
    ∃ n, ∀ fuel, n ≤ fuel → cilPostDb Q nodes data fuel (addr t) Db.init =
      some (.ok () (posted Q (TreeWalk.contentsOf data t))) := by
  obtain ⟨n₁, hcount⟩ := TreeWalk.treeWalk_pass data NodeData.skipHead postDbCountHelper h
  obtain ⟨n₂, harray⟩ := TreeWalk.treeWalk_pass data NodeData.skipHead postDbArrayHelper h
  refine ⟨max n₁ n₂, fun fuel hfuel => ?_⟩
  have hcount := hcount fuel (by omega)
  have harray := harray fuel (by omega)
  rw [visited_eq] at hcount harray
  have hperm : ∀ k : Kind, (Q.sort k.compare (declared (TreeWalk.contentsOf data t) k)).Perm
      (declared (TreeWalk.contentsOf data t) k) := by
    intro k
    obtain ⟨κ, key, hconsistent⟩ := hsortable.consistent k
    exact Q.perm hconsistent
  unfold cilPostDb
  rw [hcount, harray, Call.bind_of_ok (count_run _ _)]
  have hfilled := array_run (outside (TreeWalk.contentsOf data t))
    { (Db.init : Db γ υ) with sorts := fun k => ⟨(declared (TreeWalk.contentsOf data t) k).length,
        0, none⟩ }
    (fun k => (declared (TreeWalk.contentsOf data t) k).length) (fun _ => []) (fun _ => rfl)
    fun k => Nat.zero_add _
  have hstart : (fun k : Kind => { (Db.init : Db γ υ).sorts k with
      count := ((Db.init : Db γ υ).sorts k).count +
        ((outside (TreeWalk.contentsOf data t)).filterMap (NodeData.con? k)).length }) =
      fun k : Kind => (⟨(declared (TreeWalk.contentsOf data t) k).length, 0, none⟩ :
        CilSort (k.Data γ)) := by
    funext k
    show CilSort.mk _ _ _ = CilSort.mk _ _ _
    congr 1
    exact Nat.zero_add _
  rw [hstart, Call.bind_of_ok hfilled]
  have hsorts := sorts_run (υ := υ) Q (declared (TreeWalk.contentsOf data t)) hperm
    [.netifcon, .genfscon, .portcon, .nodecon, .fsuse, .filecon, .pirqcon, .iomemcon, .ioportcon,
      .pcidevicecon] (by decide)
  refine (hsorts _ fun k _ => rfl).trans ?_
  congr 2
  show Db.mk _ _ _ = Db.mk _ _ _
  congr 1
  funext k
  have hall : k ∈ [Kind.netifcon, .genfscon, .portcon, .nodecon, .fsuse, .filecon, .pirqcon,
      .iomemcon, .ioportcon, .pcidevicecon] := by
    cases k <;> decide
  rw [if_pos hall]

/-- The array of each kind has as many slots as there are statements outside of macros and
abstract blocks; all are written, none twice or behind the end, and sorted. -/
theorem cilPostDb_filled (Q : Sorting) (nodes : Nat → Option Links) (data : Nat → NodeData γ υ)
    {t : Tree Nat} {next : Option Nat} (h : InMemory nodes next t)
    (hsortable : Sortable (declared (TreeWalk.contentsOf data t))) :
    ∃ n, ∀ fuel, n ≤ fuel → ∃ db, cilPostDb Q nodes data fuel (addr t) Db.init = some (.ok () db) ∧
      (∀ k, Filled k (db.sorts k) (declared (TreeWalk.contentsOf data t) k)) ∧
      db.userprefixes = userprefixes (TreeWalk.contentsOf data t) ∧
      db.selinuxusers = selinuxusers (TreeWalk.contentsOf data t) := by
  obtain ⟨n, hrun⟩ := cilPostDb_posted Q h hsortable
  refine ⟨n, fun fuel hfuel => ⟨_, hrun fuel hfuel, fun k => ?_, rfl, rfl⟩⟩
  obtain ⟨κ, key, hconsistent⟩ := hsortable.consistent k
  have hperm := Q.perm hconsistent
  refine ⟨rfl, Q.sort k.compare (declared (TreeWalk.contentsOf data t) k), ?_, hperm,
    Q.sorted hconsistent⟩
  have hentries := entries_part (Q.sort k.compare (declared (TreeWalk.contentsOf data t) k))
  rw [hperm.length_eq] at hentries
  exact hentries

/-- A port outside of the block, and one in the block, which is abstract. -/
def portAndAbstractBlock : Nat → NodeData Unit Unit
  | 1 => .con .portcon ⟨⟨⟨80, 80⟩, .tcp⟩, ()⟩
  | 2 => .block true
  | 3 => .con .portcon ⟨⟨⟨0, 65535⟩, .tcp⟩, ()⟩
  | _ => .other

private theorem declared_portAndAbstractBlock (k : Kind) :
    declared (TreeWalk.contentsOf portAndAbstractBlock smallTree) k =
      [portAndAbstractBlock 1].filterMap (NodeData.con? k) := by
  cases k <;> rfl

theorem sortable_portAndAbstractBlock :
    Sortable (declared (TreeWalk.contentsOf portAndAbstractBlock smallTree)) := by
  have hnear {α : Type} (low high : α → U32) (a : α) : Near low high [a] := by
    intro x hx y hy
    rw [List.mem_singleton.mp hx, List.mem_singleton.mp hy]
    omega
  constructor
  · rw [declared_portAndAbstractBlock]
    intro f hf
    cases hf
  · rw [declared_portAndAbstractBlock]
    exact hnear _ _ _
  · rw [declared_portAndAbstractBlock]
    intro a ha
    cases ha
  · rw [declared_portAndAbstractBlock]
    intro a ha
    cases ha

theorem portAndAbstractBlock_filled : ∃ n, ∀ fuel, n ≤ fuel → ∃ db : Db Unit Unit,
    cilPostDb Comparator.merging smallTreeNodes portAndAbstractBlock fuel 0 Db.init =
      some (.ok () db) ∧
    (∀ k, Filled k (db.sorts k)
      (declared (TreeWalk.contentsOf portAndAbstractBlock smallTree) k)) ∧
    db.userprefixes = [] ∧ db.selinuxusers = [] :=
  cilPostDb_filled Comparator.merging smallTreeNodes portAndAbstractBlock inMemory_smallTree
    sortable_portAndAbstractBlock

end Pass

end Cil.Post.ContextArrays
