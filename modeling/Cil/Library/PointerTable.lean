/- Cil/Library/PointerTable
   digest: A list of allocated entries and a hash table whose keys point into it. -/

import Mathlib.Data.Set.Lattice
import Mathlib.Data.List.Perm.Basic
import Mathlib.Logic.Function.Basic
import Cil.Library.Call

set_option autoImplicit false
set_option relaxedAutoImplicit false

namespace Cil.Library

section Tables

/-- How an insertion into a hash table ends. -/
inductive Insertion (T : Type)
  | inserted (t : T)
  | present
  | noMemory

/-- Against the keys of a table a key compares without a sign, and where it compares equal it
has the same hash value. -/
def Fits (hash : Nat → Nat) (compare : Nat → Nat → Int) (key : Nat)
    (contents : List (Nat × Nat)) : Prop :=
  ∀ e ∈ contents, 0 ≤ compare key e.1 ∧ (compare key e.1 = 0 → hash key = hash e.1)

/-- Hash tables whose keys and data are pointers. `Placed` says that each key is in the bucket
of its hash value. -/
structure Hashtab (T : Type) where
  create : Nat → T
  contents : T → List (Nat × Nat)
  insert : (Nat → Nat) → (Nat → Nat → Int) → T → Nat → Nat → Insertion T
  search : (Nat → Nat) → (Nat → Nat → Int) → T → Nat → Option Nat
  Placed : (Nat → Nat) → T → Prop
  contents_create : ∀ size, contents (create size) = []
  placed_create : ∀ hash size, Placed hash (create size)
  placed_congr : ∀ hash hash' t, Placed hash t →
    (∀ e ∈ contents t, hash' e.1 = hash e.1) → Placed hash' t
  insert_inserted : ∀ hash compare t key datum t', Placed hash t →
    Fits hash compare key (contents t) → insert hash compare t key datum = .inserted t' →
      (∀ e ∈ contents t, compare key e.1 ≠ 0) ∧
        (contents t').Perm ((key, datum) :: contents t) ∧ Placed hash t'
  insert_present : ∀ hash compare t key datum, insert hash compare t key datum = .present →
    ∃ e ∈ contents t, compare key e.1 = 0
  search_some : ∀ hash compare t key datum, search hash compare t key = some datum →
    ∃ e ∈ contents t, e.2 = datum ∧ compare key e.1 = 0
  search_none : ∀ hash compare t key, Placed hash t → Fits hash compare key (contents t) →
    search hash compare t key = none → ∀ e ∈ contents t, compare key e.1 ≠ 0

/-- The functions that a table is created with. The comparison only tells equal keys from
different ones. -/
structure Keyed (K : Type) where
  size : Nat
  hash : Nat → K → Nat
  compare : K → K → Int
  compare_nonneg : ∀ a b, 0 ≤ compare a b
  compare_eq_zero : ∀ a b, compare a b = 0 ↔ a = b

/-- The entries that were allocated, the list of those that were kept with the last one first,
and the table. -/
structure Store (T K V : Type) where
  nodes : Nat → Option (K × V)
  fresh : Nat
  list : List Nat
  table : T
  outOfMemory : Bool

end Tables

namespace Store

section Code

variable {ε T K V : Type} (A : Hashtab T) (F : Keyed K)

/-- An empty list, and a table in which nothing was inserted. -/
def init : Store T K V := ⟨fun _ => none, 0, [], A.create F.size, false⟩

/-- The hash value of what a pointer points to. -/
def hashAt (s : Store T K V) (p : Nat) : Nat :=
  match s.nodes p with
  | some n => F.hash F.size n.1
  | none => 0

def compareAt (s : Store T K V) (p q : Nat) : Int :=
  match s.nodes p, s.nodes q with
  | some m, some n => F.compare m.1 n.1
  | _, _ => 0

def allocated (s : Store T K V) (k : K) (v : V) : Store T K V :=
  { s with nodes := Function.update s.nodes s.fresh (some (k, v)), fresh := s.fresh + 1 }

def freed (s : Store T K V) (p : Nat) : Store T K V :=
  { s with nodes := Function.update s.nodes p none }

/-- Whether a key of the table points to what was freed. -/
def dangling (s : Store T K V) : Bool :=
  (A.contents s.table).any fun e => (s.nodes e.1).isNone

variable [DecidableEq V]

/-- Inserts the address of a new entry, and keeps the entry unless the table has its key. If the
table has it with another value, the call fails. -/
def keep (conflict : ε) (new : Nat) (v : V) : Call ε (Store T K V) Unit := fun s =>
  match A.insert (s.hashAt F) (s.compareAt F) s.table new new with
  | .inserted t => some (.ok () { s with table := t, list := new :: s.list })
  | .noMemory => some (.ok () { s with list := new :: s.list, outOfMemory := true })
  | .present =>
      match (A.search (s.hashAt F) (s.compareAt F) s.table new).bind s.nodes with
      | none => some .crash
      | some old =>
          if v = old.2 then some (.ok () (s.freed new))
          else some (.failed conflict (s.freed new))

/-- Allocates an entry and inserts it. -/
def add (conflict : ε) (k : K) (v : V) : Call ε (Store T K V) Unit := fun s =>
  let s' := s.allocated k v
  if s'.dangling A then some .crash else keep A F conflict s.fresh v s'

end Code

section Meaning

variable {T K V : Type} (A : Hashtab T) (F : Keyed K)

/-- The entries of the list. -/
def read (s : Store T K V) : List (K × V) := s.list.filterMap s.nodes

/-- The keys of the table point to entries of the list, each key of the list occurs once, and
the table has them all unless it ran out of memory. -/
structure Sound (s : Store T K V) : Prop where
  allocated : ∀ p ∈ s.list, p < s.fresh ∧ ∃ n, s.nodes p = some n
  nodup : s.list.Nodup
  keys : ∀ e ∈ A.contents s.table, e.2 = e.1 ∧ e.1 ∈ s.list
  placed : A.Placed (s.hashAt F) s.table
  inStep : s.outOfMemory = false → ∀ p ∈ s.list, (p, p) ∈ A.contents s.table
  functional : s.outOfMemory = false → (s.read.map Prod.fst).Nodup

/-- The step adds `gain` to the list, if the memory suffices. -/
def Grows (gain : Set (K × V)) (s s' : Store T K V) : Prop :=
  s.Sound A F → s'.Sound A F ∧
    (s'.outOfMemory = false → s.outOfMemory = false ∧
      ∀ e, e ∈ s'.read ↔ e ∈ s.read ∨ e ∈ gain)

end Meaning

section Steps

variable {ε T K V : Type} {A : Hashtab T} {F : Keyed K} {s s' : Store T K V}

theorem sound_init : (init A F : Store T K V).Sound A F where
  allocated p hp := by cases hp
  nodup := List.nodup_nil
  keys e he := by
    have hnil : A.contents (init A F : Store T K V).table = [] := A.contents_create F.size
    rw [hnil] at he
    cases he
  placed := A.placed_create _ F.size
  inStep _ p hp := by cases hp
  functional _ := List.nodup_nil

theorem read_init : (init A F : Store T K V).read = [] := rfl

private theorem nodes_allocated {k : K} {v : V} {p : Nat} (h : p < s.fresh) :
    (s.allocated k v).nodes p = s.nodes p :=
  Function.update_of_ne (Nat.ne_of_lt h) _ _

private theorem nodes_allocated_fresh (k : K) (v : V) :
    (s.allocated k v).nodes s.fresh = some (k, v) := Function.update_self _ _ _

private theorem nodes_freed {k : K} {v : V} {p : Nat} (h : p < s.fresh) :
    ((s.allocated k v).freed s.fresh).nodes p = s.nodes p := by
  have hne : p ≠ s.fresh := Nat.ne_of_lt h
  have hfreed : ((s.allocated k v).freed s.fresh).nodes p = (s.allocated k v).nodes p :=
    Function.update_of_ne hne _ _
  rw [hfreed, nodes_allocated h]

private theorem compareAt_of_nodes {p q : Nat} {m n : K × V} (hp : s.nodes p = some m)
    (hq : s.nodes q = some n) : s.compareAt F p q = F.compare m.1 n.1 := by
  simp only [compareAt, hp, hq]

private theorem hashAt_of_nodes {p : Nat} {n : K × V} (hp : s.nodes p = some n) :
    s.hashAt F p = F.hash F.size n.1 := by
  simp only [hashAt, hp]

private theorem mem_read {n : K × V} : n ∈ s.read ↔ ∃ p ∈ s.list, s.nodes p = some n :=
  List.mem_filterMap

/-- What the list and the table point to is all that matters. -/
private theorem Sound.of_agree (h : s.Sound A F) (hlist : s'.list = s.list)
    (htable : s'.table = s.table)
    (hmemory : s'.outOfMemory = s.outOfMemory) (hfresh : s.fresh ≤ s'.fresh)
    (hnodes : ∀ p < s.fresh, s'.nodes p = s.nodes p) :
    s'.Sound A F ∧ s'.read = s.read := by
  have hsame : ∀ p ∈ s.list, s'.nodes p = s.nodes p := fun p hp => hnodes p (h.allocated p hp).1
  have hread : s'.read = s.read := by
    unfold read
    rw [hlist]
    exact List.filterMap_congr hsame
  refine ⟨⟨?_, ?_, ?_, ?_, ?_, ?_⟩, hread⟩
  · intro p hp
    rw [hlist] at hp
    obtain ⟨hlt, n, hn⟩ := h.allocated p hp
    have hlt' : p < s'.fresh := by omega
    rw [hsame p hp]
    exact ⟨hlt', n, hn⟩
  · rw [hlist]
    exact h.nodup
  · rw [htable, hlist]
    exact h.keys
  · rw [htable]
    apply A.placed_congr (s.hashAt F) _ _ h.placed
    intro e he
    simp only [hashAt, hsame e.1 (h.keys e he).2]
  · rw [hmemory, hlist, htable]
    exact h.inStep
  · rw [hmemory, hread]
    exact h.functional

private theorem Sound.allocate (h : s.Sound A F) (k : K) (v : V) :
    (s.allocated k v).Sound A F ∧ (s.allocated k v).read = s.read :=
  h.of_agree rfl rfl rfl (Nat.le_succ _) fun _ hp => nodes_allocated hp

theorem Sound.free (h : s.Sound A F) (k : K) (v : V) :
    ((s.allocated k v).freed s.fresh).Sound A F ∧
      ((s.allocated k v).freed s.fresh).read = s.read :=
  h.of_agree rfl rfl rfl (Nat.le_succ _) fun _ hp => nodes_freed hp

private theorem Sound.not_dangling (h : s.Sound A F) : s.dangling A = false := by
  unfold dangling
  rw [List.any_eq_false]
  intro e he
  obtain ⟨_, n, hn⟩ := h.allocated e.1 (h.keys e he).2
  rw [hn]
  exact Bool.false_ne_true

theorem Sound.fits (h : s.Sound A F) {new : Nat} {n : K × V} (hnew : s.nodes new = some n) :
    Fits (s.hashAt F) (s.compareAt F) new (A.contents s.table) := by
  intro e he
  obtain ⟨_, m, hm⟩ := h.allocated e.1 (h.keys e he).2
  rw [compareAt_of_nodes hnew hm, hashAt_of_nodes hnew, hashAt_of_nodes hm]
  refine ⟨F.compare_nonneg _ _, fun hzero => ?_⟩
  have heq : n.1 = m.1 := (F.compare_eq_zero _ _).mp hzero
  rw [heq]

/-- An entry whose key is not in the table goes to the head of the list. -/
theorem Sound.inserted (h : s.Sound A F) {new : Nat} {k : K} {v : V} {t : T}
    (hlt : new < s.fresh) (hnew : new ∉ s.list) (hnode : s.nodes new = some (k, v))
    (hdiffer : ∀ e ∈ A.contents s.table, s.compareAt F new e.1 ≠ 0)
    (hperm : (A.contents t).Perm ((new, new) :: A.contents s.table))
    (hplaced : A.Placed (s.hashAt F) t) :
    ({ s with table := t, list := new :: s.list } : Store T K V).Sound A F := by
  have hread : ({ s with table := t, list := new :: s.list } : Store T K V).read =
      (k, v) :: s.read := List.filterMap_cons_some hnode
  refine ⟨?_, List.nodup_cons.mpr ⟨hnew, h.nodup⟩, ?_, hplaced, ?_, ?_⟩
  · intro p hp
    rcases List.mem_cons.mp hp with rfl | hp
    · exact ⟨hlt, _, hnode⟩
    · exact h.allocated p hp
  · intro e he
    rcases List.mem_cons.mp (hperm.mem_iff.mp he) with rfl | he
    · exact ⟨rfl, List.mem_cons_self⟩
    · exact ⟨(h.keys e he).1, List.mem_cons_of_mem _ (h.keys e he).2⟩
  · intro hmemory p hp
    apply hperm.mem_iff.mpr
    rcases List.mem_cons.mp hp with rfl | hp
    · exact List.mem_cons_self
    · exact List.mem_cons_of_mem _ (h.inStep hmemory p hp)
  · intro hmemory
    rw [hread, List.map_cons, List.nodup_cons]
    refine ⟨fun hmem => ?_, h.functional hmemory⟩
    obtain ⟨n, hn, hkey⟩ := List.mem_map.mp hmem
    obtain ⟨p, hp, hnp⟩ := mem_read.mp hn
    apply hdiffer (p, p) (h.inStep hmemory p hp)
    rw [compareAt_of_nodes hnode hnp]
    exact (F.compare_eq_zero _ _).mpr hkey.symm

/-- An entry that is not in the table is kept as well. -/
private theorem Sound.unlisted (h : s.Sound A F) {new : Nat} {n : K × V} (hlt : new < s.fresh)
    (hnew : new ∉ s.list) (hnode : s.nodes new = some n) :
    ({ s with list := new :: s.list, outOfMemory := true } : Store T K V).Sound A F := by
  refine ⟨?_, List.nodup_cons.mpr ⟨hnew, h.nodup⟩, ?_, h.placed, ?_, ?_⟩
  · intro p hp
    rcases List.mem_cons.mp hp with rfl | hp
    · exact ⟨hlt, _, hnode⟩
    · exact h.allocated p hp
  · intro e he
    exact ⟨(h.keys e he).1, List.mem_cons_of_mem _ (h.keys e he).2⟩
  · intro hmemory
    cases hmemory
  · intro hmemory
    cases hmemory

/-- A key that compares equal to that of a table entry is the key of an entry of the list. -/
theorem Sound.found (h : s.Sound A F) {new : Nat} {k : K} {v : V}
    (hnode : s.nodes new = some (k, v)) {e : Nat × Nat} (he : e ∈ A.contents s.table)
    (hzero : s.compareAt F new e.1 = 0) :
    ∃ v', s.nodes e.2 = some (k, v') ∧ (k, v') ∈ s.read := by
  obtain ⟨hdatum, hmem⟩ := h.keys e he
  obtain ⟨_, n, hn⟩ := h.allocated e.1 hmem
  rw [compareAt_of_nodes hnode hn] at hzero
  have hkey : k = n.1 := (F.compare_eq_zero _ _).mp hzero
  have hn' : s.nodes e.1 = some (k, n.2) := by
    rw [hn, hkey]
  refine ⟨n.2, ?_, mem_read.mpr ⟨e.1, hmem, hn'⟩⟩
  rw [hdatum]
  exact hn'

variable [DecidableEq V]

/-- An insertion keeps table and list in step and adds its entry, or it fails on an entry with
the same key and another value. It never follows a pointer to what was freed. -/
private theorem add_spec (h : s.Sound A F) (conflict : ε) (k : K) (v : V) :
    (∃ s', add A F conflict k v s = some (.ok () s') ∧ Grows A F {(k, v)} s s') ∨
      ∃ s' v', add A F conflict k v s = some (.failed conflict s') ∧ v' ≠ v ∧
        (k, v') ∈ s.read := by
  obtain ⟨halloc, hread⟩ := h.allocate k v
  have hnode : (s.allocated k v).nodes s.fresh = some (k, v) := nodes_allocated_fresh k v
  have hlt : s.fresh < (s.allocated k v).fresh := Nat.lt_succ_self _
  have hnew : s.fresh ∉ (s.allocated k v).list := by
    intro hmem
    have hless := (h.allocated s.fresh hmem).1
    omega
  have hfits := halloc.fits hnode
  have hdangling := halloc.not_dangling
  generalize hs1 : s.allocated k v = s1 at *
  have hrun : add A F conflict k v s = keep A F conflict s.fresh v s1 := by
    simp only [add, hs1, hdangling, Bool.false_eq_true, if_false]
  rw [hrun]
  unfold keep
  have hmemory : s1.outOfMemory = s.outOfMemory := by
    rw [← hs1]
    rfl
  have hgrown : ∀ list table, ({ s1 with table := table, list := s.fresh :: list } :
      Store T K V).read = (k, v) :: ({ s1 with list := list } : Store T K V).read :=
    fun list table => List.filterMap_cons_some hnode
  cases hinsert : A.insert (s1.hashAt F) (s1.compareAt F) s1.table s.fresh s.fresh with
  | inserted t =>
    obtain ⟨hdiffer, hperm, hplaced⟩ :=
      A.insert_inserted _ _ _ _ _ _ halloc.placed hfits hinsert
    refine Or.inl ⟨_, rfl, fun _ => ⟨halloc.inserted hlt hnew hnode hdiffer hperm hplaced, ?_⟩⟩
    intro hfine
    refine ⟨hmemory ▸ hfine, fun e => ?_⟩
    rw [hgrown, List.mem_cons, ← hread, Set.mem_singleton_iff]
    exact Or.comm
  | noMemory =>
    refine Or.inl ⟨_, rfl, fun _ => ⟨halloc.unlisted hlt hnew hnode, fun hfine => ?_⟩⟩
    cases hfine
  | present =>
    obtain ⟨e, he, hzero⟩ := A.insert_present _ _ _ _ _ hinsert
    cases hsearch : A.search (s1.hashAt F) (s1.compareAt F) s1.table s.fresh with
    | none => exact absurd hzero (A.search_none _ _ _ _ halloc.placed hfits hsearch e he)
    | some p =>
      obtain ⟨e', he', rfl, hzero'⟩ := A.search_some _ _ _ _ _ hsearch
      obtain ⟨v', hold, hmem⟩ := halloc.found hnode he' hzero'
      rw [hread] at hmem
      simp only [Option.bind_some, hold]
      obtain ⟨hfree, hsame⟩ := h.free k v
      rw [hs1] at hfree hsame
      by_cases hv : v = v'
      · rw [if_pos hv]
        refine Or.inl ⟨_, rfl, fun _ => ⟨hfree, fun hfine => ⟨hmemory ▸ hfine, fun x => ?_⟩⟩⟩
        rw [hsame, Set.mem_singleton_iff]
        constructor
        · exact Or.inl
        · intro hx
          rcases hx with hx | rfl
          · exact hx
          · rw [hv]
            exact hmem
      · rw [if_neg hv]
        exact Or.inr ⟨_, v', rfl, fun hv' => hv hv'.symm, hmem⟩

end Steps

section Calls

variable {ε τ α β T K V : Type} {A : Hashtab T} {F : Keyed K}

theorem Grows.refl (s : Store T K V) : Grows A F ∅ s s := by
  refine fun h => ⟨h, fun hmemory => ⟨hmemory, fun e => ?_⟩⟩
  rw [Set.mem_empty_iff_false, or_false]

theorem Grows.trans {s s' s'' : Store T K V} {gain gain' : Set (K × V)}
    (h : Grows A F gain s s') (h' : Grows A F gain' s' s'') :
    Grows A F (gain ∪ gain') s s'' := by
  intro hs
  obtain ⟨hs', hfirst⟩ := h hs
  obtain ⟨hs'', hsecond⟩ := h' hs'
  refine ⟨hs'', fun hmemory => ?_⟩
  obtain ⟨hmemory', hread'⟩ := hsecond hmemory
  obtain ⟨hmemory'', hread⟩ := hfirst hmemory'
  refine ⟨hmemory'', fun e => ?_⟩
  rw [hread', hread, Set.mem_union, or_assoc]

/-- A call that has not failed adds `gain` to a list that is part of the state. -/
def Adds (A : Hashtab T) (F : Keyed K) (part : τ → Store T K V) (gain : Set (K × V))
    (c : Call ε τ α) : Prop :=
  ∀ t a t', c t = some (.ok a t') → Grows A F gain (part t) (part t')

namespace Adds

variable {part : τ → Store T K V} {gain gain' : Set (K × V)}

theorem of_eq {c : Call ε τ α} (h : Adds A F part gain c) (heq : gain = gain') :
    Adds A F part gain' c := heq ▸ h

theorem pure (a : α) : Adds A F part ∅ (Pure.pure a : Call ε τ α) := by
  intro t b t' h
  cases h
  exact Grows.refl _

theorem bind {c : Call ε τ α} {f : α → Call ε τ β} (hc : Adds A F part gain c)
    (hf : ∀ a, Adds A F part gain' (f a)) : Adds A F part (gain ∪ gain') (c >>= f) := by
  intro t b t'' h
  obtain ⟨a, t', hfirst, hsecond⟩ := Call.bind_ok h
  exact (hc t a t' hfirst).trans (hf a t' b t'' hsecond)

theorem forEach {ι : Type} {gains : ι → Set (K × V)} {f : ι → Call ε τ Unit}
    (hf : ∀ x, Adds A F part (gains x) (f x)) (xs : List ι) :
    Adds A F part {e | ∃ x ∈ xs, e ∈ gains x} (Call.forEach f xs) := by
  induction xs with
  | nil =>
    apply (Adds.pure ()).of_eq
    ext e
    simp
  | cons x xs ih =>
    apply ((hf x).bind fun _ => ih).of_eq
    ext e
    simp only [Set.mem_union, Set.mem_ofPred_eq, List.exists_mem_cons_iff]

/-- After a call that only reads the state. -/
theorem after {c : Call ε τ α} {f : α → Call ε τ β}
    (hf : ∀ t a t', c t = some (.ok a t') → t' = t ∧ Adds A F part gain (f a)) :
    Adds A F part gain (c >>= f) := by
  intro t b t'' h
  obtain ⟨a, t', hfirst, hsecond⟩ := Call.bind_ok h
  obtain ⟨rfl, hadds⟩ := hf t a t' hfirst
  exact hadds _ b t'' hsecond

theorem afterCrash {o : Option α} {f : α → Call ε τ β}
    (hf : ∀ a, o = some a → Adds A F part gain (f a)) :
    Adds A F part gain (Call.orCrash o >>= f) := by
  intro t b t' h
  cases o with
  | none => cases h
  | some a => exact hf a rfl t b t' h

theorem afterFail {e : ε} {o : Option α} {f : α → Call ε τ β}
    (hf : ∀ a, o = some a → Adds A F part gain (f a)) :
    Adds A F part gain (Call.orFail e o >>= f) := by
  intro t b t' h
  cases o with
  | none => cases h
  | some a => exact hf a rfl t b t' h

theorem orCrash {o : Option α} {gains : α → Set (K × V)} {f : α → Call ε τ β}
    (hf : ∀ a, Adds A F part (gains a) (f a)) :
    Adds A F part {e | ∃ a, o = some a ∧ e ∈ gains a} (Call.orCrash o >>= f) := by
  apply afterCrash
  rintro a rfl
  apply (hf a).of_eq
  ext e
  simp

theorem orFail {e : ε} {o : Option α} {gains : α → Set (K × V)} {f : α → Call ε τ β}
    (hf : ∀ a, Adds A F part (gains a) (f a)) :
    Adds A F part {x | ∃ a, o = some a ∧ x ∈ gains a} (Call.orFail e o >>= f) := by
  apply afterFail
  rintro a rfl
  apply (hf a).of_eq
  ext x
  simp

/-- A call on the list itself. -/
theorem onPart {store : Store T K V → τ → τ} {c : Call ε (Store T K V) Unit}
    (hc : Adds A F id gain c) (hstore : ∀ part' t, part (store part' t) = part') :
    Adds A F part gain (Call.onPart part store c) := by
  intro t a t' h
  obtain ⟨part', hrun, rfl⟩ := Call.onPart_ok h
  rw [hstore]
  exact hc _ _ _ hrun

/-- A call on another part of the state. -/
theorem elsewhere {σ : Type} {other : τ → σ} {store : σ → τ → τ} {c : Call ε σ Unit}
    (hstore : ∀ part' t, part (store part' t) = part t) :
    Adds A F part ∅ (Call.onPart other store c) := by
  intro t a t' h
  obtain ⟨part', _, rfl⟩ := Call.onPart_ok h
  rw [hstore]
  exact Grows.refl _

end Adds

variable [DecidableEq V] (conflict : ε)

theorem adds_add (k : K) (v : V) : Adds A F id {(k, v)} (add A F conflict k v) := by
  intro s a s' h hs
  have hs : s.Sound A F := hs
  rcases add_spec hs conflict k v with ⟨s1, hrun, hgrows⟩ | ⟨s1, v', hrun, _⟩
  · rw [hrun] at h
    cases h
    exact hgrows hs
  · rw [hrun] at h
    cases h

theorem returnsFrom_add (k : K) (v : V) :
    Call.ReturnsFrom (Sound A F) (add A F conflict k v) := by
  intro s hs
  rcases add_spec hs conflict k v with ⟨s1, hrun, hgrows⟩ | ⟨s1, v', hrun, _⟩
  · exact Or.inl ⟨(), s1, hrun, (hgrows hs).1⟩
  · exact Or.inr ⟨conflict, s1, hrun⟩

end Calls

end Store

end Cil.Library
