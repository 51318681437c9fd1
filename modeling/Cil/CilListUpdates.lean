/- Cil/CilListUpdates
   digest: What is put into a list in memory or taken out is put into the list it stands for. -/

import Cil.CilList
import Mathlib.Data.List.Nodup

set_option autoImplicit false
set_option relaxedAutoImplicit false

namespace Cil.CilList

open Library

variable {φ δ : Type}

section Memory

variable {m : Memory φ δ} {p q : Nat} {item : Option (Item φ δ)} {data : Data φ δ}

@[simp] theorem setItem_lists : (m.setItem p item).lists = m.lists := rfl

@[simp] theorem setItem_self : (m.setItem p item).items p = item := Function.update_self ..

private theorem setItem_of_ne (hne : q ≠ p) : (m.setItem p item).items q = m.items q :=
  Function.update_of_ne hne _ _

/-- The memory with a new item. -/
def Memory.allocated (m : Memory φ δ) (p : Nat) (data : Data φ δ) : Memory φ δ :=
  (m.setItem p (some ⟨data, none⟩)).taken

@[simp] theorem allocated_lists : (m.allocated p data).lists = m.lists := rfl

@[simp] theorem allocated_self : (m.allocated p data).items p = some ⟨data, none⟩ := setItem_self

private theorem allocated_of_ne (hne : q ≠ p) : (m.allocated p data).items q = m.items q :=
  setItem_of_ne hne

end Memory

section Refinement

variable {m m' : Memory φ δ} {A : Lists φ δ} {l : Nat} {flavor : φ} {xs ys : List (Entry φ δ)}

def headerOf (flavor : φ) (xs : List (Entry φ δ)) : Header φ := ⟨firstOf xs none, lastOf xs, flavor⟩

/-- The memory holds the lists: each is linked from its head to its tail, an item is in one place
of one list, and there are no other items. -/
structure Refines (m : Memory φ δ) (A : Lists φ δ) : Prop where
  headers : ∀ l, m.lists l = (A.lists l).map fun x => headerOf x.1 x.2
  linked : ∀ l flavor xs, A.lists l = some (flavor, xs) → Chained m.items xs none
  once : ∀ l flavor xs, A.lists l = some (flavor, xs) → (xs.map Prod.fst).Nodup
  apart : ∀ l l' flavor flavor' xs xs', A.lists l = some (flavor, xs) →
    A.lists l' = some (flavor', xs') → l ≠ l' → ∀ p ∈ xs.map Prod.fst, p ∉ xs'.map Prod.fst
  owned : ∀ p, m.items p ≠ none → ∃ l flavor xs, A.lists l = some (flavor, xs) ∧
    p ∈ xs.map Prod.fst
  itemsBelow : ∀ p, A.fresh ≤ p → m.items p = none
  listsBelow : ∀ l, A.fresh ≤ l → A.lists l = none
  fresh : m.fresh = A.fresh
  destroyed : m.destroyed = A.destroyed

theorem refines_init : Refines (Memory.init : Memory φ δ) Lists.init where
  headers _ := rfl
  linked l flavor xs h := by cases h
  once l flavor xs h := by cases h
  apart l l' flavor flavor' xs xs' h := by cases h
  owned p hp := (hp rfl).elim
  itemsBelow _ _ := rfl
  listsBelow _ _ := rfl
  fresh := rfl
  destroyed := rfl

theorem Refines.header (h : Refines m A) (hl : A.lists l = some (flavor, xs)) :
    m.lists l = some (headerOf flavor xs) := by
  rw [h.headers, hl]
  rfl

theorem addresses_of (hl : A.lists l = some (flavor, xs)) : A.addresses l = xs.map Prod.fst := by
  rw [Lists.addresses, hl]

theorem mem_addresses {p : Nat} (hp : p ∈ A.addresses l) :
    ∃ flavor xs, A.lists l = some (flavor, xs) ∧ p ∈ xs.map Prod.fst := by
  rw [Lists.addresses] at hp
  split at hp
  · cases hp
  · rename_i flavor xs hl
    exact ⟨flavor, xs, hl, hp⟩

private theorem Refines.lt_fresh (h : Refines m A) {p : Nat} (hp : p ∈ A.addresses l) :
    p < A.fresh := by
  obtain ⟨flavor, xs, hl, hp⟩ := mem_addresses hp
  by_contra hge
  exact (h.linked l flavor xs hl).live hp (h.itemsBelow p (by omega))

private theorem Refines.list_lt_fresh (h : Refines m A) (hl : A.lists l = some (flavor, xs)) :
    l < A.fresh := by
  by_contra hge
  rw [h.listsBelow l (by omega)] at hl
  cases hl

private theorem put_lists_self {fresh : Nat} :
    (A.put l flavor ys fresh).lists l = some (flavor, ys) :=
  Function.update_self ..

private theorem put_lists_of_ne {fresh k : Nat} (hk : k ≠ l) :
    (A.put l flavor ys fresh).lists k = A.lists k := Function.update_of_ne hk _ _

private theorem put_lists {fresh k : Nat} {flavor' : φ} {zs : List (Entry φ δ)}
    (hzs : (A.put l flavor ys fresh).lists k = some (flavor', zs)) :
    k = l ∧ flavor' = flavor ∧ zs = ys ∨ k ≠ l ∧ A.lists k = some (flavor', zs) := by
  by_cases hk : k = l
  · subst hk
    rw [put_lists_self] at hzs
    cases hzs
    exact Or.inl ⟨rfl, rfl, rfl⟩
  · rw [put_lists_of_ne hk] at hzs
    exact Or.inr ⟨hk, hzs⟩

/-- The items of the other lists are not in a list that got new items only. -/
theorem Refines.other (h : Refines m A) {fresh k : Nat} {flavor' : φ} {zs : List (Entry φ δ)}
    (hfrom : ∀ p ∈ ys.map Prod.fst, p ∈ A.addresses l ∨ A.fresh ≤ p ∧ p < fresh) (hk : k ≠ l)
    (hzs : A.lists k = some (flavor', zs)) {p : Nat} (hp : p ∈ zs.map Prod.fst) :
    p ∉ A.addresses l ∧ p ∉ ys.map Prod.fst := by
  have hold : p ∉ A.addresses l := by
    intro hin
    obtain ⟨flavor, xs, hl, hin⟩ := mem_addresses hin
    exact h.apart k l _ _ _ _ hzs hl hk p hp hin
  refine ⟨hold, fun hys => ?_⟩
  rcases hfrom p hys with hin | ⟨hge, -⟩
  · exact hold hin
  · have hlt := h.lt_fresh ((addresses_of hzs).symm ▸ hp)
    omega

/-- One list changes, or there is a new one. Its items were in the list before or they are new,
and what is not in it any more is freed. -/
theorem Refines.put (h : Refines m A) {fresh : Nat}
    (hlists : m'.lists = Function.update m.lists l (some (headerOf flavor ys)))
    (hlinked : Chained m'.items ys none) (honce : (ys.map Prod.fst).Nodup)
    (hfrom : ∀ p ∈ ys.map Prod.fst, p ∈ A.addresses l ∨ A.fresh ≤ p ∧ p < fresh)
    (hframe : ∀ p, p ∉ A.addresses l → p ∉ ys.map Prod.fst → m'.items p = m.items p)
    (hgone : ∀ p ∈ A.addresses l, p ∉ ys.map Prod.fst → m'.items p = none)
    (hlt : l < fresh) (hle : A.fresh ≤ fresh) (hfresh : m'.fresh = fresh)
    (hdestroyed : m'.destroyed = m.destroyed) : Refines m' (A.put l flavor ys fresh) := by
  constructor
  · intro k
    rw [hlists]
    by_cases hk : k = l
    · subst hk
      rw [Function.update_self, put_lists_self]
      rfl
    · rw [Function.update_of_ne hk, put_lists_of_ne hk, h.headers]
  · intro k flavor' zs hzs
    rcases put_lists hzs with ⟨rfl, rfl, rfl⟩ | ⟨hk, hzs⟩
    · exact hlinked
    · refine (h.linked k flavor' zs hzs).congr fun p hp => ?_
      obtain ⟨hold, hys⟩ := h.other hfrom hk hzs hp
      exact hframe p hold hys
  · intro k flavor' zs hzs
    rcases put_lists hzs with ⟨rfl, rfl, rfl⟩ | ⟨hk, hzs⟩
    · exact honce
    · exact h.once k flavor' zs hzs
  · intro k k' flavor₁ flavor₂ zs zs' hzs hzs' hne p hp hp'
    rcases put_lists hzs with ⟨rfl, rfl, rfl⟩ | ⟨hk, hold⟩
    · rcases put_lists hzs' with ⟨rfl, -, -⟩ | ⟨hk', hold'⟩
      · exact hne rfl
      · exact (h.other hfrom hk' hold' hp').2 hp
    · rcases put_lists hzs' with ⟨rfl, rfl, rfl⟩ | ⟨hk', hold'⟩
      · exact (h.other hfrom hk hold hp).2 hp'
      · exact h.apart k k' _ _ _ _ hold hold' hne p hp hp'
  · intro p hp
    by_cases hys : p ∈ ys.map Prod.fst
    · exact ⟨l, flavor, ys, put_lists_self, hys⟩
    · by_cases hold : p ∈ A.addresses l
      · exact (hp (hgone p hold hys)).elim
      · rw [hframe p hold hys] at hp
        obtain ⟨k, flavor', zs, hzs, hmem⟩ := h.owned p hp
        have hk : k ≠ l := by
          rintro rfl
          exact hold ((addresses_of hzs).symm ▸ hmem)
        exact ⟨k, flavor', zs, (put_lists_of_ne hk).trans hzs, hmem⟩
  · intro p hp
    have hge : fresh ≤ p := hp
    have hold : p ∉ A.addresses l := by
      intro hin
      have hlt := h.lt_fresh hin
      omega
    have hys : p ∉ ys.map Prod.fst := by
      intro hin
      rcases hfrom p hin with hin | ⟨-, hlt⟩
      · exact hold hin
      · omega
    rw [hframe p hold hys]
    exact h.itemsBelow p (by omega)
  · intro k hk
    have hge : fresh ≤ k := hk
    have hne : k ≠ l := by omega
    exact (put_lists_of_ne hne).trans (h.listsBelow k (by omega))
  · exact hfresh
  · exact hdestroyed.trans h.destroyed

end Refinement

section Reading

variable {α : Type} {m : Memory φ δ}

private theorem listOf_bind (l : Nat) (f : Nat → Call Exit (Memory φ δ) α) :
    (listOf (some l) >>= f) m = f l m := rfl

private theorem itemInit_bind {A : Lists φ δ} (h : Refines m A) (data : Data φ δ)
    (f : Nat → Call Exit (Memory φ δ) α) :
    (cilListItemInit data >>= f) m = f A.fresh (m.allocated A.fresh data) := by
  rw [← h.fresh]
  rfl

theorem readList_bind {l : Nat} {h : Header φ} (hl : m.lists l = some h)
    (f : Header φ → Call Exit (Memory φ δ) α) : (readList l >>= f) m = f h m := by
  have hread : (readList l : Call Exit (Memory φ δ) (Header φ)) m = some (.ok h m) := by
    change Call.orCrash (m.lists l) m = _
    rw [hl]
    rfl
  exact Call.bind_of_ok hread

theorem readItem_bind {p : Nat} {item : Item φ δ} (hp : m.items p = some item)
    (f : Item φ δ → Call Exit (Memory φ δ) α) : (readItem p >>= f) m = f item m := by
  have hread : (readItem p : Call Exit (Memory φ δ) (Item φ δ)) m = some (.ok item m) := by
    change Call.orCrash (m.items p) m = _
    rw [hp]
    rfl
  exact Call.bind_of_ok hread

private theorem setNext_bind {p : Nat} {item : Item φ δ} (hp : m.items p = some item)
    (next : Option Nat) (f : Unit → Call Exit (Memory φ δ) α) : (setNext p next >>= f) m =
      f () (m.setItem p (some { item with next := next })) := by
  have hset : (setNext p next : Call Exit (Memory φ δ) Unit) m =
      some (.ok () (m.setItem p (some { item with next := next }))) := readItem_bind hp _
  exact Call.bind_of_ok hset

theorem freeItem_run {p : Nat} {item : Item φ δ} (hp : m.items p = some item) :
    (freeItem p : Call Exit (Memory φ δ) Unit) m = some (.ok () (m.setItem p none)) :=
  readItem_bind hp _

theorem freeList_run {l : Nat} {h : Header φ} (hl : m.lists l = some h) :
    (freeList l : Call Exit (Memory φ δ) Unit) m = some (.ok () (m.setList l none)) :=
  readList_bind hl _

end Reading

section Insertion

variable {m m' : Memory φ δ} {A : Lists φ δ} {l : Nat} {flavor : φ} {e : Entry φ δ}
  {xs before after : List (Entry φ δ)} {data : Data φ δ}

private theorem headerOf_middle : headerOf flavor (before ++ e :: after) =
    ⟨firstOf before (some e.1), lastOf (e :: after), flavor⟩ := by
  rw [headerOf, firstOf_append, lastOf_append_cons]
  rfl

private theorem headerOf_append (hne : xs ≠ []) :
    headerOf flavor (xs ++ [e]) = ⟨firstOf xs none, some e.1, flavor⟩ := by
  cases xs with
  | nil => exact (hne rfl).elim
  | cons x xs => rw [headerOf, lastOf_append_singleton]; rfl

private theorem headerOf_cons (hne : xs ≠ []) :
    headerOf flavor (e :: xs) = ⟨some e.1, lastOf xs, flavor⟩ := by
  cases xs with
  | nil => exact (hne rfl).elim
  | cons x xs => simp [headerOf, lastOf, firstOf]

private theorem Refines.ne_fresh (h : Refines m A) (hl : A.lists l = some (flavor, xs)) {p : Nat}
    (hp : p ∈ xs.map Prod.fst) : p ≠ A.fresh := by
  have hlt := h.lt_fresh ((addresses_of hl).symm ▸ hp)
  omega

private theorem Refines.ne_middle (h : Refines m A)
    (hl : A.lists l = some (flavor, before ++ e :: after))
    {p : Nat} (hp : p ∈ before.map Prod.fst ++ after.map Prod.fst) : p ≠ e.1 := by
  have honce := h.once l flavor _ hl
  rw [List.map_append, List.map_cons] at honce
  rintro rfl
  exact (List.nodup_cons.mp (List.nodup_middle.mp honce)).1 hp

/-- A new item comes somewhere into a list: the header is written, and the items of the list and
the new one are linked. -/
theorem Refines.inserted (h : Refines m A) (hl : A.lists l = some (flavor, before ++ after))
    (hlists : m'.lists = Function.update m.lists l
      (some (headerOf flavor (before ++ (A.fresh, data) :: after))))
    (hlinked : Chained m'.items (before ++ (A.fresh, data) :: after) none)
    (hframe : ∀ p, p ∉ (before ++ after).map Prod.fst → p ≠ A.fresh → m'.items p = m.items p)
    (hfresh : m'.fresh = m.fresh + 1) (hdestroyed : m'.destroyed = m.destroyed) :
    Refines m' (A.put l flavor (before ++ (A.fresh, data) :: after) (A.fresh + 1)) := by
  have hmem : ∀ p, p ∈ (before ++ (A.fresh, data) :: after).map Prod.fst ↔
      p = A.fresh ∨ p ∈ (before ++ after).map Prod.fst := by
    intro p
    simp only [List.map_append, List.map_cons, List.mem_append, List.mem_cons]
    tauto
  have hnew : A.fresh ∉ (before ++ after).map Prod.fst := fun hin => h.ne_fresh hl hin rfl
  have hnext : m'.fresh = A.fresh + 1 := by rw [hfresh, h.fresh]
  have hlt := h.list_lt_fresh hl
  have haddresses := addresses_of hl
  refine h.put hlists hlinked ?_ ?_ ?_ ?_ (by omega) (by omega) hnext hdestroyed
  · have honce := h.once l flavor _ hl
    rw [List.map_append] at honce hnew
    rw [List.map_append, List.map_cons]
    exact List.nodup_middle.mpr (List.nodup_cons.mpr ⟨hnew, honce⟩)
  · intro p hp
    rw [haddresses]
    rcases (hmem p).mp hp with rfl | hp
    · exact Or.inr ⟨Nat.le_refl _, by omega⟩
    · exact Or.inl hp
  · intro p hp hnot
    rw [haddresses] at hp
    exact hframe p hp fun heq => hnot ((hmem p).mpr (Or.inl heq))
  · intro p hp hnot
    rw [haddresses] at hp
    exact (hnot ((hmem p).mpr (Or.inr hp))).elim

/-- A new item comes behind another one. -/
private theorem Refines.insertedBehind (h : Refines m A)
    (hl : A.lists l = some (flavor, before ++ e :: after))
    (hlists : m'.lists = Function.update m.lists l
      (some (headerOf flavor (before ++ e :: (A.fresh, data) :: after))))
    (hbehind : m'.items e.1 = some ⟨e.2, some A.fresh⟩)
    (hnew : m'.items A.fresh = some ⟨data, firstOf after none⟩)
    (hframe : ∀ p, p ≠ e.1 → p ≠ A.fresh → m'.items p = m.items p)
    (hfresh : m'.fresh = m.fresh + 1) (hdestroyed : m'.destroyed = m.destroyed) :
    Refines m' (A.put l flavor (before ++ e :: (A.fresh, data) :: after) (A.fresh + 1)) := by
  have hsplit : ∀ ys : List (Entry φ δ), before ++ e :: ys = (before ++ [e]) ++ ys :=
    fun ys => by simp
  have hlinked := h.linked l flavor _ hl
  rw [chained_append] at hlinked
  obtain ⟨hbefore, -, hafter⟩ := hlinked
  have hsame : ∀ p ∈ before.map Prod.fst ++ after.map Prod.fst, m'.items p = m.items p := by
    intro p hp
    refine hframe p (h.ne_middle hl hp) (h.ne_fresh hl ?_)
    simp only [List.map_append, List.map_cons, List.mem_append, List.mem_cons] at hp ⊢
    tauto
  rw [hsplit] at hl hlists ⊢
  refine h.inserted hl hlists ?_ ?_ hfresh hdestroyed
  · rw [← hsplit, chained_append]
    refine ⟨hbefore.congr fun p hp => hsame p (List.mem_append_left _ hp), hbehind, hnew, ?_⟩
    exact hafter.congr fun p hp => hsame p (List.mem_append_right _ hp)
  · intro p hp hne
    refine hframe p ?_ hne
    rintro rfl
    exact hp (by simp)

/-- A new item comes first. -/
private theorem Refines.insertedFirst (h : Refines m A) (hl : A.lists l = some (flavor, xs))
    (hlists : m'.lists = Function.update m.lists l
      (some (headerOf flavor ((A.fresh, data) :: xs))))
    (hnew : m'.items A.fresh = some ⟨data, firstOf xs none⟩)
    (hframe : ∀ p, p ≠ A.fresh → m'.items p = m.items p)
    (hfresh : m'.fresh = m.fresh + 1) (hdestroyed : m'.destroyed = m.destroyed) :
    Refines m' (A.put l flavor ((A.fresh, data) :: xs) (A.fresh + 1)) := by
  rw [← List.nil_append xs] at hl
  rw [← List.nil_append (_ :: xs)] at hlists ⊢
  refine h.inserted hl hlists ⟨hnew, ?_⟩ (fun p _ hp => hframe p hp) hfresh hdestroyed
  exact (h.linked l flavor xs hl).congr fun p hp => hframe p (h.ne_fresh hl hp)

/-- `cil_list_append` puts the data at the end, in a new item that becomes the tail. -/
theorem cilListAppend_ok (h : Refines m A) (hl : A.lists l = some (flavor, xs)) (data : Data φ δ) :
    ∃ m', cilListAppend (some l) data m = some (.ok () m') ∧
      Refines m' (A.put l flavor (xs ++ [(A.fresh, data)]) (A.fresh + 1)) := by
  have hheader : (m.allocated A.fresh data).lists l = some (headerOf flavor xs) := h.header hl
  rw [cilListAppend, listOf_bind, itemInit_bind h, readList_bind hheader]
  rcases List.eq_nil_or_concat xs with rfl | ⟨before, e, hxs⟩
  · exact ⟨_, rfl, h.insertedFirst hl rfl allocated_self (fun p hp => allocated_of_ne hp) rfl rfl⟩
  · rw [List.concat_eq_append] at hxs
    subst hxs
    have hlinked := h.linked l flavor _ hl
    rw [chained_append, chained_singleton] at hlinked
    have hold : e.1 ≠ A.fresh := h.ne_fresh hl (by simp)
    have hitem : (m.allocated A.fresh data).items e.1 = some ⟨e.2, none⟩ :=
      (allocated_of_ne hold).trans hlinked.2
    have htail : (headerOf flavor (before ++ [e])).tail = some e.1 := lastOf_append_singleton
    simp only [htail]
    rw [setNext_bind hitem]
    refine ⟨_, rfl, ?_⟩
    rw [List.append_assoc]
    have hend : A.lists l = some (flavor, before ++ e :: []) := hl
    refine h.insertedBehind hend ?_ ?_ ?_ ?_ rfl rfl
    · have hne : before ++ [e] ≠ [] := by simp
      have hnew : headerOf flavor (before ++ [e] ++ [(A.fresh, data)]) =
        ⟨firstOf (before ++ [e]) none, some A.fresh, flavor⟩ := headerOf_append hne
      rw [List.append_assoc] at hnew
      exact congrArg (fun h => Function.update m.lists l (some h)) hnew.symm
    · exact setItem_self
    · exact (setItem_of_ne hold.symm).trans allocated_self
    · intro p hp hp'
      exact (setItem_of_ne hp).trans (allocated_of_ne hp')

/-- `cil_list_prepend` puts the data first. -/
theorem cilListPrepend_ok (h : Refines m A) (hl : A.lists l = some (flavor, xs)) (data : Data φ δ) :
    ∃ m', cilListPrepend (some l) data m = some (.ok () m') ∧
      Refines m' (A.put l flavor ((A.fresh, data) :: xs) (A.fresh + 1)) := by
  have hheader : (m.allocated A.fresh data).lists l = some (headerOf flavor xs) := h.header hl
  rw [cilListPrepend, listOf_bind, itemInit_bind h, readList_bind hheader]
  cases htail : (headerOf flavor xs).tail with
  | none =>
    have hnil : xs = [] := by simpa [headerOf, lastOf] using htail
    subst hnil
    exact ⟨_, rfl, h.insertedFirst hl rfl allocated_self (fun p hp => allocated_of_ne hp) rfl rfl⟩
  | some t =>
    have hne : xs ≠ [] := by
      rintro rfl
      cases htail
    dsimp only
    rw [setNext_bind allocated_self]
    refine ⟨_, rfl, h.insertedFirst hl ?_ setItem_self ?_ rfl rfl⟩
    · have hlast : lastOf xs = some t := htail
      rw [headerOf_cons hne, hlast]
      rfl
    · intro p hp
      exact (setItem_of_ne hp).trans (allocated_of_ne hp)

private theorem insertAfter_append (hnot : e.1 ∉ before.map Prod.fst) (new : Entry φ δ) :
    insertAfter e.1 new (before ++ e :: after) = before ++ e :: new :: after := by
  induction before with
  | nil => rw [List.nil_append, insertAfter, if_pos rfl, List.nil_append]
  | cons x xs ih =>
    rw [List.map_cons, List.mem_cons, not_or] at hnot
    rw [List.cons_append, insertAfter, if_neg (Ne.symm hnot.1), ih hnot.2, List.cons_append]

/-- `cil_list_insert` puts the data behind the item it is given. -/
theorem cilListInsert_ok (h : Refines m A) (hl : A.lists l = some (flavor, xs)) {c : Nat}
    (hc : c ∈ xs.map Prod.fst) (data : Data φ δ) :
    ∃ r m', cilListInsert (some l) (some c) data m = some (.ok r m') ∧
      Refines m' (A.put l flavor (insertAfter c (A.fresh, data) xs) (A.fresh + 1)) := by
  obtain ⟨e, he, rfl⟩ := List.mem_map.mp hc
  obtain ⟨before, after, rfl⟩ := List.append_of_mem he
  have hbefore : e.1 ∉ before.map Prod.fst := fun hin =>
    h.ne_middle hl (List.mem_append_left _ hin) rfl
  rw [insertAfter_append hbefore, cilListInsert, listOf_bind]
  dsimp only
  rw [readList_bind (h.header hl)]
  rcases List.eq_nil_or_concat after with rfl | ⟨inner, z, hafter⟩
  · have htail : (headerOf flavor (before ++ [e])).tail = some e.1 := lastOf_append_singleton
    obtain ⟨m', hrun, hrefines⟩ := cilListAppend_ok h hl data
    have hlist : (A.put l flavor (before ++ [e] ++ [(A.fresh, data)]) (A.fresh + 1)).lists l =
        some (flavor, before ++ [e] ++ [(A.fresh, data)]) := put_lists_self
    rw [if_pos htail, Call.bind_of_ok hrun, readList_bind (hrefines.header hlist)]
    rw [List.append_assoc] at hrefines
    exact ⟨_, m', rfl, hrefines⟩
  · rw [List.concat_eq_append] at hafter
    subst hafter
    have htail : (headerOf flavor (before ++ e :: (inner ++ [z]))).tail = some z.1 := by
      change lastOf _ = _
      rw [lastOf_append_cons, ← List.cons_append, lastOf_append_singleton]
    have hother : some z.1 ≠ some e.1 := fun heq =>
      h.ne_middle hl (p := z.1) (by simp) (Option.some.inj heq)
    have hne : e.1 ≠ A.fresh := h.ne_fresh hl hc
    have hlinked := h.linked l flavor _ hl
    rw [chained_append] at hlinked
    have hitem : (m.allocated A.fresh data).items e.1 =
        some ⟨e.2, firstOf (inner ++ [z]) none⟩ := (allocated_of_ne hne).trans hlinked.2.1
    rw [htail, if_neg hother, itemInit_bind h, readItem_bind hitem, setNext_bind allocated_self,
      setNext_bind ((setItem_of_ne hne).trans hitem)]
    refine ⟨_, _, rfl, h.insertedBehind hl ?_ ?_ ?_ ?_ rfl rfl⟩
    · rw [setItem_lists, setItem_lists, allocated_lists]
      refine (Function.update_eq_self_iff.mpr ?_).symm
      have hlast : lastOf (e :: (A.fresh, data) :: (inner ++ [z])) =
          lastOf (e :: (inner ++ [z])) := by
        simp [lastOf, List.getLast?_cons]
      rw [h.header hl, headerOf_middle, headerOf_middle, hlast]
    · exact setItem_self
    · exact (setItem_of_ne hne.symm).trans setItem_self
    · intro p hp hp'
      exact (setItem_of_ne hp).trans ((setItem_of_ne hp').trans (allocated_of_ne hp'))

end Insertion

section Removal

variable {m m' : Memory φ δ} {A : Lists φ δ} {l : Nat} {flavor : φ} {e : Entry φ δ}
  {xs before after : List (Entry φ δ)} {data : Data φ δ}

private theorem put_self (hl : A.lists l = some (flavor, xs)) : A.put l flavor xs A.fresh = A := by
  rw [Lists.put, Function.update_eq_self_iff.mpr hl.symm]

/-- An item leaves a list: the one before it is linked to what is behind it, and it is freed. -/
theorem Refines.removed (h : Refines m A) (hl : A.lists l = some (flavor, before ++ e :: after))
    (hlists : m'.lists = Function.update m.lists l (some (headerOf flavor (before ++ after))))
    (hbefore : Chained m'.items before (firstOf after none)) (hgone : m'.items e.1 = none)
    (hframe : ∀ p, p ≠ e.1 → lastOf before ≠ some p → m'.items p = m.items p)
    (hfresh : m'.fresh = m.fresh) (hdestroyed : m'.destroyed = m.destroyed) :
    Refines m' (A.put l flavor (before ++ after) A.fresh) := by
  have hlinked := h.linked l flavor _ hl
  have honce := h.once l flavor _ hl
  rw [chained_append] at hlinked
  rw [List.map_append, List.map_cons] at honce
  have hrest := (List.nodup_cons.mp (List.nodup_middle.mp honce)).2
  rw [← List.map_append] at hrest
  have hmem : ∀ p, p ∈ (before ++ e :: after).map Prod.fst ↔
      p = e.1 ∨ p ∈ (before ++ after).map Prod.fst := by
    intro p
    simp only [List.map_append, List.map_cons, List.mem_append, List.mem_cons]
    tauto
  have hlastIn : ∀ p, lastOf before = some p → p ∈ (before ++ after).map Prod.fst := by
    intro p hp
    rw [List.map_append]
    exact List.mem_append_left _ (lastOf_mem hp)
  have haddresses := addresses_of hl
  refine h.put hlists ?_ hrest ?_ ?_ ?_ (h.list_lt_fresh hl) (Nat.le_refl _)
    (hfresh.trans h.fresh) hdestroyed
  · rw [chained_append]
    refine ⟨hbefore, hlinked.2.2.congr fun p hp => hframe p ?_ fun heq => ?_⟩
    · exact h.ne_middle hl (List.mem_append_right _ hp)
    · rw [List.map_append, List.nodup_append] at hrest
      exact hrest.2.2 p (lastOf_mem heq) p hp rfl
  · intro p hp
    rw [haddresses]
    exact Or.inl ((hmem p).mpr (Or.inr hp))
  · intro p hp hp'
    rw [haddresses] at hp
    refine hframe p (fun heq => hp ((hmem p).mpr (Or.inl heq))) fun heq => ?_
    exact hp' (hlastIn p heq)
  · intro p hp hp'
    rw [haddresses] at hp
    rcases (hmem p).mp hp with rfl | hp
    · exact hgone
    · exact (hp' hp).elim

/-- The item before is linked to what is behind. -/
private theorem setBefore_ok (h : Refines m A)
    (hl : A.lists l = some (flavor, before ++ e :: after)) :
    ∃ m', setBefore l (lastOf before) (firstOf after none) m = some (.ok () m') ∧
      m'.lists = Function.update m.lists l
        (some ⟨firstOf (before ++ after) none, lastOf (before ++ e :: after), flavor⟩) ∧
      Chained m'.items before (firstOf after none) ∧
      (∀ p, lastOf before ≠ some p → m'.items p = m.items p) ∧
      m'.fresh = m.fresh ∧ m'.destroyed = m.destroyed := by
  have hheader := h.header hl
  rcases List.eq_nil_or_concat before with rfl | ⟨inner, q, hbefore⟩
  · exact ⟨_, readList_bind hheader _, rfl, trivial, fun _ _ => rfl, rfl, rfl⟩
  · rw [List.concat_eq_append] at hbefore
    subst hbefore
    have hlinked := h.linked l flavor _ hl
    have honce := h.once l flavor _ hl
    rw [chained_append, chained_append, chained_singleton] at hlinked
    obtain ⟨⟨hinner, hitem⟩, -⟩ := hlinked
    rw [lastOf_append_singleton]
    refine ⟨_, readItem_bind hitem _, ?_, ?_, ?_, rfl, rfl⟩
    · refine (Function.update_eq_self_iff.mpr ?_).symm
      refine Eq.trans ?_ hheader.symm
      rw [headerOf, firstOf_append, firstOf_append, firstOf_append, firstOf_append]
      rfl
    · rw [chained_append, chained_singleton]
      refine ⟨hinner.congr fun p hp => setItem_of_ne ?_, setItem_self⟩
      rintro rfl
      rw [List.append_assoc, List.map_append, List.nodup_append] at honce
      exact honce.2.2 q.1 hp q.1 (by simp) rfl
    · intro p hp
      exact setItem_of_ne fun heq => hp (congrArg some heq.symm)

/-- The header is right again. -/
private theorem setTail_ok (hheader : m.lists l =
      some ⟨firstOf (before ++ after) none, lastOf (before ++ e :: after), flavor⟩) :
    ∃ m', setTail l (lastOf before) (firstOf after none) m = some (.ok () m') ∧
      m'.lists = Function.update m.lists l (some (headerOf flavor (before ++ after))) ∧
      m'.items = m.items ∧ m'.fresh = m.fresh ∧ m'.destroyed = m.destroyed := by
  cases after with
  | nil =>
    refine ⟨_, readList_bind hheader _, ?_, rfl, rfl, rfl⟩
    rw [List.append_nil]
    rfl
  | cons x after =>
    refine ⟨m, rfl, (Function.update_eq_self_iff.mpr ?_).symm, rfl, rfl, rfl⟩
    rw [hheader, headerOf, lastOf_append_cons, lastOf_append_cons, lastOf_cons_cons]

/-- The item is taken out and freed. -/
private theorem unlink_ok (h : Refines m A) (hl : A.lists l = some (flavor, before ++ e :: after)) :
    ∃ m', (setBefore l (lastOf before) (firstOf after none) >>= fun _ =>
        setTail l (lastOf before) (firstOf after none) >>= fun _ => freeItem e.1) m =
          some (.ok () m') ∧ Refines m' (A.put l flavor (before ++ after) A.fresh) := by
  have hlinked := h.linked l flavor _ hl
  rw [chained_append] at hlinked
  have hitem := hlinked.2.1
  obtain ⟨m₁, hrun₁, hlists₁, hlinked₁, hframe₁, hfresh₁, hdestroyed₁⟩ := setBefore_ok h hl
  have hheader₁ := congrFun hlists₁ l
  rw [Function.update_self] at hheader₁
  obtain ⟨m₂, hrun₂, hlists₂, hitems₂, hfresh₂, hdestroyed₂⟩ := setTail_ok hheader₁
  have hnot : lastOf before ≠ some e.1 := fun heq =>
    h.ne_middle hl (List.mem_append_left _ (lastOf_mem heq)) rfl
  have hthere : m₂.items e.1 = some ⟨e.2, firstOf after none⟩ := by
    rw [hitems₂, hframe₁ e.1 hnot, hitem]
  rw [Call.bind_of_ok hrun₁, Call.bind_of_ok hrun₂, freeItem_run hthere]
  refine ⟨_, rfl, h.removed hl ?_ ?_ setItem_self ?_
    (hfresh₂.trans hfresh₁) (hdestroyed₂.trans hdestroyed₁)⟩
  · rw [setItem_lists, hlists₂, hlists₁, Function.update_idem]
  · refine hlinked₁.congr fun p hp => (setItem_of_ne ?_).trans (congrFun hitems₂ p)
    exact h.ne_middle hl (List.mem_append_left _ hp)
  · intro p hp hp'
    rw [setItem_of_ne hp, hitems₂, hframe₁ p hp']

variable [DecidableEq φ] [DecidableEq δ]

/-- The loop of `cil_list_remove` ends at the first entry with the data, or at the end. -/
private theorem removeLoop_ok (h : Refines m A) (hl : A.lists l = some (flavor, before ++ after))
    (fuel : Nat) (hfuel : after.length < fuel) :
    ∃ m', removeLoop l data fuel (lastOf before) (firstOf after none) m = some (.ok () m') ∧
      Refines m'
        (A.put l flavor (before ++ after.eraseP fun e => decide (e.2 = data)) A.fresh) := by
  induction after generalizing before fuel with
  | nil =>
    obtain ⟨fuel, rfl⟩ := Nat.exists_eq_add_of_lt hfuel
    refine ⟨m, rfl, ?_⟩
    rw [List.eraseP_nil, put_self hl]
    exact h
  | cons e after ih =>
    cases fuel with
    | zero => cases hfuel
    | succ fuel =>
      have hlinked := h.linked l flavor _ hl
      rw [chained_append] at hlinked
      have hitem := hlinked.2.1
      rw [firstOf, removeLoop, readItem_bind hitem]
      by_cases hdata : e.2 = data
      · obtain ⟨m', hrun, hrefines⟩ := unlink_ok h hl
        rw [if_pos hdata, List.eraseP_cons_of_pos (by simpa using hdata)]
        exact ⟨m', hrun, hrefines⟩
      · have hsplit : before ++ e :: after = before ++ [e] ++ after := by simp
        rw [hsplit] at hl
        obtain ⟨m', hrun, hrefines⟩ := ih hl fuel (by simpa using hfuel)
        rw [lastOf_append_singleton] at hrun
        rw [if_neg hdata, List.eraseP_cons_of_neg (by simpa using hdata)]
        refine ⟨m', hrun, ?_⟩
        rw [List.append_assoc] at hrefines
        exact hrefines

/-- `cil_list_remove` takes the first entry with the data out of a list. -/
theorem cilListRemove_ok (h : Refines m A) (hl : A.lists l = some (flavor, xs))
    (data : Data φ δ) (fuel : Nat) (hfuel : xs.length < fuel) :
    ∃ m', cilListRemove fuel (some l) data m = some (.ok () m') ∧
      Refines m' (A.put l flavor (xs.eraseP fun e => decide (e.2 = data)) A.fresh) := by
  rw [cilListRemove, listOf_bind, readList_bind (h.header hl)]
  have hstart : A.lists l = some (flavor, [] ++ xs) := hl
  exact removeLoop_ok h hstart fuel hfuel

end Removal

end Cil.CilList
