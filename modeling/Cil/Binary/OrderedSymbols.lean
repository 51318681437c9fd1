/- Cil/Binary/OrderedSymbols
   digest: Symbol tables whose primary symbols are numbered in an order that is known. -/

import Cil.Binary.ValArrays

set_option autoImplicit false
set_option relaxedAutoImplicit false

namespace Cil.Binary.OrderedSymbols

open ValArrays (SymtabLib Symbol search)

variable {T : Type} {L : SymtabLib T}

private theorem lookup_of_mem {es : List (String × Symbol)} (hnodup : (es.map Prod.fst).Nodup)
    {key : String} {sym : Symbol} (h : (key, sym) ∈ es) : es.lookup key = some sym := by
  induction es with
  | nil => cases h
  | cons e es ih =>
      obtain ⟨hfresh, hrest⟩ := List.nodup_cons.mp hnodup
      rcases List.mem_cons.mp h with heq | h
      · subst heq
        exact List.lookup_cons_self
      · have hne : key ≠ e.1 := by
          intro heq
          rw [← heq] at hfresh
          exact hfresh (List.mem_map_of_mem h)
        have hkey : (key == e.1) = false := beq_eq_false_iff_ne.mpr hne
        rw [show e = (e.1, e.2) from rfl, List.lookup_cons, hkey]
        exact ih hrest h

theorem search_of_mem {t : T} {key : String} {sym : Symbol} (h : (key, sym) ∈ L.entries t) :
    search L t key = some sym :=
  lookup_of_mem (L.keys_nodup t) h

theorem search_isSome_iff {t : T} {key : String} :
    (search L t key).isSome ↔ key ∈ (L.entries t).map Prod.fst := by
  unfold search
  generalize L.entries t = es
  induction es with
  | nil => simp
  | cons e es ih =>
      rw [List.map_cons, List.mem_cons, List.lookup_cons, ← ih]
      cases hkey : key == e.1 with
      | true => simp [beq_iff_eq.mp hkey]
      | false => simp [beq_eq_false_iff_ne.mp hkey]

theorem search_insert_isSome_iff {t t' : T} {key key' : String}
    (hinsert : L.insert t key = some t') :
    (search L t' key').isSome ↔ key' = key ∨ (search L t key').isSome := by
  have hperm := (L.entries_insert t key t' hinsert).1.map Prod.fst
  rw [search_isSome_iff, search_isSome_iff, hperm.mem_iff, List.map_cons, List.mem_cons]

variable (L) in
/-- The names are primary symbols, numbered in their order. -/
structure HasNames (t : T) (names : List String) : Prop where
  nprim : L.nprim t = names.length
  entry : ∀ i name, names[i]? = some name → (name, ⟨i + 1, false⟩) ∈ L.entries t

variable (L) in
/-- There are no other symbols. -/
def OnlyNames (t : T) (names : List String) : Prop :=
  ∀ e ∈ L.entries t, ∃ i : Nat, names[i]? = some e.1 ∧ e.2 = ⟨i + 1, false⟩

theorem hasNames_empty : HasNames L L.empty [] where
  nprim := L.nprim_empty
  entry i name h := by
    rw [List.getElem?_nil] at h
    cases h

theorem onlyNames_empty : OnlyNames L L.empty [] := by
  intro e he
  rw [L.entries_empty] at he
  cases he

theorem HasNames.insert {t t' : T} {names : List String} {key : String} (h : HasNames L t names)
    (hinsert : L.insert t key = some t') : HasNames L t' (names ++ [key]) where
  nprim := by
    rw [(L.entries_insert t key t' hinsert).2, h.nprim, List.length_append, List.length_singleton]
  entry i name hname := by
    have hperm := (L.entries_insert t key t' hinsert).1
    rw [hperm.mem_iff]
    by_cases hi : i < names.length
    · rw [List.getElem?_append_left hi] at hname
      exact List.mem_cons_of_mem _ (h.entry i name hname)
    · have hlast := (List.getElem?_eq_some_iff.mp hname).1
      rw [List.length_append, List.length_singleton] at hlast
      have heq : i = names.length := by omega
      rw [heq, List.getElem?_append_right (Nat.le_refl _), Nat.sub_self] at hname
      obtain rfl := Option.some.inj hname
      rw [heq, h.nprim]
      exact List.mem_cons_self

/-- A name is inserted once. -/
theorem HasNames.fresh {t t' : T} {names : List String} {key : String} (h : HasNames L t names)
    (hinsert : L.insert t key = some t') : key ∉ names := by
  intro hmem
  obtain ⟨i, hi⟩ := List.mem_iff_getElem?.mp hmem
  have hold := List.mem_map_of_mem (f := Prod.fst) (h.entry i key hi)
  have hperm := (L.entries_insert t key t' hinsert).1.map Prod.fst
  have hnodup := hperm.nodup_iff.mp (L.keys_nodup t')
  rw [List.map_cons, List.nodup_cons] at hnodup
  exact hnodup.1 hold

theorem OnlyNames.insert {t t' : T} {names : List String} {key : String}
    (hnames : HasNames L t names) (h : OnlyNames L t names)
    (hinsert : L.insert t key = some t') : OnlyNames L t' (names ++ [key]) := by
  intro e he
  have hperm := (L.entries_insert t key t' hinsert).1
  rcases List.mem_cons.mp (hperm.mem_iff.mp he) with heq | hold
  · refine ⟨names.length, ?_, ?_⟩
    · rw [List.getElem?_append_right (Nat.le_refl _), Nat.sub_self, heq]
      rfl
    · rw [heq, hnames.nprim]
  · obtain ⟨i, hi, hsym⟩ := h e hold
    have hlt := (List.getElem?_eq_some_iff.mp hi).1
    exact ⟨i, by rw [List.getElem?_append_left hlt, hi], hsym⟩

theorem HasNames.insertAlias {t t' : T} {names : List String} {key : String} {value : Nat}
    (h : HasNames L t names) (hinsert : L.insertAlias t key value = some t') :
    HasNames L t' names where
  nprim := (L.entries_insertAlias t key value t' hinsert).2.trans h.nprim
  entry i name hname := by
    have hperm := (L.entries_insertAlias t key value t' hinsert).1
    rw [hperm.mem_iff]
    exact List.mem_cons_of_mem _ (h.entry i name hname)

/-- A name is in one place only. -/
theorem HasNames.unique {t : T} {names : List String} (h : HasNames L t names) {i j : Nat}
    {name : String} (hi : names[i]? = some name) (hj : names[j]? = some name) : i = j := by
  have hfirst := search_of_mem (h.entry i name hi)
  have hsecond := search_of_mem (h.entry j name hj)
  rw [hfirst] at hsecond
  cases hsecond
  rfl

end Cil.Binary.OrderedSymbols
