/- Cil/Binary/ValArraysExact
   digest: When the arrays of names name the primary symbols. -/

import Cil.Binary.ValArrays

set_option autoImplicit false
set_option relaxedAutoImplicit false

namespace Cil.Binary.ValArrays

variable {T : Type} {L : SymtabLib T}

section Tables

variable (L) in
/-- The values of the primary symbols are the numbers up to `nprim`, and all values are among
them. -/
structure Numbered (t : T) : Prop where
  bound : ∀ e ∈ L.entries t, 1 ≤ e.2.value ∧ e.2.value ≤ L.nprim t
  onto : ∀ v, 1 ≤ v → v ≤ L.nprim t → ∃ key, (key, ⟨v, false⟩) ∈ L.entries t
  unique : ∀ key key' v, (key, ⟨v, false⟩) ∈ L.entries t → (key', ⟨v, false⟩) ∈ L.entries t →
    key = key'

variable (L) in
def HasAlias (t : T) : Prop := ∃ e ∈ L.entries t, e.2.isAlias = true

private theorem numbered_empty : Numbered L L.empty where
  bound e he := by
    rw [L.entries_empty] at he
    cases he
  onto v hlo hhi := by
    rw [L.nprim_empty] at hhi
    omega
  unique key key' v hkey _ := by
    rw [L.entries_empty] at hkey
    cases hkey

private theorem numbered_objectR : Numbered L L.objectR where
  bound e he := by
    rw [L.entries_objectR, List.mem_singleton] at he
    rw [he, L.nprim_objectR]
    exact ⟨Nat.le_refl 1, Nat.le_refl 1⟩
  onto v hlo hhi := by
    rw [L.nprim_objectR] at hhi
    have hone : v = 1 := by omega
    refine ⟨"object_r", ?_⟩
    rw [hone, L.entries_objectR]
    exact List.mem_singleton_self _
  unique key key' v hkey hkey' := by
    rw [L.entries_objectR, List.mem_singleton] at hkey hkey'
    have hfst := congrArg Prod.fst hkey
    have hfst' := congrArg Prod.fst hkey'
    exact hfst.trans hfst'.symm

theorem Numbered.insert {t t' : T} {key : String} (h : Numbered L t)
    (hinsert : L.insert t key = some t') : Numbered L t' := by
  obtain ⟨hperm, hnprim⟩ := L.entries_insert t key t' hinsert
  constructor
  · intro e he
    rw [hperm.mem_iff, List.mem_cons] at he
    rw [hnprim]
    rcases he with heq | he
    · rw [heq]
      exact ⟨Nat.le_add_left 1 _, Nat.le_refl _⟩
    · have hbound := h.bound e he
      omega
  · intro v hlo hhi
    rw [hnprim] at hhi
    by_cases hlast : v = L.nprim t + 1
    · refine ⟨key, ?_⟩
      rw [hperm.mem_iff, hlast]
      exact List.mem_cons_self
    · obtain ⟨key', hkey'⟩ := h.onto v hlo (by omega)
      refine ⟨key', ?_⟩
      rw [hperm.mem_iff]
      exact List.mem_cons_of_mem _ hkey'
  · intro k k' v hk hk'
    have hnew : ∀ k, (k, ⟨v, false⟩) ∈ L.entries t' → k = key ∧ v = L.nprim t + 1 ∨
        (k, ⟨v, false⟩) ∈ L.entries t := by
      intro k hk
      rw [hperm.mem_iff, List.mem_cons] at hk
      refine hk.imp (fun heq => ?_) id
      cases heq
      exact ⟨rfl, rfl⟩
    have hold : ∀ k, (k, ⟨v, false⟩) ∈ L.entries t → v ≤ L.nprim t :=
      fun k hk => (h.bound _ hk).2
    rcases hnew k hk with ⟨hkey, hv⟩ | hmem
    · rcases hnew k' hk' with ⟨hkey', -⟩ | hmem'
      · rw [hkey, hkey']
      · have hle := hold k' hmem'
        omega
    · rcases hnew k' hk' with ⟨-, hv⟩ | hmem'
      · have hle := hold k hmem
        omega
      · exact h.unique k k' v hmem hmem'

theorem Numbered.insertAlias {t t' : T} {key : String} {e : String × Symbol} (h : Numbered L t)
    (he : e ∈ L.entries t) (hinsert : L.insertAlias t key e.2.value = some t') :
    Numbered L t' := by
  obtain ⟨hperm, hnprim⟩ := L.entries_insertAlias t key e.2.value t' hinsert
  have hprimary : ∀ k v, (k, ⟨v, false⟩) ∈ L.entries t' ↔ (k, ⟨v, false⟩) ∈ L.entries t := by
    intro k v
    rw [hperm.mem_iff, List.mem_cons, or_iff_right]
    intro heq
    cases heq
  constructor
  · intro e' he'
    rw [hperm.mem_iff, List.mem_cons] at he'
    rw [hnprim]
    rcases he' with heq | he'
    · rw [heq]
      exact h.bound e he
    · exact h.bound e' he'
  · intro v hlo hhi
    rw [hnprim] at hhi
    obtain ⟨key', hkey'⟩ := h.onto v hlo hhi
    exact ⟨key', (hprimary key' v).mpr hkey'⟩
  · intro k k' v hk hk'
    exact h.unique k k' v ((hprimary k v).mp hk) ((hprimary k' v).mp hk')

private theorem hasAlias_insert {t t' : T} {key : String} (hinsert : L.insert t key = some t') :
    HasAlias L t' ↔ HasAlias L t := by
  obtain ⟨hperm, -⟩ := L.entries_insert t key t' hinsert
  unfold HasAlias
  simp only [hperm.mem_iff, List.mem_cons, exists_eq_or_imp, Bool.false_eq_true, false_or]

private theorem hasAlias_insertAlias {t t' : T} {key : String} {value : Nat}
    (hinsert : L.insertAlias t key value = some t') : HasAlias L t' := by
  obtain ⟨hperm, -⟩ := L.entries_insertAlias t key value t' hinsert
  refine ⟨(key, ⟨value, true⟩), ?_, rfl⟩
  rw [hperm.mem_iff]
  exact List.mem_cons_self

end Tables

section Pass

variable {ω : Type}

variable (L) in
/-- The tables are numbered, and only that of the categories can have aliases. -/
structure Tables (pdb : Pdb T) (aliased : Prop) : Prop where
  numbered : ∀ sym, Numbered L (pdb sym)
  primary : ∀ sym, sym ≠ .cats → ¬ HasAlias L (pdb sym)
  cats : HasAlias L (pdb .cats) ↔ aliased

private theorem tables_init : Tables L (Pdb.init L) False := by
  have hnone : ∀ sym, ¬ HasAlias L (Pdb.init L sym) := by
    intro sym h
    obtain ⟨e, he, halias⟩ := h
    by_cases hsym : sym = .roles
    · rw [hsym, Pdb.init, Function.update_self, L.entries_objectR, List.mem_singleton] at he
      rw [he] at halias
      cases halias
    · rw [Pdb.init, Function.update_of_ne hsym, L.entries_empty] at he
      cases he
  constructor
  · intro sym
    by_cases hsym : sym = .roles
    · rw [hsym, Pdb.init, Function.update_self]
      exact numbered_objectR
    · rw [Pdb.init, Function.update_of_ne hsym]
      exact numbered_empty
  · exact fun sym _ => hnone sym
  · exact iff_of_false (hnone .cats) id

theorem Tables.symtabInsert {pdb pdb' : Pdb T} {aliased : Prop} {sym : Sym} {key : String}
    (h : Tables L pdb aliased) (hinsert : symtabInsert L pdb sym key = some pdb') :
    Tables L pdb' aliased := by
  obtain ⟨t, ht, heq⟩ := Option.map_eq_some_iff.mp hinsert
  rw [← heq]
  have halias : ∀ s, HasAlias L (Function.update pdb sym t s) ↔ HasAlias L (pdb s) := by
    intro s
    by_cases hs : s = sym
    · rw [hs, Function.update_self]
      exact hasAlias_insert ht
    · rw [Function.update_of_ne hs]
  constructor
  · intro s
    by_cases hs : s = sym
    · rw [hs, Function.update_self]
      exact (h.numbered sym).insert ht
    · rw [Function.update_of_ne hs]
      exact h.numbered s
  · intro s hs
    rw [halias]
    exact h.primary s hs
  · rw [halias]
    exact h.cats

theorem Tables.cataliasToPolicydb {pdb pdb' : Pdb T} {aliased : Prop} {fqn actual : String}
    (h : Tables L pdb aliased) (hinsert : cataliasToPolicydb L pdb fqn actual = some pdb') :
    Tables L pdb' True := by
  unfold ValArrays.cataliasToPolicydb at hinsert
  cases hsearch : search L (pdb .cats) actual with
  | none =>
      rw [hsearch] at hinsert
      cases hinsert
  | some cat =>
      rw [hsearch] at hinsert
      obtain ⟨t, ht, heq⟩ := Option.map_eq_some_iff.mp hinsert
      have hmem : (actual, cat) ∈ L.entries (pdb .cats) := by
        obtain ⟨front, back, hsplit, -⟩ := List.lookup_eq_some_iff.mp hsearch
        rw [hsplit]
        exact List.mem_append_right _ List.mem_cons_self
      rw [← heq]
      constructor
      · intro s
        by_cases hs : s = .cats
        · rw [hs, Function.update_self]
          exact (h.numbered .cats).insertAlias hmem ht
        · rw [Function.update_of_ne hs]
          exact h.numbered s
      · intro s hs
        rw [Function.update_of_ne hs]
        exact h.primary s hs
      · rw [Function.update_self]
        exact iff_of_true (hasAlias_insertAlias ht) trivial

theorem Tables.insertAll {sym : Sym} {keys : List String} {pdb pdb' : Pdb T} {aliased : Prop}
    (h : Tables L pdb aliased) (hinsert : insertAll L sym pdb keys = some pdb') :
    Tables L pdb' aliased := by
  induction keys generalizing pdb with
  | nil =>
      cases hinsert
      exact h
  | cons key rest ih =>
      rw [ValArrays.insertAll] at hinsert
      cases hfirst : ValArrays.symtabInsert L pdb sym key with
      | none =>
          rw [hfirst] at hinsert
          cases hinsert
      | some pdb₁ =>
          rw [hfirst] at hinsert
          exact ih (h.symtabInsert hfirst) hinsert

theorem Tables.classorder {classes : List (String × Option String)} {pdb pdb' : Pdb T}
    {aliased : Prop} (h : Tables L pdb aliased)
    (hinsert : classorderToPolicydb L pdb classes = some pdb') : Tables L pdb' aliased := by
  induction classes generalizing pdb with
  | nil =>
      cases hinsert
      exact h
  | cons kernelClass rest ih =>
      obtain ⟨fqn, common⟩ := kernelClass
      rw [classorderToPolicydb] at hinsert
      cases hclass : ValArrays.symtabInsert L pdb .classes fqn with
      | none =>
          rw [hclass] at hinsert
          cases hinsert
      | some pdb₁ =>
          rw [hclass] at hinsert
          have h₁ := h.symtabInsert hclass
          cases common with
          | none => exact ih h₁ hinsert
          | some common =>
              cases hsearch : search L (pdb₁ .commons) common with
              | some found =>
                  simp only [hsearch] at hinsert
                  exact ih h₁ hinsert
              | none =>
                  simp only [hsearch] at hinsert
                  cases hcommon : ValArrays.symtabInsert L pdb₁ .commons common with
                  | none =>
                      rw [hcommon] at hinsert
                      cases hinsert
                  | some pdb₂ =>
                      rw [hcommon] at hinsert
                      exact ih (h₁.symtabInsert hcommon) hinsert

private theorem tables_policydbInit {db : Database ω} {pdb : Pdb T}
    (hinit : policydbInit L db = some pdb) : Tables L pdb False := by
  obtain ⟨pdb₁, hclasses, hinit⟩ := Option.bind_eq_some_iff.mp hinit
  have h₁ := tables_init.classorder hclasses
  cases hmls : db.mls with
  | false =>
      rw [hmls] at hinit
      cases hinit
      exact h₁
  | true =>
      rw [hmls] at hinit
      obtain ⟨pdb₂, hcats, hlevels⟩ := Option.bind_eq_some_iff.mp hinit
      exact (h₁.insertAll hcats).insertAll hlevels

/-- The node inserts a category alias. -/
def Node.aliases (mls : Bool) (node : Node ω) : Bool :=
  mls && node.first && match node.data with
    | .catalias _ _ => true
    | _ => false

theorem Tables.node {others : ω → Bool} {mls : Bool} {node : Node ω} {pdb pdb' : Pdb T}
    {aliased : Prop} (h : Tables L pdb aliased)
    (hnode : nodeToPolicydb L others mls pdb node = some pdb') :
    Tables L pdb' (aliased ∨ node.aliases mls = true) := by
  obtain ⟨first, data⟩ := node
  have hkeep : ∀ pdb', Tables L pdb' aliased → Node.aliases mls ⟨first, data⟩ = false →
      Tables L pdb' (aliased ∨ Node.aliases mls ⟨first, data⟩ = true) := by
    intro pdb' h' hnone
    have hsame : (aliased ∨ Node.aliases mls ⟨first, data⟩ = true) = aliased := by
      rw [hnone]
      simp
    rw [hsame]
    exact h'
  cases first with
  | false =>
      cases hnode
      exact hkeep pdb h (by simp [Node.aliases])
  | true =>
      rw [nodeToPolicydb, if_pos rfl] at hnode
      cases data with
      | role fqn =>
          refine hkeep pdb' ?_ (by simp [Node.aliases])
          by_cases hobject : fqn = "object_r"
          · simp only [roleToPolicydb, if_pos hobject] at hnode
            cases hnode
            exact h
          · simp only [roleToPolicydb, if_neg hobject] at hnode
            exact h.symtabInsert hnode
      | type fqn => exact hkeep pdb' (h.symtabInsert hnode) (by simp [Node.aliases])
      | typeattribute fqn used =>
          refine hkeep pdb' ?_ (by simp [Node.aliases])
          cases used with
          | false =>
              cases hnode
              exact h
          | true => exact h.symtabInsert hnode
      | user fqn => exact hkeep pdb' (h.symtabInsert hnode) (by simp [Node.aliases])
      | bool fqn => exact hkeep pdb' (h.symtabInsert hnode) (by simp [Node.aliases])
      | catalias fqn actual =>
          cases mls with
          | false =>
              cases hnode
              exact hkeep pdb h (by simp [Node.aliases])
          | true =>
              have halias : Node.aliases true (⟨true, .catalias fqn actual⟩ : Node ω) = true := rfl
              rw [eq_true (Or.inr halias : aliased ∨ _)]
              exact h.cataliasToPolicydb hnode
      | other data =>
          refine hkeep pdb' ?_ (by simp [Node.aliases])
          cases hothers : others data with
          | false => simp [hothers] at hnode
          | true =>
              simp only [hothers, if_true, Option.some.injEq] at hnode
              rw [← hnode]
              exact h

theorem Tables.firstPass {others : ω → Bool} {mls : Bool} {nodes : List (Node ω)}
    {pdb pdb' : Pdb T} {aliased : Prop} (h : Tables L pdb aliased)
    (hpass : firstPass L others mls pdb nodes = some pdb') :
    Tables L pdb' (aliased ∨ ∃ node ∈ nodes, node.aliases mls = true) := by
  induction nodes generalizing pdb aliased with
  | nil =>
      cases hpass
      simpa using h
  | cons node rest ih =>
      rw [ValArrays.firstPass] at hpass
      cases hnode : nodeToPolicydb L others mls pdb node with
      | none =>
          rw [hnode] at hpass
          cases hpass
      | some pdb₁ =>
          rw [hnode] at hpass
          have hrest := ih (h.node hnode) hpass
          rw [or_assoc] at hrest
          simpa using hrest

/-- After the first pass the tables are numbered, and the categories have aliases if the tree
has. -/
theorem tables_createSymbols {others : ω → Bool} {db : Database ω} {pdb : Pdb T}
    (hcreate : createSymbols L others db = some pdb) :
    Tables L pdb (∃ node ∈ db.nodes, node.aliases db.mls = true) := by
  unfold createSymbols at hcreate
  cases hinit : policydbInit L db with
  | none =>
      rw [hinit] at hcreate
      cases hcreate
  | some pdb₁ =>
      rw [hinit] at hcreate
      have hpass := (tables_policydbInit hinit).firstPass hcreate
      simpa using hpass

end Pass

section Arrays

/-- Of several symbols with one value the last one that is visited is named. -/
private theorem valArrayCreate_last {nprim : Nat} (order : List (String × Symbol))
    (hbound : ∀ e ∈ order, 1 ≤ e.2.value ∧ e.2.value ≤ nprim) :
    ∃ names, valArrayCreate nprim order = some names ∧ names.length = nprim ∧
      ∀ v, 1 ≤ v → v ≤ nprim →
        names[v - 1]? = some ((order.reverse.find? fun e => e.2.value = v).map Prod.fst) := by
  induction order using List.reverseRec with
  | nil =>
      refine ⟨List.replicate nprim none, rfl, List.length_replicate, fun v hlo hhi => ?_⟩
      rw [List.getElem?_replicate, if_pos (by omega)]
      rfl
  | append_singleton order e ih =>
      obtain ⟨names, hcreate, hlength, hnames⟩ :=
        ih fun e he => hbound e (List.mem_append_left _ he)
      obtain ⟨hlo, hhi⟩ := hbound e (List.mem_append_right _ (List.mem_singleton_self _))
      have hinsert : valArrayInsert nprim names e =
          some (names.set (e.2.value - 1) (some e.1)) := by
        rw [valArrayInsert, if_neg (by omega)]
      refine ⟨names.set (e.2.value - 1) (some e.1), ?_, ?_, fun v hvlo hvhi => ?_⟩
      · rw [valArrayCreate] at hcreate ⊢
        simp only [List.foldlM_append, hcreate, List.foldlM_cons, List.foldlM_nil, hinsert,
          Option.bind_eq_bind, Option.bind_some, Option.pure_def]
      · rw [List.length_set, hlength]
      · rw [List.reverse_append, List.reverse_singleton, List.singleton_append, List.find?_cons]
        by_cases hv : e.2.value = v
        · rw [hv, List.getElem?_set_self (by omega)]
          simp
        · rw [List.getElem?_set_ne (by omega), hnames v hvlo hvhi]
          simp [hv]

private theorem valArraysCreate_of {pdb : Pdb T} {order : Sym → List (String × Symbol)}
    {arrays : Sym → NameArray}
    (h : ∀ sym, valArrayCreate (L.nprim (pdb sym)) (order sym) = some (arrays sym)) :
    valArraysCreate L pdb order = some arrays := by
  simp only [valArraysCreate, h, Option.bind_eq_bind, Option.bind_some, Option.some.injEq]
  funext sym
  cases sym <;> rfl

private theorem of_valArraysCreate {pdb : Pdb T} {order : Sym → List (String × Symbol)}
    {arrays : Sym → NameArray} (h : valArraysCreate L pdb order = some arrays) (sym : Sym) :
    valArrayCreate (L.nprim (pdb sym)) (order sym) = some (arrays sym) := by
  simp only [valArraysCreate, Option.bind_eq_bind, Option.bind_eq_some_iff,
    Option.some.injEq] at h
  obtain ⟨commons, hcommons, classes, hclasses, roles, hroles, types, htypes, users, husers,
    bools, hbools, levels, hlevels, cats, hcats, heq⟩ := h
  rw [← heq]
  cases sym
  · exact hcommons
  · exact hclasses
  · exact hroles
  · exact htypes
  · exact husers
  · exact hbools
  · exact hlevels
  · exact hcats

private theorem valArrayCreate_perm {t : T} (h : Numbered L t) {order : List (String × Symbol)}
    (hperm : order.Perm (L.entries t)) :
    ∃ names, valArrayCreate (L.nprim t) order = some names ∧
      ∀ v, 1 ≤ v → v ≤ L.nprim t →
        names[v - 1]? = some ((order.reverse.find? fun e => e.2.value = v).map Prod.fst) := by
  obtain ⟨names, hcreate, -, hnames⟩ :=
    valArrayCreate_last order fun e he => h.bound e (hperm.mem_iff.mp he)
  exact ⟨names, hcreate, hnames⟩

private theorem namesPrimary_of_no_alias {t : T} (h : Numbered L t) (hnone : ¬ HasAlias L t)
    {order : List (String × Symbol)} (hperm : order.Perm (L.entries t)) {names : NameArray}
    (hnames : ∀ v, 1 ≤ v → v ≤ L.nprim t →
      names[v - 1]? = some ((order.reverse.find? fun e => e.2.value = v).map Prod.fst)) :
    NamesPrimary L t names := by
  intro v hlo hhi
  obtain ⟨key, hkey⟩ := h.onto v hlo hhi
  have hmem : (key, (⟨v, false⟩ : Symbol)) ∈ order.reverse :=
    List.mem_reverse.mpr (hperm.mem_iff.mpr hkey)
  cases hfind : order.reverse.find? fun e => e.2.value = v with
  | none =>
      have hno := List.find?_eq_none.mp hfind _ hmem
      simp at hno
  | some e =>
      have hvalue : e.2.value = v := by simpa using List.find?_some hfind
      have he : e ∈ L.entries t :=
        hperm.mem_iff.mp (List.mem_reverse.mp (List.mem_of_find?_eq_some hfind))
      have hprimary : e.2.isAlias = false := by
        cases halias : e.2.isAlias with
        | false => rfl
        | true => exact (hnone ⟨e, he, halias⟩).elim
      obtain ⟨name, value, isAlias⟩ := e
      cases hvalue
      cases hprimary
      refine ⟨name, ?_, he⟩
      rw [hnames _ hlo hhi, hfind]
      rfl

/-- When an alias is visited last, it is named in the place of what it stands for. -/
private theorem not_namesPrimary_of_alias {t : T} (h : Numbered L t) (halias : HasAlias L t) :
    ∃ order, order.Perm (L.entries t) ∧ ∀ names, valArrayCreate (L.nprim t) order = some names →
      ¬ NamesPrimary L t names := by
  obtain ⟨e, he, hisAlias⟩ := halias
  have hperm : ((L.entries t).erase e ++ [e]).Perm (L.entries t) :=
    List.perm_append_comm.trans (List.perm_cons_erase he).symm
  refine ⟨(L.entries t).erase e ++ [e], hperm, fun names hcreate hnames => ?_⟩
  obtain ⟨names', hcreate', hlast⟩ := valArrayCreate_perm h hperm
  rw [hcreate] at hcreate'
  cases hcreate'
  obtain ⟨hlo, hhi⟩ := h.bound e he
  obtain ⟨key, hkey, hmem⟩ := hnames e.2.value hlo hhi
  rw [hlast e.2.value hlo hhi, List.reverse_append, List.reverse_singleton,
    List.singleton_append, List.find?_cons_of_pos (by simp)] at hkey
  have hname : e.1 = key := Option.some.inj (Option.some.inj hkey)
  have hsame : e = (key, ⟨e.2.value, false⟩) :=
    List.inj_on_of_nodup_map (L.keys_nodup t) he hmem hname
  rw [hsame] at hisAlias
  cases hisAlias

/-- After the first pass, the arrays name the primary symbols in every order of visits if and
only if no category alias was inserted. -/
theorem arraysName_iff {ω : Type} {others : ω → Bool} {db : Database ω} {pdb : Pdb T}
    (hcreate : createSymbols L others db = some pdb) :
    ArraysName L pdb ↔ ∀ node ∈ db.nodes, node.aliases db.mls = false := by
  have htables := tables_createSymbols hcreate
  constructor
  · intro h node hnode
    by_contra hnot
    have halias : HasAlias L (pdb .cats) :=
      htables.cats.mpr ⟨node, hnode, by simpa using hnot⟩
    obtain ⟨order, hperm, hbad⟩ := not_namesPrimary_of_alias (htables.numbered .cats) halias
    have horder : ∀ sym, (Function.update (fun sym => L.entries (pdb sym)) .cats order sym).Perm
        (L.entries (pdb sym)) := by
      intro sym
      by_cases hsym : sym = .cats
      · rw [hsym, Function.update_self]
        exact hperm
      · rw [Function.update_of_ne hsym]
    obtain ⟨arrays, harrays, hnames⟩ := h _ horder
    have hcats := of_valArraysCreate harrays .cats
    rw [Function.update_self] at hcats
    exact hbad _ hcats (hnames .cats)
  · intro hnone order horder
    have halias : ∀ sym, ¬ HasAlias L (pdb sym) := by
      intro sym
      by_cases hsym : sym = .cats
      · rw [hsym, htables.cats]
        intro hex
        obtain ⟨node, hnode, haliases⟩ := hex
        rw [hnone node hnode] at haliases
        cases haliases
      · exact htables.primary sym hsym
    have hall : ∀ sym, ∃ names, valArrayCreate (L.nprim (pdb sym)) (order sym) = some names ∧
        NamesPrimary L (pdb sym) names := by
      intro sym
      obtain ⟨names, hcreates, hlast⟩ := valArrayCreate_perm (htables.numbered sym) (horder sym)
      exact ⟨names, hcreates,
        namesPrimary_of_no_alias (htables.numbered sym) (halias sym) (horder sym) hlast⟩
    choose arrays hcreates hnames using hall
    exact ⟨arrays, valArraysCreate_of hcreates, hnames⟩

end Arrays

section Instance

/-- Lists of entries as symbol tables. -/
abbrev Listed := {t : List (String × Symbol) × Nat // (t.1.map Prod.fst).Nodup}

def Listed.add (t : Listed) (key : String) (symbol : Symbol) (nprim : Nat) : Option Listed :=
  if h : key ∈ t.1.1.map Prod.fst then none
  else some ⟨((key, symbol) :: t.1.1, nprim), List.nodup_cons.mpr ⟨h, t.2⟩⟩

private theorem Listed.add_some {t t' : Listed} {key : String} {symbol : Symbol} {nprim : Nat}
    (h : t.add key symbol nprim = some t') : t'.1 = ((key, symbol) :: t.1.1, nprim) := by
  unfold Listed.add at h
  by_cases hkey : key ∈ t.1.1.map Prod.fst
  · rw [dif_pos hkey] at h
    cases h
  · rw [dif_neg hkey] at h
    cases h
    rfl

def listedLib : SymtabLib Listed where
  empty := ⟨([], 0), List.nodup_nil⟩
  objectR := ⟨([("object_r", ⟨1, false⟩)], 1), List.nodup_singleton _⟩
  entries t := t.1.1
  nprim t := t.1.2
  insert t key := t.add key ⟨t.1.2 + 1, false⟩ (t.1.2 + 1)
  insertAlias t key value := t.add key ⟨value, true⟩ t.1.2
  keys_nodup t := t.2
  entries_empty := rfl
  nprim_empty := rfl
  entries_objectR := rfl
  nprim_objectR := rfl
  entries_insert t key t' h := by
    rw [Listed.add_some h]
    exact ⟨List.Perm.refl _, rfl⟩
  entries_insertAlias t key value t' h := by
    rw [Listed.add_some h]
    exact ⟨List.Perm.refl _, rfl⟩

/-- A policy with levels, one category and an alias for it, or none. -/
def oneCategory (aliases : List (Node Unit)) : Database Unit where
  mls := true
  classorder := [("file", some "perms")]
  catorder := ["c0"]
  sensitivityorder := ["s0"]
  nodes := ⟨true, .type "staff_t"⟩ :: aliases

def aliasA : Node Unit := ⟨true, .catalias "a" "c0"⟩

theorem oneCategory_arraysName_iff : ∃ pdb,
    createSymbols listedLib (fun _ => true) (oneCategory []) = some pdb ∧
      (ArraysName listedLib pdb ↔
        ∀ node ∈ (oneCategory []).nodes, node.aliases true = false) := by
  obtain ⟨pdb, hcreate⟩ : ∃ pdb,
      createSymbols listedLib (fun _ => true) (oneCategory []) = some pdb := ⟨_, rfl⟩
  exact ⟨pdb, hcreate, arraysName_iff hcreate⟩

/-- The tables in an order in which the alias comes after the category. -/
def aliasLast (pdb : Pdb Listed) : Sym → List (String × Symbol) :=
  Function.update (fun sym => listedLib.entries (pdb sym)) .cats
    [("c0", ⟨1, false⟩), ("a", ⟨1, true⟩)]

/-- A category alias is named in the place of the category. -/
theorem alias_named : ∃ pdb,
    createSymbols listedLib (fun _ => true) (oneCategory [aliasA]) = some pdb ∧
      ¬ ArraysName listedLib pdb := by
  obtain ⟨pdb, hcreate, hentries, hnprim⟩ : ∃ pdb,
      createSymbols listedLib (fun _ => true) (oneCategory [aliasA]) = some pdb ∧
        listedLib.entries (pdb .cats) = [("a", ⟨1, true⟩), ("c0", ⟨1, false⟩)] ∧
        listedLib.nprim (pdb .cats) = 1 := ⟨_, rfl, rfl, rfl⟩
  refine ⟨pdb, hcreate, fun h => ?_⟩
  have hperm : ∀ sym, (aliasLast pdb sym).Perm (listedLib.entries (pdb sym)) := by
    intro sym
    by_cases hsym : sym = .cats
    · rw [hsym, aliasLast, Function.update_self, hentries]
      exact List.Perm.swap _ _ _
    · rw [aliasLast, Function.update_of_ne hsym]
  obtain ⟨arrays, harrays, hnames⟩ := h _ hperm
  have hcats := of_valArraysCreate harrays .cats
  rw [aliasLast, Function.update_self, hnprim] at hcats
  have hnamed : [some "a"] = arrays .cats := Option.some.inj hcats
  obtain ⟨key, hkey, hmem⟩ := hnames .cats 1 (Nat.le_refl 1) (Nat.le_of_eq hnprim.symm)
  rw [← hnamed] at hkey
  have hname : "a" = key := Option.some.inj (Option.some.inj hkey)
  rw [← hname, hentries] at hmem
  revert hmem
  decide

end Instance

end Cil.Binary.ValArrays
