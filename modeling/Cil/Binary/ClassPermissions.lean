/- Cil/Binary/ClassPermissions
   digest: The classes and commons of a binary policy, and the words for sets of permissions. -/

import Cil.Binary.AvruleUnion
import Cil.Binary.OrderedSymbols
import Cil.Binary.ValArraysExact
import Cil.Library.Call

set_option autoImplicit false
set_option relaxedAutoImplicit false

namespace Cil.Binary.ClassPermissions

open Library
open ValArrays (SymtabLib search)
open OrderedSymbols
open Neverallow (ClassDatum permsToDatum)

/-- A `cil_class` that is a common, with the names of its permissions in the order of the nodes. -/
structure Common where
  fqn : String
  perms : List String
  deriving DecidableEq, Repr

/-- A `cil_class`, likewise. -/
structure Class where
  fqn : String
  perms : List String
  common : Option Common
  deriving DecidableEq, Repr

/-- The hash tables of permissions, which take no key twice. -/
structure PermTable (H : Type) where
  empty : H
  search : H → String → Option Nat
  insert : H → String → Nat → Option H
  search_empty : ∀ key, search empty key = none
  search_insert : ∀ t key value t', insert t key value = some t' →
    search t key = none ∧ search t' = Function.update (search t) key (some value)

/-- The field `permissions` of `class_datum_t` and of `common_datum_t`. -/
structure Permissions (H : Type) where
  table : H
  nprim : Nat

/-- `class_datum_t`; the pointer `comdatum` is the key of the common. -/
structure SepolClass (H : Type) where
  value : Nat
  permissions : Permissions H
  comkey : Option String

/-- What a policy has of classes and commons: the symbols, and the data. -/
structure Pdb (T H : Type) where
  commons : T
  classes : T
  commonDatum : String → Permissions H
  classDatum : String → SepolClass H

section Code

variable {T H : Type} (L : SymtabLib T) (P : PermTable H)

/-- `symtab_init`. -/
def Permissions.init : Permissions H := ⟨P.empty, 0⟩

def Pdb.init : Pdb T H := ⟨L.empty, L.empty, fun _ => .init P, fun _ => ⟨0, .init P, none⟩⟩

/-- A turn of the loops over the nodes of permissions. -/
def insertPerm (key : String) : Call Rc (Permissions H) Unit :=
  Call.get >>= fun s =>
  Call.orFail .eexist (P.insert s.table key (s.nprim + 1)) >>= fun table =>
  Call.modify fun s => ⟨table, s.nprim + 1⟩

def Pdb.setCommon (key : String) (s : Permissions H) (pdb : Pdb T H) : Pdb T H :=
  { pdb with commonDatum := Function.update pdb.commonDatum key s }

def Pdb.setClass (key : String) (c : SepolClass H) (pdb : Pdb T H) : Pdb T H :=
  { pdb with classDatum := Function.update pdb.classDatum key c }

def Pdb.setPermissions (key : String) (s : Permissions H) (pdb : Pdb T H) : Pdb T H :=
  pdb.setClass key { pdb.classDatum key with permissions := s }

/-- `cil_common_to_policydb`. -/
def cilCommonToPolicydb (cilCommon : Common) : Call Rc (Pdb T H) Unit :=
  Call.get >>= fun pdb =>
  Call.orFail .eexist (L.insert pdb.commons cilCommon.fqn) >>= fun commons =>
  Call.modify (fun pdb => ({ pdb with commons := commons }).setCommon cilCommon.fqn (.init P)) >>=
    fun _ =>
  Call.onPart (fun pdb => pdb.commonDatum cilCommon.fqn) (Pdb.setCommon cilCommon.fqn)
    (Call.forEach (insertPerm P) cilCommon.perms)

/-- The common that is in the policy, or now comes there. -/
def findCommon (cilCommon : Common) : Call Rc (Pdb T H) Unit :=
  Call.get >>= fun pdb =>
  match search L pdb.commons cilCommon.fqn with
  | some _ => pure ()
  | none => cilCommonToPolicydb L P cilCommon

/-- The common of a class, whose permissions come before its own. -/
def setComdatum (fqn : String) : Option Common → Call Rc (Pdb T H) Unit
  | none => pure ()
  | some cilCommon =>
      findCommon L P cilCommon >>= fun _ =>
      Call.modify fun pdb =>
        let sepolClass := pdb.classDatum fqn
        let sepolCommon := pdb.commonDatum cilCommon.fqn
        pdb.setClass fqn { sepolClass with
          comkey := some cilCommon.fqn
          permissions := { sepolClass.permissions with
            nprim := sepolClass.permissions.nprim + sepolCommon.nprim } }

/-- A turn of the loop of `cil_classorder_to_policydb`. -/
def classorderTurn (cilClass : Class) : Call Rc (Pdb T H) Unit :=
  Call.get >>= fun pdb =>
  Call.orFail .eexist (L.insert pdb.classes cilClass.fqn) >>= fun classes =>
  Call.modify (fun pdb => ({ pdb with classes := classes }).setClass cilClass.fqn
    ⟨L.nprim pdb.classes + 1, .init P, none⟩) >>= fun _ =>
  setComdatum L P cilClass.fqn cilClass.common >>= fun _ =>
  Call.onPart (fun pdb => (pdb.classDatum cilClass.fqn).permissions)
    (Pdb.setPermissions cilClass.fqn) (Call.forEach (insertPerm P) cilClass.perms)

/-- `cil_classorder_to_policydb`. -/
def cilClassorderToPolicydb (classorder : List Class) : Call Rc (Pdb T H) Unit :=
  Call.forEach (classorderTurn L P) classorder

/-- What `__cil_get_sepol_class_datum` finds, with the lookups in its tables. -/
def Pdb.sepolClass (pdb : Pdb T H) (key : String) : Option ClassDatum :=
  (search L pdb.classes key).map fun _ =>
    let sepolClass := pdb.classDatum key
    ⟨sepolClass.value, P.search sepolClass.permissions.table,
      sepolClass.comkey.map fun comkey => P.search (pdb.commonDatum comkey).table⟩

end Code

section Meaning

/-- The permissions that a class has from its common. -/
def Class.commonPerms (c : Class) : List String := (c.common.map Common.perms).getD []

/-- All names of permissions of a class. -/
def Class.names (c : Class) : List String := c.commonPerms ++ c.perms

/-- The number of a permission: those of the common come first, but an own permission is found
before one of the common with its name. -/
def Class.HasNumber (c : Class) (key : String) (n : Nat) : Prop :=
  (∃ i, c.perms[i]? = some key ∧ n = c.commonPerms.length + i + 1) ∨
    (key ∉ c.perms ∧ ∃ i, c.commonPerms[i]? = some key ∧ n = i + 1)

/-- The sets of permissions of a class have words that tell them apart. -/
def Decides {δ : Type} (db : Neverallow.Db δ) (c : Class) (d : ClassDatum) : Prop :=
  ∀ ps qs : List δ, (∀ p ∈ ps, db.fqn p ∈ c.names) → (∀ q ∈ qs, db.fqn q ∈ c.names) →
    permsToDatum db d ps 0#32 = permsToDatum db d qs 0#32 →
      ∀ key, (∃ p ∈ ps, db.fqn p = key) ↔ ∃ q ∈ qs, db.fqn q = key

/-- The data of a class at a place of the order. -/
structure Numbered (i : Nat) (c : Class) (d : ClassDatum) : Prop where
  value : d.value = i + 1
  number : ∀ key n, d.findPerm key = some n ↔ c.HasNumber key n

end Meaning

section Perms

variable {H : Type} {P : PermTable H}

variable (P) in
/-- The permissions are in the table, numbered in their order from the offset on. -/
structure Filled (offset : Nat) (perms : List String) (s : Permissions H) : Prop where
  nprim : s.nprim = offset + perms.length
  nodup : perms.Nodup
  search : ∀ key n, P.search s.table key = some n ↔ ∃ i, perms[i]? = some key ∧ n = offset + i + 1

private theorem filled_empty (offset : Nat) : Filled P offset [] ⟨P.empty, offset⟩ where
  nprim := rfl
  nodup := List.nodup_nil
  search key n := by
    rw [P.search_empty]
    simp

theorem Filled.search_none {offset : Nat} {perms : List String} {s : Permissions H}
    (h : Filled P offset perms s) {key : String} (hkey : P.search s.table key = none) :
    key ∉ perms := by
  intro hmem
  obtain ⟨i, hi⟩ := List.mem_iff_getElem?.mp hmem
  have hsome := (h.search key _).mpr ⟨i, hi, rfl⟩
  rw [hkey] at hsome
  cases hsome

private theorem insertPerm_step {offset : Nat} {perms : List String} {key : String}
    {s s' : Permissions H}
    (h : Filled P offset perms s) (hrun : insertPerm P key s = some (.ok () s')) :
    Filled P offset (perms ++ [key]) s' := by
  obtain ⟨table, hinsert, hend⟩ := Call.orFail_ok hrun
  cases hend
  obtain ⟨hnone, hsearch⟩ := P.search_insert _ _ _ _ hinsert
  have hfresh := h.search_none hnone
  refine ⟨?_, ?_, fun key' n => ?_⟩
  · show s.nprim + 1 = offset + (perms ++ [key]).length
    rw [h.nprim, List.length_append, List.length_singleton]
    omega
  · rw [List.nodup_append]
    refine ⟨h.nodup, List.nodup_singleton key, fun a ha b hb hab => ?_⟩
    rw [List.mem_singleton.mp hb] at hab
    exact hfresh (hab ▸ ha)
  · show P.search table key' = some n ↔ _
    rw [hsearch]
    by_cases hkey : key' = key
    · subst hkey
      rw [Function.update_self]
      constructor
      · intro hn
        refine ⟨perms.length, ?_, ?_⟩
        · rw [List.getElem?_append_right (Nat.le_refl _), Nat.sub_self]
          rfl
        · rw [← Option.some.inj hn, h.nprim]
      · rintro ⟨i, hi, rfl⟩
        by_cases hlt : i < perms.length
        · rw [List.getElem?_append_left hlt] at hi
          exact absurd (List.mem_of_getElem? hi) hfresh
        · have hbound := (List.getElem?_eq_some_iff.mp hi).1
          rw [List.length_append, List.length_singleton] at hbound
          have heq : i = perms.length := by omega
          rw [h.nprim, heq]
    · rw [Function.update_of_ne hkey, h.search]
      constructor
      · rintro ⟨i, hi, rfl⟩
        have hlt := (List.getElem?_eq_some_iff.mp hi).1
        exact ⟨i, by rw [List.getElem?_append_left hlt, hi], rfl⟩
      · rintro ⟨i, hi, rfl⟩
        by_cases hlt : i < perms.length
        · rw [List.getElem?_append_left hlt] at hi
          exact ⟨i, hi, rfl⟩
        · rw [List.getElem?_append_right (by omega)] at hi
          exact absurd (List.mem_singleton.mp (List.mem_of_getElem? hi)) hkey

private theorem insertPerm_run (keys : List String) {offset : Nat} {perms : List String}
    {s s' : Permissions H} (h : Filled P offset perms s)
    (hrun : Call.forEach (insertPerm P) keys s = some (.ok () s')) :
    Filled P offset (perms ++ keys) s' := by
  induction keys generalizing perms s with
  | nil =>
      cases hrun
      rw [List.append_nil]
      exact h
  | cons key keys ih =>
      obtain ⟨⟨⟩, s₁, hstep, hrest⟩ := Call.bind_ok hrun
      have hrun' := ih (insertPerm_step h hstep) hrest
      rw [List.append_assoc] at hrun'
      exact hrun'

end Perms

section Commons

variable {T H : Type} {L : SymtabLib T} {P : PermTable H}

variable (L P) in
/-- The commons are in the policy, with their permissions. -/
structure HasCommons (ds : List Common) (pdb : Pdb T H) : Prop where
  found : ∀ key, (search L pdb.commons key).isSome ↔ ∃ d ∈ ds, d.fqn = key
  filled : ∀ d ∈ ds, Filled P 0 d.perms (pdb.commonDatum d.fqn)

/-- A qualified name belongs to one common. -/
def OneName (ds : List Common) : Prop := ∀ d ∈ ds, ∀ d' ∈ ds, d.fqn = d'.fqn → d = d'

private theorem cilCommonToPolicydb_ok {d : Common} {pdb pdb' : Pdb T H}
    (hrun : cilCommonToPolicydb L P d pdb = some (.ok () pdb')) :
    ∃ commons s, L.insert pdb.commons d.fqn = some commons ∧ Filled P 0 d.perms s ∧
      pdb' = ({ pdb with commons := commons }).setCommon d.fqn s := by
  obtain ⟨commons, hinsert, hrun⟩ := Call.orFail_ok hrun
  obtain ⟨⟨⟩, start, hstart, hpart⟩ := Call.bind_ok hrun
  cases hstart
  obtain ⟨s, hperms, hpdb⟩ := Call.onPart_ok hpart
  have hempty : (({ pdb with commons := commons }).setCommon d.fqn (.init P)).commonDatum
      d.fqn = Permissions.init P := Function.update_self _ _ _
  rw [hempty] at hperms
  refine ⟨commons, s, hinsert, insertPerm_run d.perms (filled_empty 0) hperms, ?_⟩
  rw [hpdb]
  simp [Pdb.setCommon]

theorem HasCommons.insert {ds : List Common} {d : Common} {pdb : Pdb T H} {commons : T}
    {s : Permissions H} (h : HasCommons L P ds pdb) (hone : OneName (ds ++ [d]))
    (hinsert : L.insert pdb.commons d.fqn = some commons) (hs : Filled P 0 d.perms s) :
    HasCommons L P (ds ++ [d]) (({ pdb with commons := commons }).setCommon d.fqn s) where
  found key := by
    show (search L commons key).isSome ↔ _
    rw [search_insert_isSome_iff hinsert, h.found]
    constructor
    · rintro (rfl | ⟨d', hd', rfl⟩)
      · exact ⟨d, List.mem_append_right ds List.mem_cons_self, rfl⟩
      · exact ⟨d', List.mem_append_left _ hd', rfl⟩
    · rintro ⟨d', hd', rfl⟩
      rcases List.mem_append.mp hd' with hold | hnew
      · exact Or.inr ⟨d', hold, rfl⟩
      · exact Or.inl (congrArg Common.fqn (List.mem_singleton.mp hnew))
  filled d' hd' := by
    show Filled P 0 d'.perms (Function.update pdb.commonDatum d.fqn s d'.fqn)
    by_cases hname : d'.fqn = d.fqn
    · obtain rfl := hone d' hd' d (List.mem_append_right ds List.mem_cons_self) hname
      rw [Function.update_self]
      exact hs
    · rw [Function.update_of_ne hname]
      rcases List.mem_append.mp hd' with hold | hnew
      · exact h.filled d' hold
      · exact absurd (congrArg Common.fqn (List.mem_singleton.mp hnew)) hname

/-- A common is there afterwards, and nothing changes but commons. -/
private theorem findCommon_ok {ds : List Common} {d : Common} {pdb pdb' : Pdb T H}
    (h : HasCommons L P ds pdb) (hone : OneName (ds ++ [d]))
    (hrun : findCommon L P d pdb = some (.ok () pdb')) :
    HasCommons L P (ds ++ [d]) pdb' ∧ pdb'.classes = pdb.classes ∧
      pdb'.classDatum = pdb.classDatum := by
  cases hsearch : search L pdb.commons d.fqn with
  | some sym =>
      have hok : findCommon L P d pdb = some (.ok () pdb) := by
        show (match search L pdb.commons d.fqn with
          | some _ => pure ()
          | none => cilCommonToPolicydb L P d : Call Rc (Pdb T H) Unit) pdb = _
        rw [hsearch]
        rfl
      rw [hok] at hrun
      cases hrun
      have hsome : (search L pdb.commons d.fqn).isSome := by rw [hsearch]; rfl
      obtain ⟨d', hd', hname⟩ := (h.found d.fqn).mp hsome
      obtain rfl := hone d' (List.mem_append_left _ hd') d
        (List.mem_append_right ds List.mem_cons_self) hname
      have hmem : ∀ e, e ∈ ds ++ [d'] ↔ e ∈ ds := by
        intro e
        rw [List.mem_append, List.mem_singleton]
        constructor
        · rintro (he | rfl)
          · exact he
          · exact hd'
        · exact Or.inl
      refine ⟨⟨fun key => ?_, fun e he => h.filled e ((hmem e).mp he)⟩, rfl, rfl⟩
      rw [h.found]
      simp only [hmem]
  | none =>
      have hcall : findCommon L P d pdb = cilCommonToPolicydb L P d pdb := by
        show (match search L pdb.commons d.fqn with
          | some _ => pure ()
          | none => cilCommonToPolicydb L P d : Call Rc (Pdb T H) Unit) pdb = _
        rw [hsearch]
      rw [hcall] at hrun
      obtain ⟨commons, s, hinsert, hs, rfl⟩ := cilCommonToPolicydb_ok hrun
      exact ⟨h.insert hone hinsert hs, rfl, rfl⟩

end Commons

section Classes

variable {T H : Type} {L : SymtabLib T} {P : PermTable H}

/-- The commons of classes, in the order of these. -/
def commonsOf (cs : List Class) : List Common := cs.filterMap Class.common

variable (P) in
/-- The datum of a class, with its permissions. -/
structure HasClass (i : Nat) (c : Class) (datum : SepolClass H) : Prop where
  value : datum.value = i + 1
  comkey : datum.comkey = c.common.map Common.fqn
  filled : Filled P c.commonPerms.length c.perms datum.permissions

variable (L P) in
/-- The policy has the classes and their commons. -/
structure Written (cs : List Class) (pdb : Pdb T H) : Prop where
  names : HasNames L pdb.classes (cs.map Class.fqn)
  found : ∀ key, (search L pdb.classes key).isSome → key ∈ cs.map Class.fqn
  data : ∀ i c, cs[i]? = some c → HasClass P i c (pdb.classDatum c.fqn)
  commons : HasCommons L P (commonsOf cs) pdb

private theorem written_init : Written L P [] (Pdb.init L P) where
  names := hasNames_empty
  found key h := by
    rw [search_isSome_iff] at h
    show key ∈ ([] : List String)
    have hkey : key ∈ (L.entries L.empty).map Prod.fst := h
    rw [L.entries_empty] at hkey
    exact hkey
  data i c h := by
    rw [List.getElem?_nil] at h
    cases h
  commons := by
    refine ⟨fun key => ?_, fun d hd => absurd hd List.not_mem_nil⟩
    show (search L L.empty key).isSome ↔ _
    rw [search_isSome_iff, L.entries_empty]
    simp [commonsOf]

/-- What the common adds to a class that has no permissions yet. -/
private theorem setComdatum_ok {cs : List Class} {c : Class} {pdb pdb' : Pdb T H}
    (h : HasCommons L P (commonsOf cs) pdb) (hone : OneName (commonsOf (cs ++ [c])))
    (hempty : (pdb.classDatum c.fqn).permissions = .init P)
    (hnone : (pdb.classDatum c.fqn).comkey = none)
    (hrun : setComdatum L P c.fqn c.common pdb = some (.ok () pdb')) :
    HasCommons L P (commonsOf (cs ++ [c])) pdb' ∧ pdb'.classes = pdb.classes ∧
      pdb'.classDatum = Function.update pdb.classDatum c.fqn
        ⟨(pdb.classDatum c.fqn).value, ⟨P.empty, c.commonPerms.length⟩,
          c.common.map Common.fqn⟩ := by
  have happend : commonsOf (cs ++ [c]) = commonsOf cs ++ c.common.toList := by
    rw [commonsOf, List.filterMap_append]
    cases hcommon : c.common <;> simp [commonsOf, hcommon]
  rw [happend] at hone ⊢
  cases hcommon : c.common with
  | none =>
      rw [hcommon] at hrun
      cases hrun
      refine ⟨?_, rfl, ?_⟩
      · rw [Option.toList_none, List.append_nil]
        exact h
      · have hsame : (⟨(pdb.classDatum c.fqn).value, ⟨P.empty, c.commonPerms.length⟩,
            (none : Option Common).map Common.fqn⟩ : SepolClass H) = pdb.classDatum c.fqn := by
          have hlength : c.commonPerms = [] := by rw [Class.commonPerms, hcommon]; rfl
          rw [hlength]
          show (⟨(pdb.classDatum c.fqn).value, .init P, none⟩ : SepolClass H) = _
          rw [← hempty, ← hnone]
        rw [hsame, Function.update_eq_self]
  | some d =>
      rw [hcommon] at hrun hone
      obtain ⟨⟨⟩, pdb₁, hfind, hmodify⟩ := Call.bind_ok hrun
      cases hmodify
      obtain ⟨hcommons, hclasses, hdata⟩ := findCommon_ok h hone hfind
      have hlength : c.commonPerms = d.perms := by rw [Class.commonPerms, hcommon]; rfl
      have hcount : (pdb₁.commonDatum d.fqn).nprim = d.perms.length := by
        rw [(hcommons.filled d (List.mem_append_right _ List.mem_cons_self)).nprim, Nat.zero_add]
      refine ⟨⟨hcommons.found, hcommons.filled⟩, hclasses, ?_⟩
      show Function.update pdb₁.classDatum c.fqn _ = _
      rw [hdata, hempty, hcount, hlength]
      simp [Permissions.init]

private theorem classorderTurn_step {cs : List Class} {c : Class} {pdb pdb' : Pdb T H}
    (h : Written L P cs pdb) (hone : OneName (commonsOf (cs ++ [c])))
    (hrun : classorderTurn L P c pdb = some (.ok () pdb')) : Written L P (cs ++ [c]) pdb' := by
  obtain ⟨classes, hinsert, hrun⟩ := Call.orFail_ok hrun
  obtain ⟨⟨⟩, start, hstarted, hrun⟩ := Call.bind_ok hrun
  have hstart : start = ({ pdb with classes := classes }).setClass c.fqn
      ⟨L.nprim pdb.classes + 1, .init P, none⟩ := by
    cases hstarted
    rfl
  have hclass : start.classDatum c.fqn = ⟨L.nprim pdb.classes + 1, .init P, none⟩ := by
    rw [hstart]
    exact Function.update_self _ _ _
  have hother : ∀ key, key ≠ c.fqn → start.classDatum key = pdb.classDatum key := by
    intro key hkey
    rw [hstart]
    exact Function.update_of_ne hkey _ _
  have hbefore : HasCommons L P (commonsOf cs) start := by
    rw [hstart]
    exact ⟨h.commons.found, h.commons.filled⟩
  have hfresh := h.names.fresh hinsert
  obtain ⟨⟨⟩, pdb₁, hcommon, hperms⟩ := Call.bind_ok hrun
  obtain ⟨hcommons, hclasses, hdata⟩ := setComdatum_ok hbefore hone (by rw [hclass])
    (by rw [hclass]) hcommon
  have hclasses' : pdb₁.classes = classes := by rw [hclasses, hstart]; rfl
  obtain ⟨s, hfill, rfl⟩ := Call.onPart_ok hperms
  have hown : pdb₁.classDatum c.fqn = ⟨L.nprim pdb.classes + 1,
      ⟨P.empty, c.commonPerms.length⟩, c.common.map Common.fqn⟩ := by
    rw [hdata, Function.update_self, hclass]
  rw [hown] at hfill
  have hfilled := insertPerm_run c.perms (filled_empty c.commonPerms.length) hfill
  refine ⟨?_, fun key hkey => ?_, fun i c' hc' => ?_, ⟨hcommons.found, hcommons.filled⟩⟩
  · show HasNames L pdb₁.classes _
    rw [hclasses', List.map_append]
    exact h.names.insert hinsert
  · have hsearch : (search L pdb₁.classes key).isSome := hkey
    rw [hclasses', search_insert_isSome_iff hinsert] at hsearch
    rw [List.map_append, List.mem_append]
    rcases hsearch with rfl | hold
    · exact Or.inr List.mem_cons_self
    · exact Or.inl (h.found key hold)
  · show HasClass P i c' (Function.update pdb₁.classDatum c.fqn _ c'.fqn)
    by_cases hlt : i < cs.length
    · rw [List.getElem?_append_left hlt] at hc'
      have hne : c'.fqn ≠ c.fqn := by
        intro heq
        rw [← heq] at hfresh
        exact hfresh (List.mem_map_of_mem (List.mem_of_getElem? hc'))
      rw [Function.update_of_ne hne, hdata, Function.update_of_ne hne, hother _ hne]
      exact h.data i c' hc'
    · have hbound := (List.getElem?_eq_some_iff.mp hc').1
      rw [List.length_append, List.length_singleton] at hbound
      have heq : i = cs.length := by omega
      rw [heq, List.getElem?_append_right (Nat.le_refl _), Nat.sub_self] at hc'
      obtain rfl := Option.some.inj hc'
      rw [Function.update_self, hown]
      refine ⟨?_, rfl, hfilled⟩
      show L.nprim pdb.classes + 1 = i + 1
      rw [h.names.nprim, List.length_map, heq]

private theorem classorder_run (rest : List Class) {cs : List Class} {pdb pdb' : Pdb T H}
    (h : Written L P cs pdb) (hone : OneName (commonsOf (cs ++ rest)))
    (hrun : Call.forEach (classorderTurn L P) rest pdb = some (.ok () pdb')) :
    Written L P (cs ++ rest) pdb' := by
  induction rest generalizing cs pdb with
  | nil =>
      cases hrun
      rw [List.append_nil]
      exact h
  | cons c rest ih =>
      obtain ⟨⟨⟩, pdb₁, hturn, hrest⟩ := Call.bind_ok hrun
      rw [List.append_cons] at hone ⊢
      have hsub : ∀ d ∈ commonsOf (cs ++ [c]), d ∈ commonsOf (cs ++ [c] ++ rest) := by
        intro d hd
        rw [commonsOf, List.filterMap_append]
        exact List.mem_append_left _ hd
      have hstep := classorderTurn_step h (fun d hd d' hd' => hone d (hsub d hd) d' (hsub d' hd'))
        hturn
      exact ih hstep hone hrest

end Classes

section Numbers

variable {T H : Type} {L : SymtabLib T} {P : PermTable H}

theorem Class.HasNumber.mem {c : Class} {key : String} {n : Nat} (h : c.HasNumber key n) :
    key ∈ c.names := by
  rw [Class.names, List.mem_append]
  rcases h with ⟨i, hi, -⟩ | ⟨-, i, hi, -⟩
  · exact Or.inr (List.mem_of_getElem? hi)
  · exact Or.inl (List.mem_of_getElem? hi)

theorem Class.HasNumber.bounds {c : Class} {key : String} {n : Nat} (h : c.HasNumber key n) :
    1 ≤ n ∧ n ≤ c.names.length := by
  rw [Class.names, List.length_append]
  rcases h with ⟨i, hi, rfl⟩ | ⟨-, i, hi, rfl⟩
  · have hlt := (List.getElem?_eq_some_iff.mp hi).1
    omega
  · have hlt := (List.getElem?_eq_some_iff.mp hi).1
    omega

private theorem Class.exists_number {c : Class} {key : String} (h : key ∈ c.names) :
    ∃ n, c.HasNumber key n := by
  rw [Class.names, List.mem_append] at h
  by_cases hown : key ∈ c.perms
  · obtain ⟨i, hi⟩ := List.mem_iff_getElem?.mp hown
    exact ⟨_, Or.inl ⟨i, hi, rfl⟩⟩
  · rcases h with hcommon | hperm
    · obtain ⟨i, hi⟩ := List.mem_iff_getElem?.mp hcommon
      exact ⟨_, Or.inr ⟨hown, i, hi, rfl⟩⟩
    · exact absurd hperm hown

/-- A number is the number of one name. -/
theorem Class.HasNumber.inj {c : Class} {key key' : String} {n : Nat} (h : c.HasNumber key n)
    (h' : c.HasNumber key' n) : key = key' := by
  rcases h with ⟨i, hi, rfl⟩ | ⟨-, i, hi, rfl⟩ <;> rcases h' with ⟨j, hj, heq⟩ | ⟨-, j, hj, heq⟩
  · have hij : i = j := by omega
    rw [hij, hj] at hi
    exact (Option.some.inj hi).symm
  · have hlt := (List.getElem?_eq_some_iff.mp hj).1
    omega
  · have hlt := (List.getElem?_eq_some_iff.mp hi).1
    omega
  · have hij : i = j := by omega
    rw [hij, hj] at hi
    exact (Option.some.inj hi).symm

private theorem findPerm_own {d : ClassDatum} {key : String} {value : Nat}
    (h : d.permissions key = some value) : d.findPerm key = some value := by
  unfold ClassDatum.findPerm
  rw [h]

private theorem findPerm_common {d : ClassDatum} {key : String} (h : d.permissions key = none) :
    d.findPerm key = d.comdatum.bind fun common => common key := by
  unfold ClassDatum.findPerm
  rw [h]
  cases d.comdatum <;> rfl

theorem Written.numbered {cs : List Class} {pdb : Pdb T H} (h : Written L P cs pdb) {i : Nat}
    {c : Class} (hc : cs[i]? = some c) :
    ∃ d, pdb.sepolClass L P c.fqn = some d ∧ Numbered i c d := by
  obtain ⟨hvalue, hcomkey, hfilled⟩ := h.data i c hc
  have hname : (cs.map Class.fqn)[i]? = some c.fqn := by rw [List.getElem?_map, hc]; rfl
  have hsearch := search_of_mem (h.names.entry i c.fqn hname)
  refine ⟨⟨(pdb.classDatum c.fqn).value, P.search (pdb.classDatum c.fqn).permissions.table,
    (pdb.classDatum c.fqn).comkey.map fun comkey => P.search (pdb.commonDatum comkey).table⟩,
    ?_, hvalue, fun key n => ?_⟩
  · rw [Pdb.sepolClass, hsearch]
    rfl
  · cases hfind : P.search (pdb.classDatum c.fqn).permissions.table key with
    | some value =>
        rw [findPerm_own hfind]
        obtain ⟨i, hi, rfl⟩ := (hfilled.search key value).mp hfind
        constructor
        · intro hn
          exact Or.inl ⟨i, hi, (Option.some.inj hn).symm⟩
        · rintro (hown | ⟨hnot, -⟩)
          · have hn := (hfilled.search key n).mpr hown
            rw [hfind] at hn
            exact hn
          · exact absurd (List.mem_of_getElem? hi) hnot
    | none =>
        rw [findPerm_common hfind]
        have hnot := hfilled.search_none hfind
        have hown : c.HasNumber key n ↔ ∃ i, c.commonPerms[i]? = some key ∧ n = i + 1 := by
          constructor
          · rintro (⟨i, hi, -⟩ | ⟨-, hcommon⟩)
            · exact absurd (List.mem_of_getElem? hi) hnot
            · exact hcommon
          · intro hcommon
            exact Or.inr ⟨hnot, hcommon⟩
        rw [hown, hcomkey]
        cases hcommon : c.common with
        | none =>
            have hempty : c.commonPerms = [] := by rw [Class.commonPerms, hcommon]; rfl
            rw [hempty]
            simp
        | some d =>
            have hmem : d ∈ commonsOf cs :=
              List.mem_filterMap.mpr ⟨c, List.mem_of_getElem? hc, hcommon⟩
            have hperms : c.commonPerms = d.perms := by rw [Class.commonPerms, hcommon]; rfl
            rw [hperms]
            have hcommonSearch := (h.commons.filled d hmem).search key n
            simp only [Nat.zero_add] at hcommonSearch
            exact hcommonSearch

/-- A class that is found is one of the order. -/
private theorem Written.of_sepolClass {cs : List Class} {pdb : Pdb T H} (h : Written L P cs pdb)
    {key : String} {d : ClassDatum} (hd : pdb.sepolClass L P key = some d) :
    ∃ i c, cs[i]? = some c ∧ c.fqn = key ∧ Numbered i c d := by
  have hfound : (search L pdb.classes key).isSome := by
    cases hsearch : search L pdb.classes key with
    | none =>
        rw [Pdb.sepolClass, hsearch] at hd
        cases hd
    | some sym => rfl
  obtain ⟨c, hc, rfl⟩ := List.mem_map.mp (h.found key hfound)
  obtain ⟨i, hi⟩ := List.mem_iff_getElem?.mp hc
  obtain ⟨d', hd', hnumbered⟩ := h.numbered hi
  rw [hd] at hd'
  obtain rfl := Option.some.inj hd'
  exact ⟨i, c, hi, rfl, hnumbered⟩

end Numbers

section Masks

variable {δ : Type} {db : Neverallow.Db δ} {d : ClassDatum}

private theorem permsToDatum_some (ps : List δ) (data : BitVec 32)
    (h : ∀ p ∈ ps, ∃ v, d.findPerm (db.fqn p) = some v) :
    ∃ m, permsToDatum db d ps data = some m := by
  induction ps generalizing data with
  | nil => exact ⟨data, rfl⟩
  | cons p ps ih =>
      obtain ⟨v, hv⟩ := h p List.mem_cons_self
      rw [permsToDatum, hv]
      exact ih _ fun q hq => h q (List.mem_cons_of_mem p hq)

variable {i : Nat} {c : Class}

/-- A set of permissions of a class has a word. -/
theorem Numbered.mask (h : Numbered i c d) {ps : List δ} (hps : ∀ p ∈ ps, db.fqn p ∈ c.names) :
    ∃ m, permsToDatum db d ps 0#32 = some m := by
  refine permsToDatum_some ps 0#32 fun p hp => ?_
  obtain ⟨n, hn⟩ := Class.exists_number (hps p hp)
  exact ⟨n, (h.number _ n).mpr hn⟩

/-- The bits of a word are those of the numbers, of which the shift takes the last five bits. -/
private theorem Numbered.mask_bits (h : Numbered i c d) {ps : List δ} {m : BitVec 32}
    (hm : permsToDatum db d ps 0#32 = some m) (b : Nat) :
    m.getLsbD b = true ↔ ∃ p ∈ ps, ∃ n, c.HasNumber (db.fqn p) n ∧ b = (n - 1) % 32 := by
  rw [AvruleTable.permsToDatum_getLsbD hm, BitVec.getLsbD_zero]
  constructor
  · rintro (hfalse | ⟨p, hp, n, hn, hb⟩)
    · cases hfalse
    · exact ⟨p, hp, n, (h.number _ n).mp hn, hb⟩
  · rintro ⟨p, hp, n, hn, hb⟩
    exact Or.inr ⟨p, hp, n, (h.number _ n).mpr hn, hb⟩

/-- With at most 32 permissions each has a bit of its own. -/
private theorem Numbered.mem_of_masks (h : Numbered i c d) (hle : c.names.length ≤ 32)
    {ps qs : List δ} (hps : ∀ p ∈ ps, db.fqn p ∈ c.names)
    (hsame : permsToDatum db d ps 0#32 = permsToDatum db d qs 0#32) {p : δ} (hp : p ∈ ps) :
    ∃ q ∈ qs, db.fqn q = db.fqn p := by
  obtain ⟨m, hm⟩ := h.mask hps
  obtain ⟨n, hn⟩ := Class.exists_number (hps p hp)
  have hbit := (h.mask_bits hm ((n - 1) % 32)).mpr ⟨p, hp, n, hn, rfl⟩
  obtain ⟨q, hq, n', hn', hbits⟩ := (h.mask_bits (hsame ▸ hm) _).mp hbit
  have hbounds := hn.bounds
  have hbounds' := hn'.bounds
  have heq : n' = n := by omega
  rw [heq] at hn'
  exact ⟨q, hq, hn'.inj hn⟩

theorem Numbered.decides (h : Numbered i c d) (hle : c.names.length ≤ 32) : Decides db c d := by
  intro ps qs hps hqs hsame key
  constructor
  · rintro ⟨p, hp, rfl⟩
    exact h.mem_of_masks hle hps hsame hp
  · rintro ⟨q, hq, rfl⟩
    exact h.mem_of_masks hle hqs hsame.symm hq

/-- Without a name that is declared twice, a number is a place among all names. -/
private theorem Class.hasNumber_of_place {c : Class}
    (hdisjoint : ∀ key ∈ c.perms, key ∉ c.commonPerms)
    {j : Nat} {key : String} (hj : c.names[j]? = some key) : c.HasNumber key (j + 1) := by
  rw [Class.names] at hj
  by_cases hlt : j < c.commonPerms.length
  · rw [List.getElem?_append_left hlt] at hj
    exact Or.inr ⟨fun hown => hdisjoint key hown (List.mem_of_getElem? hj), j, hj, rfl⟩
  · rw [List.getElem?_append_right (by omega)] at hj
    exact Or.inl ⟨j - c.commonPerms.length, hj, by omega⟩

/-- The permission after the first 32 has the bit of the first one. -/
private theorem Numbered.le_of_decides (h : Numbered i c d)
    (hdisjoint : ∀ key ∈ c.perms, key ∉ c.commonPerms)
    (hnamed : ∀ key ∈ c.names, ∃ p, db.fqn p = key) (hdecides : Decides db c d) :
    c.names.length ≤ 32 := by
  by_contra hmany
  obtain ⟨first, hfirst⟩ : ∃ key, c.names[0]? = some key :=
    ⟨_, List.getElem?_eq_getElem (by omega)⟩
  obtain ⟨last, hlast⟩ : ∃ key, c.names[32]? = some key :=
    ⟨_, List.getElem?_eq_getElem (by omega)⟩
  obtain ⟨p, hp⟩ := hnamed first (List.mem_of_getElem? hfirst)
  obtain ⟨q, hq⟩ := hnamed last (List.mem_of_getElem? hlast)
  have hone : c.HasNumber (db.fqn p) 1 := hp ▸ Class.hasNumber_of_place hdisjoint hfirst
  have htwo : c.HasNumber (db.fqn q) 33 := hq ▸ Class.hasNumber_of_place hdisjoint hlast
  have hsame : permsToDatum db d [p] 0#32 = permsToDatum db d [q] 0#32 := by
    simp only [permsToDatum, (h.number _ _).mpr hone, (h.number _ _).mpr htwo]
  have hall := hdecides [p] [q]
    (fun r hr => List.mem_singleton.mp hr ▸ hone.mem)
    (fun r hr => List.mem_singleton.mp hr ▸ htwo.mem) hsame (db.fqn p)
  obtain ⟨r, hr, heq⟩ := hall.mp ⟨p, List.mem_cons_self, rfl⟩
  rw [List.mem_singleton.mp hr] at heq
  rw [heq] at htwo
  have hfind := (h.number _ _).mpr htwo
  rw [(h.number _ _).mpr hone] at hfind
  cases hfind

end Masks

section Order

variable {T H : Type} (L : SymtabLib T) (P : PermTable H)

end Order

section FileClass

/-- A table is the list of its entries. -/
def listedPerms : PermTable (List (String × Nat)) where
  empty := []
  search t key := t.lookup key
  insert t key value :=
    match t.lookup key with
    | some _ => none
    | none => some ((key, value) :: t)
  search_empty _ := rfl
  search_insert t key value t' h := by
    split at h
    · cases h
    · rename_i hnone
      cases h
      refine ⟨hnone, funext fun key' => ?_⟩
      show List.lookup key' ((key, value) :: t) = _
      by_cases hkey : key' = key
      · subst hkey
        rw [Function.update_self]
        exact List.lookup_cons_self
      · have hne : (key' == key) = false := beq_eq_false_iff_ne.mpr hkey
        rw [Function.update_of_ne hkey, List.lookup_cons, hne]

/-- A class with a permission of its own and one of its common. -/
def fileClass : Class := ⟨"file", ["p1"], some ⟨"perms", ["p33"]⟩⟩

private theorem fileClass_named {c : Class} (hc : c ∈ [fileClass]) :
    ∀ key ∈ c.names, ∃ p, AvruleTable.declarationDb.fqn p = key := by
  rw [List.mem_singleton.mp hc]
  intro key hkey
  rcases List.mem_cons.mp hkey with rfl | hkey
  · exact ⟨.p33, rfl⟩
  · rw [List.mem_singleton.mp hkey]
    exact ⟨.p1, rfl⟩

private theorem fileClass_oneName : OneName (commonsOf [fileClass]) := by
  intro d hd d' hd' _
  rw [List.mem_singleton.mp hd, List.mem_singleton.mp hd']

end FileClass

section Rules

open AvruleTable (Avtab Key Tables tablePolicydb specified Names Mentioned ExactUnion Enforced)
open Neverallow (Avrule TypeDatum Classperms RuleKind Policydb State Pair Misread avruleToAvtab)
open ClassPerms (Expands)

variable {δ P ν ο T H τ : Type} {db : Neverallow.Db δ} {L : SymtabLib T} {Q : PermTable H}
  {types : String → Option Nat}

/-- The policy database with the classes that the order has created. -/
def withClasses (M : Policydb P ν ο) (L : SymtabLib T) (Q : PermTable H) (pdb : Pdb T H) :
    Policydb P ν ο :=
  { M with classDatum := pdb.sepolClass L Q }

/-- The rule expands to a rule on the key `k`, whose class is at a place of the order, for a
permission with the number `v` in this class. -/
def Asks (db : Neverallow.Db δ) (types : String → Option Nat) (classorder : List Class)
    (kind : RuleKind) (d₁ d₂ : TypeDatum δ) (cp : Classperms δ) (k : Key) (v : Nat) : Prop :=
  specified kind = some k.specified ∧ types (db.fqn d₁.datum) = some k.sourceType ∧
    types (db.fqn d₂.datum) = some k.targetType ∧
    ∃ i c, classorder[i]? = some c ∧ c.fqn = db.fqn cp.cls ∧ k.targetClass = i + 1 ∧
      ∃ p ∈ cp.perms, c.HasNumber (db.fqn p) v

/-- A rule in force outside booleanifs asks for the permission. -/
def Asked (db : Neverallow.Db δ) (types : String → Option Nat) (classorder : List Class)
    (rules : List (Avrule δ × Option (ν × Bool))) (k : Key) (v : Nat) : Prop :=
  ∃ r, (r, none) ∈ rules ∧ Enforced db r ∧ ∃ d₁ d₂, Pair db r d₁ d₂ ∧
    ∃ items, r.classperms = some items ∧ ∃ cp, Expands db.classperms items cp ∧
      Asks db types classorder r.ruleKind d₁ d₂ cp k v

variable {M : Policydb P ν ο} {classorder : List Class} {pdb : Pdb T H}

private theorem Written.names_iff (h : Written L Q classorder pdb) {kind : RuleKind}
    {d₁ d₂ : TypeDatum δ} {cp : Classperms δ} {k : Key} {v : Nat} :
    Names db types (withClasses M L Q pdb) kind d₁ d₂ cp k v ↔
      Asks db types classorder kind d₁ d₂ cp k v := by
  constructor
  · rintro ⟨spec, src, tgt, sepolClass, hspec, hsrc, htgt, hclass, rfl, p, hp, hv⟩
    obtain ⟨i, c, hi, hname, hnumbered⟩ := h.of_sepolClass hclass
    exact ⟨hspec, hsrc, htgt, i, c, hi, hname, hnumbered.value, p, hp,
      (hnumbered.number _ v).mp hv⟩
  · rintro ⟨hspec, hsrc, htgt, i, c, hi, hname, hvalue, p, hp, hv⟩
    obtain ⟨d, hd, hnumbered⟩ := h.numbered hi
    refine ⟨k.specified, k.sourceType, k.targetType, d, hspec, hsrc, htgt, ?_, ?_, p, hp,
      (hnumbered.number _ v).mpr hv⟩
    · rw [← hname]
      exact hd
    · rw [hnumbered.value, ← hvalue]

end Rules

end Cil.Binary.ClassPermissions
