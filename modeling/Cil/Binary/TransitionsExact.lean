/- Cil/Binary/TransitionsExact
   digest: The lists of transitions hold what the statements expand to, each key once. -/

import Cil.Binary.Transitions
import Cil.ClassPermsGains
import Cil.ClassPermsGraph

set_option autoImplicit false
set_option relaxedAutoImplicit false

namespace Cil.Binary.Transitions

open Library
open Library.Store (Adds Grows Sound)
open Verify (RoleDatum TypeDatum RoleOf expandRole)
open ClassPerms (Expands mentions)
open Library.Descent (Unfolds)

section Meaning

variable {β δ κ ρ μ T R : Type} (db : Db β δ κ) (pdb : Policydb δ ρ μ)

/-- The type that a name stands for, or one of the types of the attribute. -/
def TypeOf : TypeDatum δ → δ → Prop
  | .type t', t => t' = t
  | .typeattribute a, t => ∃ bits i, db.numbers.attrTypes a = some bits ∧
      db.bitmap.getBit bits i = true ∧ db.valToType i = some t

/-- The class that a name stands for, or one of those that the permissions of the map class
stand for. -/
def ClassOf : ClassDatum δ → δ → Prop
  | .kernel c', c => c' = c
  | .map perms, c => ∃ p ∈ perms, ∃ items, db.classperms p = some items ∧
      ∃ cp, Expands db.classperms items cp ∧ db.classOf cp = c

/-- The value of the role stands for it, as outside of macros and abstract blocks. -/
def NumberedRole : RoleDatum δ → Prop
  | .role r => db.numbers.valToRole (db.roleValue r) = some r
  | .roleattribute _ => True

def NumberedType : TypeDatum δ → Prop
  | .type t => db.valToType (db.numbers.typeValue t) = some t
  | .typeattribute _ => True

/-- What the names of roles and of types are read as. -/
structure Reading (δ : Type) where
  role : RoleDatum δ → δ → Prop
  type : TypeDatum δ → δ → Prop

/-- A name is read as what it stands for. -/
def named : Reading δ := ⟨RoleOf db.bitmap db.numbers, TypeOf db⟩

/-- A name is read as the roles or types that the array has at its values. -/
def taken : Reading δ where
  role d r := ∃ bits i, expandRole db.bitmap db.numbers db.roleValue d = some bits ∧
    db.bitmap.getBit bits i = true ∧ db.numbers.valToRole i = some r
  type d t := ∃ bits i, expandType db d = some bits ∧ db.bitmap.getBit bits i = true ∧
    db.valToType i = some t

variable (N : Reading δ)

/-- The values of the roles that a name is read as. -/
def RoleValue (d : RoleDatum δ) (v : Nat) : Prop := ∃ r, N.role d r ∧ pdb.sepolRole r = some v

def TypeValue (d : TypeDatum δ) (v : Nat) : Prop := ∃ t, N.type d t ∧ pdb.sepolType t = some v

def ClassValue (d : ClassDatum δ) (v : Nat) : Prop :=
  ∃ c, ClassOf db d c ∧ pdb.sepolClass c = some v

/-- The keys and results that a role transition expands to. -/
def Roletransition.expanded (t : Roletransition δ) : Set (RoleTrans × Nat) :=
  {e | RoleValue pdb N t.src e.1.role ∧ TypeValue pdb N t.tgt e.1.type ∧
    ClassValue db pdb t.obj e.1.tclass ∧ pdb.sepolRole t.result = some e.2}

/-- The keys and results that a range transition expands to. -/
def Rangetransition.expanded (t : Rangetransition δ ρ) : Set (RangeTrans × μ) :=
  {e | TypeValue pdb N t.src e.1.sourceType ∧ TypeValue pdb N t.exec e.1.targetType ∧
    ClassValue db pdb t.obj e.1.targetClass ∧ pdb.mlsRange t.range = some e.2}

/-- The keys and results that a named type transition expands to. -/
def Nametypetransition.expanded (t : Nametypetransition δ) : Set (FilenameTrans × Nat) :=
  {e | t.name ≠ ['*'] ∧ TypeValue pdb N t.src e.1.stype ∧ TypeValue pdb N t.tgt e.1.ttype ∧
    ClassValue db pdb t.obj e.1.tclass ∧ e.1.name = t.name ∧ pdb.sepolType t.result = some e.2}

def Statement.roleTr : Statement δ ρ → Set (RoleTrans × Nat)
  | .roletransition t => t.expanded db pdb N
  | _ => ∅

/-- Without MLS a policy has no range transitions. -/
def Statement.rangeTr : Statement δ ρ → Set (RangeTrans × μ)
  | .rangetransition t => {e | pdb.mls = true ∧ e ∈ t.expanded db pdb N}
  | _ => ∅

def Statement.filenameTrans : Statement δ ρ → Set (FilenameTrans × Nat)
  | .nametypetransition t => t.expanded db pdb N
  | _ => ∅

/-- No source or target of a statement is a role or type of an abstract block. -/
def Statement.Numbered : Statement δ ρ → Prop
  | .roletransition t => NumberedRole db t.src ∧ NumberedType db t.tgt
  | .rangetransition t => NumberedType db t.src ∧ NumberedType db t.exec
  | .nametypetransition t => NumberedType db t.src ∧ NumberedType db t.tgt

/-- What the statements of a list expand to. -/
def expansion {K V ι : Type} (statements : List ι) (expanded : ι → Set (K × V)) : Set (K × V) :=
  {e | ∃ stmt ∈ statements, e ∈ expanded stmt}

/-- The roles and types that the arrays give for the names do not add or lose a transition. -/
structure SameExpansion (statements : List (Statement δ ρ)) : Prop where
  roleTr : expansion statements (Statement.roleTr db pdb (taken db)) =
    expansion statements (Statement.roleTr db pdb (named db))
  rangeTr : expansion statements (Statement.rangeTr db pdb (taken db)) =
    expansion statements (Statement.rangeTr db pdb (named db))
  filenameTrans : expansion statements (Statement.filenameTrans db pdb (taken db)) =
    expansion statements (Statement.filenameTrans db pdb (named db))

/-- A list with one entry for each key that some statement expands to, with the result of every
such statement. -/
structure Exact {K V ι : Type} (list : List (K × V)) (statements : List ι)
    (expanded : ι → Set (K × V)) : Prop where
  once : (list.map Prod.fst).Nodup
  complete : ∀ k, (∃ v, (k, v) ∈ list) ↔ ∃ stmt ∈ statements, ∃ v, (k, v) ∈ expanded stmt
  result : ∀ k v, (k, v) ∈ list → ∀ stmt ∈ statements, ∀ v', (k, v') ∈ expanded stmt → v' = v

/-- Two statements expand to one key with different results. -/
def Conflicting {K V ι : Type} (statements : List ι) (expanded : ι → Set (K × V)) : Prop :=
  ∃ stmt ∈ statements, ∃ stmt' ∈ statements, ∃ k v v',
    (k, v) ∈ expanded stmt ∧ (k, v') ∈ expanded stmt' ∧ v ≠ v'

/-- The role attribute was evaluated, and its bits are values of roles. -/
def RoleReady : RoleDatum δ → Prop
  | .role r => ∃ r', db.numbers.valToRole (db.roleValue r) = some r'
  | .roleattribute a => ∃ bits, db.numbers.attrRoles a = some bits ∧
      ∀ i, db.bitmap.getBit bits i = true → ∃ r, db.numbers.valToRole i = some r

def TypeReady : TypeDatum δ → Prop
  | .type t => ∃ t', db.valToType (db.numbers.typeValue t) = some t'
  | .typeattribute a => ∃ bits, db.numbers.attrTypes a = some bits ∧
      ∀ i, db.bitmap.getBit bits i = true → ∃ t, db.valToType i = some t

/-- The permissions of the map class have their lists, and none contains itself. -/
def ClassReady : ClassDatum δ → Prop
  | .kernel _ => True
  | .map perms => ∀ p ∈ perms, Unfolds (mentions db.classperms) p

def Statement.Ready : Statement δ ρ → Prop
  | .roletransition t => RoleReady db t.src ∧ TypeReady db t.tgt ∧ ClassReady db t.obj
  | .rangetransition t => TypeReady db t.src ∧ TypeReady db t.exec ∧ ClassReady db t.obj
  | .nametypetransition t => TypeReady db t.src ∧ TypeReady db t.tgt ∧ ClassReady db t.obj

end Meaning

section Expansion

variable {β δ κ ρ μ σ : Type} {db : Db β δ κ}

private theorem taken_role {d : RoleDatum δ} {bits : β}
    (h : expandRole db.bitmap db.numbers db.roleValue d = some bits) (r : δ) :
    (taken db).role d r ↔ ∃ i ∈ db.bitmap.positions bits, db.numbers.valToRole i = some r := by
  simp [taken, h, db.bitmap.mem_positions]

private theorem taken_type {d : TypeDatum δ} {bits : β} (h : expandType db d = some bits) (t : δ) :
    (taken db).type d t ↔ ∃ i ∈ db.bitmap.positions bits, db.valToType i = some t := by
  simp [taken, h, db.bitmap.mem_positions]

private theorem NumberedRole.taken_iff {d : RoleDatum δ} (h : NumberedRole db d) (r : δ) :
    (taken db).role d r ↔ (named db).role d r := by
  cases d with
  | roleattribute a => exact Iff.rfl
  | role r' =>
    have hvalue : db.numbers.valToRole (db.roleValue r') = some r' := h
    simp [taken, named, RoleOf, expandRole, db.bitmap.getBit_setBit, db.bitmap.getBit_init, hvalue]

private theorem NumberedType.taken_iff {d : TypeDatum δ} (h : NumberedType db d) (t : δ) :
    (taken db).type d t ↔ (named db).type d t := by
  cases d with
  | typeattribute a => exact Iff.rfl
  | type t' =>
    have hvalue : db.valToType (db.numbers.typeValue t') = some t' := h
    simp [taken, named, TypeOf, expandType, db.bitmap.getBit_setBit, db.bitmap.getBit_init, hvalue]

/-- What the permissions of a map class stand for is appended. -/
private theorem addClassesFromMapPerms_ok {fuel : Nat} {perms : List δ} {classes l : List δ}
    {s s' : σ} (h : addClassesFromMapPerms db fuel perms classes s = some (.ok l s')) :
    s' = s ∧ ∀ c, c ∈ l ↔ c ∈ classes ∨ ClassOf db (.map perms) c := by
  induction perms generalizing classes with
  | nil =>
    cases h
    refine ⟨rfl, fun c => ?_⟩
    simp [ClassOf]
  | cons p rest ih =>
    have hrun : ∃ rc classes', ClassPerms.addClassesFromClasspermsList db.classperms db.classOf
        fuel classes (db.classperms p) = some (.done rc classes') ∧
        addClassesFromMapPerms db fuel rest classes' s = some (.ok l s') := by
      cases hwalk : ClassPerms.addClassesFromClasspermsList db.classperms db.classOf fuel classes
        (db.classperms p) with
      | none =>
        simp only [addClassesFromMapPerms, hwalk] at h
        cases h
      | some walked =>
        simp only [addClassesFromMapPerms, hwalk] at h
        cases walked with
        | done rc classes' => exact ⟨rc, classes', rfl, h⟩
        | crash => cases h
    obtain ⟨rc, classes', hwalk, hrest⟩ := hrun
    obtain ⟨rfl, _⟩ := ClassPerms.of_walk (fun _ _ => rfl) hwalk
    have hleaf : ∀ (seen : List δ) (cp : κ) (seen' : List δ),
        (Rc.ok, seen ++ [db.classOf cp]) = (Rc.ok, seen') →
        {c | c ∈ seen'} = {c | c ∈ seen} ∪ {db.classOf cp} := by
      intro seen cp seen' heq
      cases heq
      ext c
      simp only [Set.mem_ofPred_eq, Set.mem_union, List.mem_append, List.mem_singleton,
        Set.mem_singleton_iff]
    obtain ⟨items, hitems, hadds⟩ := ClassPerms.walk_adds hleaf fuel _ _ _ hwalk
    obtain ⟨hs, hmem⟩ := ih hrest
    refine ⟨hs, fun c => ?_⟩
    have hclasses : c ∈ classes' ↔ c ∈ classes ∨
        ∃ cp, Expands db.classperms items cp ∧ db.classOf cp = c := by
      have hcomm : ∀ cp, c = db.classOf cp ↔ db.classOf cp = c := fun _ => eq_comm
      have hc := Set.ext_iff.mp hadds c
      simp only [Set.mem_ofPred_eq, Set.mem_union, ClassPerms.gains, Set.mem_singleton_iff,
        hcomm] at hc
      exact hc
    rw [hmem, hclasses, or_assoc]
    simp only [ClassOf, List.exists_mem_cons_iff, hitems, Option.some.injEq, exists_eq_left']

theorem expandClass_ok {fuel : Nat} {d : ClassDatum δ} {l : List δ} {s s' : σ}
    (h : expandClass db fuel d s = some (.ok l s')) :
    s' = s ∧ ∀ c, c ∈ l ↔ ClassOf db d c := by
  cases d with
  | kernel c' =>
    cases h
    refine ⟨rfl, fun c => ?_⟩
    rw [List.mem_singleton]
    exact eq_comm
  | map perms =>
    obtain ⟨hs, hmem⟩ := addClassesFromMapPerms_ok h
    refine ⟨hs, fun c => ?_⟩
    rw [hmem]
    simp

end Expansion

section Lists

variable {β δ κ ρ μ T R σ K V : Type} {db : Db β δ κ} {pdb : Policydb δ ρ μ} {A : Hashtab T}
  {F : Keyed K} {part : σ → Store T K V} {gain : Set (K × V)}

/-- What the loops add: what `insert` adds for the values that the positions and classes have. -/
private theorem insertLoops_adds {gains : Nat → Nat → Nat → Set (K × V)}
    {insert : Nat → Nat → Nat → Call Rc σ Unit} {srcAt : Nat → Option δ}
    {sepolSrc : δ → Option Nat} {src tgt : List Nat} {classList : List δ}
    (hinsert : ∀ a b c, Adds A F part (gains a b c) (insert a b c)) :
    Adds A F part
      {e | ∃ i ∈ src, ∃ s, srcAt i = some s ∧ ∃ a, sepolSrc s = some a ∧
        ∃ j ∈ tgt, ∃ t, db.valToType j = some t ∧ ∃ b, pdb.sepolType t = some b ∧
          ∃ d ∈ classList, ∃ c, pdb.sepolClass d = some c ∧ e ∈ gains a b c}
      (insertLoops db pdb insert srcAt sepolSrc src tgt classList) :=
  Adds.forEach (fun _ => Adds.orCrash fun _ => Adds.orFail fun a =>
    Adds.forEach (fun _ => Adds.orCrash fun _ => Adds.orFail fun b =>
      Adds.forEach (fun _ => Adds.orFail fun c => hinsert a b c) classList) tgt) src

/-- Loops that insert into another list. -/
private theorem insertLoops_elsewhere {insert : Nat → Nat → Nat → Call Rc σ Unit}
    {srcAt : Nat → Option δ} {sepolSrc : δ → Option Nat} {src tgt : List Nat}
    {classList : List δ} (hinsert : ∀ a b c, Adds A F part ∅ (insert a b c)) :
    Adds A F part ∅ (insertLoops db pdb insert srcAt sepolSrc src tgt classList) := by
  apply (insertLoops_adds hinsert).of_eq
  ext e
  simp

/-- The values that the positions and the classes of a rule have are those of its names. -/
private theorem insertLoops_expands {gains : Nat → Nat → Nat → Set (K × V)}
    {insert : Nat → Nat → Nat → Call Rc σ Unit} {srcAt : Nat → Option δ}
    {sepolSrc : δ → Option Nat} {src : List Nat} {srcOf : δ → Prop} {tgt : TypeDatum δ}
    {obj : ClassDatum δ} {typeBitmap : β} {classList : List δ}
    (hsrc : ∀ s, srcOf s ↔ ∃ i ∈ src, srcAt i = some s)
    (htgt : expandType db tgt = some typeBitmap) (hobj : ∀ c, c ∈ classList ↔ ClassOf db obj c)
    (hinsert : ∀ a b c, Adds A F part (gains a b c) (insert a b c)) :
    Adds A F part
      {e | ∃ a, (∃ s, srcOf s ∧ sepolSrc s = some a) ∧ ∃ b, TypeValue pdb (taken db) tgt b ∧
        ∃ c, ClassValue db pdb obj c ∧ e ∈ gains a b c}
      (insertLoops db pdb insert srcAt sepolSrc src (db.bitmap.positions typeBitmap)
        classList) := by
  apply (insertLoops_adds hinsert).of_eq
  ext e
  simp only [TypeValue, ClassValue, hsrc, taken_type htgt, hobj, Set.mem_ofPred_eq]
  constructor
  · rintro ⟨i, hi, s, hs, a, ha, j, hj, t, ht, b, hb, d, hd, c, hc, he⟩
    exact ⟨a, ⟨s, ⟨i, hi, hs⟩, ha⟩, b, ⟨t, ⟨j, hj, ht⟩, hb⟩, c, ⟨d, hd, hc⟩, he⟩
  · rintro ⟨a, ⟨s, ⟨i, hi, hs⟩, ha⟩, b, ⟨t, ⟨j, hj, ht⟩, hb⟩, c, ⟨d, hd, hc⟩, he⟩
    exact ⟨i, hi, s, hs, a, ha, j, hj, t, ht, b, hb, d, hd, c, hc, he⟩

private theorem after_expandClass {α : Type} {fuel : Nat} {d : ClassDatum δ}
    {f : List δ → Call Rc σ α}
    (hf : ∀ l, (∀ c, c ∈ l ↔ ClassOf db d c) → Adds A F part gain (f l)) :
    Adds A F part gain (expandClass db fuel d >>= f) := by
  apply Adds.after
  intro t l t' h
  obtain ⟨hsame, hmem⟩ := expandClass_ok h
  exact ⟨hsame, hf l hmem⟩

end Lists

section Functions

variable {β δ κ ρ μ T R K V : Type} {db : Db β δ κ} {pdb : Policydb δ ρ μ}
  {A : Hashtab T} {F : Keyed K} {part : Tables T μ R → Store T K V} {fuel : Nat}

private theorem addRoleTr_adds (k : RoleTrans) (v : Nat) :
    Adds A roleKeyed Tables.roleTr {(k, v)} (addRoleTr A k v : Call Rc (Tables T μ R) Unit) :=
  (Store.adds_add Rc.eexist k v).onPart fun _ _ => rfl

private theorem addRangeTr_adds [DecidableEq μ] (k : RangeTrans) (v : μ) :
    Adds A rangeKeyed Tables.rangeTr {(k, v)} (addRangeTr A k v : Call Rc (Tables T μ R) Unit) :=
  (Store.adds_add Rc.eexist k v).onPart fun _ _ => rfl

private theorem addFilenameTrans_adds (k : FilenameTrans) (v : Nat) :
    Adds A filenameKeyed Tables.filenameTrans {(k, v)}
      (addFilenameTrans A k v : Call Rc (Tables T μ R) Unit) :=
  (Store.adds_add Rc.eexist k v).onPart fun _ _ => rfl

private theorem onRest_adds (f : R → Rc × R)
    (hrest : ∀ (rest : R) (s : Tables T μ R), part { s with rest := rest } = part s) :
    Adds A F part ∅ (onRest f) := by
  intro s a s' h
  unfold onRest at h
  split at h
  · rename_i rest _
    cases h
    have hsame : part { s with rest := rest } = part s := hrest rest s
    rw [hsame]
    exact Grows.refl _
  · cases h

private theorem roletransToPolicydb_adds (t : Roletransition δ) :
    Adds A roleKeyed Tables.roleTr (t.expanded db pdb (taken db))
      (roletransToPolicydb db pdb A fuel t : Call Rc (Tables T μ R) Unit) := by
  refine Adds.afterCrash fun roleBitmap hrole => Adds.afterCrash fun typeBitmap htype =>
    after_expandClass fun classList hclass => Adds.afterFail fun result hresult => ?_
  have hinsert : ∀ role type tclass : Nat, Adds A roleKeyed Tables.roleTr
      {((⟨role, type, tclass⟩ : RoleTrans), result)}
      (addRoleTr A ⟨role, type, tclass⟩ result : Call Rc (Tables T μ R) Unit) :=
    fun role type tclass => addRoleTr_adds ⟨role, type, tclass⟩ result
  apply (insertLoops_expands (taken_role hrole) htype hclass hinsert).of_eq
  ext ⟨⟨role, type, tclass⟩, newRole⟩
  simp only [Roletransition.expanded, hresult, Set.mem_ofPred_eq, Set.mem_singleton_iff]
  constructor
  · rintro ⟨_, hsrc, _, htgt, _, hobj, heq⟩
    cases heq
    exact ⟨hsrc, htgt, hobj, rfl⟩
  · rintro ⟨hsrc, htgt, hobj, heq⟩
    cases heq
    exact ⟨role, hsrc, type, htgt, tclass, hobj, rfl⟩

private theorem roletransToPolicydb_elsewhere (t : Roletransition δ)
    (hpart : ∀ (roleTr : Store T RoleTrans Nat) (s : Tables T μ R),
      part { s with roleTr := roleTr } = part s) :
    Adds A F part ∅ (roletransToPolicydb db pdb A fuel t) :=
  Adds.afterCrash fun _ _ => Adds.afterCrash fun _ _ => after_expandClass fun _ _ =>
    Adds.afterFail fun _ _ => insertLoops_elsewhere fun _ _ _ => Adds.elsewhere hpart

private theorem rangetransitionToPolicydb_adds [DecidableEq μ] (t : Rangetransition δ ρ) :
    Adds A rangeKeyed Tables.rangeTr (t.expanded db pdb (taken db))
      (rangetransitionToPolicydb db pdb A fuel t : Call Rc (Tables T μ R) Unit) := by
  refine Adds.afterCrash fun srcBitmap hsrc => Adds.afterCrash fun tgtBitmap htgt =>
    after_expandClass fun classList hclass => ?_
  have hinsert : ∀ sourceType targetType targetClass : Nat, Adds A rangeKeyed Tables.rangeTr
      {e | ∃ range, pdb.mlsRange t.range = some range ∧
        e ∈ ({((⟨sourceType, targetType, targetClass⟩ : RangeTrans), range)} : Set _)}
      (Call.orFail .err (pdb.mlsRange t.range) >>= fun targetRange =>
        (addRangeTr A ⟨sourceType, targetType, targetClass⟩ targetRange :
          Call Rc (Tables T μ R) Unit)) :=
    fun _ _ _ => Adds.orFail fun range => addRangeTr_adds _ range
  apply (insertLoops_expands (taken_type hsrc) htgt hclass hinsert).of_eq
  ext ⟨⟨sourceType, targetType, targetClass⟩, targetRange⟩
  simp only [Rangetransition.expanded, Set.mem_ofPred_eq, Set.mem_singleton_iff]
  constructor
  · rintro ⟨_, hsrc, _, htgt, _, hobj, range, hrange, heq⟩
    cases heq
    exact ⟨hsrc, htgt, hobj, hrange⟩
  · rintro ⟨hsrc, htgt, hobj, hrange⟩
    exact ⟨sourceType, hsrc, targetType, htgt, targetClass, hobj, targetRange, hrange, rfl⟩

private theorem rangetransitionToPolicydb_elsewhere [DecidableEq μ] (t : Rangetransition δ ρ)
    (hpart : ∀ (rangeTr : Store T RangeTrans μ) (s : Tables T μ R),
      part { s with rangeTr := rangeTr } = part s) :
    Adds A F part ∅ (rangetransitionToPolicydb db pdb A fuel t) := by
  refine Adds.afterCrash fun _ _ => Adds.afterCrash fun _ _ => after_expandClass fun _ _ => ?_
  exact insertLoops_elsewhere fun _ _ _ => Adds.afterFail fun _ _ => Adds.elsewhere hpart

variable {typeRule : Nametypetransition δ → R → Rc × R}

private theorem typetransitionToAvtab_adds (t : Nametypetransition δ) :
    Adds A filenameKeyed Tables.filenameTrans (t.expanded db pdb (taken db))
      (typetransitionToAvtab db pdb A typeRule fuel t : Call Rc (Tables T μ R) Unit) := by
  unfold typetransitionToAvtab
  by_cases hstar : t.name = ['*']
  · rw [if_pos hstar]
    apply (onRest_adds (typeRule t) fun _ _ => rfl).of_eq
    ext e
    simp [Nametypetransition.expanded, hstar]
  · rw [if_neg hstar]
    refine Adds.afterCrash fun srcBitmap hsrc => Adds.afterCrash fun tgtBitmap htgt =>
      after_expandClass fun classList hclass => Adds.afterFail fun result hresult => ?_
    have hinsert : ∀ stype ttype tclass : Nat, Adds A filenameKeyed Tables.filenameTrans
        {((⟨stype, ttype, tclass, t.name⟩ : FilenameTrans), result)}
        (addFilenameTrans A ⟨stype, ttype, tclass, t.name⟩ result :
          Call Rc (Tables T μ R) Unit) :=
      fun stype ttype tclass => addFilenameTrans_adds ⟨stype, ttype, tclass, t.name⟩ result
    apply (insertLoops_expands (taken_type hsrc) htgt hclass hinsert).of_eq
    ext ⟨⟨stype, ttype, tclass, name⟩, otype⟩
    simp only [Nametypetransition.expanded, hresult, Set.mem_ofPred_eq, Set.mem_singleton_iff]
    constructor
    · rintro ⟨_, hsrc, _, htgt, _, hobj, heq⟩
      cases heq
      exact ⟨hstar, hsrc, htgt, hobj, rfl, rfl⟩
    · rintro ⟨_, hsrc, htgt, hobj, rfl, heq⟩
      cases heq
      exact ⟨stype, hsrc, ttype, htgt, tclass, hobj, rfl⟩

private theorem typetransitionToAvtab_elsewhere (t : Nametypetransition δ)
    (hpart : ∀ (filenameTrans : Store T FilenameTrans Nat) (s : Tables T μ R),
      part { s with filenameTrans := filenameTrans } = part s)
    (hrest : ∀ (rest : R) (s : Tables T μ R), part { s with rest := rest } = part s) :
    Adds A F part ∅ (typetransitionToAvtab db pdb A typeRule fuel t) := by
  unfold typetransitionToAvtab
  by_cases hstar : t.name = ['*']
  · rw [if_pos hstar]
    exact onRest_adds _ hrest
  · rw [if_neg hstar]
    exact Adds.afterCrash fun _ _ => Adds.afterCrash fun _ _ => after_expandClass fun _ _ =>
      Adds.afterFail fun _ _ => insertLoops_elsewhere fun _ _ _ => Adds.elsewhere hpart

section Statements

variable [DecidableEq μ]

private theorem mlsRangetransition_elsewhere (t : Rangetransition δ ρ)
    (hpart : ∀ (rangeTr : Store T RangeTrans μ) (s : Tables T μ R),
      part { s with rangeTr := rangeTr } = part s) :
    Adds A F part ∅
      (if pdb.mls = true then rangetransitionToPolicydb db pdb A fuel t else pure ()) := by
  split
  · exact rangetransitionToPolicydb_elsewhere t hpart
  · exact Adds.pure ()

variable (typeRule)

private theorem nodeToPolicydb_roleTr (stmt : Statement δ ρ) :
    Adds A roleKeyed Tables.roleTr (stmt.roleTr db pdb (taken db))
      (nodeToPolicydb db pdb A typeRule fuel stmt : Call Rc (Tables T μ R) Unit) := by
  cases stmt with
  | roletransition t => exact roletransToPolicydb_adds t
  | rangetransition t => exact mlsRangetransition_elsewhere t fun _ _ => rfl
  | nametypetransition t =>
    exact typetransitionToAvtab_elsewhere t (fun _ _ => rfl) fun _ _ => rfl

private theorem nodeToPolicydb_rangeTr (stmt : Statement δ ρ) :
    Adds A rangeKeyed Tables.rangeTr (stmt.rangeTr db pdb (taken db))
      (nodeToPolicydb db pdb A typeRule fuel stmt : Call Rc (Tables T μ R) Unit) := by
  cases stmt with
  | roletransition t => exact roletransToPolicydb_elsewhere t fun _ _ => rfl
  | rangetransition t =>
    show Adds A rangeKeyed Tables.rangeTr _
      (if pdb.mls = true then rangetransitionToPolicydb db pdb A fuel t else pure ())
    by_cases hmls : pdb.mls = true
    · rw [if_pos hmls]
      apply (rangetransitionToPolicydb_adds t).of_eq
      ext e
      simp only [Statement.rangeTr, Set.mem_ofPred_eq, hmls, true_and]
    · rw [if_neg hmls]
      apply (Adds.pure ()).of_eq
      ext e
      simp [Statement.rangeTr, hmls]
  | nametypetransition t =>
    exact typetransitionToAvtab_elsewhere t (fun _ _ => rfl) fun _ _ => rfl

private theorem nodeToPolicydb_filenameTrans (stmt : Statement δ ρ) :
    Adds A filenameKeyed Tables.filenameTrans (stmt.filenameTrans db pdb (taken db))
      (nodeToPolicydb db pdb A typeRule fuel stmt : Call Rc (Tables T μ R) Unit) := by
  cases stmt with
  | roletransition t => exact roletransToPolicydb_elsewhere t fun _ _ => rfl
  | rangetransition t => exact mlsRangetransition_elsewhere t fun _ _ => rfl
  | nametypetransition t => exact typetransitionToAvtab_adds t

end Statements

end Functions

section Runs

variable {β δ κ ρ μ T R K V ι : Type} {A : Hashtab T} {F : Keyed K}

/-- A list that was empty and to which each statement added what it expands to. -/
private theorem read_of_grows {statements : List ι} {expanded : ι → Set (K × V)} {s : Store T K V}
    (h : Grows A F (expansion statements expanded) (Store.init A F) s)
    (hmemory : s.outOfMemory = false) :
    (s.read.map Prod.fst).Nodup ∧ ∀ e, e ∈ s.read ↔ e ∈ expansion statements expanded := by
  obtain ⟨hsound, hgrown⟩ := h Store.sound_init
  obtain ⟨_, hread⟩ := hgrown hmemory
  refine ⟨hsound.functional hmemory, fun e => ?_⟩
  rw [hread, Store.read_init]
  simp

/-- A list with each key once is exact if and only if it has what the statements expand to. -/
theorem exact_iff {list : List (K × V)} {statements : List ι} {added : Set (K × V)}
    {expanded : ι → Set (K × V)} (honce : (list.map Prod.fst).Nodup)
    (hmem : ∀ e, e ∈ list ↔ e ∈ added) :
    Exact list statements expanded ↔ added = expansion statements expanded := by
  constructor
  · intro hexact
    ext ⟨k, v⟩
    rw [← hmem]
    constructor
    · intro hv
      obtain ⟨stmt, hstmt, v', hv'⟩ := (hexact.complete k).mp ⟨v, hv⟩
      have heq := hexact.result k v hv stmt hstmt v' hv'
      subst heq
      exact ⟨stmt, hstmt, hv'⟩
    · rintro ⟨stmt, hstmt, hv⟩
      obtain ⟨w, hw⟩ := (hexact.complete k).mpr ⟨stmt, hstmt, v, hv⟩
      rwa [hexact.result k w hw stmt hstmt v hv]
  · intro hsame
    have hlist : ∀ e, e ∈ list ↔ ∃ stmt ∈ statements, e ∈ expanded stmt := by
      intro e
      rw [hmem, hsame]
      rfl
    refine ⟨honce, fun k => ?_, fun k v hv stmt hstmt v' hv' => ?_⟩
    · simp only [hlist]
      constructor
      · rintro ⟨v, stmt, hstmt, hv⟩
        exact ⟨stmt, hstmt, v, hv⟩
      · rintro ⟨stmt, hstmt, v, hv⟩
        exact ⟨v, stmt, hstmt, hv⟩
    · have hother : (k, v') ∈ list := (hlist _).mpr ⟨stmt, hstmt, hv'⟩
      have heq := List.inj_on_of_nodup_map honce hother hv rfl
      exact congrArg Prod.snd heq

private theorem Exact.not_conflicting {list : List (K × V)} {statements : List ι}
    {expanded : ι → Set (K × V)} (h : Exact list statements expanded) :
    ¬ Conflicting statements expanded := by
  rintro ⟨stmt, hstmt, stmt', hstmt', k, v, v', hv, hv', hne⟩
  obtain ⟨w, hw⟩ := (h.complete k).mpr ⟨stmt, hstmt, v, hv⟩
  apply hne
  rw [h.result k w hw stmt hstmt v hv, h.result k w hw stmt' hstmt' v' hv']

variable [DecidableEq μ] {db : Db β δ κ} {pdb : Policydb δ ρ μ}
  {typeRule : Nametypetransition δ → R → Rc × R} {statements : List (Statement δ ρ)}

private theorem toPolicydb_exact {fuel : Nat} {rest : R} {s : Tables T μ R}
    (h : toPolicydb db pdb A typeRule fuel statements (Tables.init A rest) = some (.ok () s))
    (hmemory : s.outOfMemory = false) :
    (Exact s.roleTr.read statements (Statement.roleTr db pdb (named db)) ∧
      Exact s.rangeTr.read statements (Statement.rangeTr db pdb (named db)) ∧
      Exact s.filenameTrans.read statements (Statement.filenameTrans db pdb (named db))) ↔
    SameExpansion db pdb statements := by
  simp only [Tables.outOfMemory, Bool.or_eq_false_iff] at hmemory
  obtain ⟨⟨hrole, hrange⟩, hfilename⟩ := hmemory
  have hroleTr := Adds.forEach (nodeToPolicydb_roleTr typeRule) statements _ _ _ h
  have hrangeTr := Adds.forEach (nodeToPolicydb_rangeTr typeRule) statements _ _ _ h
  have hfilenameTrans :=
    Adds.forEach (nodeToPolicydb_filenameTrans typeRule) statements _ _ _ h
  obtain ⟨hroleOnce, hroleMem⟩ := read_of_grows hroleTr hrole
  obtain ⟨hrangeOnce, hrangeMem⟩ := read_of_grows hrangeTr hrange
  obtain ⟨hfilenameOnce, hfilenameMem⟩ := read_of_grows hfilenameTrans hfilename
  rw [exact_iff hroleOnce hroleMem, exact_iff hrangeOnce hrangeMem,
    exact_iff hfilenameOnce hfilenameMem]
  constructor
  · rintro ⟨hroles, hranges, hfilenames⟩
    exact ⟨hroles, hranges, hfilenames⟩
  · intro hsame
    exact ⟨hsame.roleTr, hsame.rangeTr, hsame.filenameTrans⟩

omit [DecidableEq μ] in
/-- Statements without roles and types of abstract blocks expand as they are taken. -/
private theorem sameExpansion_of_numbered (h : ∀ stmt ∈ statements, stmt.Numbered db) :
    SameExpansion db pdb statements := by
  have hrole : ∀ {d}, NumberedRole db d → ∀ v,
      RoleValue pdb (taken db) d v ↔ RoleValue pdb (named db) d v := by
    intro d hd v
    simp only [RoleValue, hd.taken_iff]
  have htype : ∀ {d}, NumberedType db d → ∀ v,
      TypeValue pdb (taken db) d v ↔ TypeValue pdb (named db) d v := by
    intro d hd v
    simp only [TypeValue, hd.taken_iff]
  have hsame : ∀ {K V : Type} {expanded expanded' : Statement δ ρ → Set (K × V)},
      (∀ stmt ∈ statements, expanded stmt = expanded' stmt) →
        expansion statements expanded = expansion statements expanded' := by
    intro K V expanded expanded' heq
    ext e
    exact exists_congr fun stmt => and_congr_right fun hstmt => by rw [heq stmt hstmt]
  refine ⟨hsame fun stmt hstmt => ?_, hsame fun stmt hstmt => ?_, hsame fun stmt hstmt => ?_⟩
  · cases stmt with
    | roletransition t =>
      ext e
      simp only [Statement.roleTr, Roletransition.expanded, hrole (h _ hstmt).1,
        htype (h _ hstmt).2, Set.mem_ofPred_eq]
    | _ => rfl
  · cases stmt with
    | rangetransition t =>
      ext e
      simp only [Statement.rangeTr, Rangetransition.expanded, htype (h _ hstmt).1,
        htype (h _ hstmt).2, Set.mem_ofPred_eq]
    | _ => rfl
  · cases stmt with
    | nametypetransition t =>
      ext e
      simp only [Statement.filenameTrans, Nametypetransition.expanded, htype (h _ hstmt).1,
        htype (h _ hstmt).2, Set.mem_ofPred_eq]
    | _ => rfl

end Runs

section Returns

variable {β δ κ ρ μ T R σ : Type} {db : Db β δ κ} {pdb : Policydb δ ρ μ} {A : Hashtab T}

private theorem addClassesFromMapPerms_returns {perms : List δ}
    (h : ∀ p ∈ perms, Unfolds (mentions db.classperms) p) :
    ∃ n, ∀ fuel, n ≤ fuel → ∀ classes (s : σ), ∃ l,
      addClassesFromMapPerms db fuel perms classes s = some (.ok l s) := by
  induction perms with
  | nil => exact ⟨0, fun fuel _ classes s => ⟨classes, rfl⟩⟩
  | cons p rest ih =>
    obtain ⟨n, hn⟩ := ih fun q hq => h q (List.mem_cons_of_mem p hq)
    have hp : ∃ m, ∀ fuel, m ≤ fuel → ClassPerms.Done (ClassPerms.walk db.classperms
        (fun (classes : List δ) (cp : κ) => (Rc.ok, classes ++ [db.classOf cp])) fuel)
        (db.classperms p) := ClassPerms.walk_of_unfolds (h p List.mem_cons_self)
    obtain ⟨m, hm⟩ := hp
    refine ⟨max n m, fun fuel hle classes s => ?_⟩
    have hnle : n ≤ fuel := by omega
    have hmle : m ≤ fuel := by omega
    obtain ⟨rc, classes', hwalk⟩ := hm fuel hmle classes
    obtain ⟨l, hl⟩ := hn fuel hnle classes' s
    refine ⟨l, ?_⟩
    simp only [addClassesFromMapPerms, ClassPerms.addClassesFromClasspermsList, hwalk]
    exact hl

theorem expandClass_returns {d : ClassDatum δ} (h : ClassReady db d) :
    ∃ n, ∀ fuel, n ≤ fuel → ∀ s : σ, ∃ l, expandClass db fuel d s = some (.ok l s) := by
  cases d with
  | kernel c => exact ⟨0, fun fuel _ s => ⟨[c], rfl⟩⟩
  | map perms =>
    obtain ⟨n, hn⟩ := addClassesFromMapPerms_returns (σ := σ) h
    exact ⟨n, fun fuel hle s => hn fuel hle [] s⟩

private theorem expandRole_ready {d : RoleDatum δ} (h : RoleReady db d) :
    ∃ bits, expandRole db.bitmap db.numbers db.roleValue d = some bits ∧
      ∀ i ∈ db.bitmap.positions bits, ∃ r, db.numbers.valToRole i = some r := by
  cases d with
  | role r =>
    obtain ⟨r', hr'⟩ := h
    refine ⟨_, rfl, fun i hi => ⟨r', ?_⟩⟩
    rw [db.bitmap.mem_positions, db.bitmap.getBit_setBit, db.bitmap.getBit_init,
      Bool.false_or, decide_eq_true_eq] at hi
    rw [hi, hr']
  | roleattribute a =>
    obtain ⟨bits, hbits, hall⟩ := h
    exact ⟨bits, hbits, fun i hi => hall i ((db.bitmap.mem_positions bits i).mp hi)⟩

private theorem expandType_ready {d : TypeDatum δ} (h : TypeReady db d) :
    ∃ bits, expandType db d = some bits ∧
      ∀ i ∈ db.bitmap.positions bits, ∃ t, db.valToType i = some t := by
  cases d with
  | type t =>
    obtain ⟨t', ht'⟩ := h
    refine ⟨_, rfl, fun i hi => ⟨t', ?_⟩⟩
    rw [db.bitmap.mem_positions, db.bitmap.getBit_setBit, db.bitmap.getBit_init,
      Bool.false_or, decide_eq_true_eq] at hi
    rw [hi, ht']
  | typeattribute a =>
    obtain ⟨bits, hbits, hall⟩ := h
    exact ⟨bits, hbits, fun i hi => hall i ((db.bitmap.mem_positions bits i).mp hi)⟩

variable {inv : σ → Prop}

private theorem insertLoops_returns {insert : Nat → Nat → Nat → Call Rc σ Unit}
    {srcAt : Nat → Option δ} {sepolSrc : δ → Option Nat} {src tgt : List Nat}
    {classList : List δ} (hinsert : ∀ a b c, Call.ReturnsFrom inv (insert a b c))
    (hsrc : ∀ i ∈ src, ∃ s, srcAt i = some s) (htgt : ∀ j ∈ tgt, ∃ t, db.valToType j = some t) :
    Call.ReturnsFrom inv (insertLoops db pdb insert srcAt sepolSrc src tgt classList) := by
  refine Call.ReturnsFrom.forEach fun i hi => Call.ReturnsFrom.orCrash (hsrc i hi) fun _ _ =>
    Call.ReturnsFrom.orFail fun a _ => ?_
  refine Call.ReturnsFrom.forEach fun j hj => Call.ReturnsFrom.orCrash (htgt j hj) fun _ _ =>
    Call.ReturnsFrom.orFail fun b _ => ?_
  exact Call.ReturnsFrom.forEach fun d _ => Call.ReturnsFrom.orFail fun c _ => hinsert a b c

private theorem returns_after_expandClass {α : Type} {d : ClassDatum δ} {fuel : Nat}
    {f : List δ → Call Rc σ α} (hd : ∀ s : σ, ∃ l, expandClass db fuel d s = some (.ok l s))
    (hf : ∀ l, Call.ReturnsFrom inv (f l)) :
    Call.ReturnsFrom inv (expandClass db fuel d >>= f) := by
  intro s hs
  obtain ⟨l, hl⟩ := hd s
  rw [Call.bind_of_ok hl]
  exact hf l s hs

/-- Each list is in step with its table. -/
def Tables.Sound (A : Hashtab T) (s : Tables T μ R) : Prop :=
  s.roleTr.Sound A roleKeyed ∧ s.rangeTr.Sound A rangeKeyed ∧
    s.filenameTrans.Sound A filenameKeyed

theorem Tables.sound_init (rest : R) : (Tables.init A rest : Tables T μ R).Sound A :=
  ⟨Store.sound_init, Store.sound_init, Store.sound_init⟩

private theorem onRest_returns (f : R → Rc × R) :
    Call.ReturnsFrom (Tables.Sound A) (onRest f : Call Rc (Tables T μ R) Unit) := by
  intro s hs
  unfold onRest
  split
  · exact Or.inl ⟨(), _, rfl, hs⟩
  · exact Or.inr ⟨_, _, rfl⟩

private theorem roletransToPolicydb_returns {t : Roletransition δ} (hsrc : RoleReady db t.src)
    (htgt : TypeReady db t.tgt) (hobj : ClassReady db t.obj) :
    ∃ n, ∀ fuel, n ≤ fuel → Call.ReturnsFrom (Tables.Sound A)
      (roletransToPolicydb db pdb A fuel t : Call Rc (Tables T μ R) Unit) := by
  obtain ⟨roleBitmap, hrole, hroles⟩ := expandRole_ready hsrc
  obtain ⟨typeBitmap, htype, htypes⟩ := expandType_ready htgt
  obtain ⟨n, hn⟩ := expandClass_returns (σ := Tables T μ R) hobj
  refine ⟨n, fun fuel hle => ?_⟩
  unfold roletransToPolicydb
  rw [hrole, htype]
  refine returns_after_expandClass (hn fuel hle) fun classList =>
    Call.ReturnsFrom.orFail fun result _ => insertLoops_returns (fun a b c => ?_) hroles htypes
  exact (Store.returnsFrom_add Rc.eexist _ result).onPart (fun _ hs => hs.1)
    fun _ _ hs hpart => ⟨hpart, hs.2⟩

private theorem typetransitionToAvtab_returns {typeRule : Nametypetransition δ → R → Rc × R}
    {t : Nametypetransition δ} (hsrc : TypeReady db t.src)
    (htgt : TypeReady db t.tgt) (hobj : ClassReady db t.obj) :
    ∃ n, ∀ fuel, n ≤ fuel → Call.ReturnsFrom (Tables.Sound A)
      (typetransitionToAvtab db pdb A typeRule fuel t : Call Rc (Tables T μ R) Unit) := by
  obtain ⟨srcBitmap, hbits, hsrcs⟩ := expandType_ready hsrc
  obtain ⟨tgtBitmap, htgtBits, htgts⟩ := expandType_ready htgt
  obtain ⟨n, hn⟩ := expandClass_returns (σ := Tables T μ R) hobj
  refine ⟨n, fun fuel hle => ?_⟩
  unfold typetransitionToAvtab
  split
  · exact onRest_returns _
  · rw [hbits, htgtBits]
    refine returns_after_expandClass (hn fuel hle) fun classList =>
      Call.ReturnsFrom.orFail fun result _ => insertLoops_returns (fun a b c => ?_) hsrcs htgts
    exact (Store.returnsFrom_add Rc.eexist _ result).onPart (fun _ hs => hs.2.2)
      fun _ _ hs hpart => ⟨hs.1, hs.2.1, hpart⟩

variable [DecidableEq μ]

private theorem rangetransitionToPolicydb_returns {t : Rangetransition δ ρ}
    (hsrc : TypeReady db t.src) (hexec : TypeReady db t.exec) (hobj : ClassReady db t.obj) :
    ∃ n, ∀ fuel, n ≤ fuel → Call.ReturnsFrom (Tables.Sound A)
      (rangetransitionToPolicydb db pdb A fuel t : Call Rc (Tables T μ R) Unit) := by
  obtain ⟨srcBitmap, hbits, hsrcs⟩ := expandType_ready hsrc
  obtain ⟨tgtBitmap, htgtBits, htgts⟩ := expandType_ready hexec
  obtain ⟨n, hn⟩ := expandClass_returns (σ := Tables T μ R) hobj
  refine ⟨n, fun fuel hle => ?_⟩
  unfold rangetransitionToPolicydb
  rw [hbits, htgtBits]
  refine returns_after_expandClass (hn fuel hle) fun classList =>
    insertLoops_returns (fun a b c => Call.ReturnsFrom.orFail fun range _ => ?_) hsrcs htgts
  exact (Store.returnsFrom_add Rc.eexist _ range).onPart (fun _ hs => hs.2.1)
    fun _ _ hs hpart => ⟨hs.1, hpart, hs.2.2⟩

variable {typeRule : Nametypetransition δ → R → Rc × R}

private theorem nodeToPolicydb_returns {stmt : Statement δ ρ} (h : stmt.Ready db) :
    ∃ n, ∀ fuel, n ≤ fuel → Call.ReturnsFrom (Tables.Sound A)
      (nodeToPolicydb db pdb A typeRule fuel stmt : Call Rc (Tables T μ R) Unit) := by
  cases stmt with
  | roletransition t => exact roletransToPolicydb_returns h.1 h.2.1 h.2.2
  | rangetransition t =>
    have hrange : ∃ n, ∀ fuel, n ≤ fuel → Call.ReturnsFrom (Tables.Sound A)
        (rangetransitionToPolicydb db pdb A fuel t : Call Rc (Tables T μ R) Unit) :=
      rangetransitionToPolicydb_returns h.1 h.2.1 h.2.2
    obtain ⟨n, hn⟩ := hrange
    refine ⟨n, fun fuel hle => ?_⟩
    show Call.ReturnsFrom (Tables.Sound A)
      (if pdb.mls = true then rangetransitionToPolicydb db pdb A fuel t else pure ())
    split
    · exact hn fuel hle
    · exact Call.ReturnsFrom.pure ()
  | nametypetransition t => exact typetransitionToAvtab_returns h.1 h.2.1 h.2.2

/-- The insertions come to an end and follow no bad pointer. -/
private theorem toPolicydb_returns {statements : List (Statement δ ρ)}
    (h : ∀ stmt ∈ statements, stmt.Ready db) :
    ∃ n, ∀ fuel, n ≤ fuel → Call.ReturnsFrom (Tables.Sound A)
      (toPolicydb db pdb A typeRule fuel statements : Call Rc (Tables T μ R) Unit) := by
  have hall : ∃ n, ∀ fuel, n ≤ fuel → ∀ stmt ∈ statements, Call.ReturnsFrom (Tables.Sound A)
      (nodeToPolicydb db pdb A typeRule fuel stmt : Call Rc (Tables T μ R) Unit) := by
    induction statements with
    | nil => exact ⟨0, by simp⟩
    | cons stmt rest ih =>
      obtain ⟨n, hn⟩ := ih fun x hx => h x (List.mem_cons_of_mem stmt hx)
      have hfirst : ∃ m, ∀ fuel, m ≤ fuel → Call.ReturnsFrom (Tables.Sound A)
          (nodeToPolicydb db pdb A typeRule fuel stmt : Call Rc (Tables T μ R) Unit) :=
        nodeToPolicydb_returns (h stmt List.mem_cons_self)
      obtain ⟨m, hm⟩ := hfirst
      refine ⟨max n m, fun fuel hle x hx => ?_⟩
      have hnle : n ≤ fuel := by omega
      have hmle : m ≤ fuel := by omega
      rcases List.mem_cons.mp hx with rfl | hx
      · exact hm fuel hmle
      · exact hn fuel hnle x hx
  obtain ⟨n, hn⟩ := hall
  exact ⟨n, fun fuel hle => Call.ReturnsFrom.forEach (hn fuel hle)⟩

end Returns

section Main

variable {β δ κ ρ μ T R : Type} [DecidableEq μ] (db : Db β δ κ) (pdb : Policydb δ ρ μ)
  (A : Hashtab T) (typeRule : Nametypetransition δ → R → Rc × R) (rest : R)
  (statements : List (Statement δ ρ))

end Main

section AbstractType

/-- A table is the list of its entries. -/
def listedHashtab : Hashtab (List (Nat × Nat)) where
  create _ := []
  contents t := t
  insert _ compare t key datum :=
    if t.any fun e => compare key e.1 = 0 then .present else .inserted ((key, datum) :: t)
  search _ compare t key := (t.find? fun e => compare key e.1 = 0).map Prod.snd
  Placed _ _ := True
  contents_create _ := rfl
  placed_create _ _ := trivial
  placed_congr _ _ _ _ _ := trivial
  insert_inserted := by
    intro hash compare t key datum t' _ _ h
    split at h
    · cases h
    · rename_i hnone
      cases h
      refine ⟨fun e he hzero => hnone ?_, List.Perm.refl _, trivial⟩
      exact List.any_eq_true.mpr ⟨e, he, decide_eq_true hzero⟩
  insert_present := by
    intro hash compare t key datum h
    split at h
    · rename_i hany
      obtain ⟨e, he, hzero⟩ := List.any_eq_true.mp hany
      exact ⟨e, he, of_decide_eq_true hzero⟩
    · cases h
  search_some := by
    intro hash compare t key datum h
    obtain ⟨e, hfind, rfl⟩ := Option.map_eq_some_iff.mp h
    have hzero := List.find?_some (p := fun e : Nat × Nat => decide (compare key e.1 = 0)) hfind
    exact ⟨e, List.mem_of_find?_eq_some hfind, rfl, of_decide_eq_true hzero⟩
  search_none := by
    intro hash compare t key _ _ h e he hzero
    rw [Option.map_eq_none_iff, List.find?_eq_none] at h
    exact h e he (decide_eq_true hzero)

/-- The type of an abstract block, a type, two roles and a class. -/
inductive AbstractName
  | abT
  | u
  | r
  | r2
  | c
  deriving DecidableEq, Repr

/-- The type of the abstract block has the value with which it was made. -/
def abstractDb : Db (List Nat) AbstractName Unit where
  bitmap := Verify.listEnumBitmap
  numbers := ⟨fun _ => 0, fun i => if i = 0 then some .r else some .r2, fun _ => none,
    fun _ => none⟩
  roleValue d := if d = .r2 then 1 else 0
  valToType i := if i = 0 then some .u else none
  classperms _ := none
  classOf _ := .c

def abstractPolicydb : Policydb AbstractName Unit Unit where
  sepolRole
    | .r => some 1
    | .r2 => some 2
    | _ => none
  sepolType d := if d = .u then some 1 else none
  sepolClass d := if d = .c then some 1 else none
  mlsRange _ := none
  mls := false

/-- `(roletransition r ab.t c r2)`. -/
def abstractTransition : List (Statement AbstractName Unit) :=
  [.roletransition ⟨.role .r, .type .abT, .kernel .c, .r2⟩]

/-- The tables with the transition of the first type. -/
def abstractTables : Tables (List (Nat × Nat)) Unit Unit where
  roleTr := ⟨Function.update (fun _ => none) 0 (some (⟨1, 1, 1⟩, 2)), 1, [0], [(0, 0)], false⟩
  rangeTr := Store.init listedHashtab rangeKeyed
  filenameTrans := Store.init listedHashtab filenameKeyed
  rest := ()

end AbstractType

end Cil.Binary.Transitions
