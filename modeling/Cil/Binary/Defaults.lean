/- Cil/Binary/Defaults
   digest: The default labeling of classes, whatever the order of the statements. -/

import Cil.Binary.TransitionsExact
import Cil.Library.WriteOnce

set_option autoImplicit false
set_option relaxedAutoImplicit false

namespace Cil.Binary.Defaults

open Library
open Library.WriteOnce
open Transitions (ClassDatum Db ClassOf ClassReady expandClass expandClass_ok expandClass_returns)

section Statements

/-- The fields of `class_datum_t` for defaults. -/
inductive Field
  | user | role | type | range
  deriving DecidableEq, Repr

/-- `cil_default_object`. -/
inductive DefaultObject
  | source | target
  deriving DecidableEq, Repr

/-- `cil_default_object_range`. -/
inductive DefaultObjectRange
  | sourceLow | sourceHigh | sourceLowHigh | targetLow | targetHigh | targetLowHigh
  deriving DecidableEq, Repr

/-- The constants of the policy library that the objects are; zero stands for no default. -/
structure Constants where
  object : DefaultObject → Nat
  objectRange : DefaultObjectRange → Nat
  object_ne_zero : ∀ o, object o ≠ 0
  objectRange_ne_zero : ∀ o, objectRange o ≠ 0

/-- The flavors of `cil_default`. -/
inductive DefaultFlavor
  | defaultuser | defaultrole | defaulttype
  deriving DecidableEq, Repr

/-- `cil_default`, resolved. -/
structure Default (δ : Type) where
  flavor : DefaultFlavor
  classDatums : List (ClassDatum δ)
  object : DefaultObject
  deriving DecidableEq, Repr

/-- `cil_defaultrange`, resolved. -/
structure Defaultrange (δ : Type) where
  classDatums : List (ClassDatum δ)
  objectRange : DefaultObjectRange
  deriving DecidableEq, Repr

/-- A node of the second pass. -/
inductive Statement (δ : Type)
  | object (d : Default δ)
  | range (d : Defaultrange δ)
  deriving DecidableEq, Repr

/-- The defaults of the classes in a policy, by the qualified names of the classes. -/
abbrev ClassDefaults := String × Field → Nat

end Statements

section Code

variable {β δ κ : Type} (K : Constants) (db : Db β δ κ) (fqn : δ → String)
  (isClass : String → Bool)

/-- The turn for one class of the loops below. -/
def setDefault (field : Field) (value : Nat) (c : δ) : Call Rc ClassDefaults Unit :=
  if isClass (fqn c) then write 0 .err (fqn c, field) value else Call.fail .err

def DefaultFlavor.field : DefaultFlavor → Field
  | .defaultuser => .user
  | .defaultrole => .role
  | .defaulttype => .type

/-- `cil_default_to_policydb`. -/
def cilDefaultToPolicydb (fuel : Nat) (d : Default δ) : Call Rc ClassDefaults Unit :=
  Call.forEach (fun curr =>
    expandClass db fuel curr >>= fun classList =>
    Call.forEach (setDefault fqn isClass d.flavor.field (K.object d.object)) classList)
      d.classDatums

/-- `cil_defaultrange_to_policydb`. -/
def cilDefaultrangeToPolicydb (fuel : Nat) (d : Defaultrange δ) : Call Rc ClassDefaults Unit :=
  Call.forEach (fun curr =>
    expandClass db fuel curr >>= fun classList =>
    Call.forEach (setDefault fqn isClass .range (K.objectRange d.objectRange)) classList)
    d.classDatums

/-- `__cil_node_to_policydb`. -/
def nodeToPolicydb (fuel : Nat) : Statement δ → Call Rc ClassDefaults Unit
  | .object d => cilDefaultToPolicydb K db fqn isClass fuel d
  | .range d => cilDefaultrangeToPolicydb K db fqn isClass fuel d

/-- The second pass, which starts without defaults. -/
def toPolicydb (fuel : Nat) (statements : List (Statement δ)) :
    Option (Returned Rc ClassDefaults Unit) :=
  Call.forEach (nodeToPolicydb K db fqn isClass fuel) statements fun _ => 0

end Code

section Meaning

variable {β δ κ : Type} (K : Constants) (db : Db β δ κ) (fqn : δ → String)

def Statement.classDatums : Statement δ → List (ClassDatum δ)
  | .object d => d.classDatums
  | .range d => d.classDatums

def Statement.field : Statement δ → Field
  | .object d => d.flavor.field
  | .range _ => .range

def Statement.value : Statement δ → Nat
  | .object d => K.object d.object
  | .range d => K.objectRange d.objectRange

/-- A class that a statement names, itself or in a map. -/
def Statement.Names (t : Statement δ) (c : δ) : Prop := ∃ d ∈ t.classDatums, ClassOf db d c

/-- What a statement says of a class. -/
def Says (statements : List (Statement δ)) (key : String × Field) (value : Nat) : Prop :=
  ∃ t ∈ statements, t.field = key.2 ∧ t.value K = value ∧ ∃ c, t.Names db c ∧ fqn c = key.1

end Meaning

section Runs

variable {β δ κ : Type} {K : Constants} {db : Db β δ κ} {fqn : δ → String}
  {isClass : String → Bool}

private theorem Statement.value_ne_zero (t : Statement δ) : t.value K ≠ 0 := by
  cases t with
  | object d => exact K.object_ne_zero d.object
  | range d => exact K.objectRange_ne_zero d.objectRange

private theorem setDefault_assigns {field : Field} {value : Nat} (hvalue : value ≠ 0) (c : δ) :
    Assigns 0 {((fqn c, field), value)} (isClass (fqn c) = true)
      (setDefault fqn isClass field value c) := by
  unfold setDefault
  by_cases hclass : isClass (fqn c) = true
  · rw [if_pos hclass]
    exact (assigns_write Rc.err hvalue).of_eq rfl ⟨fun _ => hclass, fun _ => trivial⟩
  · rw [if_neg hclass]
    exact (assigns_fail Rc.err _).of_eq rfl ⟨False.elim, fun h => absurd h hclass⟩

variable (fqn isClass)

/-- A name among classes and map classes, on all its classes. -/
private theorem expanded_assigns (field : Field) {value : Nat} (hvalue : value ≠ 0)
    {d : ClassDatum δ} (hready : ClassReady db d) :
    ∃ n, ∀ fuel, n ≤ fuel →
      Assigns 0 {w | ∃ c, ClassOf db d c ∧ w = ((fqn c, field), value)}
        (∀ c, ClassOf db d c → isClass (fqn c) = true)
        (expandClass db fuel d >>= fun classList =>
          Call.forEach (setDefault fqn isClass field value) classList) := by
  have hreturns : ∃ n, ∀ fuel, n ≤ fuel → ∀ s : ClassDefaults,
      ∃ l, expandClass db fuel d s = some (.ok l s) := expandClass_returns hready
  obtain ⟨n, hn⟩ := hreturns
  refine ⟨n, fun fuel hfuel => Assigns.after fun s => ?_⟩
  obtain ⟨l, hl⟩ := hn fuel hfuel s
  obtain ⟨-, hmem⟩ := expandClass_ok hl
  refine ⟨l, hl, ?_⟩
  refine (Assigns.forEach l fun c _ => setDefault_assigns hvalue c).of_eq ?_ ?_
  · ext w
    simp only [Set.mem_ofPred_eq, Set.mem_singleton_iff, hmem]
  · simp only [hmem]

/-- A bound that is enough for each entry of a list is there for all of them. -/
theorem exists_fuel {α : Type} {p : α → Nat → Prop} (xs : List α)
    (h : ∀ x ∈ xs, ∃ n, ∀ fuel, n ≤ fuel → p x fuel) :
    ∃ n, ∀ fuel, n ≤ fuel → ∀ x ∈ xs, p x fuel := by
  induction xs with
  | nil => exact ⟨0, fun fuel _ x hx => absurd hx List.not_mem_nil⟩
  | cons x xs ih =>
      obtain ⟨n, hn⟩ := h x List.mem_cons_self
      obtain ⟨m, hm⟩ := ih fun y hy => h y (List.mem_cons_of_mem x hy)
      refine ⟨max n m, fun fuel hfuel y hy => ?_⟩
      have hnfuel : n ≤ fuel := by omega
      have hmfuel : m ≤ fuel := by omega
      rcases List.mem_cons.mp hy with rfl | hrest
      · exact hn fuel hnfuel
      · exact hm fuel hmfuel y hrest

theorem nodeToPolicydb_eq (fuel : Nat) (t : Statement δ) :
    nodeToPolicydb K db fqn isClass fuel t = Call.forEach (fun curr =>
      expandClass db fuel curr >>= fun classList =>
      Call.forEach (setDefault fqn isClass t.field (t.value K)) classList) t.classDatums := by
  cases t <;> rfl

variable (K)

private theorem nodeToPolicydb_assigns {t : Statement δ}
    (hready : ∀ d ∈ t.classDatums, ClassReady db d) :
    ∃ n, ∀ fuel, n ≤ fuel →
      Assigns 0 {w | ∃ c, t.Names db c ∧ w = ((fqn c, t.field), t.value K)}
        (∀ c, t.Names db c → isClass (fqn c) = true)
        (nodeToPolicydb K db fqn isClass fuel t) := by
  have hvalue : t.value K ≠ 0 := t.value_ne_zero
  obtain ⟨n, hn⟩ := exists_fuel t.classDatums fun d hd =>
    expanded_assigns fqn isClass t.field hvalue (hready d hd)
  refine ⟨n, fun fuel hfuel => ?_⟩
  rw [nodeToPolicydb_eq]
  refine (Assigns.forEach t.classDatums fun d hd => hn fuel hfuel d hd).of_eq ?_ ?_
  · ext w
    unfold Statement.Names
    constructor
    · rintro ⟨d, hd, c, hc, rfl⟩
      exact ⟨c, ⟨d, hd, hc⟩, rfl⟩
    · rintro ⟨c, ⟨d, hd, hc⟩, rfl⟩
      exact ⟨d, hd, c, hc, rfl⟩
  · unfold Statement.Names
    constructor
    · rintro h c ⟨d, hd, hc⟩
      exact h d hd c hc
    · intro h d hd c hc
      exact h c ⟨d, hd, hc⟩

/-- The class and the field that a statement sets. -/
def said (K : Constants) (db : Db β δ κ) (fqn : δ → String) (statements : List (Statement δ)) :
    Set ((String × Field) × Nat) :=
  {w | Says K db fqn statements w.1 w.2}

private theorem statements_assign {statements : List (Statement δ)}
    (hready : ∀ t ∈ statements, ∀ d ∈ t.classDatums, ClassReady db d) :
    ∃ n, ∀ fuel, n ≤ fuel → ∀ order : List (Statement δ), order.Perm statements →
      Assigns 0 (said K db fqn statements)
        (∀ t ∈ statements, ∀ c, t.Names db c → isClass (fqn c) = true)
        (Call.forEach (nodeToPolicydb K db fqn isClass fuel) order) := by
  obtain ⟨n, hn⟩ := exists_fuel statements fun t ht =>
    nodeToPolicydb_assigns K fqn isClass (hready t ht)
  refine ⟨n, fun fuel hfuel order hperm => ?_⟩
  have hall := Assigns.forEach order fun t ht => hn fuel hfuel t (hperm.mem_iff.mp ht)
  refine hall.of_eq ?_ ?_
  · ext ⟨⟨key, field⟩, value⟩
    constructor
    · rintro ⟨t, ht, c, hc, heq⟩
      cases heq
      exact ⟨t, hperm.mem_iff.mp ht, rfl, rfl, c, hc, rfl⟩
    · rintro ⟨t, ht, hfield, hvalue, c, hc, hkey⟩
      refine ⟨t, hperm.mem_iff.mpr ht, c, hc, ?_⟩
      show ((key, field), value) = ((fqn c, t.field), t.value K)
      rw [hfield, hvalue, hkey]
  · simp only [hperm.mem_iff]

private theorem says_ne_zero {statements : List (Statement δ)} {key : String × Field} {value : Nat}
    (h : Says K db fqn statements key value) : value ≠ 0 := by
  obtain ⟨t, -, -, rfl, -⟩ := h
  exact t.value_ne_zero

end Runs

section MapClass

open ClassPerms (mentions)

/-- The permission 3 of a map class stands for permissions of the classes 1 and 2. -/
def mapDb : Db (Finset Nat) Nat Nat where
  bitmap := Verify.finsetEnumBitmap
  numbers := ⟨id, some, fun _ => none, fun _ => none⟩
  roleValue := id
  valToType := some
  classperms p := if p = 3 then some [.kernel 1, .kernel 2] else none
  classOf := id

def constants : Constants where
  object
    | .source => 1
    | .target => 2
  objectRange
    | .sourceLow => 1
    | .sourceHigh => 2
    | .sourceLowHigh => 3
    | .targetLow => 4
    | .targetHigh => 5
    | .targetLowHigh => 6
  object_ne_zero o := by cases o <;> decide
  objectRange_ne_zero o := by cases o <;> decide

/-- Defaults for a map class, and again for a class of it. -/
def mapDefaults : List (Statement Nat) :=
  [.object ⟨.defaultuser, [.map [3]], .source⟩, .object ⟨.defaultuser, [.kernel 2], .source⟩,
    .range ⟨[.kernel 1], .targetLow⟩]

def className (c : Nat) : String := if c = 1 then "file" else "dir"

private theorem mapDefaults_ready : ∀ t ∈ mapDefaults, ∀ d ∈ t.classDatums, ClassReady mapDb d := by
  have hmap : ClassReady mapDb (.map [3]) := by
    intro p hp
    rw [List.mem_singleton.mp hp]
    have hnone : mentions mapDb.classperms 3 = [] := rfl
    refine .intro (fun e he => ?_) fun b hb => ?_
    · rw [hnone] at he
      exact absurd he List.not_mem_nil
    · have hmem : some b ∈ mentions mapDb.classperms 3 := hb
      rw [hnone] at hmem
      exact absurd hmem List.not_mem_nil
  intro t ht d hd
  simp only [mapDefaults, List.mem_cons, List.not_mem_nil, or_false] at ht
  rcases ht with rfl | rfl | rfl <;> rw [List.mem_singleton.mp hd]
  · exact hmap
  · trivial
  · trivial

end MapClass

end Cil.Binary.Defaults
