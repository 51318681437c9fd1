/- Cil/Resolve/Permissions
   digest: Names of permissions become permissions, and what that keeps of an expression. -/

import Cil.ExprResolution
import Cil.ExprValues

set_option autoImplicit false
set_option relaxedAutoImplicit false

namespace Cil.Resolve.Permissions

open Cil.Expr

variable {π : Type}

/-- The permissions of a class, or of a class map, and those of its common. -/
structure Symtabs (π : Type) where
  perms : List (String × π)
  common : Option (List (String × π))

namespace Symtabs

/-- The common is asked where the class itself has no such permission. -/
def get (t : Symtabs π) (s : String) : Option π :=
  match t.perms.lookup s, t.common with
  | none, some common => common.lookup s
  | found, _ => found

/-- All permissions, first those of the class. -/
def all (t : Symtabs π) : List π :=
  t.perms.map Prod.snd ++ (t.common.getD []).map Prod.snd

private theorem mem_of_lookup {l : List (String × π)} {s : String} {p : π}
    (h : l.lookup s = some p) :
    p ∈ l.map Prod.snd := by
  induction l with
  | nil => cases h
  | cons e l ih =>
    rw [List.lookup_cons] at h
    split at h
    · exact List.mem_cons.mpr (Or.inl (Option.some.inj h).symm)
    · exact List.mem_cons_of_mem _ (ih h)

theorem mem_all_of_get {t : Symtabs π} {s : String} {p : π} (h : t.get s = some p) : p ∈ t.all := by
  unfold get at h
  rw [all, List.mem_append]
  split at h
  · rename_i common _ hcommon
    right
    rw [hcommon]
    exact mem_of_lookup h
  · left
    exact mem_of_lookup h

end Symtabs

section Resolve

variable {δ ε : Type} (get : δ → Option ε)

/-- `__cil_resolve_perms`, with `get` for the two symbol tables. -/
abbrev resolvePerms : List (Item δ) → Option (List (Item ε)) := resolveItems get

variable {get}

/-- The set a written name stands for. -/
def named (get : δ → Option ε) (s : δ) : Set ε := {p | get s = some p}

section Kept

variable (get) (all : Set ε)

/-- An expression keeps its form and its value when it is resolved. -/
def Kept (l : List (Item δ)) : Prop :=
  wellFormed false l = true → ∀ l', resolveItems get l = some l' →
    wellFormed false l' = true ∧ value all (named get) l = value all (fun p => {p}) l'

/-- So do operands. -/
def KeptItems (l : List (Item δ)) : Prop :=
  operandsFormed false l = true → ∀ l', resolveItems get l = some l' →
    operandsFormed false l' = true ∧
      valueList all (named get) l = valueList all (fun p => {p}) l'

def KeptItem (i : Item δ) : Prop :=
  operandFormed false i = true → ∀ i', resolveItem get i = some i' →
    operandFormed false i' = true ∧ valueItem all (named get) i = valueItem all (fun p => {p}) i'

variable {get all}

private theorem kept_not {i : Item δ} (hi : KeptItem get all i) : Kept get all [.op .not, i] := by
  intro hl l' h
  obtain ⟨rest', rfl, hrest⟩ := resolveItems_op h
  obtain ⟨i', rfl, hri⟩ := resolveItems_singleton hrest
  simp only [wellFormed, value] at hl ⊢
  obtain ⟨hform, hval⟩ := hi hl i' hri
  exact ⟨hform, by rw [hval]⟩

private theorem kept_binary {o : Op} (ho : o = .and ∨ o = .or ∨ o = .xor) {i j : Item δ}
    (hi : KeptItem get all i) (hj : KeptItem get all j) : Kept get all [.op o, i, j] := by
  intro hl l' h
  obtain ⟨rest', rfl, hrest⟩ := resolveItems_op h
  obtain ⟨i', j', rfl, hri, hrj⟩ := resolveItems_pair hrest
  have hformed : operandFormed false i = true ∧ operandFormed false j = true := by
    rcases ho with rfl | rfl | rfl <;> simpa only [wellFormed, Bool.and_eq_true] using hl
  obtain ⟨hformi, hvali⟩ := hi hformed.1 i' hri
  obtain ⟨hformj, hvalj⟩ := hj hformed.2 j' hrj
  rcases ho with rfl | rfl | rfl <;>
    simp only [wellFormed, value, Bool.and_eq_true, hformi, hformj, hvali, hvalj, and_self]

theorem kept_cons {i : Item δ} {rest : List (Item δ)} (hop : ∀ o, i ≠ .op o)
    (hi : KeptItem get all i) (hrest : KeptItems get all rest) : Kept get all (i :: rest) := by
  intro hl l' h
  obtain ⟨i', rest', rfl, hri, hrr⟩ := resolveItems_cons h
  have hop' : ∀ o, i' ≠ .op o := by
    intro o heq
    rw [heq] at hri
    exact hop o (resolveItem_eq_op hri)
  rw [wellFormed, Bool.and_eq_true] at hl
  · obtain ⟨hformi, hvali⟩ := hi hl.1 i' hri
    obtain ⟨hform, hval⟩ := hrest hl.2 rest' hrr
    constructor
    · rw [wellFormed, Bool.and_eq_true]
      · exact ⟨hformi, hform⟩
      all_goals simp [hop']
    · rw [value, value, hvali, hval]
      all_goals simp [hop, hop']
  all_goals simp [hop]

private theorem kept_datum (s : δ) : KeptItem get all (.datum s) := by
  intro _ i' h
  obtain ⟨p, hp, rfl⟩ := resolveItem_datum h
  refine ⟨rfl, ?_⟩
  simp only [valueItem, named]
  ext q
  simp [hp, eq_comm]

end Kept

/-- What the builder lets through keeps its form and its value when it is resolved. -/
theorem resolvePerms_keeps (all : Set ε) (l : List (Item δ)) (hl : wellFormed false l = true)
    (l' : List (Item ε)) (h : resolvePerms get l = some l') :
    wellFormed false l' = true ∧ value all (named get) l = value all (fun p => {p}) l' := by
  revert hl l'
  refine wellFormed.induct (Kept get all) (KeptItems get all) (KeptItem get all)
    ?datum ?list ?other ?all ?range ?not ?and ?or ?xor ?op ?empty ?plain ?nil ?cons l
  case all =>
    intro _ l' h
    obtain ⟨rest', rfl, hrest⟩ := resolveItems_op h
    rw [resolveItems_nil hrest]
    simp [wellFormed, value]
  case range =>
    intro d1 d2 hl
    simp [wellFormed] at hl
  case not => exact fun i hi => kept_not hi
  case and => exact fun i j hi hj => kept_binary (.inl rfl) hi hj
  case or => exact fun i j hi hj => kept_binary (.inr (.inl rfl)) hi hj
  case xor => exact fun i j hi hj => kept_binary (.inr (.inr rfl)) hi hj
  case op =>
    intro o tail hall hrange hnot hand hor hxor hl
    rw [wellFormed] at hl
    · cases hl
    all_goals assumption
  case empty =>
    intro _ l' h
    rw [resolveItems_nil h]
    simp [wellFormed, value]
  case plain => exact fun i rest _ _ _ _ _ _ hop hi hrest => kept_cons hop hi hrest
  case nil =>
    intro _ l' h
    rw [resolveItems_nil h]
    simp [operandsFormed, valueList]
  case cons =>
    intro i rest ihi ihrest hl l' h
    obtain ⟨i', rest', rfl, hri, hrest⟩ := resolveItems_cons h
    simp only [operandsFormed, valueList, Bool.and_eq_true] at hl ⊢
    obtain ⟨hformi, hvali⟩ := ihi hl.1 i' hri
    obtain ⟨hform, hval⟩ := ihrest hl.2 rest' hrest
    exact ⟨⟨hformi, hform⟩, by rw [hvali, hval]⟩
  case datum => exact fun s => kept_datum s
  case list =>
    intro l ih hl i' h
    obtain ⟨l', hl', rfl⟩ := resolveItem_list h
    simp only [operandFormed, valueItem] at hl ⊢
    exact ih hl l' hl'
  case other =>
    intro i hdatum hlist hl
    rw [operandFormed] at hl
    · cases hl
    all_goals assumption

end Resolve

end Cil.Resolve.Permissions
