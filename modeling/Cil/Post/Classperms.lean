/- Cil/Post/Classperms
   digest: Permission expressions become lists, and rules gather what is in them. -/

import Cil.ClassPerms
import Cil.Resolve.Permissions

set_option autoImplicit false
set_option relaxedAutoImplicit false

namespace Cil.Post.Classperms

open Cil.Library Cil.Expr Cil.Resolve.Permissions

/-- `CIL_CLASS` and `CIL_MAP_CLASS`. -/
inductive ClassFlavor
  | kernel
  | map
  deriving DecidableEq, Repr

/-- An item of a class permission list as built: the permissions of a class or of a class map,
or a named set. -/
inductive ListItem (κ ς : Type)
  | classperms (cp : κ)
  | classpermsSet (s : ς)
  deriving DecidableEq, Repr

/-- The values of the permissions of a class tell them apart, and are below `num_perms`, as the
builder leaves them; those of a class that `cil_copy_ast` has made are all zero. -/
structure Numbered {π : Type} (value : π → Nat) (numPerms : Nat) (perms : List π) : Prop where
  injective : Set.InjOn value {p | p ∈ perms}
  below : ∀ p ∈ perms, value p < numPerms

/-- A resolved policy: its classes and class maps with their permissions, the class permissions
written in it, and the class permission lists of map permissions and of named sets. -/
structure Policy (γ κ π ς : Type) where
  flavor : γ → ClassFlavor
  symtabs : γ → Symtabs π
  value : π → Nat
  numPerms : γ → Nat
  classOf : κ → γ
  permStrs : κ → List (Item String)
  perms : κ → List (Item π)
  permClassperms : π → Option (List (ListItem κ ς))
  setClassperms : ς → Option (List (ListItem κ ς))
  formed : ∀ cp, wellFormed false (permStrs cp) = true
  resolved : ∀ cp, resolvePerms (symtabs (classOf cp)).get (permStrs cp) = some (perms cp)

/-- The field `perms` of all class permissions: well-formed lists of permissions of the class. -/
structure Perms {γ κ π ς : Type} (P : Policy γ κ π ς) where
  perms : κ → List (Item π)
  formed : ∀ cp, wellFormed false (perms cp) = true
  known : ∀ cp, ∀ p ∈ mentioned (perms cp), p ∈ (P.symtabs (P.classOf cp)).all

section Evaluation

variable {π β : Type} (B : Bitmap β) (value : π → Nat)

/-- `cil_verify_is_list`. -/
def verifyIsList : List (Item π) → Bool
  | [] => true
  | .list _ :: _ => false
  | .op _ :: _ => false
  | _ :: rest => verifyIsList rest

/-- `__cil_perm_to_bitmap`. -/
def permToBitmap (p : π) : Call Rc Unit β := pure (B.setBit B.init (value p))

/-- `__perm_bits_to_list`, mapped over a symbol table. -/
def permBitsToList (bitmap : β) (symtab : List (String × π)) : List π :=
  (symtab.map Prod.snd).filter fun p => B.getBit bitmap (value p)

/-- A new list for the permissions of a class. -/
abbrev NewList (t : Symtabs π) := {l : List π // ∀ p ∈ l, p ∈ t.all}

/-- The permissions of a class whose bits are set. -/
def newList (t : Symtabs π) (bitmap : β) : NewList t :=
  ⟨permBitsToList B value bitmap t.perms ++ permBitsToList B value bitmap (t.common.getD []), by
    intro p hp
    rw [Symtabs.all, List.mem_append]
    exact (List.mem_append.mp hp).imp List.mem_of_mem_filter List.mem_of_mem_filter⟩

/-- `__evaluate_perm_expression`; the list it returns is null where nothing is to be done. -/
def evaluatePermExpression (perms : List (Item π)) (t : Symtabs π) (numPerms : Nat) :
    Call Rc Unit (Option (NewList t)) :=
  if verifyIsList perms then pure none
  else do
    let bitmap ← exprToBitmap B numPerms (permToBitmap B value) none B.init perms
    pure (some (newList B value t bitmap))

end Evaluation

section Lists

variable {π : Type}

/-- A list is one of permissions where it holds neither operators nor lists. -/
def Plain (l : List (Item π)) : Prop := ∃ ds : List π, l = ds.map .datum

@[simp] theorem mentioned_datums (ds : List π) : mentioned (ds.map Item.datum) = ds := by
  induction ds with
  | nil => simp
  | cons d ds ih => simp [mentioned_cons, mentionedItem, ih]

private theorem operandsFormed_datums (ds : List π) :
    operandsFormed false (ds.map Item.datum) = true := by
  induction ds with
  | nil => simp [operandsFormed]
  | cons d ds ih => simp [operandsFormed, operandFormed, ih]

private theorem wellFormed_datums (ds : List π) : wellFormed false (ds.map Item.datum) = true := by
  cases ds with
  | nil => simp [wellFormed]
  | cons d ds =>
    rw [List.map_cons, wellFormed, Bool.and_eq_true]
    · exact ⟨rfl, operandsFormed_datums ds⟩
    all_goals simp

private theorem valueList_datums (all : Set π) (ds : List π) :
    valueList all (fun p => {p}) (ds.map Item.datum) = {p | p ∈ ds} := by
  induction ds with
  | nil => simp [valueList]
  | cons d ds ih =>
    simp only [List.map_cons, valueList, valueItem, ih]
    ext p
    simp

theorem value_datums (all : Set π) (ds : List π) :
    value all (fun p => {p}) (ds.map Item.datum) = {p | p ∈ ds} := by
  cases ds with
  | nil => simp [value]
  | cons d ds =>
    rw [List.map_cons, value]
    · rw [valueList_datums, valueItem]
      ext p
      simp
    all_goals simp

private theorem operandsFormed_plain {l : List (Item π)} (hl : operandsFormed false l = true)
    (h : verifyIsList l = true) : Plain l := by
  induction l with
  | nil => exact ⟨[], rfl⟩
  | cons i rest ih =>
    simp only [operandsFormed, Bool.and_eq_true] at hl
    cases i with
    | op o => cases h
    | list l => cases h
    | other => cases hl.1
    | datum d =>
      obtain ⟨ds, rfl⟩ := ih hl.2 h
      exact ⟨d :: ds, rfl⟩

/-- A well-formed list without operators and lists is one of permissions. -/
theorem plain_of_verifyIsList {l : List (Item π)} (hl : wellFormed false l = true)
    (h : verifyIsList l = true) : Plain l := by
  cases l with
  | nil => exact ⟨[], rfl⟩
  | cons i rest =>
    cases i with
    | op o => cases h
    | list l => cases h
    | _ =>
      apply operandsFormed_plain _ h
      rw [wellFormed] at hl
      · simpa [operandsFormed] using hl
      all_goals simp

end Lists

namespace Policy

variable {γ κ π ς : Type} (P : Policy γ κ π ς)

/-- What `__evaluate_classperms_list` and the functions after it take a permission of a map
for: an operator or a list leads them astray. -/
def permItem : Item π → ClassPerms.PermItem (π ⊕ ς)
  | .datum p => .perm (.inl p)
  | _ => .operand

/-- How these functions see an item of a class permission list. -/
def item : ListItem κ ς → ClassPerms.Item κ (π ⊕ ς)
  | .classperms cp =>
      match P.flavor (P.classOf cp) with
      | .kernel => .kernel cp
      | .map => .map ((P.perms cp).map permItem)
  | .classpermsSet s => .set (.inr s)

/-- The fields `classperms` of map permissions and of named sets. -/
def classperms : π ⊕ ς → ClassPerms.ItemList κ (π ⊕ ς)
  | .inl p => (P.permClassperms p).map (List.map P.item)
  | .inr s => (P.setClassperms s).map (List.map P.item)

theorem perms_formed (cp : κ) : wellFormed false (P.perms cp) = true :=
  (resolvePerms_keeps ∅ _ (P.formed cp) _ (P.resolved cp)).1

theorem perms_known (cp : κ) :
    ∀ p ∈ mentioned (P.perms cp), p ∈ (P.symtabs (P.classOf cp)).all := by
  intro p hp
  obtain ⟨s, hs⟩ := resolveItems_found _ _ (P.resolved cp) p hp
  exact Symtabs.mem_all_of_get hs

/-- The fields as the resolver leaves them. -/
def initial : Perms P := ⟨P.perms, P.perms_formed, P.perms_known⟩

end Policy

section Walks

variable {γ κ π ς β : Type} [DecidableEq κ] {P : Policy γ κ π ς}

/-- The permissions of `cp` are replaced by a new list. -/
def Perms.replace (s : Perms P) (cp : κ) (l : NewList (P.symtabs (P.classOf cp))) : Perms P where
  perms := Function.update s.perms cp (l.val.map .datum)
  formed := by
    intro cp'
    by_cases h : cp' = cp
    · subst h
      rw [Function.update_self]
      exact wellFormed_datums l.val
    · rw [Function.update_of_ne h]
      exact s.formed cp'
  known := by
    intro cp'
    by_cases h : cp' = cp
    · subst h
      rw [Function.update_self, mentioned_datums]
      exact l.property
    · rw [Function.update_of_ne h]
      exact s.known cp'

theorem Perms.replace_self (s : Perms P) (cp : κ) (l : NewList (P.symtabs (P.classOf cp))) :
    (s.replace cp l).perms cp = l.val.map .datum :=
  Function.update_self cp _ s.perms

theorem Perms.replace_of_ne (s : Perms P) {cp cp' : κ} (l : NewList (P.symtabs (P.classOf cp)))
    (h : cp' ≠ cp) : (s.replace cp l).perms cp' = s.perms cp' :=
  Function.update_of_ne h _ s.perms

variable (B : Bitmap β)

/-- `__evaluate_classperms`. The evaluation of a well-formed expression does not come to the
last case. -/
def evaluateClassperms (s : Perms P) (cp : κ) : Rc × Perms P :=
  match evaluatePermExpression B P.value (s.perms cp) (P.symtabs (P.classOf cp))
      (P.numPerms (P.classOf cp)) () with
  | some (.ok none _) => (.ok, s)
  | some (.ok (some l) _) => (.ok, s.replace cp l)
  | some (.failed rc _) => (rc, s)
  | _ => (.err, s)

/-- `__evaluate_classperms_list` on a list of class permissions. -/
def evaluateClasspermsList (fuel : Nat) (s : Perms P) (l : List (ListItem κ ς)) :
    Option (ClassPerms.Walked (Perms P)) :=
  ClassPerms.evaluateClasspermsList P.classperms (evaluateClassperms B) fuel s
    (some (l.map P.item))

/-- The permissions in a list, which has to hold nothing else. -/
def datums : List (Item π) → Option (List π)
  | [] => some []
  | .datum p :: rest => (datums rest).map (p :: ·)
  | _ :: _ => none

/-- `__cil_perms_to_datum`, as `__cil_avrule_expand_helper` and
`cil_constrain_to_policydb_helper` begin: all items are taken for permissions. The pairs
gathered are lost where one is not. -/
def permsToDatum (s : Perms P) (pairs : Option (List (γ × π))) (cp : κ) :
    Rc × Option (List (γ × π)) :=
  match pairs, datums (s.perms cp) with
  | some pairs, some ps => (.ok, some (pairs ++ ps.map fun p => (P.classOf cp, p)))
  | _, _ => (.err, none)

/-- What `__cil_avrule_expand` reaches. -/
def avruleExpand (s : Perms P) (fuel : Nat) (l : List (ListItem κ ς)) :
    Option (ClassPerms.Walked (Option (List (γ × π)))) :=
  ClassPerms.avruleExpand P.classperms (permsToDatum s) fuel (some []) (some (l.map P.item))

/-- What `cil_constrain_expand` reaches. -/
def constrainExpand (s : Perms P) (fuel : Nat) (l : List (ListItem κ ς)) :
    Option (ClassPerms.Walked (Option (List (γ × π)))) :=
  ClassPerms.constrainExpand P.classperms (permsToDatum s) fuel (some []) (some (l.map P.item))

end Walks

end Cil.Post.Classperms
