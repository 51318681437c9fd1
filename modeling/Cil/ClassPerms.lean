/- Cil/ClassPerms
   digest: Class permission lists and the recursions that follow them. -/

import Cil.Basic

set_option autoImplicit false
set_option relaxedAutoImplicit false

namespace Cil.ClassPerms

/-- An item of the `perms` list of a `cil_classperms` for a map class: a map permission, or
an operator or a sublist of an expression. -/
inductive PermItem (δ : Type)
  | perm (p : δ)
  | operand
  deriving DecidableEq, Repr

/-- An item of a class permission list: permissions of a kernel class, of a map class, or a
named set. Sets and map permissions are declarations, of type `δ`. -/
inductive Item (κ δ : Type)
  | kernel (cp : κ)
  | map (perms : List (PermItem δ))
  | set (s : δ)
  deriving DecidableEq, Repr

/-- The field `classperms`, `none` while it is null. -/
abbrev ItemList (κ δ : Type) := Option (List (Item κ δ))

/-- What a recursion leaves behind. -/
inductive Walked (σ : Type)
  | done (rc : Rc) (state : σ)
  | crash

/-- The `if (rc != SEPOL_OK) goto exit` after a call. -/
def Walked.andThen {σ : Type} (r : Option (Walked σ)) (next : σ → Option (Walked σ)) :
    Option (Walked σ) :=
  match r with
  | some (.done .ok state) => next state
  | r => r

section Walk

variable {κ δ σ : Type} (classperms : δ → ItemList κ δ) (leaf : σ → κ → Rc × σ)

/-- The loop over the permissions of a map class. An operator or a sublist is taken for a
permission. -/
def walkPerms (below : σ → ItemList κ δ → Option (Walked σ)) :
    σ → List (PermItem δ) → Option (Walked σ)
  | state, [] => some (.done .ok state)
  | _, .operand :: _ => some .crash
  | state, .perm p :: rest =>
      Walked.andThen (below state (classperms p)) fun state => walkPerms below state rest

/-- The loop over a class permission list. -/
def walkItems (below : σ → ItemList κ δ → Option (Walked σ)) :
    σ → List (Item κ δ) → Option (Walked σ)
  | state, [] => some (.done .ok state)
  | state, .kernel cp :: rest =>
      Walked.andThen (some (.done (leaf state cp).1 (leaf state cp).2)) fun state =>
        walkItems below state rest
  | state, .map perms :: rest =>
      Walked.andThen (walkPerms classperms below state perms) fun state =>
        walkItems below state rest
  | state, .set s :: rest =>
      Walked.andThen (below state (classperms s)) fun state => walkItems below state rest

/-- The recursion the functions below share: `leaf` is what they do with the permissions of
a kernel class. `none` when the fuel for its depth runs out. -/
def walk : Nat → σ → ItemList κ δ → Option (Walked σ)
  | 0, _, _ => none
  | _ + 1, _, none => some .crash
  | fuel + 1, state, some items => walkItems classperms leaf (walk fuel) state items

end Walk

section Callers

variable {κ δ σ : Type} (classperms : δ → ItemList κ δ)

/-- `__evaluate_classperms_list`, with `__evaluate_classperms` as its step. -/
def evaluateClasspermsList (evaluateClassperms : σ → κ → Rc × σ) :
    Nat → σ → ItemList κ δ → Option (Walked σ) :=
  walk classperms evaluateClassperms

/-- `__cil_avrule_expand`, with `__cil_avrule_expand_helper` as its step. -/
def avruleExpand (avruleExpandHelper : σ → κ → Rc × σ) :
    Nat → σ → ItemList κ δ → Option (Walked σ) :=
  walk classperms avruleExpandHelper

/-- `cil_constrain_expand`, with `cil_constrain_to_policydb_helper` as its step. -/
def constrainExpand (constrainToPolicydbHelper : σ → κ → Rc × σ) :
    Nat → σ → ItemList κ δ → Option (Walked σ) :=
  walk classperms constrainToPolicydbHelper

/-- `__add_classes_from_classperms_list`, on the list of classes gathered so far. -/
def addClassesFromClasspermsList {γ : Type} (classOf : κ → γ) :
    Nat → List γ → ItemList κ δ → Option (Walked (List γ)) :=
  walk classperms fun classes cp => (.ok, classes ++ [classOf cp])

end Callers

end Cil.ClassPerms
