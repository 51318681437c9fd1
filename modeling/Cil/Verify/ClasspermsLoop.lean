/- Cil/Verify/ClasspermsLoop
   digest: The check for loops in class permissions, and the declarations it starts from. -/

import Cil.ClassPerms
import Cil.Tree

set_option autoImplicit false
set_option relaxedAutoImplicit false

namespace Cil.Verify.ClasspermsLoop

open Cil.ClassPerms

variable {κ δ : Type}

/-- A node of the resolved tree, as far as class permissions go. The permissions of a map
class stand in the order of its symbol table. -/
inductive NodeData (κ δ : Type)
  | macroDef
  | block (isAbstract : Bool)
  | mapClass (perms : List δ)
  | classpermission (s : δ)
  | avrule (classperms : List (Item κ δ))
  | constrain (classperms : List (Item κ δ))
  | mapClassUse (perms : List δ)
  | other
  deriving DecidableEq, Repr

/-- The nodes whose children are not visited. -/
def NodeData.skipHead : NodeData κ δ → Bool
  | .macroDef => true
  | .block isAbstract => isAbstract
  | _ => false

section Check

variable [DecidableEq δ] (classperms : δ → ItemList κ δ) (orig : δ)

/-- The loop of `__cil_verify_classperms` over the permissions of a map class. -/
def verifyPerms (below : ItemList κ δ → Option Verdict) : List (PermItem δ) → Option Verdict
  | [] => some .success
  | .operand :: _ => some .crash
  | .perm p :: rest =>
      if p = orig then some (.failure .err)
      else
        match below (classperms p) with
        | some .success => verifyPerms below rest
        | r => r

/-- The loop of `__cil_verify_classperms` over a list. -/
def verifyItems (below : ItemList κ δ → Option Verdict) : List (Item κ δ) → Option Verdict
  | [] => some .success
  -- returns from the call: what follows in the list is not looked at
  | .kernel _ :: _ => some .success
  | .map perms :: rest =>
      match verifyPerms classperms orig below perms with
      | some .success => verifyItems below rest
      | r => r
  | .set s :: rest =>
      if s = orig then some (.failure .err)
      else
        match below (classperms s) with
        | some .success => verifyItems below rest
        | r => r

/-- `__cil_verify_classperms`; `none` when the fuel for its depth runs out. -/
def verifyClassperms : Nat → ItemList κ δ → Option Verdict
  | 0, _ => none
  | _ + 1, none => some .crash
  | fuel + 1, some items => verifyItems classperms orig (verifyClassperms fuel) items

end Check

variable [DecidableEq δ] (classperms : δ → ItemList κ δ)

/-- `__cil_verify_classpermission`. -/
def verifyClasspermission (fuel : Nat) (s : δ) : Option Verdict :=
  verifyClassperms classperms s fuel (classperms s)

/-- `__cil_verify_map_class`: an error does not end the loop over the permissions. -/
def verifyMapClass (fuel : Nat) (rc : Verdict) : List δ → Option Verdict
  | [] => some rc
  | p :: rest =>
      match verifyClassperms classperms p fuel (classperms p) with
      | some .success => verifyMapClass fuel rc rest
      | some (.failure _) => verifyMapClass fuel (.failure .err) rest
      | r => r

/-- `__cil_verify_no_classperms_loop_helper`. -/
def verifyNoClasspermsLoopHelper (fuel : Nat) : NodeData κ δ → Option Verdict
  | .mapClass perms => verifyMapClass classperms fuel .success perms
  | .classpermission s => verifyClasspermission classperms fuel s
  | _ => some .success

/-- `cil_verify_no_classperms_loop`. -/
def verifyNoClasspermsLoop (fuel : Nat) (ast : Tree (NodeData κ δ)) : Option Verdict :=
  process (verifyNoClasspermsLoopHelper classperms fuel) (ast.walk NodeData.skipHead)

end Cil.Verify.ClasspermsLoop
