/- Cil/Basic
   digest: Return codes and the ways a call can come to an end. -/

set_option autoImplicit false
set_option relaxedAutoImplicit false

namespace Cil

/-- The `SEPOL_*` return codes that occur here. -/
inductive Rc
  | ok | err | enoent | eexist
  deriving DecidableEq, Repr

/-- How a call comes to an end. `crash` stands for a read through a null pointer or through
a pointer that does not point to what the code takes it for. -/
inductive Verdict
  | success
  | failure (rc : Rc)
  | crash
  deriving DecidableEq, Repr

/-- Why an execution stops before its end. -/
inductive Stop
  | nullDereference
  | err
  deriving DecidableEq, Repr

end Cil
