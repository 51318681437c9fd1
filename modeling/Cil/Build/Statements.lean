/- Cil/Build/Statements
   digest: The walk over the parse tree that builds a node for every statement. -/

import Cil.Build.Conditional
import Cil.Tree

set_option autoImplicit false
set_option relaxedAutoImplicit false

namespace Cil.Build

/-- What a node of the syntax tree is for: a statement by its keyword, or a permission that
comes with a class. -/
inductive Label
  | root
  | statement (keyword : String)
  | perm (name : String)
  deriving DecidableEq, Repr

/-- The constructs that `cil_args_build` has a pointer for. -/
inductive Context
  | inMacro | inBoolif | inTunif | inIn
  deriving DecidableEq, Repr

/-- The pointer that belongs to the flavor of a node; with `preserve_tunables` a tunableif is
built as a booleanif. -/
def contextOf (preserve : Bool) : Label → Option Context
  | .statement kw =>
      if kw = "macro" then some .inMacro
      else if kw = "booleanif" then some .inBoolif
      else if kw = "tunableif" then some (if preserve then .inBoolif else .inTunif)
      else if kw = "in" then some .inIn
      else none
  | _ => none

/-- What may stand in a booleanif. -/
def conditionalKeywords : List String :=
  ["true", "false", "auditallow", "tunableif", "allow", "dontaudit", "typetransition",
    "typechange", "call"]

/-- The keywords that are refused while a pointer is set. -/
def forbidden : Context → String → Bool
  | .inMacro, kw => kw = "macro" || kw = "tunable" || kw = "in"
  | .inBoolif, kw => decide (kw ∉ conditionalKeywords)
  | .inTunif, kw => kw = "tunable"
  | .inIn, kw => kw = "in"

/-- The statements whose builders set `CIL_TREE_SKIP_NEXT`. -/
def skippingKeywords : List String :=
  ["class", "classorder", "classmap", "classmapping", "classpermission", "classpermissionset",
    "common", "sid", "sidcontext", "sidorder", "userlevel", "userrange", "selinuxuser",
    "selinuxuserdefault", "typeattributeset", "rangetransition", "roleattributeset", "allow",
    "auditallow", "dontaudit", "neverallow", "categoryset", "categoryorder",
    "sensitivityorder", "sensitivitycategory", "level", "levelrange", "constrain",
    "mlsconstrain", "validatetrans", "mlsvalidatetrans", "context", "filecon", "portcon",
    "nodecon", "genfscon", "netifcon", "pirqcon", "iomemcon", "ioportcon", "pcidevicecon",
    "fsuse", "call", "policycap", "defaultuser", "defaultrole", "defaulttype", "defaultrange",
    "handleunknown", "mls"]

/-- The other statements that have strings for operands, by the number of these. -/
def operandCount (kw : String) : Option Nat :=
  if kw ∈ ["blockinherit", "blockabstract", "user", "type", "typeattribute", "typealias",
    "typepermissive", "role", "roleattribute", "sensitivity", "sensitivityalias", "category",
    "categoryalias"] then some 1
  else if kw ∈ ["classcommon", "userbounds", "userprefix", "typealiasactual", "typebounds",
    "userrole", "roletype", "roleallow", "rolebounds", "boolean", "tunable",
    "sensitivityaliasactual", "categoryaliasactual", "ipaddr"] then some 2
  else if kw ∈ ["roletransition", "typechange", "typemember"] then some 4
  else none

def listsSyn : Syn := { nLists := true }
def optionalListsSyn : Syn := { nLists := true, stop := true }
def paramsSyn : Syn := { list := true, emptyList := true }

/-- The syntaxes of the statements that the walk goes on into. -/
def syntaxOf (kw : String) : Option (List Syn) :=
  if kw = "block" ∨ kw = "optional" then some [stringSyn, stringSyn, optionalListsSyn, endSyn]
  else if kw = "in" then some [stringSyn, stringSyn, listsSyn, endSyn]
  else if kw = "macro" then some [stringSyn, stringSyn, paramsSyn, optionalListsSyn, endSyn]
  else if kw = "booleanif" ∨ kw = "tunableif" then some conditionalSyntax
  else if kw = "true" ∨ kw = "false" then some [stringSyn, listsSyn, endSyn]
  else if kw = "typetransition" then
    some (List.replicate 5 stringSyn ++ [{ string := true, stop := true }] ++ [endSyn])
  else (operandCount kw).map fun n => List.replicate (n + 1) stringSyn ++ [endSyn]

/-- `cil_gen_perm_nodes`, by the names of the permissions. -/
def genPermNodes : List ParseNode → Option (List String)
  | [] => some []
  | .string name :: rest => (genPermNodes rest).map (name :: ·)
  | .list _ :: _ => none

/-- The permissions that come with a class, a common or a class map. -/
def generated (kw : String) (statement : List ParseNode) : Option (List String) :=
  if kw = "class" ∨ kw = "common" ∨ kw = "classmap" then
    match statement with
    | [_, _, .list perms] => genPermNodes perms
    | _ => none
  else some []

/-- An AST node that is being filled. -/
structure Frame where
  label : Label
  children : List (Tree Label)

/-- `cil_args_build`: `current` is the node `ast`, with the nodes above it. -/
structure BuildState (σ : Type) where
  db : σ
  current : Frame
  above : List Frame
  pointer : Context → Bool

/-- What else the builders of the statements do: they may fail, and they fill symbol tables. -/
structure Builder (σ : Type) where
  gen : σ → List Label → List ParseNode → Option σ

section Walk

variable {σ : Type} (preserve : Bool) (b : Builder σ)

namespace BuildState

/-- The tests at the head of `__cil_build_ast_node_helper`. -/
def refuses (s : BuildState σ) (kw : String) : Bool :=
  [.inMacro, .inBoolif, .inTunif, .inIn].any fun c => s.pointer c && forbidden c kw

def labels (s : BuildState σ) : List Label := s.current.label :: s.above.map Frame.label

/-- The end of `__cil_build_ast_node_helper`: the new node becomes the current one, and if it
is the first child of its parent, the pointer for the parent is set. -/
def enter (s : BuildState σ) (kw : String) (perms : List String) (db : σ) : BuildState σ where
  db := db
  current := ⟨.statement kw, perms.map fun p => .node (.perm p) []⟩
  above := s.current :: s.above
  pointer :=
    if s.current.children.isEmpty then
      match contextOf preserve s.current.label with
      | some c => Function.update s.pointer c true
      | none => s.pointer
    else s.pointer

/-- `__cil_build_ast_last_child_helper`. -/
def leave (s : BuildState σ) : BuildState σ :=
  match s.above with
  | [] => s
  | parent :: above =>
      { s with
        current := { parent with
          children := parent.children ++ [.node s.current.label s.current.children] }
        above := above
        pointer :=
          match contextOf preserve s.current.label with
          | some c => Function.update s.pointer c false
          | none => s.pointer }

end BuildState

/-- The checks of the builders of conditionals and of their blocks. -/
def conditionalOk (s : BuildState σ) (kw : String) (statement : List ParseNode) : Bool :=
  if kw = "booleanif" then (genBoolif statement).isSome
  else if kw = "tunableif" then
    if preserve then (genBoolif statement).isSome else (genTunif statement).isSome
  else if kw = "true" ∨ kw = "false" then
    s.current.label = .statement "booleanif" || s.current.label = .statement "tunableif"
  else true

/-- `__cil_build_ast_node_helper` on the first node of a list; the flag is
`CIL_TREE_SKIP_NEXT`. -/
def buildNode (kw : String) (rest : List ParseNode) (s : BuildState σ) :
    Option (BuildState σ × Bool) :=
  if s.refuses kw then none
  else if kw ∈ skippingKeywords then
    match generated kw (.string kw :: rest) with
    | none => none
    | some perms =>
        match b.gen s.db s.labels (.string kw :: rest) with
        | none => none
        | some db => some (s.enter preserve kw perms db, true)
  else
    match syntaxOf kw with
    | none => none
    | some syn =>
        if verifySyntax syn (.string kw :: rest) &&
          conditionalOk preserve s kw (.string kw :: rest)
        then
          match b.gen s.db s.labels (.string kw :: rest) with
          | none => none
          | some db => some (s.enter preserve kw [] db, false)
        else none

/-- What is left of a statement after its first node: `cil_gen_macro` takes the parameters out
and the builders of conditionals the expression. -/
def spliced (kw : String) (rest : List ParseNode) : List ParseNode :=
  if kw = "macro" then rest.take 1 ++ rest.drop 2
  else if kw = "booleanif" ∨ kw = "tunableif" then rest.drop 1
  else rest

private theorem sizeOf_drop_le (k : Nat) (nodes : List ParseNode) :
    sizeOf (nodes.drop k) ≤ sizeOf nodes := by
  induction k generalizing nodes with
  | zero => exact Nat.le_refl _
  | succ k ih =>
      cases nodes with
      | nil => exact Nat.le_refl _
      | cons n rest =>
          have hrest := ih rest
          simp only [List.drop_succ_cons, List.cons.sizeOf_spec]
          omega

theorem sizeOf_spliced_le (kw : String) (rest : List ParseNode) :
    sizeOf (spliced kw rest) ≤ sizeOf rest := by
  unfold spliced
  split_ifs
  · match rest with
    | [] => exact Nat.le_refl _
    | [n] => exact Nat.le_refl _
    | n :: m :: content =>
        simp only [List.take_succ_cons, List.take_zero, List.drop_succ_cons, List.drop_zero,
          List.cons_append, List.nil_append, List.cons.sizeOf_spec]
        omega
  · exact sizeOf_drop_le 1 rest
  · exact Nat.le_refl _

mutual

/-- `cil_tree_walk` of a list that is not empty, below the root. -/
def walkList (nodes : List ParseNode) (s : BuildState σ) : Option (BuildState σ) :=
  match nodes with
  | .string kw :: rest =>
      match buildNode preserve b kw rest s with
      | none => none
      | some (s, true) => some (s.leave preserve)
      | some (s, false) =>
          match walkNodes (spliced kw rest) s with
          | none => none
          | some s => some (s.leave preserve)
  | _ => none
termination_by sizeOf nodes
decreasing_by
  have hle := sizeOf_spliced_le kw rest
  simp only [List.cons.sizeOf_spec]
  omega

/-- `cil_tree_walk_core` on nodes that are not the first of their list. -/
def walkNodes (nodes : List ParseNode) (s : BuildState σ) : Option (BuildState σ) :=
  match nodes with
  | [] => some s
  | .list (n :: ns) :: rest =>
      match walkList (n :: ns) s with
      | none => none
      | some s => walkNodes rest s
  | _ :: rest => walkNodes rest s
termination_by sizeOf nodes

end

/-- `cil_build_ast` of the lists at the root of the parse tree. -/
def buildAst (db : σ) (lists : List (List ParseNode)) : Option (Tree Label) :=
  match walkNodes preserve b (lists.map .list) ⟨db, ⟨.root, []⟩, [], fun _ => false⟩ with
  | none => none
  | some s => some (.node s.current.label s.current.children)

end Walk

/-- How many operands stand before the statements in a statement, if it can have any. -/
def operandsBefore (kw : String) : Option Nat :=
  if kw = "block" ∨ kw = "optional" ∨ kw = "in" then some 1
  else if kw = "macro" then some 2
  else if kw = "booleanif" ∨ kw = "tunableif" then some 1
  else if kw = "true" ∨ kw = "false" then some 0
  else none

mutual

/-- The statement that a node of the parse tree is, with the statements in it. -/
def statementOf : ParseNode → List (Tree Label)
  | .list (.string kw :: rest) =>
      [.node (.statement kw) <|
        match operandsBefore kw with
        | some k => statementsAfter k rest
        | none => ((generated kw (.string kw :: rest)).getD []).map fun p => .node (.perm p) []]
  | _ => []

/-- The statements among nodes, the first few left out. -/
def statementsAfter : Nat → List ParseNode → List (Tree Label)
  | _, [] => []
  | k + 1, _ :: rest => statementsAfter k rest
  | 0, n :: rest => statementOf n ++ statementsAfter 0 rest

end

/-- The statements of the input. -/
def statements (lists : List (List ParseNode)) : Tree Label :=
  .node .root (statementsAfter 0 (lists.map .list))

end Cil.Build
