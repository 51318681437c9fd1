/- Cil/Resolve/Walk
   digest: All passes of the resolver over the nodes, with the copies and the resets. -/

import Cil.Ast.Nodes

/-!
`cil_resolve_ast` from its first pass on. How a name is looked up, how an expression over
tunables comes out, what a call does with its arguments, and what the passes after
`CIL_PASS_CALL1` do with a statement are operations; none of them changes the tree.
-/

set_option autoImplicit false
set_option relaxedAutoImplicit false

namespace Cil.Resolve.Walk

open Library Ast

/-- `cil_pass`. -/
inductive Pass
  | tif | inPass | blkinLink | blkinCopy | blkabs | macroPass | call1
  | call2 | alias1 | alias2 | misc1 | mls | misc2 | misc3
  deriving DecidableEq, Repr

def allPasses : List Pass :=
  [.tif, .inPass, .blkinLink, .blkinCopy, .blkabs, .macroPass, .call1,
    .call2, .alias1, .alias2, .misc1, .mls, .misc2, .misc3]

/-- What the loop goes through after `pass = CIL_PASS_CALL1`. -/
def afterCall1 : List Pass := [.call2, .alias1, .alias2, .misc1, .mls, .misc2, .misc3]

/-- How the search for something ends. -/
inductive Found (α : Type)
  | found (a : α)
  | enoent
  | err

/-- What resolving a statement, or a reset, leaves in the fields of the nodes and the data and in
the order lists. -/
structure Resolved (σ : Type) where
  rc : Rc
  refs : Nat → List Nat
  borrowed : Nat → List Nat
  gathered : List Nat
  rest : σ

/-- What is done with single statements: `cil_resolve_name` among the blocks, the expression
of a tunableif, the arguments of a call, and the statements after `CIL_PASS_CALL1`; and what
is done between the passes. -/
structure Ops (κ σ : Type) where
  resolveName : State κ σ → Nat → String → Found Nat
  evaluateTunable : State κ σ → Nat → Found (Bool × List Nat)
  callArgs : State κ σ → Nat → Resolved σ
  resolveNode : Pass → State κ σ → Nat → Resolved σ
  mergeOrders : State κ σ → Rc × σ
  reset : Pass → State κ σ → Resolved σ
  verifyInitsids : State κ σ → Rc

section Statements

variable {κ σ : Type} (ops : Ops κ σ) (fuel : Nat)

/-- Destroys the children of a node. -/
def childrenDestroy (n : Nat) : M κ σ (List Nat) := fun s =>
  match s.childrenDestroy fuel n with
  | none => none
  | some (below, s') =>
      some (.ok below { s' with log := s'.log ++ [.freed (decide ¬ s.Detached below)] })

/-- The fields are filled. -/
def fill (r : Resolved σ) : M κ σ Rc := do
  Call.modify fun s => { s with
    refs := r.refs
    borrowed := r.borrowed
    gathered := r.gathered
    rest := r.rest }
  pure r.rc

/-- `datum->nodes->head->data`. -/
def headNode (id : Nat) : M κ σ Nat := fun s =>
  match s.declNodes id with
  | [] => some .crash
  | n :: _ => if s.dead n = true then some .crash else some (.ok n s)

/-- The branch of a tunableif that is taken: of its first two children the last that is a
condblock for the value. -/
def branch (s : State κ σ) (n : Nat) (value : Bool) : Option Nat :=
  ((s.nodes n).children.take 2).reverse.find? fun c => (s.nodes c).stmt.isCondblock value

/-- `cil_resolve_tunif`. -/
def resolveTunif (n : Nat) : M κ σ Rc := do
  let s ← Call.get
  match ops.evaluateTunable s n with
  | .enoent => pure .enoent
  | .err => pure .err
  | .found (value, refs) => do
      Call.modify fun s => { s with refs := Function.update s.refs n refs }
      match branch s n value with
      | none => pure ()
      | some taken => copyAst fuel taken (s.nodes n).parent
      let _ ← childrenDestroy fuel n
      pure .ok

/-- `cil_resolve_blockinherit_link`. -/
def resolveBlockinheritLink (n : Nat) (blockStr : String) : M κ σ Rc := do
  let s ← Call.get
  match ops.resolveName s n blockStr with
  | .enoent => pure .enoent
  | .err => pure .err
  | .found b => do
      let node ← headNode b
      if (s.nodes node).stmt.isDecl .block = true then do
        Call.modify fun s => { s with
          block := Function.update s.block n (some b)
          biNodes := Function.update s.biNodes b (some ((s.biNodes b).getD [] ++ [n])) }
        pure .ok
      else pure .err

/-- The loop of `cil_resolve_blockinherit_copy`. -/
def copyIntoAll : Nat → Nat → Nat → Nat → M κ σ Unit
  | 0, _, _, _ => Call.outOfFuel
  | left + 1, n, b, k => do
      let s ← Call.get
      match ((s.biNodes b).getD [])[k]? with
      | none => pure ()
      | some dest => do
          copyAst fuel n dest
          copyIntoAll left n b (k + 1)

/-- `cil_resolve_blockinherit_copy`: only the first node of a block is copied. -/
def resolveBlockinheritCopy (n : Nat) : M κ σ Rc := do
  let s ← Call.get
  let b := (s.nodes n).data
  if s.biNodes b = none then pure .ok
  else do
    let first ← headNode b
    if first = n then do
      copyIntoAll fuel fuel n b 0
      pure .ok
    else pure .ok

/-- `cil_resolve_blockabstract`. -/
def resolveBlockabstract (n : Nat) (blockStr : String) : M κ σ Rc := do
  let s ← Call.get
  match ops.resolveName s n blockStr with
  | .enoent => pure .enoent
  | .err => pure .err
  | .found b => do
      let node ← headNode b
      if (s.nodes node).stmt.isDecl .block = true then do
        Call.modify fun s => { s with isAbstract := Function.update s.isAbstract b true }
        pure .ok
      -- `rc` is still that of the lookup
      else pure .ok

/-- `cil_resolve_call1`. -/
def resolveCall1 (n : Nat) (macroStr : String) : M κ σ Rc := do
  let s ← Call.get
  match ops.resolveName s n macroStr with
  | .enoent => pure .enoent
  | .err => pure .err
  | .found m => do
      let node ← headNode m
      if (s.nodes node).stmt.isDecl .macroDef = true then do
        Call.modify fun s => { s with callee := Function.update s.callee n (some m) }
        let s ← Call.get
        let rc ← fill (ops.callArgs s n)
        if rc = .ok then
          if s.copied n = true then pure .ok
          else do
            Call.modify fun s => { s with copied := Function.update s.copied n true }
            copyAst fuel node n
            pure .ok
        else pure rc
      else pure .err

/-- `cil_resolve_in`, once the block is found. -/
def resolveIn (n b : Nat) : M κ σ Unit := do
  let node ← headNode b
  copyAst fuel n node
  let _ ← childrenDestroy fuel n

/-- One round of `cil_resolve_in_list`; it returns the statements that stay in the list. -/
def resolveInRound : List Nat → M κ σ (List Nat)
  | [] => pure []
  | n :: ins => do
      let s ← Call.get
      match (s.nodes n).stmt with
      | .inStmt blockStr =>
          match ops.resolveName s n blockStr with
          | .found b => do
              resolveIn fuel n b
              resolveInRound ins
          | _ => do
              let unresolved ← resolveInRound ins
              pure (n :: unresolved)
      | _ => Call.crash

/-- `cil_resolve_in_list`. -/
def resolveInList : Nat → List Nat → M κ σ Unit
  | 0, _ => Call.outOfFuel
  | left + 1, ins => do
      let unresolved ← resolveInRound ops fuel ins
      if unresolved = [] then pure ()
      else if unresolved.length = ins.length then Call.fail .err
      else resolveInList left unresolved

/-- `__cil_resolve_ast_node`. -/
def resolveAstNode (pass : Pass) (n : Nat) : M κ σ Rc := do
  let s ← Call.get
  match pass, (s.nodes n).stmt with
  | .tif, .tunableif _ => resolveTunif ops fuel n
  | .inPass, .inStmt _ => do
      Call.modify fun s => { s with inList := n :: s.inList }
      pure .ok
  | .blkinLink, .blockinherit blockStr => resolveBlockinheritLink ops n blockStr
  | .blkinCopy, .decl d =>
      if d.flavor = .block then resolveBlockinheritCopy fuel n else pure .ok
  | .blkabs, .blockabstract blockStr => resolveBlockabstract ops n blockStr
  | .macroPass, .call macroStr =>
      if s.inMacro = true then resolveCall1 ops fuel n macroStr else pure .ok
  | .call1, .call macroStr => resolveCall1 ops fuel n macroStr
  | pass, _ =>
      if pass ∈ afterCall1 then fill (ops.resolveNode pass s n) else pure .ok

end Statements

section Walk

variable {κ σ : Type} (ops : Ops κ σ) (fuel : Nat) (pass : Pass)

/-- The nodes on the two stack in `cil_args_resolve`. -/
structure Stacks where
  calls : List Nat
  opts : List Nat

def Stacks.empty : Stacks := ⟨[], []⟩

/-- The statements that may not stand in an optional. -/
def refusedInOptional (stmt : Stmt κ) : Bool := stmt.isDecl .tunable || stmt.isDecl .macroDef

/-- The statements that may stand in a booleanif. -/
def allowedInBoolif : Stmt κ → Bool
  | .condblock _ | .conditional _ | .call _ | .tunableif _ => true
  | _ => false

/-- Whether the walk leaves out a node and what is below it. -/
def skipHead (s : State κ σ) (n : Nat) : Bool :=
  match (s.nodes n).stmt with
  | .decl d =>
      match d.flavor with
      | .macroDef => pass ≠ .tif ∧ pass ≠ .macroPass
      | .block => s.isAbstract (s.nodes n).data ∧ (pass = .macroPass ∨ pass = .call1 ∨
          pass ∈ afterCall1)
      | _ => false
  | _ => false

/-- The datum of an optional, as far as it is one. -/
def optionalDatum (n : Nat) : M κ σ Nat := fun s =>
  match s.optional n with
  | none => some .crash
  | some id => if (s.sym.data id).flavor = .optional then some (.ok id s) else some .crash

/-- `opt->enabled = CIL_FALSE`. -/
def disable (opt : Nat) : M κ σ Unit := do
  let id ← optionalDatum opt
  Call.modify fun s => { s with
    enabled := Function.update s.enabled id false
    log := s.log ++ [.disabled opt (s.sharers opt id)] }

/-- `__cil_resolve_ast_node_helper`; it returns whether the children are skipped. -/
def nodeHelper (stack : Stacks) (n : Nat) : M κ σ Bool := do
  let s ← Call.get
  if s.dead n = true then Call.crash
  else if stack.opts ≠ [] ∧ refusedInOptional (s.nodes n).stmt = true then Call.fail .err
  else if s.inBoolif = true ∧ allowedInBoolif (s.nodes n).stmt = false then Call.fail .err
  else if skipHead pass s n = true then pure true
  else do
    let rc ← resolveAstNode ops fuel pass n
    match rc, stack.opts with
    | .ok, _ => pure false
    | .enoent, opt :: _ => do
        disable opt
        pure false
    | rc, _ => Call.fail rc

/-- `__cil_resolve_ast_first_child_helper`: the check for recursion leaves out the call on
top of the stack. -/
def firstChild (stack : Stacks) (n : Nat) : M κ σ Stacks := fun s =>
  match (s.nodes n).stmt with
  | .call _ =>
      if stack.calls.tail.any fun c => s.callee c = s.callee n then some (.failed .err s)
      else some (.ok { stack with calls := n :: stack.calls } s)
  | .booleanif _ => some (.ok stack { s with inBoolif := true })
  | .decl d =>
      match d.flavor with
      | .optional => some (.ok { stack with opts := n :: stack.opts } s)
      | .macroDef => some (.ok stack { s with inMacro := true })
      | _ => some (.ok stack s)
  | _ => some (.ok stack s)

/-- What happens to an optional at its last child: if it is disabled, its children go. -/
def leaveOptional (n : Nat) : M κ σ Unit := do
  let id ← optionalDatum n
  let s ← Call.get
  if s.dead n = true then Call.crash
  else if s.enabled id = false then do
    let below ← childrenDestroy fuel n
    Call.modify fun s => { s with
      changed := true
      log := s.log ++ [.destroyed n below] }
  else pure ()

/-- `__cil_resolve_ast_last_child_helper`. -/
def lastChild (n : Nat) : M κ σ Unit := do
  let s ← Call.get
  match (s.nodes n).stmt with
  | .booleanif _ => Call.modify fun s => { s with inBoolif := false }
  | .decl d =>
      match d.flavor with
      | .optional => leaveOptional fuel n
      | .macroDef => Call.modify fun s => { s with inMacro := false }
      | _ => pure ()
  | _ => pure ()

/-- What the walk does below a node that is not skipped, if it has children. -/
def enter (below : Stacks → Nat → M κ σ Unit) (stack : Stacks) (n : Nat) : M κ σ Unit := do
  let s ← Call.get
  if (s.nodes n).children = [] then pure ()
  else do
    let stack' ← firstChild stack n
    below stack' n
    lastChild fuel n

/-- What the walk does with a node. -/
def visit (below : Stacks → Nat → M κ σ Unit) (stack : Stacks) (n : Nat) : M κ σ Unit := do
  let skipped ← nodeHelper ops fuel pass stack n
  if skipped = true then pure () else enter fuel below stack n

/-- `cil_tree_walk_core` below a node, from its child number `k` on. The children are read
when the walk comes to them. -/
def walkFrom : Nat → Stacks → Nat → Nat → M κ σ Unit
  | 0, _, _, _ => Call.outOfFuel
  | left + 1, stack, parent, k => do
      let s ← Call.get
      if s.dead parent = true then Call.crash
      else
        match (s.nodes parent).children[k]? with
        | none => pure ()
        | some n => do
            visit ops fuel pass (fun stack' n' => walkFrom left stack' n' 0) stack n
            walkFrom left stack parent (k + 1)

end Walk

section Loop

variable {κ σ : Type} (ops : Ops κ σ) (fuel : Nat)

/-- What follows the walk of a pass. -/
def endPass (pass : Pass) : M κ σ Unit := do
  let s ← Call.get
  match pass with
  | .inPass => do
      resolveInList ops fuel fuel s.inList
      Call.modify fun s => { s with inList := [] }
  | .misc1 => do
      let (rc, rest) := ops.mergeOrders s
      Call.modify fun s => { s with rest := rest }
      if rc = .ok then pure () else Call.fail rc
  | _ => pure ()

/-- The orders and the data are reset. -/
def resetAst (pass : Pass) : M κ σ Unit := do
  let s ← Call.get
  let rc ← fill (ops.reset pass s)
  if rc = .ok then pure () else Call.fail rc

/-- The loop of `cil_resolve_ast` over the passes. -/
def resolveLoop : Nat → List Pass → M κ σ Unit
  | 0, _ => Call.outOfFuel
  | _ + 1, [] => do
      let s ← Call.get
      let rc := ops.verifyInitsids s
      if rc = .ok then pure () else Call.fail rc
  | left + 1, pass :: rest => do
      walkFrom ops fuel pass fuel .empty 0 0
      endPass ops fuel pass
      let s ← Call.get
      if s.changed = true ∧ pass ∈ afterCall1 then do
        resetAst ops pass
        Call.modify fun s => { s with changed := false }
        resolveLoop left afterCall1
      else do
        Call.modify fun s => { s with changed := false }
        resolveLoop left rest

/-- `cil_resolve_ast` on the tree that `cil_build_ast` makes of a policy. -/
def resolveAst (policy : List (Tree (Stmt κ))) : M κ σ Unit := do
  buildSiblings fuel 0 policy
  resolveLoop ops fuel fuel allPasses

end Loop

end Cil.Resolve.Walk
