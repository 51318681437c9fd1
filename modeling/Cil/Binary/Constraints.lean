/- Cil/Binary/Constraints
   digest: Constraints are put at the classes of a policy, with their expressions in one heap. -/

import Cil.Binary.AvruleUnion
import Cil.Binary.ConstraintStack
import Cil.Binary.TransitionsExact

set_option autoImplicit false
set_option relaxedAutoImplicit false

namespace Cil.Binary.Constraints

open Library ClassPerms
open Constraint (Cexpr ConstraintExpr StoredLeaf Leaf Tables initCexpr exprTerm
  constrainExprToSepolExpr constrainExprToSepolExprHelper_ends)
open Verify (EnumBitmap)
open Neverallow (Classperms permsToDatum)
open Transitions (expandClass expandClass_ok)

section Statements

/-- `cil_constrain`, resolved. -/
structure Constrain (δ : Type) where
  classperms : ItemList (Classperms δ) δ
  strExpr : ConstraintExpr StoredLeaf
  datumExpr : ConstraintExpr (Leaf δ)

/-- `cil_validatetrans`, resolved. -/
structure Validatetrans (δ : Type) where
  cls : Transitions.ClassDatum δ
  strExpr : ConstraintExpr StoredLeaf
  datumExpr : ConstraintExpr (Leaf δ)

/-- A node of the tree. -/
inductive NodeData (δ : Type)
  | constrain (c : Constrain δ)
  | mlsconstrain (c : Constrain δ)
  | validatetrans (v : Validatetrans δ)
  | mlsvalidatetrans (v : Validatetrans δ)
  | macroDef
  | block (isAbstract : Bool)
  | booleanif
  | other

/-- The nodes below which `__cil_binary_create_helper` does not go. -/
def NodeData.skipHead {δ : Type} : NodeData δ → Bool
  | .macroDef => true
  | .block isAbstract => isAbstract
  | .booleanif => true
  | _ => false

/-- What is read of the database and of the policy. -/
structure Source (β δ : Type) where
  db : Neverallow.Db δ
  classes : Transitions.Db β δ (Classperms δ)
  tables : Tables β δ
  sepolClass : String → Option Neverallow.ClassDatum
  mls : Bool
  classperms_eq : classes.classperms = db.classperms
  classOf_eq : ∀ cp, classes.classOf cp = cp.cls

/-- The fields of `class_datum_t` with constraints. -/
inductive Field
  | constraints
  | validatetrans
  deriving DecidableEq, Repr

/-- `constraint_node_t`, with the first cell of its expression. -/
structure ConstraintNode where
  permissions : BitVec 32
  expr : Nat
  deriving DecidableEq, Repr

/-- The cells of all expressions and the lists of nodes at the classes, by their names. -/
structure ConstraintLists (β : Type) where
  cells : Heap (Cexpr β)
  nodes : Field → String → List ConstraintNode
  linked : ∀ field key, ∀ n ∈ nodes field key, ∃ L, cells.Listed n.expr L

end Statements

section Code

variable {β δ : Type}

/-- A policy without constraints. -/
def ConstraintLists.init (B : EnumBitmap β) : ConstraintLists β where
  cells := ⟨fun _ => initCexpr B .not, fun _ => none, 0⟩
  nodes _ _ := []
  linked _ _ _ hn := (List.not_mem_nil hn).elim

/-- A node is put before those of a class; its expression is in new cells. -/
def ConstraintLists.push (s : ConstraintLists β) (field : Field) (key : String)
    (n : ConstraintNode) (cells : Heap (Cexpr β)) (hnew : ∃ L, cells.Listed n.expr L)
    (hkept : ∀ a L, s.cells.Listed a L → cells.Listed a L) : ConstraintLists β where
  cells := cells
  nodes := Function.update s.nodes field
    (Function.update (s.nodes field) key (n :: s.nodes field key))
  linked f k m hm := by
    by_cases hplace : f = field ∧ k = key
    · obtain ⟨rfl, rfl⟩ := hplace
      rw [Function.update_self, Function.update_self] at hm
      rcases List.mem_cons.mp hm with rfl | hm
      · exact hnew
      · exact (s.linked f k m hm).imp fun L hL => hkept _ L hL
    · have hsame : m ∈ s.nodes f k := by
        by_cases hfield : f = field
        · subst hfield
          have hkey : k ≠ key := fun heq => hplace ⟨rfl, heq⟩
          rwa [Function.update_self, Function.update_of_ne hkey] at hm
        · rwa [Function.update_of_ne hfield] at hm
      exact (s.linked f k m hsame).imp fun L hL => hkept _ L hL

private theorem made_of_run {B : EnumBitmap β} {T : Tables β δ} {x : ConstraintExpr (Leaf δ)}
    {h h' : Heap (Cexpr β)} {head : Nat}
    (hrun : constrainExprToSepolExpr B T x h = some (.ok head h')) :
    ∃ t tail, exprTerm B T x = some t ∧ Heap.Made t.flatten h (head, tail) h' := by
  obtain ⟨⟨head', tail⟩, h₁, hhelper, hpure⟩ := Call.bind_ok hrun
  cases hpure
  obtain ⟨t, ht, hmade⟩ := (constrainExprToSepolExprHelper_ends x h).of_ok hhelper
  exact ⟨t, tail, ht, hmade⟩

variable (G : Source β δ)

/-- The expression is made and a node for it is put at the class. Whatever fails there,
`__cil_constrain_expr_to_sepol_expr` returns `SEPOL_ERR`; the cells made so far are lost. -/
def addNode (field : Field) (key : String) (permissions : BitVec 32)
    (expr : ConstraintExpr (Leaf δ)) : Call Rc (ConstraintLists β) Unit := fun s =>
  match hrun : constrainExprToSepolExpr G.classes.bitmap G.tables expr s.cells with
  | some (.ok head cells) => some (.ok () (s.push field key ⟨permissions, head⟩ cells
      (by
        obtain ⟨t, tail, -, hmade⟩ := made_of_run hrun
        exact ⟨t.flatten, hmade.listed⟩)
      (by
        obtain ⟨t, tail, -, hmade⟩ := made_of_run hrun
        exact fun a L hlist => hlist.kept hmade)))
  | some (.failed _ _) => some (.failed .err s)
  | some .crash => some .crash
  | none => none

/-- `cil_constrain_to_policydb_helper`. -/
def cilConstrainToPolicydbHelper (expr : ConstraintExpr (Leaf δ)) (cp : Classperms δ) :
    Call Rc (ConstraintLists β) Unit :=
  Call.orFail .err (G.sepolClass (G.db.fqn cp.cls)) >>= fun sepolClass =>
  Call.orFail .err (permsToDatum G.db sepolClass cp.perms 0#32) >>= fun permissions =>
  addNode G .constraints (G.db.fqn cp.cls) permissions expr

/-- A call as the step of a recursion through class permissions; after a crash there is no
state. -/
def stepOf {σ κ : Type} (call : κ → Call Rc σ Unit) : Option σ → κ → Rc × Option σ
  | none, _ => (.err, none)
  | some s, cp =>
      match call cp s with
      | some (.ok _ s') => (.ok, some s')
      | some (.failed e s') => (e, some s')
      | some .crash => (.err, none)
      | none => (.err, none)

/-- `cil_constrain_expand`. -/
def cilConstrainExpand (fuel : Nat) (classperms : ItemList (Classperms δ) δ)
    (expr : ConstraintExpr (Leaf δ)) : Call Rc (ConstraintLists β) Unit := fun s =>
  match constrainExpand G.db.classperms (stepOf (cilConstrainToPolicydbHelper G expr)) fuel
      (some s) classperms with
  | some (.done .ok (some s')) => some (.ok () s')
  | some (.done e (some s')) => some (.failed e s')
  | some (.done _ none) => some .crash
  | some .crash => some .crash
  | none => none

/-- `cil_constrain_to_policydb`. -/
def cilConstrainToPolicydb (fuel : Nat) (c : Constrain δ) : Call Rc (ConstraintLists β) Unit :=
  cilConstrainExpand G fuel c.classperms c.datumExpr

/-- `cil_validatetrans_to_policydb`. -/
def cilValidatetransToPolicydb (fuel : Nat) (v : Validatetrans δ) :
    Call Rc (ConstraintLists β) Unit :=
  expandClass G.classes fuel v.cls >>= fun classList =>
  Call.forEach (fun c =>
    Call.orFail .err (G.sepolClass (G.db.fqn c)) >>= fun _ =>
    addNode G .validatetrans (G.db.fqn c) 0#32 v.datumExpr) classList

/-- The second pass of `__cil_node_to_policydb`. -/
def nodeToPolicydb (fuel : Nat) : NodeData δ → Call Rc (ConstraintLists β) Unit
  | .constrain c => cilConstrainToPolicydb G fuel c
  | .mlsconstrain c => if G.mls then cilConstrainToPolicydb G fuel c else pure ()
  | .validatetrans v => cilValidatetransToPolicydb G fuel v
  | .mlsvalidatetrans v => if G.mls then cilValidatetransToPolicydb G fuel v else pure ()
  | _ => pure ()

/-- The walk of `cil_binary_create` for the second pass. -/
def secondPass (fuel : Nat) (ast : Tree (NodeData δ)) : Call Rc (ConstraintLists β) Unit :=
  processAll (nodeToPolicydb G fuel) (ast.walk NodeData.skipHead)

end Code

section Facts

variable {β δ : Type}

/-- A node at a class, with the list of its expression. -/
structure Fact (β : Type) where
  field : Field
  key : String
  permissions : BitVec 32
  cells : List (Cexpr β)

/-- The list that a node leads to. -/
def ConstraintLists.exprOf (s : ConstraintLists β) (n : ConstraintNode) : List (Cexpr β) :=
  s.cells.contents s.cells.size n.expr

/-- What the lists of nodes hold. -/
def content (s : ConstraintLists β) : Set (Fact β) :=
  {f | ∃ n ∈ s.nodes f.field f.key, n.permissions = f.permissions ∧ s.exprOf n = f.cells}

private theorem content_init (B : EnumBitmap β) : content (ConstraintLists.init B) = ∅ := by
  ext f
  simp [content, ConstraintLists.init]

private theorem push_nodes {s : ConstraintLists β} {field : Field} {key : String}
    {n : ConstraintNode} {cells : Heap (Cexpr β)} {hnew : ∃ L, cells.Listed n.expr L}
    {hkept : ∀ a L, s.cells.Listed a L → cells.Listed a L} (f : Field) (k : String)
    (m : ConstraintNode) : m ∈ (s.push field key n cells hnew hkept).nodes f k ↔
      m ∈ s.nodes f k ∨ f = field ∧ k = key ∧ m = n := by
  unfold ConstraintLists.push
  by_cases hfield : f = field
  · subst hfield
    by_cases hkey : k = key
    · subst hkey
      simp [or_comm]
    · simp [hkey]
  · simp [hfield]

/-- A node is put beside those that are there, and these lead to the same lists as before. -/
private theorem content_push {s : ConstraintLists β} {field : Field} {key : String}
    {n : ConstraintNode}
    {cells : Heap (Cexpr β)} {L : List (Cexpr β)} (hlist : cells.Listed n.expr L)
    (hkept : ∀ a L, s.cells.Listed a L → cells.Listed a L) :
    content (s.push field key n cells ⟨L, hlist⟩ hkept) =
      content s ∪ {⟨field, key, n.permissions, L⟩} := by
  ext f
  have hcells : (s.push field key n cells ⟨L, hlist⟩ hkept).cells = cells := rfl
  have hold : ∀ m ∈ s.nodes f.field f.key,
      (s.push field key n cells ⟨L, hlist⟩ hkept).exprOf m = s.exprOf m := by
    intro m hm
    obtain ⟨M, hM⟩ := s.linked f.field f.key m hm
    unfold ConstraintLists.exprOf
    rw [hcells, hM.contents, (hkept _ M hM).contents]
  have hnew : (s.push field key n cells ⟨L, hlist⟩ hkept).exprOf n = L := by
    unfold ConstraintLists.exprOf
    rw [hcells, hlist.contents]
  simp only [content, Set.mem_ofPred_eq, Set.mem_union, Set.mem_singleton_iff, push_nodes]
  constructor
  · rintro ⟨m, hm | ⟨hfield, hkey, rfl⟩, hpermissions, hexpr⟩
    · rw [hold m hm] at hexpr
      exact Or.inl ⟨m, hm, hpermissions, hexpr⟩
    · rw [hnew] at hexpr
      right
      obtain ⟨field', key', permissions', cells'⟩ := f
      dsimp only at hfield hkey hpermissions hexpr
      rw [hfield, hkey, hpermissions, hexpr]
  · rintro (⟨m, hm, hpermissions, hexpr⟩ | rfl)
    · exact ⟨m, Or.inl hm, hpermissions, (hold m hm).trans hexpr⟩
    · exact ⟨n, Or.inr ⟨rfl, rfl, rfl⟩, rfl, hnew⟩

end Facts

section Steps

variable {β δ : Type} {G : Source β δ}

/-- A node whose expression is compiled. -/
def compiled (G : Source β δ) (field : Field) (key : String) (permissions : BitVec 32)
    (expr : ConstraintExpr (Leaf δ)) : Set (Fact β) :=
  {f | f.field = field ∧ f.key = key ∧ f.permissions = permissions ∧
    ∃ t, exprTerm G.classes.bitmap G.tables expr = some t ∧ f.cells = t.flatten}

private theorem addNode_ok {field : Field} {key : String} {permissions : BitVec 32}
    {expr : ConstraintExpr (Leaf δ)} {s s' : ConstraintLists β}
    (h : addNode G field key permissions expr s = some (.ok () s')) :
    (compiled G field key permissions expr).Nonempty ∧
      content s' = content s ∪ compiled G field key permissions expr := by
  unfold addNode at h
  split at h
  · rename_i head cells hrun
    cases h
    obtain ⟨t, tail, ht, hmade⟩ := made_of_run hrun
    refine ⟨⟨⟨field, key, permissions, t.flatten⟩, rfl, rfl, rfl, t, ht, rfl⟩, ?_⟩
    rw [content_push hmade.listed]
    congr 1
    ext f
    obtain ⟨field', key', permissions', cells'⟩ := f
    simp [compiled, ht]
  · cases h
  · cases h
  · cases h

/-- A node for permissions of a kernel class. -/
def constraintOf (G : Source β δ) (expr : ConstraintExpr (Leaf δ)) (cp : Classperms δ) :
    Set (Fact β) :=
  {f | ∃ sepolClass permissions, G.sepolClass (G.db.fqn cp.cls) = some sepolClass ∧
    permsToDatum G.db sepolClass cp.perms 0#32 = some permissions ∧
    f ∈ compiled G .constraints (G.db.fqn cp.cls) permissions expr}

private theorem cilConstrainToPolicydbHelper_ok {expr : ConstraintExpr (Leaf δ)} {cp : Classperms δ}
    {s s' : ConstraintLists β} (h : cilConstrainToPolicydbHelper G expr cp s = some (.ok () s')) :
    (constraintOf G expr cp).Nonempty ∧ content s' = content s ∪ constraintOf G expr cp := by
  obtain ⟨sepolClass, hclass, h⟩ := Call.orFail_ok h
  obtain ⟨permissions, hpermissions, h⟩ := Call.orFail_ok h
  obtain ⟨⟨f, hf⟩, hcontent⟩ := addNode_ok h
  refine ⟨⟨f, sepolClass, permissions, hclass, hpermissions, hf⟩, ?_⟩
  rw [hcontent]
  congr 1
  ext f
  simp [constraintOf, hclass, hpermissions]

private theorem cilConstrainToPolicydbHelper_failed {expr : ConstraintExpr (Leaf δ)}
    {cp : Classperms δ} {s s' : ConstraintLists β} {e : Rc}
    (h : cilConstrainToPolicydbHelper G expr cp s = some (.failed e s')) : e ≠ .ok := by
  rcases Call.orFail_failed h with rfl | ⟨sepolClass, -, h⟩
  · decide
  · rcases Call.orFail_failed h with rfl | ⟨permissions, -, h⟩
    · decide
    · unfold addNode at h
      split at h
      · cases h
      · cases h
        decide
      · cases h
      · cases h

section Recursion

variable {σ κ ι : Type} {call : κ → Call Rc σ Unit} {classperms : δ → ItemList κ δ}
  {contents : σ → Set ι} {gain : κ → Set ι}

/-- A step that succeeds has run its call on a state. -/
private theorem stepOf_ok (hfails : ∀ cp s e s', call cp s = some (.failed e s') → e ≠ .ok)
    {o o' : Option σ} {cp : κ} (h : stepOf call o cp = (.ok, o')) :
    ∃ s s', o = some s ∧ o' = some s' ∧ call cp s = some (.ok () s') := by
  unfold stepOf at h
  split at h
  · cases h
  · rename_i s
    split at h
    · rename_i s' hcall
      cases h
      exact ⟨s, s', rfl, rfl, hcall⟩
    · rename_i e s' hcall
      cases h
      exact absurd rfl (hfails _ _ _ _ hcall)
    · cases h
    · cases h

/-- What the calls add for the permissions of one kernel class, the recursion adds for all that
the list stands for, and for all of it there was something to add. -/
private theorem constrainExpand_ok (hfails : ∀ cp s e s', call cp s = some (.failed e s') → e ≠ .ok)
    (hcall : ∀ cp s s', call cp s = some (.ok () s') →
      (gain cp).Nonempty ∧ contents s' = contents s ∪ gain cp)
    {fuel : Nat} {l : ItemList κ δ} {s s' : σ}
    (h : constrainExpand classperms (stepOf call) fuel (some s) l = some (.done .ok (some s'))) :
    ∃ items, l = some items ∧ (∀ cp, Expands classperms items cp → (gain cp).Nonempty) ∧
      contents s' = contents s ∪ gains classperms gain items := by
  have hadds : AddsBelow classperms (fun o : Option σ => o.elim ∅ contents) gain
      (walk classperms (stepOf call) fuel) := by
    refine walk_adds ?_ fuel
    intro o cp o' hstep
    obtain ⟨t, t', rfl, rfl, hrun⟩ := stepOf_ok hfails hstep
    exact (hcall cp t t' hrun).2
  have hcovers : Covers classperms (fun _ _ : Option σ => True) (fun cp _ => (gain cp).Nonempty)
      (walk classperms (stepOf call) fuel) := by
    refine walk_covers ⟨fun _ => trivial, fun _ _ _ _ _ => trivial⟩ (fun _ _ _ _ hfact => hfact)
      ?_ fuel
    intro o cp o' hstep
    obtain ⟨t, t', rfl, rfl, hrun⟩ := stepOf_ok hfails hstep
    exact ⟨trivial, (hcall cp t t' hrun).1⟩
  obtain ⟨items, rfl, hcontents⟩ := hadds _ _ _ h
  obtain ⟨items', heq, -, hsome⟩ := hcovers _ _ _ h
  cases heq
  exact ⟨items, rfl, hsome, hcontents⟩

end Recursion

section Pass

variable {fuel : Nat} {s s' : ConstraintLists β}

/-- The permissions of a kernel class that a statement stands for. -/
def Constrain.Expanded (G : Source β δ) (c : Constrain δ) (cp : Classperms δ) : Prop :=
  ∃ items, c.classperms = some items ∧ Expands G.db.classperms items cp

/-- The nodes for a constraint. -/
def Constrain.facts (G : Source β δ) (c : Constrain δ) : Set (Fact β) :=
  {f | ∃ cp, c.Expanded G cp ∧ f ∈ constraintOf G c.datumExpr cp}

private theorem cilConstrainToPolicydb_ok {c : Constrain δ}
    (h : cilConstrainToPolicydb G fuel c s = some (.ok () s')) :
    (∀ cp, c.Expanded G cp → (constraintOf G c.datumExpr cp).Nonempty) ∧
      content s' = content s ∪ c.facts G := by
  unfold cilConstrainToPolicydb cilConstrainExpand at h
  split at h
  · rename_i t hrun
    cases h
    obtain ⟨items, hitems, hsome, hcontent⟩ := constrainExpand_ok
      (fun _ _ _ _ => cilConstrainToPolicydbHelper_failed)
      (fun _ _ _ => cilConstrainToPolicydbHelper_ok) hrun
    constructor
    · rintro cp ⟨items', hitems', hcp⟩
      rw [hitems] at hitems'
      cases hitems'
      exact hsome cp hcp
    · rw [hcontent]
      congr 1
      ext f
      simp [Constrain.facts, Constrain.Expanded, gains, hitems]
  · cases h
  · cases h
  · cases h
  · cases h

/-- The nodes for a rule about transitions. -/
def Validatetrans.facts (G : Source β δ) (v : Validatetrans δ) : Set (Fact β) :=
  {f | ∃ c, Transitions.ClassOf G.classes v.cls c ∧
    f ∈ compiled G .validatetrans (G.db.fqn c) 0#32 v.datumExpr}

/-- The loop over classes. -/
private theorem validatetransLoop_ok {expr : ConstraintExpr (Leaf δ)} {classList : List δ}
    (h : Call.forEach (fun c =>
      Call.orFail .err (G.sepolClass (G.db.fqn c)) >>= fun _ =>
      addNode G .validatetrans (G.db.fqn c) 0#32 expr) classList s = some (.ok () s')) :
    (∀ c ∈ classList, (compiled G .validatetrans (G.db.fqn c) 0#32 expr).Nonempty) ∧
      content s' = content s ∪
        {f | ∃ c ∈ classList, f ∈ compiled G .validatetrans (G.db.fqn c) 0#32 expr} := by
  induction classList generalizing s with
  | nil =>
    cases h
    simp
  | cons c classList ih =>
    obtain ⟨⟨⟩, t, hfirst, hrest⟩ := Call.bind_ok h
    obtain ⟨sepolClass, -, hadd⟩ := Call.orFail_ok hfirst
    obtain ⟨hsome, hcontent⟩ := addNode_ok hadd
    obtain ⟨hall, hcontents⟩ := ih hrest
    constructor
    · intro c' hc'
      rcases List.mem_cons.mp hc' with rfl | hc'
      · exact hsome
      · exact hall c' hc'
    · rw [hcontents, hcontent, Set.union_assoc]
      congr 1
      ext f
      simp

private theorem cilValidatetransToPolicydb_ok {v : Validatetrans δ}
    (h : cilValidatetransToPolicydb G fuel v s = some (.ok () s')) :
    (∀ c, Transitions.ClassOf G.classes v.cls c →
      (compiled G .validatetrans (G.db.fqn c) 0#32 v.datumExpr).Nonempty) ∧
      content s' = content s ∪ v.facts G := by
  obtain ⟨classList, t, hexpand, hloop⟩ := Call.bind_ok h
  obtain ⟨rfl, hmem⟩ := expandClass_ok hexpand
  obtain ⟨hsome, hcontent⟩ := validatetransLoop_ok hloop
  refine ⟨fun c hc => hsome c ((hmem c).mpr hc), ?_⟩
  rw [hcontent]
  congr 1
  ext f
  simp [Validatetrans.facts, hmem]

/-- The statement in a node, if the pass converts it, with its flavor. -/
def NodeData.statement (mls : Bool) :
    NodeData δ → Option (Constraint.Statement × (Constrain δ ⊕ Validatetrans δ))
  | .constrain c => some (.constrain, .inl c)
  | .mlsconstrain c => if mls then some (.mlsconstrain, .inl c) else none
  | .validatetrans v => some (.validatetrans, .inr v)
  | .mlsvalidatetrans v => if mls then some (.mlsvalidatetrans, .inr v) else none
  | _ => none

/-- The nodes for a statement. -/
def factsOf (G : Source β δ) : Constrain δ ⊕ Validatetrans δ → Set (Fact β)
  | .inl c => c.facts G
  | .inr v => v.facts G

/-- All that a statement stands for has been compiled. -/
def Compiled (G : Source β δ) : Constrain δ ⊕ Validatetrans δ → Prop
  | .inl c => ∀ cp, c.Expanded G cp → (constraintOf G c.datumExpr cp).Nonempty
  | .inr v => ∀ c, Transitions.ClassOf G.classes v.cls c →
      (compiled G .validatetrans (G.db.fqn c) 0#32 v.datumExpr).Nonempty

def statementToPolicydb (G : Source β δ) (fuel : Nat) :
    Constrain δ ⊕ Validatetrans δ → Call Rc (ConstraintLists β) Unit
  | .inl c => cilConstrainToPolicydb G fuel c
  | .inr v => cilValidatetransToPolicydb G fuel v

private theorem statementToPolicydb_ok {x : Constrain δ ⊕ Validatetrans δ}
    (h : statementToPolicydb G fuel x s = some (.ok () s')) :
    Compiled G x ∧ content s' = content s ∪ factsOf G x := by
  cases x with
  | inl c => exact cilConstrainToPolicydb_ok h
  | inr v => exact cilValidatetransToPolicydb_ok h

theorem nodeToPolicydb_eq (d : NodeData δ) : nodeToPolicydb G fuel d =
    (d.statement G.mls).elim (pure ()) fun x => statementToPolicydb G fuel x.2 := by
  cases d with
  | constrain c => rfl
  | mlsconstrain c =>
    rw [nodeToPolicydb, NodeData.statement]
    split
    · rfl
    · rfl
  | validatetrans v => rfl
  | mlsvalidatetrans v =>
    rw [nodeToPolicydb, NodeData.statement]
    split
    · rfl
    · rfl
  | macroDef => rfl
  | block isAbstract => rfl
  | booleanif => rfl
  | other => rfl

/-- What a step adds: the nodes for the statement in it, if there is one. -/
private theorem nodeToPolicydb_ok {d : NodeData δ}
    (h : nodeToPolicydb G fuel d s = some (.ok () s')) :
    (∀ flavor x, d.statement G.mls = some (flavor, x) → Compiled G x) ∧
      content s' = content s ∪
        {f | ∃ flavor x, d.statement G.mls = some (flavor, x) ∧ f ∈ factsOf G x} := by
  rw [nodeToPolicydb_eq] at h
  cases hstatement : d.statement G.mls with
  | none =>
    rw [hstatement] at h
    cases h
    simp
  | some x =>
    rw [hstatement] at h
    obtain ⟨hcompiled, hcontent⟩ := statementToPolicydb_ok h
    constructor
    · intro flavor y hy
      cases hy
      exact hcompiled
    · rw [hcontent]
      congr 1
      ext f
      constructor
      · intro hf
        exact ⟨x.1, x.2, rfl, hf⟩
      · rintro ⟨flavor, y, hy, hf⟩
        cases hy
        exact hf

/-- A statement of a flavor is outside of macros, abstract blocks and booleanifs, and is none for
MLS in a policy without. -/
def InForce (mls : Bool) (ast : Tree (NodeData δ)) (flavor : Constraint.Statement)
    (x : Constrain δ ⊕ Validatetrans δ) : Prop :=
  ∃ d ∈ ast.walk NodeData.skipHead, d.statement mls = some (flavor, x)

/-- After the pass the nodes are those for the statements in force. -/
theorem secondPass_ok {ast : Tree (NodeData δ)}
    (h : secondPass G fuel ast (ConstraintLists.init G.classes.bitmap) = some (.ok () s)) :
    (∀ flavor x, InForce G.mls ast flavor x → Compiled G x) ∧
      content s = {f | ∃ flavor x, InForce G.mls ast flavor x ∧ f ∈ factsOf G x} := by
  have hcompiled : Establishes (fun _ _ => True) (fun _ => ∀ d ∈ ast.walk NodeData.skipHead,
      ∀ flavor x, d.statement G.mls = some (flavor, x) → Compiled G x)
      (processAll (nodeToPolicydb G fuel) (ast.walk NodeData.skipHead)) :=
    processAll_establishes ⟨fun _ => trivial, fun _ _ _ _ _ => trivial⟩
      (fun d => Establishes.of_eq fun t _ t' ht => ⟨trivial, (nodeToPolicydb_ok ht).1⟩)
      (fun d _ _ _ hfact => hfact) _
  have hgains : Gains content {f | ∃ d ∈ ast.walk NodeData.skipHead, f ∈
      {f | ∃ flavor x, d.statement G.mls = some (flavor, x) ∧ f ∈ factsOf G x}}
      (processAll (nodeToPolicydb G fuel) (ast.walk NodeData.skipHead)) :=
    processAll_gains fun d _ t _ t' ht => (nodeToPolicydb_ok ht).2
  constructor
  · rintro flavor x ⟨d, hd, hx⟩
    exact (hcompiled.of_ok h).2 d hd flavor x hx
  · rw [hgains _ _ _ h, content_init, Set.empty_union]
    ext f
    simp only [Set.mem_ofPred_eq, InForce]
    constructor
    · rintro ⟨d, hd, flavor, x, hx, hf⟩
      exact ⟨flavor, x, ⟨d, hd, hx⟩, hf⟩
    · rintro ⟨flavor, x, ⟨d, hd, hx⟩, hf⟩
      exact ⟨d, hd, flavor, x, hx, hf⟩

end Pass

end Steps

end Cil.Binary.Constraints
