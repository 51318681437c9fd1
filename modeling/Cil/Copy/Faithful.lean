/- Cil/Copy/Faithful
   digest: Which statements are copied as they are, and which lose something or stop the copy. -/

import Mathlib.Data.List.Basic
import Cil.Copy.Levels
import Cil.Copy.LiveTree

set_option autoImplicit false
set_option relaxedAutoImplicit false

namespace Cil.Copy.Statements

section Built

/-- The declarations whose children are permissions. -/
def isClass : Kind → Bool
  | .decl .kernelClass | .decl .common | .decl .mapClass => true
  | _ => false

/-- The statements with an expression in which the builder leaves the address of a local
variable, `&sub_list`. -/
def holdsLocal : Kind → Bool
  | .constrain | .mlsconstrain | .validatetrans | .mlsvalidatetrans => true
  | _ => false

/-- What the builder leaves in a statement: fields that it fills, or that are resolved before
a copy; a sidcontext names its SID, a class counts its permissions. -/
def builtStmt (st : Stmt) (hasChildren : Bool) : Bool :=
  builtParts (fun f => (genFields st.kind ++ resolvedFields st.kind).contains f) st.fields &&
    decide (st.kind ≠ .decl .name) && (st.kind ≠ .sidcontext || st.has .sidStr) &&
      (!isClass st.kind || st.has .numPerms == hasChildren) &&
        (holdsLocal st.kind || validParts st.fields)

mutual

/-- Trees as the builder makes them. -/
def builtNode : Tree Stmt → Bool
  | .node st children => builtStmt st (!children.isEmpty) && builtSiblings children

def builtSiblings : List (Tree Stmt) → Bool
  | [] => true
  | t :: ts => builtNode t && builtSiblings ts

end

/-- The statements that a copy keeps whole: not those without a copy function, not those
whose copy function writes through NULL, no sidcontext, no class with permissions and no
permission with a value; a blockinherit has been linked, and no expression holds the address
of a list of names. -/
def wholeStmt (st : Stmt) (hasChildren : Bool) : Bool :=
  (match st.kind with
    | .inStmt | .selinuxuser | .selinuxuserdefault | .classpermissionset | .sidcontext
    | .decl .classpermission => false
    | .decl .kernelClass | .decl .common | .decl .mapClass => !hasChildren
    | .decl .perm | .decl .mapPerm => !st.has .value
    | .blockinherit => st.has .block
    | _ => true) && validParts st.fields

mutual

def wholeNode : Tree Stmt → Bool
  | .node st children => wholeStmt st (!children.isEmpty) && wholeSiblings children

def wholeSiblings : List (Tree Stmt) → Bool
  | [] => true
  | t :: ts => wholeNode t && wholeSiblings ts

end

end Built

section Unhindered

/-- The kinds of declarations that may be made again; permissions may too, but their classes
may not. -/
def isMerged : Flavor → Bool
  | .block | .macroDef | .optional | .policycap | .sid | .user | .role | .roleattribute | .type
  | .typeattribute | .sens | .cat => true
  | _ => false

/-- A declaration is merged with one of its kind that is the same. -/
structure Merges (s : State) (st : Stmt) (flavor : Flavor) (id : Nat) : Prop where
  merged : isMerged flavor = true
  kind : (s.sym.data id).flavor = flavor
  params : (s.sym.data id).params = st.params
  fields : partsShape (s.contents id) = partsShape st.fields

/-- The place of a copied declaration has its name free, or for one that it is merged with; it
shadows no parameter. -/
def Unconflicted (s : State) (dest : Dest) (st : Stmt) (flavor : Flavor) : Prop :=
  ∃ ns, dest.getSymtab (flavorToSymtabIndex flavor) = some ns ∧
    (getDatum s.sym ns (st.decl flavor) = none ∨
      ∃ id, getDatum s.sym ns (st.decl flavor) = some id ∧ Merges s st flavor id) ∧
    ⟨flavor, st.name⟩ ∉ (match flavor with
      | .block => []
      | .macroDef => st.params
      | _ => dest.params)

mutual

/-- No declaration of the trees conflicts with one that is there when it is copied. -/
def UnhinderedSiblings (dest : Dest) : List (Tree Stmt) → State → Prop
  | [], _ => True
  | t :: ts, s => UnhinderedNode dest t s ∧
      ∀ t' s₁, copyNode dest t s = .ok (t', s₁) → UnhinderedSiblings dest ts s₁

def UnhinderedNode (dest : Dest) : Tree Stmt → State → Prop
  | .node st children, s => (∀ flavor, st.kind = .decl flavor → Unconflicted s dest st flavor) ∧
      ∀ new s₁, copyStmt s dest st = .ok (new, s₁) →
        UnhinderedSiblings (destBelow s₁ dest new).1 children (destBelow s₁ dest new).2

end

end Unhindered

section Copied

/-- A statement, whatever the numbers of its parts. -/
def stmtShape (st : Stmt) : Stmt := { st with data := 0, fields := partsShape st.fields }

mutual

def nodeShape : Tree Stmt → Tree Stmt
  | .node st children => .node (stmtShape st) (siblingsShape children)

def siblingsShape : List (Tree Stmt) → List (Tree Stmt)
  | [] => []
  | t :: ts => nodeShape t :: siblingsShape ts

end

/-- A datum has been in a symbol table. -/
def Declared (s : State) (id : Nat) : Prop := ∃ ns i key, s.sym.tables ns i key = some id

/-- The data of a statement, and the lists and structs in it, were not there before, unless it
is merged with a declaration that was. -/
def NewStmt (s : State) (st : Stmt) : Prop :=
  ((match st.kind with
    | .decl _ => s.sym.next ≤ st.data
    | _ => s.fresh ≤ st.data) ∧ ∀ i ∈ partsIds st.fields, s.fresh ≤ i) ∨
      ∃ flavor, st.kind = .decl flavor ∧ isMerged flavor = true ∧ Declared s st.data ∧
        st.fields = s.contents st.data

mutual

def NewNode (s : State) : Tree Stmt → Prop
  | .node st children => NewStmt s st ∧ NewSiblings s children

def NewSiblings (s : State) : List (Tree Stmt) → Prop
  | [] => True
  | t :: ts => NewNode s t ∧ NewSiblings s ts

end

/-- The copy ends and succeeds, and what it appends to the destination equals the original and
shares only merged declarations with what was there. -/
def FaithfulCopy (t : Nodes) (orig dst : Nat) (dest : Dest) (s : State) (ts : List (Tree Stmt)) :
    Prop :=
  ∃ fuel t' s' news ts', copyFrom fuel orig 0 dst dest t s = some (.ok (t', s')) ∧
    t'.children dst = t.children dst ++ news ∧ t'.HoldsSiblings news ts' ∧
      siblingsShape ts' = siblingsShape ts ∧ NewSiblings s ts'

end Copied

section Numbers

variable {s s' : State}

/-- Numbers are only taken, only new data are entered, and they hold new lists only. -/
structure Later (s s' : State) : Prop where
  sym : s.sym.next ≤ s'.sym.next
  fresh : s.fresh ≤ s'.fresh
  bounded : Bounded s'.sym
  declared : ∀ id, Declared s' id → s.sym.next ≤ id ∨ Declared s id
  frame : ∀ id, id < s.sym.next → s'.contents id = s.contents id
  contents : ∀ id, s.sym.next ≤ id → Declared s' id → ∀ i ∈ partsIds (s'.contents id), s.fresh ≤ i

theorem Declared.lt {id : Nat} (h : Declared s id) (hb : Bounded s.sym) : id < s.sym.next := by
  obtain ⟨ns, i, key, hentry⟩ := h
  exact hb ns i key id hentry

theorem Later.refl (hb : Bounded s.sym) : Later s s := by
  refine ⟨Nat.le_refl _, Nat.le_refl _, hb, fun _ h => Or.inr h, fun _ _ => rfl, ?_⟩
  intro id hle hid
  exact absurd (hid.lt hb) (Nat.not_lt.mpr hle)

theorem Later.trans {s₁ s₂ s₃ : State} (h : Later s₁ s₂) (h' : Later s₂ s₃) : Later s₁ s₃ := by
  refine ⟨Nat.le_trans h.sym h'.sym, Nat.le_trans h.fresh h'.fresh, h'.bounded, ?_, ?_, ?_⟩
  · intro id hid
    rcases h'.declared id hid with hnew | hold
    · exact Or.inl (Nat.le_trans h.sym hnew)
    · exact h.declared id hold
  · intro id hlt
    rw [h'.frame id (Nat.lt_of_lt_of_le hlt h.sym), h.frame id hlt]
  · intro id hle hid i hi
    by_cases hlt : id < s₂.sym.next
    · rcases h'.declared id hid with hnew | hold
      · exact absurd hlt (Nat.not_lt.mpr hnew)
      · rw [h'.frame id hlt] at hi
        exact h.contents id hle hold i hi
    · have hnew := h'.contents id (Nat.not_lt.mp hlt) hid i hi
      exact Nat.le_trans h.fresh hnew

/-- What was new is new to every state before; a merged declaration may have been made on the
way. -/
private theorem NewStmt.of_later {st : Stmt} (h : NewStmt s' st) (hb : Bounded s.sym)
    (hlater : Later s s') : NewStmt s st := by
  rcases h with ⟨hdata, hids⟩ | ⟨flavor, hkind, hmerged, hdeclared, hfields⟩
  · left
    refine ⟨?_, fun i hi => Nat.le_trans hlater.fresh (hids i hi)⟩
    cases hkind : st.kind with
    | decl flavor =>
      simp only [hkind] at hdata
      exact Nat.le_trans hlater.sym hdata
    | _ =>
      simp only [hkind] at hdata
      exact Nat.le_trans hlater.fresh hdata
  · rcases hlater.declared st.data hdeclared with hnew | hold
    · left
      refine ⟨by simpa only [hkind] using hnew, fun i hi => ?_⟩
      rw [hfields] at hi
      exact hlater.contents st.data hnew hdeclared i hi
    · right
      refine ⟨flavor, hkind, hmerged, hold, ?_⟩
      rw [hfields, hlater.frame st.data (hold.lt hb)]

mutual

private theorem newNode_of_later (t : Tree Stmt) (hb : Bounded s.sym) (hlater : Later s s')
    (h : NewNode s' t) : NewNode s t := by
  match t with
  | .node st children =>
      exact ⟨h.1.of_later hb hlater, newSiblings_of_later children hb hlater h.2⟩

private theorem newSiblings_of_later (ts : List (Tree Stmt)) (hb : Bounded s.sym)
    (hlater : Later s s') (h : NewSiblings s' ts) : NewSiblings s ts := by
  match ts with
  | [] => exact trivial
  | t :: ts => exact ⟨newNode_of_later t hb hlater h.1, newSiblings_of_later ts hb hlater h.2⟩

end

/-- A condblock takes a number for its tables, and enters nothing. -/
private theorem later_destBelow (hb : Bounded s.sym) (dest : Dest) (new : Stmt) :
    Later s (destBelow s dest new).2 := by
  unfold destBelow
  split
  · exact Later.refl hb
  · unfold Copy.copyCondblock
    split_ifs
    · have hbounded : Bounded { s.sym with next := s.sym.next + 1 } :=
        fun ns i name id h => Nat.lt_succ_of_lt (hb ns i name id h)
      refine ⟨Nat.le_succ _, Nat.le_refl _, hbounded, fun _ h => Or.inr h, fun _ _ => rfl, ?_⟩
      intro id hle hid
      have hold : Declared s id := hid
      exact absurd (hold.lt hb) (Nat.not_lt.mpr hle)
    · exact Later.refl hb
  · exact Later.refl hb

end Numbers

section Statements

variable {s s₁ : State} {dest : Dest} {st new : Stmt} {hasChildren : Bool}

/-- The fields of a statement that its copy function leaves out. -/
def lost : Kind → List Field
  | .sidcontext => [.sidStr]
  | .decl .kernelClass | .decl .common | .decl .mapClass => [.numPerms]
  | .decl .perm | .decl .mapPerm => [.value]
  | _ => []

/-- The fields that may be filled are those that are copied and those that are lost. -/
def accountedFor (kind : Kind) : Bool :=
  match copyFunc kind with
  | some (.fields fs) =>
      ((genFields kind ++ resolvedFields kind).all fun f =>
          fs.contains f || (lost kind).contains f) &&
        (lost kind).all fun f => !fs.contains f
  | _ => true

/-- Builder and copy function agree about every kind of statement, but for what is lost. -/
private theorem accountedFor_all (kind : Kind) : accountedFor kind = true := by
  cases kind with
  | decl flavor => cases flavor <;> rfl
  | _ => rfl

private theorem copied_or_lost {kind : Kind} {fs : List Field}
    (h : copyFunc kind = some (.fields fs)) :
    (∀ f ∈ genFields kind ++ resolvedFields kind, f ∈ fs ∨ f ∈ lost kind) ∧
      ∀ f ∈ lost kind, f ∉ fs := by
  have hall := accountedFor_all kind
  simp only [accountedFor, h, Bool.and_eq_true] at hall
  obtain ⟨hgen, hlost⟩ := hall
  constructor
  · intro f hf
    have hor := List.all_eq_true.mp hgen f hf
    simpa using hor
  · intro f hf
    have hnot := List.all_eq_true.mp hlost f hf
    simpa using hnot

private theorem has_iff {f : Field} : st.has f = true ↔ ∃ p ∈ st.fields, p.field = f := by
  simp [Stmt.has]

private theorem builtStmt_iff :
    builtStmt st hasChildren = true ↔
      builtParts (fun f => (genFields st.kind ++ resolvedFields st.kind).contains f) st.fields =
          true ∧ st.kind ≠ .decl .name ∧ (st.kind = .sidcontext → st.has .sidStr = true) ∧
        (isClass st.kind = true → st.has .numPerms = hasChildren) ∧
          (holdsLocal st.kind = true ∨ validParts st.fields = true) := by
  simp [builtStmt, and_assoc, or_iff_not_imp_left]

/-- A built statement is copied whole if it has no field that is lost, and no address that is
not valid. -/
private theorem intact_iff {fs : List Field} (hbuilt : builtStmt st hasChildren = true)
    (hfunc : copyFunc st.kind = some (.fields fs)) :
    intactParts (fun f => fs.contains f) st.fields = true ↔
      (∀ f ∈ lost st.kind, st.has f = false) ∧ validParts st.fields = true := by
  obtain ⟨hcopied, hlost⟩ := copied_or_lost hfunc
  obtain ⟨hparts, _⟩ := builtStmt_iff.mp hbuilt
  constructor
  · intro h
    refine ⟨fun f hf => ?_, validParts_of_intact _ _ h⟩
    by_contra hhas
    obtain ⟨p, hp, rfl⟩ := has_iff.mp (by simpa using hhas)
    have hkeep := keeps_of_intact h p hp
    exact hlost p.field hf (by simpa using hkeep)
  · intro h
    obtain ⟨hnone, hvalid⟩ := h
    refine intactParts_of_built _ _ st.fields (fun p hp hfill => ?_) hparts hvalid
    have hmem : p.field ∈ genFields st.kind ++ resolvedFields st.kind := by simpa using hfill
    rcases hcopied p.field hmem with hin | hin
    · simpa using hin
    · have hhas : st.has p.field = true := has_iff.mpr ⟨p, hp, rfl⟩
      rw [hnone p.field hin] at hhas
      cases hhas

/-- The statements that are copied whole, by what their copy function does. -/
private theorem wholeStmt_iff (hbuilt : builtStmt st hasChildren = true) :
    wholeStmt st hasChildren = true ↔
      (∃ fs, copyFunc st.kind = some (.fields fs)) ∧ st.kind ≠ .decl .classpermission ∧
        (∀ f ∈ lost st.kind, st.has f = false) ∧
          (st.kind = .blockinherit → st.has .block = true) ∧ validParts st.fields = true := by
  obtain ⟨_, _, hsid, hclass, _⟩ := builtStmt_iff.mp hbuilt
  unfold wholeStmt
  cases hkind : st.kind with
  | decl flavor =>
    rw [hkind] at hclass
    have hfunc : ∃ fs, copyFunc (.decl flavor) = some (.fields fs) := by
      cases flavor <;> exact ⟨_, rfl⟩
    cases flavor <;> simp_all [lost, isClass]
  | inStmt | selinuxuser | selinuxuserdefault | classpermissionset =>
    simp [copyFunc, copyClasspermissionset]
  | _ =>
    rw [hkind] at hsid
    have hfunc : ∃ fs, copyFunc st.kind = some (.fields fs) := by
      rw [hkind]
      exact ⟨_, rfl⟩
    rw [hkind] at hfunc
    simp_all [lost]

private theorem stmtShape_eq_iff {st' : Stmt} :
    stmtShape st' = stmtShape st ↔
      st'.kind = st.kind ∧ st'.name = st.name ∧ partsShape st'.fields = partsShape st.fields := by
  unfold stmtShape
  constructor
  · intro h
    have hall := Stmt.mk.inj h
    exact ⟨hall.1, hall.2.1, hall.2.2.2⟩
  · intro h
    obtain ⟨hkind, hname, hfields⟩ := h
    rw [hkind, hname, hfields]

private theorem has_of_shape {st' : Stmt} (h : stmtShape st' = stmtShape st) (f : Field) :
    st'.has f = st.has f :=
  any_field_of_shape (stmtShape_eq_iff.mp h).2.2 f

private theorem copyStmt_decl {flavor : Flavor} (hkind : st.kind = .decl flavor) :
    copyStmt s dest st = copyDeclNode s dest st flavor := by
  unfold copyStmt
  rw [hkind]

private theorem copyStmt_other (hkind : ∀ flavor, st.kind ≠ .decl flavor) :
    copyStmt s dest st = copyOther s st := by
  unfold copyStmt
  split
  · rename_i flavor heq
    exact absurd heq (hkind flavor)
  · rfl

section Declarations

variable {flavor : Flavor}

/-- A declaration without conflict gets a new datum or that of the one it is merged with, if
its kind has a copy function. -/
private theorem copyDecl_of_unconflicted (hfree : Unconflicted s dest st flavor)
    (hcp : flavor ≠ .classpermission) (hname : flavor ≠ .name) :
    ∃ id sym, copyDecl s.sym dest (st.decl flavor) = .ok (id, sym) ∧
      (id = s.sym.next ∨ Declared s id ∧ Merges s st flavor id) := by
  obtain ⟨ns, hns, hd, hshadow⟩ := hfree
  -- the datum, the state it is in, and its parameters
  have hfunc : ∃ id sym, Copy.copyFunc s.sym ns (st.decl flavor) = .ok (id, sym) ∧
      (sym.data id).params = st.params ∧
        (id = s.sym.next ∨ Declared s id ∧ Merges s st flavor id) := by
    rcases hd with hnone | ⟨id, hsome, hmerges⟩
    · refine ⟨_, _, copyFunc_alloc hnone hcp hname, ?_, Or.inl rfl⟩
      simp [Stmt.decl]
    · have hreuses : Reuses (st.decl flavor) (s.sym.data id) := by
        have hmerged := hmerges.merged
        unfold Reuses
        cases flavor <;> first | exact trivial | exact hmerges.params.symm | cases hmerged
      exact ⟨id, s.sym, copyFunc_of_reuses hsome hreuses, hmerges.params,
        Or.inr ⟨⟨_, _, _, hsome⟩, hmerges⟩⟩
  obtain ⟨id, sym, hok, hparams, hid⟩ := hfunc
  have hscope : ⟨(st.decl flavor).flavor, (st.decl flavor).name⟩ ∉
      paramsInScope sym dest (st.decl flavor).flavor id := by
    unfold paramsInScope
    cases flavor <;> first | exact hshadow | (rw [← hparams] at hshadow; exact hshadow)
  obtain ⟨r, hr⟩ := copyDecl_of_ok hns hok hscope
  obtain ⟨id', sym'⟩ := r
  obtain ⟨ns', s₁, hns', hok', _, _⟩ := copyDecl_cases hr
  rw [show dest.getSymtab (flavorToSymtabIndex (st.decl flavor).flavor) = some ns from hns] at hns'
  obtain rfl := Option.some.inj hns'
  rw [hok] at hok'
  obtain ⟨rfl, _⟩ := Prod.mk.inj (Except.ok.inj hok')
  exact ⟨id, sym', hr, hid⟩

private theorem copyDecl_stops (hfree : Unconflicted s dest st flavor)
    (hkind : flavor = .classpermission ∨ flavor = .name) :
    ∃ stop, copyDecl s.sym dest (st.decl flavor) = .error stop := by
  obtain ⟨ns, hns, hd, _⟩ := hfree
  rcases hd with hnone | ⟨id, _, hmerges⟩
  · obtain ⟨stop, hstop⟩ := copyFunc_stops hnone hkind
    exact ⟨stop, copyDecl_of_error hns hstop⟩
  · have hmerged := hmerges.merged
    rcases hkind with rfl | rfl <;> cases hmerged

/-- The kinds that are merged have no field that is lost. -/
private theorem wholeStmt_of_merged (hkind : st.kind = .decl flavor)
    (hmerged : isMerged flavor = true)
    (hbuilt : builtStmt st hasChildren = true) : wholeStmt st hasChildren = true := by
  obtain ⟨_, _, _, _, hlocal⟩ := builtStmt_iff.mp hbuilt
  unfold wholeStmt
  rw [hkind] at hlocal ⊢
  rcases hlocal with hlocal | hvalid
  · cases hlocal
  · cases flavor <;> simp only [isMerged, Bool.false_eq_true] at hmerged <;> simpa using hvalid

/-- What comes of a declaration: a new datum with a copy of its fields, or the one that it is
merged with. -/
private theorem copyDeclNode_cases (hb : Bounded s.sym) (hfree : Unconflicted s dest st flavor)
    (hcopy : copyDeclNode s dest st flavor = .ok (new, s₁)) :
    flavor ≠ .classpermission ∧
      ((∃ fs parts fresh sym, copyDeclaration flavor = .fields fs ∧
        copyParts (fun f => fs.contains f) st.fields s.fresh = some (parts, fresh) ∧
        copyDecl s.sym dest (st.decl flavor) = .ok (s.sym.next, sym) ∧
        new = ⟨.decl flavor, st.name, s.sym.next, parts⟩ ∧
        s₁ = ⟨sym, Function.update s.contents s.sym.next parts, fresh⟩) ∨
      ∃ id sym, Declared s id ∧ Merges s st flavor id ∧
        copyDecl s.sym dest (st.decl flavor) = .ok (id, sym) ∧
        new = ⟨.decl flavor, st.name, id, s.contents id⟩ ∧ s₁ = { s with sym := sym }) := by
  unfold copyDeclNode at hcopy
  have hkinds : ¬ (flavor = .classpermission ∨ flavor = .name) := by
    intro h
    obtain ⟨stop, hstop⟩ := copyDecl_stops hfree h
    rw [hstop] at hcopy
    cases hcopy
  obtain ⟨hcp, hname⟩ := not_or.mp hkinds
  refine ⟨hcp, ?_⟩
  obtain ⟨id, sym, hsym, rfl | ⟨hdeclared, hmerges⟩⟩ := copyDecl_of_unconflicted hfree hcp hname
  · left
    simp only [hsym, if_true] at hcopy
    split at hcopy
    · cases hcopy
    · rename_i fs hfields
      split at hcopy
      · cases hcopy
      · rename_i parts fresh hparts
        obtain ⟨rfl, rfl⟩ := Prod.mk.inj (Except.ok.inj hcopy)
        exact ⟨fs, parts, fresh, sym, hfields, hparts, hsym, rfl, rfl⟩
  · right
    have hne : id ≠ s.sym.next := Nat.ne_of_lt (hdeclared.lt hb)
    simp only [hsym, if_neg hne] at hcopy
    obtain ⟨rfl, rfl⟩ := Prod.mk.inj (Except.ok.inj hcopy)
    exact ⟨id, sym, hdeclared, hmerges, hsym, rfl, rfl⟩

end Declarations

/-- A statement that stays whole is copied. -/
private theorem copyStmt_of_whole (hb : Bounded s.sym) (hbuilt : builtStmt st hasChildren = true)
    (hfree : ∀ flavor, st.kind = .decl flavor → Unconflicted s dest st flavor)
    (hwhole : wholeStmt st hasChildren = true) :
    ∃ new s₁, copyStmt s dest st = .ok (new, s₁) ∧ stmtShape new = stmtShape st := by
  obtain ⟨⟨fs, hfunc⟩, hcp, hlost, hblock, hvalid⟩ := (wholeStmt_iff hbuilt).mp hwhole
  have hintact := (intact_iff hbuilt hfunc).mpr ⟨hlost, hvalid⟩
  by_cases hdecl : ∃ flavor, st.kind = .decl flavor
  · obtain ⟨flavor, hkind⟩ := hdecl
    have hname : flavor ≠ .name := by
      intro h
      obtain ⟨_, hne, _⟩ := builtStmt_iff.mp hbuilt
      exact hne (by rw [hkind, h])
    have hcp' : flavor ≠ .classpermission := fun h => hcp (by rw [hkind, h])
    rw [copyStmt_decl hkind]
    unfold copyDeclNode
    obtain ⟨id, sym, hcopy, rfl | ⟨hdeclared, hmerges⟩⟩ :=
      copyDecl_of_unconflicted (hfree flavor hkind) hcp' hname
    · obtain ⟨parts, fresh, hparts, hshape⟩ :=
        copyParts_of_intact (fun f => fs.contains f) st.fields s.fresh hintact
      have hfields : copyDeclaration flavor = .fields fs := by
        rw [hkind] at hfunc
        exact Option.some.inj hfunc
      rw [hcopy]
      simp only [if_true, hfields, hparts]
      exact ⟨_, _, rfl, stmtShape_eq_iff.mpr ⟨hkind.symm, rfl, hshape⟩⟩
    · rw [hcopy]
      simp only [if_neg (Nat.ne_of_lt (hdeclared.lt hb))]
      exact ⟨_, _, rfl, stmtShape_eq_iff.mpr ⟨hkind.symm, rfl, hmerges.fields⟩⟩
  · have hother : ∀ flavor, st.kind ≠ .decl flavor := fun flavor h => hdecl ⟨flavor, h⟩
    obtain ⟨parts, fresh, hparts, hshape⟩ :=
      copyParts_of_intact (fun f => fs.contains f) st.fields (s.fresh + 1) hintact
    have hnew : stmtShape ⟨st.kind, st.name, s.fresh, parts⟩ = stmtShape st :=
      stmtShape_eq_iff.mpr ⟨rfl, rfl, hshape⟩
    rw [copyStmt_other hother]
    unfold copyOther
    simp only [hfunc, hparts]
    rw [if_neg]
    · exact ⟨_, _, rfl, hnew⟩
    · intro h
      obtain ⟨hinherit, hnone⟩ := h
      rw [has_of_shape hnew, hblock hinherit] at hnone
      cases hnone

/-- A copy that equals the original has lost nothing. -/
private theorem whole_of_copyStmt (hb : Bounded s.sym) (hbuilt : builtStmt st hasChildren = true)
    (hfree : ∀ flavor, st.kind = .decl flavor → Unconflicted s dest st flavor)
    (hcopy : copyStmt s dest st = .ok (new, s₁)) (hshape : stmtShape new = stmtShape st) :
    wholeStmt st hasChildren = true := by
  by_cases hdecl : ∃ flavor, st.kind = .decl flavor
  · obtain ⟨flavor, hkind⟩ := hdecl
    rw [copyStmt_decl hkind] at hcopy
    obtain ⟨hcp, ⟨fs, parts, fresh, sym, hfields, hparts, _, rfl, _⟩ | ⟨_, _, _, hmerges, _⟩⟩ :=
      copyDeclNode_cases hb (hfree flavor hkind) hcopy
    · have hfunc : copyFunc st.kind = some (.fields fs) := by
        rw [hkind, ← hfields]
        rfl
      have hintact := intact_of_copyParts _ _ _ _ _ hparts (stmtShape_eq_iff.mp hshape).2.2
      obtain ⟨hlost, hvalid⟩ := (intact_iff hbuilt hfunc).mp hintact
      refine (wholeStmt_iff hbuilt).mpr ⟨⟨fs, hfunc⟩, ?_, hlost, ?_, hvalid⟩
      · rw [hkind]
        exact fun h => hcp (Kind.decl.inj h)
      · rw [hkind]
        exact fun h => by cases h
    · exact wholeStmt_of_merged hkind hmerges.merged hbuilt
  · have hother : ∀ flavor, st.kind ≠ .decl flavor := fun flavor h => hdecl ⟨flavor, h⟩
    rw [copyStmt_other hother] at hcopy
    unfold copyOther at hcopy
    split at hcopy
    · cases hcopy
    · cases hcopy
    · rename_i fs hfunc
      split at hcopy
      · cases hcopy
      · rename_i parts fresh hparts
        dsimp only at hcopy
        split_ifs at hcopy with hnull
        obtain ⟨rfl, _⟩ := Prod.mk.inj (Except.ok.inj hcopy)
        have hintact := intact_of_copyParts _ _ _ _ _ hparts (stmtShape_eq_iff.mp hshape).2.2
        obtain ⟨hlost, hvalid⟩ := (intact_iff hbuilt hfunc).mp hintact
        refine (wholeStmt_iff hbuilt).mpr ⟨⟨fs, hfunc⟩, hother _, hlost, ?_, hvalid⟩
        intro hinherit
        rw [has_of_shape hshape] at hnull
        by_contra hblock
        exact hnull ⟨hinherit, by simpa using hblock⟩

/-- The data of a copied statement are new, and so are the lists and structs in it. -/
private theorem copyStmt_new (hb : Bounded s.sym)
    (hfree : ∀ flavor, st.kind = .decl flavor → Unconflicted s dest st flavor)
    (hcopy : copyStmt s dest st = .ok (new, s₁)) : NewStmt s new ∧ Later s s₁ := by
  by_cases hdecl : ∃ flavor, st.kind = .decl flavor
  · obtain ⟨flavor, hkind⟩ := hdecl
    rw [copyStmt_decl hkind] at hcopy
    obtain ⟨_, ⟨fs, parts, fresh, sym, _, hparts, hsym, rfl, rfl⟩ |
        ⟨id, sym, hdeclared, hmerges, hsym, rfl, rfl⟩⟩ :=
      copyDeclNode_cases hb (hfree flavor hkind) hcopy
    · obtain ⟨hle, hids⟩ := copyParts_new _ _ _ _ _ hparts
      obtain ⟨hentries, hnext⟩ := copyDecl_entries hsym
      obtain ⟨hbounded, hlt, hmono, _⟩ := copyDecl_bounded hb hsym
      refine ⟨Or.inl ⟨Nat.le_refl _, hids⟩, hmono, hle, hbounded, ?_, ?_, ?_⟩
      · intro id hid
        obtain ⟨ns, i, key, hentry⟩ := hid
        rcases hentries ns i key id hentry with rfl | hold
        · exact Or.inl (Nat.le_refl _)
        · exact Or.inr ⟨ns, i, key, hold⟩
      · intro id hid
        exact Function.update_of_ne (Nat.ne_of_lt hid) _ _
      · intro id hge hid i hi
        obtain ⟨ns, j, key, hentry⟩ := hid
        rcases hentries ns j key id hentry with rfl | hold
        · simp only [Function.update_self] at hi
          exact hids i hi
        · exact absurd (hb ns j key id hold) (Nat.not_lt.mpr hge)
    · obtain ⟨hentries, _⟩ := copyDecl_entries hsym
      obtain ⟨hbounded, _, hmono, _⟩ := copyDecl_bounded hb hsym
      have hkept : ∀ id', Declared { s with sym := sym } id' → Declared s id' := by
        intro id' hid
        obtain ⟨ns, i, key, hentry⟩ := hid
        rcases hentries ns i key id' hentry with rfl | hold
        · exact hdeclared
        · exact ⟨ns, i, key, hold⟩
      refine ⟨Or.inr ⟨flavor, rfl, hmerges.merged, hdeclared, rfl⟩, hmono, Nat.le_refl _, hbounded,
        fun id' hid => Or.inr (hkept id' hid), fun _ _ => rfl, ?_⟩
      intro id' hge hid
      exact absurd ((hkept id' hid).lt hb) (Nat.not_lt.mpr hge)
  · have hother : ∀ flavor, st.kind ≠ .decl flavor := fun flavor h => hdecl ⟨flavor, h⟩
    rw [copyStmt_other hother] at hcopy
    unfold copyOther at hcopy
    split at hcopy
    · cases hcopy
    · cases hcopy
    · split at hcopy
      · cases hcopy
      · rename_i parts fresh hparts
        dsimp only at hcopy
        split_ifs at hcopy
        obtain ⟨rfl, rfl⟩ := Prod.mk.inj (Except.ok.inj hcopy)
        obtain ⟨hle, hids⟩ := copyParts_new _ _ _ _ _ hparts
        have hdata : NewStmt s ⟨st.kind, st.name, s.fresh, parts⟩ := by
          refine Or.inl ⟨?_, fun i hi => Nat.le_of_succ_le (hids i hi)⟩
          split
          · rename_i flavor heq
            exact absurd heq (hother flavor)
          · exact Nat.le_refl _
        have hlater : Later s { s with fresh := fresh } := by
          refine ⟨Nat.le_refl _, Nat.le_of_succ_le hle, hb, fun _ h => Or.inr h, fun _ _ => rfl, ?_⟩
          intro id hge hid
          have hold : Declared s id := hid
          exact absurd (hold.lt hb) (Nat.not_lt.mpr hge)
        exact ⟨hdata, hlater⟩

end Statements

section Trees

mutual

/-- Trees whose statements stay whole are copied as they are. -/
private theorem copyNode_of_whole (dest : Dest) (t : Tree Stmt) (s : State) (hb : Bounded s.sym)
    (hbuilt : builtNode t = true) (hfree : UnhinderedNode dest t s) (hwhole : wholeNode t = true) :
    ∃ t' s', copyNode dest t s = .ok (t', s') ∧ nodeShape t' = nodeShape t ∧ NewNode s t' ∧
      Later s s' := by
  match t with
  | .node st children =>
      rw [builtNode, Bool.and_eq_true] at hbuilt
      rw [wholeNode, Bool.and_eq_true] at hwhole
      obtain ⟨hname, hbelow⟩ := hfree
      obtain ⟨new, s₁, hcopy, hshape⟩ := copyStmt_of_whole hb hbuilt.1 hname hwhole.1
      obtain ⟨hnew, hlater⟩ := copyStmt_new hb hname hcopy
      have hlater₁ := hlater.trans (later_destBelow hlater.bounded dest new)
      obtain ⟨children', s₂, hcopies, hshapes, hnews, hlater'⟩ :=
        copySiblings_of_whole (destBelow s₁ dest new).1 children (destBelow s₁ dest new).2
          hlater₁.bounded hbuilt.2 (hbelow new s₁ hcopy) hwhole.2
      refine ⟨.node new children', s₂, ?_, ?_, ⟨hnew, ?_⟩, hlater₁.trans hlater'⟩
      · rw [copyNode, hcopy]
        dsimp only
        rw [hcopies]
      · rw [nodeShape, nodeShape, hshape, hshapes]
      · exact newSiblings_of_later children' hb hlater₁ hnews

private theorem copySiblings_of_whole (dest : Dest) (ts : List (Tree Stmt)) (s : State)
    (hb : Bounded s.sym) (hbuilt : builtSiblings ts = true) (hfree : UnhinderedSiblings dest ts s)
    (hwhole : wholeSiblings ts = true) :
    ∃ ts' s', copySiblings dest ts s = .ok (ts', s') ∧ siblingsShape ts' = siblingsShape ts ∧
      NewSiblings s ts' ∧ Later s s' := by
  match ts with
  | [] => exact ⟨[], s, rfl, rfl, trivial, Later.refl hb⟩
  | t :: ts =>
      rw [builtSiblings, Bool.and_eq_true] at hbuilt
      rw [wholeSiblings, Bool.and_eq_true] at hwhole
      obtain ⟨hnode, hrest⟩ := hfree
      obtain ⟨t', s₁, hcopy, hshape, hnew, hlater⟩ :=
        copyNode_of_whole dest t s hb hbuilt.1 hnode hwhole.1
      obtain ⟨ts', s₂, hcopies, hshapes, hnews, hlater'⟩ :=
        copySiblings_of_whole dest ts s₁ hlater.bounded hbuilt.2 (hrest t' s₁ hcopy) hwhole.2
      refine ⟨t' :: ts', s₂, ?_, ?_, ⟨hnew, ?_⟩, hlater.trans hlater'⟩
      · rw [copySiblings, hcopy]
        dsimp only
        rw [hcopies]
      · rw [siblingsShape, siblingsShape, hshape, hshapes]
      · exact newSiblings_of_later ts' hb hlater hnews

end

mutual

/-- Where a copy equals the original, every statement has stayed whole. -/
private theorem wholeNode_of_copy (dest : Dest) (t t' : Tree Stmt) (s s' : State)
    (hb : Bounded s.sym) (hbuilt : builtNode t = true) (hfree : UnhinderedNode dest t s)
    (hcopy : copyNode dest t s = .ok (t', s')) (hshape : nodeShape t' = nodeShape t) :
    wholeNode t = true := by
  match t with
  | .node st children =>
      rw [builtNode, Bool.and_eq_true] at hbuilt
      obtain ⟨hname, hbelow⟩ := hfree
      rw [copyNode] at hcopy
      split at hcopy
      · cases hcopy
      · rename_i new s₁ hstmt
        split at hcopy
        · cases hcopy
        · rename_i children' s₂ hcopies
          obtain ⟨rfl, _⟩ := Prod.mk.inj (Except.ok.inj hcopy)
          rw [nodeShape, nodeShape] at hshape
          obtain ⟨hst, hchildren⟩ := Tree.node.inj hshape
          have hlater := (copyStmt_new hb hname hstmt).2
          have hbounded := (later_destBelow hlater.bounded dest new).bounded
          rw [wholeNode, Bool.and_eq_true]
          constructor
          · exact whole_of_copyStmt hb hbuilt.1 hname hstmt hst
          · exact wholeSiblings_of_copy _ children children' _ _ hbounded hbuilt.2
              (hbelow new s₁ hstmt) hcopies hchildren

private theorem wholeSiblings_of_copy (dest : Dest) (ts ts' : List (Tree Stmt)) (s s' : State)
    (hb : Bounded s.sym) (hbuilt : builtSiblings ts = true)
    (hfree : UnhinderedSiblings dest ts s) (hcopy : copySiblings dest ts s = .ok (ts', s'))
    (hshape : siblingsShape ts' = siblingsShape ts) : wholeSiblings ts = true := by
  match ts with
  | [] => rfl
  | t :: ts =>
      rw [builtSiblings, Bool.and_eq_true] at hbuilt
      obtain ⟨hnode, hrest⟩ := hfree
      rw [copySiblings] at hcopy
      split at hcopy
      · cases hcopy
      · rename_i t' s₁ hfirst
        split at hcopy
        · cases hcopy
        · rename_i ts'' s₂ hcopies
          obtain ⟨rfl, _⟩ := Prod.mk.inj (Except.ok.inj hcopy)
          rw [siblingsShape, siblingsShape] at hshape
          obtain ⟨hhead, htail⟩ := List.cons.inj hshape
          have hwhole := wholeNode_of_copy dest t t' s s₁ hb hbuilt.1 hnode hfirst hhead
          obtain ⟨t₁, s', hsame, _, _, hlater⟩ :=
            copyNode_of_whole dest t s hb hbuilt.1 hnode hwhole
          rw [hfirst] at hsame
          obtain ⟨_, rfl⟩ := Prod.mk.inj (Except.ok.inj hsame)
          rw [wholeSiblings, Bool.and_eq_true]
          refine ⟨hwhole, ?_⟩
          exact wholeSiblings_of_copy dest ts ts'' s₁ s₂ hlater.bounded hbuilt.2
            (hrest t' s₁ hfirst) hcopies htail

end

/-- Where no name is in conflict, a built tree is copied faithfully just if every statement of
it is one that stays whole, and the walk does not come to the destination. -/
theorem faithfulCopy_iff (t : Nodes) (orig dst : Nat) (dest : Dest) (s : State)
    (ts : List (Tree Stmt)) (hclosed : t.Closed) (hto : dst < t.next)
    (hts : t.HoldsSiblings (t.children orig) ts) (hb : Bounded s.sym)
    (hbuilt : builtSiblings ts = true) (hfree : UnhinderedSiblings dest ts s) :
    FaithfulCopy t orig dst dest s ts ↔
      wholeSiblings ts = true ∧ ¬ t.Reaches orig 0 dst := by
  constructor
  · intro h
    obtain ⟨fuel, t', s', news, ts', hrun, hnews, hts', hshape, _⟩ := h
    have hapart : ¬ t.Reaches orig 0 dst := fun hreaches =>
      copyFrom_of_reaches hclosed hto hreaches hrun
    refine ⟨?_, hapart⟩
    have hfollows := copyFrom_follows ts t orig 0 dst dest s hclosed hto hts hapart
    cases hcopy : copySiblings dest ts s with
    | error stop =>
      rw [hcopy] at hfollows
      obtain ⟨enough, hfails⟩ := hfollows
      have hsame := hfails (max fuel enough) (Nat.le_max_right _ _)
      rw [copyFrom_le (Nat.le_max_left fuel enough) hrun] at hsame
      cases hsame
    | ok p =>
      rw [hcopy] at hfollows
      obtain ⟨t₁, news₁, happended, hts₁, enough, hends⟩ := hfollows
      have hsame := hends (max fuel enough) (Nat.le_max_right _ _)
      rw [copyFrom_le (Nat.le_max_left fuel enough) hrun] at hsame
      cases hsame
      obtain rfl : news = news₁ := List.append_cancel_left (hnews.symm.trans happended.appended)
      obtain rfl := holdsSiblings_unique news ts' p.1 hts' hts₁
      exact wholeSiblings_of_copy dest ts p.1 s p.2 hb hbuilt hfree hcopy hshape
  · intro h
    obtain ⟨hwhole, hapart⟩ := h
    obtain ⟨ts', s', hcopy, hshape, hnew, _⟩ :=
      copySiblings_of_whole dest ts s hb hbuilt hfree hwhole
    have hfollows := copyFrom_follows ts t orig 0 dst dest s hclosed hto hts hapart
    rw [hcopy] at hfollows
    obtain ⟨t', news, happended, hts', enough, hends⟩ := hfollows
    exact ⟨enough, t', s', news, ts', hends enough (Nat.le_refl _), happended.appended, hts',
      hshape, hnew⟩

/-- The state and the place of a copy into an empty root. -/
def emptyRoot : State := ⟨.init, fun _ => [], 0⟩

def rootDest : Dest := ⟨.root, none, []⟩

private theorem emptyRoot_bounded : Bounded emptyRoot.sym := by
  intro ns i name id h
  cases h

/-- The nodes with these statements and children. -/
def ofTable (table : List (Stmt × List Nat)) : Nodes where
  stmt n := (table[n]?.map Prod.fst).getD ⟨.call, "", 0, []⟩
  children n := (table[n]?.map Prod.snd).getD []
  next := table.length

private theorem ofTable_closed {table : List (Stmt × List Nat)}
    (h : ∀ row ∈ table, ∀ c ∈ row.2, c < table.length) : (ofTable table).Closed where
  unused n hn := by simp [ofTable, List.getElem?_eq_none_iff.mpr hn]
  bounded n c hc := by
    cases hrow : table[n]? with
    | none => simp [ofTable, hrow] at hc
    | some row =>
      have hc : c ∈ row.2 := by simpa [ofTable, hrow] using hc
      exact h row (List.mem_of_getElem? hrow) c hc

def macroM : Stmt := ⟨.decl .macroDef, "m", 0, []⟩

def callM : Stmt := ⟨.call, "", 0, [.node ⟨.macroStr, .str "m"⟩ []]⟩

/-- `(classpermissionset cps (file (read)))`. -/
def cpsStmt : Stmt :=
  ⟨.classpermissionset, "", 0,
    [.node ⟨.setStr, .str "cps"⟩ [],
      .node ⟨.classperms, .list 0⟩
        [.node ⟨.item, .struct 1 .classperms⟩
          [.node ⟨.classStr, .str "file"⟩ [],
            .node ⟨.permStrs, .list 2⟩ [.node ⟨.item, .str "read"⟩ []]]]]⟩

/-- `(macro m () (classpermissionset cps (file (read)))) (call m)`. -/
def classpermissionsetNodes : Nodes := ofTable [(macroM, [2]), (callM, []), (cpsStmt, [])]

theorem classpermissionsetBody_not_faithful :
    classpermissionsetNodes.Closed ∧
      classpermissionsetNodes.HoldsSiblings (classpermissionsetNodes.children 0)
        [.node cpsStmt []] ∧
      builtSiblings [.node cpsStmt []] = true ∧ Bounded emptyRoot.sym ∧
        UnhinderedSiblings rootDest [.node cpsStmt []] emptyRoot ∧
          ¬ FaithfulCopy classpermissionsetNodes 0 1 rootDest emptyRoot [.node cpsStmt []] := by
  refine ⟨ofTable_closed (by decide), ⟨⟨rfl, trivial⟩, trivial⟩, by decide, emptyRoot_bounded,
    ?_, ?_⟩
  · refine ⟨⟨fun flavor hkind => ?_, fun new s₁ hcopy => ?_⟩, fun t' s₁ hcopy => ?_⟩
    · cases hkind
    · cases hcopy
    · cases hcopy
  · intro h
    obtain ⟨fuel, t', s', news, ts', hrun, _⟩ := h
    cases fuel with
    | zero => cases hrun
    | succ fuel => cases hrun

/-- In `(macro m () (call m))` the macro is copied into its own call. -/
example (fuel : Nat) (t' : Nodes) (s' : State) :
    copyFrom fuel 0 0 1 rootDest (ofTable [(macroM, [1]), (callM, [])]) emptyRoot ≠
      some (.ok (t', s')) :=
  copyFrom_of_reaches (ofTable_closed (by decide)) (by decide)
    (Or.inr ⟨1, by decide, Relation.ReflTransGen.refl⟩)

def blockB : Stmt := ⟨.decl .block, "b", 0, []⟩

def typeT : Stmt := ⟨.decl .type, "t", 1, []⟩

/-- `(allow t t (file (read)))`. -/
def allowT : Stmt :=
  ⟨.avrule, "", 0,
    [.node ⟨.ruleKind, .num 1⟩ [], .node ⟨.srcStr, .str "t"⟩ [], .node ⟨.tgtStr, .str "t"⟩ [],
      .node ⟨.classperms, .list 1⟩
        [.node ⟨.item, .struct 2 .classperms⟩
          [.node ⟨.classStr, .str "file"⟩ [],
            .node ⟨.permStrs, .list 3⟩ [.node ⟨.item, .str "read"⟩ []]]]]⟩

/-- `(macro m () (block b (type t) (allow t t (file (read))))) (call m)`. -/
def blockNodes : Nodes :=
  ofTable [(macroM, [2]), (callM, []), (blockB, [3, 4]), (typeT, []), (allowT, [])]

def blockBody : List (Tree Stmt) := [.node blockB [.node typeT [], .node allowT []]]

private theorem blockNodes_apart : ¬ blockNodes.Reaches 0 0 1 := by
  have hkeeps : Keeps (2 ≤ ·) blockNodes blockNodes := by
    refine ⟨fun n hn c hc => ?_, fun _ _ => rfl, fun _ _ => rfl⟩
    match n, hn with
    | 2, _ => exact (by decide : ∀ c ∈ [3, 4], 2 ≤ c) c hc
    | 3, _ => cases hc
    | 4, _ => cases hc
    | n + 5, _ => cases hc
  rintro (⟨heq, _⟩ | ⟨c, hc, hbelow⟩)
  · cases heq
  · obtain rfl : c = 2 := List.mem_singleton.mp hc
    exact absurd (hkeeps.below_iff (Nat.le_refl 2) hbelow).2 (by decide)

theorem blockBody_faithful : FaithfulCopy blockNodes 0 1 rootDest emptyRoot blockBody := by
  refine (faithfulCopy_iff blockNodes 0 1 rootDest emptyRoot blockBody (ofTable_closed (by decide))
    (by decide) ⟨⟨rfl, ⟨rfl, trivial⟩, ⟨rfl, trivial⟩, trivial⟩, trivial⟩ emptyRoot_bounded
    (by decide) ?_).mpr ⟨by decide, blockNodes_apart⟩
  refine ⟨⟨fun flavor hkind => ?_, fun new s₁ hcopy => ?_⟩, fun _ _ _ => trivial⟩
  · cases hkind
    exact ⟨.root, rfl, Or.inl rfl, by decide⟩
  · cases hcopy
    refine ⟨⟨fun flavor hkind => ?_, fun _ _ _ => trivial⟩, fun t' s₁ hcopy => ?_⟩
    · cases hkind
      exact ⟨.ofDatum 0, rfl, Or.inl rfl, by decide⟩
    · refine ⟨⟨fun flavor hkind => ?_, fun _ _ _ => trivial⟩, fun _ _ _ => trivial⟩
      cases hkind

end Trees

end Cil.Copy.Statements
