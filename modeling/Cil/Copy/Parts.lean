/- Cil/Copy/Parts
   digest: The lists and structs that statements hold, and how they are copied. -/

import Mathlib.Data.List.Basic
import Cil.Flavor
import Cil.Tree

/-!
What a statement holds is a tree: strings and numbers at its leaves, lists and structs above
them. Lists and structs are numbered, as they can be changed. A field that the initialiser of
its struct leaves as it is is not in the tree.
-/

set_option autoImplicit false
set_option relaxedAutoImplicit false

namespace Cil.Copy

/-- The fields of the structs. Where a struct has a field for a name and one for what is
given in its place, such as `context_str` and `context`, they are one here. -/
inductive Field
  | item
  | actualStr | addr | aliasStr | argsTree | attrStr | block | blockStr | callee | catListStr
  | cats | childStr | classListStr | classperms | classStr | classStrs | commonStr | context
  | copied | dev | execStr | family | fileType | flavor | fsStr | fsuseType | handleUnknown
  | high | ifContext | interfaceStr | iomemHigh | iomemLow | ioportHigh | ioportLow | ip | level
  | low | macroStr | mapClassStr | mapPermStr | mask | nameStr | numPerms | object
  | objectRange | objStr | packetContext | params | parentStr | pathStr | permStrs | pirq
  | portHigh | portLow | prefixStr | preservedTunable | proto | range | resultStr | roleStr
  | ruleKind | sensListStr | sensStr | setStr | sidListStr | sidStr | srcStr | str | strExpr
  | tgtStr | typeStr | userStr | value
  deriving DecidableEq, Repr

/-- The structs below those of statements. -/
inductive Struct
  | classperms | classpermsSet | cats | level | levelrange | context | ipaddr | param
  deriving DecidableEq, Repr

/-- What stands in a field or in an item of a list. -/
inductive Content
  | str (s : String)
  | num (n : Nat)
  | flavor (f : Flavor)
  /-- A pointer to a declaration. -/
  | datum (id : Nat)
  | list (id : Nat)
  | struct (id : Nat) (kind : Struct)
  /-- The address of a local variable of a function that has returned. -/
  | dangling
  deriving DecidableEq, Repr

structure Cell where
  field : Field
  content : Content
  deriving DecidableEq, Repr

/-- What stands in a field, with what is in it. -/
abbrev Part := Tree Cell

def Part.field : Part → Field
  | .node c _ => c.field

section CopyFunctions

/-- `cil_copy_classperms`. -/
def copyClassperms : List Field := [.classStr, .permStrs]
/-- `cil_copy_classperms_set`. -/
def copyClasspermsSet : List Field := [.setStr]
/-- `cil_copy_cats`. -/
def copyCats : List Field := [.strExpr]
/-- `cil_copy_fill_level`. -/
def copyFillLevel : List Field := [.sensStr, .cats]
/-- `cil_copy_fill_levelrange`. -/
def copyFillLevelrange : List Field := [.low, .high]
/-- `cil_copy_fill_context`. -/
def copyFillContext : List Field := [.userStr, .roleStr, .typeStr, .range]
/-- `cil_copy_fill_ipaddr`. -/
def copyFillIpaddr : List Field := [.family, .ip]
/-- The parameters in `cil_copy_list`. -/
def copyParam : List Field := [.str, .flavor]

/-- The fields that are copied of a struct. -/
def Struct.copied : Struct → List Field
  | .classperms => copyClassperms
  | .classpermsSet => copyClasspermsSet
  | .cats => copyCats
  | .level => copyFillLevel
  | .levelrange => copyFillLevelrange
  | .context => copyFillContext
  | .ipaddr => copyFillIpaddr
  | .param => copyParam

/-- What is copied of the parts below: all items of a list, some fields of a struct. -/
def Content.keeps : Content → Field → Bool
  | .list _, _ => true
  | .struct _ kind, f => kind.copied.contains f
  | _, _ => false

/-- A new list or struct has a new number. -/
def Content.renew (n : Nat) : Content → Content × Nat
  | .list _ => (.list n, n + 1)
  | .struct _ kind => (.struct n kind, n + 1)
  | c => (c, n)

mutual

/-- `cil_copy_list`, `cil_copy_expr` and the copy functions of structs; `none` when they read
through an address that is not valid. -/
def copyPart : Part → Nat → Option (Part × Nat)
  | .node c parts, n =>
      if c.content = .dangling then none
      else
        match copyParts c.content.keeps parts (c.content.renew n).2 with
        | none => none
        | some (parts', n') => some (.node ⟨c.field, (c.content.renew n).1⟩ parts', n')

def copyParts (keeps : Field → Bool) : List Part → Nat → Option (List Part × Nat)
  | [], n => some ([], n)
  | p :: ps, n =>
      if keeps p.field = true then
        match copyPart p n with
        | none => none
        | some (p', n') =>
            match copyParts keeps ps n' with
            | none => none
            | some (ps', n'') => some (p' :: ps', n'')
      else copyParts keeps ps n

end

end CopyFunctions

section Builders

/-- `cil_fill_classperms`. -/
def fillClassperms : List Field := [.classStr, .permStrs]
/-- `cil_fill_classperms_set`. -/
def fillClasspermsSet : List Field := [.setStr]
/-- `cil_fill_cats`. -/
def fillCats : List Field := [.strExpr]
/-- `cil_fill_level`. -/
def fillLevel : List Field := [.sensStr, .cats]
/-- `cil_fill_levelrange`. -/
def fillLevelrange : List Field := [.low, .high]
/-- `cil_fill_context`. -/
def fillContext : List Field := [.userStr, .roleStr, .typeStr, .range]
/-- `cil_fill_ipaddr`. -/
def fillIpaddr : List Field := [.family, .ip]
/-- The parameters in `cil_gen_macro`. -/
def fillParam : List Field := [.str, .flavor]

/-- The fields that the builder fills of a struct. -/
def Struct.filled : Struct → List Field
  | .classperms => fillClassperms
  | .classpermsSet => fillClasspermsSet
  | .cats => fillCats
  | .level => fillLevel
  | .levelrange => fillLevelrange
  | .context => fillContext
  | .ipaddr => fillIpaddr
  | .param => fillParam

/-- What the builder puts below a part. -/
def Content.fills : Content → Field → Bool
  | .list _, _ => true
  | .struct _ kind, f => kind.filled.contains f
  | _, _ => false

mutual

/-- The builder puts nothing in a part that it does not fill. -/
def builtPart : Part → Bool
  | .node c parts => builtParts c.content.fills parts

def builtParts (fills : Field → Bool) : List Part → Bool
  | [] => true
  | p :: ps => fills p.field && builtPart p && builtParts fills ps

end

mutual

/-- There is no address in a part that is not valid. -/
def validPart : Part → Bool
  | .node c parts => decide (c.content ≠ .dangling) && validParts parts

def validParts : List Part → Bool
  | [] => true
  | p :: ps => validPart p && validParts ps

end

end Builders

section Shape

/-- What a part is, whatever its number. -/
def Content.shape : Content → Content
  | .list _ => .list 0
  | .struct _ kind => .struct 0 kind
  | c => c

def Content.ids : Content → List Nat
  | .list id => [id]
  | .struct id _ => [id]
  | _ => []

mutual

def partShape : Part → Part
  | .node c parts => .node ⟨c.field, c.content.shape⟩ (partsShape parts)

def partsShape : List Part → List Part
  | [] => []
  | p :: ps => partShape p :: partsShape ps

end

mutual

/-- The numbers of the lists and structs. -/
def partIds : Part → List Nat
  | .node c parts => c.content.ids ++ partsIds parts

def partsIds : List Part → List Nat
  | [] => []
  | p :: ps => partIds p ++ partsIds ps

end

private theorem partShape_field (p : Part) : (partShape p).field = p.field := by
  cases p with
  | node c parts => rfl

private theorem length_partsShape (ps : List Part) : (partsShape ps).length = ps.length := by
  induction ps with
  | nil => rfl
  | cons p ps ih =>
    rw [partsShape, List.length_cons, List.length_cons, ih]

/-- Which fields there are does not depend on numbers. -/
theorem any_field_of_shape {ps ps' : List Part} (h : partsShape ps = partsShape ps')
    (f : Field) : (ps.any fun p => p.field = f) = ps'.any fun p => p.field = f := by
  induction ps generalizing ps' with
  | nil =>
    cases ps' with
    | nil => rfl
    | cons p ps' => cases h
  | cons p ps ih =>
    cases ps' with
    | nil => cases h
    | cons p' ps' =>
      rw [partsShape, partsShape] at h
      obtain ⟨hhead, htail⟩ := List.cons.inj h
      have hfield : p.field = p'.field := by
        rw [← partShape_field p, hhead, partShape_field]
      rw [List.any_cons, List.any_cons, hfield, ih htail]

private theorem shape_renew (c : Content) (n : Nat) : (c.renew n).1.shape = c.shape := by
  cases c <;> rfl

private theorem le_renew (c : Content) (n : Nat) : n ≤ (c.renew n).2 := by
  cases c <;> simp [Content.renew]

private theorem ids_renew (c : Content) (n : Nat) : ∀ i ∈ (c.renew n).1.ids, n ≤ i := by
  cases c <;> simp [Content.renew, Content.ids]

end Shape

section Intact

mutual

/-- Nothing of a part is left out when it is copied. -/
def intactPart : Part → Bool
  | .node c parts => decide (c.content ≠ .dangling) && intactParts c.content.keeps parts

def intactParts (keeps : Field → Bool) : List Part → Bool
  | [] => true
  | p :: ps => keeps p.field && intactPart p && intactParts keeps ps

end

private theorem intactParts_cons {keeps : Field → Bool} {p : Part} {ps : List Part} :
    intactParts keeps (p :: ps) = true ↔
      keeps p.field = true ∧ intactPart p = true ∧ intactParts keeps ps = true := by
  rw [intactParts, Bool.and_eq_true, Bool.and_eq_true, and_assoc]

mutual

/-- An intact part is copied as it is. -/
private theorem copyPart_of_intact (p : Part) (n : Nat) (h : intactPart p = true) :
    ∃ p' n', copyPart p n = some (p', n') ∧ partShape p' = partShape p := by
  match p with
  | .node c parts =>
      rw [intactPart, Bool.and_eq_true, decide_eq_true_eq] at h
      obtain ⟨parts', n', hcopy, hshape⟩ :=
        copyParts_of_intact c.content.keeps parts (c.content.renew n).2 h.2
      refine ⟨.node ⟨c.field, (c.content.renew n).1⟩ parts', n', ?_, ?_⟩
      · rw [copyPart, if_neg h.1, hcopy]
      · rw [partShape, partShape, hshape]
        dsimp only
        rw [shape_renew]

theorem copyParts_of_intact (keeps : Field → Bool) (ps : List Part) (n : Nat)
    (h : intactParts keeps ps = true) :
    ∃ ps' n', copyParts keeps ps n = some (ps', n') ∧ partsShape ps' = partsShape ps := by
  match ps with
  | [] => exact ⟨[], n, rfl, rfl⟩
  | p :: ps =>
      obtain ⟨hkeep, hp, hps⟩ := intactParts_cons.mp h
      obtain ⟨p', n', hcopy, hshape⟩ := copyPart_of_intact p n hp
      obtain ⟨ps', n'', hcopies, hshapes⟩ := copyParts_of_intact keeps ps n' hps
      refine ⟨p' :: ps', n'', ?_, ?_⟩
      · rw [copyParts, if_pos hkeep, hcopy]
        dsimp only
        rw [hcopies]
      · rw [partsShape, partsShape, hshape, hshapes]

end

/-- A copy has at most as many parts as the original. -/
private theorem length_copyParts_le {keeps : Field → Bool} {ps ps' : List Part} {n n' : Nat}
    (h : copyParts keeps ps n = some (ps', n')) : ps'.length ≤ ps.length := by
  induction ps generalizing ps' n n' with
  | nil =>
    obtain ⟨rfl, _⟩ := Prod.mk.inj (Option.some.inj h)
    exact Nat.le_refl _
  | cons p ps ih =>
    rw [copyParts] at h
    split_ifs at h
    · split at h
      · cases h
      · split at h
        · cases h
        · rename_i ps'' _ hcopies
          obtain ⟨rfl, _⟩ := Prod.mk.inj (Option.some.inj h)
          exact Nat.succ_le_succ (ih hcopies)
    · exact Nat.le_succ_of_le (ih h)

mutual

/-- What is copied as it is is intact. -/
private theorem intact_of_copyPart (p p' : Part) (n n' : Nat) (h : copyPart p n = some (p', n'))
    (hshape : partShape p' = partShape p) : intactPart p = true := by
  match p with
  | .node c parts =>
      rw [copyPart] at h
      split_ifs at h with hdangling
      split at h
      · cases h
      · rename_i parts' n'' hcopies
        obtain ⟨rfl, _⟩ := Prod.mk.inj (Option.some.inj h)
        rw [partShape, partShape] at hshape
        obtain ⟨_, hparts⟩ := Tree.node.inj hshape
        rw [intactPart, Bool.and_eq_true, decide_eq_true_eq]
        exact ⟨hdangling, intact_of_copyParts _ parts parts' _ _ hcopies hparts⟩

theorem intact_of_copyParts (keeps : Field → Bool) (ps ps' : List Part) (n n' : Nat)
    (h : copyParts keeps ps n = some (ps', n')) (hshape : partsShape ps' = partsShape ps) :
    intactParts keeps ps = true := by
  match ps with
  | [] => rfl
  | p :: ps =>
      rw [copyParts] at h
      split_ifs at h with hkeep
      · split at h
        · cases h
        · rename_i p' n₁ hcopy
          split at h
          · cases h
          · rename_i ps'' n₂ hcopies
            obtain ⟨rfl, _⟩ := Prod.mk.inj (Option.some.inj h)
            rw [partsShape, partsShape] at hshape
            obtain ⟨hhead, htail⟩ := List.cons.inj hshape
            refine intactParts_cons.mpr ⟨hkeep, ?_, ?_⟩
            · exact intact_of_copyPart p p' n n₁ hcopy hhead
            · exact intact_of_copyParts keeps ps ps'' n₁ n₂ hcopies htail
      · -- one part is missing in the copy
        have hle := length_copyParts_le h
        have hlength := congrArg List.length hshape
        rw [length_partsShape, length_partsShape, List.length_cons] at hlength
        omega

end

mutual

/-- The lists and structs of a copy are new. -/
private theorem copyPart_new (p p' : Part) (n n' : Nat) (h : copyPart p n = some (p', n')) :
    n ≤ n' ∧ ∀ i ∈ partIds p', n ≤ i := by
  match p with
  | .node c parts =>
      rw [copyPart] at h
      split_ifs at h
      split at h
      · cases h
      · rename_i parts' n'' hcopies
        obtain ⟨rfl, rfl⟩ := Prod.mk.inj (Option.some.inj h)
        obtain ⟨hle, hids⟩ := copyParts_new _ parts parts' _ _ hcopies
        have hrenew := le_renew c.content n
        refine ⟨Nat.le_trans hrenew hle, fun i hi => ?_⟩
        rw [partIds] at hi
        rcases List.mem_append.mp hi with hi | hi
        · exact ids_renew c.content n i hi
        · exact Nat.le_trans hrenew (hids i hi)

theorem copyParts_new (keeps : Field → Bool) (ps ps' : List Part) (n n' : Nat)
    (h : copyParts keeps ps n = some (ps', n')) : n ≤ n' ∧ ∀ i ∈ partsIds ps', n ≤ i := by
  match ps with
  | [] =>
      obtain ⟨rfl, rfl⟩ := Prod.mk.inj (Option.some.inj h)
      exact ⟨Nat.le_refl _, fun i hi => by cases hi⟩
  | p :: ps =>
      rw [copyParts] at h
      split_ifs at h
      · split at h
        · cases h
        · rename_i p' n₁ hcopy
          split at h
          · cases h
          · rename_i ps'' n₂ hcopies
            obtain ⟨rfl, rfl⟩ := Prod.mk.inj (Option.some.inj h)
            obtain ⟨hle, hids⟩ := copyPart_new p p' n n₁ hcopy
            obtain ⟨hle', hids'⟩ := copyParts_new keeps ps ps'' n₁ n₂ hcopies
            refine ⟨Nat.le_trans hle hle', fun i hi => ?_⟩
            rw [partsIds] at hi
            rcases List.mem_append.mp hi with hi | hi
            · exact hids i hi
            · exact Nat.le_trans hle (hids' i hi)
      · exact copyParts_new keeps ps ps' n n' h

end

/-- The copy functions of the structs below a statement leave nothing out that the builder
fills. -/
private theorem fills_keeps (c : Content) (f : Field) (h : c.fills f = true) :
    c.keeps f = true := by
  cases c with
  | struct id kind => cases kind <;> exact h
  | list id => rfl
  | _ => cases h

mutual

private theorem intactPart_of_built (p : Part) (hbuilt : builtPart p = true)
    (hvalid : validPart p = true) :
    intactPart p = true := by
  match p with
  | .node c parts =>
      rw [validPart, Bool.and_eq_true] at hvalid
      rw [intactPart, Bool.and_eq_true]
      refine ⟨hvalid.1, ?_⟩
      exact intactParts_of_built _ _ parts (fun p _ => fills_keeps c.content p.field) hbuilt
        hvalid.2

/-- What is built is intact, but for addresses that are not valid. -/
theorem intactParts_of_built (fills keeps : Field → Bool) (ps : List Part)
    (hkeeps : ∀ p ∈ ps, fills p.field = true → keeps p.field = true)
    (hbuilt : builtParts fills ps = true) (hvalid : validParts ps = true) :
    intactParts keeps ps = true := by
  match ps with
  | [] => rfl
  | p :: ps =>
      rw [builtParts, Bool.and_eq_true, Bool.and_eq_true] at hbuilt
      rw [validParts, Bool.and_eq_true] at hvalid
      obtain ⟨⟨hfill, hp⟩, hps⟩ := hbuilt
      have hrest : ∀ q ∈ ps, fills q.field = true → keeps q.field = true :=
        fun q hq => hkeeps q (List.mem_cons_of_mem _ hq)
      refine intactParts_cons.mpr ⟨hkeeps p (List.mem_cons_self ..) hfill, ?_, ?_⟩
      · exact intactPart_of_built p hp hvalid.1
      · exact intactParts_of_built fills keeps ps hrest hps hvalid.2

end

theorem keeps_of_intact {keeps : Field → Bool} {ps : List Part}
    (h : intactParts keeps ps = true) : ∀ p ∈ ps, keeps p.field = true := by
  induction ps with
  | nil =>
    intro p hp
    cases hp
  | cons q ps ih =>
    obtain ⟨hkeep, _, hps⟩ := intactParts_cons.mp h
    intro p hp
    rcases List.mem_cons.mp hp with rfl | hp
    · exact hkeep
    · exact ih hps p hp

mutual

private theorem validPart_of_intact (p : Part) (h : intactPart p = true) : validPart p = true := by
  match p with
  | .node c parts =>
      rw [intactPart, Bool.and_eq_true] at h
      rw [validPart, Bool.and_eq_true]
      exact ⟨h.1, validParts_of_intact _ parts h.2⟩

theorem validParts_of_intact (keeps : Field → Bool) (ps : List Part)
    (h : intactParts keeps ps = true) : validParts ps = true := by
  match ps with
  | [] => rfl
  | p :: ps =>
      obtain ⟨_, hp, hps⟩ := intactParts_cons.mp h
      rw [validParts, Bool.and_eq_true]
      exact ⟨validPart_of_intact p hp, validParts_of_intact keeps ps hps⟩

end

end Intact

end Cil.Copy
