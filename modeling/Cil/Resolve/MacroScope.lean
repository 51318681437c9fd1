/- Cil/Resolve/MacroScope
   digest: Which declaration a name in the expanded body of a macro resolves to. -/

import Cil.Copy.Levels
import Cil.Resolve.Names

set_option autoImplicit false
set_option relaxedAutoImplicit false

namespace Cil.Resolve.MacroScope

open Cil.Copy Cil.Resolve.Names

/-- A namespace the body of a macro has been copied to, with what the body declares there. -/
structure Frame where
  ns : Namespace
  declares : List (SymIndex × String)

/-- What the body declares lies in a namespace: at its top level, or in a block of it. -/
inductive Placed (s : State) : Namespace → List (Tree NodeData) → Namespace →
    SymIndex × String → Prop
  | here {ns : Namespace} {ts : List (Tree NodeData)} {k : SymIndex × String}
      (h : k ∈ declaredIn ts) : Placed s ns ts ns k
  | block {ns ns' : Namespace} {ts children : List (Tree NodeData)} {d : Decl} {id : Nat}
      {k : SymIndex × String} : (d, children) ∈ levelOfSiblings ts → d.flavor = .block →
      s.tables ns .blocks d.name = some id → Placed s (.ofDatum id) children ns' k →
      Placed s ns ts ns' k

/-- A call of a macro whose body has been copied, and any state reached since then in which the
copied declarations still are; others may have gone with the children of an optional. -/
structure Expansion where
  body : List (Tree NodeData)
  args : List Arg
  /-- The parent of the macro. -/
  macroParent : Env
  /-- The parent of the call. -/
  caller : Env
  dest : Dest
  dest_ns : dest.ns = caller.getSymtab
  before : State
  after : State
  copied : copySiblings dest body before = .ok after
  now : State
  later : ∀ ns k, Placed after dest.ns body ns k →
    now.tables ns k.1 k.2 = after.tables ns k.1 k.2

/-- The blocks of a body around a statement of it, the innermost first. -/
inductive Scope (s : State) : Namespace → List (Tree NodeData) → List Frame → Prop
  | here (ns : Namespace) (ts : List (Tree NodeData)) : Scope s ns ts []
  | block {ns : Namespace} {ts children : List (Tree NodeData)} {d : Decl} {id : Nat}
      {inner : List Frame} : (d, children) ∈ levelOfSiblings ts → d.flavor = .block →
      s.tables ns .blocks d.name = some id → Scope s (.ofDatum id) children inner →
      Scope s ns ts (inner ++ [⟨.ofDatum id, declaredIn children⟩])

/-- A statement of the copied body in its place. -/
structure Use extends Expansion where
  inner : List Frame
  scope : Scope now dest.ns body inner

variable (s : State) (i : SymIndex) (name : String)

/-- The entry of the name in the innermost namespace for which the body declares it. -/
def declaredAt : List Frame → Option Hit
  | [] => none
  | f :: fs => if (i, name) ∈ f.declares then entry s f.ns i name else declaredAt fs

/-- An entry of the name that lies inside the namespace for which the body declares it. -/
def strayAt : List Frame → Option Hit
  | [] => none
  | f :: fs =>
      if (i, name) ∈ f.declares then none
      else (entry s f.ns i name).or (strayAt fs)

namespace Use

variable (u : Use)

/-- The namespace of the call, to which the top level of the body has been copied. -/
def top : Frame := ⟨u.dest.ns, declaredIn u.body⟩

/-- The parent of the statement. -/
def env : Env :=
  u.inner.foldr (fun f env => .space f.ns env) (.call u.args u.macroParent u.caller)

/-- What the name resolves to. -/
def resolved : Option Hit := resolveNameHelper u.now u.env i name

/-- What the name means: the declaration copied for this call; else the argument; else what
is found from where the macro stands, and in the root. -/
def meant : Option Hit :=
  (declaredAt u.now i name (u.inner ++ [u.top])).or <|
    (resolveNameCallArgs u.args i name).or <|
      (resolveNameWithParents u.now i name u.macroParent).or (resolveNameWithRoot u.now i name)

/-- What is found in the places that are searched before the right one. -/
def intruder : Option Hit :=
  (strayAt u.now i name u.inner).or <|
    if ∃ f ∈ u.inner, (i, name) ∈ f.declares then none
    else if (i, name) ∈ u.top.declares then
      (resolveNameCallArgs u.args i name).or <|
        (resolveNameWithParents u.now i name u.macroParent).or
          (resolveNameBefore u.now i name u.caller)
    else if resolveNameCallArgs u.args i name = none ∧
        resolveNameWithParents u.now i name u.macroParent = none then
      resolveNameWithParents u.now i name u.caller
    else none

/-- The name resolves to what it means, and the lookup comes to an end. -/
def Hygienic : Prop :=
  u.resolved i name ≠ some .endless ∧ u.resolved i name = u.meant i name

/-- Whatever is found too early is the very declaration the name means, and the way to what it
means is not endless. -/
def Undisturbed : Prop :=
  u.meant i name ≠ some .endless ∧
    ∀ hit, u.intruder i name = some hit → u.meant i name = some hit

end Use

section Frames

variable {s} {i} {name}

/-- Every frame has an entry for what the body declares there. -/
def Installed (s : State) (frames : List Frame) : Prop :=
  ∀ f ∈ frames, ∀ k ∈ f.declares, ∃ hit, entry s f.ns k.1 k.2 = some hit

private theorem exists_entry {ns : Namespace} (h : ∃ id, s.tables ns i name = some id) :
    ∃ hit, entry s ns i name = some hit := by
  obtain ⟨id, hid⟩ := h
  exact ⟨.datum (some id), by rw [entry, hid]; rfl⟩

/-- The blocks around a statement of a copied body have entries for what they declare. -/
private theorem Scope.installed {ns : Namespace} {ts : List (Tree NodeData)} {inner : List Frame}
    (h : Scope s ns ts inner) {dest : Dest} {s₁ s₂ : State} (hns : dest.ns = ns)
    (hcopy : copySiblings dest ts s₁ = .ok s₂) (hext : Extends s₂ s) : Installed s inner := by
  induction h generalizing dest s₁ s₂ with
  | here ns ts =>
      intro f hf
      cases hf
  | @block ns ts children d id inner hmem hblock hid _ ih =>
      have hcopied := copySiblings_copied dest ts s₁ s₂ hcopy _ hmem
      obtain ⟨id', hid', hbelow⟩ := hcopied (by rw [hblock]; decide)
      obtain ⟨s₃, s₄, hchildren, hext'⟩ := hbelow hblock
      have hsame : id' = id := by
        have hentry := hext _ _ _ _ hid'
        rw [hns, hblock] at hentry
        exact Option.some.inj (hentry.symm.trans hid)
      subst hsame
      intro f hf k hk
      rcases List.mem_append.mp hf with hf | hf
      · exact ih rfl hchildren (hext'.trans hext) f hf k hk
      · obtain rfl := List.mem_singleton.mp hf
        obtain ⟨id, hid⟩ := copySiblings_declared hchildren hk
        exact exists_entry ⟨id, hext _ _ _ _ (hext' _ _ _ _ hid)⟩

private theorem declaredIn_of_block {ts children : List (Tree NodeData)} {d : Decl}
    (hmem : (d, children) ∈ levelOfSiblings ts) (hblock : d.flavor = .block) :
    (SymIndex.blocks, d.name) ∈ declaredIn ts := by
  refine List.mem_filter.mpr ⟨List.mem_map.mpr ⟨(d, children), hmem, ?_⟩, by simp⟩
  rw [hblock]
  rfl

/-- The blocks are those of the state after the copy, and what they declare is in its place. -/
theorem Scope.placed {after now : State} {ns : Namespace} {ts : List (Tree NodeData)}
    {inner : List Frame} (h : Scope now ns ts inner)
    (hlater : ∀ ns' k, Placed after ns ts ns' k →
      now.tables ns' k.1 k.2 = after.tables ns' k.1 k.2) :
    Scope after ns ts inner ∧ ∀ f ∈ inner, ∀ k ∈ f.declares, Placed after ns ts f.ns k := by
  induction h with
  | here ns ts => exact ⟨.here ns ts, fun f hf => by cases hf⟩
  | @block ns ts children d id inner hmem hblock hid _ ih =>
      have hkey : (SymIndex.blocks, d.name) ∈ declaredIn ts := declaredIn_of_block hmem hblock
      have hafter : after.tables ns .blocks d.name = some id :=
        (hlater ns (.blocks, d.name) (.here hkey)).symm.trans hid
      obtain ⟨hscope, hplaced⟩ := ih fun ns' k hk => hlater ns' k (.block hmem hblock hafter hk)
      refine ⟨.block hmem hblock hafter hscope, fun f hf k hk => ?_⟩
      rcases List.mem_append.mp hf with hf | hf
      · exact .block hmem hblock hafter (hplaced f hf k hk)
      · obtain rfl := List.mem_singleton.mp hf
        exact .block hmem hblock hafter (.here hk)

private theorem Use.installed (u : Use) : Installed u.now u.inner := by
  obtain ⟨hscope, hplaced⟩ := u.scope.placed u.later
  have hinstalled := hscope.installed rfl u.copied (Extends.refl _)
  intro f hf k hk
  obtain ⟨hit, hhit⟩ := hinstalled f hf k hk
  exact ⟨hit, by rw [entry, u.later f.ns k (hplaced f hf k hk)]; exact hhit⟩

/-- The lookup goes through the frames from the inside out. -/
theorem resolveNameWithParents_frames (frames : List Frame) (env : Env) :
    resolveNameWithParents s i name (frames.foldr (fun f env => .space f.ns env) env) =
      (frames.foldr (fun f r => (entry s f.ns i name).or r) none).or
        (resolveNameWithParents s i name env) := by
  induction frames with
  | nil => rfl
  | cons f fs ih =>
      rw [List.foldr_cons, resolveNameWithParents, ih, List.foldr_cons, Option.or_assoc]

private theorem frames_of_declared {frames : List Frame} (h : Installed s frames)
    (hd : ∃ f ∈ frames, (i, name) ∈ f.declares) :
    ∃ hit, declaredAt s i name frames = some hit ∧
      frames.foldr (fun f r => (entry s f.ns i name).or r) none =
        (strayAt s i name frames).or (some hit) := by
  induction frames with
  | nil =>
      obtain ⟨f, hf, _⟩ := hd
      cases hf
  | cons f fs ih =>
      by_cases hk : (i, name) ∈ f.declares
      · obtain ⟨id, hid⟩ := h f List.mem_cons_self (i, name) hk
        refine ⟨id, by rw [declaredAt, if_pos hk, hid], ?_⟩
        rw [strayAt, if_pos hk, List.foldr_cons, hid]
        rfl
      · have hrest : ∃ g ∈ fs, (i, name) ∈ g.declares := by
          obtain ⟨g, hg, hgk⟩ := hd
          rcases List.mem_cons.mp hg with heq | hg
          · subst heq
            exact absurd hgk hk
          · exact ⟨g, hg, hgk⟩
        obtain ⟨id, hid, hfold⟩ := ih (fun g hg => h g (List.mem_cons_of_mem f hg)) hrest
        refine ⟨id, by rw [declaredAt, if_neg hk, hid], ?_⟩
        rw [strayAt, if_neg hk, List.foldr_cons, hfold, Option.or_assoc]

private theorem frames_of_not_declared {frames : List Frame}
    (hd : ¬ ∃ f ∈ frames, (i, name) ∈ f.declares) :
    frames.foldr (fun f r => (entry s f.ns i name).or r) none = strayAt s i name frames := by
  induction frames with
  | nil => rfl
  | cons f fs ih =>
      have hk : (i, name) ∉ f.declares := fun hk => hd ⟨f, List.mem_cons_self, hk⟩
      have hrest : ¬ ∃ g ∈ fs, (i, name) ∈ g.declares := by
        intro hrest
        obtain ⟨g, hg, hgk⟩ := hrest
        exact hd ⟨g, List.mem_cons_of_mem f hg, hgk⟩
      rw [strayAt, if_neg hk, List.foldr_cons, ih hrest]

private theorem declaredAt_append_of_declared {frames : List Frame} (last : Frame)
    (hd : ∃ f ∈ frames, (i, name) ∈ f.declares) :
    declaredAt s i name (frames ++ [last]) = declaredAt s i name frames := by
  induction frames with
  | nil =>
      obtain ⟨f, hf, _⟩ := hd
      cases hf
  | cons f fs ih =>
      rw [List.cons_append, declaredAt, declaredAt]
      by_cases hk : (i, name) ∈ f.declares
      · rw [if_pos hk, if_pos hk]
      · rw [if_neg hk, if_neg hk]
        apply ih
        obtain ⟨g, hg, hgk⟩ := hd
        rcases List.mem_cons.mp hg with heq | hg
        · subst heq
          exact absurd hgk hk
        · exact ⟨g, hg, hgk⟩

private theorem declaredAt_append_of_not_declared {frames : List Frame} (last : Frame)
    (hd : ¬ ∃ f ∈ frames, (i, name) ∈ f.declares) :
    declaredAt s i name (frames ++ [last]) = declaredAt s i name [last] := by
  induction frames with
  | nil => rfl
  | cons f fs ih =>
      have hk : (i, name) ∉ f.declares := fun hk => hd ⟨f, List.mem_cons_self, hk⟩
      rw [List.cons_append, declaredAt, if_neg hk]
      apply ih
      intro hrest
      obtain ⟨g, hg, hgk⟩ := hrest
      exact hd ⟨g, List.mem_cons_of_mem f hg, hgk⟩

end Frames

namespace Use

variable (u : Use) {i name}

private theorem resolved_eq_frames :
    u.resolved i name =
      (u.inner.foldr (fun f r => (entry u.now f.ns i name).or r) none).or
        (resolveNameHelper u.now (.call u.args u.macroParent u.caller) i name) := by
  rw [resolved, resolveNameHelper, env, resolveNameWithParents_frames, Option.or_assoc]
  rfl

/-- Below the top level of the body: the copied declaration, or what is found before it. -/
private theorem resolveNameHelper_call_of_declared (h : (i, name) ∈ u.top.declares) :
    ∃ hit, declaredAt u.now i name [u.top] = some hit ∧
      resolveNameHelper u.now (.call u.args u.macroParent u.caller) i name =
        ((resolveNameCallArgs u.args i name).or <|
          (resolveNameWithParents u.now i name u.macroParent).or
            (resolveNameBefore u.now i name u.caller)).or (some hit) := by
  obtain ⟨id, hid⟩ := copySiblings_declared u.copied h
  have hnow := u.later u.dest.ns (i, name) (.here h)
  obtain ⟨hit, hentry⟩ := exists_entry ⟨id, hnow.trans hid⟩
  refine ⟨hit, by rw [declaredAt, if_pos h]; exact hentry, ?_⟩
  rw [u.dest_ns] at hentry
  exact resolveNameHelper_of_entry hentry

/-- The lookup finds what comes too early, and else what the name means. -/
private theorem resolved_eq : u.resolved i name = (u.intruder i name).or (u.meant i name) := by
  rw [resolved_eq_frames, intruder, meant]
  by_cases hinner : ∃ f ∈ u.inner, (i, name) ∈ f.declares
  · obtain ⟨id, hid, hfold⟩ := frames_of_declared u.installed hinner
    rw [if_pos hinner, hfold, declaredAt_append_of_declared _ hinner, hid, Option.or_none,
      Option.or_assoc, Option.some_or, Option.some_or]
  · rw [if_neg hinner, frames_of_not_declared hinner,
      declaredAt_append_of_not_declared _ hinner]
    by_cases htop : (i, name) ∈ u.top.declares
    · obtain ⟨id, hid, hcall⟩ := u.resolveNameHelper_call_of_declared htop
      simp only [if_pos htop, hcall, hid, Option.some_or, Option.or_assoc]
    · have hnot : declaredAt u.now i name [u.top] = none := by
        rw [declaredAt, if_neg htop]
        rfl
      rw [if_neg htop, hnot, Option.none_or, resolveNameHelper, resolveNameWithParents]
      cases hargs : resolveNameCallArgs u.args i name with
      | some id => simp
      | none =>
          cases hmacro : resolveNameWithParents u.now i name u.macroParent with
          | some id => simp
          | none => simp [Option.or_assoc]

end Use

/-- The block `b` declares the macro `m` and a type `t`; so does the body of `m`. -/
def typeInMacroAndBlock : List Op :=
  [.gen ⟨.root, none, []⟩ ⟨.block, "b", []⟩,
    .gen ⟨.ofDatum 0, none, []⟩ ⟨.macroDef, "m", []⟩,
    .gen ⟨.ofDatum 1, none, []⟩ ⟨.type, "t", []⟩,
    .gen ⟨.ofDatum 0, none, []⟩ ⟨.type, "t", []⟩]

def typeInMacroAndBlockBuilt : State := (run .init typeInMacroAndBlock).toOption.getD .init

def bodyOfM : List (Tree NodeData) := [.node (.decl ⟨.type, "t", []⟩) [], .node .other []]

def bodyOfMCopied : State :=
  (copySiblings ⟨.root, none, []⟩ bodyOfM typeInMacroAndBlockBuilt).toOption.getD .init

/-- A statement of the body of `m`, called as `b.m` from the root. -/
def capturedUse : Use where
  body := bodyOfM
  args := []
  macroParent := .space (.ofDatum 0) .root
  caller := .root
  dest := ⟨.root, none, []⟩
  dest_ns := rfl
  before := typeInMacroAndBlockBuilt
  after := bodyOfMCopied
  copied := rfl
  now := bodyOfMCopied
  later _ _ _ := rfl
  inner := []
  scope := .here _ _

end Cil.Resolve.MacroScope
