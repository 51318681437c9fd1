/- Cil/Resolve/MacroArgsFaithful
   digest: When a parameter in the body of a macro means what is written at the call. -/

import Cil.Resolve.MacroArgs

set_option autoImplicit false
set_option relaxedAutoImplicit false

namespace Cil.Resolve.MacroArgs

open Cil.Copy Cil.Resolve.Names

variable {fileName : String → Nat} {c : Call fileName}

/-- What an argument denotes at the call: a string is the argument of a name parameter that
is in scope there, else a file name; a list is the object made for it. -/
def Call.meaning (c : Call fileName) (flavor : Flavor) : Written → Option Hit
  | .named str =>
      if flavor = .name then
        (resolveNameWithParents c.now .names str c.site.env).or
          (some (.datum (some (fileName str))))
      else resolveNameHelper c.now c.site.env (flavorToSymtabIndex flavor) str
  | .anonymous id _ => some (.datum (some id))

section Intruders

/-- What a name finds between a statement and the call. -/
def Frame.lookup (s : State) (i : SymIndex) (name : String) : Frame → Option Hit
  | .space ns => entry s ns i name
  | .call args macroParent =>
      (resolveNameCallArgs args i name).or (resolveNameWithParents s i name macroParent)

def Use.inFrames (u : Use c) (i : SymIndex) (name : String) : Option Hit :=
  u.inner.foldr (fun f r => (f.lookup u.now i name).or r) none

/-- What is found under the name of a parameter before its argument is, when the parameter
stands after `earlier` others. -/
def Use.beforeArg (u : Use c) (earlier : Nat) (p : Param) : Option Hit :=
  (u.inFrames (flavorToSymtabIndex p.flavor) p.str).or <|
    resolveNameCallArgs (c.args.take earlier) (flavorToSymtabIndex p.flavor) p.str

/-- A string argument for a name parameter is taken for a file name at once when there is
one, or when the call does not stand directly below one with a parameter of that name. -/
def takenForFileName (c : Call fileName) : Written → Option Hit
  | .named str =>
      (insertName fileName c.early c.site.parentParams str).map fun id => .datum (some id)
  | .anonymous _ _ => none

/-- What a statement finds for the parameter instead of what the argument denotes. -/
def Use.intruder (u : Use c) (earlier : Nat) (p : Param) (w : Written) : Option Hit :=
  if p.flavor = .name then
    if u.direct = true ∧ u.early.tables .root .names p.str = none then
      (u.beforeArg earlier p).or (takenForFileName c w)
    else some (.datum (some (fileName p.str)))
  else u.beforeArg earlier p

/-- What a name in an anonymous object finds on the way from the statement to the call. -/
def Use.onTheWay (u : Use c) (r : SymIndex × String) : Option Hit :=
  (u.inFrames r.1 r.2).or <|
    (resolveNameCallArgs c.args r.1 r.2).or (resolveNameWithParents u.now r.1 r.2 c.macroParent)

/-- The last statement that resolves the names of an anonymous object. -/
def lastReading (uses : List (Use c)) : Option (Use c) := (uses.filter Use.reads).getLast?

end Intruders

/-- Every use of a parameter denotes what the written argument denotes at the call. -/
structure Faithful (p : Param) (w : Written) (uses : List (Use c)) : Prop where
  found : ∀ u ∈ uses, u.named = true → u.found p = c.meaning p.flavor w
  parts : ∀ id refs, w = .anonymous id refs → (∃ u ∈ uses, u.reads = true) →
    partsAfter p.flavor refs uses none = some (resolveRefs c.now c.site.env refs)

/-- Nothing comes between the uses of a parameter and its argument: the name of the parameter is
no keyword where it is used, no other object of the name is found first, the argument is not a list
of categories, and the names in a list are found on the way from the last statement only as they are
at the call. -/
structure Undisturbed (earlier : Nat) (p : Param) (w : Written) (uses : List (Use c)) : Prop where
  notKeyword : ∀ u ∈ uses, u.named = true → ∀ id, u.keywords.lookup p.str = some id →
    c.meaning p.flavor w = id.map fun id => .datum (some id)
  found : ∀ u ∈ uses, u.named = true → u.keywords.lookup p.str = none →
    ∀ id, u.intruder earlier p w = some id → c.meaning p.flavor w = some id
  notCatset : ∀ id refs, w = .anonymous id refs → (∃ u ∈ uses, u.reads = true) →
    p.flavor ≠ .catset
  parts : ∀ id refs, w = .anonymous id refs → ∀ u, lastReading uses = some u → ∀ r ∈ refs,
    ∀ d, u.onTheWay r = some d → resolveNameHelper c.now c.site.env r.1 r.2 = some d

section Arguments

variable {s early : State} {site : Site}

/-- The argument of one parameter stands behind those of the parameters before it. -/
private theorem resolveArgs_split {pre post : List (Param × Written)} {p : Param} {w : Written}
    {args : List Arg} (h : resolveArgs fileName s early site (pre ++ (p, w) :: post) = some args) :
    ∃ id before after, args = before ++ ⟨p.flavor, p.str, id⟩ :: after ∧
      before.length = pre.length ∧
        resolveArg fileName s early site p.flavor w = some (.datum id) := by
  induction pre generalizing args with
  | nil =>
      rw [List.nil_append, resolveArgs] at h
      split at h
      · rename_i id rest hid hrest
        obtain rfl := Option.some.inj h
        exact ⟨id, [], rest, rfl, rfl, hid⟩
      · cases h
  | cons first pre ih =>
      obtain ⟨p', w'⟩ := first
      rw [List.cons_append, resolveArgs] at h
      split at h
      · rename_i id' rest hid' hrest
        obtain rfl := Option.some.inj h
        obtain ⟨id, before, after, rfl, hlen, hid⟩ := ih hrest
        refine ⟨id, ⟨p'.flavor, p'.str, id'⟩ :: before, after, rfl, ?_, hid⟩
        rw [List.length_cons, List.length_cons, hlen]
      · cases h

private theorem resolveNameCallArgs_append (before after : List Arg) (a : Arg) :
    resolveNameCallArgs (before ++ a :: after) (flavorToSymtabIndex a.flavor) a.paramStr =
      (resolveNameCallArgs before (flavorToSymtabIndex a.flavor) a.paramStr).or
        (some (.datum a.arg)) := by
  induction before with
  | nil => simp [resolveNameCallArgs]
  | cons b before ih =>
      unfold resolveNameCallArgs at ih ⊢
      by_cases hb : flavorToSymtabIndex b.flavor = flavorToSymtabIndex a.flavor ∧
          b.paramStr = a.paramStr
      · simp [hb]
      · simp only [List.cons_append, List.find?_cons, decide_eq_false hb]
        exact ih

end Arguments

/-- The datum of an argument is what is taken too early, or else what is written. -/
private theorem resolveArg_eq {flavor : Flavor} {w : Written} {hit : Hit}
    (h : resolveArg fileName c.now c.early c.site flavor w = some hit) :
    some hit = if flavor = .name then (takenForFileName c w).or (c.meaning flavor w)
      else c.meaning flavor w := by
  cases w with
  | anonymous id' refs =>
      simp only [resolveArg] at h
      split_ifs at h
      obtain rfl := Option.some.inj h
      split_ifs <;> rfl
  | named str =>
      by_cases hname : flavor = .name
      · simp only [resolveArg, if_pos hname, resolveFileName] at h
        split_ifs at h with hcrash
        rw [if_pos hname, takenForFileName, Call.meaning, if_pos hname]
        cases hins : insertName fileName c.early c.site.parentParams str with
        | some id' =>
            rw [hins, Option.map_some, Option.some_or] at h
            rw [Option.map_some, Option.some_or, h]
        | none =>
            rw [hins, Option.map_none, Option.none_or, resolveNameHelper] at h
            rw [Option.map_none, Option.none_or]
            cases hparents : resolveNameWithParents c.now .names str c.site.env with
            | some id' =>
                rw [hparents, Option.some_or] at h
                rw [Option.some_or, h]
            | none =>
                rw [hparents, Option.none_or, resolveNameWithRoot, entry] at h
                obtain ⟨id, hid, rfl⟩ := Option.map_eq_some_iff.mp h
                rw [Option.none_or, c.numbered str id hid]
      · rw [if_neg hname, Call.meaning, if_neg hname, ← h, resolveArg, if_neg hname]

section Uses

private theorem resolveNameWithParents_congr {s s' : State} {i : SymIndex} {name : String}
    (h : ∀ ns, s.tables ns i name = s'.tables ns i name) (env : Env) :
    resolveNameWithParents s i name env = resolveNameWithParents s' i name env := by
  induction env with
  | root => rfl
  | endless => rfl
  | space ns parent ih => rw [resolveNameWithParents, resolveNameWithParents, entry, entry, h, ih]
  | blockinherit block parent ihblock ih =>
      rw [resolveNameWithParents, resolveNameWithParents, ihblock, ih]
  | call args macroParent parent ihmacro ih =>
      rw [resolveNameWithParents, resolveNameWithParents, ihmacro, ih]

/-- The lookup goes through the frames from the inside out. -/
theorem resolveNameWithParents_frames (s : State) (i : SymIndex) (name : String)
    (inner : List Frame) (env : Env) :
    resolveNameWithParents s i name (inner.foldr Frame.push env) =
      (inner.foldr (fun f r => (f.lookup s i name).or r) none).or
        (resolveNameWithParents s i name env) := by
  induction inner with
  | nil => rfl
  | cons f inner ih =>
      cases f with
      | space ns =>
          rw [List.foldr_cons, Frame.push, resolveNameWithParents, ih, List.foldr_cons,
            Frame.lookup, Option.or_assoc]
      | call args macroParent =>
          rw [List.foldr_cons, Frame.push, resolveNameWithParents, ih, List.foldr_cons,
            Frame.lookup, Option.or_assoc, Option.or_assoc]

variable (u : Use c)

/-- From a statement: the blocks of the body, the arguments, the place of the macro, and
then the call. -/
private theorem Use.resolveNameHelper_site (i : SymIndex) (name : String) :
    resolveNameHelper u.now u.site.env i name =
      (u.inFrames i name).or ((resolveNameCallArgs c.args i name).or
        ((resolveNameWithParents u.now i name c.macroParent).or
          (resolveNameHelper u.now c.site.env i name))) := by
  rw [resolveNameHelper, Use.site, resolveNameWithParents_frames, resolveNameWithParents,
    resolveNameHelper]
  simp only [Use.inFrames, Option.or_assoc]

variable {pre post : List (Param × Written)} {p : Param} {w : Written}
  (hp : c.params = pre ++ (p, w) :: post)
include hp

/-- A parameter is found in the arguments unless something else is found before. -/
private theorem Use.lookup_param :
    ∃ hit, resolveArg fileName c.now c.early c.site p.flavor w = some hit ∧
      resolveNameHelper u.now u.site.env (flavorToSymtabIndex p.flavor) p.str =
        (u.beforeArg pre.length p).or (some hit) := by
  have hargs := c.resolved
  rw [hp] at hargs
  obtain ⟨id, before, after, hsplit, hlen, hid⟩ := resolveArgs_split hargs
  have htake : c.args.take pre.length = before := by
    rw [hsplit, ← hlen, List.take_left]
  have harg := resolveNameCallArgs_append before after ⟨p.flavor, p.str, id⟩
  refine ⟨.datum id, hid, ?_⟩
  rw [u.resolveNameHelper_site, Use.beforeArg, htake, hsplit, harg, Option.or_assoc,
    Option.or_assoc, Option.some_or]

/-- What a lookup finds for a parameter: what comes between, or else what is written. -/
private theorem Use.lookedUp_eq :
    u.lookedUp p = (u.intruder pre.length p w).or (c.meaning p.flavor w) := by
  obtain ⟨id, hid, hlookup⟩ := u.lookup_param hp
  have harg := resolveArg_eq hid
  rw [Use.lookedUp, Use.intruder]
  by_cases hname : p.flavor = .name
  · simp only [if_pos hname] at harg ⊢
    have hindex : flavorToSymtabIndex p.flavor = .names := by
      rw [hname]
      rfl
    rw [hindex] at hlookup
    have hmem : p ∈ c.params.map Prod.fst := by
      rw [hp]
      simp
    rw [resolveFileName]
    by_cases hdirect : u.direct = true
    · have hparams : u.site.parentParams = some (c.params.map Prod.fst) := by
        rw [Use.site]
        exact if_pos hdirect
      have hne : ¬ (u.early.tables .root .names p.str = none ∧
          u.site.parentParams = some []) := by
        intro hempty
        rw [hparams] at hempty
        have hnil := Option.some.inj hempty.2
        rw [hnil] at hmem
        cases hmem
      rw [if_neg hne]
      cases hentry : u.early.tables .root .names p.str with
      | some id' =>
          have hnum := u.numbered_early p.str id' hentry
          have hins : insertName fileName u.early u.site.parentParams p.str = some id' := by
            simp only [insertName, hentry]
          rw [if_neg (by simp), hins, Option.map_some, Option.some_or, Option.some_or, hnum]
      | none =>
          have hins : insertName fileName u.early u.site.parentParams p.str = none := by
            simp only [insertName, hentry, hparams]
            exact if_pos ⟨p, hmem, rfl⟩
          rw [if_pos ⟨hdirect, rfl⟩, hins, Option.map_none, Option.none_or, hlookup, harg,
            Option.or_assoc]
    · have hparams : u.site.parentParams = none := by
        rw [Use.site]
        exact if_neg hdirect
      have hins : insertName fileName u.early u.site.parentParams p.str =
          some (fileName p.str) := by
        cases hentry : u.early.tables .root .names p.str with
        | some id' => simp only [insertName, hentry, u.numbered_early p.str id' hentry]
        | none => simp only [insertName, hentry, hparams]
      rw [if_neg (by simp [hparams]), if_neg (fun h => hdirect h.1), hins, Option.map_some,
        Option.some_or, Option.some_or]
  · simp only [if_neg hname] at harg ⊢
    rw [hlookup, harg]

end Uses

section Parts

/-- The names of an anonymous object are left as the last statement resolves them. -/
private theorem partsAfter_eq (flavor : Flavor) (refs : List (SymIndex × String))
    (uses : List (Use c)) (parts : Option (List (Option Hit))) :
    partsAfter flavor refs uses parts =
      match lastReading uses with
      | none => parts
      | some u =>
          if flavor = .catset then parts else some (resolveRefs u.now u.site.env refs) := by
  induction uses generalizing parts with
  | nil => rfl
  | cons u us ih =>
      rw [partsAfter, ih]
      by_cases hu : u.reads = true
      · have hfilter : (u :: us).filter Use.reads = u :: us.filter Use.reads :=
          List.filter_cons_of_pos hu
        rw [lastReading, lastReading, hfilter, List.getLast?_cons]
        cases (us.filter Use.reads).getLast? with
        | none =>
            by_cases hc : flavor = .catset
            · simp [hc]
            · simp [hc, hu]
        | some v =>
            by_cases hc : flavor = .catset
            · simp [hc]
            · simp [hc]
      · have hfilter : (u :: us).filter Use.reads = us.filter Use.reads :=
          List.filter_cons_of_neg hu
        rw [lastReading, lastReading, hfilter]
        simp [hu]

private theorem lastReading_of_reads {uses : List (Use c)} (h : ∃ u ∈ uses, u.reads = true) :
    ∃ u, lastReading uses = some u := by
  obtain ⟨u, hu, hreads⟩ := h
  have hmem : u ∈ uses.filter Use.reads := List.mem_filter.mpr ⟨hu, hreads⟩
  exact ⟨_, List.getLast?_eq_some_getLast (List.ne_nil_of_mem hmem)⟩

private theorem reads_of_lastReading {uses : List (Use c)} {u : Use c}
    (h : lastReading uses = some u) :
    ∃ u ∈ uses, u.reads = true := by
  have hmem := List.mem_of_getLast? h
  exact ⟨u, (List.mem_filter.mp hmem).1, (List.mem_filter.mp hmem).2⟩

/-- The names of a list mean the same from a statement as from the call just where nothing
else is found on the way. -/
private theorem resolveRefs_eq_iff (u : Use c) {refs : List (SymIndex × String)}
    (hrefs : ∀ r ∈ refs, r.1 ≠ .names) :
    resolveRefs u.now u.site.env refs = resolveRefs c.now c.site.env refs ↔
      ∀ r ∈ refs, ∀ d, u.onTheWay r = some d →
        resolveNameHelper c.now c.site.env r.1 r.2 = some d := by
  have hone : ∀ r ∈ refs, resolveNameHelper u.now u.site.env r.1 r.2 =
      (u.onTheWay r).or (resolveNameHelper c.now c.site.env r.1 r.2) := by
    intro r hr
    have hsame : ∀ ns, u.now.tables ns r.1 r.2 = c.now.tables ns r.1 r.2 :=
      fun ns => u.same ns r.1 r.2 (hrefs r hr)
    have hcall : resolveNameHelper u.now c.site.env r.1 r.2 =
        resolveNameHelper c.now c.site.env r.1 r.2 := by
      rw [resolveNameHelper, resolveNameHelper, resolveNameWithParents_congr hsame,
        resolveNameWithRoot, resolveNameWithRoot, entry, entry, hsame]
    rw [u.resolveNameHelper_site, hcall, Use.onTheWay, Option.or_assoc, Option.or_assoc]
  rw [resolveRefs, resolveRefs, List.map_inj_left]
  constructor
  · intro h r hr d hd
    have heq := h r hr
    rw [hone r hr, hd, Option.some_or] at heq
    exact heq.symm
  · intro h r hr
    rw [hone r hr]
    cases hd : u.onTheWay r with
    | none => rfl
    | some d => rw [h r hr d hd, Option.some_or]

end Parts

/-- The names of two file names, the parameter's own string and the argument. -/
def twoFileNames (key : String) : Nat := if key = "n" then 0 else 1

/-- `(macro m ((name n)) ...)` called as `(call m ("f"))` from the root. -/
def callWithFileName : Call twoFileNames where
  site := ⟨.root, none⟩
  macroParent := .root
  params := [(⟨.name, "n"⟩, .named "f")]
  early := .init
  now := .init
  args := [⟨.name, "n", some 1⟩]
  resolved := rfl
  numbered _ _ h := absurd h (by simp [State.init])
  numbered_early _ _ h := absurd h (by simp [State.init])
  refs_ne_names p id refs h := absurd h (by simp)

/-- A type transition with the file name `n`, in an optional of the body. -/
def transitionInOptional : Use callWithFileName where
  early := .init
  now := .init
  inner := []
  direct := false
  named := true
  keywords := []
  reads := false
  same _ _ _ _ := rfl
  numbered_early _ _ h := absurd h (by simp [State.init])

end Cil.Resolve.MacroArgs
