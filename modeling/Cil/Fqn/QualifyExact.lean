/- Cil/Fqn/QualifyExact
   digest: Qualified names are the paths of their declarations, and lead back to them. -/

import Cil.Fqn.Qualify
import Cil.Resolve.DottedNamesExact

set_option autoImplicit false
set_option relaxedAutoImplicit false

namespace Cil.Fqn

open Cil.Copy Cil.Library Cil.Library.Separated Cil.Library.Strtok Cil.Resolve.DottedNames

section Paths

@[simp]
theorem blockPrefix_nil : blockPrefix [] = [] := rfl

private theorem blockPrefix_append (path : List Text) (name : Text) :
    blockPrefix (path ++ [name]) = blockPrefix path ++ name ++ ['.'] := by
  simp [blockPrefix]

private theorem joined_append_singleton (path : List Text) (name : Text) :
    joined '.' (path ++ [name]) = blockPrefix path ++ name := by
  induction path with
  | nil => rw [List.nil_append, joined_singleton, blockPrefix_nil, List.nil_append]
  | cons first rest ih =>
      have hne : rest ++ [name] ≠ [] := List.append_ne_nil_of_right_ne_nil rest (by simp)
      rw [List.cons_append, joined_cons hne, ih]
      simp [blockPrefix]

private theorem blockPrefix_pos {path : List Text} (h : path ≠ []) :
    0 < (blockPrefix path).length := by
  obtain ⟨first, rest, hcons⟩ := List.exists_cons_of_ne_nil h
  rw [hcons]
  simp only [blockPrefix, List.map_cons, List.flatten_cons, List.length_append,
    List.length_singleton]
  omega

private theorem dot_not_mem {name : Text} (h : verifyName name = .ok) : '.' ∉ name :=
  fun hmem => dot_not_nameChar ((verifyName_ok h).2.2 '.' hmem)

private theorem not_names_of_qualified {i : SymIndex} (h : i ∈ qualifiedKinds) :
    i ≠ .names ∧ i ≠ .perms := by
  constructor
  · intro heq
    rw [heq] at h
    exact absurd h (by decide)
  · intro heq
    rw [heq] at h
    exact absurd h (by decide)

variable {d : Resolved}

theorem BlockPath.names {ns : Namespace} {path : List Text} (h : BlockPath d ns path) :
    ∀ name ∈ path, verifyName name = .ok := by
  induction h with
  | root => exact fun name hname => (List.not_mem_nil hname).elim
  | inner h hid hblock ih =>
      intro name hname
      rcases List.mem_append.mp hname with hname | hname
      · exact ih name hname
      · rw [List.mem_singleton.mp hname]
        exact d.entry_name (by decide) hid

private theorem number_injective {i i' : SymIndex} (hi : i ≠ .perms) (hi' : i' ≠ .perms)
    (h : number i = number i') : i = i' := by
  have hsome := symtabs_number hi
  rw [h, symtabs_number hi'] at hsome
  exact (Option.some.inj hsome).symm

/-- A datum is in one table only. -/
private theorem entry_unique {ns ns' : Namespace} {i i' : SymIndex} {key key' : String} {id : Nat}
    (hi : i ≠ .perms) (hi' : i' ≠ .perms) (h : d.ast.sym.tables ns i key = some id)
    (h' : d.ast.sym.tables ns' i' key' = some id) : ns = ns' ∧ i = i' := by
  have hhome := (d.entry_home hi h).symm.trans (d.entry_home hi' h')
  injection hhome with hpointer
  injection hpointer with hns hnumber
  exact ⟨hns, number_injective hi hi' hnumber⟩

theorem BlockPath.unique {ns : Namespace} {path path' : List Text} (h : BlockPath d ns path)
    (h' : BlockPath d ns path') : path = path' := by
  induction h generalizing path' with
  | root =>
      cases h' with
      | root => rfl
  | inner h hid hblock ih =>
      cases h' with
      | inner h'' hid' hblock' =>
          obtain ⟨hns, -⟩ := entry_unique (by decide) (by decide) hid hid'
          subst hns
          rw [ih h'']

/-- A path leads to one namespace. -/
theorem BlockPath.functional {ns ns' : Namespace} {path : List Text} (h : BlockPath d ns path)
    (h' : BlockPath d ns' path) : ns = ns' := by
  generalize hpath : path = path' at h'
  induction h generalizing ns' path' with
  | root =>
      cases h' with
      | root => rfl
      | inner _ _ _ =>
          have hlength := congrArg List.length hpath
          rw [List.length_append, List.length_singleton, List.length_nil] at hlength
          omega
  | inner h hid hblock ih =>
      cases h' with
      | root =>
          have hlength := congrArg List.length hpath
          rw [List.length_append, List.length_singleton, List.length_nil] at hlength
          omega
      | inner h'' hid' hblock' =>
          obtain ⟨hfront, hlast⟩ := List.append_inj' hpath rfl
          have hns := ih _ hfront h''
          subst hns
          have hkey := (d.entry_key hid).trans
            ((congrArg String.ofList (List.singleton_inj.mp hlast)).trans (d.entry_key hid').symm)
          rw [hkey, hid'] at hid
          rw [Option.some.inj hid]

theorem DeclaredAt.unique {i i' : SymIndex} {path path' : List Text} {id : Nat}
    (hi : i ≠ .perms) (hi' : i' ≠ .perms) (h : DeclaredAt d i path id)
    (h' : DeclaredAt d i' path' id) : path = path' := by
  obtain ⟨ns, hpath, hmem⟩ := h
  obtain ⟨ns', hpath', hmem'⟩ := h'
  obtain ⟨key, hid⟩ := d.mem_entries.mp hmem
  obtain ⟨key', hid'⟩ := d.mem_entries.mp hmem'
  obtain ⟨hns, -⟩ := entry_unique hi hi' hid hid'
  subst hns
  exact hpath.unique hpath'

/-- The path, the kind and the name say which declaration it is. -/
theorem DeclaredAt.functional {i : SymIndex} {path : List Text} {id id' : Nat}
    (h : DeclaredAt d i path id) (h' : DeclaredAt d i path id') (hname : d.name id = d.name id') :
    id = id' := by
  obtain ⟨ns, hpath, hmem⟩ := h
  obtain ⟨ns', hpath', hmem'⟩ := h'
  have hns := hpath.functional hpath'
  subst hns
  obtain ⟨key, hid⟩ := d.mem_entries.mp hmem
  obtain ⟨key', hid'⟩ := d.mem_entries.mp hmem'
  rw [d.entry_key hid] at hid
  rw [d.entry_key hid', ← hname, hid] at hid'
  exact Option.some.inj hid'

theorem DeclaredAt.names {i : SymIndex} {path : List Text} {id : Nat} (hi : i ≠ .names)
    (h : DeclaredAt d i path id) : ∀ name ∈ path ++ [d.name id], verifyName name = .ok := by
  obtain ⟨ns, hpath, hmem⟩ := h
  obtain ⟨key, hid⟩ := d.mem_entries.mp hmem
  intro name hname
  rcases List.mem_append.mp hname with hname | hname
  · exact hpath.names name hname
  · rw [List.mem_singleton.mp hname]
    exact d.entry_name hi hid

/-- No two declarations of a kind have the same qualified name. -/
private theorem qualifiedName_injective {i : SymIndex} (hi : i ≠ .names) {path path' : List Text}
    {id id' : Nat} (h : DeclaredAt d i path id) (h' : DeclaredAt d i path' id')
    (heq : qualifiedName d path id = qualifiedName d path' id') : id = id' := by
  have hne : ∀ (p : List Text) (name : Text), p ++ [name] ≠ [] :=
    fun p name => List.append_ne_nil_of_right_ne_nil p (by simp)
  have hwords := joined_injective (hne _ _) (hne _ _)
    (fun word hword => dot_not_mem (h.names hi word hword))
    (fun word hword => dot_not_mem (h'.names hi word hword)) heq
  obtain ⟨hpath, hname⟩ := List.append_inj' hwords rfl
  subst hpath
  exact h.functional h' (List.singleton_inj.mp hname)

end Paths

section Pass

variable {d : Resolved}

/-- The arguments of a call are those for a path of blocks. -/
def Carries (args : Args) (path : List Text) : Prop :=
  args = ⟨blockPrefix path, (blockPrefix path).length⟩

/-- The declaration is one the pass is for, and the text is its qualified name, which fits. -/
def Expected (d : Resolved) (id : Nat) (t : Text) : Prop :=
  ∃ i ∈ qualifiedKinds, ∃ path, path ≠ [] ∧ DeclaredAt d i path id ∧
    t = qualifiedName d path id ∧ t.length < maxNameLength

/-- Names are changed to qualified ones only. -/
def Later (d : Resolved) (fqn fqn' : Names) : Prop :=
  ∀ id, fqn' id = fqn id ∨ Expected d id (fqn' id)

private theorem progress_later (d : Resolved) : Progress (Later d) where
  refl _ _ := Or.inl rfl
  trans s t u hst htu id := by
    rcases htu id with heq | hexpected
    · rw [heq]
      exact hst id
    · exact Or.inr hexpected

private theorem lasts_expected (d : Resolved) (id : Nat) :
    Lasts (Later d) fun fqn => Expected d id (fqn id) := by
  intro s s' hlater hexpected
  rcases hlater id with heq | hexpected'
  · show Expected d id (s' id)
    rw [heq]
    exact hexpected
  · exact hexpected'

private theorem qualifyDecl_spec {args : Args} {path : List Text} (h : Carries args path)
    (hpath : path ≠ []) (fqn : Names) (id : Nat) :
    qualifyDecl d args fqn id =
      if (qualifiedName d path id).length ≥ maxNameLength then .error (.failed .err)
      else .ok (Function.update fqn id (qualifiedName d path id)) := by
  have hpos := blockPrefix_pos hpath
  have hname : qualifiedName d path id = blockPrefix path ++ d.name id :=
    joined_append_singleton path (d.name id)
  rw [h, hname, List.length_append]
  unfold qualifyDecl
  rw [if_neg (by simp only; omega)]
  simp only
  split_ifs with hlong
  · rfl
  · have hcopy : strcpy (blockPrefix path) = .ok (blockPrefix path) := by
      rw [strcpy, if_pos (by omega)]
    have hcat : strcat (blockPrefix path) (d.name id) = .ok (blockPrefix path ++ d.name id) := by
      rw [strcat, strcpy, if_pos (by rw [List.length_append]; omega)]
    simp only [hcopy, hcat]

private theorem childPath_spec {args : Args} {path : List Text} (h : Carries args path) (id : Nat)
    (hfits : ¬ (blockPrefix path).length + (d.name id).length + 1 ≥ maxNameLength) :
    childPath d args id = .ok (blockPrefix (path ++ [d.name id])) := by
  have hcopy : strcpy (blockPrefix path) = .ok (blockPrefix path) := by
    rw [strcpy, if_pos (by omega)]
  have hcat : strcat (blockPrefix path) (d.name id) = .ok (blockPrefix path ++ d.name id) := by
    rw [strcat, strcpy, if_pos (by rw [List.length_append]; omega)]
  have hdot : strcat (blockPrefix path ++ d.name id) ['.'] =
      .ok (blockPrefix path ++ d.name id ++ ['.']) := by
    rw [strcat, strcpy, if_pos (by simp only [List.length_append, List.length_singleton]; omega)]
  rw [h, childPath]
  simp only [hcopy, hcat, hdot, blockPrefix_append]

private theorem carries_child (path : List Text) (name : Text) :
    Carries ⟨blockPrefix (path ++ [name]), (blockPrefix path).length + name.length + 1⟩
      (path ++ [name]) := by
  unfold Carries
  rw [blockPrefix_append]
  simp only [List.length_append, List.length_singleton]

/-- One block leads to another inside it. -/
def Inside (d : Resolved) (ns ns' : Namespace) : Prop :=
  ∃ key id, d.ast.sym.tables ns .blocks key = some id ∧
    (d.ast.sym.data id).nodes.head? = some .block ∧ ns' = .ofDatum id

/-- Everything the pass is for in a namespace has its qualified name. -/
def Named (d : Resolved) (ns : Namespace) (fqn : Names) : Prop :=
  ∀ i ∈ qualifiedKinds, ∀ id ∈ d.entries ns i, Expected d id (fqn id)

private theorem lasts_named (d : Resolved) (ns : Namespace) : Lasts (Later d) (Named d ns) := by
  intro s s' hlater hnamed i hi id hid
  exact lasts_expected d id s s' hlater (hnamed i hi id hid)

/-- Everything in a block and in the blocks inside it has its qualified name. -/
def NamedBelow (d : Resolved) (id : Nat) (fqn : Names) : Prop :=
  (d.ast.sym.data id).nodes.head? = some .block →
    ∀ ns, Relation.ReflTransGen (Inside d) (.ofDatum id) ns → Named d ns fqn

private theorem lasts_namedBelow (d : Resolved) (id : Nat) : Lasts (Later d) (NamedBelow d id) := by
  intro s s' hlater hnamed hblock ns hinside
  exact lasts_named d ns s s' hlater (hnamed hblock ns hinside)

/-- A kind of table of a block. -/
private theorem qualifyTables_ok {args : Args} {path : List Text} {ns : Namespace}
    (h : Carries args path) (hpath : path ≠ []) (hns : BlockPath d ns path) {fqn fqn' : Names}
    (hrun : qualifiedKinds.foldlM (fun fqn i =>
      (d.entries ns i).foldlM (qualifyDecl d args) fqn) fqn = .ok fqn') :
    Later d fqn fqn' ∧ Named d ns fqn' := by
  refine foldlM_establishes (progress_later d)
    (fun i fqn => ∀ id ∈ d.entries ns i, Expected d id (fqn id)) ?_ ?_ hrun
  · intro i _ s s' hlater hfact id hid
    exact lasts_expected d id s s' hlater (hfact id hid)
  · intro i hi s s' htable
    refine foldlM_establishes (progress_later d)
      (fun id fqn => Expected d id (fqn id)) (fun id _ => lasts_expected d id) ?_ htable
    intro id hid s s' hdecl
    rw [qualifyDecl_spec h hpath] at hdecl
    split_ifs at hdecl with hlong
    have heq := Except.ok.inj hdecl
    have hexpected : Expected d id (qualifiedName d path id) :=
      ⟨i, hi, path, hpath, ⟨ns, hns, hid⟩, rfl, by omega⟩
    rw [← heq]
    constructor
    · intro id'
      by_cases hsame : id' = id
      · rw [hsame, Function.update_self]
        exact Or.inr hexpected
      · rw [Function.update_of_ne hsame]
        exact Or.inl rfl
    · rw [Function.update_self]
      exact hexpected

/-- A block whose path is too long to be put before a name. -/
def TooDeep (d : Resolved) : Prop :=
  ∃ ns path, BlockPath d ns path ∧ (blockPrefix path).length ≥ maxNameLength

private theorem qualifyBlock_ok {args : Args} {path : List Text} {ns : Namespace} {key : String}
    {id : Nat} (h : Carries args path) (hns : BlockPath d ns path)
    (hid : d.ast.sym.tables ns .blocks key = some id) {fqn fqn' : Names}
    (hrun : qualifyBlock d args fqn id = .ok fqn') :
    Later d fqn fqn' ∧ NamedBelow d id fqn' := by
  induction hroom : maxNameLength - args.len using Nat.strong_induction_on
    generalizing args path ns key id fqn fqn' with
  | _ room ih =>
      rw [qualifyBlock] at hrun
      cases hhead : (d.ast.sym.data id).nodes.head? with
      | none =>
          rw [hhead] at hrun
          cases hrun
      | some flavor =>
          simp only [hhead] at hrun
          split_ifs at hrun with hflavor hlong
          · refine ⟨Except.ok.inj hrun ▸ (progress_later d).refl fqn, fun hblock => ?_⟩
            rw [hhead] at hblock
            exact absurd (Option.some.inj hblock) hflavor
          · have hblock : (d.ast.sym.data id).nodes.head? = some .block := by
              rw [hhead, not_not.mp hflavor]
            have hinner : BlockPath d (.ofDatum id) (path ++ [d.name id]) := .inner hns hid hblock
            have hlen : args.len = (blockPrefix path).length := by rw [h]
            have hne : path ++ [d.name id] ≠ [] :=
              List.append_ne_nil_of_right_ne_nil path (by simp)
            have hchild := carries_child path (d.name id)
            simp only [childPath_spec h id (hlen ▸ hlong), hlen] at hrun
            cases htables : qualifiedKinds.foldlM (fun fqn i =>
              (d.entries (.ofDatum id) i).foldlM (qualifyDecl d ⟨blockPrefix (path ++ [d.name id]),
                (blockPrefix path).length + (d.name id).length + 1⟩) fqn) fqn with
            | error halt =>
                rw [htables] at hrun
                cases hrun
            | ok middle =>
                simp only [htables] at hrun
                obtain ⟨hlater, hnamed⟩ := qualifyTables_ok hchild hne hinner htables
                obtain ⟨hlater', hbelow⟩ := foldlM_establishes (progress_later d)
                  (fun child fqn => NamedBelow d child fqn)
                  (fun child _ => lasts_namedBelow d child)
                  (by
                    intro child hmem s s' hrun'
                    obtain ⟨key', hchildId⟩ := d.mem_entries.mp hmem
                    refine ih _ ?_ hchild hinner hchildId hrun' rfl
                    rw [← hroom]
                    simp only
                    omega) hrun
                refine ⟨(progress_later d).trans _ _ _ hlater hlater', fun _ ns' hinside => ?_⟩
                rcases hinside.cases_head with heq | ⟨mid, hfirst, hrest⟩
                · rw [← heq]
                  exact lasts_named d _ _ _ hlater' hnamed
                · obtain ⟨key', child, hchildId, hchildBlock, hmid⟩ := hfirst
                  rw [hmid] at hrest
                  exact hbelow child (d.mem_entries.mpr ⟨key', hchildId⟩) hchildBlock ns' hrest

/-- The buffer is never overrun; besides the errors there is the end in a message about a path
that is too long. -/
private theorem qualifyBlock_error {args : Args} {path : List Text} {ns : Namespace} {key : String}
    {id : Nat} (h : Carries args path) (hns : BlockPath d ns path)
    (hid : d.ast.sym.tables ns .blocks key = some id) {fqn : Names} {halt : Halt}
    (hrun : qualifyBlock d args fqn id = .error halt) :
    halt = .failed .err ∨ halt = .crash ∧ TooDeep d := by
  induction hroom : maxNameLength - args.len using Nat.strong_induction_on
    generalizing args path ns key id fqn with
  | _ room ih =>
      rw [qualifyBlock] at hrun
      cases hhead : (d.ast.sym.data id).nodes.head? with
      | none => exact absurd (List.head?_eq_none_iff.mp hhead) (d.ast.entry_node hid)
      | some flavor =>
          simp only [hhead] at hrun
          split_ifs at hrun with hflavor hlong
          · have hblock : (d.ast.sym.data id).nodes.head? = some .block := by
              rw [hhead, not_not.mp hflavor]
            have hinner : BlockPath d (.ofDatum id) (path ++ [d.name id]) := .inner hns hid hblock
            have hlen : args.len = (blockPrefix path).length := by rw [h]
            refine Or.inr ⟨(Except.error.inj hrun).symm, .ofDatum id, _, hinner, ?_⟩
            rw [blockPrefix_append]
            simp only [List.length_append, List.length_singleton]
            omega
          · have hblock : (d.ast.sym.data id).nodes.head? = some .block := by
              rw [hhead, not_not.mp hflavor]
            have hinner : BlockPath d (.ofDatum id) (path ++ [d.name id]) := .inner hns hid hblock
            have hlen : args.len = (blockPrefix path).length := by rw [h]
            have hne : path ++ [d.name id] ≠ [] :=
              List.append_ne_nil_of_right_ne_nil path (by simp)
            have hchild := carries_child path (d.name id)
            simp only [childPath_spec h id (hlen ▸ hlong), hlen] at hrun
            cases htables : qualifiedKinds.foldlM (fun fqn i =>
              (d.entries (.ofDatum id) i).foldlM (qualifyDecl d ⟨blockPrefix (path ++ [d.name id]),
                (blockPrefix path).length + (d.name id).length + 1⟩) fqn) fqn with
            | error halt' =>
                simp only [htables] at hrun
                obtain ⟨i, _, t, htable⟩ := foldlM_error htables
                obtain ⟨e, _, t', hdecl⟩ := foldlM_error htable
                rw [qualifyDecl_spec hchild hne] at hdecl
                split_ifs at hdecl with hfull
                rw [← Except.error.inj hrun, ← Except.error.inj hdecl]
                exact Or.inl rfl
            | ok middle =>
                simp only [htables] at hrun
                obtain ⟨child, hmem, t, hrun'⟩ := foldlM_error hrun
                obtain ⟨key', hchildId⟩ := d.mem_entries.mp hmem
                refine ih _ ?_ hchild hinner hchildId hrun' rfl
                rw [← hroom]
                simp only
                omega

private theorem carries_root : Carries ⟨[], 0⟩ [] := rfl

/-- A block on a path from the root is inside one of the blocks at the root, or is one. -/
theorem BlockPath.top {ns : Namespace} {path : List Text} (h : BlockPath d ns path)
    (hpath : path ≠ []) : ∃ key id, d.ast.sym.tables .root .blocks key = some id ∧
      (d.ast.sym.data id).nodes.head? = some .block ∧
      Relation.ReflTransGen (Inside d) (.ofDatum id) ns := by
  induction h with
  | root => exact absurd rfl hpath
  | @inner ns path key id h hid hblock ih =>
      by_cases hnil : path = []
      · rw [hnil] at h
        have hroot := h.functional .root
        rw [hroot] at hid
        exact ⟨key, id, hid, hblock, .refl⟩
      · obtain ⟨key', id', hid', hblock', hinside⟩ := ih hnil
        exact ⟨key', id', hid', hblock', hinside.tail ⟨key, id, hid, hblock, rfl⟩⟩

/-- After the pass every declaration it is for has its qualified name, and nothing else has a
new one. -/
private theorem qualify_ok {fqn : Names} (h : qualify d = .ok fqn) :
    Later d d.name fqn ∧ ∀ i ∈ qualifiedKinds, ∀ path, path ≠ [] → ∀ id, DeclaredAt d i path id →
      Expected d id (fqn id) := by
  obtain ⟨hlater, hbelow⟩ := foldlM_establishes (progress_later d)
    (fun id fqn => NamedBelow d id fqn) (fun id _ => lasts_namedBelow d id)
    (by
      intro id hmem s s' hrun
      obtain ⟨key, hid⟩ := d.mem_entries.mp hmem
      exact qualifyBlock_ok carries_root .root hid hrun) h
  refine ⟨hlater, ?_⟩
  intro i hi path hpath id hdecl
  obtain ⟨ns, hns, hmem⟩ := hdecl
  obtain ⟨key, top, htop, hblock, hinside⟩ := hns.top hpath
  exact hbelow top (d.mem_entries.mpr ⟨key, htop⟩) hblock ns hinside i hi id hmem

private theorem qualify_error {halt : Halt} (h : qualify d = .error halt) :
    halt = .failed .err ∨ halt = .crash ∧ TooDeep d := by
  obtain ⟨id, hmem, fqn, hrun⟩ := foldlM_error h
  obtain ⟨key, hid⟩ := d.mem_entries.mp hmem
  exact qualifyBlock_error carries_root .root hid hrun

end Pass

section Lookup

variable {d : Resolved}

/-- The parts of a dot and a qualified name are the names of the path. -/
private theorem pieces_joined {words : List Text} (hne : ∀ word ∈ words, word ≠ [])
    (hdots : ∀ word ∈ words, '.' ∉ word) : pieces isDot (joined '.' words) = words := by
  induction words with
  | nil => rfl
  | cons word rest ih =>
      have htoken : ∀ c ∈ word, isDot c = false := by
        intro c hc
        have hword := hdots word List.mem_cons_self
        simp only [isDot, decide_eq_false_iff_not]
        intro heq
        rw [heq] at hc
        exact hword hc
      have hword := hne word List.mem_cons_self
      by_cases hrest : rest = []
      · rw [hrest, joined_singleton, pieces_token htoken hword]
      · rw [joined_cons hrest, pieces_token_cons _ htoken hword rfl,
          ih (fun w hw => hne w (List.mem_cons_of_mem _ hw))
            (fun w hw => hdots w (List.mem_cons_of_mem _ hw))]

theorem Walks.append {a : Ast} {r : Request} {ns mid last : Namespace}
    {front back : List (List Char)} (h : Walks a r ns front mid) (h' : Walks a r mid back last) :
    Walks a r ns (front ++ back) last := by
  induction h with
  | here ns => exact h'
  | part hid henter _ ih => exact .part hid henter (ih h')

/-- The blocks of a path are walked through from the root. -/
theorem BlockPath.walks {ns : Namespace} {path : List Text} (h : BlockPath d ns path)
    (r : Request) : Walks d.ast r .root path ns := by
  induction h with
  | root => exact .here .root
  | inner h hid hblock ih =>
      rw [d.entry_key hid] at hid
      exact Walks.append ih (.part hid (.block hblock) (.here _))

/-- A dot and the qualified name stand for the declaration. -/
theorem DeclaredAt.denotes {r : Request} {stmt : Statement d.ast} {path : List Text} {id : Nat}
    (hi : r.kind ≠ .names) (h : DeclaredAt d r.kind path id) :
    Denotes r stmt ('.' :: qualifiedName d path id) id := by
  have hnames := h.names hi
  obtain ⟨ns, hns, hmem⟩ := h
  obtain ⟨key, hid⟩ := d.mem_entries.mp hmem
  rw [d.entry_key hid] at hid
  have hpieces : pieces isDot ('.' :: qualifiedName d path id) = path ++ [d.name id] := by
    rw [pieces_cons _ rfl]
    refine pieces_joined (fun word hword => (verifyName_ok (hnames word hword)).2.1) ?_
    exact fun word hword => dot_not_mem (hnames word hword)
  exact .dotted List.mem_cons_self hpieces (.root rfl) (hns.walks r) hid

end Lookup

/-- What a run of the pass that succeeds leaves: the declarations it is for have the names of
their paths, no two of a kind have the same, and a dot before it leads back to the declaration.
Everything else has its own name. -/
structure Faithful (d : Resolved) (fqn : Names) : Prop where
  path {i : SymIndex} {path : List Text} {id : Nat} (hi : i ∈ qualifiedKinds)
    (h : DeclaredAt d i path id) : fqn id = qualifiedName d path id
  injective {i : SymIndex} {path path' : List Text} {id id' : Nat} (hi : i ∈ qualifiedKinds)
    (h : DeclaredAt d i path id) (h' : DeclaredAt d i path' id') (heq : fqn id = fqn id') :
    id = id'
  resolves {r : Request} (stmt : Statement d.ast) {path : List Text} {id : Nat}
    (hi : r.kind ∈ qualifiedKinds) (h : DeclaredAt d r.kind path id) :
    ∃ flavor, (d.ast.sym.data id).nodes.head? = some flavor ∧
      resolveName r stmt ('.' :: fqn id) = .returned .ok (some (actualOf d.ast flavor id))
  other {id : Nat} (h : ∀ i ∈ qualifiedKinds, ∀ path, ¬ DeclaredAt d i path id) :
    fqn id = d.name id

private theorem faithful_of_qualify {d : Resolved} {fqn : Names} (h : qualify d = .ok fqn) :
    Faithful d fqn := by
  obtain ⟨hlater, hexpected⟩ := qualify_ok h
  have hpath : ∀ {i : SymIndex} {path : List Text} {id : Nat}, i ∈ qualifiedKinds →
      DeclaredAt d i path id → fqn id = qualifiedName d path id := by
    intro i path id hi hdecl
    have hsame : Expected d id (fqn id) → fqn id = qualifiedName d path id := by
      intro hid
      obtain ⟨i', hi', path', _, hdecl', heq, _⟩ := hid
      rw [heq, hdecl'.unique (not_names_of_qualified hi').2 (not_names_of_qualified hi).2 hdecl]
    by_cases hnil : path = []
    · rcases hlater id with heq | hid
      · rw [heq, hnil, qualifiedName, List.nil_append, joined_singleton]
      · exact hsame hid
    · exact hsame (hexpected i hi path hnil id hdecl)
  constructor
  case path => exact hpath
  case injective =>
    intro i path path' id id' hi hdecl hdecl' heq
    rw [hpath hi hdecl, hpath hi hdecl'] at heq
    exact qualifiedName_injective (not_names_of_qualified hi).1 hdecl hdecl' heq
  case resolves =>
    intro r stmt path id hi hdecl
    rw [hpath hi hdecl]
    exact resolveName_of_denotes (hdecl.denotes (not_names_of_qualified hi).1)
      (searchable_global _)
  case other =>
    intro id hnot
    rcases hlater id with heq | hid
    · exact heq
    · obtain ⟨i, hi, path, _, hdecl, _⟩ := hid
      exact absurd hdecl (hnot i hi path)

/-- A qualified name that does not fit. -/
def TooLong (d : Resolved) : Prop :=
  ∃ i ∈ qualifiedKinds, ∃ path, path ≠ [] ∧ ∃ id, DeclaredAt d i path id ∧
    (qualifiedName d path id).length ≥ maxNameLength

private theorem not_tooLong_of_qualify {d : Resolved} {fqn : Names} (h : qualify d = .ok fqn) :
    ¬ TooLong d := by
  intro hlong
  obtain ⟨i, hi, path, hpath, id, hdecl, hlength⟩ := hlong
  obtain ⟨i', hi', path', _, hdecl', heq, hfits⟩ := (qualify_ok h).2 i hi path hpath id hdecl
  rw [heq, hdecl'.unique (not_names_of_qualified hi').2 (not_names_of_qualified hi).2 hdecl]
    at hfits
  omega

section Sample

/-- `(block a (context c ..) (type t)) (block b (context c ..))`. -/
def sampleDecls : List (Namespace × SymIndex × Text × Nat) :=
  [(.root, .blocks, ['a'], 0), (.root, .blocks, ['b'], 1), (.ofDatum 0, .contexts, ['c'], 2),
    (.ofDatum 1, .contexts, ['c'], 3), (.ofDatum 0, .types, ['t'], 4)]

def sampleTables (ns : Namespace) (i : SymIndex) (key : String) : Option Nat :=
  (sampleDecls.find? fun e => e.1 = ns ∧ e.2.1 = i ∧ e.2.2.1 = key.toList).map fun e => e.2.2.2

def sampleEntries (ns : Namespace) (i : SymIndex) : List Nat :=
  (sampleDecls.filter fun e => e.1 = ns ∧ e.2.1 = i).map fun e => e.2.2.2

def sampleNode : Nat → Flavor
  | 0 | 1 => .block
  | 2 | 3 => .context
  | _ => .type

def sampleName : Nat → Text
  | 0 => ['a']
  | 1 => ['b']
  | 2 | 3 => ['c']
  | _ => ['t']

def samplePointer (id : Nat) : Option Pointer :=
  (sampleDecls.find? fun e => e.2.2.2 = id).map fun e => ⟨e.1, number e.2.1⟩

private theorem sampleTables_some {ns : Namespace} {i : SymIndex} {key : String} {id : Nat}
    (h : sampleTables ns i key = some id) : (ns, i, key.toList, id) ∈ sampleDecls := by
  obtain ⟨e, hfind, hid⟩ := Option.map_eq_some_iff.mp h
  have hprop := List.find?_some hfind
  simp only [decide_eq_true_eq] at hprop
  obtain ⟨hns, hi, hkey⟩ := hprop
  rw [← hns, ← hi, ← hkey, ← hid]
  exact List.mem_of_find?_eq_some hfind

private theorem sampleTables_cases {ns : Namespace} {i : SymIndex} {key : String} {id : Nat}
    (h : sampleTables ns i key = some id) :
    (ns = .root ∧ i = .blocks ∧ key.toList = ['a'] ∧ id = 0) ∨
      (ns = .root ∧ i = .blocks ∧ key.toList = ['b'] ∧ id = 1) ∨
      (ns = .ofDatum 0 ∧ i = .contexts ∧ key.toList = ['c'] ∧ id = 2) ∨
      (ns = .ofDatum 1 ∧ i = .contexts ∧ key.toList = ['c'] ∧ id = 3) ∨
      (ns = .ofDatum 0 ∧ i = .types ∧ key.toList = ['t'] ∧ id = 4) := by
  have hmem := sampleTables_some h
  simpa only [sampleDecls, List.mem_cons, Prod.mk.injEq, List.not_mem_nil, or_false] using hmem

private theorem mem_sampleEntries {ns : Namespace} {i : SymIndex} {id : Nat} :
    id ∈ sampleEntries ns i ↔ ∃ key, sampleTables ns i key = some id := by
  constructor
  · intro h
    obtain ⟨e, he, hid⟩ := List.mem_map.mp h
    obtain ⟨hmem, hprop⟩ := List.mem_filter.mp he
    simp only [decide_eq_true_eq] at hprop
    obtain ⟨hns, hi⟩ := hprop
    refine ⟨String.ofList e.2.2.1, ?_⟩
    rw [← hns, ← hi, ← hid]
    simp only [sampleDecls, List.mem_cons, List.not_mem_nil, or_false] at hmem
    rcases hmem with h | h | h | h | h <;> simp [h, sampleTables, sampleDecls]
  · intro h
    obtain ⟨key, hkey⟩ := h
    refine List.mem_map.mpr ⟨_, List.mem_filter.mpr ⟨sampleTables_some hkey, ?_⟩, rfl⟩
    simp

def sample : Resolved where
  ast := {
    sym := ⟨sampleTables, fun id => ⟨sampleNode id, [sampleNode id], []⟩, 5⟩
    symtab := samplePointer
    actual := fun _ => none
    entry_node := fun _ => List.cons_ne_nil _ _
    entry_symtab := by
      intro ns key id h
      rcases sampleTables_cases h with h | h | h | h | h
      · rw [h.1, h.2.2.2]
        rfl
      · rw [h.1, h.2.2.2]
        rfl
      · cases h.2.1
      · cases h.2.1
      · cases h.2.1
    entry_flavor := by
      intro ns key id h
      rcases sampleTables_cases h with h | h | h | h | h
      · simp [h.2.2.2, sampleNode, flavorToSymtabIndex]
      · simp [h.2.2.2, sampleNode, flavorToSymtabIndex]
      · cases h.2.1
      · cases h.2.1
      · cases h.2.1 }
  name := sampleName
  entries := sampleEntries
  mem_entries := mem_sampleEntries
  entry_key := by
    intro ns i key id h
    have hkey : key.toList = sampleName id := by
      rcases sampleTables_cases h with h | h | h | h | h <;> simp [h, sampleName]
    rw [← hkey, String.ofList_toList]
  entry_home := by
    intro ns i key id _ h
    rcases sampleTables_cases h with h | h | h | h | h <;> (rw [h.1, h.2.1, h.2.2.2]; rfl)
  entry_name := by
    intro ns i key id _ h
    rcases sampleTables_cases h with h | h | h | h | h <;> (rw [h.2.2.2]; decide)

private theorem sample_blocks (fqn : Names) :
    qualifyBlock sample ⟨[], 0⟩ fqn 0 = .ok (Function.update fqn 4 ['a', '.', 't']) ∧
      qualifyBlock sample ⟨[], 0⟩ fqn 1 = .ok fqn := by
  constructor
  · rw [qualifyBlock]
    rfl
  · rw [qualifyBlock]
    rfl

private theorem sample_qualify :
    qualify sample = .ok (Function.update sampleName 4 ['a', '.', 't']) := by
  have hroot : sample.entries .root .blocks = [0, 1] := rfl
  rw [qualify, hroot, List.foldlM_cons, (sample_blocks _).1]
  show [1].foldlM (qualifyBlock sample ⟨[], 0⟩) _ = _
  rw [List.foldlM_cons, (sample_blocks _).2]
  rfl

end Sample

end Cil.Fqn
