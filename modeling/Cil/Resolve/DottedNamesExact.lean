/- Cil/Resolve/DottedNamesExact
   digest: When the resolution of a name gives a datum or an error. -/

import Cil.Resolve.DottedNames

set_option autoImplicit false
set_option relaxedAutoImplicit false

namespace Cil.Resolve.DottedNames

open Cil.Copy Cil.Resolve.Names Cil.Library.Strtok

section Helper

variable {s : State} {env : Env} {i : SymIndex} {name : String} {id : Option Nat}

private theorem resolveNameCallArgs_mem {as : List Arg}
    (h : resolveNameCallArgs as i name = some (.datum id)) :
    ∃ arg ∈ as, flavorToSymtabIndex arg.flavor = i ∧ arg.arg = id := by
  obtain ⟨arg, hfind, harg⟩ := Option.map_eq_some_iff.mp h
  have hprop := List.find?_some hfind
  simp only [decide_eq_true_eq] at hprop
  exact ⟨arg, List.mem_of_find?_eq_some hfind, hprop.1, Hit.datum.inj harg⟩

private theorem tables_of_entry {ns : Namespace} (h : entry s ns i name = some (.datum id)) :
    ∃ n, id = some n ∧ s.tables ns i name = some n := by
  obtain ⟨n, hn, heq⟩ := Option.map_eq_some_iff.mp h
  exact ⟨n, (Hit.datum.inj heq).symm, hn⟩

/-- What the lookup finds is in a table, or it is an argument. -/
private theorem resolveNameWithParents_mem
    (h : resolveNameWithParents s i name env = some (.datum id)) :
    (∃ ns n, id = some n ∧ s.tables ns i name = some n) ∨
      ∃ arg ∈ args env, flavorToSymtabIndex arg.flavor = i ∧ arg.arg = id := by
  induction env with
  | root => cases h
  | endless => cases h
  | space ns parent ih =>
      rcases Option.or_eq_some_iff.mp h with hns | ⟨_, hparent⟩
      · exact Or.inl ⟨ns, tables_of_entry hns⟩
      · exact ih hparent
  | blockinherit block parent ihblock ihparent =>
      rcases Option.or_eq_some_iff.mp h with hparent | ⟨_, hblock⟩
      · refine (ihparent hparent).imp_right fun hargs => ?_
        obtain ⟨arg, hmem, harg⟩ := hargs
        exact ⟨arg, List.mem_append_left _ hmem, harg⟩
      · refine (ihblock hblock).imp_right fun hargs => ?_
        obtain ⟨arg, hmem, harg⟩ := hargs
        exact ⟨arg, List.mem_append_right _ hmem, harg⟩
  | call as macroParent parent ihcalled ihparent =>
      rcases Option.or_eq_some_iff.mp h with has | ⟨_, hout⟩
      · obtain ⟨arg, hmem, harg⟩ := resolveNameCallArgs_mem has
        exact Or.inr ⟨arg, List.mem_append_left _ hmem, harg⟩
      · rcases Option.or_eq_some_iff.mp hout with hmacro | ⟨_, hparent⟩
        · refine (ihcalled hmacro).imp_right fun hargs => ?_
          obtain ⟨arg, hmem, harg⟩ := hargs
          exact ⟨arg, List.mem_append_right _ (List.mem_append_left _ hmem), harg⟩
        · refine (ihparent hparent).imp_right fun hargs => ?_
          obtain ⟨arg, hmem, harg⟩ := hargs
          exact ⟨arg, List.mem_append_right _ (List.mem_append_right _ hmem), harg⟩

private theorem resolveNameHelper_mem (h : resolveNameHelper s env i name = some (.datum id)) :
    (∃ ns n, id = some n ∧ s.tables ns i name = some n) ∨
      ∃ arg ∈ args env, flavorToSymtabIndex arg.flavor = i ∧ arg.arg = id := by
  rcases Option.or_eq_some_iff.mp h with hparents | ⟨_, hroot⟩
  · exact resolveNameWithParents_mem hparents
  · exact Or.inl ⟨.root, tables_of_entry hroot⟩

private theorem args_withoutArgs (env : Env) : args (withoutArgs env) = [] := by
  induction env with
  | root => rfl
  | space ns parent ih => exact ih
  | blockinherit block parent ihblock ihparent => simp [ihblock, ihparent]
  | call as macroParent parent ihcalled ihparent => simp [ihcalled, ihparent]
  | endless => rfl

/-- The first part of a dotted name is found in a table of blocks. -/
private theorem resolveNameHelper_first
    (h : resolveNameHelper s (withoutArgs env) i name = some (.datum id)) :
    ∃ ns n, id = some n ∧ s.tables ns i name = some n := by
  rcases resolveNameHelper_mem h with htable | hargs
  · exact htable
  · obtain ⟨arg, hmem, _⟩ := hargs
    rw [args_withoutArgs] at hmem
    cases hmem

end Helper

section Walk

variable {a : Ast} {r : Request} {ns : Namespace}

/-- The lookup in the table of a kind. -/
private theorem getDatum_table {i : SymIndex} (h : i ≠ .perms) (key : List Char) :
    getDatum a (some ⟨ns, number i⟩) (some key) =
      match a.sym.tables ns i (String.ofList key) with
      | none => .error (.failed .enoent)
      | some id => .ok id := by
  cases hid : a.sym.tables ns i (String.ofList key) with
  | none => simp only [getDatum, symtabs_number h, hid]
  | some id => simp only [getDatum, symtabs_number h, hid]

theorem Enters.unique {id : Nat} {mid mid' : Namespace} (h : Enters a r ns id mid)
    (h' : Enters a r ns id mid') : mid = mid' := by
  cases h with
  | block hf =>
      cases h' with
      | block _ => rfl
      | ofMacro hf' _ => rfl
      | ofOptional hf' _ => rw [hf] at hf'; cases hf'
  | ofMacro hf hin =>
      cases h' with
      | block _ => rfl
      | ofMacro _ _ => rfl
      | ofOptional hf' _ => rw [hf] at hf'; cases hf'
  | ofOptional hf hin =>
      cases h' with
      | block hf' => rw [hf] at hf'; cases hf'
      | ofMacro hf' _ => rw [hf] at hf'; cases hf'
      | ofOptional _ _ => rfl

theorem Walks.unique {parts : List (List Char)} {last last' : Namespace}
    (h : Walks a r ns parts last) (h' : Walks a r ns parts last') : last = last' := by
  induction h with
  | here ns =>
      cases h' with
      | here => rfl
  | part hid henter hrest ih =>
      cases h' with
      | part hid' henter' hrest' =>
          rw [hid] at hid'
          cases hid'
          have hmid := henter.unique henter'
          subst hmid
          exact ih hrest'

/-- The loop enters the namespace of a part, or it ends with an error. -/
private theorem enter_spec {id : Nat} {key : String} (hid : a.sym.tables ns .blocks key = some id) :
    (∃ mid, Enters a r ns id mid ∧ enter a r id = .ok (some ⟨mid, number .blocks⟩)) ∨
      ((∀ mid, ¬ Enters a r ns id mid) ∧ enter a r id = .error (.failed .err)) := by
  cases hhead : (a.sym.data id).nodes.head? with
  | none => exact absurd (List.head?_eq_none_iff.mp hhead) (a.entry_node hid)
  | some flavor =>
      have hindex := a.entry_flavor hid flavor hhead
      have hflavor : nodeFlavor a id = .ok flavor := by
        simp only [nodeFlavor, hhead]
      cases flavor <;> cases hindex
      case some.block.refl =>
        refine Or.inl ⟨.ofDatum id, .block hhead, ?_⟩
        simp only [enter, hflavor]
      case some.macroDef.refl =>
        cases hin : r.isIn with
        | true =>
            refine Or.inl ⟨.ofDatum id, .ofMacro hhead hin, ?_⟩
            simp only [enter, hflavor, hin, r.in_blocks hin, if_true]
        | false =>
            refine Or.inr ⟨fun mid henter => ?_, by simp [enter, hflavor, hin]⟩
            cases henter with
            | block hf => rw [hhead] at hf; cases hf
            | ofMacro _ hin' => rw [hin] at hin'; cases hin'
            | ofOptional hf _ => rw [hhead] at hf; cases hf
      case some.optional.refl =>
        cases hin : r.isIn with
        | true =>
            refine Or.inl ⟨ns, .ofOptional hhead hin, ?_⟩
            simp only [enter, hflavor, hin, a.entry_symtab hid, if_true]
        | false =>
            refine Or.inr ⟨fun mid henter => ?_, by simp [enter, hflavor, hin]⟩
            cases henter with
            | block hf => rw [hhead] at hf; cases hf
            | ofMacro hf _ => rw [hhead] at hf; cases hf
            | ofOptional _ hin' => rw [hin] at hin'; cases hin'

/-- The loop follows the path of the parts up to the last one, which it leaves to be looked
up, or it ends with an error. -/
private theorem walkBlocks_spec {parts : List (List Char)} {sp : List Char}
    (hparts : pieces isDot sp = parts) (current : List Char) (ns : Namespace) :
    (∃ ns' front last, current :: parts = front ++ [last] ∧ Walks a r ns front ns' ∧
        walkBlocks a r (some ⟨ns, number .blocks⟩) (some current) (strtokR isDot sp).1
          (strtokR isDot sp).2 = .ok (some ⟨ns', number .blocks⟩, some last)) ∨
      ((∀ ns' front last, current :: parts = front ++ [last] → ¬ Walks a r ns front ns') ∧
        ∃ rc, rc ≠ .ok ∧ walkBlocks a r (some ⟨ns, number .blocks⟩) (some current)
          (strtokR isDot sp).1 (strtokR isDot sp).2 = .error (.failed rc)) := by
  induction parts generalizing sp current ns with
  | nil =>
      have hnext : (strtokR isDot sp).1 = none := by
        rw [pieces_strtokR] at hparts
        cases hcall : (strtokR isDot sp).1 with
        | none => rfl
        | some token => rw [hcall] at hparts; cases hparts
      refine Or.inl ⟨ns, [], current, rfl, .here ns, ?_⟩
      rw [hnext, walkBlocks]
  | cons token parts ih =>
      have hnext : (strtokR isDot sp).1 = some token ∧
          pieces isDot (strtokR isDot sp).2 = parts := by
        rw [pieces_strtokR] at hparts
        cases hcall : (strtokR isDot sp).1 with
        | none => rw [hcall] at hparts; cases hparts
        | some token' =>
            rw [hcall] at hparts
            cases hparts
            exact ⟨rfl, rfl⟩
      have hfront : ∀ {front : List (List Char)} {last : List Char},
          current :: token :: parts = front ++ [last] →
            ∃ front', front = current :: front' ∧ token :: parts = front' ++ [last] := by
        intro front last heq
        cases front with
        | nil => cases heq
        | cons part front' =>
            injection heq with hpart hrest
            exact ⟨front', by rw [hpart], hrest⟩
      rw [hnext.1, walkBlocks, getDatum_table (by decide)]
      cases hid : a.sym.tables ns .blocks (String.ofList current) with
      | none =>
          refine Or.inr ⟨?_, .enoent, by decide, rfl⟩
          intro ns' front last heq hwalk
          obtain ⟨front', hcons, _⟩ := hfront heq
          rw [hcons] at hwalk
          cases hwalk with
          | part hid' _ _ =>
              rw [hid] at hid'
              cases hid'
      | some id =>
          rcases enter_spec (r := r) hid with ⟨mid, hmid, henter⟩ | ⟨hmid, henter⟩
          · simp only [henter]
            rcases ih hnext.2 token mid with ⟨ns', front, last, heq, hwalk, hrun⟩ |
              ⟨hwalk, rc, hrc, hrun⟩
            · exact Or.inl ⟨ns', current :: front, last, by rw [heq, List.cons_append],
                .part hid hmid hwalk, hrun⟩
            · refine Or.inr ⟨?_, rc, hrc, hrun⟩
              intro ns' front last heq hwalk'
              obtain ⟨front', hcons, heq'⟩ := hfront heq
              rw [hcons] at hwalk'
              cases hwalk' with
              | part hid' henter' hrest' =>
                  rw [hid] at hid'
                  cases hid'
                  rw [henter'.unique hmid] at hrest'
                  exact hwalk ns' front' last heq' hrest'
          · simp only [henter]
            refine Or.inr ⟨?_, .err, by decide, rfl⟩
            intro ns' front last heq hwalk
            obtain ⟨front', hcons, _⟩ := hfront heq
            rw [hcons] at hwalk
            cases hwalk with
            | part hid' henter' _ =>
                rw [hid] at hid'
                cases hid'
                exact hmid _ henter'

end Walk

section Search

variable {a : Ast} {r : Request} {stmt : Statement a} {name : List Char}

theorem Starts.unique {ns ns' : Namespace} (h : Starts stmt name ns)
    (h' : Starts stmt name ns') : ns = ns' := by
  cases h with
  | root hroot =>
      cases h' with
      | root _ => rfl
      | found hnot _ _ _ => exact absurd hroot hnot
  | found hnot hfirst hid hns =>
      cases h' with
      | root hroot => exact absurd hroot hnot
      | found hnot' hfirst' hid' hns' =>
          rw [hfirst] at hfirst'
          cases hfirst'
          rw [hid] at hid'
          cases hid'
          have hpointer := (a.entry_symtab hns).symm.trans (a.entry_symtab hns')
          injection hpointer with hpointer
          injection hpointer

/-- The walk starts at the root or at the home of the first part, or there is an error. -/
private theorem startSymtab_spec (stmt : Statement a) {first : List Char}
    (h : (pieces isDot name).head? = some first)
    (hsettled : name.head? ≠ some '.' → Settled a (withoutArgs stmt.parent) .blocks first) :
    (∃ ns, Starts stmt name ns ∧
        startSymtab stmt name (some first) = .ok (some ⟨ns, number .blocks⟩)) ∨
      ((∀ ns, ¬ Starts stmt name ns) ∧
        startSymtab stmt name (some first) = .error (.failed .enoent)) := by
  by_cases hroot : name.head? = some '.'
  · refine Or.inl ⟨.root, .root hroot, ?_⟩
    simp only [startSymtab, hroot, if_true]
  · cases hid : resolveNameHelper a.sym (withoutArgs stmt.parent) .blocks
      (String.ofList first) with
    | none =>
        refine Or.inr ⟨?_, by simp only [startSymtab, hroot, if_false, hid]⟩
        intro ns hstart
        cases hstart with
        | root h' => exact hroot h'
        | found _ hfirst hid' _ =>
            rw [h] at hfirst
            cases hfirst
            rw [hid] at hid'
            cases hid'
    | some hit =>
        obtain ⟨id, rfl⟩ := hsettled hroot hit hid
        obtain ⟨ns, n, heq, hns⟩ := resolveNameHelper_first hid
        obtain rfl := Option.some.inj heq
        refine Or.inl ⟨ns, .found hroot h hid hns, ?_⟩
        simp only [startSymtab, hroot, if_false, hid, a.entry_symtab hns]

private theorem pieces_head (name : List Char) :
    (pieces isDot name).head? = (strtokR isDot name).1 := by
  rw [pieces_strtokR]
  cases (strtokR isDot name).1 <;> rfl

/-- A name with something besides dots is searched to its datum, or to an error if there is
none. -/
private theorem search_spec (r : Request) (stmt : Statement a)
    (hname : name = [] ∨ ∃ c ∈ name, c ≠ '.') (hsearchable : Searchable r stmt name) :
    (∃ id, Denotes r stmt name id ∧ search r stmt name = .ok (some id)) ∨
      ((∀ id, ¬ Denotes r stmt name id) ∧
        ∃ rc, rc ≠ .ok ∧ search r stmt name = .error (.failed rc)) := by
  by_cases hdot : '.' ∈ name
  · have hsome : pieces isDot name ≠ [] := by
      intro hnil
      rcases hname with heq | ⟨c, hc, hne⟩
      · rw [heq] at hdot
        cases hdot
      · have hall := pieces_eq_nil_iff.mp hnil c hc
        simp only [isDot, decide_eq_true_eq] at hall
        exact hne hall
    obtain ⟨first, parts, hpieces⟩ := List.exists_cons_of_ne_nil hsome
    have hfirst : (strtokR isDot name).1 = some first := by
      rw [← pieces_head, hpieces]
      rfl
    have hparts : pieces isDot (strtokR isDot name).2 = parts := by
      have hcut := pieces_strtokR (p := isDot) name
      rw [hfirst, hpieces] at hcut
      injection hcut with _ hrest
      exact hrest.symm
    have hhead : (pieces isDot name).head? = some first := by
      rw [pieces_head, hfirst]
    unfold search
    rw [if_neg (not_not_intro hdot), hfirst]
    rcases startSymtab_spec stmt hhead
        fun hdots => hsearchable.dotted hdot hdots first hhead with
      ⟨ns, hstart, hrun⟩ | ⟨hstart, hrun⟩
    · rcases walkBlocks_spec (a := a) (r := r) hparts first ns with
        ⟨ns', front, last, heq, hwalk, hwalkrun⟩ | ⟨hwalk, rc, hrc, hwalkrun⟩
      · simp only [hrun, hwalkrun]
        rw [Option.map_some, number_blocks, Nat.zero_add, getDatum_table r.not_perms]
        cases hid : a.sym.tables ns' r.kind (String.ofList last) with
        | some id =>
            exact Or.inl ⟨id, .dotted hdot (hpieces.trans heq) hstart hwalk hid, rfl⟩
        | none =>
            refine Or.inr ⟨?_, .enoent, by decide, rfl⟩
            intro id hdenotes
            cases hdenotes with
            | plain hnot _ => exact hnot hdot
            | dotted _ heq' hstart' hwalk' hid' =>
                have happend := (hpieces.trans heq).symm.trans heq'
                obtain ⟨hfront, hlast⟩ := List.append_inj' happend rfl
                cases hlast
                rw [← hfront, ← hstart.unique hstart'] at hwalk'
                rw [← hwalk.unique hwalk', hid] at hid'
                cases hid'
      · simp only [hrun, hwalkrun]
        refine Or.inr ⟨?_, rc, hrc, rfl⟩
        intro id hdenotes
        cases hdenotes with
        | plain hnot _ => exact hnot hdot
        | dotted _ heq' hstart' hwalk' _ =>
            rw [← hstart.unique hstart'] at hwalk'
            exact hwalk _ _ _ (hpieces.symm.trans heq') hwalk'
    · simp only [hrun]
      refine Or.inr ⟨?_, .enoent, by decide, rfl⟩
      intro id hdenotes
      cases hdenotes with
      | plain hnot _ => exact hnot hdot
      | dotted _ _ hstart' _ _ => exact hstart _ hstart'
  · unfold search
    rw [if_pos hdot]
    cases hid : resolveNameHelper a.sym stmt.parent r.kind (String.ofList name) with
    | some hit =>
        obtain ⟨id, rfl⟩ := hsearchable.plain hdot hit hid
        exact Or.inl ⟨id, .plain hdot hid, rfl⟩
    | none =>
        refine Or.inr ⟨?_, .enoent, by decide, rfl⟩
        intro id hdenotes
        cases hdenotes with
        | plain _ hid' =>
            rw [hid] at hid'
            cases hid'
        | dotted hdot' _ _ _ _ => exact hdot hdot'

/-- Of dots alone nothing is left to look up. -/
private theorem search_dots (r : Request) (stmt : Statement a) (hname : name ≠ [])
    (hall : ∀ c ∈ name, c = '.') : search r stmt name = .error .crash := by
  have hfirst : strtokR isDot name = (none, []) := by
    refine strtokR_of_forall fun c hc => ?_
    simp [isDot, hall c hc]
  obtain ⟨c, cs, hcons⟩ := List.exists_cons_of_ne_nil hname
  have hc : c = '.' := hall c (hcons ▸ List.mem_cons_self)
  have hdot : '.' ∈ name := by
    rw [hcons, hc]
    exact List.mem_cons_self
  have hhead : name.head? = some '.' := by
    rw [hcons, hc]
    rfl
  have hsecond : strtokR isDot [] = (none, []) := rfl
  unfold search
  rw [if_neg (not_not_intro hdot)]
  simp only [hfirst, hsecond, startSymtab, hhead, if_true, walkBlocks, Option.map_some]
  rfl

private theorem denotes_declared {id : Nat} (h : Denotes r stmt name id) :
    Declared r stmt id ∧ (a.sym.data id).nodes ≠ [] := by
  cases h with
  | plain _ hid =>
      rcases resolveNameHelper_mem hid with ⟨ns, n, heq, hns⟩ | ⟨arg, hmem, hindex, harg⟩
      · cases heq
        exact ⟨Or.inl ⟨ns, _, hns⟩, a.entry_node hns⟩
      · exact ⟨Or.inr ⟨arg, hmem, hindex, harg⟩, stmt.arg_node arg hmem id harg⟩
  | dotted _ _ _ _ hid => exact ⟨Or.inl ⟨_, _, hid⟩, a.entry_node hid⟩

theorem Denotes.unique {id id' : Nat} (h : Denotes r stmt name id)
    (h' : Denotes r stmt name id') : id = id' := by
  cases h with
  | plain hdot hid =>
      cases h' with
      | plain _ hid' =>
          rw [hid] at hid'
          cases hid'
          rfl
      | dotted hdot' _ _ _ _ => exact absurd hdot' hdot
  | dotted hdot hparts hstart hwalk hid =>
      cases h' with
      | plain hdot' _ => exact absurd hdot hdot'
      | dotted _ hparts' hstart' hwalk' hid' =>
          obtain ⟨hfront, hlast⟩ := List.append_inj' (hparts.symm.trans hparts') rfl
          cases hlast
          rw [← hfront, ← hstart.unique hstart'] at hwalk'
          rw [← hwalk.unique hwalk', hid] at hid'
          exact Option.some.inj hid'

private theorem Denotes.some_part {id : Nat} (h : Denotes r stmt name id) :
    name = [] ∨ ∃ c ∈ name, c ≠ '.' := by
  by_contra hnot
  rw [not_or] at hnot
  obtain ⟨hname, hdots⟩ := hnot
  have hall : ∀ c ∈ name, c = '.' := by
    intro c hc
    by_contra hne
    exact hdots ⟨c, hc, hne⟩
  cases h with
  | plain hdot _ =>
      obtain ⟨c, rest, hcons⟩ := List.exists_cons_of_ne_nil hname
      have hc : c ∈ name := hcons ▸ List.mem_cons_self
      exact hdot (hall c hc ▸ hc)
  | dotted _ hparts _ _ _ =>
      have hnil : pieces isDot name = [] := by
        refine pieces_eq_nil_iff.mpr fun c hc => ?_
        simp [isDot, hall c hc]
      rw [hnil] at hparts
      exact absurd hparts.symm (List.append_ne_nil_of_right_ne_nil _ (by simp))

/-- A name with a dot before it is looked up from the root. -/
theorem searchable_global (rest : List Char) : Searchable r stmt ('.' :: rest) where
  plain hdot := absurd List.mem_cons_self hdot
  dotted _ hhead := absurd rfl hhead

/-- The lookup returns what the name stands for. -/
theorem resolveName_of_denotes {id : Nat} (h : Denotes r stmt name id)
    (hsearchable : Searchable r stmt name) : ∃ flavor, (a.sym.data id).nodes.head? = some flavor ∧
      resolveName r stmt name = .returned .ok (some (actualOf a flavor id)) := by
  rcases search_spec r stmt h.some_part hsearchable with ⟨id', hdenotes, hrun⟩ | ⟨hnone, _⟩
  · have heq := h.unique hdenotes
    subst heq
    obtain ⟨_, hnodes⟩ := denotes_declared h
    cases hhead : (a.sym.data id).nodes.head? with
    | none => exact absurd (List.head?_eq_none_iff.mp hhead) hnodes
    | some flavor =>
        refine ⟨flavor, rfl, ?_⟩
        simp only [resolveName, hrun, nodeFlavor, hhead]
  · exact absurd h (hnone id)

/-- A search that goes round for ever, or comes upon a null argument, is not total. -/
private theorem Total.searchable (h : Total r stmt name) : Searchable r stmt name := by
  have hdatum : resolveName r stmt name ≠ .endless ∧
      resolveName r stmt name ≠ .returned .ok none := by
    rcases h with ⟨id, flavor, _, _, _, hrun⟩ | ⟨_, rc, hrc, hrun⟩
    · rw [hrun]
      simp
    · rw [hrun]
      simpa using hrc
  refine ⟨fun hdot hit hhit => ?_, fun hdot hhead first hfirst hit hhit => ?_⟩
  · cases hit with
    | endless =>
      refine absurd ?_ hdatum.1
      simp only [resolveName, search, if_pos hdot, hhit]
    | datum id =>
      cases id with
      | some id => exact ⟨id, rfl⟩
      | none =>
        refine absurd ?_ hdatum.2
        simp only [resolveName, search, if_pos hdot, hhit]
  · cases hit with
    | endless =>
      have hcurrent : (strtokR isDot name).1 = some first := by
        rw [← pieces_head]
        exact hfirst
      refine absurd ?_ hdatum.1
      simp only [resolveName, search, if_neg (not_not_intro hdot), startSymtab, if_neg hhead,
        hcurrent, hhit]
    | datum id =>
      obtain ⟨_, n, rfl, _⟩ := resolveNameHelper_first hhit
      exact ⟨n, rfl⟩

end Search

/-- A tree without declarations. -/
def emptyAst : Ast where
  sym := State.init
  symtab _ := none
  actual _ := none
  entry_node h := nomatch h
  entry_symtab h := nomatch h
  entry_flavor h := nomatch h

/-- `(allow . self (c (p)))` at the root: the type to look up. -/
def typeRequest : Request := ⟨.types, false, by decide, by decide⟩

def rootStatement : Statement emptyAst := ⟨.root, fun _ h => nomatch h⟩

end Cil.Resolve.DottedNames
