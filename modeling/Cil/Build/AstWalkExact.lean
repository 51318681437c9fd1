/- Cil/Build/AstWalkExact
   digest: The walk in memory frees nothing that it still visits, and builds what the input says. -/

import Cil.Build.AstWalk
import Cil.Build.Placement

set_option autoImplicit false
set_option relaxedAutoImplicit false

namespace Cil.Build

open Library Located Heap

section Locations

namespace Located

mutual

/-- The nodes have the parents that a function says. -/
def ParentsAll (parentOf : Nat → Option Nat) (parent : Nat) : List Located → Prop
  | [] => True
  | t :: ts => Parents parentOf parent t ∧ ParentsAll parentOf parent ts

def Parents (parentOf : Nat → Option Nat) (parent : Nat) : Located → Prop
  | node n _ children => parentOf n = some parent ∧ ParentsAll parentOf n children

end

mutual

private theorem parentsAll_of_linked {h : Heap} {tails : Bool} {parent : Nat} (ts : List Located)
    (hl : LinkedAll h tails parent ts) :
    ParentsAll (fun n => (h n).bind Cell.parent) parent ts := by
  match ts with
  | [] => trivial
  | t :: ts => exact ⟨parents_of_linked t hl.1, parentsAll_of_linked ts hl.2⟩

private theorem parents_of_linked {h : Heap} {tails : Bool} {parent : Nat} {next : Option Nat}
    (t : Located) (hl : Linked h tails parent next t) :
    Parents (fun n => (h n).bind Cell.parent) parent t := by
  match t with
  | node n data children =>
      obtain ⟨⟨tail, -, hcell⟩, -, hchildren⟩ := hl
      refine ⟨?_, parentsAll_of_linked children hchildren⟩
      simp only [hcell, Option.bind_some]

end

private theorem parentsAll_iff {parentOf : Nat → Option Nat} {parent : Nat} {ts : List Located} :
    ParentsAll parentOf parent ts ↔ ∀ t ∈ ts, Parents parentOf parent t := by
  induction ts with
  | nil => simp [ParentsAll]
  | cons t ts ih => simp only [ParentsAll, List.forall_mem_cons, ih]

theorem Parents.id {parentOf : Nat → Option Nat} {parent : Nat} {t : Located}
    (h : Parents parentOf parent t) : parentOf t.id = some parent := by
  cases t with
  | node n data children => exact h.1

theorem Parents.children {parentOf : Nat → Option Nat} {parent : Nat} {t : Located}
    (h : Parents parentOf parent t) : ParentsAll parentOf t.id t.children := by
  cases t with
  | node n data children => exact h.2

private theorem idsAll_sublist {ts us : List Located} (h : ts.Sublist us) :
    (idsAll ts).Sublist (idsAll us) := by
  induction h with
  | slnil => exact List.Sublist.refl _
  | cons u _ ih => exact ih.trans (List.sublist_append_right u.ids _)
  | cons_cons u _ ih => exact ih.append_left u.ids

/-- At least two nodes. -/
private theorem exists_of_forgetAll {ts : List Located} {x y : ParseNode} {nodes : List ParseNode}
    (h : forgetAll ts = x :: y :: nodes) :
    ∃ t u us, ts = t :: u :: us ∧ x = forget t ∧ y = forget u ∧ nodes = forgetAll us := by
  rw [forgetAll_eq_map] at h
  obtain ⟨t, rest, rfl, hx, hrest⟩ := List.map_eq_cons_iff.mp h
  obtain ⟨u, us, rfl, hy, hus⟩ := List.map_eq_cons_iff.mp hrest
  rw [← forgetAll_eq_map] at hus
  exact ⟨t, u, us, rfl, hx.symm, hy.symm, hus.symm⟩

theorem map_id_sublist (ts : List Located) : (ts.map Located.id).Sublist (idsAll ts) := by
  induction ts with
  | nil => exact List.Sublist.refl _
  | cons t ts ih =>
      cases t with
      | node n data children =>
          rw [List.map_cons, idsAll, ids]
          exact (ih.trans (List.sublist_append_right _ _)).cons_cons n

theorem id_mem_idsAll {t : Located} {ts : List Located} (h : t ∈ ts) : t.id ∈ idsAll ts :=
  ids_subset_idsAll h t.id (id_mem_ids t)

end Located

end Locations

section Steps

variable {σ : Type} {preserve : Bool} {b : Builder σ} {s : WalkState σ}

private theorem onHeap_of {α : Type} {c : Call Rc Heap α} {h : Heap} {a : α}
    (hc : c s.heap = some (.ok a h)) : onHeap c s = some (.ok a { s with heap := h }) := by
  simp only [onHeap, hc]

private theorem onHeap_read {n : Nat} {c : Cell} (hc : s.heap n = some c) :
    onHeap (read n) s = some (.ok c s) := onHeap_of (read_of hc)

/-- The state after a call of a helper has been noted. -/
def WalkState.visited (s : WalkState σ) (n : Nat) : WalkState σ :=
  { s with calls := s.calls ++ [(n, s.sources.head?)] }

private theorem visit_of (n : Nat) : visit n s = some (.ok () (s.visited n)) := rfl

private theorem orCrash_of {τ α : Type} (a : α) (t : τ) :
    Call.orCrash (some a) t = some (Returned.ok (ε := Rc) a t) := rfl

/-- A node that is not the first one of a list below the root. -/
private theorem nodeHelper_other {fuel n list : Nat} {c p : Cell} (hc : s.heap n = some c)
    (hparent : c.parent = some list) (hp : s.heap list = some p)
    (hfirst : p.clHead = some n → c.data = none ∧ p.parent = none) :
    nodeHelper preserve b fuel n s = some (.ok false (s.visited n)) := by
  rw [nodeHelper, Call.bind_of_ok (onHeap_read hc), hparent, Call.bind_of_ok (orCrash_of _ _),
    Call.bind_of_ok (onHeap_read hp)]
  by_cases hhead : p.clHead = some n
  · obtain ⟨hdata, hroot⟩ := hfirst hhead
    rw [if_pos hhead, hdata]
    dsimp only
    rw [if_pos hroot, Call.bind_of_ok (visit_of n)]
    rfl
  · rw [if_neg hhead, Call.bind_of_ok (visit_of n)]
    rfl

/-- A list that begins with a list. -/
private theorem nodeHelper_parenthesis {fuel n list : Nat} {c p : Cell} (hc : s.heap n = some c)
    (hparent : c.parent = some list) (hp : s.heap list = some p) (hhead : p.clHead = some n)
    (hdata : c.data = none) (hinner : p.parent ≠ none) :
    nodeHelper preserve b fuel n s = some (.failed .err s) := by
  rw [nodeHelper, Call.bind_of_ok (onHeap_read hc), hparent, Call.bind_of_ok (orCrash_of _ _),
    Call.bind_of_ok (onHeap_read hp), if_pos hhead, hdata]
  dsimp only
  rw [if_neg hinner]
  rfl

section Keyword

variable {fuel n list : Nat} {c p : Cell} {kw : String} {rest : List ParseNode}

/-- The state after a node was made for the list that begins with `n`. -/
def WalkState.entered (s : WalkState σ) (heap : Heap) (args : BuildState σ) (list n : Nat) :
    WalkState σ :=
  ⟨heap, args, list :: s.sources, s.calls ++ [(n, some list)]⟩

private theorem nodeHelper_refused (hc : s.heap n = some c) (hparent : c.parent = some list)
    (hp : s.heap list = some p) (hhead : p.clHead = some n) (hdata : c.data = some kw)
    (hrest : readNodes fuel c.next s.heap = some (.ok rest s.heap))
    (hbuild : buildNode preserve b kw rest s.args = none) :
    nodeHelper preserve b fuel n s = some (.failed .err s) := by
  have hget : (Call.get : Call Rc (WalkState σ) (WalkState σ)) s = some (.ok s s) := rfl
  rw [nodeHelper, Call.bind_of_ok (onHeap_read hc), hparent, Call.bind_of_ok (orCrash_of _ _),
    Call.bind_of_ok (onHeap_read hp), if_pos hhead, hdata]
  dsimp only
  rw [Call.bind_of_ok (onHeap_of hrest), Call.bind_of_ok hget, hbuild]
  rfl

private theorem nodeHelper_entered {args : BuildState σ} {skipNext : Bool} {h : Heap}
    (hc : s.heap n = some c) (hparent : c.parent = some list)
    (hp : s.heap list = some p) (hhead : p.clHead = some n) (hdata : c.data = some kw)
    (hrest : readNodes fuel c.next s.heap = some (.ok rest s.heap))
    (hbuild : buildNode preserve b kw rest s.args = some (args, skipNext))
    (hsplice : splice fuel kw n s.heap = some (.ok () h)) :
    nodeHelper preserve b fuel n s = some (.ok skipNext (s.entered h args list n)) := by
  have hget : (Call.get : Call Rc (WalkState σ) (WalkState σ)) s = some (.ok s s) := rfl
  rw [nodeHelper, Call.bind_of_ok (onHeap_read hc), hparent, Call.bind_of_ok (orCrash_of _ _),
    Call.bind_of_ok (onHeap_read hp), if_pos hhead, hdata]
  dsimp only
  rw [Call.bind_of_ok (onHeap_of hrest), Call.bind_of_ok hget, hbuild]
  dsimp only
  rw [Call.bind_of_ok (onHeap_of hsplice)]
  rfl

end Keyword

end Steps

section Builders

variable {σ : Type} {preserve : Bool} {b : Builder σ} {args args' : BuildState σ} {kw : String}
  {rest : List ParseNode}

/-- A builder that lets the walk go on has checked the syntax. -/
private theorem buildNode_ok {skipNext : Bool}
    (h : buildNode preserve b kw rest args = some (args', skipNext)) :
    args'.current.label = .statement kw ∧
      (skipNext = true ∧ kw ∈ skippingKeywords ∨
        skipNext = false ∧ ∃ syn, syntaxOf kw = some syn ∧
          verifySyntax syn (.string kw :: rest) = true) := by
  unfold buildNode at h
  split_ifs at h with hrefuses hskip
  · split at h
    · cases h
    · split at h
      · cases h
      · cases h
        exact ⟨rfl, Or.inl ⟨rfl, hskip⟩⟩
  · split at h
    · cases h
    · rename_i syn hsyn
      split_ifs at h with hok
      split at h
      · cases h
      · cases h
        exact ⟨rfl, Or.inr ⟨rfl, syn, hsyn, (Bool.and_eq_true _ _ ▸ hok).1⟩⟩

private theorem walkList_entered (h : buildNode preserve b kw rest args = some (args', false)) :
    walkList preserve b (.string kw :: rest) args =
      (walkNodes preserve b (spliced kw rest) args').bind fun args =>
        some (args.leave preserve) := by
  rw [walkList, h]
  dsimp only
  cases walkNodes preserve b (spliced kw rest) args' with
  | none => rfl
  | some args => rfl

private theorem splice_skipping (h : kw ∈ skippingKeywords) (fuel n : Nat) :
    splice fuel kw n = pure () := by
  have hmacro : kw ≠ "macro" := by
    rintro rfl
    exact absurd h (by decide)
  have hcond : ¬ (kw = "booleanif" ∨ kw = "tunableif") := by
    rintro (rfl | rfl)
    · exact absurd h (by decide)
    · exact absurd h (by decide)
  rw [splice, if_neg hmacro, if_neg hcond]

/-- What is taken out of a statement in memory is what is taken out of what it says. -/
private theorem splice_of {h : Heap} {list n fuel : Nat} {p : Cell} {others : List Located}
    {syn : List Syn} (hsyn : syntaxOf kw = some syn)
    (hverified : verifySyntax syn (.string kw :: forgetAll others) = true)
    (hp : h list = some p) (htail : p.clTail = lastId (.node n (some kw) [] :: others))
    (hl : LinkedAll h true list (.node n (some kw) [] :: others))
    (hnodup : (idsAll (.node n (some kw) [] :: others)).Nodup)
    (hlist : list ∉ idsAll (.node n (some kw) [] :: others))
    (hfuel : 2 * (idsAll others).length < fuel) :
    ∃ h' rest, splice fuel kw n h = some (.ok () h') ∧ rest.Sublist others ∧
      forgetAll rest = spliced kw (forgetAll others) ∧
      Spliced h h' list p (.node n (some kw) [] :: others) (.node n (some kw) [] :: rest) := by
  by_cases hmacro : kw = "macro"
  · subst hmacro
    cases hsyn
    obtain ⟨text, rest, hrest, hparams⟩ := verifySyntax_name hverified
    obtain ⟨params, content, hcontent, -⟩ := (verifyElement_one ⟨rfl, rfl, rfl⟩).mp hparams
    rw [hcontent] at hrest
    obtain ⟨name, ps, content', rfl, -⟩ := exists_of_forgetAll hrest
    have hps : 2 * ps.ids.length < fuel := by
      simp only [idsAll, List.length_append] at hfuel
      omega
    obtain ⟨h', hsplice, hspliced⟩ := splice_macro hp htail hl hnodup hlist hps
    refine ⟨h', name :: content', hsplice, ?_, rfl, hspliced⟩
    exact (List.sublist_cons_self ps content').cons_cons name
  · by_cases hcond : kw = "booleanif" ∨ kw = "tunableif"
    · have hconditional : syntaxOf kw = some conditionalSyntax := by
        rcases hcond with rfl | rfl
        · rfl
        · rfl
      rw [hconditional] at hsyn
      cases hsyn
      obtain ⟨_, nodes, heq, -, hexpr⟩ := (verifyElement_one ⟨rfl, rfl, rfl⟩).mp hverified
      cases heq
      obtain ⟨e, nodes, hnodes, -, hcond'⟩ := (verifyElement_one ⟨rfl, rfl, rfl⟩).mp hexpr
      obtain ⟨c, nodes', hnodes', -⟩ := (verifyElement_one ⟨rfl, rfl, rfl⟩).mp hcond'
      rw [hnodes'] at hnodes
      obtain ⟨expr, cond, content, rfl, -⟩ := exists_of_forgetAll hnodes
      have hes : 2 * expr.ids.length < fuel := by
        simp only [idsAll, List.length_append] at hfuel
        omega
      obtain ⟨h', hsplice, hspliced⟩ := splice_conditional hcond hp htail hl hnodup hlist hes
      refine ⟨h', cond :: content, hsplice, List.sublist_cons_self .., ?_, hspliced⟩
      rw [spliced, if_neg hmacro, if_pos hcond]
      rfl
    · refine ⟨h, others, ?_, List.Sublist.refl _, ?_, ?_⟩
      · rw [splice, if_neg hmacro, if_neg hcond]
        rfl
      · rw [spliced, if_neg hmacro, if_neg hcond]
      · refine ⟨?_, hl, fun m hm hnot => absurd hm hnot, fun _ _ _ => rfl⟩
        rw [hp, ← htail]

end Builders

section Simulation

variable {σ : Type} {preserve : Bool} {b : Builder σ} {s s' s'' : WalkState σ}
  {parentOf : Nat → Option Nat} {list : Nat} {p : Cell} {t : Located} {ts : List Located}

/-- The run fails where the builder of trees fails, and otherwise gives what that gives. -/
def Simulates (r : Option (Returned Rc (WalkState σ) Unit)) (spec : Option (BuildState σ))
    (post : WalkState σ → Prop) : Prop :=
  match spec with
  | none => ∃ s, r = some (.failed .err s)
  | some args => ∃ s, r = some (.ok () s) ∧ s.args = args ∧ post s

theorem Simulates.bind {c : Call Rc (WalkState σ) Unit} {f : Unit → Call Rc (WalkState σ) Unit}
    {spec : Option (BuildState σ)} {spec' : BuildState σ → Option (BuildState σ)}
    {post post' : WalkState σ → Prop} (hc : Simulates (c s) spec post)
    (hf : ∀ s', post s' → spec = some s'.args → Simulates (f () s') (spec' s'.args) post') :
    Simulates ((c >>= f) s) (spec.bind spec') post' := by
  cases spec with
  | none =>
      obtain ⟨s', hs'⟩ := hc
      exact ⟨s', Call.bind_of_failed hs'⟩
  | some args =>
      obtain ⟨s', hs', rfl, hpost⟩ := hc
      rw [Call.bind_of_ok hs', Option.bind_some]
      exact hf s' hpost rfl

theorem Simulates.imp {r : Option (Returned Rc (WalkState σ) Unit)} {spec : Option (BuildState σ)}
    {post post' : WalkState σ → Prop} (h : Simulates r spec post)
    (himp : ∀ s, post s → post' s) : Simulates r spec post' := by
  cases spec with
  | none => exact h
  | some args =>
      obtain ⟨s', hs', hargs, hpost⟩ := h
      exact ⟨s', hs', hargs, himp s' hpost⟩

/-- In all further calls `args->ast` was made from the list that the parse node is in. -/
def Noted (parentOf : Nat → Option Nat) (s s' : WalkState σ) : Prop :=
  ∃ new, s'.calls = s.calls ++ new ∧ ∀ e ∈ new, e.2 = parentOf e.1

theorem Noted.refl (s : WalkState σ) : Noted parentOf s s :=
  ⟨[], (List.append_nil _).symm, fun _ he => absurd he List.not_mem_nil⟩

theorem Noted.trans (h : Noted parentOf s s') (h' : Noted parentOf s' s'') :
    Noted parentOf s s'' := by
  obtain ⟨new, hcalls, hnew⟩ := h
  obtain ⟨new', hcalls', hnew'⟩ := h'
  refine ⟨new ++ new', by rw [hcalls', hcalls, List.append_assoc], fun e he => ?_⟩
  rcases List.mem_append.mp he with he | he
  · exact hnew e he
  · exact hnew' e he

private theorem noted_visited {n : Nat} (h : parentOf n = s.sources.head?) :
    Noted parentOf s (s.visited n) := by
  refine ⟨_, rfl, fun e he => ?_⟩
  rw [List.mem_singleton.mp he, h]

/-- The walk is at nodes of a list, and `args->ast` was made from that list. -/
structure Around (parentOf : Nat → Option Nat) (s : WalkState σ) (list : Nat) (p : Cell)
    (ts : List Located) : Prop where
  cell : s.heap list = some p
  linked : LinkedAll s.heap true list ts
  nodup : (idsAll ts).Nodup
  apart : list ∉ idsAll ts
  first : ∀ t ∈ ts, p.clHead = some t.id → t.data = none ∧ p.parent = none
  source : s.sources.head? = some list
  parents : ParentsAll parentOf list ts

/-- The nodes are there without what was below them, and all else is as before. -/
structure Reaped (parentOf : Nat → Option Nat) (s s' : WalkState σ) (list : Nat)
    (ts : List Located) : Prop where
  sources : s'.sources = s.sources
  linked : LinkedAll s'.heap false list (ts.map husk)
  gone : ∀ m ∈ idsAll ts, m ∉ ts.map Located.id → s'.heap m = none
  same : ∀ m, m ∉ idsAll ts → s'.heap m = s.heap m
  calls : Noted parentOf s s'

/-- A list has been walked through, and what was below it is gone. -/
structure Closed (parentOf : Nat → Option Nat) (s s' : WalkState σ) (list : Nat) (p : Cell)
    (ts : List Located) : Prop where
  sources : s'.sources = s.sources
  heap : ∃ tail, s'.heap = cleared s.heap (idsAll ts) list { p with clTail := tail }
  calls : Noted parentOf s s'

theorem headId_map_husk (ts : List Located) : headId (ts.map husk) = headId ts := by
  cases ts <;> rfl

private theorem lastId_map_husk (ts : List Located) : lastId (ts.map husk) = lastId ts := by
  rw [lastId, lastId, List.getLast?_map, Option.map_map]
  rfl

theorem idsAll_map_husk (ts : List Located) : idsAll (ts.map husk) = ts.map Located.id := by
  induction ts with
  | nil => rfl
  | cons t ts ih =>
      rw [List.map_cons, idsAll, ih, List.map_cons]
      rfl

theorem linked_of_mem {h : Heap} {tails : Bool} (hl : LinkedAll h tails list ts) (ht : t ∈ ts) :
    ∃ next, Linked h tails list next t := by
  induction ts with
  | nil => cases ht
  | cons u us ih =>
      rcases List.mem_cons.mp ht with rfl | ht
      · exact ⟨_, hl.1⟩
      · exact ih hl.2 ht

/-- The state after the node of a list has been left. -/
def WalkState.left (preserve : Bool) (s : WalkState σ) (n : Nat) : WalkState σ :=
  ⟨s.heap, s.args.leave preserve, s.sources.tail, s.calls ++ [(n, s.sources.head?)]⟩

/-- The list is left, and what is below it is destroyed. -/
private theorem lastChildHelper_of (preserve : Bool) {fuel : Nat}
    (hlabel : s.args.current.label ≠ .root)
    (hp : s.heap list = some p) (hhead : p.clHead = headId ts) (hne : ts ≠ [])
    (hl : LinkedAll s.heap false list ts) (hnodup : (idsAll ts).Nodup) (hlist : list ∉ idsAll ts)
    (hfuel : 2 * (idsAll ts).length < fuel) :
    ∃ u ∈ ts, lastChildHelper preserve fuel (lastId ts) s =
      some (.ok () { s.left preserve u.id with heap := cleared s.heap (idsAll ts) list p }) := by
  have hlast : lastId ts = some (ts.getLast hne).id := by
    rw [lastId, List.getLast?_eq_some_getLast hne]
    rfl
  have hmem := List.getLast_mem hne
  obtain ⟨next, hlinked⟩ := linked_of_mem hl hmem
  obtain ⟨c, hc, -, hparent, -⟩ := linked_cell hlinked
  have hget : (Call.get : Call Rc (WalkState σ) (WalkState σ)) s = some (.ok s s) := rfl
  have hleave : (Call.modify (fun s => ⟨s.heap, s.args.leave preserve, s.sources.tail, s.calls⟩) :
      Call Rc (WalkState σ) Unit) (s.visited (ts.getLast hne).id) =
        some (.ok () (s.left preserve (ts.getLast hne).id)) := rfl
  have hread : onHeap (read (ts.getLast hne).id) (s.left preserve (ts.getLast hne).id) =
      some (.ok c (s.left preserve (ts.getLast hne).id)) := onHeap_read hc
  refine ⟨ts.getLast hne, hmem, ?_⟩
  rw [lastChildHelper, Call.bind_of_ok hget, if_neg hlabel, hlast,
    Call.bind_of_ok (orCrash_of _ _), Call.bind_of_ok (visit_of _), Call.bind_of_ok hleave,
    Call.bind_of_ok hread, hparent]
  exact onHeap_of (childrenDestroy_of hp hhead hl hnodup hlist hfuel)

/-- The walk has been through the nodes of a list, of which `us` are left. -/
structure Emptied (parentOf : Nat → Option Nat) (s s' : WalkState σ) (list : Nat) (p : Cell)
    (ts us : List Located) : Prop where
  cell : s'.heap list = some { p with clTail := lastId us }
  label : s'.args.current.label ≠ .root
  source : s'.sources = list :: s.sources
  head : p.clHead = headId us
  nonempty : us ≠ []
  linked : LinkedAll s'.heap false list us
  nodup : (idsAll us).Nodup
  apart : list ∉ idsAll us
  parents : ∀ u ∈ us, parentOf u.id = some list
  subset : ∀ m ∈ idsAll us, m ∈ idsAll ts
  gone : ∀ m ∈ idsAll ts, m ∉ idsAll us → s'.heap m = none
  same : ∀ m, m ≠ list → m ∉ idsAll ts → s'.heap m = s.heap m
  calls : Noted parentOf s s'

theorem Emptied.closed {us : List Located} {fuel : Nat}
    (h : Emptied parentOf s s' list p ts us) (hlist : list ∉ idsAll ts)
    (hfuel : 2 * (idsAll us).length < fuel) :
    Simulates ((onHeap (read list) >>= fun c => lastChildHelper preserve fuel c.clTail) s')
      (some (s'.args.leave preserve)) (Closed parentOf s · list p ts) := by
  obtain ⟨u, hu, hlast⟩ := lastChildHelper_of preserve h.label h.cell h.head h.nonempty
    h.linked h.nodup h.apart hfuel
  refine ⟨{ s'.left preserve u.id with
    heap := cleared s'.heap (idsAll us) list { p with clTail := lastId us } }, ?_, rfl, ?_⟩
  · rw [Call.bind_of_ok (onHeap_read h.cell)]
    exact hlast
  · refine ⟨?_, ⟨lastId us, ?_⟩, h.calls.trans ⟨_, rfl, fun e he => ?_⟩⟩
    · show s'.sources.tail = s.sources
      rw [h.source, List.tail_cons]
    · funext m
      show cleared s'.heap (idsAll us) list _ m = cleared s.heap (idsAll ts) list _ m
      by_cases hm : m = list
      · rw [hm, cleared_parent h.apart, cleared_parent hlist]
      · by_cases hts : m ∈ idsAll ts
        · rw [cleared, cleared, if_pos hts]
          by_cases hus : m ∈ idsAll us
          · rw [if_pos hus]
          · rw [if_neg hus, if_neg hm, h.gone m hts hus]
        · rw [cleared_of_not_mem (fun hus => hts (h.subset m hus)) hm, cleared_of_not_mem hts hm,
            h.same m hm hts]
    · rw [List.mem_singleton.mp he]
      show s'.sources.head? = parentOf u.id
      rw [h.source, h.parents u hu, List.head?_cons]

/-- What the walk does with siblings. -/
def SiblingsBuilt (preserve : Bool) (b : Builder σ) (parentOf : Nat → Option Nat)
    (ts : List Located) : Prop :=
  ∀ (fuel : Nat) (s : WalkState σ) (list : Nat) (p : Cell), 3 * (idsAll ts).length + 2 ≤ fuel →
    Around parentOf s list p ts →
      Simulates (treeWalkCore preserve b fuel (headId ts) s)
        (walkNodes preserve b (forgetAll ts) s.args) (Reaped parentOf s · list ts)

/-- The walk comes to a list below the root. -/
structure AtList (parentOf : Nat → Option Nat) (s : WalkState σ) (list : Nat) (p : Cell)
    (ts : List Located) : Prop where
  cell : s.heap list = some p
  inner : p.parent ≠ none
  head : p.clHead = headId ts
  tail : p.clTail = lastId ts
  linked : LinkedAll s.heap true list ts
  nodup : (idsAll ts).Nodup
  apart : list ∉ idsAll ts
  parents : ParentsAll parentOf list ts

/-- What the walk does with a list that is not empty. -/
def ListBuilt (preserve : Bool) (b : Builder σ) (parentOf : Nat → Option Nat)
    (ts : List Located) : Prop :=
  ∀ (fuel : Nat) (s : WalkState σ) (list : Nat) (p : Cell), 3 * (idsAll ts).length + 3 ≤ fuel →
    AtList parentOf s list p ts →
      Simulates (treeWalk preserve b fuel list s) (walkList preserve b (forgetAll ts) s.args)
        (Closed parentOf s · list p ts)

private theorem noted_entered {heap : Heap} {args : BuildState σ} {n : Nat}
    (h : parentOf n = some list) : Noted parentOf s (s.entered heap args list n) := by
  refine ⟨_, rfl, fun e he => ?_⟩
  rw [List.mem_singleton.mp he, h]

/-- The walk goes no further in the list, and leaves it. -/
private theorem AtList.emptied_of_skip {n : Nat} {kw : String} {others : List Located}
    {args : BuildState σ} (h : AtList parentOf s list p (.node n (some kw) [] :: others))
    (hlabel : args.current.label ≠ .root) :
    Emptied parentOf s (s.entered s.heap args list n) list p (.node n (some kw) [] :: others)
      (.node n (some kw) [] :: others) where
  cell := by
    rw [← h.tail]
    exact h.cell
  label := hlabel
  source := rfl
  head := h.head
  nonempty := List.cons_ne_nil _ _
  linked := linkedAll_untailed _ h.linked
  nodup := h.nodup
  apart := h.apart
  parents u hu := (parentsAll_iff.mp h.parents u hu).id
  subset _ hm := hm
  gone _ hm hnot := absurd hm hnot
  same _ _ _ := rfl
  calls := noted_entered h.parents.1.id

/-- The walk goes on to what is left of the list, and comes back. -/
private theorem AtList.emptied_of_reaped {n : Nat} {kw : String} {others rest : List Located}
    {heap : Heap}
    {args : BuildState σ} (h : AtList parentOf s list p (.node n (some kw) [] :: others))
    (hsublist : rest.Sublist others)
    (hspliced : Spliced s.heap heap list p (.node n (some kw) [] :: others)
      (.node n (some kw) [] :: rest))
    (hreaped : Reaped parentOf (s.entered heap args list n) s' list rest)
    (hlabel : s'.args.current.label ≠ .root) :
    Emptied parentOf s s' list p (.node n (some kw) [] :: others)
      ((.node n (some kw) [] :: rest).map husk) := by
  have hids : (idsAll (.node n (some kw) [] :: rest)).Sublist
      (idsAll (.node n (some kw) [] :: others)) := idsAll_sublist (hsublist.cons_cons _)
  have htop := map_id_sublist (.node n (some kw) [] :: rest)
  have hnodup := h.nodup.sublist hids
  have hlist : list ∉ idsAll rest := fun hmem => h.apart (hids.subset (List.mem_cons_of_mem n hmem))
  have hn : n ∉ idsAll rest := (List.nodup_cons.mp hnodup).1
  have hothers : ∀ m, m ∉ idsAll rest → s'.heap m = heap m := hreaped.same
  refine ⟨?_, hlabel, hreaped.sources, h.head, List.cons_ne_nil _ _, ?_, ?_, ?_, ?_, ?_, ?_, ?_, ?_⟩
  · rw [hothers list hlist, hspliced.cell, lastId_map_husk]
  · have hfirst : Linked heap true list (headId (rest.map husk)) (.node n (some kw) []) := by
      rw [headId_map_husk]
      exact hspliced.linked.1
    refine ⟨linked_congr _ (fun m hm => ?_) (linked_untailed _ hfirst), hreaped.linked⟩
    have hmn : m = n := List.mem_singleton.mp hm
    rw [hmn, hothers n hn]
  · rw [idsAll_map_husk]
    exact hnodup.sublist htop
  · rw [idsAll_map_husk]
    exact fun hmem => h.apart (hids.subset (htop.subset hmem))
  · intro u hu
    obtain ⟨t, ht, rfl⟩ := List.mem_map.mp hu
    exact (parentsAll_iff.mp h.parents t ((hsublist.cons_cons _).subset ht)).id
  · intro m hm
    rw [idsAll_map_husk] at hm
    exact hids.subset (htop.subset hm)
  · intro m hm hnot
    rw [idsAll_map_husk, List.map_cons, List.mem_cons, not_or] at hnot
    by_cases hrest : m ∈ idsAll rest
    · exact hreaped.gone m hrest hnot.2
    · rw [hothers m hrest]
      refine hspliced.gone m hm fun hmem => ?_
      rcases List.mem_cons.mp hmem with heq | hmem
      · exact hnot.1 heq
      · exact hrest hmem
  · intro m hne hnot
    have hrest : m ∉ idsAll rest := fun hmem => hnot (hids.subset (List.mem_cons_of_mem n hmem))
    rw [hothers m hrest]
    exact hspliced.same m hne hnot
  · exact (noted_entered h.parents.1.id).trans hreaped.calls

/-- After a node with nothing below it the walk goes on to the next one. -/
private theorem core_childless {fuel n : Nat} {c : Cell} (hc : s.heap n = some c)
    (hhead : c.clHead = none) :
    (onHeap (read n) >>= fun c =>
      (if c.clHead.isSome = true then treeWalk preserve b fuel n else pure ()) >>= fun _ =>
      onHeap (read n) >>= fun c => treeWalkCore preserve b fuel c.next) s =
        treeWalkCore preserve b fuel c.next s := by
  have hpure : (pure () : Call Rc (WalkState σ) Unit) s = some (.ok () s) := rfl
  have hsome : ¬ (none : Option Nat).isSome = true := by decide
  rw [Call.bind_of_ok (onHeap_read hc), hhead, if_neg hsome, Call.bind_of_ok hpure,
    Call.bind_of_ok (onHeap_read hc)]

/-- Where the walk goes on in a list, after its first node. -/
theorem AtList.around {n : Nat} {kw : String} {others rest : List Located} {heap : Heap}
    {args : BuildState σ} (h : AtList parentOf s list p (.node n (some kw) [] :: others))
    (hsublist : rest.Sublist others)
    (hspliced : Spliced s.heap heap list p (.node n (some kw) [] :: others)
      (.node n (some kw) [] :: rest)) :
    Around parentOf (s.entered heap args list n) list
      { p with clTail := lastId (.node n (some kw) [] :: rest) } rest := by
  have hids : (idsAll (.node n (some kw) [] :: rest)).Sublist
      (idsAll (.node n (some kw) [] :: others)) := idsAll_sublist (hsublist.cons_cons _)
  have hnodup := List.nodup_cons.mp (h.nodup.sublist hids)
  refine ⟨hspliced.cell, hspliced.linked.2, hnodup.2,
    fun hmem => h.apart (hids.subset (List.mem_cons_of_mem n hmem)), ?_, rfl,
    parentsAll_iff.mpr fun t ht => parentsAll_iff.mp h.parents.2 t (hsublist.subset ht)⟩
  intro t ht hhead
  have heq : some n = some t.id := h.head.symm.trans hhead
  exact absurd (Option.some.inj heq ▸ id_mem_idsAll ht) hnodup.1

/-- A list is built if all that can be left of it is. -/
private theorem listBuilt_of {first : Located} {others : List Located}
    (hsmaller : ∀ rest, rest.Sublist others → SiblingsBuilt preserve b parentOf rest) :
    ListBuilt preserve b parentOf (first :: others) := by
  intro fuel s list p hfuel h
  obtain ⟨fuel, rfl⟩ : ∃ f, fuel = f + 2 := ⟨fuel - 2, by omega⟩
  obtain ⟨c, hc, hdata, hparent, hchild, hnext⟩ := linked_cell h.linked.1
  have hhead : p.clHead = some first.id := h.head
  rw [treeWalk, Call.bind_of_ok (onHeap_read h.cell), hhead]
  dsimp only
  rw [treeWalkCore, Call.bind_assoc]
  cases first with
  | node n data children =>
      simp only [idsAll, ids, List.length_append, List.length_cons] at hfuel
      rw [id_node]
      cases data with
      | none =>
          have hfails : nodeHelper preserve b fuel n s = some (.failed .err s) :=
            nodeHelper_parenthesis hc hparent h.cell hhead hdata h.inner
          have hspec : walkList preserve b (forgetAll (.node n none children :: others)) s.args =
              none := by
            rw [forgetAll, forget, walkList]
            intro kw rest heq
            cases heq
          rw [hspec]
          exact ⟨s, Call.bind_of_failed hfails⟩
      | some kw =>
          obtain rfl : children = [] := h.linked.1.2.1 rfl
          have hreads : readNodes fuel c.next s.heap = some (.ok (forgetAll others) s.heap) := by
            rw [hnext]
            exact readNodes_of h.linked.2 (by omega)
          rw [forgetAll, forget]
          cases hbuild : buildNode preserve b kw (forgetAll others) s.args with
          | none =>
              rw [walkList, hbuild]
              have hfails : nodeHelper preserve b fuel n s = some (.failed .err s) :=
                nodeHelper_refused hc hparent h.cell hhead hdata hreads hbuild
              exact ⟨s, Call.bind_of_failed hfails⟩
          | some built =>
              obtain ⟨args, skipNext⟩ := built
              obtain ⟨hlabel, hskip⟩ := buildNode_ok hbuild
              have hroot : args.current.label ≠ .root := by
                rw [hlabel]
                exact Label.noConfusion
              rcases hskip with ⟨rfl, hskip⟩ | ⟨rfl, syn, hsyn, hverified⟩
              · have hsplice : splice fuel kw n s.heap = some (.ok () s.heap) := by
                  rw [splice_skipping hskip]
                  rfl
                have hhelper : nodeHelper preserve b fuel n s =
                    some (.ok true (s.entered s.heap args list n)) :=
                  nodeHelper_entered hc hparent h.cell hhead hdata hreads hbuild hsplice
                rw [Call.bind_of_ok hhelper, if_pos rfl, walkList, hbuild]
                refine (h.emptied_of_skip hroot).closed h.apart ?_
                simp only [idsAll, ids, List.length_append, List.length_cons, List.length_nil]
                omega
              · have hshort : 2 * (idsAll others).length < fuel := by omega
                obtain ⟨heap, rest, hsplice, hsublist, hforget, hspliced⟩ := splice_of hsyn
                  hverified h.cell h.tail h.linked h.nodup h.apart hshort
                have hhelper : nodeHelper preserve b fuel n s =
                    some (.ok false (s.entered heap args list n)) :=
                  nodeHelper_entered hc hparent h.cell hhead hdata hreads hbuild hsplice
                obtain ⟨c', hc', -, -, hchild', hnext'⟩ := linked_cell hspliced.linked.1
                have hlength := (idsAll_sublist hsublist).length_le
                have haround : Around parentOf (s.entered heap args list n) list _ rest :=
                  h.around hsublist hspliced
                have hwalk := hsmaller rest hsublist fuel _ list _ (by omega) haround
                rw [← hnext', ← core_childless hc' hchild', hforget] at hwalk
                rw [Call.bind_of_ok hhelper, if_neg Bool.false_ne_true, walkList_entered hbuild]
                refine hwalk.bind fun s' hreaped hargs => ?_
                have hbuilt := walkNodes_built _ hargs
                have hroot' : s'.args.current.label ≠ .root := by
                  rw [hbuilt.current]
                  exact hroot
                refine (h.emptied_of_reaped hsublist hspliced hreaped hroot').closed h.apart ?_
                rw [idsAll_map_husk, List.length_map, List.length_cons]
                have hrest := (map_id_sublist rest).length_le
                rw [List.length_map] at hrest
                omega

/-- The walk has been at a node and through all that was below it. -/
structure Passed (parentOf : Nat → Option Nat) (s s' : WalkState σ) (list : Nat)
    (next : Option Nat) (t : Located) : Prop where
  sources : s'.sources = s.sources
  cell : ∃ tail, s'.heap t.id = some ⟨t.data, some list, none, tail, next⟩
  gone : ∀ m ∈ idsAll t.children, s'.heap m = none
  same : ∀ m, m ∉ t.ids → s'.heap m = s.heap m
  calls : Noted parentOf s s'

theorem mem_ids {m : Nat} : m ∈ t.ids ↔ m = t.id ∨ m ∈ idsAll t.children := by
  cases t with
  | node n data children => exact List.mem_cons

theorem Around.tail (h : Around parentOf s list p (t :: ts))
    (hpassed : Passed parentOf s s' list (headId ts) t) : Around parentOf s' list p ts := by
  have hnodup := h.nodup
  have happart := h.apart
  rw [idsAll] at hnodup happart
  have hdisjoint := List.disjoint_of_nodup_append hnodup
  rw [List.mem_append, not_or] at happart
  refine ⟨?_, ?_, (List.nodup_append.mp hnodup).2.1, happart.2, ?_, ?_, h.parents.2⟩
  · rw [hpassed.same list happart.1, h.cell]
  · exact linkedAll_congr ts (fun m hm => hpassed.same m fun hmem => hdisjoint hmem hm) h.linked.2
  · intro u hu
    exact h.first u (List.mem_cons_of_mem t hu)
  · rw [hpassed.sources, h.source]

private theorem Passed.reaped (hpassed : Passed parentOf s s' list (headId ts) t)
    (hnodup : (idsAll (t :: ts)).Nodup) (hrest : Reaped parentOf s' s'' list ts) :
    Reaped parentOf s s'' list (t :: ts) := by
  rw [idsAll] at hnodup
  have hdisjoint := List.disjoint_of_nodup_append hnodup
  obtain ⟨tail, hcell⟩ := hpassed.cell
  refine ⟨?_, ⟨⟨⟨tail, ?_, ?_⟩, ?_, trivial⟩, hrest.linked⟩, ?_, ?_,
    hpassed.calls.trans hrest.calls⟩
  · rw [hrest.sources, hpassed.sources]
  · exact Bool.noConfusion
  · rw [hrest.same t.id (hdisjoint (id_mem_ids t)), hcell, headId_map_husk]
    rfl
  · exact fun _ => rfl
  · intro m hm hnot
    rw [List.map_cons, List.mem_cons, not_or] at hnot
    rw [idsAll, List.mem_append] at hm
    by_cases hts : m ∈ idsAll ts
    · exact hrest.gone m hts hnot.2
    · have hmem : m ∈ t.ids := hm.resolve_right hts
      have hbelow : m ∈ idsAll t.children := (mem_ids.mp hmem).resolve_left hnot.1
      rw [hrest.same m hts, hpassed.gone m hbelow]
  · intro m hm
    rw [idsAll, List.mem_append, not_or] at hm
    rw [hrest.same m hm.2, hpassed.same m hm.1]

private theorem walkNodes_childless {args : BuildState σ} (h : t.children = []) :
    walkNodes preserve b (forgetAll (t :: ts)) args = walkNodes preserve b (forgetAll ts) args := by
  cases t with
  | node n data children =>
      obtain rfl : children = [] := h
      have hnot (m : ParseNode) (ms : List ParseNode) :
          forget (.node n data []) ≠ .list (m :: ms) := by
        cases data with
        | none =>
            intro heq
            cases heq
        | some word =>
            intro heq
            cases heq
      rw [forgetAll, walkNodes]
      exact hnot

private theorem walkNodes_list {args : BuildState σ} (hdata : t.data = none) (h : t.children ≠ []) :
    walkNodes preserve b (forgetAll (t :: ts)) args =
      (walkList preserve b (forgetAll t.children) args).bind
        (walkNodes preserve b (forgetAll ts)) := by
  obtain ⟨u, us, hchildren⟩ := List.exists_cons_of_ne_nil h
  rw [forgetAll, forget_of_data_none hdata, hchildren, forgetAll, walkNodes]
  cases walkList preserve b (u.forget :: forgetAll us) args with
  | none => rfl
  | some args => rfl

private theorem siblingsBuilt_nil : SiblingsBuilt preserve b parentOf [] := by
  intro fuel s list p hfuel h
  obtain ⟨fuel, rfl⟩ : ∃ f, fuel = f + 1 := ⟨fuel - 1, by omega⟩
  rw [headId_nil, treeWalkCore, forgetAll, walkNodes]
  refine ⟨s, rfl, rfl, rfl, trivial, ?_, fun _ _ => rfl, Noted.refl s⟩
  intro m hm
  cases hm

/-- Siblings are built if the list of the first one is, and the others are. -/
private theorem siblingsBuilt_cons
    (hlist : t.children ≠ [] → ListBuilt preserve b parentOf t.children)
    (hrest : SiblingsBuilt preserve b parentOf ts) :
    SiblingsBuilt preserve b parentOf (t :: ts) := by
  intro fuel s list p hfuel h
  obtain ⟨fuel, rfl⟩ : ∃ f, fuel = f + 1 := ⟨fuel - 1, by omega⟩
  cases t with
  | node n data children =>
      obtain ⟨⟨tail, htail, hcell⟩, hdata, hchildren⟩ := h.linked.1
      have hids := h.nodup
      have happart := h.apart
      simp only [idsAll, ids, List.cons_append, List.length_cons, List.length_append] at hfuel
      simp only [idsAll, ids, List.cons_append, List.nodup_cons, List.mem_append, not_or,
        List.mem_cons] at hids happart
      obtain ⟨⟨hn, -⟩, hnodup⟩ := hids
      have hparent := h.parents.1
      have hnoted : Noted parentOf s (s.visited n) := by
        apply noted_visited
        rw [h.source]
        exact hparent.1
      have hhelper : nodeHelper preserve b fuel n s = some (.ok false (s.visited n)) := by
        apply nodeHelper_other hcell rfl h.cell
        intro hhead
        exact h.first _ List.mem_cons_self hhead
      rw [headId_cons, id_node, treeWalkCore, Call.bind_of_ok hhelper, if_neg Bool.false_ne_true]
      by_cases hempty : children = []
      · subst hempty
        have hpassed : Passed parentOf s (s.visited n) list (headId ts) (.node n data []) := by
          refine ⟨rfl, ⟨tail, hcell⟩, ?_, fun _ _ => rfl, hnoted⟩
          intro m hm
          cases hm
        have hwalk := hrest fuel (s.visited n) list p (by omega) (h.tail hpassed)
        rw [core_childless (s := s.visited n) hcell rfl, walkNodes_childless rfl]
        exact hwalk.imp fun s' hreaped => hpassed.reaped h.nodup hreaped
      · have hnone : data = none := by
          cases data with
          | none => rfl
          | some word => exact absurd (hdata rfl) hempty
        subst hnone
        obtain ⟨u, us, hcons⟩ := List.exists_cons_of_ne_nil hempty
        have hsome : (headId children).isSome = true := by
          rw [hcons]
          rfl
        have hat :
            AtList parentOf (s.visited n) n ⟨none, some list, headId children, tail, headId ts⟩
            children := by
          refine ⟨hcell, Option.some_ne_none list, rfl, htail rfl, hchildren,
            (List.nodup_append.mp hnodup).1, hn, hparent.2⟩
        have hlist' : ListBuilt preserve b parentOf children := hlist hempty
        have hbuilt := hlist' fuel (s.visited n) n _ (by omega) hat
        rw [walkNodes_list (t := .node n none children) rfl hempty,
          Call.bind_of_ok (onHeap_read (s := s.visited n) hcell)]
        dsimp only
        rw [if_pos hsome]
        refine hbuilt.bind fun s' hclosed hargs => ?_
        obtain ⟨tail', hheap⟩ := hclosed.heap
        have hcell' : s'.heap n = some ⟨none, some list, none, tail', headId ts⟩ := by
          rw [hheap, cleared_parent hn]
        have hpassed : Passed parentOf s s' list (headId ts) (.node n none children) := by
          refine ⟨hclosed.sources, ⟨tail', hcell'⟩, ?_, ?_, hnoted.trans hclosed.calls⟩
          · intro m hm
            have hbelow : m ∈ idsAll children := hm
            rw [hheap, cleared, if_pos hbelow]
          · intro m hm
            rw [mem_ids, not_or] at hm
            obtain ⟨hne, hbelow⟩ : m ≠ n ∧ m ∉ idsAll children := hm
            rw [hheap, cleared_of_not_mem hbelow hne]
            rfl
        have hwalk := hrest fuel s' list p (by omega) (h.tail hpassed)
        rw [Call.bind_of_ok (onHeap_read hcell')]
        exact hwalk.imp fun s'' hreaped => hpassed.reaped h.nodup hreaped

/-- Whatever the nodes are, the walk builds them. -/
private theorem siblingsBuilt (ts : List Located) : SiblingsBuilt preserve b parentOf ts := by
  obtain ⟨size, hsize⟩ : ∃ size, (idsAll ts).length = size := ⟨_, rfl⟩
  induction size using Nat.strongRecOn generalizing ts with
  | _ size ih =>
      cases ts with
      | nil => exact siblingsBuilt_nil
      | cons t ts =>
          cases t with
          | node n data children =>
              simp only [idsAll, ids, List.cons_append, List.length_cons,
                List.length_append] at hsize
              apply siblingsBuilt_cons
              · intro hne
                have hlists : ListBuilt preserve b parentOf children := by
                  cases children with
                  | nil => exact absurd rfl hne
                  | cons first others =>
                      apply listBuilt_of
                      intro rest hrest
                      have hshorter := (idsAll_sublist hrest).length_le
                      rw [idsAll, List.length_append] at hsize
                      exact ih _ (by omega) rest rfl
                exact hlists
              · exact ih _ (by omega) ts rfl

end Simulation

section Building

variable {σ : Type} (preserve : Bool) (b : Builder σ) (db : σ) (P : ParseTree)

/-- The state in which the walk begins. -/
def ParseTree.start : WalkState σ := .start db P.heap P.root

theorem ParseTree.around : Around P.parent (P.start db) P.root
    ⟨none, none, headId P.nodes, lastId P.nodes, none⟩ P.nodes := by
  have hnodup := List.nodup_cons.mp P.nodup
  refine ⟨P.rootCell, P.linked, hnodup.2, hnodup.1, ?_, rfl, parentsAll_of_linked _ P.linked⟩
  intro t ht hhead
  exact ⟨P.lists t ht, rfl⟩

/-- The whole walk. -/
theorem cilBuildAst_walk {fuel : Nat} (hfuel : 3 * (idsAll P.nodes).length + 3 ≤ fuel) :
    Simulates (cilBuildAst preserve b fuel db P.heap P.root)
      (walkNodes preserve b (P.input.map .list) (P.start db).args)
      (Reaped P.parent (P.start db) · P.root P.nodes) := by
  obtain ⟨fuel, rfl⟩ : ∃ f, fuel = f + 1 := ⟨fuel - 1, by omega⟩
  have hread : onHeap (read P.root) (P.start db) =
      some (.ok ⟨none, none, headId P.nodes, lastId P.nodes, none⟩ (P.start db)) :=
    onHeap_read P.rootCell
  have hroot : P.root ∉ idsAll P.nodes := (List.nodup_cons.mp P.nodup).1
  have hwalk : Simulates (treeWalkCore preserve b fuel (headId P.nodes) (P.start db))
      (walkNodes preserve b (forgetAll P.nodes) (P.start db).args)
      (Reaped P.parent (P.start db) · P.root P.nodes) :=
    siblingsBuilt P.nodes fuel (P.start db) P.root _ (by omega) (P.around db)
  show Simulates (treeWalk preserve b (fuel + 1) P.root (P.start db)) _ _
  rw [← P.forgetAll_nodes, treeWalk, Call.bind_of_ok hread]
  cases hnodes : P.nodes with
  | nil =>
      rw [forgetAll, walkNodes]
      refine ⟨P.start db, rfl, rfl, rfl, trivial, ?_, fun _ _ => rfl, Noted.refl _⟩
      intro m hm
      cases hm
  | cons t ts =>
      rw [hnodes] at hwalk hroot
      rw [headId_cons] at hwalk
      rw [← Option.bind_fun_some (walkNodes preserve b (forgetAll (t :: ts)) (P.start db).args)]
      refine hwalk.bind fun s hreaped hargs => ?_
      have hcell : s.heap P.root = some ⟨none, none, headId P.nodes, lastId P.nodes, none⟩ := by
        rw [hreaped.same P.root hroot]
        exact P.rootCell
      have hlabel : s.args.current.label = .root := by
        rw [(walkNodes_built _ hargs).current]
        rfl
      have hget : (Call.get : Call Rc (WalkState σ) (WalkState σ)) s = some (.ok s s) := rfl
      rw [Call.bind_of_ok (onHeap_read hcell), lastChildHelper, Call.bind_of_ok hget, if_pos hlabel]
      exact ⟨s, rfl, rfl, hreaped⟩

theorem buildAst_eq : buildAst preserve b db P.input =
    (walkNodes preserve b (P.input.map .list) (P.start db).args).map fun args =>
      .node args.current.label args.current.children := by
  unfold buildAst ParseTree.start WalkState.start
  dsimp only
  cases walkNodes preserve b (P.input.map .list) ⟨db, ⟨.root, []⟩, [], fun _ => false⟩ with
  | none => rfl
  | some args => rfl

/-- The walk in memory ends as the builder of trees does, and with the same tree: the statements
of the input. It reads no node that was freed, `args->ast` is always the node of the list that
the walk is in, and of the parse nodes below the root only the lists at the root are left. -/
theorem cilBuildAst_mirrors : ∃ n, ∀ fuel, n ≤ fuel →
    (buildAst preserve b db P.input = none ∧
      ∃ s, cilBuildAst preserve b fuel db P.heap P.root = some (.failed .err s)) ∨
    ∃ s, cilBuildAst preserve b fuel db P.heap P.root = some (.ok () s) ∧
      buildAst preserve b db P.input = some s.ast ∧ s.ast = statements P.input ∧
      (∀ e ∈ s.calls, e.2 = P.parent e.1) ∧
      ∀ m ∈ idsAll P.nodes, (s.heap m).isSome = true ↔ m ∈ P.nodes.map Located.id := by
  refine ⟨3 * (idsAll P.nodes).length + 3, fun fuel hfuel => ?_⟩
  have hwalk := cilBuildAst_walk preserve b db P hfuel
  cases hspec : walkNodes preserve b (P.input.map .list) (P.start db).args with
  | none =>
      rw [hspec] at hwalk
      left
      refine ⟨?_, hwalk⟩
      rw [buildAst_eq, hspec]
      rfl
  | some args =>
      rw [hspec] at hwalk
      obtain ⟨s, hrun, rfl, hreaped⟩ := hwalk
      right
      have hast : buildAst preserve b db P.input = some s.ast := by
        rw [buildAst_eq, hspec]
        rfl
      refine ⟨s, hrun, hast, (buildAst_built hast).1, ?_, ?_⟩
      · intro e he
        obtain ⟨new, hcalls, hnew⟩ := hreaped.calls
        apply hnew
        rw [hcalls] at he
        exact he
      · intro m hm
        constructor
        · intro hthere
          by_contra hnot
          rw [hreaped.gone m hm hnot] at hthere
          cases hthere
        · intro htop
          obtain ⟨t, ht, rfl⟩ := List.mem_map.mp htop
          obtain ⟨next, hlinked⟩ := linked_of_mem hreaped.linked (List.mem_map_of_mem ht)
          obtain ⟨c, hc, -⟩ := linked_cell hlinked
          have hcell : s.heap t.id = some c := hc
          rw [hcell]
          rfl

end Building

end Cil.Build
