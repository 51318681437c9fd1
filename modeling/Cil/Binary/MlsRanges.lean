/- Cil/Binary/MlsRanges
   digest: The levels and ranges of a binary policy, and which of them are valid there. -/

import Cil.Binary.OrderedSymbols
import Cil.Binary.ValArraysExact
import Cil.Library.Bitmap
import Cil.Library.Call
import Cil.Verify.Levels

set_option autoImplicit false
set_option relaxedAutoImplicit false

namespace Cil.Binary.MlsRanges

open Library
open ValArrays (SymtabLib Symbol search)
open OrderedSymbols
open Verify (Cats Level LevelRange Sensitivities WellFormed verifyLevelrange)

/-- An entry of `cats->datum_expr`. -/
inductive CatItem (κ : Type)
  | cat (c : κ)
  | catset (cats : Cats κ)
  deriving DecidableEq, Repr

/-- `mls_level_t`. -/
structure MlsLevel (β : Type) where
  sens : Nat
  cat : β

/-- `mls_range_t`. -/
structure MlsRange (β : Type) where
  low : MlsLevel β
  high : MlsLevel β

/-- What a policy has of sensitivities and categories: the symbols, and the level and the flag
`defined` of the sensitivities. -/
structure Pdb (T β : Type) where
  cats : T
  levels : T
  level : String → MlsLevel β
  defined : String → Bool

/-- The orders of sensitivities and categories, both complete, and the qualified names. -/
structure Source (σ κ : Type) where
  sensitivities : Sensitivities σ κ
  catorder : List κ
  ordered : ∀ c, c ∈ catorder
  sensName : σ → String
  catName : κ → String

/-- The nodes of the first pass that declare levels or categories. -/
inductive PassNode (σ : Type)
  | catalias (fqn actual : String)
  | sens (s : σ)
  deriving DecidableEq, Repr

section Code

variable {T β σ κ : Type} (L : SymtabLib T) (B : Bitmap β) (S : Source σ κ)

def Pdb.init : Pdb T β where
  cats := L.empty
  levels := L.empty
  level _ := ⟨0, B.init⟩
  defined _ := false

/-- A turn of the loop of `cil_catorder_to_policydb`. -/
def catorderTurn (c : κ) : Call Rc (Pdb T β) Unit :=
  Call.get >>= fun p =>
  Call.orFail .eexist (L.insert p.cats (S.catName c)) >>= fun cats =>
  Call.modify fun p => { p with cats := cats }

/-- A turn of the loop of `cil_sensitivityorder_to_policydb`. -/
def sensitivityorderTurn (s : σ) : Call Rc (Pdb T β) Unit :=
  Call.get >>= fun p =>
  Call.orFail .eexist (L.insert p.levels (S.sensName s)) >>= fun levels =>
  Call.modify fun p => { p with
    levels := levels
    level := Function.update p.level (S.sensName s) ⟨L.nprim p.levels + 1, B.init⟩ }

/-- `cil_catalias_to_policydb`. -/
def cilCataliasToPolicydb (fqn actual : String) : Call Rc (Pdb T β) Unit :=
  Call.get >>= fun p =>
  Call.orFail .err (search L p.cats actual) >>= fun sepolCat =>
  Call.orFail .eexist (L.insertAlias p.cats fqn sepolCat.value) >>= fun cats =>
  Call.modify fun p => { p with cats := cats }

/-- The bit of a category that is looked up in the policy. -/
def setCategory (p : Pdb T β) (c : κ) : Call Rc β Unit :=
  Call.orFail .err (search L p.cats (S.catName c)) >>= fun sepolCat =>
  Call.modify fun bits => B.setBit bits (sepolCat.value - 1)

/-- An entry of the list, which a category set has in its own list. -/
def setCatItem (p : Pdb T β) : CatItem κ → Call Rc β Unit
  | .cat c => setCategory L B S p c
  | .catset cats => Call.orCrash cats >>= Call.forEach (setCategory L B S p)

/-- `__cil_cats_to_mls_level`, on the bitmap of the level. -/
def cilCatsToMlsLevel (p : Pdb T β) (items : Option (List (CatItem κ))) : Call Rc β Unit :=
  Call.orCrash items >>= Call.forEach (setCatItem L B S p)

/-- The list of categories, after post-processing. -/
def items (cats : Cats κ) : Option (List (CatItem κ)) := cats.map (List.map .cat)

/-- Other categories of a level. -/
def Pdb.setBits (fqn : String) (bits : β) (p : Pdb T β) : Pdb T β :=
  { p with level := Function.update p.level fqn ⟨(p.level fqn).sens, bits⟩ }

/-- `cil_sepol_level_define`. -/
def cilSepolLevelDefine (s : σ) : Call Rc (Pdb T β) Unit :=
  Call.get >>= fun p =>
  Call.orFail .err (search L p.levels (S.sensName s)) >>= fun _ =>
  Call.modify (Pdb.setBits (S.sensName s) B.init) >>= fun _ =>
  Call.onPart (fun p => (p.level (S.sensName s)).cat) (Pdb.setBits (S.sensName s))
    (Call.forEach (fun cats => cilCatsToMlsLevel L B S p (items cats))
      ((S.sensitivities.catsList s).getD [])) >>= fun _ =>
  Call.modify fun p => { p with defined := Function.update p.defined (S.sensName s) true }

/-- The first pass of `__cil_node_to_policydb`, with MLS. -/
def firstPass : PassNode σ → Call Rc (Pdb T β) Unit
  | .catalias fqn actual => cilCataliasToPolicydb L fqn actual
  | .sens s => cilSepolLevelDefine L B S s

/-- What the policy is when the first pass has ended. -/
def createMls (nodes : List (PassNode σ)) : Call Rc (Pdb T β) Unit :=
  Call.forEach (catorderTurn L S) S.catorder >>= fun _ =>
  Call.forEach (sensitivityorderTurn L B S) S.sensitivities.order >>= fun _ =>
  Call.forEach (firstPass L B S) nodes

/-- `cil_level_to_mls_level`. -/
def cilLevelToMlsLevel (p : Pdb T β) (l : Level σ κ) : Call Rc (MlsLevel β) Unit :=
  Call.orFail .err (search L p.levels (S.sensName l.sens)) >>= fun _ =>
  Call.modify (fun _ => ⟨(p.level (S.sensName l.sens)).sens, B.init⟩) >>= fun _ =>
  match l.cats with
  | none => pure ()
  | some cats => Call.onPart MlsLevel.cat (fun bits m => { m with cat := bits })
      (cilCatsToMlsLevel L B S p (items cats))

/-- `__cil_levelrange_to_mls_range`. -/
def cilLevelrangeToMlsRange (p : Pdb T β) (r : LevelRange σ κ) : Call Rc (MlsRange β) Unit :=
  Call.onPart MlsRange.low (fun m range => { range with low := m })
    (cilLevelToMlsLevel L B S p r.low) >>= fun _ =>
  Call.onPart MlsRange.high (fun m range => { range with high := m })
    (cilLevelToMlsLevel L B S p r.high)

end Code

section Validity

variable {T β : Type} (L : SymtabLib T) (B : Bitmap β) (p : Pdb T β)

/-- What the policy library takes as a valid level: the sensitivity is there, and all categories
are there and were associated with it. -/
def LevelValid (l : MlsLevel β) : Prop :=
  1 ≤ l.sens ∧ l.sens ≤ L.nprim p.levels ∧
    ∃ fqn, (fqn, ⟨l.sens, false⟩) ∈ L.entries p.levels ∧
      ∀ i, B.getBit l.cat i = true → i < L.nprim p.cats ∧ B.getBit (p.level fqn).cat i = true

/-- A valid range: the high level dominates the low one. -/
structure RangeValid (r : MlsRange β) : Prop where
  low : LevelValid L B p r.low
  high : LevelValid L B p r.high
  sens : r.low.sens ≤ r.high.sens
  cats : ∀ i, B.getBit r.low.cat i = true → B.getBit r.high.cat i = true

end Validity

section Creation

variable {T β σ κ : Type} {L : SymtabLib T} {B : Bitmap β} {S : Source σ κ}

/-- The names of the ordered categories and sensitivities. -/
def Source.catNames (S : Source σ κ) : List String := S.catorder.map S.catName

def Source.sensNames (S : Source σ κ) : List String := S.sensitivities.order.map S.sensName

private theorem catorder_run (cs : List κ) {p p' : Pdb T β} {names : List String}
    (hnames : HasNames L p.cats names)
    (hrun : Call.forEach (catorderTurn L S) cs p = some (.ok () p')) :
    HasNames L p'.cats (names ++ cs.map S.catName) ∧ p'.levels = p.levels ∧ p'.level = p.level := by
  induction cs generalizing p names with
  | nil =>
      cases hrun
      rw [List.map_nil, List.append_nil]
      exact ⟨hnames, rfl, rfl⟩
  | cons c cs ih =>
      obtain ⟨⟨⟩, p₁, hturn, hrest⟩ := Call.bind_ok hrun
      obtain ⟨cats, hinsert, hend⟩ := Call.orFail_ok hturn
      cases hend
      obtain ⟨hcats, hlevels, hlevel⟩ := ih (hnames.insert hinsert) hrest
      rw [List.append_assoc] at hcats
      exact ⟨hcats, hlevels, hlevel⟩

/-- The sensitivities so far are the levels of the policy, with their numbers. -/
structure Levels (L : SymtabLib T) (p : Pdb T β) (names : List String) : Prop where
  has : HasNames L p.levels names
  only : OnlyNames L p.levels names
  sens : ∀ e ∈ L.entries p.levels, (p.level e.1).sens = e.2.value

private theorem sensitivityorder_run (ss : List σ) {p p' : Pdb T β} {names : List String}
    (hlevels : Levels L p names)
    (hrun : Call.forEach (sensitivityorderTurn L B S) ss p = some (.ok () p')) :
    Levels L p' (names ++ ss.map S.sensName) ∧ p'.cats = p.cats := by
  induction ss generalizing p names with
  | nil =>
      cases hrun
      rw [List.map_nil, List.append_nil]
      exact ⟨hlevels, rfl⟩
  | cons s ss ih =>
      obtain ⟨⟨⟩, p₁, hturn, hrest⟩ := Call.bind_ok hrun
      obtain ⟨levels, hinsert, hend⟩ := Call.orFail_ok hturn
      cases hend
      have hperm := (L.entries_insert p.levels (S.sensName s) levels hinsert).1
      have hkeys := (hperm.map Prod.fst).nodup_iff.mp (L.keys_nodup levels)
      obtain ⟨hfresh, -⟩ := List.nodup_cons.mp hkeys
      have hnext : Levels L { p with
          levels := levels
          level := Function.update p.level (S.sensName s) ⟨L.nprim p.levels + 1, B.init⟩ }
          (names ++ [S.sensName s]) := by
        refine ⟨hlevels.has.insert hinsert, hlevels.only.insert hlevels.has hinsert, ?_⟩
        intro e he
        rcases List.mem_cons.mp (hperm.mem_iff.mp he) with heq | hold
        · rw [heq]
          dsimp only
          rw [Function.update_self]
        · have hne : e.1 ≠ S.sensName s := by
            intro heq
            have hmem : e.1 ∈ (L.entries p.levels).map Prod.fst := List.mem_map_of_mem hold
            rw [heq] at hmem
            exact hfresh hmem
          dsimp only
          rw [Function.update_of_ne hne]
          exact hlevels.sens e hold
      obtain ⟨hall, hcats⟩ := ih hnext hrest
      rw [List.append_assoc] at hall
      exact ⟨hall, hcats⟩

end Creation

section Categories

variable {T β σ κ : Type} {L : SymtabLib T} {B : Bitmap β} {S : Source σ κ} {p : Pdb T β}

private theorem catNames_eq {i : Nat} {c : κ} (h : S.catorder[i]? = some c) :
    S.catNames[i]? = some (S.catName c) := by
  rw [Source.catNames, List.getElem?_map, h]
  rfl

/-- A category is in one place of the order only, when the policy has all of them. -/
private theorem place_unique (hcats : HasNames L p.cats S.catNames) {i j : Nat} {c : κ}
    (hi : S.catorder[i]? = some c) (hj : S.catorder[j]? = some c) : i = j :=
  hcats.unique (catNames_eq hi) (catNames_eq hj)

/-- The bits for the places of the categories are added. -/
structure AddsBits (B : Bitmap β) (S : Source σ κ) (cats : κ → Prop) (b b' : β) : Prop where
  bits : ∀ i, B.getBit b' i = true ↔
    B.getBit b i = true ∨ ∃ c, cats c ∧ S.catorder[i]? = some c

private theorem setCategory_run (hcats : HasNames L p.cats S.catNames) (c : κ) (b : β) :
    ∃ b', setCategory L B S p c b = some (.ok () b') ∧ AddsBits B S (fun c' => c' = c) b b' := by
  obtain ⟨i, hi⟩ := List.mem_iff_getElem?.mp (S.ordered c)
  have hsearch := search_of_mem (hcats.entry i (S.catName c) (catNames_eq hi))
  refine ⟨B.setBit b i, ?_, ?_⟩
  · unfold setCategory
    rw [hsearch]
    rfl
  · constructor
    intro j
    rw [B.getBit_setBit, Bool.or_eq_true, decide_eq_true_iff]
    constructor
    · intro h
      rcases h with hold | heq
      · exact Or.inl hold
      · rw [heq]
        exact Or.inr ⟨c, rfl, hi⟩
    · intro h
      rcases h with hold | ⟨c', heq, hj⟩
      · exact Or.inl hold
      · rw [heq] at hj
        exact Or.inr (place_unique hcats hj hi)

theorem AddsBits.trans {cats cats' : κ → Prop} {b₁ b₂ b₃ : β} (h : AddsBits B S cats b₁ b₂)
    (h' : AddsBits B S cats' b₂ b₃) : AddsBits B S (fun c => cats c ∨ cats' c) b₁ b₃ where
  bits i := by
    rw [h'.bits, h.bits, or_assoc]
    apply or_congr_right
    constructor
    · intro hany
      rcases hany with ⟨c, hc, hi⟩ | ⟨c, hc, hi⟩
      · exact ⟨c, Or.inl hc, hi⟩
      · exact ⟨c, Or.inr hc, hi⟩
    · intro hany
      obtain ⟨c, hc, hi⟩ := hany
      rcases hc with hc | hc
      · exact Or.inl ⟨c, hc, hi⟩
      · exact Or.inr ⟨c, hc, hi⟩

theorem AddsBits.of_iff {cats cats' : κ → Prop} {b b' : β} (h : AddsBits B S cats b b')
    (hiff : ∀ c, cats c ↔ cats' c) : AddsBits B S cats' b b' where
  bits i := by
    rw [h.bits]
    simp only [hiff]

private theorem addsBits_none (b : β) : AddsBits B S (fun _ => False) b b where
  bits i := by simp

/-- A list of categories that is not null. -/
private theorem cilCatsToMlsLevel_run (hcats : HasNames L p.cats S.catNames) (cs : List κ) (b : β) :
    ∃ b', cilCatsToMlsLevel L B S p (items (some cs)) b = some (.ok () b') ∧
      AddsBits B S (fun c => c ∈ cs) b b' := by
  show ∃ b', Call.forEach (setCatItem L B S p) (cs.map .cat) b = some (.ok () b') ∧ _
  induction cs generalizing b with
  | nil => exact ⟨b, rfl, (addsBits_none b).of_iff fun c => by simp⟩
  | cons c cs ih =>
      obtain ⟨b₁, hfirst, hbits₁⟩ := setCategory_run (B := B) hcats c b
      obtain ⟨b₂, hrest, hbits₂⟩ := ih b₁
      have hloop : Call.forEach (setCatItem L B S p) ((c :: cs).map .cat) b =
          Call.forEach (setCatItem L B S p) (cs.map .cat) b₁ := Call.bind_of_ok hfirst
      exact ⟨b₂, hloop.trans hrest, (hbits₁.trans hbits₂).of_iff fun c' => List.mem_cons.symm⟩

/-- The categories of all lists, none of which is null when the loop comes to its end. -/
private theorem lists_run (hcats : HasNames L p.cats S.catNames) (lists : List (Cats κ)) {b b' : β}
    (hrun : Call.forEach (fun cats => cilCatsToMlsLevel L B S p (items cats)) lists b =
      some (.ok () b')) :
    AddsBits B S (fun c => ∃ cs, some cs ∈ lists ∧ c ∈ cs) b b' := by
  induction lists generalizing b with
  | nil =>
      cases hrun
      exact (addsBits_none b').of_iff fun c => by simp
  | cons cats lists ih =>
      obtain ⟨⟨⟩, b₁, hfirst, hrest⟩ := Call.bind_ok hrun
      cases cats with
      | none => cases hfirst
      | some cs =>
          obtain ⟨b₂, hcall, hbits⟩ := cilCatsToMlsLevel_run (B := B) hcats cs b
          have hsame := hcall.symm.trans hfirst
          cases hsame
          refine (hbits.trans (ih hrest)).of_iff fun c => ?_
          constructor
          · intro h
            rcases h with hc | ⟨ds, hds, hc⟩
            · exact ⟨cs, List.mem_cons_self, hc⟩
            · exact ⟨ds, List.mem_cons_of_mem _ hds, hc⟩
          · intro h
            obtain ⟨ds, hds, hc⟩ := h
            rcases List.mem_cons.mp hds with heq | hds
            · cases heq
              exact Or.inl hc
            · exact Or.inr ⟨ds, hds, hc⟩

end Categories

section Passes

variable {T β σ κ : Type} {L : SymtabLib T} {B : Bitmap β} {S : Source σ κ}

@[simp] theorem setBits_self (fqn : String) (bits : β) (p : Pdb T β) :
    (Pdb.setBits fqn bits p).level fqn = ⟨(p.level fqn).sens, bits⟩ := Function.update_self ..

private theorem setBits_other {fqn fqn' : String} (h : fqn' ≠ fqn) (bits : β) (p : Pdb T β) :
    (Pdb.setBits fqn bits p).level fqn' = p.level fqn' := Function.update_of_ne h ..

theorem sensNames_eq {i : Nat} {s : σ} (h : S.sensitivities.order[i]? = some s) :
    S.sensNames[i]? = some (S.sensName s) := by
  rw [Source.sensNames, List.getElem?_map, h]
  rfl

/-- Names tell sensitivities apart that the policy has. -/
private theorem sensName_inj {p : Pdb T β} (hlevels : Levels L p S.sensNames) {s s' : σ}
    (h : S.sensName s = S.sensName s') : s = s' := by
  obtain ⟨i, hi⟩ := List.mem_iff_getElem?.mp (S.sensitivities.ordered s)
  obtain ⟨j, hj⟩ := List.mem_iff_getElem?.mp (S.sensitivities.ordered s')
  have hname := sensNames_eq hi
  rw [h] at hname
  have hplace := hlevels.has.unique hname (sensNames_eq hj)
  rw [hplace, hj] at hi
  exact (Option.some.inj hi).symm

/-- The level of the sensitivity has the categories that were associated with it. -/
def Defined (B : Bitmap β) (S : Source σ κ) (p : Pdb T β) (s : σ) : Prop :=
  ∀ i, B.getBit (p.level (S.sensName s)).cat i = true ↔
    ∃ c, Verify.Associated S.sensitivities s c ∧ S.catorder[i]? = some c

/-- What holds between two nodes of the first pass. -/
structure Passed (L : SymtabLib T) (B : Bitmap β) (S : Source σ κ) (p : Pdb T β)
    (nodes : List (PassNode σ)) : Prop where
  cats : HasNames L p.cats S.catNames
  levels : Levels L p S.sensNames
  defined : ∀ s, .sens s ∈ nodes → Defined B S p s

private theorem associated_iff_lists (s : σ) (c : κ) : Verify.Associated S.sensitivities s c ↔
    ∃ cs, some cs ∈ (S.sensitivities.catsList s).getD [] ∧ c ∈ cs := by
  unfold Verify.Associated
  cases hlists : S.sensitivities.catsList s with
  | none => simp
  | some lists => simp

private theorem catalias_run {p p' : Pdb T β} {nodes : List (PassNode σ)} (h : Passed L B S p nodes)
    {fqn actual : String}
    (hrun : (cilCataliasToPolicydb L fqn actual : Call Rc (Pdb T β) Unit) p = some (.ok () p')) :
    Passed L B S p' (.catalias fqn actual :: nodes) := by
  obtain ⟨sym, -, hrun⟩ := Call.orFail_ok hrun
  obtain ⟨cats, hinsert, hend⟩ := Call.orFail_ok hrun
  cases hend
  have hlevels : Levels L { p with cats := cats } S.sensNames :=
    ⟨h.levels.has, h.levels.only, h.levels.sens⟩
  refine ⟨h.cats.insertAlias hinsert, hlevels, fun s hs => ?_⟩
  rcases List.mem_cons.mp hs with heq | hs
  · cases heq
  · exact h.defined s hs

private theorem define_run {p p' : Pdb T β} {nodes : List (PassNode σ)} (h : Passed L B S p nodes)
    {s : σ} (hrun : cilSepolLevelDefine L B S s p = some (.ok () p')) :
    Passed L B S p' (.sens s :: nodes) := by
  obtain ⟨_, -, hrun⟩ := Call.orFail_ok hrun
  obtain ⟨⟨⟩, p₀, hinit, hrun⟩ := Call.bind_ok hrun
  cases hinit
  obtain ⟨⟨⟩, p₁, hpart, hend⟩ := Call.bind_ok hrun
  obtain ⟨b, hlists, hp₁⟩ := Call.onPart_ok hpart
  rw [setBits_self] at hlists
  have hbits := lists_run h.cats _ hlists
  have hself : p'.level (S.sensName s) = ⟨(p.level (S.sensName s)).sens, b⟩ := by
    cases hend
    rw [hp₁]
    simp
  have hother : ∀ fqn, fqn ≠ S.sensName s → p'.level fqn = p.level fqn := by
    intro fqn hne
    cases hend
    rw [hp₁]
    dsimp only
    rw [setBits_other hne, setBits_other hne]
  have htables : p'.cats = p.cats ∧ p'.levels = p.levels := by
    cases hend
    rw [hp₁]
    exact ⟨rfl, rfl⟩
  refine ⟨?_, ⟨?_, ?_, fun e he => ?_⟩, fun s' hs' => ?_⟩
  · rw [htables.1]
    exact h.cats
  · rw [htables.2]
    exact h.levels.has
  · rw [htables.2]
    exact h.levels.only
  · rw [htables.2] at he
    by_cases hname : e.1 = S.sensName s
    · rw [hname, hself, ← hname]
      exact h.levels.sens e he
    · rw [hother e.1 hname]
      exact h.levels.sens e he
  · intro j
    by_cases hsame : s' = s
    · subst hsame
      rw [hself, hbits.bits, B.getBit_init]
      simp only [Bool.false_eq_true, false_or, associated_iff_lists]
    · have hne : S.sensName s' ≠ S.sensName s := fun heq => hsame (sensName_inj h.levels heq)
      rw [hother _ hne]
      rcases List.mem_cons.mp hs' with heq | hs'
      · cases heq
        exact absurd rfl hsame
      · exact h.defined s' hs' j

private theorem firstPass_run (rest : List (PassNode σ)) {p p' : Pdb T β}
    {nodes : List (PassNode σ)} (h : Passed L B S p nodes)
    (hrun : Call.forEach (firstPass L B S) rest p = some (.ok () p')) :
    Passed L B S p' (rest.reverse ++ nodes) := by
  induction rest generalizing p nodes with
  | nil =>
      cases hrun
      exact h
  | cons node rest ih =>
      obtain ⟨⟨⟩, p₁, hnode, hrest⟩ := Call.bind_ok hrun
      have hpassed : Passed L B S p₁ (node :: nodes) := by
        cases node with
        | catalias fqn actual => exact catalias_run h hnode
        | sens s => exact define_run h hnode
      have hall := ih hpassed hrest
      rw [List.reverse_cons, List.append_assoc]
      exact hall

/-- The policy after the first pass has the categories and sensitivities in their order, and the
levels of the declared sensitivities their categories. -/
theorem createMls_passed {nodes : List (PassNode σ)} {p : Pdb T β}
    (hrun : createMls L B S nodes (Pdb.init L B) = some (.ok () p)) :
    Passed L B S p nodes := by
  obtain ⟨⟨⟩, p₁, hcatorder, hrun⟩ := Call.bind_ok hrun
  obtain ⟨⟨⟩, p₂, hsensorder, hpass⟩ := Call.bind_ok hrun
  obtain ⟨hcats, hlevels₁, hlevel₁⟩ := catorder_run S.catorder hasNames_empty hcatorder
  have hstart : Levels L p₁ [] := by
    have hempty : p₁.levels = L.empty := hlevels₁
    constructor
    · rw [hempty]
      exact hasNames_empty
    · rw [hempty]
      exact onlyNames_empty
    · intro e he
      rw [hempty, L.entries_empty] at he
      cases he
  obtain ⟨hlevels, hcats₂⟩ := sensitivityorder_run S.sensitivities.order hstart hsensorder
  rw [← hcats₂] at hcats
  have hnone : Passed L B S p₂ [] := ⟨hcats, hlevels, fun s hs => absurd hs List.not_mem_nil⟩
  have hall := firstPass_run nodes hnone hpass
  rw [List.append_nil] at hall
  exact ⟨hall.cats, hall.levels, fun s hs => hall.defined s (List.mem_reverse.mpr hs)⟩

end Passes

section Ranges

variable {T β σ κ : Type} [DecidableEq σ] {L : SymtabLib T} {B : Bitmap β} {S : Source σ κ}
  {p : Pdb T β} {nodes : List (PassNode σ)}

/-- The level of the policy that stands for a level of the source. -/
structure Represents (B : Bitmap β) (S : Source σ κ) (m : MlsLevel β) (l : Level σ κ) : Prop where
  sens : m.sens = S.sensitivities.position l.sens + 1
  cats : ∀ i, B.getBit m.cat i = true ↔ ∃ c ∈ l.categories, S.catorder[i]? = some c

theorem getElem_position (s : σ) :
    S.sensitivities.order[S.sensitivities.position s]? = some s := by
  have hlt := List.idxOf_lt_length_of_mem (S.sensitivities.ordered s)
  rw [Sensitivities.position, List.getElem?_eq_getElem hlt, List.getElem_idxOf]

/-- A level whose list of categories is not null is converted. -/
theorem cilLevelToMlsLevel_run (h : Passed L B S p nodes) {l : Level σ κ}
    (hcats : l.cats ≠ some none) (m : MlsLevel β) :
    ∃ m', cilLevelToMlsLevel L B S p l m = some (.ok () m') ∧ Represents B S m' l := by
  have hplace := sensNames_eq (getElem_position (S := S) l.sens)
  have hentry := h.levels.has.entry _ _ hplace
  have hsearch := search_of_mem hentry
  have hsens := h.levels.sens _ hentry
  unfold cilLevelToMlsLevel
  rw [hsearch]
  cases hl : l.cats with
  | none =>
      refine ⟨⟨(p.level (S.sensName l.sens)).sens, B.init⟩, rfl, hsens, fun i => ?_⟩
      simp [B.getBit_init, Level.categories, hl]
  | some cats =>
      cases cats with
      | none => exact absurd hl hcats
      | some cs =>
          obtain ⟨b, hrun, hbits⟩ := cilCatsToMlsLevel_run (B := B) h.cats cs B.init
          refine ⟨⟨(p.level (S.sensName l.sens)).sens, b⟩, ?_, hsens, fun i => ?_⟩
          · have hcall : Call.onPart MlsLevel.cat (fun bits m => { m with cat := bits })
                (cilCatsToMlsLevel L B S p (items (some cs)))
                ⟨(p.level (S.sensName l.sens)).sens, B.init⟩ =
                  some (.ok () ⟨(p.level (S.sensName l.sens)).sens, b⟩) := by
              unfold Call.onPart
              rw [hrun]
            exact hcall
          · show B.getBit b i = true ↔ _
            rw [hbits.bits, B.getBit_init, Level.categories, hl]
            simp

/-- The level is valid if its categories were associated with its sensitivity. -/
private theorem Represents.valid_iff (h : Passed L B S p nodes) {m : MlsLevel β} {l : Level σ κ}
    (hrep : Represents B S m l) (hdeclared : .sens l.sens ∈ nodes) :
    LevelValid L B p m ↔ ∀ c ∈ l.categories, Verify.Associated S.sensitivities l.sens c := by
  have hplace := sensNames_eq (getElem_position (S := S) l.sens)
  have hlt := (List.getElem?_eq_some_iff.mp hplace).1
  have hdefined := h.defined l.sens hdeclared
  constructor
  · intro hvalid c hc
    obtain ⟨-, -, fqn, hentry, hbits⟩ := hvalid
    obtain ⟨j, hj, hsym⟩ := h.levels.only _ hentry
    have hvalue : m.sens = j + 1 := congrArg Symbol.value hsym
    have hsens := hrep.sens
    have hsame : j = S.sensitivities.position l.sens := by omega
    have hname : fqn = S.sensName l.sens := by
      rw [hsame, hplace] at hj
      exact (Option.some.inj hj).symm
    obtain ⟨i, hi⟩ := List.mem_iff_getElem?.mp (S.ordered c)
    have hset := (hrep.cats i).mpr ⟨c, hc, hi⟩
    have hlevel := (hbits i hset).2
    rw [hname] at hlevel
    obtain ⟨c', hassociated, hi'⟩ := (hdefined i).mp hlevel
    rw [hi] at hi'
    obtain rfl := Option.some.inj hi'
    exact hassociated
  · intro hassociated
    have hsens := hrep.sens
    have hnprim := h.levels.has.nprim
    refine ⟨by omega, by omega, S.sensName l.sens, ?_, fun i hi => ?_⟩
    · rw [hsens]
      exact h.levels.has.entry _ _ hplace
    · obtain ⟨c, hc, hplaced⟩ := (hrep.cats i).mp hi
      have hbound := (List.getElem?_eq_some_iff.mp (catNames_eq hplaced)).1
      have hcount := h.cats.nprim
      exact ⟨by omega, (hdefined i).mpr ⟨c, hassociated c hc, hplaced⟩⟩

/-- Both levels are valid, and the high one dominates the low one, just when that holds of the
levels of the source. -/
theorem rangeValid_iff (h : Passed L B S p nodes) {m : MlsRange β} {r : LevelRange σ κ}
    (hlow : Represents B S m.low r.low) (hhigh : Represents B S m.high r.high)
    (hdeclaredLow : .sens r.low.sens ∈ nodes) (hdeclaredHigh : .sens r.high.sens ∈ nodes) :
    RangeValid L B p m ↔ WellFormed S.sensitivities r := by
  have hvalidLow := hlow.valid_iff h hdeclaredLow
  have hvalidHigh := hhigh.valid_iff h hdeclaredHigh
  have hsensLow := hlow.sens
  have hsensHigh := hhigh.sens
  constructor
  · intro hvalid
    refine ⟨⟨?_, fun c hc => ?_⟩, hvalidLow.mp hvalid.low, hvalidHigh.mp hvalid.high⟩
    · have hle := hvalid.sens
      omega
    · obtain ⟨i, hi⟩ := List.mem_iff_getElem?.mp (S.ordered c)
      have hset := hvalid.cats i ((hlow.cats i).mpr ⟨c, hc, hi⟩)
      obtain ⟨c', hc', hi'⟩ := (hhigh.cats i).mp hset
      rw [hi] at hi'
      obtain rfl := Option.some.inj hi'
      exact hc'
  · intro hformed
    have hle := hformed.dominated.sens
    refine ⟨hvalidLow.mpr hformed.low, hvalidHigh.mpr hformed.high, by omega, fun i hi => ?_⟩
    obtain ⟨c, hc, hplaced⟩ := (hlow.cats i).mp hi
    exact (hhigh.cats i).mpr ⟨c, hformed.dominated.cats c hc, hplaced⟩

private theorem cilLevelrangeToMlsRange_run (h : Passed L B S p nodes) {r : LevelRange σ κ}
    (hlow : r.low.cats ≠ some none) (hhigh : r.high.cats ≠ some none) (m : MlsRange β) :
    ∃ m', cilLevelrangeToMlsRange L B S p r m = some (.ok () m') ∧
      Represents B S m'.low r.low ∧ Represents B S m'.high r.high := by
  obtain ⟨low, hrunLow, hrepLow⟩ := cilLevelToMlsLevel_run h hlow m.low
  obtain ⟨high, hrunHigh, hrepHigh⟩ := cilLevelToMlsLevel_run h hhigh m.high
  have hfirst : Call.onPart MlsRange.low (fun m range => { range with low := m })
      (cilLevelToMlsLevel L B S p r.low) m = some (.ok () { m with low := low }) := by
    unfold Call.onPart
    rw [hrunLow]
  have hsecond : Call.onPart MlsRange.high (fun m range => { range with high := m })
      (cilLevelToMlsLevel L B S p r.high) { m with low := low } = some (.ok () ⟨low, high⟩) := by
    unfold Call.onPart
    dsimp only
    rw [hrunHigh]
  exact ⟨⟨low, high⟩, (Call.bind_of_ok hfirst).trans hsecond, hrepLow, hrepHigh⟩

/-- A range between declared sensitivities is converted to a range that the policy library takes
as valid if and only if it is well-formed; what the verification accepts is. -/
theorem levelrange_valid_iff [DecidableEq κ]
    (hcreate : createMls L B S nodes (Pdb.init L B) = some (.ok () p)) (r : LevelRange σ κ)
    (hlow : .sens r.low.sens ∈ nodes) (hhigh : .sens r.high.sens ∈ nodes) (m : MlsRange β) :
    (r.low.cats ≠ some none → r.high.cats ≠ some none →
      ∃ m', cilLevelrangeToMlsRange L B S p r m = some (.ok () m') ∧
        (RangeValid L B p m' ↔ WellFormed S.sensitivities r)) ∧
    (verifyLevelrange S.sensitivities r = some .ok →
      ∃ m', cilLevelrangeToMlsRange L B S p r m = some (.ok () m') ∧ RangeValid L B p m') := by
  have hpassed := createMls_passed hcreate
  constructor
  · intro hcatsLow hcatsHigh
    obtain ⟨m', hrun, hrepLow, hrepHigh⟩ := cilLevelrangeToMlsRange_run hpassed hcatsLow hcatsHigh m
    exact ⟨m', hrun, rangeValid_iff hpassed hrepLow hrepHigh hlow hhigh⟩
  · intro hverified
    obtain ⟨hformed, hreadable⟩ := Verify.verifyLevelrange_ok.mp hverified
    have hlist {l : Level σ κ} (hl : l.Readable S.sensitivities) : l.cats ≠ some none := by
      intro hnull
      obtain ⟨list, -, hcats, -⟩ := hl none hnull
      cases hcats
    obtain ⟨m', hrun, hrepLow, hrepHigh⟩ :=
      cilLevelrangeToMlsRange_run hpassed (hlist hreadable.low) (hlist hreadable.high) m
    exact ⟨m', hrun, (rangeValid_iff hpassed hrepLow hrepHigh hlow hhigh).mpr hformed⟩

/-- One sensitivity with one category. -/
def oneLevel : Source Unit Unit where
  sensitivities :=
    { order := [()]
      catsList := fun _ => some [some [()]]
      nodup := List.nodup_singleton ()
      ordered := fun _ => List.mem_singleton_self () }
  catorder := [()]
  ordered := fun _ => List.mem_singleton_self ()
  sensName _ := "s0"
  catName _ := "c0"

/-- `((s0) (s0 (c0)))`. -/
def oneLevelRange : LevelRange Unit Unit := ⟨false, ⟨(), none⟩, ⟨(), some (some [()])⟩⟩

theorem oneLevelRange_valid : ∃ p,
    createMls ValArrays.listedLib finsetBitmap oneLevel [.catalias "a" "c0", .sens ()]
      (Pdb.init ValArrays.listedLib finsetBitmap) = some (.ok () p) ∧
    ∀ m, (∃ m',
      cilLevelrangeToMlsRange ValArrays.listedLib finsetBitmap oneLevel p oneLevelRange m =
        some (.ok () m') ∧ (RangeValid ValArrays.listedLib finsetBitmap p m' ↔
          WellFormed oneLevel.sensitivities oneLevelRange)) := by
  obtain ⟨p, hp⟩ : ∃ p, createMls ValArrays.listedLib finsetBitmap oneLevel
      [.catalias "a" "c0", .sens ()] (Pdb.init ValArrays.listedLib finsetBitmap) =
        some (.ok () p) := ⟨_, rfl⟩
  refine ⟨p, hp, fun m => ?_⟩
  have hdeclared : PassNode.sens () ∈ [PassNode.catalias "a" "c0", .sens ()] :=
    List.mem_cons_of_mem _ (List.mem_singleton_self _)
  exact (levelrange_valid_iff hp oneLevelRange hdeclared hdeclared m).1 (by decide) (by decide)

end Ranges

end Cil.Binary.MlsRanges
