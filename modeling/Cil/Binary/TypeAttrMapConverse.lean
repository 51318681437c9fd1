/- Cil/Binary/TypeAttrMapConverse
   digest: The map from types to attributes is the converse of membership. -/

import Mathlib.Data.Fin.VecNotation
import Mathlib.Tactic.FinCases
import Cil.Binary.TypeAttrMapExact
import Cil.Post.NumberingFaithful

set_option autoImplicit false
set_option relaxedAutoImplicit false

namespace Cil.Binary.TypeAttrMap

open Cil.Library Cil.Resolve.Passes Cil.Resolve.Used Cil.Verify

section Policies

variable {ω μ γ δ τ α ι ξ ν ρ β : Type}

/-- A node, as far as the numbering of types goes. -/
def number (d : NodeData ω μ (Stmt τ α ι ξ)) : Cil.Post.Numbering.NodeData τ Empty :=
  match d.kind, d.stmt with
  | .macroDef, _ => .macroDef
  | .block isAbstract, _ => .block isAbstract
  | _, .type n t => .type n t
  | _, _ => .other

mutual

/-- A list of trees with other data in their nodes. -/
def mapSiblings {π π' : Type} (f : π → π') : List (Tree π) → List (Tree π')
  | [] => []
  | t :: ts => mapTree f t :: mapSiblings f ts

def mapTree {π π' : Type} (f : π → π') : Tree π → Tree π'
  | .node d children => .node (f d) (mapSiblings f children)

end

def isDecl : Stmt τ α ι ξ → Bool
  | .type _ _ | .typeattribute _ _ | .typealias _ _ => true
  | _ => false

/-- The nodes with a symbol table of their own. -/
def isSpace (d : NodeData ω μ (Stmt τ α ι ξ)) : Bool :=
  match d.kind with
  | .macroDef | .block _ => true
  | _ => false

/-- A policy that was resolved, and what `cil_post` adds to it for the types. The list `nodes` of a
type attribute has its declarations in the tree, which were inserted into one symbol table, and
those of another kind that the copier put over it. What a rule names as an attribute has one as
its first node. No declaration is a statement that may stand in a booleanif. -/
structure Policy (ω μ γ δ τ α ι ξ ν ρ β : Type) [DecidableEq ω] [DecidableEq μ] [DecidableEq τ]
    [DecidableEq α] where
  ops : RestOps ω μ γ δ τ α ι ξ ν ρ
  built : Config ω μ (Stmt τ α ι ξ) (Database τ α ι ν ρ)
  unfinished : built.Unfinished
  fuel : Nat
  config : Config ω μ (Stmt τ α ι ξ) (Database τ α ι ν ρ)
  resolved : resolveFrom (usedOps ops) fuel built = some (.ok, config)
  typeFqn : τ → String
  attrFqn : α → String
  aliasFqn : ι → String
  numbering : Cil.Post.Numbering.Database τ Empty
  numbering_ast : numbering.ast = .node .other (mapSiblings number config.ast)
  attrNodes : α → List Nat
  aliasNodes : ι → List Nat
  attrTypes : α → Option β
  actual : ι → Option τ
  mem_attrNodes : ∀ above d n a, (above, d) ∈ nodesOfSiblings [] config.ast →
    d.stmt = .typeattribute n a → n ∈ attrNodes a
  same_space : ∀ above d n above' d' n' a, (above, d) ∈ nodesOfSiblings [] config.ast →
    d.stmt = .typeattribute n a → (above', d') ∈ nodesOfSiblings [] config.ast →
    d'.stmt = .typeattribute n' a → above.filter isSpace = above'.filter isSpace
  decl_kind : ∀ above d, (above, d) ∈ nodesOfSiblings [] config.ast → isDecl d.stmt = true →
    d.kind = .other

namespace Policy

variable [DecidableEq ω] [DecidableEq μ] [DecidableEq τ] [DecidableEq α]
  (P : Policy ω μ γ δ τ α ι ξ ν ρ β)

/-- What the binary is created from. -/
def data : Data τ α ι β where
  typeFqn := P.typeFqn
  attrFqn := P.attrFqn
  aliasFqn := P.aliasFqn
  typeNodes := P.numbering.types.nodes
  attrNodes := P.attrNodes
  aliasNodes := P.aliasNodes
  used := P.config.db.used
  attrTypes := P.attrTypes
  valToType := (Cil.Post.Numbering.postDb P.numbering).valToType
  actual := P.actual

/-- `value` of a type. -/
def value : τ → Nat := (Cil.Post.Numbering.postDb P.numbering).types.value

/-- A type attribute is declared outside macros and abstract blocks. -/
def Outside (a : α) : Prop :=
  ∃ above d n, (above, d) ∈ nodesOfSiblings [] P.config.ast ∧ d.stmt = .typeattribute n a ∧
    ∀ x ∈ above, skipsHead x = false

/-- A type is declared outside macros and abstract blocks. -/
def TypeOutside (t : τ) : Prop :=
  ∃ n, (n, t) ∈ Cil.Post.Numbering.visitedDecls Cil.Post.Numbering.NodeData.typeDecl
    P.numbering.ast

/-- No type and no type attribute declared outside macros and abstract blocks has a node of
another kind. -/
structure Unshared : Prop where
  types : P.numbering.types.Unshared
  attributes : ∀ above d n a, (above, d) ∈ nodesOfSiblings [] P.config.ast →
    d.stmt = .typeattribute n a → (∀ x ∈ above, skipsHead x = false) → ∀ m ∈ P.attrNodes a,
      ∃ above' d', (above', d') ∈ nodesOfSiblings [] P.config.ast ∧ d'.stmt = .typeattribute m a

/-- The back end looks up the attribute by its name. -/
def LooksUp (a : α) : Prop :=
  ∃ d ∈ walkSiblings skipsHead P.config.ast, skipsHead d = false ∧
    .typeattribute a ∈ lookups P.config.db d.stmt

end Policy

end Policies

section Walks

variable {ω μ τ α ι ξ : Type}

private theorem mem_walkSiblings {π : Type} {skip : π → Bool} {ts : List (Tree π)} {d : π} :
    d ∈ walkSiblings skip ts ↔
      ∃ above, (above, d) ∈ nodesOfSiblings [] ts ∧ ∀ a ∈ above, skip a = false :=
  @Tree.mem_walk _ skip (.node d ts) d

mutual

private theorem walkSiblings_map {π π' : Type} (f : π → π') (skip : π' → Bool)
    (ts : List (Tree π)) :
    walkSiblings skip (mapSiblings f ts) = (walkSiblings (fun d => skip (f d)) ts).map f := by
  match ts with
  | [] => rfl
  | t :: ts =>
      rw [mapSiblings, walkSiblings, walkSiblings, List.map_append, walkNode_map f skip t,
        walkSiblings_map f skip ts]

private theorem walkNode_map {π π' : Type} (f : π → π') (skip : π' → Bool) (t : Tree π) :
    walkNode skip (mapTree f t) = (walkNode (fun d => skip (f d)) t).map f := by
  match t with
  | .node d children =>
      rw [mapTree, walkNode, walkNode, List.map_cons, walkSiblings_map f skip children]
      cases skip (f d) <;> rfl

end

/-- A visited node is one of those of the first tree, or of the others. -/
private theorem mem_walk_cons {skip : NodeData ω μ (Stmt τ α ι ξ) → Bool}
    {d x : NodeData ω μ (Stmt τ α ι ξ)} {children ts : List (Tree (NodeData ω μ (Stmt τ α ι ξ)))} :
    x ∈ walkSiblings skip (.node d children :: ts) ↔
      x = d ∨ skip d = false ∧ x ∈ walkSiblings skip children ∨ x ∈ walkSiblings skip ts := by
  rw [walkSiblings, walkNode, List.cons_append, List.mem_cons, List.mem_append]
  cases skip d <;> simp

/-- Below a booleanif only statements are visited that may stand there. -/
private theorem visited_allowed {inBoolif : Bool} {ts : List (Tree (NodeData ω μ (Stmt τ α ι ξ)))}
    (h : Allowed inBoolif ts) (hin : inBoolif = true) :
    ∀ d ∈ walkSiblings skipsHead ts, d.kind.allowedInBoolif = true := by
  induction h with
  | nil => exact fun d hd => (List.not_mem_nil hd).elim
  | cons hnode _ _ ihbelow ihrest =>
    intro x hx
    rcases mem_walk_cons.mp hx with heq | ⟨hhead, hx⟩ | hx
    · rw [heq]
      exact hnode hin
    · exact ihbelow hhead (by rw [hin, Bool.true_or]) x hx
    · exact ihrest hin x hx

/-- What may not stand in a booleanif is visited when the binary is created. -/
private theorem binary_visited {inBoolif : Bool} {ts : List (Tree (NodeData ω μ (Stmt τ α ι ξ)))}
    (h : Allowed inBoolif ts) {d : NodeData ω μ (Stmt τ α ι ξ)}
    (hd : d ∈ walkSiblings skipsHead ts) (hkind : d.kind.allowedInBoolif = false) :
    d ∈ walkSiblings binarySkips ts := by
  induction h with
  | nil => exact hd
  | @cons inBoolif d₀ children ts hnode hbelow hrest ihbelow ihrest =>
    rw [mem_walk_cons]
    rcases mem_walk_cons.mp hd with heq | ⟨hhead, hd⟩ | hd
    · exact Or.inl heq
    · by_cases hboolif : d₀.kind.isBooleanif = true
      · have hallowed := visited_allowed (hbelow hhead) (by rw [hboolif, Bool.or_true]) d hd
        rw [hkind] at hallowed
        cases hallowed
      · have hskips : binarySkips d₀ = false := by
          rw [binarySkips, hhead, Bool.false_or]
          exact Bool.eq_false_iff.mpr hboolif
        exact Or.inr (Or.inl ⟨hskips, ihbelow hhead hd⟩)
    · exact Or.inr (Or.inr (ihrest hd))

private theorem skipHead_number (d : NodeData ω μ (Stmt τ α ι ξ)) :
    (number d).skipHead = skipsHead d := by
  obtain ⟨kind, stmt⟩ := d
  cases kind with
  | macroDef => rfl
  | block isAbstract => rfl
  | _ => cases stmt <;> rfl

private theorem typeDecl_number {d : NodeData ω μ (Stmt τ α ι ξ)} {n : Nat} {t : τ}
    (h : (number d).typeDecl = some (n, t)) : d.stmt = .type n t ∧ skipsHead d = false := by
  obtain ⟨kind, stmt⟩ := d
  cases kind with
  | macroDef => cases h
  | block isAbstract => cases h
  | _ =>
    cases stmt with
    | type m u =>
      cases h
      exact ⟨rfl, rfl⟩
    | _ => cases h

end Walks

section Attributes

variable {ω μ γ δ τ α ι ξ ν ρ β ς : Type} [DecidableEq ω] [DecidableEq μ] [DecidableEq τ]
  [DecidableEq α] {P : Policy ω μ γ δ τ α ι ξ ν ρ β} {B : EnumBitmap β}
  {others : Others ω μ τ α ι ξ β ς}

/-- The type attributes that the back end looks up are used, and inserted; and when the policy is
created, the bits for a type are its own and those of the used attributes that it is in. -/
structure AttributesExist (P : Policy ω μ γ δ τ α ι ξ ν ρ β) (B : EnumBitmap β)
    (others : Others ω μ τ α ι ξ β ς) (rest : ς) : Prop where
  inserted : ∀ a, P.Outside a → P.LooksUp a → P.config.db.used a = true ∧
    ∀ pdb, binaryWalk B P.data others .first P.config.ast (.init rest) = some (.ok () pdb) →
      ∃ value, pdb.types.lookup (P.attrFqn a) = some value
  converse : ∀ pdb, binaryCreate B P.data others P.config.ast (.init rest) = some (.ok () pdb) →
    ∀ t, P.TypeOutside t → ∃ value map bits, pdb.types.lookup (P.typeFqn t) = some value ∧
      pdb.typeAttrMap = some map ∧ map[value - 1]? = some bits ∧
        ∀ k, B.getBit bits k = true ↔ k + 1 = value ∨
          ∃ a types, P.Outside a ∧ P.config.db.used a = true ∧
            pdb.types.lookup (P.attrFqn a) = some (k + 1) ∧ P.attrTypes a = some types ∧
              B.getBit types (P.value t) = true

namespace Policy

theorem allowed (P : Policy ω μ γ δ τ α ι ξ ν ρ β) : Allowed false P.config.ast :=
  (resolveFrom_marked P.unfinished P.resolved).2

/-- What the back end looks up is marked. -/
theorem LooksUp.used {a : α} (h : P.LooksUp a) : P.config.db.used a = true := by
  obtain ⟨d, hd, hhead, hmem⟩ := h
  exact (resolveFrom_marked P.unfinished P.resolved).1 d hd hhead _ hmem

/-- The kind of a declaration, and that it is visited. -/
private theorem decl_visited {d : NodeData ω μ (Stmt τ α ι ξ)}
    (hd : d ∈ walkSiblings skipsHead P.config.ast) (hdecl : isDecl d.stmt = true) :
    d ∈ walkSiblings binarySkips P.config.ast ∧ skipsHead d = false := by
  obtain ⟨above, hnode, -⟩ := mem_walkSiblings.mp hd
  have hkind := P.decl_kind above d hnode hdecl
  refine ⟨binary_visited P.allowed hd (by rw [hkind]; rfl), ?_⟩
  rw [skipsHead, hkind]
  rfl

/-- A used attribute that is declared outside macros and abstract blocks is inserted. -/
theorem Outside.inserted {a : α} (h : P.Outside a) (hunshared : P.Unshared)
    (hused : P.config.db.used a = true) : ∃ d ∈ walkSiblings binarySkips P.config.ast,
      TypeAttrMap.inserted P.data d = some (.inr a) := by
  obtain ⟨above, d, n, hnode, hstmt, habove⟩ := h
  have hn : n ∈ P.attrNodes a := P.mem_attrNodes above d n a hnode hstmt
  obtain ⟨m, rest, hnodes⟩ := List.exists_cons_of_ne_nil (List.ne_nil_of_mem hn)
  have hm : m ∈ P.attrNodes a := by
    rw [hnodes]
    exact List.mem_cons_self
  obtain ⟨above', d', hnode', hstmt'⟩ := hunshared.attributes above d n a hnode hstmt habove m hm
  have hspace := P.same_space _ _ _ _ _ _ _ hnode hstmt hnode' hstmt'
  have habove' : ∀ x ∈ above', skipsHead x = false := by
    intro x hx
    by_cases hsp : isSpace x = true
    · have hmem : x ∈ above.filter isSpace := by
        rw [hspace]
        exact List.mem_filter.mpr ⟨hx, hsp⟩
      exact habove x (List.mem_filter.mp hmem).1
    · unfold isSpace at hsp
      unfold skipsHead
      cases hk : x.kind with
      | macroDef =>
        rw [hk] at hsp
        exact absurd rfl hsp
      | block isAbstract =>
        rw [hk] at hsp
        exact absurd rfl hsp
      | _ => rfl
  have hdecl : isDecl d'.stmt = true := by
    rw [hstmt']
    rfl
  obtain ⟨hvisited, hhead⟩ := decl_visited (mem_walkSiblings.mpr ⟨above', hnode', habove'⟩) hdecl
  refine ⟨d', hvisited, ?_⟩
  rw [TypeAttrMap.inserted, hhead, hstmt']
  have hfirst : (P.data.attrNodes a).head? = some m := by
    show (P.attrNodes a).head? = some m
    rw [hnodes]
    rfl
  have hmarked : P.data.used a = true := hused
  simp [hfirst, hmarked]

open Cil.Post.Numbering in
private theorem visited_type {n : Nat} {t : τ}
    (h : (n, t) ∈ visitedDecls NodeData.typeDecl P.numbering.ast) :
    ∃ d ∈ walkSiblings skipsHead P.config.ast, d.stmt = .type n t := by
  obtain ⟨d', hd', hdecl⟩ := List.mem_filterMap.mp h
  rw [P.numbering_ast] at hd'
  have hwalk : d' ∈ walkSiblings NodeData.skipHead (mapSiblings number P.config.ast) := hd'
  rw [walkSiblings_map] at hwalk
  obtain ⟨d, hd, rfl⟩ := List.mem_map.mp hwalk
  have hskip :
      (fun x : Cil.Resolve.Passes.NodeData ω μ (Stmt τ α ι ξ) => (number x).skipHead) =
        skipsHead := by
    ext x
    exact skipHead_number x
  rw [hskip] at hd
  exact ⟨d, hd, (typeDecl_number hdecl).1⟩

open Cil.Post.Numbering in
/-- The types that are counted are inserted. -/
private theorem counted_inserted {t : τ}
    (h : t ∈ counted P.numbering.types.nodes
      (visitedDecls NodeData.typeDecl P.numbering.ast)) :
    ∃ d ∈ walkSiblings binarySkips P.config.ast,
      TypeAttrMap.inserted P.data d = some (.inl t) := by
  obtain ⟨n, hn, hfirst⟩ := mem_counted.mp h
  obtain ⟨d, hd, hstmt⟩ := visited_type hn
  have hdecl : isDecl d.stmt = true := by
    rw [hstmt]
    rfl
  obtain ⟨hvisited, hhead⟩ := decl_visited hd hdecl
  refine ⟨d, hvisited, ?_⟩
  have hfirst' : (P.data.typeNodes t).head? = some n := hfirst
  rw [TypeAttrMap.inserted, hhead, hstmt]
  simp [hfirst']

private theorem mem_keysOf {d : Cil.Resolve.Passes.NodeData ω μ (Stmt τ α ι ξ)} {x : τ ⊕ α}
    (hd : d ∈ walkSiblings binarySkips P.config.ast)
    (hx : TypeAttrMap.inserted P.data d = some x) :
    P.data.fqn x ∈ keysOf P.data P.config.ast :=
  List.mem_map.mpr ⟨x, List.mem_filterMap.mpr ⟨d, hd, hx⟩, rfl⟩

open Cil.Post.Numbering in
/-- An entry of `val_to_type` is a type that is inserted, at its value. -/
private theorem valToType_inserted (hunshared : P.Unshared) {p : Nat} {t : τ}
    (h : P.data.valToType p = some t) :
    P.value t = p ∧ ∃ d ∈ walkSiblings binarySkips P.config.ast,
      TypeAttrMap.inserted P.data d = some (.inl t) := by
  have harray : arrayOf P.numbering.types p = some t := by
    have hval : (postDb P.numbering).valToType p = some t := h
    rw [postDb_eq] at hval
    exact hval
  rcases foldl_store_some harray with hnone | ⟨hvalue, n, hn⟩
  · cases hnone
  · refine ⟨?_, counted_inserted (counted_of_visited hunshared.types hn)⟩
    rw [value, postDb_eq]
    exact hvalue

private theorem valToType_some (hunshared : P.Unshared) {p : Nat} {t : τ}
    (h : P.data.valToType p = some t) :
    P.value t = p ∧ P.typeFqn t ∈ keysOf P.data P.config.ast := by
  obtain ⟨hvalue, d, hd, hinserted⟩ := valToType_inserted hunshared h
  exact ⟨hvalue, mem_keysOf hd hinserted⟩

/-- When all keys are different, types with the same key are the same. -/
private theorem typeFqn_injective (hunshared : P.Unshared)
    (hnodup : (keysOf P.data P.config.ast).Nodup) {p q : Nat} {t u : τ}
    (ht : P.data.valToType p = some t) (hu : P.data.valToType q = some u)
    (h : P.typeFqn t = P.typeFqn u) : t = u := by
  obtain ⟨-, d, hd, hinserted⟩ := valToType_inserted hunshared ht
  obtain ⟨-, d', hd', hinserted'⟩ := valToType_inserted hunshared hu
  have hmem : .inl t ∈ (walkSiblings binarySkips P.config.ast).filterMap
      (TypeAttrMap.inserted P.data) := List.mem_filterMap.mpr ⟨d, hd, hinserted⟩
  have hmem' : .inl u ∈ (walkSiblings binarySkips P.config.ast).filterMap
      (TypeAttrMap.inserted P.data) := List.mem_filterMap.mpr ⟨d', hd', hinserted'⟩
  have heq : (Sum.inl t : τ ⊕ α) = .inl u := List.inj_on_of_nodup_map hnodup hmem hmem' h
  exact Sum.inl.inj heq

open Cil.Post.Numbering in
/-- A type that is declared outside macros and abstract blocks is inserted, and at its value. -/
theorem TypeOutside.inserted {t : τ} (h : P.TypeOutside t) (hunshared : P.Unshared) :
    P.data.valToType (P.value t) = some t ∧ P.typeFqn t ∈ keysOf P.data P.config.ast := by
  obtain ⟨n, hn⟩ := h
  have hcounted := counted_of_visited hunshared.types hn
  obtain ⟨d, hd, hinserted⟩ := counted_inserted hcounted
  refine ⟨?_, mem_keysOf hd hinserted⟩
  have hvalue : arrayOf P.numbering.types ((valuesOf P.numbering.types).value t) = some t :=
    valTo_of_counted hunshared.types hcounted
  show (postDb P.numbering).valToType ((postDb P.numbering).types.value t) = some t
  rw [postDb_eq]
  exact hvalue

/-- The attributes that the second walk deals with. -/
private theorem mem_dealtWith (hunshared : P.Unshared) {a : α} :
    a ∈ (walkSiblings binarySkips P.config.ast).filterMap (dealtWith P.data) ↔
      P.Outside a ∧ P.config.db.used a = true := by
  constructor
  · intro hmem
    obtain ⟨d, hd, hdealt⟩ := List.mem_filterMap.mp hmem
    obtain ⟨above, hnode, habove⟩ := mem_walkSiblings.mp hd
    unfold dealtWith TypeAttrMap.inserted at hdealt
    by_cases hskip : skipsHead d = true
    · rw [if_pos hskip] at hdealt
      cases hdealt
    · rw [if_neg hskip] at hdealt
      cases hstmt : d.stmt with
      | typeattribute n b =>
        simp only [hstmt] at hdealt
        split_ifs at hdealt with hboth
        · cases hdealt
          refine ⟨⟨above, d, n, hnode, hstmt, fun x hx => ?_⟩, hboth.2⟩
          have hskips := habove x hx
          rw [binarySkips, Bool.or_eq_false_iff] at hskips
          exact hskips.1
        · cases hdealt
      | type n t =>
        simp only [hstmt] at hdealt
        split_ifs at hdealt
        · cases hdealt
        · cases hdealt
      | _ =>
        simp only [hstmt] at hdealt
        cases hdealt
  · intro hboth
    obtain ⟨d, hd, hinserted⟩ := hboth.1.inserted hunshared hboth.2
    refine List.mem_filterMap.mpr ⟨d, hd, ?_⟩
    rw [dealtWith, hinserted]
    rfl

end Policy

end Attributes

section Domain

/-- `(allow domain httpd ..)`. -/
def domainRule : Avrule := ⟨0, .allowed, "domain", "httpd"⟩

/-- `(type httpd)`, `(typeattribute domain)` and the rule. -/
def domainAst : List (Tree (NodeData Unit Unit (Stmt Unit Unit Unit Unit))) :=
  [.node ⟨.other, .type 0 ()⟩ [], .node ⟨.other, .typeattribute 1 ()⟩ [],
    .node ⟨.conditional, .avrule domainRule⟩ []]

def domainOps : RestOps Unit Unit Unit Unit Unit Unit Unit Unit Unit Unit where
  resolveNode _ _ db := some (.ok, db)
  childrenDestroy _ db := db
  mergeOrders _ db := (.ok, db)
  resetOrders db := db
  verifyInitsids _ := .ok
  classpermsLists _ _ := []
  classperms _ _ := none
  resetClassperms _ db := db
  resetRest _ db := db
  classperms_resetClassperms _ _ := rfl
  classperms_resetRest _ _ := rfl
  classpermsLists_resetClassperms _ _ _ := rfl
  classpermsLists_resetRest _ _ _ := rfl
  lookupType _ _ name := some (.ok (if name = "domain" then .typeattribute () else .type ()))
  lookupOther _ _ _ _ := some (.error .enoent)
  before _ db := (none, db)
  after _ db := (none, db)

def domainBuilt : Config Unit Unit (Stmt Unit Unit Unit Unit) (Database Unit Unit Unit Unit Unit) :=
  ⟨afterCall1, domainAst, ⟨fun _ => false, fun _ => none, fun _ => none, fun _ => none, ()⟩,
    fun _ => true⟩

def domainConfig :
    Config Unit Unit (Stmt Unit Unit Unit Unit) (Database Unit Unit Unit Unit Unit) where
  remaining := []
  ast := domainAst
  db := {
    used := Function.update (fun _ => false) () true
    src := Function.update (fun _ => none) domainRule (some (.typeattribute ()))
    tgt := Function.update (fun _ => none) domainRule (some (.datum (.type ())))
    datumExpr := fun _ => none
    rest := () }
  enabled := fun _ => true

private theorem mem_domainAst {above : List (NodeData Unit Unit (Stmt Unit Unit Unit Unit))}
    {d : NodeData Unit Unit (Stmt Unit Unit Unit Unit)} :
    (above, d) ∈ nodesOfSiblings [] domainAst ↔ above = [] ∧
      (d = ⟨.other, .type 0 ()⟩ ∨ d = ⟨.other, .typeattribute 1 ()⟩ ∨
        d = ⟨.conditional, .avrule domainRule⟩) := by
  show (above, d) ∈ [([], (⟨.other, .type 0 ()⟩ : NodeData Unit Unit (Stmt Unit Unit Unit Unit))),
    ([], ⟨.other, .typeattribute 1 ()⟩), ([], ⟨.conditional, .avrule domainRule⟩)] ↔ _
  simp only [List.mem_cons, List.not_mem_nil, or_false, Prod.mk.injEq, ← and_or_left]

private theorem mem_domainNodes {above : List (Cil.Post.Numbering.NodeData Unit Empty)}
    {d : Cil.Post.Numbering.NodeData Unit Empty} :
    (above, d) ∈ nodesOfSiblings [] (mapSiblings number domainAst) ↔
      above = [] ∧ (d = .type 0 () ∨ d = .other) := by
  show (above, d) ∈ [([], Cil.Post.Numbering.NodeData.type 0 ()), ([], .other), ([], .other)] ↔ _
  simp only [List.mem_cons, List.not_mem_nil, or_false, Prod.mk.injEq, ← and_or_left, or_self]

/-- No roles. -/
def noRoles {τ : Type} (ast : Tree (Cil.Post.Numbering.NodeData τ Empty)) :
    Cil.Post.Numbering.Declared Cil.Post.Numbering.NodeData.roleDecl
      Cil.Post.Numbering.NodeData.roles ast where
  nodes _ := []
  space _ := []
  initial _ := 0
  distinct := by
    have hnone : ∀ d : Cil.Post.Numbering.NodeData τ Empty, d.roleDecl.map Prod.fst = none := by
      intro d
      cases hrole : d.roleDecl with
      | none => rfl
      | some p => exact p.2.elim
    rw [List.filterMap_eq_nil_iff.mpr fun n _ => hnone n.2]
    exact List.nodup_nil
  mem_nodes _ _ _ x := x.elim
  same_space _ _ _ x := x.elim
  alive _ _ _ x := x.elim

def domainNumbering : Cil.Post.Numbering.Database Unit Empty where
  ast := .node .other (mapSiblings number domainAst)
  types := {
    nodes := fun _ => [0]
    space := fun _ => []
    initial := fun _ => 0
    distinct := by decide
    mem_nodes := by
      intro above d n x hnode hdecl
      rcases (mem_domainNodes.mp hnode).2 with rfl | rfl
      · cases hdecl
        exact List.mem_cons_self
      · cases hdecl
    same_space := by
      intro above d n x hnode _
      rw [(mem_domainNodes.mp hnode).1]
      rfl
    alive := by
      intro above d hnode x hx
      rcases (mem_domainNodes.mp hnode).2 with rfl | rfl
      · cases hx
      · cases hx }
  roles := noRoles _

/-- The attribute has the type; it is used by the rule only. -/
def domainPolicy : Policy Unit Unit Unit Unit Unit Unit Unit Unit Unit Unit (Finset Nat) where
  ops := domainOps
  built := domainBuilt
  unfinished := unfinished_afterCall1 _ _ _
  fuel := 8
  config := domainConfig
  resolved := rfl
  typeFqn _ := "httpd"
  attrFqn _ := "domain"
  aliasFqn _ := ""
  numbering := domainNumbering
  numbering_ast := rfl
  attrNodes _ := [1]
  aliasNodes _ := []
  attrTypes _ := some {0}
  actual _ := none
  mem_attrNodes := by
    intro above d n a hnode hstmt
    rcases (mem_domainAst.mp hnode).2 with rfl | rfl | rfl
    · cases hstmt
    · cases hstmt
      exact List.mem_cons_self
    · cases hstmt
  same_space := by
    intro above d n above' d' n' a h _ h' _
    rw [(mem_domainAst.mp h).1, (mem_domainAst.mp h').1]
  decl_kind := by
    intro above d hnode hdecl
    rcases (mem_domainAst.mp hnode).2 with rfl | rfl | rfl
    · rfl
    · rfl
    · cases hdecl

private theorem domain_outside : domainPolicy.Outside () :=
  ⟨[], ⟨.other, .typeattribute 1 ()⟩, 1, mem_domainAst.mpr ⟨rfl, Or.inr (Or.inl rfl)⟩, rfl,
    fun _ hx => (List.not_mem_nil hx).elim⟩

private theorem domain_looksUp : domainPolicy.LooksUp () :=
  ⟨⟨.conditional, .avrule domainRule⟩, mem_walkSiblings.mpr ⟨[], mem_domainAst.mpr
    ⟨rfl, Or.inr (Or.inr rfl)⟩, fun _ hx => (List.not_mem_nil hx).elim⟩, rfl, by
      show Cil.Resolve.Used.TypeDatum.typeattribute () ∈ [.typeattribute (), .type ()]
      exact List.mem_cons_self⟩

private theorem domain_typeOutside : domainPolicy.TypeOutside () := ⟨0, List.mem_cons_self⟩

private theorem domain_unshared : domainPolicy.Unshared where
  types := by
    intro n x _ m hm
    obtain rfl := List.mem_singleton.mp hm
    exact ⟨[], .type 0 (), mem_domainNodes.mpr ⟨rfl, Or.inl rfl⟩, rfl⟩
  attributes := by
    intro _ _ _ _ _ _ _ m hm
    obtain rfl := List.mem_singleton.mp hm
    exact ⟨[], _, mem_domainAst.mpr ⟨rfl, Or.inr (Or.inl rfl)⟩, rfl⟩

/-- Finite sets, whose positions are sought up to the largest. -/
def setEnumBitmap : EnumBitmap (Finset Nat) where
  toBitmap := finsetBitmap
  positions b := (List.range (b.sup id + 1)).filter (· ∈ b)
  mem_positions b i := by
    have hle : i ∈ b → i < b.sup id + 1 := fun hi => by
      have hsup : id i ≤ b.sup id := Finset.le_sup hi
      exact Nat.lt_succ_of_le hsup
    simp only [List.mem_filter, List.mem_range, finsetBitmap, decide_eq_true_eq]
    exact ⟨fun h => h.2, fun h => ⟨hle h, h⟩⟩

/-- Nothing else is in the policy. -/
def noOthers : Others Unit Unit Unit Unit Unit Unit (Finset Nat) Unit := fun _ _ _ => .ok () ()

def domainPdb : Pdb (Finset Nat) Unit :=
  ⟨[("httpd", 1), ("domain", 2)], 2, some [{1, 0}, {1}], ()⟩

/-- The policy after the first walk. -/
def domainNamed : Pdb (Finset Nat) Unit := { domainPdb with typeAttrMap := none }

private theorem domain_created : binaryCreate setEnumBitmap domainPolicy.data noOthers
    domainPolicy.config.ast (.init ()) = some (.ok () domainPdb) := rfl

end Domain

section Shared

local instance threeTypes : @NeZero Nat Zero.ofOfNat0 3 := ⟨Nat.succ_ne_zero 2⟩

local instance twoAttributes : @NeZero Nat Zero.ofOfNat0 2 := ⟨Nat.succ_ne_zero 1⟩

/-- `(allow a t ..)`. -/
def sharedRule : Avrule := ⟨0, .allowed, "a", "t"⟩

/-- `(type u)`, `(typeattribute t)`, `(macro m () (type t))` with a call that puts its type over the
attribute, `(typeattribute a)`, `(typeattributeset a (u))` and the rule. -/
def sharedAst : List (Tree (NodeData Unit Unit (Stmt (Fin 3) (Fin 2) Empty Unit))) :=
  [.node ⟨.other, .type 0 0⟩ [], .node ⟨.other, .typeattribute 1 0⟩ [],
    .node ⟨.macroDef, .other ()⟩ [.node ⟨.other, .type 2 1⟩ []],
    .node ⟨.call (), .other ()⟩ [.node ⟨.other, .type 3 2⟩ []],
    .node ⟨.other, .typeattribute 4 1⟩ [], .node ⟨.other, .other ()⟩ [],
    .node ⟨.conditional, .avrule sharedRule⟩ []]

def sharedOps : RestOps Unit Unit Unit Unit (Fin 3) (Fin 2) Empty Unit Unit Unit where
  resolveNode _ _ db := some (.ok, db)
  childrenDestroy _ db := db
  mergeOrders _ db := (.ok, db)
  resetOrders db := db
  verifyInitsids _ := .ok
  classpermsLists _ _ := []
  classperms _ _ := none
  resetClassperms _ db := db
  resetRest _ db := db
  classperms_resetClassperms _ _ := rfl
  classperms_resetRest _ _ := rfl
  classpermsLists_resetClassperms _ _ _ := rfl
  classpermsLists_resetRest _ _ _ := rfl
  lookupType _ _ name := some (.ok (
    if name = "t" then .typeattribute 0 else if name = "a" then .typeattribute 1 else .type 0))
  lookupOther _ _ _ _ := some (.error .enoent)
  before _ db := (none, db)
  after _ db := (none, db)

def sharedConfig :
    Config Unit Unit (Stmt (Fin 3) (Fin 2) Empty Unit)
      (Database (Fin 3) (Fin 2) Empty Unit Unit) where
  remaining := []
  ast := sharedAst
  db := {
    used := Function.update (Function.update (fun _ => false) 1 true) 0 true
    src := Function.update (fun _ => none) sharedRule (some (.typeattribute 1))
    tgt := Function.update (fun _ => none) sharedRule (some (.datum (.typeattribute 0)))
    datumExpr := fun _ => none
    rest := () }
  enabled := fun _ => true

private theorem nodes_sharedAst : nodesOfSiblings [] sharedAst =
    [([], ⟨.other, .type 0 0⟩), ([], ⟨.other, .typeattribute 1 0⟩), ([], ⟨.macroDef, .other ()⟩),
      ([⟨.macroDef, .other ()⟩], ⟨.other, .type 2 1⟩), ([], ⟨.call (), .other ()⟩),
      ([⟨.call (), .other ()⟩], ⟨.other, .type 3 2⟩), ([], ⟨.other, .typeattribute 4 1⟩),
      ([], ⟨.other, .other ()⟩), ([], ⟨.conditional, .avrule sharedRule⟩)] := rfl

private theorem nodes_sharedNumbering :
    (Tree.node .other (mapSiblings number sharedAst)).nodes =
      [([], .type 0 0), ([], .other), ([], .macroDef), ([.macroDef], .type 2 1), ([], .other),
        ([.other], .type 3 2), ([], .other), ([], .other), ([], .other)] := rfl

/-- The datum of the attribute `t` is also that of the type; its own node comes first. -/
def sharedNumbering : Cil.Post.Numbering.Database (Fin 3) Empty where
  ast := .node .other (mapSiblings number sharedAst)
  types := {
    nodes := ![[0], [2], [1, 3]]
    space := ![[], [.macroDef], []]
    initial := fun _ => 0
    distinct := by decide
    mem_nodes := by
      intro above d n x hnode hdecl
      rw [nodes_sharedNumbering] at hnode
      fin_cases hnode <;> cases hdecl <;> decide
    same_space := by
      intro above d n x hnode hdecl
      rw [nodes_sharedNumbering] at hnode
      fin_cases hnode <;> cases hdecl <;> rfl
    alive := by
      intro above d hnode x hx
      rw [nodes_sharedNumbering] at hnode
      fin_cases hnode <;> cases hx }
  roles := noRoles _

def sharedPolicy :
    Policy Unit Unit Unit Unit (Fin 3) (Fin 2) Empty Unit Unit Unit (Finset Nat) where
  ops := sharedOps
  built := ⟨afterCall1, sharedAst,
    ⟨fun _ => false, fun _ => none, fun _ => none, fun _ => none, ()⟩, fun _ => true⟩
  unfinished := unfinished_afterCall1 _ _ _
  fuel := 8
  config := sharedConfig
  resolved := rfl
  typeFqn := !["u", "m.t", "t"]
  attrFqn := !["t", "a"]
  aliasFqn := Empty.elim
  numbering := sharedNumbering
  numbering_ast := rfl
  attrNodes := ![[1, 3], [4]]
  aliasNodes := Empty.elim
  attrTypes := ![some ∅, some {0}]
  actual := Empty.elim
  mem_attrNodes := by
    intro above d n a hnode hstmt
    rw [show sharedConfig.ast = sharedAst from rfl, nodes_sharedAst] at hnode
    fin_cases hnode <;> cases hstmt <;> decide
  same_space := by
    intro above d n above' d' n' a hnode hstmt hnode' hstmt'
    rw [show sharedConfig.ast = sharedAst from rfl, nodes_sharedAst] at hnode hnode'
    fin_cases hnode <;> cases hstmt <;> fin_cases hnode' <;> cases hstmt' <;> rfl
  decl_kind := by
    intro above d hnode hdecl
    rw [show sharedConfig.ast = sharedAst from rfl, nodes_sharedAst] at hnode
    fin_cases hnode <;> first | rfl | cases hdecl

/-- Nothing else is in the policy. -/
def noOthersShared : Others Unit Unit (Fin 3) (Fin 2) Empty Unit (Finset Nat) Unit :=
  fun _ _ _ => .ok () ()

/-- The bit of `a` is in the entry of `t`. -/
def sharedPdb : Pdb (Finset Nat) Unit :=
  ⟨[("u", 1), ("t", 2), ("a", 3)], 3, some [{0}, {2, 1}, {2}], ()⟩

/-- The policy after the first walk. -/
def sharedNamed : Pdb (Finset Nat) Unit := { sharedPdb with typeAttrMap := none }

private theorem shared_created : binaryCreate setEnumBitmap sharedPolicy.data noOthersShared
    sharedPolicy.config.ast (.init ()) = some (.ok () sharedPdb) := by
  have hfirst : binaryWalk setEnumBitmap sharedPolicy.data noOthersShared .first
      sharedPolicy.config.ast (.init ()) = some (.ok () sharedNamed) := rfl
  have hsecond : binaryWalk setEnumBitmap sharedPolicy.data noOthersShared .second
      sharedPolicy.config.ast sharedNamed = some (.ok () sharedPdb) := rfl
  have hthird : binaryWalk setEnumBitmap sharedPolicy.data noOthersShared .third
      sharedPolicy.config.ast sharedPdb = some (.ok () sharedPdb) := rfl
  rw [binaryCreate, Call.bind_of_ok hfirst, Call.bind_of_ok hsecond, Call.bind_of_ok hthird]
  rfl

end Shared

end Cil.Binary.TypeAttrMap
