/- Cil/Binary/TypeAttrMapExact
   digest: The bits that the walks put into the map from types to attributes. -/

import Cil.Binary.TypeAttrMap

set_option autoImplicit false
set_option relaxedAutoImplicit false

namespace Cil.Binary.TypeAttrMap

open Cil.Library Cil.Resolve.Passes Cil.Resolve.Used Cil.Verify

section Keys

/-- The value of a key, when the keys are inserted in this order. -/
def find (keys : List String) (key : String) : Option Nat := (keys.zipIdx 1).lookup key

theorem lookup_zipIdx_of_mem {keys : List String} {key : String} (h : key ∈ keys) (n : Nat) :
    ∃ value, (keys.zipIdx n).lookup key = some value := by
  induction keys generalizing n with
  | nil => cases h
  | cons first keys ih =>
    rw [List.zipIdx_cons, List.lookup_cons]
    by_cases heq : (key == first) = true
    · rw [heq]
      exact ⟨n, rfl⟩
    · rw [Bool.eq_false_iff.mpr heq]
      refine ih ((List.mem_cons.mp h).resolve_left fun hkey => heq ?_) (n + 1)
      rw [hkey]
      exact beq_self_eq_true first

private theorem lookup_zipIdx_some {keys : List String} {key : String} {n value : Nat}
    (h : (keys.zipIdx n).lookup key = some value) :
    n ≤ value ∧ keys[value - n]? = some key := by
  induction keys generalizing n with
  | nil => cases h
  | cons first keys ih =>
    rw [List.zipIdx_cons, List.lookup_cons] at h
    by_cases heq : (key == first) = true
    · rw [heq] at h
      cases h
      rw [Nat.sub_self, eq_of_beq heq]
      exact ⟨Nat.le_refl _, rfl⟩
    · rw [Bool.eq_false_iff.mpr heq] at h
      obtain ⟨hle, hkey⟩ := ih h
      have hsub : value - n = value - (n + 1) + 1 := by omega
      rw [hsub, List.getElem?_cons_succ]
      exact ⟨by omega, hkey⟩

theorem find_of_mem {keys : List String} {key : String} (h : key ∈ keys) :
    ∃ value, find keys key = some value := lookup_zipIdx_of_mem h 1

theorem find_some {keys : List String} {key : String} {value : Nat}
    (h : find keys key = some value) : 1 ≤ value ∧ value ≤ keys.length ∧ key ∈ keys := by
  obtain ⟨hle, hkey⟩ := lookup_zipIdx_some h
  obtain ⟨hlt, -⟩ := List.getElem?_eq_some_iff.mp hkey
  exact ⟨hle, by omega, List.mem_of_getElem? hkey⟩

/-- Different keys have different values. -/
theorem find_injective {keys : List String} {key key' : String} {value : Nat}
    (h : find keys key = some value) (h' : find keys key' = some value) : key = key' := by
  have hkey := (lookup_zipIdx_some h).2
  rw [(lookup_zipIdx_some h').2] at hkey
  exact (Option.some.inj hkey).symm

end Keys

section First

variable {ω μ τ α ι ξ β ρ : Type} {B : EnumBitmap β} {D : Data τ α ι β}
  {others : Others ω μ τ α ι ξ β ρ}

/-- What the first walk inserts for a node. -/
def inserted (D : Data τ α ι β) (d : NodeData ω μ (Stmt τ α ι ξ)) : Option (τ ⊕ α) :=
  if skipsHead d = true then none
  else
    match d.stmt with
    | .type n t => if (D.typeNodes t).head? = some n then some (.inl t) else none
    | .typeattribute n a =>
        if (D.attrNodes a).head? = some n ∧ D.used a = true then some (.inr a) else none
    | _ => none

def Data.fqn (D : Data τ α ι β) : τ ⊕ α → String
  | .inl t => D.typeFqn t
  | .inr a => D.attrFqn a

/-- The keys were inserted, each once. -/
structure Table (keys : List String) (pdb : Pdb β ρ) : Prop where
  types : pdb.types = keys.zipIdx 1
  nprim : pdb.nprim = keys.length
  nodup : keys.Nodup

private theorem symtabInsert_ok {keys : List String} {key : String} {pdb pdb' : Pdb β ρ}
    (h : Table keys pdb) (hrun : symtabInsert key pdb = some (.ok () pdb')) :
    Table (keys ++ [key]) pdb' ∧ pdb'.typeAttrMap = pdb.typeAttrMap := by
  unfold symtabInsert at hrun
  split at hrun
  · cases hrun
  · rename_i hnone
    cases hrun
    refine ⟨⟨?_, ?_, ?_⟩, rfl⟩
    · show pdb.types ++ [(key, pdb.nprim + 1)] = (keys ++ [key]).zipIdx 1
      rw [h.types, h.nprim, List.zipIdx_append, Nat.add_comm]
      rfl
    · show pdb.nprim + 1 = (keys ++ [key]).length
      rw [h.nprim, List.length_append, List.length_singleton]
    · have hkey : key ∉ keys := by
        intro hmem
        obtain ⟨value, hvalue⟩ := lookup_zipIdx_of_mem hmem 1
        rw [h.types, hvalue] at hnone
        cases hnone
      rw [List.nodup_append]
      refine ⟨h.nodup, List.nodup_singleton key, ?_⟩
      intro a ha b hb heq
      rw [List.mem_singleton] at hb
      rw [heq, hb] at ha
      exact hkey ha

private theorem other_ok {phase : Phase} {d : Option (NodeData ω μ (Stmt τ α ι ξ))}
    {pdb pdb' : Pdb β ρ} (h : other others phase d pdb = some (.ok () pdb')) :
    pdb'.types = pdb.types ∧ pdb'.nprim = pdb.nprim ∧ pdb'.typeAttrMap = pdb.typeAttrMap := by
  unfold other at h
  split at h
  · cases h
    exact ⟨rfl, rfl, rfl⟩
  · cases h
  · cases h

theorem Table.of_eq {keys : List String} {pdb pdb' : Pdb β ρ} (h : Table keys pdb)
    (htypes : pdb'.types = pdb.types) (hnprim : pdb'.nprim = pdb.nprim) : Table keys pdb' :=
  ⟨htypes.trans h.types, hnprim.trans h.nprim, h.nodup⟩

private theorem first_step {d : NodeData ω μ (Stmt τ α ι ξ)} {keys : List String}
    {pdb pdb' : Pdb β ρ}
    (h : Table keys pdb) (hrun : binaryCreateHelper B D others .first d pdb = some (.ok () pdb')) :
    Table (keys ++ ((inserted D d).map D.fqn).toList) pdb' ∧
      pdb'.typeAttrMap = pdb.typeAttrMap := by
  have hnothing : ∀ p : Pdb β ρ, some (Returned.ok (ε := Rc) () pdb) = some (.ok () p) →
      Table (keys ++ []) p ∧ p.typeAttrMap = pdb.typeAttrMap := by
    intro p heq
    cases heq
    rw [List.append_nil]
    exact ⟨h, rfl⟩
  have hother : ∀ p : Pdb β ρ, other others .first (some d) pdb = some (.ok () p) →
      Table (keys ++ []) p ∧ p.typeAttrMap = pdb.typeAttrMap := by
    intro p hp
    obtain ⟨htypes, hnprim, hmap⟩ := other_ok hp
    rw [List.append_nil]
    exact ⟨h.of_eq htypes hnprim, hmap⟩
  unfold binaryCreateHelper at hrun
  unfold inserted
  by_cases hskip : skipsHead d = true
  · rw [if_pos hskip] at hrun ⊢
    exact hnothing pdb' hrun
  · rw [if_neg hskip] at hrun ⊢
    obtain ⟨kind, stmt⟩ := d
    unfold nodeToPolicydb at hrun
    cases stmt with
    | type n t =>
      dsimp only at hrun ⊢
      split_ifs at hrun ⊢ with hhead
      · exact symtabInsert_ok h hrun
      · exact hnothing pdb' hrun
    | typeattribute n a =>
      dsimp only at hrun ⊢
      split_ifs at hrun with hhead
      · unfold typeattributeToPolicydb at hrun
        split_ifs at hrun with hused
        · rw [if_neg (by simp [hused])]
          exact hnothing pdb' hrun
        · rw [if_pos ⟨hhead, by simpa using hused⟩]
          exact symtabInsert_ok h hrun
      · rw [if_neg (fun hboth => hhead hboth.1)]
        exact hnothing pdb' hrun
    | typealias n x =>
      dsimp only at hrun
      split_ifs at hrun with hhead
      · exact hnothing pdb' hrun
      · exact hnothing pdb' hrun
    | _ => exact hother pdb' hrun

/-- The first walk. -/
theorem first_walk {ds : List (NodeData ω μ (Stmt τ α ι ξ))} {keys : List String}
    {pdb pdb' : Pdb β ρ} (h : Table keys pdb)
    (hrun : processAll (binaryCreateHelper B D others .first) ds pdb = some (.ok () pdb')) :
    Table (keys ++ (ds.filterMap (inserted D)).map D.fqn) pdb' ∧
      pdb'.typeAttrMap = pdb.typeAttrMap := by
  induction ds generalizing keys pdb with
  | nil =>
    cases hrun
    rw [List.filterMap_nil, List.map_nil, List.append_nil]
    exact ⟨h, rfl⟩
  | cons d ds ih =>
    obtain ⟨u, pdb₁, hd, hds⟩ := Call.bind_ok hrun
    obtain ⟨htable, hmap⟩ := first_step h hd
    obtain ⟨htable', hmap'⟩ := ih htable hds
    refine ⟨?_, hmap'.trans hmap⟩
    cases hinserted : inserted D d with
    | none =>
      rw [List.filterMap_cons_none hinserted]
      rw [hinserted, Option.map_none, Option.toList_none, List.append_nil] at htable'
      exact htable'
    | some x =>
      rw [List.filterMap_cons_some hinserted, List.map_cons]
      rw [hinserted, Option.map_some, Option.toList_some, List.append_assoc] at htable'
      exact htable'

end First

section Second

variable {ω μ τ α ι ξ β ρ : Type} {B : EnumBitmap β} {D : Data τ α ι β}
  {others : Others ω μ τ α ι ξ β ρ}

/-- Aliases may have come after the keys. -/
structure Extended (keys : List String) (pdb : Pdb β ρ) : Prop where
  types : ∃ aliases, pdb.types = keys.zipIdx 1 ++ aliases
  nprim : pdb.nprim = keys.length

theorem Extended.lookup {keys : List String} {pdb : Pdb β ρ} (h : Extended keys pdb) {key : String}
    (hkey : key ∈ keys) : pdb.types.lookup key = find keys key := by
  obtain ⟨aliases, htypes⟩ := h.types
  obtain ⟨value, hvalue⟩ := find_of_mem hkey
  have hlookup : (keys.zipIdx 1).lookup key = some value := hvalue
  rw [htypes, List.lookup_append, hlookup, hvalue]
  rfl

theorem Extended.getSepolTypeDatum {keys : List String} {pdb pdb' : Pdb β ρ}
    (h : Extended keys pdb) {key : String} (hkey : key ∈ keys) {value : Nat}
    (hrun : TypeAttrMap.getSepolTypeDatum key pdb = some (.ok value pdb')) :
    find keys key = some value ∧ pdb' = pdb := by
  unfold TypeAttrMap.getSepolTypeDatum at hrun
  rw [h.lookup hkey] at hrun
  split at hrun
  · rename_i v hv
    cases hrun
    exact ⟨hv, rfl⟩
  · cases hrun

/-- The bit of the attribute is due in the entry of a type. -/
def Given (B : EnumBitmap β) (D : Data τ α ι β) (keys : List String) (a : α) (i k : Nat) : Prop :=
  find keys (D.attrFqn a) = some (k + 1) ∧ ∃ types p t, D.attrTypes a = some types ∧
    B.getBit types p = true ∧ D.valToType p = some t ∧ find keys (D.typeFqn t) = some (i + 1)

/-- The entries of the map have these bits. -/
def Bits (B : EnumBitmap β) (keys : List String) (bit : Nat → Nat → Prop) (map : List β) : Prop :=
  map.length = keys.length ∧
    ∀ i bits, map[i]? = some bits → ∀ k, B.getBit bits k = true ↔ bit i k

private theorem setTypeAttr_ok {keys : List String} {bit : Nat → Nat → Prop} {type value : Nat}
    {pdb pdb' : Pdb β ρ} {map : List β} (hmap : pdb.typeAttrMap = some map)
    (h : Bits B keys bit map) (hrun : setTypeAttr B type value pdb = some (.ok () pdb')) :
    pdb'.types = pdb.types ∧ pdb'.nprim = pdb.nprim ∧ ∃ map', pdb'.typeAttrMap = some map' ∧
      Bits B keys (fun i k => bit i k ∨ i = type - 1 ∧ k = value - 1) map' := by
  unfold setTypeAttr at hrun
  rw [hmap] at hrun
  dsimp only at hrun
  cases hentry : map[type - 1]? with
  | none =>
    rw [hentry] at hrun
    cases hrun
  | some bits =>
    rw [hentry] at hrun
    cases hrun
    refine ⟨rfl, rfl, _, rfl, ?_, fun i bits' hbits' k => ?_⟩
    · rw [List.length_set]
      exact h.1
    · rw [List.getElem?_set] at hbits'
      by_cases heq : type - 1 = i
      · subst heq
        obtain ⟨hlt, -⟩ := List.getElem?_eq_some_iff.mp hentry
        rw [if_pos rfl, if_pos hlt] at hbits'
        cases hbits'
        rw [B.getBit_setBit, Bool.or_eq_true, decide_eq_true_eq, h.2 _ bits hentry k]
        exact or_congr_right ⟨fun hk => ⟨rfl, hk⟩, fun hk => hk.2⟩
      · rw [if_neg heq] at hbits'
        rw [h.2 i bits' hbits' k]
        constructor
        · exact Or.inl
        · intro hor
          exact hor.resolve_right fun hboth => heq hboth.1.symm

/-- The loop over the types of an attribute. -/
private theorem bitmapLoop_ok {keys : List String}
    (hkeys : ∀ p t, D.valToType p = some t → D.typeFqn t ∈ keys) {value : Nat}
    {positions : List Nat} {bit : Nat → Nat → Prop} {pdb pdb' : Pdb β ρ} {map : List β}
    (hext : Extended keys pdb) (hmap : pdb.typeAttrMap = some map) (h : Bits B keys bit map)
    (hrun : bitmapLoop B D value positions pdb = some (.ok () pdb')) :
    Extended keys pdb' ∧ ∃ map', pdb'.typeAttrMap = some map' ∧
      Bits B keys (fun i k => bit i k ∨ k = value - 1 ∧ ∃ p ∈ positions, ∃ t,
        D.valToType p = some t ∧ find keys (D.typeFqn t) = some (i + 1)) map' := by
  induction positions generalizing bit pdb map with
  | nil =>
    cases hrun
    refine ⟨hext, map, hmap, h.1, fun i bits hbits k => ?_⟩
    rw [h.2 i bits hbits k]
    constructor
    · exact Or.inl
    · intro hor
      rcases hor with hbit | ⟨-, p, hp, -⟩
      · exact hbit
      · cases hp
  | cons p positions ih =>
    rw [bitmapLoop] at hrun
    cases ht : D.valToType p with
    | none =>
      simp only [ht] at hrun
      cases hrun
    | some t =>
      simp only [ht] at hrun
      obtain ⟨type, pdb₁, htype, hrest⟩ := Call.bind_ok hrun
      obtain ⟨u, pdb₂, hset, hloop⟩ := Call.bind_ok hrest
      obtain ⟨hfind, rfl⟩ := hext.getSepolTypeDatum (hkeys p t ht) htype
      obtain ⟨htypes, hnprim, map₂, hmap₂, hbits₂⟩ := setTypeAttr_ok hmap h hset
      obtain ⟨aliases, haliases⟩ := hext.types
      have hext₂ : Extended keys pdb₂ :=
        ⟨⟨aliases, htypes.trans haliases⟩, hnprim.trans hext.nprim⟩
      obtain ⟨hext', map', hmap', hbits'⟩ := ih hext₂ hmap₂ hbits₂ hloop
      obtain ⟨hpos, -, -⟩ := find_some hfind
      refine ⟨hext', map', hmap', hbits'.1, fun i bits hbits k => ?_⟩
      rw [hbits'.2 i bits hbits k]
      constructor
      · intro hor
        rcases hor with (hbit | ⟨hi, hk⟩) | ⟨hk, p', hp', hrest⟩
        · exact Or.inl hbit
        · refine Or.inr ⟨hk, p, List.mem_cons_self, t, ht, ?_⟩
          rw [hfind, hi]
          congr 1
          omega
        · exact Or.inr ⟨hk, p', List.mem_cons_of_mem p hp', hrest⟩
      · intro hor
        rcases hor with hbit | ⟨hk, p', hp', t', ht', hfind'⟩
        · exact Or.inl (Or.inl hbit)
        · rcases List.mem_cons.mp hp' with heq | hp'
          · rw [heq, ht] at ht'
            cases ht'
            rw [hfind] at hfind'
            cases hfind'
            exact Or.inl (Or.inr ⟨rfl, hk⟩)
          · exact Or.inr ⟨hk, p', hp', t', ht', hfind'⟩

/-- The attributes that were dealt with have their bits, and no others. -/
structure Filled (B : EnumBitmap β) (D : Data τ α ι β) (keys : List String) (done : List α)
    (pdb : Pdb β ρ) : Prop where
  extended : Extended keys pdb
  empty : pdb.typeAttrMap = none → done = []
  bits : ∀ map, pdb.typeAttrMap = some map →
    Bits B keys (fun i k => k = i ∨ ∃ a ∈ done, Given B D keys a i k) map

private theorem typeattrBitmapInit_ok {keys : List String} {pdb pdb' : Pdb β ρ}
    (hnprim : pdb.nprim = keys.length)
    (hrun : typeattrBitmapInit B pdb = some (.ok () pdb')) :
    pdb'.types = pdb.types ∧ pdb'.nprim = pdb.nprim ∧ ∃ map, pdb'.typeAttrMap = some map ∧
      Bits B keys (fun i k => k = i) map := by
  cases hrun
  refine ⟨rfl, rfl, _, rfl, ?_, fun i bits hbits k => ?_⟩
  · rw [List.length_map, List.length_range, hnprim]
  · rw [List.getElem?_map] at hbits
    obtain ⟨j, hj, rfl⟩ := Option.map_eq_some_iff.mp hbits
    obtain ⟨hlt, hval⟩ := List.getElem?_eq_some_iff.mp hj
    rw [List.getElem_range] at hval
    subst hval
    rw [B.getBit_setBit, B.getBit_init, Bool.false_or, decide_eq_true_eq]

private theorem ensureMap_ok {keys : List String} {done : List α} {pdb pdb' : Pdb β ρ}
    (h : Filled B D keys done pdb) (hrun : ensureMap B pdb = some (.ok () pdb')) :
    Filled B D keys done pdb' ∧ ∃ map, pdb'.typeAttrMap = some map := by
  unfold ensureMap at hrun
  split at hrun
  · rename_i hnone
    obtain ⟨htypes, hnprim, map, hmap, hbits⟩ := typeattrBitmapInit_ok h.extended.nprim hrun
    obtain ⟨aliases, haliases⟩ := h.extended.types
    refine ⟨⟨⟨⟨aliases, htypes.trans haliases⟩, hnprim.trans h.extended.nprim⟩,
      fun hnone' => ?_, fun map' hmap' => ?_⟩, map, hmap⟩
    · rw [hmap] at hnone'
      cases hnone'
    · rw [hmap] at hmap'
      cases hmap'
      refine ⟨hbits.1, fun i bits hb k => ?_⟩
      rw [hbits.2 i bits hb k, h.empty hnone]
      simp
  · rename_i map hmap
    cases hrun
    exact ⟨h, map, hmap⟩

/-- The attribute that the second walk deals with at a node. -/
def dealtWith (D : Data τ α ι β) (d : NodeData ω μ (Stmt τ α ι ξ)) : Option α :=
  (inserted D d).bind fun x => x.getRight?

private theorem typeattributeToBitmap_ok {keys : List String}
    (hkeys : ∀ p t, D.valToType p = some t → D.typeFqn t ∈ keys) {done : List α} {a : α}
    (hused : D.used a = true) (ha : D.attrFqn a ∈ keys) {pdb pdb' : Pdb β ρ}
    (h : Filled B D keys done pdb)
    (hrun : typeattributeToBitmap B D a pdb = some (.ok () pdb')) :
    Filled B D keys (done ++ [a]) pdb' := by
  unfold typeattributeToBitmap at hrun
  rw [if_neg (by simp [hused])] at hrun
  obtain ⟨u, pdb₁, hensure, hrest⟩ := Call.bind_ok hrun
  obtain ⟨h₁, map₁, hmap₁⟩ := ensureMap_ok h hensure
  obtain ⟨value, pdb₂, hvalue, hloop⟩ := Call.bind_ok hrest
  obtain ⟨hfind, rfl⟩ := h₁.extended.getSepolTypeDatum ha hvalue
  cases htypes : D.attrTypes a with
  | none =>
    simp only [htypes] at hloop
    cases hloop
  | some types =>
    simp only [htypes] at hloop
    obtain ⟨hext, map', hmap', hbits⟩ :=
      bitmapLoop_ok hkeys h₁.extended hmap₁ (h₁.bits map₁ hmap₁) hloop
    obtain ⟨hpos, -, -⟩ := find_some hfind
    refine ⟨hext, fun hnone => ?_, fun map hmap => ?_⟩
    · rw [hmap'] at hnone
      cases hnone
    · rw [hmap'] at hmap
      cases hmap
      refine ⟨hbits.1, fun i bits hb k => ?_⟩
      refine (hbits.2 i bits hb k).trans (or_assoc.trans (or_congr_right ?_))
      constructor
      · intro hor
        rcases hor with ⟨a', ha', hgiven⟩ | ⟨hk, p, hp, t, ht, hfindt⟩
        · exact ⟨a', List.mem_append_left _ ha', hgiven⟩
        · refine ⟨a, List.mem_append_right _ List.mem_cons_self, ?_, types, p, t, htypes,
            (B.mem_positions types p).mp hp, ht, hfindt⟩
          rw [hfind, hk]
          congr 1
          omega
      · intro hex
        obtain ⟨a', ha', hgiven⟩ := hex
        rcases List.mem_append.mp ha' with ha' | ha'
        · exact Or.inl ⟨a', ha', hgiven⟩
        · rw [List.mem_singleton] at ha'
          rw [ha'] at hgiven
          obtain ⟨hval, types', p, t, htypes', hbit, ht, hfindt⟩ := hgiven
          rw [htypes] at htypes'
          cases htypes'
          rw [hfind] at hval
          cases hval
          exact Or.inr ⟨rfl, p, (B.mem_positions types p).mpr hbit, t, ht, hfindt⟩

private theorem Filled.of_other {keys : List String} {done : List α} {phase : Phase}
    {d : Option (NodeData ω μ (Stmt τ α ι ξ))} {pdb pdb' : Pdb β ρ}
    (h : Filled B D keys done pdb) (hrun : other others phase d pdb = some (.ok () pdb')) :
    Filled B D keys done pdb' := by
  obtain ⟨htypes, hnprim, hmap⟩ := other_ok hrun
  obtain ⟨aliases, haliases⟩ := h.extended.types
  refine ⟨⟨⟨aliases, htypes.trans haliases⟩, hnprim.trans h.extended.nprim⟩, ?_, ?_⟩
  · rw [hmap]
    exact h.empty
  · rw [hmap]
    exact h.bits

private theorem typealiasToPolicydb_ok {keys : List String} {done : List α} {x : ι}
    {pdb pdb' : Pdb β ρ}
    (h : Filled B D keys done pdb) (hrun : typealiasToPolicydb D x pdb = some (.ok () pdb')) :
    Filled B D keys done pdb' := by
  unfold typealiasToPolicydb at hrun
  cases hactual : D.actual x with
  | none =>
    simp only [hactual] at hrun
    cases hrun
  | some t =>
    simp only [hactual] at hrun
    obtain ⟨value, pdb₁, hvalue, hinsert⟩ := Call.bind_ok hrun
    have hsame : pdb₁ = pdb := by
      unfold getSepolTypeDatum at hvalue
      split at hvalue
      · cases hvalue
        rfl
      · cases hvalue
    subst hsame
    split at hinsert
    · cases hinsert
    · cases hinsert
      obtain ⟨aliases, haliases⟩ := h.extended.types
      refine ⟨⟨⟨aliases ++ [(D.aliasFqn x, value)], ?_⟩, h.extended.nprim⟩, h.empty, h.bits⟩
      show pdb₁.types ++ [(D.aliasFqn x, value)] = _
      rw [haliases, List.append_assoc]

private theorem second_step {d : NodeData ω μ (Stmt τ α ι ξ)} {keys : List String}
    (hkeys : ∀ p t, D.valToType p = some t → D.typeFqn t ∈ keys)
    (hd : ∀ x, inserted D d = some x → D.fqn x ∈ keys) {done : List α} {pdb pdb' : Pdb β ρ}
    (h : Filled B D keys done pdb)
    (hrun : binaryCreateHelper B D others .second d pdb = some (.ok () pdb')) :
    Filled B D keys (done ++ (dealtWith D d).toList) pdb' := by
  have hnothing : ∀ p : Pdb β ρ, some (Returned.ok (ε := Rc) () pdb) = some (.ok () p) →
      Filled B D keys (done ++ []) p := by
    intro p heq
    cases heq
    rw [List.append_nil]
    exact h
  have hother : ∀ p : Pdb β ρ, other others .second (some d) pdb = some (.ok () p) →
      Filled B D keys (done ++ []) p := by
    intro p hp
    rw [List.append_nil]
    exact h.of_other hp
  unfold binaryCreateHelper at hrun
  unfold inserted at hd
  unfold dealtWith inserted
  by_cases hskip : skipsHead d = true
  · rw [if_pos hskip] at hrun ⊢
    exact hnothing pdb' hrun
  · rw [if_neg hskip] at hrun hd ⊢
    obtain ⟨kind, stmt⟩ := d
    unfold nodeToPolicydb at hrun
    cases stmt with
    | type n t =>
      dsimp only at hrun ⊢
      split_ifs at hrun ⊢ with hhead
      · exact hother pdb' hrun
      · exact hnothing pdb' hrun
    | typeattribute n a =>
      dsimp only at hrun hd ⊢
      split_ifs at hrun with hhead
      · by_cases hused : D.used a = true
        · rw [if_pos ⟨hhead, hused⟩] at hd ⊢
          exact typeattributeToBitmap_ok hkeys hused (hd (.inr a) rfl) h hrun
        · rw [if_neg (fun hboth => hused hboth.2)]
          unfold typeattributeToBitmap at hrun
          rw [if_pos (by simpa using hused)] at hrun
          exact hnothing pdb' hrun
      · rw [if_neg (fun hboth => hhead hboth.1)]
        exact hnothing pdb' hrun
    | typealias n x =>
      dsimp only at hrun
      split_ifs at hrun with hhead
      · show Filled B D keys (done ++ []) pdb'
        rw [List.append_nil]
        exact typealiasToPolicydb_ok h hrun
      · exact hnothing pdb' hrun
    | _ => exact hother pdb' hrun

/-- The second walk. -/
private theorem second_walk {ds : List (NodeData ω μ (Stmt τ α ι ξ))} {keys : List String}
    (hkeys : ∀ p t, D.valToType p = some t → D.typeFqn t ∈ keys)
    (hds : ∀ d ∈ ds, ∀ x, inserted D d = some x → D.fqn x ∈ keys) {done : List α}
    {pdb pdb' : Pdb β ρ} (h : Filled B D keys done pdb)
    (hrun : processAll (binaryCreateHelper B D others .second) ds pdb = some (.ok () pdb')) :
    Filled B D keys (done ++ ds.filterMap (dealtWith D)) pdb' := by
  induction ds generalizing done pdb with
  | nil =>
    cases hrun
    rw [List.filterMap_nil, List.append_nil]
    exact h
  | cons d ds ih =>
    obtain ⟨u, pdb₁, hd, hrest⟩ := Call.bind_ok hrun
    have hfirst := second_step hkeys (hds d List.mem_cons_self) h hd
    have hlater := ih (fun d' hd' => hds d' (List.mem_cons_of_mem d hd')) hfirst hrest
    cases hdealt : dealtWith D d with
    | none =>
      rw [List.filterMap_cons_none hdealt]
      rw [hdealt, Option.toList_none, List.append_nil] at hlater
      exact hlater
    | some a =>
      rw [List.filterMap_cons_some hdealt]
      rw [hdealt, Option.toList_some, List.append_assoc] at hlater
      exact hlater

/-- The third walk leaves the types alone. -/
private theorem third_walk {ds : List (NodeData ω μ (Stmt τ α ι ξ))} {keys : List String}
    {done : List α} {pdb pdb' : Pdb β ρ} (h : Filled B D keys done pdb)
    (hrun : processAll (binaryCreateHelper B D others .third) ds pdb = some (.ok () pdb')) :
    Filled B D keys done pdb' := by
  induction ds generalizing pdb with
  | nil =>
    cases hrun
    exact h
  | cons d ds ih =>
    obtain ⟨u, pdb₁, hd, hrest⟩ := Call.bind_ok hrun
    refine ih ?_ hrest
    unfold binaryCreateHelper at hd
    split_ifs at hd with hskip
    · cases hd
      exact h
    · obtain ⟨kind, stmt⟩ := d
      unfold nodeToPolicydb at hd
      cases stmt with
      | type n t =>
        dsimp only at hd
        split_ifs at hd
        · exact h.of_other hd
        · cases hd
          exact h
      | typeattribute n a =>
        dsimp only at hd
        split_ifs at hd
        · cases hd
          exact h
        · cases hd
          exact h
      | typealias n x =>
        dsimp only at hd
        split_ifs at hd
        · cases hd
          exact h
        · cases hd
          exact h
      | _ => exact h.of_other hd

end Second

section Whole

variable {ω μ τ α ι ξ β ρ : Type} {B : EnumBitmap β} {D : Data τ α ι β}
  {others : Others ω μ τ α ι ξ β ρ}

/-- The keys that the first walk inserts. -/
def keysOf (D : Data τ α ι β) (ast : List (Tree (NodeData ω μ (Stmt τ α ι ξ)))) : List String :=
  ((walkSiblings binarySkips ast).filterMap (inserted D)).map D.fqn

/-- The policy before anything is in it. -/
def Pdb.init (rest : ρ) : Pdb β ρ := ⟨[], 0, none, rest⟩

theorem table_init (rest : ρ) : Table [] (Pdb.init rest : Pdb β ρ) := ⟨rfl, rfl, List.nodup_nil⟩

/-- When the policy is created, the keys are different and the map has the bits of all
attributes. -/
theorem binaryCreate_ok {ast : List (Tree (NodeData ω μ (Stmt τ α ι ξ)))}
    (hkeys : ∀ p t, D.valToType p = some t → D.typeFqn t ∈ keysOf D ast) {rest : ρ}
    {pdb : Pdb β ρ} (hrun : binaryCreate B D others ast (.init rest) = some (.ok () pdb)) :
    (keysOf D ast).Nodup ∧ Extended (keysOf D ast) pdb ∧
      ∃ map, pdb.typeAttrMap = some map ∧ Bits B (keysOf D ast) (fun i k => k = i ∨
        ∃ a ∈ (walkSiblings binarySkips ast).filterMap (dealtWith D),
          Given B D (keysOf D ast) a i k) map := by
  obtain ⟨u, pdb₁, hfirst, hrun₁⟩ := Call.bind_ok hrun
  obtain ⟨u, pdb₂, hsecond, hrun₂⟩ := Call.bind_ok hrun₁
  obtain ⟨u, pdb₃, hthird, hrun₃⟩ := Call.bind_ok hrun₂
  obtain ⟨u, pdb₄, hcontexts, hrun₄⟩ := Call.bind_ok hrun₃
  obtain ⟨htable, hmap⟩ := first_walk (table_init rest) hfirst
  rw [List.nil_append] at htable
  have htable' : Table (keysOf D ast) pdb₁ := htable
  have hnone : pdb₁.typeAttrMap = none := hmap
  have hstart : Filled B D (keysOf D ast) [] pdb₁ := by
    refine ⟨⟨⟨[], ?_⟩, htable'.nprim⟩, fun _ => rfl, fun map hmap => ?_⟩
    · rw [List.append_nil]
      exact htable'.types
    · rw [hnone] at hmap
      cases hmap
  have hinserted : ∀ d ∈ walkSiblings binarySkips ast, ∀ x, inserted D d = some x →
      D.fqn x ∈ keysOf D ast := by
    intro d hd x hx
    exact List.mem_map.mpr ⟨x, List.mem_filterMap.mpr ⟨d, hd, hx⟩, rfl⟩
  have hfilled := third_walk (second_walk hkeys hinserted hstart hsecond) hthird
  obtain ⟨hfinal, map, hmap⟩ := ensureMap_ok (hfilled.of_other hcontexts) hrun₄
  exact ⟨htable'.nodup, hfinal.extended, map, hmap, hfinal.bits map hmap⟩

end Whole

end Cil.Binary.TypeAttrMap
