/- Cil/Copy/Levels
   digest: Every declaration of a copied body has an entry in the namespace it is copied to. -/

import Mathlib.Data.List.Basic
import Cil.Copy.DeclarationKinds

set_option autoImplicit false
set_option relaxedAutoImplicit false

namespace Cil.Copy

/-- Entries of symbol tables are kept. -/
def Extends (s s' : State) : Prop :=
  ∀ ns i name id, s.tables ns i name = some id → s'.tables ns i name = some id

theorem Extends.refl (s : State) : Extends s s := fun _ _ _ _ h => h

theorem Extends.trans {s₁ s₂ s₃ : State} (h₁ : Extends s₁ s₂) (h₂ : Extends s₂ s₃) :
    Extends s₁ s₃ :=
  fun ns i name id h => h₂ ns i name id (h₁ ns i name id h)

/-- The kinds whose data are namespaces: their children go there. -/
def opensSpace : Flavor → Bool
  | .block | .macroDef | .kernelClass | .mapClass | .common => true
  | _ => false

mutual

/-- The declarations of one level of a tree, each with its children: those that go to one
namespace. -/
def levelOfSiblings : List (Tree NodeData) → List (Decl × List (Tree NodeData))
  | [] => []
  | t :: ts => levelOfNode t ++ levelOfSiblings ts

def levelOfNode : Tree NodeData → List (Decl × List (Tree NodeData))
  | .node (.decl d) children =>
      (d, children) :: if opensSpace d.flavor then [] else levelOfSiblings children
  | .node (.condblock ofTunableif) children =>
      if ofTunableif then [] else levelOfSiblings children
  | .node .other children => levelOfSiblings children
  | .node .unknown _ => []

end

/-- The tables and names of a level, permissions apart. -/
def declaredIn (ts : List (Tree NodeData)) : List (SymIndex × String) :=
  ((levelOfSiblings ts).map fun p => (flavorToSymtabIndex p.1.flavor, p.1.name)).filter
    fun k => k.1 ≠ .perms

section Entries

variable {s s' : State} {ns : Namespace} {i : SymIndex} {key : String} {id : Nat} {node : Flavor}

private theorem setEntry_tables_self : (s.setEntry ns i key id).tables ns i key = some id := by
  simp [State.setEntry]

private theorem setEntry_extends (hfree : s.tables ns i key = none) :
    Extends s (s.setEntry ns i key id) := by
  intro ns' i' key' id' h
  by_cases hns : ns' = ns
  · subst hns
    by_cases hi : i' = i
    · subst hi
      by_cases hkey : key' = key
      · subst hkey
        rw [hfree] at h
        cases h
      · simpa [State.setEntry, hkey] using h
    · simpa [State.setEntry, hi] using h
  · simpa [State.setEntry, hns] using h

private theorem symtabInsert_extends : Extends s (symtabInsert s ns i key id node).2 := by
  unfold symtabInsert
  split
  · rename_i hfree
    exact setEntry_extends hfree
  · exact Extends.refl s

private theorem symtabInsert_entry (h : s.tables ns i key = none ∨ s.tables ns i key = some id) :
    (symtabInsert s ns i key id node).2.tables ns i key = some id := by
  unfold symtabInsert
  rcases h with h | h
  · rw [h]
    exact setEntry_tables_self
  · rw [h]
    exact h

/-- A copied declaration is the entry of its name in the table of the destination. -/
private theorem copyDecl_entry {dest : Dest} {d : Decl} (h : copyDecl s dest d = .ok (id, s')) :
    Extends s s' ∧ ∃ ns, dest.getSymtab (flavorToSymtabIndex d.flavor) = some ns ∧
      s'.tables ns (flavorToSymtabIndex d.flavor) d.name = some id := by
  obtain ⟨ns, s₁, hns, hf, rfl, _⟩ := copyDecl_cases h
  rcases copyFunc_cases hf with ⟨hfree, halloc⟩ | ⟨htaken, rfl, _⟩
  · obtain ⟨rfl, rfl⟩ := Prod.mk.inj halloc
    have halloc : Extends s (s.alloc d.flavor d.params).2 := Extends.refl s
    exact ⟨halloc.trans symtabInsert_extends, ns, hns, symtabInsert_entry (Or.inl hfree)⟩
  · exact ⟨symtabInsert_extends, ns, hns, symtabInsert_entry (Or.inr htaken)⟩

end Entries

mutual

private theorem copySiblings_extends (dest : Dest) (ts : List (Tree NodeData)) (s s' : State)
    (h : copySiblings dest ts s = .ok s') : Extends s s' := by
  match ts with
  | [] =>
      obtain rfl := Except.ok.inj h
      exact Extends.refl s
  | t :: ts =>
      rw [copySiblings] at h
      cases ht : copyNode dest t s with
      | error stop =>
          rw [ht] at h
          cases h
      | ok s₁ =>
          rw [ht] at h
          exact (copyNode_extends dest t s s₁ ht).trans (copySiblings_extends dest ts s₁ s' h)

private theorem copyNode_extends (dest : Dest) (t : Tree NodeData) (s s' : State)
    (h : copyNode dest t s = .ok s') : Extends s s' := by
  match t with
  | .node (.decl d) children =>
      rw [copyNode] at h
      cases hd : copyDecl s dest d with
      | error stop =>
          rw [hd] at h
          cases h
      | ok r =>
          rw [hd] at h
          exact (copyDecl_entry hd).1.trans (copySiblings_extends _ children r.2 s' h)
  | .node (.condblock ofTunableif) children =>
      rw [copyNode] at h
      have hrest := copySiblings_extends _ children _ s' h
      cases ofTunableif with
      | true => exact hrest
      | false => exact hrest
  | .node .other children =>
      rw [copyNode] at h
      exact copySiblings_extends _ children s s' h
  | .node .unknown children =>
      rw [copyNode] at h
      cases h

end

/-- What the copy of a level leaves for one of its declarations: an entry, and below a block
the copy of its children into that block. -/
def Copied (s' : State) (ns : Namespace) (d : Decl) (children : List (Tree NodeData)) : Prop :=
  flavorToSymtabIndex d.flavor ≠ .perms →
    ∃ id, s'.tables ns (flavorToSymtabIndex d.flavor) d.name = some id ∧
      (d.flavor = .block → ∃ s₁ s₂, copySiblings ⟨.ofDatum id, none, []⟩ children s₁ = .ok s₂ ∧
        Extends s₂ s')

private theorem Copied.of_extends {s s' : State} {ns : Namespace} {d : Decl}
    {children : List (Tree NodeData)} (h : Copied s ns d children) (hs : Extends s s') :
    Copied s' ns d children := by
  intro hperms
  obtain ⟨id, hid, hblock⟩ := h hperms
  refine ⟨id, hs _ _ _ _ hid, fun hflavor => ?_⟩
  obtain ⟨s₁, s₂, hcopy, hext⟩ := hblock hflavor
  exact ⟨s₁, s₂, hcopy, hext.trans hs⟩

private theorem getSymtab_of_ne_perms {dest : Dest} {i : SymIndex} (h : i ≠ .perms) :
    dest.getSymtab i = some dest.ns := by
  cases i <;> first | rfl | exact absurd rfl h

/-- Declarations without a namespace of their own leave their children in that around them. -/
private theorem below_ns_of_not_opensSpace {dest : Dest} {s : State} {flavor : Flavor} {id : Nat}
    (h : opensSpace flavor = false) : (dest.below s flavor id).ns = dest.ns := by
  cases flavor <;> first | rfl | cases h

mutual

/-- Every declaration of a copied level has been copied to the namespace of the level. -/
theorem copySiblings_copied (dest : Dest) (ts : List (Tree NodeData)) (s s' : State)
    (h : copySiblings dest ts s = .ok s') :
    ∀ p ∈ levelOfSiblings ts, Copied s' dest.ns p.1 p.2 := by
  match ts with
  | [] =>
      intro p hp
      cases hp
  | t :: ts =>
      intro p hp
      rw [copySiblings] at h
      cases ht : copyNode dest t s with
      | error stop =>
          rw [ht] at h
          cases h
      | ok s₁ =>
          rw [ht] at h
          rw [levelOfSiblings] at hp
          rcases List.mem_append.mp hp with hp | hp
          · exact (copyNode_copied dest t s s₁ ht p hp).of_extends
              (copySiblings_extends dest ts s₁ s' h)
          · exact copySiblings_copied dest ts s₁ s' h p hp

private theorem copyNode_copied (dest : Dest) (t : Tree NodeData) (s s' : State)
    (h : copyNode dest t s = .ok s') :
    ∀ p ∈ levelOfNode t, Copied s' dest.ns p.1 p.2 := by
  match t with
  | .node (.decl d) children =>
      intro p hp
      rw [copyNode] at h
      cases hd : copyDecl s dest d with
      | error stop =>
          rw [hd] at h
          cases h
      | ok r =>
          rw [hd] at h
          obtain ⟨id, s₁⟩ := r
          have hchildren : copySiblings (dest.below s₁ d.flavor id) children s₁ = .ok s' := h
          have hext := copySiblings_extends _ children s₁ s' hchildren
          rw [levelOfNode] at hp
          rcases List.mem_cons.mp hp with heq | hp
          · subst heq
            intro hperms
            obtain ⟨ns, hns, hid⟩ := (copyDecl_entry hd).2
            rw [getSymtab_of_ne_perms hperms] at hns
            obtain rfl := Option.some.inj hns
            refine ⟨id, hext _ _ _ _ hid, fun hblock => ⟨s₁, s', ?_, Extends.refl s'⟩⟩
            rw [hblock] at hchildren
            exact hchildren
          · by_cases hopens : opensSpace d.flavor = true
            · rw [if_pos hopens] at hp
              cases hp
            · rw [if_neg hopens] at hp
              have hbelow := copySiblings_copied _ children s₁ s' hchildren p hp
              rw [below_ns_of_not_opensSpace (by simpa using hopens)] at hbelow
              exact hbelow
  | .node (.condblock ofTunableif) children =>
      intro p hp
      rw [copyNode] at h
      rw [levelOfNode] at hp
      cases ofTunableif with
      | true => cases hp
      | false => exact copySiblings_copied { dest with perms := none } children s s' h p hp
  | .node .other children =>
      intro p hp
      rw [copyNode] at h
      exact copySiblings_copied { dest with perms := none } children s s' h p hp
  | .node .unknown children =>
      rw [copyNode] at h
      cases h

end

/-- What a copied level declares is in the tables of its namespace. -/
theorem copySiblings_declared {dest : Dest} {ts : List (Tree NodeData)} {s s' : State}
    (h : copySiblings dest ts s = .ok s') {i : SymIndex} {name : String}
    (hk : (i, name) ∈ declaredIn ts) : ∃ id, s'.tables dest.ns i name = some id := by
  obtain ⟨hmem, hperms⟩ := List.mem_filter.mp hk
  obtain ⟨p, hp, heq⟩ := List.mem_map.mp hmem
  obtain ⟨rfl, rfl⟩ := Prod.mk.inj heq
  obtain ⟨id, hid, _⟩ := copySiblings_copied dest ts s s' h p hp (by simpa using hperms)
  exact ⟨id, hid⟩

section Bounded

variable {s s' : State} {dest : Dest} {d : Decl} {id : Nat}

/-- The entries of symbol tables are data that have been allocated. -/
def Bounded (s : State) : Prop := ∀ ns i name id, s.tables ns i name = some id → id < s.next

private theorem setEntry_cases {ns ns' : Namespace} {i i' : SymIndex} {key key' : String}
    {id' : Nat} (h : (s.setEntry ns i key id).tables ns' i' key' = some id') :
    id' = id ∨ s.tables ns' i' key' = some id' := by
  by_cases hns : ns' = ns
  · subst hns
    by_cases hi : i' = i
    · subst hi
      by_cases hkey : key' = key
      · subst hkey
        rw [setEntry_tables_self] at h
        exact Or.inl (Option.some.inj h).symm
      · exact Or.inr (by simpa [State.setEntry, hkey] using h)
    · exact Or.inr (by simpa [State.setEntry, hi] using h)
  · exact Or.inr (by simpa [State.setEntry, hns] using h)

theorem Bounded.symtabInsert {ns : Namespace} {i : SymIndex} {key : String} {node : Flavor}
    (h : Bounded s) (hid : id < s.next) : Bounded (symtabInsert s ns i key id node).2 := by
  unfold Copy.symtabInsert
  split
  · intro ns' i' key' id' hentry
    rcases setEntry_cases hentry with rfl | hentry
    · exact hid
    · exact h ns' i' key' id' hentry
  · exact h

private theorem symtabInsert_next {ns : Namespace} {i : SymIndex} {key : String} {node : Flavor} :
    (symtabInsert s ns i key id node).2.next = s.next := by
  unfold symtabInsert
  split <;> rfl

private theorem symtabInsert_entries {ns ns' : Namespace} {i i' : SymIndex} {key key' : String}
    {node : Flavor} {id' : Nat}
    (h : (symtabInsert s ns i key id node).2.tables ns' i' key' = some id') :
    id' = id ∨ s.tables ns' i' key' = some id' := by
  unfold symtabInsert at h
  split at h
  · exact setEntry_cases h
  · exact Or.inr h

/-- The only new entry that a copied declaration may make is its own; its datum is fresh or an
entry already. -/
theorem copyDecl_entries (hcopy : copyDecl s dest d = .ok (id, s')) :
    (∀ ns i key id', s'.tables ns i key = some id' → id' = id ∨ s.tables ns i key = some id') ∧
      (id = s.next ∧ s'.next = s.next + 1 ∨
        (∃ ns i key, s.tables ns i key = some id) ∧ s'.next = s.next) := by
  obtain ⟨ns, s₁, hns, hf, rfl, _⟩ := copyDecl_cases hcopy
  rw [symtabInsert_next]
  rcases copyFunc_cases hf with ⟨hfree, halloc⟩ | ⟨htaken, rfl, _⟩
  · obtain ⟨rfl, rfl⟩ := Prod.mk.inj halloc
    refine ⟨fun ns' i key id' h => ?_, Or.inl ⟨rfl, rfl⟩⟩
    have hentry := symtabInsert_entries h
    exact hentry
  · exact ⟨fun _ _ _ _ h => symtabInsert_entries h, Or.inr ⟨⟨_, _, _, htaken⟩, rfl⟩⟩

theorem genNode_entries (hgen : genNode s dest d = .ok s') :
    (∀ ns i key id', s'.tables ns i key = some id' → id' = s.next ∨
      s.tables ns i key = some id') ∧ s'.next = s.next + 1 := by
  obtain ⟨ns, rfl⟩ := genNode_cases hgen
  rw [symtabInsert_next]
  refine ⟨fun ns' i key id' h => ?_, rfl⟩
  have hentry := symtabInsert_entries h
  exact hentry

/-- The datum of a copied declaration is an allocated one, or fresh. -/
theorem copyDecl_bounded (h : Bounded s) (hcopy : copyDecl s dest d = .ok (id, s')) :
    Bounded s' ∧ id < s'.next ∧ s.next ≤ s'.next ∧ id ≤ s.next := by
  obtain ⟨ns, s₁, hns, hf, rfl, _⟩ := copyDecl_cases hcopy
  rw [symtabInsert_next]
  rcases copyFunc_cases hf with ⟨hfree, halloc⟩ | ⟨htaken, rfl, _⟩
  · obtain ⟨rfl, rfl⟩ := Prod.mk.inj halloc
    have hlt : s.next < (s.alloc d.flavor d.params).2.next := Nat.lt_succ_self _
    have halloc : Bounded (s.alloc d.flavor d.params).2 :=
      fun ns i name id hid => Nat.lt_succ_of_lt (h ns i name id hid)
    exact ⟨halloc.symtabInsert hlt, hlt, Nat.le_of_lt hlt, Nat.le_refl _⟩
  · have hlt : id < s₁.next := h _ _ _ _ htaken
    exact ⟨h.symtabInsert hlt, hlt, Nat.le_refl _, Nat.le_of_lt hlt⟩

theorem genNode_bounded (h : Bounded s) (hgen : genNode s dest d = .ok s') :
    Bounded s' ∧ s'.next = s.next + 1 := by
  obtain ⟨ns, rfl⟩ := genNode_cases hgen
  rw [symtabInsert_next]
  have halloc : Bounded (s.alloc d.flavor d.params).2 :=
    fun ns i name id hid => Nat.lt_succ_of_lt (h ns i name id hid)
  exact ⟨halloc.symtabInsert (Nat.lt_succ_self _), rfl⟩

end Bounded

end Cil.Copy
