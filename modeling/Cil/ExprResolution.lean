/- Cil/ExprResolution
   digest: The names in an expression are looked up, and what that keeps of the expression. -/

import Cil.ExprMeaning

set_option autoImplicit false
set_option relaxedAutoImplicit false

namespace Cil.Expr

section Resolve

variable {δ ε : Type} (get : δ → Option ε)

mutual

/-- Names are looked up, in sublists as well; operators stay. -/
def resolveItems : List (Item δ) → Option (List (Item ε))
  | [] => some []
  | i :: rest => do
      let i' ← resolveItem i
      let rest' ← resolveItems rest
      pure (i' :: rest')

def resolveItem : Item δ → Option (Item ε)
  | .list l => (resolveItems l).map .list
  | .datum s => (get s).map .datum
  | .op o => some (.op o)
  | .other => some .other

end

attribute [simp] resolveItems resolveItem

variable {get}

theorem resolveItems_nil {l' : List (Item ε)} (h : resolveItems get [] = some l') : l' = [] := by
  simpa [resolveItems] using h.symm

theorem resolveItems_cons {i : Item δ} {rest : List (Item δ)} {l' : List (Item ε)}
    (h : resolveItems get (i :: rest) = some l') :
    ∃ i' rest', l' = i' :: rest' ∧ resolveItem get i = some i' ∧
      resolveItems get rest = some rest' := by
  simp only [resolveItems, Option.bind_eq_bind, Option.bind_eq_some_iff, Option.pure_def,
    Option.some.injEq] at h
  obtain ⟨i', hi, rest', hrest, rfl⟩ := h
  exact ⟨i', rest', rfl, hi, hrest⟩

theorem resolveItem_op {o : Op} {i' : Item ε} (h : resolveItem get (.op o) = some i') :
    i' = .op o := by
  simpa [resolveItem] using h.symm

theorem resolveItem_datum {s : δ} {i' : Item ε} (h : resolveItem get (.datum s) = some i') :
    ∃ p, get s = some p ∧ i' = .datum p := by
  simp only [resolveItem, Option.map_eq_some_iff] at h
  obtain ⟨p, hp, rfl⟩ := h
  exact ⟨p, hp, rfl⟩

theorem resolveItem_list {l : List (Item δ)} {i' : Item ε}
    (h : resolveItem get (.list l) = some i') :
    ∃ l', resolveItems get l = some l' ∧ i' = .list l' := by
  simp only [resolveItem, Option.map_eq_some_iff] at h
  obtain ⟨l', hl, rfl⟩ := h
  exact ⟨l', hl, rfl⟩

/-- An operator stays one, and nothing else becomes one. -/
theorem resolveItem_eq_op {i : Item δ} {o : Op} (h : resolveItem get i = some (.op o)) :
    i = .op o := by
  cases i with
  | op o' => simpa [resolveItem] using h
  | datum s => simp [resolveItem] at h
  | list l => simp [resolveItem] at h
  | other => simp [resolveItem] at h

/-- A list of the form the operator wants is resolved to one. -/
theorem resolveItems_op {o : Op} {rest : List (Item δ)} {l' : List (Item ε)}
    (h : resolveItems get (.op o :: rest) = some l') :
    ∃ rest', l' = .op o :: rest' ∧ resolveItems get rest = some rest' := by
  obtain ⟨i', rest', rfl, hi, hrest⟩ := resolveItems_cons h
  exact ⟨rest', by rw [resolveItem_op hi], hrest⟩

theorem resolveItems_singleton {i : Item δ} {l' : List (Item ε)}
    (h : resolveItems get [i] = some l') : ∃ i', l' = [i'] ∧ resolveItem get i = some i' := by
  obtain ⟨i', rest', rfl, hi, hrest⟩ := resolveItems_cons h
  exact ⟨i', by rw [resolveItems_nil hrest], hi⟩

theorem resolveItems_pair {i j : Item δ} {l' : List (Item ε)}
    (h : resolveItems get [i, j] = some l') :
    ∃ i' j', l' = [i', j'] ∧ resolveItem get i = some i' ∧ resolveItem get j = some j' := by
  obtain ⟨i', rest', rfl, hi, hrest⟩ := resolveItems_cons h
  obtain ⟨j', rfl, hj⟩ := resolveItems_singleton hrest
  exact ⟨i', j', rfl, hi, hj⟩

theorem resolveItems_length {l : List (Item δ)} {l' : List (Item ε)}
    (h : resolveItems get l = some l') : l'.length = l.length := by
  induction l generalizing l' with
  | nil =>
    rw [resolveItems_nil h]
    rfl
  | cons i rest ih =>
    obtain ⟨i', rest', rfl, -, hrest⟩ := resolveItems_cons h
    rw [List.length_cons, List.length_cons, ih hrest]

/-- Only what was found is mentioned. -/
theorem resolveItems_found (l : List (Item δ)) (l' : List (Item ε))
    (h : resolveItems get l = some l') : ∀ p ∈ mentioned l', ∃ s, get s = some p := by
  revert l'
  refine mentioned.induct
    (fun l => ∀ l', resolveItems get l = some l' → ∀ p ∈ mentioned l', ∃ s, get s = some p)
    (fun i => ∀ i', resolveItem get i = some i' → ∀ p ∈ mentionedItem i', ∃ s, get s = some p)
    ?datum ?list ?other ?nil ?cons l
  case datum =>
    intro s i' h p hp
    obtain ⟨q, hq, rfl⟩ := resolveItem_datum h
    simp only [mentionedItem, List.mem_singleton] at hp
    exact ⟨s, hp ▸ hq⟩
  case list =>
    intro l ih i' h p hp
    obtain ⟨l', hl', rfl⟩ := resolveItem_list h
    simp only [mentionedItem] at hp
    exact ih l' hl' p hp
  case other =>
    intro i hdatum hlist i' h p hp
    cases i with
    | op o =>
      rw [resolveItem_op h] at hp
      simp at hp
    | datum s => exact absurd rfl (hdatum s)
    | list l => exact absurd rfl (hlist l)
    | other =>
      simp only [resolveItem, Option.some.injEq] at h
      subst h
      simp [mentionedItem] at hp
  case nil =>
    intro l' h p hp
    rw [resolveItems_nil h] at hp
    simp at hp
  case cons =>
    intro i rest ihi ihrest l' h p hp
    obtain ⟨i', rest', rfl, hi, hrest⟩ := resolveItems_cons h
    rw [mentioned_cons, List.mem_append] at hp
    rcases hp with hp | hp
    · exact ihi i' hi p hp
    · exact ihrest rest' hrest p hp

end Resolve

end Cil.Expr
