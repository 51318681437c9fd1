/- Cil/Write/LevelMeaning
   digest: What the text of a level can be read as. -/

import Mathlib.Data.List.Nodup
import Mathlib.Data.Set.Basic
import Mathlib.Logic.Function.Basic
import Cil.Write.Level

set_option autoImplicit false
set_option relaxedAutoImplicit false

namespace Cil.Write

open Cil.Library.Separated Cil.Verify

section Values

variable {κ : Type} [DecidableEq κ]

/-- The loop of `cil_set_cat_values`, on the field `value` of the categories. -/
def setCatValuesLoop (value : κ → Nat) : Nat → List κ → κ → Nat
  | _, [] => value
  | v, cat :: rest => setCatValuesLoop (Function.update value cat v) (v + 1) rest

/-- `cil_set_cat_values`. -/
def setCatValues (orderedCats : List κ) : κ → Nat := setCatValuesLoop (fun _ => 0) 0 orderedCats

attribute [simp] setCatValuesLoop

private theorem setCatValuesLoop_eq (value : κ → Nat) (v : Nat) {cats : List κ} (h : cats.Nodup)
    (c : κ) :
    setCatValuesLoop value v cats c = if c ∈ cats then v + cats.idxOf c else value c := by
  induction cats generalizing value v with
  | nil => rfl
  | cons cat rest ih =>
    obtain ⟨hcat, hrest⟩ := List.nodup_cons.mp h
    rw [setCatValuesLoop, ih _ _ hrest]
    by_cases heq : c = cat
    · rw [heq, if_neg hcat, Function.update_self, if_pos List.mem_cons_self,
        List.idxOf_cons_self, Nat.add_zero]
    · rw [Function.update_of_ne heq, List.idxOf_cons_ne _ (fun h => heq h.symm)]
      by_cases hmem : c ∈ rest
      · rw [if_pos hmem, if_pos (List.mem_cons_of_mem cat hmem)]
        omega
      · rw [if_neg hmem, if_neg fun hc => (List.mem_cons.mp hc).elim heq hmem]

/-- The value of a category is its place in the order. -/
private theorem setCatValues_eq {cats : List κ} (h : cats.Nodup) {c : κ} (hc : c ∈ cats) :
    setCatValues cats c = cats.idxOf c := by
  rw [setCatValues, setCatValuesLoop_eq _ _ h, if_pos hc, Nat.zero_add]

end Values

/-- The order of the categories, which has all of them, and the names: they are qualified, and
different for different declarations. -/
structure LevelPolicy (σ κ : Type) where
  order : List κ
  nodup : order.Nodup
  ordered : ∀ c, c ∈ order
  sensFqn : σ → Text
  catFqn : κ → Text
  sens_isFqn : ∀ s, IsFqn (sensFqn s)
  cat_isFqn : ∀ c, IsFqn (catFqn c)
  sens_injective : Function.Injective sensFqn
  cat_injective : Function.Injective catFqn

section Reading

variable {σ κ : Type} [DecidableEq κ] (P : LevelPolicy σ κ)

def LevelPolicy.value : κ → Nat := setCatValues P.order

def LevelPolicy.names : LevelNames σ κ := ⟨P.sensFqn, P.catFqn, P.value⟩

/-- A name of a category, or two with a dot between them. -/
inductive Piece (κ : Type)
  | single (c : κ)
  | range (first last : κ)
  deriving DecidableEq, Repr

def LevelPolicy.pieceText : Piece κ → Text
  | .single c => P.catFqn c
  | .range first last => P.catFqn first ++ '.' :: P.catFqn last

/-- What a piece means: a range has the categories from its first to its last. -/
def LevelPolicy.Has (c : κ) : Piece κ → Prop
  | .single c' => c = c'
  | .range first last => P.value first ≤ P.value c ∧ P.value c ≤ P.value last

/-- A range goes up. -/
def LevelPolicy.Legal : Piece κ → Prop
  | .single _ => True
  | .range first last => P.value first < P.value last

/-- The ranges that are written have a category between their ends. -/
def LevelPolicy.Written : Piece κ → Prop
  | .single _ => True
  | .range first last => P.value first + 1 < P.value last

/-- The text can be read as the sensitivity with these categories. -/
def Reads (text : Text) (s : σ) (cats : Set κ) : Prop :=
  text = P.sensFqn s ∧ cats = ∅ ∨
    ∃ pieces : List (Piece κ), pieces ≠ [] ∧ (∀ p ∈ pieces, P.Legal p) ∧
      text = P.sensFqn s ++ ':' :: joined ',' (pieces.map P.pieceText) ∧
        cats = {c | ∃ p ∈ pieces, P.Has c p}

/-- The text of the level can be read as the level, and as nothing else. -/
def DecodesBack (l : Level σ κ) : Prop :=
  ∀ s cats, Reads P (levelText P.names l) s cats ↔ s = l.sens ∧ cats = {c | c ∈ l.categories}

/-- What is written for a piece is the text of no other legal piece. -/
def LevelPolicy.Unambiguous : Prop :=
  ∀ p q, P.Written p → P.Legal q → P.pieceText p = P.pieceText q → p = q

end Reading

section Pieces

variable {σ κ : Type} [DecidableEq κ] {P : LevelPolicy σ κ}

private theorem value_eq (P : LevelPolicy σ κ) (c : κ) : P.value c = P.order.idxOf c :=
  setCatValues_eq P.nodup (P.ordered c)

private theorem value_injective : Function.Injective P.value := by
  intro c c' h
  rw [value_eq, value_eq] at h
  exact (List.idxOf_inj (P.ordered c)).mp h

variable (P) in
/-- The pieces for a run that is under way. -/
def flushPieces (run : κ × κ) : List (Piece κ) :=
  if P.value run.1 = P.value run.2 then [.single run.1]
  else if P.value run.2 = P.value run.1 + 1 then [.single run.1, .single run.2]
  else [.range run.1 run.2]

variable (P) in
/-- The pieces for a list of categories, after a run. -/
def piecesOf : Option (κ × κ) → List κ → List (Piece κ)
  | none, [] => []
  | some run, [] => flushPieces P run
  | none, cat :: rest => piecesOf (some (cat, cat)) rest
  | some run, cat :: rest =>
      if P.value cat = P.value run.2 + 1 then piecesOf (some (run.1, cat)) rest
      else flushPieces P run ++ .single cat :: piecesOf none rest

attribute [simp] piecesOf

variable (P) in
/-- The variables of the loop stand for a run. -/
def Run.Is (run : Run) : Option (κ × κ) → Prop
  | none => run.first = -1
  | some (first, last) => run.first = P.value first ∧ run.last = P.value last ∧
      run.str1 = P.catFqn first ∧ (P.value first ≠ P.value last → run.str2 = P.catFqn last)

private theorem flushPieces_ne_nil (run : κ × κ) : flushPieces P run ≠ [] := by
  unfold flushPieces
  split_ifs
  · exact List.cons_ne_nil _ _
  · exact List.cons_ne_nil _ _
  · exact List.cons_ne_nil _ _

private theorem piecesOf_ne_nil (run : Option (κ × κ)) {cats : List κ}
    (h : run ≠ none ∨ cats ≠ []) :
    piecesOf P run cats ≠ [] := by
  induction cats generalizing run with
  | nil =>
    cases run with
    | none => exact absurd (h.resolve_right fun hnil => hnil rfl) (fun hne => hne rfl)
    | some run => exact flushPieces_ne_nil run
  | cons cat rest ih =>
    cases run with
    | none => exact ih _ (Or.inl (Option.some_ne_none _))
    | some run =>
      rw [piecesOf]
      split_ifs
      · exact ih _ (Or.inl (Option.some_ne_none _))
      · exact fun hnil => flushPieces_ne_nil run (List.append_eq_nil_iff.mp hnil).1

variable (P) in
def joinedPieces (pieces : List (Piece κ)) : Text := joined ',' (pieces.map P.pieceText)

omit [DecidableEq κ] in
private theorem joinedPieces_singleton (p : Piece κ) : joinedPieces P [p] = P.pieceText p :=
  joined_singleton ',' (P.pieceText p)

omit [DecidableEq κ] in
private theorem joinedPieces_append {pieces pieces' : List (Piece κ)} (h : pieces ≠ [])
    (h' : pieces' ≠ []) : joinedPieces P (pieces ++ pieces') =
      joinedPieces P pieces ++ ',' :: joinedPieces P pieces' := by
  rw [joinedPieces, List.map_append]
  exact joined_append (fun hnil => h (List.map_eq_nil_iff.mp hnil))
    fun hnil => h' (List.map_eq_nil_iff.mp hnil)

/-- The text for a run that is under way. -/
private theorem flush_text {run : Run} {first last : κ} (h : run.Is P (some (first, last))) :
    joinedPieces P (flushPieces P (first, last)) =
      if run.first = run.last then run.str1
      else if run.last = run.first + 1 then run.str1 ++ [','] ++ run.str2
      else run.str1 ++ ['.'] ++ run.str2 := by
  obtain ⟨hfirst, hlast, hstr1, hstr2⟩ := h
  unfold flushPieces
  rw [hfirst, hlast, hstr1]
  by_cases heq : P.value first = P.value last
  · rw [if_pos heq, if_pos (congrArg Nat.cast heq), joinedPieces_singleton]
    rfl
  · have hne : ¬ (P.value first : Int) = P.value last := by omega
    rw [if_neg heq, if_neg hne, hstr2 heq]
    by_cases hnext : P.value last = P.value first + 1
    · have hnext' : (P.value last : Int) = P.value first + 1 := by omega
      have hpair : [Piece.single first, .single last] = [.single first] ++ [.single last] := rfl
      rw [if_pos hnext, if_pos hnext', hpair,
        joinedPieces_append (List.cons_ne_nil _ _) (List.cons_ne_nil _ _), joinedPieces_singleton,
        joinedPieces_singleton, List.append_assoc]
      rfl
    · have hnext' : ¬ (P.value last : Int) = P.value first + 1 := by omega
      rw [if_neg hnext, if_neg hnext', joinedPieces_singleton, List.append_assoc]
      rfl

private theorem stringFlush_eq {run : Run} {first last : κ} (h : run.Is P (some (first, last)))
    (out : Text) :
    stringFlush run out = out ++ joinedPieces P (flushPieces P (first, last)) := by
  have hnot : run.first ≠ -1 := by
    rw [h.1]
    omega
  rw [flush_text h, stringFlush, if_pos hnot]
  split_ifs
  · rfl
  · rfl
  · rfl

/-- What the loop and the flush after it write are the pieces of the categories. -/
private theorem stringLoop_pieces (cats : List κ) {run : Run} {pending : Option (κ × κ)}
    (h : run.Is P pending) (out : Text) :
    stringFlush (stringLoop P.names cats run out).2 (stringLoop P.names cats run out).1 =
      out ++ joinedPieces P (piecesOf P pending cats) := by
  induction cats generalizing run pending out with
  | nil =>
    rw [stringLoop]
    cases pending with
    | none =>
      have hfirst : run.first = -1 := h
      rw [stringFlush, if_neg fun hne => hne hfirst]
      exact (List.append_nil out).symm
    | some pending => exact stringFlush_eq h out
  | cons cat rest ih =>
    rw [stringLoop]
    cases pending with
    | none =>
      have hfirst : run.first = -1 := h
      rw [if_pos hfirst, piecesOf]
      have hstart : Run.Is P { run with
          str1 := P.names.catFqn cat
          first := P.names.value cat
          last := P.names.value cat } (some (cat, cat)) :=
        ⟨rfl, rfl, rfl, fun hne => absurd rfl hne⟩
      exact ih hstart out
    | some pending =>
      obtain ⟨first, last⟩ := pending
      have hfirst : ¬ run.first = -1 := by
        rw [h.1]
        omega
      rw [if_neg hfirst, piecesOf]
      have hvalue : P.names.value cat = P.value cat := rfl
      by_cases hnext : P.value cat = P.value last + 1
      · have hnext' : (P.names.value cat : Int) = run.last + 1 := by
          rw [h.2.1, hvalue]
          omega
        rw [if_pos hnext', if_pos hnext]
        have hlonger : Run.Is P { run with
            last := run.last + 1
            str2 := P.names.catFqn cat } (some (first, cat)) := by
          refine ⟨h.1, ?_, h.2.2.1, fun _ => rfl⟩
          show run.last + 1 = P.value cat
          rw [h.2.1]
          omega
        exact ih hlonger out
      · have hnext' : ¬ (P.names.value cat : Int) = run.last + 1 := by
          rw [h.2.1, hvalue]
          omega
        rw [if_neg hnext', if_neg hnext]
        dsimp only
        have hpair : (if run.first = run.last then
              out ++ (run.str1 ++ [','] ++ P.names.catFqn cat)
            else if run.last = run.first + 1 then
              out ++ (run.str1 ++ [','] ++ run.str2 ++ [','] ++ P.names.catFqn cat)
            else out ++ (run.str1 ++ ['.'] ++ run.str2 ++ [','] ++ P.names.catFqn cat)) =
            out ++ joinedPieces P (flushPieces P (first, last) ++ [.single cat]) := by
          rw [joinedPieces_append (flushPieces_ne_nil _) (List.cons_ne_nil _ _), flush_text h]
          have hsingle : joinedPieces P [.single cat] = P.names.catFqn cat :=
            joinedPieces_singleton _
          rw [hsingle]
          split_ifs
          all_goals simp only [List.append_assoc, List.singleton_append]
        have hnone : Run.Is P { run with first := -1, last := -1 } none := rfl
        rw [hpair, ih hnone]
        by_cases hrest : rest = []
        · rw [if_neg fun hne => hne hrest, hrest, piecesOf]
          exact List.append_nil _
        · have hmore := piecesOf_ne_nil (P := P) none (Or.inr hrest)
          have hassoc : flushPieces P (first, last) ++ .single cat :: piecesOf P none rest =
              flushPieces P (first, last) ++ [.single cat] ++ piecesOf P none rest := by
            rw [List.append_assoc]
            rfl
          have hne : flushPieces P (first, last) ++ [.single cat] ≠ [] :=
            fun hnil => flushPieces_ne_nil _ (List.append_eq_nil_iff.mp hnil).1
          rw [if_pos hrest, hassoc, joinedPieces_append hne hmore]
          simp only [List.append_assoc, List.singleton_append]

/-- The categories of a run are those from its first to its last. -/
def RunHas (P : LevelPolicy σ κ) (c : κ) : Option (κ × κ) → Prop
  | none => False
  | some (first, last) => P.value first ≤ P.value c ∧ P.value c ≤ P.value last

private theorem flushPieces_has {first last : κ} (c : κ) :
    (∃ p ∈ flushPieces P (first, last), P.Has c p) ↔ RunHas P c (some (first, last)) := by
  unfold flushPieces RunHas
  dsimp only
  split_ifs with heq hnext
  · rw [← heq]
    constructor
    · intro h
      obtain ⟨p, hp, hc⟩ := h
      rw [List.mem_singleton.mp hp] at hc
      have hsame : c = first := hc
      rw [hsame]
      exact ⟨Nat.le_refl _, Nat.le_refl _⟩
    · intro h
      exact ⟨.single first, List.mem_cons_self, value_injective (Nat.le_antisymm h.2 h.1)⟩
  · constructor
    · intro h
      obtain ⟨p, hp, hc⟩ := h
      rcases List.mem_cons.mp hp with hp | hp
      · rw [hp] at hc
        have hsame : c = first := hc
        rw [hsame]
        omega
      · rw [List.mem_singleton.mp hp] at hc
        have hsame : c = last := hc
        rw [hsame]
        omega
    · intro h
      by_cases hfirst : P.value c = P.value first
      · exact ⟨.single first, List.mem_cons_self, value_injective hfirst⟩
      · have hlast : P.value c = P.value last := by omega
        exact ⟨.single last, List.mem_cons_of_mem _ List.mem_cons_self, value_injective hlast⟩
  · constructor
    · intro h
      obtain ⟨p, hp, hc⟩ := h
      rw [List.mem_singleton.mp hp] at hc
      exact hc
    · intro h
      exact ⟨.range first last, List.mem_cons_self, h⟩

/-- The pieces mean the run and the categories after it. -/
private theorem piecesOf_has (cats : List κ) {pending : Option (κ × κ)}
    (hup : ∀ first last, pending = some (first, last) → P.value first ≤ P.value last) (c : κ) :
    (∃ p ∈ piecesOf P pending cats, P.Has c p) ↔ RunHas P c pending ∨ c ∈ cats := by
  induction cats generalizing pending with
  | nil =>
    cases pending with
    | none =>
      rw [piecesOf]
      constructor
      · intro h
        obtain ⟨p, hp, -⟩ := h
        cases hp
      · intro h
        rcases h with hrun | hmem
        · exact hrun.elim
        · cases hmem
    | some pending =>
      obtain ⟨first, last⟩ := pending
      rw [piecesOf, flushPieces_has]
      exact (or_iff_left List.not_mem_nil).symm
  | cons cat rest ih =>
    cases pending with
    | none =>
      have hself : ∀ first last, some (cat, cat) = some (first, last) →
          P.value first ≤ P.value last := by
        intro first last heq
        cases heq
        exact Nat.le_refl _
      rw [piecesOf, ih hself, List.mem_cons]
      have hrun : RunHas P c (some (cat, cat)) ↔ c = cat := by
        constructor
        · intro h
          exact value_injective (Nat.le_antisymm h.2 h.1)
        · intro h
          rw [h]
          exact ⟨Nat.le_refl _, Nat.le_refl _⟩
      rw [hrun]
      constructor
      · exact Or.inr
      · intro h
        exact h.resolve_left id
    | some pending =>
      obtain ⟨first, last⟩ := pending
      have hle := hup first last rfl
      rw [piecesOf]
      dsimp only
      split_ifs with hnext
      · have hlonger : ∀ first' last', some (first, cat) = some (first', last') →
            P.value first' ≤ P.value last' := by
          intro first' last' heq
          cases heq
          omega
        rw [ih hlonger, List.mem_cons, ← or_assoc]
        refine or_congr_left ?_
        constructor
        · intro h
          have hup : P.value first ≤ P.value c ∧ P.value c ≤ P.value cat := h
          by_cases heq : P.value c = P.value cat
          · exact Or.inr (value_injective heq)
          · exact Or.inl ⟨hup.1, by omega⟩
        · intro h
          rcases h with hrun | heq
          · have hup : P.value first ≤ P.value c ∧ P.value c ≤ P.value last := hrun
            exact ⟨hup.1, by omega⟩
          · rw [heq]
            exact ⟨by omega, Nat.le_refl _⟩
      · have hnone : ∀ first' last', none = some (first', last') →
            P.value first' ≤ P.value last' := by
          intro first' last' heq
          cases heq
        have hrest := ih hnone
        constructor
        · intro h
          obtain ⟨p, hp, hc⟩ := h
          rcases List.mem_append.mp hp with hp | hp
          · exact Or.inl ((flushPieces_has c).mp ⟨p, hp, hc⟩)
          · rcases List.mem_cons.mp hp with hp | hp
            · rw [hp] at hc
              have hsame : c = cat := hc
              rw [hsame]
              exact Or.inr List.mem_cons_self
            · rcases hrest.mp ⟨p, hp, hc⟩ with hrun | hmem
              · exact hrun.elim
              · exact Or.inr (List.mem_cons_of_mem cat hmem)
        · intro h
          rcases h with hrun | hmem
          · obtain ⟨p, hp, hc⟩ := (flushPieces_has c).mpr hrun
            exact ⟨p, List.mem_append_left _ hp, hc⟩
          · rcases List.mem_cons.mp hmem with heq | hmem
            · exact ⟨.single cat, List.mem_append_right _ List.mem_cons_self, heq⟩
            · obtain ⟨p, hp, hc⟩ := hrest.mpr (Or.inr hmem)
              exact ⟨p, List.mem_append_right _ (List.mem_cons_of_mem _ hp), hc⟩

/-- The pieces are such as are written. -/
private theorem piecesOf_written (cats : List κ) {pending : Option (κ × κ)}
    (hup : ∀ first last, pending = some (first, last) → P.value first ≤ P.value last) :
    ∀ p ∈ piecesOf P pending cats, P.Written p := by
  have hflush : ∀ first last, P.value first ≤ P.value last →
      ∀ p ∈ flushPieces P (first, last), P.Written p := by
    intro first last hle p hp
    unfold flushPieces at hp
    dsimp only at hp
    split_ifs at hp with heq hnext
    · rw [List.mem_singleton.mp hp]
      trivial
    · rcases List.mem_cons.mp hp with hp | hp
      · rw [hp]
        trivial
      · rw [List.mem_singleton.mp hp]
        trivial
    · rw [List.mem_singleton.mp hp]
      show P.value first + 1 < P.value last
      omega
  induction cats generalizing pending with
  | nil =>
    cases pending with
    | none => exact fun p hp => (List.not_mem_nil hp).elim
    | some pending => exact hflush pending.1 pending.2 (hup _ _ rfl)
  | cons cat rest ih =>
    cases pending with
    | none =>
      refine ih fun first last heq => ?_
      cases heq
      exact Nat.le_refl _
    | some pending =>
      obtain ⟨first, last⟩ := pending
      have hle := hup first last rfl
      intro p hp
      rw [piecesOf] at hp
      dsimp only at hp
      split_ifs at hp with hnext
      · refine ih (fun first' last' heq => ?_) p hp
        cases heq
        omega
      · rcases List.mem_append.mp hp with hp | hp
        · exact hflush first last hle p hp
        · rcases List.mem_cons.mp hp with hp | hp
          · rw [hp]
            trivial
          · refine ih (fun first' last' heq => ?_) p hp
            cases heq

end Pieces

section Decoding

variable {σ κ : Type} [DecidableEq κ] {P : LevelPolicy σ κ}

/-- The text of a level with categories. -/
private theorem levelText_eq {s : σ} {cats : List κ} :
    levelText P.names ⟨s, some (some cats)⟩ =
      P.sensFqn s ++ ':' :: joinedPieces P (piecesOf P none cats) := by
  have hstart : Run.start.Is P none := rfl
  have hloop := stringLoop_pieces (P := P) cats hstart (P.sensFqn s ++ [':'])
  rw [List.append_assoc] at hloop
  exact hloop

omit [DecidableEq κ] in
private theorem colon_not_mem_sens (s : σ) : ':' ∉ P.sensFqn s :=
  (P.sens_isFqn s).not_mem (by decide) colon_not_nameChar

omit [DecidableEq κ] in
private theorem comma_not_mem_piece (p : Piece κ) : ',' ∉ P.pieceText p := by
  have hcat : ∀ c, ',' ∉ P.catFqn c := fun c =>
    (P.cat_isFqn c).not_mem (by decide) comma_not_nameChar
  cases p with
  | single c => exact hcat c
  | range first last =>
    intro hmem
    rcases List.mem_append.mp hmem with hfirst | hlast
    · exact hcat first hfirst
    · rcases List.mem_cons.mp hlast with hdot | hlast
      · exact absurd hdot (by decide)
      · exact hcat last hlast

private theorem LevelPolicy.Written.legal {p : Piece κ} (h : P.Written p) : P.Legal p := by
  cases p with
  | single c => trivial
  | range first last =>
    have hlt : P.value first + 1 < P.value last := h
    show P.value first < P.value last
    omega

/-- A level can be read as it is. -/
private theorem reads_levelText {l : Level σ κ} (h : l.cats ≠ some (some [])) :
    Reads P (levelText P.names l) l.sens {c | c ∈ l.categories} := by
  obtain ⟨s, cats⟩ := l
  have hempty : Reads P (P.sensFqn s) s {c | c ∈ ([] : List κ)} := by
    refine Or.inl ⟨rfl, ?_⟩
    ext c
    exact iff_of_false List.not_mem_nil id
  cases cats with
  | none => exact hempty
  | some cats =>
    cases cats with
    | none => exact hempty
    | some cats =>
      have hne : cats ≠ [] := fun hnil => h (by rw [hnil])
      have hnone : ∀ first last, (none : Option (κ × κ)) = some (first, last) →
          P.value first ≤ P.value last := fun _ _ heq => by cases heq
      refine Or.inr ⟨piecesOf P none cats, piecesOf_ne_nil none (Or.inr hne), ?_, levelText_eq, ?_⟩
      · exact fun p hp => (piecesOf_written cats hnone p hp).legal
      · ext c
        have hhas := piecesOf_has cats hnone c
        constructor
        · intro hc
          exact hhas.mpr (Or.inr hc)
        · intro hc
          exact (hhas.mp hc).resolve_left id

omit [DecidableEq κ] in
/-- The texts of pieces are read back one by one. -/
private theorem joinedPieces_injective {pieces pieces' : List (Piece κ)} (h : pieces ≠ [])
    (h' : pieces' ≠ []) (heq : joinedPieces P pieces = joinedPieces P pieces') :
    pieces.map P.pieceText = pieces'.map P.pieceText := by
  have hcomma : ∀ (ps : List (Piece κ)), ∀ word ∈ ps.map P.pieceText, ',' ∉ word := by
    intro ps word hword
    obtain ⟨p, -, rfl⟩ := List.mem_map.mp hword
    exact comma_not_mem_piece p
  exact joined_injective (fun hnil => h (List.map_eq_nil_iff.mp hnil))
    (fun hnil => h' (List.map_eq_nil_iff.mp hnil)) (hcomma pieces) (hcomma pieces') heq

/-- Pieces with the same texts are the same, where these are unambiguous. -/
private theorem pieces_eq (hunambiguous : P.Unambiguous) {pieces pieces' : List (Piece κ)}
    (hwritten : ∀ p ∈ pieces, P.Written p) (hlegal : ∀ p ∈ pieces', P.Legal p)
    (h : pieces.map P.pieceText = pieces'.map P.pieceText) : pieces = pieces' := by
  induction pieces generalizing pieces' with
  | nil => exact (List.map_eq_nil_iff.mp h.symm).symm
  | cons p rest ih =>
    cases pieces' with
    | nil => cases h
    | cons q rest' =>
      obtain ⟨hpq, hrest⟩ := List.cons.inj h
      rw [hunambiguous p q (hwritten p List.mem_cons_self) (hlegal q List.mem_cons_self) hpq,
        ih (fun p' hp' => hwritten p' (List.mem_cons_of_mem p hp'))
          (fun q' hq' => hlegal q' (List.mem_cons_of_mem q hq')) hrest]

/-- Where the texts of pieces are unambiguous, a level is read as nothing else. -/
private theorem decodesBack_of_unambiguous (hunambiguous : P.Unambiguous) {l : Level σ κ}
    (h : l.cats ≠ some (some [])) : DecodesBack P l := by
  intro s set
  constructor
  · intro hreads
    obtain ⟨sens, cats⟩ := l
    have hnull : Reads P (P.sensFqn sens) s set → s = sens ∧ set = ∅ := by
      intro hr
      rcases hr with ⟨heq, hset⟩ | ⟨pieces, -, -, heq, -⟩
      · exact ⟨(P.sens_injective heq).symm, hset⟩
      · have hcolon : ':' ∈ P.sensFqn sens := by
          rw [heq]
          exact List.mem_append_right _ List.mem_cons_self
        exact absurd hcolon (colon_not_mem_sens sens)
    cases cats with
    | none => simpa [Level.categories] using hnull hreads
    | some cats =>
      cases cats with
      | none => simpa [Level.categories] using hnull hreads
      | some cats =>
        have hne : cats ≠ [] := fun hnil => h (by rw [hnil])
        have hnone : ∀ first last, (none : Option (κ × κ)) = some (first, last) →
            P.value first ≤ P.value last := fun _ _ heq => by cases heq
        rw [levelText_eq] at hreads
        rcases hreads with ⟨heq, -⟩ | ⟨pieces, hpieces, hlegal, heq, hset⟩
        · have hcolon : ':' ∈ P.sensFqn s := by
            rw [← heq]
            exact List.mem_append_right _ List.mem_cons_self
          exact absurd hcolon (colon_not_mem_sens s)
        · obtain ⟨hsens, hbody⟩ := split_first (colon_not_mem_sens sens) (colon_not_mem_sens s) heq
          have htexts := joinedPieces_injective (piecesOf_ne_nil none (Or.inr hne)) hpieces hbody
          have hsame := pieces_eq hunambiguous (piecesOf_written cats hnone) hlegal htexts
          refine ⟨(P.sens_injective hsens).symm, ?_⟩
          rw [hset, ← hsame]
          ext c
          have hhas := piecesOf_has cats hnone c
          constructor
          · intro hc
            exact (hhas.mp hc).resolve_left id
          · intro hc
            exact hhas.mpr (Or.inr hc)
  · intro hboth
    rw [hboth.1, hboth.2]
    exact reads_levelText h

/-- Legal pieces that mean the same are the same. -/
private theorem piece_eq_of_has {p q : Piece κ} (hp : P.Legal p) (hq : P.Legal q)
    (h : ∀ c, P.Has c p ↔ P.Has c q) : p = q := by
  cases p with
  | single c =>
    cases q with
    | single c' =>
      have hsame : c = c' := (h c).mp rfl
      rw [hsame]
    | range first last =>
      have hlt : P.value first < P.value last := hq
      have hfirst : first = c := (h first).mpr ⟨Nat.le_refl _, hlt.le⟩
      have hlast : last = c := (h last).mpr ⟨hlt.le, Nat.le_refl _⟩
      rw [hfirst, hlast] at hlt
      exact absurd hlt (Nat.lt_irrefl _)
  | range first last =>
    have hlt : P.value first < P.value last := hp
    cases q with
    | single c =>
      have hfirst : first = c := (h first).mp ⟨Nat.le_refl _, hlt.le⟩
      have hlast : last = c := (h last).mp ⟨hlt.le, Nat.le_refl _⟩
      rw [hfirst, hlast] at hlt
      exact absurd hlt (Nat.lt_irrefl _)
    | range first' last' =>
      have hlt' : P.value first' < P.value last' := hq
      have h1 : P.value first' ≤ P.value first ∧ P.value first ≤ P.value last' :=
        (h first).mp ⟨Nat.le_refl _, hlt.le⟩
      have h2 : P.value first' ≤ P.value last ∧ P.value last ≤ P.value last' :=
        (h last).mp ⟨hlt.le, Nat.le_refl _⟩
      have h3 : P.value first ≤ P.value first' ∧ P.value first' ≤ P.value last :=
        (h first').mpr ⟨Nat.le_refl _, hlt'.le⟩
      have h4 : P.value first ≤ P.value last' ∧ P.value last' ≤ P.value last :=
        (h last').mpr ⟨hlt'.le, Nat.le_refl _⟩
      rw [value_injective (Nat.le_antisymm h3.1 h1.1),
        value_injective (Nat.le_antisymm h2.2 h4.2)]

/-- Categories that follow each other are one run. -/
private theorem piecesOf_consecutive (cats : List κ) (first last : κ)
    (h : cats.map P.value = List.range' (P.value last + 1) cats.length) :
    ∃ end_, P.value end_ = P.value last + cats.length ∧
      piecesOf P (some (first, last)) cats = flushPieces P (first, end_) := by
  induction cats generalizing last with
  | nil => exact ⟨last, rfl, rfl⟩
  | cons cat rest ih =>
    rw [List.map_cons, List.length_cons, List.range'_succ] at h
    obtain ⟨hcat, hrest⟩ := List.cons.inj h
    rw [← hcat] at hrest
    obtain ⟨end_, hend, hpieces⟩ := ih cat hrest
    refine ⟨end_, ?_, ?_⟩
    · rw [hend, hcat, List.length_cons]
      omega
    · rw [piecesOf, if_pos hcat]
      exact hpieces

/-- Every piece that is written is the whole text for some categories. -/
private theorem exists_written {p : Piece κ} (h : P.Written p) :
    ∃ cats, cats ≠ [] ∧ piecesOf P none cats = [p] := by
  cases p with
  | single c =>
    refine ⟨[c], List.cons_ne_nil _ _, ?_⟩
    rw [piecesOf, piecesOf, flushPieces, if_pos rfl]
  | range first last =>
    have hlt : P.value first + 1 < P.value last := h
    have hlast : P.value last < P.order.length := by
      rw [value_eq]
      exact List.idxOf_lt_length_of_mem (P.ordered last)
    let cats := (P.order.drop (P.value first)).take (P.value last - P.value first + 1)
    have hlength : cats.length = P.value last - P.value first + 1 := by
      simp only [cats, List.length_take, List.length_drop]
      omega
    have hvalues : cats.map P.value =
        List.range' (P.value first) (P.value last - P.value first + 1) := by
      apply List.ext_getElem
      · rw [List.length_map, hlength, List.length_range']
      · intro i hi hi'
        rw [List.getElem_map, List.getElem_range', value_eq]
        simp only [cats, List.getElem_take, List.getElem_drop, P.nodup.idxOf_getElem]
        omega
    obtain ⟨cat, rest, hcats⟩ := List.exists_cons_of_length_eq_add_one hlength
    rw [hcats, List.length_cons] at hlength
    rw [hcats, List.map_cons, List.range'_succ] at hvalues
    obtain ⟨hcat, hrest⟩ := List.cons.inj hvalues
    have hsame : cat = first := value_injective hcat
    have hrestLength : rest.length = P.value last - P.value first := by omega
    rw [← hrestLength, ← hcat] at hrest
    obtain ⟨end_, hend, hpieces⟩ := piecesOf_consecutive rest cat cat hrest
    have hendLast : end_ = last := by
      apply value_injective
      rw [hend, hcat, hrestLength]
      omega
    refine ⟨cat :: rest, List.cons_ne_nil _ _, ?_⟩
    rw [piecesOf, hpieces, hsame, hendLast, flushPieces, if_neg, if_neg]
    · show ¬ P.value last = P.value first + 1
      omega
    · show ¬ P.value first = P.value last
      omega

/-- Every level is read as it is and as nothing else exactly where the texts of pieces are
unambiguous. -/
theorem decodesBack_iff (P : LevelPolicy σ κ) (s : σ) :
    (∀ l : Level σ κ, l.cats ≠ some (some []) → DecodesBack P l) ↔ P.Unambiguous := by
  constructor
  · intro h p q hp hq htext
    obtain ⟨cats, hne, hpieces⟩ := exists_written hp
    have hback := h ⟨s, some (some cats)⟩ fun heq =>
      hne (Option.some.inj (Option.some.inj heq))
    have hlevel :
        levelText P.names ⟨s, some (some cats)⟩ = P.sensFqn s ++ ':' :: P.pieceText p := by
      rw [levelText_eq, hpieces, joinedPieces_singleton]
    have hreads : ∀ r, P.Legal r → P.pieceText r = P.pieceText p →
        Reads P (levelText P.names ⟨s, some (some cats)⟩) s {c | P.Has c r} := by
      intro r hr heq
      refine Or.inr ⟨[r], List.cons_ne_nil _ _, ?_, ?_, ?_⟩
      · intro r' hr'
        rw [List.mem_singleton.mp hr']
        exact hr
      · rw [hlevel, ← heq, List.map_singleton, joined_singleton]
      · ext c
        simp
    have hsetp := ((hback s _).mp (hreads p hp.legal rfl)).2
    have hsetq := ((hback s _).mp (hreads q hq htext.symm)).2
    refine piece_eq_of_has hp.legal hq fun c => ?_
    have hsets : {c | P.Has c p} = {c | P.Has c q} := hsetp.trans hsetq.symm
    exact Set.ext_iff.mp hsets c
  · intro hunambiguous l hl
    exact decodesBack_of_unambiguous hunambiguous hl

end Decoding

section Dotted

/-- The categories `b`, `x` and `c0`, and a `c0` in a block `b`, in this order. -/
def dottedPolicy : LevelPolicy Unit (Fin 4) where
  order := List.finRange 4
  nodup := by decide
  ordered := by decide
  sensFqn _ := ['s']
  catFqn c := joined '.' ([[['b']], [['x']], [['c', '0']], [['b'], ['c', '0']]].getD c [])
  sens_isFqn _ := ⟨[['s']], by decide, by decide, rfl⟩
  cat_isFqn
    | 0 => ⟨[['b']], by decide, by decide, rfl⟩
    | 1 => ⟨[['x']], by decide, by decide, rfl⟩
    | 2 => ⟨[['c', '0']], by decide, by decide, rfl⟩
    | 3 => ⟨[['b'], ['c', '0']], by decide, by decide, rfl⟩
  sens_injective _ _ _ := rfl
  cat_injective c c' h := by
    revert c c'
    decide

/-- The text of the level with the `c0` of the block is also that of the range from `b` to `c0`. -/
theorem dotted_not_decodesBack :
    ¬ ∀ (σ κ : Type) [DecidableEq κ] (P : LevelPolicy σ κ) (l : Level σ κ),
      l.cats ≠ some (some []) → DecodesBack P l := by
  intro h
  have hback := h Unit (Fin 4) dottedPolicy ⟨(), some (some [3])⟩ (by decide)
  have htext : levelText dottedPolicy.names ⟨(), some (some [3])⟩ =
      ['s'] ++ ':' :: joined ',' ([Piece.range (0 : Fin 4) 2].map dottedPolicy.pieceText) := by
    decide
  have hreads : Reads dottedPolicy (levelText dottedPolicy.names ⟨(), some (some [3])⟩) ()
      {c | ∃ p ∈ [Piece.range (0 : Fin 4) 2], dottedPolicy.Has c p} := by
    refine Or.inr ⟨[.range 0 2], List.cons_ne_nil _ _, ?_, htext, rfl⟩
    intro p hp
    rw [List.mem_singleton.mp hp]
    show dottedPolicy.value 0 < dottedPolicy.value 2
    decide
  have hset := ((hback () _).mp hreads).2
  have hzero : (0 : Fin 4) ∈ {c | c ∈ (⟨(), some (some [3])⟩ : Level Unit (Fin 4)).categories} := by
    rw [← hset]
    refine ⟨.range 0 2, List.mem_cons_self, ?_⟩
    show dottedPolicy.value 0 ≤ dottedPolicy.value 0 ∧ dottedPolicy.value 0 ≤ dottedPolicy.value 2
    decide
  have hmem : (0 : Fin 4) ∈ [3] := hzero
  revert hmem
  decide

end Dotted

end Cil.Write
