/- Cil/Write/Multimap
   digest: Lists of keys with their values, and the statements that are printed from them. -/

import Mathlib.Data.List.Dedup
import Mathlib.Data.List.Forall2
import Mathlib.Data.List.Induction
import Cil.Basic
import Cil.Write.Level

set_option autoImplicit false
set_option relaxedAutoImplicit false

namespace Cil.Write.Multimap

/-- What a pointer can point to here: a datum of the database or an item of a list. -/
inductive Pointer (δ : Type)
  | datum (d : δ)
  | listItem (address : Nat)
  deriving DecidableEq, Repr

/-- A `cil_list_item` of a list of values, with its own address; its data may be null. -/
structure ValueItem (δ : Type) where
  address : Nat
  data : Option δ
  deriving DecidableEq, Repr

/-- `cil_multimap_item`. -/
structure MultimapItem (δ : Type) where
  key : Option δ
  values : List (ValueItem δ)
  deriving DecidableEq, Repr

/-- The data of the items of the list, and the address of the next object that is allocated. -/
structure ItemList (δ : Type) where
  items : List (Option (MultimapItem δ))
  fresh : Nat
  deriving DecidableEq, Repr

section Insert

variable {δ : Type} [DecidableEq δ]

/-- `curr_value == (struct cil_list_item*)value`. -/
def isValue (currValue : ValueItem δ) (value : Option δ) : Bool :=
  decide (some (Pointer.listItem currValue.address) = value.map Pointer.datum)

/-- The loop of `cil_multimap_insert`, with the code where it returns. -/
def insertLoop (key : δ) (value : Option δ) :
    Nat → List (Option (MultimapItem δ)) → Option Rc × Nat × List (Option (MultimapItem δ))
  | fresh, [] => (none, fresh, [])
  | fresh, none :: rest => (some .err, fresh, none :: rest)
  | fresh, some item :: rest =>
      if item.key = some key then
        if item.values.any fun currValue => isValue currValue value then
          (some .ok, fresh, some item :: rest)
        else
          -- after the value has been appended the loop goes on to the next key
          let (rc, fresh', rest') := insertLoop key value (fresh + 1) rest
          (rc, fresh', some { item with values := item.values ++ [⟨fresh, value⟩] } :: rest')
      else
        let (rc, fresh', rest') := insertLoop key value fresh rest
        (rc, fresh', some item :: rest')

/-- `cil_multimap_insert`. -/
def multimapInsert (list : ItemList δ) (key value : Option δ) : Rc × ItemList δ :=
  match key with
  | none => (.err, list)
  | some key =>
      match insertLoop key value list.fresh list.items with
      | (some rc, fresh, items) => (rc, ⟨items, fresh⟩)
      | (none, fresh, items) =>
          let values := if value.isSome then [⟨fresh, value⟩] else []
          (.ok, ⟨items ++ [some ⟨some key, values⟩], fresh + 1⟩)

/-- A sequence of insertions into a new list; the callers ignore the return codes. -/
def insertAll (pairs : List (δ × Option δ)) : ItemList δ :=
  pairs.foldl (fun list p => (multimapInsert list (some p.1) p.2).2) ⟨[], 0⟩

end Insert

section Print

variable {δ : Type} (name : δ → Text)

/-- The loops over the values of an item; `none` where a null pointer is followed. -/
def valuesToPolicy : List (ValueItem δ) → Option Text
  | [] => some []
  | ⟨_, none⟩ :: _ => none
  | ⟨_, some d⟩ :: rest => (valuesToPolicy rest).map fun text => " ".toList ++ name d ++ text

/-- `cil_userrole_to_policy`. -/
def userroleToPolicy : List (Option (MultimapItem δ)) → Option (Rc × Text)
  | [] => some (.ok, [])
  | some ⟨some _, []⟩ :: _ => some (.err, [])
  | some ⟨some key, values⟩ :: rest => do
      let roles ← valuesToPolicy name values
      let (rc, text) ← userroleToPolicy rest
      some (rc, "user ".toList ++ name key ++ " roles \x7b".toList ++ roles ++
        " \x7d;\n".toList ++ text)
  | _ => none

/-- The loop that `cil_cat_to_policy` and `cil_sens_to_policy` share. -/
def aliasedToPolicy (keyword : Text) : List (Option (MultimapItem δ)) → Option (Rc × Text)
  | [] => some (.ok, [])
  | some ⟨some key, values⟩ :: rest => do
      let aliases ←
        match values with
        | [] => some []
        | values => (valuesToPolicy name values).map fun text => " alias".toList ++ text
      let (rc, text) ← aliasedToPolicy keyword rest
      some (rc, keyword ++ name key ++ aliases ++ ";\n".toList ++ text)
  | _ => none

/-- `cil_cat_to_policy`. -/
def catToPolicy : List (Option (MultimapItem δ)) → Option (Rc × Text) :=
  aliasedToPolicy name "category ".toList

/-- `cil_sens_to_policy`. -/
def sensToPolicy : List (Option (MultimapItem δ)) → Option (Rc × Text) :=
  aliasedToPolicy name "sensitivity ".toList

end Print

section Meaning

variable {δ : Type} [DecidableEq δ] (pairs : List (δ × Option δ))

/-- The keys in the order in which they were first inserted. -/
def keys : List δ := (pairs.map Prod.fst).reverse.dedup.reverse

/-- The values that were inserted with a key. -/
def valuesOf (key : δ) : List δ := (pairs.filterMap fun p => if p.1 = key then p.2 else none).dedup

/-- The entry of the list is the item of the key, with each of its values once. -/
def Holds (key : δ) (entry : Option (MultimapItem δ)) : Prop :=
  ∃ (values : List (ValueItem δ)) (ds : List δ), entry = some ⟨some key, values⟩ ∧
    values.map ValueItem.data = ds.map some ∧ ds.Perm (valuesOf pairs key)

/-- The list has one item for each key, in the order of first insertion. -/
def IsMultimap (items : List (Option (MultimapItem δ))) : Prop :=
  List.Forall₂ (Holds pairs) (keys pairs) items

/-- The text has one statement for each key, with the values of the key. -/
def OneEach (statement : δ → List δ → Text) (text : Text) : Prop :=
  ∃ printed : List (δ × List δ), printed.map Prod.fst = keys pairs ∧
    (∀ p ∈ printed, p.2.Perm (valuesOf pairs p.1)) ∧
    text = printed.flatMap fun p => statement p.1 p.2

variable (name : δ → Text)

def namesText (values : List δ) : Text := values.flatMap fun d => " ".toList ++ name d

def userStatement (key : δ) (values : List δ) : Text :=
  "user ".toList ++ name key ++ " roles \x7b".toList ++ namesText name values ++ " \x7d;\n".toList

def aliasedStatement (keyword : Text) (key : δ) (values : List δ) : Text :=
  keyword ++ name key ++
    (if values = [] then [] else " alias".toList ++ namesText name values) ++ ";\n".toList

/-- One statement is printed per user, category and sensitivity; users without roles are
refused. -/
structure PrintsOnce (items : List (Option (MultimapItem δ))) : Prop where
  user : (∀ key ∈ keys pairs, valuesOf pairs key ≠ []) →
    ∃ text, userroleToPolicy name items = some (.ok, text) ∧
      OneEach pairs (userStatement name) text
  userless : ¬ (∀ key ∈ keys pairs, valuesOf pairs key ≠ []) →
    ∃ text, userroleToPolicy name items = some (.err, text)
  cat : ∃ text, catToPolicy name items = some (.ok, text) ∧
    OneEach pairs (aliasedStatement name "category ".toList) text
  sens : ∃ text, sensToPolicy name items = some (.ok, text) ∧
    OneEach pairs (aliasedStatement name "sensitivity ".toList) text

end Meaning

section Printing

variable {δ : Type} (name : δ → Text)

private theorem valuesToPolicy_of {values : List (ValueItem δ)} {ds : List δ}
    (h : values.map ValueItem.data = ds.map some) :
    valuesToPolicy name values = some (namesText name ds) := by
  induction values generalizing ds with
  | nil =>
      have hnil : ds = [] := List.map_eq_nil_iff.mp h.symm
      rw [hnil]
      rfl
  | cons value rest ih =>
      cases ds with
      | nil => cases h
      | cons d ds =>
          obtain ⟨address, data⟩ := value
          have hd : data = some d := (List.cons.inj h).1
          have hrest := ih (List.cons.inj h).2
          rw [hd, valuesToPolicy, hrest]
          rfl

variable [DecidableEq δ] {pairs : List (δ × Option δ)}

/-- A loop that prints each item by a statement of its own prints so all entries of keys. -/
private theorem printed_of {toPolicy : List (Option (MultimapItem δ)) → Option (Rc × Text)}
    {statement : δ → List δ → Text} {ks : List δ} {items : List (Option (MultimapItem δ))}
    (hnil : toPolicy [] = some (.ok, []))
    (hcons : ∀ key ∈ ks, ∀ (values : List (ValueItem δ)) (ds : List δ)
      (items : List (Option (MultimapItem δ))) (text : Text),
      values.map ValueItem.data = ds.map some → ds.Perm (valuesOf pairs key) →
      toPolicy items = some (.ok, text) →
      toPolicy (some ⟨some key, values⟩ :: items) = some (.ok, statement key ds ++ text))
    (h : List.Forall₂ (Holds pairs) ks items) :
    ∃ printed : List (δ × List δ), printed.map Prod.fst = ks ∧
      (∀ p ∈ printed, p.2.Perm (valuesOf pairs p.1)) ∧
      toPolicy items = some (.ok, printed.flatMap fun p => statement p.1 p.2) := by
  induction h with
  | nil => exact ⟨[], rfl, fun p hp => (List.not_mem_nil hp).elim, hnil⟩
  | @cons key entry ks items hentry _ ih =>
      obtain ⟨values, ds, hitem, hvalues, hperm⟩ := hentry
      obtain ⟨printed, hkeys, hprinted, htext⟩ :=
        ih fun key hkey => hcons key (List.mem_cons_of_mem _ hkey)
      refine ⟨(key, ds) :: printed, ?_, ?_, ?_⟩
      · rw [List.map_cons, hkeys]
      · intro p hp
        rcases List.mem_cons.mp hp with heq | hp
        · rw [heq]
          exact hperm
        · exact hprinted p hp
      · rw [hitem, List.flatMap_cons]
        exact hcons key List.mem_cons_self values ds items _ hvalues hperm htext

/-- Entries for keys are printed by statements of their own. -/
private theorem aliasedToPolicy_of {keyword : Text} {ks : List δ}
    {items : List (Option (MultimapItem δ))} (h : List.Forall₂ (Holds pairs) ks items) :
    ∃ printed : List (δ × List δ), printed.map Prod.fst = ks ∧
      (∀ p ∈ printed, p.2.Perm (valuesOf pairs p.1)) ∧
      aliasedToPolicy name keyword items =
        some (.ok, printed.flatMap fun p => aliasedStatement name keyword p.1 p.2) := by
  refine printed_of rfl (fun key _ values ds items text hvalues _ htext => ?_) h
  cases values with
  | nil =>
      have hnil : ds = [] := List.map_eq_nil_iff.mp hvalues.symm
      rw [hnil, aliasedToPolicy, htext]
      rfl
  | cons value rest =>
      have hne : ds ≠ [] := by
        intro hnil
        rw [hnil] at hvalues
        cases hvalues
      have hnames := valuesToPolicy_of name hvalues
      simp only [aliasedToPolicy, hnames, htext]
      rw [aliasedStatement, if_neg hne]
      rfl

/-- Where each key has a value, the same holds of users. -/
private theorem userroleToPolicy_of {ks : List δ} {items : List (Option (MultimapItem δ))}
    (h : List.Forall₂ (Holds pairs) ks items) (hroles : ∀ key ∈ ks, valuesOf pairs key ≠ []) :
    ∃ printed : List (δ × List δ), printed.map Prod.fst = ks ∧
      (∀ p ∈ printed, p.2.Perm (valuesOf pairs p.1)) ∧
      userroleToPolicy name items =
        some (.ok, printed.flatMap fun p => userStatement name p.1 p.2) := by
  refine printed_of rfl (fun key hkey values ds items text hvalues hperm htext => ?_) h
  cases values with
  | nil =>
      have hnil : ds = [] := List.map_eq_nil_iff.mp hvalues.symm
      rw [hnil] at hperm
      exact (hroles key hkey hperm.nil_eq.symm).elim
  | cons value rest =>
      have hnames := valuesToPolicy_of name hvalues
      simp only [userroleToPolicy, hnames, htext]
      rfl

/-- A user without roles makes the printing fail. -/
private theorem userroleToPolicy_fails {ks : List δ} {items : List (Option (MultimapItem δ))}
    (h : List.Forall₂ (Holds pairs) ks items)
    (hroles : ¬ ∀ key ∈ ks, valuesOf pairs key ≠ []) :
    ∃ text, userroleToPolicy name items = some (.err, text) := by
  induction h with
  | nil => exact (hroles fun key hkey => (List.not_mem_nil hkey).elim).elim
  | @cons key entry ks items hentry _ ih =>
      obtain ⟨values, ds, hitem, hvalues, hperm⟩ := hentry
      rw [hitem]
      cases values with
      | nil => exact ⟨[], rfl⟩
      | cons value rest =>
          have hne : valuesOf pairs key ≠ [] := by
            intro hnil
            rw [hnil] at hperm
            rw [hperm.eq_nil] at hvalues
            cases hvalues
          obtain ⟨text, htext⟩ := ih fun hall => hroles fun k hk => by
            rcases List.mem_cons.mp hk with heq | hk
            · rw [heq]
              exact hne
            · exact hall k hk
          have hnames := valuesToPolicy_of name hvalues
          have hentry : userroleToPolicy name (some ⟨some key, value :: rest⟩ :: items) =
              some (.err, userStatement name key ds ++ text) := by
            simp only [userroleToPolicy, hnames, htext]
            rfl
          exact ⟨_, hentry⟩

theorem IsMultimap.printsOnce {items : List (Option (MultimapItem δ))}
    (h : IsMultimap pairs items) : PrintsOnce pairs name items where
  user hroles := by
    obtain ⟨printed, hkeys, hvalues, htext⟩ := userroleToPolicy_of name h hroles
    exact ⟨_, htext, printed, hkeys, hvalues, rfl⟩
  userless hroles := userroleToPolicy_fails name h hroles
  cat := by
    obtain ⟨printed, hkeys, hvalues, htext⟩ := aliasedToPolicy_of name h
    exact ⟨_, htext, printed, hkeys, hvalues, rfl⟩
  sens := by
    obtain ⟨printed, hkeys, hvalues, htext⟩ := aliasedToPolicy_of name h
    exact ⟨_, htext, printed, hkeys, hvalues, rfl⟩

end Printing

section Exact

variable {δ : Type} [DecidableEq δ]

private theorem not_isValue (currValue : ValueItem δ) (value : Option δ) :
    isValue currValue value = false := by
  cases value <;> simp [isValue]

def entryKey (entry : Option (MultimapItem δ)) : Option δ := entry.bind MultimapItem.key

/-- What the loop leaves when it goes to the end: the items keep their keys. -/
structure Passed (key : δ) (items items' : List (Option (MultimapItem δ))) : Prop where
  keys : items'.map entryKey = items.map entryKey
  nonnull : ∀ entry ∈ items', entry ≠ none
  other : some key ∉ items.map entryKey → items' = items

omit [DecidableEq δ] in
/-- The loop goes past an item whose key it keeps, and which it changes only where it has the
key. -/
theorem Passed.cons {key : δ} {items items' : List (Option (MultimapItem δ))}
    {item item' : MultimapItem δ} (h : Passed key items items') (hkey : item'.key = item.key)
    (hsame : item.key ≠ some key → item' = item) :
    Passed key (some item :: items) (some item' :: items') where
  keys := by
    rw [List.map_cons, List.map_cons, h.keys, entryKey, entryKey, Option.bind_some,
      Option.bind_some, hkey]
  nonnull entry hentry := by
    rcases List.mem_cons.mp hentry with heq | hentry
    · rw [heq]
      exact Option.some_ne_none _
    · exact h.nonnull entry hentry
  other hother := by
    rw [List.map_cons, List.mem_cons, not_or] at hother
    rw [h.other hother.2, hsame fun heq => hother.1 heq.symm]

private theorem insertLoop_passed (key : δ) (value : Option δ)
    (items : List (Option (MultimapItem δ)))
    (hitems : ∀ entry ∈ items, entry ≠ none) (fresh : Nat) :
    ∃ fresh' items', insertLoop key value fresh items = (none, fresh', items') ∧
      Passed key items items' := by
  induction items generalizing fresh with
  | nil =>
      refine ⟨fresh, [], rfl, rfl, hitems, fun _ => rfl⟩
  | cons entry rest ih =>
      have hrest := ih fun entry hentry => hitems entry (List.mem_cons_of_mem _ hentry)
      cases entry with
      | none => exact (hitems none List.mem_cons_self rfl).elim
      | some item =>
          rw [insertLoop]
          by_cases hkey : item.key = some key
          · have hany : (item.values.any fun currValue => isValue currValue value) = false := by
              simp [not_isValue]
            obtain ⟨fresh', items', hloop, hpassed⟩ := hrest (fresh + 1)
            rw [if_pos hkey, hany, hloop]
            exact ⟨fresh', _, rfl, hpassed.cons rfl fun hne => (hne hkey).elim⟩
          · obtain ⟨fresh', items', hloop, hpassed⟩ := hrest fresh
            rw [if_neg hkey, hloop]
            exact ⟨fresh', _, rfl, hpassed.cons rfl fun _ => rfl⟩

/-- The items of a list that insertions have built. -/
structure Inserted (pairs : List (δ × Option δ)) (items : List (Option (MultimapItem δ))) :
    Prop where
  keys : items.map entryKey = pairs.map fun p => some p.1
  nonnull : ∀ entry ∈ items, entry ≠ none
  distinct : (pairs.map Prod.fst).Nodup →
    List.Forall₂ (fun p entry => ∃ values : List (ValueItem δ), entry = some ⟨some p.1, values⟩ ∧
      values.map ValueItem.data = p.2.toList.map some) pairs items

theorem Inserted.snoc {pairs : List (δ × Option δ)} {list : ItemList δ}
    (h : Inserted pairs list.items) (p : δ × Option δ) :
    Inserted (pairs ++ [p]) (multimapInsert list (some p.1) p.2).2.items := by
  obtain ⟨fresh', items', hloop, hpassed⟩ :=
    insertLoop_passed p.1 p.2 list.items h.nonnull list.fresh
  have hresult : (multimapInsert list (some p.1) p.2).2.items = items' ++
      [some ⟨some p.1, if p.2.isSome then [⟨fresh', p.2⟩] else []⟩] := by
    simp only [multimapInsert, hloop]
  rw [hresult]
  constructor
  case keys =>
    rw [List.map_append, List.map_append, hpassed.keys, h.keys]
    rfl
  case nonnull =>
    intro entry hentry
    rcases List.mem_append.mp hentry with hentry | hentry
    · exact hpassed.nonnull entry hentry
    · rw [List.mem_singleton.mp hentry]
      exact Option.some_ne_none _
  case distinct =>
    intro hnodup
    rw [List.map_append, List.nodup_append] at hnodup
    obtain ⟨hnodup, -, hfresh⟩ := hnodup
    have hother : some p.1 ∉ list.items.map entryKey := by
      rw [h.keys]
      intro hmem
      obtain ⟨q, hq, heq⟩ := List.mem_map.mp hmem
      exact hfresh q.1 (List.mem_map_of_mem hq) p.1 List.mem_cons_self (Option.some.inj heq)
    rw [hpassed.other hother]
    refine List.rel_append (h.distinct hnodup) (List.Forall₂.cons ⟨_, rfl, ?_⟩ .nil)
    cases p.2 <;> rfl

private theorem insertAll_inserted (pairs : List (δ × Option δ)) :
    Inserted pairs (insertAll pairs).items := by
  induction pairs using List.reverseRec with
  | nil => exact ⟨rfl, fun entry hentry => (List.not_mem_nil hentry).elim, fun _ => .nil⟩
  | append_singleton pairs p ih =>
      rw [insertAll, List.foldl_append]
      exact ih.snoc p

private theorem keys_of_nodup {pairs : List (δ × Option δ)} (h : (pairs.map Prod.fst).Nodup) :
    keys pairs = pairs.map Prod.fst := by
  rw [keys, (List.nodup_reverse.mpr h).dedup, List.reverse_reverse]

/-- A key that is inserted once has one value at most. -/
private theorem valuesOf_of_nodup {pairs : List (δ × Option δ)} (h : (pairs.map Prod.fst).Nodup)
    {p : δ × Option δ} (hp : p ∈ pairs) : valuesOf pairs p.1 = p.2.toList := by
  have hall : ∀ rest : List (δ × Option δ), p.1 ∉ rest.map Prod.fst →
      (rest.filterMap fun q => if q.1 = p.1 then q.2 else none) = [] := by
    intro rest hrest
    rw [List.filterMap_eq_nil_iff]
    intro q hq
    rw [if_neg]
    intro heq
    exact hrest (List.mem_map.mpr ⟨q, hq, heq⟩)
  have hvalues : (pairs.filterMap fun q => if q.1 = p.1 then q.2 else none) = p.2.toList := by
    obtain ⟨front, back, hsplit⟩ := List.append_of_mem hp
    rw [hsplit, List.map_append, List.map_cons, List.nodup_append, List.nodup_cons] at h
    obtain ⟨-, ⟨hback, -⟩, hfront⟩ := h
    have hfront' : p.1 ∉ front.map Prod.fst := fun hmem =>
      hfront p.1 hmem p.1 List.mem_cons_self rfl
    rw [hsplit, List.filterMap_append, hall front hfront', List.nil_append, List.filterMap_cons,
      if_pos rfl, hall back hback]
    cases p.2 <;> rfl
  rw [valuesOf, hvalues]
  cases p.2 <;> rfl

/-- The insertions build a multimap, from which one statement is printed per key, if and only if
no key is inserted twice. -/
theorem insertAll_multimap_iff (name : δ → Text) (pairs : List (δ × Option δ)) :
    IsMultimap pairs (insertAll pairs).items ∧ PrintsOnce pairs name (insertAll pairs).items ↔
      (pairs.map Prod.fst).Nodup := by
  have hinserted := insertAll_inserted pairs
  constructor
  · intro h
    have hlength : (keys pairs).length = (insertAll pairs).items.length := h.1.length_eq
    have hitems : (insertAll pairs).items.length = pairs.length := by
      have hkeys := congrArg List.length hinserted.keys
      rw [List.length_map, List.length_map] at hkeys
      exact hkeys
    have hsame : (pairs.map Prod.fst).reverse.dedup = (pairs.map Prod.fst).reverse := by
      apply (List.dedup_sublist _).eq_of_length
      rw [List.length_reverse, List.length_map, ← hitems, ← hlength, keys, List.length_reverse]
    rw [← List.nodup_reverse, ← hsame]
    exact List.nodup_dedup _
  · intro hnodup
    have hmultimap : IsMultimap pairs (insertAll pairs).items := by
      rw [IsMultimap, keys_of_nodup hnodup, List.forall₂_map_left_iff]
      have hentries := (List.forall₂_and_left _ _).mpr
        ⟨fun p (hp : p ∈ pairs) => hp, hinserted.distinct hnodup⟩
      refine hentries.imp fun p entry h => ?_
      obtain ⟨hp, values, hentry, hvalues⟩ := h
      exact ⟨values, p.2.toList, hentry, hvalues, by rw [valuesOf_of_nodup hnodup hp]⟩
    exact ⟨hmultimap, hmultimap.printsOnce name⟩

/-- A user with a role: the role is appended to the item of the user, and then comes a second
item for the user. -/
theorem userWithRole_twice : ¬ IsMultimap [("staff_u", none), ("staff_u", some "staff_r")]
    (insertAll [("staff_u", none), ("staff_u", some "staff_r")]).items := by
  intro h
  have hlength := h.length_eq
  revert hlength
  decide

end Exact

end Cil.Write.Multimap
