/- Cil/CilList
   digest: The linked lists of the compiler in memory, and the lists they stand for. -/

import Cil.Library.Call
import Cil.Library.ChainedItems
import Mathlib.Logic.Function.Basic

set_option autoImplicit false
set_option relaxedAutoImplicit false

namespace Cil.CilList

open Library

section Memory

/-- `cil_list_error` ends the program. -/
inductive Exit
  | exit
  deriving DecidableEq, Repr

/-- What an item holds: data of some flavor, or a list, of flavor `CIL_LIST`. -/
inductive Data (φ δ : Type)
  | item (flavor : φ) (data : δ)
  | sublist (list : Option Nat)
  deriving DecidableEq, Repr

/-- `cil_list_item`. -/
abbrev Item (φ δ : Type) := LinkedItem (Data φ δ)

/-- `cil_list`. -/
structure Header (φ : Type) where
  head : Option Nat
  tail : Option Nat
  flavor : φ
  deriving DecidableEq, Repr

/-- Items and lists by their addresses; what was freed is not there any more. `destroyed` is what
was passed to `cil_destroy_data`. -/
structure Memory (φ δ : Type) where
  items : Nat → Option (Item φ δ)
  lists : Nat → Option (Header φ)
  fresh : Nat
  destroyed : List (φ × δ)

end Memory

section Code

variable {φ δ : Type}

/-- Nothing was allocated. -/
def Memory.init : Memory φ δ := ⟨fun _ => none, fun _ => none, 0, []⟩

def Memory.setItem (m : Memory φ δ) (p : Nat) (item : Option (Item φ δ)) : Memory φ δ :=
  { m with items := Function.update m.items p item }

def Memory.setList (m : Memory φ δ) (l : Nat) (h : Option (Header φ)) : Memory φ δ :=
  { m with lists := Function.update m.lists l h }

/-- The next address was given away. -/
def Memory.taken (m : Memory φ δ) : Memory φ δ := { m with fresh := m.fresh + 1 }

/-- `cil_list_init`. -/
def cilListInit (flavor : φ) : Call Exit (Memory φ δ) Nat := fun m =>
  some (.ok m.fresh (m.setList m.fresh (some ⟨none, none, flavor⟩)).taken)

/-- `cil_list_item_init`, and the data that the caller sets. -/
def cilListItemInit (data : Data φ δ) : Call Exit (Memory φ δ) Nat := fun m =>
  some (.ok m.fresh (m.setItem m.fresh (some ⟨data, none⟩)).taken)

/-- A list pointer is followed, a null pointer is an error. -/
def listOf : Option Nat → Call Exit (Memory φ δ) Nat
  | none => Call.fail .exit
  | some l => pure l

def readList (l : Nat) : Call Exit (Memory φ δ) (Header φ) :=
  Call.get >>= fun m => Call.orCrash (m.lists l)

def readItem (p : Nat) : Call Exit (Memory φ δ) (Item φ δ) :=
  Call.get >>= fun m => Call.orCrash (m.items p)

def writeList (l : Nat) (h : Header φ) : Call Exit (Memory φ δ) Unit :=
  Call.modify fun m => m.setList l (some h)

/-- `item->next = next`. -/
def setNext (p : Nat) (next : Option Nat) : Call Exit (Memory φ δ) Unit :=
  readItem p >>= fun item =>
  Call.modify fun m => m.setItem p (some { item with next := next })

/-- Nothing is freed twice, or it is a crash. -/
def freeItem (p : Nat) : Call Exit (Memory φ δ) Unit :=
  readItem p >>= fun _ => Call.modify fun m => m.setItem p none

def freeList (l : Nat) : Call Exit (Memory φ δ) Unit :=
  readList l >>= fun _ => Call.modify fun m => m.setList l none

/-- `cil_list_append`. -/
def cilListAppend (list : Option Nat) (data : Data φ δ) : Call Exit (Memory φ δ) Unit :=
  listOf list >>= fun l =>
  cilListItemInit data >>= fun item =>
  readList l >>= fun h =>
  match h.tail with
  | none => writeList l { h with head := some item, tail := some item }
  | some t =>
      setNext t (some item) >>= fun _ =>
      writeList l { h with tail := some item }

/-- `cil_list_prepend`. -/
def cilListPrepend (list : Option Nat) (data : Data φ δ) : Call Exit (Memory φ δ) Unit :=
  listOf list >>= fun l =>
  cilListItemInit data >>= fun item =>
  readList l >>= fun h =>
  match h.tail with
  | none => writeList l { h with head := some item, tail := some item }
  | some _ =>
      setNext item h.head >>= fun _ =>
      writeList l { h with head := some item }

/-- `cil_list_insert`; it returns the new item. -/
def cilListInsert (list curr : Option Nat) (data : Data φ δ) :
    Call Exit (Memory φ δ) (Option Nat) :=
  listOf list >>= fun l =>
  match curr with
  | none =>
      cilListPrepend (some l) data >>= fun _ =>
      readList l >>= fun h => pure h.head
  | some c =>
      readList l >>= fun h =>
      if h.tail = some c then
        cilListAppend (some l) data >>= fun _ =>
        readList l >>= fun h => pure h.tail
      else
        cilListItemInit data >>= fun item =>
        readItem c >>= fun before =>
        setNext item before.next >>= fun _ =>
        setNext c (some item) >>= fun _ =>
        pure (some item)

variable [DecidableEq φ] [DecidableEq δ]

/-- What was before an item is followed by what was behind it. -/
def setBefore (l : Nat) (previous next : Option Nat) : Call Exit (Memory φ δ) Unit :=
  match previous with
  | none => readList l >>= fun h => writeList l { h with head := next }
  | some q => setNext q next

/-- The tail moves if nothing was behind the item. -/
def setTail (l : Nat) (previous next : Option Nat) : Call Exit (Memory φ δ) Unit :=
  match next with
  | none => readList l >>= fun h => writeList l { h with tail := previous }
  | some _ => pure ()

/-- The loop of `cil_list_remove`, whose callers keep the data. -/
def removeLoop (l : Nat) (data : Data φ δ) :
    Nat → Option Nat → Option Nat → Call Exit (Memory φ δ) Unit
  | 0, _, _ => Call.outOfFuel
  | _ + 1, _, none => pure ()
  | fuel + 1, previous, some p =>
      readItem p >>= fun item =>
      if item.data = data then
        setBefore l previous item.next >>= fun _ =>
        setTail l previous item.next >>= fun _ =>
        freeItem p
      else removeLoop l data fuel (some p) item.next

/-- `cil_list_remove`. -/
def cilListRemove (fuel : Nat) (list : Option Nat) (data : Data φ δ) :
    Call Exit (Memory φ δ) Unit :=
  listOf list >>= fun l =>
  readList l >>= fun h =>
  removeLoop l data fuel none h.head

omit [DecidableEq φ] [DecidableEq δ]

/-- `cil_list_item_destroy` for an item that holds no list. -/
def cilListItemDestroy (destroyData : Bool) (p : Nat) (flavor : φ) (data : δ) :
    Call Exit (Memory φ δ) Unit :=
  (if destroyData then
    Call.modify fun m => { m with destroyed := m.destroyed ++ [(flavor, data)] }
  else pure ()) >>= fun _ =>
  freeItem p

mutual

/-- `cil_list_destroy`. -/
def cilListDestroy (destroyData : Bool) : Nat → Option Nat → Call Exit (Memory φ δ) Unit
  | 0, _ => Call.outOfFuel
  | _ + 1, none => pure ()
  | fuel + 1, some l =>
      readList l >>= fun h =>
      destroyItems destroyData fuel h.head >>= fun _ =>
      freeList l

/-- Its loop over the items. -/
def destroyItems (destroyData : Bool) : Nat → Option Nat → Call Exit (Memory φ δ) Unit
  | 0, _ => Call.outOfFuel
  | _ + 1, none => pure ()
  | fuel + 1, some p =>
      readItem p >>= fun item =>
      (match item.data with
        | .sublist list => cilListDestroy destroyData fuel list >>= fun _ => freeItem p
        | .item flavor data => cilListItemDestroy destroyData p flavor data) >>= fun _ =>
      destroyItems destroyData fuel item.next

end

/-- What `cil_list_for_each` reads from an item on. -/
def Memory.dataFrom (m : Memory φ δ) : Nat → Option Nat → List (Data φ δ)
  | 0, _ => []
  | _ + 1, none => []
  | fuel + 1, some p =>
      match m.items p with
      | none => []
      | some item => item.data :: m.dataFrom fuel item.next

end Code

section Abstract

variable {φ δ : Type}

/-- An item of a list, with its address. -/
abbrev Entry (φ δ : Type) := Nat × Data φ δ

/-- The lists, with their flavors, that a client of the functions works with. -/
structure Lists (φ δ : Type) where
  lists : Nat → Option (φ × List (Entry φ δ))
  fresh : Nat
  destroyed : List (φ × δ)

def Lists.init : Lists φ δ := ⟨fun _ => none, 0, []⟩

/-- The addresses of the items of a list. -/
def Lists.addresses (A : Lists φ δ) (l : Nat) : List Nat :=
  match A.lists l with
  | none => []
  | some (_, xs) => xs.map Prod.fst

/-- A list gets another content, and addresses are taken up to `fresh`. -/
def Lists.put (A : Lists φ δ) (l : Nat) (flavor : φ) (xs : List (Entry φ δ)) (fresh : Nat) :
    Lists φ δ :=
  { A with lists := Function.update A.lists l (some (flavor, xs)), fresh := fresh }

/-- Lists are gone, and data was passed to `cil_destroy_data`. -/
def Lists.without (A : Lists φ δ) (ls : List Nat) (gone : List (φ × δ)) : Lists φ δ :=
  { A with
    lists := fun l => if l ∈ ls then none else A.lists l
    destroyed := A.destroyed ++ gone }

/-- What `cil_list_destroy` passes to `cil_destroy_data`. -/
def passed (destroyData : Bool) (gone : List (φ × δ)) : List (φ × δ) :=
  if destroyData then gone else []

/-- An entry comes after the one at the address `c`. -/
def insertAfter (c : Nat) (e : Entry φ δ) : List (Entry φ δ) → List (Entry φ δ)
  | [] => []
  | x :: xs => if x.1 = c then x :: e :: xs else x :: insertAfter c e xs

/-- The lists that data holds, those in these and so on, outermost first, and the other data there
in order. -/
inductive Below (lists : Nat → Option (φ × List (Entry φ δ))) :
    List (Data φ δ) → List Nat → List (φ × δ) → Prop
  | nil : Below lists [] [] []
  | item {flavor : φ} {data : δ} {ds : List (Data φ δ)} {ls : List Nat} {gone : List (φ × δ)}
      (hrest : Below lists ds ls gone) :
      Below lists (.item flavor data :: ds) ls ((flavor, data) :: gone)
  | null {ds : List (Data φ δ)} {ls : List Nat} {gone : List (φ × δ)}
      (hrest : Below lists ds ls gone) : Below lists (.sublist none :: ds) ls gone
  | list {l : Nat} {flavor : φ} {xs : List (Entry φ δ)} {ds : List (Data φ δ)}
      {inner ls : List Nat} {gone gone' : List (φ × δ)} (hlist : lists l = some (flavor, xs))
      (hinner : Below lists (xs.map Prod.snd) inner gone) (hrest : Below lists ds ls gone') :
      Below lists (.sublist (some l) :: ds) (l :: inner ++ ls) (gone ++ gone')

/-- The calls of a client. -/
inductive Op (φ δ : Type)
  | init (flavor : φ)
  | append (l : Nat) (data : Data φ δ)
  | prepend (l : Nat) (data : Data φ δ)
  | insert (l : Nat) (curr : Option Nat) (data : Data φ δ)
  | remove (l : Nat) (data : Data φ δ)
  | destroy (destroyData : Bool) (l : Nat)

variable [DecidableEq φ] [DecidableEq δ]

/-- What a call does to the lists: it names a list that is there, an insertion comes after an item
of the list, and what is destroyed with a list hangs below it once. -/
inductive Step : Lists φ δ → Op φ δ → Lists φ δ → Prop
  | init {A : Lists φ δ} (flavor : φ) :
      Step A (.init flavor) (A.put A.fresh flavor [] (A.fresh + 1))
  | append {A : Lists φ δ} {l : Nat} {flavor : φ} {xs : List (Entry φ δ)} (data : Data φ δ)
      (hl : A.lists l = some (flavor, xs)) :
      Step A (.append l data) (A.put l flavor (xs ++ [(A.fresh, data)]) (A.fresh + 1))
  | prepend {A : Lists φ δ} {l : Nat} {flavor : φ} {xs : List (Entry φ δ)} (data : Data φ δ)
      (hl : A.lists l = some (flavor, xs)) :
      Step A (.prepend l data) (A.put l flavor ((A.fresh, data) :: xs) (A.fresh + 1))
  | insertFirst {A : Lists φ δ} {l : Nat} {flavor : φ} {xs : List (Entry φ δ)} (data : Data φ δ)
      (hl : A.lists l = some (flavor, xs)) :
      Step A (.insert l none data) (A.put l flavor ((A.fresh, data) :: xs) (A.fresh + 1))
  | insert {A : Lists φ δ} {l c : Nat} {flavor : φ} {xs : List (Entry φ δ)} (data : Data φ δ)
      (hl : A.lists l = some (flavor, xs)) (hc : c ∈ xs.map Prod.fst) :
      Step A (.insert l (some c) data)
        (A.put l flavor (insertAfter c (A.fresh, data) xs) (A.fresh + 1))
  | remove {A : Lists φ δ} {l : Nat} {flavor : φ} {xs : List (Entry φ δ)} (data : Data φ δ)
      (hl : A.lists l = some (flavor, xs)) :
      Step A (.remove l data)
        (A.put l flavor (xs.eraseP fun e => decide (e.2 = data)) A.fresh)
  | destroy {A : Lists φ δ} {l : Nat} {flavor : φ} {xs : List (Entry φ δ)} {inner : List Nat}
      {gone : List (φ × δ)} (destroyData : Bool) (hl : A.lists l = some (flavor, xs))
      (hbelow : Below A.lists (xs.map Prod.snd) inner gone) (honce : (l :: inner).Nodup) :
      Step A (.destroy destroyData l) (A.without (l :: inner) (passed destroyData gone))

/-- A client makes calls one after the other. -/
inductive Steps : Lists φ δ → List (Op φ δ) → Lists φ δ → Prop
  | nil (A : Lists φ δ) : Steps A [] A
  | cons {A B C : Lists φ δ} {op : Op φ δ} {ops : List (Op φ δ)} (hstep : Step A op B)
      (hrest : Steps B ops C) : Steps A (op :: ops) C

/-- A call of a client. -/
def Op.run (fuel : Nat) : Op φ δ → Call Exit (Memory φ δ) Unit
  | .init flavor => cilListInit flavor >>= fun _ => pure ()
  | .append l data => cilListAppend (some l) data
  | .prepend l data => cilListPrepend (some l) data
  | .insert l curr data => cilListInsert (some l) curr data >>= fun _ => pure ()
  | .remove l data => cilListRemove fuel (some l) data
  | .destroy destroyData l => cilListDestroy destroyData fuel (some l)

end Abstract

end Cil.CilList
