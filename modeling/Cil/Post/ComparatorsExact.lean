/- Cil/Post/ComparatorsExact
   digest: When the comparators order what they are given. -/

import Cil.Post.Comparators

/-!
Sizes of ranges are compared by a difference that has to fit an `int`. As long as it does, the
comparators follow lexicographic orders; two sizes that are 2^31 apart are each before the other,
and sizes still farther apart are in the wrong order.
-/

set_option autoImplicit false
set_option relaxedAutoImplicit false

namespace Cil.Post.Comparators

open Library.Comparator
open Cil.Parser (nul deliverable_iff)
open PathScan

/-- The comparator is consistent, and so sorting gives one order only. -/
def Orders {α κ : Type} (cmp : α → α → Option Int) (key : α → κ) (entries : List α) : Prop :=
  Consistent cmp key entries ∧
    ∀ l l', l.Perm entries → l'.Perm entries → Sorted cmp l → Sorted cmp l' →
      l.map key = l'.map key

private theorem orders_iff {α κ : Type} {cmp : α → α → Option Int} {key : α → κ}
    {entries : List α} :
    Orders cmp key entries ↔ Consistent cmp key entries :=
  ⟨fun h => h.1, fun h => ⟨h, fun _ _ hl hl' => h.unique hl hl'⟩⟩

/-- What is smaller comes first. -/
def SmallerFirst {α : Type} (cmp : α → α → Option Int) (size : α → Nat) (entries : List α) :
    Prop :=
  ∀ a ∈ entries, ∀ b ∈ entries, size a < size b → ∀ r, cmp a b = some r → r < 0

/-- A comparator that always returns. -/
def total {α : Type} (cmp : α → α → Int) (a b : α) : Option Int := some (cmp a b)

private theorem follows_total {α : Type} {cmp : α → α → Int} {order : α → α → Ordering}
    {entries : List α} (h : ∀ a ∈ entries, ∀ b ∈ entries, compare (cmp a b) 0 = order a b) :
    Follows (total cmp) order entries :=
  fun a ha b hb => ⟨cmp a b, rfl, h a ha b hb⟩

theorem strcmp_compare (a b : Text) :
    compare (strcmp a b) 0 = compare (a.map Char.toNat) (b.map Char.toNat) :=
  lexCompare_compare Char.toNat a b

private theorem memcmp_compare (a b : List UInt8) (size : Nat) :
    compare (memcmp a b size) 0
      = compare ((a.take size).map UInt8.toNat) ((b.take size).map UInt8.toNat) :=
  lexCompare_compare UInt8.toNat (a.take size) (b.take size)

private theorem map_toNat_inj {a b : Text} : a.map Char.toNat = b.map Char.toNat ↔ a = b := by
  have hinj : Function.Injective Char.toNat := fun c d h => Char.toNat_inj.mp h
  exact hinj.list_map.eq_iff

theorem map_byte_inj {a b : List UInt8} : a.map UInt8.toNat = b.map UInt8.toNat ↔ a = b := by
  have hinj : Function.Injective UInt8.toNat := fun c d h => UInt8.toNat_inj.mp h
  exact hinj.list_map.eq_iff

/-- A comparison of numbers, and another one when they are the same. -/
private theorem compare_then {m n : Nat} {r : Int} {o : Ordering} (h : compare r 0 = o) :
    compare (if m < n then (-1 : Int) else if n < m then 1 else r) 0 = (compare m n).then o := by
  rcases Nat.lt_trichotomy m n with hlt | heq | hgt
  · have hless : compare m n = .lt := Nat.compare_eq_lt.mpr hlt
    rw [if_pos hlt, hless]
    rfl
  · have hsame : compare m n = .eq := Nat.compare_eq_eq.mpr heq
    rw [if_neg (by omega), if_neg (by omega), hsame, h]
    rfl
  · have hmore : compare m n = .gt := Nat.compare_eq_gt.mpr hgt
    rw [if_neg (by omega), if_pos hgt, hmore]
    rfl

section Files

namespace Filecon

/-- What the comparator looks at: the data of the scan, and the type. -/
def key (f : Filecon) : FcData × FileconType := (pathData f.pathStr, f.type)

/-- Paths with metacharacters come before those without. -/
def metaRank (fc : FcData) : Nat := if fc.hasMeta then 0 else 1

def order : Filecon → Filecon → Ordering :=
  compareLex (compareOn fun f => metaRank (pathData f.pathStr))
    (compareLex (compareOn fun f => (pathData f.pathStr).stemLen)
      (compareLex (compareOn fun f => (pathData f.pathStr).strLen)
        (compareOn fun f => f.type.value)))

/-- The scan of the path ends inside the string. -/
def Scanned (f : Filecon) : Prop :=
  endingBackslashes f.pathStr % 2 = 0 ∧ f.pathStr.length < 2 ^ 31

end Filecon

private theorem value_inj {t t' : FileconType} : t.value = t'.value ↔ t = t' := by
  constructor
  · intro h
    cases t <;> cases t' <;> first | rfl | cases h
  · intro h
    rw [h]

private theorem Filecon.order_eq (a b : Filecon) : Filecon.order a b = .eq ↔ a.key = b.key := by
  simp only [Filecon.order, compareLex_eq_eq, compareOn, Nat.compare_eq_eq, value_inj, Filecon.key,
    Prod.mk.injEq]
  constructor
  · intro h
    obtain ⟨hmeta, hstem, hstr, htype⟩ := h
    refine ⟨?_, htype⟩
    cases ha : pathData a.pathStr with
    | mk ma sa la =>
      cases hb : pathData b.pathStr with
      | mk mb sb lb =>
        rw [ha, hb] at hmeta hstem hstr
        have hsame : ma = mb := by
          cases ma <;> cases mb <;> first | rfl | cases hmeta
        have hstem : sa = sb := hstem
        have hstr : la = lb := hstr
        rw [hsame, hstem, hstr]
  · intro h
    rw [h.1, h.2]
    exact ⟨rfl, rfl, rfl, rfl⟩

private theorem fcDataCompare_compare (a b : FcData) (t t' : FileconType) :
    compare (fcDataCompare a b t t') 0 =
      (compare (Filecon.metaRank a) (Filecon.metaRank b)).then
        ((compare a.stemLen b.stemLen).then
          ((compare a.strLen b.strLen).then (compare t.value t'.value))) := by
  have htype : compare (if t.value < t'.value then (-1 : Int)
      else if t'.value < t.value then 1 else 0) 0 = (compare t.value t'.value).then .eq :=
    compare_then rfl
  rw [Ordering.then_eq] at htype
  have hstr := compare_then (m := a.strLen) (n := b.strLen) htype
  have hstem := compare_then (m := a.stemLen) (n := b.stemLen) hstr
  have hmeta := compare_then (m := Filecon.metaRank a) (n := Filecon.metaRank b) hstem
  rw [← hmeta]
  unfold fcDataCompare Filecon.metaRank
  cases a.hasMeta <;> cases b.hasMeta <;> simp

theorem filecon_orders_iff (entries : List Filecon) :
    Orders fileconCompare Filecon.key entries ↔ ∀ f ∈ entries, f.Scanned := by
  rw [orders_iff]
  constructor
  · intro h f hf
    obtain ⟨r, hr⟩ := h.defined f hf f hf
    have hnul := (deliverable_iff.mp f.deliverable).2
    refine (fillData_done_iff hnul).mp ?_
    cases hscan : fillData f.pathStr with
    | done fc => exact ⟨fc, rfl⟩
    | overrun => simp [fileconCompare, hscan] at hr
    | overflow => simp [fileconCompare, hscan] at hr
    | running => simp [fileconCompare, hscan] at hr
  · intro h
    have hdone : ∀ f ∈ entries, fillData f.pathStr = .done (pathData f.pathStr) := fun f hf =>
      fillData_done (deliverable_iff.mp f.deliverable).2 (h f hf).1 (h f hf).2
    have hfollows : Follows fileconCompare Filecon.order entries := by
      intro a ha b hb
      refine ⟨fcDataCompare (pathData a.pathStr) (pathData b.pathStr) a.type b.type, ?_, ?_⟩
      · simp only [fileconCompare, hdone a ha, hdone b hb]
      · exact fcDataCompare_compare _ _ _ _
    have htrans : Std.TransCmp Filecon.order := by
      unfold Filecon.order
      infer_instance
    exact hfollows.consistent Filecon.order_eq

end Files

section Names

/-- The entries of a comparator that returns always, and as the order says. -/
private theorem orders_of_compare {α κ : Type} {cmp : α → α → Int} (order : α → α → Ordering)
    [Std.TransCmp order] {key : α → κ} (entries : List α)
    (h : ∀ a b, compare (cmp a b) 0 = order a b)
    (hkey : ∀ a b, order a b = .eq ↔ key a = key b) : Orders (total cmp) key entries :=
  orders_iff.mpr ((follows_total fun a _ b _ => h a b).consistent hkey)

/-- The bytes of a text. -/
def codes (t : Text) : List Nat := t.map Char.toNat

theorem codes_compare_eq {a b : Text} : compare (codes a) (codes b) = .eq ↔ a = b := by
  rw [Std.LawfulEqOrd.compare_eq_iff_eq]
  exact map_toNat_inj

/-- One comparison, and another one when it finds no difference. -/
private theorem compare_ite {r r' : Int} {o o' : Ordering} (h : compare r 0 = o)
    (h' : compare r' 0 = o') : compare (if r = 0 then r' else r) 0 = o.then o' := by
  by_cases hzero : r = 0
  · have hsame : o = .eq := by rw [← h, compare_zero_eq, hzero]
    rw [if_pos hzero, hsame, h']
    rfl
  · have hdiff : o ≠ .eq := fun heq => hzero (compare_zero_eq.mp (h.trans heq))
    rw [if_neg hzero, h]
    cases o with
    | lt => rfl
    | eq => exact absurd rfl hdiff
    | gt => rfl

theorem genfscon_orders (entries : List Genfscon) :
    Orders (total genfsconCompare) (fun g => (g.fsStr, g.pathStr)) entries := by
  refine orders_of_compare (compareLex (compareOn fun g => codes g.fsStr)
    (compareOn fun g => codes g.pathStr)) entries (fun a b => ?_) fun a b => ?_
  · exact compare_ite (strcmp_compare _ _) (strcmp_compare _ _)
  · rw [compareLex_eq_eq, compareOn, compareOn, codes_compare_eq, codes_compare_eq, Prod.mk.injEq]

theorem netifcon_orders (entries : List Netifcon) :
    Orders (total netifconCompare) (fun n => n.interfaceStr) entries := by
  refine orders_of_compare (compareOn fun n : Netifcon => codes n.interfaceStr) entries
    (fun a b => strcmp_compare _ _) fun a b => ?_
  rw [compareOn, codes_compare_eq]

theorem fsuse_orders (entries : List Fsuse) :
    Orders (total fsuseCompare) (fun u => (u.type, u.fsStr)) entries := by
  refine orders_of_compare (compareLex (compareOn fun u => u.type)
    (compareOn fun u => codes u.fsStr)) entries (fun a b => ?_) fun a b => ?_
  · exact compare_then (strcmp_compare _ _)
  · rw [compareLex_eq_eq, compareOn, compareOn, codes_compare_eq, Nat.compare_eq_eq,
      Prod.mk.injEq]

end Names

section Nodes

namespace Nodecon

/-- IPv4 comes before IPv6. -/
def familyRank (n : Nodecon) : Nat :=
  match n.addr.family with
  | .inet => 0
  | .inet6 => 1

/-- The bytes that are compared. -/
def maskBytes (n : Nodecon) : List UInt8 := n.mask.ip.take n.addr.family.size

def addrBytes (n : Nodecon) : List UInt8 := n.addr.ip.take n.addr.family.size

def key (n : Nodecon) : Family × List UInt8 × List UInt8 :=
  (n.addr.family, n.maskBytes, n.addrBytes)

/-- A mask with more bits comes first. -/
def maskOrder (a b : Nodecon) : Ordering :=
  compareOn (fun n : Nodecon => n.maskBytes.map UInt8.toNat) b a

instance : Std.TransCmp maskOrder :=
  @Std.TransCmp.opposite _ (compareOn fun n : Nodecon => n.maskBytes.map UInt8.toNat)
    inferInstance

def order : Nodecon → Nodecon → Ordering :=
  compareLex (compareOn familyRank)
    (compareLex maskOrder (compareOn fun n => n.addrBytes.map UInt8.toNat))

end Nodecon

private theorem familyRank_inj {a b : Nodecon} :
    Nodecon.familyRank a = Nodecon.familyRank b ↔ a.addr.family = b.addr.family := by
  unfold Nodecon.familyRank
  cases a.addr.family <;> cases b.addr.family <;> simp

private theorem compare_neg {r : Int} : compare (-1 * r) 0 = (compare r 0).swap := by
  rcases Int.lt_trichotomy r 0 with hneg | hzero | hpos
  · rw [compare_zero_lt.mpr hneg]
    exact compare_zero_gt.mpr (by omega)
  · rw [hzero]
    rfl
  · rw [compare_zero_gt.mpr hpos]
    exact compare_zero_lt.mpr (by omega)

theorem nodecon_orders (entries : List Nodecon) :
    Orders (total nodeconCompare) Nodecon.key entries := by
  have htrans : Std.TransCmp Nodecon.order := by
    unfold Nodecon.order
    infer_instance
  refine orders_of_compare Nodecon.order entries (fun a b => ?_) fun a b => ?_
  · by_cases hfamily : a.addr.family = b.addr.family
    · have hrank : compare (Nodecon.familyRank a) (Nodecon.familyRank b) = .eq :=
        Nat.compare_eq_eq.mpr (familyRank_inj.mpr hfamily)
      have hmask : compare (-1 * memcmp a.mask.ip b.mask.ip a.addr.family.size) 0
          = Nodecon.maskOrder a b := by
        rw [compare_neg, memcmp_compare, ← Std.OrientedOrd.eq_swap]
        simp only [Nodecon.maskOrder, compareOn, Nodecon.maskBytes, hfamily]
      have haddr : compare (memcmp a.addr.ip b.addr.ip a.addr.family.size) 0
          = compareOn (fun n : Nodecon => n.addrBytes.map UInt8.toNat) a b := by
        rw [memcmp_compare]
        simp only [compareOn, Nodecon.addrBytes, hfamily]
      have hboth := compare_ite hmask haddr
      have hzero : (-1 * memcmp a.mask.ip b.mask.ip a.addr.family.size = 0)
          ↔ memcmp a.mask.ip b.mask.ip a.addr.family.size = 0 := by omega
      simp only [Nodecon.order, compareLex, compareOn, hrank, Ordering.eq_then]
      simp only [hzero, compareOn] at hboth
      rw [← hboth]
      simp only [nodeconCompare, hfamily, ne_eq, not_true_eq_false, if_false, ite_not]
    · have hrank : compare (Nodecon.familyRank a) (Nodecon.familyRank b) ≠ .eq := fun h =>
        hfamily (familyRank_inj.mp (Nat.compare_eq_eq.mp h))
      simp only [nodeconCompare, ne_eq, hfamily, not_false_eq_true, if_true, Nodecon.order,
        compareLex, compareOn]
      unfold Nodecon.familyRank at hrank ⊢
      cases ha : a.addr.family with
      | inet =>
        cases hb : b.addr.family with
        | inet => exact absurd (ha.trans hb.symm) hfamily
        | inet6 => rfl
      | inet6 =>
        cases hb : b.addr.family with
        | inet => rfl
        | inet6 => exact absurd (ha.trans hb.symm) hfamily
  · simp only [Nodecon.order, compareLex_eq_eq, Nodecon.maskOrder, compareOn,
      familyRank_inj, Std.LawfulEqOrd.compare_eq_iff_eq, map_byte_inj, Nodecon.key, Prod.mk.injEq]
    exact and_congr_right fun _ => and_congr_left fun _ => eq_comm

end Nodes

section Values

private theorem valueCompare_compare (x y : U32) :
    compare (valueCompare x y) 0 = compare x.toNat y.toNat := by
  have h := compare_then (m := x.toNat) (n := y.toNat) (r := 0) (o := .eq) rfl
  rw [Ordering.then_eq] at h
  exact h

theorem pirqcon_orders (entries : List Pirqcon) :
    Orders (total pirqconCompare) (fun p => p.pirq) entries := by
  refine orders_of_compare (compareOn fun p : Pirqcon => p.pirq.toNat) entries
    (fun a b => valueCompare_compare _ _) fun a b => ?_
  rw [compareOn, Nat.compare_eq_eq, BitVec.toNat_inj]

theorem pcidevicecon_orders (entries : List Pcidevicecon) :
    Orders (total pcideviceconCompare) (fun d => d.dev) entries := by
  refine orders_of_compare (compareOn fun d : Pcidevicecon => d.dev.toNat) entries
    (fun a b => valueCompare_compare _ _) fun a b => ?_
  rw [compareOn, Nat.compare_eq_eq, BitVec.toNat_inj]

end Values

section Ranges

variable {α : Type} (low high : α → U32)

/-- The size of a range. -/
def width (a : α) : U32 := high a - low a

/-- No two sizes are so far apart that their difference does not fit an `int`. -/
def Near (entries : List α) : Prop :=
  ∀ a ∈ entries, ∀ b ∈ entries, (width low high a).toNat < (width low high b).toNat + 2 ^ 31

private theorem toInt_sub_of_near {x y : U32} (h : x.toNat < y.toNat + 2 ^ 31)
    (h' : y.toNat < x.toNat + 2 ^ 31) : (x - y).toInt = (x.toNat : Int) - y.toNat := by
  have hx := x.isLt
  have hy := y.isLt
  rw [BitVec.toInt_eq_toNat_cond, BitVec.toNat_sub]
  split_ifs with hhalf
  · omega
  · omega

/-- Sizes that are 2^31 or more apart compare as the smaller one being at least as large. -/
private theorem toInt_sub_of_far {x y : U32} (h : y.toNat + 2 ^ 31 ≤ x.toNat) :
    (x - y).toInt < 0 ∧ (y - x).toInt ≠ 0 ∧ ((y - x).toInt < 0 → x.toNat = y.toNat + 2 ^ 31) := by
  have hx := x.isLt
  have hy := y.isLt
  rw [BitVec.toInt_eq_toNat_cond, BitVec.toInt_eq_toNat_cond, BitVec.toNat_sub, BitVec.toNat_sub]
  refine ⟨?_, ?_, ?_⟩
  · split_ifs with hhalf
    · omega
    · omega
  · split_ifs with hhalf
    · omega
    · omega
  · intro hneg
    split_ifs at hneg with hhalf
    · omega
    · omega

/-- The comparison of the ranges of two entries. -/
def rangesCompare (a b : α) : Int := rangeCompare (low a) (high a) (low b) (high b)

def rangeOrder : α → α → Ordering :=
  compareLex (compareOn fun a => (width low high a).toNat) (compareOn fun a => (low a).toNat)

private theorem rangeOrder_eq (a b : α) :
    rangeOrder low high a b = .eq ↔ (low a, high a) = (low b, high b) := by
  rw [rangeOrder, compareLex_eq_eq, compareOn, compareOn, Nat.compare_eq_eq, Nat.compare_eq_eq,
    BitVec.toNat_inj, BitVec.toNat_inj, Prod.mk.injEq]
  constructor
  · intro h
    obtain ⟨hwidth, hlow⟩ := h
    refine ⟨hlow, ?_⟩
    rw [width, width, hlow] at hwidth
    bv_omega
  · intro h
    rw [width, width, h.1, h.2]
    exact ⟨rfl, rfl⟩

private theorem compare_sub {m n : Nat} : compare ((m : Int) - n) 0 = compare m n := by
  rcases Nat.lt_trichotomy m n with hlt | heq | hgt
  · rw [Nat.compare_eq_lt.mpr hlt, compare_zero_lt]
    omega
  · rw [Nat.compare_eq_eq.mpr heq, compare_zero_eq]
    omega
  · rw [Nat.compare_eq_gt.mpr hgt, compare_zero_gt]
    omega

theorem rangesCompare_compare {a b : α}
    (h : (width low high a).toNat < (width low high b).toNat + 2 ^ 31)
    (h' : (width low high b).toNat < (width low high a).toNat + 2 ^ 31) :
    compare (rangesCompare low high a b) 0 = rangeOrder low high a b := by
  have hdiff := toInt_sub_of_near h h'
  have hsize : compare (width low high a - width low high b).toInt 0
      = compare (width low high a).toNat (width low high b).toNat := by
    rw [hdiff, compare_sub]
  by_cases hzero : (width low high a - width low high b).toInt = 0
  · have hsame : compare (width low high a).toNat (width low high b).toNat = .eq := by
      rw [← hsize, compare_zero_eq, hzero]
    have hlow := valueCompare_compare (low a) (low b)
    rw [rangeOrder, compareLex, compareOn, compareOn, hsame, Ordering.eq_then, ← hlow]
    unfold rangesCompare rangeCompare valueCompare
    unfold width at hzero
    simp only [hzero, if_true]
  · have hother : rangesCompare low high a b = (width low high a - width low high b).toInt := by
      unfold rangesCompare rangeCompare
      unfold width at hzero ⊢
      simp only [hzero, if_false]
    have hdiffer : compare (width low high a).toNat (width low high b).toNat ≠ .eq := by
      rw [← hsize]
      exact fun heq => hzero (compare_zero_eq.mp heq)
    rw [hother, hsize, rangeOrder, compareLex, compareOn]
    cases hcmp : compare (width low high a).toNat (width low high b).toNat with
    | lt => rfl
    | eq => exact absurd hcmp hdiffer
    | gt => rfl

/-- The comparator of ranges orders its entries, smaller ones first, if and only if no two sizes
are 2^31 or more apart. -/
theorem ranges_iff (entries : List α) :
    (Orders (total (rangesCompare low high)) (fun a => (low a, high a)) entries ∧
      SmallerFirst (total (rangesCompare low high)) (fun a => (width low high a).toNat) entries) ↔
      Near low high entries := by
  rw [orders_iff]
  constructor
  · intro h
    obtain ⟨hconsistent, hsmaller⟩ := h
    intro a ha b hb
    by_contra hfar
    have hfar : (width low high b).toNat + 2 ^ 31 ≤ (width low high a).toNat := by omega
    obtain ⟨hneg, hne, hback⟩ := toInt_sub_of_far hfar
    have hab : rangesCompare low high a b = (width low high a - width low high b).toInt := by
      unfold rangesCompare rangeCompare
      unfold width at hneg ⊢
      have hnz := Int.ne_of_lt hneg
      simp only [hnz, if_false]
    have hba : rangesCompare low high b a = (width low high b - width low high a).toInt := by
      unfold rangesCompare rangeCompare
      unfold width at hne ⊢
      simp only [hne, if_false]
    have hless : (width low high b).toNat < (width low high a).toNat := by omega
    have hfirst := hsmaller b hb a ha hless _ rfl
    have hsign := hconsistent.antisymmetric b hb a ha _ _ rfl rfl
    have hpos := hsign.mp hfirst
    omega
  · intro hnear
    have hfollows : Follows (total (rangesCompare low high)) (rangeOrder low high) entries :=
      follows_total fun a ha b hb => rangesCompare_compare low high (hnear a ha b hb)
        (hnear b hb a ha)
    have htrans : Std.TransCmp (rangeOrder low high) := by
      unfold rangeOrder
      infer_instance
    refine ⟨hfollows.consistent (rangeOrder_eq low high), fun a ha b hb hless r hr => ?_⟩
    obtain ⟨r', hr', horder⟩ := hfollows a ha b hb
    rw [hr] at hr'
    obtain rfl := Option.some.inj hr'
    have hlt : compare (width low high a).toNat (width low high b).toNat = .lt :=
      Nat.compare_eq_lt.mpr hless
    rw [rangeOrder, compareLex, compareOn, hlt, Ordering.lt_then] at horder
    exact compare_zero_lt.mp horder

end Ranges

/-- The entries that are sorted. -/
structure Entries where
  filecons : List Filecon
  portcons : List Portcon
  genfscons : List Genfscon
  netifcons : List Netifcon
  nodecons : List Nodecon
  pirqcons : List Pirqcon
  iomemcons : List Iomemcon
  ioportcons : List Ioportcon
  pcidevicecons : List Pcidevicecon
  fsuses : List Fsuse

namespace Entries

/-- All comparators order their entries by what they look at, and put smaller ranges first. -/
structure Ordered (e : Entries) : Prop where
  filecons : Orders fileconCompare Filecon.key e.filecons
  portcons : Orders (total portconCompare) (fun p => (p.portLow, p.portHigh)) e.portcons
  smallerPorts : SmallerFirst (total portconCompare)
    (fun p => (p.portHigh - p.portLow).toNat) e.portcons
  genfscons : Orders (total genfsconCompare) (fun g => (g.fsStr, g.pathStr)) e.genfscons
  netifcons : Orders (total netifconCompare) (fun n => n.interfaceStr) e.netifcons
  nodecons : Orders (total nodeconCompare) Nodecon.key e.nodecons
  pirqcons : Orders (total pirqconCompare) (fun p => p.pirq) e.pirqcons
  iomemcons : Orders (total iomemconCompare) (fun m => (m.iomemLow, m.iomemHigh)) e.iomemcons
  smallerIomem : SmallerFirst (total iomemconCompare)
    (fun m => (m.iomemHigh - m.iomemLow).toNat) e.iomemcons
  ioportcons : Orders (total ioportconCompare) (fun p => (p.ioportLow, p.ioportHigh)) e.ioportcons
  smallerIoports : SmallerFirst (total ioportconCompare)
    (fun p => (p.ioportHigh - p.ioportLow).toNat) e.ioportcons
  pcidevicecons : Orders (total pcideviceconCompare) (fun d => d.dev) e.pcidevicecons
  fsuses : Orders (total fsuseCompare) (fun u => (u.type, u.fsStr)) e.fsuses

end Entries

/-- The comparators order the entries if and only if the scans of the paths stay inside them and
the sizes of the ranges of one kind are less than 2^31 apart. -/
theorem ordered_iff (e : Entries) :
    e.Ordered ↔ (∀ f ∈ e.filecons, f.Scanned) ∧
      Near Portcon.portLow Portcon.portHigh e.portcons ∧
      Near Iomemcon.iomemLow Iomemcon.iomemHigh e.iomemcons ∧
      Near Ioportcon.ioportLow Ioportcon.ioportHigh e.ioportcons := by
  have hports := ranges_iff Portcon.portLow Portcon.portHigh e.portcons
  have hiomem := ranges_iff Iomemcon.iomemLow Iomemcon.iomemHigh e.iomemcons
  have hioports := ranges_iff Ioportcon.ioportLow Ioportcon.ioportHigh e.ioportcons
  constructor
  · intro h
    exact ⟨(filecon_orders_iff e.filecons).mp h.filecons, hports.mp ⟨h.portcons, h.smallerPorts⟩,
      hiomem.mp ⟨h.iomemcons, h.smallerIomem⟩, hioports.mp ⟨h.ioportcons, h.smallerIoports⟩⟩
  · intro h
    obtain ⟨hpaths, hports', hiomem', hioports'⟩ := h
    exact
      { filecons := (filecon_orders_iff e.filecons).mpr hpaths
        portcons := (hports.mpr hports').1
        smallerPorts := (hports.mpr hports').2
        genfscons := genfscon_orders e.genfscons
        netifcons := netifcon_orders e.netifcons
        nodecons := nodecon_orders e.nodecons
        pirqcons := pirqcon_orders e.pirqcons
        iomemcons := (hiomem.mpr hiomem').1
        smallerIomem := (hiomem.mpr hiomem').2
        ioportcons := (hioports.mpr hioports').1
        smallerIoports := (hioports.mpr hioports').2
        pcidevicecons := pcidevicecon_orders e.pcidevicecons
        fsuses := fsuse_orders e.fsuses }

/-- The page 0 and the range from 0 to 2^31: each comes before the other. -/
theorem half_range_not_ordered :
    ∃ e : Entries, e.iomemcons = [⟨0, 0⟩, ⟨0, 2 ^ 31⟩] ∧ ¬ e.Ordered := by
  refine ⟨⟨[], [], [], [], [], [], [⟨0, 0⟩, ⟨0, 2 ^ 31⟩], [], [], []⟩, rfl, fun h => ?_⟩
  have hsign := h.iomemcons.1.antisymmetric ⟨0, 0⟩ (by simp) ⟨0, 2 ^ 31⟩ (by simp) _ _ rfl rfl
  have hboth : iomemconCompare ⟨0, 0⟩ ⟨0, 2 ^ 31⟩ < 0 ∧ iomemconCompare ⟨0, 2 ^ 31⟩ ⟨0, 0⟩ < 0 := by
    decide
  have hpos := hsign.mp hboth.1
  omega

end Cil.Post.Comparators
