/- Cil/Binary/ContextLookup
   digest: The first match in a list of labelled objects is the most specific one. -/

import Mathlib.Data.List.Zip
import Cil.Binary.Contexts

/-!
A user of the policy looks an object up by going through its list until an entry matches. The
sort makes that entry the narrowest range around a port, and the smallest network around an
address.
-/

set_option autoImplicit false
set_option relaxedAutoImplicit false

namespace Cil.Binary.Contexts

open Library
open Library.Comparator (Sorting Sorted)
open Post.Comparators
open Post.ContextArrays

section Lookups

variable {χ : Type} (p : Policy χ)

/-- A port of a protocol. -/
def Object.matchesPort (protocol port : Nat) : Object → Bool
  | .port protocol' low high => protocol' = protocol ∧ low.toNat ≤ port ∧ port ≤ high.toNat
  | _ => false

def Object.matchesIomem (page : Nat) : Object → Bool
  | .iomem low high => low.toNat ≤ page ∧ page ≤ high.toNat
  | _ => false

def Object.matchesIoport (port : Nat) : Object → Bool
  | .ioport low high => low.toNat ≤ port ∧ port ≤ high.toNat
  | _ => false

/-- The address with the bits of the mask only. -/
def masked (mask address : List UInt8) : List UInt8 :=
  List.zipWith (fun m a => m &&& a) mask address

/-- An address of IPv4 or IPv6. -/
def Object.matchesNode (address : List UInt8) : Object → Bool
  | .node addr mask => masked mask address = addr
  | .node6 addr mask => masked mask address = addr
  | _ => false

/-- The first entry of a list whose object matches. -/
def Policy.lookup (k : Ocon) (matching : Object → Bool) : Option (Ocontext χ) :=
  (p.ocontexts.read k).find? fun o => matching o.object

end Lookups

section Posted

variable {γ χ : Type}

/-- What a policy has that was converted without an error. -/
private theorem written_of_posted (Q : Sorting) (toSepolContext : γ → Option χ) (xen : Bool)
    {υ : Type} {ast : Tree (NodeData γ υ)} (hsortable : Sortable (declared ast)) {p : Policy χ}
    (hrun : cilContextsToPolicydb toSepolContext xen (posted Q ast).sorts Policy.init =
      some (.ok () p)) :
    Written toSepolContext xen (fun k => Q.sort k.compare (declared ast k)) p := by
  obtain ⟨hok, hfailed⟩ := contexts_posted Q toSepolContext xen hsortable
  by_cases hconverts : AllConvert toSepolContext xen (declared ast)
  · obtain ⟨p', hrun', hwritten⟩ := hok hconverts
    rw [hrun] at hrun'
    cases hrun'
    exact hwritten
  · obtain ⟨e, p', hrun'⟩ := hfailed hconverts
    rw [hrun] at hrun'
    cases hrun'

end Posted

section Ranges

variable {α γ χ δ : Type}

/-- What is found is a statement that covers what was looked for. No statement that does has a
smaller range, or starts lower with a range of the same size. -/
structure Narrowest (low high : δ → U32) (covers : δ → Prop) (ocon : δ → Ocontext χ)
    (statements : List δ) (found : Option (Ocontext χ)) : Prop where
  missing : found = none ↔ ∀ d ∈ statements, ¬ covers d
  narrowest : ∀ o, found = some o → ∃ d ∈ statements, covers d ∧ o = ocon d ∧
    ∀ d' ∈ statements, covers d' → (width low high d).toNat < (width low high d').toNat ∨
      (width low high d).toNat = (width low high d').toNat ∧ (low d).toNat ≤ (low d').toNat

/-- The comparator of ranges tells which one is narrower. -/
private theorem narrower_of_compare {low high : δ → U32} {statements : List δ}
    (hnear : Near low high statements) {d d' : δ} (hd : d ∈ statements) (hd' : d' ∈ statements)
    (h : rangesCompare low high d d' ≤ 0) :
    (width low high d).toNat < (width low high d').toNat ∨
      (width low high d).toNat = (width low high d').toNat ∧ (low d).toNat ≤ (low d').toNat := by
  have horder := rangesCompare_compare low high (hnear d hd d' hd') (hnear d' hd' d hd)
  have hle := Comparator.compare_zero_isLE.mpr h
  rw [horder, rangeOrder] at hle
  rcases Nat.lt_trichotomy (width low high d).toNat (width low high d').toNat with hlt | heq | hgt
  · exact Or.inl hlt
  · refine Or.inr ⟨heq, ?_⟩
    have hsame : compare (width low high d).toNat (width low high d').toNat = .eq :=
      Nat.compare_eq_eq.mpr heq
    rw [compareLex, compareOn, hsame, Ordering.eq_then, compareOn, Nat.isLE_compare] at hle
    exact hle
  · have hmore : compare (width low high d).toNat (width low high d').toNat = .gt :=
      Nat.compare_eq_gt.mpr hgt
    rw [compareLex, compareOn, hmore] at hle
    cases hle

/-- A search through the sorted ranges. -/
private theorem narrowest_of_sorted {low high : δ → U32} {covers : δ → Prop} {ocon : δ → Ocontext χ}
    {statements l : List δ} (hnear : Near low high statements) (hperm : l.Perm statements)
    (hsorted : Sorted (total (rangesCompare low high)) l) {matching : Object → Bool}
    (hcovers : ∀ d ∈ statements, matching (ocon d).object = true ↔ covers d) :
    Narrowest low high covers ocon statements ((l.map ocon).find? fun o => matching o.object) := by
  obtain ⟨hmissing, hfound⟩ := hsorted.search hperm ocon fun o => matching o.object
  constructor
  · rw [hmissing]
    constructor
    · intro h d hd hcover
      have hmatch := (hcovers d hd).mpr hcover
      rw [h d hd] at hmatch
      cases hmatch
    · intro h d hd
      rw [← Bool.not_eq_true]
      intro hmatch
      exact h d hd ((hcovers d hd).mp hmatch)
  · intro o ho
    obtain ⟨d, hd, hmatch, heq, hbest⟩ := hfound o ho
    refine ⟨d, hd, (hcovers d hd).mp hmatch, heq, fun d' hd' hcover => ?_⟩
    by_cases hsame : d' = d
    · rw [hsame]
      exact Or.inr ⟨rfl, Nat.le_refl _⟩
    · obtain ⟨r, hr, hle⟩ := hbest d' hd' ((hcovers d' hd').mpr hcover) hsame
      obtain rfl := Option.some.inj hr
      exact narrower_of_compare hnear hd hd' hle

/-- The statement is about the port; the object has 16 bits for each end of the range. -/
def CoversPort (protocol port : Nat) (d : Kind.Data γ .portcon) : Prop :=
  ipproto d.con.proto = protocol ∧ d.con.portLow.toNat ≤ port ∧ port ≤ d.con.portHigh.toNat

def CoversIomem (page : Nat) (d : Kind.Data γ .iomemcon) : Prop :=
  d.con.iomemLow.toNat ≤ page ∧ page ≤ d.con.iomemHigh.toNat

def CoversIoport (port : Nat) (d : Kind.Data γ .ioportcon) : Prop :=
  d.con.ioportLow.toNat ≤ port ∧ port ≤ d.con.ioportHigh.toNat

/-- The ends of the ranges of ports are ports. -/
def PortsFit (statements : List (Kind.Data γ .portcon)) : Prop :=
  ∀ d ∈ statements, d.con.portLow.toNat < 65536 ∧ d.con.portHigh.toNat < 65536

private theorem toNat_setWidth {x : U32} (h : x.toNat < 65536) :
    (x.setWidth 16).toNat = x.toNat := by
  rw [BitVec.toNat_setWidth]
  exact Nat.mod_eq_of_lt h

/-- The ranges of one list of a policy that was written. -/
private theorem narrowest_of_posted (Q : Sorting) {k : Kind} {low high : k.Data γ → U32}
    {covers : k.Data γ → Prop} {ocon : k.Data γ → Ocontext χ} {statements : List (k.Data γ)}
    (hcompare : k.compare = total (rangesCompare low high)) (hnear : Near low high statements)
    {matching : Object → Bool}
    (hcovers : ∀ d ∈ statements, matching (ocon d).object = true ↔ covers d) {p : Policy χ}
    {o : Ocon} (hread : p.ocontexts.read o = (Q.sort k.compare statements).map ocon) :
    Narrowest low high covers ocon statements (p.lookup o matching) := by
  have hconsistent := ((ranges_iff low high statements).mpr hnear).1.1
  have hperm := Q.perm hconsistent
  have hsorted := Q.sorted hconsistent
  rw [← hcompare] at hperm hsorted
  unfold Policy.lookup
  rw [hread]
  rw [hcompare] at hperm hsorted ⊢
  exact narrowest_of_sorted hnear hperm hsorted hcovers

private theorem near_map {low high : α → U32} {f : δ → α} {statements : List δ}
    (h : Near low high (statements.map f)) :
    Near (fun d => low (f d)) (fun d => high (f d)) statements :=
  fun _ ha _ hb => h _ (List.mem_map_of_mem ha) _ (List.mem_map_of_mem hb)

/-- Of the statements that cover a port, memory or an I/O port, the first object in the policy is
that of one with the smallest range. -/
theorem ranges_narrowest (Q : Sorting) (toSepolContext : γ → Option χ) (xen : Bool) {υ : Type}
    (nodes : Nat → Option TreeWalk.Links) (data : Nat → NodeData γ υ) {t : Tree Nat}
    {next : Option Nat} (h : TreeWalk.InMemory nodes next t)
    (hsortable : Sortable (declared (TreeWalk.contentsOf data t)))
    (hfit : PortsFit (declared (TreeWalk.contentsOf data t) .portcon)) :
    ∃ n, ∀ fuel, n ≤ fuel → ∀ (db : Db γ υ) (p : Policy χ),
      cilPostDb Q nodes data fuel (TreeWalk.addr t) Db.init = some (.ok () db) →
      cilContextsToPolicydb toSepolContext xen db.sorts Policy.init = some (.ok () p) →
      (∀ protocol port, Narrowest (fun d => d.con.portLow) (fun d => d.con.portHigh)
        (CoversPort protocol port) (portOcon toSepolContext)
        (declared (TreeWalk.contentsOf data t) .portcon)
        (p.lookup .port (Object.matchesPort protocol port))) ∧
      (xen = true →
        (∀ page, Narrowest (fun d => d.con.iomemLow) (fun d => d.con.iomemHigh) (CoversIomem page)
          (iomemOcon toSepolContext) (declared (TreeWalk.contentsOf data t) .iomemcon)
          (p.lookup .iomem (Object.matchesIomem page))) ∧
        ∀ port, Narrowest (fun d => d.con.ioportLow) (fun d => d.con.ioportHigh)
          (CoversIoport port) (ioportOcon toSepolContext)
          (declared (TreeWalk.contentsOf data t) .ioportcon)
          (p.lookup .ioport (Object.matchesIoport port))) := by
  obtain ⟨n, hrun⟩ := cilPostDb_posted Q h hsortable
  refine ⟨n, fun fuel hfuel db p hdb hp => ?_⟩
  rw [hrun fuel hfuel] at hdb
  obtain rfl : posted Q (TreeWalk.contentsOf data t) = db := by
    cases hdb
    rfl
  have hwritten := written_of_posted Q toSepolContext xen hsortable hp
  refine ⟨fun protocol port => ?_, fun hxen => ⟨fun page => ?_, fun port => ?_⟩⟩
  · apply narrowest_of_posted Q (k := .portcon) rfl (near_map hsortable.portcons) _ hwritten.port
    intro d hd
    obtain ⟨hlow, hhigh⟩ := hfit d hd
    simp [portOcon, Object.matchesPort, CoversPort, toNat_setWidth hlow, toNat_setWidth hhigh]
  · have hread := hwritten.iomem
    rw [hxen, if_pos rfl] at hread
    apply narrowest_of_posted Q (k := .iomemcon) rfl (near_map hsortable.iomemcons) _ hread
    intro d _
    simp [iomemOcon, Object.matchesIomem, CoversIomem]
  · have hread := hwritten.ioport
    rw [hxen, if_pos rfl] at hread
    apply narrowest_of_posted Q (k := .ioportcon) rfl (near_map hsortable.ioportcons) _ hread
    intro d _
    simp [ioportOcon, Object.matchesIoport, CoversIoport]

/-- A root with four nodes. -/
def xenTree : Tree Nat := .node 0 [.node 1 [], .node 2 [], .node 3 [], .node 4 []]

def xenNodes : Nat → Option TreeWalk.Links
  | 0 => some ⟨some 1, some 4, none⟩
  | 1 => some ⟨none, none, some 2⟩
  | 2 => some ⟨none, none, some 3⟩
  | 3 => some ⟨none, none, some 4⟩
  | 4 => some ⟨none, none, none⟩
  | _ => none

private theorem inMemory_xenTree : TreeWalk.InMemory xenNodes none xenTree :=
  ⟨rfl, ⟨rfl, trivial⟩, ⟨rfl, trivial⟩, ⟨rfl, trivial⟩, ⟨rfl, trivial⟩, trivial⟩

/-- Memory and I/O ports, with a range inside of another one each, and a port. -/
def xenRanges : Nat → NodeData Unit Unit
  | 1 => .con .iomemcon ⟨⟨0, 15⟩, ()⟩
  | 2 => .con .iomemcon ⟨⟨4, 7⟩, ()⟩
  | 3 => .con .ioportcon ⟨⟨1, 8⟩, ()⟩
  | 4 => .con .portcon ⟨⟨⟨80, 80⟩, .tcp⟩, ()⟩
  | _ => .other

private theorem declared_xenRanges (k : Kind) : declared (TreeWalk.contentsOf xenRanges xenTree) k =
    [xenRanges 1, xenRanges 2, xenRanges 3, xenRanges 4].filterMap (NodeData.con? k) := by
  cases k <;> rfl

private theorem sortable_xenRanges :
    Sortable (declared (TreeWalk.contentsOf xenRanges xenTree)) := by
  constructor
  · rw [declared_xenRanges]
    intro f hf
    cases hf
  · rw [declared_xenRanges]
    intro x hx y hy
    rw [List.mem_singleton.mp hx, List.mem_singleton.mp hy]
    decide
  · rw [declared_xenRanges]
    unfold Near
    decide
  · rw [declared_xenRanges]
    intro x hx y hy
    rw [List.mem_singleton.mp hx, List.mem_singleton.mp hy]
    decide

theorem xenRanges_narrowest : ∃ n, ∀ fuel, n ≤ fuel → ∀ (db : Db Unit Unit) (p : Policy Unit),
    cilPostDb Comparator.merging xenNodes xenRanges fuel 0 Db.init = some (.ok () db) →
    cilContextsToPolicydb some true db.sorts Policy.init = some (.ok () p) →
    (∀ protocol port, Narrowest (fun d => d.con.portLow) (fun d => d.con.portHigh)
      (CoversPort protocol port) (portOcon some)
      (declared (TreeWalk.contentsOf xenRanges xenTree) .portcon)
      (p.lookup .port (Object.matchesPort protocol port))) ∧
    (∀ page, Narrowest (fun d => d.con.iomemLow) (fun d => d.con.iomemHigh) (CoversIomem page)
      (iomemOcon some) (declared (TreeWalk.contentsOf xenRanges xenTree) .iomemcon)
      (p.lookup .iomem (Object.matchesIomem page))) ∧
    ∀ port, Narrowest (fun d => d.con.ioportLow) (fun d => d.con.ioportHigh) (CoversIoport port)
      (ioportOcon some) (declared (TreeWalk.contentsOf xenRanges xenTree) .ioportcon)
      (p.lookup .ioport (Object.matchesIoport port)) := by
  have hports : PortsFit (declared (TreeWalk.contentsOf xenRanges xenTree) .portcon) := by
    rw [declared_xenRanges]
    intro d hd
    rw [List.mem_singleton.mp hd]
    exact ⟨by decide, by decide⟩
  obtain ⟨n, hrun⟩ := ranges_narrowest Comparator.merging some true xenNodes xenRanges
    inMemory_xenTree sortable_xenRanges hports
  refine ⟨n, fun fuel hfuel db p hdb hp => ?_⟩
  obtain ⟨hport, hxen⟩ := hrun fuel hfuel db p hdb hp
  exact ⟨hport, hxen rfl⟩

end Ranges

section Masks

/-- A byte of a mask with this many bits left. -/
def prefixByte : Nat → UInt8
  | 0 => 0
  | 1 => 128
  | 2 => 192
  | 3 => 224
  | 4 => 240
  | 5 => 248
  | 6 => 252
  | 7 => 254
  | _ => 255

/-- The mask of a network: as many one bits, and then zero bits. -/
def prefixMask : Nat → Nat → List UInt8
  | 0, _ => []
  | size + 1, n => prefixByte n :: prefixMask size (n - 8)

/-- All bits of a mask are bits of another one. -/
def Within (mask mask' : List UInt8) : Prop := masked mask mask' = mask

private theorem prefixByte_lt {n n' : Nat} (hn : n < 8) (h : n < n') :
    (prefixByte n).toNat < (prefixByte n').toNat := by
  have hall : ∀ i < 8, (∀ j < 8, i < j → (prefixByte i).toNat < (prefixByte j).toNat) ∧
      (prefixByte i).toNat < 255 := by decide
  by_cases hn' : n' < 8
  · exact (hall n hn).1 n' hn' h
  · obtain ⟨m, rfl⟩ : ∃ m, n' = m + 8 := ⟨n' - 8, by omega⟩
    exact (hall n hn).2

/-- A longer prefix compares as the larger mask. -/
private theorem lexCompare_prefixMask {size n n' : Nat} (h : n < n') (hn' : n' ≤ 8 * size) :
    Comparator.lexCompare UInt8.toNat (prefixMask size n) (prefixMask size n') < 0 := by
  induction size generalizing n n' with
  | zero => omega
  | succ size ih =>
      rw [prefixMask, prefixMask, Comparator.lexCompare]
      by_cases hn : n < 8
      · have hlt := prefixByte_lt hn h
        rw [if_neg (by omega)]
        omega
      · obtain ⟨m, rfl⟩ : ∃ m, n = m + 8 := ⟨n - 8, by omega⟩
        obtain ⟨m', rfl⟩ : ∃ m', n' = m' + 8 := ⟨n' - 8, by omega⟩
        have hsame : prefixByte (m + 8) = prefixByte (m' + 8) := rfl
        rw [hsame, if_pos rfl]
        exact ih (by omega) (by omega)

/-- A mask compares as no larger than one that has all its bits. -/
private theorem lexCompare_of_within {mask mask' : List UInt8} (h : Within mask mask') :
    Comparator.lexCompare UInt8.toNat mask mask' ≤ 0 := by
  induction mask generalizing mask' with
  | nil =>
      cases mask' with
      | nil => exact Int.le_refl 0
      | cons b mask' =>
          rw [Comparator.lexCompare]
          omega
  | cons a mask ih =>
      cases mask' with
      | nil => cases h
      | cons b mask' =>
          obtain ⟨hbyte, hrest⟩ := List.cons.inj h
          have hle : a.toNat ≤ b.toNat := by
            have hand := congrArg UInt8.toNat hbyte
            rw [UInt8.toNat_and] at hand
            have hright := @Nat.and_le_right a.toNat b.toNat
            omega
          rw [Comparator.lexCompare]
          by_cases hsame : a.toNat = b.toNat
          · rw [if_pos hsame]
            exact ih hrest
          · rw [if_neg hsame]
            omega

end Masks

section Nodes

variable {γ χ : Type}

/-- The address is in the network of the statement. -/
def InNetwork (address : List UInt8) (d : Kind.Data γ .nodecon) : Prop :=
  masked d.con.maskBytes address = d.con.addrBytes

/-- The list of the addresses of a family. -/
def ofFamily : Family → Ocon
  | .inet => .node
  | .inet6 => .node6

/-- What is found is a statement with the address in its network. No such statement of the same
family has a mask with more bits: with masks that are prefixes, none has a longer prefix. -/
structure MostSpecific (toSepolContext : γ → Option χ) (family : Family) (address : List UInt8)
    (statements : List (Kind.Data γ .nodecon)) (found : Option (Ocontext χ)) : Prop where
  missing : found = none ↔
    ∀ d ∈ statements, d.con.addr.family = family → ¬ InNetwork address d
  specific : ∀ o, found = some o → ∃ d ∈ statements, d.con.addr.family = family ∧
    InNetwork address d ∧ o = nodeOcon toSepolContext d ∧
    ∀ d' ∈ statements, d'.con.addr.family = family → InNetwork address d' →
      (Within d.con.maskBytes d'.con.maskBytes → d'.con.maskBytes = d.con.maskBytes) ∧
      ∀ n n', n' ≤ 8 * family.size → d.con.maskBytes = prefixMask family.size n →
        d'.con.maskBytes = prefixMask family.size n' → n' ≤ n

private theorem nodeKind_eq {d : Kind.Data γ .nodecon} {family : Family} :
    nodeKind d = ofFamily family ↔ d.con.addr.family = family := by
  unfold nodeKind
  cases d.con.addr.family <;> cases family <;> simp [ofFamily]

private theorem matchesNode_iff (toSepolContext : γ → Option χ) {address : List UInt8}
    {d : Kind.Data γ .nodecon} :
    (nodeOcon toSepolContext d).object.matchesNode address = true ↔ InNetwork address d := by
  unfold nodeOcon InNetwork Nodecon.maskBytes Nodecon.addrBytes
  cases d.con.addr.family <;> simp [Object.matchesNode, Family.size]

/-- Of two statements of one family, the one that comes first has a mask that is not smaller. -/
private theorem mask_of_compare {a b : Nodecon} {family : Family} (ha : a.addr.family = family)
    (hb : b.addr.family = family) (h : nodeconCompare a b ≤ 0) :
    0 ≤ Comparator.lexCompare UInt8.toNat a.maskBytes b.maskBytes := by
  have hsame : a.addr.family = b.addr.family := ha.trans hb.symm
  have hmemcmp : Comparator.lexCompare UInt8.toNat a.maskBytes b.maskBytes =
      memcmp a.mask.ip b.mask.ip a.addr.family.size := by
    unfold Nodecon.maskBytes memcmp
    rw [← hsame]
  rw [hmemcmp]
  unfold nodeconCompare at h
  rw [if_neg (not_not_intro hsame)] at h
  dsimp only at h
  by_cases hzero : memcmp a.mask.ip b.mask.ip a.addr.family.size = 0
  · omega
  · rw [if_pos hzero] at h
    omega

private theorem eq_of_lexCompare {mask mask' : List UInt8}
    (h : Comparator.lexCompare UInt8.toNat mask mask' = 0) : mask = mask' := by
  have hcompare := Comparator.lexCompare_compare UInt8.toNat mask mask'
  rw [h] at hcompare
  have hequal := Std.LawfulEqOrd.compare_eq_iff_eq.mp hcompare.symm
  exact map_byte_inj.mp hequal

/-- The search through the list of a family. -/
private theorem mostSpecific_of_sorted (toSepolContext : γ → Option χ) {family : Family}
    {statements l : List (Kind.Data γ .nodecon)} (hperm : l.Perm statements)
    (hsorted : Sorted (Kind.compare .nodecon) l) (address : List UInt8) :
    MostSpecific toSepolContext family address statements
      (((l.filter fun d => nodeKind d = ofFamily family).map (nodeOcon toSepolContext)).find?
        fun o => o.object.matchesNode address) := by
  have hfilter := hperm.filter fun d => decide (nodeKind d = ofFamily family)
  have hpart : Sorted (Kind.compare .nodecon)
      (l.filter fun d => decide (nodeKind d = ofFamily family)) := List.Pairwise.filter _ hsorted
  have hmem (d : Kind.Data γ .nodecon) :
      d ∈ statements.filter (fun d => decide (nodeKind d = ofFamily family)) ↔
        d ∈ statements ∧ d.con.addr.family = family := by
    rw [List.mem_filter, decide_eq_true_iff, nodeKind_eq]
  obtain ⟨hmissing, hfound⟩ := hpart.search hfilter (nodeOcon toSepolContext)
    fun o => o.object.matchesNode address
  constructor
  · rw [hmissing]
    constructor
    · intro h d hd hfamily hin
      have hmatch := (matchesNode_iff toSepolContext).mpr hin
      rw [h d ((hmem d).mpr ⟨hd, hfamily⟩)] at hmatch
      cases hmatch
    · intro h d hd
      obtain ⟨hd, hfamily⟩ := (hmem d).mp hd
      rw [← Bool.not_eq_true, matchesNode_iff]
      exact h d hd hfamily
  · intro o ho
    obtain ⟨d, hd, hmatch, heq, hbest⟩ := hfound o ho
    obtain ⟨hd, hfamily⟩ := (hmem d).mp hd
    refine ⟨d, hd, hfamily, (matchesNode_iff toSepolContext).mp hmatch, heq,
      fun d' hd' hfamily' hin => ?_⟩
    have hmask : 0 ≤ Comparator.lexCompare UInt8.toNat d.con.maskBytes d'.con.maskBytes := by
      by_cases hsame : d' = d
      · have hself := Comparator.lexCompare_compare UInt8.toNat d.con.maskBytes d.con.maskBytes
        have hrefl : compare (d.con.maskBytes.map UInt8.toNat) (d.con.maskBytes.map UInt8.toNat) =
            .eq := Std.LawfulEqOrd.compare_eq_iff_eq.mpr rfl
        rw [hrefl, Comparator.compare_zero_eq] at hself
        rw [hsame]
        omega
      · obtain ⟨r, hr, hle⟩ :=
          hbest d' ((hmem d').mpr ⟨hd', hfamily'⟩) ((matchesNode_iff toSepolContext).mpr hin) hsame
        obtain rfl := Option.some.inj hr
        exact mask_of_compare hfamily hfamily' hle
    refine ⟨fun hwithin => ?_, fun n n' hn' hlead hlead' => ?_⟩
    · have hle := lexCompare_of_within hwithin
      have hzero : Comparator.lexCompare UInt8.toNat d.con.maskBytes d'.con.maskBytes = 0 := by
        omega
      exact (eq_of_lexCompare hzero).symm
    · by_contra hlonger
      have hlt : n < n' := by omega
      have hless := lexCompare_prefixMask hlt hn'
      rw [hlead, hlead'] at hmask
      omega

/-- Of the networks that an address is in, the first one in the policy is the most specific one. -/
theorem nodes_mostSpecific (Q : Sorting) (toSepolContext : γ → Option χ) (xen : Bool) {υ : Type}
    (nodes : Nat → Option TreeWalk.Links) (data : Nat → NodeData γ υ) {t : Tree Nat}
    {next : Option Nat} (h : TreeWalk.InMemory nodes next t)
    (hsortable : Sortable (declared (TreeWalk.contentsOf data t))) :
    ∃ n, ∀ fuel, n ≤ fuel → ∀ (db : Db γ υ) (p : Policy χ),
      cilPostDb Q nodes data fuel (TreeWalk.addr t) Db.init = some (.ok () db) →
      cilContextsToPolicydb toSepolContext xen db.sorts Policy.init = some (.ok () p) →
      ∀ family address, MostSpecific toSepolContext family address
        (declared (TreeWalk.contentsOf data t) .nodecon)
        (p.lookup (ofFamily family) (Object.matchesNode address)) := by
  obtain ⟨n, hrun⟩ := cilPostDb_posted Q h hsortable
  refine ⟨n, fun fuel hfuel db p hdb hp family address => ?_⟩
  rw [hrun fuel hfuel] at hdb
  obtain rfl : posted Q (TreeWalk.contentsOf data t) = db := by
    cases hdb
    rfl
  have hwritten := written_of_posted Q toSepolContext xen hsortable hp
  obtain ⟨κ, key, hconsistent⟩ := hsortable.consistent .nodecon
  have hread : p.ocontexts.read (ofFamily family) =
      ((Q.sort (Kind.compare .nodecon) (declared (TreeWalk.contentsOf data t) .nodecon)).filter
        fun d => nodeKind d = ofFamily family).map (nodeOcon toSepolContext) := by
    cases family with
    | inet => exact hwritten.node
    | inet6 => exact hwritten.node6
  unfold Policy.lookup
  rw [hread]
  exact mostSpecific_of_sorted toSepolContext (Q.perm hconsistent) (Q.sorted hconsistent) address

theorem portAndAbstractBlock_mostSpecific : ∃ n, ∀ fuel, n ≤ fuel → ∀ (db : Db Unit Unit)
    (p : Policy Unit),
      cilPostDb Comparator.merging TreeWalk.smallTreeNodes portAndAbstractBlock fuel 0
        Db.init = some (.ok () db) →
      cilContextsToPolicydb some false db.sorts Policy.init = some (.ok () p) →
      ∀ family address, MostSpecific some family address
        (declared (TreeWalk.contentsOf portAndAbstractBlock TreeWalk.smallTree) .nodecon)
        (p.lookup (ofFamily family) (Object.matchesNode address)) :=
  nodes_mostSpecific Comparator.merging some false TreeWalk.smallTreeNodes portAndAbstractBlock
    TreeWalk.inMemory_smallTree sortable_portAndAbstractBlock

end Nodes

end Cil.Binary.Contexts
