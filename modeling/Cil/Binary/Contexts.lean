/- Cil/Binary/Contexts
   digest: The lists of labelled objects in a binary policy, from the arrays that were sorted. -/

import Mathlib.Data.BitVec
import Mathlib.Data.Nat.Notation
import Cil.Binary.Genfs
import Cil.Library.Appended
import Cil.Post.ContextArrays

set_option autoImplicit false
set_option relaxedAutoImplicit false

namespace Cil.Binary.Contexts

open Library
open Library.Comparator (Sorting Sorted)
open Post.Comparators
open Post.ContextArrays

/-- The lists in `pdb->ocontexts`. -/
inductive Ocon
  | port | netif | node | node6 | fsuse | pirq | iomem | ioport | device
  deriving DecidableEq, Repr

/-- `uint16_t`. -/
abbrev U16 := BitVec 16

/-- The unions of `ocontext_t`, which are zero at first. -/
inductive Object
  | zero
  | port (protocol : Nat) (lowPort highPort : U16)
  | netif (name : Text)
  | node (addr mask : List UInt8)
  | node6 (addr mask : List UInt8)
  | fsuse (name : Text) (behavior : Nat)
  | pirq (pirq : U16)
  | iomem (lowIomem highIomem : U32)
  | ioport (lowIoport highIoport : U32)
  | device (device : U32)
  deriving DecidableEq, Repr

/-- `ocontext_t`, with its two contexts. -/
structure Ocontext (χ : Type) where
  object : Object
  context : Option χ
  packetContext : Option χ
  deriving DecidableEq, Repr

/-- The part of `policydb_t` that is written here; the tails of the lists are local variables. -/
structure Policy (χ : Type) where
  ocontexts : Lists Ocon (Ocontext χ)
  genfs : Genfs.Memory χ

def Policy.init {χ : Type} : Policy χ where
  ocontexts := ⟨⟨fun _ => ⟨.zero, none, none⟩, fun _ => none, 0⟩, fun _ => none, fun _ => none⟩
  genfs := .init

/-- `IPPROTO_UDP` and `IPPROTO_TCP`. -/
def ipproto : Protocol → Nat
  | .udp => 17
  | .tcp => 6

section Code

variable {γ χ : Type} (toSepolContext : γ → Option χ)

/-- `cil_add_ocontext`. -/
def cilAddOcontext (k : Ocon) : Call Rc (Policy χ) Nat := fun p =>
  some (.ok p.ocontexts.heap.size
    { p with ocontexts := p.ocontexts.append k ⟨.zero, none, none⟩ })

def setOcontext (a : Nat) (o : Ocontext χ) : Call Rc (Policy χ) Unit :=
  Call.modify fun p => { p with ocontexts := p.ocontexts.store a o }

/-- A turn of the loops over statements with one context. -/
def oconTurn (k : Ocon) (object : Object) (context : γ) : Call Rc (Policy χ) Unit :=
  cilAddOcontext k >>= fun new =>
  setOcontext new ⟨object, none, none⟩ >>= fun _ =>
  Call.orFail .err (toSepolContext context) >>= fun c =>
  setOcontext new ⟨object, some c, none⟩

/-- A turn of the loop over `netifcon` statements, which have a context for packets. -/
def netifconTurn (d : Kind.Data γ .netifcon) : Call Rc (Policy χ) Unit :=
  cilAddOcontext .netif >>= fun new =>
  setOcontext new ⟨.netif d.con.interfaceStr, none, none⟩ >>= fun _ =>
  Call.orFail .err (toSepolContext d.context.1) >>= fun c =>
  setOcontext new ⟨.netif d.con.interfaceStr, some c, none⟩ >>= fun _ =>
  Call.onFailure (fun p => { p with
      ocontexts := p.ocontexts.store new ⟨.netif d.con.interfaceStr, none, none⟩ })
    (Call.orFail .err (toSepolContext d.context.2)) >>= fun c' =>
  setOcontext new ⟨.netif d.con.interfaceStr, some c, some c'⟩

/-- The loops over an array, with no tail at first. -/
def forSlots {δ : Type} (cons : CilSort δ) (turn : δ → Call Rc (Policy χ) Unit) :
    Call Rc (Policy χ) Unit :=
  Call.modify (fun p => { p with ocontexts := p.ocontexts.restart }) >>= fun _ =>
  Call.forEach (fun i => Call.orCrash ((cons.array.getD []).getD i none) >>= turn)
    (List.range cons.count)

/-- `cil_portcon_to_policydb`. -/
def cilPortconToPolicydb (portcons : CilSort (Kind.Data γ .portcon)) : Call Rc (Policy χ) Unit :=
  forSlots portcons fun d => oconTurn toSepolContext .port
    (.port (ipproto d.con.proto) (d.con.portLow.setWidth 16) (d.con.portHigh.setWidth 16)) d.context

/-- `cil_netifcon_to_policydb`. -/
def cilNetifconToPolicydb (netifcons : CilSort (Kind.Data γ .netifcon)) : Call Rc (Policy χ) Unit :=
  forSlots netifcons (netifconTurn toSepolContext)

/-- A turn of the loop over `nodecon` statements, which go into two lists. -/
def nodeconTurn (d : Kind.Data γ .nodecon) : Call Rc (Policy χ) Unit :=
  match d.con.addr.family with
  | .inet => oconTurn toSepolContext .node
      (.node (d.con.addr.ip.take 4) (d.con.mask.ip.take 4)) d.context
  | .inet6 => oconTurn toSepolContext .node6
      (.node6 (d.con.addr.ip.take 16) (d.con.mask.ip.take 16)) d.context

/-- `cil_nodecon_to_policydb`. -/
def cilNodeconToPolicydb (nodecons : CilSort (Kind.Data γ .nodecon)) : Call Rc (Policy χ) Unit :=
  forSlots nodecons (nodeconTurn toSepolContext)

/-- `cil_fsuse_to_policydb`. -/
def cilFsuseToPolicydb (fsuses : CilSort (Kind.Data γ .fsuse)) : Call Rc (Policy χ) Unit :=
  forSlots fsuses fun d =>
    oconTurn toSepolContext .fsuse (.fsuse d.con.fsStr d.con.type) d.context

/-- How the loop over the labels of file systems ends, in a policy. -/
def ofGenfs (p : Policy χ) : Option (Rc × Genfs.Memory χ) → Option (Returned Rc (Policy χ) Unit)
  | none => some .crash
  | some (.ok, m) => some (.ok () { p with genfs := m })
  | some (rc, m) => some (.failed rc { p with genfs := m })

/-- `cil_genfscon_to_policydb` of what the array holds. -/
def cilGenfsconToPolicydb (genfscons : CilSort (Kind.Data γ .genfscon)) :
    Call Rc (Policy χ) Unit :=
  Call.orCrash genfscons.entries >>= fun l => fun p =>
  ofGenfs p (Genfs.genfsconToPolicydb toSepolContext (l.map fun d => ⟨d.con, d.context⟩))

/-- `cil_pirqcon_to_policydb`. -/
def cilPirqconToPolicydb (pirqcons : CilSort (Kind.Data γ .pirqcon)) : Call Rc (Policy χ) Unit :=
  forSlots pirqcons fun d =>
    oconTurn toSepolContext .pirq (.pirq (d.con.pirq.setWidth 16)) d.context

/-- `cil_iomemcon_to_policydb`. -/
def cilIomemconToPolicydb (iomemcons : CilSort (Kind.Data γ .iomemcon)) : Call Rc (Policy χ) Unit :=
  forSlots iomemcons fun d =>
    oconTurn toSepolContext .iomem (.iomem d.con.iomemLow d.con.iomemHigh) d.context

/-- `cil_ioportcon_to_policydb`. -/
def cilIoportconToPolicydb (ioportcons : CilSort (Kind.Data γ .ioportcon)) :
    Call Rc (Policy χ) Unit :=
  forSlots ioportcons fun d =>
    oconTurn toSepolContext .ioport (.ioport d.con.ioportLow d.con.ioportHigh) d.context

/-- `cil_pcidevicecon_to_policydb`. -/
def cilPcideviceconToPolicydb (pcidevicecons : CilSort (Kind.Data γ .pcidevicecon)) :
    Call Rc (Policy χ) Unit :=
  forSlots pcidevicecons fun d => oconTurn toSepolContext .device (.device d.con.dev) d.context

/-- `__cil_contexts_to_policydb`; the devices are those of the target platform Xen. -/
def cilContextsToPolicydb (xen : Bool) (sorts : (k : Kind) → CilSort (k.Data γ)) :
    Call Rc (Policy χ) Unit :=
  cilPortconToPolicydb toSepolContext (sorts .portcon) >>= fun _ =>
  cilNetifconToPolicydb toSepolContext (sorts .netifcon) >>= fun _ =>
  cilNodeconToPolicydb toSepolContext (sorts .nodecon) >>= fun _ =>
  cilFsuseToPolicydb toSepolContext (sorts .fsuse) >>= fun _ =>
  cilGenfsconToPolicydb toSepolContext (sorts .genfscon) >>= fun _ =>
  if xen then
    cilPirqconToPolicydb toSepolContext (sorts .pirqcon) >>= fun _ =>
    cilIomemconToPolicydb toSepolContext (sorts .iomemcon) >>= fun _ =>
    cilIoportconToPolicydb toSepolContext (sorts .ioportcon) >>= fun _ =>
    cilPcideviceconToPolicydb toSepolContext (sorts .pcidevicecon)
  else pure ()

end Code

section Meaning

variable {γ χ : Type} (toSepolContext : γ → Option χ)

/-- The contexts that a statement writes out. -/
def contexts : (k : Kind) → k.Data γ → List γ
  | .netifcon => fun d => [d.context.1, d.context.2]
  | .filecon => fun d => d.context.toList
  | .genfscon => fun d => [d.context]
  | .nodecon => fun d => [d.context]
  | .portcon => fun d => [d.context]
  | .pirqcon => fun d => [d.context]
  | .iomemcon => fun d => [d.context]
  | .ioportcon => fun d => [d.context]
  | .pcidevicecon => fun d => [d.context]
  | .fsuse => fun d => [d.context]

/-- The statements that go into the binary policy. -/
def written (xen : Bool) : List Kind :=
  [.portcon, .netifcon, .nodecon, .fsuse, .genfscon] ++
    if xen then [.pirqcon, .iomemcon, .ioportcon, .pcidevicecon] else []

def Converts (k : Kind) (d : k.Data γ) : Prop :=
  ∀ c ∈ contexts k d, (toSepolContext c).isSome = true

def portOcon (d : Kind.Data γ .portcon) : Ocontext χ :=
  ⟨.port (ipproto d.con.proto) (d.con.portLow.setWidth 16) (d.con.portHigh.setWidth 16),
    toSepolContext d.context, none⟩

def netifOcon (d : Kind.Data γ .netifcon) : Ocontext χ :=
  ⟨.netif d.con.interfaceStr, toSepolContext d.context.1, toSepolContext d.context.2⟩

def nodeOcon (d : Kind.Data γ .nodecon) : Ocontext χ :=
  match d.con.addr.family with
  | .inet =>
      ⟨.node (d.con.addr.ip.take 4) (d.con.mask.ip.take 4), toSepolContext d.context, none⟩
  | .inet6 =>
      ⟨.node6 (d.con.addr.ip.take 16) (d.con.mask.ip.take 16), toSepolContext d.context, none⟩

def fsuseOcon (d : Kind.Data γ .fsuse) : Ocontext χ :=
  ⟨.fsuse d.con.fsStr d.con.type, toSepolContext d.context, none⟩

def pirqOcon (d : Kind.Data γ .pirqcon) : Ocontext χ :=
  ⟨.pirq (d.con.pirq.setWidth 16), toSepolContext d.context, none⟩

def iomemOcon (d : Kind.Data γ .iomemcon) : Ocontext χ :=
  ⟨.iomem d.con.iomemLow d.con.iomemHigh, toSepolContext d.context, none⟩

def ioportOcon (d : Kind.Data γ .ioportcon) : Ocontext χ :=
  ⟨.ioport d.con.ioportLow d.con.ioportHigh, toSepolContext d.context, none⟩

def deviceOcon (d : Kind.Data γ .pcidevicecon) : Ocontext χ :=
  ⟨.device d.con.dev, toSepolContext d.context, none⟩

/-- The list that an address is in. -/
def nodeKind (d : Kind.Data γ .nodecon) : Ocon :=
  match d.con.addr.family with
  | .inet => .node
  | .inet6 => .node6

/-- The lists of the policy, read along their links, have what the statements say, in the order
of the arrays. -/
structure Written (xen : Bool) (lists : (k : Kind) → List (k.Data γ)) (p : Policy χ) : Prop where
  port : p.ocontexts.read .port = (lists .portcon).map (portOcon toSepolContext)
  netif : p.ocontexts.read .netif = (lists .netifcon).map (netifOcon toSepolContext)
  node : p.ocontexts.read .node =
    ((lists .nodecon).filter fun d => nodeKind d = .node).map (nodeOcon toSepolContext)
  node6 : p.ocontexts.read .node6 =
    ((lists .nodecon).filter fun d => nodeKind d = .node6).map (nodeOcon toSepolContext)
  fsuse : p.ocontexts.read .fsuse = (lists .fsuse).map (fsuseOcon toSepolContext)
  pirq : p.ocontexts.read .pirq =
    if xen then (lists .pirqcon).map (pirqOcon toSepolContext) else []
  iomem : p.ocontexts.read .iomem =
    if xen then (lists .iomemcon).map (iomemOcon toSepolContext) else []
  ioport : p.ocontexts.read .ioport =
    if xen then (lists .ioportcon).map (ioportOcon toSepolContext) else []
  device : p.ocontexts.read .device =
    if xen then (lists .pcidevicecon).map (deviceOcon toSepolContext) else []
  genfs : Genfs.genfsconToPolicydb toSepolContext
    ((lists .genfscon).map fun d => ⟨d.con, d.context⟩) = some (.ok, p.genfs)

end Meaning

section Rows

variable {γ χ : Type}

/-- What the objects that were added are in one list. -/
def ofRows (rows : List (Ocon × Ocontext χ)) (k : Ocon) : List (Ocontext χ) :=
  (rows.filter fun r => r.1 = k).map Prod.snd

private theorem ofRows_append (rows rows' : List (Ocon × Ocontext χ)) (k : Ocon) :
    ofRows (rows ++ rows') k = ofRows rows k ++ ofRows rows' k := by
  unfold ofRows
  rw [List.filter_append, List.map_append]

private theorem ofRows_snoc (rows : List (Ocon × Ocontext χ)) (k : Ocon) (o : Ocontext χ) :
    ofRows (rows ++ [(k, o)]) = Function.update (ofRows rows) k (ofRows rows k ++ [o]) := by
  funext k'
  rw [ofRows_append]
  by_cases hk : k' = k
  · subst hk
    rw [Function.update_self]
    congr 1
    unfold ofRows
    simp
  · rw [Function.update_of_ne hk]
    have hnone : ofRows [(k, o)] k' = [] := by
      unfold ofRows
      simp [Ne.symm hk]
    rw [hnone, List.append_nil]

private theorem ofRows_eq_nil {rows : List (Ocon × Ocontext χ)} {k : Ocon}
    (h : ∀ r ∈ rows, r.1 ≠ k) :
    ofRows rows k = [] := by
  unfold ofRows
  rw [List.map_eq_nil_iff, List.filter_eq_nil_iff]
  intro r hr heq
  exact h r hr (of_decide_eq_true heq)

private theorem ofRows_map {δ : Type} (kind : δ → Ocon) (f : δ → Ocontext χ) (l : List δ)
    (k : Ocon) :
    ofRows (l.map fun d => (kind d, f d)) k = (l.filter fun d => kind d = k).map f := by
  unfold ofRows
  rw [List.filter_map, List.map_map]
  rfl

/-- The policy holds the objects that were added; the lists in `kinds` still grow. -/
def Built (kinds : List Ocon) (rows : List (Ocon × Ocontext χ)) (p : Policy χ) : Prop :=
  ∃ cells, p.ocontexts.Holds (fun k => k ∈ kinds) cells (ofRows rows)

theorem Built.read {kinds : List Ocon} {rows : List (Ocon × Ocontext χ)} {p : Policy χ}
    (h : Built kinds rows p) (k : Ocon) : p.ocontexts.read k = ofRows rows k := by
  obtain ⟨cells, hholds⟩ := h
  exact hholds.read k

private theorem built_init : Built [] [] (Policy.init : Policy χ) := by
  refine ⟨fun _ => [], ?_⟩
  have hnil : (fun _ => []) = ofRows ([] : List (Ocon × Ocontext χ)) := rfl
  rw [← hnil]
  exact Lists.holds_nil fun k hk => absurd hk List.not_mem_nil

/-- The object that was added last is in the cell `a`. -/
def Latest (kinds : List Ocon) (rows : List (Ocon × Ocontext χ)) (k : Ocon) (o : Ocontext χ)
    (a : Nat) (p : Policy χ) : Prop :=
  ∃ cells as, p.ocontexts.Holds (fun k => k ∈ kinds) cells (ofRows (rows ++ [(k, o)])) ∧
    cells k = as ++ [a]

variable {kinds : List Ocon} {rows : List (Ocon × Ocontext χ)} {p : Policy χ} {k : Ocon}

theorem Latest.built {o : Ocontext χ} {a : Nat} (h : Latest kinds rows k o a p) :
    Built kinds (rows ++ [(k, o)]) p := by
  obtain ⟨cells, as, hholds, hcells⟩ := h
  exact ⟨cells, hholds⟩

/-- A new object at the end of its list. -/
private theorem cilAddOcontext_latest (h : Built kinds rows p) (hk : k ∈ kinds) :
    ∃ a p', cilAddOcontext k p = some (.ok a p') ∧ Latest kinds rows k ⟨.zero, none, none⟩ a p' ∧
      p'.genfs = p.genfs := by
  obtain ⟨cells, hholds⟩ := h
  have hadded := hholds.append (⟨.zero, none, none⟩ : Ocontext χ) hk
  rw [← ofRows_snoc] at hadded
  exact ⟨_, _, rfl, ⟨_, cells k, hadded, Function.update_self ..⟩, rfl⟩

/-- The object that was added last gets other fields. -/
private theorem setOcontext_latest {o : Ocontext χ} {a : Nat} (h : Latest kinds rows k o a p)
    (o' : Ocontext χ) :
    ∃ p', setOcontext a o' p = some (.ok () p') ∧ Latest kinds rows k o' a p' ∧
      p'.genfs = p.genfs := by
  obtain ⟨cells, as, hholds, hcells⟩ := h
  have hcontent : ofRows (rows ++ [(k, o)]) k = ofRows rows k ++ [o] := by
    rw [ofRows_snoc, Function.update_self]
  have hstored := hholds.store hcells hcontent o'
  have hsame : Function.update (ofRows (rows ++ [(k, o)])) k (ofRows rows k ++ [o']) =
      ofRows (rows ++ [(k, o')]) := by
    rw [ofRows_snoc, ofRows_snoc, Function.update_idem]
  rw [hsame] at hstored
  exact ⟨_, rfl, ⟨cells, as, hstored, hcells⟩, rfl⟩

end Rows

section Turns

variable {γ χ δ : Type} {toSepolContext : γ → Option χ}

/-- A turn adds one object, or fails. -/
structure Adds (kinds : List Ocon) (turn : δ → Call Rc (Policy χ) Unit) (converts : δ → Prop)
    (row : δ → Ocon × Ocontext χ) : Prop where
  kind : ∀ d, (row d).1 ∈ kinds
  ok : ∀ d p rows, converts d → Built kinds rows p → ∃ p', turn d p = some (.ok () p') ∧
    Built kinds (rows ++ [row d]) p' ∧ p'.genfs = p.genfs
  failed : ∀ d p, ¬ converts d → ∃ p', turn d p = some (.failed .err p')

private theorem oconTurn_adds {kinds : List Ocon} {kind : δ → Ocon} (object : δ → Object)
    (context : δ → γ) (hkind : ∀ d, kind d ∈ kinds) :
    Adds kinds (fun d => oconTurn toSepolContext (kind d) (object d) (context d))
      (fun d => (toSepolContext (context d)).isSome = true)
      (fun d => (kind d, ⟨object d, toSepolContext (context d), none⟩)) where
  kind := hkind
  ok d p rows hconverts hbuilt := by
    obtain ⟨c, hc⟩ := Option.isSome_iff_exists.mp hconverts
    obtain ⟨a, p₁, hadd, hlatest₁, hgenfs₁⟩ := cilAddOcontext_latest hbuilt (hkind d)
    obtain ⟨p₂, hset₂, hlatest₂, hgenfs₂⟩ := setOcontext_latest hlatest₁ ⟨object d, none, none⟩
    obtain ⟨p₃, hset₃, hlatest₃, hgenfs₃⟩ := setOcontext_latest hlatest₂ ⟨object d, some c, none⟩
    have hbuilt₃ := hlatest₃.built
    rw [← hc] at hbuilt₃
    refine ⟨p₃, ?_, hbuilt₃, by rw [hgenfs₃, hgenfs₂, hgenfs₁]⟩
    unfold oconTurn
    rw [Call.bind_of_ok hadd, Call.bind_of_ok hset₂, hc]
    exact hset₃
  failed d p hconverts := by
    have hnone : toSepolContext (context d) = none := by
      cases hc : toSepolContext (context d) with
      | none => rfl
      | some c =>
          rw [hc] at hconverts
          exact absurd rfl hconverts
    unfold oconTurn
    rw [hnone]
    exact ⟨_, rfl⟩

variable (toSepolContext) in
private theorem netifconTurn_adds : Adds [.netif] (netifconTurn toSepolContext)
    (fun d => (toSepolContext d.context.1).isSome = true ∧
      (toSepolContext d.context.2).isSome = true)
    (fun d => (.netif, netifOcon toSepolContext d)) where
  kind d := List.mem_singleton_self _
  ok d p rows hconverts hbuilt := by
    obtain ⟨hinterface, hpacket⟩ := hconverts
    obtain ⟨c, hc⟩ := Option.isSome_iff_exists.mp hinterface
    obtain ⟨c', hc'⟩ := Option.isSome_iff_exists.mp hpacket
    obtain ⟨a, p₁, hadd, hlatest₁, hgenfs₁⟩ :=
      cilAddOcontext_latest hbuilt (List.mem_singleton_self Ocon.netif)
    obtain ⟨p₂, hset₂, hlatest₂, hgenfs₂⟩ :=
      setOcontext_latest hlatest₁ ⟨.netif d.con.interfaceStr, none, none⟩
    obtain ⟨p₃, hset₃, hlatest₃, hgenfs₃⟩ :=
      setOcontext_latest hlatest₂ ⟨.netif d.con.interfaceStr, some c, none⟩
    obtain ⟨p₄, hset₄, hlatest₄, hgenfs₄⟩ :=
      setOcontext_latest hlatest₃ ⟨.netif d.con.interfaceStr, some c, some c'⟩
    have hbuilt₄ := hlatest₄.built
    rw [← hc, ← hc'] at hbuilt₄
    refine ⟨p₄, ?_, hbuilt₄, by rw [hgenfs₄, hgenfs₃, hgenfs₂, hgenfs₁]⟩
    have hconvert : Call.onFailure (fun p : Policy χ => { p with
        ocontexts := p.ocontexts.store a ⟨.netif d.con.interfaceStr, none, none⟩ })
        (Call.orFail Rc.err (some c')) p₃ = some (.ok c' p₃) := rfl
    have hinterface : Call.orFail Rc.err (some c) p₂ = some (.ok c p₂) := rfl
    unfold netifconTurn
    rw [Call.bind_of_ok hadd, Call.bind_of_ok hset₂, hc, hc', Call.bind_of_ok hinterface,
      Call.bind_of_ok hset₃, Call.bind_of_ok hconvert]
    exact hset₄
  failed d p hconverts := by
    unfold netifconTurn
    cases hc : toSepolContext d.context.1 with
    | none => exact ⟨_, rfl⟩
    | some c =>
        cases hc' : toSepolContext d.context.2 with
        | none => exact ⟨_, rfl⟩
        | some c' =>
            rw [hc, hc'] at hconverts
            exact absurd ⟨rfl, rfl⟩ hconverts

variable (toSepolContext) in
private theorem nodeconTurn_adds : Adds [.node, .node6] (nodeconTurn toSepolContext)
    (fun d => (toSepolContext d.context).isSome = true)
    (fun d => (nodeKind d, nodeOcon toSepolContext d)) := by
  have hturn : nodeconTurn toSepolContext =
      fun d =>
        oconTurn toSepolContext (nodeKind d) (nodeOcon toSepolContext d).object d.context := by
    funext d
    unfold nodeconTurn nodeKind nodeOcon
    cases d.con.addr.family <;> rfl
  have hrow : (fun d => (nodeKind d, nodeOcon toSepolContext d)) = fun d => (nodeKind d,
      ⟨(nodeOcon toSepolContext d).object, toSepolContext d.context, none⟩) := by
    funext d
    unfold nodeKind nodeOcon
    cases d.con.addr.family <;> rfl
  rw [hturn, hrow]
  apply oconTurn_adds
  intro d
  unfold nodeKind
  cases d.con.addr.family <;> decide

end Turns

section Loops

variable {γ χ δ : Type} {kinds : List Ocon} {turn : δ → Call Rc (Policy χ) Unit}
  {converts : δ → Prop} {row : δ → Ocon × Ocontext χ}

/-- The loop over the entries of an array. -/
private theorem forEach_adds (hadds : Adds kinds turn converts row) (l : List δ) (p : Policy χ)
    (rows : List (Ocon × Ocontext χ)) (hbuilt : Built kinds rows p) :
    ((∀ d ∈ l, converts d) → ∃ p', Call.forEach turn l p = some (.ok () p') ∧
      Built kinds (rows ++ l.map row) p' ∧ p'.genfs = p.genfs) ∧
    (¬ (∀ d ∈ l, converts d) → ∃ p', Call.forEach turn l p = some (.failed .err p')) := by
  induction l generalizing p rows with
  | nil =>
      refine ⟨fun _ => ⟨p, rfl, ?_, rfl⟩, fun hnot => absurd (fun d hd => ?_) hnot⟩
      · rw [List.map_nil, List.append_nil]
        exact hbuilt
      · cases hd
  | cons d l ih =>
      by_cases hd : converts d
      · obtain ⟨p₁, hturn, hbuilt₁, hgenfs₁⟩ := hadds.ok d p rows hd hbuilt
        obtain ⟨hok, hfailed⟩ := ih p₁ (rows ++ [row d]) hbuilt₁
        have hloop : Call.forEach turn (d :: l) p = Call.forEach turn l p₁ := Call.bind_of_ok hturn
        rw [hloop]
        refine ⟨fun hall => ?_, fun hnot => hfailed fun hrest => hnot ?_⟩
        · obtain ⟨p₂, hrun, hbuilt₂, hgenfs₂⟩ := hok fun e he => hall e (List.mem_cons_of_mem d he)
          rw [List.append_assoc] at hbuilt₂
          exact ⟨p₂, hrun, hbuilt₂, hgenfs₂.trans hgenfs₁⟩
        · intro e he
          rcases List.mem_cons.mp he with heq | he
          · rw [heq]
            exact hd
          · exact hrest e he
      · obtain ⟨p₁, hturn⟩ := hadds.failed d p hd
        refine ⟨fun hall => absurd (hall d List.mem_cons_self) hd, fun _ => ⟨p₁, ?_⟩⟩
        exact Call.bind_of_failed hturn

variable (turn) in
/-- A loop over slots that were written is one over the entries. -/
private theorem forEach_slots (l : List δ) (front rest : List (Option δ)) (p : Policy χ) :
    Call.forEach (fun i => Call.orCrash ((front ++ (l.map some ++ rest)).getD i none) >>= turn)
      (List.range' front.length l.length) p = Call.forEach turn l p := by
  induction l generalizing p front with
  | nil => rfl
  | cons d l ih =>
      rw [List.length_cons, List.range'_succ, List.map_cons, List.cons_append]
      have hslot : (front ++ some d :: (l.map some ++ rest)).getD front.length none = some d := by
        rw [List.getD_eq_getElem?_getD, List.getElem?_append_right (Nat.le_refl _), Nat.sub_self]
        rfl
      have hrest : Call.forEach
          (fun i => Call.orCrash ((front ++ some d :: (l.map some ++ rest)).getD i none) >>= turn)
          (List.range' (front.length + 1) l.length) = Call.forEach turn l := by
        funext p
        have hnext := ih (front ++ [some d]) p
        rw [List.length_append, List.length_singleton, List.append_assoc] at hnext
        exact hnext
      rw [Call.forEach, hrest, hslot]
      rfl

private theorem forSlots_eq {cons : CilSort δ} {l : List δ} (hentries : cons.entries = some l)
    (p : Policy χ) :
    forSlots cons turn p = Call.forEach turn l { p with ocontexts := p.ocontexts.restart } := by
  obtain ⟨hcount, rest, hslots⟩ := slots_of_entries hentries
  have hloop := forEach_slots turn l [] rest { p with ocontexts := p.ocontexts.restart }
  rw [List.length_nil, List.nil_append, ← List.range_eq_range', ← hslots, ← hcount] at hloop
  exact hloop

/-- A loop over an array, when its lists have nothing yet. -/
private theorem forSlots_adds (hadds : Adds kinds turn converts row) {cons : CilSort δ} {l : List δ}
    (hentries : cons.entries = some l) {kinds' : List Ocon} {rows : List (Ocon × Ocontext χ)}
    {p : Policy χ} (hbuilt : Built kinds' rows p) (hnone : ∀ r ∈ rows, r.1 ∉ kinds) :
    ((∀ d ∈ l, converts d) → ∃ p', forSlots cons turn p = some (.ok () p') ∧
      Built kinds (rows ++ l.map row) p' ∧ p'.genfs = p.genfs) ∧
    (¬ (∀ d ∈ l, converts d) → ∃ p', forSlots cons turn p = some (.failed .err p')) := by
  obtain ⟨cells, hholds⟩ := hbuilt
  have hrestart : Built kinds rows { p with ocontexts := p.ocontexts.restart } := by
    refine ⟨cells, hholds.restart fun k hk => ofRows_eq_nil fun r hr heq => ?_⟩
    rw [← heq] at hk
    exact hnone r hr hk
  rw [forSlots_eq hentries]
  exact forEach_adds hadds l _ rows hrestart

end Loops

section Stages

variable {γ χ δ : Type}

/-- From a policy without objects in `kinds` the call adds objects there, and changes the labels
of file systems from `g` to `g'`, or it fails because something does not convert. -/
structure Writes (c : Call Rc (Policy χ) Unit) (kinds : List Ocon) (converts : Prop)
    (added : List (Ocon × Ocontext χ)) (g g' : Genfs.Memory χ) : Prop where
  kind : ∀ r ∈ added, r.1 ∈ kinds
  ok : ∀ growing rows p, converts → Built growing rows p → (∀ r ∈ rows, r.1 ∉ kinds) →
    p.genfs = g → ∃ growing' p', c p = some (.ok () p') ∧ Built growing' (rows ++ added) p' ∧
      p'.genfs = g'
  failed : ∀ growing rows p, ¬ converts → Built growing rows p → (∀ r ∈ rows, r.1 ∉ kinds) →
    p.genfs = g → ∃ e p', c p = some (.failed e p')

theorem Writes.of_iff {c : Call Rc (Policy χ) Unit} {kinds : List Ocon} {converts converts' : Prop}
    {added : List (Ocon × Ocontext χ)} {g g' : Genfs.Memory χ}
    (h : Writes c kinds converts added g g') (hiff : converts ↔ converts') :
    Writes c kinds converts' added g g' where
  kind := h.kind
  ok growing rows p hconverts := h.ok growing rows p (hiff.mpr hconverts)
  failed growing rows p hnot := h.failed growing rows p fun hconverts => hnot (hiff.mp hconverts)

private theorem writes_pure (g : Genfs.Memory χ) : Writes (pure ()) [] True [] g g where
  kind r hr := absurd hr List.not_mem_nil
  ok growing rows p _ hbuilt _ hgenfs := by
    rw [List.append_nil]
    exact ⟨growing, p, rfl, hbuilt, hgenfs⟩
  failed _ _ _ hnot := absurd trivial hnot

/-- One call after another. -/
theorem Writes.bind {c c' : Call Rc (Policy χ) Unit} {kinds kinds' : List Ocon}
    {converts converts' : Prop} {added added' : List (Ocon × Ocontext χ)}
    {g₁ g₂ g₃ : Genfs.Memory χ}
    (h : Writes c kinds converts added g₁ g₂) (h' : Writes c' kinds' converts' added' g₂ g₃)
    (hapart : ∀ k ∈ kinds, k ∉ kinds') :
    Writes (c >>= fun _ => c') (kinds ++ kinds') (converts ∧ converts') (added ++ added')
      g₁ g₃ where
  kind r hr := by
    rcases List.mem_append.mp hr with hr | hr
    · exact List.mem_append_left _ (h.kind r hr)
    · exact List.mem_append_right _ (h'.kind r hr)
  ok growing rows p hconverts hbuilt hnone hgenfs := by
    obtain ⟨hfirst, hsecond⟩ := hconverts
    have hnone₁ : ∀ r ∈ rows, r.1 ∉ kinds := fun r hr hk => hnone r hr (List.mem_append_left _ hk)
    obtain ⟨growing₁, p₁, hc, hbuilt₁, hgenfs₁⟩ := h.ok growing rows p hfirst hbuilt hnone₁ hgenfs
    have hnone₂ : ∀ r ∈ rows ++ added, r.1 ∉ kinds' := by
      intro r hr hk
      rcases List.mem_append.mp hr with hr | hr
      · exact hnone r hr (List.mem_append_right _ hk)
      · exact hapart _ (h.kind r hr) hk
    obtain ⟨growing₂, p₂, hc', hbuilt₂, hgenfs₂⟩ :=
      h'.ok growing₁ (rows ++ added) p₁ hsecond hbuilt₁ hnone₂ hgenfs₁
    rw [List.append_assoc] at hbuilt₂
    exact ⟨growing₂, p₂, (Call.bind_of_ok hc).trans hc', hbuilt₂, hgenfs₂⟩
  failed growing rows p hnot hbuilt hnone hgenfs := by
    have hnone₁ : ∀ r ∈ rows, r.1 ∉ kinds := fun r hr hk => hnone r hr (List.mem_append_left _ hk)
    by_cases hfirst : converts
    · obtain ⟨growing₁, p₁, hc, hbuilt₁, hgenfs₁⟩ := h.ok growing rows p hfirst hbuilt hnone₁ hgenfs
      have hnone₂ : ∀ r ∈ rows ++ added, r.1 ∉ kinds' := by
        intro r hr hk
        rcases List.mem_append.mp hr with hr | hr
        · exact hnone r hr (List.mem_append_right _ hk)
        · exact hapart _ (h.kind r hr) hk
      have hsecond : ¬ converts' := fun hboth => hnot ⟨hfirst, hboth⟩
      obtain ⟨e, p₂, hc'⟩ := h'.failed growing₁ (rows ++ added) p₁ hsecond hbuilt₁ hnone₂ hgenfs₁
      exact ⟨e, p₂, (Call.bind_of_ok hc).trans hc'⟩
    · obtain ⟨e, p₁, hc⟩ := h.failed growing rows p hfirst hbuilt hnone₁ hgenfs
      exact ⟨e, p₁, Call.bind_of_failed hc⟩

/-- A loop over an array. -/
private theorem writes_forSlots {kinds : List Ocon} {turn : δ → Call Rc (Policy χ) Unit}
    {converts : δ → Prop} {row : δ → Ocon × Ocontext χ} (hadds : Adds kinds turn converts row)
    {cons : CilSort δ} {l : List δ} (hentries : cons.entries = some l) (g : Genfs.Memory χ) :
    Writes (forSlots cons turn) kinds (∀ d ∈ l, converts d) (l.map row) g g where
  kind r hr := by
    obtain ⟨d, -, rfl⟩ := List.mem_map.mp hr
    exact hadds.kind d
  ok growing rows p hconverts hbuilt hnone hgenfs := by
    obtain ⟨p', hrun, hbuilt', hgenfs'⟩ :=
      (forSlots_adds hadds hentries hbuilt hnone).1 hconverts
    exact ⟨kinds, p', hrun, hbuilt', hgenfs'.trans hgenfs⟩
  failed growing rows p hnot hbuilt hnone _ :=
    ⟨.err, (forSlots_adds hadds hentries hbuilt hnone).2 hnot⟩

/-- The labels of file systems, which are sorted. -/
private theorem writes_genfs (toSepolContext : γ → Option χ)
    {genfscons : CilSort (Kind.Data γ .genfscon)}
    {l : List (Kind.Data γ .genfscon)} (hentries : genfscons.entries = some l)
    (hsorted : Sorted (Kind.compare .genfscon) l) (g : Genfs.Memory χ) :
    ∃ g', ((∀ d ∈ l, (toSepolContext d.context).isSome = true) → Genfs.genfsconToPolicydb
        toSepolContext (l.map fun d => ⟨d.con, d.context⟩) = some (.ok, g')) ∧
      Writes (cilGenfsconToPolicydb toSepolContext genfscons) []
        (∀ d ∈ l, (toSepolContext d.context).isSome = true) [] g g' := by
  have horder :
      (l.map fun d => (⟨d.con, d.context⟩ : Genfs.Statement γ)).Pairwise Genfs.InOrder := by
    rw [List.pairwise_map]
    refine List.Pairwise.imp ?_ hsorted
    intro a b hab
    exact Genfs.inOrder_of_compare hab
  have hnone : Genfs.Holds toSepolContext [] ([] : List (Text × List (Genfs.Ocontext χ))) :=
    ⟨rfl, .nil⟩
  obtain ⟨rc, g', groups, hloop, -, hok, -⟩ :=
    Genfs.genfsconLoop_laid _ Genfs.laid_init hnone horder
  have hrun : Genfs.genfsconToPolicydb toSepolContext (l.map fun d => ⟨d.con, d.context⟩) =
      some (rc, g') := hloop
  simp only [List.forall_mem_map] at hok
  have hpolicy (p : Policy χ) : cilGenfsconToPolicydb toSepolContext genfscons p =
      ofGenfs p (Genfs.genfsconToPolicydb toSepolContext (l.map fun d => ⟨d.con, d.context⟩)) := by
    unfold cilGenfsconToPolicydb
    rw [hentries]
    rfl
  rw [hrun] at hpolicy
  refine ⟨g', fun hconverts => ?_, ?_⟩
  · rw [hrun, hok.mpr hconverts]
  · constructor
    · intro r hr
      cases hr
    · intro growing rows p hconverts hbuilt _ _
      rw [hpolicy, hok.mpr hconverts, List.append_nil]
      exact ⟨growing, _, rfl, hbuilt, rfl⟩
    · intro growing rows p hnot _ _ _
      have hrc : rc ≠ .ok := fun heq => hnot (hok.mp heq)
      rw [hpolicy]
      cases rc with
      | ok => exact absurd rfl hrc
      | err => exact ⟨_, _, rfl⟩
      | enoent => exact ⟨_, _, rfl⟩
      | eexist => exact ⟨_, _, rfl⟩

end Stages

section Policies

variable {γ χ : Type} (toSepolContext : γ → Option χ)

/-- The contexts of all statements that are written are known to the policy. -/
def AllConvert (xen : Bool) (lists : (k : Kind) → List (k.Data γ)) : Prop :=
  ∀ k ∈ written xen, ∀ d ∈ lists k, Converts toSepolContext k d

/-- The objects of the devices. -/
def deviceRows (lists : (k : Kind) → List (k.Data γ)) : List (Ocon × Ocontext χ) :=
  (lists .pirqcon).map (fun d => (.pirq, pirqOcon toSepolContext d)) ++
  ((lists .iomemcon).map (fun d => (.iomem, iomemOcon toSepolContext d)) ++
  ((lists .ioportcon).map (fun d => (.ioport, ioportOcon toSepolContext d)) ++
  (lists .pcidevicecon).map (fun d => (.device, deviceOcon toSepolContext d))))

/-- The objects of all statements. -/
def allRows (xen : Bool) (lists : (k : Kind) → List (k.Data γ)) : List (Ocon × Ocontext χ) :=
  (lists .portcon).map (fun d => (.port, portOcon toSepolContext d)) ++
  ((lists .netifcon).map (fun d => (.netif, netifOcon toSepolContext d)) ++
  ((lists .nodecon).map (fun d => (nodeKind d, nodeOcon toSepolContext d)) ++
  ((lists .fsuse).map (fun d => (.fsuse, fsuseOcon toSepolContext d)) ++
  ([] ++ if xen then deviceRows toSepolContext lists else []))))

variable {toSepolContext} {xen : Bool} {sorts : (k : Kind) → CilSort (k.Data γ)}
  {lists : (k : Kind) → List (k.Data γ)}

variable (toSepolContext xen) in
private theorem writes_contexts (hentries : ∀ k, (sorts k).entries = some (lists k))
    (hsorted : Sorted (Kind.compare .genfscon) (lists .genfscon)) (g : Genfs.Memory χ) :
    ∃ g' kinds, (AllConvert toSepolContext xen lists → Genfs.genfsconToPolicydb toSepolContext
        ((lists .genfscon).map fun d => ⟨d.con, d.context⟩) = some (.ok, g')) ∧
      Writes (cilContextsToPolicydb toSepolContext xen sorts) kinds
        (AllConvert toSepolContext xen lists) (allRows toSepolContext xen lists) g g' := by
  obtain ⟨g', hrun, hgenfs⟩ := writes_genfs toSepolContext (hentries .genfscon) hsorted g
  have hone {δ : Type} (k : Ocon) (object : δ → Object) (context : δ → γ) :
      Adds [k] (fun d => oconTurn toSepolContext k (object d) (context d))
        (fun d => (toSepolContext (context d)).isSome = true)
        (fun d => (k, ⟨object d, toSepolContext (context d), none⟩)) :=
    oconTurn_adds object context fun _ => List.mem_singleton_self k
  have hport := writes_forSlots (hone .port (fun d => (portOcon toSepolContext d).object)
    Labelling.context) (hentries .portcon) g
  have hnetif := writes_forSlots (netifconTurn_adds toSepolContext)
    (hentries .netifcon) g
  have hnode := writes_forSlots (nodeconTurn_adds toSepolContext)
    (hentries .nodecon) g
  have hfsuse := writes_forSlots (hone .fsuse (fun d => (fsuseOcon toSepolContext d).object)
    Labelling.context) (hentries .fsuse) g
  have hpirq := writes_forSlots (hone .pirq (fun d => (pirqOcon toSepolContext d).object)
    Labelling.context) (hentries .pirqcon) g'
  have hiomem := writes_forSlots (hone .iomem (fun d => (iomemOcon toSepolContext d).object)
    Labelling.context) (hentries .iomemcon) g'
  have hioport := writes_forSlots (hone .ioport (fun d => (ioportOcon toSepolContext d).object)
    Labelling.context) (hentries .ioportcon) g'
  have hdevice := writes_forSlots (hone .device (fun d => (deviceOcon toSepolContext d).object)
    Labelling.context) (hentries .pcidevicecon) g'
  cases xen with
  | false =>
      have hall := hport.bind (hnetif.bind (hnode.bind (hfsuse.bind (hgenfs.bind (writes_pure g')
        (by decide)) (by decide)) (by decide)) (by decide)) (by decide)
      refine ⟨g', _, fun h => hrun ?_, hall.of_iff ?_⟩
      · intro d hd
        exact h .genfscon (by decide) d hd _ (List.mem_singleton_self _)
      · simp only [AllConvert, written, Converts, contexts]
        simp
  | true =>
      have hdevices := hpirq.bind (hiomem.bind (hioport.bind hdevice (by decide)) (by decide))
        (by decide)
      have hall := hport.bind (hnetif.bind (hnode.bind (hfsuse.bind (hgenfs.bind hdevices
        (by decide)) (by decide)) (by decide)) (by decide)) (by decide)
      refine ⟨g', _, fun h => hrun ?_, hall.of_iff ?_⟩
      · intro d hd
        exact h .genfscon (by decide) d hd _ (List.mem_singleton_self _)
      · simp only [AllConvert, written, Converts, contexts]
        simp

private theorem written_of_built {growing : List Ocon} {p : Policy χ}
    (hbuilt : Built growing (allRows toSepolContext xen lists) p)
    (hgenfs : Genfs.genfsconToPolicydb toSepolContext
      ((lists .genfscon).map fun d => ⟨d.con, d.context⟩) = some (.ok, p.genfs)) :
    Written toSepolContext xen lists p := by
  have hread := hbuilt.read
  have hself {δ : Type} (k : Ocon) (f : δ → Ocontext χ) (l : List δ) :
      ofRows (l.map fun d => (k, f d)) k = l.map f := by
    rw [ofRows_map]
    simp
  have hother {δ : Type} (k k' : Ocon) (hk : k' ≠ k) (f : δ → Ocontext χ) (l : List δ) :
      ofRows (l.map fun d => (k', f d)) k = [] := by
    rw [ofRows_map]
    simp [hk]
  have hnode (k : Ocon) (hk : k ≠ .node) (hk' : k ≠ .node6) :
      ofRows ((lists .nodecon).map fun d => (nodeKind d, nodeOcon toSepolContext d)) k = [] := by
    rw [ofRows_map]
    rw [List.map_eq_nil_iff, List.filter_eq_nil_iff]
    intro d _ heq
    have hkind := of_decide_eq_true heq
    unfold nodeKind at hkind
    cases hfamily : d.con.addr.family with
    | inet =>
        rw [hfamily] at hkind
        exact hk hkind.symm
    | inet6 =>
        rw [hfamily] at hkind
        exact hk' hkind.symm
  cases xen with
  | false =>
      simp only [allRows, ofRows_append, Bool.false_eq_true, if_false, List.append_nil] at hread
      constructor <;> first
        | exact hgenfs
        | rw [hread]
          simp [hself, hother, hnode, ofRows_map]
  | true =>
      simp only [allRows, deviceRows, ofRows_append, if_true, List.nil_append] at hread
      constructor <;> first
        | exact hgenfs
        | rw [hread]
          simp [hself, hother, hnode, ofRows_map]

variable (toSepolContext xen) in
private theorem allConvert_of_perm {lists' : (k : Kind) → List (k.Data γ)}
    (hperm : ∀ k, (lists k).Perm (lists' k)) :
    AllConvert toSepolContext xen lists ↔ AllConvert toSepolContext xen lists' := by
  unfold AllConvert
  simp only [(hperm _).mem_iff]

/-- What the conversion makes of the arrays that were sorted. -/
theorem contexts_posted (Q : Sorting) (toSepolContext : γ → Option χ) (xen : Bool) {υ : Type}
    {ast : Tree (NodeData γ υ)} (hsortable : Sortable (declared ast)) :
    (AllConvert toSepolContext xen (declared ast) → ∃ p,
      cilContextsToPolicydb toSepolContext xen (posted Q ast).sorts Policy.init = some (.ok () p) ∧
      Written toSepolContext xen (fun k => Q.sort k.compare (declared ast k)) p) ∧
    (¬ AllConvert toSepolContext xen (declared ast) → ∃ e p,
      cilContextsToPolicydb toSepolContext xen (posted Q ast).sorts Policy.init =
        some (.failed e p)) := by
  have hperm : ∀ k : Kind, (Q.sort k.compare (declared ast k)).Perm (declared ast k) := by
    intro k
    obtain ⟨κ, key, hconsistent⟩ := hsortable.consistent k
    exact Q.perm hconsistent
  have hentries : ∀ k : Kind, ((posted Q ast).sorts k).entries =
      some (Q.sort k.compare (declared ast k)) := by
    intro k
    have hpart := entries_part (Q.sort k.compare (declared ast k))
    rw [(hperm k).length_eq] at hpart
    exact hpart
  have hsorted : Sorted (Kind.compare .genfscon)
      (Q.sort (Kind.compare .genfscon) (declared ast .genfscon)) := by
    obtain ⟨κ, key, hconsistent⟩ := hsortable.consistent .genfscon
    exact Q.sorted hconsistent
  obtain ⟨g', kinds, hgenfs, hwrites⟩ := writes_contexts toSepolContext xen
    hentries hsorted (Policy.init : Policy χ).genfs
  have hiff := allConvert_of_perm toSepolContext xen hperm
  refine ⟨fun hconverts => ?_, fun hnot => ?_⟩
  · have hconverts := hiff.mpr hconverts
    obtain ⟨growing, p, hrun, hbuilt, hp⟩ := hwrites.ok [] [] Policy.init hconverts built_init
      (fun r hr => absurd hr List.not_mem_nil) rfl
    have hlabels := hgenfs hconverts
    rw [← hp] at hlabels
    exact ⟨p, hrun, written_of_built hbuilt hlabels⟩
  · exact hwrites.failed [] [] Policy.init (fun hconverts => hnot (hiff.mp hconverts)) built_init
      (fun r hr => absurd hr List.not_mem_nil) rfl

/-- From the tree to the policy: the conversion fails if and only if a context is unknown to the
policy. Otherwise each list of the policy has one object for each statement outside of macros and
abstract blocks, and their order is the one after the sort. -/
theorem contexts_written (Q : Sorting) (toSepolContext : γ → Option χ) (xen : Bool) {υ : Type}
    (nodes : Nat → Option TreeWalk.Links) (data : Nat → NodeData γ υ) {t : Tree Nat}
    {next : Option Nat} (h : TreeWalk.InMemory nodes next t)
    (hsortable : Sortable (declared (TreeWalk.contentsOf data t))) :
    ∃ n, ∀ fuel, n ≤ fuel → ∃ db : Db γ υ,
      cilPostDb Q nodes data fuel (TreeWalk.addr t) Db.init = some (.ok () db) ∧
      (AllConvert toSepolContext xen (declared (TreeWalk.contentsOf data t)) → ∃ p,
        cilContextsToPolicydb toSepolContext xen db.sorts Policy.init = some (.ok () p) ∧
        Written toSepolContext xen
          (fun k => Q.sort k.compare (declared (TreeWalk.contentsOf data t) k)) p) ∧
      (¬ AllConvert toSepolContext xen (declared (TreeWalk.contentsOf data t)) → ∃ e p,
        cilContextsToPolicydb toSepolContext xen db.sorts Policy.init = some (.failed e p)) := by
  obtain ⟨n, hrun⟩ := cilPostDb_posted Q h hsortable
  have hposted := contexts_posted Q toSepolContext xen hsortable
  exact ⟨n, fun fuel hfuel => ⟨_, hrun fuel hfuel, hposted⟩⟩

theorem portAndAbstractBlock_written : ∃ n, ∀ fuel, n ≤ fuel → ∃ db : Db Unit Unit,
    cilPostDb Comparator.merging TreeWalk.smallTreeNodes portAndAbstractBlock fuel 0 Db.init =
      some (.ok () db) ∧
    (AllConvert some true (declared (TreeWalk.contentsOf portAndAbstractBlock TreeWalk.smallTree)) →
      ∃ p, cilContextsToPolicydb some true db.sorts Policy.init = some (.ok () p) ∧
        Written some true (fun k => Comparator.merging.sort k.compare
          (declared (TreeWalk.contentsOf portAndAbstractBlock TreeWalk.smallTree) k)) p) ∧
    (¬ AllConvert some true (declared
        (TreeWalk.contentsOf portAndAbstractBlock TreeWalk.smallTree)) →
      ∃ e p, cilContextsToPolicydb some true db.sorts Policy.init = some (.failed e p)) :=
  contexts_written Comparator.merging some true TreeWalk.smallTreeNodes portAndAbstractBlock
    TreeWalk.inMemory_smallTree sortable_portAndAbstractBlock

end Policies

end Cil.Binary.Contexts
