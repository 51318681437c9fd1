/- Cil/CilListRefines
   digest: Whatever a client does with lists in memory, it does to the lists they stand for. -/

import Cil.CilListUpdates
import Cil.Flavor

set_option autoImplicit false
set_option relaxedAutoImplicit false

namespace Cil.CilList

open Library

variable {φ δ : Type}

section Destruction

variable {m : Memory φ δ} {A : Lists φ δ} {l : Nat} {flavor : φ} {xs : List (Entry φ δ)}
  {ps ps' ls ls' : List Nat} {gone gone' : List (φ × δ)}

/-- Items and lists are freed, and data was passed to `cil_destroy_data`. -/
def Memory.drop (m : Memory φ δ) (ps ls : List Nat) (gone : List (φ × δ)) : Memory φ δ :=
  { m with
    items := fun p => if p ∈ ps then none else m.items p
    lists := fun l => if l ∈ ls then none else m.lists l
    destroyed := m.destroyed ++ gone }

private theorem drop_nil : m.drop [] [] [] = m := by
  simp [Memory.drop]

private theorem drop_drop : (m.drop ps ls gone).drop ps' ls' gone' =
    m.drop (ps ++ ps') (ls ++ ls') (gone ++ gone') := by
  simp only [Memory.drop, List.mem_append, List.append_assoc]
  congr 1
  · funext p
    by_cases hp : p ∈ ps <;> by_cases hp' : p ∈ ps' <;> simp [hp, hp']
  · funext k
    by_cases hk : k ∈ ls <;> by_cases hk' : k ∈ ls' <;> simp [hk, hk']

private theorem drop_congr (hps : ∀ p, p ∈ ps ↔ p ∈ ps') (hls : ∀ k, k ∈ ls ↔ k ∈ ls') :
    m.drop ps ls gone = m.drop ps' ls' gone := by
  simp only [Memory.drop, hps, hls]

private theorem setItem_none (p : Nat) : m.setItem p none = m.drop [p] [] [] := by
  simp only [Memory.setItem, Memory.drop, List.mem_singleton, List.not_mem_nil, if_false,
    List.append_nil]
  congr 1
  funext q
  rw [Function.update_apply]

private theorem setList_none (l : Nat) : m.setList l none = m.drop [] [l] [] := by
  simp only [Memory.setList, Memory.drop, List.mem_singleton, List.not_mem_nil, if_false,
    List.append_nil]
  congr 1
  funext q
  rw [Function.update_apply]

/-- The memory holds these lists. -/
def Holds (m : Memory φ δ) (A : Lists φ δ) (ls : List Nat) : Prop :=
  ∀ l ∈ ls, ∀ flavor xs, A.lists l = some (flavor, xs) →
    m.lists l = some (headerOf flavor xs) ∧ Chained m.items xs none

theorem Holds.drop (h : Holds m A ls) (happart : ∀ p ∈ ls.flatMap A.addresses, p ∉ ps)
    (hlists : ∀ l ∈ ls, l ∉ ls') : Holds (m.drop ps ls' gone) A ls := by
  intro l hl flavor xs hxs
  obtain ⟨hheader, hlinked⟩ := h l hl flavor xs hxs
  refine ⟨(if_neg (hlists l hl)).trans hheader, hlinked.without fun p hp => happart p ?_⟩
  exact List.mem_flatMap.mpr ⟨l, hl, (addresses_of hxs).symm ▸ hp⟩

theorem Holds.mono (h : Holds m A ls) (hsub : ∀ l ∈ ls', l ∈ ls) : Holds m A ls' :=
  fun l hl => h l (hsub l hl)

private theorem passed_append (destroyData : Bool) :
    passed destroyData (gone ++ gone') = passed destroyData gone ++ passed destroyData gone' := by
  cases destroyData <;> rfl

/-- With this fuel the loop over the items frees them and the lists below them, and nothing else. -/
def Frees (A : Lists φ δ) (destroyData : Bool) (ds : List (Data φ δ)) (ls : List Nat)
    (gone : List (φ × δ)) (fuel : Nat) : Prop :=
  ∀ (m : Memory φ δ) (xs : List (Entry φ δ)), xs.map Prod.snd = ds → Chained m.items xs none →
    Holds m A ls → (xs.map Prod.fst ++ ls.flatMap A.addresses).Nodup → ls.Nodup →
    destroyItems destroyData fuel (firstOf xs none) m = some (.ok ()
      (m.drop (xs.map Prod.fst ++ ls.flatMap A.addresses) ls (passed destroyData gone)))

theorem Frees.rest {destroyData : Bool} {ds : List (Data φ δ)} {fuel : Nat}
    (h : Frees A destroyData ds ls gone fuel) (ps ls' : List Nat) (hds : xs.map Prod.snd = ds)
    (hlinked : Chained m.items xs none) (hholds : Holds m A ls)
    (hps : (ps ++ (xs.map Prod.fst ++ ls.flatMap A.addresses)).Nodup) (hls : (ls' ++ ls).Nodup) :
    destroyItems destroyData fuel (firstOf xs none) (m.drop ps ls' gone') = some (.ok ()
      (m.drop (ps ++ (xs.map Prod.fst ++ ls.flatMap A.addresses)) (ls' ++ ls)
        (gone' ++ passed destroyData gone))) := by
  obtain ⟨-, hrest, hdisjoint⟩ := List.nodup_append.mp hps
  obtain ⟨-, hlsRest, hlsDisjoint⟩ := List.nodup_append.mp hls
  rw [← drop_drop]
  refine h _ xs hds ?_ ?_ hrest hlsRest
  · exact hlinked.without fun p hp hp' => hdisjoint p hp' p (List.mem_append_left _ hp) rfl
  · refine hholds.drop (fun p hp hp' => ?_) fun k hk hk' => hlsDisjoint k hk' k hk rfl
    exact hdisjoint p hp' p (List.mem_append_right _ hp) rfl

/-- `cil_list_destroy` frees a list and the lists below it with their items. -/
private theorem cilListDestroy_run {destroyData : Bool} {fuel : Nat}
    (h : Frees A destroyData (xs.map Prod.snd) ls gone fuel) (hl : A.lists l = some (flavor, xs))
    (hholds : Holds m A (l :: ls)) (hps : ((l :: ls).flatMap A.addresses).Nodup)
    (hls : (l :: ls).Nodup) :
    cilListDestroy destroyData (fuel + 1) (some l) m = some (.ok ()
      (m.drop ((l :: ls).flatMap A.addresses) (l :: ls) (passed destroyData gone))) := by
  obtain ⟨hheader, hlinked⟩ := hholds l List.mem_cons_self flavor xs hl
  obtain ⟨hnot, hrest⟩ := List.nodup_cons.mp hls
  rw [List.flatMap_cons, addresses_of hl] at hps ⊢
  have hitems := h m xs rfl hlinked (hholds.mono fun k hk => List.mem_cons_of_mem l hk) hps hrest
  have hthere : (m.drop (xs.map Prod.fst ++ ls.flatMap A.addresses) ls
      (passed destroyData gone)).lists l = some (headerOf flavor xs) := (if_neg hnot).trans hheader
  rw [cilListDestroy, readList_bind hheader]
  change (destroyItems destroyData fuel (firstOf xs none) >>= _) m = _
  rw [Call.bind_of_ok hitems, freeList_run hthere, setList_none, drop_drop, List.append_nil,
    List.append_nil]
  refine congrArg (fun m => some (Returned.ok () m)) (drop_congr (fun p => Iff.rfl) fun k => ?_)
  rw [List.mem_append, List.mem_singleton, List.mem_cons, or_comm]

private theorem itemDestroy_run (destroyData : Bool) {p : Nat} {item : Item φ δ} {data : δ}
    (hp : m.items p = some item) : cilListItemDestroy destroyData p flavor data m = some (.ok ()
      (m.drop [p] [] (passed destroyData [(flavor, data)]))) := by
  cases destroyData with
  | false => exact (freeItem_run hp).trans (by rw [setItem_none]; rfl)
  | true =>
    have hthere : ({ m with destroyed := m.destroyed ++ [(flavor, data)] } : Memory φ δ).items p =
      some item := hp
    refine (freeItem_run hthere).trans ?_
    rw [setItem_none, Memory.drop, List.append_nil]
    rfl

private theorem destroyItems_ok (destroyData : Bool) {ds : List (Data φ δ)}
    (hbelow : Below A.lists ds ls gone) :
    ∃ n, ∀ fuel, n ≤ fuel → Frees A destroyData ds ls gone fuel := by
  induction hbelow with
  | nil =>
    refine ⟨1, fun fuel hfuel m xs hds _ _ _ _ => ?_⟩
    obtain ⟨fuel, rfl⟩ := Nat.exists_eq_add_of_le' hfuel
    rw [List.map_eq_nil_iff] at hds
    subst hds
    cases destroyData <;> exact congrArg (fun m => some (Returned.ok () m)) drop_nil.symm
  | @item flavor data ds ls gone hrest ih =>
    obtain ⟨n, ih⟩ := ih
    refine ⟨n + 1, fun fuel hfuel m xs hds hlinked hholds hps hls => ?_⟩
    obtain ⟨fuel, rfl⟩ := Nat.exists_eq_add_of_le' (Nat.le_of_add_left_le hfuel)
    obtain ⟨e, xs, rfl, hdata, hds⟩ := List.map_eq_cons_iff.mp hds
    obtain ⟨hitem, hlinked⟩ := hlinked
    rw [hdata] at hitem
    rw [firstOf, destroyItems, readItem_bind hitem]
    dsimp only
    rw [Call.bind_of_ok (itemDestroy_run destroyData hitem),
      (ih fuel (by omega)).rest [e.1] [] hds hlinked hholds hps hls, ← passed_append]
    rfl
  | null hrest ih =>
    obtain ⟨n, ih⟩ := ih
    refine ⟨n + 2, fun fuel hfuel m xs hds hlinked hholds hps hls => ?_⟩
    obtain ⟨fuel, rfl⟩ : ∃ k, fuel = k + 2 := ⟨fuel - 2, by omega⟩
    obtain ⟨e, xs, rfl, hdata, hds⟩ := List.map_eq_cons_iff.mp hds
    obtain ⟨hitem, hlinked⟩ := hlinked
    rw [hdata] at hitem
    have hdestroy : cilListDestroy destroyData (fuel + 1) none m = some (.ok () m) := rfl
    rw [firstOf, destroyItems, readItem_bind hitem]
    dsimp only
    rw [Call.bind_of_ok ((Call.bind_of_ok hdestroy).trans (freeItem_run hitem)), setItem_none,
      (ih (fuel + 1) (by omega)).rest [e.1] [] hds hlinked hholds hps hls]
    rfl
  | @list l flavor zs ds inner ls gone gone' hlist hinner hrest ihInner ihRest =>
    obtain ⟨n, ihInner⟩ := ihInner
    obtain ⟨n', ihRest⟩ := ihRest
    refine ⟨n + n' + 2, fun fuel hfuel m xs hds hlinked hholds hps hls => ?_⟩
    obtain ⟨fuel, rfl⟩ : ∃ k, fuel = k + 2 := ⟨fuel - 2, by omega⟩
    obtain ⟨e, xs, rfl, hdata, hds⟩ := List.map_eq_cons_iff.mp hds
    obtain ⟨hitem, hlinked⟩ := hlinked
    rw [hdata] at hitem
    rw [List.flatMap_append] at hps
    have hperm := List.perm_append_comm_assoc ((e :: xs).map Prod.fst)
      ((l :: inner).flatMap A.addresses) (ls.flatMap A.addresses)
    have hpsRest : ((l :: inner).flatMap A.addresses ++ [e.1] ++
        (xs.map Prod.fst ++ ls.flatMap A.addresses)).Nodup := by
      rw [List.append_assoc]
      exact hperm.nodup_iff.mp hps
    obtain ⟨hpsInner, -, -⟩ := List.nodup_append.mp (List.nodup_append.mp hps).2.1
    obtain ⟨hlsInner, -, -⟩ := List.nodup_append.mp hls
    have hdestroy := cilListDestroy_run (ihInner fuel (by omega)) hlist
      (hholds.mono fun k hk => List.mem_append_left ls hk) hpsInner hlsInner
    have hnot : e.1 ∉ (l :: inner).flatMap A.addresses := fun hin =>
      (List.nodup_append.mp hps).2.2 e.1 List.mem_cons_self e.1 (List.mem_append_left _ hin) rfl
    have hthere : (m.drop ((l :: inner).flatMap A.addresses) (l :: inner)
        (passed destroyData gone)).items e.1 = some ⟨.sublist (some l), firstOf xs none⟩ :=
      (if_neg hnot).trans hitem
    rw [firstOf, destroyItems, readItem_bind hitem]
    dsimp only
    rw [Call.bind_of_ok ((Call.bind_of_ok hdestroy).trans (freeItem_run hthere)), setItem_none,
      drop_drop, List.append_nil, List.append_nil,
      (ihRest (fuel + 1) (by omega)).rest _ _ hds hlinked
        (hholds.mono fun k hk => List.mem_append_right _ hk) hpsRest hls, ← passed_append]
    refine congrArg (fun m => some (Returned.ok () m)) (drop_congr (fun p => ?_) fun k => Iff.rfl)
    rw [List.flatMap_append, hperm.mem_iff, List.append_assoc]
    rfl

private theorem Refines.nodup_addresses (h : Refines m A) (hls : ls.Nodup) :
    (ls.flatMap A.addresses).Nodup := by
  rw [List.nodup_flatMap]
  refine ⟨fun l _ => ?_, hls.imp fun {l l'} hne p hp hp' => ?_⟩
  · cases hl : A.lists l with
    | none =>
      rw [Lists.addresses, hl]
      exact List.nodup_nil
    | some x =>
      rw [addresses_of hl]
      exact h.once l x.1 x.2 hl
  · obtain ⟨flavor, xs, hl, hp⟩ := mem_addresses hp
    obtain ⟨flavor', xs', hl', hp'⟩ := mem_addresses hp'
    exact h.apart l l' flavor flavor' xs xs' hl hl' hne p hp hp'

/-- Lists are freed with their items. -/
theorem Refines.without (h : Refines m A) (ls : List Nat) (gone : List (φ × δ)) :
    Refines (m.drop (ls.flatMap A.addresses) ls gone) (A.without ls gone) := by
  have hkept : ∀ l flavor xs, (A.without ls gone).lists l = some (flavor, xs) →
      l ∉ ls ∧ A.lists l = some (flavor, xs) := by
    intro l flavor xs hl
    have hif : (if l ∈ ls then none else A.lists l) = some (flavor, xs) := hl
    split at hif
    · cases hif
    · rename_i hin
      exact ⟨hin, hif⟩
  constructor
  · intro l
    by_cases hin : l ∈ ls
    · simp [Memory.drop, Lists.without, hin]
    · simp [Memory.drop, Lists.without, hin, h.headers]
  · intro l flavor xs hl
    obtain ⟨hin, hl⟩ := hkept l flavor xs hl
    refine (h.linked l flavor xs hl).without fun p hp hp' => ?_
    obtain ⟨l', hl', hp'⟩ := List.mem_flatMap.mp hp'
    obtain ⟨flavor', xs', hxs', hp'⟩ := mem_addresses hp'
    have hne : l ≠ l' := by
      rintro rfl
      exact hin hl'
    exact h.apart l l' _ _ _ _ hl hxs' hne p hp hp'
  · intro l flavor xs hl
    exact h.once l flavor xs (hkept l flavor xs hl).2
  · intro l l' flavor flavor' xs xs' hl hl' hne p hp
    exact h.apart l l' _ _ _ _ (hkept l flavor xs hl).2 (hkept l' flavor' xs' hl').2 hne p hp
  · intro p hp
    by_cases hin : p ∈ ls.flatMap A.addresses
    · exact (hp (if_pos hin)).elim
    · obtain ⟨l, flavor, xs, hl, hmem⟩ := h.owned p fun hnone => hp ((if_neg hin).trans hnone)
      refine ⟨l, flavor, xs, ?_, hmem⟩
      have hl' : l ∉ ls := fun hl' =>
        hin (List.mem_flatMap.mpr ⟨l, hl', (addresses_of hl).symm ▸ hmem⟩)
      exact (if_neg hl').trans hl
  · intro p hp
    simp [Memory.drop, h.itemsBelow p hp]
  · intro l hl
    simp [Lists.without, h.listsBelow l hl]
  · exact h.fresh
  · exact congrArg (· ++ gone) h.destroyed

/-- `cil_list_destroy` frees a list and what hangs below it. -/
private theorem cilListDestroy_ok (destroyData : Bool) (hl : A.lists l = some (flavor, xs))
    (hbelow : Below A.lists (xs.map Prod.snd) ls gone) (honce : (l :: ls).Nodup) :
    ∃ n, ∀ fuel, n ≤ fuel → ∀ m : Memory φ δ, Refines m A →
      ∃ m', cilListDestroy destroyData fuel (some l) m = some (.ok () m') ∧
        Refines m' (A.without (l :: ls) (passed destroyData gone)) := by
  obtain ⟨n, hfrees⟩ := destroyItems_ok destroyData hbelow
  refine ⟨n + 1, fun fuel hfuel m h => ?_⟩
  obtain ⟨fuel, rfl⟩ := Nat.exists_eq_add_of_le' (Nat.le_of_add_left_le hfuel)
  have hholds : Holds m A (l :: ls) := fun k _ flavor' zs hzs =>
    ⟨h.header hzs, h.linked k flavor' zs hzs⟩
  exact ⟨_, cilListDestroy_run (hfrees fuel (by omega)) hl hholds (h.nodup_addresses honce) honce,
    h.without _ _⟩

end Destruction

section Client

variable {A B : Lists φ δ}

/-- `cil_list_init` makes an empty list. -/
theorem Refines.init {m : Memory φ δ} (h : Refines m A) (flavor : φ) :
    Refines (m.setList m.fresh (some ⟨none, none, flavor⟩)).taken
      (A.put A.fresh flavor [] (A.fresh + 1)) := by
  have hnone : A.lists A.fresh = none := h.listsBelow A.fresh (Nat.le_refl _)
  have haddresses : A.addresses A.fresh = [] := by rw [Lists.addresses, hnone]
  rw [h.fresh]
  refine h.put rfl ?_ List.nodup_nil ?_ ?_ ?_ (Nat.lt_succ_self _) (Nat.le_succ _) ?_ rfl
  · trivial
  · intro p hp
    cases hp
  · intro p _ _
    rfl
  · intro p hp
    rw [haddresses] at hp
    cases hp
  · exact congrArg (· + 1) h.fresh

/-- Reading along the links gives the data of the entries. -/
private theorem dataFrom_chained {m : Memory φ δ} {xs : List (Entry φ δ)}
    (h : Chained m.items xs none) (fuel : Nat) (hfuel : xs.length < fuel) :
    m.dataFrom fuel (firstOf xs none) = xs.map Prod.snd := by
  induction xs generalizing fuel with
  | nil =>
    cases fuel with
    | zero => cases hfuel
    | succ fuel => rfl
  | cons e xs ih =>
    cases fuel with
    | zero => cases hfuel
    | succ fuel =>
      obtain ⟨hitem, hrest⟩ := h
      rw [firstOf, Memory.dataFrom, hitem]
      dsimp only
      rw [ih hrest fuel (by simpa using hfuel), List.map_cons]

variable [DecidableEq φ] [DecidableEq δ]

/-- A call does to the memory what it does to the lists. -/
private theorem step_refines {op : Op φ δ} (hstep : Step A op B) :
    ∃ n, ∀ fuel, n ≤ fuel → ∀ m : Memory φ δ, Refines m A →
      ∃ m', op.run fuel m = some (.ok () m') ∧ Refines m' B := by
  cases hstep with
  | init flavor => exact ⟨0, fun fuel _ m h => ⟨_, rfl, h.init flavor⟩⟩
  | append data hl => exact ⟨0, fun fuel _ m h => cilListAppend_ok h hl data⟩
  | prepend data hl => exact ⟨0, fun fuel _ m h => cilListPrepend_ok h hl data⟩
  | insertFirst data hl =>
    refine ⟨0, fun fuel _ m h => ?_⟩
    obtain ⟨m', hrun, hrefines⟩ := cilListPrepend_ok h hl data
    have hheader := hrefines.header (Function.update_self ..)
    exact ⟨m', Call.bind_of_ok ((Call.bind_of_ok hrun).trans (readList_bind hheader _)), hrefines⟩
  | insert data hl hc =>
    refine ⟨0, fun fuel _ m h => ?_⟩
    obtain ⟨r, m', hrun, hrefines⟩ := cilListInsert_ok h hl hc data
    exact ⟨m', Call.bind_of_ok hrun, hrefines⟩
  | @remove l flavor xs data hl =>
    exact ⟨xs.length + 1, fun fuel hfuel m h => cilListRemove_ok h hl data fuel hfuel⟩
  | destroy destroyData hl hbelow honce => exact cilListDestroy_ok destroyData hl hbelow honce

private theorem steps_refine {ops : List (Op φ δ)} (hsteps : Steps A ops B) :
    ∃ n, ∀ fuel, n ≤ fuel → ∀ m : Memory φ δ, Refines m A →
      ∃ m', Call.forEach (Op.run fuel) ops m = some (.ok () m') ∧ Refines m' B := by
  induction hsteps with
  | nil A => exact ⟨0, fun fuel _ m h => ⟨m, rfl, h⟩⟩
  | cons hstep hrest ih =>
    obtain ⟨n, hstep⟩ := step_refines hstep
    obtain ⟨n', ih⟩ := ih
    refine ⟨n + n', fun fuel hfuel m h => ?_⟩
    obtain ⟨m₁, hrun₁, hrefines₁⟩ := hstep fuel (by omega) m h
    obtain ⟨m₂, hrun₂, hrefines₂⟩ := ih fuel (by omega) m₁ hrefines₁
    exact ⟨m₂, (Call.bind_of_ok hrun₁).trans hrun₂, hrefines₂⟩

/-- After any calls of a client the memory holds the lists that it works with, and reading a list
from its head gives the data. -/
theorem calls_refine {ops : List (Op φ δ)} (hsteps : Steps Lists.init ops A) :
    ∃ n, ∀ fuel, n ≤ fuel → ∃ m, Call.forEach (Op.run fuel) ops Memory.init = some (.ok () m) ∧
      Refines m A ∧ ∀ l flavor xs, A.lists l = some (flavor, xs) → ∃ h, m.lists l = some h ∧
        h.flavor = flavor ∧ ∀ k, xs.length < k → m.dataFrom k h.head = xs.map Prod.snd := by
  obtain ⟨n, hrun⟩ := steps_refine hsteps
  refine ⟨n, fun fuel hfuel => ?_⟩
  obtain ⟨m, hcalls, hrefines⟩ := hrun fuel hfuel Memory.init refines_init
  refine ⟨m, hcalls, hrefines, fun l flavor xs hl => ?_⟩
  refine ⟨_, hrefines.header hl, rfl, fun k hk => ?_⟩
  exact dataFrom_chained (hrefines.linked l flavor xs hl) k hk

end Client

section Sample

/-- A list that holds another one, from which data is taken out before both are destroyed, and a
third list. -/
def sampleCalls : List (Op Flavor Nat) :=
  [.init .type, .init .type, .append 0 (.sublist (some 1)), .append 1 (.item .type 5),
    .prepend 1 (.item .type 4), .insert 1 (some 4) (.item .type 6), .remove 1 (.item .type 5),
    .destroy true 0, .init .role, .insert 6 none (.item .role 8), .append 6 (.item .role 9)]

private theorem sampleCalls_steps : ∃ A : Lists Flavor Nat, Steps Lists.init sampleCalls A ∧
    A.destroyed = [(.type, 4), (.type, 6)] ∧ A.lists 0 = none ∧ A.lists 1 = none ∧
    A.lists 6 = some (.role, [(7, .item .role 8), (8, .item .role 9)]) := by
  apply Exists.intro
  apply And.intro
  · apply Steps.cons (.init Flavor.type)
    apply Steps.cons (.init Flavor.type)
    apply Steps.cons (.append _ rfl)
    apply Steps.cons (.append _ rfl)
    apply Steps.cons (.prepend _ rfl)
    apply Steps.cons (.insert _ rfl (by decide))
    apply Steps.cons (.remove _ rfl)
    apply Steps.cons (.destroy true rfl (.list rfl (.item (.item .nil)) .nil) (by decide))
    apply Steps.cons (.init Flavor.role)
    apply Steps.cons (.insertFirst _ rfl)
    apply Steps.cons (.append _ rfl)
    exact .nil _
  · exact ⟨rfl, rfl, rfl, rfl⟩

/-- The calls leave the third list, with its data in order. -/
theorem sampleCalls_refine : ∃ n, ∀ fuel, n ≤ fuel → ∃ m : Memory Flavor Nat,
    Call.forEach (Op.run fuel) sampleCalls Memory.init = some (.ok () m) ∧
      m.destroyed = [(.type, 4), (.type, 6)] ∧ m.lists 0 = none ∧ m.lists 1 = none ∧
      ∃ h, m.lists 6 = some h ∧ h.flavor = .role ∧
        ∀ k, 2 < k → m.dataFrom k h.head = [.item .role 8, .item .role 9] := by
  obtain ⟨A, hsteps, hdestroyed, hzero, hone, hsix⟩ := sampleCalls_steps
  obtain ⟨n, hrun⟩ := calls_refine hsteps
  refine ⟨n, fun fuel hfuel => ?_⟩
  obtain ⟨m, hcalls, hrefines, hlists⟩ := hrun fuel hfuel
  obtain ⟨h, hheader, hflavor, hdata⟩ := hlists 6 _ _ hsix
  refine ⟨m, hcalls, hrefines.destroyed.trans hdestroyed, ?_, ?_, h, hheader, hflavor, hdata⟩
  · rw [hrefines.headers, hzero]
    rfl
  · rw [hrefines.headers, hone]
    rfl

end Sample

end Cil.CilList
