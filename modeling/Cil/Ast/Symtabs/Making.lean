/- Cil/Ast/Symtabs/Making
   digest: Declarations are built and copied, or leave nothing. -/

import Cil.Copy.DeclarationKinds
import Cil.Ast.Symtabs.Undoing

set_option autoImplicit false
set_option relaxedAutoImplicit false

namespace Cil.Ast.Symtabs

open Copy (Decl Namespace Param)

section GenNode

variable {s u : State} {pend : List Nat} {p : Nat} {flavor : Flavor} {key : String}
  {params : List Param} {rc : Rc}

/-- A new node and a new datum, with nothing else. -/
private theorem begun_of_update (hs : Shape pend s) (hd : Data s) (stmt : Stmt) (d : Datum)
    (htables : u.tables = s.tables) (hdata : u.data = Function.update s.data s.nextDatum d)
    (hsym : d.symtab = none) (hgrown : u.nextDatum = s.nextDatum + 1) (hfreed : u.freed = s.freed)
    (hnodes : u.nodes = Function.update s.nodes s.next ⟨stmt, p, []⟩)
    (hnext : u.next = s.next + 1) (hdead : u.dead = s.dead) : Begun s u where
  data id hid := by rw [hdata, Function.update_of_ne (Nat.ne_of_lt hid)]
  own := by
    left
    rw [hdata, Function.update_self]
    exact ⟨hsym, htables⟩
  gone id hid := by
    unfold State.nodesOf
    rw [hdata, Function.update_of_ne (Nat.ne_of_gt hid)]
    exact (Undone.refl hs hd).gone id (Nat.le_of_lt hid)
  grown := by omega
  freed id := by
    rw [hfreed, if_neg]
    omega
  next := by omega
  nodes n hn := by
    rw [hnodes, Function.update_of_ne (Nat.ne_of_lt hn), hdead]
    exact ⟨rfl, rfl⟩
  dead n hn hlive := by
    have hlt := hlive.1
    omega
  fresh n hn := by
    rw [hdead]
    exact hs.fresh n (by omega)

private theorem begun_initDecl (hs : Shape pend s) (hd : Data s) :
    Begun s (initDecl s p flavor params) :=
  begun_of_update hs hd _ _ rfl rfl rfl rfl rfl rfl rfl rfl

/-- The name is taken: the node is entered in the new datum all the same. -/
private theorem begun_exists (hs : Shape pend s) (hd : Data s) (p : Nat) (flavor : Flavor)
    (params : List Param) :
    Begun s ((s.fresh p flavor params).appendNode s.nextDatum s.next) := by
  refine begun_of_update hs hd (.decl flavor s.nextDatum) ⟨flavor, params, "", none, some [s.next]⟩
    rfl ?_ rfl rfl rfl rfl rfl rfl
  simp [State.appendNode, State.setDatum, State.fresh, State.newNode, State.alloc]

/-- The name is free: the new datum has the entry. -/
private theorem begun_entered (hs : Shape pend s) (hd : Data s) (p : Nat) (flavor : Flavor)
    (params : List Param) {ns : Namespace} {i : SymIndex} (hfree : s.tables ns i key = none) :
    Begun s ((s.fresh p flavor params).symtabInsert ns i key s.nextDatum s.next).2 := by
  have hins : ((s.fresh p flavor params).symtabInsert ns i key s.nextDatum s.next).2 =
      ((((s.fresh p flavor params).setEntry ns i key (some s.nextDatum)).setDatum s.nextDatum
        fun d => { d with name := key, symtab := some (ns, i) }).appendNode
          s.nextDatum s.next) := by
    unfold State.symtabInsert
    have hnone : (s.fresh p flavor params).tables ns i key = none := hfree
    rw [hnone]
  have hbegun := begun_exists hs hd p flavor params
  have hdata : ∀ id, id ≠ s.nextDatum →
      ((s.fresh p flavor params).symtabInsert ns i key s.nextDatum s.next).2.data id =
        ((s.fresh p flavor params).appendNode s.nextDatum s.next).data id := by
    intro id hid
    rw [hins]
    simp [State.appendNode, State.setDatum, State.setEntry, hid]
  have hself : ((s.fresh p flavor params).symtabInsert ns i key s.nextDatum s.next).2.data
      s.nextDatum = ⟨flavor, params, key, some (ns, i), some [s.next]⟩ := by
    rw [hins]
    simp [State.appendNode, State.setDatum, State.setEntry, State.fresh, State.newNode, State.alloc]
  refine ⟨?_, Or.inr ⟨ns, i, ?_, ?_, ?_⟩, ?_, ?_, ?_, ?_, ?_, ?_, ?_⟩
  · intro id hid
    rw [hdata id (Nat.ne_of_lt hid)]
    exact hbegun.data id hid
  · rw [hself]
  · rw [hself]
    exact hfree
  · rw [hself, hins]
    rfl
  · intro id hid
    unfold State.nodesOf
    rw [hdata id (Nat.ne_of_gt hid)]
    exact hbegun.gone id hid
  · rw [hins]
    exact hbegun.grown
  · rw [hins]
    exact hbegun.freed
  · rw [hins]
    exact hbegun.next
  · rw [hins]
    exact hbegun.nodes
  · rw [hins]
    exact hbegun.dead
  · rw [hins]
    exact hbegun.fresh

/-- A macro's parameters are not changed by a new declaration. -/
private theorem macroParams_of_begun (hd : Data s) (h : Begun s u) (hp : s.Live p) :
    u.macroParams p = s.macroParams p := by
  unfold State.macroParams
  rw [(h.nodes p hp.1).1]
  cases hstmt : (s.nodes p).stmt with
  | decl flavor' id =>
    have hlt : id < s.nextDatum := by
      by_contra hge
      have hin := (hd.registered id p).mpr ⟨hp, flavor', hstmt⟩
      rw [hd.bounded id (Nat.not_lt.mp hge)] at hin
      cases hin
    cases flavor' <;> simp only [h.data id hlt]
  | _ => rfl

/-- How `cil_gen_node` ends: the declaration is begun, and made if it can be. -/
theorem genNode_cases (hs : Shape pend s) (hd : Data s) (hp : s.Live p)
    (h : genNode (initDecl s p flavor params) p s.next s.nextDatum flavor key = (rc, u)) :
    Begun s u ∧ (rc = .ok ↔ CanDeclare s p ⟨flavor, key, params⟩) ∧
      (rc = .ok → Declares s u p flavor s.nextDatum ∧
        ∀ ns i key', key' ≠ key → u.tables ns i key' = s.tables ns i key') := by
  have hsame : ∀ m, s.Live m → ((initDecl s p flavor params).nodes m).stmt = (s.nodes m).stmt ∧
      ((initDecl s p flavor params).nodes m).parent = (s.nodes m).parent := by
    intro m hm
    have hne : m ≠ s.next := Nat.ne_of_lt hm.1
    simp [initDecl, State.newNode, State.alloc, hne]
  have hget := getSymtab_congr hs.toRooted hsame hp (flavorToSymtabIndex flavor)
  unfold genNode at h
  rw [hget, initDecl_setStmt] at h
  unfold CanDeclare
  split_ifs at h with hname
  · obtain ⟨rfl, rfl⟩ := Prod.mk.inj h
    simp [begun_initDecl hs hd, hname]
  · split at h
    · rename_i hns
      obtain ⟨rfl, rfl⟩ := Prod.mk.inj h
      simp [begun_initDecl hs hd, hns]
    · rename_i ns hns
      cases hfree : s.tables ns (flavorToSymtabIndex flavor) key with
      | none =>
        have hbegun := begun_entered hs hd p flavor params hfree
        have hdecl := declares_fresh hd params hns hfree
        have hins : (s.fresh p flavor params).symtabInsert ns (flavorToSymtabIndex flavor) key
            s.nextDatum s.next = (.ok, ((s.fresh p flavor params).symtabInsert ns
              (flavorToSymtabIndex flavor) key s.nextDatum s.next).2) := by
          unfold State.symtabInsert
          have hnone :
              (s.fresh p flavor params).tables ns (flavorToSymtabIndex flavor) key = none :=
            hfree
          rw [hnone]
        have htables : ∀ ns' i key', key' ≠ key →
            ((s.fresh p flavor params).symtabInsert ns (flavorToSymtabIndex flavor) key
              s.nextDatum s.next).2.tables ns' i key' = s.tables ns' i key' := by
          intro ns' i key' hne
          unfold State.symtabInsert
          have hnone :
              (s.fresh p flavor params).tables ns (flavorToSymtabIndex flavor) key = none :=
            hfree
          rw [hnone]
          show ((s.fresh p flavor params).setEntry ns (flavorToSymtabIndex flavor) key
            (some s.nextDatum)).tables ns' i key' = s.tables ns' i key'
          rw [setEntry_tables_iff, if_neg fun hall => hne hall.2.2]
          rfl
        rw [hins] at h
        simp only [macroParams_of_begun hd hbegun hp] at h
        split_ifs at h with hshadow
        · obtain ⟨rfl, rfl⟩ := Prod.mk.inj h
          simp [hbegun, hns, hshadow]
        · obtain ⟨rfl, rfl⟩ := Prod.mk.inj h
          refine ⟨hbegun, ⟨fun _ => ⟨by simpa using hname, ns, hns, hfree, hshadow⟩, fun _ => rfl⟩,
            ?_⟩
          exact fun _ => ⟨hdecl, htables⟩
      | some id =>
        have hins : (s.fresh p flavor params).symtabInsert ns (flavorToSymtabIndex flavor) key
            s.nextDatum s.next = (.eexist, (s.fresh p flavor params).appendNode s.nextDatum
              s.next) := by
          unfold State.symtabInsert
          have hsome : (s.fresh p flavor params).tables ns (flavorToSymtabIndex flavor) key =
              some id := hfree
          rw [hsome]
        rw [hins] at h
        obtain ⟨rfl, rfl⟩ := Prod.mk.inj h
        simp [begun_exists hs hd, hns, hfree]

end GenNode

section GenDecl

variable {s u : State} {pend : List Nat} {p n : Nat} {rc : Rc}

theorem Whole.attach (hw : Whole s) (hn : s.Live n) : Whole (s.attach p n) := by
  intro q hq c hc
  rw [attach_live] at hq ⊢
  rw [attach_children] at hc
  split_ifs at hc
  · rcases List.mem_append.mp hc with hc | hc
    · exact hw q hq c hc
    · obtain rfl := List.mem_singleton.mp hc
      exact hn
  · exact hw q hq c hc

/-- A class whose permissions are being made. -/
structure ClassOpen (s : State) (n : Nat) (id : Nat) : Prop where
  shape : Shape [n] s
  whole : Whole s
  data : Data s
  live : s.Live n
  isClass : ∃ d flavor, permFlavor d = some flavor ∧ (s.nodes n).stmt = .decl d id

private theorem getSymtab_perms {d flavor : Flavor} {id : Nat} (hd : permFlavor d = some flavor)
    (hstmt : (s.nodes n).stmt = .decl d id) :
    s.getSymtab n (flavorToSymtabIndex flavor) = some (.ofDatum id) ∧ s.macroParams n = [] := by
  unfold State.getSymtab State.macroParams
  rw [hstmt]
  cases d <;> cases hd <;> exact ⟨rfl, rfl⟩

/-- One more permission. -/
theorem ClassOpen.declare {id : Nat} {d flavor : Flavor} (h : ClassOpen s n id)
    (hdecl : Declares s u n flavor s.nextDatum) (hflavor : permFlavor d = some flavor)
    (hstmt : (s.nodes n).stmt = .decl d id) : ClassOpen (u.attach n s.next) n id := by
  have hne : n ≠ s.next := Nat.ne_of_lt h.live.1
  have hlive := hdecl.toAdds.live_iff h.shape (by simp)
  have hshape := hdecl.toAdds.shape h.shape h.live (by simp) (by simp)
  have hwhole := hdecl.toAdds.whole h.shape h.whole (by simp)
  have hdata := h.data.declares h.shape h.live hdecl
  have hnew : u.Live s.next := (hlive _).mpr (Or.inr rfl)
  have hparent : (u.nodes s.next).parent = n := by rw [hdecl.toAdds.node_new]
  have hnode : ((u.attach n s.next).nodes n).stmt = .decl d id := by
    rw [attach_stmt, hdecl.toAdds.node_old hne, hstmt]
  refine ⟨?_, hwhole.attach hnew, hdata.attach hshape.toRooted, ?_, d, flavor, hflavor, hnode⟩
  · refine hshape.attach hnew ?_ ?_ hparent
    · have hpos := h.shape.first
      omega
    · simpa using hne.symm
  · obtain ⟨hlt, hdead, _⟩ := (hlive n).mpr (Or.inl h.live)
    refine ⟨hlt, hdead, ?_⟩
    rw [hnode]
    simp

/-- Permissions of different names are all made, if none of them is there. -/
private theorem genPermNodes_of_declared {id : Nat} {d flavor : Flavor}
    {perms : List (Option String)} (h : ClassOpen s n id) (hflavor : permFlavor d = some flavor)
    (hstmt : (s.nodes n).stmt = .decl d id) (hperms : PermsDeclared perms)
    (hfree : ∀ key, some key ∈ perms →
      s.tables (.ofDatum id) (flavorToSymtabIndex flavor) key = none) :
    ∃ u, genPermNodes s n flavor perms = (.ok, u) ∧ ClassOpen u n id ∧
      (u.nodes n).parent = (s.nodes n).parent := by
  induction perms generalizing s with
  | nil => exact ⟨s, rfl, h, rfl⟩
  | cons perm perms ih =>
    obtain ⟨hnames, hnodup⟩ := hperms
    obtain ⟨key, rfl, hname⟩ := hnames perm (List.mem_cons_self ..)
    obtain ⟨hnotin, hnodup'⟩ := List.nodup_cons.mp hnodup
    obtain ⟨hget, hparams⟩ := getSymtab_perms hflavor hstmt
    have hcan : CanDeclare s n ⟨flavor, key, []⟩ := by
      refine ⟨hname, _, hget, hfree key (List.mem_cons_self ..), ?_⟩
      rw [hparams]
      simp
    obtain ⟨rc, u, hgen⟩ : ∃ rc u,
        genNode (initDecl s n flavor []) n s.next s.nextDatum flavor key = (rc, u) := ⟨_, _, rfl⟩
    obtain ⟨_, hok, hmade⟩ := genNode_cases h.shape h.data h.live hgen
    obtain rfl := hok.mpr hcan
    obtain ⟨hdecl, htables⟩ := hmade rfl
    have hopen := h.declare hdecl hflavor hstmt
    have hne : n ≠ s.next := Nat.ne_of_lt h.live.1
    have hnode : ((u.attach n s.next).nodes n).stmt = .decl d id ∧
        ((u.attach n s.next).nodes n).parent = (s.nodes n).parent := by
      rw [attach_stmt, attach_parent, hdecl.toAdds.node_old hne]
      exact ⟨hstmt, rfl⟩
    obtain ⟨v, hv, hvopen, hvparent⟩ := ih hopen hnode.1
      ⟨fun q hq => hnames q (List.mem_cons_of_mem _ hq), hnodup'⟩ (by
        intro key' hkey'
        show u.tables (.ofDatum id) (flavorToSymtabIndex flavor) key' = none
        rw [htables _ _ key' (by rintro rfl; exact hnotin hkey')]
        exact hfree key' (List.mem_cons_of_mem _ hkey'))
    refine ⟨v, ?_, hvopen, by rw [hvparent, hnode.2]⟩
    rw [genPermNodes, hgen]
    exact hv

/-- When the first permission is refused, nothing is left of it. -/
private theorem genPermNodes_of_refused (flavor : Flavor) {perms : List (Option String)}
    (hs : Shape pend s) (hd : Data s) (hn : s.Live n) (hrefused : FirstRefused perms) :
    ∃ rc u, genPermNodes s n flavor perms = (rc, u) ∧ rc ≠ .ok ∧ Undone s u := by
  cases perms with
  | nil => exact hrefused.elim
  | cons perm perms =>
    cases perm with
    | none => exact ⟨.err, s, rfl, by simp, Undone.refl hs hd⟩
    | some key =>
      obtain ⟨rc, u, hgen⟩ : ∃ rc u,
          genNode (initDecl s n flavor []) n s.next s.nextDatum flavor key = (rc, u) := ⟨_, _, rfl⟩
      obtain ⟨hbegun, hok, _⟩ := genNode_cases hs hd hn hgen
      have hbad : rc ≠ .ok := by
        intro h
        have hname := (hok.mp h).1
        rw [show verifyName key = false from hrefused] at hname
        cases hname
      refine ⟨rc, (u.destroyData s.nextDatum).clearNode s.next, ?_, hbad,
        hbegun.undone_genPerm hs hd⟩
      rw [genPermNodes, hgen]
      cases rc with
      | ok => exact absurd rfl hbad
      | _ => rfl

/-- What has been undone after a declaration was begun leaves it begun. -/
private theorem Begun.of_undone {v : State} (h : Begun s u) (hundone : Undone u v) (hd : Data u) :
    Begun s v where
  data id hid := by
    rw [hundone.data id (Nat.lt_trans hid h.grown)]
    exact h.data id hid
  own := by
    rw [hundone.data _ h.grown, hundone.tables]
    exact h.own
  gone id hid := by
    rw [hundone.nodesOf hd, hundone.symtab hd]
    exact h.gone id hid
  grown := Nat.lt_of_lt_of_le h.grown hundone.grown
  freed id := by
    have hgrown := h.grown
    rw [hundone.freed, h.freed]
    by_cases hid : u.nextDatum ≤ id ∧ id < v.nextDatum
    · rw [if_pos hid, if_pos (by omega)]
    · rw [if_neg hid]
      have hle := hundone.grown
      have hiff :
          (s.nextDatum < id ∧ id < u.nextDatum) ↔ (s.nextDatum < id ∧ id < v.nextDatum) := by
        omega
      simp only [hiff]
  next := Nat.lt_of_lt_of_le h.next hundone.next
  nodes n hn := by
    obtain ⟨hnode, hdead⟩ := hundone.nodes n (Nat.lt_trans hn h.next)
    obtain ⟨hnode', hdead'⟩ := h.nodes n hn
    exact ⟨hnode.trans hnode', hdead.trans hdead'⟩
  dead n hn := by
    rw [hundone.live_iff]
    exact h.dead n hn
  fresh := hundone.fresh

/-- A declaration, or the class with its permissions, is made or leaves nothing. -/
theorem genDecl_cases {d : Decl} {perms : List (Option String)} (hi : Inv s) (hp : s.Live p)
    (hclean : Clean s (.gen p d perms)) (h : genDecl s p d perms = (rc, u)) :
    rc = .ok ∧ Inv u ∨ rc ≠ .ok ∧ Undone s u := by
  unfold genDecl at h
  obtain ⟨rc₁, s₁, hgen⟩ : ∃ rc s₁,
      genNode (initDecl s p d.flavor d.params) p s.next s.nextDatum d.flavor d.name = (rc, s₁) :=
    ⟨_, _, rfl⟩
  obtain ⟨hbegun, hok, hmade⟩ := genNode_cases hi.shape hi.data hp hgen
  rw [hgen] at h
  by_cases hrc : rc₁ = .ok
  · subst hrc
    obtain ⟨hdecl, htables⟩ := hmade rfl
    have hshape := hdecl.toAdds.shape hi.shape hp (by simp) (by simp)
    have hwhole := hdecl.toAdds.whole hi.shape hi.whole (by simp)
    have hdata := hi.data.declares hi.shape hp hdecl
    have hlive : s₁.Live s.next := (hdecl.toAdds.live_iff hi.shape (by simp) _).mpr (Or.inr rfl)
    have hnode := hdecl.toAdds.node_new
    have hnext0 : s.next ≠ 0 := Nat.ne_of_gt hi.shape.first
    simp only at h
    cases hflavor : permFlavor d.flavor with
    | none =>
      unfold genPerms at h
      rw [hflavor] at h
      obtain ⟨rfl, rfl⟩ := Prod.mk.inj h
      left
      refine ⟨rfl, hshape.attach hlive hnext0 (by simp) (by rw [hnode]), hwhole.attach hlive,
        hdata.attach hshape.toRooted⟩
    | some flavor =>
      unfold genPerms at h
      rw [hflavor] at h
      dsimp only at h
      have hopen : ClassOpen s₁ s.next s.nextDatum :=
        ⟨hshape, hwhole, hdata, hlive, d.flavor, flavor, hflavor, by rw [hnode]⟩
      have hperms := hclean (by rw [hflavor]; simp) (hok.mp rfl)
      rcases hperms with hdeclared | hrefused
      · have hfree : ∀ key, some key ∈ perms →
            s₁.tables (.ofDatum s.nextDatum) (flavorToSymtabIndex flavor) key = none := by
          intro key _
          refine (no_tables hshape hdata ?_).2 _ _
          intro m a hm hm0 hunder ha howns
          -- the only node of the class has nothing below it
          obtain ⟨flavor', hstmt⟩ := howns
          have ha' : a = s.next := by
            rcases (hdecl.toAdds.live_iff hi.shape (by simp) a).mp ha with hold | hnew
            · have hin := (hi.data.registered s.nextDatum a).mpr
                ⟨hold, flavor', by rw [← hdecl.toAdds.node_old (Nat.ne_of_lt hold.1)]; exact hstmt⟩
              rw [hi.data.bounded _ (Nat.le_refl _)] at hin
              cases hin
            · exact hnew
          subst ha'
          have hmax : ∀ x, s₁.Live x → Under s₁ x s.next → x = s.next := by
            intro x hx hu
            induction hu using Relation.ReflTransGen.head_induction_on with
            | refl => rfl
            | head hstep hrest ih =>
              rename_i x y
              obtain ⟨hx0, hparent⟩ := hstep
              obtain ⟨hlt, hy⟩ := hshape.parent x hx hx0
              rw [hparent] at hlt hy
              have hy' := ih hy
              subst hy'
              have hxlt := hx.1
              rw [hdecl.toAdds.next] at hxlt
              omega
          have hparent := hmax _ (hshape.parent m hm hm0).2 hunder
          have hlt := (hshape.parent m hm hm0).1
          have hmlt := hm.1
          rw [hdecl.toAdds.next] at hmlt
          omega
        obtain ⟨v, hv, hvopen, hvparent⟩ := genPermNodes_of_declared hopen hflavor (by rw [hnode])
          hdeclared hfree
        rw [hv] at h
        obtain ⟨rfl, rfl⟩ := Prod.mk.inj h
        left
        refine ⟨rfl, hvopen.shape.attach hvopen.live hnext0 (by simp) ?_, hvopen.whole.attach
          hvopen.live, hvopen.data.attach hvopen.shape.toRooted⟩
        rw [hvparent, hnode]
      · obtain ⟨rc₂, v, hv, hbad, hundone⟩ := genPermNodes_of_refused flavor hshape hdata
          hlive hrefused
        rw [hv] at h
        have hbegun' := hbegun.of_undone hundone hdata
        right
        cases rc₂ with
        | ok => exact absurd rfl hbad
        | _ =>
          obtain ⟨rfl, rfl⟩ := Prod.mk.inj h
          exact ⟨hbad, hbegun'.undone_gen hi.shape hi.data⟩
  · right
    cases rc₁ with
    | ok => exact absurd rfl hrc
    | _ =>
      obtain ⟨rfl, rfl⟩ := Prod.mk.inj h
      exact ⟨hrc, hbegun.undone_gen hi.shape hi.data⟩

end GenDecl

section CopyNode

variable {s u : State} {p orig dest : Nat} {rc : Rc}

/-- A node without a declaration is built or copied. -/
theorem Inv.genOther {stmt : Stmt} (hi : Inv s) (hp : s.Live p) (hstmt : stmt.isOther = true) :
    Inv (genOther s p stmt) ∧ (genOther s p stmt).Live s.next ∧
      ∀ m, s.Live m → (genOther s p stmt).Live m := by
  have hnone : stmt ≠ .none := by
    rintro rfl
    cases hstmt
  have hroot : stmt ≠ .root := by
    rintro rfl
    cases hstmt
  have hadd : Adds s (s.newNode p stmt) p stmt := ⟨rfl, rfl, rfl⟩
  have hshape := hadd.shape hi.shape hp hnone hroot
  have hlive := hadd.live_iff hi.shape hnone
  have hnew : (s.newNode p stmt).Live s.next := (hlive _).mpr (Or.inr rfl)
  have hdata := hi.data.other hi.shape hadd hstmt rfl rfl rfl rfl
  have hattach := attach_live (s.newNode p stmt) p s.next
  unfold Symtabs.genOther
  refine ⟨⟨?_, ?_, hdata.attach hshape.toRooted⟩, (hattach _).mpr hnew, fun m hm => ?_⟩
  · exact hshape.attach hnew (Nat.ne_of_gt hi.shape.first) (by simp) (by rw [hadd.node_new])
  · exact (hadd.whole hi.shape hi.whole hnone).attach hnew
  · exact (hattach m).mpr ((hlive m).mpr (Or.inl hm))

theorem Begun.datumDestroy (h : Begun s u) : Begun s (u.datumDestroy s.nextDatum) := by
  obtain ⟨hnodes, hnext, hdead, hfreed, hgrown⟩ := datumDestroy_frame u s.nextDatum
  refine ⟨?_, Or.inl ⟨?_, h.datumDestroy_tables⟩, ?_, ?_, ?_, ?_, ?_, ?_, ?_⟩
  · intro id hid
    rw [datumDestroy_data, if_neg (Nat.ne_of_lt hid)]
    exact h.data id hid
  · rw [datumDestroy_data, if_pos rfl]
  · intro id hid
    unfold State.nodesOf
    rw [datumDestroy_data, if_neg (Nat.ne_of_gt hid)]
    exact h.gone id hid
  · rw [hgrown]
    exact h.grown
  · rw [hfreed, hgrown]
    exact h.freed
  · rw [hnext]
    exact h.next
  · rw [hnodes, hdead]
    exact h.nodes
  · intro n hn
    have hdead' := h.dead n hn
    simp only [State.Live, hnodes, hnext, hdead] at hdead' ⊢
    exact hdead'
  · rw [hnext, hdead]
    exact h.fresh

private theorem Begun.setNodes (h : Begun s u) (l : Option (List Nat)) :
    Begun s (u.setDatum s.nextDatum fun d => { d with nodes := l }) := by
  have hother : ∀ id, id ≠ s.nextDatum →
      (u.setDatum s.nextDatum fun d => { d with nodes := l }).data id = u.data id :=
    fun id hid => Function.update_of_ne hid _ _
  have hself : (u.setDatum s.nextDatum fun d => { d with nodes := l }).data s.nextDatum =
      { u.data s.nextDatum with nodes := l } := Function.update_self ..
  refine ⟨?_, ?_, ?_, h.grown, h.freed, h.next, h.nodes, h.dead, h.fresh⟩
  · intro id hid
    rw [hother id (Nat.ne_of_lt hid)]
    exact h.data id hid
  · rw [hself]
    exact h.own
  · intro id hid
    unfold State.nodesOf
    rw [hother id (Nat.ne_of_gt hid)]
    exact h.gone id hid

/-- The undo step of a copy: the last node of the datum goes. -/
private theorem Begun.undone_destroyNode {pend : List Nat} (flavor : Flavor) (h : Begun s u)
    (hs : Shape pend s) (hd : Data s) (hstmt : (u.nodes s.next).stmt = .decl flavor s.nextDatum)
    (hnodes : (u.data s.nextDatum).nodes = some [s.next]) : Undone s (u.destroyNode s.next) := by
  have hbegun := (h.setNodes (some [])).datumDestroy
  have hremove : u.datumRemoveNode s.nextDatum s.next =
      (u.setDatum s.nextDatum fun d => { d with nodes := some [] }).datumDestroy s.nextDatum := by
    unfold State.datumRemoveNode
    rw [hnodes]
    simp
  have hnone : (((u.setDatum s.nextDatum fun d => { d with nodes := some [] }).datumDestroy
      s.nextDatum).data s.nextDatum).nodes = none := by
    rw [datumDestroy_data, if_pos rfl]
  have hdestroy : u.destroyNode s.next =
      (((u.setDatum s.nextDatum fun d => { d with nodes := some [] }).datumDestroy
        s.nextDatum).destroyData s.nextDatum).freeNode s.next := by
    unfold State.destroyNode
    rw [hstmt]
    simp only [hremove, hnone, Option.isNone_none, if_true]
  rw [hdestroy]
  have hframe := datumDestroy_frame
    ((u.setDatum s.nextDatum fun d => { d with nodes := some [] }).datumDestroy s.nextDatum)
    s.nextDatum
  refine hbegun.undone hs hd rfl rfl ?_ ?_ ?_ ?_ ?_
  · rw [hbegun.destroyData hs hd]
    exact hframe.2.2.2.2
  · rw [hbegun.destroyData hs hd]
    rfl
  · rw [hbegun.destroyData hs hd]
    exact hframe.2.1
  · intro n hn
    rw [hbegun.destroyData hs hd]
    exact ⟨congrFun hframe.1 n, (Function.update_of_ne hn _ _).trans (congrFun hframe.2.2.1 n)⟩
  · intro hlive
    have hdead := hlive.2.1
    simp [State.freeNode] at hdead

/-- The undo step of a copy into a datum that was there. -/
private theorem undone_merged {pend : List Nat} {flavor : Flavor} {id : Nat} {l : List Nat}
    (hs : Shape pend s) (hd : Data s) (hl : (s.data id).nodes = some l) (hne : l ≠ []) :
    Undone s (((s.newNode dest (.decl flavor id)).appendNode id s.next).destroyNode s.next) := by
  have hnotin : s.next ∉ l := by
    intro hin
    have hin' : s.next ∈ s.nodesOf id := by
      unfold State.nodesOf
      rw [hl]
      exact hin
    exact absurd ((hd.registered id s.next).mp hin').1.1 (Nat.lt_irrefl _)
  have hstmt : (((s.newNode dest (.decl flavor id)).appendNode id s.next).nodes s.next).stmt =
      .decl flavor id := by
    simp [State.appendNode, State.setDatum, State.newNode]
  have hnodes : (((s.newNode dest (.decl flavor id)).appendNode id s.next).data id) =
      { s.data id with nodes := some (l ++ [s.next]) } := by
    simp [State.appendNode, State.setDatum, State.newNode, hl]
  have herase : (l ++ [s.next]).erase s.next = l := by
    rw [List.erase_append_right _ hnotin]
    simp
  have hremove : ((s.newNode dest (.decl flavor id)).appendNode id s.next).datumRemoveNode id
      s.next = s.newNode dest (.decl flavor id) := by
    unfold State.datumRemoveNode
    rw [hnodes]
    simp only [herase, if_neg hne]
    have hback : Function.update s.data id { s.data id with nodes := some l } = s.data := by
      rw [← hl]
      exact Function.update_eq_self id s.data
    simp [State.setDatum, State.appendNode, State.newNode, hl, hback]
  have hdestroy : ((s.newNode dest (.decl flavor id)).appendNode id s.next).destroyNode s.next =
      (s.newNode dest (.decl flavor id)).freeNode s.next := by
    have hsome : ((s.newNode dest (.decl flavor id)).data id).nodes.isNone = false := by
      show (s.data id).nodes.isNone = false
      rw [hl]
      rfl
    unfold State.destroyNode
    rw [hstmt]
    simp only [hremove, hsome, Bool.false_eq_true, if_false]
  rw [hdestroy]
  have hrefl := Undone.refl hs hd
  refine ⟨rfl, fun _ _ => rfl, hrefl.gone, Nat.le_refl _, hrefl.freed, Nat.le_succ _, ?_, ?_, ?_⟩
  · intro n hn
    have hne : n ≠ s.next := Nat.ne_of_lt hn
    simp [State.freeNode, State.newNode, hne]
  · intro n hn hlive
    have hlt : n < s.next + 1 := hlive.1
    obtain rfl : n = s.next := by omega
    have hdead := hlive.2.1
    simp [State.freeNode] at hdead
  · intro n hn
    have hle : s.next + 1 ≤ n := hn
    have hne : n ≠ s.next := by omega
    simp only [State.freeNode, State.newNode, Function.update_of_ne hne]
    exact hs.fresh n (by omega)

/-- A new node that declares something is hung into the tree. -/
private theorem Inv.hang {flavor : Flavor} {id : Nat} (hi : Inv s) (hp : s.Live p)
    (hdecl : Declares s u p flavor id) :
    Inv (u.attach p s.next) ∧ (u.attach p s.next).Live s.next ∧
      ∀ m, s.Live m → (u.attach p s.next).Live m := by
  have hshape := hdecl.toAdds.shape hi.shape hp (by simp) (by simp)
  have hlive := hdecl.toAdds.live_iff hi.shape (by simp)
  have hnew : u.Live s.next := (hlive _).mpr (Or.inr rfl)
  have hdata := hi.data.declares hi.shape hp hdecl
  have hattach := attach_live u p s.next
  refine ⟨⟨?_, ?_, hdata.attach hshape.toRooted⟩, (hattach _).mpr hnew, fun m hm => ?_⟩
  · exact hshape.attach hnew (Nat.ne_of_gt hi.shape.first) (by simp)
      (by rw [hdecl.toAdds.node_new])
  · exact (hdecl.toAdds.whole hi.shape hi.whole (by simp)).attach hnew
  · exact (hattach m).mpr ((hlive m).mpr (Or.inl hm))

/-- How a declaration is copied, once the copy function has a datum for it. -/
private theorem registerCopy_cases {ns : Namespace} {d : Decl} {id : Nat} (hi : Inv s)
    (hdest : s.Live dest) (hns : s.getSymtab dest (flavorToSymtabIndex d.flavor) = some ns)
    (hid : s.tables ns (flavorToSymtabIndex d.flavor) d.name = none ∧ id = s.nextDatum ∨
      s.tables ns (flavorToSymtabIndex d.flavor) d.name = some id)
    (h : registerCopy s dest ns d id = (rc, u)) :
    rc = .ok ∧ Inv u ∧ u.Live s.next ∧ (∀ m, s.Live m → u.Live m) ∨ rc ≠ .ok ∧ Undone s u := by
  unfold registerCopy at h
  rcases hid with ⟨hfree, rfl⟩ | htaken
  · rw [if_pos rfl] at h
    have hdecl := declares_fresh hi.data d.params hns hfree
    have hbegun := begun_entered hi.shape hi.data dest d.flavor d.params hfree
    have hfresh : (s.alloc d.flavor d.params).newNode dest (.decl d.flavor s.nextDatum) =
        s.fresh dest d.flavor d.params := rfl
    dsimp only at h
    rw [hfresh] at h
    split_ifs at h
    · obtain ⟨rfl, rfl⟩ := Prod.mk.inj h
      right
      refine ⟨by simp, hbegun.undone_destroyNode d.flavor hi.shape hi.data ?_ ?_⟩
      · rw [hdecl.toAdds.node_new]
      · have hof := hdecl.nodesOf s.nextDatum
        rw [if_pos rfl, hi.data.bounded _ (Nat.le_refl _)] at hof
        unfold State.nodesOf at hof
        cases hnodes : (((s.fresh dest d.flavor d.params).symtabInsert ns
          (flavorToSymtabIndex d.flavor) d.name s.nextDatum s.next).2.data s.nextDatum).nodes with
        | none =>
          rw [hnodes] at hof
          cases hof
        | some l =>
          rw [hnodes] at hof
          have hl : l = [s.next] := hof
          rw [hl]
    · obtain ⟨rfl, rfl⟩ := Prod.mk.inj h
      exact Or.inl ⟨rfl, hi.hang hdest hdecl⟩
  · have hdecl := declares_merged hi.data hns htaken
    have hne : s.nodesOf id ≠ [] := (hi.data.in_table_iff id).mp ⟨_, _, _, htaken⟩
    have hlt : id ≠ s.nextDatum := by
      rintro rfl
      exact hne (hi.data.bounded _ (Nat.le_refl _))
    rw [if_neg hlt] at h
    have hins : ((s.newNode dest (.decl d.flavor id)).symtabInsert ns (flavorToSymtabIndex d.flavor)
        d.name id s.next).2 = (s.newNode dest (.decl d.flavor id)).appendNode id s.next := by
      unfold State.symtabInsert
      have hsome : (s.newNode dest (.decl d.flavor id)).tables ns (flavorToSymtabIndex d.flavor)
          d.name = some id := htaken
      rw [hsome]
    dsimp only at h
    split_ifs at h
    · obtain ⟨rfl, rfl⟩ := Prod.mk.inj h
      right
      refine ⟨by simp, ?_⟩
      rw [hins]
      cases hl : (s.data id).nodes with
      | none =>
        unfold State.nodesOf at hne
        rw [hl] at hne
        exact absurd rfl hne
      | some l =>
        unfold State.nodesOf at hne
        rw [hl] at hne
        exact undone_merged hi.shape hi.data hl hne
    · obtain ⟨rfl, rfl⟩ := Prod.mk.inj h
      exact Or.inl ⟨rfl, hi.hang hdest hdecl⟩

/-- One node is copied, or nothing is left of its copy. -/
private theorem copyNode_cases (hi : Inv s) (hdest : s.Live dest)
    (h : copyNode s orig dest = some (rc, u)) :
    rc = .ok ∧ Inv u ∧ u.Live s.next ∧ (∀ m, s.Live m → u.Live m) ∨ rc ≠ .ok ∧ Undone s u := by
  have hrefl := Undone.refl hi.shape hi.data
  unfold copyNode at h
  split_ifs at h
  split at h
  · split at h
    · obtain ⟨rfl, rfl⟩ := Prod.mk.inj (Option.some.inj h)
      exact Or.inr ⟨by simp, hrefl⟩
    · rename_i flavor id₀ hstmt _ ns hns
      split_ifs at h
      split at h
      · cases h
      · obtain ⟨rfl, rfl⟩ := Prod.mk.inj (Option.some.inj h)
        exact Or.inr ⟨by simp, hrefl⟩
      · rename_i id v hfunc
        refine registerCopy_cases hi hdest hns ?_ (Option.some.inj h)
        rcases Copy.copyFunc_cases hfunc with ⟨hnone, halloc⟩ | ⟨hsome, _⟩
        · left
          exact ⟨hnone, (Prod.mk.inj halloc).1⟩
        · right
          exact hsome
  · obtain ⟨rfl, rfl⟩ := Prod.mk.inj (Option.some.inj h)
    exact Or.inl ⟨rfl, hi.genOther hdest rfl⟩
  · obtain ⟨rfl, rfl⟩ := Prod.mk.inj (Option.some.inj h)
    exact Or.inl ⟨rfl, hi.genOther hdest rfl⟩
  all_goals
    obtain ⟨rfl, rfl⟩ := Prod.mk.inj (Option.some.inj h)
    exact Or.inr ⟨by simp, hrefl⟩

/-- A copy ends well, or with a node that nothing is left of. -/
theorem copyFrom_cases {fuel k : Nat} (hi : Inv s) (horig : s.Live orig) (hdest : s.Live dest)
    (h : copyFrom fuel orig k dest s = some (rc, u)) :
    Inv u ∧ (∀ m, s.Live m → u.Live m) ∧
      (rc ≠ .ok → ∃ s₁ c d, copyNode s₁ c d = some (rc, u) ∧ Inv s₁ ∧ Undone s₁ u) := by
  induction fuel generalizing s orig k dest rc u with
  | zero => cases h
  | succ fuel ih =>
    rw [copyFrom] at h
    split_ifs at h
    split at h
    · obtain ⟨rfl, rfl⟩ := Prod.mk.inj (Option.some.inj h)
      exact ⟨hi, fun _ hm => hm, fun hne => absurd rfl hne⟩
    · rename_i c hc
      have hmem : c ∈ (s.nodes orig).children := List.mem_of_getElem? hc
      have hclive := hi.whole orig horig c hmem
      cases hcopy : copyNode s c dest with
      | none =>
        simp only [hcopy] at h
        cases h
      | some r =>
        obtain ⟨rc₁, s₁⟩ := r
        simp only [hcopy] at h
        rcases copyNode_cases hi hdest hcopy with ⟨rfl, hi₁, hnew, hmono⟩ | ⟨hbad, hundone⟩
        · simp only at h
          cases hrest : copyFrom fuel c 0 s.next s₁ with
          | none =>
            simp only [hrest] at h
            cases h
          | some r =>
            obtain ⟨rc₂, s₂⟩ := r
            simp only [hrest] at h
            obtain ⟨hi₂, hmono₂, hfail₂⟩ := ih hi₁ (hmono c hclive) hnew hrest
            by_cases hrc : rc₂ = .ok
            · subst hrc
              obtain ⟨hiu, hmonou, hfailu⟩ := ih hi₂ (hmono₂ _ (hmono _ horig))
                (hmono₂ _ (hmono _ hdest)) h
              exact ⟨hiu, fun m hm => hmonou m (hmono₂ m (hmono m hm)), hfailu⟩
            · have hr : rc = rc₂ ∧ u = s₂ := by
                cases rc₂ with
                | ok => exact absurd rfl hrc
                | _ =>
                  obtain ⟨hrc', hu⟩ := Prod.mk.inj (Option.some.inj h)
                  exact ⟨hrc'.symm, hu.symm⟩
              obtain ⟨rfl, rfl⟩ := hr
              exact ⟨hi₂, fun m hm => hmono₂ m (hmono m hm), hfail₂⟩
        · have hr : rc = rc₁ ∧ u = s₁ := by
            cases rc₁ with
            | ok => exact absurd rfl hbad
            | _ =>
              obtain ⟨hrc', hu⟩ := Prod.mk.inj (Option.some.inj h)
              exact ⟨hrc'.symm, hu.symm⟩
          obtain ⟨rfl, rfl⟩ := hr
          exact ⟨hundone.inv hi, fun m hm => (hundone.live_iff m).mpr hm,
            fun _ => ⟨s, c, dest, hcopy, hi, hundone⟩⟩

end CopyNode

end Cil.Ast.Symtabs
