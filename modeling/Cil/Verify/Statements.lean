/- Cil/Verify/Statements
   digest: The verification of all statements, and which contexts and ranges it leaves out. -/

import Cil.Tree
import Cil.Verify.Bounds
import Cil.Verify.ContextExact

set_option autoImplicit false
set_option relaxedAutoImplicit false

namespace Cil.Verify

section Statements

/-- The statements with a context or a level range, those that the verification counts, and
those whose children it does not visit. `checked` has the result of the check of another
statement, and `sidcontext` the context of an initial SID. -/
inductive Stmt (δ σ κ : Type)
  | user (u : δ)
  | levelrange (range : LevelRange σ κ)
  | context (ctx : Context δ σ κ)
  | netifcon (ifContext packetContext : Context δ σ κ)
  | genfscon (ctx : Context δ σ κ)
  | filecon (ctx : Option (Context δ σ κ))
  | nodecon (ctx : Context δ σ κ)
  | portcon (ctx : Context δ σ κ)
  | pirqcon (ctx : Context δ σ κ)
  | iomemcon (ctx : Context δ σ κ)
  | ioportcon (ctx : Context δ σ κ)
  | pcidevicecon (ctx : Context δ σ κ)
  | fsuse (ctx : Context δ σ κ)
  | sidcontext (ctx : Context δ σ κ)
  | rangetransition (range : LevelRange σ κ)
  | selinuxuser (range : LevelRange σ κ)
  | selinuxuserdefault (range : LevelRange σ κ)
  | avrule
  | handleunknown (value : Nat)
  | mls (value : Bool)
  | macroDef
  | block (isAbstract : Bool)
  | booleanif (rc : Rc)
  | checked (rc : Rc)
  | other
  deriving DecidableEq, Repr

/-- What the walks count, through pointers in their arguments. -/
structure Counts where
  avruleCnt : Nat
  handleunknown : Option Nat
  mls : Option Bool
  nseuserdflt : Nat
  deriving DecidableEq, Repr

/-- `CIL_TREE_SKIP_HEAD` in `__cil_verify_helper`, and in the walks that write. -/
def Stmt.skipHead {δ σ κ : Type} : Stmt δ σ κ → Bool
  | .macroDef => true
  | .block isAbstract => isAbstract
  | .booleanif _ => true
  | _ => false

end Statements

section Check

variable {β δ σ κ : Type} [DecidableEq δ] [DecidableEq σ] [DecidableEq κ] (db : Database β δ σ κ)
  (levels : δ → UserLevels σ κ) (bounds : δ → Option δ)

/-- What the checks below do with a context: they verify it only when anonymous. -/
def verifyAnonymous (ctx : Context δ σ κ) : Option Rc :=
  if ctx.named = true then some .ok else verifyContext db ctx

/-- `__cil_verify_netifcon`. -/
def verifyNetifcon (ifContext packetContext : Context δ σ κ) : Option Rc :=
  thenCheck (verifyAnonymous db ifContext) (verifyAnonymous db packetContext)

/-- `__cil_verify_genfscon`. -/
def verifyGenfscon (ctx : Context δ σ κ) : Option Rc := verifyAnonymous db ctx

/-- `__cil_verify_filecon`. -/
def verifyFilecon (ctx : Option (Context δ σ κ)) : Option Rc :=
  match ctx with
  | none => some .ok
  | some ctx => verifyAnonymous db ctx

/-- `__cil_verify_nodecon`. -/
def verifyNodecon (ctx : Context δ σ κ) : Option Rc := verifyAnonymous db ctx

/-- `__cil_verify_portcon`. -/
def verifyPortcon (ctx : Context δ σ κ) : Option Rc := verifyAnonymous db ctx

/-- `__cil_verify_pirqcon`. -/
def verifyPirqcon (ctx : Context δ σ κ) : Option Rc := verifyAnonymous db ctx

/-- `__cil_verify_iomemcon`. -/
def verifyIomemcon (ctx : Context δ σ κ) : Option Rc := verifyAnonymous db ctx

/-- `__cil_verify_ioportcon`. -/
def verifyIoportcon (ctx : Context δ σ κ) : Option Rc := verifyAnonymous db ctx

/-- `__cil_verify_pcidevicecon`. -/
def verifyPcidevicecon (ctx : Context δ σ κ) : Option Rc := verifyAnonymous db ctx

/-- `__cil_verify_fsuse`. -/
def verifyFsuse (ctx : Context δ σ κ) : Option Rc := verifyAnonymous db ctx

/-- The report on a user as a return code. -/
def reportRc : Option Report → Option Rc
  | some .valid => some .ok
  | some .crash => none
  | some _ => some .err
  | none => none

/-- `__cil_verify_helper` in its first pass. -/
def verifyFirst (fuel : Nat) (counts : Counts) : Stmt δ σ κ → Option Rc × Counts
  | .user u => (reportRc (verifyUser db.sensitivities levels bounds fuel u), counts)
  | .selinuxuserdefault _ => (some .ok, { counts with nseuserdflt := counts.nseuserdflt + 1 })
  | .avrule => (some .ok, { counts with avruleCnt := counts.avruleCnt + 1 })
  | .handleunknown value =>
      match counts.handleunknown with
      | some _ => (some .err, counts)
      | none => (some .ok, { counts with handleunknown := some value })
  | .mls value =>
      match counts.mls with
      | some _ => (some .err, counts)
      | none => (some .ok, { counts with mls := some value })
  | .booleanif rc => (some rc, counts)
  | .levelrange range => (verifyLevelrange db.sensitivities range, counts)
  | .checked rc => (some rc, counts)
  | _ => (some .ok, counts)

/-- `__cil_verify_helper` in its second pass. It has no case for `sidcontext`, and that for
`rangetransition` is empty. -/
def verifySecond (counts : Counts) : Stmt δ σ κ → Option Rc × Counts
  | .context ctx => (verifyContext db ctx, counts)
  | .netifcon ifContext packetContext => (verifyNetifcon db ifContext packetContext, counts)
  | .genfscon ctx => (verifyGenfscon db ctx, counts)
  | .filecon ctx => (verifyFilecon db ctx, counts)
  | .nodecon ctx => (verifyNodecon db ctx, counts)
  | .portcon ctx => (verifyPortcon db ctx, counts)
  | .pirqcon ctx => (verifyPirqcon db ctx, counts)
  | .iomemcon ctx => (verifyIomemcon db ctx, counts)
  | .ioportcon ctx => (verifyIoportcon db ctx, counts)
  | .pcidevicecon ctx => (verifyPcidevicecon db ctx, counts)
  | .fsuse ctx => (verifyFsuse db ctx, counts)
  | .rangetransition _ => (some .ok, counts)
  | _ => (some .ok, counts)

/-- A walk with one of the two passes, up to the first failure. -/
def verifyWalk (helper : Counts → Stmt δ σ κ → Option Rc × Counts) :
    Counts → List (Stmt δ σ κ) → Option Rc × Counts
  | counts, [] => (some .ok, counts)
  | counts, stmt :: rest =>
      match helper counts stmt with
      | (some .ok, counts) => verifyWalk helper counts rest
      | r => r

/-- `cil_post_verify`. -/
def postVerify (fuel : Nat) (ast : Tree (Stmt δ σ κ)) : Option Rc :=
  let visited := ast.walk Stmt.skipHead
  match verifyWalk (verifyFirst db levels bounds fuel) ⟨0, none, none, 0⟩ visited with
  | (some .ok, counts) =>
      match verifyWalk (verifySecond db) counts visited with
      | (some .ok, counts) =>
          if counts.avruleCnt = 0 then some .err
          else if 1 < counts.nseuserdflt then some .err
          else some .ok
      | (r, _) => r
  | (r, _) => r

end Check

section Policy

/-- The contexts of a statement. -/
def Stmt.contexts {δ σ κ : Type} : Stmt δ σ κ → List (Context δ σ κ)
  | .netifcon ifContext packetContext => [ifContext, packetContext]
  | .genfscon ctx => [ctx]
  | .filecon ctx => ctx.toList
  | .nodecon ctx => [ctx]
  | .portcon ctx => [ctx]
  | .pirqcon ctx => [ctx]
  | .iomemcon ctx => [ctx]
  | .ioportcon ctx => [ctx]
  | .pcidevicecon ctx => [ctx]
  | .fsuse ctx => [ctx]
  | .sidcontext ctx => [ctx]
  | _ => []

/-- The level range of a statement, apart from that of its contexts. -/
def Stmt.ranges {δ σ κ : Type} (userRange : δ → LevelRange σ κ) :
    Stmt δ σ κ → List (LevelRange σ κ)
  | .user u => [userRange u]
  | .rangetransition range => [range]
  | .selinuxuser range => [range]
  | .selinuxuserdefault range => [range]
  | _ => []

/-- A resolved and post-processed policy. The users of its contexts and what its statements refer
to by name were declared where the walks come by. -/
structure Policy (β δ σ κ : Type) [DecidableEq δ] where
  ast : Tree (Stmt δ σ κ)
  db : Database β δ σ κ
  levels : δ → UserLevels σ κ
  bounds : δ → Option δ
  userRange_eq : ∀ u range, (levels u).range = some range → db.userRange u = range
  users : ∀ stmt ∈ ast.walk Stmt.skipHead, ∀ ctx ∈ stmt.contexts,
    .user ctx.user ∈ ast.walk Stmt.skipHead
  contexts : ∀ stmt ∈ ast.walk Stmt.skipHead, ∀ ctx ∈ stmt.contexts, ctx.named = true →
    .context ctx ∈ ast.walk Stmt.skipHead
  contextRanges : ∀ stmt ∈ ast.walk Stmt.skipHead, ∀ ctx ∈ stmt.contexts,
    ctx.range.named = true → .levelrange ctx.range ∈ ast.walk Stmt.skipHead
  ranges : ∀ stmt ∈ ast.walk Stmt.skipHead, ∀ range ∈ stmt.ranges db.userRange,
    range.named = true → .levelrange range ∈ ast.walk Stmt.skipHead

variable {β δ σ κ : Type} [DecidableEq δ] [DecidableEq σ] [DecidableEq κ] (P : Policy β δ σ κ)

/-- The statements that the walks visit. -/
def Policy.visited : List (Stmt δ σ κ) := P.ast.walk Stmt.skipHead

/-- Every context that is written is valid for its user, and every level range is well-formed. -/
structure Policy.AllValid : Prop where
  contexts : ∀ stmt ∈ P.visited, ∀ ctx ∈ stmt.contexts, Valid P.db ctx
  ranges : ∀ stmt ∈ P.visited, ∀ range ∈ stmt.ranges P.db.userRange,
    WellFormed P.db.sensitivities range

/-- The context names a role, and its categories are between those of its user's range. -/
structure Fitting (db : Database β δ σ κ) (ctx : Context δ σ κ) : Prop where
  role : ∃ r, ctx.role = .role r
  low : ∀ c ∈ (db.userRange ctx.user).low.categories, c ∈ ctx.range.low.categories
  high : ∀ c ∈ ctx.range.high.categories, c ∈ (db.userRange ctx.user).high.categories

def Stmt.isUser {δ σ κ : Type} : Stmt δ σ κ → Bool
  | .user _ => true
  | _ => false

/-- What the verification leaves out is right: anonymous contexts of initial SIDs, anonymous
ranges of range transitions and of login mappings, and the categories of contexts. -/
structure Policy.LeftOutRight : Prop where
  sids : ∀ ctx, .sidcontext ctx ∈ P.visited → ctx.named = false → Valid P.db ctx
  ranges : ∀ stmt ∈ P.visited, stmt.isUser = false → ∀ range ∈ stmt.ranges P.db.userRange,
    range.named = false → WellFormed P.db.sensitivities range
  contexts : ∀ stmt ∈ P.visited, ∀ ctx ∈ stmt.contexts, Fitting P.db ctx

end Policy

section Walks

variable {β δ σ κ : Type}

private theorem verifyWalk_ok {helper : Counts → Stmt δ σ κ → Option Rc × Counts}
    {counts counts' : Counts}
    {stmts : List (Stmt δ σ κ)} (h : verifyWalk helper counts stmts = (some .ok, counts')) :
    ∀ stmt ∈ stmts, ∃ c, (helper c stmt).1 = some .ok := by
  induction stmts generalizing counts with
  | nil =>
    intro stmt hstmt
    cases hstmt
  | cons stmt rest ih =>
    unfold verifyWalk at h
    split at h
    · rename_i counts₁ hhelper
      intro x hx
      rcases List.mem_cons.mp hx with rfl | hx
      · exact ⟨counts, by rw [hhelper]⟩
      · exact ih h x hx
    · rename_i hne
      exact absurd h (hne counts')

variable [DecidableEq δ] [DecidableEq σ] [DecidableEq κ] {db : Database β δ σ κ}
  {levels : δ → UserLevels σ κ} {bounds : δ → Option δ}

/-- A verification that succeeds has checked every visited statement in both passes. -/
private theorem postVerify_ok {fuel : Nat} {ast : Tree (Stmt δ σ κ)}
    (h : postVerify db levels bounds fuel ast = some .ok) :
    ∀ stmt ∈ ast.walk Stmt.skipHead,
      (∃ c, (verifyFirst db levels bounds fuel c stmt).1 = some .ok) ∧
        ∃ c, (verifySecond db c stmt).1 = some .ok := by
  unfold postVerify at h
  dsimp only at h
  split at h
  · rename_i counts hfirst
    split at h
    · rename_i counts' hsecond
      intro stmt hstmt
      exact ⟨verifyWalk_ok hfirst stmt hstmt, verifyWalk_ok hsecond stmt hstmt⟩
    · rename_i hne _
      cases h
      exact (hne rfl).elim
  · rename_i hne _
    cases h
    exact (hne rfl).elim

private theorem reportRc_ok {r : Option Report} : reportRc r = some .ok ↔ r = some .valid := by
  rcases r with _ | r
  · simp [reportRc]
  · cases r <;> simp [reportRc]

private theorem verifyUser_valid {fuel : Nat} {u : δ}
    (h : verifyUser db.sensitivities levels bounds fuel u = some .valid) :
    ∃ range, (levels u).range = some range ∧
      (range.named = false → verifyLevelrange db.sensitivities range = some .ok) := by
  have hrange : ∀ range : LevelRange σ κ, verifyUserRange db.sensitivities range = .valid →
      range.named = false → verifyLevelrange db.sensitivities range = some .ok := by
    intro range hvalid hnamed
    unfold verifyUserRange at hvalid
    rw [if_neg (by simp [hnamed])] at hvalid
    split at hvalid
    · cases hvalid
    · assumption
    · cases hvalid
  unfold verifyUser at h
  split at h
  · cases h
  · cases h
  · rename_i level range hlevel hlevels
    refine ⟨range, hlevels, hrange range ?_⟩
    split at h
    · exact Option.some.inj h
    · split at h
      · exact Option.some.inj h
      · rename_i hloop
        exact absurd h hloop

private theorem verifyAnonymous_ok {ctx : Context δ σ κ} :
    verifyAnonymous db ctx = some .ok ↔
      (ctx.named = false → verifyContext db ctx = some .ok) := by
  unfold verifyAnonymous
  cases ctx.named with
  | true => simp
  | false => simp

/-- The second pass verifies the anonymous contexts of all statements but `sidcontext`. -/
private theorem verifySecond_ok {counts : Counts} {stmt : Stmt δ σ κ}
    (h : (verifySecond db counts stmt).1 = some .ok) (hsid : ∀ ctx, stmt ≠ .sidcontext ctx) :
    ∀ ctx ∈ stmt.contexts, ctx.named = false → verifyContext db ctx = some .ok := by
  have hone : ∀ ctx' : Context δ σ κ, verifyAnonymous db ctx' = some .ok → ∀ ctx ∈ [ctx'],
      ctx.named = false → verifyContext db ctx = some .ok := by
    intro ctx' hok ctx hctx
    obtain rfl := List.mem_singleton.mp hctx
    exact verifyAnonymous_ok.mp hok
  cases stmt with
  | netifcon ifContext packetContext =>
    obtain ⟨hif, hpacket⟩ := thenCheck_ok.mp h
    intro ctx hctx
    rcases List.mem_cons.mp hctx with rfl | hctx
    · exact verifyAnonymous_ok.mp hif
    · exact hone packetContext hpacket ctx hctx
  | filecon ctx' =>
    cases ctx' with
    | none =>
      intro ctx hctx
      cases hctx
    | some ctx' => exact hone ctx' h
  | genfscon ctx' => exact hone ctx' h
  | nodecon ctx' => exact hone ctx' h
  | portcon ctx' => exact hone ctx' h
  | pirqcon ctx' => exact hone ctx' h
  | iomemcon ctx' => exact hone ctx' h
  | ioportcon ctx' => exact hone ctx' h
  | pcidevicecon ctx' => exact hone ctx' h
  | fsuse ctx' => exact hone ctx' h
  | sidcontext ctx' => exact absurd rfl (hsid ctx')
  | _ =>
    intro ctx hctx
    cases hctx

end Walks

section Exact

variable {β δ σ κ : Type} [DecidableEq δ] [DecidableEq σ] [DecidableEq κ] {P : Policy β δ σ κ}
  {fuel : Nat}

private theorem Policy.levelrange_wellFormed
    (h : postVerify P.db P.levels P.bounds fuel P.ast = some .ok) {range : LevelRange σ κ}
    (hrange : .levelrange range ∈ P.visited) : WellFormed P.db.sensitivities range := by
  obtain ⟨⟨counts, hok⟩, -⟩ := postVerify_ok h _ hrange
  exact verifyLevelrange_wellFormed hok

/-- The ranges of users are verified, named or not. -/
private theorem Policy.user_wellFormed
    (h : postVerify P.db P.levels P.bounds fuel P.ast = some .ok) {u : δ}
    (hu : .user u ∈ P.visited) : WellFormed P.db.sensitivities (P.db.userRange u) := by
  obtain ⟨⟨counts, hok⟩, -⟩ := postVerify_ok h _ hu
  obtain ⟨range, hlevels, hanonymous⟩ := verifyUser_valid (reportRc_ok.mp hok)
  have heq := P.userRange_eq u range hlevels
  cases hnamed : range.named with
  | false =>
    rw [heq]
    exact verifyLevelrange_wellFormed (hanonymous hnamed)
  | true =>
    apply Policy.levelrange_wellFormed h
    apply P.ranges _ hu _ (List.mem_singleton_self _)
    rw [heq]
    exact hnamed

/-- A context that was verified, where it stands or where it was declared, is plausible. -/
theorem Policy.verified
    (h : postVerify P.db P.levels P.bounds fuel P.ast = some .ok) {stmt : Stmt δ σ κ}
    (hstmt : stmt ∈ P.visited) {ctx : Context δ σ κ} (hctx : ctx ∈ stmt.contexts)
    (hverified : ctx.named = true ∨ ∀ ctx', stmt ≠ .sidcontext ctx') :
    Plausible P.db ctx := by
  apply verifyContext_ok.mp
  cases hnamed : ctx.named with
  | true =>
    obtain ⟨-, counts, hok⟩ := postVerify_ok h _ (P.contexts stmt hstmt ctx hctx hnamed)
    exact hok
  | false =>
    obtain ⟨-, counts, hok⟩ := postVerify_ok h stmt hstmt
    have hsid : ∀ ctx', stmt ≠ .sidcontext ctx' := by
      rcases hverified with htrue | hsid
      · rw [hnamed] at htrue
        cases htrue
      · exact hsid
    exact verifySecond_ok hok hsid ctx hctx hnamed

/-- A plausible context that fits the range of its user is valid. -/
private theorem Policy.valid_of_verified
    (h : postVerify P.db P.levels P.bounds fuel P.ast = some .ok) {stmt : Stmt δ σ κ}
    (hstmt : stmt ∈ P.visited) {ctx : Context δ σ κ} (hctx : ctx ∈ stmt.contexts)
    (hchecked : Plausible P.db ctx) (hfitting : Fitting P.db ctx) : Valid P.db ctx := by
  have huser := Policy.user_wellFormed h (P.users stmt hstmt ctx hctx)
  have hinside := hchecked.sensitivities.2 huser.dominated.sens
  exact (valid_iff_complete hchecked).mpr
    ⟨hfitting.role, fun hnamed => Policy.levelrange_wellFormed h
      (P.contextRanges stmt hstmt ctx hctx hnamed), hfitting.low, hfitting.high, hinside.2⟩

omit [DecidableEq κ] in
private theorem Valid.fitting {db : Database β δ σ κ} {ctx : Context δ σ κ} (h : Valid db ctx) :
    Fitting db ctx := by
  obtain ⟨r, hr, -⟩ := h.role
  exact ⟨⟨r, hr⟩, h.low.cats, h.high.cats⟩

/-- After a verification that succeeded, all contexts and ranges that are written are valid
exactly when what it leaves out is right. -/
theorem postVerify_allValid_iff (P : Policy β δ σ κ) (fuel : Nat)
    (h : postVerify P.db P.levels P.bounds fuel P.ast = some .ok) :
    P.AllValid ↔ P.LeftOutRight := by
  constructor
  · intro hall
    refine ⟨fun ctx hctx _ => hall.contexts _ hctx ctx (List.mem_singleton_self _),
      fun stmt hstmt _ range hrange _ => hall.ranges stmt hstmt range hrange,
      fun stmt hstmt ctx hctx => (hall.contexts stmt hstmt ctx hctx).fitting⟩
  · intro hright
    refine ⟨fun stmt hstmt ctx hctx => ?_, fun stmt hstmt range hrange => ?_⟩
    · by_cases hleft : ctx.named = true ∨ ∀ ctx', stmt ≠ .sidcontext ctx'
      · have hchecked := Policy.verified h hstmt hctx hleft
        exact Policy.valid_of_verified h hstmt hctx hchecked
          (hright.contexts stmt hstmt ctx hctx)
      · push Not at hleft
        obtain ⟨hnamed, ctx', rfl⟩ := hleft
        obtain rfl := List.mem_singleton.mp hctx
        exact hright.sids ctx hstmt (by simpa using hnamed)
    · cases hnamed : range.named with
      | true => exact Policy.levelrange_wellFormed h (P.ranges stmt hstmt range hrange hnamed)
      | false =>
        cases huser : stmt.isUser with
        | false => exact hright.ranges stmt hstmt huser range hrange hnamed
        | true =>
          cases stmt with
          | user u =>
            obtain rfl := List.mem_singleton.mp hrange
            exact Policy.user_wellFormed h hstmt
          | _ => cases huser

end Exact

section SidPolicy

/-- A context of the user whose low level has a category that its high level has not. -/
def invertedContext : Context StaffName Unit Unit :=
  ⟨false, .staff, .role .staffRole, .staffType, ⟨false, ⟨(), some (some [()])⟩, ⟨(), none⟩⟩⟩

private theorem sid_visited {ctx : Context StaffName Unit Unit} {stmt : Stmt StaffName Unit Unit}
    (h : stmt ∈ Tree.walk Stmt.skipHead (.node .other
      [.node (.user .staff) [], .node .avrule [], .node (.sidcontext ctx) []])) :
    stmt = .user .staff ∨ stmt = .avrule ∨ stmt = .sidcontext ctx := by
  simpa [Tree.walk, walkSiblings, walkNode, Stmt.skipHead] using h

private theorem sid_contexts {ctx ctx' : Context StaffName Unit Unit}
    {stmt : Stmt StaffName Unit Unit}
    (h : stmt = .user .staff ∨ stmt = .avrule ∨ stmt = .sidcontext ctx)
    (hctx : ctx' ∈ stmt.contexts) : ctx' = ctx := by
  rcases h with rfl | rfl | rfl
  · cases hctx
  · cases hctx
  · exact List.mem_singleton.mp hctx

/-- A user, an access rule, and the context of an initial SID. -/
def sidPolicy (ctx : Context StaffName Unit Unit) (huser : ctx.user = .staff)
    (hnamed : ctx.named = false) (hrange : ctx.range.named = false) :
    Policy (Finset Nat) StaffName Unit Unit where
  ast := .node .other [.node (.user .staff) [], .node .avrule [], .node (.sidcontext ctx) []]
  db := staffDatabase (.role .staffRole)
  levels _ := ⟨some ⟨(), none⟩, some ⟨false, ⟨(), none⟩, ⟨(), none⟩⟩⟩
  bounds _ := none
  userRange_eq u range h := Option.some.inj h
  users stmt hstmt ctx' hctx := by
    rw [sid_contexts (sid_visited hstmt) hctx, huser]
    exact List.mem_cons_self
  contexts stmt hstmt ctx' hctx htrue := by
    rw [sid_contexts (sid_visited hstmt) hctx, hnamed] at htrue
    cases htrue
  contextRanges stmt hstmt ctx' hctx htrue := by
    rw [sid_contexts (sid_visited hstmt) hctx, hrange] at htrue
    cases htrue
  ranges stmt hstmt range hrange htrue := by
    rcases sid_visited hstmt with rfl | rfl | rfl
    · obtain rfl := List.mem_singleton.mp hrange
      cases htrue
    · cases hrange
    · cases hrange

theorem sidPolicy_allValid_iff :
    (sidPolicy (staffContext none) rfl rfl rfl).AllValid ↔
      (sidPolicy (staffContext none) rfl rfl rfl).LeftOutRight :=
  postVerify_allValid_iff (sidPolicy (staffContext none) rfl rfl rfl) 1 rfl

/-- The verification succeeds, and the context of the initial SID is not valid. -/
theorem sidPolicy_not_allValid :
    postVerify (sidPolicy invertedContext rfl rfl rfl).db
        (sidPolicy invertedContext rfl rfl rfl).levels
        (sidPolicy invertedContext rfl rfl rfl).bounds 1
        (sidPolicy invertedContext rfl rfl rfl).ast = some .ok ∧
      ¬ (sidPolicy invertedContext rfl rfl rfl).AllValid := by
  refine ⟨rfl, fun hall => ?_⟩
  have hvisited : Stmt.sidcontext invertedContext ∈
      (sidPolicy invertedContext rfl rfl rfl).visited := by
    simp [Policy.visited, sidPolicy, Tree.walk, walkSiblings, walkNode, Stmt.skipHead]
  have hvalid := hall.contexts _ hvisited invertedContext (List.mem_singleton_self _)
  have hmem : () ∈ invertedContext.range.high.categories :=
    hvalid.range.dominated.cats () (List.mem_singleton_self _)
  cases hmem

end SidPolicy

end Cil.Verify
