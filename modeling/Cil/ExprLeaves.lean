/- Cil/ExprLeaves
   digest: The evaluation of an expression reads its leaves from left to right, then computes. -/

import Cil.ExprMeaning

set_option autoImplicit false
set_option relaxedAutoImplicit false

namespace Cil.Expr

open Cil.Library

/-- What an evaluation reads: a declaration, or a range of declarations. -/
inductive Leaf (δ : Type)
  | datum (d : δ)
  | range (d1 d2 : δ)
  deriving DecidableEq, Repr

section Leaves

variable {δ : Type}

mutual

/-- The leaves of an expression in the order in which they are read. -/
def leaves : List (Item δ) → List (Leaf δ)
  | [] => []
  | .op .range :: .datum d1 :: .datum d2 :: _ => [.range d1 d2]
  | i :: rest => leavesItem i ++ leaves rest

def leavesItem : Item δ → List (Leaf δ)
  | .datum d => [.datum d]
  | .list l => leaves l
  | _ => []

end

attribute [simp] leaves leavesItem

/-- The set that a leaf stands for. -/
def Leaf.set (env : δ → Set Nat) (range : δ → δ → Set Nat) : Leaf δ → Set Nat
  | .datum d => env d
  | .range d1 d2 => range d1 d2

/-- The declarations of a leaf. -/
def Leaf.datums : Leaf δ → List δ
  | .datum d => [d]
  | .range d1 d2 => [d1, d2]

theorem leaves_cons {i : Item δ} {rest : List (Item δ)} (hi : i ≠ .op .range) :
    leaves (i :: rest) = leavesItem i ++ leaves rest := by
  cases i with
  | op o => cases o <;> simp_all
  | datum d => simp
  | list l => simp
  | other => simp

theorem leaves_pair {o : Op} {i j : Item δ} (ho : o ≠ .range) :
    leaves [.op o, i, j] = leavesItem i ++ leavesItem j := by
  cases o with
  | range => exact absurd rfl ho
  | _ => simp

end Leaves

section Collect

variable {β δ σ : Type} (f : Leaf δ → Call Rc σ β)

/-- The leaves are read one after the other. -/
def collect : List (Leaf δ) → Call Rc σ (List β)
  | [] => pure []
  | x :: rest => do
      let b ← f x
      let bs ← collect rest
      pure (b :: bs)

variable {f}

private theorem call_pure_bind {α α' : Type} (a : α) (g : α → Call Rc σ α') :
    (pure a >>= g) = g a := rfl

theorem call_bind_pure {α : Type} (c : Call Rc σ α) : (c >>= fun a => pure a) = c := by
  funext s
  show Call.andThen c (fun a => Call.ret a) s = c s
  unfold Call.andThen Call.ret
  rcases c s with _ | (_ | _ | _) <;> rfl

private theorem collect_append (xs ys : List (Leaf δ)) :
    collect f (xs ++ ys) =
      collect f xs >>= fun bs => collect f ys >>= fun cs => pure (bs ++ cs) := by
  induction xs with
  | nil =>
    rw [List.nil_append, collect, call_pure_bind]
    exact (call_bind_pure _).symm
  | cons x xs ih =>
    rw [List.cons_append, collect, collect, ih]
    simp only [Call.bind_assoc, call_pure_bind, List.cons_append]

/-- What is done next only sees as many bitmaps as there are leaves. -/
private theorem collect_bind_congr {α : Type} {xs : List (Leaf δ)} {k k' : List β → Call Rc σ α}
    (h : ∀ bs, bs.length = xs.length → k bs = k' bs) :
    (collect f xs >>= k) = (collect f xs >>= k') := by
  induction xs generalizing k k' with
  | nil =>
    rw [collect, call_pure_bind, call_pure_bind]
    exact h [] rfl
  | cons x xs ih =>
    rw [collect]
    simp only [Call.bind_assoc, call_pure_bind]
    congr 1
    funext b
    exact ih fun bs hbs => h (b :: bs) (by simp [hbs])

end Collect

section Computation

variable {β δ σ : Type} (B : Bitmap β) (max : Nat) (datumToBitmap : δ → Call Rc σ β)
  (rangeToBitmap : Option (δ → δ → Call Rc σ β))

/-- How a leaf is read. -/
def leafToBitmap : Leaf δ → Call Rc σ β
  | .datum d => datumToBitmap d
  | .range d1 d2 =>
      match rangeToBitmap with
      | some r => r d1 d2
      | none => Call.fail .err

/-- The evaluation `c` reads the leaves `xs` and computes from their bitmaps what `value` gives
for the sets that they stand for. -/
def Computed (xs : List (Leaf δ)) (value : (Leaf δ → Set Nat) → Set Nat) (c : Call Rc σ β) :
    Prop :=
  ∃ compute : List β → β,
    c = (collect (leafToBitmap datumToBitmap rangeToBitmap) xs >>= fun bs => pure (compute bs)) ∧
    ∀ set bs, bs.map B.bits = xs.map set → B.bits (compute bs) = value set

variable {B max datumToBitmap rangeToBitmap}

private theorem computed_nil {b : β} {S : Set Nat} (hb : B.bits b = S) :
    Computed B datumToBitmap rangeToBitmap [] (fun _ => S) (pure b) :=
  ⟨fun _ => b, rfl, fun _ _ _ => hb⟩

private theorem computed_leaf (x : Leaf δ) :
    Computed B datumToBitmap rangeToBitmap [x] (fun set => set x)
      (leafToBitmap datumToBitmap rangeToBitmap x) := by
  refine ⟨fun bs => bs.headD B.init, ?_, ?_⟩
  · rw [collect, collect]
    simp only [Call.bind_assoc, call_pure_bind, List.headD_cons]
    exact (call_bind_pure _).symm
  · intro set bs h
    cases bs with
    | nil => cases h
    | cons b rest =>
      rw [List.map_cons, List.map_cons] at h
      exact (List.cons.inj h).1

/-- Something is computed from the bitmap of an evaluation. -/
theorem Computed.then {xs : List (Leaf δ)} {value value' : (Leaf δ → Set Nat) → Set Nat}
    {c : Call Rc σ β} {g : β → β} (h : Computed B datumToBitmap rangeToBitmap xs value c)
    (hg : ∀ set b, B.bits b = value set → B.bits (g b) = value' set) :
    Computed B datumToBitmap rangeToBitmap xs value' (c >>= fun b => pure (g b)) := by
  obtain ⟨compute, rfl, hbits⟩ := h
  refine ⟨fun bs => g (compute bs), ?_, fun set bs hbs => hg set _ (hbits set bs hbs)⟩
  simp only [Call.bind_assoc, call_pure_bind]

/-- Something is computed from the bitmaps of two evaluations. -/
theorem Computed.both {xs ys : List (Leaf δ)} {value value' value'' : (Leaf δ → Set Nat) → Set Nat}
    {c c' : Call Rc σ β} {g : β → β → β} (h : Computed B datumToBitmap rangeToBitmap xs value c)
    (h' : Computed B datumToBitmap rangeToBitmap ys value' c')
    (hg : ∀ set b b', B.bits b = value set → B.bits b' = value' set →
      B.bits (g b b') = value'' set) :
    Computed B datumToBitmap rangeToBitmap (xs ++ ys) value''
      (c >>= fun b => c' >>= fun b' => pure (g b b')) := by
  obtain ⟨compute, rfl, hbits⟩ := h
  obtain ⟨compute', rfl, hbits'⟩ := h'
  refine ⟨fun bs => g (compute (bs.take xs.length)) (compute' (bs.drop xs.length)), ?_, ?_⟩
  · rw [collect_append]
    simp only [Call.bind_assoc, call_pure_bind]
    apply collect_bind_congr
    intro bs hbs
    congr 1
    funext cs
    rw [List.take_left' hbs, List.drop_left' hbs]
  · intro set bs hbs
    have htake : (bs.take xs.length).map B.bits = xs.map set := by
      rw [List.map_take, hbs, List.map_append, List.take_left' (by simp)]
    have hdrop : (bs.drop xs.length).map B.bits = ys.map set := by
      rw [List.map_drop, hbs, List.map_append, List.drop_left' (by simp)]
    exact hg set _ _ (hbits set _ htake) (hbits' set _ hdrop)

end Computation

section Evaluation

variable {β δ σ : Type} {B : Bitmap β} {max : Nat} {datumToBitmap : δ → Call Rc σ β}
  {rangeToBitmap : Option (δ → δ → Call Rc σ β)}

/-- The set that an expression denotes when its leaves stand for these sets. -/
def denoteLeaves (max : Nat) (l : List (Item δ)) (set : Leaf δ → Set Nat) : Set Nat :=
  denote max (fun d => set (.datum d)) (fun d1 d2 => set (.range d1 d2)) l

def ExprComputed (B : Bitmap β) (max : Nat) (datumToBitmap : δ → Call Rc σ β)
    (rangeToBitmap : Option (δ → δ → Call Rc σ β)) (l : List (Item δ)) : Prop :=
  ∀ out, Computed B datumToBitmap rangeToBitmap (leaves l)
    (fun set => B.bits out ∪ denoteLeaves max l set)
    (exprToBitmap B max datumToBitmap rangeToBitmap out l)

def LoopComputed (B : Bitmap β) (max : Nat) (datumToBitmap : δ → Call Rc σ β)
    (rangeToBitmap : Option (δ → δ → Call Rc σ β)) (l : List (Item δ)) : Prop :=
  ∀ tmp, Computed B datumToBitmap rangeToBitmap (leaves l)
    (fun set => B.bits tmp ∪
      denoteList max (fun d => set (.datum d)) (fun d1 d2 => set (.range d1 d2)) l)
    (exprToBitmapLoop B max datumToBitmap rangeToBitmap tmp l)

def OperandComputed (B : Bitmap β) (max : Nat) (datumToBitmap : δ → Call Rc σ β)
    (rangeToBitmap : Option (δ → δ → Call Rc σ β)) (i : Item δ) : Prop :=
  Computed B datumToBitmap rangeToBitmap (leavesItem i)
    (fun set => denoteItem max (fun d => set (.datum d)) (fun d1 d2 => set (.range d1 d2)) i)
    (exprToBitmapHelper B max datumToBitmap rangeToBitmap i)

private theorem exprComputed_all : ExprComputed B max datumToBitmap rangeToBitmap [.op .all] := by
  intro out
  have h : Computed B datumToBitmap rangeToBitmap [] (fun _ => B.bits out ∪ {i | i < max})
      (pure (B.union out (B.not B.init max))) := computed_nil (by simp)
  simpa [exprToBitmap, denoteLeaves, denote] using h

private theorem exprComputed_range {r : δ → δ → Call Rc σ β} (hr : rangeToBitmap = some r)
    (d1 d2 : δ) :
    ExprComputed B max datumToBitmap rangeToBitmap [.op .range, .datum d1, .datum d2] := by
  intro out
  subst hr
  have h : Computed B datumToBitmap (some r) [.range d1 d2]
      (fun set => B.bits out ∪ set (.range d1 d2))
      (r d1 d2 >>= fun tmp => pure (B.union out tmp)) := by
    refine (computed_leaf (.range d1 d2)).then ?_
    intro set b hb
    rw [B.bits_union, hb]
  simpa [exprToBitmap, denoteLeaves, denote] using h

private theorem exprComputed_not {i : Item δ}
    (hi : OperandComputed B max datumToBitmap rangeToBitmap i) :
    ExprComputed B max datumToBitmap rangeToBitmap [.op .not, i] := by
  intro out
  have h : Computed B datumToBitmap rangeToBitmap (leavesItem i)
      (fun set => B.bits out ∪ denoteLeaves max [.op .not, i] set)
      (exprToBitmapHelper B max datumToBitmap rangeToBitmap i >>= fun b1 =>
        pure (B.union out (B.not b1 max))) := by
    refine hi.then ?_
    intro set b hb
    rw [B.bits_union, B.bits_not, hb, denoteLeaves, denote]
  simpa [exprToBitmap] using h

private theorem exprComputed_binary {o : Op} {f : Set Nat → Set Nat → Set Nat} (ho : Binary o f)
    {i j : Item δ} (hi : OperandComputed B max datumToBitmap rangeToBitmap i)
    (hj : OperandComputed B max datumToBitmap rangeToBitmap j) :
    ExprComputed B max datumToBitmap rangeToBitmap [.op o, i, j] := by
  intro out
  obtain ⟨g, hg, hbits⟩ : ∃ g : β → β → β,
      (∀ b1 b2, (combine B o b1 b2 : Call Rc σ β) = pure (g b1 b2)) ∧
        ∀ b1 b2, B.bits (g b1 b2) = f (B.bits b1) (B.bits b2) := by
    cases ho with
    | and => exact ⟨B.and, fun _ _ => rfl, B.bits_and⟩
    | or => exact ⟨B.or, fun _ _ => rfl, B.bits_or⟩
    | xor => exact ⟨B.xor, fun _ _ => rfl, B.bits_xor⟩
  have heq : exprToBitmap B max datumToBitmap rangeToBitmap out [.op o, i, j] =
      exprToBitmapHelper B max datumToBitmap rangeToBitmap i >>= fun b1 =>
        exprToBitmapHelper B max datumToBitmap rangeToBitmap j >>= fun b2 =>
          pure (B.union out (g b1 b2)) := by
    have hunfold : exprToBitmap B max datumToBitmap rangeToBitmap out [.op o, i, j] =
        exprToBitmapHelper B max datumToBitmap rangeToBitmap i >>= fun b1 =>
          exprToBitmapHelper B max datumToBitmap rangeToBitmap j >>= fun b2 =>
            combine B o b1 b2 >>= fun tmp => pure (B.union out tmp) := by
      cases ho <;> simp only [exprToBitmap]
    simp only [hunfold, hg, call_pure_bind]
  have hset : ∀ set, denoteLeaves max [.op o, i, j] set =
      f (denoteItem max (fun d => set (.datum d)) (fun d1 d2 => set (.range d1 d2)) i)
        (denoteItem max (fun d => set (.datum d)) (fun d1 d2 => set (.range d1 d2)) j) := by
    intro set
    cases ho <;> simp only [denoteLeaves, denote]
  have hne : o ≠ .range := by
    cases ho <;> simp
  rw [heq, leaves_pair hne]
  refine hi.both hj ?_
  intro set b b' hb hb'
  rw [B.bits_union, hbits, hb, hb', hset]

private theorem loopComputed_nil : LoopComputed B max datumToBitmap rangeToBitmap [] := by
  intro tmp
  have h : Computed B datumToBitmap rangeToBitmap [] (fun _ => B.bits tmp ∪ ∅) (pure tmp) :=
    computed_nil (by simp)
  simpa [exprToBitmapLoop, denoteList] using h

/-- What is done with the bitmap that was computed first, when the rest starts from it. -/
theorem Computed.andThen {xs ys : List (Leaf δ)} {value : (Leaf δ → Set Nat) → Set Nat}
    {c : Call Rc σ β} {k : β → Call Rc σ β} (value' : Set Nat → (Leaf δ → Set Nat) → Set Nat)
    (h : Computed B datumToBitmap rangeToBitmap xs value c)
    (hk : ∀ b, Computed B datumToBitmap rangeToBitmap ys (value' (B.bits b)) (k b)) :
    Computed B datumToBitmap rangeToBitmap (xs ++ ys) (fun set => value' (value set) set)
      (c >>= k) := by
  obtain ⟨compute, rfl, hbits⟩ := h
  choose compute' hk hbits' using hk
  refine ⟨fun bs => compute' (compute (bs.take xs.length)) (bs.drop xs.length), ?_, ?_⟩
  · rw [collect_append]
    simp only [Call.bind_assoc, call_pure_bind]
    apply collect_bind_congr
    intro bs hbs
    rw [hk]
    congr 1
    funext cs
    rw [List.take_left' hbs, List.drop_left' hbs]
  · intro set bs hbs
    have htake : (bs.take xs.length).map B.bits = xs.map set := by
      rw [List.map_take, hbs, List.map_append, List.take_left' (by simp)]
    have hdrop : (bs.drop xs.length).map B.bits = ys.map set := by
      rw [List.map_drop, hbs, List.map_append, List.drop_left' (by simp)]
    rw [hbits' _ set _ hdrop, hbits set _ htake]

private theorem loopComputed_cons {i : Item δ} {rest : List (Item δ)} (hne : i ≠ .op .range)
    (hi : OperandComputed B max datumToBitmap rangeToBitmap i)
    (hrest : LoopComputed B max datumToBitmap rangeToBitmap rest) :
    LoopComputed B max datumToBitmap rangeToBitmap (i :: rest) := by
  intro tmp
  rw [leaves_cons hne]
  have hnext : ∀ b, Computed B datumToBitmap rangeToBitmap (leaves rest)
      (fun set => B.bits tmp ∪ B.bits b ∪
        denoteList max (fun d => set (.datum d)) (fun d1 d2 => set (.range d1 d2)) rest)
      (exprToBitmapLoop B max datumToBitmap rangeToBitmap (B.or tmp b) rest) := by
    intro b
    have hb := hrest (B.or tmp b)
    rw [B.bits_or] at hb
    exact hb
  have h := Computed.andThen (fun S set => B.bits tmp ∪ S ∪
    denoteList max (fun d => set (.datum d)) (fun d1 d2 => set (.range d1 d2)) rest) hi hnext
  simpa [exprToBitmapLoop, denoteList, Set.union_assoc] using h

/-- A list without operator is evaluated by the loop. -/
private theorem exprComputed_of_loop {items : List (Item δ)} (hop : ∀ o tail, items ≠ .op o :: tail)
    (h : LoopComputed B max datumToBitmap rangeToBitmap items) :
    ExprComputed B max datumToBitmap rangeToBitmap items := by
  intro out
  cases items with
  | nil =>
    have hnil : Computed B datumToBitmap rangeToBitmap [] (fun _ => B.bits out ∪ ∅) (pure out) :=
      computed_nil (by simp)
    simpa [exprToBitmap, denoteLeaves, denote] using hnil
  | cons i rest =>
    have hi : ∀ o, i ≠ .op o := fun o he => hop o rest (by rw [he])
    have heq : exprToBitmap B max datumToBitmap rangeToBitmap out (i :: rest) =
        exprToBitmapLoop B max datumToBitmap rangeToBitmap B.init (i :: rest) >>= fun tmp =>
          pure (B.union out tmp) := by
      rw [exprToBitmapLoop, Call.bind_assoc, exprToBitmap]
      all_goals simp [hi]
    rw [heq]
    refine (h B.init).then ?_
    intro set b hb
    have hset : denoteLeaves max (i :: rest) set =
        denoteList max (fun d => set (.datum d)) (fun d1 d2 => set (.range d1 d2)) (i :: rest) := by
      rw [denoteLeaves, denoteList, denote]
      all_goals simp [hi]
    rw [B.bits_union, hb, hset, B.bits_init, Set.empty_union]

/-- The evaluation of a well-formed expression reads its leaves and computes what it denotes. -/
theorem exprComputed {ranges : Bool} (hrange : ranges = true → ∃ r, rangeToBitmap = some r)
    (l : List (Item δ)) (hl : wellFormed ranges l = true) :
    ExprComputed B max datumToBitmap rangeToBitmap l := by
  revert hl
  refine wellFormed.induct
    (fun l => wellFormed ranges l = true → ExprComputed B max datumToBitmap rangeToBitmap l)
    (fun l => operandsFormed ranges l = true → LoopComputed B max datumToBitmap rangeToBitmap l)
    (fun i => operandFormed ranges i = true → OperandComputed B max datumToBitmap rangeToBitmap i)
    ?datum ?list ?other ?all ?range ?not ?and ?or ?xor ?op ?empty ?plain ?nil ?cons l
  case all => exact fun _ => exprComputed_all
  case range =>
    intro d1 d2 hl
    rw [wellFormed] at hl
    obtain ⟨r, hr⟩ := hrange hl
    exact exprComputed_range hr d1 d2
  case not =>
    intro i ih hl
    rw [wellFormed] at hl
    exact exprComputed_not (ih hl)
  case and =>
    intro i j ihi ihj hl
    rw [wellFormed, Bool.and_eq_true] at hl
    exact exprComputed_binary Binary.and (ihi hl.1) (ihj hl.2)
  case or =>
    intro i j ihi ihj hl
    rw [wellFormed, Bool.and_eq_true] at hl
    exact exprComputed_binary Binary.or (ihi hl.1) (ihj hl.2)
  case xor =>
    intro i j ihi ihj hl
    rw [wellFormed, Bool.and_eq_true] at hl
    exact exprComputed_binary Binary.xor (ihi hl.1) (ihj hl.2)
  case op =>
    intro o tail hall hrange hnot hand hor hxor hl
    rw [wellFormed] at hl
    · cases hl
    all_goals assumption
  case empty => exact fun _ => exprComputed_of_loop (by simp) loopComputed_nil
  case plain =>
    intro i rest _ _ _ _ _ _ hop ihi ihrest hl
    have hi : ∀ o, i ≠ .op o := hop
    rw [wellFormed, Bool.and_eq_true] at hl
    · refine exprComputed_of_loop ?_ (loopComputed_cons (hi .range) (ihi hl.1) (ihrest hl.2))
      intro o tail heq
      cases heq
      exact hi o rfl
    all_goals simp [hi]
  case nil => exact fun _ => loopComputed_nil
  case cons =>
    intro i rest ihi ihrest hl
    rw [operandsFormed, Bool.and_eq_true] at hl
    refine loopComputed_cons ?_ (ihi hl.1) (ihrest hl.2)
    intro heq
    rw [heq] at hl
    simp [operandFormed] at hl
  case datum =>
    intro d _
    have h : Computed B datumToBitmap rangeToBitmap [.datum d] (fun set => set (.datum d))
        (datumToBitmap d) := computed_leaf (.datum d)
    simpa [OperandComputed, exprToBitmapHelper, denoteItem] using h
  case list =>
    intro l ih hl
    rw [operandFormed] at hl
    have h := ih hl B.init
    rw [B.bits_init] at h
    simpa [OperandComputed, exprToBitmapHelper, denoteItem, denoteLeaves] using h
  case other =>
    intro i hdatum hlist hl
    rw [operandFormed] at hl
    · cases hl
    all_goals assumption

/-- What an expression denotes depends on what its leaves stand for. -/
theorem denoteLeaves_congr {ranges : Bool} (l : List (Item δ)) (hl : wellFormed ranges l = true)
    {set set' : Leaf δ → Set Nat} (h : ∀ x ∈ leaves l, set x = set' x) :
    denoteLeaves max l set = denoteLeaves max l set' := by
  -- over sets as bitmaps, what is computed from the leaves is what the expression denotes
  have hcomputed : ExprComputed setBitmap max (fun _ => (Call.crash : Call Rc Unit (Set Nat)))
      (some fun _ _ => Call.crash) l := exprComputed (fun _ => ⟨_, rfl⟩) l hl
  obtain ⟨compute, -, hvalue⟩ := hcomputed ∅
  have hbits : ∀ xs : List (Set Nat), xs.map setBitmap.bits = xs := by
    intro xs
    simp [funext bits_setBitmap]
  have hmap : (leaves l).map set = (leaves l).map set' := List.map_congr_left h
  have hset := hvalue set _ (hbits _)
  have hset' := hvalue set' _ (hbits _)
  rw [hmap, hset'] at hset
  simpa [bits_setBitmap] using hset.symm

/-- The leaves are of declarations that the expression mentions. -/
theorem leaves_mentioned (l : List (Item δ)) : ∀ x ∈ leaves l, ∀ d ∈ x.datums, d ∈ mentioned l := by
  refine leaves.induct
    (fun l => ∀ x ∈ leaves l, ∀ d ∈ x.datums, d ∈ mentioned l)
    (fun i => ∀ x ∈ leavesItem i, ∀ d ∈ x.datums, d ∈ mentionedItem i)
    ?datum ?list ?other ?nil ?range ?cons l
  case nil => simp
  case range =>
    intro d1 d2 rest x hx d hd
    rw [leaves, List.mem_singleton] at hx
    subst hx
    simp only [Leaf.datums, List.mem_cons, List.not_mem_nil, or_false] at hd
    rcases hd with rfl | rfl
    · simp [mentioned_cons, mentionedItem]
    · simp [mentioned_cons, mentionedItem]
  case cons =>
    intro i rest hne ihi ihrest x hx d hd
    rw [leaves] at hx
    · rw [mentioned_cons, List.mem_append]
      rcases List.mem_append.mp hx with hx | hx
      · exact Or.inl (ihi x hx d hd)
      · exact Or.inr (ihrest x hx d hd)
    · exact hne
  case datum =>
    intro d x hx d' hd'
    rw [leavesItem, List.mem_singleton] at hx
    subst hx
    simpa [Leaf.datums, mentionedItem] using hd'
  case list =>
    intro l ih x hx d hd
    rw [leavesItem] at hx
    rw [mentionedItem]
    exact ih x hx d hd
  case other =>
    intro i hdatum hlist x hx
    rw [leavesItem] at hx
    · cases hx
    all_goals assumption

/-- Only expressions that may have ranges have one as a leaf. -/
theorem ranges_of_leaf {ranges : Bool} {d1 d2 : δ} (l : List (Item δ))
    (hl : wellFormed ranges l = true) (h : .range d1 d2 ∈ leaves l) : ranges = true := by
  have htwo : ∀ {o : Op} {i j : Item δ}, o ≠ .range → .range d1 d2 ∈ leaves [.op o, i, j] →
      .range d1 d2 ∈ leavesItem i ∨ .range d1 d2 ∈ leavesItem j := by
    intro o i j ho h
    rw [leaves_pair ho] at h
    exact List.mem_append.mp h
  revert hl h
  refine wellFormed.induct
    (fun l => wellFormed ranges l = true → .range d1 d2 ∈ leaves l → ranges = true)
    (fun l => operandsFormed ranges l = true → .range d1 d2 ∈ leaves l → ranges = true)
    (fun i => operandFormed ranges i = true → .range d1 d2 ∈ leavesItem i → ranges = true)
    ?datum ?list ?other ?all ?range ?not ?and ?or ?xor ?op ?empty ?plain ?nil ?cons l
  case all => simp
  case range =>
    intro d1' d2' hl _
    rw [wellFormed] at hl
    exact hl
  case not =>
    intro i ih hl h
    rw [wellFormed] at hl
    exact ih hl (by simpa using h)
  case and =>
    intro i j ihi ihj hl h
    rw [wellFormed, Bool.and_eq_true] at hl
    exact (htwo (by simp) h).elim (ihi hl.1) (ihj hl.2)
  case or =>
    intro i j ihi ihj hl h
    rw [wellFormed, Bool.and_eq_true] at hl
    exact (htwo (by simp) h).elim (ihi hl.1) (ihj hl.2)
  case xor =>
    intro i j ihi ihj hl h
    rw [wellFormed, Bool.and_eq_true] at hl
    exact (htwo (by simp) h).elim (ihi hl.1) (ihj hl.2)
  case op =>
    intro o tail hall hrange hnot hand hor hxor hl
    rw [wellFormed] at hl
    · cases hl
    all_goals assumption
  case empty => simp
  case plain =>
    intro i rest _ _ _ _ _ _ hop ihi ihrest hl h
    have hi : ∀ o, i ≠ .op o := hop
    rw [wellFormed, Bool.and_eq_true] at hl
    · rw [leaves_cons (hi .range), List.mem_append] at h
      exact h.elim (ihi hl.1) (ihrest hl.2)
    all_goals simp [hi]
  case nil => simp
  case cons =>
    intro i rest ihi ihrest hl h
    rw [operandsFormed, Bool.and_eq_true] at hl
    have hi : i ≠ .op .range := by
      intro heq
      rw [heq] at hl
      simp [operandFormed] at hl
    rw [leaves_cons hi, List.mem_append] at h
    exact h.elim (ihi hl.1) (ihrest hl.2)
  case datum => simp
  case list =>
    intro l ih hl h
    rw [operandFormed] at hl
    rw [leavesItem] at h
    exact ih hl h
  case other =>
    intro i hdatum hlist hl
    rw [operandFormed] at hl
    · cases hl
    all_goals assumption

end Evaluation

end Cil.Expr
