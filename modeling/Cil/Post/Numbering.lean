/- Cil/Post/Numbering
   digest: The values of types and roles and what they denote. -/

import Mathlib.Logic.Function.Basic
import Cil.Tree

set_option autoImplicit false
set_option relaxedAutoImplicit false

namespace Cil.Post.Numbering

/-- A node of the resolved tree, as far as types and roles go. A declaration has the identity
of its node and its datum; several nodes may declare one datum. A statement has the types and
roles it refers to, directly or inside its expressions. -/
inductive NodeData (τ ρ : Type)
  | macroDef
  | block (isAbstract : Bool)
  | type (node : Nat) (t : τ)
  | role (node : Nat) (r : ρ)
  | statement (types : List τ) (roles : List ρ)
  | other
  deriving DecidableEq, Repr

namespace NodeData

variable {τ ρ : Type}

/-- The nodes whose children are not visited. -/
def skipHead : NodeData τ ρ → Bool
  | .macroDef => true
  | .block isAbstract => isAbstract
  | _ => false

/-- The nodes with a symbol table of their own. -/
def isSpace : NodeData τ ρ → Bool
  | .macroDef => true
  | .block _ => true
  | _ => false

def typeDecl : NodeData τ ρ → Option (Nat × τ)
  | .type n t => some (n, t)
  | _ => none

def roleDecl : NodeData τ ρ → Option (Nat × ρ)
  | .role n r => some (n, r)
  | _ => none

def types : NodeData τ ρ → List τ
  | .statement ts _ => ts
  | _ => []

def roles : NodeData τ ρ → List ρ
  | .statement _ rs => rs
  | _ => []

end NodeData

variable {α τ ρ : Type}

/-- The datums of the declarations of one kind after resolution: the list `nodes` of each, the
blocks and macros around the symbol table it is in, and what its field `value` reads at first. The
copier puts a declaration over a datum of another kind, so `nodes` may have more than the
declarations of this kind. What a statement refers to has such a declaration as its first node. -/
structure Declared (decl : NodeData τ ρ → Option (Nat × α)) (refers : NodeData τ ρ → List α)
    (ast : Tree (NodeData τ ρ)) where
  nodes : α → List Nat
  space : α → List (NodeData τ ρ)
  initial : α → Nat
  distinct : (ast.nodes.filterMap fun n => (decl n.2).map Prod.fst).Nodup
  mem_nodes : ∀ above d n x, (above, d) ∈ ast.nodes → decl d = some (n, x) → n ∈ nodes x
  same_space : ∀ above d n x, (above, d) ∈ ast.nodes → decl d = some (n, x) →
    above.filter NodeData.isSpace = space x
  alive : ∀ above d, (above, d) ∈ ast.nodes → ∀ x ∈ refers d, ∃ n above' d',
    (nodes x).head? = some n ∧ (above', d') ∈ ast.nodes ∧ decl d' = some (n, x)

/-- What `cil_resolve_ast` hands to `cil_post_db`. -/
structure Database (τ ρ : Type) where
  ast : Tree (NodeData τ ρ)
  types : Declared NodeData.typeDecl NodeData.types ast
  roles : Declared NodeData.roleDecl NodeData.roles ast

/-- The fields `value` of the datums of one kind, and their number. -/
structure Values (α : Type) where
  value : α → Nat
  num : Nat

/-- What the two declarations share in `__cil_post_db_count_helper`: only the first node of a
datum counts. -/
def Values.count [DecidableEq α] (nodes : α → List Nat) (s : Values α) (n : Nat) (x : α) :
    Values α :=
  if (nodes x).head? = some n then ⟨Function.update s.value x s.num, s.num + 1⟩ else s

/-- The counting and the arrays of `cil_post_db`; an entry of an array is none while it was not
written. -/
structure State (τ ρ : Type) where
  types : Values τ
  roles : Values ρ
  valToType : Nat → Option τ
  valToRole : Nat → Option ρ

def State.init (db : Database τ ρ) : State τ ρ where
  types := ⟨db.types.initial, 0⟩
  roles := ⟨db.roles.initial, 0⟩
  valToType _ := none
  valToRole _ := none

section Passes

variable [DecidableEq τ] [DecidableEq ρ] (db : Database τ ρ)

/-- `__cil_post_db_count_helper`. -/
def postDbCountHelper (s : State τ ρ) : NodeData τ ρ → State τ ρ
  | .type n t => { s with types := s.types.count db.types.nodes n t }
  | .role n r => { s with roles := s.roles.count db.roles.nodes n r }
  | _ => s

/-- `__cil_post_db_array_helper`, which does not ask which node of a datum it is at. -/
def postDbArrayHelper (s : State τ ρ) : NodeData τ ρ → State τ ρ
  | .type _ t => { s with valToType := Function.update s.valToType (s.types.value t) (some t) }
  | .role _ r => { s with valToRole := Function.update s.valToRole (s.roles.value r) (some r) }
  | _ => s

/-- The first two walks of `cil_post_db`. -/
def postDb : State τ ρ :=
  let visited := db.ast.walk NodeData.skipHead
  visited.foldl postDbArrayHelper (visited.foldl (postDbCountHelper db) (State.init db))

end Passes

end Cil.Post.Numbering
