-- The nodes of the typed core (`node.rs`), as the trees that the arena holds,
-- and the walk over such a tree with a walker's hooks (`walker.rs`).
import PaideiaAs.Diagnostics.Diagnostic

/-- A node id: a 32-bit number that is not zero. -/
structure paideia_as_ir.IrNodeId where
  val : UInt32
  nonzero : val ≠ 0
  deriving DecidableEq

namespace paideia_as_ir.IrNodeId

def new (raw : UInt32) : Option IrNodeId := if h : raw ≠ 0 then some ⟨raw, h⟩ else none

def get (id : IrNodeId) : UInt32 := id.val

theorem one_ne : (1 : UInt32) ≠ 0 := by decide

theorem two_ne : (2 : UInt32) ≠ 0 := by decide

theorem three_ne : (3 : UInt32) ≠ 0 := by decide

theorem four_ne : (4 : UInt32) ≠ 0 := by decide

@[simp] theorem new_get (id : IrNodeId) : new id.get = some id := by
  unfold new get
  rw [dif_pos id.nonzero]

end paideia_as_ir.IrNodeId

namespace paideia_as_ir

open paideia_as_diagnostics

/-! ## Nodes -/

inductive IrKind where
  | Module
  | Functor
  | Let
  | Lambda
  | App
  | Var
  | Literal
  | StringLiteral
  | Perform
  | Handle
  | Action
  | Unsafe
  | Load
  | Store
  | Placeholder
  | RecordCons
  | FieldAccess
  | EnumCons
  | EnumDiscriminant
  | Loop
  | Break
  | Continue
  | While
  | Match
  | Branch
  | Borrow
  | BorrowMut
  | Deref
  | RawInstruction
  | Label
  | BitNot
  | Neg
  | Cast
  | ArrayLit
  | InlineBytes
  | ClosureCons
  | HandlerValue
  deriving DecidableEq

structure IrNodeData where
  kind : IrKind
  span : Span
  deriving DecidableEq

/-- A node of the arena with the subtrees of its children. -/
inductive IrTree where
  | node (id : IrNodeId) (data : IrNodeData) (children : List IrTree)

namespace IrTree

def kind : IrTree → IrKind
  | .node _ data _ => data.kind

theorem node_induction {motive : IrTree → Prop}
    (node : ∀ id data children, (∀ c ∈ children, motive c) → motive (.node id data children)) :
    ∀ t, motive t := by
  intro t
  refine IrTree.rec (motive_1 := motive) (motive_2 := fun ts => ∀ c ∈ ts, motive c) ?_ ?_ ?_ t
  · intro id data children ih
    exact node id data children ih
  · intro c hc
    cases hc
  · intro t ts iht ihts c hc
    rcases List.mem_cons.mp hc with rfl | hc
    · exact iht
    · exact ihts c hc

end IrTree

/-! ## The walk -/

/-- The hooks of a walker, over the state that they change. -/
structure IrWalker (σ : Type) where
  pre_visit : IrNodeId → IrNodeData → σ → σ
  post_visit : IrNodeId → IrNodeData → σ → σ
  enter_match_arm : Nat → σ → σ := fun _ s => s
  exit_match_arm : Nat → σ → σ := fun _ s => s
  enter_branch_then : σ → σ := id
  exit_branch_then : σ → σ := id
  enter_branch_else : σ → σ := id
  exit_branch_else : σ → σ := id

section

variable {σ : Type} (w : IrWalker σ)

mutual

def walk : IrTree → σ → σ
  | .node id data children, s => w.post_visit id data (walk_below id data children s)

/-- The walk of a node up to its `post_visit`. -/
def walk_below (id : IrNodeId) (data : IrNodeData) : List IrTree → σ → σ
  | [], s => w.pre_visit id data s
  | first :: rest, s =>
    let s := walk first (w.pre_visit id data s)
    match data.kind with
    | .Match => walk_arms 0 rest s
    | .Handle =>
      -- the clauses are left to a later phase: only handler and body are walked
      walk_body rest s
    | .Branch => walk_branches rest s
    | _ => walk_all rest s

def walk_all : List IrTree → σ → σ
  | [], s => s
  | t :: ts, s => walk_all ts (walk t s)

def walk_arms (arm_index : Nat) : List IrTree → σ → σ
  | [], s => s
  | arm :: arms, s =>
    walk_arms (arm_index + 1) arms
      (w.exit_match_arm arm_index (walk arm (w.enter_match_arm arm_index s)))

def walk_body : List IrTree → σ → σ
  | [], s => s
  | body :: _, s => walk body s

def walk_branches : List IrTree → σ → σ
  | [], s => s
  | thenArm :: rest, s =>
    walk_else rest (w.exit_branch_then (walk thenArm (w.enter_branch_then s)))

def walk_else : List IrTree → σ → σ
  | [], s => s
  | elseArm :: _, s => w.exit_branch_else (walk elseArm (w.enter_branch_else s))

end

end

/-! ## The nodes that a walk reaches -/

/-- The children that are walked: the first two of a `Handle`, the first three
of a `Branch`, and all others. -/
def walked {α : Type} (kind : IrKind) (children : List α) : List α :=
  match kind with
  | .Handle => children.take 2
  | .Branch => children.take 3
  | _ => children

theorem mem_walked {α : Type} {kind : IrKind} {children : List α} {c : α}
    (h : c ∈ walked kind children) : c ∈ children := by
  unfold walked at h
  split at h
  · exact List.mem_of_mem_take h
  · exact List.mem_of_mem_take h
  · exact h

theorem walked_map {α β : Type} (f : α → β) (kind : IrKind) (children : List α) :
    walked kind (children.map f) = (walked kind children).map f := by
  unfold walked
  split
  · rw [List.map_take]
  · rw [List.map_take]
  · rfl

/-- A walker that does nothing between the arms of a match or a branch. -/
structure Plain {σ : Type} (w : IrWalker σ) : Prop where
  enter_match : ∀ i s, w.enter_match_arm i s = s
  exit_match : ∀ i s, w.exit_match_arm i s = s
  enter_then : ∀ s, w.enter_branch_then s = s
  exit_then : ∀ s, w.exit_branch_then s = s
  enter_else : ∀ s, w.enter_branch_else s = s
  exit_else : ∀ s, w.exit_branch_else s = s

section

variable {σ : Type} {w : IrWalker σ}

theorem Plain.walk_arms (hw : Plain w) (arms : List IrTree) :
    ∀ i s, paideia_as_ir.walk_arms w i arms s = walk_all w arms s := by
  induction arms with
  | nil =>
    intro i s
    rfl
  | cons arm arms ih =>
    intro i s
    unfold paideia_as_ir.walk_arms walk_all
    rw [hw.enter_match, hw.exit_match]
    exact ih ..

theorem Plain.walk_branches (hw : Plain w) (rest : List IrTree) (s : σ) :
    paideia_as_ir.walk_branches w rest s = walk_all w (rest.take 2) s := by
  match rest with
  | [] => rfl
  | [thenArm] =>
    unfold paideia_as_ir.walk_branches
    rw [hw.enter_then, hw.exit_then]
    rfl
  | thenArm :: elseArm :: rest =>
    unfold paideia_as_ir.walk_branches walk_else
    rw [hw.enter_then, hw.exit_then, hw.enter_else, hw.exit_else]
    rfl

theorem walk_body_eq (rest : List IrTree) (s : σ) :
    walk_body w rest s = walk_all w (rest.take 1) s := by
  match rest with
  | [] => rfl
  | _ :: _ => rfl

theorem Plain.walk_below (hw : Plain w) (id : IrNodeId) (data : IrNodeData)
    (children : List IrTree) (s : σ) :
    paideia_as_ir.walk_below w id data children s
      = walk_all w (walked data.kind children) (w.pre_visit id data s) := by
  cases children with
  | nil =>
    unfold paideia_as_ir.walk_below walked
    split <;> rfl
  | cons first rest =>
    unfold paideia_as_ir.walk_below walked
    dsimp only
    split
    · rename_i hk
      rw [hw.walk_arms, hk]
      rfl
    · rename_i hk
      rw [walk_body_eq, hk]
      rfl
    · rename_i hk
      rw [hw.walk_branches, hk]
      rfl
    · rename_i hmatch hhandle hbranch
      split
      · rename_i hk
        exact absurd hk hhandle
      · rename_i hk
        exact absurd hk hbranch
      · rfl

theorem Plain.walk (hw : Plain w) (id : IrNodeId) (data : IrNodeData) (children : List IrTree)
    (s : σ) : paideia_as_ir.walk w (.node id data children) s
      = w.post_visit id data (walk_all w (walked data.kind children) (w.pre_visit id data s)) := by
  unfold paideia_as_ir.walk
  rw [hw.walk_below]

end

end paideia_as_ir
