-- The walker that infers the effect row of a tree (`effect_walker.rs`), and the
-- events of a tree that decide the row that it ends with. The position index,
-- which the walk writes and never reads, is left out.
import PaideiaAs.Elaborator.EffectInfer
import PaideiaAs.Ir.Node

namespace paideia_as_elaborator.effect_walker

open paideia_as_diagnostics paideia_as_effects paideia_as_ir

/-! ## The walker -/

/-- The tables that are injected before a walk. No walk changes them. -/
structure Injected where
  perform_ops : List (IrNodeId × String × String) := []
  handle_effects : List (IrNodeId × EffectId) := []
  call_declared_rows : List (IrNodeId × EffectRow) := []
  call_infer_sites : List (IrNodeId × EffectRow × Option EffectRow) := []
  handler_impls : List (IrNodeId × List HandlerImpl) := []
  effect_decls : List (String × List (String × SignatureId)) := []
  pure_contexts : List IrNodeId := []
  handler_op_bodies : List (IrNodeId × List IrNodeId) := []

namespace Injected

def inject_perform (w : Injected) (node_id : IrNodeId) (effect_name op_name : String) : Injected :=
  { w with perform_ops := Assoc.insert w.perform_ops node_id (effect_name, op_name) }

def inject_handle_effect (w : Injected) (node_id : IrNodeId) (effect_id : EffectId) : Injected :=
  { w with handle_effects := Assoc.insert w.handle_effects node_id effect_id }

def inject_call_for_inference (w : Injected) (node_id : IrNodeId) (callee_row : EffectRow)
    (caller_explicit : Option EffectRow) : Injected :=
  { w with call_infer_sites :=
      Assoc.insert w.call_infer_sites node_id (callee_row, caller_explicit) }

end Injected

structure HandlerInfo where
  effect : EffectId
  ops : List (String × IrNodeId)
  ret : Option IrNodeId
  finally_ : Option IrNodeId

/-- What a walk changes. `emitted` is the sink of the context. -/
structure EffectRowWalker where
  current_row : EffectRow := .empty
  /-- The innermost handled effect comes last. -/
  handle_stack : List EffectId := []
  /-- The row saved last comes first. -/
  row_stack : List EffectRow := []
  handler_side_table : List (IrNodeId × HandlerInfo) := []
  next_fresh_row_var : RowVarId := ⟨1, Nat.zero_lt_one⟩
  emitted : List paideia_as_diagnostics.Diagnostic := []

namespace EffectRowWalker

def new : EffectRowWalker := {}

def emit (s : EffectRowWalker) (diags : List paideia_as_diagnostics.Diagnostic) : EffectRowWalker :=
  { s with emitted := s.emitted ++ diags }

def fresh_row_var (s : EffectRowWalker) : RowVarId × EffectRowWalker :=
  (s.next_fresh_row_var, { s with next_fresh_row_var := ⟨s.next_fresh_row_var.num + 1, by omega⟩ })

end EffectRowWalker

/-- The effect that a node id stands for. -/
def effect_of (id : IrNodeId) : EffectId := ⟨id.get.toNat, by
  have := id.nonzero
  unfold IrNodeId.get
  rw [Nat.pos_iff_ne_zero]
  intro h
  exact this (UInt32.toNat_inj.mp h)⟩

variable (w : Injected)

def pre_visit (id : IrNodeId) (node : IrNodeData) (s : EffectRowWalker) : EffectRowWalker :=
  match node.kind with
  | .Perform =>
    match w.perform_ops.lookup id with
    | some _ => { s with current_row := compose_rows s.current_row (perform_row (effect_of id)) }
    | none => s
  | .Handle =>
    match w.handle_effects.lookup id with
    | some handled_id => { s with handle_stack := s.handle_stack ++ [handled_id] }
    | none => s
  | .Lambda => { s with row_stack := s.current_row :: s.row_stack, current_row := .empty }
  | _ => s

/-- The operations of a handler with the nodes of their bodies. An operation
without a body has the `Handle` node for it. -/
def handler_ops (id : IrNodeId) : List (String × IrNodeId) :=
  match w.handler_impls.lookup id with
  | some impls =>
    let bodies := (w.handler_op_bodies.lookup id).getD []
    impls.mapIdx fun i imp => (imp.op_name, (bodies[i]?).getD id)
  | none => []

def check_handler_at (id : IrNodeId) (handled_id : EffectId) (span : Span) :
    List paideia_as_diagnostics.Diagnostic :=
  match w.handler_impls.lookup id with
  | some impls =>
    -- the number of the effect stands for its name
    let effect_name := toString handled_id.num
    match w.effect_decls.lookup effect_name with
    | some declared_ops => check_handler effect_name declared_ops impls span
    | none => []
  | none => []

def post_handle (id : IrNodeId) (node : IrNodeData) (s : EffectRowWalker) : EffectRowWalker :=
  match w.handle_effects.lookup id with
  | some handled_id =>
    let s := s.emit (check_handler_at w id handled_id node.span)
    let s := { s with handler_side_table :=
                        Assoc.insert s.handler_side_table id ⟨handled_id, handler_ops w id, none, none⟩ }
    let s := { s with current_row := handle_row s.current_row handled_id }
    let s :=
      if !s.handle_stack.isEmpty then
        s.emit (check_handler_order (.from_ids s.handle_stack none) (.from_ids [handled_id] none)
          node.span)
      else s
    { s with handle_stack := s.handle_stack.dropLast }
  | none => s

def post_lambda (id : IrNodeId) (node : IrNodeData) (s : EffectRowWalker) : EffectRowWalker :=
  let s := if w.pure_contexts.contains id then s.emit (check_pure s.current_row node.span) else s
  match s.row_stack with
  | saved_row :: rest => { s with current_row := saved_row, row_stack := rest }
  | [] => s

def check_declared_row (id : IrNodeId) (node : IrNodeData) (s : EffectRowWalker) :
    EffectRowWalker :=
  match w.call_declared_rows.lookup id with
  | some declared_row =>
    let (fresh_var, s) := s.fresh_row_var
    let instantiated := instantiate_fresh_tail declared_row fresh_var
    s.emit (unify_call_row instantiated s.current_row node.span).diagnostics
  | none => s

def infer_call (id : IrNodeId) (node : IrNodeData) (s : EffectRowWalker) : EffectRowWalker :=
  match w.call_infer_sites.lookup id with
  | some (callee_row, caller_explicit) =>
    let (fresh_var, s) := s.fresh_row_var
    let instantiated := instantiate_fresh_tail callee_row fresh_var
    let outcome := infer_or_check_call_row caller_explicit instantiated s.current_row node.span
    { s.emit outcome.diagnostics with current_row := outcome.row }
  | none => s

def post_visit (id : IrNodeId) (node : IrNodeData) (s : EffectRowWalker) : EffectRowWalker :=
  match node.kind with
  | .Handle => post_handle w id node s
  | .Lambda => post_lambda w id node s
  | .App => infer_call w id node (check_declared_row w id node s)
  | .Module => s.emit (check_no_unhandled s.current_row node.span)
  | _ => s

def effect_row_walker : IrWalker EffectRowWalker where
  pre_visit := pre_visit w
  post_visit := post_visit w

theorem plain : Plain (effect_row_walker w) where
  enter_match _ _ := rfl
  exit_match _ _ := rfl
  enter_then _ := rfl
  exit_then _ := rfl
  enter_else _ := rfl
  exit_else _ := rfl

/-! ## Events -/

/-- What changes the row of a context. -/
inductive Event where
  | performs (e : EffectId)
  | calls (row : EffectRow)
  | handled (e : EffectId)
  deriving DecidableEq

def Event.act (row : EffectRow) : Event → EffectRow
  | .performs e => compose_rows row (perform_row e)
  | .calls callee_row => compose_rows row callee_row
  | .handled e => handle_row row e

/-- The event at the start of a node. -/
def first_events (id : IrNodeId) (node : IrNodeData) : List Event :=
  if node.kind = .Perform ∧ (w.perform_ops.lookup id).isSome then [.performs (effect_of id)]
  else []

/-- The event at the end of a node. An explicit caller keeps its row at a call. -/
def last_events (id : IrNodeId) (node : IrNodeData) : List Event :=
  match node.kind with
  | .Handle => ((w.handle_effects.lookup id).map Event.handled).toList
  | .App =>
    match w.call_infer_sites.lookup id with
    | some (callee_row, none) => [.calls callee_row]
    | _ => []
  | _ => []

mutual

/-- The events of a tree in the order of the walk. What a lambda does stays
inside it. -/
def events : IrTree → List Event
  | .node id node children =>
    if node.kind = .Lambda then []
    else first_events w id node ++ (walked node.kind (events_each children)).flatten
      ++ last_events w id node

def events_each : List IrTree → List (List Event)
  | [] => []
  | c :: cs => events c :: events_each cs

end

variable {w}

theorem events_each_eq (children : List IrTree) :
    events_each w children = children.map (events w) := by
  induction children with
  | nil => rfl
  | cons c cs ih =>
    unfold events_each
    rw [ih, List.map_cons]

theorem events_node {id : IrNodeId} {node : IrNodeData} {children : List IrTree}
    (h : node.kind ≠ .Lambda) : events w (.node id node children)
      = first_events w id node ++ ((walked node.kind children).map (events w)).flatten
        ++ last_events w id node := by
  rw [events, if_neg h, events_each_eq, walked_map]

variable (id : IrNodeId)

variable (node : IrNodeData)

theorem performs_notMem_last_events {e : EffectId} : .performs e ∉ last_events w id node := by
  unfold last_events
  split
  · simp
  · split <;> simp
  · simp

/-! ## The row after a walk -/

/-- The callees' rows are closed. -/
def ClosedSites (w : Injected) : Prop :=
  ∀ id callee_row caller_explicit,
    w.call_infer_sites.lookup id = some (callee_row, caller_explicit) → callee_row.tail = none

/-- One state holds what the other holds but for the row, which the events
gave. -/
structure After (evs : List Event) (s s' : EffectRowWalker) : Prop where
  row : s'.current_row = evs.foldl Event.act s.current_row
  row_stack : s'.row_stack = s.row_stack

theorem After.trans {evs evs' : List Event} {s s' s'' : EffectRowWalker} (h : After evs s s')
    (h' : After evs' s' s'') : After (evs ++ evs') s s'' where
  row := by rw [h'.row, h.row, List.foldl_append]
  row_stack := h'.row_stack.trans h.row_stack

theorem After.nil {s s' : EffectRowWalker} (hrow : s'.current_row = s.current_row)
    (hstack : s'.row_stack = s.row_stack) : After [] s s' := ⟨hrow, hstack⟩

theorem after_pre_visit (s : EffectRowWalker)
    (h : node.kind ≠ .Lambda) : After (first_events w id node) s (pre_visit w id node s) := by
  have hother : node.kind ≠ .Perform → first_events w id node = [] := by
    intro hp
    unfold first_events
    rw [if_neg fun h => hp h.1]
  unfold pre_visit
  split
  · rename_i hk
    unfold first_events
    cases hl : w.perform_ops.lookup id with
    | none =>
      rw [if_neg (by simp)]
      exact .nil rfl rfl
    | some p =>
      rw [if_pos ⟨hk, rfl⟩]
      exact ⟨rfl, rfl⟩
  · rename_i hk
    rw [hother (by simp [hk])]
    split
    · exact .nil rfl rfl
    · exact .nil rfl rfl
  · rename_i hk
    exact absurd hk h
  · rename_i hk _ _
    rw [hother hk]
    exact .nil rfl rfl

theorem after_post_handle (s : EffectRowWalker) :
    After ((w.handle_effects.lookup id).map Event.handled).toList s (post_handle w id node s) := by
  unfold post_handle
  split
  · rename_i handled_id hl
    rw [hl]
    dsimp only
    split
    · exact ⟨rfl, rfl⟩
    · exact ⟨rfl, rfl⟩
  · rename_i hl
    rw [hl]
    exact .nil rfl rfl

theorem after_check_declared_row (s : EffectRowWalker) :
    After [] s (check_declared_row w id node s) := by
  unfold check_declared_row
  split
  · exact .nil rfl rfl
  · exact .nil rfl rfl

theorem after_infer_call (hw : ClosedSites w) (id : IrNodeId) (node : IrNodeData)
    (s : EffectRowWalker) (hk : node.kind = .App) :
    After (last_events w id node) s (infer_call w id node s) := by
  unfold infer_call last_events
  rw [hk]
  dsimp only
  cases hl : w.call_infer_sites.lookup id with
  | none => exact .nil rfl rfl
  | some site =>
    obtain ⟨callee_row, caller_explicit⟩ := site
    have hclosed := hw id callee_row caller_explicit hl
    dsimp only
    rw [instantiate_closed hclosed]
    cases caller_explicit with
    | none => exact ⟨rfl, rfl⟩
    | some explicit =>
      unfold infer_or_check_call_row
      dsimp only
      split
      · exact .nil rfl rfl
      · exact .nil rfl rfl

theorem after_post_visit (hw : ClosedSites w) (id : IrNodeId) (node : IrNodeData)
    (s : EffectRowWalker) (h : node.kind ≠ .Lambda) :
    After (last_events w id node) s (post_visit w id node s) := by
  unfold post_visit
  split
  · rename_i hk
    unfold last_events
    rw [hk]
    exact after_post_handle id node s
  · rename_i hk
    exact absurd hk h
  · rename_i hk
    exact (after_check_declared_row id node s).trans (after_infer_call hw id node _ hk)
  · rename_i hk
    unfold last_events
    rw [hk]
    exact .nil rfl rfl
  · rename_i hhandle _ happ _
    unfold last_events
    split
    · rename_i hk
      exact absurd hk hhandle
    · rename_i hk
      exact absurd hk happ
    · exact .nil rfl rfl

theorem post_lambda_restores {s : EffectRowWalker}
    {saved_row : EffectRow} {rest : List EffectRow} (h : s.row_stack = saved_row :: rest) :
    (post_lambda w id node s).current_row = saved_row ∧
      (post_lambda w id node s).row_stack = rest := by
  have hstack : (if w.pure_contexts.contains id then s.emit (check_pure s.current_row node.span)
      else s).row_stack = saved_row :: rest := by
    split
    · exact h
    · exact h
  unfold post_lambda
  dsimp only
  rw [hstack]
  exact ⟨rfl, rfl⟩

theorem after_lambda (s s' : EffectRowWalker)
    (hk : node.kind = .Lambda) {evs : List Event} (h : After evs (pre_visit w id node s) s') :
    After [] s (post_visit w id node s') := by
  have hstack : s'.row_stack = s.current_row :: s.row_stack := by
    rw [h.row_stack]
    unfold pre_visit
    rw [hk]
  have hpost : post_visit w id node s' = post_lambda w id node s' := by
    unfold post_visit
    rw [hk]
  rw [hpost]
  exact .nil (post_lambda_restores id node hstack).1 (post_lambda_restores id node hstack).2

theorem after_walk_all {ts : List IrTree}
    (ih : ∀ t ∈ ts, ∀ s, After (events w t) s (paideia_as_ir.walk (effect_row_walker w) t s)) :
    ∀ s, After (ts.map (events w)).flatten s (walk_all (effect_row_walker w) ts s) := by
  induction ts with
  | nil =>
    intro s
    exact .nil rfl rfl
  | cons t ts iht =>
    intro s
    unfold walk_all
    have hfirst := ih t (.head _) s
    have hrest := iht fun t ht => ih t (.tail _ ht)
    exact hfirst.trans (hrest _)

/-- The events of a tree, in their order, give the row that its walk ends with. -/
theorem after_walk (hw : ClosedSites w) (t : IrTree) :
    ∀ s, After (events w t) s (paideia_as_ir.walk (effect_row_walker w) t s) := by
  induction t using IrTree.node_induction with
  | node id node children ih =>
    intro s
    rw [(plain w).walk]
    have hall : ∀ s, After ((walked node.kind children).map (events w)).flatten s
        (walk_all (effect_row_walker w) (walked node.kind children) s) :=
      after_walk_all fun t ht => ih t (mem_walked ht)
    by_cases hk : node.kind = .Lambda
    · rw [events, if_pos hk]
      exact after_lambda id node s _ hk (hall _)
    · rw [events_node hk]
      exact ((after_pre_visit id node s hk).trans (hall _)).trans (after_post_visit hw id node _ hk)

theorem after_walk_below (hw : ClosedSites w) (id : IrNodeId) (node : IrNodeData)
    (children : List IrTree) (s : EffectRowWalker) (hk : node.kind ≠ .Lambda) :
    After (first_events w id node ++ ((walked node.kind children).map (events w)).flatten) s
      (walk_below (effect_row_walker w) id node children s) := by
  rw [(plain w).walk_below]
  exact (after_pre_visit id node s hk).trans (after_walk_all (fun t _ => after_walk hw t) _)

def first_byte : Span := ⟨⟨1, Nat.zero_lt_one⟩, 0, 1, Span.one_fits⟩

def leaf (id : IrNodeId) (kind : IrKind) : IrTree := .node id ⟨kind, first_byte⟩ []

end paideia_as_elaborator.effect_walker
