-- The driver that walks a group of functions again and again until their effect
-- rows stay as they are (`effect_fixedpoint.rs`).
import PaideiaAs.Elaborator.EffectWalker
import PaideiaAs.Lib.Outcome
import PaideiaAs.Lib.Sweeps

namespace paideia_as_elaborator.effect_fixedpoint

open paideia_as_diagnostics paideia_as_effects paideia_as_ir effect_walker
open Sweeps (System Within)

/-! ## Units -/

/-- The place of a function among the units. -/
structure FnSlot where
  idx : Nat
  deriving DecidableEq

structure FnPerform where
  node : IrNodeId
  effect_name : String
  op_name : String

structure FnCall where
  node : IrNodeId
  callee : FnSlot

/-- A function. `root` is the tree of its root in its own arena. -/
structure FnUnit where
  root : IrTree
  explicit_row : Option EffectRow
  performs : List FnPerform
  calls : List FnCall

structure FixedPointConfig where
  max_passes : Nat
  diverged_span : Span

/-- `unit_count as u32 * 4`, at least 4. The product may leave `u32`. -/
def FixedPointConfig.for_unit_count (unit_count : Nat) (diverged_span : Span) :
    Outcome FixedPointConfig :=
  if unit_count % 2 ^ 32 * 4 < 2 ^ 32 then
    .ok ⟨max (unit_count % 2 ^ 32 * 4) 4, diverged_span⟩
  else .error .panic

structure FixedPointOutcome where
  rows : List EffectRow
  diagnostics : List paideia_as_diagnostics.Diagnostic
  passes_run : Nat
  diverged : Bool

def fixpoint_diverged_diag (cap : Nat) (span : Span) : paideia_as_diagnostics.Diagnostic :=
  f_error F_FIXPOINT_DIVERGED ("effect-row inference over a recursive call graph did not converge "
    ++ "after " ++ toString cap ++ " passes; this indicates a pathologically large "
    ++ "mutual-recursion cycle rather than normal recursive code") span

/-! ## Passes -/

def inject_performs (performs : List FnPerform) (w : Injected) : Injected :=
  performs.foldl (fun w p => w.inject_perform p.node p.effect_name p.op_name) w

def inject_calls (rows : List EffectRow) (explicit_row : Option EffectRow) :
    List FnCall → Injected → Outcome Injected
  | [], w => .ok w
  | call :: calls, w => do
    let callee_row ← Outcome.expect rows[call.callee.idx]?
    inject_calls rows explicit_row calls
      (w.inject_call_for_inference call.node callee_row explicit_row)

def walk_unit (rows : List EffectRow) (unit : FnUnit) : Outcome EffectRowWalker := do
  let w ← inject_calls rows unit.explicit_row unit.calls (inject_performs unit.performs {})
  return paideia_as_ir.walk (effect_row_walker w) unit.root .new

structure Pass where
  rows : List EffectRow
  changed : Bool
  diags : List paideia_as_diagnostics.Diagnostic

/-- The units from `idx` on. A unit sees the rows that this pass gave so far. -/
def run_pass : List FnUnit → Nat → Pass → Outcome Pass
  | [], _, p => .ok p
  | unit :: rest, idx, p => do
    let walker ← walk_unit p.rows unit
    let new_row := unit.explicit_row.getD walker.current_row
    let changed := p.changed || p.rows[idx]? ≠ some new_row
    run_pass rest (idx + 1) ⟨p.rows.set idx new_row, changed, p.diags ++ walker.emitted⟩

/-- The passes after the first `passes_run`. -/
def run_passes (units : List FnUnit) (config : FixedPointConfig) (rows : List EffectRow)
    (passes_run : Nat) : Outcome FixedPointOutcome := do
  let p ← run_pass units 0 ⟨rows, false, []⟩
  if !p.changed then return ⟨p.rows, p.diags, passes_run + 1, false⟩
  else if passes_run + 1 ≥ config.max_passes then
    return ⟨p.rows, p.diags ++ [fixpoint_diverged_diag config.max_passes config.diverged_span],
      passes_run + 1, true⟩
  else run_passes units config p.rows (passes_run + 1)
termination_by config.max_passes - passes_run

def seed (units : List FnUnit) : List EffectRow := units.map fun u => u.explicit_row.getD .empty

def run_fixed_point (units : List FnUnit) (config : FixedPointConfig) : Outcome FixedPointOutcome :=
  run_passes units config (seed units) 0

/-! ## The equations -/

/-- A node of the tree with no lambda on the way to it, where `below` says which
children of a node count. -/
inductive OutsideLambdas (below : IrKind → List IrTree → List IrTree) :
    IrTree → IrNodeId → IrNodeData → Prop where
  | here {id : IrNodeId} {node : IrNodeData} {children : List IrTree} :
      node.kind ≠ .Lambda → OutsideLambdas below (.node id node children) id node
  | child {id id' : IrNodeId} {node node' : IrNodeData} {children : List IrTree} {c : IrTree} :
      node.kind ≠ .Lambda → c ∈ below node.kind children → OutsideLambdas below c id' node' →
        OutsideLambdas below (.node id node children) id' node'

/-- The call that is listed last for a node. -/
def site_call : List FnCall → IrNodeId → Option FnCall
  | [], _ => none
  | call :: calls, id => (site_call calls id).or (if call.node = id then some call else none)

variable {id : IrNodeId} {w : Injected} {node : IrNodeData}

theorem site_call_mem {calls : List FnCall} {call : FnCall}
    (h : site_call calls id = some call) : call ∈ calls ∧ call.node = id := by
  induction calls with
  | nil => cases h
  | cons c calls ih =>
    unfold site_call at h
    cases hrest : site_call calls id with
    | some c' =>
      rw [hrest, Option.some_or] at h
      obtain ⟨hmem, hnode⟩ := ih (hrest.trans h)
      exact ⟨.tail _ hmem, hnode⟩
    | none =>
      rw [hrest, Option.none_or] at h
      split at h
      · rename_i hc
        cases h
        exact ⟨List.mem_cons_self .., hc⟩
      · cases h

/-- The equations of the units: an implicit unit has the effects that it performs
and those of the units that it calls, both outside its lambdas. -/
def system (units : List FnUnit) : System EffectId where
  given i e := ∃ unit ∈ units[i]?, ∃ row ∈ unit.explicit_row, e ∈ row.fixed
  own i e := ∃ unit ∈ units[i]?, unit.explicit_row = none ∧
    ∃ id node, OutsideLambdas (fun _ children => children) unit.root id node ∧
      node.kind = .Perform ∧ id ∈ unit.performs.map (·.node) ∧ e = effect_of id
  edge i c := ∃ unit ∈ units[i]?, unit.explicit_row = none ∧
    ∃ id node, OutsideLambdas (fun _ children => children) unit.root id node ∧
      node.kind = .App ∧ ∃ call ∈ unit.calls, call.node = id ∧ call.callee.idx = c

/-- The equations over the nodes that a walk reaches, with one call for each
node. -/
def walkedSystem (units : List FnUnit) : System EffectId where
  given i e := ∃ unit ∈ units[i]?, ∃ row ∈ unit.explicit_row, e ∈ row.fixed
  own i e := ∃ unit ∈ units[i]?, unit.explicit_row = none ∧
    ∃ id node, OutsideLambdas walked unit.root id node ∧
      node.kind = .Perform ∧ id ∈ unit.performs.map (·.node) ∧ e = effect_of id
  edge i c := ∃ unit ∈ units[i]?, unit.explicit_row = none ∧
    ∃ id node, OutsideLambdas walked unit.root id node ∧
      node.kind = .App ∧ ∃ call ∈ site_call unit.calls id, call.callee.idx = c

/-! ## The events of a tree, node by node -/

theorem mem_events {ev : Event} {t : IrTree} :
    ev ∈ events w t ↔ ∃ id node, OutsideLambdas walked t id node ∧
      (ev ∈ first_events w id node ∨ ev ∈ last_events w id node) := by
  induction t using IrTree.node_induction with
  | node id node children ih =>
    by_cases hk : node.kind = .Lambda
    · rw [events, if_pos hk]
      constructor
      · intro h
        cases h
      · rintro ⟨_, _, h, -⟩
        cases h with
        | here h => exact absurd hk h
        | child h _ _ => exact absurd hk h
    rw [events_node hk, List.mem_append, List.mem_append]
    constructor
    · rintro ((h | h) | h)
      · exact ⟨id, node, .here hk, .inl h⟩
      · obtain ⟨l, hl, h⟩ := List.mem_flatten.mp h
        obtain ⟨c, hc, rfl⟩ := List.mem_map.mp hl
        obtain ⟨id', node', hin, hev⟩ := (ih c (mem_walked hc)).mp h
        exact ⟨id', node', .child hk hc hin, hev⟩
      · exact ⟨id, node, .here hk, .inr h⟩
    · rintro ⟨id', node', hin, hev⟩
      cases hin with
      | here _ =>
        rcases hev with hev | hev
        · exact .inl (.inl hev)
        · exact .inr hev
      | @child _ _ _ _ _ c _ hc hin =>
        have hmem := (ih c (mem_walked hc)).mpr ⟨id', node', hin, hev⟩
        exact .inl (.inr (List.mem_flatten.mpr ⟨_, List.mem_map_of_mem hc, hmem⟩))

theorem mem_first_events {e : EffectId} : .performs e ∈ first_events w id node ↔
      node.kind = .Perform ∧ (w.perform_ops.lookup id).isSome ∧ e = effect_of id := by
  unfold first_events
  split
  · rename_i h
    simp [h.1, h.2]
  · rename_i h
    constructor
    · intro hmem
      cases hmem
    · rintro ⟨hk, hl, -⟩
      exact absurd ⟨hk, hl⟩ h

theorem calls_notMem_first_events {row : EffectRow} : .calls row ∉ first_events w id node := by
  unfold first_events
  split
  · simp
  · simp

theorem mem_last_events {row : EffectRow} : .calls row ∈ last_events w id node ↔
      node.kind = .App ∧ w.call_infer_sites.lookup id = some (row, none) := by
  unfold last_events
  split
  · rename_i hk
    simp [hk]
  · rename_i hk
    split
    · rename_i callee_row hl
      simp [hk, hl, eq_comm]
    · rename_i hl
      constructor
      · intro h
        cases h
      · rintro ⟨-, h⟩
        exact absurd h (hl row)
  · rename_i happ
    constructor
    · intro h
      cases h
    · rintro ⟨hk, -⟩
      exact absurd hk happ

/-- Without handlers the effects of the row are those that were there, those
performed and those called. -/
theorem mem_foldl_act {evs : List Event} (h : ∀ ev ∈ evs, ∀ e, ev ≠ .handled e) {e : EffectId} :
    ∀ row : EffectRow, e ∈ (evs.foldl Event.act row).fixed ↔
      e ∈ row.fixed ∨ .performs e ∈ evs ∨ ∃ r, .calls r ∈ evs ∧ e ∈ r.fixed := by
  induction evs with
  | nil =>
    intro row
    simp
  | cons ev evs ih =>
    intro row
    have ih := ih fun ev hev => h ev (.tail _ hev)
    rw [List.foldl_cons, ih]
    cases ev with
    | performs e' =>
      simp only [Event.act, mem_compose_rows, mem_perform_row, List.mem_cons, Event.performs.injEq,
        reduceCtorEq, false_or]
      rw [or_assoc, or_assoc]
    | calls r' =>
      simp only [Event.act, mem_compose_rows, List.mem_cons, Event.calls.injEq, reduceCtorEq,
        false_or]
      constructor
      · rintro ((he | he) | he | ⟨r, hr, he⟩)
        · exact .inl he
        · exact .inr (.inr ⟨r', .inl rfl, he⟩)
        · exact .inr (.inl he)
        · exact .inr (.inr ⟨r, .inr hr, he⟩)
      · rintro (he | he | ⟨r, rfl | hr, he⟩)
        · exact .inl (.inl he)
        · exact .inr (.inl he)
        · exact .inl (.inr he)
        · exact .inr (.inr ⟨r, hr, he⟩)
    | handled e' => exact absurd rfl (h _ (.head _) e')

theorem foldl_act_tail {evs : List Event} (h : ∀ r, .calls r ∈ evs → r.tail = none) :
    ∀ row : EffectRow, row.tail = none → (evs.foldl Event.act row).tail = none := by
  induction evs with
  | nil =>
    intro row hrow
    exact hrow
  | cons ev evs ih =>
    intro row hrow
    have ih := ih fun r hr => h r (.tail _ hr)
    apply ih
    unfold Event.act
    cases ev with
    | performs e => exact compose_rows_tail hrow rfl
    | calls r => exact compose_rows_tail hrow (h r (.head _))
    | handled e => exact hrow

theorem inject_performs_spec (performs : List FnPerform) :
    ∀ w : Injected, ∃ ops, inject_performs performs w = { w with perform_ops := ops } ∧
      ∀ id, (ops.lookup id).isSome ↔
        id ∈ performs.map (·.node) ∨ (w.perform_ops.lookup id).isSome := by
  induction performs with
  | nil =>
    intro w
    exact ⟨w.perform_ops, rfl, by simp⟩
  | cons p performs ih =>
    intro w
    obtain ⟨ops, heq, hops⟩ := ih (w.inject_perform p.node p.effect_name p.op_name)
    refine ⟨ops, heq, ?_⟩
    intro id
    rw [hops id]
    unfold Injected.inject_perform
    rw [Assoc.lookup_insert, List.map_cons, List.mem_cons]
    by_cases hid : id = p.node
    · simp [hid]
    · simp [hid]

theorem inject_calls_spec {rows : List EffectRow} {explicit_row : Option EffectRow}
    {calls : List FnCall} (h : ∀ call ∈ calls, call.callee.idx < rows.length) :
    ∀ w : Injected, ∃ sites,
      inject_calls rows explicit_row calls w = .ok { w with call_infer_sites := sites } ∧
      ∀ id, sites.lookup id =
        ((site_call calls id).bind fun call => rows[call.callee.idx]?.map (·, explicit_row)).or
          (w.call_infer_sites.lookup id) := by
  induction calls with
  | nil =>
    intro w
    exact ⟨w.call_infer_sites, rfl, fun id => by simp [site_call]⟩
  | cons call calls ih =>
    intro w
    have hlt := h call (.head _)
    have hrow : rows[call.callee.idx]? = some rows[call.callee.idx] := List.getElem?_eq_getElem hlt
    obtain ⟨sites, heq, hsites⟩ := ih (fun c hc => h c (.tail _ hc))
      (w.inject_call_for_inference call.node rows[call.callee.idx] explicit_row)
    refine ⟨sites, ?_, ?_⟩
    · unfold inject_calls
      rw [hrow, Outcome.expect_some, Outcome.ok_bind, heq]
      rfl
    · intro id
      rw [hsites id]
      unfold Injected.inject_call_for_inference
      rw [Assoc.lookup_insert, site_call]
      cases hc : site_call calls id with
      | some c =>
        have hlt := h c (.tail _ (site_call_mem hc).1)
        simp [hlt]
      | none =>
        by_cases hid : id = call.node
        · simp [hid, hrow]
        · simp [hid, Ne.symm hid]

/-! ## The walk of a unit -/

/-- Every call of the unit names a row. -/
def SlotsIn (unit : FnUnit) (n : Nat) : Prop := ∀ call ∈ unit.calls, call.callee.idx < n

def AllClosed (rows : List EffectRow) : Prop := ∀ row ∈ rows, row.tail = none

/-- The tables that a unit is walked with. -/
structure UnitTables (rows : List EffectRow) (unit : FnUnit) (w : Injected) : Prop where
  performs : ∀ id, (w.perform_ops.lookup id).isSome ↔ id ∈ unit.performs.map (·.node)
  handles : w.handle_effects = []
  sites : ∀ id, w.call_infer_sites.lookup id =
    (site_call unit.calls id).bind fun call => rows[call.callee.idx]?.map (·, unit.explicit_row)

theorem walk_unit_ok {rows : List EffectRow} {unit : FnUnit} (h : SlotsIn unit rows.length) :
    ∃ w, UnitTables rows unit w ∧
      walk_unit rows unit = .ok (paideia_as_ir.walk (effect_row_walker w) unit.root .new) := by
  obtain ⟨ops, hinj, hops⟩ := inject_performs_spec unit.performs {}
  obtain ⟨sites, hcalls, hsites⟩ :=
    @inject_calls_spec _ unit.explicit_row _ h (inject_performs unit.performs {})
  rw [hinj] at hcalls hsites
  refine ⟨{ perform_ops := ops, call_infer_sites := sites }, ⟨?_, rfl, ?_⟩, ?_⟩
  · intro id
    simpa using hops id
  · intro id
    simpa using hsites id
  · unfold walk_unit
    rw [hinj, hcalls]
    rfl

section

variable {rows : List EffectRow} {unit : FnUnit} {w : Injected}

theorem UnitTables.closed (hw : UnitTables rows unit w) (hrows : AllClosed rows) :
    ClosedSites w := by
  intro id callee_row explicit h
  rw [hw.sites id, Option.bind_eq_some_iff] at h
  obtain ⟨call, -, h⟩ := h
  obtain ⟨row, hrow, heq⟩ := Option.map_eq_some_iff.mp h
  cases heq
  exact hrows _ (List.mem_of_getElem? hrow)

theorem UnitTables.no_handler (hw : UnitTables rows unit w) (t : IrTree) :
    ∀ ev ∈ events w t, ∀ e, ev ≠ .handled e := by
  rintro ev hev e rfl
  obtain ⟨id, node, -, h | h⟩ := mem_events.mp hev
  · unfold first_events at h
    split at h
    · simp at h
    · cases h
  · unfold last_events at h
    rw [hw.handles] at h
    split at h
    · simp at h
    · split at h
      · simp at h
      · cases h
    · cases h

/-- An implicit unit's walk ends with the effects of the nodes that it reached. -/
theorem UnitTables.row (hw : UnitTables rows unit w) (hrows : AllClosed rows)
    (himp : unit.explicit_row = none) :
    let row := (paideia_as_ir.walk (effect_row_walker w) unit.root .new).current_row
    row.tail = none ∧ ∀ e, e ∈ row.fixed ↔
      (∃ id node, OutsideLambdas walked unit.root id node ∧
        node.kind = .Perform ∧ id ∈ unit.performs.map (·.node) ∧ e = effect_of id) ∨
      ∃ id node, OutsideLambdas walked unit.root id node ∧
        node.kind = .App ∧ ∃ call ∈ site_call unit.calls id, ∃ row ∈ rows[call.callee.idx]?,
          e ∈ row.fixed := by
  dsimp only
  have hrow : (paideia_as_ir.walk (effect_row_walker w) unit.root .new).current_row
      = (events w unit.root).foldl Event.act .empty := (after_walk (hw.closed hrows) unit.root .new).row
  have hsite : ∀ id callee_row, w.call_infer_sites.lookup id = some (callee_row, none) ↔
      ∃ call ∈ site_call unit.calls id, callee_row ∈ rows[call.callee.idx]? := by
    intro id callee_row
    rw [hw.sites id, himp, Option.bind_eq_some_iff]
    simp
  rw [hrow]
  constructor
  · apply foldl_act_tail
    · intro r hr
      obtain ⟨id, node, -, h | h⟩ := mem_events.mp hr
      · exact absurd h calls_notMem_first_events
      · exact hw.closed hrows id r none (mem_last_events.mp h).2
    · rfl
  intro e
  rw [mem_foldl_act (hw.no_handler _), EffectRow.fixed_empty]
  constructor
  · rintro (h | h | ⟨r, h, he⟩)
    · cases h
    · obtain ⟨id, node, hin, h | h⟩ := mem_events.mp h
      · obtain ⟨hk, hl, heq⟩ := mem_first_events.mp h
        exact .inl ⟨id, node, hin, hk, (hw.performs id).mp hl, heq⟩
      · exact absurd h (performs_notMem_last_events id node)
    · obtain ⟨id, node, hin, h | h⟩ := mem_events.mp h
      · exact absurd h calls_notMem_first_events
      · obtain ⟨hk, hl⟩ := mem_last_events.mp h
        obtain ⟨call, hcall, hr⟩ := (hsite id r).mp hl
        exact .inr ⟨id, node, hin, hk, call, hcall, r, hr, he⟩
  · rintro (⟨id, node, hin, hk, hid, heq⟩ | ⟨id, node, hin, hk, call, hcall, r, hr, he⟩)
    · have h := mem_first_events.mpr ⟨hk, (hw.performs id).mpr hid, heq⟩
      exact .inr (.inl (mem_events.mpr ⟨id, node, hin, .inl h⟩))
    · have h := mem_last_events.mpr ⟨hk, (hsite id r).mpr ⟨call, hcall, hr⟩⟩
      exact .inr (.inr ⟨r, mem_events.mpr ⟨id, node, hin, .inr h⟩, he⟩)

end

/-! ## A pass is a sweep -/

/-- The rows are closed and hold what the predicate says. -/
structure RowsHave (P : Nat → EffectId → Prop) (n : Nat) (rows : List EffectRow) : Prop where
  length : rows.length = n
  closed : AllClosed rows
  mem : ∀ i row, rows[i]? = some row → ∀ e, e ∈ row.fixed ↔ P i e

/-- A group whose explicit rows are closed and whose calls name units. -/
structure WellFormed (units : List FnUnit) : Prop where
  closed : ∀ unit ∈ units, ∀ row ∈ unit.explicit_row, row.tail = none
  slots : ∀ unit ∈ units, SlotsIn unit units.length

variable {units : List FnUnit} {k : Nat}

/-- What a pass that stands before unit `idx` has of sweep `k + 1`. -/
def Halfway (units : List FnUnit) (k idx i : Nat) (e : EffectId) : Prop :=
  if i < idx then Within (walkedSystem units) (k + 1) i e
  else Within (walkedSystem units) k i e

theorem visit_row (hu : WellFormed units) {idx : Nat} {unit : FnUnit}
    (hunit : units[idx]? = some unit) {rows : List EffectRow}
    (hrows : RowsHave (Halfway units k idx) units.length rows) :
    ∃ walker, walk_unit rows unit = .ok walker ∧
      (unit.explicit_row.getD walker.current_row).tail = none ∧
      ∀ e, e ∈ (unit.explicit_row.getD walker.current_row).fixed ↔
        Within (walkedSystem units) (k + 1) idx e := by
  have hmem := List.mem_of_getElem? hunit
  have hslots : SlotsIn unit rows.length := by
    rw [hrows.length]
    exact hu.slots unit hmem
  obtain ⟨w, hw, hwalk⟩ := walk_unit_ok hslots
  refine ⟨_, hwalk, ?_⟩
  cases hexp : unit.explicit_row with
  | some declared =>
    refine ⟨hu.closed unit hmem declared hexp, ?_⟩
    intro e
    rw [Sweeps.within_succ_iff]
    simp [walkedSystem, hunit, hexp]
  | none =>
    obtain ⟨htail, hfixed⟩ := hw.row hrows.closed hexp
    refine ⟨htail, ?_⟩
    intro e
    rw [Sweeps.within_succ_iff]
    refine (hfixed e).trans ?_
    have hget : ∀ c row, rows[c]? = some row → (e ∈ row.fixed ↔
        (c < idx ∧ Within (walkedSystem units) (k + 1) c e ∨
          idx ≤ c ∧ Within (walkedSystem units) k c e)) := by
      intro c row hc
      rw [hrows.mem c row hc e]
      unfold Halfway
      split
      · rename_i hlt
        simp [hlt, Nat.not_le.mpr hlt]
      · rename_i hge
        simp [hge, Nat.not_lt.mp hge]
    constructor
    · rintro (⟨id, node, hin, hk, hid, heq⟩ | ⟨id, node, hin, hk, call, hcall, row, hrow, he⟩)
      · exact .inr (.inl ⟨unit, hunit, hexp, id, node, hin, hk, hid, heq⟩)
      · refine .inr (.inr ⟨call.callee.idx, ?_, (hget _ row hrow).mp he⟩)
        exact ⟨unit, hunit, hexp, id, node, hin, hk, call, hcall, rfl⟩
    · rintro (⟨unit', hunit', row, hrow, -⟩ | ⟨unit', hunit', -, id, node, hin, hk, hid, heq⟩ |
        ⟨c, ⟨unit', hunit', -, id, node, hin, hk, call, hcall, rfl⟩, hc⟩)
      · obtain rfl : unit = unit' := Option.some.inj (hunit.symm.trans hunit')
        rw [hexp] at hrow
        cases hrow
      · obtain rfl : unit = unit' := Option.some.inj (hunit.symm.trans hunit')
        exact .inl ⟨id, node, hin, hk, hid, heq⟩
      · obtain rfl : unit = unit' := Option.some.inj (hunit.symm.trans hunit')
        have hlt : call.callee.idx < rows.length := by
          rw [hrows.length]
          exact hu.slots unit hmem call (site_call_mem hcall).1
        have hrow := List.getElem?_eq_getElem hlt
        exact .inr ⟨id, node, hin, hk, call, hcall, _, hrow, (hget _ _ hrow).mpr hc⟩

end paideia_as_elaborator.effect_fixedpoint
