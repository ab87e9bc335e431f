-- The effects that no handler takes: those that the walker reports at the root of
-- a program, and those that a `perform` outside its handlers has.
import PaideiaAs.Elaborator.EffectWalker

namespace paideia_as_elaborator.effect_walker

open paideia_as_diagnostics paideia_as_effects paideia_as_ir
open IrNodeId (four_ne one_ne three_ne two_ne)

/-! ## Effects that escape -/

/-- Some `Perform` node of the tree has the effect and is not inside the subtree
of a `Handle` node for it. -/
inductive Unhandled (w : Injected) (e : EffectId) : IrTree → Prop where
  | perform {id : IrNodeId} {node : IrNodeData} {children : List IrTree} :
      Event.performs e ∈ first_events w id node → Unhandled w e (.node id node children)
  | inside {id : IrNodeId} {node : IrNodeData} {children : List IrTree} {c : IrTree} :
      Event.handled e ∉ last_events w id node → c ∈ children → Unhandled w e c →
        Unhandled w e (.node id node children)

/-- No node of the tree is a `Lambda`. -/
inductive NoLambda : IrTree → Prop where
  | node {id : IrNodeId} {node : IrNodeData} {children : List IrTree} :
      node.kind ≠ .Lambda → (∀ c ∈ children, NoLambda c) → NoLambda (.node id node children)

def root_diagnostics (w : Injected) : IrTree → List paideia_as_diagnostics.Diagnostic
  | .node id node children =>
    let s := walk_below (effect_row_walker w) id node children .new
    (post_visit w id node { s with emitted := [] }).emitted

def root_span : IrTree → Span
  | .node _ node _ => node.span

/-- The F1100 diagnostics at the root name the effects that escape, and no
others. -/
def EscapesReported (w : Injected) (root : IrTree) : Prop :=
  ∀ d, d ∈ root_diagnostics w root ↔ ∃ e, Unhandled w e root ∧ d = unhandled_diag (root_span root) e

/-! ## The last event of an effect -/

/-- The effect is performed, and no handler for it ends after that. -/
def PerformedLast (e : EffectId) (evs : List Event) : Prop :=
  ∃ before after, evs = before ++ .performs e :: after ∧ Event.handled e ∉ after

variable {w : Injected} {e : EffectId}

theorem act_mem {ev : Event} (hcalls : ∀ row, ev ≠ .calls row) (row : EffectRow) :
    e ∈ (ev.act row).fixed ↔ ev = .performs e ∨ e ∈ row.fixed ∧ ev ≠ .handled e := by
  unfold Event.act
  cases ev with
  | performs e' =>
    simp only [mem_compose_rows, mem_perform_row, Event.performs.injEq, ne_eq, reduceCtorEq,
      not_false_eq_true, and_true]
    rw [or_comm, eq_comm]
  | calls row => exact absurd rfl (hcalls row)
  | handled e' =>
    simp only [mem_handle_row, ne_eq, reduceCtorEq, Event.handled.injEq, false_or]
    rw [eq_comm]

/-- The events leave an effect in the row when its last event is a `perform`, or
when it was there and is not handled. -/
theorem foldl_act_mem {evs : List Event} (hcalls : ∀ ev ∈ evs, ∀ row, ev ≠ .calls row) :
    ∀ row : EffectRow, e ∈ (evs.foldl Event.act row).fixed ↔
      PerformedLast e evs ∨ e ∈ row.fixed ∧ Event.handled e ∉ evs := by
  induction evs using List.reverseRecOn with
  | nil =>
    intro row
    simp [PerformedLast]
  | append_singleton evs ev ih =>
    intro row
    have hev := hcalls ev (by simp)
    have ih := ih (fun ev hev => hcalls ev (List.mem_append_left _ hev)) row
    rw [List.foldl_concat, act_mem hev, ih]
    constructor
    · rintro (rfl | ⟨⟨before, after, rfl, hafter⟩ | ⟨hmem, hnot⟩, hne⟩)
      · exact .inl ⟨evs, [], rfl, by simp⟩
      · refine .inl ⟨before, after ++ [ev], by simp, ?_⟩
        simpa [hafter] using fun h => hne h.symm
      · refine .inr ⟨hmem, ?_⟩
        simpa [hnot] using fun h => hne h.symm
    · rintro (⟨before, after, heq, hafter⟩ | ⟨hmem, hnot⟩)
      · rcases List.eq_nil_or_concat after with rfl | ⟨rest, last, rfl⟩
        · have := List.append_inj_right' heq rfl
          exact .inl (by simpa using this)
        · have heq' : evs ++ [ev] = (before ++ .performs e :: rest) ++ [last] := by simpa using heq
          obtain ⟨rfl, hlast⟩ := List.append_inj' heq' rfl
          obtain rfl : ev = last := by simpa using hlast
          refine .inr ⟨.inl ⟨before, rest, rfl, ?_⟩, ?_⟩
          · intro h
            exact hafter (by simp [h])
          · rintro rfl
            exact hafter (by simp)
      · refine .inr ⟨.inr ⟨hmem, fun h => hnot (List.mem_append_left _ h)⟩, ?_⟩
        rintro rfl
        exact hnot (by simp)

theorem performedLast_append {a b : List Event} :
    PerformedLast e (a ++ b) ↔ PerformedLast e b ∨ PerformedLast e a ∧ Event.handled e ∉ b := by
  constructor
  · rintro ⟨before, after, heq, hafter⟩
    rcases List.append_eq_append_iff.mp heq with ⟨c, rfl, rfl⟩ | ⟨c, rfl, hc⟩
    · exact .inl ⟨c, after, rfl, hafter⟩
    · cases c with
      | nil => exact .inl ⟨[], after, by simpa using hc.symm, hafter⟩
      | cons ev c =>
        simp only [List.cons_append, List.cons.injEq] at hc
        obtain ⟨rfl, rfl⟩ := hc
        refine .inr ⟨⟨before, c, rfl, ?_⟩, ?_⟩
        · exact fun h => hafter (List.mem_append_left _ h)
        · exact fun h => hafter (List.mem_append_right _ h)
  · rintro (⟨before, after, rfl, hafter⟩ | ⟨⟨before, after, rfl, hafter⟩, hb⟩)
    · exact ⟨a ++ before, after, by simp, hafter⟩
    · exact ⟨before, after ++ b, by simp, by simp [hafter, hb]⟩

theorem performedLast_flatten {lists : List (List Event)} (h : PerformedLast e lists.flatten) :
    ∃ l ∈ lists, PerformedLast e l := by
  induction lists with
  | nil =>
    obtain ⟨before, after, heq, -⟩ := h
    simp at heq
  | cons l lists ih =>
    rw [List.flatten_cons, performedLast_append] at h
    rcases h with h | ⟨h, -⟩
    · obtain ⟨l', hl', h⟩ := ih h
      exact ⟨l', .tail _ hl', h⟩
    · exact ⟨l, List.mem_cons_self .., h⟩

theorem PerformedLast.mem {evs : List Event} (h : PerformedLast e evs) : .performs e ∈ evs := by
  obtain ⟨before, after, rfl, -⟩ := h
  simp

/-- A `perform` after the last handler for its effect is outside them all. -/
theorem unhandled_of_performedLast {t : IrTree} (ht : NoLambda t)
    (h : PerformedLast e (events w t)) : Unhandled w e t := by
  induction t using IrTree.node_induction with
  | node id node children ih =>
    cases ht with
    | node hk hchildren =>
    rw [events_node hk, performedLast_append] at h
    rcases h with h | ⟨h, hlast⟩
    · exact absurd h.mem (performs_notMem_last_events id node)
    rcases performedLast_append.mp h with h | ⟨h, -⟩
    · obtain ⟨l, hl, h⟩ := performedLast_flatten h
      obtain ⟨c, hc, rfl⟩ := List.mem_map.mp hl
      have hmem := mem_walked hc
      exact .inside hlast hmem (ih c hmem (hchildren c hmem) h)
    · exact .perform h.mem

/-! ## What the root reports -/

theorem calls_notMem_events (hsites : w.call_infer_sites = []) (t : IrTree) :
    ∀ ev ∈ events w t, ∀ row, ev ≠ .calls row := by
  induction t using IrTree.node_induction with
  | node id node children ih =>
    intro ev hev row
    by_cases hk : node.kind = .Lambda
    · rw [events, if_pos hk] at hev
      cases hev
    rw [events_node hk, List.mem_append, List.mem_append] at hev
    rcases hev with (hev | hev) | hev
    · unfold first_events at hev
      split at hev
      · rintro rfl
        simp at hev
      · cases hev
    · obtain ⟨l, hl, hev⟩ := List.mem_flatten.mp hev
      obtain ⟨c, hc, rfl⟩ := List.mem_map.mp hl
      exact ih c (mem_walked hc) ev hev row
    · unfold last_events at hev
      rw [hsites] at hev
      rintro rfl
      split at hev
      · simp at hev
      · simp at hev
      · cases hev

theorem post_visit_module (id : IrNodeId) {node : IrNodeData} (hk : node.kind = .Module)
    (s : EffectRowWalker) :
    post_visit w id node s = s.emit (check_no_unhandled s.current_row node.span) := by
  unfold post_visit
  rw [hk]

theorem mem_root_diagnostics (hsites : w.call_infer_sites = []) {root : IrTree}
    (hroot : root.kind = .Module) (d : paideia_as_diagnostics.Diagnostic) :
    d ∈ root_diagnostics w root ↔
      ∃ e, PerformedLast e (events w root) ∧ d = unhandled_diag (root_span root) e := by
  obtain ⟨id, node, children⟩ := root
  have hk : node.kind = .Module := hroot
  have hclosed : ClosedSites w := by
    intro id row explicit h
    rw [hsites] at h
    cases h
  have hlast : last_events w id node = [] := by
    unfold last_events
    rw [hk]
  have hevents := @events_node w id node children (show node.kind ≠ .Lambda by simp [hk])
  rw [hlast, List.append_nil] at hevents
  have hrow := (after_walk_below hclosed id node children .new (by simp [hk])).row
  rw [← hevents] at hrow
  have hdiags : root_diagnostics w (.node id node children)
      = check_no_unhandled ((events w (.node id node children)).foldl Event.act .empty) node.span := by
    unfold root_diagnostics
    dsimp only
    rw [post_visit_module id hk]
    change check_no_unhandled
      (walk_below (effect_row_walker w) id node children .new).current_row node.span = _
    rw [hrow]
    rfl
  rw [hdiags]
  unfold check_no_unhandled
  simp only [List.mem_map, foldl_act_mem (calls_notMem_events hsites _), EffectRow.fixed_empty,
    List.not_mem_nil, false_and, or_false]
  constructor
  all_goals
    rintro ⟨e, he, rfl⟩
    exact ⟨e, he, rfl⟩

/-- The root reports the effects that escape, and no others, exactly where every
effect that escapes is performed after the last handler for it: a handler takes
its effect out of what was performed before it, too. -/
theorem escapes_reported_iff (w : Injected) (hsites : w.call_infer_sites = []) (root : IrTree)
    (hroot : root.kind = .Module) (hlambda : NoLambda root) :
    EscapesReported w root ↔ ∀ e, Unhandled w e root → PerformedLast e (events w root) := by
  unfold EscapesReported
  constructor
  · intro h e he
    have hmem := (h (unhandled_diag (root_span root) e)).mpr ⟨e, he, rfl⟩
    obtain ⟨e', he', heq⟩ := (mem_root_diagnostics hsites hroot _).mp hmem
    rw [unhandled_diag_injective _ heq]
    exact he'
  · intro h d
    rw [mem_root_diagnostics hsites hroot]
    constructor
    · rintro ⟨e, he, rfl⟩
      exact ⟨e, unhandled_of_performedLast hlambda he, rfl⟩
    · rintro ⟨e, he, rfl⟩
      exact ⟨e, h e he, rfl⟩

/-! ## A handler before and after a perform -/

/-- A module that handles effect 1 around a variable, and then performs it. -/
def handleThenPerform : IrTree :=
  .node ⟨4, four_ne⟩ ⟨.Module, first_byte⟩
    [.node ⟨3, three_ne⟩ ⟨.Handle, first_byte⟩ [leaf ⟨2, two_ne⟩ .Var], leaf ⟨1, one_ne⟩ .Perform]

/-- A module that performs effect 1, and then handles effect 1 around a
variable. -/
def performThenHandle : IrTree :=
  .node ⟨4, four_ne⟩ ⟨.Module, first_byte⟩ [leaf ⟨1, one_ne⟩ .Perform,
      .node ⟨3, three_ne⟩ ⟨.Handle, first_byte⟩ [leaf ⟨2, two_ne⟩ .Var]]

/-- `perform` at node 1 and a handler for its effect at node 3. -/
def ioTables : Injected :=
  (Injected.inject_perform {} ⟨1, one_ne⟩ "Io" "read").inject_handle_effect
    ⟨3, three_ne⟩ (effect_of ⟨1, one_ne⟩)

theorem noLambda_leaf {id : IrNodeId} {kind : IrKind} (h : kind ≠ .Lambda) :
    NoLambda (leaf id kind) := .node h fun c hc => by cases hc

/-- The effect escapes, and the root reports it. -/
theorem perform_after_handler_reported : EscapesReported ioTables handleThenPerform := by
  have hlambda : NoLambda handleThenPerform := by
    refine .node (by decide) ?_
    intro c hc
    rcases List.mem_pair.mp hc with rfl | rfl
    · refine .node (by decide) ?_
      intro c hc
      obtain rfl := List.mem_singleton.mp hc
      exact noLambda_leaf (by decide)
    · exact noLambda_leaf (by decide)
  refine (escapes_reported_iff ioTables rfl handleThenPerform rfl hlambda).mpr ?_
  intro e he
  cases he with
  | perform h => cases h
  | inside _ hc he =>
    rcases List.mem_pair.mp hc with rfl | rfl
    · cases he with
      | perform h => cases h
      | inside _ hc he =>
        obtain rfl := List.mem_singleton.mp hc
        cases he with
        | perform h => cases h
        | inside _ hc _ => cases hc
    · cases he with
      | perform h =>
        obtain rfl : e = effect_of ⟨1, by decide⟩ := by simpa using List.mem_singleton.mp h
        exact ⟨[.handled (effect_of ⟨1, by decide⟩)], [], rfl, by decide⟩
      | inside _ hc _ => cases hc

/-- The effect escapes, and the root reports nothing. -/
theorem perform_before_handler_unreported :
    ¬ EscapesReported ioTables performThenHandle := by
  intro h
  have hunhandled : Unhandled ioTables (effect_of ⟨1, by decide⟩) performThenHandle :=
    .inside (by decide) (.head _) (.perform (by decide))
  have hmem := (h _).mpr ⟨_, hunhandled, rfl⟩
  have hnone : root_diagnostics ioTables performThenHandle = [] := by decide
  rw [hnone] at hmem
  cases hmem

end paideia_as_elaborator.effect_walker
