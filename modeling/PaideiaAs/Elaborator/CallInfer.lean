-- `infer_call_row_polymorphic` of `effect_infer.rs`: a call by way of row
-- unification. It should take over the effects of the callee as the plain rule
-- does, and it refuses some closed callees that the plain rule takes.
import PaideiaAs.Elaborator.EffectInfer

namespace paideia_as_elaborator

open paideia_as_diagnostics paideia_as_effects

/-- The counter of row variables. -/
structure EffectInterner where
  next_fresh_row_var : Nat
  pos : 0 < next_fresh_row_var

namespace EffectInterner

def new : EffectInterner := ⟨1, Nat.zero_lt_one⟩

def fresh_row_var (interner : EffectInterner) : RowVarId × EffectInterner :=
  (⟨interner.next_fresh_row_var, interner.pos⟩, ⟨interner.next_fresh_row_var + 1, Nat.succ_pos _⟩)

def calleeTail (interner : EffectInterner) : RowVarId := interner.fresh_row_var.1

/-- The variable that a closed caller is opened with. -/
def scaffold (interner : EffectInterner) : RowVarId := interner.fresh_row_var.2.fresh_row_var.1

end EffectInterner

/-- The caller with a tail, and the tail that was put there. -/
def extend_caller (caller_current : EffectRow) (interner : EffectInterner) :
    EffectRow × Option RowVarId × EffectInterner :=
  match caller_current.tail with
  | none =>
    let (s, interner) := interner.fresh_row_var
    ({ caller_current with tail := some s }, some s, interner)
  | some _ => (caller_current, none, interner)

/-- A tail that was put there and is still there is taken off. -/
def strip_scaffold (caller_current propagated : EffectRow) : Option RowVarId → EffectRow
  | some s =>
    if propagated.tail = some s then { propagated with tail := caller_current.tail }
    else propagated
  | none => propagated

/-- `infer_call_row_polymorphic`, with the interner after the call. -/
def infer_call_row_polymorphic (caller_explicit : Option EffectRow)
    (callee_decl_row caller_current : EffectRow) (interner : EffectInterner) (span : Span) :
    RowOutcome × EffectInterner :=
  match caller_explicit with
  | some explicit =>
    if callee_decl_row.is_subset_of explicit then (⟨caller_current, []⟩, interner)
    else
      (⟨caller_current, [call_site_row_mismatch_diag explicit callee_decl_row span]⟩, interner)
  | none =>
    let (fresh_callee_tail, interner) := interner.fresh_row_var
    let instantiated := instantiate_fresh_tail callee_decl_row fresh_callee_tail
    let (caller_extended, scaffold_tail, interner) := extend_caller caller_current interner
    let outcome := unify_call_row instantiated caller_extended span
    if !outcome.diagnostics.isEmpty then (⟨caller_current, outcome.diagnostics⟩, interner)
    else
      let composed := compose_rows caller_extended instantiated
      let propagated := outcome.subst.apply composed
      (⟨strip_scaffold caller_current propagated scaffold_tail, []⟩, interner)

/-! ## The two rows that are unified -/

section

variable {caller callee : EffectRow} {interner : EffectInterner} {span : Span}

/-- The tail of the caller, after it was opened. -/
def openTail (caller : EffectRow) (interner : EffectInterner) : RowVarId :=
  caller.tail.getD interner.scaffold

/-- The caller as it is unified. -/
def opened (caller : EffectRow) (interner : EffectInterner) : EffectRow :=
  { caller with tail := some (openTail caller interner) }

/-- The callee as it is unified. -/
def instantiated (callee : EffectRow) (interner : EffectInterner) : EffectRow :=
  instantiate_fresh_tail callee interner.calleeTail

theorem extend_caller_eq (interner : EffectInterner) :
    (extend_caller caller interner.fresh_row_var.2).1 = opened caller interner ∧
      (extend_caller caller interner.fresh_row_var.2).2.1 =
        if caller.tail = none then some interner.scaffold else none := by
  unfold extend_caller opened openTail
  cases h : caller.tail with
  | none => exact ⟨rfl, rfl⟩
  | some v =>
    refine ⟨?_, rfl⟩
    apply EffectRow.ext
    · rfl
    · exact h

/-- Both rows name what they named before. -/
theorem mem_compose_opened {e : EffectId} :
    e ∈ (compose_rows (opened caller interner) (instantiated callee interner)).fixed ↔
      e ∈ (compose_rows caller callee).fixed := by
  rw [mem_compose_rows, mem_compose_rows]
  rfl

theorem fixed_strip (s : Option RowVarId) (row : EffectRow) :
    (strip_scaffold caller row s).fixed = row.fixed := by
  cases s with
  | none => rfl
  | some s =>
    unfold strip_scaffold
    simp only
    split <;> rfl

end

/-! ## Chains of bindings -/

/-- The rows that are bound name effects of `names` only. -/
def BindsWithin (s : Substitution) (names : List EffectId) : Prop :=
  ∀ v r, s.bindings.lookup v = some r → ∀ e ∈ r.fixed, e ∈ names

theorem mem_apply_chain {s : Substitution} {fixed names : List EffectId} {tail : Option RowVarId}
    {seen : List RowVarId} (hs : BindsWithin s names) (hfixed : ∀ e ∈ fixed, e ∈ names) :
    (∀ e ∈ (s.apply_chain fixed tail seen).fixed, e ∈ names) ∧
      ∀ e ∈ fixed, e ∈ (s.apply_chain fixed tail seen).fixed := by
  fun_induction Substitution.apply_chain s fixed tail seen with
  | case1 fixed seen => simpa using hfixed
  | case2 fixed seen v hseen => simpa using hfixed
  | case3 fixed seen v hseen bound hbound ih =>
    have hboth : ∀ e ∈ fixed ++ bound.fixed, e ∈ names := by
      intro e he
      rcases List.mem_append.mp he with he | he
      · exact hfixed e he
      · exact hs v bound hbound e he
    obtain ⟨hwithin, hkeeps⟩ := ih hboth
    exact ⟨hwithin, fun e he => hkeeps e (List.mem_append_left _ he)⟩
  | case4 fixed seen v hseen hnone => simpa using hfixed

variable {s : Substitution}

/-- A row that names everything stays, but for its tail. -/
theorem fixed_apply_of_within {row : EffectRow} (hs : BindsWithin s row.fixed) :
    (s.apply row).fixed = row.fixed := by
  obtain ⟨hwithin, hkeeps⟩ := @mem_apply_chain _ _ _ row.tail [] hs fun e he => he
  exact (s.apply row).sorted.eq_of_mem_iff row.sorted fun e => ⟨hwithin e, hkeeps e⟩

theorem bindsWithin_new (names : List EffectId) : BindsWithin .new names := nofun

theorem BindsWithin.bind {names : List EffectId} (hs : BindsWithin s names)
    (v : RowVarId) {r : EffectRow} (hr : ∀ e ∈ r.fixed, e ∈ names) :
    BindsWithin (s.bind v r) names := by
  intro w r' h
  rw [Substitution.lookup_bind] at h
  split at h
  · cases h
    exact hr
  · exact hs w r' h

theorem unify_bindsWithin {a b : EffectRow} (h : unify a b = .ok s) :
    BindsWithin s (compose_rows b a).fixed := by
  have hmissing : ∀ {x y : EffectRow} (tail : Option RowVarId),
      (∀ e ∈ x.fixed, e ∈ (compose_rows b a).fixed) →
      ∀ e ∈ (EffectRow.from_ids (x.fixed.filter (!y.fixed.contains ·)) tail).fixed,
        e ∈ (compose_rows b a).fixed := by
    intro x y tail hx e he
    rw [EffectRow.mem_from_ids] at he
    exact hx e (List.mem_of_mem_filter he)
  have ha : ∀ e ∈ a.fixed, e ∈ (compose_rows b a).fixed := fun e he =>
    mem_compose_rows.mpr (.inr he)
  have hb : ∀ e ∈ b.fixed, e ∈ (compose_rows b a).fixed := fun e he =>
    mem_compose_rows.mpr (.inl he)
  cases hab : a.is_subset_of b <;> cases hba : b.is_subset_of a
  case true.true =>
    rw [unify_same hab hba] at h
    cases h
    exact bindsWithin_new _
  case true.false =>
    rw [unify_wider hab hba] at h
    cases hv : a.tail with
    | none => rw [hv] at h; cases h
    | some v =>
      rw [hv] at h
      cases h
      exact (bindsWithin_new _).bind v (hmissing _ hb)
  case false.true =>
    rw [unify_narrower hab hba] at h
    cases hv : b.tail with
    | none => rw [hv] at h; cases h
    | some v =>
      rw [hv] at h
      cases h
      exact (bindsWithin_new _).bind v (hmissing _ ha)
  case false.false =>
    rw [unify_apart hab hba] at h
    cases hv : a.tail with
    | none => rw [hv] at h; cases h
    | some v =>
      cases hw : b.tail with
      | none => rw [hv, hw] at h; cases h
      | some w =>
        rw [hv, hw] at h
        cases h
        exact ((bindsWithin_new _).bind v (hmissing _ hb)).bind w (hmissing _ ha)

/-- An open row is refused only by a closed one that lacks an effect of it. -/
theorem unify_open_isOk_iff {a b : EffectRow} (hb : b.tail.isSome) :
    (∃ s, unify a b = .ok s) ↔ a.tail.isSome ∨ b.is_subset_of a = true := by
  obtain ⟨w, hw⟩ := Option.isSome_iff_exists.mp hb
  cases hab : a.is_subset_of b <;> cases hba : b.is_subset_of a
  case true.true => simp [unify_same hab hba]
  case true.false => cases hv : a.tail <;> simp [unify_wider hab hba, hv]
  case false.true => simp [unify_narrower hab hba, hw]
  case false.false => cases hv : a.tail <;> simp [unify_apart hab hba, hv, hw]

/-! ## Calls of an implicit caller -/

section

variable {caller callee : EffectRow} {interner : EffectInterner} {span : Span}

def inferCall (callee caller : EffectRow) (interner : EffectInterner) (span : Span) :
    RowOutcome × EffectInterner :=
  infer_call_row_polymorphic none callee caller interner span

/-- The tail that was put there, if one was. -/
def scaffoldOf (caller : EffectRow) (interner : EffectInterner) : Option RowVarId :=
  if caller.tail = none then some interner.scaffold else none

theorem inferCall_eq : (inferCall callee caller interner span).1 =
      match unify (instantiated callee interner) (opened caller interner) with
      | .ok subst => ⟨strip_scaffold caller (subst.apply (compose_rows (opened caller interner)
          (instantiated callee interner))) (scaffoldOf caller interner), []⟩
      | .error .Mismatch => ⟨caller, [row_mismatch_diag (instantiated callee interner)
          (opened caller interner) span]⟩ := by
  obtain ⟨hrow, htail⟩ := @extend_caller_eq caller interner
  unfold inferCall infer_call_row_polymorphic
  simp only
  rw [hrow, htail]
  unfold unify_call_row
  show (if !(_ : CallUnifyOutcome).diagnostics.isEmpty then _ else _ : _ × _).1 = _
  rw [show instantiate_fresh_tail callee interner.fresh_row_var.1 = instantiated callee interner
    from rfl]
  cases unify (instantiated callee interner) (opened caller interner) with
  | ok subst => rfl
  | error e =>
    cases e
    rfl

def GoesThrough (callee caller : EffectRow) (interner : EffectInterner) : Prop :=
  ∃ s, unify (instantiated callee interner) (opened caller interner) = .ok s

theorem goesThrough_iff :
    GoesThrough callee caller interner ↔ callee.tail.isSome ∨ caller.is_subset_of callee = true := by
  unfold GoesThrough
  rw [unify_open_isOk_iff rfl]
  unfold instantiated instantiate_fresh_tail
  simp only [Option.isSome_map]
  rfl

theorem inferCall_quiet_iff : (inferCall callee caller interner span).1.diagnostics = [] ↔
      GoesThrough callee caller interner := by
  rw [inferCall_eq]
  unfold GoesThrough
  cases unify (instantiated callee interner) (opened caller interner) with
  | ok s => exact iff_of_true rfl ⟨s, rfl⟩
  | error e =>
    cases e
    exact iff_of_false nofun nofun

/-- A call that goes through joins the effects, as the plain rule does. -/
theorem inferCall_fixed (h : GoesThrough callee caller interner) :
    (inferCall callee caller interner span).1.row.fixed = (compose_rows caller callee).fixed := by
  obtain ⟨s, hs⟩ := h
  have hwithin := unify_bindsWithin hs
  rw [inferCall_eq, hs]
  simp only
  rw [fixed_strip, fixed_apply_of_within hwithin]
  exact (compose_rows _ _).sorted.eq_of_mem_iff (compose_rows _ _).sorted fun e =>
    mem_compose_opened

/-- A call that does not go through leaves the row as it is. -/
theorem inferCall_refused (h : ¬ GoesThrough callee caller interner) :
    (inferCall callee caller interner span).1.row = caller := by
  rw [inferCall_eq]
  unfold GoesThrough at h
  cases hs : unify (instantiated callee interner) (opened caller interner) with
  | ok s => exact absurd ⟨s, hs⟩ h
  | error e =>
    cases e
    rfl

/-- The tail that was put there is gone. -/
theorem inferCall_tail_ne_scaffold (hcaller : caller.tail = none) :
    (inferCall callee caller interner span).1.row.tail ≠ some interner.scaffold := by
  rw [inferCall_eq]
  cases unify (instantiated callee interner) (opened caller interner) with
  | ok s =>
    unfold scaffoldOf
    simp only [hcaller, if_pos, strip_scaffold]
    split
    · nofun
    · assumption
  | error e =>
    cases e
    rw [hcaller]
    nofun

theorem tail_apply_closed (hcallee : callee.tail = none)
    (hs : unify (instantiated callee interner) (opened caller interner) = .ok s) :
    (s.apply (compose_rows (opened caller interner) (instantiated callee interner))).tail =
        some (openTail caller interner) ∨
      (s.apply (compose_rows (opened caller interner) (instantiated callee interner))).tail =
        none := by
  have hclosed : (instantiated callee interner).tail = none := by
    unfold instantiated
    rw [instantiate_closed hcallee, hcallee]
  have htail : (compose_rows (opened caller interner) (instantiated callee interner)).tail =
      some (openTail caller interner) := rfl
  cases hab : (instantiated callee interner).is_subset_of (opened caller interner) <;>
    cases hba : (opened caller interner).is_subset_of (instantiated callee interner)
  case true.true =>
    rw [unify_same hab hba] at hs
    cases hs
    rw [Substitution.apply_new]
    exact .inl htail
  case true.false =>
    rw [unify_wider hab hba, hclosed] at hs
    cases hs
  case false.true =>
    rw [unify_narrower hab hba] at hs
    cases hs
    rw [Substitution.apply_bind _ htail, EffectRow.tail_from_ids, EffectRow.tail_from_ids]
    exact .inr hclosed
  case false.false =>
    rw [unify_apart hab hba, hclosed] at hs
    cases hs

theorem inferCall_closed (hcaller : caller.tail = none) (hcallee : callee.tail = none) :
    (inferCall callee caller interner span).1.row.tail = none := by
  rw [inferCall_eq]
  cases hs : unify (instantiated callee interner) (opened caller interner) with
  | ok s =>
    have hopen : openTail caller interner = interner.scaffold := by
      unfold openTail
      rw [hcaller]
      rfl
    have htail := tail_apply_closed hcallee hs
    rw [hopen] at htail
    unfold scaffoldOf
    simp only [hcaller, if_pos, strip_scaffold]
    rcases htail with htail | htail
    · rw [if_pos htail]
    · rw [if_neg (by rw [htail]; nofun), htail]
  | error e =>
    cases e
    exact hcaller

/-- What is asked of a call by way of unification: no diagnostic, the effects of
the plain rule, a closed row from two closed ones, no trace of the tail that was
put there, and no further effect from the same call made again. -/
structure ExtendsPlain (callee caller : EffectRow) (interner : EffectInterner) (span : Span) :
    Prop where
  quiet : (inferCall callee caller interner span).1.diagnostics = []
  plain : (inferCall callee caller interner span).1.row.fixed =
    (infer_or_check_call_row none callee caller span).row.fixed
  union : ∀ e, e ∈ (inferCall callee caller interner span).1.row.fixed ↔
    e ∈ caller.fixed ∨ e ∈ callee.fixed
  closed : caller.tail = none → callee.tail = none →
    (inferCall callee caller interner span).1.row.tail = none
  scaffold : caller.tail = none →
    (inferCall callee caller interner span).1.row.tail ≠ some interner.scaffold
  again : (inferCall callee (inferCall callee caller interner span).1.row
      (inferCall callee caller interner span).2 span).1.row.fixed =
    (inferCall callee caller interner span).1.row.fixed

theorem inferCall_again (h : GoesThrough callee caller interner) (next : EffectInterner) :
    (inferCall callee (inferCall callee caller interner span).1.row next span).1.row.fixed =
      (inferCall callee caller interner span).1.row.fixed := by
  by_cases hagain : GoesThrough callee (inferCall callee caller interner span).1.row next
  · rw [inferCall_fixed hagain]
    refine (compose_rows _ _).sorted.eq_of_mem_iff (EffectRow.sorted _) fun e => ?_
    rw [mem_compose_rows, inferCall_fixed h, mem_compose_rows]
    tauto
  · rw [inferCall_refused hagain]

/-- A call by way of unification extends the plain rule exactly when the callee is
open or names every effect of the caller. -/
theorem infer_call_row_polymorphic_extends_iff (callee caller : EffectRow)
    (interner : EffectInterner) (span : Span) :
    ExtendsPlain callee caller interner span ↔
      callee.tail.isSome ∨ caller.is_subset_of callee = true := by
  constructor
  · intro h
    exact goesThrough_iff.mp (inferCall_quiet_iff.mp h.quiet)
  · intro h
    have hthrough : GoesThrough callee caller interner := goesThrough_iff.mpr h
    have hfixed := @inferCall_fixed caller callee interner span hthrough
    exact {
      quiet := inferCall_quiet_iff.mpr hthrough
      plain := hfixed
      union := fun e => by rw [hfixed, mem_compose_rows]
      closed := inferCall_closed
      scaffold := inferCall_tail_ne_scaffold
      again := inferCall_again hthrough _ }

/-- A function that performs `1` may not call a pure one. -/
theorem infer_call_row_polymorphic_refuses_pure :
    ¬ ExtendsPlain .empty (.from_ids [⟨1, by decide⟩] none) .new ⟨⟨1, by decide⟩, 0, 0, by decide⟩ := by
  intro h
  exact absurd (inferCall_quiet_iff.mp h.quiet) (by rw [goesThrough_iff]; decide)

end

end paideia_as_elaborator
