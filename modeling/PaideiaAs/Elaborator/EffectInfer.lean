-- The rules of effect rows: what a `perform`, a call and a handler do to the row
-- of their context (`effect_infer.rs`), the checks at a call site and at the
-- installation of a handler (`effect_unify.rs`, `check_handler.rs`), and the check
-- of a pure function (`check_pure.rs`).
import PaideiaAs.Diagnostics.Diagnostic
import PaideiaAs.Effects.Unify
import PaideiaAs.Lib.Radix

namespace paideia_as_elaborator

open paideia_as_diagnostics paideia_as_effects

/-! ## Codes -/

def F_UNHANDLED_EFFECT : Nat := 1100

def F_HANDLER_MISMATCH : Nat := 1101

def F_HANDLER_ORDER : Nat := 1102

def F_ROW_MISMATCH : Nat := 1105

def F_PURE_VIOLATION : Nat := 1106

def F_FIXPOINT_DIVERGED : Nat := 1107

/-- `Diagnostic::error` with a code of category F. -/
def f_error (code : Nat) (message : String) (span : Span) : paideia_as_diagnostics.Diagnostic :=
  ⟨.F, code, message, span⟩

/-! ## Rows of expressions -/

def perform_row (effect : EffectId) : EffectRow := .from_ids [effect] none

def handle_row (body_row : EffectRow) (handled : EffectId) : EffectRow :=
  ⟨body_row.fixed.filter (· ≠ handled), body_row.tail, body_row.sorted.filter _⟩

def compose_rows (a b : EffectRow) : EffectRow := a.union b

structure RowOutcome where
  row : EffectRow
  diagnostics : List paideia_as_diagnostics.Diagnostic

def call_site_row_mismatch_diag (explicit callee_row : EffectRow) (span : Span) :
    paideia_as_diagnostics.Diagnostic :=
  f_error F_ROW_MISMATCH ("effect-row mismatch at call site: callee requires an effect not "
    ++ "covered by the caller's explicit row\n" ++ (RowDiff.mk explicit callee_row none).render) span

/-- An implicit caller takes the effects of the callee over; an explicit caller
must have declared them. -/
def infer_or_check_call_row (caller_explicit : Option EffectRow)
    (callee_row caller_current : EffectRow) (span : Span) : RowOutcome :=
  match caller_explicit with
  | none => ⟨compose_rows caller_current callee_row, []⟩
  | some explicit =>
    if callee_row.is_subset_of explicit then ⟨caller_current, []⟩
    else ⟨caller_current, [call_site_row_mismatch_diag explicit callee_row span]⟩

def unhandled_diag (program_span : Span) (eff : EffectId) : paideia_as_diagnostics.Diagnostic :=
  f_error F_UNHANDLED_EFFECT
    ("effect " ++ toString eff.num ++ " escapes the program without a handler") program_span

def check_no_unhandled (final_row : EffectRow) (program_span : Span) :
    List paideia_as_diagnostics.Diagnostic :=
  final_row.fixed.map (unhandled_diag program_span)

/-! ## Call sites -/

structure CallUnifyOutcome where
  subst : Substitution
  diagnostics : List paideia_as_diagnostics.Diagnostic

def row_mismatch_diag (declared inferred : EffectRow) (span : Span) : paideia_as_diagnostics.Diagnostic :=
  f_error F_ROW_MISMATCH
    ("effect-row mismatch at call site:\n" ++ (RowDiff.mk declared inferred none).render) span

def unify_call_row (declared inferred : EffectRow) (span : Span) : CallUnifyOutcome :=
  match unify declared inferred with
  | .ok subst => ⟨subst, []⟩
  | .error .Mismatch => ⟨.new, [row_mismatch_diag declared inferred span]⟩

def instantiate_fresh_tail (declared : EffectRow) (fresh : RowVarId) : EffectRow :=
  { declared with tail := declared.tail.map fun _ => fresh }

/-! ## Handlers -/

def check_handler_order (outer inner_required : EffectRow) (span : Span) :
    List paideia_as_diagnostics.Diagnostic :=
  (inner_required.fixed.filter (!outer.fixed.contains ·)).map fun eff =>
    f_error F_HANDLER_ORDER ("handler installation order: this handler depends on effect "
      ++ toString eff.num ++ " which is not yet handled by an enclosing `with` block") span

/-- A `u32` that stands for a type. -/
abbrev SignatureId := Nat

structure HandlerImpl where
  op_name : String
  signature : SignatureId
  span : Span

/-- Every declared operation is there, and every one that is there is declared
with that signature. -/
def check_handler (effect_name : String) (declared_ops : List (String × SignatureId))
    (impls : List HandlerImpl) (handler_span : Span) : List paideia_as_diagnostics.Diagnostic :=
  let declared := declared_ops.foldl (fun m op => Assoc.insert m op.1 op.2) []
  let missing := (Assoc.keys declared).filter fun name => !(impls.map (·.op_name)).contains name
  let by_span := impls.mergeSort fun i j => decide (i.span.byte_start ≤ j.span.byte_start)
  (missing.mergeSort fun a b => decide (a ≤ b)).map
      (fun op_name => f_error F_HANDLER_MISMATCH ("handler for effect `" ++ effect_name
        ++ "` is missing implementation of op `" ++ op_name ++ "`") handler_span)
    ++ by_span.filterMap fun i =>
      match declared.lookup i.op_name with
      | none => some (f_error F_HANDLER_MISMATCH ("handler for effect `" ++ effect_name
          ++ "` provides implementation of unknown op `" ++ i.op_name ++ "`") i.span)
      | some decl_sig =>
        if decl_sig ≠ i.signature then
          some (f_error F_HANDLER_MISMATCH ("impl of op `" ++ effect_name ++ "." ++ i.op_name
            ++ "` has signature " ++ toString i.signature ++ " but op declares "
            ++ toString decl_sig) i.span)
        else none

def check_pure (body_row : EffectRow) (declaration_span : Span) : List paideia_as_diagnostics.Diagnostic :=
  body_row.fixed.map fun eff =>
    f_error F_PURE_VIOLATION ("function declared `!\x7b\x7d` (pure) but body performs effect "
      ++ toString eff.num) declaration_span

/-! ## What the rules do to the effects of a row -/

@[simp] theorem mem_compose_rows {a b : EffectRow} {e : EffectId} :
    e ∈ (compose_rows a b).fixed ↔ e ∈ a.fixed ∨ e ∈ b.fixed := EffectRow.mem_union

@[simp] theorem mem_perform_row {effect e : EffectId} :
    e ∈ (perform_row effect).fixed ↔ e = effect := by
  unfold perform_row
  simp

@[simp] theorem mem_handle_row {row : EffectRow} {handled e : EffectId} :
    e ∈ (handle_row row handled).fixed ↔ e ∈ row.fixed ∧ e ≠ handled := by
  unfold handle_row
  simp

theorem compose_rows_tail {a b : EffectRow} (ha : a.tail = none) (hb : b.tail = none) :
    (compose_rows a b).tail = none := by
  unfold compose_rows EffectRow.union
  rw [EffectRow.tail_from_ids, ha, hb]
  rfl

/-- A closed row has no tail to make fresh. -/
theorem instantiate_closed {row : EffectRow} (h : row.tail = none) (fresh : RowVarId) :
    instantiate_fresh_tail row fresh = row := by
  apply EffectRow.ext
  · rfl
  · unfold instantiate_fresh_tail
    rw [h]
    rfl

theorem unhandled_diag_injective (span : Span) : Function.Injective (unhandled_diag span) := by
  intro a b h
  unfold unhandled_diag f_error at h
  simp only [paideia_as_diagnostics.Diagnostic.mk.injEq, true_and, and_true] at h
  have htext := congrArg String.toList h
  simp only [String.toList_append, List.append_assoc] at htext
  have hnum := List.append_cancel_right (List.append_cancel_left htext)
  exact EffectId.num_injective (Radix.toString_inj (String.toList_inj.mp hnum))

end paideia_as_elaborator
