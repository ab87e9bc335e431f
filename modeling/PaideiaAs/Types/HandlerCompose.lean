-- Unification of two effect rows where only a bare tail takes in a row
-- (`row_poly.rs`), and the composition of two handlers (`handler_compose.rs`).
import PaideiaAs.Effects.Row

namespace paideia_as_types.row_poly

/-! ## Rows

`EffectId`, `RowVar` and `EffectRow` are local mirrors of the types of the effects
crate, with the same `from_ids` and `union`. -/

abbrev EffectId := paideia_as_effects.EffectId

abbrev RowVar := paideia_as_effects.RowVarId

abbrev EffectRow := paideia_as_effects.EffectRow

/-- Only a tail, and no effect beside it. -/
def is_bare_tail (row : EffectRow) : Bool := row.fixed.isEmpty && row.tail.isSome

structure RowSubst where
  var : RowVar
  row : EffectRow
  deriving DecidableEq

structure RowUnification where
  subst : Option RowSubst
  deriving DecidableEq

inductive RowUnifyError where
  | FixedMismatch
  | TailMismatch
  deriving DecidableEq

/-- Equal rows need no binding, and a bare tail is bound to the other row. The tail
of a bare tail is always there. -/
def unify_rows (a b : EffectRow) : Except RowUnifyError RowUnification :=
  if a.fixed = b.fixed ∧ a.tail = b.tail then .ok ⟨none⟩
  else if is_bare_tail a && b.is_subset_of b then .ok ⟨a.tail.map fun tail_a => ⟨tail_a, b⟩⟩
  else if is_bare_tail b then .ok ⟨b.tail.map fun tail_b => ⟨tail_b, a⟩⟩
  else
    match a.tail, b.tail with
    | some _, some _ => .error .TailMismatch
    | _, _ => .error .FixedMismatch

/-- The row that both rows become. -/
def RowUnification.unified (u : RowUnification) (a : EffectRow) : EffectRow :=
  match u.subst with
  | some subst => subst.row
  | none => a

theorem bare_tail {row : EffectRow} (h : is_bare_tail row = true) : ∃ v, row.tail = some v :=
  Option.isSome_iff_exists.mp (Bool.and_eq_true_iff.mp h).2

variable {a b row : EffectRow}

theorem unify_rows_equal (h : a = b) : unify_rows a b = .ok ⟨none⟩ := by
  unfold unify_rows
  rw [if_pos ⟨congrArg _ h, congrArg _ h⟩]

theorem unify_rows_apart (h : a ≠ b) : unify_rows a b =
    if is_bare_tail a then .ok ⟨a.tail.map fun tail_a => ⟨tail_a, b⟩⟩
    else if is_bare_tail b then .ok ⟨b.tail.map fun tail_b => ⟨tail_b, a⟩⟩
    else
      match a.tail, b.tail with
      | some _, some _ => .error .TailMismatch
      | _, _ => .error .FixedMismatch := by
  have hself : b.is_subset_of b = true :=
    paideia_as_effects.EffectRow.is_subset_of_iff.mpr fun e he => he
  unfold unify_rows
  rw [if_neg fun heq => h (paideia_as_effects.EffectRow.ext heq.1 heq.2), hself, Bool.and_true]

/-- Two rows unify when they are equal or one is a bare tail; of two bare tails
the right one stays. -/
theorem unify_rows_ok_iff : (∃ u, unify_rows a b = .ok u ∧ u.unified a = row) ↔
      (a = b ∧ row = a) ∨ (a ≠ b ∧ is_bare_tail a = true ∧ row = b) ∨
        (a ≠ b ∧ is_bare_tail a = false ∧ is_bare_tail b = true ∧ row = a) := by
  have hok : ∀ w : RowUnification, (∃ u, (.ok w : Except RowUnifyError RowUnification) = .ok u ∧
      u.unified a = row) ↔ row = w.unified a := by
    intro w
    constructor
    · rintro ⟨u, hu, rfl⟩
      cases hu
      rfl
    · rintro rfl
      exact ⟨w, rfl, rfl⟩
  by_cases hab : a = b
  · rw [unify_rows_equal hab, hok]
    simp [hab, RowUnification.unified]
  · rw [unify_rows_apart hab]
    cases ha : is_bare_tail a with
    | true =>
      obtain ⟨v, hv⟩ := bare_tail ha
      rw [if_pos rfl, hok]
      simp [hab, hv, RowUnification.unified]
    | false =>
      cases hb : is_bare_tail b with
      | true =>
        obtain ⟨v, hv⟩ := bare_tail hb
        rw [if_neg Bool.false_ne_true, if_pos rfl, hok]
        simp [hab, hv, RowUnification.unified]
      | false => cases a.tail <;> cases b.tail <;> simp [hab]

end paideia_as_types.row_poly

namespace paideia_as_types.handler_compose

open row_poly

/-! ## Handlers -/

structure ExprId where
  num : Nat
  deriving DecidableEq

/-- The row that is consumed, the row that is left and the body. -/
structure Handler where
  handled : EffectRow
  residual : EffectRow
  body : ExprId
  deriving DecidableEq

inductive ComposeErr where
  | ResidualsDoNotUnify (h1_residual h2_residual : EffectRow) (source : RowUnifyError)
  | OverlappingHandled (overlap : List EffectId)
  deriving DecidableEq

/-- `h1` is the outer handler and `h2` the inner one. -/
def compose_handlers (h1 h2 : Handler) : Except ComposeErr Handler :=
  match unify_rows h1.residual h2.residual with
  | .error source => .error (.ResidualsDoNotUnify h1.residual h2.residual source)
  | .ok unification =>
    let overlap := h1.handled.fixed.filter fun e => h2.handled.fixed.contains e
    if !overlap.isEmpty then .error (.OverlappingHandled overlap)
    else
      let residual := match unification.subst with
        | some subst => subst.row
        | none => h1.residual
      .ok ⟨h1.handled.union h2.handled, residual, h1.body⟩

/-- The two handlers share no effect that they handle. -/
def Independent (h1 h2 : Handler) : Prop := ∀ e ∈ h1.handled.fixed, e ∉ h2.handled.fixed

variable {h1 h2 h : Handler}

theorem Independent.symm (hi : Independent h1 h2) : Independent h2 h1 :=
  fun e h2e h1e => hi e h1e h2e

theorem compose_handlers_ok_iff : compose_handlers h1 h2 = .ok h ↔ Independent h1 h2 ∧
      ∃ u, unify_rows h1.residual h2.residual = .ok u ∧
        h = ⟨h1.handled.union h2.handled, u.unified h1.residual, h1.body⟩ := by
  have hoverlap : (!(h1.handled.fixed.filter fun e => h2.handled.fixed.contains e).isEmpty) = true ↔
      ¬ Independent h1 h2 := by
    rw [Bool.not_eq_true', Bool.eq_false_iff, ne_eq, List.isEmpty_iff, List.filter_eq_nil_iff]
    simp [Independent]
  unfold compose_handlers
  cases hu : unify_rows h1.residual h2.residual with
  | error source =>
    constructor
    · intro hc
      cases hc
    · rintro ⟨-, u, hu, -⟩
      cases hu
  | ok u =>
    dsimp only
    by_cases hi : Independent h1 h2
    · rw [if_neg fun hc => hoverlap.mp hc hi]
      constructor
      · intro hc
        exact ⟨hi, u, rfl, (Except.ok.inj hc).symm⟩
      · rintro ⟨-, w, hw, rfl⟩
        cases hw
        rfl
    · rw [if_pos (hoverlap.mpr hi)]
      constructor
      · intro hc
        cases hc
      · rintro ⟨hi', -⟩
        exact absurd hi' hi

/-! ## The two orders -/

/-- The handler consumes its own effects and the tail of what it leaves. -/
def Documented (h : Handler) : Prop := h.handled.tail = h.residual.tail

/-- The two orders succeed together and give the same rows; the residual row is
the unified one, and the handled row ends in its tail. -/
structure RowsCommute (h1 h2 : Handler) : Prop where
  together : (∃ a, compose_handlers h1 h2 = .ok a) ↔ ∃ b, compose_handlers h2 h1 = .ok b
  rows : ∀ a b, compose_handlers h1 h2 = .ok a → compose_handlers h2 h1 = .ok b →
    a.handled = b.handled ∧ a.residual = b.residual
  residual : ∀ a, compose_handlers h1 h2 = .ok a →
    ∃ u, unify_rows h1.residual h2.residual = .ok u ∧ a.residual = u.unified h1.residual
  tail : ∀ a, compose_handlers h1 h2 = .ok a → a.handled.tail = a.residual.tail

/-- One order succeeds exactly when the handlers share no effect and their
residual rows are equal or one of them is a bare tail. -/
theorem composes_iff : (∃ a, compose_handlers h1 h2 = .ok a) ↔ Independent h1 h2 ∧
      (h1.residual = h2.residual ∨ is_bare_tail h1.residual = true ∨
        is_bare_tail h2.residual = true) := by
  simp only [compose_handlers_ok_iff]
  constructor
  · rintro ⟨a, hi, u, hu, -⟩
    refine ⟨hi, ?_⟩
    rcases unify_rows_ok_iff.mp ⟨u, hu, rfl⟩ with ⟨h, -⟩ | ⟨-, h, -⟩ | ⟨-, -, h, -⟩
    · exact .inl h
    · exact .inr (.inl h)
    · exact .inr (.inr h)
  · rintro ⟨hi, h⟩
    have hunified : ∃ row, ∃ u, unify_rows h1.residual h2.residual = .ok u ∧
        u.unified h1.residual = row := by
      simp only [unify_rows_ok_iff]
      by_cases heq : h1.residual = h2.residual
      · exact ⟨_, .inl ⟨heq, rfl⟩⟩
      · cases hb : is_bare_tail h1.residual with
        | true => exact ⟨_, .inr (.inl ⟨heq, rfl, rfl⟩)⟩
        | false =>
          rw [hb] at h
          rcases h with h | h | h
          · exact absurd h heq
          · cases h
          · exact ⟨_, .inr (.inr ⟨heq, rfl, h, rfl⟩)⟩
    obtain ⟨row, u, hu, -⟩ := hunified
    exact ⟨_, hi, u, hu, rfl⟩

theorem composes_comm :
    (∃ a, compose_handlers h1 h2 = .ok a) ↔ ∃ b, compose_handlers h2 h1 = .ok b := by
  rw [composes_iff, composes_iff]
  constructor
  all_goals
    rintro ⟨hi, h⟩
    exact ⟨hi.symm, h.imp Eq.symm Or.symm⟩

theorem unified_tail {a b row : EffectRow} (htail : a.tail = b.tail)
    (h : ∃ u, unify_rows a b = .ok u ∧ u.unified a = row) : row.tail = a.tail := by
  rcases unify_rows_ok_iff.mp h with ⟨-, rfl⟩ | ⟨-, -, rfl⟩ | ⟨-, -, -, rfl⟩
  · rfl
  · exact htail.symm
  · rfl

/-- Rows with one tail unify to the same row in both orders. -/
theorem unified_symm {a b row row' : EffectRow} (htail : a.tail = b.tail)
    (h : ∃ u, unify_rows a b = .ok u ∧ u.unified a = row)
    (h' : ∃ u, unify_rows b a = .ok u ∧ u.unified b = row') : row = row' := by
  have hbare : is_bare_tail a = true → is_bare_tail b = true → a = b := by
    intro ha hb
    apply paideia_as_effects.EffectRow.ext
    · unfold is_bare_tail at ha hb
      rw [Bool.and_eq_true, List.isEmpty_iff] at ha hb
      rw [ha.1, hb.1]
    · exact htail
  rcases unify_rows_ok_iff.mp h with ⟨hab, rfl⟩ | ⟨hab, ha, rfl⟩ | ⟨hab, ha, hb, rfl⟩
  · rcases unify_rows_ok_iff.mp h' with ⟨-, rfl⟩ | ⟨hba, -, -⟩ | ⟨hba, -, -, -⟩
    · exact hab
    · exact absurd hab.symm hba
    · exact absurd hab.symm hba
  · rcases unify_rows_ok_iff.mp h' with ⟨-, rfl⟩ | ⟨-, hb, -⟩ | ⟨-, -, -, rfl⟩
    · rfl
    · exact absurd (hbare ha hb) hab
    · rfl
  · rcases unify_rows_ok_iff.mp h' with ⟨hba, -⟩ | ⟨-, -, rfl⟩ | ⟨-, hb', -, -⟩
    · exact absurd hba.symm hab
    · rfl
    · rw [hb] at hb'
      cases hb'

/-- Where the residual rows have one tail, the two orders give the same rows. -/
theorem commutes_of_tail (hd1 : Documented h1) (hd2 : Documented h2)
    (htail : h1.residual.tail = h2.residual.tail) : RowsCommute h1 h2 := by
  refine ⟨composes_comm, ?_, ?_, ?_⟩
  · intro a b ha hb
    obtain ⟨-, u, hu, rfl⟩ := compose_handlers_ok_iff.mp ha
    obtain ⟨-, w, hw, rfl⟩ := compose_handlers_ok_iff.mp hb
    refine ⟨?_, unified_symm htail ⟨u, hu, rfl⟩ ⟨w, hw, rfl⟩⟩
    apply paideia_as_effects.EffectRow.ext_mem
    · intro e
      rw [paideia_as_effects.EffectRow.mem_union, paideia_as_effects.EffectRow.mem_union, or_comm]
    · unfold paideia_as_effects.EffectRow.union
      rw [paideia_as_effects.EffectRow.tail_from_ids, paideia_as_effects.EffectRow.tail_from_ids,
        hd1, hd2, htail]
  · intro a ha
    obtain ⟨-, u, hu, rfl⟩ := compose_handlers_ok_iff.mp ha
    exact ⟨u, hu, rfl⟩
  · intro a ha
    obtain ⟨-, u, hu, rfl⟩ := compose_handlers_ok_iff.mp ha
    have hrow := unified_tail htail ⟨u, hu, rfl⟩
    unfold paideia_as_effects.EffectRow.union
    rw [paideia_as_effects.EffectRow.tail_from_ids, hd1, hd2, ← htail, hrow]
    cases h1.residual.tail <;> rfl

/-- Where they have not, the rows that the two orders give cannot agree: of the
two tails, the residual row keeps the one and the handled row the other. -/
theorem not_commutes (hd1 : Documented h1) (hd2 : Documented h2)
    (htail : h1.residual.tail ≠ h2.residual.tail) (ha : compose_handlers h1 h2 = .ok h) :
    ¬ RowsCommute h1 h2 := by
  intro hc
  obtain ⟨hb, hbok⟩ := hc.together.mp ⟨h, ha⟩
  have hend := hc.tail h ha
  have hhandled := congrArg paideia_as_effects.EffectRow.tail (hc.rows h hb ha hbok).1
  obtain ⟨-, u, hu, rfl⟩ := compose_handlers_ok_iff.mp ha
  obtain ⟨-, w, hw, rfl⟩ := compose_handlers_ok_iff.mp hbok
  unfold paideia_as_effects.EffectRow.union at hend hhandled
  rw [paideia_as_effects.EffectRow.tail_from_ids, hd1, hd2] at hend hhandled
  rw [paideia_as_effects.EffectRow.tail_from_ids] at hhandled
  have hne : h1.residual ≠ h2.residual := fun heq => htail (congrArg _ heq)
  rcases unify_rows_ok_iff.mp ⟨u, hu, rfl⟩ with ⟨heq, -⟩ | ⟨-, h1b, hrow1⟩ | ⟨-, -, h2b, hrow1⟩
  · exact hne heq
  · -- the tail of the bare row is the handled one
    obtain ⟨v, hv⟩ := bare_tail h1b
    rw [hrow1, hv] at hend
    exact htail (hv.trans hend)
  · obtain ⟨v, hv⟩ := bare_tail h2b
    rw [hrow1, hhandled, hv] at hend
    exact htail (hend.symm.trans hv.symm)

/-- Composition commutes at the row level exactly when the residual rows have one
tail or the handlers do not compose: no residual row is a bare tail, or they
share an effect. -/
theorem rows_commute_iff (hd1 : Documented h1) (hd2 : Documented h2) :
    RowsCommute h1 h2 ↔ h1.residual.tail = h2.residual.tail ∨
      (is_bare_tail h1.residual = false ∧ is_bare_tail h2.residual = false) ∨
        ¬ Independent h1 h2 := by
  constructor
  · intro hc
    by_cases htail : h1.residual.tail = h2.residual.tail
    · exact .inl htail
    · refine .inr ?_
      by_contra hcomposes
      rw [not_or, not_and_or, not_not, Bool.not_eq_false, Bool.not_eq_false] at hcomposes
      obtain ⟨h, ha⟩ := composes_iff.mpr ⟨hcomposes.2, .inr hcomposes.1⟩
      exact not_commutes hd1 hd2 htail ha hc
  · intro h
    by_cases htail : h1.residual.tail = h2.residual.tail
    · exact commutes_of_tail hd1 hd2 htail
    · have hnone : ∀ a, compose_handlers h1 h2 ≠ .ok a := by
        intro a ha
        obtain ⟨hi, hunify⟩ := composes_iff.mp ⟨a, ha⟩
        rcases h with h | ⟨h1b, h2b⟩ | h
        · exact htail h
        · rw [h1b, h2b] at hunify
          rcases hunify with heq | hb | hb
          · exact htail (congrArg _ heq)
          · cases hb
          · cases hb
        · exact h hi
      refine ⟨composes_comm, ?_, ?_, ?_⟩
      · intro a b ha
        exact absurd ha (hnone a)
      all_goals
        intro a ha
        exact absurd ha (hnone a)

/-- `{1 | r1}` to `{ | r1}`, and `{2 | r2}` to `{ | r2}`. -/
def bareOne : Handler :=
  ⟨.from_ids [⟨1, Nat.zero_lt_one⟩] (some ⟨1, Nat.zero_lt_one⟩), .from_ids [] (some ⟨1, Nat.zero_lt_one⟩), ⟨1⟩⟩

def bareTwo : Handler :=
  ⟨.from_ids [⟨2, by decide⟩] (some ⟨2, by decide⟩), .from_ids [] (some ⟨2, by decide⟩), ⟨2⟩⟩

/-- Each order leaves the tail of the inner handler and consumes that of the outer. -/
theorem bare_tails_do_not_commute : Documented bareOne ∧ Documented bareTwo ∧
    (∃ a b, compose_handlers bareOne bareTwo = .ok a ∧ compose_handlers bareTwo bareOne = .ok b ∧
      a.residual ≠ b.residual ∧ a.handled ≠ b.handled ∧ a.handled.tail ≠ a.residual.tail) ∧
    ¬ RowsCommute bareOne bareTwo := by
  have hdiffers : ∃ a b, compose_handlers bareOne bareTwo = .ok a ∧
      compose_handlers bareTwo bareOne = .ok b ∧ a.residual ≠ b.residual ∧
        a.handled ≠ b.handled ∧ a.handled.tail ≠ a.residual.tail := by
    refine ⟨_, _, rfl, rfl, ?_, ?_, ?_⟩ <;> decide
  refine ⟨rfl, rfl, hdiffers, ?_⟩
  obtain ⟨a, b, ha, hb, hne, -⟩ := hdiffers
  intro hc
  exact hne (hc.rows a b ha hb).2

/-- With one tail the two orders agree. -/
theorem shared_tail_commutes : RowsCommute bareOne
    ⟨.from_ids [⟨2, by decide⟩] (some ⟨1, by decide⟩), .from_ids [] (some ⟨1, by decide⟩), ⟨2⟩⟩ := by
  refine (rows_commute_iff ?_ ?_).mpr (.inl rfl)
  · rfl
  · rfl

end paideia_as_types.handler_compose
