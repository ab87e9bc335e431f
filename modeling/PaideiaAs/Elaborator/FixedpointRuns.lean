-- The runs of the fixed-point driver: a pass is a sweep over the equations, the
-- passes end when the least solution is there, and the order of the units does not
-- matter.
import PaideiaAs.Elaborator.EffectFixedpoint

namespace paideia_as_elaborator.effect_fixedpoint

open paideia_as_diagnostics paideia_as_effects paideia_as_ir effect_walker Sweeps
open List (map_cons mem_map mem_of_getElem?)
open IrNodeId (four_ne one_ne three_ne two_ne)
open Equiv (Perm)

variable {units : List FnUnit} {k : Nat}

/-! ## A whole pass -/

/-- What the rest of a pass, from unit `idx` on, leads to. -/
structure PassEnds (units : List FnUnit) (k idx : Nat) (p p' : Pass) : Prop where
  rows : RowsHave (Within (walkedSystem units) (k + 1)) units.length p'.rows
  before : ∀ j < idx, p'.rows[j]? = p.rows[j]?
  unchanged : p'.changed = false ↔ p.changed = false ∧ p'.rows = p.rows

variable {i n : Nat} {rows rows' : List EffectRow} {σ : Perm Nat} {units' : List FnUnit}

theorem set_same {α : Type} {l : List α} {a : α} (h : l[i]? = some a) : l.set i a = l := by
  obtain ⟨hi, rfl⟩ := List.getElem?_eq_some_iff.mp h
  exact List.set_getElem_self hi

theorem run_pass_ok (hu : WellFormed units) {rest : List FnUnit} :
    ∀ {idx : Nat} {p : Pass}, (∀ j, rest[j]? = units[idx + j]?) →
      RowsHave (Halfway units k idx) units.length p.rows →
      ∃ p', run_pass rest idx p = .ok p' ∧ PassEnds units k idx p p' := by
  induction rest with
  | nil =>
    intro idx p hrest hrows
    have hidx : units.length ≤ idx := List.getElem?_eq_none_iff.mp (hrest 0).symm
    refine ⟨p, rfl, ⟨hrows.length, hrows.closed, ?_⟩, fun _ _ => rfl, by simp⟩
    intro i row hi e
    have hlt : i < idx := by
      have := (List.getElem?_eq_some_iff.mp hi).1
      rw [hrows.length] at this
      omega
    rw [hrows.mem i row hi e]
    unfold Halfway
    rw [if_pos hlt]
  | cons unit rest ih =>
    intro idx p hrest hrows
    have hunit : units[idx]? = some unit := (hrest 0).symm
    have hidx : idx < p.rows.length := by
      rw [hrows.length]
      exact (List.getElem?_eq_some_iff.mp hunit).1
    obtain ⟨walker, hwalk, htail, hfixed⟩ := visit_row hu hunit hrows
    generalize hnew : unit.explicit_row.getD walker.current_row = new_row at htail hfixed
    have hset : RowsHave (Halfway units k (idx + 1)) units.length (p.rows.set idx new_row) := by
      refine ⟨by rw [List.length_set, hrows.length], ?_, ?_⟩
      · intro row hrow
        rcases List.mem_or_eq_of_mem_set hrow with h | rfl
        · exact hrows.closed row h
        · exact htail
      · intro i row hi e
        rw [List.getElem?_set] at hi
        split at hi
        · rename_i heq
          obtain rfl : new_row = row := by simpa [hidx] using hi
          rw [hfixed e, ← heq]
          unfold Halfway
          rw [if_pos (by omega)]
        · rename_i hne
          rw [hrows.mem i row hi e]
          unfold Halfway
          have hiff : i < idx + 1 ↔ i < idx := by omega
          simp only [hiff]
    have hrest' : ∀ j, rest[j]? = units[idx + 1 + j]? := by
      intro j
      rw [show idx + 1 + j = idx + (j + 1) by omega, ← hrest (j + 1)]
      rfl
    let p1 : Pass := ⟨p.rows.set idx new_row, p.changed || p.rows[idx]? ≠ some new_row,
      p.diags ++ walker.emitted⟩
    obtain ⟨p', hrun, hends⟩ := ih (p := p1) hrest' hset
    have hother : ∀ j, j ≠ idx → p1.rows[j]? = p.rows[j]? := by
      intro j hj
      exact List.getElem?_set_ne fun h => hj h.symm
    refine ⟨p', ?_, hends.rows, ?_, ?_⟩
    · unfold run_pass
      rw [hwalk, Outcome.ok_bind]
      dsimp only
      rw [hnew]
      exact hrun
    · intro j hj
      rw [hends.before j (by omega), hother j (by omega)]
    · have hat : p'.rows[idx]? = some new_row := by
        rw [hends.before idx (by omega)]
        exact List.getElem?_set_self hidx
      have hchanged : p1.changed = false ↔ p.changed = false ∧ p.rows[idx]? = some new_row := by
        simp [p1]
      rw [hends.unchanged, hchanged]
      constructor
      · rintro ⟨⟨hc, hold⟩, heq⟩
        exact ⟨hc, heq.trans (set_same hold)⟩
      · rintro ⟨hc, heq⟩
        have hold : p.rows[idx]? = some new_row := by rw [← heq, hat]
        exact ⟨⟨hc, hold⟩, heq.trans (set_same hold).symm⟩

theorem RowsHave.congr {P Q : Nat → EffectId → Prop} (h : RowsHave P n rows)
    (hPQ : ∀ i e, P i e ↔ Q i e) : RowsHave Q n rows :=
  ⟨h.length, h.closed, fun i row hi e => (h.mem i row hi e).trans (hPQ i e)⟩

theorem RowsHave.unique {P Q : Nat → EffectId → Prop} (h : RowsHave P n rows)
    (h' : RowsHave Q n rows') :
    rows = rows' ↔ ∀ i < n, ∀ e, P i e ↔ Q i e := by
  constructor
  · rintro rfl i hi e
    have hrow := List.getElem?_eq_getElem (h.length.symm ▸ hi)
    exact (h.mem i _ hrow e).symm.trans (h'.mem i _ hrow e)
  · intro hPQ
    apply List.ext_getElem (h.length.trans h'.length.symm)
    intro i hi hi'
    have hrow := List.getElem?_eq_getElem hi
    have hrow' := List.getElem?_eq_getElem hi'
    apply EffectRow.ext_mem
    · intro e
      rw [h.mem i _ hrow e, h'.mem i _ hrow' e]
      exact hPQ i (h.length ▸ hi) e
    · rw [h.closed _ (mem_of_getElem? hrow), h'.closed _ (mem_of_getElem? hrow')]

/-! ## The passes -/

theorem walkedSystem_bounded (units : List FnUnit) : Bounded (walkedSystem units) units.length := by
  constructor
  · rintro i e ⟨unit, hunit, -⟩
    exact (List.getElem?_eq_some_iff.mp hunit).1
  · rintro i e ⟨unit, hunit, -⟩
    exact (List.getElem?_eq_some_iff.mp hunit).1
  · rintro i c ⟨unit, hunit, -⟩
    exact (List.getElem?_eq_some_iff.mp hunit).1

/-- A pass that changes nothing found the least solution before it. -/
theorem unchanged_iff_settles (h : RowsHave (Within (walkedSystem units) k) units.length rows)
    (h' : RowsHave (Within (walkedSystem units) (k + 1)) units.length rows') :
    rows' = rows ↔ Settles (walkedSystem units) k := by
  rw [h'.unique h, ← stable_iff_settles]
  constructor
  · intro hiff i e hw
    exact (hiff i ((walkedSystem_bounded units).least hw.least) e).mp hw
  · intro hstable i _ e
    exact ⟨hstable i e, Within.succ⟩

/-- What a run gives. Without divergence the rows are the least solution. -/
structure RunEnds (units : List FnUnit) (cap : Nat) (out : FixedPointOutcome) : Prop where
  diverged : out.diverged = false ↔ Settles (walkedSystem units) (cap - 1)
  rows : out.diverged = false → RowsHave (Least (walkedSystem units)) units.length out.rows

theorem run_passes_ok (hu : WellFormed units) (config : FixedPointConfig) :
    ∀ {rows : List EffectRow} {k : Nat}, k < config.max_passes →
      RowsHave (Within (walkedSystem units) k) units.length rows →
      ∃ out, run_passes units config rows k = .ok out ∧ RunEnds units config.max_passes out := by
  intro rows k
  induction hm : config.max_passes - k using Nat.strong_induction_on generalizing rows k with
  | _ m ih =>
  intro hk hrows
  have hstart : RowsHave (Halfway units k 0) units.length rows := hrows.congr fun i e => by
    unfold Halfway
    rw [if_neg (Nat.not_lt_zero i)]
  obtain ⟨p, hpass, hends⟩ := run_pass_ok (p := ⟨rows, false, []⟩) hu
    (fun j => by rw [Nat.zero_add]) hstart
  have hsame : p.changed = false ↔ Settles (walkedSystem units) k := by
    rw [hends.unchanged, ← unchanged_iff_settles hrows hends.rows]
    exact ⟨And.right, fun h => ⟨rfl, h⟩⟩
  unfold run_passes
  rw [hpass, Outcome.ok_bind]
  cases hchanged : p.changed with
  | false =>
    have hsettles := hsame.mp hchanged
    refine ⟨_, rfl, ⟨fun _ => hsettles.mono (by omega), fun _ => rfl⟩, fun _ => ?_⟩
    exact hends.rows.congr fun i e => ⟨Within.least, fun h => (hsettles i e h).succ⟩
  | true =>
    have hnot : ¬ Settles (walkedSystem units) k := by
      rw [← hsame, hchanged]
      simp
    by_cases hcap : k + 1 ≥ config.max_passes
    · refine ⟨⟨p.rows, _, k + 1, true⟩, by rw [if_neg (by simp), if_pos hcap]; rfl, ?_, ?_⟩
      · have hlast : config.max_passes - 1 = k := by omega
        rw [hlast]
        exact ⟨fun h => Bool.noConfusion h, fun h => absurd h hnot⟩
      · intro h
        cases h
    · obtain ⟨out, hrun, hout⟩ := ih _ (by omega) rfl (by omega) hends.rows
      refine ⟨out, ?_, hout⟩
      rw [if_neg (by simp), if_neg hcap]
      exact hrun

theorem seed_rows (hu : WellFormed units) :
    RowsHave (Within (walkedSystem units) 0) units.length (seed units) := by
  have hget : ∀ (i : Nat) (row : EffectRow), (seed units)[i]? = some row →
      ∃ unit : FnUnit, units[i]? = some unit ∧ row = unit.explicit_row.getD .empty := by
    intro i row h
    unfold seed at h
    rw [List.getElem?_map] at h
    obtain ⟨unit, hunit, heq⟩ := Option.map_eq_some_iff.mp h
    exact ⟨unit, hunit, heq.symm⟩
  refine ⟨by simp [seed], ?_, ?_⟩
  · intro row hrow
    obtain ⟨i, hi⟩ := List.mem_iff_getElem?.mp hrow
    obtain ⟨unit, hunit, rfl⟩ := hget i row hi
    cases hexp : unit.explicit_row with
    | none => rfl
    | some declared => exact hu.closed unit (mem_of_getElem? hunit) declared hexp
  · intro i row hi e
    obtain ⟨unit, hunit, rfl⟩ := hget i row hi
    rw [within_zero_iff]
    cases hexp : unit.explicit_row with
    | none => simp [walkedSystem, hunit, hexp]
    | some declared => simp [walkedSystem, hunit, hexp]

theorem run_fixed_point_ok (hu : WellFormed units) (config : FixedPointConfig)
    (hcap : 0 < config.max_passes) :
    ∃ out, run_fixed_point units config = .ok out ∧ RunEnds units config.max_passes out :=
  run_passes_ok hu config hcap (seed_rows hu)

/-! ## The order of the units -/

/-- The call with its slot renumbered. -/
def renumber (σ : Perm Nat) (call : FnCall) : FnCall :=
  { call with callee := ⟨σ call.callee.idx⟩ }

def relabel (σ : Perm Nat) (unit : FnUnit) : FnUnit :=
  { unit with calls := unit.calls.map (renumber σ) }

/-- The same units in another order: unit `i` is at `σ i`. -/
structure Reordered (σ : Perm Nat) (units units' : List FnUnit) : Prop where
  length : units'.length = units.length
  unit : ∀ i, units'[σ i]? = units[i]?.map (relabel σ)

theorem relabel_symm (σ : Perm Nat) (unit : FnUnit) : relabel σ.symm (relabel σ unit) = unit := by
  have hid : renumber σ.symm ∘ renumber σ = id := by
    funext call
    unfold renumber
    simp
  unfold relabel
  dsimp only
  rw [List.map_map, hid, List.map_id]

section

variable (h : Reordered σ units units')

include h

theorem Reordered.symm : Reordered σ.symm units' units := by
  refine ⟨h.length.symm, ?_⟩
  intro i
  have hi := h.unit (σ.symm i)
  rw [Equiv.apply_symm_apply] at hi
  rw [hi, Option.map_map]
  have hid : relabel σ.symm ∘ relabel σ = id := funext fun unit => relabel_symm σ unit
  rw [hid, Option.map_id, id_eq]

omit h in
theorem Reordered.refl (units : List FnUnit) : Reordered (Equiv.refl Nat) units units := by
  refine ⟨rfl, ?_⟩
  intro i
  have hid : relabel (Equiv.refl Nat) = id := by
    funext unit
    have hcalls : renumber (Equiv.refl Nat) = id := rfl
    unfold relabel
    rw [hcalls, List.map_id]
    rfl
  rw [hid, Option.map_id, id_eq]
  rfl

theorem Reordered.lt (hi : i < units.length) : σ i < units.length := by
  have hunit := h.unit i
  rw [List.getElem?_eq_getElem hi] at hunit
  rw [← h.length]
  exact (List.getElem?_eq_some_iff.mp hunit).1

theorem Reordered.wellFormed (hu : WellFormed units) : WellFormed units' := by
  have hof : ∀ unit' ∈ units', ∃ unit ∈ units, unit' = relabel σ unit := by
    intro unit' hmem
    obtain ⟨j, hj⟩ := List.mem_iff_getElem?.mp hmem
    have hunit := h.unit (σ.symm j)
    rw [Equiv.apply_symm_apply, hj] at hunit
    obtain ⟨unit, hi, heq⟩ := Option.map_eq_some_iff.mp hunit.symm
    exact ⟨unit, mem_of_getElem? hi, heq.symm⟩
  constructor
  · intro unit' hmem row hrow
    obtain ⟨unit, hunit, rfl⟩ := hof unit' hmem
    exact hu.closed unit hunit row hrow
  · intro unit' hmem call hcall
    obtain ⟨unit, hunit, rfl⟩ := hof unit' hmem
    obtain ⟨old, hold, rfl⟩ := mem_map.mp hcall
    rw [h.length]
    exact h.lt (hu.slots unit hunit old hold)

omit h in
theorem site_call_relabel (σ : Perm Nat) (calls : List FnCall) (id : IrNodeId) :
    site_call (calls.map (renumber σ)) id = (site_call calls id).map (renumber σ) := by
  induction calls with
  | nil => rfl
  | cons call calls ih =>
    rw [map_cons, site_call, site_call, ih]
    cases site_call calls id with
    | some c => rfl
    | none =>
      rw [Option.map_none, Option.none_or, Option.none_or]
      unfold renumber
      dsimp only
      split
      · rfl
      · rfl

/-- A unit of the reordered group has the effects that it had. -/
theorem Reordered.least_of {e : EffectId} (he : Least (walkedSystem units) i e) :
    Least (walkedSystem units') (σ i) e := by
  have hunit : ∀ {i unit}, units[i]? = some unit → units'[σ i]? = some (relabel σ unit) := by
    intro i unit hi
    rw [h.unit i, hi]
    rfl
  refine he.renumber ?_ ?_ ?_
  · rintro i e ⟨unit, hi, row, hrow, he⟩
    exact ⟨_, hunit hi, row, hrow, he⟩
  · rintro i e ⟨unit, hi, himp, hnode⟩
    exact ⟨_, hunit hi, himp, hnode⟩
  · rintro i c ⟨unit, hi, himp, id, node, hin, hk, call, hcall, rfl⟩
    refine ⟨_, hunit hi, himp, id, node, hin, hk, renumber σ call, ?_, rfl⟩
    unfold relabel
    rw [site_call_relabel, Option.mem_def.mp hcall]
    rfl

theorem Reordered.least_iff (i : Nat) (e : EffectId) :
    Least (walkedSystem units') (σ i) e ↔ Least (walkedSystem units) i e := by
  constructor
  · intro he
    have := h.symm.least_of he
    rwa [Equiv.symm_apply_apply] at this
  · exact h.least_of

end

/-! ## The least solution -/

/-- The driver with its default cap ends without divergence, an explicit unit
keeps its row, an implicit unit gets the least solution, and another order of the
units gives the same rows. -/
def InfersLeast (units : List FnUnit) (span : Span) : Prop :=
  ∃ config out, FixedPointConfig.for_unit_count units.length span = .ok config ∧
    run_fixed_point units config = .ok out ∧ out.diverged = false ∧
    out.rows.length = units.length ∧
    (∀ i unit row, units[i]? = some unit → out.rows[i]? = some row →
      (∀ declared ∈ unit.explicit_row, row = declared) ∧
      (unit.explicit_row = none → row.tail = none ∧
        ∀ e, e ∈ row.fixed ↔ Least (system units) i e)) ∧
    ∀ σ units', Reordered σ units units' → ∃ out', run_fixed_point units' config = .ok out' ∧
      out'.diverged = false ∧ ∀ i < units.length, out'.rows[σ i]? = out.rows[i]?

/-- What the nodes that no walk reaches, and the calls that a later call for the
same node hides, would add to an implicit unit, it has from the others. -/
structure Covered (units : List FnUnit) : Prop where
  own : ∀ i e, (system units).own i e → Least (walkedSystem units) i e
  edge : ∀ i c e, (system units).edge i c → Least (walkedSystem units) c e →
    Least (walkedSystem units) i e

/-- The condition on a group: the cap fits its type, it allows the sweeps that
the least solution takes in any order of the units, and no node is missed. -/
structure Condition (units : List FnUnit) : Prop where
  fits : units.length % 2 ^ 32 < 2 ^ 30
  enough : ∀ σ units', Reordered σ units units' →
    Settles (walkedSystem units') (max (units.length % 2 ^ 32 * 4) 4 - 1)
  covered : Covered units

/-- With fewer than `2^30` units the cap is all right. -/
theorem cap_enough (h : units.length < 2 ^ 30) :
    units.length % 2 ^ 32 < 2 ^ 30 ∧ ∀ σ units', Reordered σ units units' →
      Settles (walkedSystem units') (max (units.length % 2 ^ 32 * 4) 4 - 1) := by
  have hmod : units.length % 2 ^ 32 = units.length := Nat.mod_eq_of_lt (by omega)
  rw [hmod]
  refine ⟨h, ?_⟩
  intro σ units' hr
  have := (walkedSystem_bounded units').settles
  rw [hr.length] at this
  exact this.mono (by omega)

theorem OutsideLambdas.of_walked {t : IrTree} {id : IrNodeId} {node : IrNodeData}
    (h : OutsideLambdas walked t id node) : OutsideLambdas (fun _ children => children) t id node := by
  induction h with
  | here hk => exact .here hk
  | child hk hc _ ih => exact .child hk (mem_walked hc) ih

/-- The two systems have the same solution exactly when the group is covered. -/
theorem least_iff_covered :
    (∀ i e, Least (system units) i e ↔ Least (walkedSystem units) i e) ↔ Covered units := by
  have hiff := least_iff_of_le (S := walkedSystem units) (T := system units) (fun _ _ => Iff.rfl)
    (by
      rintro i e ⟨unit, hi, himp, id, node, hin, hk, hid, heq⟩
      exact ⟨unit, hi, himp, id, node, hin.of_walked, hk, hid, heq⟩)
    (by
      rintro i c ⟨unit, hi, himp, id, node, hin, hk, call, hcall, hc⟩
      obtain ⟨hmem, hnode⟩ := site_call_mem hcall
      exact ⟨unit, hi, himp, id, node, hin.of_walked, hk, call, hmem, hnode, hc⟩)
  rw [hiff]
  exact ⟨fun h => ⟨h.1, h.2⟩, fun h => ⟨h.own, h.edge⟩⟩

theorem least_explicit {S : System EffectId} (hS : S = system units ∨ S = walkedSystem units)
    {unit : FnUnit} {declared : EffectRow} (hi : units[i]? = some unit)
    (hexp : unit.explicit_row = some declared) (e : EffectId) :
    Least S i e ↔ e ∈ declared.fixed := by
  constructor
  · intro h
    cases h with
    | given h => rcases hS with rfl | rfl <;> simpa [system, walkedSystem, hi, hexp] using h
    | own h => rcases hS with rfl | rfl <;> simp [system, walkedSystem, hi, hexp] at h
    | edge h _ => rcases hS with rfl | rfl <;> simp [system, walkedSystem, hi, hexp] at h
  · intro h
    apply Least.given
    rcases hS with rfl | rfl <;> exact ⟨unit, hi, declared, hexp, h⟩

/-- The rows of a settled run, unit by unit. -/
theorem rows_iff_covered (hu : WellFormed units)
    (hrows : RowsHave (Least (walkedSystem units)) units.length rows) :
    (∀ i unit row, units[i]? = some unit → rows[i]? = some row →
      (∀ declared ∈ unit.explicit_row, row = declared) ∧
      (unit.explicit_row = none → row.tail = none ∧
        ∀ e, e ∈ row.fixed ↔ Least (system units) i e)) ↔ Covered units := by
  rw [← least_iff_covered]
  constructor
  · intro h i e
    by_cases hi : i < units.length
    · have hunit := List.getElem?_eq_getElem hi
      have hrow := List.getElem?_eq_getElem (hrows.length.symm ▸ hi)
      cases hexp : units[i].explicit_row with
      | none =>
        rw [← ((h i _ _ hunit hrow).2 hexp).2 e]
        exact hrows.mem i _ hrow e
      | some declared =>
        rw [least_explicit (.inl rfl) hunit hexp, least_explicit (.inr rfl) hunit hexp]
    · constructor
      · intro he
        cases he with
        | given h => exact absurd (List.getElem?_eq_some_iff.mp h.choose_spec.1).1 hi
        | own h => exact absurd (List.getElem?_eq_some_iff.mp h.choose_spec.1).1 hi
        | edge h _ => exact absurd (List.getElem?_eq_some_iff.mp h.choose_spec.1).1 hi
      · intro he
        exact absurd ((walkedSystem_bounded units).least he) hi
  · intro hiff i unit row hunit hrow
    have hclosed := hrows.closed row (mem_of_getElem? hrow)
    constructor
    · intro declared hexp
      apply EffectRow.ext_mem
      · intro e
        rw [hrows.mem i row hrow e, least_explicit (.inr rfl) hunit hexp]
      · rw [hclosed, hu.closed unit (mem_of_getElem? hunit) declared hexp]
    · intro _
      refine ⟨hclosed, ?_⟩
      intro e
      rw [hrows.mem i row hrow e, hiff i e]

/-- The rows of the units do not depend on their order. -/
theorem reordered_rows (hr : Reordered σ units units')
    (h : RowsHave (Least (walkedSystem units)) units.length rows)
    (h' : RowsHave (Least (walkedSystem units')) units'.length rows') :
    ∀ i < units.length, rows'[σ i]? = rows[i]? := by
  intro i hi
  have hrow := List.getElem?_eq_getElem (h.length.symm ▸ hi)
  have hrow' := List.getElem?_eq_getElem (h'.length.symm ▸ hr.length.symm ▸ hr.lt hi)
  rw [hrow, hrow']
  congr 1
  apply EffectRow.ext_mem
  · intro e
    rw [h.mem i _ hrow e, h'.mem (σ i) _ hrow' e]
    exact hr.least_iff i e
  · rw [h.closed _ (mem_of_getElem? hrow), h'.closed _ (mem_of_getElem? hrow')]

theorem for_unit_count_ok {span : Span} {config : FixedPointConfig}
    (h : FixedPointConfig.for_unit_count n span = .ok config) :
    n % 2 ^ 32 < 2 ^ 30 ∧ config = ⟨max (n % 2 ^ 32 * 4) 4, span⟩ := by
  unfold FixedPointConfig.for_unit_count at h
  split at h
  · cases h
    exact ⟨by omega, rfl⟩
  · cases h

/-- A run without divergence that gives each unit its effects misses no node. -/
theorem covered_of_run (hu : WellFormed units) {config : FixedPointConfig}
    (hcap : 0 < config.max_passes) {out : FixedPointOutcome}
    (hrun : run_fixed_point units config = .ok out) (hdiv : out.diverged = false)
    (hrows : ∀ i unit row, units[i]? = some unit → out.rows[i]? = some row →
      (∀ declared ∈ unit.explicit_row, row = declared) ∧
      (unit.explicit_row = none → row.tail = none ∧
        ∀ e, e ∈ row.fixed ↔ Least (system units) i e)) : Covered units := by
  obtain ⟨out', hrun', hends⟩ := run_fixed_point_ok hu config hcap
  obtain rfl : out = out' := by
    rw [hrun] at hrun'
    cases hrun'
    rfl
  exact (rows_iff_covered hu (hends.rows hdiv)).mp hrows

/-- The driver infers the least solution exactly under the condition. -/
theorem infers_least_iff (units : List FnUnit) (span : Span) (hu : WellFormed units) :
    InfersLeast units span ↔ Condition units := by
  unfold InfersLeast
  constructor
  · rintro ⟨config, out, hconfig, hrun, hdiv, -, hrows, horder⟩
    obtain ⟨hfits, rfl⟩ := for_unit_count_ok hconfig
    refine ⟨hfits, ?_, covered_of_run hu (by simp) hrun hdiv hrows⟩
    intro σ units' hr
    obtain ⟨out', hrun', hdiv', -⟩ := horder σ units' hr
    obtain ⟨out'', hrun'', hends⟩ := run_fixed_point_ok (hr.wellFormed hu)
      ⟨max (units.length % 2 ^ 32 * 4) 4, span⟩ (by simp)
    obtain rfl : out' = out'' := by
      rw [hrun'] at hrun''
      cases hrun''
      rfl
    exact hends.diverged.mp hdiv'
  · rintro ⟨hfits, henough, hcovered⟩
    have hconfig : FixedPointConfig.for_unit_count units.length span
        = .ok ⟨max (units.length % 2 ^ 32 * 4) 4, span⟩ := by
      unfold FixedPointConfig.for_unit_count
      rw [if_pos (by omega)]
    obtain ⟨out, hrun, hends⟩ := run_fixed_point_ok hu
      ⟨max (units.length % 2 ^ 32 * 4) 4, span⟩ (by simp)
    have hdiv := hends.diverged.mpr (henough _ _ (.refl units))
    have hrows := hends.rows hdiv
    refine ⟨_, out, hconfig, hrun, hdiv, hrows.length, (rows_iff_covered hu hrows).mpr hcovered, ?_⟩
    intro σ units' hr
    obtain ⟨out', hrun', hends'⟩ := run_fixed_point_ok (hr.wellFormed hu)
      ⟨max (units.length % 2 ^ 32 * 4) 4, span⟩ (by simp)
    have hdiv' := hends'.diverged.mpr (henough σ units' hr)
    exact ⟨out', hrun', hdiv', reordered_rows hr hrows (hends'.rows hdiv')⟩

/-! ## Trees as they are documented -/

/-- A `Handle` has a handler and a body, and a `Branch` at most three children. -/
inductive Documented : IrTree → Prop where
  | node {id : IrNodeId} {node : IrNodeData} {children : List IrTree} :
      (node.kind = .Handle → children.length ≤ 2) → (node.kind = .Branch → children.length ≤ 3) →
      (∀ c ∈ children, Documented c) → Documented (.node id node children)

theorem OutsideLambdas.to_walked {t : IrTree} {id : IrNodeId} {node : IrNodeData}
    (h : OutsideLambdas (fun _ children => children) t id node) (ht : Documented t) :
    OutsideLambdas walked t id node := by
  induction h with
  | here hk => exact .here hk
  | @child _ _ node _ children c hk hc _ ih =>
    cases ht with
    | node hhandle hbranch hchildren =>
    have hall : walked node.kind children = children := by
      unfold walked
      split
      · rename_i h
        exact List.take_of_length_le (hhandle h)
      · rename_i h
        exact List.take_of_length_le (hbranch h)
      · rfl
    exact .child hk (hall.symm ▸ hc) (ih (hchildren c hc))

theorem site_call_of_mem {calls : List FnCall} (hn : (calls.map (·.node)).Nodup) {call : FnCall}
    (h : call ∈ calls) : site_call calls call.node = some call := by
  induction calls with
  | nil => cases h
  | cons c calls ih =>
    rw [map_cons, List.nodup_cons] at hn
    unfold site_call
    rcases List.mem_cons.mp h with rfl | h
    · cases hrest : site_call calls call.node with
      | none => simp
      | some c' =>
        obtain ⟨hmem, hnode⟩ := site_call_mem hrest
        exact absurd (mem_map.mpr ⟨c', hmem, hnode⟩) hn.1
    · rw [ih hn.2 h, Option.some_or]

/-- With trees as they are documented and one call for each node nothing is
missed. -/
theorem covered_of_documented (htree : ∀ unit ∈ units, Documented unit.root)
    (hcalls : ∀ unit ∈ units, (unit.calls.map (·.node)).Nodup) : Covered units := by
  constructor
  · rintro i e ⟨unit, hunit, himp, id, node, hin, hrest⟩
    have hmem := mem_of_getElem? hunit
    exact .own ⟨unit, hunit, himp, id, node, hin.to_walked (htree unit hmem), hrest⟩
  · rintro i c e ⟨unit, hunit, himp, id, node, hin, hk, call, hcall, rfl, rfl⟩ he
    have hmem := mem_of_getElem? hunit
    refine .edge ⟨unit, hunit, himp, call.node, node, hin.to_walked (htree unit hmem), hk, call, ?_, rfl⟩ he
    exact site_call_of_mem (hcalls unit hmem) hcall

/-! ## Two functions that call each other, and groups that are too large -/

/-- `a` performs an effect and calls `b`, and `b` calls `a`. -/
def twoCycle : List FnUnit :=
  [{ root := .node ⟨3, three_ne⟩ ⟨.Action, first_byte⟩
      [leaf ⟨1, one_ne⟩ .Perform, leaf ⟨2, two_ne⟩ .App]
     explicit_row := none
     performs := [⟨⟨1, one_ne⟩, "mem", "alloc"⟩]
     calls := [⟨⟨2, two_ne⟩, ⟨1⟩⟩] },
   { root := .node ⟨2, two_ne⟩ ⟨.Action, first_byte⟩ [leaf ⟨1, one_ne⟩ .App]
     explicit_row := none
     performs := []
     calls := [⟨⟨1, one_ne⟩, ⟨0⟩⟩] }]

theorem documented_leaf (id : IrNodeId) (kind : IrKind) : Documented (leaf id kind) :=
  .node (fun _ => Nat.zero_le _) (fun _ => Nat.zero_le _) fun c hc => by cases hc

theorem two_cycle_infers_least : InfersLeast twoCycle first_byte := by
  have hu : WellFormed twoCycle := by
    constructor
    · decide
    · unfold SlotsIn
      decide
  have htree : ∀ unit ∈ twoCycle, Documented unit.root := by
    intro unit hunit
    rcases List.mem_pair.mp hunit with rfl | rfl
    · refine .node (by decide) (by decide) ?_
      intro c hc
      rcases List.mem_pair.mp hc with rfl | rfl <;> exact documented_leaf ..
    · refine .node (by decide) (by decide) ?_
      intro c hc
      obtain rfl := List.mem_singleton.mp hc
      exact documented_leaf ..
  obtain ⟨hfits, henough⟩ := @cap_enough twoCycle (by decide)
  exact (infers_least_iff twoCycle first_byte hu).mpr
    ⟨hfits, henough, covered_of_documented htree (by decide)⟩

/-- A function that does nothing. -/
def silent : FnUnit := ⟨leaf ⟨1, one_ne⟩ .Action, none, [], []⟩

/-- A `Handle` with a clause that performs, behind handler and body. -/
def withClause : FnUnit :=
  ⟨.node ⟨4, four_ne⟩ ⟨.Handle, first_byte⟩
    [leaf ⟨2, two_ne⟩ .Var, leaf ⟨3, three_ne⟩ .Var, leaf ⟨1, one_ne⟩ .Perform],
    none, [⟨⟨1, one_ne⟩, "mem", "alloc"⟩], []⟩

/-- The default cap of `2^30` units leaves its type, and a clause is not walked. -/
theorem least_not_inferred : ¬ InfersLeast (List.replicate (2 ^ 30) silent) first_byte ∧
    ¬ InfersLeast [withClause] first_byte := by
  constructor
  · rintro ⟨config, out, hconfig, -⟩
    have := (for_unit_count_ok hconfig).1
    rw [List.length_replicate] at this
    omega
  · rintro ⟨config, out, hconfig, hrun, hdiv, -, hrows, -⟩
    have hu : WellFormed [withClause] := by
      constructor
      · decide
      · unfold SlotsIn
        decide
    have hcap : 0 < config.max_passes := by
      rw [(for_unit_count_ok hconfig).2]
      simp
    have hcovered := covered_of_run hu hcap hrun hdiv hrows
    have hown : (system [withClause]).own 0 (effect_of ⟨1, by decide⟩) := by
      refine ⟨withClause, rfl, rfl, ⟨1, by decide⟩, ⟨.Perform, first_byte⟩, ?_, rfl, by decide, rfl⟩
      have hlast : leaf ⟨1, by decide⟩ .Perform ∈ [leaf ⟨2, by decide⟩ .Var,
          leaf ⟨3, by decide⟩ .Var, leaf ⟨1, by decide⟩ .Perform] := by simp
      exact .child (by decide) hlast (.here (by decide))
    -- the walk reaches the handle and its two variables
    have hkinds : ∀ id node, OutsideLambdas walked withClause.root id node →
        node.kind = .Handle ∨ node.kind = .Var := by
      intro id node h
      cases h with
      | here => exact .inl rfl
      | child _ hc h =>
        rcases List.mem_pair.mp hc with rfl | rfl
        all_goals
          cases h with
          | here => exact .inr rfl
          | child _ hc _ => cases hc
    have hnone : ∀ e, ¬ Least (walkedSystem [withClause]) 0 e := by
      intro e h
      cases h with
      | given h =>
        obtain ⟨unit, hunit, row, hrow, -⟩ := h
        cases hunit
        cases hrow
      | own h =>
        obtain ⟨unit, hunit, -, id, node, hin, hk, -⟩ := h
        cases hunit
        rcases hkinds id node hin with h | h <;> simp [hk] at h
      | edge h _ =>
        obtain ⟨unit, hunit, -, id, node, hin, hk, -⟩ := h
        cases hunit
        rcases hkinds id node hin with h | h <;> simp [hk] at h
    exact hnone _ (hcovered.own _ _ hown)

end paideia_as_elaborator.effect_fixedpoint
