-- Unification of two effect rows, and what the substitution that it gives
-- makes of the two rows (`unify.rs`).
import PaideiaAs.Effects.Row
import PaideiaAs.Lib.Assoc

namespace paideia_as_effects

open EffectRow (ext_mem from_ids from_ids_self is_subset_of_iff missing_isEmpty tail_from_ids)

/-! ## Substitutions -/

structure Substitution where
  bindings : List (RowVarId × EffectRow)

inductive UnifyError where
  | Mismatch
  deriving DecidableEq

namespace Substitution

def new : Substitution := ⟨[]⟩

def bind (s : Substitution) (v : RowVarId) (r : EffectRow) : Substitution :=
  ⟨Assoc.insert s.bindings v r⟩

/-- The loop of `apply`. A variable that was seen before ends the chain. -/
def apply_chain (s : Substitution) (fixed : List EffectId) (tail : Option RowVarId)
    (seen : List RowVarId) : EffectRow :=
  match tail with
  | none => .from_ids fixed none
  | some v =>
    if v ∈ seen then .from_ids fixed (some v)
    else
      match _h : s.bindings.lookup v with
      | some bound => s.apply_chain (fixed ++ bound.fixed) bound.tail (v :: seen)
      | none => .from_ids fixed (some v)
termination_by ((Assoc.keys s.bindings).filter (· ∉ seen)).length
decreasing_by
  rename_i hseen
  have hkey : v ∈ Assoc.keys s.bindings := by
    apply Assoc.lookup_isSome.mp
    rw [_h]
    rfl
  have hsub : (Assoc.keys s.bindings).filter (· ∉ v :: seen)
      = ((Assoc.keys s.bindings).filter (· ∉ seen)).filter (· ≠ v) := by
    rw [List.filter_filter]
    apply List.filter_congr
    intro w _
    simp
  rw [hsub]
  apply List.length_filter_lt_length_iff_exists.mpr
  exact ⟨v, List.mem_filter.mpr ⟨hkey, by simpa using hseen⟩, by simp⟩

def apply (s : Substitution) (row : EffectRow) : EffectRow := s.apply_chain row.fixed row.tail []

end Substitution

/-- The effects of `b` that `a` lacks go into the tail of `a`, and the other way
round. -/
def unify (a b : EffectRow) : Except UnifyError Substitution := do
  let extras_a_only := a.fixed.filter (!b.fixed.contains ·)
  let extras_b_only := b.fixed.filter (!a.fixed.contains ·)
  let subst := Substitution.new
  let subst ←
    if !extras_b_only.isEmpty then
      match a.tail with
      | some v => .ok (subst.bind v (.from_ids extras_b_only b.tail))
      | none => .error .Mismatch
    else .ok subst
  if !extras_a_only.isEmpty then
    match b.tail with
    | some v => .ok (subst.bind v (.from_ids extras_a_only a.tail))
    | none => .error .Mismatch
  else .ok subst

/-! ## What is applied -/

namespace Substitution

variable {s : Substitution} {fixed : List EffectId} {v : RowVarId} {seen : List RowVarId}
  {bound : EffectRow}

theorem apply_chain_none : s.apply_chain fixed none seen = .from_ids fixed none := by
  rw [apply_chain]

theorem apply_chain_seen (hseen : v ∈ seen) :
    s.apply_chain fixed (some v) seen = .from_ids fixed (some v) := by
  rw [apply_chain, if_pos hseen]

theorem apply_chain_unbound (hv : s.bindings.lookup v = none) :
    s.apply_chain fixed (some v) seen = .from_ids fixed (some v) := by
  rw [apply_chain]
  split
  · rfl
  · split
    · rename_i bound hbound
      rw [hv] at hbound
      cases hbound
    · rfl

theorem apply_chain_bound (hseen : v ∉ seen) (hv : s.bindings.lookup v = some bound) :
    s.apply_chain fixed (some v) seen
      = s.apply_chain (fixed ++ bound.fixed) bound.tail (v :: seen) := by
  rw [apply_chain, if_neg hseen]
  split
  · rename_i bound' hbound
    rw [hv] at hbound
    cases hbound
    rfl
  · rename_i hnone
    rw [hv] at hnone
    cases hnone

variable (row : EffectRow)

@[simp] theorem apply_new : new.apply row = row := by
  unfold apply
  cases htail : row.tail with
  | none => rw [apply_chain_none, ← htail, from_ids_self]
  | some v => rw [apply_chain_unbound rfl, ← htail, from_ids_self]

theorem lookup_bind (s : Substitution) (v w : RowVarId) (r : EffectRow) :
    (s.bind v r).bindings.lookup w = if w = v then some r else s.bindings.lookup w :=
  Assoc.lookup_insert ..

/-- With a single binding, the chain ends at once: the tail of the bound row is
not bound, or it is the variable itself. -/
theorem apply_bind (h : row.tail = some v) (r : EffectRow) :
    (new.bind v r).apply row = .from_ids (row.fixed ++ r.fixed) r.tail := by
  have hv : (new.bind v r).bindings.lookup v = some r := by
    rw [lookup_bind, if_pos rfl]
  unfold apply
  rw [h, apply_chain_bound List.not_mem_nil hv]
  cases htail : r.tail with
  | none => exact apply_chain_none
  | some w =>
    by_cases hw : w = v
    · exact apply_chain_seen (by rw [hw]; exact List.mem_singleton_self v)
    · apply apply_chain_unbound
      rw [lookup_bind, if_neg hw]
      rfl

/-- A row whose tail is not bound stays as it is. -/
theorem apply_other (h : row.tail ≠ some v) (r : EffectRow) : (new.bind v r).apply row = row := by
  unfold apply
  cases htail : row.tail with
  | none => rw [apply_chain_none, ← htail, from_ids_self]
  | some w =>
    have hw : (new.bind v r).bindings.lookup w = none := by
      rw [lookup_bind, if_neg]
      · rfl
      · rintro rfl
        exact h htail
    rw [apply_chain_unbound hw, ← htail, from_ids_self]

end Substitution

/-! ## When the two rows agree -/

section

variable {a b : EffectRow}

section

variable (hab : a.is_subset_of b = true)

include hab

theorem unify_same (hba : b.is_subset_of a = true) : unify a b = .ok .new := by
  unfold unify
  simp only [missing_isEmpty, hab, hba]
  rfl

theorem unify_wider (hba : b.is_subset_of a = false) : unify a b = match a.tail with
      | some v => .ok (.bind .new v (.from_ids (b.fixed.filter (!a.fixed.contains ·)) b.tail))
      | none => .error .Mismatch := by
  unfold unify
  simp only [missing_isEmpty, hab, hba]
  cases a.tail <;> rfl

omit hab in
theorem unify_narrower (hab : a.is_subset_of b = false) (hba : b.is_subset_of a = true) :
    unify a b = match b.tail with
      | some v => .ok (.bind .new v (.from_ids (a.fixed.filter (!b.fixed.contains ·)) a.tail))
      | none => .error .Mismatch := by
  unfold unify
  simp only [missing_isEmpty, hab, hba]
  cases b.tail <;> rfl

omit hab in
theorem unify_apart (hab : a.is_subset_of b = false) (hba : b.is_subset_of a = false) :
    unify a b = match a.tail, b.tail with
      | some v, some w =>
        .ok (.bind (.bind .new v (.from_ids (b.fixed.filter (!a.fixed.contains ·)) b.tail)) w
          (.from_ids (a.fixed.filter (!b.fixed.contains ·)) a.tail))
      | _, _ => .error .Mismatch := by
  unfold unify
  simp only [missing_isEmpty, hab, hba]
  cases a.tail <;> cases b.tail <;> rfl

/-- A row takes in the effects that it lacks of a wider one. -/
theorem from_ids_missing (tail : Option RowVarId) :
    from_ids (a.fixed ++ (from_ids (b.fixed.filter (!a.fixed.contains ·))
      tail).fixed) tail = .from_ids b.fixed tail := by
  apply ext_mem
  · intro e
    have hsub := is_subset_of_iff.mp hab e
    by_cases he : e ∈ a.fixed
    · simp [he, hsub he]
    · simp [he]
  · rfl

/-- One row names the effects of the other and more. -/
theorem agree_wider {v : RowVarId} (hv : a.tail = some v) :
    let s := Substitution.bind .new v (.from_ids (b.fixed.filter (!a.fixed.contains ·)) b.tail)
    s.apply a = s.apply b := by
  intro s
  have ha : s.apply a = b := by
    rw [Substitution.apply_bind a hv, tail_from_ids, from_ids_missing hab, from_ids_self]
  by_cases hb : b.tail = some v
  · rw [ha, Substitution.apply_bind b hb, tail_from_ids]
    symm
    apply ext_mem
    · intro e
      simp only [EffectRow.mem_from_ids, List.mem_append, List.mem_filter]
      tauto
    · rfl
  · rw [ha, Substitution.apply_other b hb]

end

/-- Each row lacks an effect of the other: the chains end at different tails, or,
where the tail is one and the same, the second binding takes the place of the
first. -/
theorem disagree_apart {v w : RowVarId} (hba : b.is_subset_of a = false) (hv : a.tail = some v)
    (hw : b.tail = some w) :
    let s := Substitution.bind
      (.bind .new v (.from_ids (b.fixed.filter (!a.fixed.contains ·)) (some w))) w
      (.from_ids (a.fixed.filter (!b.fixed.contains ·)) (some v))
    s.apply a ≠ s.apply b := by
  intro s heq
  have hsw : s.bindings.lookup w
      = some (.from_ids (a.fixed.filter (!b.fixed.contains ·)) (some v)) := by
    rw [Substitution.lookup_bind, if_pos rfl]
  unfold Substitution.apply at heq
  rw [hv, hw] at heq
  by_cases hvw : v = w
  · subst hvw
    rw [Substitution.apply_chain_bound List.not_mem_nil hsw, tail_from_ids,
      Substitution.apply_chain_seen (by simp),
      Substitution.apply_chain_bound List.not_mem_nil hsw, tail_from_ids,
      Substitution.apply_chain_seen (by simp)] at heq
    have hmore : ¬ b.is_subset_of a = true := by simp [hba]
    apply hmore
    apply is_subset_of_iff.mpr
    intro e he
    have hmem : e ∈ (from_ids (b.fixed ++ (from_ids
        (a.fixed.filter (!b.fixed.contains ·)) (some v)).fixed) (some v)).fixed := by
      simp [he]
    rw [← heq] at hmem
    simpa [he] using hmem
  · have hsv : s.bindings.lookup v
        = some (.from_ids (b.fixed.filter (!a.fixed.contains ·)) (some w)) := by
      rw [Substitution.lookup_bind, if_neg hvw, Substitution.lookup_bind, if_pos rfl]
    rw [Substitution.apply_chain_bound List.not_mem_nil hsv, tail_from_ids,
      Substitution.apply_chain_bound (by simpa using fun h => hvw h.symm) hsw,
      tail_from_ids, Substitution.apply_chain_seen (by simp),
      Substitution.apply_chain_bound List.not_mem_nil hsw, tail_from_ids,
      Substitution.apply_chain_bound (by simpa using hvw) hsv, tail_from_ids,
      Substitution.apply_chain_seen (by simp)] at heq
    have htail := congrArg EffectRow.tail heq
    simp only [tail_from_ids, Option.some.injEq] at htail
    exact hvw htail

/-- `unify` gives no substitution: a closed row lacks an effect of the other. -/
def Refused (a b : EffectRow) : Prop :=
  (¬ b.is_subset_of a ∧ a.tail = none) ∨ (¬ a.is_subset_of b ∧ b.tail = none)

/-- The substitution that `unify` gives makes the two rows equal exactly when
they are equal already or one of them, and not the other, lacks an effect. -/
theorem unify_sound_iff (a b : EffectRow) :
    (∀ s, unify a b = .ok s → s.apply a = s.apply b) ↔
      Refused a b ∨ a = b ∨ a.is_subset_of b ≠ b.is_subset_of a := by
  unfold Refused
  cases hab : a.is_subset_of b <;> cases hba : b.is_subset_of a
  case true.true =>
    simp [unify_same hab hba]
  case true.false =>
    have hagree : ∀ s, unify a b = .ok s → s.apply a = s.apply b := by
      intro s hs
      rw [unify_wider hab hba] at hs
      cases hv : a.tail with
      | none => rw [hv] at hs; cases hs
      | some v =>
        rw [hv] at hs
        cases hs
        exact agree_wider hab hv
    simpa using hagree
  case false.true =>
    have hagree : ∀ s, unify a b = .ok s → s.apply a = s.apply b := by
      intro s hs
      rw [unify_narrower hab hba] at hs
      cases hv : b.tail with
      | none => rw [hv] at hs; cases hs
      | some v =>
        rw [hv] at hs
        cases hs
        exact (agree_wider hba hv).symm
    simpa using hagree
  case false.false =>
    have hne : a ≠ b := by
      rintro rfl
      rw [EffectRow.is_subset_of_iff.mpr fun e he => he] at hab
      cases hab
    rw [unify_apart hab hba]
    cases hv : a.tail with
    | none => simp
    | some v =>
      cases hw : b.tail with
      | none => simp
      | some w =>
        simpa [hne] using disagree_apart hba hv hw

/-- An open and a closed row of the same effects, and two open rows that each lack
an effect of the other. -/
theorem unify_unsound :
    let io : EffectId := ⟨1, by decide⟩
    let net : EffectId := ⟨2, by decide⟩
    let r1 : RowVarId := ⟨1, by decide⟩
    let r2 : RowVarId := ⟨2, by decide⟩
    (∃ s, unify (.from_ids [io] (some r1)) (.from_ids [io] none) = .ok s ∧
      (s.apply (.from_ids [io] (some r1))).tail ≠ (s.apply (.from_ids [io] none)).tail) ∧
    (∃ s, unify (.from_ids [io] (some r1)) (.from_ids [net] (some r2)) = .ok s ∧
      (s.apply (.from_ids [io] (some r1))).tail
        ≠ (s.apply (.from_ids [net] (some r2))).tail) ∧
    (∃ s, unify (.from_ids [io] (some r1)) (.from_ids [net] (some r1)) = .ok s ∧
      (s.apply (.from_ids [io] (some r1))).fixed
        ≠ (s.apply (.from_ids [net] (some r1))).fixed) := by
  refine ⟨⟨_, rfl, ?_⟩, ⟨_, rfl, ?_⟩, ⟨_, rfl, ?_⟩⟩ <;> decide +kernel

end

end paideia_as_effects
