-- What a substitution makes of a row, as a walk along its bindings, and the
-- composition of two substitutions (`Substitution::apply` and `compose`).
import PaideiaAs.Effects.Unify
import PaideiaAs.Lib.Chains

namespace paideia_as_effects

namespace Substitution

/-- `prior`'s bindings, rewritten, and behind them the bindings of `self` that
they do not shadow. -/
def compose (self prior : Substitution) : Substitution :=
  ⟨prior.bindings.map (fun e => (e.1, self.apply e.2)) ++
    Assoc.without self.bindings (Assoc.keys prior.bindings)⟩

/-- A binding leads from its variable to the tail of the bound row. -/
def links (s : Substitution) : Chains.Links RowVarId EffectId :=
  fun v => (s.bindings.lookup v).map fun bound => ({e | e ∈ bound.fixed}, bound.tail)

variable {s : Substitution}

/-! ## `apply` as a walk -/

variable {v : RowVarId}

theorem links_none (h : s.bindings.lookup v = none) : s.links v = none := by
  unfold links
  rw [h]
  rfl

theorem links_some {bound : EffectRow} (h : s.bindings.lookup v = some bound) :
    s.links v = some ({e | e ∈ bound.fixed}, bound.tail) := by
  unfold links
  rw [h]
  rfl

/-- The loop of `apply` from the variables in `seen` on. -/
theorem apply_chain_path (fixed : List EffectId) (tail : Option RowVarId) (seen : List RowVarId) :
    ∃ vs A, Chains.Path s.links tail vs A (s.apply_chain fixed tail seen).tail ∧ vs.Nodup ∧
      (∀ v ∈ vs, v ∉ seen) ∧
      (∀ v, (s.apply_chain fixed tail seen).tail = some v →
        s.links v = none ∨ v ∈ vs ∨ v ∈ seen) ∧
      ∀ e, e ∈ (s.apply_chain fixed tail seen).fixed ↔ e ∈ fixed ∨ e ∈ A := by
  induction fixed, tail, seen using apply_chain.induct s with
  | case1 fixed seen =>
    rw [apply_chain_none]
    refine ⟨[], ∅, .nil none, List.nodup_nil, ?_, ?_, ?_⟩
    · intro v hv
      cases hv
    · intro v hv
      cases hv
    · simp
  | case2 fixed seen v hseen =>
    rw [apply_chain_seen hseen]
    refine ⟨[], ∅, .nil _, List.nodup_nil, ?_, ?_, ?_⟩
    · intro w hw
      cases hw
    · intro w hw
      cases hw
      exact .inr (.inr hseen)
    · simp
  | case3 fixed seen v hseen bound hbound ih =>
    obtain ⟨vs, A, hpath, hnodup, hfresh, hstops, hmem⟩ := ih
    rw [apply_chain_bound hseen hbound]
    refine ⟨v :: vs, _, .cons (links_some hbound) hpath, ?_, ?_, ?_, ?_⟩
    · apply List.nodup_cons.mpr
      exact ⟨fun hv => hfresh v hv (.head _), hnodup⟩
    · intro w hw
      rcases List.mem_cons.mp hw with rfl | hw
      · exact hseen
      · exact fun h => hfresh w hw (.tail _ h)
    · intro w hw
      rcases hstops w hw with h | h | h
      · exact .inl h
      · exact .inr (.inl (.tail _ h))
      · rcases List.mem_cons.mp h with rfl | h
        · exact .inr (.inl (.head _))
        · exact .inr (.inr h)
    · intro e
      rw [hmem e, List.mem_append, or_assoc]
      rfl
  | case4 fixed seen v hseen hnone =>
    rw [apply_chain_unbound hnone]
    refine ⟨[], ∅, .nil _, List.nodup_nil, ?_, ?_, ?_⟩
    · intro w hw
      cases hw
    · intro w hw
      cases hw
      exact .inl (links_none hnone)
    · simp

/-- `apply` walks along the bindings from the tail of the row. -/
theorem apply_walk (s : Substitution) (row : EffectRow) :
    ∃ vs A, Chains.Walk s.links row.tail vs A (s.apply row).tail ∧
      ∀ e, e ∈ (s.apply row).fixed ↔ e ∈ row.fixed ∨ e ∈ A := by
  obtain ⟨vs, A, hpath, hnodup, -, hstops, hmem⟩ := apply_chain_path (s := s) row.fixed row.tail []
  refine ⟨vs, A, ⟨hpath, hnodup, ?_⟩, hmem⟩
  intro v hv
  rcases hstops v hv with h | h | h
  · exact .inl h
  · exact .inr h
  · cases h

/-- `apply` ends on every substitution; the row has its effects in order and
once each, and applying again changes nothing. -/
theorem apply_settles (s : Substitution) (row : EffectRow) :
    (s.apply row).fixed.Pairwise (· < ·) ∧ (s.apply row).fixed.Nodup ∧
      (∀ e ∈ row.fixed, e ∈ (s.apply row).fixed) ∧ s.apply (s.apply row) = s.apply row := by
  obtain ⟨vs, A, hwalk, hmem⟩ := apply_walk s row
  refine ⟨(s.apply row).sorted, (s.apply row).sorted.imp fun h => ne_of_lt h, ?_, ?_⟩
  · intro e he
    exact (hmem e).mpr (.inl he)
  · obtain ⟨ws, B, hwalk', hmem'⟩ := apply_walk s (s.apply row)
    obtain ⟨ws', C, hagain, hsub⟩ := hwalk.again
    obtain ⟨-, rfl, htail⟩ := hagain.unique hwalk'
    apply EffectRow.ext_mem
    · intro e
      rw [hmem' e]
      constructor
      · rintro (h | h)
        · exact h
        · exact (hmem e).mpr (.inr (hsub h))
      · exact .inl
    · exact htail.symm

/-! ## Composition -/

theorem lookup_compose (s1 s2 : Substitution) (v : RowVarId) : (s2.compose s1).bindings.lookup v =
      match s1.bindings.lookup v with
      | some row => some (s2.apply row)
      | none => s2.bindings.lookup v := by
  unfold compose
  rw [List.lookup_append, Assoc.lookup_map, Assoc.lookup_without]
  cases h : s1.bindings.lookup v with
  | some row => rfl
  | none => rw [if_neg (Assoc.lookup_none.mp h)]; rfl

theorem composes (s1 s2 : Substitution) :
    Chains.Composes s1.links s2.links (s2.compose s1).links := by
  constructor
  · intro v A t hv
    cases hrow : s1.bindings.lookup v with
    | none =>
      rw [links_none hrow] at hv
      cases hv
    | some row =>
      rw [links_some hrow] at hv
      cases hv
      obtain ⟨us, B, hwalk, hmem⟩ := apply_walk s2 row
      refine ⟨us, B, _, hwalk, ?_⟩
      have hbound : (s2.compose s1).bindings.lookup v = some (s2.apply row) := by
        rw [lookup_compose, hrow]
      rw [links_some hbound, show {e | e ∈ (s2.apply row).fixed} = {e | e ∈ row.fixed} ∪ B from
        Set.ext hmem]
  · intro v hv
    have hnone : s1.bindings.lookup v = none := by
      unfold links at hv
      rwa [Option.map_eq_none_iff] at hv
    unfold links
    rw [lookup_compose, hnone]

/-- The law of composition holds for a row where no binding stands in the way of
another. -/
theorem compose_apply (s1 s2 : Substitution) (x : EffectRow)
    (h : Chains.Clear s1.links s2.links x.tail) :
    (s2.compose s1).apply x = s2.apply (s1.apply x) := by
  obtain ⟨vs, A, h1, hmem1⟩ := apply_walk s1 x
  obtain ⟨us, B, h2, hmem2⟩ := apply_walk s2 (s1.apply x)
  obtain ⟨ws, hwalk⟩ := (composes s1 s2).walk h h1 h2
  obtain ⟨ws', C, hwalk', hmem⟩ := apply_walk (s2.compose s1) x
  obtain ⟨-, rfl, htail⟩ := hwalk.unique hwalk'
  apply EffectRow.ext_mem
  · intro e
    rw [hmem e, hmem2 e, hmem1 e, or_assoc]
    rfl
  · exact htail.symm

theorem walk_bind {r : EffectRow} (h : r.tail ≠ some v) :
    Chains.Walk (new.bind v r).links (some v) [v] ({e | e ∈ r.fixed} ∪ ∅) r.tail := by
  refine ⟨.cons (links_some ?_) (.nil _), List.nodup_singleton v, ?_⟩
  · rw [lookup_bind, if_pos rfl]
  · intro w hw
    apply Or.inl
    apply links_none
    rw [lookup_bind, if_neg]
    · rfl
    · rintro rfl
      exact h hw

/-- One binding leads to a variable that the other binds. -/
theorem compose_apply_chain :
    let io : EffectId := ⟨1, by decide⟩
    let net : EffectId := ⟨2, by decide⟩
    let v : RowVarId := ⟨1, by decide⟩
    let w : RowVarId := ⟨2, by decide⟩
    let s1 := new.bind v (.from_ids [io] (some w))
    let s2 := new.bind w (.from_ids [net] none)
    (s2.compose s1).apply (.from_ids [] (some v)) = s2.apply (s1.apply (.from_ids [] (some v))) := by
  intro io net v w s1 s2
  apply compose_apply
  have h1 := walk_bind (v := v) (r := .from_ids [io] (some w)) (by decide)
  have h2 := walk_bind (v := w) (r := .from_ids [net] none) (by decide)
  have h3 : Chains.Walk s2.links none [] ∅ none := by
    refine ⟨.nil none, List.nodup_nil, ?_⟩
    intro u hu
    cases hu
  refine .on h1 h2 ?_ h3 ?_
  · intro u hu
    cases hu
  · rintro u (hu | hu) <;> cases hu

/-- Two bindings of `s1` one behind the other: the first is rewritten by the
binding that `s2` has for the second variable. -/
theorem compose_overtakes :
    let io : EffectId := ⟨1, by decide⟩
    let net : EffectId := ⟨2, by decide⟩
    let v : RowVarId := ⟨1, by decide⟩
    let w : RowVarId := ⟨2, by decide⟩
    let s1 := (new.bind w (.from_ids [io] none)).bind v (.from_ids [] (some w))
    let s2 := new.bind w (.from_ids [net] none)
    (s2.compose s1).apply (.from_ids [] (some v)) = .from_ids [net] none ∧
      s2.apply (s1.apply (.from_ids [] (some v))) = .from_ids [io] none ∧
      (s2.compose s1).apply (.from_ids [] (some v))
        ≠ s2.apply (s1.apply (.from_ids [] (some v))) := by
  intro io net v w s1 s2
  have hv1 : s1.bindings.lookup v = some (.from_ids [] (some w)) := rfl
  have hw1 : s1.bindings.lookup w = some (.from_ids [io] none) := rfl
  have hw : s2.apply (.from_ids [] (some w)) = .from_ids [net] none := apply_bind _ rfl _
  have hv : (s2.compose s1).bindings.lookup v = some (.from_ids [net] none) := by
    rw [lookup_compose, hv1]
    exact congrArg some hw
  have hcomposed : (s2.compose s1).apply (.from_ids [] (some v)) = .from_ids [net] none := by
    unfold apply
    rw [EffectRow.tail_from_ids, apply_chain_bound List.not_mem_nil hv, EffectRow.tail_from_ids,
      apply_chain_none]
    rfl
  have hfirst : s1.apply (.from_ids [] (some v)) = .from_ids [io] none := by
    unfold apply
    rw [EffectRow.tail_from_ids, apply_chain_bound List.not_mem_nil hv1, EffectRow.tail_from_ids,
      apply_chain_bound (by decide) hw1, EffectRow.tail_from_ids, apply_chain_none]
    rfl
  have hthen : s2.apply (.from_ids [io] none) = .from_ids [io] none := apply_other _ (by decide) _
  rw [hcomposed, hfirst, hthen]
  decide

end Substitution

end paideia_as_effects
