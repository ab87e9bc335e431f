-- `generalize` and then `instantiate`: the type comes back with fresh names
-- for the variables that the environment does not have, and only for those.
import PaideiaAs.ShellHm.Infer

open Assoc

namespace paideia_as_shell_hm

open RowType

variable {s : Substitution} {ρ : TypeVar → TypeVar}

/-! ## Renaming -/

mutual

theorem MonoType.rename_id (t : MonoType) : t.rename id = t := by
  match t with
  | .Var _ => rfl
  | .Con _ => rfl
  | .Arrow a b => rw [MonoType.rename, a.rename_id, b.rename_id]
  | .Record row => rw [MonoType.rename, row.rename_id]
  | .EffectRow row => rw [MonoType.rename, row.rename_id]
  | .Typed x e => rw [MonoType.rename, x.rename_id, e.rename_id]

theorem RowType.rename_id (r : RowType) : r.rename id = r := by
  match r with
  | .Empty => rfl
  | .RowVar _ => rfl
  | .Extend f ty rest => rw [RowType.rename, ty.rename_id, rest.rename_id]

end

/-- The substitution binds variables to variables, as `ρ` says. -/
def Substitution.Names (s : Substitution) (ρ : TypeVar → TypeVar) : Prop :=
  ∀ v, s.lookup v = some (.Var (ρ v)) ∨ s.lookup v = none ∧ ρ v = v

section

variable {again : RowKind → RowType → Outcome RowType}

mutual

/-- Such a substitution enters no row. -/
theorem MonoType.walk_rename (hs : s.Names ρ) (t : MonoType) (ht : t.Ordered) :
    t.walk s again = .ok (t.rename ρ) := by
  match t with
  | .Var v =>
    show (.ok ((s.lookup v).getD (.Var v)) : Outcome MonoType) = .ok (.Var (ρ v))
    rcases hs v with hv | ⟨hv, hρ⟩
    · rw [hv]
      rfl
    · rw [hv, hρ]
      rfl
  | .Con _ => rfl
  | .Arrow a b =>
    rw [MonoType.walk, a.walk_rename hs ht.1, b.walk_rename hs ht.2]
    rfl
  | .Record row =>
    rw [MonoType.walk, row.walk_rename hs .record ht (by simp [RowKind.Shaped])]
    rfl
  | .EffectRow row =>
    rw [MonoType.walk, row.walk_rename hs .effect ht.2 fun _ => ht.1]
    rfl
  | .Typed x e =>
    rw [MonoType.walk, x.walk_rename hs .record ht.1 (by simp [RowKind.Shaped]),
      e.walk_rename hs .effect ht.2.2 fun _ => ht.2.1]
    rfl

theorem RowType.walk_rename (hs : s.Names ρ) (r : RowType) (k : RowKind) (hr : r.Ordered)
    (hk : k.Shaped r) : r.walk s again k = .ok (r.rename ρ) := by
  match r with
  | .Empty => rfl
  | .RowVar v =>
    rcases hs v with hv | ⟨hv, hρ⟩
    · rw [RowType.walk_other (by rw [hv]; cases k <;> simp), hv]
      simp [RowType.rename]
    · rw [RowType.walk_other (by simp [hv]), hv]
      simp [RowType.rename, hρ]
  | .Extend f ty rest =>
    have hrest : k.Shaped rest := fun h => (hk h).2
    rw [RowType.walk, ty.walk_rename hs hr.1, rest.walk_rename hs k hr.2 hrest]
    have hnew : k.Shaped ((RowType.Extend f ty rest).rename ρ) := fun h => (hk h).rename
    show (.ok (k.cons f (ty.rename ρ) (rest.rename ρ)) : Outcome RowType) = _
    rw [RowKind.cons_of_shaped hnew]
    rfl

end

end

/-! ## The names that `instantiate` gives -/

/-- The name of `v` in an instance whose fresh names start at `k`. -/
def nameFrom (quantified : List TypeVar) (k : Nat) (v : TypeVar) : TypeVar :=
  match (renamingFrom quantified .empty k).lookup v with
  | some (.Var w) => w
  | _ => v

theorem names_renamingFrom (quantified : List TypeVar) (k : Nat) :
    (renamingFrom quantified .empty k).Names (nameFrom quantified k) := by
  intro v
  unfold nameFrom
  by_cases hv : v ∈ quantified
  · obtain ⟨w, -, -, hw⟩ := @renamingFrom_mem quantified .empty k v hv
    rw [hw]
    exact .inl rfl
  · rw [renamingFrom_other hv]
    exact .inr ⟨rfl, rfl⟩

theorem nameFrom_other {quantified : List TypeVar} {k : Nat} {v : TypeVar} (hv : v ∉ quantified) :
    nameFrom quantified k v = v := by
  unfold nameFrom
  rw [renamingFrom_other hv]
  rfl

theorem nameFrom_mem {quantified : List TypeVar} {k : Nat} {v : TypeVar} (hv : v ∈ quantified) :
    k ≤ nameFrom quantified k v ∧ nameFrom quantified k v < k + quantified.length := by
  unfold nameFrom
  obtain ⟨w, hlo, hhi, hw⟩ := @renamingFrom_mem quantified .empty k v hv
  rw [hw]
  exact ⟨hlo, hhi⟩

theorem nameFrom_inj {quantified : List TypeVar} {k : Nat} {v w : TypeVar} (hv : v ∈ quantified)
    (hw : w ∈ quantified) (h : nameFrom quantified k v = nameFrom quantified k w) : v = w := by
  have hlook : ∀ u ∈ quantified, (renamingFrom quantified .empty k).lookup u =
      some (.Var (nameFrom quantified k u)) := by
    intro u hu
    rcases names_renamingFrom quantified k u with h | ⟨h, -⟩
    · exact h
    · obtain ⟨x, -, -, hx⟩ := @renamingFrom_mem quantified .empty k u hu
      rw [h] at hx
      cases hx
  have hw' := hlook w hw
  rw [← h] at hw'
  exact renamingFrom_inj hv hw (hlook v hv) hw'

/-- An instance is the body with the new names, unless the counter runs out. -/
theorem instantiate_eq (n : Nat) (scheme : TypeScheme) (g : FreshVarGen) (hg : g.next ≤ g.max)
    (hbody : scheme.body.Ordered) : instantiate n scheme g =
      if g.next + scheme.quantified.length ≤ g.max then
        .ok (scheme.body.rename (nameFrom scheme.quantified g.next),
          { g with next := g.next + scheme.quantified.length })
      else .error .panic := by
  obtain ⟨quantified, body⟩ := scheme
  unfold instantiate
  rcases quantified with _ | ⟨q, qs⟩
  · have hid : nameFrom [] g.next = id := funext fun v => nameFrom_other (List.not_mem_nil)
    rw [hid, MonoType.rename_id]
    simp [hg]
  · rw [if_neg (by simp), rename_quantified_eq _ _ hg]
    split
    · have hwalk : body.walk _ ((renamingFrom (q :: qs) .empty g.next).apply_rows n) = _ :=
        body.walk_rename (names_renamingFrom (q :: qs) g.next) hbody
      simp only [Outcome.ok_bind, Substitution.apply, hwalk]
      rfl
    · rfl

/-- The names of an instance: a variable of the environment keeps its name, the
others of the type get fresh ones, and no two variables of the type get the same. -/
structure FreshNames (env : TypeEnv) (t : MonoType) (g g' : FreshVarGen) (ρ : TypeVar → TypeVar) :
    Prop where
  kept : ∀ v ∈ env.free_vars, ρ v = v
  fresh : ∀ v ∈ t.free_vars, v ∉ env.free_vars → g.next ≤ ρ v ∧ ρ v < g'.next
  injective : ∀ v ∈ t.free_vars, ∀ w ∈ t.free_vars, ρ v = ρ w → v = w

theorem freshNames (env : TypeEnv) (t : MonoType) (g : FreshVarGen)
    (hpast : ∀ v ∈ t.free_vars ++ env.free_vars, v < g.next) :
    FreshNames env t g { g with next := g.next + (generalize env t).quantified.length }
      (nameFrom (generalize env t).quantified g.next) := by
  have hmem : ∀ v ∈ t.free_vars, v ∉ env.free_vars → v ∈ (generalize env t).quantified :=
    fun v hv hn => mem_generalize.mpr ⟨hv, hn⟩
  have hkept : ∀ v ∈ env.free_vars, nameFrom (generalize env t).quantified g.next v = v :=
    fun v hv => nameFrom_other fun hq => (mem_generalize.mp hq).2 hv
  -- a fresh name is past every name that is kept
  have hapart : ∀ v ∈ t.free_vars, v ∉ env.free_vars → ∀ w ∈ env.free_vars,
      nameFrom (generalize env t).quantified g.next v ≠ w := by
    intro v hv hn w hw
    have hlo := (@nameFrom_mem _ g.next v (hmem v hv hn)).1
    exact (lt_of_lt_of_le (hpast w (List.mem_append_right _ hw)) hlo).ne'
  refine ⟨hkept, fun v hv hn => nameFrom_mem (hmem v hv hn), ?_⟩
  intro v hv w hw h
  by_cases hve : v ∈ env.free_vars
  · by_cases hwe : w ∈ env.free_vars
    · rwa [hkept v hve, hkept w hwe] at h
    · rw [hkept v hve] at h
      exact absurd h.symm (hapart w hw hwe v hve)
  · by_cases hwe : w ∈ env.free_vars
    · rw [hkept w hwe] at h
      exact absurd h (hapart v hv hve w hwe)
    · exact nameFrom_inj (hmem v hv hve) (hmem w hw hwe) h

/-- An instance of the generalised type is the type, up to the names of the
variables that the environment does not have. -/
theorem instantiate_generalize (n : Nat) (env : TypeEnv) (t : MonoType) (g : FreshVarGen)
    (ht : t.Ordered) (hg : g.next ≤ g.max)
    (hpast : ∀ v ∈ t.free_vars ++ env.free_vars, v < g.next) :
    ∃ g' ρ, FreshNames env t g g' ρ ∧ instantiate n (generalize env t) g =
      if g'.next ≤ g'.max then .ok (t.rename ρ, g') else .error .panic :=
  ⟨_, _, freshNames env t g hpast, instantiate_eq n (generalize env t) g hg ht⟩

/-- `a -> { x: b | c } ! { log: a | d }`, where the environment has `b`. -/
theorem typed_value_instance : ∃ g' ρ,
    FreshNames ⟨[("f", ⟨[0], .Arrow (.Var 0) (.Var 1)⟩)]⟩
      (.Arrow (.Var 0) (.Typed (.Extend "x" (.Var 1) (.RowVar 2))
        (.Extend "log" (.Var 0) (.RowVar 3)))) { next := 4 } g' ρ ∧
      instantiate 0 (generalize ⟨[("f", ⟨[0], .Arrow (.Var 0) (.Var 1)⟩)]⟩
        (.Arrow (.Var 0) (.Typed (.Extend "x" (.Var 1) (.RowVar 2))
          (.Extend "log" (.Var 0) (.RowVar 3))))) { next := 4 } =
        if g'.next ≤ g'.max then .ok ((MonoType.Arrow (.Var 0) (.Typed
          (.Extend "x" (.Var 1) (.RowVar 2)) (.Extend "log" (.Var 0) (.RowVar 3)))).rename ρ, g')
        else .error .panic := by
  refine instantiate_generalize 0 _ _ _ ?_ ?_ ?_
  · simp [MonoType.Ordered, RowType.Ordered, RowType.InOrder, RowType.get]
  · decide
  · decide

end paideia_as_shell_hm
