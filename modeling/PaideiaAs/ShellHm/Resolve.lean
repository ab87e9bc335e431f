-- When `apply` has an end. The bindings are ranked: a bound variable in the
-- binding of another has a lower rank. Then every type can be applied to, and
-- where the kinds of the variables are kept, `apply` is the substitution of
-- the types that the bindings lead to.
import PaideiaAs.ShellHm.Subst

open Assoc

namespace paideia_as_shell_hm

open RowType
open Outcome (bind_eq_ok)

variable {κ : TypeVar → Kind} {s s₁ s₂ s₃ : Substitution} {n : Nat}

namespace Substitution

/-- The binding of `v` holds `u`. -/
def Leads (s : Substitution) (v u : TypeVar) : Prop :=
  ∃ t, s.lookup v = some t ∧ u ∈ t.free_vars

/-- No variable reaches itself through the bindings. -/
def Acyclic (s : Substitution) : Prop := ∀ v, ¬ Relation.TransGen s.Leads v v

/-- `apply`, `apply_row` and `apply_effect_row` come to an end on everything. -/
def Terminates (s : Substitution) : Prop :=
  ∃ N, ∀ n ≥ N, (∀ t, ∃ t', s.apply n t = .ok t') ∧ (∀ r, ∃ r', s.apply_row n r = .ok r') ∧
    ∀ r, ∃ r', s.apply_effect_row n r = .ok r'

/-- A bound variable in the binding of another has a lower rank. -/
def Ranked (s : Substitution) (rank : TypeVar → Nat) : Prop :=
  ∀ v t u, s.lookup v = some t → u ∈ t.free_vars → (s.lookup u).isSome → rank u < rank v

theorem exists_bound (s : Substitution) (rank : TypeVar → Nat) :
    ∃ M, ∀ v, (s.lookup v).isSome → rank v < M := by
  obtain ⟨es⟩ := s
  induction es with
  | nil => exact ⟨0, fun v hv => by simp [lookup] at hv⟩
  | cons e es ih =>
    obtain ⟨M, hM⟩ := ih
    refine ⟨max M (rank e.1 + 1), ?_⟩
    intro v hv
    obtain ⟨w, t⟩ := e
    unfold lookup at hv hM
    rw [lookup_cons_ite] at hv
    split at hv
    · rename_i h
      subst h
      exact lt_of_lt_of_le (Nat.lt_succ_self _) (Nat.le_max_right _ _)
    · exact lt_of_lt_of_le (hM v hv) (Nat.le_max_left _ _)

end Substitution

/-! ## Where the walk ends -/

section

variable {again : RowKind → RowType → Outcome RowType}

theorem RowType.walk_bound {k : RowKind} {v : TypeVar} {next : RowType}
    (h : s.lookup v = some (k.wrap next)) : (RowVar v).walk s again k = again k next := by
  unfold Substitution.lookup at h
  unfold RowType.walk
  rw [h]
  cases k <;> rfl

theorem RowType.walk_other {k : RowKind} {v : TypeVar}
    (h : ∀ next, s.lookup v ≠ some (k.wrap next)) :
    (RowVar v).walk s again k = .ok (k.splice v ((s.lookup v).getD (.Var v))) := by
  unfold Substitution.lookup at *
  unfold RowType.walk
  rcases hv : s.entries.lookup v with _ | t
  · simp [pure, Except.pure]
  · rw [hv] at h
    cases k <;> cases t <;> first | rfl | exact absurd rfl (h _)

/-- What holds at the ends of a walk and goes through each form of a type. -/
structure WalkRule (s : Substitution) (again : RowKind → RowType → Outcome RowType)
    (p : MonoType → MonoType → Prop) (q : RowKind → RowType → RowType → Prop) : Prop where
  var : ∀ v, p (.Var v) ((s.lookup v).getD (.Var v))
  con : ∀ x, p (.Con x) (.Con x)
  arrow : ∀ {a a' b b'}, p a a' → p b b' → p (.Arrow a b) (.Arrow a' b')
  record : ∀ {r r'}, q .record r r' → p (.Record r) (.Record r')
  effect : ∀ {r r'}, q .effect r r' → p (.EffectRow r) (.EffectRow r')
  typed : ∀ {x x' e e'}, q .record x x' → q .effect e e' → p (.Typed x e) (.Typed x' e')
  empty : ∀ k, q k .Empty .Empty
  bound : ∀ {k v next r'}, s.lookup v = some (k.wrap next) → again k next = .ok r' →
    q k (.RowVar v) r'
  other : ∀ {k v}, (∀ next, s.lookup v ≠ some (k.wrap next)) →
    q k (.RowVar v) (k.splice v ((s.lookup v).getD (.Var v)))
  extend : ∀ {k f ty ty' rest rest'}, p ty ty' → q k rest rest' →
    q k (.Extend f ty rest) (k.cons f ty' rest')

section

variable {p : MonoType → MonoType → Prop} {q : RowKind → RowType → RowType → Prop}

mutual

theorem WalkRule.type (h : WalkRule s again p q) (t : MonoType) {t' : MonoType}
    (ht : t.walk s again = .ok t') : p t t' := by
  match t with
  | .Var v =>
    cases ht
    exact h.var v
  | .Con x =>
    cases ht
    exact h.con x
  | .Arrow a b =>
    simp only [MonoType.walk, bind_eq_ok] at ht
    obtain ⟨a', ha, b', hb, ht⟩ := ht
    cases ht
    exact h.arrow (h.type a ha) (h.type b hb)
  | .Record r =>
    simp only [MonoType.walk, bind_eq_ok] at ht
    obtain ⟨r', hr, ht⟩ := ht
    cases ht
    exact h.record (h.row r .record hr)
  | .EffectRow r =>
    simp only [MonoType.walk, bind_eq_ok] at ht
    obtain ⟨r', hr, ht⟩ := ht
    cases ht
    exact h.effect (h.row r .effect hr)
  | .Typed x e =>
    simp only [MonoType.walk, bind_eq_ok] at ht
    obtain ⟨x', hx, e', he, ht⟩ := ht
    cases ht
    exact h.typed (h.row x .record hx) (h.row e .effect he)

theorem WalkRule.row (h : WalkRule s again p q) (r : RowType) (k : RowKind) {r' : RowType}
    (hr : r.walk s again k = .ok r') : q k r r' := by
  match r with
  | .Empty =>
    cases hr
    exact h.empty k
  | .RowVar v =>
    by_cases hb : ∃ next, s.lookup v = some (k.wrap next)
    · obtain ⟨next, hb⟩ := hb
      exact h.bound hb ((RowType.walk_bound hb).symm.trans hr)
    · rw [RowType.walk_other (not_exists.mp hb)] at hr
      cases hr
      exact h.other (not_exists.mp hb)
  | .Extend f ty rest =>
    simp only [RowType.walk, bind_eq_ok] at hr
    obtain ⟨ty', hty, rest', hrest, hr⟩ := hr
    cases hr
    exact h.extend (h.type ty hty) (h.row rest k hrest)

end

end

mutual

/-- `v` is the tail of a row of kind `j` in the type. -/
def MonoType.Tail (j : RowKind) (v : TypeVar) : MonoType → Prop
  | .Var _ => False
  | .Con _ => False
  | .Arrow a b => a.Tail j v ∨ b.Tail j v
  | .Record row => row.Tail j v .record
  | .EffectRow row => row.Tail j v .effect
  | .Typed x e => x.Tail j v .record ∨ e.Tail j v .effect

def RowType.Tail (j : RowKind) (v : TypeVar) (k : RowKind) : RowType → Prop
  | .Empty => False
  | .RowVar w => w = v ∧ k = j
  | .Extend _ ty rest => ty.Tail j v ∨ rest.Tail j v k

end

mutual

theorem MonoType.Tail.free {j : RowKind} {v : TypeVar} (t : MonoType) (h : t.Tail j v) :
    v ∈ t.free_vars := by
  match t with
  | .Var _ => cases h
  | .Con _ => cases h
  | .Arrow a b =>
    simp only [MonoType.free_vars, List.mem_append]
    exact Or.imp (MonoType.Tail.free a) (MonoType.Tail.free b) h
  | .Record row => exact RowType.Tail.free row .record h
  | .EffectRow row => exact RowType.Tail.free row .effect h
  | .Typed x e =>
    simp only [MonoType.free_vars, List.mem_append]
    exact Or.imp (RowType.Tail.free x .record) (RowType.Tail.free e .effect) h

theorem RowType.Tail.free {j : RowKind} {v : TypeVar} (r : RowType) (k : RowKind)
    (h : r.Tail j v k) : v ∈ r.free_vars := by
  match r with
  | .Empty => cases h
  | .RowVar w =>
    rw [← h.1]
    exact List.mem_singleton_self w
  | .Extend _ ty rest =>
    simp only [RowType.free_vars, List.mem_append]
    exact Or.imp (MonoType.Tail.free ty) (RowType.Tail.free rest k) h

end

/-- The walk ends on every row that it enters. -/
def Enters (s : Substitution) (again : RowKind → RowType → Outcome RowType)
    (tail : RowKind → TypeVar → Prop) : Prop :=
  ∀ j v next, tail j v → s.lookup v = some (j.wrap next) → ∃ r', again j next = .ok r'

theorem Enters.or {p q : RowKind → TypeVar → Prop} :
    Enters s again (fun j v => p j v ∨ q j v) ↔ Enters s again p ∧ Enters s again q := by
  unfold Enters
  grind

mutual

theorem MonoType.walk_ends_iff (t : MonoType) :
    (∃ t', t.walk s again = .ok t') ↔ Enters s again fun j v => t.Tail j v := by
  match t with
  | .Var v => exact ⟨fun _ j w next h => h.elim, fun _ => ⟨_, rfl⟩⟩
  | .Con _ => exact ⟨fun _ j w next h => h.elim, fun _ => ⟨_, rfl⟩⟩
  | .Arrow a b =>
    refine Iff.trans ?_ Enters.or.symm
    rw [← a.walk_ends_iff, ← b.walk_ends_iff]
    simp [MonoType.walk, bind_eq_ok, pure, Except.pure]
  | .Record row =>
    refine Iff.trans ?_ (row.walk_ends_iff .record)
    simp [MonoType.walk, bind_eq_ok, pure, Except.pure]
  | .EffectRow row =>
    refine Iff.trans ?_ (row.walk_ends_iff .effect)
    simp [MonoType.walk, bind_eq_ok, pure, Except.pure]
  | .Typed x e =>
    refine Iff.trans ?_ Enters.or.symm
    rw [← x.walk_ends_iff .record, ← e.walk_ends_iff .effect]
    simp [MonoType.walk, bind_eq_ok, pure, Except.pure]

theorem RowType.walk_ends_iff (r : RowType) (k : RowKind) :
    (∃ r', r.walk s again k = .ok r') ↔ Enters s again fun j v => r.Tail j v k := by
  match r with
  | .Empty => exact ⟨fun _ j w next h => h.elim, fun _ => ⟨_, rfl⟩⟩
  | .RowVar v =>
    by_cases hb : ∃ next, s.lookup v = some (k.wrap next)
    · obtain ⟨next, hb⟩ := hb
      rw [RowType.walk_bound hb]
      refine ⟨?_, fun h => h k v next ⟨rfl, rfl⟩ hb⟩
      rintro h j w next' ⟨rfl, rfl⟩ hb'
      rw [hb] at hb'
      rwa [← RowKind.wrap_inj (Option.some.inj hb')]
    · refine ⟨?_, fun _ => ⟨_, RowType.walk_other (not_exists.mp hb)⟩⟩
      rintro - j w next' ⟨rfl, rfl⟩ hb'
      exact absurd ⟨next', hb'⟩ hb
  | .Extend f ty rest =>
    refine Iff.trans ?_ Enters.or.symm
    rw [← ty.walk_ends_iff, ← rest.walk_ends_iff k]
    simp [RowType.walk, bind_eq_ok, pure, Except.pure]

end

theorem MonoType.walk_ends (t : MonoType)
    (h : ∀ v ∈ t.free_vars, ∀ k next, s.lookup v = some (k.wrap next) →
      ∃ r', again k next = .ok r') : ∃ t', t.walk s again = .ok t' :=
  t.walk_ends_iff.mpr fun j v next hv => h v (MonoType.Tail.free t hv) j next

theorem RowType.walk_ends (r : RowType) (k : RowKind)
    (h : ∀ v ∈ r.free_vars, ∀ k next, s.lookup v = some (k.wrap next) →
      ∃ r', again k next = .ok r') : ∃ r', r.walk s again k = .ok r' :=
  (r.walk_ends_iff k).mpr fun j v next hv => h v (RowType.Tail.free r k hv) j next

theorem Substitution.singleton_ranked {v : TypeVar} {t : MonoType} (hocc : v ∉ t.free_vars) :
    (Substitution.singleton v t).Ranked fun _ => 0 := by
  intro w x u hw hu hbound
  obtain ⟨-, rfl⟩ := lookup_singleton_some hw
  obtain ⟨y, hy⟩ := Option.isSome_iff_exists.mp hbound
  obtain ⟨rfl, -⟩ := lookup_singleton_some hy
  exact absurd hu hocc

/-- Fuel past the ranks of the variables is enough. -/
theorem Substitution.Ranked.apply_rows_ends {rank : TypeVar → Nat} (h : s.Ranked rank) (n : Nat)
    (k : RowKind) (row : RowType) (hrow : ∀ v ∈ row.free_vars, (s.lookup v).isSome → rank v < n) :
    ∃ r', s.apply_rows (n + 1) k row = .ok r' := by
  induction n generalizing k row with
  | zero =>
    refine RowType.walk_ends row k ?_
    intro v hv j next hb
    exact absurd (hrow v hv (by simp [hb])) (Nat.not_lt_zero _)
  | succ n ih =>
    refine RowType.walk_ends row k ?_
    intro v hv j next hb
    refine ih j next ?_
    intro u hu hbu
    have huv := h v _ u hb (by simpa using hu) hbu
    have hvn := hrow v hv (by simp [hb])
    omega

theorem Substitution.Ranked.terminates {rank : TypeVar → Nat} (h : s.Ranked rank) :
    s.Terminates := by
  obtain ⟨M, hM⟩ := s.exists_bound rank
  refine ⟨M + 1, ?_⟩
  intro n hn
  obtain ⟨m, rfl⟩ : ∃ m, n = m + 1 := ⟨n - 1, by omega⟩
  have hrows : ∀ k row, ∃ r', s.apply_rows (m + 1) k row = .ok r' := fun k row =>
    h.apply_rows_ends m k row fun v _ hv => lt_of_lt_of_le (hM v hv) (by omega)
  exact ⟨fun t => t.walk_ends fun _ _ k next _ => hrows k next,
    fun r => r.walk_ends .record fun _ _ k next _ => hrows k next,
    fun r => r.walk_ends .effect fun _ _ k next _ => hrows k next⟩

end

/-! ## Settled bindings -/

def Kind.Binds (κ : TypeVar → Kind) : Kind → MonoType → Prop
  | .type, t => t.Kinded κ
  | .row k, t => ∃ r, t = k.wrap r ∧ k.Shaped r ∧ r.Kinded κ k

theorem Kind.Binds.fits {j : Kind} {t : MonoType} (h : j.Binds κ t) : j.Fits κ t := by
  cases j with
  | type => exact h
  | row k => exact .inr h

theorem Kind.Binds.kinded {j : Kind} {t : MonoType} (h : j.Binds κ t) : t.Kinded κ := by
  cases j with
  | type => exact h
  | row k =>
    obtain ⟨r, rfl, hs, hr⟩ := h
    exact RowKind.kinded_wrap.mpr ⟨hs, hr⟩

namespace Substitution

/-- The bindings keep the kinds, they have an end, and a type variable is bound
to a type without bound variables. -/
structure Settled (κ : TypeVar → Kind) (s : Substitution) : Prop where
  binds : ∀ v t, s.lookup v = some t → (κ v).Binds κ t
  ranked : ∃ rank, s.Ranked rank
  types_done : ∀ v t u, κ v = .type → s.lookup v = some t → u ∈ t.free_vars → s.lookup u = none

/-- `σ` gives each variable what its binding leads to. -/
structure Resolves (κ : TypeVar → Kind) (s : Substitution) (σ : TypeVar → MonoType) : Prop where
  unbound : ∀ v, s.lookup v = none → σ v = .Var v
  type_bound : ∀ v t, s.lookup v = some t → κ v = .type → σ v = t
  row_bound : ∀ v t, s.lookup v = some t → κ v ≠ .type → σ v = t.subst σ
  fits : ∀ v, (κ v).Fits κ (σ v)
  done : ∀ v u, u ∈ (σ v).free_vars → s.lookup u = none

/-- The bindings followed for `n` rows. -/
def follow (κ : TypeVar → Kind) (s : Substitution) : Nat → TypeVar → MonoType
  | 0, v => (s.lookup v).getD (.Var v)
  | n + 1, v =>
    match s.lookup v with
    | none => .Var v
    | some t => if κ v = .type then t else t.subst (s.follow κ n)

theorem follow_unbound {v : TypeVar} (h : s.lookup v = none) (n : Nat) :
    s.follow κ n v = .Var v := by
  cases n <;> simp [follow, h]

theorem Ranked.follow_stable {rank : TypeVar → Nat} (h : s.Ranked rank) (n m : Nat) (hm : n ≤ m)
    (v : TypeVar) (hv : rank v < n) : s.follow κ m v = s.follow κ n v := by
  induction n generalizing m v with
  | zero => omega
  | succ n ih =>
    obtain ⟨m, rfl⟩ : ∃ j, m = j + 1 := ⟨m - 1, by omega⟩
    rcases hb : s.lookup v with _ | t
    · rw [follow_unbound hb, follow_unbound hb]
    · simp only [follow, hb]
      split
      · rfl
      · refine MonoType.subst_congr t ?_
        intro u hu
        rcases hbu : s.lookup u with _ | tu
        · rw [follow_unbound hbu, follow_unbound hbu]
        · have huv := h v t u hb hu (by simp [hbu])
          exact ih m (by omega) u (by omega)

theorem Settled.exists_resolves (h : s.Settled κ) : ∃ σ, s.Resolves κ σ := by
  obtain ⟨rank, hrank⟩ := h.ranked
  obtain ⟨M, hM⟩ := s.exists_bound rank
  refine ⟨s.follow κ (M + 1), ?_⟩
  have hrow : ∀ v t, s.lookup v = some t → κ v ≠ .type →
      s.follow κ (M + 1) v = t.subst (s.follow κ (M + 1)) := by
    intro v t hb hk
    simp only [follow, hb, hk, if_false]
    refine MonoType.subst_congr t ?_
    intro u hu
    rcases hbu : s.lookup u with _ | tu
    · rw [follow_unbound hbu]
    · have hlt := hM u (by simp [hbu])
      have hstable : s.follow κ (M + 1) u = s.follow κ M u :=
        hrank.follow_stable M (M + 1) (by omega) u hlt
      rw [← hstable]
      simp only [follow, hbu]
  have htype : ∀ v t, s.lookup v = some t → κ v = .type → s.follow κ (M + 1) v = t := by
    intro v t hb hk
    simp only [follow, hb, hk, if_true]
  -- both remaining facts go down the ranks
  have hboth : ∀ N v, rank v < N → (κ v).Fits κ (s.follow κ (M + 1) v) ∧
      ∀ u ∈ (s.follow κ (M + 1) v).free_vars, s.lookup u = none := by
    intro N
    induction N with
    | zero => intro v hv; omega
    | succ N ih =>
      intro v hv
      rcases hb : s.lookup v with _ | t
      · rw [follow_unbound hb]
        refine ⟨Respects.self [v] v (by simp), ?_⟩
        intro u hu
        simp only [MonoType.free_vars, List.mem_singleton] at hu
        rwa [hu]
      · have hbinds := h.binds v t hb
        rcases hk : κ v with _ | k
        · rw [htype v t hb hk]
          exact ⟨by rw [hk] at hbinds; exact hbinds, fun u hu => h.types_done v t u hk hb hu⟩
        · rw [hk] at hbinds
          rw [hrow v t hb (by simp [hk])]
          obtain ⟨r, rfl, hs, hr⟩ := hbinds
          have hresp : Respects κ κ (s.follow κ (M + 1)) r.free_vars := by
            intro u hu
            rcases hbu : s.lookup u with _ | tu
            · rw [follow_unbound hbu]
              exact Respects.self [u] u (by simp)
            · have := hrank v _ u hb (by simpa using hu) (by simp [hbu])
              exact (ih u (by omega)).1
          obtain ⟨h1, h2, h3⟩ := r.kinded_subst k hr hs hresp
          rw [RowKind.subst_wrap]
          refine ⟨.inr ⟨_, rfl, h2, h1⟩, ?_⟩
          intro u hu
          rw [RowKind.free_vars_wrap] at hu
          obtain ⟨w, hw, huw⟩ := h3 u hu
          rcases hbw : s.lookup w with _ | tw
          · rw [follow_unbound hbw] at huw
            simp only [MonoType.free_vars, List.mem_singleton] at huw
            rwa [huw]
          · have := hrank v _ w hb (by simpa using hw) (by simp [hbw])
            exact (ih w (by omega)).2 u huw
  exact ⟨fun v hv => follow_unbound hv _, htype, hrow,
    fun v => (hboth _ v (Nat.lt_succ_self _)).1,
    fun v => (hboth _ v (Nat.lt_succ_self _)).2⟩

variable {σ : TypeVar → MonoType}

theorem Resolves.respects (h : s.Resolves κ σ) (vs : List TypeVar) :
    Respects κ κ σ vs := fun v _ => h.fits v

theorem Resolves.source (hσ : s.Resolves κ σ) (h : s.Settled κ)
    {v u : TypeVar} (hu : u ∈ (σ v).free_vars) :
    u = v ∨ ∃ w t, s.lookup w = some t ∧ u ∈ t.free_vars := by
  obtain ⟨rank, hrank⟩ := h.ranked
  have hdown : ∀ N v, rank v < N → u ∈ (σ v).free_vars →
      u = v ∨ ∃ w t, s.lookup w = some t ∧ u ∈ t.free_vars := by
    intro N
    induction N with
    | zero => intro v hv; omega
    | succ N ih =>
      intro v hv hu
      rcases hb : s.lookup v with _ | t
      · rw [hσ.unbound v hb] at hu
        simp only [MonoType.free_vars, List.mem_singleton] at hu
        exact .inl hu
      · by_cases hk : κ v = .type
        · rw [hσ.type_bound v t hb hk] at hu
          exact .inr ⟨v, t, hb, hu⟩
        · rw [hσ.row_bound v t hb hk] at hu
          obtain ⟨w, hw, huw⟩ := ((h.binds v t hb).fits.subst (hσ.respects _)).2 u hu
          rcases hbw : s.lookup w with _ | tw
          · rw [hσ.unbound w hbw] at huw
            simp only [MonoType.free_vars, List.mem_singleton] at huw
            exact .inr ⟨v, t, hb, huw ▸ hw⟩
          · have := hrank v t w hb hw (by simp [hbw])
            obtain rfl | hsrc := ih w (by omega) huw
            · exact .inr ⟨v, t, hb, hw⟩
            · exact .inr hsrc
  exact hdown _ v (Nat.lt_succ_self _) hu

end Substitution

/-! ## What `apply` gives -/

section

/-- `σ` is as `s` on type variables and on the tails with no row behind. -/
structure Substitution.Leaves (κ : TypeVar → Kind) (s : Substitution) (σ : TypeVar → MonoType) :
    Prop where
  type : ∀ v, κ v = .type → σ v = (s.lookup v).getD (.Var v)
  row : ∀ v k, κ v = .row k → (∀ next, s.lookup v ≠ some (k.wrap next)) →
    k.splice v (σ v) = k.splice v ((s.lookup v).getD (.Var v))

/-- On a tail with a row behind, `σ` is what `again` gives of that row. -/
def Substitution.Follows (κ : TypeVar → Kind) (s : Substitution)
    (again : RowKind → RowType → Outcome RowType) (σ : TypeVar → MonoType) : Prop :=
  ∀ v k next r', κ v = .row k → s.lookup v = some (k.wrap next) → again k next = .ok r' →
    k.splice v (σ v) = r'

variable {again : RowKind → RowType → Outcome RowType} {σ : TypeVar → MonoType}

theorem walk_substitutes (hplain : s.Leaves κ σ) (hagain : s.Follows κ again σ) :
    WalkRule s again (fun t t' => t.Kinded κ → t' = t.subst σ)
      (fun k r r' => r.Kinded κ k → r' = r.subst σ k) where
  var v hv := (hplain.type v hv).symm
  con _ _ := rfl
  arrow ha hb h := by
    rw [ha h.1, hb h.2]
    rfl
  record hr h := by
    rw [hr h]
    rfl
  effect hr h := by
    rw [hr h.2]
    rfl
  typed hx he h := by
    rw [hx h.1, he h.2.2]
    rfl
  empty _ _ := rfl
  bound hb hr hv := (hagain _ _ _ _ hv hb hr).symm
  other hb hv := (hplain.row _ _ hv hb).symm
  extend hty hrest h := by
    rw [hty h.1, hrest h.2]
    rfl

namespace Substitution

/-- Where `σ` follows each tail into its row, so does `apply_rows`. -/
theorem Leaves.apply_rows_eq (hplain : s.Leaves κ σ)
    (hrow : ∀ v k next, κ v = .row k → s.lookup v = some (k.wrap next) →
      next.Kinded κ k ∧ k.splice v (σ v) = next.subst σ k)
    (n : Nat) (k : RowKind) (r r' : RowType) (hr : r.Kinded κ k)
    (h : s.apply_rows n k r = .ok r') : r' = r.subst σ k := by
  induction n generalizing k r r' with
  | zero => cases h
  | succ n ih =>
    refine (walk_substitutes hplain ?_).row r k h hr
    intro v j next r'' hj hb hagain
    rw [ih j next r'' (hrow v j next hj hb).1 hagain]
    exact (hrow v j next hj hb).2

theorem Leaves.follows (hplain : s.Leaves κ σ)
    (hrow : ∀ v k next, κ v = .row k → s.lookup v = some (k.wrap next) →
      next.Kinded κ k ∧ k.splice v (σ v) = next.subst σ k) (n : Nat) :
    s.Follows κ (s.apply_rows n) σ := by
  intro v k next r' hk hb h
  rw [hplain.apply_rows_eq hrow n k next r' (hrow v k next hk hb).1 h]
  exact (hrow v k next hk hb).2

section

variable (hs : s.Settled κ)

include hs

section

variable (hσ : s.Resolves κ σ)

include hσ

theorem Settled.leaves : s.Leaves κ σ := by
  refine ⟨?_, ?_⟩
  · intro v hk
    rcases hb : s.lookup v with _ | t
    · exact hσ.unbound v hb
    · exact hσ.type_bound v t hb hk
  · intro v k hk hb
    rcases hv : s.lookup v with _ | t
    · rw [hσ.unbound v hv]
      rfl
    · have hbinds := hs.binds v t hv
      rw [hk] at hbinds
      obtain ⟨r, rfl, -⟩ := hbinds
      exact absurd hv (hb r)

theorem Settled.row_behind (v : TypeVar) (k : RowKind)
    (next : RowType) (hk : κ v = .row k) (hb : s.lookup v = some (k.wrap next)) :
    next.Kinded κ k ∧ k.splice v (σ v) = next.subst σ k := by
  refine ⟨(RowKind.kinded_wrap.mp (hs.binds v _ hb).kinded).2, ?_⟩
  rw [hσ.row_bound v _ hb (by simp [hk]), RowKind.subst_wrap, RowKind.splice_wrap]

theorem Settled.follows (n : Nat) :
    s.Follows κ (s.apply_rows n) σ := (hs.leaves hσ).follows (hs.row_behind hσ) n

/-- `apply` puts in what the bindings lead to. -/
theorem Settled.apply_eq {t t' : MonoType}
    (ht : t.Kinded κ) (h : s.apply n t = .ok t') : t' = t.subst σ :=
  (walk_substitutes (hs.leaves hσ) (hs.follows hσ n)).type t h ht

theorem Settled.apply_ends : ∃ N, ∀ n ≥ N, ∀ t, t.Kinded κ → s.apply n t = .ok (t.subst σ) := by
  obtain ⟨rank, hrank⟩ := hs.ranked
  obtain ⟨N, hN⟩ := hrank.terminates
  refine ⟨N, ?_⟩
  intro n hn t ht
  obtain ⟨t', ht'⟩ := (hN n hn).1 t
  rw [ht', hs.apply_eq hσ ht ht']

end

end

end Substitution

end

/-! ## One substitution after another -/

namespace Substitution

section

variable {σ₁ σ₂ : TypeVar → MonoType}

/-- The bindings of `s₂` hold no variable that `s₁` binds. -/
def Apart (s₂ s₁ : Substitution) : Prop :=
  ∀ v t u, s₂.lookup v = some t → u ∈ t.free_vars → s₁.lookup u = none

/-- The bindings of `s₂`, and those of `s₁` under `σ₂`. -/
def onto (s₂ : Substitution) (σ₂ : TypeVar → MonoType) (s₁ : Substitution) : Substitution :=
  ⟨s₂.entries ++ s₁.entries.map fun e => (e.1, e.2.subst σ₂)⟩

theorem lookup_onto (s₂ : Substitution) (σ₂ : TypeVar → MonoType) (s₁ : Substitution)
    (v : TypeVar) :
    (s₂.onto σ₂ s₁).lookup v = (s₂.lookup v).or ((s₁.lookup v).map (MonoType.subst σ₂)) := by
  unfold onto lookup
  rw [List.lookup_append, lookup_map]

theorem lookup_onto_some {v : TypeVar} {t : MonoType} (h : (s₂.onto σ₂ s₁).lookup v = some t) :
    s₂.lookup v = some t ∨
      ∃ t₁, s₂.lookup v = none ∧ s₁.lookup v = some t₁ ∧ t = t₁.subst σ₂ := by
  rw [lookup_onto] at h
  rcases hv : s₂.lookup v with _ | t₂
  · rw [hv, Option.none_or, Option.map_eq_some_iff] at h
    obtain ⟨t₁, h1, rfl⟩ := h
    exact .inr ⟨t₁, rfl, h1, rfl⟩
  · rw [hv] at h
    exact .inl h

theorem Resolves.apart {v u : TypeVar} (h₂ : s₂.Settled κ) (hσ₂ : s₂.Resolves κ σ₂) (hap : Apart s₂ s₁)
    (hv : s₁.lookup v = none) (hu : u ∈ (σ₂ v).free_vars) : s₁.lookup u = none := by
  obtain rfl | ⟨w, t, hw, hut⟩ := hσ₂.source h₂ hu
  · exact hv
  · exact hap w t u hw hut

theorem Settled.onto (h₁ : s₁.Settled κ) (h₂ : s₂.Settled κ) (hσ₂ : s₂.Resolves κ σ₂)
    (hap : Apart s₂ s₁) : (s₂.onto σ₂ s₁).Settled κ := by
  have hnone : ∀ u, s₂.lookup u = none → s₁.lookup u = none →
      (s₂.onto σ₂ s₁).lookup u = none := by
    intro u h2 h1
    rw [lookup_onto, h2, h1]
    rfl
  have hmem : ∀ v t₁ u, s₁.lookup v = some t₁ → u ∈ (t₁.subst σ₂).free_vars →
      s₂.lookup u = none ∧ (s₁.lookup u = none ∨ u ∈ t₁.free_vars) := by
    intro v t₁ u h1 hu
    have hk := (h₁.binds v t₁ h1).kinded
    obtain ⟨w, hw, huw⟩ := (t₁.kinded_subst hk (hσ₂.respects _)).2 u hu
    refine ⟨hσ₂.done w u huw, ?_⟩
    obtain rfl | ⟨x, tx, hx, hux⟩ := hσ₂.source h₂ huw
    · exact .inr hw
    · exact .inl (hap x tx u hx hux)
  refine ⟨?_, ?_, ?_⟩
  · intro v t ht
    rcases lookup_onto_some ht with h2 | ⟨t₁, h2, h1, rfl⟩
    · exact h₂.binds v t h2
    · have hb := h₁.binds v t₁ h1
      rcases hk : κ v with _ | k
      · rw [hk] at hb
        exact (t₁.kinded_subst hb (hσ₂.respects _)).1
      · rw [hk] at hb
        obtain ⟨r, rfl, hs, hr⟩ := hb
        obtain ⟨hr', hs', -⟩ := r.kinded_subst k hr hs (hσ₂.respects _)
        exact ⟨_, RowKind.subst_wrap k r, hs', hr'⟩
  · obtain ⟨rank₁, hr₁⟩ := h₁.ranked
    obtain ⟨rank₂, hr₂⟩ := h₂.ranked
    refine ⟨fun v => if (s₂.lookup v).isSome then rank₂ v else rank₁ v, ?_⟩
    intro v t u ht hu hbound
    rcases lookup_onto_some ht with h2 | ⟨t₁, h2, h1, rfl⟩
    · have hu1 := hap v t u h2 hu
      rcases hu2 : s₂.lookup u with _ | tu
      · rw [hnone u hu2 hu1] at hbound
        cases hbound
      · simpa [h2, hu2] using hr₂ v t u h2 hu (by simp [hu2])
    · obtain ⟨hu2, hu1⟩ := hmem v t₁ u h1 hu
      rcases hb1 : s₁.lookup u with _ | tu
      · rw [hnone u hu2 hb1] at hbound
        cases hbound
      · have hut : u ∈ t₁.free_vars := hu1.resolve_left (by simp [hb1])
        simpa [h2, hu2] using hr₁ v t₁ u h1 hut (by simp [hb1])
  · intro v t u hk ht hu
    rcases lookup_onto_some ht with h2 | ⟨t₁, h2, h1, rfl⟩
    · exact hnone u (h₂.types_done v t u hk h2 hu) (hap v t u h2 hu)
    · obtain ⟨hu2, hu1⟩ := hmem v t₁ u h1 hu
      exact hnone u hu2 (hu1.elim id fun hut => h₁.types_done v t₁ u hk h1 hut)

/-- Where no variable is bound twice, the composition does one substitution
and then the other. -/
theorem Resolves.onto (h₁ : s₁.Settled κ) (hσ₁ : s₁.Resolves κ σ₁) (h₂ : s₂.Settled κ)
    (hσ₂ : s₂.Resolves κ σ₂) (hap : Apart s₂ s₁)
    (honce : ∀ v t, s₁.lookup v = some t → s₂.lookup v = none) :
    (s₂.onto σ₂ s₁).Resolves κ fun v => (σ₁ v).subst σ₂ := by
  have honce' : ∀ v t, s₂.lookup v = some t → s₁.lookup v = none := by
    intro v t h2
    rcases h1 : s₁.lookup v with _ | t₁
    · rfl
    · simp [honce v t₁ h1] at h2
  have hfree : ∀ v, s₁.lookup v = none → (σ₁ v).subst σ₂ = σ₂ v := by
    intro v h1
    rw [hσ₁.unbound v h1]
    rfl
  refine ⟨?_, ?_, ?_, ?_, ?_⟩
  · intro v hv
    rw [lookup_onto, Option.or_eq_none_iff, Option.map_eq_none_iff] at hv
    rw [hfree v hv.2, hσ₂.unbound v hv.1]
  · intro v t hv hk
    rcases lookup_onto_some hv with h2 | ⟨t₁, -, h1, rfl⟩
    · rw [hfree v (honce' v t h2), hσ₂.type_bound v t h2 hk]
    · rw [hσ₁.type_bound v t₁ h1 hk]
  · intro v t hv hk
    rcases lookup_onto_some hv with h2 | ⟨t₁, -, h1, rfl⟩
    · rw [hfree v (honce' v t h2), hσ₂.row_bound v t h2 hk]
      refine MonoType.subst_congr _ ?_
      intro u hu
      rw [hfree u (hap v t u h2 hu)]
    · have hkd := (h₁.binds v t₁ h1).kinded
      have hresp : ∀ w ∈ t₁.free_vars,
          Respects κ κ (fun u => (σ₁ u).subst σ₂) (σ₂ w).free_vars := fun w _ u _ =>
        ((hσ₁.fits u).subst (hσ₂.respects _)).1
      rw [hσ₁.row_bound v t₁ h1 hk,
        t₁.subst_subst hkd (hσ₁.respects _) (fun w _ => hσ₂.respects _),
        t₁.subst_subst hkd (hσ₂.respects _) hresp]
      refine t₁.subst_congr ?_
      intro w hw
      rcases h1w : s₁.lookup w with _ | tw
      · rw [hfree w h1w]
        refine ((hσ₂.fits w).subst_self ?_).symm
        intro u hu
        have h1u := hσ₂.apart h₂ hap h1w hu
        rw [hfree u h1u, hσ₂.unbound u (hσ₂.done w u hu)]
      · rw [hσ₂.unbound w (honce w tw h1w)]
        rfl
  · intro v
    exact ((hσ₁.fits v).subst (hσ₂.respects _)).1
  · intro v u hu
    obtain ⟨w, hw, huw⟩ := ((hσ₁.fits v).subst (hσ₂.respects _)).2 u hu
    rw [lookup_onto, hσ₂.done w u huw, hσ₂.apart h₂ hap (hσ₁.done v w hw) huw]
    rfl

end

end Substitution

end paideia_as_shell_hm
