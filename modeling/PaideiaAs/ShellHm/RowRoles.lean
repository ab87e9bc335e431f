-- A variable may end record rows and effect rows alike. Here it is taken as two, told
-- apart by the rows they end, so that each keeps to one role; where no variable is
-- bound twice, the substitutions of a run are those of the two with the names given
-- back, and `apply` and `compose` go the same way on both.
import PaideiaAs.ShellHm.ComposeLaw
import PaideiaAs.ShellHm.RowEnds

open Assoc

namespace paideia_as_shell_hm

open RowType Substitution
open List (mem_append mem_append_left mem_append_right mem_cons mem_singleton)
open MonoType (Arrow Record Typed Var)

variable {ρ : TypeVar → TypeVar} {n : Nat} {g g₁ : FreshVarGen} {V T : List TypeVar}

/-! ## Renaming -/

def renameFields (ρ : TypeVar → TypeVar) (m : Fields) : Fields := m.map fun p => (p.1, p.2.rename ρ)

def renamePairs (ρ : TypeVar → TypeVar) (L : List (String × MonoType × MonoType)) :
    List (String × MonoType × MonoType) :=
  L.map fun p => (p.1, p.2.1.rename ρ, p.2.2.rename ρ)

mutual

theorem MonoType.free_vars_rename (t : MonoType) :
    (t.rename ρ).free_vars = t.free_vars.map ρ := by
  match t with
  | .Var _ => rfl
  | .Con _ => rfl
  | .Arrow a b =>
    simp only [MonoType.rename, MonoType.free_vars, List.map_append, a.free_vars_rename,
      b.free_vars_rename]
  | .Record row => exact row.free_vars_rename
  | .EffectRow row => exact row.free_vars_rename
  | .Typed x e =>
    simp only [MonoType.rename, MonoType.free_vars, List.map_append, x.free_vars_rename,
      e.free_vars_rename]

theorem RowType.free_vars_rename (r : RowType) :
    (r.rename ρ).free_vars = r.free_vars.map ρ := by
  match r with
  | .Empty => rfl
  | .RowVar _ => rfl
  | .Extend f ty rest =>
    simp only [RowType.rename, RowType.free_vars, List.map_append, ty.free_vars_rename,
      rest.free_vars_rename]

end

mutual

theorem MonoType.tail_rename {k : RowKind} {v : TypeVar} (t : MonoType) (h : t.Tail k v) :
    (t.rename ρ).Tail k (ρ v) := by
  match t with
  | .Var _ => exact h.elim
  | .Con _ => exact h.elim
  | .Arrow a b => exact h.imp a.tail_rename b.tail_rename
  | .Record row => exact row.tail_rename .record h
  | .EffectRow row => exact row.tail_rename .effect h
  | .Typed x e => exact h.imp (x.tail_rename .record) (e.tail_rename .effect)

theorem RowType.tail_rename {k : RowKind} {v : TypeVar} (r : RowType) (j : RowKind)
    (h : r.Tail k v j) : (r.rename ρ).Tail k (ρ v) j := by
  match r with
  | .Empty => exact h.elim
  | .RowVar w => exact ⟨congrArg ρ h.1, h.2⟩
  | .Extend f ty rest => exact h.imp ty.tail_rename (rest.tail_rename j)

end

namespace RowType

theorem tail_eq_rename (r : RowType) : (r.rename ρ).tail = r.tail.map ρ := by
  match r with
  | .Empty => rfl
  | .RowVar _ => rfl
  | .Extend f ty rest => exact tail_eq_rename rest

theorem put_rename (f : String) (ty : MonoType) (r : RowType) :
    (put f ty r).rename ρ = put f (ty.rename ρ) (r.rename ρ) := by
  match r with
  | .Empty => rfl
  | .RowVar _ => rfl
  | .Extend g u rest =>
    simp only [put, rename]
    split_ifs <;> simp only [rename, put_rename f ty rest]

theorem to_map_from_rename (acc : Fields) (r : RowType) :
    to_map_from (renameFields ρ acc) (r.rename ρ) =
      (renameFields ρ (to_map_from acc r).1, (to_map_from acc r).2.map ρ) := by
  match r with
  | .Empty => rfl
  | .RowVar _ => rfl
  | .Extend f ty rest =>
    have hany : (renameFields ρ acc).any (·.1 = f) = acc.any (·.1 = f) := by
      simp [renameFields, List.any_map, Function.comp_def]
    have happ : renameFields ρ acc ++ [(f, ty.rename ρ)] = renameFields ρ (acc ++ [(f, ty)]) := by
      simp [renameFields]
    simp only [rename, to_map_from, hany, happ]
    split
    · exact to_map_from_rename acc rest
    · exact to_map_from_rename _ rest

theorem to_map_rename (r : RowType) :
    (r.rename ρ).to_map = (renameFields ρ r.to_map.1, r.to_map.2.map ρ) := to_map_from_rename [] r

theorem from_map_rename (m : Fields) (o : Option TypeVar) :
    (from_map m o).rename ρ = from_map (renameFields ρ m) (o.map ρ) := by
  have hfold : ∀ l : Fields, (l.foldr (fun p acc => RowType.Extend p.1 p.2 acc) (ended o)).rename ρ =
      (renameFields ρ l).foldr (fun p acc => RowType.Extend p.1 p.2 acc) (ended (o.map ρ)) := by
    intro l
    induction l with
    | nil => cases o <;> rfl
    | cons p l ih => exact congrArg (RowType.Extend p.1 (p.2.rename ρ)) ih
  have hsort : renameFields ρ (m.insertionSort fun a b => a.1 ≤ b.1) =
      (renameFields ρ m).insertionSort fun a b => a.1 ≤ b.1 :=
    List.map_insertionSort _ _ _ m fun _ _ _ _ => Iff.rfl
  rw [from_map, from_map, hfold, hsort]

end RowType

mutual

theorem MonoType.canon_rename (t : MonoType) : (t.rename ρ).canon = t.canon.rename ρ := by
  match t with
  | .Var _ => rfl
  | .Con _ => rfl
  | .Arrow a b => simp only [MonoType.rename, MonoType.canon, a.canon_rename, b.canon_rename]
  | .Record row => simp only [MonoType.rename, MonoType.canon, row.canon_rename]
  | .EffectRow row => simp only [MonoType.rename, MonoType.canon, row.canon_rename]
  | .Typed x e => simp only [MonoType.rename, MonoType.canon, x.canon_rename, e.canon_rename]

theorem RowType.canon_rename (r : RowType) : (r.rename ρ).canon = r.canon.rename ρ := by
  match r with
  | .Empty => rfl
  | .RowVar _ => rfl
  | .Extend f ty rest =>
    simp only [RowType.rename, RowType.canon, RowType.put_rename, ty.canon_rename,
      rest.canon_rename]

end

theorem MonoType.Same.rename {a b : MonoType} (h : a.Same b) (ρ : TypeVar → TypeVar) :
    (a.rename ρ).Same (b.rename ρ) := by
  unfold MonoType.Same at *
  rw [a.canon_rename, b.canon_rename, h]

namespace RowKind

@[simp] theorem wrap_rename (k : RowKind) (r : RowType) :
    (k.wrap r).rename ρ = k.wrap (r.rename ρ) := by
  cases k <;> rfl

theorem cons_rename (k : RowKind) (f : String) (ty : MonoType) (r : RowType) :
    (k.cons f ty r).rename ρ = k.cons f (ty.rename ρ) (r.rename ρ) := by
  cases k
  · rfl
  · exact put_rename f ty r

/-- A row of the other kind leaves the tail alone. -/
theorem splice_other {j k : RowKind} (h : j ≠ k) (v : TypeVar) (r : RowType) :
    k.splice v (j.wrap r) = .RowVar v := by
  cases j <;> cases k <;> simp_all [splice]

end RowKind

/-! ### Fields and extras -/

theorem shared_fields_rename (a b : Fields) :
    shared_fields (renameFields ρ a) (renameFields ρ b) = renamePairs ρ (shared_fields a b) := by
  have hsort : ∀ L : List (String × MonoType × MonoType),
      renamePairs ρ (L.insertionSort fun x y => x.1 ≤ y.1) =
        (renamePairs ρ L).insertionSort fun x y => x.1 ≤ y.1 := fun L =>
    List.map_insertionSort _ _ _ L fun _ _ _ _ => Iff.rfl
  unfold shared_fields
  rw [hsort]
  unfold renamePairs renameFields
  rw [List.filterMap_map, List.map_filterMap]
  congr 1
  refine List.filterMap_congr fun p _ => ?_
  simp only [Function.comp_apply, lookup_map, Option.map_map]
  rfl

theorem only_fields_rename (a b : Fields) :
    only_fields (renameFields ρ a) (renameFields ρ b) = renameFields ρ (only_fields a b) := by
  unfold only_fields renameFields
  rw [List.filter_map]
  congr 1
  refine List.filter_congr fun p _ => ?_
  simp [lookup_map]

theorem mem_extra_vars_rename {m : Fields} {v : TypeVar} (h : v ∈ extra_vars m) :
    ρ v ∈ extra_vars (renameFields ρ m) := by
  obtain ⟨p, hp, hv⟩ := mem_extra_vars.mp h
  refine mem_extra_vars.mpr ⟨_, List.mem_map_of_mem hp, ?_⟩
  rw [MonoType.free_vars_rename]
  exact List.mem_map_of_mem hv

/-! ## Names -/

/-- Tails of effect rows get odd names, all else even ones. -/
def Kind.name (v : Nat) : Kind → Nat
  | .row .effect => 2 * v + 1
  | _ => 2 * v

def nameOf (x : Nat) : Nat := x / 2

/-- The generator past the names told apart. -/
def FreshVarGen.double (g : FreshVarGen) : FreshVarGen := ⟨2 * g.next, 2 * g.max⟩

/-- The kind of a name, where the variables of `T` stand for types. -/
def kindOf (T : List TypeVar) (x : Nat) : Kind :=
  if x % 2 = 1 then .row .effect else if nameOf x ∈ T then .type else .row .record

/-- What stands for a type ends no effect rows. -/
def Live (T : List TypeVar) (x : Nat) : Prop := x % 2 = 1 → nameOf x ∉ T

/-- A call over the names `V`, where `T` are the variables that stand for types. -/
structure Scope (T V : List TypeVar) (g : FreshVarGen) : Prop where
  types : ∀ v ∈ T, v < g.next
  live : ∀ x ∈ V, Live T x
  past : ∀ x ∈ V, x < g.double.next

theorem Scope.sub {W : List TypeVar} (h : Scope T V g) (hWV : ∀ v ∈ W, v ∈ V) : Scope T W g :=
  ⟨h.types, fun v hv => h.live v (hWV v hv), fun v hv => h.past v (hWV v hv)⟩

theorem nameOf_name (v : Nat) (j : Kind) : nameOf (j.name v) = v := by
  unfold nameOf Kind.name
  split <;> omega

theorem name_bounds (v : Nat) (j : Kind) : 2 * v ≤ j.name v ∧ j.name v < 2 * (v + 1) := by
  unfold Kind.name
  split <;> omega

section

variable {x y : Nat} {k : RowKind}

theorem kindOf_row_name {v : Nat} (h : v ∉ T) : kindOf T ((Kind.row k).name v) = .row k := by
  unfold kindOf
  rw [nameOf_name]
  cases k
  · rw [if_neg (by simp [Kind.name]), if_neg h]
  · rw [if_pos (by simp [Kind.name])]

theorem kindOf_effect : kindOf T x = .row .effect ↔ x % 2 = 1 := by
  unfold kindOf
  split_ifs <;> simp_all

/-- Names of one kind are told apart by what they stand for. -/
theorem eq_of_kind (hxy : nameOf x = nameOf y) (h : kindOf T x = kindOf T y) : x = y := by
  have hiff : x % 2 = 1 ↔ y % 2 = 1 := by rw [← kindOf_effect (T := T), h, kindOf_effect]
  unfold nameOf at hxy
  omega

/-- Two names of a variable are of the two kinds of rows. -/
theorem Live.other (hx : Live T x) (hy : Live T y) (hxy : nameOf x = nameOf y) (hne : x ≠ y) :
    ∃ j k, kindOf T x = .row j ∧ kindOf T y = .row k ∧ j ≠ k := by
  unfold Live at hx hy
  unfold kindOf
  rw [hxy] at hx ⊢
  unfold nameOf at *
  by_cases h1 : x % 2 = 1
  · have h2 : ¬ y % 2 = 1 := by omega
    exact ⟨.effect, .record, if_pos h1, by rw [if_neg h2, if_neg (hx h1)], by simp⟩
  · have h2 : y % 2 = 1 := by omega
    exact ⟨.record, .effect, by rw [if_neg h1, if_neg (hy h2)], if_pos h2, by simp⟩

theorem Scope.known (h : Scope T V g) (hx : Known V g.double g₁.double x) : Live T x := by
  refine hx.elim (h.live x) ?_
  rintro ⟨hle, -⟩ - hT
  have hlt : x / 2 < g.next := h.types _ hT
  have hle : 2 * g.next ≤ x := hle
  omega

end

/-! ## Bindings with the names given back -/

/-- `s` binds what `s'` binds, with the names given back, and nothing that is bound
before. No two names of a variable are bound. -/
structure Merged (P : List Substitution) (s s' : Substitution) : Prop where
  lookup : ∀ x t, s'.lookup x = some t → s.lookup (nameOf x) = some (t.rename nameOf)
  bound : ∀ v t, s.lookup v = some t →
    ∃ x u, s'.lookup x = some u ∧ nameOf x = v ∧ u.rename nameOf = t
  apart : ∀ x y t u, s'.lookup x = some t → s'.lookup y = some u → nameOf x = nameOf y → x = y
  once : ∀ p ∈ P, ∀ v t, s.lookup v = some t → p.lookup v = none

/-- A substitution and the one it comes from, whose bindings keep the kinds. -/
structure Mirror (T : List TypeVar) (P : List Substitution) (s s' : Substitution) : Prop extends
    Merged P s s' where
  settled : s'.Settled (kindOf T)
  dom : ∀ x t, s'.lookup x = some t → Live T x
  ran : ∀ x t u, s'.lookup x = some t → u ∈ t.free_vars → Live T u

variable {P : List Substitution} {s s' s₁ s₁' s₂ s₂' s₃ : Substitution} {x v : TypeVar}
  {t : MonoType} {k : RowKind}

theorem merged_empty : Merged P .empty .empty where
  lookup x t h := by cases h
  bound v t h := by cases h
  apart x y t u h := by cases h
  once p hp v t h := by cases h

theorem Merged.mirror (h : Merged P s s') (hY : Yields (kindOf T) V g.double g₁.double s')
    (hs : Scope T V g) : Mirror T P s s' :=
  ⟨h, hY.settled, fun x t hx => hs.known (hY.dom x t hx), fun x t u hx hu =>
    hs.known (hY.ran x t u hx hu)⟩

namespace Mirror

variable (h : Mirror T P s s')

include h

/-- The name of what is free is free, or it is a tail, and bound to a row of the other
kind. -/
theorem unbound (hx : s'.lookup x = none) (hl : Live T x) : s.lookup (nameOf x) = none ∨
    ∃ j k r, kindOf T x = .row k ∧ j ≠ k ∧ s.lookup (nameOf x) = some (j.wrap r) := by
  rcases hv : s.lookup (nameOf x) with _ | t
  · exact .inl rfl
  · obtain ⟨y, u, hy, hyx, rfl⟩ := h.bound _ t hv
    have hne : x ≠ y := by
      rintro rfl
      rw [hx] at hy
      cases hy
    obtain ⟨k, j, hk, hj, hkj⟩ := hl.other (h.dom y u hy) hyx.symm hne
    have hbinds := h.settled.binds y u hy
    rw [hj] at hbinds
    obtain ⟨r, rfl, -⟩ := hbinds
    exact .inr ⟨j, k, _, hk, hkj.symm, congrArg some (RowKind.wrap_rename j r)⟩

theorem tail_unbound (hx : s'.lookup x = none) (hl : Live T x) (hk : kindOf T x = .row k) :
    (∀ next, s.lookup (nameOf x) ≠ some (k.wrap next)) ∧
      k.splice (nameOf x) ((s.lookup (nameOf x)).getD (.Var (nameOf x))) = .RowVar (nameOf x) := by
  rcases h.unbound hx hl with hv | ⟨j, i, r, hi, hji, hv⟩ <;> rw [hv]
  · exact ⟨by simp, RowKind.splice_var ..⟩
  · obtain rfl := Kind.row.inj (hi.symm.trans hk)
    refine ⟨?_, RowKind.splice_other hji _ _⟩
    intro next hnext
    cases i <;> cases j <;> simp_all

end Mirror

section

variable {again again' : RowKind → RowType → Outcome RowType}

mutual

/-- `apply` goes the same way on the names given back. -/
theorem MonoType.walk_mirror (h : Mirror T P s s')
    (hagain : ∀ k r, r.Kinded (kindOf T) k → (∀ u ∈ r.free_vars, Live T u) →
      again k (r.rename nameOf) = (again' k r).map (·.rename nameOf))
    (t : MonoType) (ht : t.Kinded (kindOf T)) (hD : ∀ u ∈ t.free_vars, Live T u) :
    (t.rename nameOf).walk s again = (t.walk s' again').map (·.rename nameOf) := by
  match t with
  | .Var x =>
    have hx : s.entries.lookup (nameOf x) = (s'.entries.lookup x).map (·.rename nameOf) := by
      rcases hb : s'.entries.lookup x with _ | u
      · rcases h.unbound hb (hD x (.head _)) with hx | ⟨j, k, r, hk, -⟩
        · exact hx
        · cases ht.symm.trans hk
      · exact h.lookup x u hb
    simp only [MonoType.rename, MonoType.walk, hx]
    cases s'.entries.lookup x <;> rfl
  | .Con _ => rfl
  | .Arrow a b =>
    simp only [MonoType.rename, MonoType.walk,
      a.walk_mirror h hagain ht.1 fun u hu => hD u (mem_append_left _ hu),
      b.walk_mirror h hagain ht.2 fun u hu => hD u (mem_append_right _ hu)]
    rcases a.walk s' again' with e | a' <;> rcases b.walk s' again' with e' | b' <;> rfl
  | .Record row =>
    simp only [MonoType.rename, MonoType.walk, row.walk_mirror h hagain .record ht hD]
    rcases row.walk s' again' .record with e | r' <;> rfl
  | .EffectRow row =>
    simp only [MonoType.rename, MonoType.walk, row.walk_mirror h hagain .effect ht.2 hD]
    rcases row.walk s' again' .effect with e | r' <;> rfl
  | .Typed a b =>
    simp only [MonoType.rename, MonoType.walk,
      a.walk_mirror h hagain .record ht.1 fun u hu => hD u (mem_append_left _ hu),
      b.walk_mirror h hagain .effect ht.2.2 fun u hu => hD u (mem_append_right _ hu)]
    rcases a.walk s' again' .record with e | a' <;> rcases b.walk s' again' .effect with e' | b' <;>
      rfl

theorem RowType.walk_mirror (h : Mirror T P s s')
    (hagain : ∀ k r, r.Kinded (kindOf T) k → (∀ u ∈ r.free_vars, Live T u) →
      again k (r.rename nameOf) = (again' k r).map (·.rename nameOf))
    (r : RowType) (k : RowKind) (hrow : r.Kinded (kindOf T) k) (hD : ∀ u ∈ r.free_vars, Live T u) :
    (r.rename nameOf).walk s again k = (r.walk s' again' k).map (·.rename nameOf) := by
  match r with
  | .Empty => rfl
  | .RowVar x =>
    rcases hx : s'.lookup x with _ | t
    · obtain ⟨hno, hleft⟩ := h.tail_unbound hx (hD x (.head _)) hrow
      have hnone : ∀ next, s'.lookup x ≠ some (k.wrap next) := by simp [hx]
      rw [RowType.rename, RowType.walk_other hno, RowType.walk_other hnone, hleft, hx]
      simp [Except.map, RowType.rename]
    · have hbinds := h.settled.binds x t hx
      rw [show kindOf T x = .row k from hrow] at hbinds
      obtain ⟨next, rfl, -, hnext⟩ := hbinds
      have hlook := h.lookup x _ hx
      rw [RowKind.wrap_rename] at hlook
      rw [RowType.rename, RowType.walk_bound hlook, RowType.walk_bound hx]
      exact hagain k next hnext fun u hu => h.ran x _ u hx (by simpa using hu)
  | .Extend f ty rest =>
    simp only [RowType.rename, RowType.walk,
      ty.walk_mirror h hagain hrow.1 fun u hu => hD u (mem_append_left _ hu),
      rest.walk_mirror h hagain k hrow.2 fun u hu => hD u (mem_append_right _ hu)]
    rcases ty.walk s' again' with e | ty' <;> rcases rest.walk s' again' k with e' | rest'
    · rfl
    · rfl
    · rfl
    · exact congrArg Except.ok (RowKind.cons_rename k f ty' rest').symm

end

end

namespace Mirror

variable (h : Mirror T P s s')

include h

theorem apply_rows_eq (n : Nat) (k : RowKind) (r : RowType) (hrow : r.Kinded (kindOf T) k)
    (hD : ∀ u ∈ r.free_vars, Live T u) : s.apply_rows n k (r.rename nameOf) =
      (s'.apply_rows n k r).map (·.rename nameOf) := by
  induction n generalizing k r with
  | zero => rfl
  | succ n ih => exact r.walk_mirror h ih k hrow hD

theorem apply_eq (n : Nat) (ht : t.Kinded (kindOf T)) (hD : ∀ u ∈ t.free_vars, Live T u) :
    s.apply n (t.rename nameOf) = (s'.apply n t).map (·.rename nameOf) :=
  t.walk_mirror h (h.apply_rows_eq n) ht hD

theorem apply_ok {t' : MonoType} (ht : t.Kinded (kindOf T)) (hD : ∀ u ∈ t.free_vars, Live T u)
    (hap : s.apply n (t.rename nameOf) = .ok t') :
    ∃ u, s'.apply n t = .ok u ∧ t' = u.rename nameOf := by
  rw [h.apply_eq n ht hD] at hap
  rcases hu : s'.apply n t with e | u <;> rw [hu] at hap <;> cases hap
  exact ⟨u, rfl, rfl⟩

end Mirror

/-- The composition of the two is that of the two they come from. -/
theorem Mirror.compose {σ₂ : TypeVar → MonoType} (h₂ : Mirror T (s₁ :: P) s₂ s₂')
    (h₁ : Mirror T P s₁ s₁') (hσ₂ : s₂'.Resolves (kindOf T) σ₂) (hc : s₂.compose n s₁ = .ok s₃) :
    Merged P s₃ (s₂'.onto σ₂ s₁') := by
  have honce : ∀ v t, s₁.lookup v = some t → s₂.lookup v = none := by
    intro v t h1
    rcases h2 : s₂.lookup v with _ | t'
    · rfl
    · rw [h₂.once s₁ (.head _) v t' h2] at h1
      cases h1
  -- `apply` makes of a binding of `s₁` what `σ₂` does
  have hpast : ∀ x t t', s₁'.lookup x = some t → s₂.apply n (t.rename nameOf) = .ok t' →
      t' = (t.subst σ₂).rename nameOf := by
    intro x t t' h1 ha
    have hk := (h₁.settled.binds x t h1).kinded
    obtain ⟨u, hu, rfl⟩ := h₂.apply_ok hk (fun u hu => h₁.ran x t u h1 hu) ha
    rw [h₂.settled.apply_eq hσ₂ hk hu]
  refine ⟨?_, ?_, ?_, ?_⟩
  · intro x t hx
    rcases lookup_onto_some hx with h2 | ⟨t₁, -, h1, rfl⟩ <;>
      rcases lookup_compose hc (nameOf x) with ⟨t', hb2, hb3⟩ | ⟨hb2, hb1, -⟩ |
        ⟨u, t', hb2, hb1, ha, hb3⟩
    · rw [hb3, ← hb2, h₂.lookup x t h2]
    · rw [h₂.lookup x t h2] at hb2
      cases hb2
    · rw [h₂.lookup x t h2] at hb2
      cases hb2
    · rw [honce _ _ (h₁.lookup x t₁ h1)] at hb2
      cases hb2
    · rw [h₁.lookup x t₁ h1] at hb1
      cases hb1
    · rw [h₁.lookup x t₁ h1] at hb1
      cases hb1
      rw [hb3, hpast x t₁ t' h1 ha]
  · intro v t hv
    rcases lookup_compose_some hc hv with hb2 | ⟨u, hb2, hb1, ha⟩
    · obtain ⟨x, u, hx, hxv, hu⟩ := h₂.bound v t hb2
      exact ⟨x, u, by rw [lookup_onto, hx]; rfl, hxv, hu⟩
    · obtain ⟨x, u, hx, rfl, rfl⟩ := h₁.bound v u hb1
      refine ⟨x, u.subst σ₂, ?_, rfl, (hpast x u t hx ha).symm⟩
      have hx2 : s₂'.lookup x = none := by
        rcases h2 : s₂'.lookup x with _ | t₂
        · rfl
        · rw [h₂.lookup x t₂ h2] at hb2
          cases hb2
      rw [lookup_onto, hx2, hx]
      rfl
  · intro x y t u hx hy hxy
    have hmixed : ∀ {x y t u}, s₂'.lookup x = some t → s₁'.lookup y = some u →
        nameOf x ≠ nameOf y := by
      intro x y t u h2 h1 he
      have hn := honce _ _ (h₁.lookup y u h1)
      rw [← he, h₂.lookup x t h2] at hn
      cases hn
    rcases lookup_onto_some hx with hx | ⟨t₁, -, hx, -⟩ <;>
      rcases lookup_onto_some hy with hy | ⟨u₁, -, hy, -⟩
    · exact h₂.apart x y t u hx hy hxy
    · exact absurd hxy (hmixed hx hy)
    · exact absurd hxy.symm (hmixed hy hx)
    · exact h₁.apart x y t₁ u₁ hx hy hxy
  · intro p hp v t hv
    rcases lookup_compose_some hc hv with hb2 | ⟨u, -, hb1, -⟩
    · exact h₂.once p (.tail _ hp) v t hb2
    · exact h₁.once p hp v u hb1

end paideia_as_shell_hm
