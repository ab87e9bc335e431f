-- Substitution of types for variables, all at once. A variable stands for a
-- type, for the rest of a record or for the rest of an effect row; where each
-- variable keeps to one of the three, substitutions compose as they should.
import PaideiaAs.ShellHm.Ty

open Assoc

namespace paideia_as_shell_hm

open RowType
open List (mem_append)

/-- A field in front of a row. The labels of an effect row stay in key order. -/
def RowKind.cons : RowKind → String → MonoType → RowType → RowType
  | .record => .Extend
  | .effect => put

/-- The row that a tail variable `v` becomes. A type that is no row of the
kind leaves the tail alone. -/
def RowKind.splice (k : RowKind) (v : TypeVar) (t : MonoType) : RowType :=
  match k, t with
  | .record, .Record next => next
  | .effect, .EffectRow next => next
  | _, .Var w => .RowVar w
  | _, _ => .RowVar v

mutual

def MonoType.subst (σ : TypeVar → MonoType) : MonoType → MonoType
  | .Var v => σ v
  | .Con name => .Con name
  | .Arrow a b => .Arrow (a.subst σ) (b.subst σ)
  | .Record row => .Record (row.subst σ .record)
  | .EffectRow row => .EffectRow (row.subst σ .effect)
  | .Typed v e => .Typed (v.subst σ .record) (e.subst σ .effect)

def RowType.subst (σ : TypeVar → MonoType) (k : RowKind) : RowType → RowType
  | .Empty => .Empty
  | .RowVar v => k.splice v (σ v)
  | .Extend f ty rest => k.cons f (ty.subst σ) (rest.subst σ k)

end

mutual

/-- Every row of the type in name order. -/
def MonoType.canon : MonoType → MonoType
  | .Var v => .Var v
  | .Con name => .Con name
  | .Arrow a b => .Arrow a.canon b.canon
  | .Record row => .Record row.canon
  | .EffectRow row => .EffectRow row.canon
  | .Typed v e => .Typed v.canon e.canon

def RowType.canon : RowType → RowType
  | .Empty => .Empty
  | .RowVar v => .RowVar v
  | .Extend f ty rest => put f ty.canon rest.canon

end

/-- Equal up to the order of the fields of a record. -/
def MonoType.Same (a b : MonoType) : Prop := a.canon = b.canon

instance (a b : MonoType) : Decidable (a.Same b) := inferInstanceAs (Decidable (_ = _))

/-- What a variable stands for. -/
inductive Kind where
  | type
  | row (k : RowKind)
  deriving DecidableEq

/-- The labels of an effect row are the keys of a `BTreeMap`. -/
def RowKind.Shaped (k : RowKind) (r : RowType) : Prop := k = .effect → r.InOrder

mutual

/-- Each variable of the type is used as `κ` says. -/
def MonoType.Kinded (κ : TypeVar → Kind) : MonoType → Prop
  | .Var v => κ v = .type
  | .Con _ => True
  | .Arrow a b => a.Kinded κ ∧ b.Kinded κ
  | .Record row => row.Kinded κ .record
  | .EffectRow row => row.InOrder ∧ row.Kinded κ .effect
  | .Typed v e => v.Kinded κ .record ∧ e.InOrder ∧ e.Kinded κ .effect

def RowType.Kinded (κ : TypeVar → Kind) (k : RowKind) : RowType → Prop
  | .Empty => True
  | .RowVar v => κ v = .row k
  | .Extend _ ty rest => ty.Kinded κ ∧ rest.Kinded κ k

end

/-- A type that may stand for a variable of the kind. -/
def Kind.Fits (κ : TypeVar → Kind) : Kind → MonoType → Prop
  | .type, t => t.Kinded κ
  | .row k, t => (∃ w, t = .Var w ∧ κ w = .row k) ∨ ∃ r, t = k.wrap r ∧ k.Shaped r ∧ r.Kinded κ k

/-! ## A field in front of a row -/

namespace RowKind

variable (k : RowKind) (f h : String) (ty : MonoType) (r : RowType)

theorem get_cons : (k.cons f ty r).get h = if h = f then some ty else r.get h := by
  cases k with
  | record => rfl
  | effect => exact get_put f h ty r

@[simp] theorem tail_cons : (k.cons f ty r).tail = r.tail := by
  cases k with
  | record => rfl
  | effect => exact tail_put f ty r

end RowKind

namespace RowType

theorem canon_put (f : String) (ty : MonoType) (r : RowType) :
    (put f ty r).canon = put f ty.canon r.canon := by
  match r with
  | .Empty => simp [put, canon]
  | .RowVar _ => simp [put, canon]
  | .Extend g u rest =>
    have ih := canon_put f ty rest
    rw [put]
    split
    · rfl
    · split
      · rename_i hfg
        subst hfg
        simp only [canon, put_put_self]
      · rename_i hfg
        simp only [canon, ih]
        exact put_comm (Ne.symm hfg) _ _ _

theorem canon_cons (k : RowKind) (f : String) (ty : MonoType) (r : RowType) :
    (k.cons f ty r).canon = put f ty.canon r.canon := by
  cases k with
  | record => rfl
  | effect => exact canon_put f ty r

theorem get_canon (f : String) (r : RowType) : r.canon.get f = (r.get f).map MonoType.canon := by
  match r with
  | .Empty => rfl
  | .RowVar _ => rfl
  | .Extend g u rest =>
    simp only [canon, get_put, get, get_canon f rest]
    split <;> rfl

@[simp] theorem tail_canon (r : RowType) : r.canon.tail = r.tail := by
  match r with
  | .Empty => rfl
  | .RowVar _ => rfl
  | .Extend g u rest => simp [canon, tail, tail_canon rest]

theorem inOrder_canon (r : RowType) : r.canon.InOrder := by
  match r with
  | .Empty => trivial
  | .RowVar _ => trivial
  | .Extend g u rest => exact inOrder_put (inOrder_canon rest) g _

/-- Rows are the same when their tails are and their fields are, name by name. -/
theorem canon_eq_iff {r r' : RowType} : r.canon = r'.canon ↔
    r.tail = r'.tail ∧ ∀ f, (r.get f).map MonoType.canon = (r'.get f).map MonoType.canon := by
  constructor
  · intro h
    refine ⟨by rw [← tail_canon r, h, tail_canon], ?_⟩
    intro f
    rw [← get_canon, h, get_canon]
  · rintro ⟨ht, hg⟩
    refine (inOrder_canon r).ext (inOrder_canon r') (by simpa using ht) ?_
    intro f
    rw [get_canon, get_canon, hg]

theorem put_of_lt {f : String} {r : RowType} (h : ∀ g t, r.get g = some t → f < g) (ty : MonoType) :
    put f ty r = .Extend f ty r := by
  match r with
  | .Empty => rfl
  | .RowVar _ => rfl
  | .Extend g u rest =>
    have hlt : f < g := h g u (by simp [get])
    simp [put, hlt]

end RowType

/-! ## Substitution -/

section

variable {σ ρ : TypeVar → MonoType} {κ κ' κ'' : TypeVar → Kind}

@[simp] theorem RowKind.subst_wrap (k : RowKind) (r : RowType) :
    (k.wrap r).subst σ = k.wrap (r.subst σ k) := by
  cases k <;> simp [MonoType.subst]

@[simp] theorem RowKind.canon_wrap (k : RowKind) (r : RowType) :
    (k.wrap r).canon = k.wrap r.canon := by
  cases k <;> simp [MonoType.canon]

@[simp] theorem RowKind.splice_wrap (k : RowKind) (v : TypeVar) (r : RowType) :
    k.splice v (k.wrap r) = r := by
  cases k <;> rfl

@[simp] theorem RowKind.splice_var (k : RowKind) (v w : TypeVar) :
    k.splice v (.Var w) = .RowVar w := by
  cases k <;> rfl

variable {k : RowKind} {r : RowType} {t ty : MonoType}

theorem RowKind.wrap_inj {r' : RowType} (h : k.wrap r = k.wrap r') : r = r' := by
  cases k <;> simpa using h

theorem RowKind.kinded_wrap : (k.wrap r).Kinded κ ↔ k.Shaped r ∧ r.Kinded κ k := by
  cases k <;> simp [MonoType.Kinded, RowKind.Shaped]

mutual

theorem MonoType.subst_congr (t : MonoType) (h : ∀ v ∈ t.free_vars, σ v = ρ v) :
    t.subst σ = t.subst ρ := by
  match t with
  | .Var v => exact h v (by simp [MonoType.free_vars])
  | .Con _ => rfl
  | .Arrow a b =>
    simp only [MonoType.free_vars, mem_append] at h
    simp only [MonoType.subst]
    rw [a.subst_congr fun v hv => h v (.inl hv), b.subst_congr fun v hv => h v (.inr hv)]
  | .Record row =>
    simp only [MonoType.subst]
    rw [row.subst_congr .record (by simpa [MonoType.free_vars] using h)]
  | .EffectRow row =>
    simp only [MonoType.subst]
    rw [row.subst_congr .effect (by simpa [MonoType.free_vars] using h)]
  | .Typed v e =>
    simp only [MonoType.free_vars, mem_append] at h
    simp only [MonoType.subst]
    rw [v.subst_congr .record fun u hu => h u (.inl hu),
      e.subst_congr .effect fun u hu => h u (.inr hu)]

theorem RowType.subst_congr (r : RowType) (k : RowKind) (h : ∀ v ∈ r.free_vars, σ v = ρ v) :
    r.subst σ k = r.subst ρ k := by
  match r with
  | .Empty => rfl
  | .RowVar v =>
    simp only [RowType.subst]
    rw [h v (by simp [RowType.free_vars])]
  | .Extend f ty rest =>
    simp only [RowType.free_vars, mem_append] at h
    simp only [RowType.subst]
    rw [ty.subst_congr fun v hv => h v (.inl hv), rest.subst_congr k fun v hv => h v (.inr hv)]

end

theorem RowType.get_subst (r : RowType) (k : RowKind) (f : String) :
    (r.subst σ k).get f = ((r.get f).map (MonoType.subst σ)).or
      (match r.tail with | some v => (k.splice v (σ v)).get f | none => none) := by
  match r with
  | .Empty => simp [RowType.subst, RowType.get, RowType.tail]
  | .RowVar v => simp [RowType.subst, RowType.get, RowType.tail]
  | .Extend g ty rest =>
    simp only [RowType.subst, RowKind.get_cons, RowType.get, RowType.tail, rest.get_subst k f]
    split <;> simp

theorem RowType.tail_subst (r : RowType) (k : RowKind) :
    (r.subst σ k).tail = r.tail.bind fun v => (k.splice v (σ v)).tail := by
  match r with
  | .Empty => simp [RowType.subst, RowType.tail]
  | .RowVar v => simp [RowType.subst, RowType.tail]
  | .Extend g ty rest => simp [RowType.subst, RowType.tail, rest.tail_subst k]

/-! ### Up to the order of fields -/

theorem RowType.canon_subst_put (f : String) (ty : MonoType) (r : RowType) (k : RowKind) :
    ((put f ty r).subst σ k).canon = put f (ty.subst σ).canon (r.subst σ k).canon := by
  match r with
  | .Empty => simp [put, RowType.subst, RowType.canon_cons]
  | .RowVar _ => simp [put, RowType.subst, RowType.canon_cons]
  | .Extend g u rest =>
    have ih := RowType.canon_subst_put f ty rest k
    rw [put]
    split
    · simp only [RowType.subst, RowType.canon_cons]
    · split
      · rename_i hfg
        subst hfg
        simp only [RowType.subst, RowType.canon_cons, put_put_self]
      · rename_i hfg
        simp only [RowType.subst, RowType.canon_cons, ih]
        exact put_comm (Ne.symm hfg) _ _ _

mutual

theorem MonoType.canon_subst_canon (t : MonoType) :
    (t.canon.subst σ).canon = (t.subst σ).canon := by
  match t with
  | .Var v => rfl
  | .Con _ => rfl
  | .Arrow a b =>
    simp only [MonoType.canon, MonoType.subst, a.canon_subst_canon, b.canon_subst_canon]
  | .Record row => simp only [MonoType.canon, MonoType.subst, row.canon_subst_canon .record]
  | .EffectRow row => simp only [MonoType.canon, MonoType.subst, row.canon_subst_canon .effect]
  | .Typed v e =>
    simp only [MonoType.canon, MonoType.subst, v.canon_subst_canon .record,
      e.canon_subst_canon .effect]

theorem RowType.canon_subst_canon (r : RowType) (k : RowKind) :
    (r.canon.subst σ k).canon = (r.subst σ k).canon := by
  match r with
  | .Empty => rfl
  | .RowVar v => rfl
  | .Extend f ty rest =>
    simp only [RowType.canon, RowType.canon_subst_put, RowType.subst, RowType.canon_cons,
      ty.canon_subst_canon, rest.canon_subst_canon k]

end

theorem MonoType.Same.subst {a b : MonoType} (h : a.Same b) (σ : TypeVar → MonoType) :
    (a.subst σ).Same (b.subst σ) := by
  unfold MonoType.Same at *
  rw [← a.canon_subst_canon, h, b.canon_subst_canon]

/-! ### Kinds -/

theorem Kind.Fits.splice {v : TypeVar} (h : (Kind.row k).Fits κ t) :
    (k.splice v t).Kinded κ k ∧ k.Shaped (k.splice v t) ∧
      ∀ u ∈ (k.splice v t).free_vars, u ∈ t.free_vars := by
  obtain ⟨w, rfl, hw⟩ | ⟨r, rfl, hs, hr⟩ := h
  · rw [RowKind.splice_var]
    exact ⟨hw, fun _ => trivial, fun u hu => hu⟩
  · rw [RowKind.splice_wrap]
    exact ⟨hr, hs, fun u hu => by rwa [RowKind.free_vars_wrap]⟩

theorem RowKind.shaped_cons (h : k.Shaped r) (f : String)
    (ty : MonoType) : k = .effect → (k.cons f ty r).InOrder := by
  rintro rfl
  exact inOrder_put (h rfl) f ty

theorem RowType.kinded_put {k : RowKind} {ty : MonoType} {r : RowType} (hty : ty.Kinded κ)
    (hr : r.Kinded κ k) (f : String) : (put f ty r).Kinded κ k := by
  match r with
  | .Empty => exact ⟨hty, trivial⟩
  | .RowVar _ => exact ⟨hty, hr⟩
  | .Extend g u rest =>
    obtain ⟨hu, hrest⟩ := hr
    rw [put]
    split
    · exact ⟨hty, hu, hrest⟩
    · split
      · exact ⟨hty, hrest⟩
      · exact ⟨hu, RowType.kinded_put hty hrest f⟩

theorem RowType.kinded_cons (hty : ty.Kinded κ)
    (hr : r.Kinded κ k) (f : String) : (k.cons f ty r).Kinded κ k := by
  cases k with
  | record => exact ⟨hty, hr⟩
  | effect => exact RowType.kinded_put hty hr f

theorem RowType.free_vars_put {f : String} {ty : MonoType} {r : RowType} {u : TypeVar}
    (h : u ∈ (put f ty r).free_vars) : u ∈ ty.free_vars ∨ u ∈ r.free_vars := by
  match r with
  | .Empty => simpa [put, RowType.free_vars] using h
  | .RowVar _ => simpa [put, RowType.free_vars] using h
  | .Extend g x rest =>
    rw [put] at h
    have ih := @RowType.free_vars_put f ty rest u
    split at h
    · simpa [RowType.free_vars] using h
    · split at h
      all_goals
        simp only [RowType.free_vars, mem_append] at h ⊢
        tauto

theorem RowType.free_vars_cons {f : String} {u : TypeVar} (h : u ∈ (k.cons f ty r).free_vars) :
    u ∈ ty.free_vars ∨ u ∈ r.free_vars := by
  cases k with
  | record => simpa [RowKind.cons, RowType.free_vars] using h
  | effect => exact RowType.free_vars_put h

/-- The substitution gives each variable of the list a type of its kind. -/
def Respects (κ κ' : TypeVar → Kind) (σ : TypeVar → MonoType) (vs : List TypeVar) : Prop :=
  ∀ v ∈ vs, (κ v).Fits κ' (σ v)

theorem Respects.append {vs ws : List TypeVar} :
    Respects κ κ' σ (vs ++ ws) ↔ Respects κ κ' σ vs ∧ Respects κ κ' σ ws := by
  simp [Respects, or_imp, forall_and]

theorem Respects.self (vs : List TypeVar) : Respects κ κ .Var vs := by
  intro v _
  rcases h : κ v with _ | k
  · exact h
  · exact .inl ⟨v, rfl, h⟩

mutual

/-- A substitution that respects the kinds keeps them, and brings in no
variable but those of the types it puts in. -/
theorem MonoType.kinded_subst (t : MonoType) (ht : t.Kinded κ)
    (h : Respects κ κ' σ t.free_vars) : (t.subst σ).Kinded κ' ∧
      ∀ u ∈ (t.subst σ).free_vars, ∃ v ∈ t.free_vars, u ∈ (σ v).free_vars := by
  match t with
  | .Var v =>
    have hv := h v (by simp [MonoType.free_vars])
    simp only [MonoType.Kinded] at ht
    rw [ht] at hv
    exact ⟨hv, fun u hu => ⟨v, by simp [MonoType.free_vars], hu⟩⟩
  | .Con _ => exact ⟨trivial, fun u hu => by simp [MonoType.subst, MonoType.free_vars] at hu⟩
  | .Arrow a b =>
    simp only [MonoType.free_vars, Respects.append] at h
    obtain ⟨ha, hav⟩ := a.kinded_subst ht.1 h.1
    obtain ⟨hb, hbv⟩ := b.kinded_subst ht.2 h.2
    refine ⟨⟨ha, hb⟩, ?_⟩
    simp only [MonoType.subst, MonoType.free_vars, mem_append]
    rintro u (hu | hu)
    · obtain ⟨v, hv, huv⟩ := hav u hu
      exact ⟨v, .inl hv, huv⟩
    · obtain ⟨v, hv, huv⟩ := hbv u hu
      exact ⟨v, .inr hv, huv⟩
  | .Record row =>
    obtain ⟨hk, _, hv⟩ := row.kinded_subst .record ht (by simp [RowKind.Shaped]) h
    exact ⟨hk, hv⟩
  | .EffectRow row =>
    obtain ⟨hk, hs, hv⟩ := row.kinded_subst .effect ht.2 (fun _ => ht.1) h
    exact ⟨⟨hs rfl, hk⟩, hv⟩
  | .Typed v e =>
    simp only [MonoType.free_vars, Respects.append] at h
    obtain ⟨hk, _, hv⟩ := v.kinded_subst .record ht.1 (by simp [RowKind.Shaped]) h.1
    obtain ⟨hk', hs', hv'⟩ := e.kinded_subst .effect ht.2.2 (fun _ => ht.2.1) h.2
    refine ⟨⟨hk, hs' rfl, hk'⟩, ?_⟩
    simp only [MonoType.subst, MonoType.free_vars, mem_append]
    rintro u (hu | hu)
    · obtain ⟨w, hw, huw⟩ := hv u hu
      exact ⟨w, .inl hw, huw⟩
    · obtain ⟨w, hw, huw⟩ := hv' u hu
      exact ⟨w, .inr hw, huw⟩

theorem RowType.kinded_subst (r : RowType) (k : RowKind) (hr : r.Kinded κ k) (hs : k.Shaped r)
    (h : Respects κ κ' σ r.free_vars) : (r.subst σ k).Kinded κ' k ∧ k.Shaped (r.subst σ k) ∧
      ∀ u ∈ (r.subst σ k).free_vars, ∃ v ∈ r.free_vars, u ∈ (σ v).free_vars := by
  match r with
  | .Empty =>
    exact ⟨trivial, fun _ => trivial, fun u hu => by simp [RowType.subst, RowType.free_vars] at hu⟩
  | .RowVar v =>
    have hv := h v (by simp [RowType.free_vars])
    simp only [RowType.Kinded] at hr
    rw [hr] at hv
    obtain ⟨h1, h2, h3⟩ := hv.splice (v := v)
    exact ⟨h1, h2, fun u hu => ⟨v, by simp [RowType.free_vars], h3 u hu⟩⟩
  | .Extend f ty rest =>
    simp only [RowType.free_vars, Respects.append] at h
    obtain ⟨hk, hv⟩ := ty.kinded_subst hr.1 h.1
    obtain ⟨hk', hs', hv'⟩ := rest.kinded_subst k hr.2 (fun e => (hs e).2) h.2
    refine ⟨RowType.kinded_cons hk hk' f, RowKind.shaped_cons hs' f _, ?_⟩
    intro u hu
    simp only [RowType.free_vars, mem_append]
    rcases RowType.free_vars_cons hu with hu | hu
    · obtain ⟨w, hw, huw⟩ := hv u hu
      exact ⟨w, .inl hw, huw⟩
    · obtain ⟨w, hw, huw⟩ := hv' u hu
      exact ⟨w, .inr hw, huw⟩

end

theorem RowType.subst_put (f : String) (ty : MonoType) (r : RowType) :
    (put f ty r).subst σ .effect = put f (ty.subst σ) (r.subst σ .effect) := by
  match r with
  | .Empty => simp [put, RowType.subst, RowKind.cons]
  | .RowVar _ => simp [put, RowType.subst, RowKind.cons]
  | .Extend g u rest =>
    have ih := RowType.subst_put f ty rest
    rw [put]
    split
    · simp only [RowType.subst, RowKind.cons]
    · split
      · rename_i hfg
        subst hfg
        simp only [RowType.subst, RowKind.cons, put_put_self]
      · rename_i hfg
        simp only [RowType.subst, RowKind.cons, ih]
        exact put_comm (Ne.symm hfg) _ _ _

theorem RowType.subst_cons (k : RowKind) (f : String) (ty : MonoType) (r : RowType) :
    (k.cons f ty r).subst σ k = k.cons f (ty.subst σ) (r.subst σ k) := by
  cases k with
  | record => rfl
  | effect => exact RowType.subst_put f ty r

theorem Kind.Fits.splice_subst {v : TypeVar} (h : (Kind.row k).Fits κ t)
    (hρ : Respects κ κ' ρ t.free_vars) :
    (k.splice v t).subst ρ k = k.splice v (t.subst ρ) := by
  obtain ⟨w, rfl, hw⟩ | ⟨r, rfl, hs, hr⟩ := h
  · have hf := hρ w (by simp [MonoType.free_vars])
    rw [hw] at hf
    simp only [RowKind.splice_var, RowType.subst, MonoType.subst]
    obtain ⟨x, hx, -⟩ | ⟨r, hx, -⟩ := hf
    · rw [hx, RowKind.splice_var, RowKind.splice_var]
    · rw [hx, RowKind.splice_wrap, RowKind.splice_wrap]
  · rw [RowKind.splice_wrap, RowKind.subst_wrap, RowKind.splice_wrap]

mutual

/-- One substitution after another is the substitution of their composition. -/
theorem MonoType.subst_subst (t : MonoType) (ht : t.Kinded κ) (h : Respects κ κ' σ t.free_vars)
    (hρ : ∀ v ∈ t.free_vars, Respects κ' κ'' ρ (σ v).free_vars) :
    (t.subst σ).subst ρ = t.subst fun v => (σ v).subst ρ := by
  match t with
  | .Var v => rfl
  | .Con _ => rfl
  | .Arrow a b =>
    simp only [MonoType.free_vars, Respects.append] at h
    simp only [MonoType.free_vars, mem_append] at hρ
    simp only [MonoType.subst]
    rw [a.subst_subst ht.1 h.1 fun v hv => hρ v (.inl hv),
      b.subst_subst ht.2 h.2 fun v hv => hρ v (.inr hv)]
  | .Record row =>
    simp only [MonoType.subst]
    rw [row.subst_subst .record ht h hρ]
  | .EffectRow row =>
    simp only [MonoType.subst]
    rw [row.subst_subst .effect ht.2 h hρ]
  | .Typed v e =>
    simp only [MonoType.free_vars, Respects.append] at h
    simp only [MonoType.free_vars, mem_append] at hρ
    simp only [MonoType.subst]
    rw [v.subst_subst .record ht.1 h.1 fun v hv => hρ v (.inl hv),
      e.subst_subst .effect ht.2.2 h.2 fun v hv => hρ v (.inr hv)]

theorem RowType.subst_subst (r : RowType) (k : RowKind) (hr : r.Kinded κ k)
    (h : Respects κ κ' σ r.free_vars)
    (hρ : ∀ v ∈ r.free_vars, Respects κ' κ'' ρ (σ v).free_vars) :
    (r.subst σ k).subst ρ k = r.subst (fun v => (σ v).subst ρ) k := by
  match r with
  | .Empty => rfl
  | .RowVar v =>
    have hv := h v (by simp [RowType.free_vars])
    simp only [RowType.Kinded] at hr
    rw [hr] at hv
    exact hv.splice_subst (hρ v (by simp [RowType.free_vars]))
  | .Extend f ty rest =>
    simp only [RowType.free_vars, Respects.append] at h
    simp only [RowType.free_vars, mem_append] at hρ
    simp only [RowType.subst, RowType.subst_cons]
    rw [ty.subst_subst hr.1 h.1 fun v hv => hρ v (.inl hv),
      rest.subst_subst k hr.2 h.2 fun v hv => hρ v (.inr hv)]

end

theorem RowKind.cons_of_shaped {f : String} (h : k.Shaped (.Extend f ty r)) (ty' : MonoType) :
    k.cons f ty' r = .Extend f ty' r := by
  cases k with
  | record => rfl
  | effect => exact put_of_lt (h rfl).1 ty'

mutual

theorem MonoType.subst_self (t : MonoType) (ht : t.Kinded κ) (h : ∀ v ∈ t.free_vars, σ v = .Var v) :
    t.subst σ = t := by
  match t with
  | .Var v => exact h v (by simp [MonoType.free_vars])
  | .Con _ => rfl
  | .Arrow a b =>
    simp only [MonoType.free_vars, mem_append] at h
    simp only [MonoType.subst]
    rw [a.subst_self ht.1 fun v hv => h v (.inl hv), b.subst_self ht.2 fun v hv => h v (.inr hv)]
  | .Record row =>
    simp only [MonoType.subst]
    rw [row.subst_self .record ht (by simp [RowKind.Shaped]) h]
  | .EffectRow row =>
    simp only [MonoType.subst]
    rw [row.subst_self .effect ht.2 (fun _ => ht.1) h]
  | .Typed v e =>
    simp only [MonoType.free_vars, mem_append] at h
    simp only [MonoType.subst]
    rw [v.subst_self .record ht.1 (by simp [RowKind.Shaped]) fun v hv => h v (.inl hv),
      e.subst_self .effect ht.2.2 (fun _ => ht.2.1) fun v hv => h v (.inr hv)]

theorem RowType.subst_self (r : RowType) (k : RowKind) (hr : r.Kinded κ k) (hs : k.Shaped r)
    (h : ∀ v ∈ r.free_vars, σ v = .Var v) : r.subst σ k = r := by
  match r with
  | .Empty => rfl
  | .RowVar v =>
    simp only [RowType.subst]
    rw [h v (by simp [RowType.free_vars]), RowKind.splice_var]
  | .Extend f ty rest =>
    simp only [RowType.free_vars, mem_append] at h
    simp only [RowType.subst]
    rw [ty.subst_self hr.1 fun v hv => h v (.inl hv),
      rest.subst_self k hr.2 (fun e => (hs e).2) fun v hv => h v (.inr hv)]
    exact RowKind.cons_of_shaped hs ty

end

namespace Kind.Fits

variable {j : Kind} {t : MonoType}

theorem subst_self (h : j.Fits κ t) (hσ : ∀ v ∈ t.free_vars, σ v = .Var v) : t.subst σ = t := by
  cases j with
  | type => exact t.subst_self h hσ
  | row k =>
    obtain ⟨w, rfl, -⟩ | ⟨r, rfl, hs, hr⟩ := h
    · exact hσ w (by simp [MonoType.free_vars])
    · rw [RowKind.subst_wrap, r.subst_self k hr hs (by simpa using hσ)]

theorem subst (h : j.Fits κ t) (hσ : Respects κ κ' σ t.free_vars) : j.Fits κ' (t.subst σ) ∧
    ∀ u ∈ (t.subst σ).free_vars, ∃ v ∈ t.free_vars, u ∈ (σ v).free_vars := by
  cases j with
  | type => exact t.kinded_subst h hσ
  | row k =>
    obtain ⟨w, rfl, hw⟩ | ⟨r, rfl, hs, hr⟩ := h
    · have hf := hσ w (by simp [MonoType.free_vars])
      rw [hw] at hf
      exact ⟨hf, fun u hu => ⟨w, by simp [MonoType.free_vars], hu⟩⟩
    · rw [RowKind.free_vars_wrap] at hσ
      obtain ⟨h1, h2, h3⟩ := r.kinded_subst k hr hs hσ
      rw [RowKind.subst_wrap]
      refine ⟨.inr ⟨_, rfl, h2, h1⟩, ?_⟩
      simpa using h3

end Kind.Fits

end

end paideia_as_shell_hm
