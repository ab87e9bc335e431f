-- The types of the shell's type checker: monotypes, rows and schemes. A row
-- is read as a map of fields with an optional tail, and two types are the
-- same when they are equal after every row is put in name order.
import PaideiaAs.Lib.Assoc
import Mathlib.Data.String.Basic
import Mathlib.Data.List.Sort
import Mathlib.Data.Finset.Card

open Assoc

namespace paideia_as_shell_hm

/-- The `u32` of a type variable. -/
abbrev TypeVar := Nat

mutual

/-- `EffectRow { present, tail }` is written as a row too: the labels of the
`BTreeMap` in key order, ended by the tail. -/
inductive MonoType where
  | Var (v : TypeVar)
  | Con (name : String)
  | Arrow (a b : MonoType)
  | Record (row : RowType)
  | EffectRow (row : RowType)
  | Typed (value_row effect_row : RowType)
  deriving DecidableEq

inductive RowType where
  | Empty
  | RowVar (v : TypeVar)
  | Extend (field : String) (ty : MonoType) (rest : RowType)
  deriving DecidableEq

end

/-- The two kinds of rows, which never unify with each other. -/
inductive RowKind where
  | record
  | effect
  deriving DecidableEq

/-- The monotype over a row. -/
def RowKind.wrap : RowKind → RowType → MonoType
  | .record => .Record
  | .effect => .EffectRow

@[simp] theorem RowKind.wrap_record (row : RowType) : RowKind.record.wrap row = .Record row := rfl

@[simp] theorem RowKind.wrap_effect (row : RowType) : RowKind.effect.wrap row = .EffectRow row := rfl

structure TypeScheme where
  quantified : List TypeVar
  body : MonoType
  deriving DecidableEq

/-! ## Free variables -/

mutual

def MonoType.free_vars : MonoType → List TypeVar
  | .Var v => [v]
  | .Con _ => []
  | .Arrow a b => a.free_vars ++ b.free_vars
  | .Record row => row.free_vars
  | .EffectRow row => row.free_vars
  | .Typed v e => v.free_vars ++ e.free_vars

def RowType.free_vars : RowType → List TypeVar
  | .Empty => []
  | .RowVar v => [v]
  | .Extend _ ty rest => ty.free_vars ++ rest.free_vars

end

def TypeScheme.free_vars (s : TypeScheme) : List TypeVar :=
  s.body.free_vars.filter (· ∉ s.quantified)

@[simp] theorem RowKind.free_vars_wrap (k : RowKind) (row : RowType) :
    (k.wrap row).free_vars = row.free_vars := by
  cases k <;> simp [MonoType.free_vars]

/-! ## Rows as maps -/

namespace RowType

/-- The type of a field. The outer one counts when a field is there twice. -/
def get (f : String) : RowType → Option MonoType
  | .Empty => none
  | .RowVar _ => none
  | .Extend g ty rest => if f = g then some ty else get f rest

def tail : RowType → Option TypeVar
  | .Empty => none
  | .RowVar v => some v
  | .Extend _ _ rest => rest.tail

/-- The row without fields, closed or open. -/
def ended : Option TypeVar → RowType
  | none => .Empty
  | some v => .RowVar v

/-- The loop of `to_map`: a field is taken when it is not there yet. -/
def to_map_from (fields : List (String × MonoType)) :
    RowType → List (String × MonoType) × Option TypeVar
  | .Empty => (fields, none)
  | .RowVar v => (fields, some v)
  | .Extend f ty rest =>
    if fields.any (·.1 = f) then to_map_from fields rest
    else to_map_from (fields ++ [(f, ty)]) rest

def to_map (row : RowType) : List (String × MonoType) × Option TypeVar := to_map_from [] row

/-- `BTreeMap::insert` on a row in name order. -/
def put (f : String) (ty : MonoType) : RowType → RowType
  | .Empty => .Extend f ty .Empty
  | .RowVar v => .Extend f ty (.RowVar v)
  | .Extend g u rest =>
    if f < g then .Extend f ty (.Extend g u rest)
    else if f = g then .Extend f ty rest
    else .Extend g u (put f ty rest)

/-- Sorted by name, and folded from the right. -/
def from_map (fields : List (String × MonoType)) (tail : Option TypeVar) : RowType :=
  (fields.insertionSort fun a b => a.1 ≤ b.1).foldr (fun p acc => .Extend p.1 p.2 acc) (ended tail)

/-! ### Lookups -/

@[simp] theorem get_ended (f : String) (o : Option TypeVar) : (ended o).get f = none := by
  cases o <;> rfl

@[simp] theorem tail_ended (o : Option TypeVar) : (ended o).tail = o := by
  cases o <;> rfl

theorem get_put (f h : String) (ty : MonoType) (r : RowType) :
    (put f ty r).get h = if h = f then some ty else r.get h := by
  match r with
  | .Empty => rfl
  | .RowVar _ => rfl
  | .Extend g u rest =>
    have ih := get_put f h ty rest
    simp only [put, get]
    split
    · simp only [get]
    · split
      · rename_i hfg
        subst hfg
        simp only [get]
        split <;> rfl
      · simp only [get, ih]
        grind

@[simp] theorem tail_put (f : String) (ty : MonoType) (r : RowType) : (put f ty r).tail = r.tail := by
  match r with
  | .Empty => rfl
  | .RowVar _ => rfl
  | .Extend g u rest =>
    unfold put
    split_ifs
    · rfl
    · rfl
    · exact tail_put f ty rest

theorem put_put_self (f : String) (x y : MonoType) (r : RowType) :
    put f x (put f y r) = put f x r := by
  match r with
  | .Empty => simp [put]
  | .RowVar _ => simp [put]
  | .Extend g u rest =>
    have ih := put_put_self f x y rest
    grind [put]

theorem put_comm {f g : String} (hfg : f ≠ g) (x y : MonoType) (r : RowType) :
    put f x (put g y r) = put g y (put f x r) := by
  match r with
  | .Empty => grind [put]
  | .RowVar _ => grind [put]
  | .Extend h u rest =>
    have ih := put_comm hfg x y rest
    grind [put]

/-- Fields in name order, each there once. -/
def InOrder : RowType → Prop
  | .Empty => True
  | .RowVar _ => True
  | .Extend f _ rest => (∀ g t, rest.get g = some t → f < g) ∧ rest.InOrder

theorem inOrder_put {r : RowType} (h : r.InOrder) (f : String) (ty : MonoType) :
    (put f ty r).InOrder := by
  match r with
  | .Empty => simp [put, InOrder, get]
  | .RowVar _ => simp [put, InOrder, get]
  | .Extend g u rest =>
    obtain ⟨hlt, hrest⟩ := h
    unfold put
    split_ifs with h1 h2
    · refine ⟨?_, hlt, hrest⟩
      intro k t hk
      simp only [get] at hk
      split_ifs at hk with hkg
      · exact hkg ▸ h1
      · exact h1.trans (hlt k t hk)
    · exact ⟨h2 ▸ hlt, hrest⟩
    · refine ⟨?_, inOrder_put hrest f ty⟩
      intro k t hk
      rw [get_put] at hk
      split_ifs at hk with hkf
      · have : g ≠ f := fun e => h2 e.symm
        exact hkf ▸ lt_of_le_of_ne (not_lt.mp h1) this
      · exact hlt k t hk

/-- A row in order is known by its tail and its fields. -/
theorem InOrder.ext {r r' : RowType} (h : r.InOrder) (h' : r'.InOrder) (ht : r.tail = r'.tail)
    (hg : ∀ f, r.get f = r'.get f) : r = r' := by
  match r, r' with
  | .Empty, .Empty => rfl
  | .Empty, .RowVar _ => simp [tail] at ht
  | .RowVar _, .Empty => simp [tail] at ht
  | .RowVar v, .RowVar w => simp [tail] at ht; rw [ht]
  | .Empty, .Extend g u rest => simpa [get] using hg g
  | .RowVar _, .Extend g u rest => simpa [get] using hg g
  | .Extend f t rest, .Empty => simpa [get] using hg f
  | .Extend f t rest, .RowVar _ => simpa [get] using hg f
  | .Extend f t rest, .Extend g u rest' =>
    obtain ⟨hlt, hrest⟩ := h
    obtain ⟨hlt', hrest'⟩ := h'
    have hfg : f = g := by
      have h1 := hg f
      have h2 := hg g
      simp only [get, if_true] at h1 h2
      by_contra hne
      rw [if_neg hne] at h1
      rw [if_neg (Ne.symm hne)] at h2
      exact lt_asymm (hlt' f t h1.symm) (hlt g u h2)
    subst hfg
    have htu : t = u := by simpa [get] using hg f
    subst htu
    have hr : rest = rest' := by
      refine InOrder.ext hrest hrest' ht ?_
      intro k
      by_cases hk : k = f
      · subst hk
        have hn : rest.get k = none := by
          rcases hx : rest.get k with _ | x
          · rfl
          · exact absurd (hlt k x hx) (lt_irrefl k)
        have hn' : rest'.get k = none := by
          rcases hx : rest'.get k with _ | x
          · rfl
          · exact absurd (hlt' k x hx) (lt_irrefl k)
        rw [hn, hn']
      · simpa [get, hk] using hg k
    rw [hr]

/-! ### To a map and back -/

variable {fields : List (String × MonoType)}

theorem any_key {f : String} : fields.any (·.1 = f) = true ↔ f ∈ keys fields := by
  simp only [List.any_eq_true, decide_eq_true_eq, keys, List.mem_map]

theorem to_map_from_tail (acc : List (String × MonoType)) (r : RowType) :
    (to_map_from acc r).2 = r.tail := by
  match r with
  | .Empty => rfl
  | .RowVar _ => rfl
  | .Extend f ty rest =>
    unfold to_map_from
    split
    · exact to_map_from_tail _ rest
    · exact to_map_from_tail _ rest

@[simp] theorem to_map_tail (r : RowType) : r.to_map.2 = r.tail := to_map_from_tail [] r

theorem to_map_from_lookup (acc : List (String × MonoType)) (r : RowType) (f : String) :
    (to_map_from acc r).1.lookup f = (acc.lookup f).or (r.get f) := by
  match r with
  | .Empty => simp [to_map_from, get]
  | .RowVar _ => simp [to_map_from, get]
  | .Extend g ty rest =>
    unfold to_map_from
    split
    · rename_i h
      rw [to_map_from_lookup acc rest f]
      rw [any_key, ← lookup_isSome] at h
      by_cases hf : f = g
      · subst hf
        obtain ⟨x, hx⟩ := Option.isSome_iff_exists.mp h
        simp [hx]
      · simp [get, hf]
    · rename_i h
      rw [to_map_from_lookup _ rest f, List.lookup_append]
      rw [any_key, ← lookup_none] at h
      by_cases hf : f = g
      · subst hf
        simp [h, get]
      · simp [get, hf, lookup_cons_ite]

/-- The map of a row holds what the row holds. -/
@[simp] theorem to_map_lookup (r : RowType) (f : String) : r.to_map.1.lookup f = r.get f := by
  simp [to_map, to_map_from_lookup]

theorem to_map_from_nodup {acc : List (String × MonoType)} (h : (keys acc).Nodup) (r : RowType) :
    (keys (to_map_from acc r).1).Nodup := by
  match r with
  | .Empty => exact h
  | .RowVar _ => exact h
  | .Extend g ty rest =>
    unfold to_map_from
    split
    · exact to_map_from_nodup h rest
    · rename_i hg
      rw [any_key] at hg
      refine to_map_from_nodup ?_ rest
      simp only [keys, List.map_append, List.map_cons, List.map_nil]
      exact List.nodup_append.mpr ⟨h, by simp, by
        intro a ha b hb e
        simp only [List.mem_singleton] at hb
        exact hg (hb ▸ e ▸ ha)⟩

theorem to_map_nodup (r : RowType) : (keys r.to_map.1).Nodup :=
  to_map_from_nodup (by simp [keys]) r

theorem get_foldr (fields : List (String × MonoType)) (o : Option TypeVar) (f : String) :
    (fields.foldr (fun p acc => RowType.Extend p.1 p.2 acc) (ended o)).get f = fields.lookup f := by
  induction fields with
  | nil => simp
  | cons p fields ih =>
    obtain ⟨g, t⟩ := p
    rw [List.foldr_cons, get, lookup_cons_ite, ih]

theorem get_from_map (hn : (keys fields).Nodup)
    (o : Option TypeVar) (f : String) : (from_map fields o).get f = fields.lookup f := by
  unfold from_map
  rw [get_foldr]
  exact lookup_perm hn (List.perm_insertionSort _ fields) f

@[simp] theorem tail_from_map (fields : List (String × MonoType)) (o : Option TypeVar) :
    (from_map fields o).tail = o := by
  unfold from_map
  induction fields.insertionSort (fun a b => a.1 ≤ b.1) with
  | nil => simp
  | cons p l ih => exact ih

theorem mem_free_vars_from_map {o : Option TypeVar}
    {v : TypeVar} : v ∈ (from_map fields o).free_vars ↔
      (∃ p ∈ fields, v ∈ p.2.free_vars) ∨ o = some v := by
  unfold from_map
  have hm : (∃ p ∈ fields, v ∈ p.2.free_vars) ↔
      ∃ p ∈ fields.insertionSort (fun a b => a.1 ≤ b.1), v ∈ p.2.free_vars := by
    simp only [(List.perm_insertionSort _ fields).mem_iff]
  rw [hm]
  induction fields.insertionSort (fun a b => a.1 ≤ b.1) with
  | nil => cases o <;> simp [ended, free_vars, eq_comm]
  | cons p l ih =>
    simp only [List.foldr_cons, free_vars, List.mem_append, ih, List.mem_cons, exists_eq_or_imp,
      or_assoc]

end RowType

mutual

/-- The labels of every effect row are in key order, as in a `BTreeMap`. -/
def MonoType.Ordered : MonoType → Prop
  | .Var _ => True
  | .Con _ => True
  | .Arrow a b => a.Ordered ∧ b.Ordered
  | .Record row => row.Ordered
  | .EffectRow row => row.InOrder ∧ row.Ordered
  | .Typed v e => v.Ordered ∧ e.InOrder ∧ e.Ordered

def RowType.Ordered : RowType → Prop
  | .Empty => True
  | .RowVar _ => True
  | .Extend _ ty rest => ty.Ordered ∧ rest.Ordered

end

/-! ## Renaming -/

mutual

/-- Each variable of the type, wherever it stands, is given its new name. -/
def MonoType.rename (ρ : TypeVar → TypeVar) : MonoType → MonoType
  | .Var v => .Var (ρ v)
  | .Con name => .Con name
  | .Arrow a b => .Arrow (a.rename ρ) (b.rename ρ)
  | .Record row => .Record (row.rename ρ)
  | .EffectRow row => .EffectRow (row.rename ρ)
  | .Typed value_row effect_row => .Typed (value_row.rename ρ) (effect_row.rename ρ)

def RowType.rename (ρ : TypeVar → TypeVar) : RowType → RowType
  | .Empty => .Empty
  | .RowVar v => .RowVar (ρ v)
  | .Extend f ty rest => .Extend f (ty.rename ρ) (rest.rename ρ)

end

namespace RowType

variable {ρ : TypeVar → TypeVar}

theorem get_rename (f : String) (r : RowType) : (r.rename ρ).get f = (r.get f).map (·.rename ρ) := by
  match r with
  | .Empty => rfl
  | .RowVar _ => rfl
  | .Extend g ty rest =>
    simp only [rename, get, get_rename f rest]
    split <;> rfl

/-- A renaming leaves the labels where they are. -/
theorem InOrder.rename {r : RowType} (h : r.InOrder) : (r.rename ρ).InOrder := by
  match r with
  | .Empty => trivial
  | .RowVar _ => trivial
  | .Extend g ty rest =>
    refine ⟨?_, InOrder.rename h.2⟩
    intro k t hk
    rw [get_rename, Option.map_eq_some_iff] at hk
    obtain ⟨u, hu, -⟩ := hk
    exact h.1 k u hu

end RowType

end paideia_as_shell_hm
