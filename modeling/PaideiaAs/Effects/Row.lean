-- Effect rows: a sorted set of effects and, for an open row, a row variable
-- that stands for the effects that are not named (`row.rs`); and the text that
-- shows how two of them differ (`RowDiff` of `unify.rs`).
import PaideiaAs.Lib.Sorting

namespace paideia_as_effects

/-! ## Ids -/

/-- The id of an effect name: a `NonZeroU32`. -/
@[ext] structure EffectId where
  num : Nat
  pos : 0 < num

instance : DecidableEq EffectId := fun _ _ => decidable_of_iff _ EffectId.ext_iff.symm

/-- A row variable: a `NonZeroU32`. -/
@[ext] structure RowVarId where
  num : Nat
  pos : 0 < num

instance : DecidableEq RowVarId := fun _ _ => decidable_of_iff _ RowVarId.ext_iff.symm

theorem EffectId.num_injective : Function.Injective EffectId.num := by
  rintro ⟨a, _⟩ ⟨b, _⟩ h
  cases h
  rfl

instance : LinearOrder EffectId := LinearOrder.lift' EffectId.num EffectId.num_injective

/-! ## Rows -/

/-- The effects named by a row and its tail. The row is closed when it has no
tail. -/
@[ext] structure EffectRow where
  fixed : List EffectId
  tail : Option RowVarId
  sorted : fixed.Pairwise (· < ·)
  deriving DecidableEq

namespace EffectRow

def empty : EffectRow := ⟨[], none, .nil⟩

def from_ids (ids : List EffectId) (tail : Option RowVarId) : EffectRow :=
  ⟨Sorting.sorted ids, tail, Sorting.pairwise_sorted ids⟩

/-- The tails play no part in it. -/
def is_subset_of (row other : EffectRow) : Bool := row.fixed.all fun e => other.fixed.contains e

/-- Of two tails, the left one is kept. -/
def union (row other : EffectRow) : EffectRow :=
  from_ids (row.fixed ++ other.fixed) (row.tail <|> other.tail)

@[simp] theorem fixed_empty : empty.fixed = [] := rfl

@[simp] theorem tail_from_ids (ids : List EffectId) (tail : Option RowVarId) :
    (from_ids ids tail).tail = tail := rfl

@[simp] theorem mem_from_ids {ids : List EffectId} {tail : Option RowVarId} {e : EffectId} :
    e ∈ (from_ids ids tail).fixed ↔ e ∈ ids := Sorting.mem_sorted

variable {row other : EffectRow}

@[simp] theorem mem_union {e : EffectId} :
    e ∈ (row.union other).fixed ↔ e ∈ row.fixed ∨ e ∈ other.fixed := by
  unfold union
  rw [mem_from_ids, List.mem_append]

theorem is_subset_of_iff : row.is_subset_of other = true ↔ ∀ e ∈ row.fixed, e ∈ other.fixed := by
  unfold is_subset_of
  simp

/-- Two rows are equal when they name the same effects and have the same tail. -/
theorem ext_mem (hfixed : ∀ e, e ∈ row.fixed ↔ e ∈ other.fixed)
    (htail : row.tail = other.tail) : row = other :=
  EffectRow.ext (row.sorted.eq_of_mem_iff other.sorted hfixed) htail

@[simp] theorem from_ids_self (row : EffectRow) : from_ids row.fixed row.tail = row :=
  ext_mem (fun _ => mem_from_ids) rfl

/-- The ids of `other` that `row` does not name. -/
theorem missing_isEmpty :
    (other.fixed.filter (!row.fixed.contains ·)).isEmpty = other.is_subset_of row := by
  rw [Bool.eq_iff_iff, List.isEmpty_iff, List.filter_eq_nil_iff, is_subset_of_iff]
  simp

end EffectRow

/-- The declared row, the row that was found, and what gives an effect a name. -/
structure RowDiff where
  expected : EffectRow
  got : EffectRow
  name_for : Option (EffectId → Option String)

namespace RowDiff

/-- The name of an effect, or its number where it has none. -/
def name (d : RowDiff) (e : EffectId) : String :=
  (d.name_for.bind fun f => f e).getD (toString e.num)

def sort_by_name (d : RowDiff) (effects : List EffectId) : List EffectId :=
  effects.mergeSort fun a b => decide (d.name a ≤ d.name b)

def format_row (d : RowDiff) (row : EffectRow) : String :=
  let fixed_part := ", ".intercalate ((d.sort_by_name row.fixed).map d.name)
  match row.tail with
  | some tail => "!\x7b" ++ fixed_part ++ " | r" ++ toString tail.num ++ "\x7d"
  | none => "!\x7b" ++ fixed_part ++ "\x7d"

def format_diff (d : RowDiff) : String :=
  let additions := d.got.fixed.filter (!d.expected.fixed.contains ·)
  let removals := d.expected.fixed.filter (!d.got.fixed.contains ·)
  let tails :=
    match d.expected.tail, d.got.tail with
    | some e_tail, some g_tail =>
      if e_tail ≠ g_tail then
        ["~ tail: r" ++ toString e_tail.num ++ " vs r" ++ toString g_tail.num]
      else []
    | some e_tail, none => ["- | r" ++ toString e_tail.num]
    | none, some g_tail => ["+ | r" ++ toString g_tail.num]
    | none, none => []
  let parts := (d.sort_by_name additions).map ("+ " ++ d.name ·)
    ++ (d.sort_by_name removals).map ("- " ++ d.name ·) ++ tails
  if parts.isEmpty then "(no differences)" else ", ".intercalate parts

def render (d : RowDiff) : String :=
  "expected: " ++ d.format_row d.expected ++ "\ngot     : " ++ d.format_row d.got
    ++ "\ndiff    : " ++ d.format_diff

end RowDiff

end paideia_as_effects
