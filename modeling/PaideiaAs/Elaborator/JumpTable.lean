-- `lower/match_dispatch.rs`, `lower/match_auto_dispatch.rs` and the jump tables of
-- `data_encoder.rs`: when a match has a jump table, and what stands in it.
import PaideiaAs.Elaborator.MatchInt
import PaideiaAs.Lib.Sorting

namespace paideia_as_elaborator

open paideia_as_runtime emit_walker
open Int64 (ofNat toInt toInt_add toInt_ofNat_of_lt toInt_sub)

/-! ## `@jump_table` -/

/-- `x @ p` is looked at as `p`. -/
def Pat.unbound : Pat → Pat
  | .Binding _ inner => inner
  | pattern => pattern

def Pat.binder : Pat → Option String
  | .Binding name _ => name
  | _ => none

def try_extract_integer_pattern (pattern : Pat) : Option Int64 :=
  match pattern.unbound with
  | .Literal text => extract_integer_from_span text
  | _ => none

def is_wildcard_pattern (pattern : Pat) : Bool := pattern.unbound.is_default

/-- `(max_val - min_val + 1) as u32`. -/
def range_of (min_val max_val : Int64) : Nat := u32 (max_val - min_val + 1).toUInt64.toNat

def saturating_mul (a b : Nat) : Nat := min (a * b) (2 ^ 32 - 1)

def value_index_pairs (values : List (Option Int64)) : List (Int64 × Nat) :=
  values.zipIdx.filterMap fun p => p.1.map fun value => (value, u32 p.2)

/-- The dispatch row of a match with the attribute, and the values of its arms. -/
def populate_match_dispatch_meta (patterns : List Pat) : MatchDispatchMeta × List (Int64 × Nat) :=
  let arm_values := patterns.filterMap try_extract_integer_pattern
  let has_non_integer_pattern := patterns.any fun pattern =>
    (try_extract_integer_pattern pattern).isNone && !is_wildcard_pattern pattern
  let min_val := arm_values.min?.getD 0
  let max_val := arm_values.max?.getD 0
  let covered_arms := u32 arm_values.length
  let density_ok :=
    if has_non_integer_pattern || arm_values.isEmpty then false
    else saturating_mul covered_arms 2 ≥ range_of min_val max_val
  (⟨true, if arm_values.isEmpty then 0 else min_val,
      if arm_values.isEmpty then 1 else range_of min_val max_val, covered_arms, density_ok⟩,
    value_index_pairs (patterns.map try_extract_integer_pattern))

/-- The row that `populate_match_arm_meta` gives to an integer or a wildcard in a match
over an enum: a wildcard with a guard is no default arm. -/
def literal_or_wildcard_row (pattern : Pat) (guarded : Bool) : MatchArmMeta :=
  { MatchArmMeta.default with
    is_default := is_wildcard_pattern pattern && !guarded
    guard := guarded
    outer_binder := pattern.binder }

/-- A payload, a nested pattern, a guard or alternatives keep a match from a table. -/
def is_invalid_arm (arm_meta : MatchArmMeta) : Bool :=
  arm_meta.payload_binder.isSome || arm_meta.pattern_binding || arm_meta.guard ||
    !arm_meta.alt_int_values.isEmpty || !arm_meta.alt_variant_indices.isEmpty

/-- The variant of an arm that is no default arm. -/
def variant_of (arm_meta : Option MatchArmMeta) : Option Nat :=
  arm_meta.bind fun row => if row.is_default then none else row.variant_index

/-- The dispatch row of a match without the attribute, over at least four arms with
consecutive variants. -/
def process_match_for_auto_dispatch (rows : List (Option MatchArmMeta)) :
    Option (MatchDispatchMeta × List (Int64 × Nat)) :=
  let variant_arms := rows.zipIdx.filterMap fun p =>
    (variant_of p.1).map fun variant_idx => (variant_idx, u32 p.2)
  let has_invalid_arm := rows.any fun row => row.any fun row => !row.is_default && is_invalid_arm row
  let variant_indices := ((variant_arms.map (·.1)).mergeSort).destutter (· ≠ ·)
  let min_idx := variant_indices.head?.getD 0
  let max_idx := variant_indices.getLast?.getD 0
  let range := u32 (max_idx - min_idx + 1)
  let covered_arms := u32 variant_indices.length
  if has_invalid_arm then none
  else if variant_arms.length < 4 then none
  else if covered_arms ≠ range then none
  else
    some (⟨true, ofNat min_idx, range, covered_arms, true⟩,
      (variant_arms.map fun p => (ofNat p.1, p.2)).mergeSort fun a b => a.1 ≤ b.1)

/-! ## The table -/

/-- The word at the offset is the address of the target. -/
structure RelocSpec where
  offset : Nat
  target : String

/-- A table in `.rodata`, filled by its relocations. -/
structure DataEntry where
  bytes : List UInt8
  symbol_name : String
  align : Nat
  relocations : List RelocSpec

/-- `(arm_value - min_arm) as usize`. -/
def slot_index (min_arm arm_value : Int64) : Nat := (arm_value - min_arm).toUInt64.toNat

section

variable (m : MatchNode) (dispatch_meta : MatchDispatchMeta)

/-- All slots lead to the default label. -/
def default_slots : List RelocSpec :=
  (List.range dispatch_meta.range).map fun slot => ⟨slot * 8, default_label m⟩

/-- One arm takes its slot over from what stood there. -/
def override_slot (relocs : List RelocSpec) (arm : Int64 × Nat) : List RelocSpec :=
  let slot := slot_index dispatch_meta.min_arm arm.1
  if slot < dispatch_meta.range then relocs.set slot ⟨slot * 8, arm_label m arm.2⟩ else relocs

def collect_jump_table_entries (arm_values : List (Int64 × Nat)) : DataEntry :=
  ⟨List.replicate (dispatch_meta.range * 8) 0, jump_table_name m, 8,
    arm_values.foldl (override_slot m dispatch_meta) (default_slots m dispatch_meta)⟩

end

/-- The label in a slot of eight bytes. -/
def DataEntry.slot (e : DataEntry) (k : Nat) : Option String :=
  (e.relocations.find? fun r => r.offset == k * 8).map (·.target)

/-! ## What stands in a slot -/

section

variable {m : MatchNode} {dispatch_meta : MatchDispatchMeta}

/-- Every relocation stands at the offset of its slot. -/
def Slotted (relocs : List RelocSpec) : Prop :=
  ∀ (k : Nat) (r : RelocSpec), relocs[k]? = some r → r.offset = k * 8

variable {relocs : List RelocSpec}

theorem Slotted.find (h : Slotted relocs) (k : Nat) :
    relocs.find? (fun r => r.offset == k * 8) = relocs[k]? := by
  cases hk : relocs[k]? with
  | none =>
    rw [List.find?_eq_none]
    intro r hr
    obtain ⟨j, hj⟩ := List.mem_iff_getElem?.mp hr
    have hlen : relocs.length ≤ k := List.getElem?_eq_none_iff.mp hk
    have hjlt : j < relocs.length := (List.getElem?_eq_some_iff.mp hj).1
    have := h j r hj
    simp only [beq_iff_eq]
    omega
  | some r =>
    obtain ⟨hlt, hget⟩ := List.getElem?_eq_some_iff.mp hk
    rw [List.find?_eq_some_iff_getElem]
    refine ⟨by simpa using h k r hk, k, hlt, hget, ?_⟩
    intro j hj
    have := h j relocs[j] (List.getElem?_eq_getElem _)
    simp only [this, Bool.not_eq_eq_eq_not, Bool.not_true, beq_eq_false_iff_ne]
    omega

theorem slotted_default : Slotted (default_slots m dispatch_meta) := by
  intro k r hr
  unfold default_slots at hr
  rw [List.getElem?_map] at hr
  obtain ⟨j, hj, rfl⟩ := Option.map_eq_some_iff.mp hr
  obtain ⟨_, rfl⟩ := List.getElem?_eq_some_iff.mp hj
  simp

theorem Slotted.override (h : Slotted relocs) (arm : Int64 × Nat) :
    Slotted (override_slot m dispatch_meta relocs arm) := by
  unfold override_slot
  simp only
  split
  · intro k r hr
    by_cases hk : slot_index dispatch_meta.min_arm arm.1 = k
    · subst hk
      rw [List.getElem?_set_self'] at hr
      obtain ⟨_, _, rfl⟩ := Option.map_eq_some_iff.mp hr
      rfl
    · rw [List.getElem?_set_ne hk] at hr
      exact h k r hr
  · exact h

theorem override_slot_get {arm : Int64 × Nat} {k : Nat}
    (hlen : relocs.length = dispatch_meta.range) (hk : k < dispatch_meta.range) :
    (override_slot m dispatch_meta relocs arm)[k]?.map (·.target) =
      if slot_index dispatch_meta.min_arm arm.1 = k then some (arm_label m arm.2)
      else relocs[k]?.map (·.target) := by
  unfold override_slot
  simp only
  by_cases hs : slot_index dispatch_meta.min_arm arm.1 = k
  · subst hs
    rw [if_pos hk, if_pos rfl, List.getElem?_set_self (hlen.symm ▸ hk)]
    rfl
  · rw [if_neg hs]
    split
    · rw [List.getElem?_set_ne hs]
    · rfl

theorem override_slot_length (relocs : List RelocSpec) (arm : Int64 × Nat) :
    (override_slot m dispatch_meta relocs arm).length = relocs.length := by
  unfold override_slot
  simp only
  split
  · rw [List.length_set]
  · rfl

/-- The last arm with the slot has it, and the default label where there is none. -/
theorem slot_label {arm_values : List (Int64 × Nat)} {k : Nat} (hk : k < dispatch_meta.range) :
    (collect_jump_table_entries m dispatch_meta arm_values).slot k =
      some ((((arm_values.filter fun p =>
        slot_index dispatch_meta.min_arm p.1 == k).getLast?.map fun p => arm_label m p.2)).getD
          (default_label m)) := by
  -- the table after some of the arms
  have hall : Slotted (arm_values.foldl (override_slot m dispatch_meta)
        (default_slots m dispatch_meta)) ∧
      (arm_values.foldl (override_slot m dispatch_meta) (default_slots m dispatch_meta)).length =
        dispatch_meta.range ∧
      (arm_values.foldl (override_slot m dispatch_meta)
        (default_slots m dispatch_meta))[k]?.map (·.target) =
      some ((((arm_values.filter fun p =>
        slot_index dispatch_meta.min_arm p.1 == k).getLast?.map fun p => arm_label m p.2)).getD
          (default_label m)) := by
    induction arm_values using List.reverseRecOn with
    | nil =>
      refine ⟨slotted_default, by simp [default_slots], ?_⟩
      simp [default_slots, hk]
    | append_singleton arms arm ih =>
      obtain ⟨hslot, hlen, hget⟩ := ih
      rw [List.foldl_append, List.foldl_cons, List.foldl_nil]
      refine ⟨hslot.override arm, by rw [override_slot_length, hlen], ?_⟩
      rw [override_slot_get hlen hk, hget, List.filter_append]
      by_cases hs : slot_index dispatch_meta.min_arm arm.1 = k
      · simp [hs]
      · simp [hs]
  unfold DataEntry.slot collect_jump_table_entries
  rw [hall.1.find, hall.2.2]

end

/-! ## Slots as numbers -/

theorem bmod_word (x : Int) : x.bmod (2 ^ 64) % 2 ^ 64 = x % 2 ^ 64 := by
  have := @Int.bmod_emod x (2 ^ 64)
  simpa using this

theorem toUInt64_emod (x : Int64) : (x.toUInt64.toNat : Int) = x.toInt % 2 ^ 64 := by
  have hnat : (x.toUInt64.toNat : Int) = (x.toBitVec.toNat : Int) := rfl
  have hint : x.toInt = x.toBitVec.toInt := rfl
  rw [hnat, hint, BitVec.toInt_eq_toNat_bmod, bmod_word]
  omega

theorem slot_emod (lo v : Int64) : (slot_index lo v : Int) = (v.toInt - lo.toInt) % 2 ^ 64 := by
  rw [slot_index, toUInt64_emod, toInt_sub, bmod_word]

theorem slot_inj {lo v d : Int64} : slot_index lo v = slot_index lo d ↔ v = d := by
  constructor
  · intro h
    have hword : (v - lo).toUInt64 = (d - lo).toUInt64 := UInt64.toNat_inj.mp h
    have hsub : v - lo = d - lo := by
      have := congrArg UInt64.toInt64 hword
      simpa using this
    have := congrArg (· + lo) hsub
    simpa using this
  · rintro rfl
    rfl

theorem range_of_lt (lo hi : Int64) : range_of lo hi < 2 ^ 32 := Nat.mod_lt _ (by decide)

theorem range_exact {lo hi : Int64} (hle : lo ≤ hi) (h : hi.toInt - lo.toInt + 1 < 2 ^ 32) :
    (range_of lo hi : Int) = hi.toInt - lo.toInt + 1 := by
  have hle' := Int64.le_iff_toInt_le.mp hle
  have hsub : (hi.toInt - lo.toInt).bmod (2 ^ 64) = hi.toInt - lo.toInt :=
    Int.bmod_eq_of_le (by omega) (by omega)
  have hone : toInt 1 = 1 := rfl
  unfold range_of u32
  rw [Int.natCast_emod, toUInt64_emod, toInt_add, toInt_sub, bmod_word, hsub, hone]
  omega

theorem bound_of_range {n : Nat} (hpos : 0 < n) (h : n < 2 ^ 32) :
    (ofNat n - 1).toUInt64.toNat = n - 1 := by
  have hone : toInt 1 = 1 := rfl
  have : ((ofNat n - 1).toUInt64.toNat : Int) = ((n : Int) - 1) % 2 ^ 64 := by
    rw [toUInt64_emod, toInt_sub, bmod_word, toInt_ofNat_of_lt (by omega), hone]
  omega

/-! ## What is recorded -/

/-- The least and the greatest of some values, and the number of slots from the one to
the other. -/
def least (values : List Int64) : Int64 := values.min?.getD 0

def greatest (values : List Int64) : Int64 := values.max?.getD 0

def spread (values : List Int64) : Int := (greatest values).toInt - (least values).toInt + 1

section

variable {values : List Int64} {v : Int64}

instance leftLeaningMax : Std.LawfulOrderLeftLeaningMax Int64 where
  max_eq_left a b h := by
    show (if a ≤ b then b else a) = a
    split
    · exact Int64.le_antisymm h ‹_›
    · rfl
  max_eq_right a b h := by
    show (if a ≤ b then b else a) = b
    rw [if_pos ((Int64.le_total a b).resolve_right h)]

section

variable (hmem : v ∈ values)

include hmem

theorem least_eq (hle : ∀ w ∈ values, v ≤ w) : least values = v := by
  have : values.min? = some v := List.min?_eq_some_iff.mpr ⟨hmem, hle⟩
  rw [least, this]
  rfl

theorem greatest_eq (hle : ∀ w ∈ values, w ≤ v) : greatest values = v := by
  have : values.max? = some v := List.max?_eq_some_iff.mpr ⟨hmem, hle⟩
  rw [greatest, this]
  rfl

theorem least_le : least values ≤ v := by
  cases hmin : values.min? with
  | none =>
    rw [List.min?_eq_none_iff] at hmin
    simp [hmin] at hmem
  | some lo =>
    rw [least, hmin]
    exact (List.min?_eq_some_iff.mp hmin).2 v hmem

theorem le_greatest : v ≤ greatest values := by
  cases hmax : values.max? with
  | none =>
    rw [List.max?_eq_none_iff] at hmax
    simp [hmax] at hmem
  | some hi =>
    rw [greatest, hmax]
    exact (List.max?_eq_some_iff.mp hmax).2 v hmem

end

end

/-- What both passes record: bounds of the values, and the values with their arms,
where arms of one value keep their order. -/
structure Recording (values : List (Option Int64)) (dispatch_meta : MatchDispatchMeta)
    (arm_values : List (Int64 × Nat)) : Prop where
  some_value : values.filterMap id ≠ []
  min_arm : dispatch_meta.min_arm = least (values.filterMap id)
  range : dispatch_meta.range = range_of (least (values.filterMap id)) (greatest (values.filterMap id))
  arms : ∀ d, arm_values.filter (·.1 == d) = (value_index_pairs values).filter (·.1 == d)

/-- A table by attribute, where no pattern stands in the way. -/
theorem populate_recording {patterns : List Pat}
    (h : (populate_match_dispatch_meta patterns).1.density_ok = true) :
    Recording (patterns.map try_extract_integer_pattern) (populate_match_dispatch_meta patterns).1
        (populate_match_dispatch_meta patterns).2 ∧
      ∀ p ∈ patterns, (try_extract_integer_pattern p).isSome = true ∨
        is_wildcard_pattern p = true := by
  have hvalues : (patterns.map try_extract_integer_pattern).filterMap id =
      patterns.filterMap try_extract_integer_pattern := by
    rw [List.filterMap_map]
    rfl
  unfold populate_match_dispatch_meta at h ⊢
  simp only at h ⊢
  split at h
  · cases h
  · rename_i hno
    rw [Bool.or_eq_true, not_or, Bool.not_eq_true, Bool.not_eq_true] at hno
    obtain ⟨hall, hempty⟩ := hno
    refine ⟨⟨?_, ?_, ?_, fun d => rfl⟩, ?_⟩
    · rw [hvalues]
      simpa using hempty
    · simp only [hempty, hvalues, least, if_false, Bool.false_eq_true]
    · simp only [hempty, hvalues, least, greatest, if_false, Bool.false_eq_true]
    · intro p hp
      have := List.any_eq_false.mp hall p hp
      cases htry : try_extract_integer_pattern p with
      | some v => exact .inl rfl
      | none => exact .inr (by simpa [htry] using this)

section

variable {rows : List (Option MatchArmMeta)}

theorem zipIdx_filterMap_fst {α β : Type} (f : α → Option β) (l : List α) (n : Nat) :
    ((l.zipIdx n).filterMap fun p => (f p.1).map fun b => (b, u32 p.2)).map (·.1) = l.filterMap f := by
  induction l generalizing n with
  | nil => rfl
  | cons a l ih =>
    cases ha : f a with
    | none => simpa [ha] using ih (n + 1)
    | some b => simpa [ha] using ih (n + 1)

/-- The values of the arms are the indices of their variants. -/
def variant_values (rows : List (Option MatchArmMeta)) : List (Option Int64) :=
  rows.map fun row => (variant_of row).map fun idx => ofNat idx

theorem variant_values_filterMap :
    (variant_values rows).filterMap id = (rows.filterMap variant_of).map fun idx => ofNat idx := by
  rw [variant_values, List.filterMap_map, List.map_filterMap]
  rfl

theorem ofNat_le {a b : Nat} (ha : a < 2 ^ 32) (hb : b < 2 ^ 32) : ofNat a ≤ ofNat b ↔ a ≤ b := by
  rw [Int64.le_iff_toInt_le, toInt_ofNat_of_lt (by omega), toInt_ofNat_of_lt (by omega)]
  omega

theorem range_of_variants {lo hi : Nat} (hle : lo ≤ hi) (hhi : hi < 2 ^ 32) :
    u32 (hi - lo + 1) = range_of (ofNat lo) (ofNat hi) := by
  have hone : toInt 1 = 1 := rfl
  have hword : ((ofNat hi - ofNat lo + 1).toUInt64.toNat : Int) = hi - lo + 1 := by
    rw [toUInt64_emod, toInt_add, toInt_sub, bmod_word, toInt_ofNat_of_lt (by omega),
      toInt_ofNat_of_lt (by omega), hone,
      Int.bmod_eq_of_le (by omega) (by omega)]
    omega
  have : (ofNat hi - ofNat lo + 1).toUInt64.toNat = hi - lo + 1 := by omega
  rw [range_of, this]

/-- A table by consecutive variants, whose indices are `u32`. -/
theorem auto_recording {dispatch_meta : MatchDispatchMeta} {arm_values : List (Int64 × Nat)}
    (hfit : ∀ row ∈ rows, ∀ idx, variant_of row = some idx → idx < 2 ^ 32)
    (h : process_match_for_auto_dispatch rows = some (dispatch_meta, arm_values)) :
    Recording (variant_values rows) dispatch_meta arm_values := by
  unfold process_match_for_auto_dispatch at h
  simp only at h
  split_ifs at h with _ hfour _
  obtain ⟨rfl, rfl⟩ := Prod.mk.inj (Option.some.inj h)
  rw [zipIdx_filterMap_fst]
  have hne : rows.filterMap variant_of ≠ [] := by
    intro hnil
    have := congrArg List.length (zipIdx_filterMap_fst variant_of rows 0)
    rw [hnil, List.length_map] at this
    simp [this] at hfour
  obtain ⟨hlo, hhi, hall⟩ := Sorting.bounds_of_sorted _ hne
  generalize (((rows.filterMap variant_of).mergeSort).destutter (· ≠ ·)).head?.getD 0 = lo at *
  generalize (((rows.filterMap variant_of).mergeSort).destutter (· ≠ ·)).getLast?.getD 0 = hi at *
  have hsmall : ∀ v ∈ rows.filterMap variant_of, v < 2 ^ 32 := by
    intro v hv
    obtain ⟨row, hrow, heq⟩ := List.mem_filterMap.mp hv
    exact hfit row hrow v heq
  have hleast : least ((variant_values rows).filterMap id) = ofNat lo := by
    rw [variant_values_filterMap]
    refine least_eq (List.mem_map_of_mem hlo) ?_
    intro w hw
    obtain ⟨v, hv, rfl⟩ := List.mem_map.mp hw
    exact (ofNat_le (hsmall lo hlo) (hsmall v hv)).mpr (hall v hv).1
  have hgreatest : greatest ((variant_values rows).filterMap id) = ofNat hi := by
    rw [variant_values_filterMap]
    refine greatest_eq (List.mem_map_of_mem hhi) ?_
    intro w hw
    obtain ⟨v, hv, rfl⟩ := List.mem_map.mp hw
    exact (ofNat_le (hsmall v hv) (hsmall hi hhi)).mpr (hall v hv).2
  refine ⟨?_, hleast.symm, ?_, ?_⟩
  · rw [variant_values_filterMap]
    simpa using hne
  · rw [hleast, hgreatest]
    exact range_of_variants (hall lo hlo).2 (hsmall hi hhi)
  · intro d
    rw [Sorting.filter_mergeSort]
    · congr 1
      unfold value_index_pairs variant_values
      rw [List.map_filterMap, List.zipIdx_map, List.filterMap_map]
      congr 1
      funext p
      simp [Option.map_map, Function.comp_def]
    · intro a b c hab hbc
      simp only [decide_eq_true_eq] at *
      exact Int64.le_trans hab hbc
    · intro a b
      simpa using Int64.le_total a.1 b.1
    · intro a b ha hb
      simp only [beq_iff_eq] at ha hb
      simp [ha, hb]

end

end paideia_as_elaborator
