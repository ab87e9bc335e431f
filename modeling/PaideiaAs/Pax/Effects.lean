-- The `.paideia.effects` section: one effect row for each function, written
-- as a stream of entries of their own length, and the reader of that stream.
import PaideiaAs.Lib.Buffer

namespace paideia_as_emitter_pax

open Buffer
open List (append_assoc length_append)
open UInt32 (ofNat)

/-- One effect-row entry. -/
structure EffectRowEntry where
  function_symbol_id : UInt64
  fixed_effects : List UInt32
  /-- `None` when the row is closed. -/
  row_var_id : Option UInt32
  deriving DecidableEq

namespace EffectRowEntry

def to_bytes (e : EffectRowEntry) : List UInt8 :=
  u64 e.function_symbol_id ++ (u32 (ofNat e.fixed_effects.length) ++
      (u32 (e.row_var_id.getD 0) ++ e.fixed_effects.flatMap u32))

/-- The loop over the effect ids `i`, `i + 1`, ..., `n` of them. -/
def effect_ids (bytes : List UInt8) : Nat → Nat → Outcome (List UInt32)
  | _, 0 => .ok []
  | i, n + 1 => do
    let offset := 16 + i * 4
    let effect_id ← readU32 bytes offset
    let fixed_effects ← effect_ids bytes (i + 1) n
    .ok (effect_id :: fixed_effects)

/-- The entry at the start of `bytes` and the number of bytes it takes.
`16 + fixed_count * 4` is below `2^35`, so the sum stays in a `usize`. -/
def from_bytes (bytes : List UInt8) : Outcome (Option (EffectRowEntry × Nat)) :=
  if bytes.length < 16 then .ok none
  else do
    let function_symbol_id ← readU64 bytes 0
    let fixed_count := (← readU32 bytes 8).toNat
    let row_var_id_val ← readU32 bytes 12
    let row_var_id := if row_var_id_val = 0 then none else some row_var_id_val
    let total_size := 16 + fixed_count * 4
    if bytes.length < total_size then .ok none
    else
      let fixed_effects ← effect_ids bytes 0 fixed_count
      .ok (some ({ function_symbol_id, fixed_effects, row_var_id }, total_size))

end EffectRowEntry

/-- The entries of the section, in the order of emission. -/
structure EffectsSection where
  entries : List EffectRowEntry
  deriving DecidableEq

namespace EffectsSection

def to_bytes (s : EffectsSection) : List UInt8 := s.entries.flatMap EffectRowEntry.to_bytes

/-- The decoding loop, with `fuel` for its turns. -/
def from_bytes (fuel : Nat) (bytes : List UInt8) : Outcome (Option EffectsSection) := do
  match ← readStream EffectRowEntry.from_bytes bytes fuel 0 with
  | none => .ok none
  | some entries => .ok (some { entries })

end EffectsSection

/-! ## One entry -/

namespace EffectRowEntry

theorem effect_ids_flatMap (rest : List UInt8) (ids : List UInt32) :
    ∀ (front : List UInt8) (i : Nat), front.length = 16 + i * 4 →
      effect_ids (front ++ (ids.flatMap u32 ++ rest)) i ids.length = .ok ids := by
  induction ids with
  | nil => exact fun _ _ _ => rfl
  | cons id ids ih =>
    intro front i hfront
    have hread : readU32 (front ++ (u32 id ++ (ids.flatMap u32 ++ rest))) (16 + i * 4) = .ok id := by
      rw [readU32_skip _ (by omega), hfront, Nat.sub_self, readU32_u32]
    have hrest := ih (front ++ u32 id) (i + 1) (by simp; omega)
    rw [append_assoc] at hrest
    rw [List.flatMap_cons, append_assoc, List.length_cons, effect_ids]
    simp only [hread, hrest, Outcome.ok_bind]

/-- The value of the optional row variable that a field stands for. -/
def rowVar (v : UInt32) : Option UInt32 := if v = 0 then none else some v

/-- What the reader makes of the three fixed fields. -/
theorem from_bytes_fields (id : UInt64) (n v : UInt32) (tail : List UInt8) :
    from_bytes (u64 id ++ (u32 n ++ (u32 v ++ tail))) =
      if tail.length < n.toNat * 4 then .ok none
      else effect_ids (u64 id ++ (u32 n ++ (u32 v ++ tail))) 0 n.toNat >>= fun ids =>
        .ok (some (⟨id, ids, rowVar v⟩, 16 + n.toNat * 4)) := by
  have hlen : (u64 id ++ (u32 n ++ (u32 v ++ tail))).length = 16 + tail.length := by
    simp only [length_append, length_u64, length_u32]
    omega
  have hcount : readU32 (u64 id ++ (u32 n ++ (u32 v ++ tail))) 8 = .ok n := by
    rw [readU32_skip _ (by simp)]
    simp
  have hvar : readU32 (u64 id ++ (u32 n ++ (u32 v ++ tail))) 12 = .ok v := by
    rw [readU32_skip _ (by simp), readU32_skip _ (by simp)]
    simp
  unfold from_bytes
  rw [if_neg (by omega)]
  simp only [readU64_u64, hcount, hvar, Outcome.ok_bind, hlen, Nat.add_lt_add_iff_left]
  rfl

/-- An entry with as many ids as its count says is read whole. -/
theorem from_bytes_entry (id : UInt64) (ids : List UInt32) (n v : UInt32) (rest : List UInt8)
    (hn : ids.length = n.toNat) :
    from_bytes (u64 id ++ (u32 n ++ (u32 v ++ (ids.flatMap u32 ++ rest)))) =
      .ok (some (⟨id, ids, rowVar v⟩, 16 + n.toNat * 4)) := by
  have hids := effect_ids_flatMap rest ids (u64 id ++ (u32 n ++ u32 v)) 0 (by simp)
  simp only [append_assoc] at hids
  rw [from_bytes_fields, if_neg (by simp [← hn]), ← hn, hids]
  rfl

/-- The entries that the fields can express: a count below `2^32`, and no row
variable that the writer would turn into a closed row. -/
def Storable (e : EffectRowEntry) : Prop :=
  e.row_var_id ≠ some 0 ∧ e.fixed_effects.length < 2 ^ 32

theorem rowVar_getD (r : Option UInt32) : rowVar (r.getD 0) = r ↔ r ≠ some 0 := by
  unfold rowVar
  rcases r with _ | v
  · simp
  · by_cases hv : v = 0 <;> simp [hv]

theorem rowVar_getD_self (v : UInt32) : (rowVar v).getD 0 = v := by
  unfold rowVar
  by_cases hv : v = 0 <;> simp [hv]

variable (e : EffectRowEntry)

theorem length_to_bytes : e.to_bytes.length = 16 + e.fixed_effects.length * 4 := by
  simp only [to_bytes, length_append, length_u64, length_u32, length_flatMap_u32]
  omega

theorem to_bytes_ne_nil : e.to_bytes ≠ [] := by
  intro h
  have hlen := e.length_to_bytes
  rw [h, List.length_nil] at hlen
  omega

theorem from_bytes_to_bytes (rest : List UInt8) (h : e.Storable) :
    from_bytes (e.to_bytes ++ rest) = .ok (some (e, e.to_bytes.length)) := by
  obtain ⟨hvar, hcount⟩ := h
  have hn : (ofNat e.fixed_effects.length).toNat = e.fixed_effects.length :=
    UInt32.toNat_ofNat_of_lt' hcount
  have hread := from_bytes_entry e.function_symbol_id e.fixed_effects
    (ofNat e.fixed_effects.length) (e.row_var_id.getD 0) rest hn.symm
  rw [hn, (rowVar_getD _).mpr hvar] at hread
  rw [length_to_bytes]
  simpa only [to_bytes, append_assoc] using hread

/-- What is read: the fields of some entry, whole, with a row variable that
stands for itself. -/
theorem from_bytes_eq_some {bs : List UInt8} {e : EffectRowEntry} {used : Nat}
    (h : from_bytes bs = .ok (some (e, used))) :
    e.Storable ∧ (∃ rest, bs = e.to_bytes ++ rest) ∧ used = e.to_bytes.length := by
  have hlen : 16 ≤ bs.length := by
    by_contra hshort
    rw [from_bytes, if_pos (by omega)] at h
    cases h
  obtain ⟨id, bs, rfl⟩ := exists_u64 (show 8 ≤ bs.length by omega)
  simp only [length_append, length_u64] at hlen
  obtain ⟨n, bs, rfl⟩ := exists_u32 (show 4 ≤ bs.length by omega)
  simp only [length_append, length_u32] at hlen
  obtain ⟨v, bs, rfl⟩ := exists_u32 (show 4 ≤ bs.length by omega)
  by_cases htail : bs.length < n.toNat * 4
  · rw [from_bytes_fields, if_pos htail] at h
    cases h
  obtain ⟨ids, rest, rfl, hids⟩ := exists_u32s n.toNat (Nat.not_lt.mp htail)
  rw [from_bytes_entry id ids n v rest hids] at h
  cases h
  have hn : ofNat ids.length = n := by rw [hids, UInt32.ofNat_toNat]
  refine ⟨⟨?_, hids ▸ n.toNat_lt⟩, ⟨rest, ?_⟩, ?_⟩
  · unfold rowVar
    by_cases hv : v = 0 <;> simp [hv]
  · simp only [to_bytes, hn, rowVar_getD_self, append_assoc]
  · rw [length_to_bytes, hids]

/-- The reader of one entry stays inside its bytes. -/
theorem from_bytes_progresses : Progresses from_bytes := by
  intro bs
  by_cases hlen : bs.length < 16
  · exact ⟨none, by rw [from_bytes, if_pos hlen], fun _ _ h => by cases h⟩
  obtain ⟨id, bs, rfl⟩ := exists_u64 (show 8 ≤ bs.length by omega)
  simp only [length_append, length_u64] at hlen
  obtain ⟨n, bs, rfl⟩ := exists_u32 (show 4 ≤ bs.length by omega)
  simp only [length_append, length_u32] at hlen
  obtain ⟨v, bs, rfl⟩ := exists_u32 (show 4 ≤ bs.length by omega)
  by_cases htail : bs.length < n.toNat * 4
  · exact ⟨none, by rw [from_bytes_fields, if_pos htail], fun _ _ h => by cases h⟩
  obtain ⟨ids, rest, rfl, hids⟩ := exists_u32s n.toNat (Nat.not_lt.mp htail)
  refine ⟨_, from_bytes_entry id ids n v rest hids, ?_⟩
  rintro x used h
  cases h
  simp only [length_append, length_u64, length_u32, length_flatMap_u32]
  omega

end EffectRowEntry

/-! ## The section -/

namespace EffectsSection

variable {fuel : Nat}

theorem from_bytes_eq_some_iff {bs : List UInt8} {s : EffectsSection} :
    from_bytes fuel bs = .ok (some s) ↔
      readStream EffectRowEntry.from_bytes bs fuel 0 = .ok (some s.entries) := by
  unfold from_bytes
  rw [Outcome.bind_eq_ok]
  constructor
  · rintro ⟨r, hr, h⟩
    rcases r with _ | entries
    · cases h
    · cases h
      exact hr
  · exact fun h => ⟨_, h, rfl⟩

/-- The section comes back exactly when every entry of it is storable. -/
theorem from_bytes_to_bytes_iff (s : EffectsSection) (hfuel : s.to_bytes.length < fuel) :
    from_bytes fuel s.to_bytes = .ok (some s) ↔ ∀ e ∈ s.entries, e.Storable := by
  rw [from_bytes_eq_some_iff]
  exact readStream_flatMap_iff EffectRowEntry.to_bytes_ne_nil EffectRowEntry.from_bytes_to_bytes
    (fun _ _ _ h => (EffectRowEntry.from_bytes_eq_some h).1) s.entries fuel hfuel

theorem to_bytes_of_from_bytes {bs : List UInt8} {s : EffectsSection}
    (h : from_bytes fuel bs = .ok (some s)) : s.to_bytes = bs := by
  obtain ⟨ys, hys, hbs⟩ := readStream_eq_some (f := id) (fun _ x _ h => by
      obtain ⟨_, ⟨rest, hbs⟩, hused⟩ := EffectRowEntry.from_bytes_eq_some h
      exact ⟨x, rest, rfl, hbs, hused⟩) fuel bs s.entries (from_bytes_eq_some_iff.mp h)
  rw [List.map_id] at hys
  rw [to_bytes, ← hys]
  exact hbs

theorem from_bytes_ends (bs : List UInt8) :
    ∃ r, ∀ fuel, bs.length < fuel → from_bytes fuel bs = .ok r := by
  obtain ⟨r, hr⟩ := readStream_isOk EffectRowEntry.from_bytes_progresses (bs.length + 1) bs
    (Nat.lt_succ_self _)
  have hall : ∀ fuel, bs.length < fuel → readStream EffectRowEntry.from_bytes bs fuel 0 = .ok r :=
    fun fuel hfuel => readStream_fuel hr fuel hfuel
  rcases r with _ | entries
  · exact ⟨none, fun fuel hfuel => by rw [from_bytes, hall fuel hfuel]; rfl⟩
  · exact ⟨some ⟨entries⟩, fun fuel hfuel => by rw [from_bytes, hall fuel hfuel]; rfl⟩

end EffectsSection

end paideia_as_emitter_pax
