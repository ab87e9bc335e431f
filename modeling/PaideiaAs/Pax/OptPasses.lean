-- The `.paideia.opt-passes` section: one record for each pass that rewrote a
-- function, with the name of the pass in front, and the reader of the records.
import PaideiaAs.Ir.Node
import PaideiaAs.Lib.Buffer

namespace paideia_as_emitter_pax

open Buffer paideia_as_ir
open Outcome (ok_bind)
open List (length_append)
open UInt32 (ofNat)

/-- One optimisation record. -/
structure OptPassRecord where
  pass_name : String
  function_id : IrNodeId
  rewrite_count : UInt32
  deriving DecidableEq

namespace OptPassRecord

def to_bytes (r : OptPassRecord) : List UInt8 :=
  let pass_name_bytes := as_bytes r.pass_name
  u32 (ofNat pass_name_bytes.length) ++
    (pass_name_bytes ++ (u64 r.function_id.get.toUInt64 ++ u32 r.rewrite_count))

/-- The record at the start of `bytes` and the number of bytes it takes.
The name is shorter than `2^32`, so `total_len` stays in a `usize`. -/
def from_bytes (bytes : List UInt8) : Outcome (Option (OptPassRecord × Nat)) :=
  if bytes.length < 16 then .ok none
  else do
    let pass_name_len := (← readU32 bytes 0).toNat
    let total_len := 4 + pass_name_len + 8 + 4
    if bytes.length < total_len then .ok none
    else
      let pass_name_bytes ← slice bytes 4 (4 + pass_name_len)
      match from_utf8 pass_name_bytes with
      | none => .ok none
      | some pass_name =>
        let offset_func_id := 4 + pass_name_len
        let function_id_u64 ← readU64 bytes offset_func_id
        -- `function_id_u64 as u32` drops the high half
        match IrNodeId.new function_id_u64.toUInt32 with
        | none => .ok none
        | some function_id =>
          let offset_rewrite := offset_func_id + 8
          let rewrite_count ← readU32 bytes offset_rewrite
          .ok (some ({ pass_name, function_id, rewrite_count }, total_len))

end OptPassRecord

/-- The records of the section. -/
structure OptPassesSection where
  records : List OptPassRecord
  deriving DecidableEq

namespace OptPassesSection

def to_bytes (s : OptPassesSection) : List UInt8 := s.records.flatMap OptPassRecord.to_bytes

/-- The decoding loop, with `fuel` for its turns. -/
def from_bytes (fuel : Nat) (bytes : List UInt8) : Outcome (Option OptPassesSection) := do
  match ← readStream OptPassRecord.from_bytes bytes fuel 0 with
  | none => .ok none
  | some records => .ok (some { records })

end OptPassesSection

/-! ## Records as they stand in a file

The field of the function is 64 bits wide, its value in memory 32. -/

/-- A record that the reader accepts, with the function field at its full
width. -/
structure StoredRecord where
  pass_name : String
  fits : (as_bytes pass_name).length < 2 ^ 32
  function_id : UInt64
  low_nonzero : function_id.toUInt32 ≠ 0
  rewrite_count : UInt32

namespace StoredRecord

def bytes (r : StoredRecord) : List UInt8 :=
  u32 (ofNat (as_bytes r.pass_name).length) ++
    (as_bytes r.pass_name ++ (u64 r.function_id ++ u32 r.rewrite_count))

/-- What is left of the record in memory. -/
def narrow (r : StoredRecord) : OptPassRecord :=
  ⟨r.pass_name, ⟨r.function_id.toUInt32, r.low_nonzero⟩, r.rewrite_count⟩

theorem length_bytes (r : StoredRecord) : r.bytes.length = 16 + (as_bytes r.pass_name).length := by
  simp only [bytes, length_append, length_u32, length_u64]
  omega

theorem bytes_ne_nil (r : StoredRecord) : r.bytes ≠ [] := by
  intro h
  have hlen := r.length_bytes
  rw [h, List.length_nil] at hlen
  omega

end StoredRecord

/-! ## One record -/

namespace OptPassRecord

variable (r : OptPassRecord)

theorem length_to_bytes : r.to_bytes.length = 16 + (as_bytes r.pass_name).length := by
  simp only [to_bytes, length_append, length_u32, length_u64]
  omega

theorem to_bytes_ne_nil : r.to_bytes ≠ [] := by
  intro h
  have hlen := r.length_to_bytes
  rw [h, List.length_nil] at hlen
  omega

/-- What the reader makes of the fields of a record that is there in full. -/
theorem from_bytes_fields (n : UInt32) (name : List UInt8) (id : UInt64) (count : UInt32)
    (rest : List UInt8) (hname : name.length = n.toNat) :
    from_bytes (u32 n ++ (name ++ (u64 id ++ (u32 count ++ rest)))) =
      match from_utf8 name with
      | none => .ok none
      | some pass_name =>
        match IrNodeId.new id.toUInt32 with
        | none => .ok none
        | some function_id =>
          .ok (some (⟨pass_name, function_id, count⟩, 16 + name.length)) := by
  have hlen : (u32 n ++ (name ++ (u64 id ++ (u32 count ++ rest)))).length =
      16 + name.length + rest.length := by
    simp only [length_append, length_u64, length_u32]
    omega
  have hslice : slice (u32 n ++ (name ++ (u64 id ++ (u32 count ++ rest)))) 4 (4 + n.toNat) =
      .ok name := by
    rw [slice_append_right _ (by simp) (by omega), length_u32, Nat.sub_self,
      Nat.add_sub_cancel_left, slice_front _ _ hname.symm]
  have hid : readU64 (u32 n ++ (name ++ (u64 id ++ (u32 count ++ rest)))) (4 + n.toNat) =
      .ok id := by
    rw [readU64_skip _ (by simp), length_u32, Nat.add_sub_cancel_left,
      readU64_skip _ hname.le, hname, Nat.sub_self, readU64_u64]
  have hcount : readU32 (u32 n ++ (name ++ (u64 id ++ (u32 count ++ rest)))) (4 + n.toNat + 8) =
      .ok count := by
    rw [readU32_skip _ (by rw [length_u32]; omega), length_u32, readU32_skip _ (by omega),
      readU32_skip _ (by rw [length_u64]; omega), length_u64, hname,
      show 4 + n.toNat + 8 - 4 - n.toNat - 8 = 0 by omega, readU32_u32]
  unfold from_bytes
  rw [if_neg (by omega)]
  simp only [readU32_u32, ok_bind]
  rw [if_neg (by omega), hslice, ok_bind]
  rcases from_utf8 name with _ | s
  · rfl
  · simp only [hid, ok_bind]
    rcases IrNodeId.new id.toUInt32 with _ | f
    · rfl
    · simp only [hcount, ok_bind, hname]
      rw [show 4 + n.toNat + 8 + 4 = 16 + n.toNat by omega]

/-- A record of the file is read, with the low half of its function field. -/
theorem from_bytes_stored (r : StoredRecord) (rest : List UInt8) :
    from_bytes (r.bytes ++ rest) = .ok (some (r.narrow, r.bytes.length)) := by
  have hn : (ofNat (as_bytes r.pass_name).length).toNat = (as_bytes r.pass_name).length :=
    UInt32.toNat_ofNat_of_lt' r.fits
  have hread := from_bytes_fields _ _ r.function_id r.rewrite_count rest hn.symm
  rw [from_utf8_as_bytes] at hread
  simp only [IrNodeId.new, dif_pos r.low_nonzero] at hread
  rw [StoredRecord.length_bytes]
  simpa only [StoredRecord.bytes, StoredRecord.narrow, List.append_assoc] using hread

/-- What is read is a record of the file. -/
theorem from_bytes_eq_some {bs : List UInt8} {r : OptPassRecord} {used : Nat}
    (h : from_bytes bs = .ok (some (r, used))) :
    ∃ (s : StoredRecord) (rest : List UInt8), s.narrow = r ∧ bs = s.bytes ++ rest ∧
      used = s.bytes.length := by
  have hlen : 16 ≤ bs.length := by
    by_contra hshort
    rw [from_bytes, if_pos (by omega)] at h
    cases h
  obtain ⟨n, bs, rfl⟩ := exists_u32 (show 4 ≤ bs.length by omega)
  have hbs : n.toNat + 12 ≤ bs.length := by
    by_contra hshort
    rw [from_bytes, if_neg (by omega)] at h
    simp only [readU32_u32, ok_bind] at h
    rw [if_pos (by simp only [length_append, length_u32]; omega)] at h
    cases h
  obtain ⟨name, bs, rfl, hname⟩ := exists_front (show n.toNat ≤ bs.length by omega)
  rw [length_append] at hbs
  obtain ⟨id, bs, rfl⟩ := exists_u64 (show 8 ≤ bs.length by omega)
  rw [length_append, length_u64] at hbs
  obtain ⟨count, rest, rfl⟩ := exists_u32 (show 4 ≤ bs.length by omega)
  rw [from_bytes_fields n name id count rest hname] at h
  split at h
  · cases h
  · next pass_name hutf =>
    split at h
    · cases h
    · next function_id hnew =>
      have hbytes := as_bytes_of_from_utf8 hutf
      unfold IrNodeId.new at hnew
      split at hnew
      · next hlow =>
        cases h
        cases hnew
        have hfits : (as_bytes pass_name).length < 2 ^ 32 := by
          rw [hbytes, hname]
          exact n.toNat_lt
        have hn : ofNat name.length = n := by
          rw [hname, UInt32.ofNat_toNat]
        refine ⟨⟨pass_name, hfits, id, hlow, count⟩, rest, rfl, ?_, ?_⟩
        · simp only [StoredRecord.bytes, hbytes, hn, List.append_assoc]
        · rw [StoredRecord.length_bytes, hbytes]
      · cases hnew

/-- The reader of one record stays inside its bytes. -/
theorem from_bytes_progresses : Progresses from_bytes := by
  intro bs
  have hsome : ∀ r, from_bytes bs = .ok r → ∀ x used, r = some (x, used) →
      0 < used ∧ used ≤ bs.length := by
    rintro r hr x used rfl
    obtain ⟨s, rest, -, rfl, rfl⟩ := from_bytes_eq_some hr
    rw [length_append, StoredRecord.length_bytes]
    omega
  suffices hok : ∃ r, from_bytes bs = .ok r by
    obtain ⟨r, hr⟩ := hok
    exact ⟨r, hr, hsome r hr⟩
  by_cases hlen : bs.length < 16
  · exact ⟨none, by rw [from_bytes, if_pos hlen]⟩
  obtain ⟨n, bs, rfl⟩ := exists_u32 (show 4 ≤ bs.length by omega)
  by_cases hbs : bs.length < n.toNat + 12
  · refine ⟨none, ?_⟩
    rw [from_bytes, if_neg hlen]
    simp only [readU32_u32, ok_bind]
    rw [if_pos (by simp only [length_append, length_u32]; omega)]
  obtain ⟨name, bs, rfl, hname⟩ := exists_front (show n.toNat ≤ bs.length by omega)
  rw [length_append] at hbs
  obtain ⟨id, bs, rfl⟩ := exists_u64 (show 8 ≤ bs.length by omega)
  rw [length_append, length_u64] at hbs
  obtain ⟨count, rest, rfl⟩ := exists_u32 (show 4 ≤ bs.length by omega)
  rw [from_bytes_fields n name id count rest hname]
  split
  · exact ⟨_, rfl⟩
  · split
    · exact ⟨_, rfl⟩
    · exact ⟨_, rfl⟩

/-- The record of the file that a record in memory is written as. -/
def stored (r : OptPassRecord) (h : (as_bytes r.pass_name).length < 2 ^ 32) : StoredRecord where
  pass_name := r.pass_name
  fits := h
  function_id := r.function_id.get.toUInt64
  low_nonzero := by simpa [IrNodeId.get] using r.function_id.nonzero
  rewrite_count := r.rewrite_count

theorem narrow_stored (h : (as_bytes r.pass_name).length < 2 ^ 32) : (r.stored h).narrow = r := by
  simp [StoredRecord.narrow, stored, IrNodeId.get]

theorem from_bytes_to_bytes (rest : List UInt8) (h : (as_bytes r.pass_name).length < 2 ^ 32) :
    from_bytes (r.to_bytes ++ rest) = .ok (some (r, r.to_bytes.length)) := by
  have hread := from_bytes_stored (r.stored h) rest
  rwa [narrow_stored] at hread

theorem fits_of_from_bytes {bs : List UInt8} {r : OptPassRecord} {used : Nat}
    (h : from_bytes bs = .ok (some (r, used))) : (as_bytes r.pass_name).length < 2 ^ 32 := by
  obtain ⟨s, _, rfl, -⟩ := from_bytes_eq_some h
  exact s.fits

end OptPassRecord

/-! ## The section -/

namespace OptPassesSection

variable {fuel : Nat}

theorem from_bytes_eq_some_iff {bs : List UInt8} {s : OptPassesSection} :
    from_bytes fuel bs = .ok (some s) ↔
      readStream OptPassRecord.from_bytes bs fuel 0 = .ok (some s.records) := by
  unfold from_bytes
  rw [Outcome.bind_eq_ok]
  constructor
  · rintro ⟨r, hr, h⟩
    rcases r with _ | records
    · cases h
    · cases h
      exact hr
  · exact fun h => ⟨_, h, rfl⟩

/-- The section comes back exactly when every name fits its length field. -/
theorem from_bytes_to_bytes_iff (s : OptPassesSection) (hfuel : s.to_bytes.length < fuel) :
    from_bytes fuel s.to_bytes = .ok (some s) ↔
      ∀ r ∈ s.records, (as_bytes r.pass_name).length < 2 ^ 32 := by
  rw [from_bytes_eq_some_iff]
  exact readStream_flatMap_iff OptPassRecord.to_bytes_ne_nil OptPassRecord.from_bytes_to_bytes
    (fun _ _ _ h => OptPassRecord.fits_of_from_bytes h) s.records fuel hfuel

/-- Records of the file are accepted. -/
theorem from_bytes_stored (rs : List StoredRecord)
    (hfuel : (rs.flatMap StoredRecord.bytes).length < fuel) :
    from_bytes fuel (rs.flatMap StoredRecord.bytes) = .ok (some ⟨rs.map StoredRecord.narrow⟩) :=
  from_bytes_eq_some_iff.mpr (readStream_flatMap StoredRecord.bytes_ne_nil rs
    (fun r _ rest => OptPassRecord.from_bytes_stored r rest) fuel hfuel)

theorem stored_of_from_bytes {bs : List UInt8} {s : OptPassesSection}
    (h : from_bytes fuel bs = .ok (some s)) :
    ∃ rs : List StoredRecord, s = ⟨rs.map StoredRecord.narrow⟩ ∧
      bs = rs.flatMap StoredRecord.bytes := by
  obtain ⟨rs, hrs, hbs⟩ := readStream_eq_some (fun _ _ _ h => OptPassRecord.from_bytes_eq_some h)
    fuel bs s.records (from_bytes_eq_some_iff.mp h)
  refine ⟨rs, ?_, hbs.symm⟩
  rw [hrs]

theorem from_bytes_ends (bs : List UInt8) :
    ∃ r, ∀ fuel, bs.length < fuel → from_bytes fuel bs = .ok r := by
  obtain ⟨r, hr⟩ := readStream_isOk OptPassRecord.from_bytes_progresses (bs.length + 1) bs
    (Nat.lt_succ_self _)
  have hall : ∀ fuel, bs.length < fuel → readStream OptPassRecord.from_bytes bs fuel 0 = .ok r :=
    fun fuel hfuel => readStream_fuel hr fuel hfuel
  rcases r with _ | records
  · exact ⟨none, fun fuel hfuel => by rw [from_bytes, hall fuel hfuel]; rfl⟩
  · exact ⟨some ⟨records⟩, fun fuel hfuel => by rw [from_bytes, hall fuel hfuel]; rfl⟩

/-- A record keeps its bytes exactly when its function field has no high half. -/
theorem to_bytes_narrow_iff (r : StoredRecord) :
    r.narrow.to_bytes = r.bytes ↔ r.function_id.toNat < 2 ^ 32 := by
  have hword : u64 r.function_id.toUInt32.toUInt64 = u64 r.function_id ↔
      r.function_id.toNat < 2 ^ 32 := by
    constructor
    · intro h
      rw [← u64_inj h]
      simp only [UInt32.toNat_toUInt64]
      exact r.function_id.toUInt32.toNat_lt
    · intro h
      congr 1
      rw [← UInt64.toNat_inj]
      simp only [UInt32.toNat_toUInt64, UInt64.toNat_toUInt32]
      exact Nat.mod_eq_of_lt h
  rw [← hword]
  simp only [OptPassRecord.to_bytes, StoredRecord.narrow, StoredRecord.bytes, IrNodeId.get]
  constructor
  · intro h
    exact List.append_cancel_right (List.append_cancel_left (List.append_cancel_left h))
  · intro h
    rw [h]

/-- Accepted bytes are written back exactly when no function field has a high
half. -/
theorem to_bytes_narrow_all_iff (rs : List StoredRecord) :
    to_bytes ⟨rs.map StoredRecord.narrow⟩ = rs.flatMap StoredRecord.bytes ↔
      ∀ r ∈ rs, r.function_id.toNat < 2 ^ 32 := by
  unfold to_bytes
  induction rs with
  | nil => simp
  | cons r rs ih =>
    have hlen : r.narrow.to_bytes.length = r.bytes.length := by
      rw [OptPassRecord.length_to_bytes, StoredRecord.length_bytes]
      rfl
    simp only [List.map_cons, List.flatMap_cons, List.forall_mem_cons] at ih ⊢
    rw [← to_bytes_narrow_iff, ← ih]
    constructor
    · intro h
      exact List.append_inj h hlen
    · rintro ⟨h1, h2⟩
      rw [h1, h2]

end OptPassesSection

end paideia_as_emitter_pax
