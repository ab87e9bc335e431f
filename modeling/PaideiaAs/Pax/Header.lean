-- The 96-byte header of a PAX file: its fields, its bytes, and the reader of
-- the bytes.
import PaideiaAs.Lib.Buffer

namespace paideia_as_emitter_pax

open Buffer
open List (length_append)

/-- `b"PAX\0"`. -/
def PAX_MAGIC : Vector UInt8 4 := #v[0x50, 0x41, 0x58, 0x00]

def PAX_FORMAT_VERSION : UInt16 := 1

def PAX_HEADER_SIZE : Nat := 96

/-- The machine that the code is for. -/
inductive Architecture where
  | X86_64
  deriving DecidableEq

namespace Architecture

/-- The discriminant, `self as u16`. -/
def code : Architecture → UInt16
  | X86_64 => 1

def ofCode (c : UInt16) : Option Architecture := if c = 1 then some X86_64 else none

@[simp] theorem ofCode_code (a : Architecture) : ofCode a.code = some a := by
  cases a
  rfl

end Architecture

/-- Flags of the header, each with its bit. -/
inductive HeaderFlag where
  | None
  | Relocatable
  | Executable
  | HasDebugInfo
  deriving DecidableEq

def HeaderFlag.bits : HeaderFlag → UInt64
  | None => 0
  | Relocatable => 1
  | Executable => 2
  | HasDebugInfo => 4

/-- The header, field by field. -/
structure PaxHeader where
  magic : Vector UInt8 4
  format_version : UInt16
  architecture : Architecture
  flags : UInt64
  section_table_offset : UInt64
  section_count : UInt32
  reserved : UInt32
  blake3_content_hash : Vector UInt8 32
  pq_signature_placeholder : Vector UInt8 32
  deriving DecidableEq

namespace PaxHeader

/-- A header for no sections, unsigned. -/
def new (architecture : Architecture) : PaxHeader where
  magic := PAX_MAGIC
  format_version := PAX_FORMAT_VERSION
  architecture := architecture
  flags := HeaderFlag.None.bits
  section_table_offset := 0
  section_count := 0
  reserved := 0
  blake3_content_hash := Vector.replicate 32 0
  pq_signature_placeholder := Vector.replicate 32 0

/-- The source copies each field to its place in an array of 96 bytes; the
places follow one another without a gap. -/
def to_bytes (h : PaxHeader) : List UInt8 :=
  h.magic.toList ++ (u16 h.format_version ++ (u16 h.architecture.code ++ (u64 h.flags ++
    (u64 h.section_table_offset ++ (u32 h.section_count ++ (u32 h.reserved ++
      (h.blake3_content_hash.toList ++ h.pq_signature_placeholder.toList)))))))

/-- Magic and architecture are checked, the version is not. -/
def from_bytes (bytes : List UInt8) : Outcome (Option PaxHeader) :=
  if bytes.length < PAX_HEADER_SIZE then .ok none
  else do
    let magic ← readArray 4 bytes 0
    if magic ≠ PAX_MAGIC then .ok none
    else
      let format_version ← readU16 bytes 4
      let arch_u16 ← readU16 bytes 6
      match Architecture.ofCode arch_u16 with
      | none => .ok none
      | some architecture =>
        let flags ← readU64 bytes 8
        let section_table_offset ← readU64 bytes 16
        let section_count ← readU32 bytes 24
        let reserved ← readU32 bytes 28
        let blake3_content_hash ← readArray 32 bytes 32
        let pq_signature_placeholder ← readArray 32 bytes 64
        .ok (some ⟨magic, format_version, architecture, flags, section_table_offset,
          section_count, reserved, blake3_content_hash, pq_signature_placeholder⟩)

@[simp] theorem length_to_bytes (h : PaxHeader) : h.to_bytes.length = 96 := by
  simp [to_bytes]

theorem from_bytes_fields (magic : Vector UInt8 4) (version arch : UInt16) (flags offset : UInt64)
    (count reserved : UInt32) (hash sig : Vector UInt8 32) (rest : List UInt8) :
    from_bytes (magic.toList ++ (u16 version ++ (u16 arch ++ (u64 flags ++ (u64 offset ++
      (u32 count ++ (u32 reserved ++ (hash.toList ++ (sig.toList ++ rest))))))))) =
      if magic ≠ PAX_MAGIC then .ok none
      else match Architecture.ofCode arch with
        | none => .ok none
        | some a => .ok (some ⟨magic, version, a, flags, offset, count, reserved, hash, sig⟩) := by
  unfold from_bytes
  rw [if_neg (by simp [PAX_HEADER_SIZE]; omega), readArray_toList, Outcome.ok_bind]
  by_cases hmagic : magic = PAX_MAGIC
  · rw [if_neg (by simpa using hmagic), if_neg (by simpa using hmagic)]
    rcases harch : Architecture.ofCode arch with _ | a
    · simp [readU16_skip, harch]
    · simp [readU16_skip, readU32_skip, readU64_skip, readArray_skip, harch]
  · rw [if_pos hmagic, if_pos hmagic]

/-- A header with the right magic comes back from its bytes. -/
theorem from_bytes_to_bytes (h : PaxHeader) (rest : List UInt8) (hmagic : h.magic = PAX_MAGIC) :
    from_bytes (h.to_bytes ++ rest) = .ok (some h) := by
  have hread := from_bytes_fields h.magic h.format_version h.architecture.code h.flags
    h.section_table_offset h.section_count h.reserved h.blake3_content_hash
    h.pq_signature_placeholder rest
  rw [if_neg (by simpa using hmagic), Architecture.ofCode_code] at hread
  simpa only [to_bytes, List.append_assoc] using hread

theorem exists_fields {bs : List UInt8} (h : 96 ≤ bs.length) :
    ∃ (magic : Vector UInt8 4) (version arch : UInt16) (flags offset : UInt64)
      (count reserved : UInt32) (hash sig : Vector UInt8 32) (rest : List UInt8),
      bs = magic.toList ++ (u16 version ++ (u16 arch ++ (u64 flags ++ (u64 offset ++
        (u32 count ++ (u32 reserved ++ (hash.toList ++ (sig.toList ++ rest)))))))) := by
  obtain ⟨magic, bs, rfl⟩ := exists_array (show 4 ≤ bs.length by omega)
  rw [length_append, Vector.length_toList] at h
  obtain ⟨version, bs, rfl⟩ := exists_u16 (show 2 ≤ bs.length by omega)
  rw [length_append, length_u16] at h
  obtain ⟨arch, bs, rfl⟩ := exists_u16 (show 2 ≤ bs.length by omega)
  rw [length_append, length_u16] at h
  obtain ⟨flags, bs, rfl⟩ := exists_u64 (show 8 ≤ bs.length by omega)
  rw [length_append, length_u64] at h
  obtain ⟨offset, bs, rfl⟩ := exists_u64 (show 8 ≤ bs.length by omega)
  rw [length_append, length_u64] at h
  obtain ⟨count, bs, rfl⟩ := exists_u32 (show 4 ≤ bs.length by omega)
  rw [length_append, length_u32] at h
  obtain ⟨reserved, bs, rfl⟩ := exists_u32 (show 4 ≤ bs.length by omega)
  rw [length_append, length_u32] at h
  obtain ⟨hash, bs, rfl⟩ := exists_array (show 32 ≤ bs.length by omega)
  rw [length_append, Vector.length_toList] at h
  obtain ⟨sig, rest, rfl⟩ := exists_array (show 32 ≤ bs.length by omega)
  exact ⟨magic, version, arch, flags, offset, count, reserved, hash, sig, rest, rfl⟩

/-- The reader never leaves its buffer. -/
theorem from_bytes_isOk (bs : List UInt8) : ∃ r, from_bytes bs = .ok r := by
  by_cases hlen : bs.length < PAX_HEADER_SIZE
  · exact ⟨none, by rw [from_bytes, if_pos hlen]⟩
  obtain ⟨magic, version, arch, flags, offset, count, reserved, hash, sig, rest, rfl⟩ :=
    exists_fields (Nat.not_lt.mp hlen)
  rw [from_bytes_fields]
  split
  · exact ⟨_, rfl⟩
  · split
    · exact ⟨_, rfl⟩
    · exact ⟨_, rfl⟩

end PaxHeader

end paideia_as_emitter_pax
