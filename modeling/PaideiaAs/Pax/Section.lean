-- Section descriptors of 64 bytes and the table of them: their bytes, and the
-- readers of the bytes.
import PaideiaAs.Lib.Buffer

namespace paideia_as_emitter_pax

open Buffer
open List (length_append)

def SECTION_DESCRIPTOR_SIZE : Nat := 64

def SECTION_NAME_MAX : Nat := 24

/-- Flags of a section, each with its bit. -/
inductive SectionFlag where
  | None
  | Executable
  | Writable
  | BssNoContent
  deriving DecidableEq

def SectionFlag.bits : SectionFlag → UInt32
  | None => 0x0
  | Executable => 0x1
  | Writable => 0x2
  | BssNoContent => 0x4

/-- What a section holds. -/
inductive SectionType where
  | Code
  | RoData
  | Data
  | Bss
  | Caps
  | Effects
  | Unsafe
  | OptPasses
  | Linearity
  | Functors
  | Symtab
  | Relocs
  | Imports
  | Exports
  deriving DecidableEq

namespace SectionType

/-- The discriminant, `self as u32`. -/
def code : SectionType → UInt32
  | Code => 0x01
  | RoData => 0x02
  | Data => 0x03
  | Bss => 0x04
  | Caps => 0x10
  | Effects => 0x11
  | Unsafe => 0x12
  | OptPasses => 0x13
  | Linearity => 0x14
  | Functors => 0x15
  | Symtab => 0x20
  | Relocs => 0x21
  | Imports => 0x22
  | Exports => 0x23

/-- The type that the reader gives to a discriminant. -/
def ofCode (c : UInt32) : Option SectionType :=
  if c = 0x01 then some Code
  else if c = 0x02 then some RoData
  else if c = 0x03 then some Data
  else if c = 0x04 then some Bss
  else if c = 0x10 then some Caps
  else if c = 0x11 then some Effects
  else if c = 0x12 then some Unsafe
  else if c = 0x13 then some OptPasses
  else if c = 0x14 then some Linearity
  else if c = 0x15 then some Functors
  else if c = 0x20 then some Symtab
  else if c = 0x21 then some Relocs
  else if c = 0x22 then some Imports
  else if c = 0x23 then some Exports
  else none

@[simp] theorem ofCode_code (t : SectionType) : ofCode t.code = some t := by
  cases t <;> rfl

end SectionType

/-- The descriptor of a section. -/
structure Section where
  ty : SectionType
  flags : UInt32
  content_offset : UInt64
  content_size : UInt64
  virtual_address : UInt64
  alignment : UInt64
  name : String
  deriving DecidableEq

namespace Section

/-- The bytes of the name that are written: 23 of them at most. -/
def storedName (name : String) : List UInt8 := (as_bytes name).take (SECTION_NAME_MAX - 1)

/-- The name in its 24 bytes, with zeros behind it. -/
def nameField (name : String) : List UInt8 :=
  storedName name ++ List.replicate (SECTION_NAME_MAX - (storedName name).length) 0

/-- The places of the fields follow one another without a gap. -/
def to_bytes (s : Section) : List UInt8 :=
  u32 s.ty.code ++ (u32 s.flags ++ (u64 s.content_offset ++ (u64 s.content_size ++
    (u64 s.virtual_address ++ (u64 s.alignment ++ nameField s.name)))))

/-- `CStr::from_bytes_until_nul` and `to_str`: the text in front of the first
zero, or all the bytes when there is none. -/
def parseName (name_bytes : List UInt8) : Option String :=
  if 0 ∈ name_bytes then from_utf8 (name_bytes.takeWhile (· ≠ 0))
  else from_utf8 name_bytes

/-- The name is the only field with a check besides the type. -/
def from_bytes (bytes : List UInt8) : Outcome (Option Section) :=
  if bytes.length < SECTION_DESCRIPTOR_SIZE then .ok none
  else do
    let ty_u32 ← readU32 bytes 0
    match SectionType.ofCode ty_u32 with
    | none => .ok none
    | some ty =>
      let flags ← readU32 bytes 4
      let content_offset ← readU64 bytes 8
      let content_size ← readU64 bytes 16
      let virtual_address ← readU64 bytes 24
      let alignment ← readU64 bytes 32
      let name_bytes ← slice bytes 40 64
      match parseName name_bytes with
      | none => .ok none
      | some name =>
        .ok (some { ty, flags, content_offset, content_size, virtual_address, alignment, name })

end Section

/-- The descriptors, in order. -/
structure SectionTable where
  sections : List Section
  deriving DecidableEq

namespace SectionTable

def new : SectionTable := ⟨[]⟩

def to_bytes (t : SectionTable) : List UInt8 := t.sections.flatMap Section.to_bytes

/-- The first `count` descriptors of `bytes`; `count * 64` is below `2^38`, so
the product stays in a `usize`. -/
def from_bytes (bytes : List UInt8) (count : UInt32) : Outcome (Option SectionTable) :=
  if bytes.length < count.toNat * SECTION_DESCRIPTOR_SIZE then .ok none
  else do
    match ← readTable SECTION_DESCRIPTOR_SIZE Section.from_bytes bytes 0 count.toNat with
    | none => .ok none
    | some sections => .ok (some { sections })

end SectionTable

/-! ## One descriptor -/

namespace Section

@[simp] theorem length_nameField (name : String) : (nameField name).length = 24 := by
  have hle : (storedName name).length ≤ 23 := List.length_take_le _ _
  rw [nameField, length_append, List.length_replicate, SECTION_NAME_MAX]
  omega

@[simp] theorem length_to_bytes (s : Section) : s.to_bytes.length = 64 := by
  simp [to_bytes]

/-- A zero follows a written name, so its text ends at the first zero. -/
theorem parseName_nameField (name : String) :
    parseName (nameField name) = from_utf8 ((storedName name).takeWhile (· ≠ 0)) := by
  have hle : (storedName name).length ≤ 23 := List.length_take_le _ _
  obtain ⟨n, hn⟩ : ∃ n, SECTION_NAME_MAX - (storedName name).length = n + 1 :=
    ⟨23 - (storedName name).length, by rw [SECTION_NAME_MAX]; omega⟩
  have hzero : nameField name = storedName name ++ 0 :: List.replicate n 0 := by
    rw [nameField, hn, List.replicate_succ]
  unfold parseName
  rw [if_pos (by rw [hzero]; simp), hzero, List.takeWhile_append]
  split
  · next hall =>
    have hself := (List.takeWhile_prefix (fun b : UInt8 => decide (b ≠ 0))).eq_of_length hall
    rw [hself]
    simp
  · rfl

theorem from_bytes_fields (code flags : UInt32) (offset size address alignment : UInt64)
    (name : List UInt8) (hname : name.length = 24) :
    from_bytes (u32 code ++ (u32 flags ++ (u64 offset ++ (u64 size ++ (u64 address ++
      (u64 alignment ++ name)))))) =
      match SectionType.ofCode code with
      | none => .ok none
      | some ty =>
        match parseName name with
        | none => .ok none
        | some text => .ok (some ⟨ty, flags, offset, size, address, alignment, text⟩) := by
  have hslice : slice (u32 code ++ (u32 flags ++ (u64 offset ++ (u64 size ++ (u64 address ++
      (u64 alignment ++ name)))))) 40 64 = .ok name := by
    have hback := slice_back (u32 code ++ (u32 flags ++ (u64 offset ++ (u64 size ++ (u64 address ++
      u64 alignment))))) name (n := 40) (m := 64) (by simp) (by simp [hname])
    simpa only [List.append_assoc] using hback
  unfold from_bytes
  rw [if_neg (by simp [SECTION_DESCRIPTOR_SIZE, hname]), readU32_u32, Outcome.ok_bind]
  rcases SectionType.ofCode code with _ | ty
  · rfl
  · simp [readU32_skip, readU64_skip, hslice]

theorem exists_fields {bs : List UInt8} (h : bs.length = 64) :
    ∃ (code flags : UInt32) (offset size address alignment : UInt64) (name : List UInt8),
      name.length = 24 ∧ bs = u32 code ++ (u32 flags ++ (u64 offset ++ (u64 size ++
        (u64 address ++ (u64 alignment ++ name))))) := by
  obtain ⟨code, bs, rfl⟩ := exists_u32 (show 4 ≤ bs.length by omega)
  rw [length_append, length_u32] at h
  obtain ⟨flags, bs, rfl⟩ := exists_u32 (show 4 ≤ bs.length by omega)
  rw [length_append, length_u32] at h
  obtain ⟨offset, bs, rfl⟩ := exists_u64 (show 8 ≤ bs.length by omega)
  rw [length_append, length_u64] at h
  obtain ⟨size, bs, rfl⟩ := exists_u64 (show 8 ≤ bs.length by omega)
  rw [length_append, length_u64] at h
  obtain ⟨address, bs, rfl⟩ := exists_u64 (show 8 ≤ bs.length by omega)
  rw [length_append, length_u64] at h
  obtain ⟨alignment, name, rfl⟩ := exists_u64 (show 8 ≤ bs.length by omega)
  rw [length_append, length_u64] at h
  exact ⟨code, flags, offset, size, address, alignment, name, by omega, rfl⟩

theorem from_bytes_isOk {bs : List UInt8} (h : bs.length = 64) : ∃ r, from_bytes bs = .ok r := by
  obtain ⟨code, flags, offset, size, address, alignment, name, hname, rfl⟩ := exists_fields h
  rw [from_bytes_fields _ _ _ _ _ _ _ hname]
  split
  · exact ⟨_, rfl⟩
  · split
    · exact ⟨_, rfl⟩
    · exact ⟨_, rfl⟩

/-- The descriptor with its name as far as it was written: there is none when
the cut made the name invalid. -/
def truncated (s : Section) : Option Section :=
  (from_utf8 ((storedName s.name).takeWhile (· ≠ 0))).map fun name => { s with name }

/-- A descriptor comes back from its bytes up to its name. -/
theorem from_bytes_to_bytes (s : Section) : from_bytes s.to_bytes = .ok s.truncated := by
  rw [to_bytes, from_bytes_fields _ _ _ _ _ _ _ (length_nameField _), SectionType.ofCode_code,
    parseName_nameField, truncated]
  rcases from_utf8 ((storedName s.name).takeWhile (· ≠ 0)) with _ | name
  · rfl
  · rfl

end Section

/-! ## The table -/

namespace SectionTable

@[simp] theorem length_to_bytes (t : SectionTable) :
    t.to_bytes.length = t.sections.length * 64 := by
  unfold to_bytes
  induction t.sections with
  | nil => rfl
  | cons s ss ih =>
    rw [List.flatMap_cons, length_append, ih, Section.length_to_bytes, List.length_cons]
    omega

/-- The reader never leaves its buffer. -/
theorem from_bytes_isOk (bs : List UInt8) (count : UInt32) : ∃ r, from_bytes bs count = .ok r := by
  unfold from_bytes
  split
  · exact ⟨_, rfl⟩
  · next hlen =>
    obtain ⟨r, hr⟩ := readTable_isOk (fun _ h => Section.from_bytes_isOk h) count.toNat 0
      (by rw [Nat.zero_add]; exact Nat.not_lt.mp hlen)
    rw [show SECTION_DESCRIPTOR_SIZE = 64 from rfl, hr, Outcome.ok_bind]
    rcases r with _ | sections
    · exact ⟨_, rfl⟩
    · exact ⟨_, rfl⟩

theorem length_of_from_bytes {bs : List UInt8} {count : UInt32} {t : SectionTable}
    (h : from_bytes bs count = .ok (some t)) : t.sections.length = count.toNat := by
  unfold from_bytes at h
  split at h
  · cases h
  · obtain ⟨r, hr, h⟩ := Outcome.bind_eq_ok.mp h
    rcases r with _ | sections
    · cases h
    · cases h
      exact length_of_readTable hr

/-- A table comes back from its bytes up to the names. -/
theorem from_bytes_to_bytes (t : SectionTable) (rest : List UInt8) (count : UInt32)
    (hcount : count.toNat = t.sections.length) :
    from_bytes (t.to_bytes ++ rest) count =
      .ok ((t.sections.mapM Section.truncated).map SectionTable.mk) := by
  have hread := readTable_flatMap Section.length_to_bytes Section.from_bytes_to_bytes rest
    t.sections [] 0 (by simp)
  rw [List.nil_append] at hread
  unfold from_bytes
  rw [if_neg (by simp [hcount, SECTION_DESCRIPTOR_SIZE]), hcount]
  rw [show SECTION_DESCRIPTOR_SIZE = 64 from rfl, to_bytes, hread, Outcome.ok_bind]
  rcases t.sections.mapM Section.truncated with _ | sections
  · rfl
  · rfl

end SectionTable

end paideia_as_emitter_pax
