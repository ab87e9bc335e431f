-- The tables that the linker reads: the symbols of a file, its relocations,
-- and the capabilities that it imports and exports. Every entry has a fixed
-- size, and a table is read only when its length is a multiple of that size.
import PaideiaAs.Lib.Buffer

namespace paideia_as_emitter_pax

open Buffer Bytes
open Outcome (ok_bind)

/-! ## Symbols -/

/-- How names are resolved across files. -/
inductive SymBinding where
  | Local
  | Global
  | Weak
  deriving DecidableEq

namespace SymBinding

def code : SymBinding → UInt32
  | Local => 0
  | Global => 1
  | Weak => 2

def ofCode (c : UInt32) : Option SymBinding :=
  if c = 0 then some Local
  else if c = 1 then some Global
  else if c = 2 then some Weak
  else none

end SymBinding

/-- Whether other files see the symbol. -/
inductive SymVisibility where
  | Default
  | Hidden
  deriving DecidableEq

namespace SymVisibility

def code : SymVisibility → UInt32
  | Default => 0
  | Hidden => 1

def ofCode (c : UInt32) : Option SymVisibility :=
  if c = 0 then some Default
  else if c = 1 then some Hidden
  else none

end SymVisibility

def SYM_ENTRY_SIZE : Nat := 48

/-- A symbol; `section_index` is `0xFFFFFFFF` when it is undefined here. -/
structure SymEntry where
  value : UInt64
  size : UInt64
  section_index : UInt32
  binding : SymBinding
  visibility : SymVisibility
  name_offset : UInt64
  blake3_name_hash : UInt64
  deriving DecidableEq

namespace SymEntry

/-- Four reserved bytes stand between the visibility and the name. -/
def to_bytes (e : SymEntry) : List UInt8 :=
  u64 e.value ++ (u64 e.size ++ (u32 e.section_index ++ (u32 e.binding.code ++
    (u32 e.visibility.code ++ (u32 0 ++ (u64 e.name_offset ++ u64 e.blake3_name_hash))))))

def from_bytes (bytes : List UInt8) : Outcome (Option SymEntry) :=
  if bytes.length < SYM_ENTRY_SIZE then .ok none
  else do
    let value ← readU64 bytes 0
    let size ← readU64 bytes 8
    let section_index ← readU32 bytes 16
    let binding_u32 ← readU32 bytes 20
    match SymBinding.ofCode binding_u32 with
    | none => .ok none
    | some binding =>
      let visibility_u32 ← readU32 bytes 24
      match SymVisibility.ofCode visibility_u32 with
      | none => .ok none
      | some visibility =>
        let name_offset ← readU64 bytes 32
        let blake3_name_hash ← readU64 bytes 40
        .ok (some ⟨value, size, section_index, binding, visibility, name_offset, blake3_name_hash⟩)

/-- The reader never leaves an entry that is there in full. -/
theorem from_bytes_isOk {bs : List UInt8} (h : bs.length = SYM_ENTRY_SIZE) :
    ∃ r, from_bytes bs = .ok r := by
  unfold SYM_ENTRY_SIZE at h
  obtain ⟨value, hvalue⟩ := readU64_isOk (show 0 + 8 ≤ bs.length by omega)
  obtain ⟨size, hsize⟩ := readU64_isOk (show 8 + 8 ≤ bs.length by omega)
  obtain ⟨index, hindex⟩ := readU32_isOk (show 16 + 4 ≤ bs.length by omega)
  obtain ⟨binding, hbinding⟩ := readU32_isOk (show 20 + 4 ≤ bs.length by omega)
  obtain ⟨visibility, hvisibility⟩ := readU32_isOk (show 24 + 4 ≤ bs.length by omega)
  obtain ⟨name, hname⟩ := readU64_isOk (show 32 + 8 ≤ bs.length by omega)
  obtain ⟨hash, hhash⟩ := readU64_isOk (show 40 + 8 ≤ bs.length by omega)
  unfold from_bytes SYM_ENTRY_SIZE
  rw [if_neg (by omega)]
  simp only [hvalue, hsize, hindex, hbinding, hvisibility, hname, hhash, ok_bind]
  split
  · exact ⟨_, rfl⟩
  · split
    · exact ⟨_, rfl⟩
    · exact ⟨_, rfl⟩

end SymEntry

/-- The symbols, in order. -/
structure SymTab where
  entries : List SymEntry
  deriving DecidableEq

namespace SymTab

def to_bytes (t : SymTab) : List UInt8 := t.entries.flatMap SymEntry.to_bytes

def from_bytes (bytes : List UInt8) : Outcome (Option SymTab) := do
  match ← readWholeTable SYM_ENTRY_SIZE SymEntry.from_bytes bytes with
  | none => .ok none
  | some entries => .ok (some { entries })

end SymTab

/-! ## Relocations -/

/-- What the linker writes. -/
inductive RelocKind where
  | Abs64
  | Pc32
  | GotPc32
  | PltPc32
  | CapBind
  deriving DecidableEq

namespace RelocKind

def code : RelocKind → UInt32
  | Abs64 => 1
  | Pc32 => 2
  | GotPc32 => 3
  | PltPc32 => 4
  | CapBind => 0x100

def ofCode (c : UInt32) : Option RelocKind :=
  if c = 1 then some Abs64
  else if c = 2 then some Pc32
  else if c = 3 then some GotPc32
  else if c = 4 then some PltPc32
  else if c = 0x100 then some CapBind
  else none

end RelocKind

def RELOC_ENTRY_SIZE : Nat := 32

/-- A field to fill in, and the symbol it asks for. -/
structure RelocEntry where
  offset : UInt64
  symbol_index : UInt64
  kind : RelocKind
  addend : Int64
  deriving DecidableEq

namespace RelocEntry

/-- Four reserved bytes stand at the end. -/
def to_bytes (r : RelocEntry) : List UInt8 :=
  u64 r.offset ++ (u64 r.symbol_index ++ (u32 r.kind.code ++ (u64 r.addend.toUInt64 ++ u32 0)))

def from_bytes (bytes : List UInt8) : Outcome (Option RelocEntry) :=
  if bytes.length < RELOC_ENTRY_SIZE then .ok none
  else do
    let offset ← readU64 bytes 0
    let symbol_index ← readU64 bytes 8
    let kind_u32 ← readU32 bytes 16
    match RelocKind.ofCode kind_u32 with
    | none => .ok none
    | some kind =>
      let addend_lo ← slice bytes 20 24
      let addend_hi ← slice bytes 24 28
      let addend := (UInt64.ofNat (ofLe (addend_lo ++ addend_hi))).toInt64
      .ok (some { offset, symbol_index, kind, addend })

theorem from_bytes_isOk {bs : List UInt8} (h : bs.length = RELOC_ENTRY_SIZE) :
    ∃ r, from_bytes bs = .ok r := by
  unfold RELOC_ENTRY_SIZE at h
  obtain ⟨offset, hoffset⟩ := readU64_isOk (show 0 + 8 ≤ bs.length by omega)
  obtain ⟨symbol, hsymbol⟩ := readU64_isOk (show 8 + 8 ≤ bs.length by omega)
  obtain ⟨kind, hkind⟩ := readU32_isOk (show 16 + 4 ≤ bs.length by omega)
  have hlo : slice bs 20 24 = _ := slice_eq_ok (by omega) (by omega)
  have hhi : slice bs 24 28 = _ := slice_eq_ok (by omega) (by omega)
  unfold from_bytes RELOC_ENTRY_SIZE
  rw [if_neg (by omega)]
  simp only [hoffset, hsymbol, hkind, hlo, hhi, ok_bind]
  split
  · exact ⟨_, rfl⟩
  · exact ⟨_, rfl⟩

end RelocEntry

/-- The relocations, in order. -/
structure Relocs where
  entries : List RelocEntry
  deriving DecidableEq

namespace Relocs

def to_bytes (t : Relocs) : List UInt8 := t.entries.flatMap RelocEntry.to_bytes

def from_bytes (bytes : List UInt8) : Outcome (Option Relocs) := do
  match ← readWholeTable RELOC_ENTRY_SIZE RelocEntry.from_bytes bytes with
  | none => .ok none
  | some entries => .ok (some { entries })

end Relocs

/-! ## Capabilities -/

/-- What a capability gives access to. -/
inductive CapKind where
  | MmioMemCap
  | IpcChannel
  | FsCap
  | NetCap
  | Other
  deriving DecidableEq

def CapKind.ofCode (c : UInt32) : Option CapKind :=
  if c = 0x01 then some MmioMemCap
  else if c = 0x02 then some IpcChannel
  else if c = 0x03 then some FsCap
  else if c = 0x04 then some NetCap
  else if c = 0xFF then some Other
  else none

/-- How often a value may be used. -/
inductive LinClass where
  | Linear
  | Affine
  | Ordered
  | Unrestricted
  deriving DecidableEq

def LinClass.ofCode (c : UInt32) : Option LinClass :=
  if c = 0x01 then some Linear
  else if c = 0x02 then some Affine
  else if c = 0x03 then some Ordered
  else if c = 0x04 then some Unrestricted
  else none

def CAP_DESC_SIZE : Nat := 32

/-- An imported or exported capability. -/
structure CapDescriptor where
  name_offset : UInt64
  blake3_name_hash : UInt64
  cap_kind : CapKind
  required_lin_class : LinClass
  flags : UInt64
  deriving DecidableEq

namespace CapDescriptor

def from_bytes (bytes : List UInt8) : Outcome (Option CapDescriptor) :=
  if bytes.length < CAP_DESC_SIZE then .ok none
  else do
    let name_offset ← readU64 bytes 0
    let blake3_name_hash ← readU64 bytes 8
    let cap_kind_u32 ← readU32 bytes 16
    match CapKind.ofCode cap_kind_u32 with
    | none => .ok none
    | some cap_kind =>
      let lin_class_u32 ← readU32 bytes 20
      match LinClass.ofCode lin_class_u32 with
      | none => .ok none
      | some required_lin_class =>
        let flags ← readU64 bytes 24
        .ok (some { name_offset, blake3_name_hash, cap_kind, required_lin_class, flags })

theorem from_bytes_isOk {bs : List UInt8} (h : bs.length = CAP_DESC_SIZE) :
    ∃ r, from_bytes bs = .ok r := by
  unfold CAP_DESC_SIZE at h
  obtain ⟨name, hname⟩ := readU64_isOk (show 0 + 8 ≤ bs.length by omega)
  obtain ⟨hash, hhash⟩ := readU64_isOk (show 8 + 8 ≤ bs.length by omega)
  obtain ⟨kind, hkind⟩ := readU32_isOk (show 16 + 4 ≤ bs.length by omega)
  obtain ⟨lin, hlin⟩ := readU32_isOk (show 20 + 4 ≤ bs.length by omega)
  obtain ⟨flags, hflags⟩ := readU64_isOk (show 24 + 8 ≤ bs.length by omega)
  unfold from_bytes CAP_DESC_SIZE
  rw [if_neg (by omega)]
  simp only [hname, hhash, hkind, hlin, hflags, ok_bind]
  split
  · exact ⟨_, rfl⟩
  · split
    · exact ⟨_, rfl⟩
    · exact ⟨_, rfl⟩

end CapDescriptor

/-- The imported capabilities. -/
structure ImportsSection where
  entries : List CapDescriptor
  deriving DecidableEq

def ImportsSection.from_bytes (bytes : List UInt8) : Outcome (Option ImportsSection) := do
  match ← readWholeTable CAP_DESC_SIZE CapDescriptor.from_bytes bytes with
  | none => .ok none
  | some entries => .ok (some { entries })

/-- The exported capabilities. -/
structure ExportsSection where
  entries : List CapDescriptor
  deriving DecidableEq

def ExportsSection.from_bytes (bytes : List UInt8) : Outcome (Option ExportsSection) := do
  match ← readWholeTable CAP_DESC_SIZE CapDescriptor.from_bytes bytes with
  | none => .ok none
  | some entries => .ok (some { entries })

/-! ## No table is read past its end -/

variable (bs : List UInt8)

theorem SymTab.from_bytes_isOk : ∃ r, SymTab.from_bytes bs = .ok r := by
  obtain ⟨r, hr⟩ := readWholeTable_isOk (fun _ h => SymEntry.from_bytes_isOk h) bs
  rw [SymTab.from_bytes, hr, ok_bind]
  rcases r with _ | entries
  · exact ⟨_, rfl⟩
  · exact ⟨_, rfl⟩

theorem Relocs.from_bytes_isOk : ∃ r, Relocs.from_bytes bs = .ok r := by
  obtain ⟨r, hr⟩ := readWholeTable_isOk (fun _ h => RelocEntry.from_bytes_isOk h) bs
  rw [Relocs.from_bytes, hr, ok_bind]
  rcases r with _ | entries
  · exact ⟨_, rfl⟩
  · exact ⟨_, rfl⟩

theorem ImportsSection.from_bytes_isOk : ∃ r, ImportsSection.from_bytes bs = .ok r := by
  obtain ⟨r, hr⟩ := readWholeTable_isOk (fun _ h => CapDescriptor.from_bytes_isOk h) bs
  rw [ImportsSection.from_bytes, hr, ok_bind]
  rcases r with _ | entries
  · exact ⟨_, rfl⟩
  · exact ⟨_, rfl⟩

theorem ExportsSection.from_bytes_isOk : ∃ r, ExportsSection.from_bytes bs = .ok r := by
  obtain ⟨r, hr⟩ := readWholeTable_isOk (fun _ h => CapDescriptor.from_bytes_isOk h) bs
  rw [ExportsSection.from_bytes, hr, ok_bind]
  rcases r with _ | entries
  · exact ⟨_, rfl⟩
  · exact ⟨_, rfl⟩

end paideia_as_emitter_pax
