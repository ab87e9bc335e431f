-- The other tables of records of a fixed size: `caps.rs`, `functors.rs` and
-- `audit.rs`, with the writers of the import and export tables.
import PaideiaAs.Pax.Section
import PaideiaAs.Pax.Symbols

namespace paideia_as_emitter_pax

open Buffer Bytes

/-- The discriminant, `self as u32`. -/
def CapKind.code : CapKind → UInt32
  | MmioMemCap => 0x01
  | IpcChannel => 0x02
  | FsCap => 0x03
  | NetCap => 0x04
  | Other => 0xFF

/-- The discriminant, `self as u32`. -/
def LinClass.code : LinClass → UInt32
  | Linear => 0x01
  | Affine => 0x02
  | Ordered => 0x03
  | Unrestricted => 0x04

def CapDescriptor.to_bytes (d : CapDescriptor) : List UInt8 :=
  u64 d.name_offset ++ (u64 d.blake3_name_hash ++ (u32 d.cap_kind.code ++
    (u32 d.required_lin_class.code ++ u64 d.flags)))

def ImportsSection.to_bytes (s : ImportsSection) : List UInt8 :=
  s.entries.flatMap CapDescriptor.to_bytes

def ExportsSection.to_bytes (s : ExportsSection) : List UInt8 :=
  s.entries.flatMap CapDescriptor.to_bytes

/-! ## Capability sites -/

/-- Where a capability is held. -/
inductive SiteKind where
  | FunctionParam
  | StructField
  | LocalLet
  deriving DecidableEq

namespace SiteKind

def code : SiteKind → UInt32
  | FunctionParam => 0x01
  | StructField => 0x02
  | LocalLet => 0x03

def ofCode (c : UInt32) : Option SiteKind :=
  if c = 0x01 then some FunctionParam
  else if c = 0x02 then some StructField
  else if c = 0x03 then some LocalLet
  else none

end SiteKind

def CAP_ENTRY_SIZE : Nat := 32

/-- A place that holds a capability. -/
structure CapEntry where
  site_kind : SiteKind
  linearity : LinClass
  location_id : UInt64
  lam_tag : UInt32
  cap_kind : CapKind
  name_hash : UInt64
  deriving DecidableEq

namespace CapEntry

def to_bytes (e : CapEntry) : List UInt8 :=
  u32 e.site_kind.code ++ (u32 e.linearity.code ++ (u64 e.location_id ++ (u32 e.lam_tag ++
    (u32 e.cap_kind.code ++ u64 e.name_hash))))

def from_bytes (bytes : List UInt8) : Outcome (Option CapEntry) :=
  if bytes.length < CAP_ENTRY_SIZE then .ok none
  else do
    let site_kind_u32 ← readU32 bytes 0
    match SiteKind.ofCode site_kind_u32 with
    | none => .ok none
    | some site_kind =>
      let class_u32 ← readU32 bytes 4
      match LinClass.ofCode class_u32 with
      | none => .ok none
      | some linearity =>
        let location_id ← readU64 bytes 8
        let lam_tag ← readU32 bytes 16
        let cap_kind_u32 ← readU32 bytes 20
        match CapKind.ofCode cap_kind_u32 with
        | none => .ok none
        | some cap_kind =>
          let name_hash ← readU64 bytes 24
          .ok (some { site_kind, linearity, location_id, lam_tag, cap_kind, name_hash })

end CapEntry

/-- The capability sites, in order. -/
structure CapsSection where
  entries : List CapEntry
  deriving DecidableEq

namespace CapsSection

def to_bytes (s : CapsSection) : List UInt8 := s.entries.flatMap CapEntry.to_bytes

def from_bytes (bytes : List UInt8) : Outcome (Option CapsSection) := do
  match ← readWholeTable CAP_ENTRY_SIZE CapEntry.from_bytes bytes with
  | none => .ok none
  | some entries => .ok (some { entries })

end CapsSection

/-! ## Functors -/

def FUNCTOR_ENTRY_SIZE : Nat := 40

/-- A functor with its closure data. -/
structure FunctorEntry where
  functor_symbol_id : UInt64
  param_signature_hash : UInt64
  result_signature_hash : UInt64
  closure_data_offset : UInt64
  closure_data_size : UInt32
  flags : UInt32
  deriving DecidableEq

namespace FunctorEntry

def to_bytes (e : FunctorEntry) : List UInt8 :=
  u64 e.functor_symbol_id ++ (u64 e.param_signature_hash ++ (u64 e.result_signature_hash ++
    (u64 e.closure_data_offset ++ (u32 e.closure_data_size ++ u32 e.flags))))

def from_bytes (bytes : List UInt8) : Outcome (Option FunctorEntry) :=
  if bytes.length < FUNCTOR_ENTRY_SIZE then .ok none
  else do
    let functor_symbol_id ← readU64 bytes 0
    let param_signature_hash ← readU64 bytes 8
    let result_signature_hash ← readU64 bytes 16
    let closure_data_offset ← readU64 bytes 24
    let closure_data_size ← readU32 bytes 32
    let flags ← readU32 bytes 36
    .ok (some { functor_symbol_id, param_signature_hash, result_signature_hash,
                closure_data_offset, closure_data_size, flags })

end FunctorEntry

/-- The functors, in order. -/
structure FunctorsSection where
  entries : List FunctorEntry
  deriving DecidableEq

namespace FunctorsSection

def to_bytes (s : FunctorsSection) : List UInt8 := s.entries.flatMap FunctorEntry.to_bytes

def from_bytes (bytes : List UInt8) : Outcome (Option FunctorsSection) := do
  match ← readWholeTable FUNCTOR_ENTRY_SIZE FunctorEntry.from_bytes bytes with
  | none => .ok none
  | some entries => .ok (some { entries })

end FunctorsSection

/-! ## Audit: unsafe blocks -/

def UNSAFE_ENTRY_SIZE : Nat := 40

/-- An unsafe block and its justification. -/
structure UnsafeEntry where
  function_symbol_id : UInt64
  block_span_start : UInt64
  block_span_len : UInt64
  blake3_block_hash : UInt64
  justification_hash : UInt64
  deriving DecidableEq

namespace UnsafeEntry

def to_bytes (e : UnsafeEntry) : List UInt8 :=
  u64 e.function_symbol_id ++ (u64 e.block_span_start ++ (u64 e.block_span_len ++
    (u64 e.blake3_block_hash ++ u64 e.justification_hash)))

def from_bytes (bytes : List UInt8) : Outcome (Option UnsafeEntry) :=
  if bytes.length < UNSAFE_ENTRY_SIZE then .ok none
  else do
    let function_symbol_id ← readU64 bytes 0
    let block_span_start ← readU64 bytes 8
    let block_span_len ← readU64 bytes 16
    let blake3_block_hash ← readU64 bytes 24
    let justification_hash ← readU64 bytes 32
    .ok (some { function_symbol_id, block_span_start, block_span_len, blake3_block_hash,
                justification_hash })

end UnsafeEntry

/-- The unsafe blocks, in order. -/
structure UnsafeSection where
  entries : List UnsafeEntry
  deriving DecidableEq

namespace UnsafeSection

def to_bytes (s : UnsafeSection) : List UInt8 := s.entries.flatMap UnsafeEntry.to_bytes

def from_bytes (bytes : List UInt8) : Outcome (Option UnsafeSection) := do
  match ← readWholeTable UNSAFE_ENTRY_SIZE UnsafeEntry.from_bytes bytes with
  | none => .ok none
  | some entries => .ok (some { entries })

end UnsafeSection

/-! ## Audit: passes -/

/-- The optimisation passes. -/
inductive PassId where
  | Peephole
  | Anf
  | Dse
  | ConstFold
  | EffectRewrite
  | Other
  deriving DecidableEq

namespace PassId

def code : PassId → UInt32
  | Peephole => 1
  | Anf => 2
  | Dse => 3
  | ConstFold => 4
  | EffectRewrite => 5
  | Other => 0xFFFFFFFF

def from_u32 (c : UInt32) : Option PassId :=
  if c = 1 then some Peephole
  else if c = 2 then some Anf
  else if c = 3 then some Dse
  else if c = 4 then some ConstFold
  else if c = 5 then some EffectRewrite
  else if c = 0xFFFFFFFF then some Other
  else none

end PassId

def OPT_ENTRY_SIZE : Nat := 32

/-- What one pass did to a function. -/
structure OptEntry where
  function_symbol_id : UInt64
  pass_id : PassId
  iterations : UInt32
  delta_size_bytes : Int64
  blake3_pre_hash : UInt64
  deriving DecidableEq

namespace OptEntry

def to_bytes (e : OptEntry) : List UInt8 :=
  u64 e.function_symbol_id ++ (u32 e.pass_id.code ++ (u32 e.iterations ++
    (u64 e.delta_size_bytes.toUInt64 ++ u64 e.blake3_pre_hash)))

def from_bytes (bytes : List UInt8) : Outcome (Option OptEntry) :=
  if bytes.length < OPT_ENTRY_SIZE then .ok none
  else do
    let function_symbol_id ← readU64 bytes 0
    let pass_id_u32 ← readU32 bytes 8
    match PassId.from_u32 pass_id_u32 with
    | none => .ok none
    | some pass_id =>
      let iterations ← readU32 bytes 12
      let delta_size_bytes := (← readU64 bytes 16).toInt64
      let blake3_pre_hash ← readU64 bytes 24
      .ok (some { function_symbol_id, pass_id, iterations, delta_size_bytes, blake3_pre_hash })

end OptEntry

/-- The entries, in order. -/
structure OptSection where
  entries : List OptEntry
  deriving DecidableEq

namespace OptSection

def to_bytes (s : OptSection) : List UInt8 := s.entries.flatMap OptEntry.to_bytes

def from_bytes (bytes : List UInt8) : Outcome (Option OptSection) := do
  match ← readWholeTable OPT_ENTRY_SIZE OptEntry.from_bytes bytes with
  | none => .ok none
  | some entries => .ok (some { entries })

end OptSection

/-! ## Audit: linearity -/

def LIN_ENTRY_SIZE : Nat := 32

/-- How often a binding is used. -/
structure LinEntry where
  function_symbol_id : UInt64
  binding_id : UInt64
  linearity : UInt32
  uses_count : UInt32
  blake3_use_chain_hash : UInt64
  deriving DecidableEq

namespace LinEntry

def to_bytes (e : LinEntry) : List UInt8 :=
  u64 e.function_symbol_id ++ (u64 e.binding_id ++ (u32 e.linearity ++ (u32 e.uses_count ++
    u64 e.blake3_use_chain_hash)))

def from_bytes (bytes : List UInt8) : Outcome (Option LinEntry) :=
  if bytes.length < LIN_ENTRY_SIZE then .ok none
  else do
    let function_symbol_id ← readU64 bytes 0
    let binding_id ← readU64 bytes 8
    let linearity ← readU32 bytes 16
    let uses_count ← readU32 bytes 20
    let blake3_use_chain_hash ← readU64 bytes 24
    .ok (some { function_symbol_id, binding_id, linearity, uses_count, blake3_use_chain_hash })

end LinEntry

/-- The entries, in order. -/
structure LinSection where
  entries : List LinEntry
  deriving DecidableEq

namespace LinSection

def to_bytes (s : LinSection) : List UInt8 := s.entries.flatMap LinEntry.to_bytes

def from_bytes (bytes : List UInt8) : Outcome (Option LinSection) := do
  match ← readWholeTable LIN_ENTRY_SIZE LinEntry.from_bytes bytes with
  | none => .ok none
  | some entries => .ok (some { entries })

end LinSection

/-! ## Codes -/

@[simp] theorem CapKind.ofCode_code (k : CapKind) : CapKind.ofCode k.code = some k := by
  cases k <;> rfl

@[simp] theorem LinClass.ofCode_code (c : LinClass) : LinClass.ofCode c.code = some c := by
  cases c <;> rfl

@[simp] theorem SiteKind.ofCode_code (k : SiteKind) : SiteKind.ofCode k.code = some k := by
  cases k <;> rfl

@[simp] theorem PassId.from_u32_code (p : PassId) : PassId.from_u32 p.code = some p := by
  cases p <;> rfl

@[simp] theorem SymBinding.ofCode_code (b : SymBinding) : SymBinding.ofCode b.code = some b := by
  cases b <;> rfl

@[simp] theorem SymVisibility.ofCode_code (v : SymVisibility) :
    SymVisibility.ofCode v.code = some v := by
  cases v <;> rfl

@[simp] theorem RelocKind.ofCode_code (k : RelocKind) : RelocKind.ofCode k.code = some k := by
  cases k <;> rfl

/-! ## Records

Each record has its size, and comes back from its bytes. -/

@[simp] theorem readU64_last (x : UInt64) : readU64 (u64 x) 0 = .ok x := by
  have h := readU64_u64 x []
  rwa [List.append_nil] at h

@[simp] theorem readU32_last (x : UInt32) : readU32 (u32 x) 0 = .ok x := by
  have h := readU32_u32 x []
  rwa [List.append_nil] at h

theorem SymEntry.length_to_bytes (e : SymEntry) : e.to_bytes.length = SYM_ENTRY_SIZE := by
  simp [SymEntry.to_bytes, SYM_ENTRY_SIZE]

theorem SymEntry.from_bytes_to_bytes (e : SymEntry) :
    SymEntry.from_bytes e.to_bytes = .ok (some e) := by
  unfold SymEntry.from_bytes
  rw [if_neg e.length_to_bytes.ge.not_gt]
  unfold SymEntry.to_bytes
  simp [readU32_skip, readU64_skip]

theorem RelocEntry.length_to_bytes (r : RelocEntry) : r.to_bytes.length = RELOC_ENTRY_SIZE := by
  simp [RelocEntry.to_bytes, RELOC_ENTRY_SIZE]

/-- The two halves of the addend are put together again. -/
theorem RelocEntry.from_bytes_to_bytes (r : RelocEntry) :
    RelocEntry.from_bytes r.to_bytes = .ok (some r) := by
  have hfront : ∀ a b, 20 ≤ a → b ≤ 28 → a ≤ b → slice r.to_bytes a b =
      slice (u64 r.addend.toUInt64) (a - 20) (b - 20) := by
    intro a b ha hb hab
    have hskip := @slice_append_right
      (u64 r.offset ++ (u64 r.symbol_index ++ u32 r.kind.code))
      (u64 r.addend.toUInt64 ++ u32 0) a b (by simpa using ha) hab
    simp only [List.append_assoc, List.length_append, length_u64, length_u32] at hskip
    unfold RelocEntry.to_bytes
    rw [hskip]
    exact slice_append_left _ (by rw [length_u64]; omega)
  have hlo : slice r.to_bytes 20 24 = .ok ((u64 r.addend.toUInt64).take 4) := by
    rw [hfront 20 24 (by omega) (by omega) (by omega), slice_eq_ok (by omega) (by simp)]
    simp
  have hhi : slice r.to_bytes 24 28 = .ok ((u64 r.addend.toUInt64).drop 4) := by
    rw [hfront 24 28 (by omega) (by omega) (by omega), slice_eq_ok (by omega) (by simp)]
    exact congrArg _ (List.take_of_length_le (by simp))
  have haddend : Int64.ofNat (ofLe (u64 r.addend.toUInt64)) = r.addend := by
    have hbits : UInt64.ofNat (ofLe (u64 r.addend.toUInt64)) = r.addend.toUInt64 := by
      simp [u64, ofLe_le]
    show (UInt64.ofNat (ofLe (u64 r.addend.toUInt64))).toInt64 = r.addend
    rw [hbits]
    rfl
  unfold RelocEntry.from_bytes
  rw [if_neg r.length_to_bytes.ge.not_gt, hlo, hhi]
  unfold RelocEntry.to_bytes
  simp [readU32_skip, readU64_skip, haddend]

theorem CapDescriptor.length_to_bytes (d : CapDescriptor) : d.to_bytes.length = CAP_DESC_SIZE := by
  simp [CapDescriptor.to_bytes, CAP_DESC_SIZE]

theorem CapDescriptor.from_bytes_to_bytes (d : CapDescriptor) :
    CapDescriptor.from_bytes d.to_bytes = .ok (some d) := by
  unfold CapDescriptor.from_bytes
  rw [if_neg d.length_to_bytes.ge.not_gt]
  unfold CapDescriptor.to_bytes
  simp [readU32_skip, readU64_skip]

theorem CapEntry.length_to_bytes (e : CapEntry) : e.to_bytes.length = CAP_ENTRY_SIZE := by
  simp [CapEntry.to_bytes, CAP_ENTRY_SIZE]

theorem CapEntry.from_bytes_to_bytes (e : CapEntry) :
    CapEntry.from_bytes e.to_bytes = .ok (some e) := by
  unfold CapEntry.from_bytes
  rw [if_neg e.length_to_bytes.ge.not_gt]
  unfold CapEntry.to_bytes
  simp [readU32_skip, readU64_skip]

theorem FunctorEntry.length_to_bytes (e : FunctorEntry) :
    e.to_bytes.length = FUNCTOR_ENTRY_SIZE := by
  simp [FunctorEntry.to_bytes, FUNCTOR_ENTRY_SIZE]

theorem FunctorEntry.from_bytes_to_bytes (e : FunctorEntry) :
    FunctorEntry.from_bytes e.to_bytes = .ok (some e) := by
  unfold FunctorEntry.from_bytes
  rw [if_neg e.length_to_bytes.ge.not_gt]
  unfold FunctorEntry.to_bytes
  simp [readU32_skip, readU64_skip]

theorem UnsafeEntry.length_to_bytes (e : UnsafeEntry) : e.to_bytes.length = UNSAFE_ENTRY_SIZE := by
  simp [UnsafeEntry.to_bytes, UNSAFE_ENTRY_SIZE]

theorem UnsafeEntry.from_bytes_to_bytes (e : UnsafeEntry) :
    UnsafeEntry.from_bytes e.to_bytes = .ok (some e) := by
  unfold UnsafeEntry.from_bytes
  rw [if_neg e.length_to_bytes.ge.not_gt]
  unfold UnsafeEntry.to_bytes
  simp [readU64_skip]

theorem OptEntry.length_to_bytes (e : OptEntry) : e.to_bytes.length = OPT_ENTRY_SIZE := by
  simp [OptEntry.to_bytes, OPT_ENTRY_SIZE]

theorem OptEntry.from_bytes_to_bytes (e : OptEntry) :
    OptEntry.from_bytes e.to_bytes = .ok (some e) := by
  unfold OptEntry.from_bytes
  rw [if_neg e.length_to_bytes.ge.not_gt]
  unfold OptEntry.to_bytes
  simp [readU32_skip, readU64_skip]

theorem LinEntry.length_to_bytes (e : LinEntry) : e.to_bytes.length = LIN_ENTRY_SIZE := by
  simp [LinEntry.to_bytes, LIN_ENTRY_SIZE]

theorem LinEntry.from_bytes_to_bytes (e : LinEntry) :
    LinEntry.from_bytes e.to_bytes = .ok (some e) := by
  unfold LinEntry.from_bytes
  rw [if_neg e.length_to_bytes.ge.not_gt]
  unfold LinEntry.to_bytes
  simp [readU32_skip, readU64_skip]

end paideia_as_emitter_pax
