-- The byte-level encoders of `encode/`: each takes registers, displacement and
-- immediate, and appends the bytes of one instruction. The many near-identical
-- bodies are five families (register, base, scaled index, RIP-relative and
-- absolute operand); every member is its family at its own opcode.
import PaideiaAs.Encoder.Types

namespace paideia_as_encoder

open paideia_as_runtime

/-! ## REX, ModRM and SIB (`encode/types.rs`) -/

/-- `b as u8`. -/
def u8 (b : Bool) : UInt8 := if b then 1 else 0

/-- The REX prefix byte. -/
def rex (w r x b : Bool) : UInt8 :=
  (0x40 : UInt8) ||| (u8 w <<< 3) ||| (u8 r <<< 2) ||| (u8 x <<< 1) ||| u8 b

/-- `(mod_bits, disp_len)` of an address on `base_low`. -/
def disp_mode (base_low : UInt8) (disp : Int32) : UInt8 × Nat :=
  if disp.toInt = 0 ∧ base_low ≠ 5 then (0x00, 0)
  else if -128 ≤ disp.toInt ∧ disp.toInt ≤ 127 then (0x40, 1)
  else (0x80, 4)

/-- The operand `[base + disp]`; a base of 4 takes a SIB byte. -/
def emit_mem_base_disp (reg_field base_id : UInt8) (disp : Int32) : List UInt8 :=
  let base_low := base_id &&& 7
  let reg_low := reg_field &&& 7
  let (mod_bits, disp_len) := disp_mode base_low disp
  (if base_low = 4 then
    [mod_bits ||| (reg_low <<< 3) ||| 0b100, ((0b00 : UInt8) <<< 6) ||| ((0b100 : UInt8) <<< 3) ||| base_low]
  else [mod_bits ||| (reg_low <<< 3) ||| base_low]) ++ Bytes.sle disp_len disp.toInt

/-- The operand `[base + index * scale + disp]`. -/
def emit_mem_sib_disp (reg_field base_id index_id scale_bits : UInt8) (disp : Int32) : List UInt8 :=
  let base_low := base_id &&& 7
  let (mod_bits, disp_len) := disp_mode base_low disp
  [mod_bits ||| ((reg_field &&& 7) <<< 3) ||| 0b100,
    ((scale_bits &&& 3) <<< 6) ||| ((index_id &&& 7) <<< 3) ||| base_low] ++
    Bytes.sle disp_len disp.toInt

/-! ## The families -/

/-- When the REX prefix is written: always with `W`, only if one of its other
bits is set, or always without `W`. -/
inductive RexUse where
  | wide
  | need
  | always
  deriving DecidableEq

/-- The prefix, if it is written. -/
def RexUse.bytes (u : RexUse) (r x b : Bool) : List UInt8 :=
  match u with
  | .wide => [rex true r x b]
  | .need => if r || x || b then [rex false r x b] else []
  | .always => [rex false r x b]

/-- `(id >> 3) != 0`. -/
def high (id : UInt8) : Bool := (id >>> 3) != 0

/-- Register operand: ModRM is `0xC0 | (reg << 3) | rm`. An opcode digit stands
in the place of `reg`. -/
def op_reg (pre : List UInt8) (u : RexUse) (op : List UInt8) (reg rm : UInt8)
    (imm : List UInt8) : List UInt8 :=
  pre ++ u.bytes (high reg) false (high rm) ++ op ++
    [(0xC0 : UInt8) ||| ((reg &&& 7) <<< 3) ||| (rm &&& 7)] ++ imm

/-- Memory operand `[base + disp]`. -/
def op_base (pre : List UInt8) (u : RexUse) (op : List UInt8) (reg base : UInt8) (disp : Int32)
    (imm : List UInt8) : List UInt8 :=
  pre ++ u.bytes (high reg) false (high base) ++ op ++ emit_mem_base_disp (reg &&& 7) base disp ++ imm

/-- Memory operand `[base + index*scale + disp]`. -/
def op_sib (pre : List UInt8) (u : RexUse) (op : List UInt8) (reg base index scale_bits : UInt8)
    (disp : Int32) (imm : List UInt8) : List UInt8 :=
  pre ++ u.bytes (high reg) (high index) (high base) ++ op ++
    emit_mem_sib_disp (reg &&& 7) base index scale_bits disp ++ imm

/-- Memory operand `[rip + disp32]`: mod 0, r/m 5. -/
def op_rip (pre : List UInt8) (u : RexUse) (op : List UInt8) (reg : UInt8) (disp : Int32)
    (imm : List UInt8) : List UInt8 :=
  pre ++ u.bytes (high reg) false false ++ op ++ [(0x05 : UInt8) ||| ((reg &&& 7) <<< 3)] ++
    i32_le disp ++ imm

/-- Memory operand `[disp32]`: mod 0, r/m 4 and a SIB byte without base and
index. -/
def op_abs (pre : List UInt8) (u : RexUse) (op : List UInt8) (reg : UInt8) (disp : Int32)
    (imm : List UInt8) : List UInt8 :=
  pre ++ u.bytes (high reg) false false ++ op ++ [(0x04 : UInt8) ||| ((reg &&& 7) <<< 3), 0x25] ++
    i32_le disp ++ imm

/-- Register in the low bits of the opcode. -/
def op_plus (pre : List UInt8) (u : RexUse) (op reg : UInt8) (imm : List UInt8) : List UInt8 :=
  pre ++ u.bytes false false (high reg) ++ [op + (reg &&& 7)] ++ imm

/-! ## `mov_arith.rs` -/

def mov_reg64_imm32 (dst : Reg64) (imm : Int64) := op_reg [] .wide [0xC7] 0 dst.id (low 4 imm)
def mov_reg64_imm64 (dst : Reg64) (imm : Int64) := op_plus [] .wide 0xB8 dst.id (low 8 imm)
def mov_reg32_imm32 (dst : Reg64) (imm : Int64) := op_plus [] .need 0xB8 dst.id (low 4 imm)
def mov_reg16_imm16 (dst : Reg64) (imm : Int64) := op_plus [0x66] .need 0xB8 dst.id (low 2 imm)
def mov_reg8_imm8 (dst : Reg64) (imm : Int64) := op_plus [] .need 0xB0 dst.id (low 1 imm)
def mov_reg64_reg64 (dst src : Reg64) := op_reg [] .wide [0x89] src.id dst.id []

/-- No REX prefix, whatever the source register. -/
def mov_sreg_reg16 (sreg_id : UInt8) (src : Reg64) : List UInt8 :=
  [0x8E, (0xC0 : UInt8) ||| ((sreg_id &&& 7) <<< 3) ||| (src.id &&& 7)]

def add_reg64_reg64 (dst src : Reg64) := op_reg [] .wide [0x01] src.id dst.id []
def sub_reg64_reg64 (dst src : Reg64) := op_reg [] .wide [0x29] src.id dst.id []
def add_reg64_mem_base_disp (dst base : Reg64) (disp : Int32) :=
  op_base [] .wide [0x03] dst.id base.id disp []
def add_reg64_mem_sib_disp (dst base index : Reg64) (scale_bits : UInt8) (disp : Int32) :=
  op_sib [] .wide [0x03] dst.id base.id index.id scale_bits disp []
def sub_reg64_mem_base_disp (dst base : Reg64) (disp : Int32) :=
  op_base [] .wide [0x2B] dst.id base.id disp []
def sub_reg64_mem_sib_disp (dst base index : Reg64) (scale_bits : UInt8) (disp : Int32) :=
  op_sib [] .wide [0x2B] dst.id base.id index.id scale_bits disp []
def adc_reg64_reg64 (dst src : Reg64) := op_reg [] .wide [0x13] dst.id src.id []
def adc_reg64_mem_base_disp (dst base : Reg64) (disp : Int32) :=
  op_base [] .wide [0x13] dst.id base.id disp []
def sbb_reg64_reg64 (dst src : Reg64) := op_reg [] .wide [0x1B] dst.id src.id []
def sbb_reg64_mem_base_disp (dst base : Reg64) (disp : Int32) :=
  op_base [] .wide [0x1B] dst.id base.id disp []
def adc_reg32_reg32 (dst src : Reg64) := op_reg [] .need [0x13] dst.id src.id []
def adc_reg32_mem_base_disp (dst base : Reg64) (disp : Int32) :=
  op_base [] .need [0x13] dst.id base.id disp []
def sbb_reg32_reg32 (dst src : Reg64) := op_reg [] .need [0x1B] dst.id src.id []
def sbb_reg32_mem_base_disp (dst base : Reg64) (disp : Int32) :=
  op_base [] .need [0x1B] dst.id base.id disp []

/-! ## `mem_moves.rs` -/

def mov_reg64_mem_reg64_disp (dst base : Reg64) (disp : Int32) :=
  op_base [] .wide [0x8B] dst.id base.id disp []
def mov_reg8_mem_base_disp (dst base : Reg64) (disp : Int32) :=
  op_base [] .need [0x8A] dst.id base.id disp []
def mov_reg16_mem_base_disp (dst base : Reg64) (disp : Int32) :=
  op_base [0x66] .need [0x8B] dst.id base.id disp []
def mov_reg32_mem_base_disp (dst base : Reg64) (disp : Int32) :=
  op_base [] .need [0x8B] dst.id base.id disp []

/-- The source's fourth arm, for another width, pushes REX and returns. -/
def movsx_reg64_mem_base_disp (dst base : Reg64) (disp : Int32) (src_width : UInt8) : List UInt8 :=
  match src_width with
  | 1 => op_base [] .wide [0x0F, 0xBE] dst.id base.id disp []
  | 2 => op_base [] .wide [0x0F, 0xBF] dst.id base.id disp []
  | 4 => op_base [] .wide [0x63] dst.id base.id disp []
  | _ => [rex true (high dst.id) false (high base.id)]

def mov_reg_mem_sib_disp_sized (width : IntWidth) (dst base index : Reg64) (scale_bits : UInt8)
    (disp : Int32) : List UInt8 :=
  match width with
  | .W8 => op_sib [] .need [0x8A] dst.id base.id index.id scale_bits disp []
  | .W16 => op_sib [0x66] .need [0x8B] dst.id base.id index.id scale_bits disp []
  | .W32 => op_sib [] .need [0x8B] dst.id base.id index.id scale_bits disp []
  | .W64 => op_sib [] .wide [0x8B] dst.id base.id index.id scale_bits disp []

def mov_mem_reg64_disp_reg64 (base : Reg64) (disp : Int32) (src : Reg64) :=
  op_base [] .wide [0x89] src.id base.id disp []

/-- Ids 4–7 need a REX prefix to name `spl`–`dil`. -/
def requires_rex_for_byte_reg (src : Reg64) : RexUse :=
  if 4 ≤ src.id &&& 7 then .always else .need

def mov_mem_base_disp_reg8 (base : Reg64) (disp : Int32) (src : Reg64) :=
  op_base [] (requires_rex_for_byte_reg src) [0x88] src.id base.id disp []
def mov_mem_base_disp_reg16 (base : Reg64) (disp : Int32) (src : Reg64) :=
  op_base [0x66] .need [0x89] src.id base.id disp []
def mov_mem_base_disp_reg32 (base : Reg64) (disp : Int32) (src : Reg64) :=
  op_base [] .need [0x89] src.id base.id disp []
def mov_mem_sib_disp_reg8 (base index : Reg64) (scale_bits : UInt8) (disp : Int32) (src : Reg64) :=
  op_sib [] (requires_rex_for_byte_reg src) [0x88] src.id base.id index.id scale_bits disp []
def mov_mem_sib_disp_reg16 (base index : Reg64) (scale_bits : UInt8) (disp : Int32) (src : Reg64) :=
  op_sib [0x66] .need [0x89] src.id base.id index.id scale_bits disp []
def mov_mem_sib_disp_reg32 (base index : Reg64) (scale_bits : UInt8) (disp : Int32) (src : Reg64) :=
  op_sib [] .need [0x89] src.id base.id index.id scale_bits disp []
def mov_reg64_mem_sib_disp (dst base index : Reg64) (scale_bits : UInt8) (disp : Int32) :=
  op_sib [] .wide [0x8B] dst.id base.id index.id scale_bits disp []
def mov_mem_sib_disp_reg64 (base index : Reg64) (scale_bits : UInt8) (disp : Int32) (src : Reg64) :=
  op_sib [] .wide [0x89] src.id base.id index.id scale_bits disp []
def movnti_mem_base_disp_reg32 (base : Reg64) (disp : Int32) (src : Reg64) :=
  op_base [] .need [0x0F, 0xC3] src.id base.id disp []
def movnti_mem_base_disp_reg64 (base : Reg64) (disp : Int32) (src : Reg64) :=
  op_base [] .wide [0x0F, 0xC3] src.id base.id disp []
def movnti_mem_sib_disp_reg32 (base index : Reg64) (scale_bits : UInt8) (disp : Int32)
    (src : Reg64) :=
  op_sib [] .need [0x0F, 0xC3] src.id base.id index.id scale_bits disp []
def movnti_mem_sib_disp_reg64 (base index : Reg64) (scale_bits : UInt8) (disp : Int32)
    (src : Reg64) :=
  op_sib [] .wide [0x0F, 0xC3] src.id base.id index.id scale_bits disp []

/-! ## `shift_logical.rs` -/

/-- A rotation: the count 1 has an opcode without immediate. -/
def rotate_imm8 (pre : List UInt8) (u : RexUse) (digit reg_id : UInt8) (imm : Int64) : List UInt8 :=
  if imm.toInt = 1 then op_reg pre u [0xD1] digit reg_id []
  else op_reg pre u [0xC1] digit reg_id (low 1 imm)

def rol_reg64_imm8 (reg : Reg64) (imm : Int64) := rotate_imm8 [] .wide 0 reg.id imm
def rol_reg64_cl (reg : Reg64) := op_reg [] .wide [0xD3] 0 reg.id []
def rol_reg32_imm8 (reg_id : UInt8) (imm : Int64) := rotate_imm8 [] .need 0 reg_id imm
def rol_reg32_cl (reg_id : UInt8) := op_reg [] .need [0xD3] 0 reg_id []
def rol_reg16_imm8 (reg_id : UInt8) (imm : Int64) := rotate_imm8 [0x66] .need 0 reg_id imm
def rol_reg16_cl (reg_id : UInt8) := op_reg [0x66] .need [0xD3] 0 reg_id []
def ror_reg64_imm8 (reg : Reg64) (imm : Int64) := rotate_imm8 [] .wide 1 reg.id imm
def ror_reg64_cl (reg : Reg64) := op_reg [] .wide [0xD3] 1 reg.id []
def ror_reg32_imm8 (reg_id : UInt8) (imm : Int64) := rotate_imm8 [] .need 1 reg_id imm
def ror_reg32_cl (reg_id : UInt8) := op_reg [] .need [0xD3] 1 reg_id []

def xor_reg64_reg64 (dst src : Reg64) := op_reg [] .wide [0x31] src.id dst.id []
def or_reg64_imm8 (dst : Reg64) (imm : Int64) := op_reg [] .wide [0x83] 1 dst.id (low 1 imm)
def or_reg64_imm32 (dst : Reg64) (imm : Int64) := op_reg [] .wide [0x81] 1 dst.id (low 4 imm)
def or_reg32_imm8 (dst : Reg64) (imm : Int64) := op_reg [] .need [0x83] 1 dst.id (low 1 imm)
def or_reg32_imm32 (dst : Reg64) (imm : Int64) := op_reg [] .need [0x81] 1 dst.id (low 4 imm)
def and_reg64_reg64 (dst src : Reg64) := op_reg [] .wide [0x21] src.id dst.id []
def and_reg64_imm8 (dst : Reg64) (imm : Int64) := op_reg [] .wide [0x83] 4 dst.id (low 1 imm)
def and_reg64_imm32 (dst : Reg64) (imm : Int64) := op_reg [] .wide [0x81] 4 dst.id (low 4 imm)
def or_reg64_reg64 (dst src : Reg64) := op_reg [] .wide [0x09] src.id dst.id []
def xor_reg64_imm8 (dst : Reg64) (imm : Int64) := op_reg [] .wide [0x83] 6 dst.id (low 1 imm)
def xor_reg64_imm32 (dst : Reg64) (imm : Int64) := op_reg [] .wide [0x81] 6 dst.id (low 4 imm)
def imul_reg64_reg64 (dst src : Reg64) := op_reg [] .wide [0x0F, 0xAF] dst.id src.id []
def imul_reg64_reg64_imm8 (dst src : Reg64) (imm : Int64) :=
  op_reg [] .wide [0x6B] dst.id src.id (low 1 imm)
def imul_reg64_reg64_imm32 (dst src : Reg64) (imm : Int64) :=
  op_reg [] .wide [0x69] dst.id src.id (low 4 imm)
def and_reg64_mem_reg64_disp (dst base : Reg64) (disp : Int32) :=
  op_base [] .wide [0x23] dst.id base.id disp []
def or_reg64_mem_reg64_disp (dst base : Reg64) (disp : Int32) :=
  op_base [] .wide [0x0B] dst.id base.id disp []
def xor_reg64_mem_reg64_disp (dst base : Reg64) (disp : Int32) :=
  op_base [] .wide [0x33] dst.id base.id disp []
def imul_reg64_mem_reg64_disp (dst base : Reg64) (disp : Int32) :=
  op_base [] .wide [0x0F, 0xAF] dst.id base.id disp []

/-! ## `bit_ops.rs` -/

def popcnt_reg64_reg64 (dst src : Reg64) := op_reg [0xF3] .wide [0x0F, 0xB8] dst.id src.id []
def popcnt_reg64_mem_base_disp (dst base : Reg64) (disp : Int32) :=
  op_base [0xF3] .wide [0x0F, 0xB8] dst.id base.id disp []
def popcnt_reg32_reg32 (dst src : Reg64) := op_reg [0xF3] .need [0x0F, 0xB8] dst.id src.id []
def popcnt_reg32_mem_base_disp (dst base : Reg64) (disp : Int32) :=
  op_base [0xF3] .need [0x0F, 0xB8] dst.id base.id disp []
def crc32_reg64_reg64 (dst src : Reg64) := op_reg [0xF2] .wide [0x0F, 0x38, 0xF1] dst.id src.id []
def crc32_reg64_mem_base_disp (dst base : Reg64) (disp : Int32) :=
  op_base [0xF2] .wide [0x0F, 0x38, 0xF1] dst.id base.id disp []
def bsf_reg64_reg64 (dst src : Reg64) := op_reg [] .wide [0x0F, 0xBC] dst.id src.id []
def bsf_reg64_mem_base_disp (dst base : Reg64) (disp : Int32) :=
  op_base [] .wide [0x0F, 0xBC] dst.id base.id disp []
def bsr_reg64_reg64 (dst src : Reg64) := op_reg [] .wide [0x0F, 0xBD] dst.id src.id []
def bsr_reg64_mem_base_disp (dst base : Reg64) (disp : Int32) :=
  op_base [] .wide [0x0F, 0xBD] dst.id base.id disp []
def tzcnt_reg64_reg64 (dst src : Reg64) := op_reg [0xF3] .wide [0x0F, 0xBC] dst.id src.id []
def tzcnt_reg64_mem_base_disp (dst base : Reg64) (disp : Int32) :=
  op_base [0xF3] .wide [0x0F, 0xBC] dst.id base.id disp []

def bt_reg64_reg64 (bitmap index : Reg64) := op_reg [] .wide [0x0F, 0xA3] index.id bitmap.id []
def bt_mem_base_disp_reg64 (base : Reg64) (disp : Int32) (index : Reg64) :=
  op_base [] .wide [0x0F, 0xA3] index.id base.id disp []
def bt_reg32_reg32 (bitmap index : Reg64) := op_reg [] .need [0x0F, 0xA3] index.id bitmap.id []
def bt_mem_base_disp_reg32 (base : Reg64) (disp : Int32) (index : Reg64) :=
  op_base [] .need [0x0F, 0xA3] index.id base.id disp []
def bts_reg64_reg64 (bitmap index : Reg64) := op_reg [] .wide [0x0F, 0xAB] index.id bitmap.id []
def bts_mem_base_disp_reg64 (base : Reg64) (disp : Int32) (index : Reg64) :=
  op_base [] .wide [0x0F, 0xAB] index.id base.id disp []
def bts_reg32_reg32 (bitmap index : Reg64) := op_reg [] .need [0x0F, 0xAB] index.id bitmap.id []
def bts_mem_base_disp_reg32 (base : Reg64) (disp : Int32) (index : Reg64) :=
  op_base [] .need [0x0F, 0xAB] index.id base.id disp []
def btr_reg64_reg64 (bitmap index : Reg64) := op_reg [] .wide [0x0F, 0xB3] index.id bitmap.id []
def btr_mem_base_disp_reg64 (base : Reg64) (disp : Int32) (index : Reg64) :=
  op_base [] .wide [0x0F, 0xB3] index.id base.id disp []
def btr_reg32_reg32 (bitmap index : Reg64) := op_reg [] .need [0x0F, 0xB3] index.id bitmap.id []
def btr_mem_base_disp_reg32 (base : Reg64) (disp : Int32) (index : Reg64) :=
  op_base [] .need [0x0F, 0xB3] index.id base.id disp []
def btc_reg64_reg64 (bitmap index : Reg64) := op_reg [] .wide [0x0F, 0xBB] index.id bitmap.id []
def btc_mem_base_disp_reg64 (base : Reg64) (disp : Int32) (index : Reg64) :=
  op_base [] .wide [0x0F, 0xBB] index.id base.id disp []
def btc_reg32_reg32 (bitmap index : Reg64) := op_reg [] .need [0x0F, 0xBB] index.id bitmap.id []
def btc_mem_base_disp_reg32 (base : Reg64) (disp : Int32) (index : Reg64) :=
  op_base [] .need [0x0F, 0xBB] index.id base.id disp []
def lock_bts_mem_base_disp_imm8 (base : Reg64) (disp : Int32) (imm : Int64) :=
  op_base [0xF0] .wide [0x0F, 0xBA] 5 base.id disp (low 1 imm)
def lock_btr_mem_base_disp_imm8 (base : Reg64) (disp : Int32) (imm : Int64) :=
  op_base [0xF0] .wide [0x0F, 0xBA] 6 base.id disp (low 1 imm)
def lock_btc_mem_base_disp_imm8 (base : Reg64) (disp : Int32) (imm : Int64) :=
  op_base [0xF0] .wide [0x0F, 0xBA] 7 base.id disp (low 1 imm)
def lock_bts_mem_base_disp_reg64 (base : Reg64) (disp : Int32) (index : Reg64) :=
  op_base [0xF0] .wide [0x0F, 0xAB] index.id base.id disp []
def lock_btr_mem_base_disp_reg64 (base : Reg64) (disp : Int32) (index : Reg64) :=
  op_base [0xF0] .wide [0x0F, 0xB3] index.id base.id disp []
def lock_btc_mem_base_disp_reg64 (base : Reg64) (disp : Int32) (index : Reg64) :=
  op_base [0xF0] .wide [0x0F, 0xBB] index.id base.id disp []

/-! ## `unary_special.rs` -/

def not_reg64 (dst : Reg64) := op_reg [] .wide [0xF7] 2 dst.id []
def inc_reg64 (dst : Reg64) := op_reg [] .wide [0xFF] 0 dst.id []
def dec_reg64 (dst : Reg64) := op_reg [] .wide [0xFF] 1 dst.id []
def bswap_reg64 (dst : Reg64) : List UInt8 :=
  RexUse.wide.bytes false false (high dst.id) ++ [0x0F, (0xC8 : UInt8) ||| (dst.id &&& 7)]
def bswap_reg32 (dst : Reg64) : List UInt8 :=
  RexUse.need.bytes false false (high dst.id) ++ [0x0F, (0xC8 : UInt8) ||| (dst.id &&& 7)]
def ltr_reg16 (dst : Reg64) := op_reg [] .need [0x0F, 0x00] 3 dst.id []
def mov_mem_base_disp_imm8 (base : Reg64) (disp : Int32) (imm : Int64) :=
  op_base [] .need [0xC6] 0 base.id disp (low 1 imm)
def mov_mem_base_disp_imm16 (base : Reg64) (disp : Int32) (imm : Int64) :=
  op_base [0x66] .need [0xC7] 0 base.id disp (low 2 imm)
def mov_mem_base_disp_imm32 (base : Reg64) (disp : Int32) (imm : Int64) :=
  op_base [] .need [0xC7] 0 base.id disp (low 4 imm)
def mov_mem_base_disp_imm32_sxt (base : Reg64) (disp : Int32) (imm : Int64) :=
  op_base [] .wide [0xC7] 0 base.id disp (low 4 imm)
def mov_mem_sib_disp_imm8 (base index : Reg64) (scale_bits : UInt8) (disp : Int32) (imm : Int64) :=
  op_sib [] .need [0xC6] 0 base.id index.id scale_bits disp (low 1 imm)
def mov_mem_sib_disp_imm16 (base index : Reg64) (scale_bits : UInt8) (disp : Int32) (imm : Int64) :=
  op_sib [0x66] .need [0xC7] 0 base.id index.id scale_bits disp (low 2 imm)
def mov_mem_sib_disp_imm32 (base index : Reg64) (scale_bits : UInt8) (disp : Int32) (imm : Int64) :=
  op_sib [] .need [0xC7] 0 base.id index.id scale_bits disp (low 4 imm)
def mov_mem_sib_disp_imm32_sxt (base index : Reg64) (scale_bits : UInt8) (disp : Int32)
    (imm : Int64) :=
  op_sib [] .wide [0xC7] 0 base.id index.id scale_bits disp (low 4 imm)
def xchg_mem_base_disp_reg64 (base : Reg64) (disp : Int32) (src : Reg64) :=
  op_base [] .wide [0x87] src.id base.id disp []
def lock_cmpxchg_mem_base_disp_reg64 (base : Reg64) (disp : Int32) (src : Reg64) :=
  op_base [0xF0] .wide [0x0F, 0xB1] src.id base.id disp []
def lock_cmpxchg_mem_base_disp_reg32 (base : Reg64) (disp : Int32) (src : Reg64) :=
  op_base [0xF0] .need [0x0F, 0xB1] src.id base.id disp []
def lock_cmpxchg16b_mem_base_disp (base : Reg64) (disp : Int32) :=
  op_base [0xF0] .wide [0x0F, 0xC7] 1 base.id disp []

/-! ## `cmp_jmp.rs` -/

def cmp_mem_reg64_reg64 (base : Reg64) (disp : Int32) (src : Reg64) :=
  op_base [] .wide [0x39] src.id base.id disp []
def cmp_reg64_imm8 (dst : Reg64) (imm : Int64) := op_reg [] .wide [0x83] 7 dst.id (low 1 imm)
def cmp_reg64_imm32 (dst : Reg64) (imm : Int64) := op_reg [] .wide [0x81] 7 dst.id (low 4 imm)
def test_reg64_reg64 (dst src : Reg64) := op_reg [] .wide [0x85] src.id dst.id []

/-- `rax` has a form without ModRM. -/
def test_reg64_imm32 (dst : Reg64) (imm : Int64) : List UInt8 :=
  if dst = .Rax then [rex true false false false, 0xA9] ++ low 4 imm
  else op_reg [] .wide [0xF7] 0 dst.id (low 4 imm)

def jmp_rel32 (rel : Int64) : List UInt8 := 0xE9 :: low 4 rel
def jmp_reg64 (reg : Reg64) := op_reg [] .need [0xFF] 4 reg.id []

/-- `jmp [index*scale + disp32]`, and where its displacement starts. Index 4
would mean no index and is refused. -/
def jmp_mem_sib_no_base_indexed (index : Reg64) (scale_bits : UInt8) (disp32 : Int32) : Emit Nat :=
  if index.id = 4 then .fail (.InvalidOperand "RSP cannot be used as SIB index register")
  else do
    Emit.push ((if high index.id then [(0x42 : UInt8)] else []) ++ [(0xFF : UInt8), 0x24,
      ((scale_bits &&& 3) <<< 6) ||| ((index.id &&& 7) <<< 3) ||| (0b101 : UInt8)] ++ i32_le disp32)
    return if high index.id then 4 else 3

end paideia_as_encoder
