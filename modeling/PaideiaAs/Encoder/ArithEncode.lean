-- The arithmetic encoders of `encode_instruction/` (`arith.rs`,
-- `encode_and_or_xor.rs`, `encode_imul.rs`, `cmp_test.rs`, `shifts.rs`,
-- `simple_alu.rs`, `stack.rs`, `bit_scan.rs`, `bit_test.rs`,
-- `atomic_lock.rs`) and the staging of a 64-bit immediate in `r11`
-- (`imm64_stage.rs`). None of them adds a site.
import PaideiaAs.Encoder.MovEncode

namespace paideia_as_encoder

open paideia_as_runtime
open Emit (fail)
open Emit (push)

/-- `movabs r11, imm`, unless the operand register is `r11` itself. -/
def stage_imm64_r11 (operand_reg : Reg64) (imm : Int64) (collision_msg : String) : Emit Reg64 :=
  if operand_reg = .R11 then .fail (.Unsupported collision_msg)
  else do
    push (mov_reg64_imm64 .R11 imm)
    return .R11

/-- The three immediate forms of an operation on a 64-bit register: one byte,
four bytes, or staged. -/
structure ImmForms where
  imm8 : Reg64 → Int64 → List UInt8
  imm32 : Reg64 → Int64 → List UInt8
  reg : Reg64 → Reg64 → List UInt8
  collision_msg : String

/-- The shortest form that holds the immediate. -/
def ImmForms.encode (f : ImmForms) (dst : RegId) (imm : Int64) : Emit Unit := do
  let dst_reg ← reg64_from dst
  if fits_i8 imm then push (f.imm8 dst_reg imm)
  else if fits_i32 imm then push (f.imm32 dst_reg imm)
  else
    let scratch ← stage_imm64_r11 dst_reg imm f.collision_msg
    push (f.reg dst_reg scratch)

/-! ## `arith.rs` -/

def add_imm : ImmForms :=
  ⟨add_reg64_imm8, add_reg64_imm32, add_reg64_reg64,
    "add r11, imm64 (out-of-i32-range): scratch-reg r11 collision — pick a different destination register"⟩

def encode_add (inst : Instruction) : Emit Unit :=
  match inst.operands with
  | [.Reg dest, .Reg src] => do
    push (add_reg64_reg64 (← reg64_from dest) (← reg64_from src))
  | [.Reg dest, .MemSib base none _ disp] => do
    push (add_reg64_mem_base_disp (← reg64_from dest) (← reg64_from base) disp)
  | [.Reg dest, .MemSib base (some index) scale disp] => do
    push (add_reg64_mem_sib_disp (← reg64_from dest) (← reg64_from base) (← reg64_from index)
      (sib_scale_bits scale) disp)
  | [.Reg dest, .Imm64 imm] => add_imm.encode dest imm
  | _ => .fail (.Unsupported
      "add form not supported: expected reg64,reg64, reg64,[mem], or reg64,imm64")

def sub_imm : ImmForms :=
  ⟨sub_reg64_imm8, sub_reg64_imm32, sub_reg64_reg64,
    "sub r11, imm64 (out-of-i32-range): scratch-reg r11 collision — pick a different destination register"⟩

def encode_sub (inst : Instruction) : Emit Unit :=
  match inst.operands with
  | [.Reg dest, .Reg src] => do
    push (sub_reg64_reg64 (← reg64_from dest) (← reg64_from src))
  | [.Reg dest, .MemSib base none _ disp] => do
    push (sub_reg64_mem_base_disp (← reg64_from dest) (← reg64_from base) disp)
  | [.Reg dest, .MemSib base (some index) scale disp] => do
    push (sub_reg64_mem_sib_disp (← reg64_from dest) (← reg64_from base) (← reg64_from index)
      (sib_scale_bits scale) disp)
  | [.Reg dest, .Imm64 imm] => sub_imm.encode dest imm
  | _ => .fail (.Unsupported
      "sub form not supported: expected reg64,reg64, reg64,[mem], or reg64,imm64")

/-- Immediates have to fit 32 bits. -/
def encode_adc (inst : Instruction) (width : IntWidth) : Emit Unit :=
  match width with
  | .W8 | .W16 => .fail (.Unsupported "E0037: adc only supports W32 and W64")
  | .W32 =>
    match inst.operands with
    | [.Reg dest, .Reg src] => do
      push (adc_reg32_reg32 (← reg64_from dest) (← reg64_from src))
    | [.Reg dest, .MemSib base none _ disp] => do
      push (adc_reg32_mem_base_disp (← reg64_from dest) (← reg64_from base) disp)
    | [.Reg dest, .Imm64 imm] =>
      if !fits_i32 imm then .fail (.Unsupported "adc: immediate does not fit in i32")
      else if fits_i8 imm then do push (adc_reg32_imm8 (← reg64_from dest) imm)
      else do push (adc_reg32_imm32 (← reg64_from dest) imm)
    | _ => .fail (.OperandShape (.Adc width))
  | .W64 =>
    match inst.operands with
    | [.Reg dest, .Reg src] => do
      push (adc_reg64_reg64 (← reg64_from dest) (← reg64_from src))
    | [.Reg dest, .MemSib base none _ disp] => do
      push (adc_reg64_mem_base_disp (← reg64_from dest) (← reg64_from base) disp)
    | [.Reg dest, .Imm64 imm] =>
      if !fits_i32 imm then .fail (.Unsupported "adc: immediate does not fit in i32")
      else if fits_i8 imm then do push (adc_reg64_imm8 (← reg64_from dest) imm)
      else do push (adc_reg64_imm32 (← reg64_from dest) imm)
    | _ => .fail (.OperandShape (.Adc width))

/-- `[reg, reg]` and `[reg, base + disp]` at 32 or 64 bits, the shape that
`sbb` and `popcnt` share; at 64 bits only, that of the bit scans. -/
structure RegMemForms where
  reg64 : Reg64 → Reg64 → List UInt8
  mem64 : Reg64 → Reg64 → Int32 → List UInt8
  w32 : Option ((Reg64 → Reg64 → List UInt8) × (Reg64 → Reg64 → Int32 → List UInt8))
  width_msg : String

def RegMemForms.shapes (inst : Instruction) (reg : Reg64 → Reg64 → List UInt8)
    (mem : Reg64 → Reg64 → Int32 → List UInt8) : Emit Unit :=
  match inst.operands with
  | [.Reg dest, .Reg src] => do push (reg (← reg64_from dest) (← reg64_from src))
  | [.Reg dest, .MemSib base none _ disp] => do
    push (mem (← reg64_from dest) (← reg64_from base) disp)
  | _ => .fail (.OperandShape inst.mnemonic)

/-- A width without forms is refused. -/
def RegMemForms.encode (f : RegMemForms) (inst : Instruction) (width : IntWidth) : Emit Unit :=
  match width, f.w32 with
  | .W64, _ => shapes inst f.reg64 f.mem64
  | .W32, some (reg, mem) => shapes inst reg mem
  | _, _ => .fail (.Unsupported f.width_msg)

def encode_sbb : Instruction → IntWidth → Emit Unit :=
  RegMemForms.encode ⟨sbb_reg64_reg64, sbb_reg64_mem_base_disp,
    some (sbb_reg32_reg32, sbb_reg32_mem_base_disp), "E0038: sbb only supports W32 and W64"⟩

/-! ## `bit_scan.rs` -/

def encode_popcnt : Instruction → IntWidth → Emit Unit :=
  RegMemForms.encode ⟨popcnt_reg64_reg64, popcnt_reg64_mem_base_disp,
    some (popcnt_reg32_reg32, popcnt_reg32_mem_base_disp), "E0039: popcnt only supports W32 and W64"⟩
def encode_bsf : Instruction → IntWidth → Emit Unit :=
  RegMemForms.encode ⟨bsf_reg64_reg64, bsf_reg64_mem_base_disp, none, "E0050: bsf only supports W64"⟩
def encode_bsr : Instruction → IntWidth → Emit Unit :=
  RegMemForms.encode ⟨bsr_reg64_reg64, bsr_reg64_mem_base_disp, none, "E0051: bsr only supports W64"⟩
def encode_tzcnt : Instruction → IntWidth → Emit Unit :=
  RegMemForms.encode ⟨tzcnt_reg64_reg64, tzcnt_reg64_mem_base_disp, none,
    "E0052: tzcnt only supports W64"⟩
def encode_crc32 : Instruction → IntWidth → Emit Unit :=
  RegMemForms.encode ⟨crc32_reg64_reg64, crc32_reg64_mem_base_disp, none,
    "E0053: crc32 only supports W64"⟩

/-! ## `bit_test.rs` -/

/-- The bitmap in a register or in memory. -/
def bit_test_shapes (inst : Instruction) (reg : Reg64 → Reg64 → List UInt8)
    (mem : Reg64 → Int32 → Reg64 → List UInt8) : Emit Unit :=
  match inst.operands with
  | [.Reg bitmap, .Reg index] => do push (reg (← reg64_from bitmap) (← reg64_from index))
  | [.MemSib base none _ disp, .Reg index_reg] => do
    push (mem (← reg64_from base) disp (← reg64_from index_reg))
  | _ => .fail (.OperandShape inst.mnemonic)

def encode_bt (inst : Instruction) (width : IntWidth) : Emit Unit :=
  match width with
  | .W64 => bit_test_shapes inst bt_reg64_reg64 bt_mem_base_disp_reg64
  | .W32 => bit_test_shapes inst bt_reg32_reg32 bt_mem_base_disp_reg32
  | _ => .fail (.Unsupported "E0040: bt only supports W32 and W64")

def encode_bts (inst : Instruction) (width : IntWidth) : Emit Unit :=
  match width with
  | .W64 => bit_test_shapes inst bts_reg64_reg64 bts_mem_base_disp_reg64
  | .W32 => bit_test_shapes inst bts_reg32_reg32 bts_mem_base_disp_reg32
  | _ => .fail (.Unsupported "E0041: bts only supports W32 and W64")

def encode_btr (inst : Instruction) (width : IntWidth) : Emit Unit :=
  match width with
  | .W64 => bit_test_shapes inst btr_reg64_reg64 btr_mem_base_disp_reg64
  | .W32 => bit_test_shapes inst btr_reg32_reg32 btr_mem_base_disp_reg32
  | _ => .fail (.Unsupported "E0042: btr only supports W32 and W64")

def encode_btc (inst : Instruction) (width : IntWidth) : Emit Unit :=
  match width with
  | .W64 => bit_test_shapes inst btc_reg64_reg64 btc_mem_base_disp_reg64
  | .W32 => bit_test_shapes inst btc_reg32_reg32 btc_mem_base_disp_reg32
  | _ => .fail (.Unsupported "E0043: btc only supports W32 and W64")

/-! ## `encode_and_or_xor.rs` and `encode_imul.rs` -/

/-- What no arm takes: a panic on a variable, else the mnemonic's message. -/
def no_arm (operands : List Operand) (msg : String) : Emit Unit :=
  if operands.any (·.isVar) then .unreachable var_reached_encoder else .fail (.Unsupported msg)

def and_imm : ImmForms :=
  ⟨and_reg64_imm8, and_reg64_imm32, and_reg64_reg64,
    "and r11, imm64 (out-of-i32-range): scratch-reg r11 collision — pick a different destination register"⟩

def encode_and (inst : Instruction) : Emit Unit :=
  match inst.operands with
  | [.Reg dst, .Reg src] => do push (and_reg64_reg64 (← reg64_from dst) (← reg64_from src))
  | [.Reg dst, .Imm64 imm] => and_imm.encode dst imm
  | [.Reg dst, .MemSib base none _ disp] => do
    push (and_reg64_mem_reg64_disp (← reg64_from dst) (← reg64_from base) disp)
  | ops => no_arm ops "and: unsupported operand shape (mem,mem not encodable on x86)"

def or_imm : ImmForms :=
  ⟨or_reg64_imm8, or_reg64_imm32, or_reg64_reg64,
    "or r11, imm64 (out-of-i32-range): scratch-reg r11 collision — pick a different destination register"⟩

/-- `or` alone has forms of its own for 32-bit mode. -/
def or_imm_mode32 (dst : RegId) (imm : Int64) : Emit Unit := do
  let dst_reg ← reg64_from dst
  if fits_i8 imm then push (or_reg32_imm8 dst_reg imm)
  else if -2147483648 ≤ imm.toInt ∧ imm.toInt ≤ 4294967295 then push (or_reg32_imm32 dst_reg imm)
  else fail (.Unsupported "or r32, imm: immediate out of 32-bit range")

def encode_or (inst : Instruction) : Emit Unit :=
  match inst.operands with
  | [.Reg dst, .Reg src] => do push (or_reg64_reg64 (← reg64_from dst) (← reg64_from src))
  | [.Reg dst, .Imm64 imm] =>
    if inst.mode = .Mode32 then or_imm_mode32 dst imm else or_imm.encode dst imm
  | [.Reg dst, .MemSib base none _ disp] => do
    push (or_reg64_mem_reg64_disp (← reg64_from dst) (← reg64_from base) disp)
  | ops => no_arm ops "or: unsupported operand shape (mem,mem not encodable on x86)"

def xor_imm : ImmForms :=
  ⟨xor_reg64_imm8, xor_reg64_imm32, xor_reg64_reg64,
    "xor r11, imm64 (out-of-i32-range): scratch-reg r11 collision — pick a different destination register"⟩

def encode_xor (inst : Instruction) : Emit Unit :=
  match inst.operands with
  | [.Reg dst, .Reg src] => do push (xor_reg64_reg64 (← reg64_from dst) (← reg64_from src))
  | [.Reg dst, .Imm64 imm] => xor_imm.encode dst imm
  | [.Reg dst, .MemSib base none _ disp] => do
    push (xor_reg64_mem_reg64_disp (← reg64_from dst) (← reg64_from base) disp)
  | ops => no_arm ops "xor: unsupported operand shape (mem,mem not encodable on x86)"

/-- With a third operand, the product by an immediate. -/
def encode_imul (inst : Instruction) : Emit Unit :=
  match inst.operands with
  | [.Reg dst, .Reg src] => do push (imul_reg64_reg64 (← reg64_from dst) (← reg64_from src))
  | [.Reg dst, .Reg src, .Imm64 imm] => do
    let dst_reg ← reg64_from dst
    let src_reg ← reg64_from src
    if fits_i8 imm then push (imul_reg64_reg64_imm8 dst_reg src_reg imm)
    else if fits_i32 imm then push (imul_reg64_reg64_imm32 dst_reg src_reg imm)
    else fail (.Unsupported
      "imul r64, r64, imm64: immediate out of range for 32-bit sign extension")
  | [.Reg dst, .MemSib base none _ disp] => do
    push (imul_reg64_mem_reg64_disp (← reg64_from dst) (← reg64_from base) disp)
  | [.MemSib _ _ _ _, .MemSib _ _ _ _] => .fail (.Unsupported "imul mem,mem")
  | ops => no_arm ops "imul: unsupported operand shape"

/-! ## `cmp_test.rs` -/

def cmp_imm : ImmForms :=
  ⟨cmp_reg64_imm8, cmp_reg64_imm32, cmp_reg64_reg64,
    "cmp r11, imm64 (out-of-i32-range): scratch-reg r11 collision — pick a different register"⟩

def encode_cmp (inst : Instruction) : Emit Unit :=
  match inst.operands with
  | [.Reg dest, .Reg src] => do push (cmp_reg64_reg64 (← reg64_from dest) (← reg64_from src))
  | [.MemSib base none .X1 disp, .Reg src] => do
    push (cmp_mem_reg64_reg64 (← reg64_from base) disp (← reg64_from src))
  | [.Reg dest, .Imm64 imm] => cmp_imm.encode dest imm
  | _ => .fail (.Unsupported
      "cmp form not supported: expected reg64,reg64, reg64,imm64, or [base+disp],reg64")

/-- `al` has a form without ModRM. The narrow forms take register ids as they
are, whatever their value. -/
def encode_cmp_reg8_imm (dest_reg_id : UInt8) (imm : Int64) : Emit Unit :=
  if !fits_i8 imm then .fail (.Unsupported
    "cmp_b imm must fit in signed byte; use a smaller value or load into reg first")
  else if dest_reg_id = 0 then .push (0x3C :: low 1 imm)
  else .push (op_reg [] .need [0x80] 7 dest_reg_id (low 1 imm))

def encode_cmp_reg16_imm (dest_reg_id : UInt8) (imm : Int64) : Emit Unit :=
  if ¬ (-32768 ≤ imm.toInt ∧ imm.toInt ≤ 32767) then .fail (.Unsupported
    "cmp_w imm must fit in signed 16-bit; use a smaller value or load into reg first")
  else if fits_i8 imm then .push (op_reg [0x66] .need [0x83] 7 dest_reg_id (low 1 imm))
  else if dest_reg_id = 0 then .push ([0x66, 0x3D] ++ low 2 imm)
  else .push (op_reg [0x66] .need [0x81] 7 dest_reg_id (low 2 imm))

def encode_cmp_reg32_imm (dest_reg_id : UInt8) (imm : Int64) : Emit Unit :=
  if !fits_i32 imm then .fail (.Unsupported
    "cmp_d imm must fit in signed 32-bit; use a smaller value or load into reg first")
  else if fits_i8 imm then .push (op_reg [] .need [0x83] 7 dest_reg_id (low 1 imm))
  else if dest_reg_id = 0 then .push (0x3D :: low 4 imm)
  else .push (op_reg [] .need [0x81] 7 dest_reg_id (low 4 imm))

def encode_cmp_reg8_reg8 (dest_id src_id : UInt8) := op_reg [] .need [0x38] src_id dest_id []
def encode_cmp_reg16_reg16 (dest_id src_id : UInt8) := op_reg [0x66] .need [0x39] src_id dest_id []
def encode_cmp_reg32_reg32 (dest_id src_id : UInt8) := op_reg [] .need [0x39] src_id dest_id []
def encode_cmp_mem_reg8 (base_id : UInt8) (disp : Int32) (src_id : UInt8) :=
  op_base [] .need [0x38] src_id base_id disp []
def encode_cmp_mem_reg16 (base_id : UInt8) (disp : Int32) (src_id : UInt8) :=
  op_base [0x66] .need [0x39] src_id base_id disp []
def encode_cmp_mem_reg32 (base_id : UInt8) (disp : Int32) (src_id : UInt8) :=
  op_base [] .need [0x39] src_id base_id disp []

def encode_cmp_sized (inst : Instruction) (width : IntWidth) : Emit Unit :=
  match width, inst.operands with
  | .W64, _ => encode_cmp inst
  | .W8, [.Reg dest, .Imm64 imm] => encode_cmp_reg8_imm dest.num imm
  | .W16, [.Reg dest, .Imm64 imm] => encode_cmp_reg16_imm dest.num imm
  | .W32, [.Reg dest, .Imm64 imm] => encode_cmp_reg32_imm dest.num imm
  | .W8, [.Reg dest, .Reg src] => .push (encode_cmp_reg8_reg8 dest.num src.num)
  | .W16, [.Reg dest, .Reg src] => .push (encode_cmp_reg16_reg16 dest.num src.num)
  | .W32, [.Reg dest, .Reg src] => .push (encode_cmp_reg32_reg32 dest.num src.num)
  | .W8, [.MemSib base none .X1 disp, .Reg src] =>
    .push (encode_cmp_mem_reg8 base.num disp src.num)
  | .W16, [.MemSib base none .X1 disp, .Reg src] =>
    .push (encode_cmp_mem_reg16 base.num disp src.num)
  | .W32, [.MemSib base none .X1 disp, .Reg src] =>
    .push (encode_cmp_mem_reg32 base.num disp src.num)
  | _, _ => .fail (.OperandShape (.CmpSized width))

def encode_test (inst : Instruction) : Emit Unit :=
  match inst.operands with
  | [.Reg dest, .Reg src] => do push (test_reg64_reg64 (← reg64_from dest) (← reg64_from src))
  | [.Reg dest, .Imm64 imm] => do
    let dest_reg ← reg64_from dest
    if !fits_i32 imm then
      fail (.Unsupported "64-bit immediate test not yet supported; use and+cmp workaround")
    else push (test_reg64_imm32 dest_reg imm)
  | _ => .fail (.Unsupported "test form not supported: expected reg64,reg64 or reg64,imm32")

/-! ## `shifts.rs` -/

/-- `shl`, `shr` and `sar` by an immediate or by `cl`. The count is cut to a
byte without a check. -/
def encode_shift (digit : UInt8) (cl_msg form_msg : String) (inst : Instruction) : Emit Unit :=
  match inst.operands with
  | [.Reg dst, .Imm64 imm] => do
    push (op_reg [] .wide [0xC1] digit (← reg64_from dst).id (low 1 imm))
  | [.Reg dst, .Reg src] => do
    if (← reg64_from src) ≠ .Rcx then fail (.Unsupported cl_msg)
    else push (op_reg [] .wide [0xD3] digit (← reg64_from dst).id [])
  | _ => .fail (.Unsupported form_msg)

def encode_shl : Instruction → Emit Unit :=
  encode_shift 4 "shl with variable count requires CL register"
    "shl form not supported: expected reg64,imm8 or reg64,cl"
def encode_shr : Instruction → Emit Unit :=
  encode_shift 5 "shr with variable count requires CL register"
    "shr form not supported: expected reg64,imm8 or reg64,cl"
def encode_sar : Instruction → Emit Unit :=
  encode_shift 7 "sar with variable count requires CL register"
    "sar form not supported: expected reg64,imm8 or reg64,cl"

/-- A rotation on a general register at 64 or 32 bits: unlike a shift, it
refuses a count outside `i8`. -/
def rotate_shapes (inst : Instruction) (imm8 : Reg64 → Int64 → List UInt8)
    (cl : Reg64 → List UInt8) (imm_msg cl_msg : String) : Emit Unit :=
  match inst.operands with
  | [.Reg dst, .Imm64 imm] => do
    let dst_reg ← reg64_from dst
    if !fits_i8 imm then fail (.Unsupported imm_msg) else push (imm8 dst_reg imm)
  | [.Reg dst, .Reg src] => do
    let dst_reg ← reg64_from dst
    if (← reg64_from src) ≠ .Rcx then fail (.Unsupported cl_msg) else push (cl dst_reg)
  | _ => .fail (.OperandShape inst.mnemonic)

/-- The 16-bit rotation takes any register id. -/
def encode_rol (inst : Instruction) (width : IntWidth) : Emit Unit :=
  let imm_msg := "E0035: rol imm must fit in i8"
  let cl_msg := "E0036: rol variable count requires CL"
  match width with
  | .W64 => rotate_shapes inst rol_reg64_imm8 rol_reg64_cl imm_msg cl_msg
  | .W32 => rotate_shapes inst (fun r => rol_reg32_imm8 r.id) (fun r => rol_reg32_cl r.id) imm_msg cl_msg
  | .W16 =>
    match inst.operands with
    | [.Reg dst, .Imm64 imm] =>
      if !fits_i8 imm then .fail (.Unsupported imm_msg) else .push (rol_reg16_imm8 dst.num imm)
    | [.Reg dst, .Reg src] =>
      if src.num ≠ 1 then .fail (.Unsupported cl_msg) else .push (rol_reg16_cl dst.num)
    | _ => .fail (.OperandShape (.Rol width))
  | .W8 => .fail (.Unsupported "E0034: rol only supports W16, W32, and W64")

def encode_ror (inst : Instruction) (width : IntWidth) : Emit Unit :=
  let imm_msg := "E0035: ror imm must fit in i8"
  let cl_msg := "E0036: ror variable count requires CL"
  match width with
  | .W64 => rotate_shapes inst ror_reg64_imm8 ror_reg64_cl imm_msg cl_msg
  | .W32 => rotate_shapes inst (fun r => ror_reg32_imm8 r.id) (fun r => ror_reg32_cl r.id) imm_msg cl_msg
  | _ => .fail (.Unsupported "E0034: ror only supports W32 and W64")

/-! ## `simple_alu.rs` -/

/-- One register and nothing else. -/
def one_reg (bytes : Reg64 → List UInt8) (inst : Instruction) : Emit Unit :=
  match inst.operands with
  | [.Reg r] => do push (bytes (← reg64_from r))
  | _ => .fail (.OperandShape inst.mnemonic)

def encode_not := one_reg not_reg64
def encode_bswap := one_reg bswap_reg64
def encode_bswap32 := one_reg bswap_reg32
def encode_div := one_reg div_reg64
def encode_idiv := one_reg idiv_reg64
def encode_mul := one_reg mul_reg64
def encode_inc := one_reg inc_reg64
def encode_dec := one_reg dec_reg64
def encode_ltr := one_reg ltr_reg16

/-! ## `stack.rs` -/

/-- Immediates have to fit 32 bits. -/
def encode_push (inst : Instruction) : Emit Unit :=
  if inst.mode = .Mode32 then .fail (.Unsupported "E0020: push not supported in 32-bit mode")
  else match inst.operands with
    | [.Reg src] => do push (push_reg64 (← reg64_from src))
    | [.Imm64 imm] =>
      if fits_i8 imm then .push (push_imm8 imm)
      else if fits_i32 imm then .push (push_imm32 imm)
      else .fail (.OperandShape .Push)
    | _ => .fail (.OperandShape .Push)

def encode_pop (inst : Instruction) : Emit Unit :=
  if inst.mode = .Mode32 then .fail (.Unsupported "E0021: pop r64 not supported in 32-bit mode")
  else one_reg pop_reg64 inst

/-- `pushfq`, `popfq` and `int3` call an operand a wrong shape, not a wrong
count. -/
def bare_opcode (byte : UInt8) (inst : Instruction) : Emit Unit :=
  if inst.operands.isEmpty then .push [byte] else .fail (.OperandShape inst.mnemonic)

def encode_pushfq := bare_opcode 0x9C
def encode_popfq := bare_opcode 0x9D
def encode_int3 := bare_opcode 0xCC

/-! ## `atomic_lock.rs` -/

/-- `[base + disp], reg` and nothing else. -/
def mem_reg (bytes : Reg64 → Int32 → Reg64 → List UInt8) (inst : Instruction) : Emit Unit :=
  match inst.operands with
  | [.MemSib base none .X1 disp, .Reg src] => do
    push (bytes (← reg64_from base) disp (← reg64_from src))
  | _ => .fail (.OperandShape inst.mnemonic)

def encode_xchg_inst := mem_reg xchg_mem_base_disp_reg64
def encode_lock_cmpxchg_inst := mem_reg lock_cmpxchg_mem_base_disp_reg64
def encode_lock_cmpxchg32_inst := mem_reg lock_cmpxchg_mem_base_disp_reg32

/-- `[base + disp]` and nothing else. -/
def one_mem (bytes : Reg64 → Int32 → List UInt8) (inst : Instruction) : Emit Unit :=
  match inst.operands with
  | [.MemSib base none .X1 disp] => do push (bytes (← reg64_from base) disp)
  | _ => .fail (.OperandShape inst.mnemonic)

def encode_lock_cmpxchg16b_inst := one_mem lock_cmpxchg16b_mem_base_disp

/-- The width is looked at after the operands. -/
def encode_lock_xadd (inst : Instruction) (width : IntWidth) : Emit Unit :=
  match inst.operands with
  | [.MemSib base none .X1 disp, .Reg src] => do
    let base_reg ← reg64_from base
    let src_reg ← reg64_from src
    match width with
    | .W32 => push (lock_xadd_mem_base_disp_reg32 base_reg disp src_reg)
    | .W64 => push (lock_xadd_mem_base_disp_reg64 base_reg disp src_reg)
    | _ => fail (.Unsupported "E0031: lock_xadd only supports W32 and W64")
  | _ => .fail (.OperandShape (.LockXadd width))

/-- Locked `add` and `sub` on `[base + disp]` by a register or an immediate. -/
structure LockForms where
  reg : Reg64 → Int32 → Reg64 → List UInt8
  imm8 : Reg64 → Int32 → Int64 → List UInt8
  imm32 : Reg64 → Int32 → Int64 → List UInt8

/-- A register, or the shortest form of the immediate. -/
def LockForms.encode (f : LockForms) (imm_msg : String) (inst : Instruction)
    (other : Emit Unit) : Emit Unit :=
  match inst.operands with
  | [.MemSib base none .X1 disp, .Reg src] => do
    push (f.reg (← reg64_from base) disp (← reg64_from src))
  | [.MemSib base none .X1 disp, .Imm64 imm] => do
    let base_reg ← reg64_from base
    if fits_i8 imm then push (f.imm8 base_reg disp imm)
    else if fits_i32 imm then push (f.imm32 base_reg disp imm)
    else fail (.Unsupported imm_msg)
  | _ => other

/-- `lock add` has an absolute form. -/
def lock_add_abs (inst : Instruction) (width : IntWidth) : Emit Unit :=
  match inst.operands with
  | [.MemDisp disp, .Imm64 imm] =>
    if fits_i8 imm then lock_add_mem_abs_disp32_imm8 width disp imm
    else if fits_i32 imm then lock_add_mem_abs_disp32_imm32 width disp imm
    else .fail (.Unsupported "E0033: lock_add imm out of i32 range")
  | _ => .fail (.OperandShape (.LockAdd width))

def encode_lock_add (inst : Instruction) (width : IntWidth) : Emit Unit :=
  match width with
  | .W32 => LockForms.encode ⟨lock_add_mem_base_disp_reg32, lock_add_mem_base_disp_imm8_w32,
      lock_add_mem_base_disp_imm32_w32⟩ "E0033: lock_add imm out of i32 range" inst
      (lock_add_abs inst width)
  | .W64 => LockForms.encode ⟨lock_add_mem_base_disp_reg64, lock_add_mem_base_disp_imm8,
      lock_add_mem_base_disp_imm32⟩ "E0033: lock_add imm out of i32 range" inst
      (lock_add_abs inst width)
  | _ => .fail (.Unsupported "E0032: lock_add only supports W32 and W64")

def encode_lock_sub (inst : Instruction) (width : IntWidth) : Emit Unit :=
  match width with
  | .W32 => LockForms.encode ⟨lock_sub_mem_base_disp_reg32, lock_sub_mem_base_disp_imm8_w32,
      lock_sub_mem_base_disp_imm32_w32⟩ "E0033: lock_sub imm out of i32 range" inst
      (.fail (.OperandShape (.LockSub width)))
  | .W64 => LockForms.encode ⟨lock_sub_mem_base_disp_reg64, lock_sub_mem_base_disp_imm8,
      lock_sub_mem_base_disp_imm32⟩ "E0033: lock_sub imm out of i32 range" inst
      (.fail (.OperandShape (.LockSub width)))
  | _ => .fail (.Unsupported "E0032: lock_sub only supports W32 and W64")

def encode_lock_inc (inst : Instruction) (width : IntWidth) : Emit Unit :=
  if width ≠ .W32 ∧ width ≠ .W64 then
    .fail (.Unsupported "E0034: lock_inc only supports W32 and W64")
  else match inst.operands with
    | [.MemDisp disp] => lock_inc_mem_abs_disp32 width disp
    | _ => .fail (.OperandShape (.LockInc width))

/-- Locked bit operations, by a register or by an unsigned byte. -/
def lock_bit (reg : Reg64 → Int32 → Reg64 → List UInt8) (imm8 : Reg64 → Int32 → Int64 → List UInt8)
    (width_msg imm_msg : String) (inst : Instruction) (width : IntWidth) : Emit Unit :=
  if width ≠ .W64 then .fail (.Unsupported width_msg)
  else match inst.operands with
    | [.MemSib base none .X1 disp, .Reg index_reg] => do
      push (reg (← reg64_from base) disp (← reg64_from index_reg))
    | [.MemSib base none .X1 disp, .Imm64 imm] => do
      let base_reg ← reg64_from base
      if 0 ≤ imm.toInt ∧ imm.toInt ≤ 255 then push (imm8 base_reg disp imm)
      else fail (.Unsupported imm_msg)
    | _ => .fail (.OperandShape inst.mnemonic)

def encode_lock_bts := lock_bit lock_bts_mem_base_disp_reg64 lock_bts_mem_base_disp_imm8
  "E0044: lock_bts only supports W64" "E0044: lock_bts imm8 out of u8 range"
def encode_lock_btr := lock_bit lock_btr_mem_base_disp_reg64 lock_btr_mem_base_disp_imm8
  "E0045: lock_btr only supports W64" "E0045: lock_btr imm8 out of u8 range"
def encode_lock_btc := lock_bit lock_btc_mem_base_disp_reg64 lock_btc_mem_base_disp_imm8
  "E0046: lock_btc only supports W64" "E0046: lock_btc imm8 out of u8 range"

def lock_logic (bytes : Reg64 → Int32 → Reg64 → List UInt8) (width_msg : String)
    (inst : Instruction) (width : IntWidth) : Emit Unit :=
  if width ≠ .W64 then .fail (.Unsupported width_msg) else mem_reg bytes inst

def encode_lock_and := lock_logic lock_and_mem_base_disp_reg64 "E0047: lock_and only supports W64"
def encode_lock_or := lock_logic lock_or_mem_base_disp_reg64 "E0048: lock_or only supports W64"
def encode_lock_xor := lock_logic lock_xor_mem_base_disp_reg64 "E0049: lock_xor only supports W64"

end paideia_as_encoder
