-- The rest of the byte-level encoders: `cache_widen.rs`, `cond_call.rs`,
-- `lock_arith.rs`, `abs_disp32.rs` and `system.rs` of `encode/`, and the SSE
-- and VEX encoders.
import PaideiaAs.Encoder.Encode

namespace paideia_as_encoder

open paideia_as_runtime

/-! ## `cache_widen.rs` -/

def mfence : List UInt8 := [0x0F, 0xAE, 0xF0]
def sfence : List UInt8 := [0x0F, 0xAE, 0xF8]
def lfence : List UInt8 := [0x0F, 0xAE, 0xE8]
def pause : List UInt8 := [0xF3, 0x90]
def wbinvd : List UInt8 := [0x0F, 0x09]
def invd : List UInt8 := [0x0F, 0x08]
def fxsave_mem_base_disp (base : Reg64) (disp : Int32) :=
  op_base [] .need [0x0F, 0xAE] 0 base.id disp []
def fxrstor_mem_base_disp (base : Reg64) (disp : Int32) :=
  op_base [] .need [0x0F, 0xAE] 1 base.id disp []
def xsaveopt_mem_base_disp (base : Reg64) (disp : Int32) :=
  op_base [] .need [0x0F, 0xAE] 6 base.id disp []
def xrstor_mem_base_disp (base : Reg64) (disp : Int32) :=
  op_base [] .need [0x0F, 0xAE] 5 base.id disp []
def clflush_mem_base_disp (base : Reg64) (disp : Int32) :=
  op_base [] .need [0x0F, 0xAE] 7 base.id disp []
def clflushopt_mem_base_disp (base : Reg64) (disp : Int32) :=
  op_base [0x66] .need [0x0F, 0xAE] 7 base.id disp []
def prefetchnta_mem_base_disp (base : Reg64) (disp : Int32) :=
  op_base [] .need [0x0F, 0x18] 0 base.id disp []
def prefetcht0_mem_base_disp (base : Reg64) (disp : Int32) :=
  op_base [] .need [0x0F, 0x18] 1 base.id disp []
def prefetcht1_mem_base_disp (base : Reg64) (disp : Int32) :=
  op_base [] .need [0x0F, 0x18] 2 base.id disp []
def prefetcht2_mem_base_disp (base : Reg64) (disp : Int32) :=
  op_base [] .need [0x0F, 0x18] 3 base.id disp []
def div_reg64 (src : Reg64) := op_reg [] .wide [0xF7] 6 src.id []
def mul_reg64 (src : Reg64) := op_reg [] .wide [0xF7] 4 src.id []
def idiv_reg64 (src : Reg64) := op_reg [] .wide [0xF7] 7 src.id []

/-- `none` stands for the source's `false`: nothing was pushed. -/
def movsx_reg64 (dst src : Reg64) (src_width : UInt8) : Option (List UInt8) :=
  match src_width with
  | 1 => some (op_reg [] .wide [0x0F, 0xBE] dst.id src.id [])
  | 2 => some (op_reg [] .wide [0x0F, 0xBF] dst.id src.id [])
  | 4 => some (op_reg [] .wide [0x63] dst.id src.id [])
  | _ => none

def movzx_reg64 (dst src : Reg64) (src_width : UInt8) : Option (List UInt8) :=
  match src_width with
  | 1 => some (op_reg [] .wide [0x0F, 0xB6] dst.id src.id [])
  | 2 => some (op_reg [] .wide [0x0F, 0xB7] dst.id src.id [])
  | _ => none

def mov_reg32_reg32 (dst src : Reg64) := op_reg [] .need [0x89] src.id dst.id []

/-- `[abs32]` of 32-bit code: the bytes and where the displacement starts. An
extended register gets REX.B, and its ModRM field keeps the low three bits. -/
def mem_abs32 (op : UInt8) (reg_id : UInt8) : List UInt8 × Nat :=
  ((if high reg_id then [(0x41 : UInt8)] else []) ++ [op, (0x05 : UInt8) ||| ((reg_id &&& 7) <<< 3)] ++
    [0, 0, 0, 0], (if high reg_id then 1 else 0) + 2)

def mov_reg32_mem_abs32 (dst : Reg64) := mem_abs32 0x8B dst.id
def mov_mem_abs32_reg32 (src : Reg64) := mem_abs32 0x89 src.id
def lea_reg32_mem_abs32 (dst : Reg64) := mem_abs32 0x8D dst.id
def mov_mem_abs32_imm32 (imm : Int64) : List UInt8 × Nat :=
  ([0xC7, 0x05] ++ [0, 0, 0, 0] ++ low 4 imm, 2)
def cmp_reg64_reg64 (dst src : Reg64) := op_reg [] .wide [0x39] src.id dst.id []

/-! ## `cond_call.rs` -/

def jcc_rel32 (cond : Cond) (rel : Int64) : List UInt8 := [0x0F, cond.code] ++ low 4 rel
def jcc_rel8 (cond : Cond) (rel : Int64) : List UInt8 := (0x70 + (cond.code - 0x80)) :: low 1 rel

def setcc_reg8 (cc : Cond) (reg_id : UInt8) (needs_rex : Bool) : List UInt8 :=
  (if high reg_id then [rex false false false true] else if needs_rex then [0x40] else []) ++
    [0x0F, (0x90 : UInt8) ||| (cc.code &&& 0x0F), (0xC0 : UInt8) ||| (reg_id &&& 7)]

def add_reg64_imm8 (dst : Reg64) (imm : Int64) := op_reg [] .wide [0x83] 0 dst.id (low 1 imm)
def add_reg64_imm32 (dst : Reg64) (imm : Int64) := op_reg [] .wide [0x81] 0 dst.id (low 4 imm)
def sub_reg64_imm8 (dst : Reg64) (imm : Int64) := op_reg [] .wide [0x83] 5 dst.id (low 1 imm)
def sub_reg64_imm32 (dst : Reg64) (imm : Int64) := op_reg [] .wide [0x81] 5 dst.id (low 4 imm)
def adc_reg64_imm8 (dst : Reg64) (imm : Int64) := op_reg [] .wide [0x83] 2 dst.id (low 1 imm)
def adc_reg64_imm32 (dst : Reg64) (imm : Int64) := op_reg [] .wide [0x81] 2 dst.id (low 4 imm)
def adc_reg32_imm8 (dst : Reg64) (imm : Int64) := op_reg [] .need [0x83] 2 dst.id (low 1 imm)
def adc_reg32_imm32 (dst : Reg64) (imm : Int64) := op_reg [] .need [0x81] 2 dst.id (low 4 imm)
def call_rel32 (rel : Int64) : List UInt8 := 0xE8 :: low 4 rel
def ret : List UInt8 := [0xC3]
def push_reg64 (reg : Reg64) := op_plus [] .need 0x50 reg.id []
def push_imm8 (imm : Int64) : List UInt8 := 0x6A :: low 1 imm
def push_imm32 (imm : Int64) : List UInt8 := 0x68 :: low 4 imm
def pop_reg64 (reg : Reg64) := op_plus [] .need 0x58 reg.id []

/-! ## `lock_arith.rs` -/

def lock_xadd_mem_base_disp_reg64 (base : Reg64) (disp : Int32) (src : Reg64) :=
  op_base [0xF0] .wide [0x0F, 0xC1] src.id base.id disp []
def lock_xadd_mem_base_disp_reg32 (base : Reg64) (disp : Int32) (src : Reg64) :=
  op_base [0xF0] .need [0x0F, 0xC1] src.id base.id disp []
def lock_add_mem_base_disp_imm8 (base : Reg64) (disp : Int32) (imm : Int64) :=
  op_base [0xF0] .wide [0x83] 0 base.id disp (low 1 imm)
def lock_add_mem_base_disp_imm32 (base : Reg64) (disp : Int32) (imm : Int64) :=
  op_base [0xF0] .wide [0x81] 0 base.id disp (low 4 imm)
def lock_add_mem_base_disp_reg64 (base : Reg64) (disp : Int32) (src : Reg64) :=
  op_base [0xF0] .wide [0x01] src.id base.id disp []
def lock_add_mem_base_disp_imm8_w32 (base : Reg64) (disp : Int32) (imm : Int64) :=
  op_base [0xF0] .need [0x83] 0 base.id disp (low 1 imm)
def lock_add_mem_base_disp_imm32_w32 (base : Reg64) (disp : Int32) (imm : Int64) :=
  op_base [0xF0] .need [0x81] 0 base.id disp (low 4 imm)
def lock_add_mem_base_disp_reg32 (base : Reg64) (disp : Int32) (src : Reg64) :=
  op_base [0xF0] .need [0x01] src.id base.id disp []
def lock_sub_mem_base_disp_imm8 (base : Reg64) (disp : Int32) (imm : Int64) :=
  op_base [0xF0] .wide [0x83] 5 base.id disp (low 1 imm)
def lock_sub_mem_base_disp_imm32 (base : Reg64) (disp : Int32) (imm : Int64) :=
  op_base [0xF0] .wide [0x81] 5 base.id disp (low 4 imm)
def lock_sub_mem_base_disp_reg64 (base : Reg64) (disp : Int32) (src : Reg64) :=
  op_base [0xF0] .wide [0x29] src.id base.id disp []
def lock_sub_mem_base_disp_imm8_w32 (base : Reg64) (disp : Int32) (imm : Int64) :=
  op_base [0xF0] .need [0x83] 5 base.id disp (low 1 imm)
def lock_sub_mem_base_disp_imm32_w32 (base : Reg64) (disp : Int32) (imm : Int64) :=
  op_base [0xF0] .need [0x81] 5 base.id disp (low 4 imm)
def lock_sub_mem_base_disp_reg32 (base : Reg64) (disp : Int32) (src : Reg64) :=
  op_base [0xF0] .need [0x29] src.id base.id disp []
def lock_and_mem_base_disp_reg64 (base : Reg64) (disp : Int32) (src : Reg64) :=
  op_base [0xF0] .wide [0x21] src.id base.id disp []
def lock_or_mem_base_disp_reg64 (base : Reg64) (disp : Int32) (src : Reg64) :=
  op_base [0xF0] .wide [0x09] src.id base.id disp []
def lock_xor_mem_base_disp_reg64 (base : Reg64) (disp : Int32) (src : Reg64) :=
  op_base [0xF0] .wide [0x31] src.id base.id disp []

/-! ## `abs_disp32.rs`

The offsets these return are dropped by every caller. -/

/-- The two widths of the locked forms; the others do not reach it. -/
def lock_abs (width : IntWidth) (op : UInt8) (disp32 : Int32) (imm : List UInt8) : Emit Unit :=
  match width with
  | .W64 => .push (op_abs [0xF0] .wide [op] 0 disp32 imm)
  | .W32 => .push (op_abs [0xF0] .need [op] 0 disp32 imm)
  | _ => do
    Emit.push [0xF0]
    Emit.unreachable "entered unreachable code"

def lock_inc_mem_abs_disp32 (width : IntWidth) (disp32 : Int32) := lock_abs width 0xFF disp32 []
def lock_add_mem_abs_disp32_imm8 (width : IntWidth) (disp32 : Int32) (imm : Int64) :=
  lock_abs width 0x83 disp32 (low 1 imm)
def lock_add_mem_abs_disp32_imm32 (width : IntWidth) (disp32 : Int32) (imm : Int64) :=
  lock_abs width 0x81 disp32 (low 4 imm)

def mov_reg_mem_abs_disp32 (width : IntWidth) (dst : Reg64) (disp32 : Int32) : List UInt8 :=
  match width with
  | .W8 => op_abs [] .need [0x8A] dst.id disp32 []
  | .W16 => op_abs [0x66] .need [0x8B] dst.id disp32 []
  | .W32 => op_abs [] .need [0x8B] dst.id disp32 []
  | .W64 => op_abs [] .wide [0x8B] dst.id disp32 []

def mov_mem_abs_disp32_reg (width : IntWidth) (disp32 : Int32) (src : Reg64) : List UInt8 :=
  match width with
  | .W8 => op_abs [] .need [0x88] src.id disp32 []
  | .W16 => op_abs [0x66] .need [0x89] src.id disp32 []
  | .W32 => op_abs [] .need [0x89] src.id disp32 []
  | .W64 => op_abs [] .wide [0x89] src.id disp32 []

/-- The range of the 64-bit form is only asserted in debug builds: a release
build keeps the low 32 bits. -/
def mov_mem_abs_disp32_imm (width : IntWidth) (disp32 : Int32) (imm : Int64) : List UInt8 :=
  match width with
  | .W8 => op_abs [] .need [0xC6] 0 disp32 (low 1 imm)
  | .W16 => op_abs [0x66] .need [0xC7] 0 disp32 (low 2 imm)
  | .W32 => op_abs [] .need [0xC7] 0 disp32 (low 4 imm)
  | .W64 => op_abs [] .wide [0xC7] 0 disp32 (low 4 imm)

/-! ## `system.rs` -/

/-- Another width pushes nothing. -/
def encode_in_dx (width : UInt8) : List UInt8 :=
  match width with
  | 1 => [0xEC]
  | 2 => [0x66, 0xED]
  | 4 => [0xED]
  | _ => []

def encode_out_dx (width : UInt8) : List UInt8 :=
  match width with
  | 1 => [0xEE]
  | 2 => [0x66, 0xEF]
  | 4 => [0xEF]
  | _ => []

/-- The argument is the opcode or a stand-in for a longer one. -/
def encode_zero_operand (mnem_byte : UInt8) : List UInt8 :=
  match mnem_byte with
  | 0x90 => [0x90]
  | 0xF4 => [0xF4]
  | 0xFA => [0xFA]
  | 0xFB => [0xFB]
  | 0x81 => [0x0F, 0x01, 0xF8]
  | 0x82 => [0x0F, 0xA2]
  | 0x83 => [0x0F, 0x0B]
  | 0x84 => [0xFC]
  | 0x85 => [0xFD]
  | 0x86 => [0xF3, 0x0F, 0x1E, 0xFA]
  | 0x87 => [0xF3, 0x0F, 0x1E, 0xFB]
  | _ => []

def encode_wrmsr : List UInt8 := [0x0F, 0x30]
def encode_rdmsr : List UInt8 := [0x0F, 0x32]
def encode_int_imm8 (imm : Int64) : List UInt8 := 0xCD :: low 1 imm
def encode_iret : List UInt8 := [0xCF]
def encode_iretq : List UInt8 := [0x48, 0xCF]
def encode_sysret : List UInt8 := [0x48, 0x0F, 0x07]
def encode_syscall : List UInt8 := [0x0F, 0x05]
def encode_rep_stosq : List UInt8 := [0xF3, 0x48, 0xAB]
def encode_rep_stosb : List UInt8 := [0xF3, 0xAA]
def encode_rep_movsq : List UInt8 := [0xF3, 0x48, 0xA5]
def encode_rdtsc : List UInt8 := [0x0F, 0x31]

def encode_mov_cr (write : Bool) (cr_idx gpr_idx : UInt8) : List UInt8 :=
  (if 8 ≤ cr_idx || 8 ≤ gpr_idx then
    [(0x40 : UInt8) ||| (if 8 ≤ cr_idx then 0x04 else 0) ||| (if 8 ≤ gpr_idx then 0x01 else 0)]
  else []) ++
    [(0x0F : UInt8), if write then (0x22 : UInt8) else 0x20, (0xC0 : UInt8) ||| ((cr_idx &&& 7) <<< 3) ||| (gpr_idx &&& 7)]

def encode_mov_dr (write : Bool) (dr_idx gpr_idx : UInt8) : List UInt8 :=
  [(0x0F : UInt8), if write then (0x23 : UInt8) else 0x21, (0xC0 : UInt8) ||| ((dr_idx &&& 7) <<< 3) ||| (gpr_idx &&& 7)]

/-- `[base + disp]` written without the SIB byte that base 4 needs and without
the displacement that base 5 needs. -/
def bare_mem (reg_digit base_id : UInt8) (disp : Int32) : List UInt8 :=
  if disp.toInt = 0 then [((reg_digit &&& 7) <<< 3) ||| (base_id &&& 7)]
  else if -128 ≤ disp.toInt ∧ disp.toInt ≤ 127 then
    ((0x40 : UInt8) ||| ((reg_digit &&& 7) <<< 3) ||| (base_id &&& 7)) :: Bytes.sle 1 disp.toInt
  else ((0x80 : UInt8) ||| ((reg_digit &&& 7) <<< 3) ||| (base_id &&& 7)) :: i32_le disp

/-- No REX prefix, whatever the base. -/
def encode_descriptor_table_load (base_reg : Reg64) (disp : Int32) (reg_digit : UInt8) : List UInt8 :=
  [0x0F, 0x01] ++ bare_mem reg_digit base_reg.id disp

def encode_invlpg (base_reg : Reg64) (disp : Int32) : List UInt8 :=
  [0x0F, 0x01] ++ bare_mem 7 base_reg.id disp

def encode_far_jmp (base : Option Reg64) (disp : Int32) : List UInt8 :=
  match base with
  | some base_reg => [rex true false false (high base_reg.id), 0xFF] ++ bare_mem 5 base_reg.id disp
  | none => op_rip [] .wide [0xFF] 5 disp []

def encode_far_jmp_imm (offset selector : Int64) : List UInt8 :=
  0xEA :: (low 4 offset ++ low 2 selector)

def encode_far_jmp_imm_sym (selector : Int64) : List UInt8 :=
  0xEA :: ([0, 0, 0, 0] ++ low 2 selector)

def invpcid_reg_mem_base_disp (reg base : Reg64) (disp : Int32) :=
  op_base [0x66] .need [0x0F, 0x38, 0x82] reg.id base.id disp []
def call_reg64 (reg : Reg64) := op_reg [] .need [0xFF] 2 reg.id []
def call_mem_base_disp (base : Reg64) (disp : Int32) := op_base [] .need [0xFF] 2 base.id disp []
def call_mem_sib_disp (base index : Reg64) (sc : UInt8) (disp : Int32) :=
  op_sib [] .need [0xFF] 2 base.id index.id sc disp []
def call_mem_rip_rel (disp : Int32) := op_rip [] .need [0xFF] 2 disp []

/-- The RIP-relative move of one width, to or from `reg_id`. -/
def mov_rip_sized (width : IntWidth) (byte_op op : UInt8) (reg_id : UInt8) (disp : Int32) :
    List UInt8 :=
  match width with
  | .W8 => op_rip [] .need [byte_op] reg_id disp []
  | .W16 => op_rip [0x66] .need [op] reg_id disp []
  | .W32 => op_rip [] .need [op] reg_id disp []
  | .W64 => op_rip [] .wide [op] reg_id disp []

def mov_reg_mem_rip_rel_sized (width : IntWidth) (dst_id : UInt8) (disp : Int32) :=
  mov_rip_sized width 0x8A 0x8B dst_id disp

/-! ## `encode_sse.rs` -/

def xmm_id_from_regid (reg_id : UInt8) : Option UInt8 :=
  if 53 ≤ reg_id ∧ reg_id ≤ 68 then some (reg_id - 53) else none

def maybe_rex (w r b : Bool) : List UInt8 :=
  if w || r || b then [(0x40 : UInt8) ||| (u8 w <<< 3) ||| (u8 r <<< 2) ||| u8 b] else []

def is_high (id : UInt8) : Bool := (id &&& 0x08) != 0

def modrm_reg_reg (reg_id rm_id : UInt8) : UInt8 :=
  (0xC0 : UInt8) ||| ((reg_id &&& 7) <<< 3) ||| (rm_id &&& 7)

def encode_xmm_xmm (pre : Option UInt8) (opcode dst_xmm src_xmm : UInt8) : List UInt8 :=
  pre.toList ++ maybe_rex false (is_high dst_xmm) (is_high src_xmm) ++
    [0x0F, opcode, modrm_reg_reg dst_xmm src_xmm]

def encode_cvtsi2s (pre dst_xmm src_gpr : UInt8) : List UInt8 :=
  [pre, (0x48 : UInt8) ||| (u8 (is_high dst_xmm) <<< 2) ||| u8 (is_high src_gpr), 0x0F, 0x2A,
    modrm_reg_reg dst_xmm src_gpr]

def encode_cvtts2si (pre dst_gpr src_xmm : UInt8) : List UInt8 :=
  [pre, (0x48 : UInt8) ||| (u8 (is_high dst_gpr) <<< 2) ||| u8 (is_high src_xmm), 0x0F, 0x2C,
    modrm_reg_reg dst_gpr src_xmm]

def encode_movd_movq_bitcast (rex_w to_xmm : Bool) (xmm_id gpr_id : UInt8) : List UInt8 :=
  0x66 :: (maybe_rex rex_w (is_high xmm_id) (is_high gpr_id) ++
    [0x0F, if to_xmm then 0x6E else 0x7E, modrm_reg_reg xmm_id gpr_id])

/-! ## `encode_vex.rs` -/

/-- The fields of the last VEX byte. -/
def vex_tail (vvvv : UInt8) (l : Bool) (pp : UInt8) : UInt8 :=
  ((vvvv &&& 0x0F) <<< 3) ||| (if l then 0x04 else 0) ||| (pp &&& 0x03)

def Vex2.new (r : Bool) (vvvv : UInt8) (l : Bool) (pp : UInt8) : UInt8 :=
  (if r then (0x80 : UInt8) else 0) ||| vex_tail vvvv l pp

def Vex3.new (r_is_high x_is_high b_is_high : Bool) (map_select : UInt8) (w : Bool) (vvvv : UInt8)
    (l : Bool) (pp : UInt8) : UInt8 × UInt8 :=
  ((if r_is_high then (0 : UInt8) else 0x80) ||| (if x_is_high then 0 else 0x40) |||
      (if b_is_high then 0 else 0x20) ||| (map_select &&& 0x1F),
    (if w then (0x80 : UInt8) else 0) ||| vex_tail vvvv l pp)

/-- The short prefix if neither register is extended, else the long one. -/
def vex_lead (r_high b_high : Bool) (vvvv pp : UInt8) : List UInt8 :=
  if !(r_high || b_high) then [0xC5, Vex2.new (!r_high) vvvv true pp]
  else
    let vex := Vex3.new r_high false b_high 0x01 false vvvv true pp
    [0xC4, vex.1, vex.2]

def ymm_id_from_regid (reg_id : UInt8) : Option UInt8 :=
  if 37 ≤ reg_id ∧ reg_id ≤ 52 then some (reg_id - 37) else none

/-- `ymm_id_from_regid(id).expect(msg)`. -/
def ymm_id (reg_id : UInt8) (msg : String) : Emit UInt8 :=
  match ymm_id_from_regid reg_id with
  | some y => pure y
  | none => .unreachable msg

/-- `dst, src1, src2` on whole vector registers. -/
def vex_reg_reg_reg (opcode : UInt8) (name : String) (dst_id src1_id src2_id : UInt8) : Emit Unit := do
  let dst ← ymm_id dst_id (name ++ ": invalid dst register")
  let src1 ← ymm_id src1_id (name ++ ": invalid src1 register")
  let src2 ← ymm_id src2_id (name ++ ": invalid src2 register")
  Emit.push (vex_lead (is_high dst) (is_high src2) (~~~src1 &&& 0x0F) 0x1 ++
    [opcode, modrm_reg_reg dst src2])

def encode_vpxor_reg_reg_reg := vex_reg_reg_reg 0xEF "vpxor"
def encode_vpcmpeqb_reg_reg_reg := vex_reg_reg_reg 0x74 "vpcmpeqb"

def encode_vpmovmskb_reg32_ymm (dst_id src_id : UInt8) : Emit Unit := do
  if !(dst_id < 16) then Emit.unreachable "vpmovmskb: invalid dst register"
  let src ← ymm_id src_id "vpmovmskb: invalid src register"
  Emit.push (vex_lead (is_high dst_id) (is_high src) 0x0F 0x1 ++ [0xD7, modrm_reg_reg dst_id src])

def encode_vmovdqu_ymm_ymm (dst_id src_id : UInt8) : Emit Unit := do
  let dst ← ymm_id dst_id "vmovdqu: invalid dst register"
  let src ← ymm_id src_id "vmovdqu: invalid src register"
  Emit.push (vex_lead (is_high dst) (is_high src) 0x0F 0x2 ++ [0x6F, modrm_reg_reg dst src])

/-- `[base + disp]`, with the base id as it is and ModRM written as
`bare_mem` does. -/
def vmovdqu_mem (opcode : UInt8) (msg : String) (ymm base_id : UInt8) (disp : Int32) : Emit Unit := do
  let reg ← ymm_id ymm msg
  Emit.push (vex_lead (is_high reg) (is_high base_id) 0x0F 0x2 ++ [opcode] ++ bare_mem reg base_id disp)

def encode_vmovdqu_ymm_mem (dst_id base_id : UInt8) (disp : Int32) :=
  vmovdqu_mem 0x6F "vmovdqu: invalid dst register" dst_id base_id disp
def encode_vmovdqu_mem_ymm (base_id : UInt8) (disp : Int32) (src_id : UInt8) :=
  vmovdqu_mem 0x7F "vmovdqu: invalid src register" src_id base_id disp

/-- `[rip + disp32]`, and where the displacement starts. -/
def vmovdqu_riprel (opcode : UInt8) (msg : String) (ymm : UInt8) (disp : Int32) : Emit Nat := do
  let reg ← ymm_id ymm msg
  let lead := vex_lead (is_high reg) false 0x0F 0x2 ++ [opcode, (0x05 : UInt8) ||| ((reg &&& 0x07) <<< 3)]
  Emit.push (lead ++ i32_le disp)
  return lead.length

def encode_vmovdqu_ymm_riprel (dst_id : UInt8) (disp : Int32) :=
  vmovdqu_riprel 0x6F "vmovdqu: invalid dst register" dst_id disp
def encode_vmovdqu_riprel_ymm (disp : Int32) (src_id : UInt8) :=
  vmovdqu_riprel 0x7F "vmovdqu: invalid src register" src_id disp

end paideia_as_encoder
