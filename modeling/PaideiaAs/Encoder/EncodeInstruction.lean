-- Control transfer, system and vector encoders, and the dispatcher
-- `encode_instruction` over every mnemonic (`encode_instruction/branch.rs`,
-- `descriptor.rs`, `avx.rs`, `sse.rs`, the system files and `mod.rs`).
import PaideiaAs.Encoder.ArithEncode

namespace paideia_as_encoder

open paideia_as_runtime

/-! ## `branch.rs` -/

/-- A short jump where the distance fits; a label takes the long one. -/
def encode_jcc (ir_cond : paideia_as_runtime.Cond) (inst : Instruction) : Emit EncodeOutput :=
  match inst.operands with
  | [.Imm64 rel] => plain (
    if can_use_rel8 rel then .push (jcc_rel8 (cond_from ir_cond) rel)
    else .push (jcc_rel32 (cond_from ir_cond) rel))
  | [.LabelRef name addend] =>
    sited (jcc_rel32 (cond_from ir_cond) 0) (.fixup ⟨2, name, addend, 6⟩)
  | _ => .fail (.Unsupported
      "jcc form not supported: expected an immediate displacement or a label reference")

/-- The register id of a byte register, and whether it needs a REX prefix. -/
def resolve_reg8 (r : RegId) : UInt8 × Bool :=
  match r.num with
  | 33 => (4, true)
  | 34 => (5, true)
  | 35 => (6, true)
  | 36 => (7, true)
  | n => (n, false)

def encode_setcc (ir_cond : paideia_as_runtime.Cond) (inst : Instruction) : Emit Unit :=
  match inst.operands with
  | [.Reg dst] =>
    let (reg_id, needs_rex) := resolve_reg8 dst
    .push (setcc_reg8 (cond_from ir_cond) reg_id needs_rex)
  | _ => .fail (.OperandShape (.Setcc ir_cond))

/-- The immediate is cut to 32 bits without a check. -/
def encode_jmp (inst : Instruction) : Emit EncodeOutput :=
  match inst.operands with
  | [.Imm64 rel] => plain (.push (jmp_rel32 rel))
  | [.LabelRef name addend] => sited (jmp_rel32 0) (.fixup ⟨1, name, addend, 5⟩)
  | [.SymbolRef name addend] => sited [0xE9, 0, 0, 0, 0] (pc_site 1 name .Plt32 addend)
  | [.MemSymIndexed name addend index scale] => do
    let index_reg ← reg64_from index
    let disp_offset ← jmp_mem_sib_no_base_indexed index_reg (sib_scale_bits scale) 0
    return abs_site disp_offset name addend
  | [.MemDispIndexed disp index scale] => plain do
    let index_reg ← reg64_from index
    let _ ← jmp_mem_sib_no_base_indexed index_reg (sib_scale_bits scale) disp
  | [.Reg r] => plain do Emit.push (jmp_reg64 (← reg64_from r))
  | _ => .fail (.Unsupported "jmp operand shape not supported by this encoder")

/-- Only the direct call to a name goes through the PLT. -/
def encode_call (inst : Instruction) : Emit EncodeOutput :=
  match inst.operands with
  | [.Imm64 rel] => plain (.push (call_rel32 rel))
  | [.SymbolRef name addend] => sited [0xE8, 0, 0, 0, 0] (pc_site 1 name .Plt32 addend)
  | [.Reg r] => plain do Emit.push (call_reg64 (← reg64_from r))
  | [.MemSib base none .X1 disp] => plain do
    Emit.push (call_mem_base_disp (← reg64_from base) disp)
  | [.MemSib base (some idx) scale disp] => plain do
    Emit.push (call_mem_sib_disp (← reg64_from base) (← reg64_from idx) (sib_scale_bits scale) disp)
  | [.MemRipRel disp] => plain (.push (call_mem_rip_rel disp))
  | [.MemRipRelSym name addend] => sited (call_mem_rip_rel 0) (pc_site 2 name .PcRel32 addend)
  | _ => .fail (.Unsupported "call operand shape not supported by this encoder")

/-- Selector and offset of the direct form are cut to 16 and 32 bits without a
check. -/
def encode_far_jmp_inst (inst : Instruction) : Emit EncodeOutput :=
  match inst.operands with
  | [.MemSib base none .X1 disp] => plain do
    Emit.push (encode_far_jmp (some (← reg64_from base)) disp)
  | [.MemRipRel disp] => plain (.push (encode_far_jmp none disp))
  | [_] => .fail (.OperandShape .FarJmp)
  | [.Imm64 selector, .Imm64 offset] => plain (.push (encode_far_jmp_imm offset selector))
  | [.Imm64 selector, .SymbolRef name addend] =>
    sited (encode_far_jmp_imm_sym selector) (abs_site 1 name addend)
  | [_, _] => .fail (.OperandShape .FarJmp)
  | ops => .fail (.OperandCount .FarJmp 1 ops.length)

/-! ## Zero-operand instructions -/

/-- An operand is a wrong count. -/
def no_operands (bytes : List UInt8) (inst : Instruction) : Emit Unit :=
  if inst.operands.isEmpty then .push bytes
  else .fail (.OperandCount inst.mnemonic 0 inst.operands.length)

def encode_ret := no_operands ret
def encode_cli := no_operands (encode_zero_operand 0xFA)
def encode_cld := no_operands (encode_zero_operand 0x84)
def encode_sti := no_operands (encode_zero_operand 0xFB)
def encode_std := no_operands (encode_zero_operand 0x85)
def encode_hlt := no_operands (encode_zero_operand 0xF4)
def encode_nop := no_operands (encode_zero_operand 0x90)
def encode_swapgs := no_operands (encode_zero_operand 0x81)
def encode_cpuid := no_operands (encode_zero_operand 0x82)
def encode_ud2 := no_operands (encode_zero_operand 0x83)
def encode_endbr64 := no_operands (encode_zero_operand 0x86)
def encode_endbr32 := no_operands (encode_zero_operand 0x87)
def encode_rep_movsb := no_operands [0xF3, 0xA4]
def encode_rep_stosq_inst := no_operands encode_rep_stosq
def encode_rep_stosb_inst := no_operands encode_rep_stosb
def encode_rep_movsq_inst := no_operands encode_rep_movsq
def encode_wrmsr_inst := no_operands encode_wrmsr
def encode_rdmsr_inst := no_operands encode_rdmsr
def encode_xgetbv_inst := no_operands [0x0F, 0x01, 0xD0]
def encode_xsetbv_inst := no_operands [0x0F, 0x01, 0xD1]
def encode_iret_inst := no_operands encode_iret
def encode_iretq_inst := no_operands encode_iretq
def encode_sysret_inst := no_operands encode_sysret
def encode_syscall_inst := no_operands encode_syscall
def encode_rdtsc_inst := no_operands encode_rdtsc
def encode_mfence_inst := no_operands mfence
def encode_sfence_inst := no_operands sfence
def encode_lfence_inst := no_operands lfence
def encode_pause_inst := no_operands pause
def encode_wbinvd_inst := no_operands wbinvd
def encode_invd_inst := no_operands invd

/-! ## Cache, ports, interrupts, TLB -/

def encode_fxsave_inst := one_mem fxsave_mem_base_disp
def encode_fxrstor_inst := one_mem fxrstor_mem_base_disp
def encode_xsaveopt_inst := one_mem xsaveopt_mem_base_disp
def encode_xrstor_inst := one_mem xrstor_mem_base_disp
def encode_clflush_inst := one_mem clflush_mem_base_disp
def encode_clflushopt_inst := one_mem clflushopt_mem_base_disp
def encode_prefetchnta_inst := one_mem prefetchnta_mem_base_disp
def encode_prefetcht0_inst := one_mem prefetcht0_mem_base_disp
def encode_prefetcht1_inst := one_mem prefetcht1_mem_base_disp
def encode_prefetcht2_inst := one_mem prefetcht2_mem_base_disp

/-- `in` and `out` take the accumulator only. -/
def port (bytes : List UInt8) (inst : Instruction) : Emit Unit :=
  match inst.operands with
  | [.Reg reg] => if reg.num ≠ 0 then .fail (.OperandShape inst.mnemonic) else .push bytes
  | [_] => .fail (.OperandShape inst.mnemonic)
  | ops => .fail (.OperandCount inst.mnemonic 1 ops.length)

def encode_in (inst : Instruction) (width : UInt8) : Emit Unit := port (encode_in_dx width) inst
def encode_out (inst : Instruction) (width : UInt8) : Emit Unit := port (encode_out_dx width) inst

/-- A negative operand passes the check. -/
def encode_int (inst : Instruction) : Emit Unit :=
  match inst.operands with
  | [.Imm64 imm] =>
    if 255 < imm.toInt then .fail (.Unsupported "int operand > u8") else .push (encode_int_imm8 imm)
  | ops => .fail (.OperandCount .Int 1 ops.length)

def encode_invlpg_inst (inst : Instruction) : Emit Unit :=
  match inst.operands with
  | [.MemSib base none .X1 disp] => do Emit.push (encode_invlpg (← reg64_from base) disp)
  | [_] => .fail (.OperandShape .Invlpg)
  | ops => .fail (.OperandCount .Invlpg 1 ops.length)

def encode_invpcid_inst (inst : Instruction) : Emit Unit :=
  match inst.operands with
  | [.Reg reg, .MemSib base none .X1 disp] => do
    Emit.push (invpcid_reg_mem_base_disp (← reg64_from reg) (← reg64_from base) disp)
  | [_, _] => .fail (.OperandShape .Invpcid)
  | ops => .fail (.OperandCount .Invpcid 2 ops.length)

/-! ## `descriptor.rs` -/

/-- The symbolic form: `0F 01 /digit` with an `r/m` of 5. -/
def descriptor_sym (digit : UInt8) (out : EncodeOutput) : Emit EncodeOutput :=
  sited [0x0F, 0x01, (0x05 : UInt8) ||| (digit <<< 3), 0, 0, 0, 0] out

/-- What `lgdt` and `lidt` share. -/
def descriptor_shapes (digit : UInt8) (inst : Instruction) : Emit EncodeOutput :=
  match inst.operands with
  | [.MemSib base none .X1 disp] => plain do
    Emit.push (encode_descriptor_table_load (← reg64_from base) disp digit)
  | [.SymbolRef name addend] => descriptor_sym digit (pc_site 3 name .PcRel32 addend)
  | [.MemRipRelSym name addend] => descriptor_sym digit (pc_site 3 name .PcRel32 addend)
  | [.MemSib _ (some _) _ _] => .fail (.Unsupported "lgdt/lidt indexed form")
  | _ => .fail (.OperandShape inst.mnemonic)

/-- Only `lgdt` has an absolute form for 32-bit mode. -/
def encode_lgdt_inst (inst : Instruction) : Emit EncodeOutput :=
  match inst.mode, inst.operands with
  | .Mode32, [.SymbolRef name addend] => descriptor_sym 2 (abs_site 3 name addend)
  | _, _ => descriptor_shapes 2 inst

def encode_lidt_inst (inst : Instruction) : Emit EncodeOutput := descriptor_shapes 3 inst

/-! ## `sse.rs` -/

/-- `xmm_id_from_regid(id).ok_or(OperandShape)`. -/
def xmm_operand (mnemonic : Mnemonic) (r : RegId) : Emit UInt8 :=
  match xmm_id_from_regid r.num with
  | some x => pure x
  | none => .fail (.OperandShape mnemonic)

/-- Only ids below 16. -/
def gpr_operand (mnemonic : Mnemonic) (r : RegId) : Emit UInt8 :=
  if 16 ≤ r.num then .fail (.OperandShape mnemonic) else pure r.num

/-- Two vector registers. -/
def encode_sse_xmm_xmm (inst : Instruction) (mnemonic : Mnemonic) (pre : Option UInt8)
    (opcode : UInt8) : Emit Unit :=
  match inst.operands with
  | [.Reg dst, .Reg src] => do
    let dst_xmm ← xmm_operand mnemonic dst
    let src_xmm ← xmm_operand mnemonic src
    Emit.push (encode_xmm_xmm pre opcode dst_xmm src_xmm)
  | _ => .fail (.OperandShape mnemonic)

/-- From a general register to a vector register. -/
def encode_cvtsi2s_inst (inst : Instruction) (mnemonic : Mnemonic) (pre : UInt8) : Emit Unit :=
  match inst.operands with
  | [.Reg dst, .Reg src] => do
    let dst_xmm ← xmm_operand mnemonic dst
    let src_gpr ← gpr_operand mnemonic src
    Emit.push (encode_cvtsi2s pre dst_xmm src_gpr)
  | _ => .fail (.OperandShape mnemonic)

/-- From a vector register to a general register. -/
def encode_cvtts2si_inst (inst : Instruction) (mnemonic : Mnemonic) (pre : UInt8) : Emit Unit :=
  match inst.operands with
  | [.Reg dst, .Reg src] => do
    let dst_gpr ← gpr_operand mnemonic dst
    let src_xmm ← xmm_operand mnemonic src
    Emit.push (encode_cvtts2si pre dst_gpr src_xmm)
  | _ => .fail (.OperandShape mnemonic)

/-- `movd` and `movq` between a general and a vector register. -/
def bitcast (rex_w : Bool) (mnemonic : Mnemonic) (to_xmm : Bool) (inst : Instruction) : Emit Unit :=
  match inst.operands with
  | [.Reg dst, .Reg src] =>
    if to_xmm then do
      let xmm ← xmm_operand mnemonic dst
      let gpr ← gpr_operand mnemonic src
      Emit.push (encode_movd_movq_bitcast rex_w to_xmm xmm gpr)
    else do
      let gpr ← gpr_operand mnemonic dst
      let xmm ← xmm_operand mnemonic src
      Emit.push (encode_movd_movq_bitcast rex_w to_xmm xmm gpr)
  | _ => .fail (.OperandShape mnemonic)

def encode_movd_bitcast_inst (inst : Instruction) (to_xmm : Bool) : Emit Unit :=
  bitcast false (.MovdBitcast to_xmm) to_xmm inst
def encode_movq_bitcast_inst (inst : Instruction) (to_xmm : Bool) : Emit Unit :=
  bitcast true (.MovqBitcast to_xmm) to_xmm inst

/-! ## `avx.rs` -/

def encode_vpxor (inst : Instruction) : Emit Unit :=
  match inst.operands with
  | [.Reg dst, .Reg src1, .Reg src2] => encode_vpxor_reg_reg_reg dst.num src1.num src2.num
  | _ => .fail (.OperandShape .Vpxor)

def encode_vpcmpeqb (inst : Instruction) : Emit Unit :=
  match inst.operands with
  | [.Reg dst, .Reg src1, .Reg src2] => encode_vpcmpeqb_reg_reg_reg dst.num src1.num src2.num
  | _ => .fail (.OperandShape .Vpcmpeqb)

def encode_vpmovmskb (inst : Instruction) : Emit Unit :=
  match inst.operands with
  | [.Reg dst, .Reg src] => encode_vpmovmskb_reg32_ymm dst.num src.num
  | _ => .fail (.OperandShape .Vpmovmskb)

/-- The displacement of a symbolic form is 0, and its site stands where the
byte encoder put it. -/
def vmovdqu_sym (x : Emit Nat) (name : String) (addend : Int32) : Emit EncodeOutput := do
  let disp_at ← x
  return pc_site disp_at name .PcRel32 addend

/-- At most one operand is in memory. -/
def encode_vmovdqu (inst : Instruction) (is_store : Bool) : Emit EncodeOutput :=
  match inst.operands, is_store with
  | [.Reg dst, .Reg src], _ => plain (encode_vmovdqu_ymm_ymm dst.num src.num)
  | [.Reg dst, .MemSib base none .X1 disp], false =>
    plain (encode_vmovdqu_ymm_mem dst.num base.num disp)
  | [.MemSib base none .X1 disp, .Reg src], true =>
    plain (encode_vmovdqu_mem_ymm base.num disp src.num)
  | [.Reg dst, .MemRipRelSym name addend], false =>
    vmovdqu_sym (encode_vmovdqu_ymm_riprel dst.num 0) name addend
  | [.Reg dst, .MemRipRel disp], false => plain do
    let _ ← encode_vmovdqu_ymm_riprel dst.num disp
  | [.MemRipRelSym name addend, .Reg src], true =>
    vmovdqu_sym (encode_vmovdqu_riprel_ymm 0 src.num) name addend
  | [.MemRipRel disp, .Reg src], true => plain do
    let _ ← encode_vmovdqu_riprel_ymm disp src.num
  | _, _ => .fail (.OperandShape (.Vmovdqu is_store))

/-! ## The dispatcher -/

/-- One arm for each mnemonic. -/
def encode_instruction_impl (inst : Instruction) : Emit EncodeOutput :=
  match inst.mnemonic with
  | .Mov => encode_mov inst
  | .Add => plain (encode_add inst)
  | .Sub => plain (encode_sub inst)
  | .Adc width => plain (encode_adc inst width)
  | .Sbb width => plain (encode_sbb inst width)
  | .Popcnt width => plain (encode_popcnt inst width)
  | .Crc32 width => plain (encode_crc32 inst width)
  | .Bsf width => plain (encode_bsf inst width)
  | .Bsr width => plain (encode_bsr inst width)
  | .Tzcnt width => plain (encode_tzcnt inst width)
  | .Bt width => plain (encode_bt inst width)
  | .Bts width => plain (encode_bts inst width)
  | .Btr width => plain (encode_btr inst width)
  | .Btc width => plain (encode_btc inst width)
  | .Cmp => plain (encode_cmp inst)
  | .CmpSized width => plain (encode_cmp_sized inst width)
  | .Test => plain (encode_test inst)
  | .Jcc cond => encode_jcc cond inst
  | .Setcc cond => plain (encode_setcc cond inst)
  | .Jmp => encode_jmp inst
  | .Call => encode_call inst
  | .Ret => plain (encode_ret inst)
  | .RepMovsb => plain (encode_rep_movsb inst)
  | .Lea => encode_lea inst
  | .Cli => plain (encode_cli inst)
  | .Cld => plain (encode_cld inst)
  | .Sti => plain (encode_sti inst)
  | .Std => plain (encode_std inst)
  | .Hlt => plain (encode_hlt inst)
  | .Nop => plain (encode_nop inst)
  | .Endbr64 => plain (encode_endbr64 inst)
  | .Endbr32 => plain (encode_endbr32 inst)
  | .Swapgs => plain (encode_swapgs inst)
  | .Cpuid => plain (encode_cpuid inst)
  | .Ud2 => plain (encode_ud2 inst)
  | .In width => plain (encode_in inst width)
  | .Out width => plain (encode_out inst width)
  | .Wrmsr => plain (encode_wrmsr_inst inst)
  | .Rdmsr => plain (encode_rdmsr_inst inst)
  | .Int => plain (encode_int inst)
  | .MovCr write => plain (encode_mov_cr_inst inst write)
  | .MovDr write => plain (encode_mov_dr_inst inst write)
  | .Lgdt => encode_lgdt_inst inst
  | .Lidt => encode_lidt_inst inst
  | .Iret => plain (encode_iret_inst inst)
  | .Iretq => plain (encode_iretq_inst inst)
  | .Sysret => plain (encode_sysret_inst inst)
  | .Syscall => plain (encode_syscall_inst inst)
  | .RepStosq => plain (encode_rep_stosq_inst inst)
  | .RepStosb => plain (encode_rep_stosb_inst inst)
  | .RepMovsq => plain (encode_rep_movsq_inst inst)
  | .FarJmp => encode_far_jmp_inst inst
  | .Movzx => plain (encode_movzx inst)
  | .Movsx => plain (encode_movsx inst)
  | .Not => plain (encode_not inst)
  | .Bswap => plain (encode_bswap inst)
  | .Bswap32 => plain (encode_bswap32 inst)
  | .Push => plain (encode_push inst)
  | .Pop => plain (encode_pop inst)
  | .Pushfq => plain (encode_pushfq inst)
  | .Popfq => plain (encode_popfq inst)
  | .Int3 => plain (encode_int3 inst)
  | .MovSized width => encode_mov_sized inst width
  | .Shl => plain (encode_shl inst)
  | .Shr => plain (encode_shr inst)
  | .Sar => plain (encode_sar inst)
  | .Rol width => plain (encode_rol inst width)
  | .Ror width => plain (encode_ror inst width)
  | .Imul => plain (encode_imul inst)
  | .And => plain (encode_and inst)
  | .Or => plain (encode_or inst)
  | .Xor => plain (encode_xor inst)
  | .Invlpg => plain (encode_invlpg_inst inst)
  | .Invpcid => plain (encode_invpcid_inst inst)
  | .Rdtsc => plain (encode_rdtsc_inst inst)
  | .Div => plain (encode_div inst)
  | .Idiv => plain (encode_idiv inst)
  | .Mul => plain (encode_mul inst)
  | .Ltr => plain (encode_ltr inst)
  | .Xchg => plain (encode_xchg_inst inst)
  | .LockCmpxchg => plain (encode_lock_cmpxchg_inst inst)
  | .LockCmpxchg32 => plain (encode_lock_cmpxchg32_inst inst)
  | .LockCmpxchg16b => plain (encode_lock_cmpxchg16b_inst inst)
  | .LockXadd width => plain (encode_lock_xadd inst width)
  | .LockAdd width => plain (encode_lock_add inst width)
  | .LockSub width => plain (encode_lock_sub inst width)
  | .LockInc width => plain (encode_lock_inc inst width)
  | .LockBts width => plain (encode_lock_bts inst width)
  | .LockBtr width => plain (encode_lock_btr inst width)
  | .LockBtc width => plain (encode_lock_btc inst width)
  | .LockAnd width => plain (encode_lock_and inst width)
  | .LockOr width => plain (encode_lock_or inst width)
  | .LockXor width => plain (encode_lock_xor inst width)
  | .Mfence => plain (encode_mfence_inst inst)
  | .Sfence => plain (encode_sfence_inst inst)
  | .Lfence => plain (encode_lfence_inst inst)
  | .Pause => plain (encode_pause_inst inst)
  | .Wbinvd => plain (encode_wbinvd_inst inst)
  | .Invd => plain (encode_invd_inst inst)
  | .Fxsave => plain (encode_fxsave_inst inst)
  | .Fxrstor => plain (encode_fxrstor_inst inst)
  | .Xsaveopt => plain (encode_xsaveopt_inst inst)
  | .Xrstor => plain (encode_xrstor_inst inst)
  | .Xgetbv => plain (encode_xgetbv_inst inst)
  | .Xsetbv => plain (encode_xsetbv_inst inst)
  | .Clflush => plain (encode_clflush_inst inst)
  | .Clflushopt => plain (encode_clflushopt_inst inst)
  | .Prefetchnta => plain (encode_prefetchnta_inst inst)
  | .Prefetcht0 => plain (encode_prefetcht0_inst inst)
  | .Prefetcht1 => plain (encode_prefetcht1_inst inst)
  | .Prefetcht2 => plain (encode_prefetcht2_inst inst)
  | .Inc => plain (encode_inc inst)
  | .Dec => plain (encode_dec inst)
  | .Movnti width => plain (encode_movnti inst width)
  | .Vpxor => plain (encode_vpxor inst)
  | .Vpcmpeqb => plain (encode_vpcmpeqb inst)
  | .Vpmovmskb => plain (encode_vpmovmskb inst)
  | .Vmovdqu is_store => encode_vmovdqu inst is_store
  | .MovSd => plain (encode_sse_xmm_xmm inst .MovSd (some 0xF2) 0x10)
  | .MovSs => plain (encode_sse_xmm_xmm inst .MovSs (some 0xF3) 0x10)
  | .AddSd => plain (encode_sse_xmm_xmm inst .AddSd (some 0xF2) 0x58)
  | .AddSs => plain (encode_sse_xmm_xmm inst .AddSs (some 0xF3) 0x58)
  | .SubSd => plain (encode_sse_xmm_xmm inst .SubSd (some 0xF2) 0x5C)
  | .SubSs => plain (encode_sse_xmm_xmm inst .SubSs (some 0xF3) 0x5C)
  | .MulSd => plain (encode_sse_xmm_xmm inst .MulSd (some 0xF2) 0x59)
  | .MulSs => plain (encode_sse_xmm_xmm inst .MulSs (some 0xF3) 0x59)
  | .DivSd => plain (encode_sse_xmm_xmm inst .DivSd (some 0xF2) 0x5E)
  | .DivSs => plain (encode_sse_xmm_xmm inst .DivSs (some 0xF3) 0x5E)
  | .Sqrtsd => plain (encode_sse_xmm_xmm inst .Sqrtsd (some 0xF2) 0x51)
  | .Sqrtss => plain (encode_sse_xmm_xmm inst .Sqrtss (some 0xF3) 0x51)
  | .Ucomisd => plain (encode_sse_xmm_xmm inst .Ucomisd (some 0x66) 0x2E)
  | .Ucomiss => plain (encode_sse_xmm_xmm inst .Ucomiss none 0x2E)
  | .Comisd => plain (encode_sse_xmm_xmm inst .Comisd (some 0x66) 0x2F)
  | .Comiss => plain (encode_sse_xmm_xmm inst .Comiss none 0x2F)
  | .Cvtsi2sd => plain (encode_cvtsi2s_inst inst .Cvtsi2sd 0xF2)
  | .Cvtsi2ss => plain (encode_cvtsi2s_inst inst .Cvtsi2ss 0xF3)
  | .Cvttsd2si => plain (encode_cvtts2si_inst inst .Cvttsd2si 0xF2)
  | .Cvttss2si => plain (encode_cvtts2si_inst inst .Cvttss2si 0xF3)
  | .MovdBitcast to_xmm => plain (encode_movd_bitcast_inst inst to_xmm)
  | .MovqBitcast to_xmm => plain (encode_movq_bitcast_inst inst to_xmm)

/-- The first segment-prefixed operand: its place, its segment, and the
operand under the prefix. -/
def find_mem_seg : List Operand → Option (Nat × SegPrefix × Operand)
  | [] => none
  | .MemSeg seg inner :: _ => some (0, seg, inner)
  | _ :: rest => (find_mem_seg rest).map fun (idx, found) => (idx + 1, found)

/-- Offsets count from the start of the instruction, so a prefix byte in front
moves them. -/
def EncodeOutput.shift (out : EncodeOutput) (prefix_bytes : Nat) : EncodeOutput where
  reloc_sites := out.reloc_sites.map fun r => { r with byte_offset := r.byte_offset + prefix_bytes }
  label_fixups := out.label_fixups.map fun f =>
    { f with byte_offset := f.byte_offset + prefix_bytes,
             instruction_size := f.instruction_size + prefix_bytes }

/-- A segment prefix goes in front of all else. -/
def encode_instruction (inst : Instruction) : Emit EncodeOutput :=
  match find_mem_seg inst.operands with
  | some (idx, seg, inner) => do
    Emit.push [seg.byte]
    let output ← encode_instruction_impl { inst with operands := inst.operands.set idx inner }
    return output.shift 1
  | none => encode_instruction_impl inst

end paideia_as_encoder
