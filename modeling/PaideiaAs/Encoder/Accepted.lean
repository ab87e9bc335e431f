-- Which instructions the encoder refuses, told from the operands alone: the
-- shapes of each mnemonic, the registers they may name, and the range of an
-- immediate. A panic is not a refusal.
import PaideiaAs.Encoder.AllOrNothing

namespace paideia_as_encoder

open paideia_as_runtime Emit
open Bool (and_eq_true)

/-! ## Operands -/

/-- A general register. -/
def general (r : RegId) : Bool := r.num < 16

/-- An immediate that does not fit goes through `r11`, which the operand must
not use then. -/
def staged (r : RegId) (imm : Int64) : Bool := general r && (fits_i32 imm || r.num != 11)

/-- A vector register of 128 bits. -/
def xmm (r : RegId) : Bool := 53 ≤ r.num && r.num ≤ 68

/-- Operands that no arm takes are refused, unless one is a variable. -/
def no_shape (operands : List Operand) : Bool := operands.any (·.isVar)

/-! ## Shapes shared by several mnemonics -/

/-- One general register. -/
def takes_reg : List Operand → Bool
  | [.Reg r] => general r
  | _ => false

/-- One address without an index. -/
def takes_mem : List Operand → Bool
  | [.MemSib base none .X1 _] => general base
  | _ => false

def takes_mem_reg : List Operand → Bool
  | [.MemSib base none .X1 _, .Reg src] => general base && general src
  | _ => false

def takes_reg_mem : List Operand → Bool
  | [.Reg dest, .Reg src] => general dest && general src
  | [.Reg dest, .MemSib base none _ _] => general dest && general base
  | _ => false

/-- `add` and `sub`. -/
def takes_sum : List Operand → Bool
  | [.Reg dest, .Reg src] => general dest && general src
  | [.Reg dest, .MemSib base none _ _] => general dest && general base
  | [.Reg dest, .MemSib base (some index) _ _] => general dest && general base && general index
  | [.Reg dest, .Imm64 imm] => staged dest imm
  | _ => false

/-- `and`, `or` and `xor`. -/
def takes_logic : List Operand → Bool
  | [.Reg dst, .Reg src] => general dst && general src
  | [.Reg dst, .Imm64 imm] => staged dst imm
  | [.Reg dst, .MemSib base none _ _] => general dst && general base
  | ops => no_shape ops

/-- `adc`. -/
def takes_carry : List Operand → Bool
  | [.Reg dest, .Reg src] => general dest && general src
  | [.Reg dest, .MemSib base none _ _] => general dest && general base
  | [.Reg dest, .Imm64 imm] => fits_i32 imm && general dest
  | _ => false

/-- The bit tests. -/
def takes_bit : List Operand → Bool
  | [.Reg bitmap, .Reg index] => general bitmap && general index
  | [.MemSib base none _ _, .Reg index_reg] => general base && general index_reg
  | _ => false

/-- The shifts. -/
def takes_shift : List Operand → Bool
  | [.Reg dst, .Imm64 _] => general dst
  | [.Reg dst, .Reg src] => general dst && src.num == 1
  | _ => false

/-- The rotations. -/
def takes_rotation : List Operand → Bool
  | [.Reg dst, .Imm64 imm] => general dst && fits_i8 imm
  | [.Reg dst, .Reg src] => general dst && src.num == 1
  | _ => false

/-- `in` and `out`. -/
def takes_port : List Operand → Bool
  | [.Reg reg] => reg.num == 0
  | _ => false

def takes_xmm_xmm : List Operand → Bool
  | [.Reg dst, .Reg src] => xmm dst && xmm src
  | _ => false

def takes_xmm_reg : List Operand → Bool
  | [.Reg dst, .Reg src] => xmm dst && general src
  | _ => false

def takes_reg_xmm : List Operand → Bool
  | [.Reg dst, .Reg src] => general dst && xmm src
  | _ => false

def takes_two_regs : List Operand → Bool
  | [.Reg _, .Reg _] => true
  | _ => false

def takes_three_regs : List Operand → Bool
  | [.Reg _, .Reg _, .Reg _] => true
  | _ => false

/-- A locked operation on `[base + disp]` by a register or an immediate in a
range. -/
def takes_lock (range : Int64 → Bool) : List Operand → Bool
  | [.MemSib base none .X1 _, .Reg src] => general base && general src
  | [.MemSib base none .X1 _, .Imm64 imm] => general base && range imm
  | _ => false

/-- `lgdt` and `lidt`. -/
def takes_descriptor : List Operand → Bool
  | [.MemSib base none .X1 _] => general base
  | [.SymbolRef _ _] | [.MemRipRelSym _ _] => true
  | _ => false

/-! ## Shapes of one mnemonic -/

/-- `mov`, in both modes. -/
def takes_mov_both : List Operand → Bool
  | [.Reg dest, .Reg src] => general dest && general src
  | [.Reg dest, .Imm64 _] => general dest
  | [.Reg dest, .MemSib base none .X1 _] => general dest && general base
  | [.MemSib base none .X1 _, .Reg src] => general base && general src
  | [.Reg dest, .MemSib base (some index) _ _] => general dest && general base && general index
  | [.MemSib base (some index) _ _, .Reg src] => general base && general index && general src
  | [.MemSib base none .X1 _, .Imm64 imm] => staged base imm
  | [.MemSib base (some idx) _ _, .Imm64 imm] => staged base imm && staged idx imm
  | [.MemRipRelSym _ _, .Imm64 imm] => fits_i32 imm
  | [.Reg dest, .MemDisp _] => general dest
  | [.MemDisp _, .Reg src] => general src
  | [.MemDisp _, .Imm64 _] => true
  | [.Reg dest, .SymbolRef _ _] => general dest
  | [.SymbolRef _ _, .Reg src] => general src
  | [.Reg dest, .MemRipRelSym _ _] => general dest
  | [.MemRipRelSym _ _, .Reg src] => general src
  | ops => no_shape ops

def takes_mov_generic (mode : InstrMode) : List Operand → Bool
  | [.SegReg _, .Reg src] => general src
  | [.Reg dst, .Imm64 imm] => general dst && (mode == .Mode64 || fits_32 imm)
  | [.SymbolRef _ _, .Imm64 imm] => mode == .Mode32 && fits_32 imm
  | ops => takes_mov_both ops

/-- One control or debug register, and one general register. -/
def special (d s : RegId) : Bool :=
  (is_control_register d || is_debug_register d) && is_general_purpose_register s ||
    (is_control_register s || is_debug_register s) && is_general_purpose_register d

def takes_mov (mode : InstrMode) : List Operand → Bool
  | .Reg d :: .Reg s :: rest =>
    if special d s then rest.isEmpty else takes_mov_generic mode (.Reg d :: .Reg s :: rest)
  | .Var _ :: _ :: _ => true
  | _ :: .Var _ :: _ => true
  | ops => takes_mov_generic mode ops

def takes_mov_sized (mode : InstrMode) (width : IntWidth) : List Operand → Bool
  | [.Reg dst, .Imm64 _] => general dst && !(width == .W64 && mode == .Mode32)
  | [.Reg dst, .MemSib base none _ _] => general dst && general base
  | [.Reg dst, .MemSib base (some index) _ _] => general dst && general base && general index
  | [.MemSib base none _ _, .Imm64 imm] => general base && (width != .W64 || fits_i32 imm)
  | [.MemSib base none .X1 _, .Reg src] => general base && general src
  | [.MemSib base (some idx) _ _, .Reg src] => general base && general idx && general src
  | [.MemSib base (some idx) _ _, .Imm64 imm] =>
    general base && general idx && (width != .W64 || fits_i32 imm)
  | [.Reg _, .MemRipRel _] => true
  | [.Reg _, .MemRipRelSym _ _] => true
  | [.MemRipRelSym _ _, .Reg _] => true
  | [.Reg dst, .MemDisp _] => general dst
  | [.MemDisp _, .Reg src] => general src
  | [.MemDisp _, .Imm64 imm] => width != .W64 || fits_i32 imm
  | ops => no_shape ops

def takes_movnti (width : IntWidth) : List Operand → Bool
  | [.MemSib base none .X1 _, .Reg src] =>
    general base && general src && (width == .W32 || width == .W64)
  | [.MemSib base (some index) _ _, .Reg src] =>
    general base && general index && general src && (width == .W32 || width == .W64)
  | _ => false

/-- `movzx` and `movsx`; a register source may have other widths than memory. -/
def takes_extend (reg_widths mem_widths : List UInt8) (src_width : UInt8) : List Operand → Bool
  | [.Reg dest, .Reg src] =>
    general dest && general src && (reg_widths.isEmpty || reg_widths.contains src_width)
  | [.Reg dest, .MemSib base none _ _] =>
    general dest && general base && mem_widths.contains src_width
  | _ => false

def takes_lea (mode : InstrMode) : List Operand → Bool
  | [.Reg dest, .MemSib base none .X1 _] => general dest && general base
  | [.Reg dest, .MemSib base (some index) _ _] => general dest && general base && general index
  | [.Reg dest, .SymbolRef _ addend] =>
    general dest && (mode == .Mode32 || !decide (AddendTooLow addend))
  | [.Reg dest, .MemRipRelSym _ addend] => general dest && !decide (AddendTooLow addend)
  | _ => false

/-- `or` with an immediate in 32-bit mode. -/
def takes_or_mode32 : List Operand → Bool
  | [.Reg dst, .Imm64 imm] =>
    general dst && (-2147483648 ≤ imm.toInt && imm.toInt ≤ 4294967295)
  | ops => takes_logic ops

def takes_imul : List Operand → Bool
  | [.Reg dst, .Reg src] => general dst && general src
  | [.Reg dst, .Reg src, .Imm64 imm] => general dst && general src && fits_i32 imm
  | [.Reg dst, .MemSib base none _ _] => general dst && general base
  | ops => no_shape ops

def takes_cmp : List Operand → Bool
  | [.Reg dest, .Reg src] => general dest && general src
  | [.MemSib base none .X1 _, .Reg src] => general base && general src
  | [.Reg dest, .Imm64 imm] => staged dest imm
  | _ => false

def takes_cmp_sized (width : IntWidth) (operands : List Operand) : Bool :=
  match width, operands with
  | .W64, _ => takes_cmp operands
  | .W8, [.Reg _, .Imm64 imm] => fits_i8 imm
  | .W16, [.Reg _, .Imm64 imm] => -32768 ≤ imm.toInt && imm.toInt ≤ 32767
  | .W32, [.Reg _, .Imm64 imm] => fits_i32 imm
  | _, [.Reg _, .Reg _] => true
  | _, [.MemSib _ none .X1 _, .Reg _] => true
  | _, _ => false

def takes_test : List Operand → Bool
  | [.Reg dest, .Reg src] => general dest && general src
  | [.Reg dest, .Imm64 imm] => general dest && fits_i32 imm
  | _ => false

/-- The 16-bit rotation takes any register id. -/
def takes_rol_w16 : List Operand → Bool
  | [.Reg _, .Imm64 imm] => fits_i8 imm
  | [.Reg _, .Reg src] => src.num == 1
  | _ => false

def takes_push : List Operand → Bool
  | [.Reg src] => general src
  | [.Imm64 imm] => fits_i32 imm
  | _ => false

/-- `lock add` also takes an absolute address. -/
def takes_lock_add : List Operand → Bool
  | [.MemDisp _, .Imm64 imm] => fits_i32 imm
  | ops => takes_lock fits_i32 ops

/-- An absolute address. -/
def takes_abs : List Operand → Bool
  | [.MemDisp _] => true
  | _ => false

/-- A distance or a label. -/
def takes_jcc : List Operand → Bool
  | [.Imm64 _] | [.LabelRef _ _] => true
  | _ => false

def takes_setcc : List Operand → Bool
  | [.Reg _] => true
  | _ => false

def takes_jmp : List Operand → Bool
  | [.Imm64 _] | [.LabelRef _ _] | [.SymbolRef _ _] => true
  | [.MemSymIndexed _ _ index _] => general index && index.num != 4
  | [.MemDispIndexed _ index _] => general index && index.num != 4
  | [.Reg r] => general r
  | _ => false

def takes_call : List Operand → Bool
  | [.Imm64 _] | [.SymbolRef _ _] | [.MemRipRel _] | [.MemRipRelSym _ _] => true
  | [.Reg r] => general r
  | [.MemSib base none .X1 _] => general base
  | [.MemSib base (some idx) _ _] => general base && general idx
  | _ => false

/-- A pointer in memory, or selector and offset. -/
def takes_far_jmp : List Operand → Bool
  | [.MemSib base none .X1 _] => general base
  | [.MemRipRel _] | [.Imm64 _, .Imm64 _] | [.Imm64 _, .SymbolRef _ _] => true
  | _ => false

/-- The vector; a negative one is cut. -/
def takes_int : List Operand → Bool
  | [.Imm64 imm] => imm.toInt ≤ 255
  | _ => false

def takes_invpcid : List Operand → Bool
  | [.Reg reg, .MemSib base none .X1 _] => general reg && general base
  | _ => false

def takes_mov_cr (write : Bool) : List Operand → Bool
  | [.Reg first, .Reg second] =>
    let (cr_idx, gpr_idx) := if write then (first.num, second.num) else (second.num, first.num)
    [0, 2, 3, 4, 8].contains cr_idx && gpr_idx ≤ 15
  | _ => false

def takes_mov_dr (write : Bool) : List Operand → Bool
  | [.Reg first, .Reg second] =>
    let (dr_idx, gpr_idx) := if write then (first.num, second.num) else (second.num, first.num)
    dr_idx ≤ 7 && gpr_idx ≤ 15
  | _ => false

/-- The flag of the mnemonic says which side is the memory. -/
def takes_vmovdqu (is_store : Bool) : List Operand → Bool
  | [.Reg _, .Reg _] => true
  | [.Reg _, .MemSib _ none .X1 _] | [.Reg _, .MemRipRelSym _ _] | [.Reg _, .MemRipRel _] =>
    !is_store
  | [.MemSib _ none .X1 _, .Reg _] | [.MemRipRelSym _ _, .Reg _] | [.MemRipRel _, .Reg _] =>
    is_store
  | _ => false

/-- The widths of an operation that exists at 32 and 64 bits only. -/
def wide32 (width : IntWidth) : Bool := width == .W32 || width == .W64

def takes (inst : Instruction) : Bool :=
  let ops := inst.operands
  let src_width := (inst.encoding_hint.map (·.operand_size)).getD
  match inst.mnemonic with
  | .Mov => takes_mov inst.mode ops
  | .MovSized width => takes_mov_sized inst.mode width ops
  | .MovCr write => takes_mov_cr write ops
  | .MovDr write => takes_mov_dr write ops
  | .Movnti width => takes_movnti width ops
  | .Movzx => takes_extend [] [1, 2] (src_width 1) ops
  | .Movsx => takes_extend [1, 2, 4] [1, 2, 4] (src_width 4) ops
  | .Lea => takes_lea inst.mode ops
  | .Add | .Sub => takes_sum ops
  | .Adc width => wide32 width && takes_carry ops
  | .Sbb width | .Popcnt width => wide32 width && takes_reg_mem ops
  | .Crc32 width | .Bsf width | .Bsr width | .Tzcnt width => width == .W64 && takes_reg_mem ops
  | .Bt width | .Bts width | .Btr width | .Btc width => wide32 width && takes_bit ops
  | .And | .Xor => takes_logic ops
  | .Or => if inst.mode = .Mode32 then takes_or_mode32 ops else takes_logic ops
  | .Imul => takes_imul ops
  | .Cmp => takes_cmp ops
  | .CmpSized width => takes_cmp_sized width ops
  | .Test => takes_test ops
  | .Shl | .Shr | .Sar => takes_shift ops
  | .Rol width =>
    match width with
    | .W64 | .W32 => takes_rotation ops
    | .W16 => takes_rol_w16 ops
    | .W8 => false
  | .Ror width => wide32 width && takes_rotation ops
  | .Not | .Bswap | .Bswap32 | .Div | .Idiv | .Mul | .Inc | .Dec | .Ltr => takes_reg ops
  | .Push => inst.mode == .Mode64 && takes_push ops
  | .Pop => inst.mode == .Mode64 && takes_reg ops
  | .Xchg | .LockCmpxchg | .LockCmpxchg32 => takes_mem_reg ops
  | .LockCmpxchg16b | .Fxsave | .Fxrstor | .Xsaveopt | .Xrstor | .Clflush | .Clflushopt
  | .Prefetchnta | .Prefetcht0 | .Prefetcht1 | .Prefetcht2 | .Invlpg => takes_mem ops
  | .LockXadd width => wide32 width && takes_mem_reg ops
  | .LockAdd width => wide32 width && takes_lock_add ops
  | .LockSub width => wide32 width && takes_lock fits_i32 ops
  | .LockInc width => wide32 width && takes_abs ops
  | .LockBts width | .LockBtr width | .LockBtc width =>
    width == .W64 && takes_lock (fun imm => 0 ≤ imm.toInt && imm.toInt ≤ 255) ops
  | .LockAnd width | .LockOr width | .LockXor width => width == .W64 && takes_mem_reg ops
  | .Jcc _ => takes_jcc ops
  | .Setcc _ => takes_setcc ops
  | .Jmp => takes_jmp ops
  | .Call => takes_call ops
  | .FarJmp => takes_far_jmp ops
  | .Int => takes_int ops
  | .In _ | .Out _ => takes_port ops
  | .Lgdt | .Lidt => takes_descriptor ops
  | .Invpcid => takes_invpcid ops
  | .Vpxor | .Vpcmpeqb => takes_three_regs ops
  | .Vpmovmskb => takes_two_regs ops
  | .Vmovdqu is_store => takes_vmovdqu is_store ops
  | .MovSd | .MovSs | .AddSd | .AddSs | .SubSd | .SubSs | .MulSd | .MulSs | .DivSd | .DivSs
  | .Sqrtsd | .Sqrtss | .Ucomisd | .Ucomiss | .Comisd | .Comiss => takes_xmm_xmm ops
  | .Cvtsi2sd | .Cvtsi2ss => takes_xmm_reg ops
  | .Cvttsd2si | .Cvttss2si => takes_reg_xmm ops
  | .MovdBitcast to_xmm | .MovqBitcast to_xmm =>
    if to_xmm then takes_xmm_reg ops else takes_reg_xmm ops
  | .Ret | .RepMovsb | .RepMovsq | .RepStosb | .RepStosq | .Cli | .Cld | .Sti | .Std | .Hlt | .Nop
  | .Endbr64 | .Endbr32 | .Swapgs | .Cpuid | .Ud2 | .Wrmsr | .Rdmsr | .Iret | .Iretq | .Sysret
  | .Syscall | .Pushfq | .Popfq | .Int3 | .Rdtsc | .Mfence | .Sfence | .Lfence | .Pause | .Wbinvd
  | .Invd | .Xgetbv | .Xsetbv => ops.isEmpty

/-! ## What a call refuses -/

section

variable {α β : Type}

theorem pure_bind' (a : α) (f : α → Emit β) : (pure a >>= f) = f a := rfl

theorem accepts_ite_iff (c : Prop) [Decidable c] (x y : Emit α) :
    (if c then x else y).Accepts ↔ (c → x.Accepts) ∧ (¬ c → y.Accepts) := by
  split_ifs with h <;> simp [h]

@[simp] theorem accepts_push_bind (bs : List UInt8) (f : Unit → Emit β) :
    (push bs >>= f).Accepts ↔ (f ()).Accepts :=
  Iff.rfl

@[simp] theorem accepts_fail_iff (e : EncodeError) : (fail e : Emit α).Accepts ↔ False :=
  iff_of_false (fun h => h e rfl) id

/-- The register of an id below 16. -/
def asReg (id : RegId) : Reg64 := (Reg64.all.find? (·.id == id.num)).getD .Rax

theorem reg64_from_general {id : RegId} (h : general id = true) :
    reg64_from id = ⟨[], .ok (asReg id)⟩ ∧ (asReg id).id = id.num := by
  obtain ⟨r, hid, hr⟩ := reg64_from_of_lt (of_decide_eq_true h)
  have hreg : asReg id = r := by
    unfold asReg
    unfold reg64_from at hr
    split at hr
    · rename_i s hs
      rw [hs]
      exact Except.ok.inj (congrArg Emit.result hr)
    · cases congrArg Emit.result hr
  rw [hreg]
  exact ⟨hr, hid⟩

@[simp] theorem accepts_reg64_from_bind (id : RegId) (f : Reg64 → Emit β) :
    (reg64_from id >>= f).Accepts ↔ general id = true ∧ (f (asReg id)).Accepts := by
  by_cases hg : general id = true
  · rw [(reg64_from_general hg).1, nil_ok_bind]
    simp [hg]
  · have hle : ¬ id.num < 16 := fun h => hg (decide_eq_true h)
    rw [reg64_from_of_le hle]
    exact iff_of_false (fun h => h _ rfl) fun h => hg h.1

theorem asReg_eq_iff {id : RegId} (h : general id = true) (r : Reg64) :
    asReg id = r ↔ id.num = r.id := by
  rw [← (reg64_from_general h).2]
  exact ⟨fun h => h ▸ rfl, Reg64.id_inj⟩

@[simp] theorem accepts_sited (bs : List UInt8) (out : EncodeOutput) : (sited bs out).Accepts :=
  (accepts_push bs).bind fun _ => accepts_pure _

@[simp] theorem accepts_xmm_operand_bind (mnemonic : Mnemonic) (r : RegId) (f : UInt8 → Emit β) :
    (xmm_operand mnemonic r >>= f).Accepts ↔ xmm r = true ∧ (f (r.num - 53)).Accepts := by
  unfold xmm_operand xmm_id_from_regid xmm
  by_cases h : 53 ≤ r.num ∧ r.num ≤ 68
  · rw [if_pos h]
    simp [h, pure_bind']
  · rw [if_neg h]
    refine iff_of_false (fun h => h _ rfl) fun hx => h ?_
    simpa using hx.1

@[simp] theorem accepts_gpr_operand_bind (mnemonic : Mnemonic) (r : RegId) (f : UInt8 → Emit β) :
    (gpr_operand mnemonic r >>= f).Accepts ↔ general r = true ∧ (f r.num).Accepts := by
  unfold gpr_operand general
  by_cases h : 16 ≤ r.num
  · rw [if_pos h]
    refine iff_of_false (fun h => h _ rfl) fun hx => ?_
    exact absurd h (UInt8.not_le.mpr (of_decide_eq_true hx.1))
  · rw [if_neg h]
    simp [UInt8.not_le.mp h, pure_bind']

end

/-! ## The families -/

section

variable {inst : Instruction} {width : IntWidth}

theorem fits_i32_of_i8 {imm : Int64} (h : fits_i8 imm = true) : fits_i32 imm = true := by
  unfold fits_i8 at h
  unfold fits_i32
  simp only [and_eq_true, decide_eq_true_eq] at h ⊢
  omega

theorem in_range_of_i8 {imm : Int64} (h : fits_i8 imm = true) :
    -2147483648 ≤ imm.toInt ∧ imm.toInt ≤ 4294967295 := by
  unfold fits_i8 at h
  simp only [and_eq_true, decide_eq_true_eq] at h
  omega

theorem checks_immForms (f : ImmForms) (dst : RegId) (imm : Int64) :
    (f.encode dst imm).Checks (staged dst imm = true) := by
  unfold ImmForms.encode staged
  constructor
  · apply allOrNothing_reg64_from
    intro r
    split_ifs
    · exact allOrNothing_push _
    · exact allOrNothing_push _
    · exact allOrNothing_stage
  · rw [accepts_reg64_from_bind, and_eq_true]
    apply and_congr_right
    intro hg
    split_ifs with h8 h32
    · simp [fits_i32_of_i8 h8]
    · simp [h32]
    · have h11 := asReg_eq_iff hg .R11
      unfold stage_imm64_r11
      split_ifs with hr
      · refine iff_of_false (fun h => h _ rfl) ?_
        simp [h32, h11.mp hr, Reg64.id]
      · refine iff_of_true nofun ?_
        rw [h11] at hr
        simpa [h32, Reg64.id] using hr

theorem checks_no_arm (operands : List Operand) (msg : String) :
    (no_arm operands msg).Checks (no_shape operands = true) := by
  unfold no_arm no_shape
  split <;> simp_all

theorem checks_no_operands (bytes : List UInt8) :
    (no_operands bytes inst).Checks (inst.operands.isEmpty = true) := by
  unfold no_operands
  split <;> simp_all

theorem checks_bare_opcode (byte : UInt8) :
    (bare_opcode byte inst).Checks (inst.operands.isEmpty = true) := by
  unfold bare_opcode
  split <;> simp_all

theorem checks_one_reg (bytes : Reg64 → List UInt8) :
    (one_reg bytes inst).Checks (takes_reg inst.operands = true) := by
  unfold one_reg takes_reg
  split <;> simp_all

theorem checks_one_mem (bytes : Reg64 → Int32 → List UInt8) :
    (one_mem bytes inst).Checks (takes_mem inst.operands = true) := by
  unfold one_mem takes_mem
  split <;> simp_all

theorem checks_mem_reg (bytes : Reg64 → Int32 → Reg64 → List UInt8) :
    (mem_reg bytes inst).Checks (takes_mem_reg inst.operands = true) := by
  unfold mem_reg takes_mem_reg
  split <;> simp_all

theorem checks_port (bytes : List UInt8) :
    (port bytes inst).Checks (takes_port inst.operands = true) := by
  unfold port takes_port
  split
  · split_ifs <;> simp_all
  · simp_all
  · simp_all

theorem checks_regMem (f : RegMemForms) : (f.encode inst width).Checks
      ((width = .W64 ∨ width = .W32 ∧ f.w32.isSome) ∧ takes_reg_mem inst.operands = true) := by
  have hshapes : ∀ reg mem, (RegMemForms.shapes inst reg mem).Checks
      (takes_reg_mem inst.operands = true) := by
    intro reg mem
    unfold RegMemForms.shapes takes_reg_mem
    split <;> simp_all
  unfold RegMemForms.encode
  split
  · exact (hshapes _ _).congr (by simp)
  · rename_i hw
    exact (hshapes _ _).congr (by simp [hw])
  · rename_i h64 h32
    apply fail_checks
    rintro ⟨rfl | ⟨rfl, hs⟩, -⟩
    · exact h64 rfl
    · obtain ⟨⟨reg, mem⟩, hw⟩ := Option.isSome_iff_exists.mp hs
      exact h32 reg mem rfl hw

theorem checks_bit_test (reg : Reg64 → Reg64 → List UInt8)
    (mem : Reg64 → Int32 → Reg64 → List UInt8) :
    (bit_test_shapes inst reg mem).Checks (takes_bit inst.operands = true) := by
  unfold bit_test_shapes takes_bit
  split <;> simp_all

theorem names_rcx_iff (src : RegId) : (general src = true ∧ asReg src = .Rcx) ↔ src.num = 1 := by
  refine ⟨fun h => (asReg_eq_iff h.1 _).mp h.2, fun h => ?_⟩
  have hg : general src = true := by
    unfold general
    rw [h]
    rfl
  exact ⟨hg, (asReg_eq_iff hg _).mpr h⟩

theorem checks_shift (digit : UInt8) (cl_msg form_msg : String) :
    (encode_shift digit cl_msg form_msg inst).Checks (takes_shift inst.operands = true) := by
  unfold encode_shift
  split <;> unfold takes_shift
  · simp_all
  · rename_i dst src heq
    rw [heq]
    refine ⟨by simp, ?_⟩
    simp only [accepts_reg64_from_bind, and_eq_true, beq_iff_eq]
    rw [← names_rcx_iff]
    split_ifs with hcl
    · simp [hcl]
    · simp only [ne_eq, not_not] at hcl
      simp [hcl, and_comm]
  · simp_all

theorem checks_rotate (imm8 : Reg64 → Int64 → List UInt8) (cl : Reg64 → List UInt8)
    (imm_msg cl_msg : String) : (rotate_shapes inst imm8 cl imm_msg cl_msg).Checks
      (takes_rotation inst.operands = true) := by
  unfold rotate_shapes
  split <;> unfold takes_rotation
  · split_ifs <;> simp_all
  · rename_i dst src heq
    rw [heq]
    refine ⟨by simp, ?_⟩
    simp only [accepts_reg64_from_bind, and_eq_true, beq_iff_eq]
    rw [← names_rcx_iff]
    split_ifs with hcl
    · simp [hcl]
    · simp only [ne_eq, not_not] at hcl
      simp [hcl]
  · simp_all

/-- What the two shapes of a locked operation check, before any other. -/
def lock_checks (other : Prop) : List Operand → Prop
  | [.MemSib base none .X1 _, .Reg src] => general base = true ∧ general src = true
  | [.MemSib base none .X1 _, .Imm64 imm] => general base = true ∧ fits_i32 imm = true
  | _ => other

theorem checks_lock_forms (f : LockForms) (imm_msg : String) {other : Emit Unit}
    (hother : other.AllOrNothing) : (f.encode imm_msg inst other).Checks
      (lock_checks other.Accepts inst.operands) := by
  unfold LockForms.encode
  split
  · simp_all [lock_checks]
  · rename_i base disp imm heq
    refine ⟨by simp, ?_⟩
    simp only [heq, lock_checks, accepts_reg64_from_bind]
    split_ifs with h8 h32
    · simp [fits_i32_of_i8 h8]
    · simp [h32]
    · simp [h32]
  · simp_all [lock_checks]

theorem lock_checks_false (ops : List Operand) :
    lock_checks False ops ↔ takes_lock fits_i32 ops = true := by
  unfold lock_checks takes_lock
  split <;> simp_all

theorem checks_lock_bit (reg : Reg64 → Int32 → Reg64 → List UInt8)
    (imm8 : Reg64 → Int32 → Int64 → List UInt8) (width_msg imm_msg : String) :
    (lock_bit reg imm8 width_msg imm_msg inst width).Checks <|
      width = .W64 ∧
      takes_lock (fun imm => 0 ≤ imm.toInt && imm.toInt ≤ 255) inst.operands = true := by
  unfold lock_bit takes_lock
  split_ifs with hw
  · simp [hw]
  · split
    · simp_all
    · split_ifs <;> simp_all
    · simp_all

theorem checks_lock_logic (bytes : Reg64 → Int32 → Reg64 → List UInt8) (width_msg : String) :
    (lock_logic bytes width_msg inst width).Checks
      (width = .W64 ∧ takes_mem_reg inst.operands = true) := by
  unfold lock_logic
  split_ifs with hw
  · simp [hw]
  · simp_all [checks_mem_reg]

theorem checks_descriptor (digit : UInt8) :
    (descriptor_shapes digit inst).Checks (takes_descriptor inst.operands = true) := by
  unfold descriptor_shapes takes_descriptor descriptor_sym
  split <;> simp_all

variable (mnemonic : Mnemonic)

theorem checks_sse (pre : Option UInt8) (opcode : UInt8) :
    (encode_sse_xmm_xmm inst mnemonic pre opcode).Checks (takes_xmm_xmm inst.operands = true) := by
  unfold encode_sse_xmm_xmm takes_xmm_xmm
  split <;> simp_all

theorem checks_cvtsi2s (pre : UInt8) :
    (encode_cvtsi2s_inst inst mnemonic pre).Checks (takes_xmm_reg inst.operands = true) := by
  unfold encode_cvtsi2s_inst takes_xmm_reg
  split <;> simp_all

theorem checks_cvtts2si (pre : UInt8) :
    (encode_cvtts2si_inst inst mnemonic pre).Checks (takes_reg_xmm inst.operands = true) := by
  unfold encode_cvtts2si_inst takes_reg_xmm
  split <;> simp_all

theorem checks_bitcast (rex_w : Bool) (mnemonic : Mnemonic) (to_xmm : Bool) :
    (bitcast rex_w mnemonic to_xmm inst).Checks
      ((if to_xmm then takes_xmm_reg inst.operands else takes_reg_xmm inst.operands) = true) := by
  unfold bitcast takes_xmm_reg takes_reg_xmm
  split
  · split_ifs <;> simp_all
  · split_ifs <;> simp_all

end

/-! ## The mnemonics -/

section

variable {inst : Instruction} {width : IntWidth}

theorem checks_sum : (encode_add inst).Checks (takes_sum inst.operands = true) ∧
    (encode_sub inst).Checks (takes_sum inst.operands = true) := by
  unfold encode_add encode_sub takes_sum
  constructor <;> split <;> simp_all [checks_immForms, and_assoc]

theorem checks_adc : (encode_adc inst width).Checks
      ((width = .W64 ∨ width = .W32) ∧ takes_carry inst.operands = true) := by
  unfold encode_adc takes_carry
  split
  · simp
  · simp
  all_goals split <;> [simp_all; simp_all; split_ifs <;> simp_all; simp_all]

theorem checks_logic : (encode_and inst).Checks (takes_logic inst.operands = true) ∧
    (encode_xor inst).Checks (takes_logic inst.operands = true) := by
  unfold encode_and encode_xor takes_logic
  constructor <;> split <;> simp_all [checks_immForms, checks_no_arm]

theorem checks_or : (encode_or inst).Checks <|
      (if inst.mode = .Mode32 then takes_or_mode32 inst.operands else takes_logic inst.operands) =
      true := by
  unfold encode_or
  split
  · simp_all [takes_or_mode32, takes_logic]
  · split_ifs
    · unfold or_imm_mode32
      split_ifs <;> simp_all [takes_or_mode32, in_range_of_i8]
    · simp_all [takes_logic, checks_immForms]
  · simp_all [takes_or_mode32, takes_logic]
  · unfold takes_or_mode32 takes_logic
    split_ifs <;> simp_all [checks_no_arm]

theorem checks_imul : (encode_imul inst).Checks (takes_imul inst.operands = true) := by
  unfold encode_imul takes_imul
  split
  · simp_all
  · split_ifs with h8
    · simp_all [fits_i32_of_i8 h8]
    · simp_all
    · simp_all
  · simp_all
  · simp_all [no_shape, Operand.isVar]
  · simp_all [checks_no_arm]

theorem checks_cmp : (encode_cmp inst).Checks (takes_cmp inst.operands = true) := by
  unfold encode_cmp takes_cmp
  split <;> simp_all [checks_immForms]

theorem checks_test : (encode_test inst).Checks (takes_test inst.operands = true) := by
  unfold encode_test takes_test
  split
  · simp_all
  · split_ifs <;> simp_all
  · simp_all

theorem checks_bit_tests : let p := (width = .W64 ∨ width = .W32) ∧ takes_bit inst.operands = true
    (encode_bt inst width).Checks p ∧ (encode_bts inst width).Checks p ∧
      (encode_btr inst width).Checks p ∧ (encode_btc inst width).Checks p := by
  unfold encode_bt encode_bts encode_btr encode_btc
  refine ⟨?_, ?_, ?_, ?_⟩ <;> split <;> simp_all [checks_bit_test]

theorem checks_cmp_sized :
    (encode_cmp_sized inst width).Checks (takes_cmp_sized width inst.operands = true) := by
  cases width with
  | W64 => exact checks_cmp
  | W8 =>
    unfold encode_cmp_sized takes_cmp_sized
    split <;> simp_all [encode_cmp_reg8_imm, accepts_ite_iff]
  | W16 =>
    unfold encode_cmp_sized takes_cmp_sized
    split <;> simp_all [encode_cmp_reg16_imm, accepts_ite_iff]
  | W32 =>
    unfold encode_cmp_sized takes_cmp_sized
    split <;> simp_all [encode_cmp_reg32_imm, accepts_ite_iff]

theorem checks_rol : (encode_rol inst width).Checks <|
      (match width with
    | .W64 | .W32 => takes_rotation inst.operands
    | .W16 => takes_rol_w16 inst.operands
    | .W8 => false) = true := by
  unfold encode_rol
  cases width with
  | W64 => exact checks_rotate _ _ _ _
  | W32 => exact checks_rotate _ _ _ _
  | W8 => simp
  | W16 =>
    simp only
    unfold takes_rol_w16
    split
    · split_ifs <;> simp_all
    · split_ifs <;> simp_all
    · simp_all

theorem checks_ror : (encode_ror inst width).Checks
      ((width = .W64 ∨ width = .W32) ∧ takes_rotation inst.operands = true) := by
  unfold encode_ror
  cases width <;> simp [checks_rotate]

theorem checks_push_inst : (encode_push inst).Checks
      (inst.mode = .Mode64 ∧ takes_push inst.operands = true) := by
  unfold encode_push takes_push
  rcases hmode : inst.mode with _ | _
  · rw [if_neg nofun]
    split
    · simp_all
    · split_ifs with h8
      · simp_all [fits_i32_of_i8 h8]
      · simp_all
      · simp_all
    · simp_all
  · simp

theorem checks_pop : (encode_pop inst).Checks
      (inst.mode = .Mode64 ∧ takes_reg inst.operands = true) := by
  unfold encode_pop
  rcases hmode : inst.mode with _ | _
  · rw [if_neg nofun]
    exact (checks_one_reg _).congr (by simp)
  · simp

theorem checks_lock_xadd : (encode_lock_xadd inst width).Checks
      ((width = .W64 ∨ width = .W32) ∧ takes_mem_reg inst.operands = true) := by
  unfold encode_lock_xadd takes_mem_reg
  split
  · cases width <;> simp_all
  · simp_all

theorem accepts_lock_abs (op : UInt8) (disp32 : Int32) (imm : List UInt8) :
    (lock_abs width op disp32 imm).Accepts := by
  unfold lock_abs
  split
  · exact accepts_push _
  · exact accepts_push _
  · exact (accepts_push _).bind fun _ => accepts_unreachable _

@[simp] theorem checks_lock_abs (op : UInt8) (disp32 : Int32) (imm : List UInt8) :
    (lock_abs width op disp32 imm).Checks True :=
  (accepts_lock_abs op disp32 imm).checks trivial

theorem checks_lock_add : (encode_lock_add inst width).Checks
      ((width = .W64 ∨ width = .W32) ∧ takes_lock_add inst.operands = true) := by
  have habs : (lock_add_abs inst width).Checks <|
      match inst.operands with
      | [.MemDisp _, .Imm64 imm] => fits_i32 imm = true
      | _ => False := by
    unfold lock_add_abs lock_add_mem_abs_disp32_imm8 lock_add_mem_abs_disp32_imm32
    split
    · split_ifs with h8 <;> simp_all [fits_i32_of_i8]
    · simp
  unfold encode_lock_add takes_lock_add
  split
  case h_3 => simp_all
  all_goals
    refine (checks_lock_forms _ _ habs.1).congr ?_
    rw [habs.2]
    split
    · simp_all [lock_checks]
    · simp_all [lock_checks_false]

theorem checks_lock_sub : (encode_lock_sub inst width).Checks
      ((width = .W64 ∨ width = .W32) ∧ takes_lock fits_i32 inst.operands = true) := by
  unfold encode_lock_sub
  split
  · exact (checks_lock_forms _ _ (allOrNothing_fail _)).congr (by simp [lock_checks_false])
  · exact (checks_lock_forms _ _ (allOrNothing_fail _)).congr (by simp [lock_checks_false])
  · simp_all

theorem checks_lock_inc : (encode_lock_inc inst width).Checks
      ((width = .W64 ∨ width = .W32) ∧ takes_abs inst.operands = true) := by
  unfold encode_lock_inc lock_inc_mem_abs_disp32 takes_abs
  split_ifs with hw
  · apply fail_checks
    rintro ⟨rfl | rfl, -⟩
    · exact hw.2 rfl
    · exact hw.1 rfl
  · have hw' : width = .W64 ∨ width = .W32 := by
      cases width <;> simp_all
    split <;> simp_all

/-! ## Moves -/

theorem checks_mov_cr (write : Bool) :
    (encode_mov_cr_inst inst write).Checks (takes_mov_cr write inst.operands = true) := by
  unfold encode_mov_cr_inst
  split <;> unfold takes_mov_cr
  · rename_i heq
    rw [heq]
    cases write <;> simp [accepts_ite_iff] <;> tauto
  · simp_all

theorem checks_mov_dr (write : Bool) :
    (encode_mov_dr_inst inst write).Checks (takes_mov_dr write inst.operands = true) := by
  unfold encode_mov_dr_inst
  split <;> unfold takes_mov_dr
  · rename_i heq
    rw [heq]
    simp only
    split_ifs <;> simp_all
  · simp_all

theorem checks_movnti : (encode_movnti inst width).Checks
      (takes_movnti width inst.operands = true) := by
  unfold encode_movnti takes_movnti
  split
  · cases width <;> simp_all
  · cases width <;> simp_all [and_assoc]
  · simp_all

theorem checks_movzx : (encode_movzx inst).Checks <|
      takes_extend [] [1, 2] ((inst.encoding_hint.map (·.operand_size)).getD 1) inst.operands =
      true := by
  unfold encode_movzx takes_extend
  split
  · simp only
    split
    · simp_all
    · rename_i index _ _ _
      rcases index with _ | index
      · split_ifs <;> simp_all
      · simp_all
    · simp_all
  · simp_all
  · simp_all

theorem movsx_reg64_isSome_iff (dst src : Reg64) (src_width : UInt8) :
    (movsx_reg64 dst src src_width).isSome ↔ [1, 2, 4].contains src_width = true := by
  unfold movsx_reg64
  split <;> simp_all

theorem checks_movsx : (encode_movsx inst).Checks <|
      takes_extend [1, 2, 4] [1, 2, 4] ((inst.encoding_hint.map (·.operand_size)).getD 4)
      inst.operands = true := by
  unfold encode_movsx takes_extend
  split
  · rename_i dest src heq
    rw [heq]
    simp only
    split
    · rename_i src_reg
      refine ⟨?_, ?_⟩
      · apply allOrNothing_reg64_from
        intro d
        apply allOrNothing_reg64_from
        intro s
        split <;> simp
      simp only [accepts_reg64_from_bind]
      have hsome := movsx_reg64_isSome_iff (asReg dest) (asReg src_reg)
        ((inst.encoding_hint.map (·.operand_size)).getD 4)
      split <;> simp_all
    · rename_i index _ _
      rcases index with _ | index
      · split_ifs <;> simp_all
      · simp_all
    · simp_all
  · simp_all
  · simp_all

theorem checks_mov_sized : (encode_mov_sized inst width).Checks
      (takes_mov_sized inst.mode width inst.operands = true) := by
  unfold encode_mov_sized takes_mov_sized
  split
  · cases width <;> simp_all [accepts_ite_iff]
  · cases width <;> simp_all
  · cases width <;> simp_all [and_assoc]
  · cases width <;> simp_all [accepts_ite_iff]
  · cases width <;> simp_all
  · cases width <;> simp_all [and_assoc]
  · cases width <;> simp_all [accepts_ite_iff, and_assoc]
  · simp_all
  · simp_all
  · simp_all
  · simp_all
  · simp_all
  · cases width <;> simp_all [accepts_ite_iff]
  · simp_all [no_shape, accepts_ite_iff]

theorem checks_mov_shapes :
    (encode_mov_shapes inst).Checks (takes_mov_both inst.operands = true) := by
  unfold encode_mov_shapes
  simp only
  split <;> unfold takes_mov_both
  · simp_all
  · rename_i dest imm heq
    rw [heq]
    split_ifs <;> simp
  · simp_all
  · simp_all
  · simp_all [and_assoc]
  · simp_all [and_assoc]
  · rename_i base disp imm heq
    rw [heq]
    refine ⟨by simp, ?_⟩
    simp only [accepts_plain_iff, accepts_reg64_from_bind, staged, and_eq_true]
    apply and_congr_right
    intro hg
    rcases hfits : fits_i32 imm with _ | _ <;> simp [accepts_ite_iff, asReg_eq_iff hg, Reg64.id]
  · rename_i base idx scale disp imm heq
    rw [heq]
    refine ⟨by simp, ?_⟩
    simp only [accepts_plain_iff, accepts_reg64_from_bind, staged, and_eq_true]
    by_cases hb : general base = true
    · by_cases hi : general idx = true
      · rcases hfits : fits_i32 imm with _ | _ <;>
          simp [accepts_ite_iff, asReg_eq_iff hb, asReg_eq_iff hi, hb, hi, Reg64.id]
      · simp [hi]
    · simp [hb]
  · simp_all [accepts_ite_iff]
  · simp_all
  · simp_all
  · simp_all
  · simp_all
  · simp_all
  · simp_all
  · simp_all
  · simp_all [no_shape, accepts_ite_iff]

theorem checks_mov_generic : (encode_mov_generic inst).Checks
      (takes_mov_generic inst.mode inst.operands = true) := by
  unfold encode_mov_generic takes_mov_generic
  split
  · simp_all
  · rename_i hseg
    rcases hmode : inst.mode with _ | _
    · simp only
      split
      · simp_all
      · apply checks_mov_shapes.congr
        split <;> simp_all [takes_mov_both]
    · simp only
      unfold encode_mov_mode32
      split
      · simp_all [accepts_ite_iff, and_comm]
      · simp_all [takes_mov_both]
      · simp_all [takes_mov_both]
      · simp_all [takes_mov_both]
      · simp_all [accepts_ite_iff]
      · apply checks_mov_shapes.congr
        split <;> simp_all

/-- Which of the special moves it is does not matter here. -/
theorem checks_special (kind : DispatchKind) (hk : kind ≠ .MovGeneric) : (match kind with
      | .MovToCr => plain (encode_mov_cr_dispatcher inst true)
      | .MovFromCr => plain (encode_mov_cr_dispatcher inst false)
      | .MovToDr => plain (encode_mov_dr_dispatcher inst true)
      | .MovFromDr => plain (encode_mov_dr_dispatcher inst false)
      | .MovGeneric => encode_mov_generic inst).Checks (takes_two_regs inst.operands = true) := by
  have hspecial : ∀ write, (encode_mov_cr_dispatcher inst write).Checks
      (takes_two_regs inst.operands = true) ∧ (encode_mov_dr_dispatcher inst write).Checks
      (takes_two_regs inst.operands = true) := by
    intro write
    unfold encode_mov_cr_dispatcher encode_mov_dr_dispatcher takes_two_regs
    constructor <;> split <;> simp_all
  cases kind with
  | MovGeneric => exact absurd rfl hk
  | MovToCr => simpa using (hspecial true).1
  | MovFromCr => simpa using (hspecial false).1
  | MovToDr => simpa using (hspecial true).2
  | MovFromDr => simpa using (hspecial false).2

/-- The kind of a move between two registers. -/
def moveKind (d s : RegId) : DispatchKind :=
  if is_control_register d && is_general_purpose_register s then .MovToCr
  else if is_control_register s && is_general_purpose_register d then .MovFromCr
  else if is_debug_register d && is_general_purpose_register s then .MovToDr
  else if is_debug_register s && is_general_purpose_register d then .MovFromDr
  else .MovGeneric

theorem moveKind_generic_iff (d s : RegId) : moveKind d s = .MovGeneric ↔ ¬ special d s = true := by
  unfold moveKind special
  split_ifs <;> simp_all
  grind

theorem checks_mov : (encode_mov inst).Checks (takes_mov inst.mode inst.operands = true) := by
  have hgeneric := @checks_mov_generic inst
  unfold encode_mov takes_mov
  split
  · rename_i d s rest heq
    have hkind : classify inst.operands = pure (moveKind d s) := by
      rw [heq]
      rfl
    rw [hkind, pure_bind']
    split_ifs with hspecial
    · have hnot : moveKind d s ≠ .MovGeneric := fun h => (moveKind_generic_iff d s).mp h hspecial
      apply (checks_special (moveKind d s) hnot).congr
      rw [heq]
      cases rest <;> simp [takes_two_regs]
    · rw [(moveKind_generic_iff d s).mpr hspecial, ← heq]
      exact hgeneric
  · rename_i name o rest heq
    rw [heq]
    exact Accepts.checks nofun rfl
  · rename_i o name rest hreg heq
    have hkind : classify inst.operands = .unreachable var_reached_classifier := by
      rw [heq]
      cases o <;> rfl
    rw [hkind]
    exact Accepts.checks nofun rfl
  · rename_i h1 h2 h3
    have hkind : classify inst.operands = pure .MovGeneric := by
      unfold classify
      split <;> simp_all
    rw [hkind, pure_bind']
    exact hgeneric

theorem accepts_lea_iff : (encode_lea inst).Accepts ↔
    takes_lea inst.mode inst.operands = true := by
  have hrip : ∀ (dest : RegId) (name : String) (addend : Int32),
      (lea_rip dest name addend).Accepts ↔
        general dest = true ∧ ¬ AddendTooLow addend := by
    intro dest name addend
    have hhi := biased_not_high addend
    unfold lea_rip AddendTooLow
    simp only [accepts_reg64_from_bind, accepts_push_bind, accepts_ite_iff, hhi, or_false]
    simp
  unfold encode_lea takes_lea
  split
  · simp_all
  · simp_all [and_assoc]
  · rcases hmode : inst.mode with _ | _ <;> simp_all
  · simp_all
  · simp_all

/-! ## Control transfer, vectors and the rest -/

theorem checks_jcc (cond : paideia_as_runtime.Cond) :
    (encode_jcc cond inst).Checks (takes_jcc inst.operands = true) := by
  unfold encode_jcc takes_jcc
  split
  · split_ifs <;> simp_all
  · simp_all
  · simp_all

theorem checks_setcc (cond : paideia_as_runtime.Cond) :
    (encode_setcc cond inst).Checks (takes_setcc inst.operands = true) := by
  unfold encode_setcc takes_setcc
  split <;> simp_all

theorem checks_jmp_mem {α : Type} {index : RegId} (f : Nat → α) (scale_bits : UInt8)
    (disp32 : Int32) :
    (reg64_from index >>= fun r => jmp_mem_sib_no_base_indexed r scale_bits disp32 >>= fun k =>
      pure (f k)).Checks <| (general index && index.num != 4) = true := by
  by_cases hg : general index = true
  · rw [(reg64_from_general hg).1, nil_ok_bind, hg]
    unfold jmp_mem_sib_no_base_indexed
    rw [(reg64_from_general hg).2]
    by_cases h4 : index.num = 4
    · rw [if_pos h4]
      exact fail_checks (by simp [h4])
    · rw [if_neg h4]
      exact Accepts.checks nofun (by simp [h4])
  · have hle : ¬ index.num < 16 := fun h => hg (decide_eq_true h)
    rw [reg64_from_of_le hle]
    exact fail_checks (by simp [hg])

theorem checks_jmp : (encode_jmp inst).Checks (takes_jmp inst.operands = true) := by
  unfold encode_jmp
  split <;> unfold takes_jmp
  · simp_all
  · simp_all
  · simp_all
  · rename_i heq
    rw [heq]
    exact checks_jmp_mem _ _ _
  · rename_i heq
    rw [heq]
    exact (checks_plain_iff _ _).mpr (checks_jmp_mem _ _ _)
  · simp_all
  · simp_all

theorem checks_call : (encode_call inst).Checks (takes_call inst.operands = true) := by
  unfold encode_call takes_call
  split <;> simp_all

theorem checks_far_jmp :
    (encode_far_jmp_inst inst).Checks (takes_far_jmp inst.operands = true) := by
  unfold encode_far_jmp_inst takes_far_jmp
  split <;> simp_all

theorem checks_int : (encode_int inst).Checks (takes_int inst.operands = true) := by
  unfold encode_int takes_int
  split
  · simp_all [accepts_ite_iff]
  · simp_all

theorem checks_invlpg : (encode_invlpg_inst inst).Checks (takes_mem inst.operands = true) := by
  unfold encode_invlpg_inst takes_mem
  split <;> simp_all

theorem checks_invpcid :
    (encode_invpcid_inst inst).Checks (takes_invpcid inst.operands = true) := by
  unfold encode_invpcid_inst takes_invpcid
  split <;> simp_all

theorem checks_lgdt : (encode_lgdt_inst inst).Checks (takes_descriptor inst.operands = true) := by
  unfold encode_lgdt_inst descriptor_sym
  split
  · simp_all [takes_descriptor]
  · exact checks_descriptor 2

theorem checks_vex_regs : (encode_vpxor inst).Checks (takes_three_regs inst.operands = true) ∧
      (encode_vpcmpeqb inst).Checks (takes_three_regs inst.operands = true) := by
  unfold encode_vpxor encode_vpcmpeqb takes_three_regs
  constructor <;> split
  · exact (accepts_vex_reg_reg_reg _ _ _ _ _).checks (by simp_all)
  · simp_all
  · exact (accepts_vex_reg_reg_reg _ _ _ _ _).checks (by simp_all)
  · simp_all

theorem checks_vpmovmskb :
    (encode_vpmovmskb inst).Checks (takes_two_regs inst.operands = true) := by
  unfold encode_vpmovmskb
  split <;> unfold takes_two_regs
  · rename_i heq
    rw [heq]
    exact (accepts_vpmovmskb _ _).checks rfl
  · split <;> simp_all

theorem checks_vmovdqu (is_store : Bool) :
    (encode_vmovdqu inst is_store).Checks (takes_vmovdqu is_store inst.operands = true) := by
  have hrip : ∀ (opcode : UInt8) (msg : String) (ymm : UInt8) (disp : Int32) {α : Type}
      (f : Nat → α), (vmovdqu_riprel opcode msg ymm disp >>= fun k => pure (f k)).Accepts :=
    fun _ _ _ _ _ _ => (accepts_vmovdqu_riprel _ _ _ _).bind fun _ => accepts_pure _
  unfold encode_vmovdqu takes_vmovdqu
  split
  · exact (accepts_vmovdqu_ymm_ymm _ _).plain.checks (by simp_all)
  · exact (accepts_vmovdqu_mem _ _ _ _ _).plain.checks (by simp_all)
  · exact (accepts_vmovdqu_mem _ _ _ _ _).plain.checks (by simp_all)
  · exact (hrip _ _ _ _ _).checks (by simp_all)
  · exact (hrip _ _ _ _ _).plain.checks (by simp_all)
  · exact (hrip _ _ _ _ _).checks (by simp_all)
  · exact (hrip _ _ _ _ _).plain.checks (by simp_all)
  · apply fail_checks
    split <;> simp_all

/-- Each encoder checks what the table says, before it pushes a byte. -/
theorem checks_impl (hlea : inst.mnemonic ≠ .Lea) :
    (encode_instruction_impl inst).Checks (takes inst = true) := by
  unfold encode_instruction_impl takes
  split
  all_goals rename_i hm
  all_goals try exact absurd hm hlea
  all_goals simp only [hm, checks_iff, allOrNothing_plain_iff, accepts_plain_iff, checks_no_operands,
    checks_bare_opcode, checks_one_reg, checks_one_mem, checks_mem_reg, checks_port,
    checks_regMem, checks_shift, checks_lock_bit, checks_lock_logic, checks_descriptor,
    checks_sse, checks_cvtsi2s, checks_cvtts2si, checks_bitcast, checks_sum,
    checks_adc, checks_logic, checks_or, checks_imul, checks_cmp, checks_test,
    checks_bit_tests, checks_cmp_sized, checks_rol, checks_ror,
    checks_push_inst, checks_pop, checks_lock_xadd, checks_lock_add, checks_lock_sub,
    checks_lock_inc, checks_mov_cr, checks_mov_dr, checks_movnti, checks_movzx, checks_movsx,
    checks_mov_sized, checks_mov, checks_jcc, checks_setcc, checks_jmp, checks_call,
    checks_far_jmp, checks_int, checks_invlpg, checks_invpcid, checks_lgdt, checks_vex_regs,
    checks_vpmovmskb, checks_vmovdqu, encode_ret, encode_cli, encode_cld,
    encode_sti, encode_std, encode_hlt, encode_nop, encode_swapgs, encode_cpuid, encode_ud2,
    encode_endbr64, encode_endbr32, encode_rep_movsb, encode_rep_stosq_inst,
    encode_rep_stosb_inst, encode_rep_movsq_inst, encode_wrmsr_inst, encode_rdmsr_inst,
    encode_xgetbv_inst, encode_xsetbv_inst, encode_iret_inst, encode_iretq_inst,
    encode_sysret_inst, encode_syscall_inst, encode_rdtsc_inst, encode_mfence_inst,
    encode_sfence_inst, encode_lfence_inst, encode_pause_inst, encode_wbinvd_inst,
    encode_invd_inst, encode_fxsave_inst, encode_fxrstor_inst, encode_xsaveopt_inst,
    encode_xrstor_inst, encode_clflush_inst, encode_clflushopt_inst, encode_prefetchnta_inst,
    encode_prefetcht0_inst, encode_prefetcht1_inst, encode_prefetcht2_inst,
    encode_lock_cmpxchg16b_inst, encode_not, encode_bswap, encode_bswap32, encode_div,
    encode_idiv, encode_mul, encode_inc, encode_dec, encode_ltr, encode_pushfq, encode_popfq,
    encode_int3, encode_xchg_inst, encode_lock_cmpxchg_inst, encode_lock_cmpxchg32_inst,
    encode_lock_bts, encode_lock_btr, encode_lock_btc, encode_lock_and, encode_lock_or,
    encode_lock_xor, encode_shl, encode_shr, encode_sar, encode_in, encode_out,
    encode_lidt_inst, encode_sbb, encode_popcnt, encode_bsf, encode_bsr, encode_tzcnt,
    encode_crc32, encode_movd_bitcast_inst, encode_movq_bitcast_inst]
  all_goals try simp [wide32, or_comm]

theorem encode_instruction_impl_lea (hlea : inst.mnemonic = .Lea) :
    encode_instruction_impl inst = encode_lea inst := by
  unfold encode_instruction_impl
  rw [hlea]

/-- The encoder refuses exactly what the table does not take. -/
theorem accepts_impl_iff (inst : Instruction) :
    (encode_instruction_impl inst).Accepts ↔ takes inst = true := by
  by_cases hlea : inst.mnemonic = .Lea
  · rw [encode_instruction_impl_lea hlea, accepts_lea_iff]
    unfold takes
    rw [hlea]
  · exact (checks_impl hlea).2

theorem allOrNothing_impl_iff (inst : Instruction) :
    (encode_instruction_impl inst).AllOrNothing ↔ ¬ (inst.mnemonic = .Lea ∧ LeaTooLow inst) := by
  by_cases hlea : inst.mnemonic = .Lea
  · rw [encode_instruction_impl_lea hlea, allOrNothing_lea_iff]
    simp [hlea]
  · exact iff_of_true (checks_impl hlea).1 fun h => hlea h.1

end

/-! ## The buffer after a refusal -/

/-- Behind a prefix, nothing may be refused; without one, only `lea` comes too
late with a check. -/
theorem encode_instruction_allOrNothing_iff (inst : Instruction) :
    (encode_instruction inst).AllOrNothing ↔
      match underPrefix inst.operands with
      | some operands => (encode_instruction_impl { inst with operands := operands }).Accepts
      | none => ¬ (inst.mnemonic = .Lea ∧ LeaTooLow inst) := by
  unfold encode_instruction underPrefix
  rcases hseg : find_mem_seg inst.operands with _ | ⟨idx, seg, inner⟩
  · exact allOrNothing_impl_iff inst
  · rw [Option.map_some]
    exact allOrNothing_behind_iff (List.cons_ne_nil _ _) _ _

/-- Behind a segment prefix the rest of the operands must be taken; without
one, only `lea` comes too late with a check. -/
def KeepsBuffer (inst : Instruction) : Prop :=
  match underPrefix inst.operands with
  | some operands => takes { inst with operands := operands } = true
  | none => ¬ (inst.mnemonic = .Lea ∧ LeaTooLow inst)

/-- Exactly then a refusal leaves the buffer as it was. -/
theorem refusal_keeps_buffer_iff (inst : Instruction) :
    (∀ buf e, ((encode_instruction inst).run buf).2 = .error (.err e) →
      ((encode_instruction inst).run buf).1 = buf) ↔ KeepsBuffer inst := by
  have h := encode_instruction_allOrNothing_iff inst
  unfold KeepsBuffer
  rcases hunder : underPrefix inst.operands with _ | operands
  · rwa [hunder] at h
  · rw [hunder] at h
    exact h.trans (accepts_impl_iff _)

/-- `add gs:[rax], rcx` is refused, and its prefix stays behind. -/
theorem refused_prefix_stays : ¬ ∀ inst buf e,
    ((encode_instruction inst).run buf).2 = .error (.err e) →
      ((encode_instruction inst).run buf).1 = buf := by
  intro h
  have hstays := h ⟨.Add, [.MemSeg .Gs (.MemSib ⟨0⟩ none .X1 0), .Reg ⟨1⟩], none, .Mode64⟩ [] _ rfl
  cases hstays

end paideia_as_encoder
