-- `encode_mov`, `encode_mov_sized`, `encode_lea` and their helpers
-- (`encode_instruction/mov.rs`, `mov_special.rs`, `mov_ext.rs`, `lea.rs` and
-- `dispatch.rs`): the operand shapes of a move, in the order of the source.
import PaideiaAs.Encoder.EncodeSystem

namespace paideia_as_encoder

open paideia_as_runtime
open Emit (fail)
open Emit (push)

/-- A PC32 field is biased by −4: the processor counts from behind it. -/
def PC32_FIELD_BIAS : Int32 := -4

/-- A site with the biased addend. -/
def pc_site (byte_offset : Nat) (symbol : String) (kind : RelocKind) (addend : Int32) :
    EncodeOutput :=
  .reloc ⟨byte_offset, symbol, kind, addend + PC32_FIELD_BIAS⟩

/-- A site with the addend as it is. -/
def abs_site (byte_offset : Nat) (symbol : String) (addend : Int32) : EncodeOutput :=
  .reloc ⟨byte_offset, symbol, .Abs32, addend⟩

/-- An encoder that never adds a site ends in `Ok(EncodeOutput::new())`. -/
def plain (x : Emit Unit) : Emit EncodeOutput := do
  x
  return .new

/-- Bytes with a site in them. -/
def sited (bs : List UInt8) (out : EncodeOutput) : Emit EncodeOutput := do
  push bs
  return out

def var_reached_encoder : String :=
  "Operand::Var reached encoder — resolve_var_operands pass was skipped"

def var_reached_classifier : String :=
  "Operand::Var reached classifier — resolve_var_operands pass was skipped"

/-! ## `dispatch.rs` -/

inductive DispatchKind where
  | MovGeneric
  | MovToCr
  | MovFromCr
  | MovToDr
  | MovFromDr
  deriving DecidableEq

def is_control_register (r : RegId) : Bool := 16 ≤ r.num && r.num < 25
def is_debug_register (r : RegId) : Bool := 25 ≤ r.num && r.num < 33
def is_general_purpose_register (r : RegId) : Bool := r.num < 16

/-- `classify` of a `mov`. -/
def classify (operands : List Operand) : Emit DispatchKind :=
  match operands with
  | .Reg d :: .Reg s :: _ => pure (
      if is_control_register d && is_general_purpose_register s then .MovToCr
      else if is_control_register s && is_general_purpose_register d then .MovFromCr
      else if is_debug_register d && is_general_purpose_register s then .MovToDr
      else if is_debug_register s && is_general_purpose_register d then .MovFromDr
      else .MovGeneric)
  | .Var _ :: _ :: _ => .unreachable var_reached_classifier
  | _ :: .Var _ :: _ => .unreachable var_reached_classifier
  | _ => pure .MovGeneric

/-! ## `mov_special.rs` -/

/-- A `mov` that names a control register by its own id. -/
def encode_mov_cr_dispatcher (inst : Instruction) (write : Bool) : Emit Unit :=
  match inst.operands with
  | [.Reg first, .Reg second] =>
    let (cr_id, gpr_id) := if write then (first.num, second.num) else (second.num, first.num)
    .push (encode_mov_cr write (cr_id - 16) gpr_id)
  | _ => .fail (.OperandShape .Mov)

/-- A `mov` that names a debug register by its own id. -/
def encode_mov_dr_dispatcher (inst : Instruction) (write : Bool) : Emit Unit :=
  match inst.operands with
  | [.Reg first, .Reg second] =>
    let (dr_id, gpr_id) := if write then (first.num, second.num) else (second.num, first.num)
    .push (encode_mov_dr write (dr_id - 25) gpr_id)
  | _ => .fail (.OperandShape .Mov)

/-- Here the control register is named by its index. -/
def encode_mov_cr_inst (inst : Instruction) (write : Bool) : Emit Unit :=
  match inst.operands with
  | [.Reg first, .Reg second] =>
    let (cr_idx, gpr_idx) := if write then (first.num, second.num) else (second.num, first.num)
    if !([0, 2, 3, 4, 8].contains cr_idx) then .fail (.Unsupported "CR index not supported")
    else if 15 < gpr_idx then .fail (.OperandShape (.MovCr write))
    else .push (encode_mov_cr write cr_idx gpr_idx)
  | _ => .fail (.OperandShape (.MovCr write))

/-- Here the debug register is named by its index. -/
def encode_mov_dr_inst (inst : Instruction) (write : Bool) : Emit Unit :=
  match inst.operands with
  | [.Reg first, .Reg second] =>
    let (dr_idx, gpr_idx) := if write then (first.num, second.num) else (second.num, first.num)
    if 7 < dr_idx then .fail (.Unsupported "DR index > 7 not supported")
    else if 15 < gpr_idx then .fail (.OperandShape (.MovDr write))
    else .push (encode_mov_dr write dr_idx gpr_idx)
  | _ => .fail (.OperandShape (.MovDr write))

def encode_movnti (inst : Instruction) (width : IntWidth) : Emit Unit :=
  match inst.operands with
  | [.MemSib base none .X1 disp, .Reg src] => do
    let base_reg ← reg64_from base
    let src_reg ← reg64_from src
    match width with
    | .W32 => push (movnti_mem_base_disp_reg32 base_reg disp src_reg)
    | .W64 => push (movnti_mem_base_disp_reg64 base_reg disp src_reg)
    | _ => fail (.Unsupported "E0030: movnti only supports W32 and W64 widths")
  | [.MemSib base (some index) scale disp, .Reg src] => do
    let base_reg ← reg64_from base
    let index_reg ← reg64_from index
    let src_reg ← reg64_from src
    match width with
    | .W32 =>
      push (movnti_mem_sib_disp_reg32 base_reg index_reg (sib_scale_bits scale) disp src_reg)
    | .W64 =>
      push (movnti_mem_sib_disp_reg64 base_reg index_reg (sib_scale_bits scale) disp src_reg)
    | _ => fail (.Unsupported "E0030: movnti only supports W32 and W64 widths")
  | _ => .fail (.OperandShape (.Movnti width))

/-- Other widths push REX and the escape byte and return. -/
def movzx_reg64_mem_base_disp (dst base : Reg64) (disp : Int32) (src_width : UInt8) : List UInt8 :=
  match src_width with
  | 1 => op_base [] .wide [0x0F, 0xB6] dst.id base.id disp []
  | 2 => op_base [] .wide [0x0F, 0xB7] dst.id base.id disp []
  | _ => [rex true (high dst.id) false (high base.id), 0x0F]

/-- The register form drops the answer of `movzx_reg64`: an unknown width
encodes to nothing. -/
def encode_movzx (inst : Instruction) : Emit Unit :=
  match inst.operands with
  | [.Reg dest, src] =>
    let src_width := (inst.encoding_hint.map (·.operand_size)).getD 1
    match src with
    | .Reg src_reg => do
      let dst ← reg64_from dest
      let src ← reg64_from src_reg
      push ((movzx_reg64 dst src src_width).getD [])
    | .MemSib base index _ disp =>
      if index.isSome then .fail (.Unsupported "MOVZX: indexed addressing not supported")
      else if src_width = 1 ∨ src_width = 2 then do
        let dst ← reg64_from dest
        let base ← reg64_from base
        push (movzx_reg64_mem_base_disp dst base disp src_width)
      else .fail (.Unsupported "MOVZX: source width must be 1 or 2 bytes")
    | _ => .fail (.OperandShape .Movzx)
  | [_, _] => .fail (.OperandShape .Movzx)
  | ops => .fail (.OperandCount .Movzx 2 ops.length)

def encode_movsx (inst : Instruction) : Emit Unit :=
  match inst.operands with
  | [.Reg dest, src] =>
    let src_width := (inst.encoding_hint.map (·.operand_size)).getD 4
    match src with
    | .Reg src_reg => do
      let dst ← reg64_from dest
      let src ← reg64_from src_reg
      match movsx_reg64 dst src src_width with
      | some bs => push bs
      | none => fail (.Unsupported "MOVSX: source width must be 1, 2, or 4 bytes")
    | .MemSib base index _ disp =>
      if index.isSome then .fail (.Unsupported "MOVSX: indexed addressing not supported")
      else if src_width = 1 ∨ src_width = 2 ∨ src_width = 4 then do
        let dst ← reg64_from dest
        let base ← reg64_from base
        push (movsx_reg64_mem_base_disp dst base disp src_width)
      else .fail (.Unsupported "MOVSX: source width must be 1, 2, or 4 bytes")
    | _ => .fail (.OperandShape .Movsx)
  | [_, _] => .fail (.OperandShape .Movsx)
  | ops => .fail (.OperandCount .Movsx 2 ops.length)

def mov_q_range : String :=
  "mov_q [mem], imm64 requires imm ∈ i32 sign-ext range; use movabs r11, imm64 + mov [mem], r11"

/-- The bytes before the displacement of a sized RIP-relative load, as the
source counts them. -/
def rip_load_offset (width : IntWidth) (dst_id : UInt8) : Nat :=
  (if width = .W16 then 1 else 0) + (if high dst_id ∨ width = .W64 then 1 else 0) + 2

/-- Width-threaded move. The immediate is cut to the operand width; the 64-bit
store to memory checks that it fits in 32 bits first. -/
def encode_mov_sized (inst : Instruction) (width : IntWidth) : Emit EncodeOutput :=
  match inst.operands with
  | [.Reg dst, .Imm64 imm] => plain do
    let dst_reg ← reg64_from dst
    match width with
    | .W64 =>
      if inst.mode = .Mode32 then
        fail (.Unsupported "E0019: 64-bit destination in 32-bit mode")
      else push (mov_reg64_imm64 dst_reg imm)
    | .W32 => push (mov_reg32_imm32 dst_reg imm)
    | .W16 => push (mov_reg16_imm16 dst_reg imm)
    | .W8 => push (mov_reg8_imm8 dst_reg imm)
  | [.Reg dst, .MemSib base none _ disp] => plain do
    let dst_reg ← reg64_from dst
    let base_reg ← reg64_from base
    match width with
    | .W64 => push (mov_reg64_mem_reg64_disp dst_reg base_reg disp)
    | .W32 => push (mov_reg32_mem_base_disp dst_reg base_reg disp)
    | .W16 => push (mov_reg16_mem_base_disp dst_reg base_reg disp)
    | .W8 => push (mov_reg8_mem_base_disp dst_reg base_reg disp)
  | [.Reg dst, .MemSib base (some index) scale disp] => plain do
    let dst_reg ← reg64_from dst
    let base_reg ← reg64_from base
    let index_reg ← reg64_from index
    match width with
    | .W64 =>
      push (mov_reg64_mem_sib_disp dst_reg base_reg index_reg (sib_scale_bits scale) disp)
    | _ =>
      push (mov_reg_mem_sib_disp_sized width dst_reg base_reg index_reg (sib_scale_bits scale) disp)
  | [.MemSib base none _ disp, .Imm64 imm] => plain do
    let base_reg ← reg64_from base
    match width with
    | .W8 => push (mov_mem_base_disp_imm8 base_reg disp imm)
    | .W16 => push (mov_mem_base_disp_imm16 base_reg disp imm)
    | .W32 => push (mov_mem_base_disp_imm32 base_reg disp imm)
    | .W64 =>
      if !fits_i32 imm then fail (.Unsupported mov_q_range)
      else push (mov_mem_base_disp_imm32_sxt base_reg disp imm)
  | [.MemSib base none .X1 disp, .Reg src] => plain do
    let base_reg ← reg64_from base
    let src_reg ← reg64_from src
    match width with
    | .W8 => push (mov_mem_base_disp_reg8 base_reg disp src_reg)
    | .W16 => push (mov_mem_base_disp_reg16 base_reg disp src_reg)
    | .W32 => push (mov_mem_base_disp_reg32 base_reg disp src_reg)
    | .W64 => push (mov_mem_reg64_disp_reg64 base_reg disp src_reg)
  | [.MemSib base (some idx) scale disp, .Reg src] => plain do
    let base_reg ← reg64_from base
    let index_reg ← reg64_from idx
    let src_reg ← reg64_from src
    match width with
    | .W8 => push (mov_mem_sib_disp_reg8 base_reg index_reg (sib_scale_bits scale) disp src_reg)
    | .W16 => push (mov_mem_sib_disp_reg16 base_reg index_reg (sib_scale_bits scale) disp src_reg)
    | .W32 => push (mov_mem_sib_disp_reg32 base_reg index_reg (sib_scale_bits scale) disp src_reg)
    | .W64 => push (mov_mem_sib_disp_reg64 base_reg index_reg (sib_scale_bits scale) disp src_reg)
  | [.MemSib base (some idx) scale disp, .Imm64 imm] => plain do
    let base_reg ← reg64_from base
    let index_reg ← reg64_from idx
    match width with
    | .W8 => push (mov_mem_sib_disp_imm8 base_reg index_reg (sib_scale_bits scale) disp imm)
    | .W16 => push (mov_mem_sib_disp_imm16 base_reg index_reg (sib_scale_bits scale) disp imm)
    | .W32 => push (mov_mem_sib_disp_imm32 base_reg index_reg (sib_scale_bits scale) disp imm)
    | .W64 =>
      if !fits_i32 imm then fail (.Unsupported mov_q_range)
      else
        push (mov_mem_sib_disp_imm32_sxt base_reg index_reg (sib_scale_bits scale) disp imm)
  | [.Reg dst, .MemRipRel disp] => plain (.push (mov_reg_mem_rip_rel_sized width dst.num disp))
  | [.Reg dst, .MemRipRelSym name addend] =>
    sited (mov_reg_mem_rip_rel_sized width dst.num 0)
      (pc_site (rip_load_offset width dst.num) name .PcRel32 addend)
  | [.MemRipRelSym name addend, .Reg src] =>
    let bs := mov_rip_sized width 0x88 0x89 src.num 0
    -- the source takes the offset before it pushes the four placeholder bytes
    sited bs (pc_site (bs.length - 4) name .PcRel32 addend)
  | [.Reg dst, .MemDisp disp] => plain do
    push (mov_reg_mem_abs_disp32 width (← reg64_from dst) disp)
  | [.MemDisp disp, .Reg src] => plain do
    push (mov_mem_abs_disp32_reg width disp (← reg64_from src))
  | [.MemDisp disp, .Imm64 imm] => plain ( if width = .W64 ∧ !fits_i32 imm then
      .fail (.Unsupported
        "mov_q [disp32], imm64 requires imm ∈ i32 sign-ext range; use movabs r11, imm64 + mov [disp32], r11")
    else .push (mov_mem_abs_disp32_imm width disp imm))
  | ops =>
    if ops.any (·.isVar) then .unreachable var_reached_encoder
    else .fail (.OperandShape (.MovSized width))

/-! ## `encode_mov` -/

/-- An immediate that 32-bit code can hold, read as signed or as unsigned. -/
def fits_32 (imm : Int64) : Bool :=
  fits_i32 imm || (0 ≤ imm.toInt && imm.toInt ≤ 4294967295)

/-- The shapes that 32-bit mode takes for itself; `none` falls through. -/
def encode_mov_mode32 (operands : List Operand) : Option (Emit EncodeOutput) :=
  match operands with
  | [.Reg dst, .Imm64 imm] => some (plain (
    if !fits_32 imm then .fail (.Unsupported "E0019: 64-bit immediate in 32-bit mode")
    else do push (mov_reg32_imm32 (← reg64_from dst) imm)))
  | [.Reg dst, .Reg src] => some (plain do
    push (mov_reg32_reg32 (← reg64_from dst) (← reg64_from src)))
  | [.Reg dst, .SymbolRef name addend] => some do
    let (bs, byte_offset) := mov_reg32_mem_abs32 (← reg64_from dst)
    sited bs (abs_site byte_offset name addend)
  | [.SymbolRef name addend, .Reg src] => some do
    let (bs, byte_offset) := mov_mem_abs32_reg32 (← reg64_from src)
    sited bs (abs_site byte_offset name addend)
  | [.SymbolRef name addend, .Imm64 imm] => some ( if !fits_32 imm then
      .fail (.Unsupported "E0019: mov [abs32], imm: immediate exceeds 32 bits")
    else
      let (bs, byte_offset) := mov_mem_abs32_imm32 imm
      sited bs (abs_site byte_offset name addend))
  | _ => none

/-- The shapes of both modes. A 64-bit immediate that does not fit in 32 bits
reaches memory through `r11`, unless the address itself uses `r11`. -/
def encode_mov_shapes (inst : Instruction) : Emit EncodeOutput :=
  let width := match inst.mnemonic with
    | .MovSized width => width
    | _ => .W64
  match inst.operands with
  | [.Reg dest, .Reg src] => plain do
    push (mov_reg64_reg64 (← reg64_from dest) (← reg64_from src))
  | [.Reg dest, .Imm64 imm] => plain (
    if fits_i32 imm then do push (mov_reg64_imm32 (← reg64_from dest) imm)
    else do push (mov_reg64_imm64 (← reg64_from dest) imm))
  | [.Reg dest, .MemSib base none .X1 disp] => plain do
    push (mov_reg64_mem_reg64_disp (← reg64_from dest) (← reg64_from base) disp)
  | [.MemSib base none .X1 disp, .Reg src] => plain do
    push (mov_mem_reg64_disp_reg64 (← reg64_from base) disp (← reg64_from src))
  -- the source has this arm twice, first for displacement 0, with the same call
  | [.Reg dest, .MemSib base (some index) scale disp] => plain do
    push (mov_reg64_mem_sib_disp (← reg64_from dest) (← reg64_from base) (← reg64_from index)
      (sib_scale_bits scale) disp)
  | [.MemSib base (some index) scale disp, .Reg src] => plain do
    push (mov_mem_sib_disp_reg64 (← reg64_from base) (← reg64_from index)
      (sib_scale_bits scale) disp (← reg64_from src))
  | [.MemSib base none .X1 disp, .Imm64 imm] => plain do
    let base_reg ← reg64_from base
    if fits_i32 imm then push (mov_mem_base_disp_imm32_sxt base_reg disp imm)
    else if base_reg = .R11 then
      fail (.Unsupported
        "mov [r11 + disp], imm64 (out-of-i32-range): scratch-reg r11 collision — pick a different base register")
    else
      push (mov_reg64_imm64 .R11 imm)
      push (mov_mem_reg64_disp_reg64 base_reg disp .R11)
  | [.MemSib base (some idx) scale disp, .Imm64 imm] => plain do
    let base_reg ← reg64_from base
    let index_reg ← reg64_from idx
    if fits_i32 imm then
      push (mov_mem_sib_disp_imm32_sxt base_reg index_reg (sib_scale_bits scale) disp imm)
    else if base_reg = .R11 ∨ index_reg = .R11 then
      fail (.Unsupported
        "mov [r11 or ...+r11*s + disp], imm64 (out-of-i32-range): scratch-reg r11 collision — pick a different base/index register")
    else
      push (mov_reg64_imm64 .R11 imm)
      push (mov_mem_sib_disp_reg64 base_reg index_reg (sib_scale_bits scale) disp .R11)
  -- the immediate is pushed before the placeholder of the displacement
  | [.MemRipRelSym name addend, .Imm64 imm] =>
    if !fits_i32 imm then .fail (.Unsupported mov_q_range)
    else sited ([0x48, 0xC7, 0x05] ++ low 4 imm ++ [0, 0, 0, 0]) (pc_site 3 name .PcRel32 addend)
  | [.Reg dest, .MemDisp disp] => plain do
    push (mov_reg_mem_abs_disp32 width (← reg64_from dest) disp)
  | [.MemDisp disp, .Reg src] => plain do
    push (mov_mem_abs_disp32_reg width disp (← reg64_from src))
  | [.MemDisp disp, .Imm64 imm] => plain (.push (mov_mem_abs_disp32_imm width disp imm))
  | [.Reg dest, .SymbolRef name addend] => do
    sited (op_rip [] .wide [0x8B] (← reg64_from dest).id 0 []) (pc_site 3 name .PcRel32 addend)
  | [.SymbolRef name addend, .Reg src] => do
    sited (op_rip [] .wide [0x89] (← reg64_from src).id 0 []) (pc_site 3 name .PcRel32 addend)
  | [.Reg dest, .MemRipRelSym name addend] => do
    sited (op_rip [] .wide [0x8B] (← reg64_from dest).id 0 []) (pc_site 3 name .PcRel32 addend)
  | [.MemRipRelSym name addend, .Reg src] => do
    sited (op_rip [] .wide [0x89] (← reg64_from src).id 0 []) (pc_site 3 name .PcRel32 addend)
  | ops =>
    if ops.any (·.isVar) then .unreachable var_reached_encoder
    else .fail (.Unsupported "unsupported mov operand shape; check operand types and addressing modes")

/-- After the control and debug registers: segment registers, then the shapes
of 32-bit mode, then the rest. -/
def encode_mov_generic (inst : Instruction) : Emit EncodeOutput :=
  match inst.operands with
  | [.SegReg sreg, .Reg src] => plain do
    push (mov_sreg_reg16 sreg.id (← reg64_from src))
  | operands =>
    match inst.mode with
    | .Mode32 => (encode_mov_mode32 operands).getD (encode_mov_shapes inst)
    | .Mode64 =>
      match operands with
      | [.SymbolRef _ _, .Imm64 _] => .fail (.Unsupported
          "mov [abs], imm not encodable in 64-bit mode without register base; use mov rax, sym; mov [rax], imm")
      | _ => encode_mov_shapes inst

/-- Control and debug registers first. -/
def encode_mov (inst : Instruction) : Emit EncodeOutput := do
  match ← classify inst.operands with
  | .MovToCr => plain (encode_mov_cr_dispatcher inst true)
  | .MovFromCr => plain (encode_mov_cr_dispatcher inst false)
  | .MovToDr => plain (encode_mov_dr_dispatcher inst true)
  | .MovFromDr => plain (encode_mov_dr_dispatcher inst false)
  | .MovGeneric => encode_mov_generic inst

/-- The RIP-relative form pushes its bytes before it checks the addend. -/
def lea_rip (dest : RegId) (name : String) (addend : Int32) : Emit EncodeOutput := do
  push (op_rip [] .wide [0x8D] (← reg64_from dest).id 0 [])
  let biased := addend.toInt + PC32_FIELD_BIAS.toInt
  if biased < -2147483648 ∨ 2147483647 < biased then
    fail (.Unsupported "lea rel32 addend overflows i32")
  else return pc_site 3 name .PcRel32 addend

/-- Of a symbol, the address is absolute in 32-bit mode only. -/
def encode_lea (inst : Instruction) : Emit EncodeOutput :=
  match inst.operands with
  | [.Reg dest, .MemSib base none .X1 disp] => plain do
    push (op_base [] .wide [0x8D] (← reg64_from dest).id (← reg64_from base).id disp [])
  | [.Reg dest, .MemSib base (some index) scale disp] => plain do
    push (op_sib [] .wide [0x8D] (← reg64_from dest).id (← reg64_from base).id
      (← reg64_from index).id (sib_scale_bits scale) disp [])
  | [.Reg dest, .SymbolRef name addend] =>
    if inst.mode = .Mode32 then do
      let (bs, byte_offset) := lea_reg32_mem_abs32 (← reg64_from dest)
      sited bs (abs_site byte_offset name addend)
    else lea_rip dest name addend
  | [.Reg dest, .MemRipRelSym name addend] => lea_rip dest name addend
  | _ => .fail (.Unsupported "lea operand shape not supported by this encoder")

end paideia_as_encoder
