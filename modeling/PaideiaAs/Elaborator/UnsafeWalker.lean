-- The walker of unsafe blocks: statements become instructions, and labels are
-- bound to the instruction that comes after them.
import PaideiaAs.Elaborator.Operand

namespace paideia_as_elaborator

open paideia_as_runtime

/-! ## Mnemonics -/

inductive CpuFeature where
  | Cx16 | Popcnt | Bmi1 | Cet | Sse42 | Avx | Avx512F | Xsave | Xsaveopt
  deriving DecidableEq

def CpuFeature.as_str : CpuFeature → String
  | .Cx16 => "cx16"
  | .Popcnt => "popcnt"
  | .Bmi1 => "bmi1"
  | .Cet => "cet"
  | .Sse42 => "sse4.2"
  | .Avx => "avx"
  | .Avx512F => "avx512f"
  | .Xsave => "xsave"
  | .Xsaveopt => "xsaveopt"

def required_feature : Mnemonic → Option CpuFeature
  | .LockCmpxchg16b => some .Cx16
  | .Popcnt _ => some .Popcnt
  | .Crc32 _ => some .Sse42
  | .Tzcnt _ => some .Bmi1
  | .Endbr64 | .Endbr32 => some .Cet
  | .Xsaveopt => some .Xsaveopt
  | .Xrstor => some .Xsave
  | _ => none

def arity : Mnemonic → Nat
  | .Cli | .Cld | .Sti | .Std | .Hlt | .Ud2 | .Nop | .Endbr64 | .Endbr32 | .Swapgs | .Cpuid
  | .Wrmsr | .Rdmsr | .Iret | .Iretq | .Sysret | .Syscall | .RepStosq | .RepStosb | .RepMovsq
  | .Rdtsc | .Pushfq | .Popfq | .Int3 | .Sfence | .Lfence | .Pause | .Wbinvd | .Invd | .Xgetbv
  | .Xsetbv | .Mfence => 0
  | .Call | .Ret | .Jmp | .Jcc _ | .Setcc _ | .RepMovsb | .Lgdt | .Lidt | .MovCr _ | .MovDr _
  | .In _ | .Out _ | .Int | .Not | .Push | .Pop | .FarJmp | .Invlpg | .Div | .Idiv | .Mul | .Ltr
  | .Fxsave | .Fxrstor | .Xsaveopt | .Xrstor | .Clflush | .Clflushopt | .Prefetchnta | .Prefetcht0
  | .Prefetcht1 | .Prefetcht2 | .Inc | .Dec | .Bswap | .Bswap32 | .LockCmpxchg16b | .LockInc _ => 1
  | .Vpxor | .Vpcmpeqb => 3
  | _ => 2

def implicit_writes : Mnemonic → List RegId
  | .LockCmpxchg => [⟨0⟩]
  | .LockCmpxchg32 => [⟨0⟩]
  | .LockCmpxchg16b => [⟨0⟩, ⟨2⟩]
  | _ => []

def MNEMONIC_TABLE : List (String × Mnemonic) :=
  [("mov", .Mov), ("add", .Add), ("sub", .Sub), ("cmp", .Cmp), ("jmp", .Jmp), ("call", .Call),
    ("ret", .Ret), ("rep_movsb", .RepMovsb), ("lea", .Lea), ("nop", .Nop), ("lgdt", .Lgdt),
    ("lidt", .Lidt), ("wrmsr", .Wrmsr), ("rdmsr", .Rdmsr), ("iret", .Iret), ("iretq", .Iretq),
    ("sysret", .Sysret), ("syscall", .Syscall), ("swapgs", .Swapgs), ("cpuid", .Cpuid),
    ("cli", .Cli), ("cld", .Cld), ("sti", .Sti), ("std", .Std), ("hlt", .Hlt), ("ud2", .Ud2),
    ("endbr64", .Endbr64), ("endbr32", .Endbr32), ("rep_stosq", .RepStosq),
    ("rep_stosb", .RepStosb), ("rep_movsq", .RepMovsq), ("farjmp", .FarJmp), ("ljmp", .FarJmp),
    ("je", .Jcc .Eq), ("jne", .Jcc .Ne), ("jl", .Jcc .Lt), ("jle", .Jcc .Le), ("jg", .Jcc .Gt),
    ("jge", .Jcc .Ge), ("jb", .Jcc .Below), ("jbe", .Jcc .BelowOrEqual), ("ja", .Jcc .Above),
    ("jae", .Jcc .AboveOrEqual), ("jz", .Jcc .Zero), ("jnz", .Jcc .NonZero), ("js", .Jcc .Sign),
    ("jns", .Jcc .NotSign), ("jo", .Jcc .Overflow), ("jno", .Jcc .NotOverflow),
    ("seto", .Setcc .Overflow), ("setno", .Setcc .NotOverflow), ("setb", .Setcc .Below),
    ("setnb", .Setcc .AboveOrEqual), ("setc", .Setcc .Below), ("setnc", .Setcc .AboveOrEqual),
    ("setnae", .Setcc .Below), ("setae", .Setcc .AboveOrEqual), ("sete", .Setcc .Eq),
    ("setz", .Setcc .Zero), ("setne", .Setcc .Ne), ("setnz", .Setcc .NonZero),
    ("setbe", .Setcc .BelowOrEqual), ("setna", .Setcc .BelowOrEqual), ("seta", .Setcc .Above),
    ("setnbe", .Setcc .Above), ("sets", .Setcc .Sign), ("setns", .Setcc .NotSign),
    ("setp", .Setcc .Parity), ("setpe", .Setcc .Parity), ("setnp", .Setcc .NotParity),
    ("setpo", .Setcc .NotParity), ("setl", .Setcc .Lt), ("setnge", .Setcc .Lt),
    ("setge", .Setcc .Ge), ("setnl", .Setcc .Ge), ("setle", .Setcc .Le), ("setng", .Setcc .Le),
    ("setg", .Setcc .Gt), ("setnle", .Setcc .Gt), ("mov_cr", .MovCr true),
    ("mov_from_cr", .MovCr false), ("mov_dr", .MovDr true), ("mov_from_dr", .MovDr false),
    ("in_al", .In 1), ("in_ax", .In 2), ("in_eax", .In 4), ("out_al", .Out 1), ("out_ax", .Out 2),
    ("out_eax", .Out 4), ("invlpg", .Invlpg), ("invpcid", .Invpcid), ("rdtsc", .Rdtsc),
    ("and", .And), ("or", .Or), ("xor", .Xor), ("shl", .Shl), ("shr", .Shr), ("sar", .Sar),
    ("rol_d", .Rol .W32), ("rol_q", .Rol .W64), ("ror_d", .Ror .W32), ("ror_q", .Ror .W64),
    ("imul", .Imul), ("mul", .Mul), ("push", .Push), ("pop", .Pop), ("pushfq", .Pushfq),
    ("popfq", .Popfq), ("int3", .Int3), ("div", .Div), ("idiv", .Idiv), ("ltr", .Ltr),
    ("xchg", .Xchg), ("lock_cmpxchg", .LockCmpxchg), ("lock_cmpxchg_d", .LockCmpxchg32),
    ("lock_cmpxchg16b", .LockCmpxchg16b), ("mfence", .Mfence), ("sfence", .Sfence),
    ("lfence", .Lfence), ("pause", .Pause), ("wbinvd", .Wbinvd), ("invd", .Invd),
    ("clflush", .Clflush), ("clflushopt", .Clflushopt), ("fxsave", .Fxsave), ("fxrstor", .Fxrstor),
    ("xsaveopt", .Xsaveopt), ("xrstor", .Xrstor), ("xgetbv", .Xgetbv), ("xsetbv", .Xsetbv),
    ("inc", .Inc), ("dec", .Dec), ("not", .Not), ("bswap", .Bswap), ("bswap_d", .Bswap32),
    ("mov_b", .MovSized .W8), ("mov_w", .MovSized .W16), ("mov_d", .MovSized .W32),
    ("mov_q", .MovSized .W64), ("movnti_d", .Movnti .W32), ("movnti_q", .Movnti .W64),
    ("lock_xadd_d", .LockXadd .W32), ("lock_xadd_q", .LockXadd .W64), ("lock_add_d", .LockAdd .W32),
    ("lock_add_q", .LockAdd .W64), ("lock_sub_d", .LockSub .W32), ("lock_sub_q", .LockSub .W64),
    ("adc_d", .Adc .W32), ("adc_q", .Adc .W64), ("sbb_d", .Sbb .W32), ("sbb_q", .Sbb .W64),
    ("popcnt_d", .Popcnt .W32), ("popcnt_q", .Popcnt .W64), ("crc32_q", .Crc32 .W64),
    ("bsf_q", .Bsf .W64), ("bsr_q", .Bsr .W64), ("tzcnt_q", .Tzcnt .W64), ("bt_d", .Bt .W32),
    ("bt_q", .Bt .W64), ("bts_d", .Bts .W32), ("bts_q", .Bts .W64), ("btr_d", .Btr .W32),
    ("btr_q", .Btr .W64), ("btc_d", .Btc .W32), ("btc_q", .Btc .W64), ("lock_bts_q", .LockBts .W64),
    ("lock_btr_q", .LockBtr .W64), ("lock_btc_q", .LockBtc .W64), ("lock_and_q", .LockAnd .W64),
    ("lock_or_q", .LockOr .W64), ("lock_xor_q", .LockXor .W64), ("prefetchnta", .Prefetchnta),
    ("prefetcht0", .Prefetcht0), ("prefetcht1", .Prefetcht1), ("prefetcht2", .Prefetcht2),
    ("vmovdqu_ld", .Vmovdqu false), ("vmovdqu_st", .Vmovdqu true), ("vpxor", .Vpxor),
    ("vpcmpeqb", .Vpcmpeqb), ("vpmovmskb", .Vpmovmskb), ("movzx", .Movzx), ("movsx", .Movsx),
    ("movsd", .MovSd), ("movss", .MovSs), ("addsd", .AddSd), ("addss", .AddSs), ("subsd", .SubSd),
    ("subss", .SubSs), ("mulsd", .MulSd), ("mulss", .MulSs), ("divsd", .DivSd), ("divss", .DivSs),
    ("sqrtsd", .Sqrtsd), ("sqrtss", .Sqrtss), ("ucomisd", .Ucomisd), ("ucomiss", .Ucomiss),
    ("comisd", .Comisd), ("comiss", .Comiss), ("cvtsi2sd", .Cvtsi2sd), ("cvtsi2ss", .Cvtsi2ss),
    ("cvttsd2si", .Cvttsd2si), ("cvttss2si", .Cvttss2si), ("movd_ld", .MovdBitcast true),
    ("movd_st", .MovdBitcast false), ("movq_ld", .MovqBitcast true),
    ("movq_st", .MovqBitcast false)]

/-- The spelling does not depend on the case of its letters. -/
def resolve_mnemonic (name : String) : Option Mnemonic :=
  let lower_name := String.ofList (name.toList.map Char.toLower)
  (MNEMONIC_TABLE.find? fun e => e.1 == lower_name).map (·.2)

/-! ## Lowering one statement -/

structure Diagnostic where
  code : Nat
  message : String
  deriving DecidableEq

/-- What a run is given besides the blocks. -/
structure Env where
  layout : Option (List Nat)
  bindings : String → Bool
  instr_mode : InstrMode
  enabled_features : List CpuFeature
  unsafe_body_to_lambda : Nat → Option Nat

/-- The width that the spelling of an operand implies, if it is a narrow one. -/
def narrow_width (operands : List Expr) (idx : Nat) : Option IntWidth :=
  ((operands[idx]?.bind get_register_name).bind register_name_width).filter (· ≠ .W64)

/-- `cmp` with a narrow register. -/
def size_cmp (mnemonic : Mnemonic) (parsed : List Operand) (operands : List Expr) : Mnemonic :=
  match mnemonic, parsed with
  | .Cmp, [.Reg _, .Imm64 _] | .Cmp, [.Reg _, .Reg _] =>
    ((narrow_width operands 0).map Mnemonic.CmpSized).getD .Cmp
  | .Cmp, [.MemSib _ _ _ _, .Reg _] =>
    ((narrow_width operands 1).map Mnemonic.CmpSized).getD .Cmp
  | m, _ => m

/-- `mov` with a narrow register. -/
def size_mov (mnemonic : Mnemonic) (parsed : List Operand) (operands : List Expr) : Mnemonic :=
  match mnemonic, parsed with
  | .Mov, [.Reg _, .Imm64 _] | .Mov, [.Reg _, .MemSib _ _ _ _] =>
    ((narrow_width operands 0).map Mnemonic.MovSized).getD .Mov
  | .Mov, [.MemSib _ _ _ _, .Reg _] =>
    ((narrow_width operands 1).map Mnemonic.MovSized).getD .Mov
  | m, _ => m

/-- The source width of `movzx` and `movsx`. -/
def movx_encoding_hint (mnemonic : Mnemonic) (parsed : List Operand) (operands : List Expr) :
    Option EncodingHint :=
  match mnemonic, parsed, narrow_width operands 1 with
  | .Movzx, [.Reg _, .Reg _], some .W8 => some ⟨0, 1⟩
  | .Movzx, [.Reg _, .Reg _], some .W16 => some ⟨0, 2⟩
  | .Movsx, [.Reg _, .Reg _], some .W8 => some ⟨0, 1⟩
  | .Movsx, [.Reg _, .Reg _], some .W16 => some ⟨0, 2⟩
  | .Movsx, [.Reg _, .Reg _], some .W32 => some ⟨0, 4⟩
  | _, _, _ => none

def operand_diagnostic : OperandError → Diagnostic
  | .UnknownRegister _ => ⟨1606, "malformed operand in unsafe block: unknown register"⟩
  | .MalformedOperand => ⟨1606, "malformed operand in unsafe block"⟩
  | .UnresolvedFieldOffset => ⟨1608, "field offset not resolved; declare struct before use"⟩

/-- One warning for each operand that names a register written behind it. -/
def clobber_warnings (mnemonic_str : String) (mnemonic : Mnemonic) (parsed : List Operand) :
    List Diagnostic :=
  parsed.filterMap fun op =>
    let touched := match op with
      | .Reg r => [r]
      | .MemSib base index _ _ => base :: index.toList
      | _ => []
    (touched.find? fun r => (implicit_writes mnemonic).contains r).map fun r =>
      ⟨1613, "instruction '" ++ mnemonic_str ++ "' implicitly writes register RegId(" ++
        toString r.num.toNat ++
        "), which appears in an explicit operand — value will be silently overwritten"⟩

/-- A label that the block does not declare. -/
def unknown_label (labels : List String) (parsed : List Operand) : Option String :=
  parsed.findSome? fun
    | .LabelRef name _ => if labels.contains name then none else some name
    | _ => none

/-- A symbol where the mnemonic takes none. -/
def unsupported_symbol (mnemonic : Mnemonic) (parsed : List Operand) : Option String :=
  if supports_symbol_ref mnemonic then none
  else parsed.findSome? fun
    | .SymbolRef name _ => some name
    | _ => none

/-- The operands of a statement: none for a mnemonic without operands, else each
operand up to the first error. -/
def parse_operands (env : Env) (labels : List String) (mnemonic_str : String) (mnemonic : Mnemonic)
    (operands : List Expr) : List Diagnostic × Option (List Operand) :=
  if arity mnemonic = 0 ∧ operands ≠ [] then
    ([⟨1607, "unexpected operands for zero-arity instruction: " ++ mnemonic_str⟩], some [])
  else
    match operands.mapM (parse_operand_from_ast ⟨env.layout, env.bindings, labels⟩ mnemonic) with
    | .ok parsed => ([], some parsed)
    | .error e => ([operand_diagnostic e], none)

/-- What follows once the operands are known: the checks, and the instruction. -/
def check_operands (env : Env) (labels : List String) (mnemonic_str : String) (mnemonic : Mnemonic)
    (operands : List Expr) (parsed : List Operand) : List Diagnostic × Option Instruction :=
  match unknown_label labels parsed with
  | some name => ([⟨1610, "unknown label reference: " ++ name⟩], none)
  | none =>
    let mnemonic := size_cmp mnemonic parsed operands
    let hint := movx_encoding_hint mnemonic parsed operands
    match unsupported_symbol mnemonic parsed with
    | some name =>
      ([⟨1611, "SymbolRef operand '" ++ name ++ "' not supported for mnemonic " ++ mnemonic_str ++
        " in Phase 6; only call and jmp support symbol references"⟩], none)
    | none =>
      (clobber_warnings mnemonic_str mnemonic parsed,
        some ⟨size_mov mnemonic parsed operands, parsed, hint, env.instr_mode⟩)

def missing_feature (env : Env) (mnemonic : Mnemonic) : Option CpuFeature :=
  (required_feature mnemonic).filter fun f => !env.enabled_features.contains f

/-- The instruction of a statement, with the diagnostics on the way. -/
def lower_instruction (env : Env) (labels : List String) (mnemonic_str : String)
    (operands : List Expr) : List Diagnostic × Option Instruction :=
  match resolve_mnemonic mnemonic_str with
  | none => ([⟨1605, "unknown mnemonic: " ++ mnemonic_str⟩], none)
  | some mnemonic =>
    match missing_feature env mnemonic with
    | some feature =>
      ([⟨1612, "instruction '" ++ mnemonic_str ++ "' requires CPU feature '" ++ feature.as_str ++
        "' but it is not declared; add `#![target_features = \"" ++ feature.as_str ++
        "\"]` at the module root"⟩], none)
    | none =>
      match parse_operands env labels mnemonic_str mnemonic operands with
      | (diags, none) => (diags, none)
      | (diags, some parsed) =>
        let (more, inst) := check_operands env labels mnemonic_str mnemonic operands parsed
        (diags ++ more, inst)

/-! ## The arena -/

/-- The node arena, of which only the size matters here, and the instruction
table: an entry is an instruction with its emission order, and the newest entry
of a node counts. -/
structure IrArena where
  len : Nat
  instructions : List (Nat × Instruction × Nat)

def IrArena.alloc (arena : IrArena) : Nat × IrArena :=
  (arena.len + 1, { arena with len := arena.len + 1 })

def IrArena.insert (arena : IrArena) (id : Nat) (inst : Instruction) (emission_order : Nat) :
    IrArena :=
  { arena with instructions := (id, inst, emission_order) :: arena.instructions }

/-- What a run changes. `sink` has every diagnostic, `diags` those that are
returned. -/
structure Walk where
  arena : IrArena
  next_emission_order : Nat
  instr_to_lambda : List (Nat × Nat)
  stmt_expr_order_base : List ((Nat × Nat) × Nat)
  label_to_instr : List (String × Nat)
  all_labels : List String
  first_instrs : List (Option Nat)
  diags : List Diagnostic
  sink : List Diagnostic

def Walk.report (w : Walk) (ds : List Diagnostic) : Walk :=
  { w with diags := w.diags ++ ds, sink := w.sink ++ ds }

/-- An instruction at a node, with the next emission order. -/
def Walk.put (w : Walk) (owning_lambda_id : Option Nat) (id : Nat) (inst : Instruction) : Walk :=
  { w with
    arena := w.arena.insert id inst w.next_emission_order
    next_emission_order := w.next_emission_order + 1
    instr_to_lambda := match owning_lambda_id with
      | some lambda_id => (id, lambda_id) :: w.instr_to_lambda
      | none => w.instr_to_lambda }

def Walk.alloc (w : Walk) : Nat × Walk :=
  (w.arena.alloc.1, { w with arena := w.arena.alloc.2 })

def needs_expansion (imm : Int64) : Bool := imm.toInt32.toInt64 != imm

def R11 : RegId := ⟨11⟩

def is_bitop : Mnemonic → Bool
  | .Or | .And | .Xor => true
  | _ => false

/-- `movabs r11, imm64` and the operation with `r11`, on two nodes of their
own. -/
def expand_bitop_imm64 (w : Walk) (owning_lambda_id : Option Nat) (inst : Instruction) (dst : RegId)
    (imm : Int64) : Option Nat × Walk :=
  if dst = R11 then
    (none, { w with sink := w.sink ++ [⟨1615, "cannot expand or/and/xor with imm64 when destination " ++
      "is r11; would clobber scratch register used for expansion"⟩] })
  else
    let (mov_id, w) := w.alloc
    let w := w.put owning_lambda_id mov_id ⟨.Mov, [.Reg R11, .Imm64 imm], none, inst.mode⟩
    let (op_id, w) := w.alloc
    let w := w.put owning_lambda_id op_id ⟨inst.mnemonic, [.Reg dst, .Reg R11], none, inst.mode⟩
    (some mov_id, w)

/-- The node of an instruction. A node is allocated first, also where the
expansion then takes nodes of its own. -/
def insert_instruction (w : Walk) (owning_lambda_id : Option Nat) (inst : Instruction) :
    Option Nat × Walk :=
  let (ir_node_id, w) := w.alloc
  match inst.operands with
  | [.Reg dst, .Imm64 imm] =>
    if is_bitop inst.mnemonic ∧ inst.mode = .Mode64 ∧ needs_expansion imm then
      expand_bitop_imm64 w owning_lambda_id inst dst imm
    else (some ir_node_id, w.put owning_lambda_id ir_node_id inst)
  | _ => (some ir_node_id, w.put owning_lambda_id ir_node_id inst)

def process_instruction_stmt (env : Env) (labels : List String) (owning_lambda_id : Option Nat)
    (w : Walk) (mnemonic_str : String) (operands : List Expr) : Option Nat × Walk :=
  match lower_instruction env labels mnemonic_str operands with
  | (diags, none) => (none, w.report diags)
  | (diags, some inst) => insert_instruction (w.report diags) owning_lambda_id inst

/-! ## Blocks -/

inductive Stmt where
  | Label (name : String)
  | Instruction (mnemonic : String) (operands : List Expr)
  | Expr
  | Other (kind : String)

def STMT_EXPR_ORDER_RESERVE : Nat := 4096

def Stmt.label? : Stmt → Option String
  | .Label name => some name
  | _ => none

/-- The labels of a block, each name once. -/
def collect_labels (block : List Stmt) : List String :=
  (block.filterMap Stmt.label?).foldl (fun labels name =>
    if labels.contains name then labels else labels ++ [name]) []

def duplicate_labels (block : List Stmt) : List Diagnostic :=
  ((block.filterMap Stmt.label?).foldl (fun (seen, ds) name =>
    if seen.contains name then (seen, ds ++ [⟨1609, "duplicate label declaration: " ++ name⟩])
    else (name :: seen, ds)) (([] : List String), ([] : List Diagnostic))).2

/-- The walk inside a block. -/
structure BlockWalk where
  walk : Walk
  stmt_idx : Nat
  pending_labels : List String
  block_first_instr : Option Nat

/-- The labels that wait are all bound to the node. -/
def bind_labels (pending_labels : List String) (id : Nat) (w : Walk) : Walk :=
  { w with label_to_instr :=
      pending_labels.foldl (fun table label_name => (label_name, id) :: table) w.label_to_instr }

/-- A block with its unsafe node and its labels. -/
structure Block where
  ir_node_id : Nat
  stmts : List Stmt

def Block.labels (b : Block) : List String := collect_labels b.stmts

/-- A marker for the labels before a call statement. Its emission order is the
reserved one. -/
def put_marker (env : Env) (owning_lambda_id : Option Nat) (reserved_base : Nat) (w : Walk) :
    Nat × Walk :=
  let (marker_id, w) := w.alloc
  (marker_id, { w with
    arena := w.arena.insert marker_id ⟨.Nop, [], none, env.instr_mode⟩ reserved_base
    instr_to_lambda := match owning_lambda_id with
      | some lambda_id => (marker_id, lambda_id) :: w.instr_to_lambda
      | none => w.instr_to_lambda })

def walk_stmt (env : Env) (b : Block) (s : BlockWalk) (stmt : Stmt) : BlockWalk :=
  let owning_lambda_id := env.unsafe_body_to_lambda b.ir_node_id
  let s' := { s with stmt_idx := s.stmt_idx + 1 }
  match stmt with
  | .Label name => { s' with pending_labels := s.pending_labels ++ [name] }
  | .Instruction mnemonic operands =>
    match process_instruction_stmt env b.labels owning_lambda_id s.walk mnemonic operands with
    | (some instr_id, w) =>
      { s' with
        walk := bind_labels s.pending_labels instr_id w
        pending_labels := []
        block_first_instr := s.block_first_instr.or (some instr_id) }
    | (none, w) => { s' with walk := w, pending_labels := [] }
  | .Expr =>
    let reserved_base := s.walk.next_emission_order
    let w := { s.walk with
      next_emission_order := reserved_base + STMT_EXPR_ORDER_RESERVE
      stmt_expr_order_base := ((b.ir_node_id, s.stmt_idx), reserved_base) ::
        s.walk.stmt_expr_order_base }
    if s.pending_labels = [] then { s' with walk := w }
    else
      let (marker_id, w) := put_marker env owning_lambda_id reserved_base w
      { s' with
        walk := bind_labels s.pending_labels marker_id w
        pending_labels := []
        block_first_instr := s.block_first_instr.or (some marker_id) }
  | .Other kind =>
    { s' with walk := s.walk.report [⟨1614, "unsupported statement in unsafe block: " ++ kind ++
        " — only asm mnemonics and labels are emitted today"⟩] }

/-- The walk at the start of a block: labels first. -/
def enter_block (w : Walk) (b : Block) : BlockWalk :=
  ⟨{ w.report (duplicate_labels b.stmts) with all_labels := b.labels ++ w.all_labels }, 0, [], none⟩

def walk_block (env : Env) (w : Walk) (b : Block) : Walk :=
  let s := b.stmts.foldl (walk_stmt env b) (enter_block w b)
  { s.walk with first_instrs := s.walk.first_instrs ++ [s.block_first_instr] }

/-- The unsafe expressions of the file in source order, against the pending
nodes. A node id of 0 is none, and takes no expression. -/
def match_blocks (pending_ids : List Nat) (exprs : List (List Stmt)) : List Block :=
  ((pending_ids.filter (· ≠ 0)).zip exprs).map fun (id, stmts) => ⟨id, stmts⟩

def run (env : Env) (w : Walk) (pending_ids : List Nat) (exprs : List (List Stmt)) : Walk :=
  (match_blocks pending_ids exprs).foldl (walk_block env) w

end paideia_as_elaborator
