-- `resolve.rs` of `paideia-as-runtime`: the sizes that are estimated for the
-- layout, and the rewriting of symbols and labels into numbers.
import PaideiaAs.Encoder.Instruction
import Mathlib.Algebra.Ring.Nat

namespace paideia_as_runtime

def IntWidth.estimated_size : IntWidth → Nat
  | .W8 => 3
  | .W16 => 4
  | .W32 => 5
  | .W64 => 10

/-- `Mnemonic::estimated_size`. Only the indexed forms of `jmp` look at the
operands. -/
def Mnemonic.estimated_size (operands : List Operand) : Mnemonic → Nat
  | .Hlt | .Cli | .Cld | .Sti | .Std | .Nop => 1
  | .Cpuid | .Wrmsr | .Rdmsr | .Syscall | .Rdtsc => 2
  | .In _ | .Out _ => 2
  | .Ret => 1
  | .Jcc _ => 6
  | .Setcc _ => 4
  | .Jmp =>
    match operands with
    | [.MemSymIndexed _ _ index _] => if index.num < 8 then 7 else 8
    | [.MemDispIndexed _ index _] => if index.num < 8 then 7 else 8
    | _ => 5
  | .Call => 5
  | .Lgdt | .Lidt => 7
  | .Invlpg => 7
  | .Invpcid => 11
  | .RepMovsb => 2
  | .Mov => 10
  | .Movzx | .Movsx => 10
  | .Add | .Sub | .Adc _ | .Sbb _ | .Cmp | .Test => 10
  | .CmpSized width => width.estimated_size
  | .Popcnt _ => 9
  | .Crc32 _ => 9
  | .Bsf _ | .Bsr _ | .Tzcnt _ => 10
  | .Bt _ | .Bts _ | .Btr _ | .Btc _ | .LockBts _ | .LockBtr _ | .LockBtc _ => 9
  | .LockAnd _ | .LockOr _ | .LockXor _ => 9
  | .Lea => 10
  | .MovCr _ | .MovDr _ => 10
  | .Iret => 1
  | .Iretq => 1
  | .Sysret => 1
  | .Swapgs => 2
  | .Ud2 => 2
  | .Endbr64 | .Endbr32 => 4
  | .RepStosq => 2
  | .RepStosb => 2
  | .RepMovsq => 3
  | .Int => 2
  | .FarJmp => 7
  | .Not => 4
  | .Bswap => 3
  | .Bswap32 => 3
  | .Div | .Idiv | .Mul => 4
  | .Ltr => 4
  | .Push => 5
  | .Pop => 2
  | .Pushfq | .Popfq => 1
  | .Int3 => 1
  | .Shl | .Shr | .Sar | .Rol _ | .Ror _ => 4
  | .Imul => 10
  | .And | .Or | .Xor => 10
  | .MovSized width => width.estimated_size
  | .Xchg => 8
  | .LockCmpxchg => 10
  | .LockCmpxchg32 => 10
  | .LockCmpxchg16b => 10
  | .Mfence => 3
  | .Lfence | .Sfence => 3
  | .Pause => 2
  | .Wbinvd | .Invd => 2
  | .Fxsave | .Fxrstor | .Xsaveopt | .Xrstor => 9
  | .Xgetbv | .Xsetbv => 3
  | .Clflush | .Clflushopt => 9
  | .Prefetchnta | .Prefetcht0 | .Prefetcht1 | .Prefetcht2 => 9
  | .Inc | .Dec => 3
  | .Movnti _ => 8
  | .LockXadd _ => 8
  | .LockAdd _ | .LockSub _ => 9
  | .LockInc _ => 9
  | .Vpxor => 7
  | .Vpcmpeqb => 7
  | .Vpmovmskb => 7
  | .Vmovdqu _ => 11
  | .MovSd | .MovSs | .AddSd | .AddSs | .SubSd | .SubSs | .MulSd | .MulSs | .DivSd | .DivSs
  | .Sqrtsd | .Sqrtss | .Ucomisd | .Ucomiss | .Comisd | .Comiss
  | .Cvtsi2sd | .Cvtsi2ss | .Cvttsd2si | .Cvttss2si | .MovdBitcast _ | .MovqBitcast _ => 5

def Instruction.estimated_size (ins : Instruction) : Nat := ins.mnemonic.estimated_size ins.operands

/-! ## The resolver -/

inductive ResolveError where
  | UnknownSymbol (instr_index operand_index : Nat) (name : String)
  | UnknownLabel (instr_index operand_index : Nat) (name : String)
  | OutOfRange (instr_index : Nat) (resolved : UInt64) (required_form : String)
  | NotEncodableForMnemonic (instr_index : Nat) (mnemonic : Mnemonic)

/-- A call that does not return `Ok`: an error, or a panic at a label past the
end of the slice. -/
inductive ResolveStop where
  | err (e : ResolveError)
  | panic

/-- The symbol table and the label map, by name. -/
abbrev SymbolTable := String → Option UInt64
abbrev LabelMap := String → Option Nat

/-- Pass 1. The cursor is a `u32` and stops at its largest value. -/
def layout : Nat → List Instruction → List Nat
  | _, [] => []
  | cursor, ins :: rest => cursor :: layout (min (cursor + ins.estimated_size) 4294967295) rest

section

variable (symbols : SymbolTable) (labels : LabelMap) (offsets : List Nat)

/-- `symbols.get(name)`, or the error that names the operand. -/
def symbol_address (i j : Nat) (name : String) : Except ResolveStop UInt64 :=
  match symbols name with
  | some addr => .ok addr
  | none => .error (.err (.UnknownSymbol i j name))

/-- `i32::try_from`. -/
def displacement (i : Nat) (sym_addr : UInt64) (resolved : Int64) : Except ResolveStop Int32 :=
  if -2147483648 ≤ resolved.toInt ∧ resolved.toInt ≤ 2147483647 then .ok resolved.toInt32
  else .error (.err (.OutOfRange i sym_addr "i32"))

/-- One operand of pass 2. A label becomes its offset in the buffer. -/
def resolve_operand (i j : Nat) : Operand → Except ResolveStop Operand
  | .SymbolRef name addend => do
    let sym_addr ← symbol_address symbols i j name
    .ok (.Imm64 (sym_addr.toInt64 + addend.toInt64))
  | .LabelRef name addend =>
    match labels name with
    | some label_idx =>
      match offsets[label_idx]? with
      | some label_offset => .ok (.Imm64 (Int64.ofNat label_offset + addend.toInt64))
      | none => .error .panic
    | none => .error (.err (.UnknownLabel i j name))
  | .MemRipRelSym name addend => do
    let sym_addr ← symbol_address symbols i j name
    .ok (.MemRipRel (← displacement i sym_addr (sym_addr.toInt64 + addend.toInt64)))
  | .MemSymIndexed name addend index scale => do
    let sym_addr ← symbol_address symbols i j name
    .ok (.MemDispIndexed (← displacement i sym_addr (sym_addr.toInt64 + addend.toInt64)) index scale)
  | op => .ok op

/-- The operands from place `j` on. What comes after an error stays as it was. -/
def resolve_operands (i : Nat) : Nat → List Operand → List Operand × Except ResolveStop Unit
  | _, [] => ([], .ok ())
  | j, op :: ops =>
    match resolve_operand symbols labels offsets i j op with
    | .ok op' => (op' :: (resolve_operands i (j + 1) ops).1, (resolve_operands i (j + 1) ops).2)
    | .error e => (op :: ops, .error e)

def resolve_from : Nat → List Instruction → List Instruction × Except ResolveStop Unit
  | _, [] => ([], .ok ())
  | i, ins :: rest =>
    let (operands, r) := resolve_operands symbols labels offsets i 0 ins.operands
    match r with
    | .ok () =>
      ({ ins with operands } :: (resolve_from (i + 1) rest).1, (resolve_from (i + 1) rest).2)
    | .error e => ({ ins with operands } :: rest, .error e)

end

/-- The slice after the call, and what the call returns. -/
def resolve_symbols (instructions : List Instruction) (symbols : SymbolTable) (labels : LabelMap) :
    List Instruction × Except ResolveStop Unit :=
  resolve_from symbols labels (layout 0 instructions) 0 instructions

/-! ## What a resolved instruction is -/

/-- The offset that pass 1 gives a label: the estimates before it, added up. -/
def estimated_offset (instructions : List Instruction) (l : Nat) : Nat :=
  min ((instructions.take l).map Instruction.estimated_size).sum 4294967295

theorem layout_get (instructions : List Instruction) (cursor l : Nat) (hl : l < instructions.length)
    (hc : cursor ≤ 4294967295) :
    (layout cursor instructions)[l]? =
      some (min (cursor + ((instructions.take l).map Instruction.estimated_size).sum) 4294967295) := by
  induction instructions generalizing cursor l with
  | nil => simp at hl
  | cons ins rest ih =>
    cases l with
    | zero => simp [layout, hc]
    | succ l =>
      simp only [layout, List.getElem?_cons_succ, List.take_succ_cons, List.map_cons, List.sum_cons]
      rw [ih _ l (by simpa using hl) (Nat.min_le_right ..)]
      congr 1
      omega

theorem length_layout (cursor : Nat) (instructions : List Instruction) :
    (layout cursor instructions).length = instructions.length := by
  induction instructions generalizing cursor with
  | nil => rfl
  | cons ins rest ih => simp [layout, ih]

/-- A label's offset, when the call did not panic on it. -/
theorem layout_zero_get {instructions : List Instruction} {l o : Nat}
    (h : (layout 0 instructions)[l]? = some o) :
    l < instructions.length ∧ o = estimated_offset instructions l := by
  have hl : l < instructions.length := by
    obtain ⟨hlt, _⟩ := List.getElem?_eq_some_iff.mp h
    rwa [length_layout] at hlt
  refine ⟨hl, ?_⟩
  rw [layout_get instructions 0 l hl (by decide), Nat.zero_add] at h
  exact (Option.some.inj h).symm

/-- Each instruction keeps its place and everything but its operands. -/
theorem resolve_from_get {symbols : SymbolTable} {labels : LabelMap} {offsets : List Nat}
    {instructions : List Instruction} {i k : Nat} {ins : Instruction}
    (h : (resolve_from symbols labels offsets i instructions).2 = .ok ())
    (hk : instructions[k]? = some ins) :
    (resolve_from symbols labels offsets i instructions).1[k]? =
        some { ins with operands := (resolve_operands symbols labels offsets (i + k) 0 ins.operands).1 } ∧
      (resolve_operands symbols labels offsets (i + k) 0 ins.operands).2 = .ok () := by
  induction instructions generalizing i k with
  | nil => simp at hk
  | cons first rest ih =>
    rcases hr : resolve_operands symbols labels offsets i 0 first.operands with ⟨ops, r⟩
    cases r with
    | error e => simp [resolve_from, hr] at h
    | ok u =>
      simp only [resolve_from, hr] at h ⊢
      cases k with
      | zero =>
        obtain rfl : first = ins := by simpa using hk
        simp [hr]
      | succ k =>
        simp only [List.getElem?_cons_succ] at hk ⊢
        have := ih h hk
        rwa [Nat.add_right_comm, Nat.add_assoc] at this

theorem resolve_label {symbols : SymbolTable} {labels : LabelMap} {offsets : List Nat} {i : Nat}
    {name : String} {addend : Int32}
    (h : (resolve_operands symbols labels offsets i 0 [.LabelRef name addend]).2 = .ok ()) :
    ∃ l o, labels name = some l ∧ offsets[l]? = some o ∧
      (resolve_operands symbols labels offsets i 0 [.LabelRef name addend]).1 =
        [.Imm64 (Int64.ofNat o + addend.toInt64)] := by
  simp only [resolve_operands, resolve_operand] at h ⊢
  cases hl : labels name with
  | none => simp [hl] at h
  | some l =>
    cases ho : offsets[l]? with
    | none => simp [hl, ho] at h
    | some o =>
      refine ⟨l, o, rfl, ho, ?_⟩
      simp only [ho]

end paideia_as_runtime
