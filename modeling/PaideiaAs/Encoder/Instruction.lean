-- The instruction that the encoder is given: mnemonic, operands and mode, as
-- `paideia-as-runtime` declares them in `instruction/`.
import Mathlib.Data.List.Basic

namespace paideia_as_runtime

/-! ## Operands -/

/-- A register number: 0–15 are the general registers, 16–24 `cr0`–`cr8`,
25–32 `dr0`–`dr7`, 33–36 `spl`–`dil`, 37–52 `ymm0`–`ymm15`, 53–68
`xmm0`–`xmm15`. -/
structure RegId where
  num : UInt8
  deriving DecidableEq

/-- The factor of an index. -/
inductive Scale where
  | X1
  | X2
  | X4
  | X8
  deriving DecidableEq

def Scale.factor : Scale → Nat
  | .X1 => 1
  | .X2 => 2
  | .X4 => 4
  | .X8 => 8

def Scale.from_factor : Nat → Option Scale
  | 1 => some .X1
  | 2 => some .X2
  | 4 => some .X4
  | 8 => some .X8
  | _ => none

/-- The segment registers. -/
inductive SegReg where
  | Es
  | Cs
  | Ss
  | Ds
  | Fs
  | Gs
  deriving DecidableEq

def SegReg.id : SegReg → UInt8
  | .Es => 0
  | .Cs => 1
  | .Ss => 2
  | .Ds => 3
  | .Fs => 4
  | .Gs => 5

/-- The segments that an address may name. -/
inductive SegPrefix where
  | Fs
  | Gs
  deriving DecidableEq

def SegPrefix.byte : SegPrefix → UInt8
  | .Fs => 0x64
  | .Gs => 0x65

/-- An operand: a register, an immediate, an address or a name. -/
inductive Operand where
  | Reg (r : RegId)
  | SegReg (s : SegReg)
  | Imm64 (imm : Int64)
  | MemSib (base : RegId) (index : Option RegId) (scale : Scale) (disp : Int32)
  | MemDisp (disp : Int32)
  | MemRipRel (disp : Int32)
  | MemRipRelSym (name : String) (addend : Int32)
  | MemSeg (seg : SegPrefix) (inner : Operand)
  | SymbolRef (name : String) (addend : Int32)
  | LabelRef (name : String) (addend : Int32)
  | Var (name : String)
  | MemSymIndexed (name : String) (addend : Int32) (index : RegId) (scale : Scale)
  | MemDispIndexed (disp : Int32) (index : RegId) (scale : Scale)
  deriving DecidableEq

def Operand.isVar : Operand → Bool
  | .Var _ => true
  | _ => false

/-! ## Mnemonics -/

/-- The mode of the processor. -/
inductive InstrMode where
  | Mode64
  | Mode32
  deriving DecidableEq

/-- The width of an integer. -/
inductive IntWidth where
  | W8
  | W16
  | W32
  | W64
  deriving DecidableEq

/-- The condition of a jump or a `setcc`. -/
inductive Cond where
  | Eq | Ne | Lt | Le | Gt | Ge
  | Below | BelowOrEqual | Above | AboveOrEqual
  | Zero | NonZero | Sign | NotSign | Overflow | NotOverflow | Parity | NotParity
  deriving DecidableEq

/-- The mnemonics, with what is part of them. -/
inductive Mnemonic where
  | Mov | Add | Sub | Cmp | Test
  | Jcc (cond : Cond) | Setcc (cond : Cond) | Jmp | Call | Ret | RepMovsb | Lea
  | Lgdt | Lidt | MovCr (write : Bool) | MovDr (write : Bool) | Wrmsr | Rdmsr
  | In (width : UInt8) | Out (width : UInt8)
  | Iret | Iretq | Sysret | Syscall | Swapgs | Cpuid | Cli | Cld | Sti | Std | Hlt | Ud2
  | Int | Nop | Endbr64 | Endbr32 | RepStosq | RepStosb | RepMovsq | FarJmp
  | Movzx | Movsx | Not | Bswap | Bswap32 | Push | Pop | Pushfq | Popfq | Int3
  | MovSized (width : IntWidth) | CmpSized (width : IntWidth)
  | Shl | Shr | Sar | Rol (width : IntWidth) | Ror (width : IntWidth)
  | Imul | Mul | And | Or | Xor | Invlpg | Invpcid | Rdtsc | Div | Idiv | Ltr | Xchg
  | LockCmpxchg | LockCmpxchg32 | LockCmpxchg16b | Mfence | Sfence | Lfence | Pause
  | Wbinvd | Invd | Fxsave | Fxrstor | Xsaveopt | Xrstor | Xgetbv | Xsetbv
  | Clflush | Clflushopt | Prefetchnta | Prefetcht0 | Prefetcht1 | Prefetcht2 | Inc | Dec
  | Movnti (width : IntWidth)
  | LockXadd (width : IntWidth) | LockAdd (width : IntWidth) | LockSub (width : IntWidth)
  | LockInc (width : IntWidth) | Adc (width : IntWidth) | Sbb (width : IntWidth)
  | Popcnt (width : IntWidth) | Crc32 (width : IntWidth) | Bsf (width : IntWidth)
  | Bsr (width : IntWidth) | Tzcnt (width : IntWidth)
  | Bt (width : IntWidth) | Bts (width : IntWidth) | Btr (width : IntWidth) | Btc (width : IntWidth)
  | LockBts (width : IntWidth) | LockBtr (width : IntWidth) | LockBtc (width : IntWidth)
  | LockAnd (width : IntWidth) | LockOr (width : IntWidth) | LockXor (width : IntWidth)
  | Vpxor | Vpcmpeqb | Vpmovmskb | Vmovdqu (is_store : Bool)
  | MovSd | MovSs | AddSd | AddSs | SubSd | SubSs | MulSd | MulSs | DivSd | DivSs
  | Sqrtsd | Sqrtss | Ucomisd | Ucomiss | Comisd | Comiss
  | Cvtsi2sd | Cvtsi2ss | Cvttsd2si | Cvttss2si
  | MovdBitcast (to_xmm : Bool) | MovqBitcast (to_xmm : Bool)

structure EncodingHint where
  opcode : UInt16
  operand_size : UInt8
  deriving DecidableEq

/-- One instruction. Its place in the text and its emission order play no part
in the encoding. -/
structure Instruction where
  mnemonic : Mnemonic
  operands : List Operand
  encoding_hint : Option EncodingHint
  mode : InstrMode

end paideia_as_runtime
