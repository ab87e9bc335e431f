-- The encoder's own types (`encode/types.rs`, `encode_instruction/types.rs`
-- and `common.rs`): registers, conditions, errors, relocation sites, and the
-- code buffer as the bytes that a call appends to it.
import PaideiaAs.Encoder.Instruction
import PaideiaAs.Lib.Bytes

namespace paideia_as_encoder

open paideia_as_runtime

/-! ## Registers and conditions -/

/-- The general registers. -/
inductive Reg64 where
  | Rax | Rcx | Rdx | Rbx | Rsp | Rbp | Rsi | Rdi
  | R8 | R9 | R10 | R11 | R12 | R13 | R14 | R15
  deriving DecidableEq

def Reg64.id : Reg64 → UInt8
  | .Rax => 0 | .Rcx => 1 | .Rdx => 2 | .Rbx => 3 | .Rsp => 4 | .Rbp => 5 | .Rsi => 6 | .Rdi => 7
  | .R8 => 8 | .R9 => 9 | .R10 => 10 | .R11 => 11 | .R12 => 12 | .R13 => 13 | .R14 => 14
  | .R15 => 15

def Reg64.all : List Reg64 :=
  [.Rax, .Rcx, .Rdx, .Rbx, .Rsp, .Rbp, .Rsi, .Rdi, .R8, .R9, .R10, .R11, .R12, .R13, .R14, .R15]

theorem Reg64.id_lt (r : Reg64) : r.id.toNat < 16 := by cases r <;> decide

theorem Reg64.id_inj {r s : Reg64} (h : r.id = s.id) : r = s := by
  revert s; cases r <;> intro s h <;> cases s <;> first | rfl | exact absurd h (by decide)

/-- The condition of a jump; its code is the second byte of `0F 8X`. -/
inductive Cond where
  | Eq | Neq | Lt | Ge | Le | Gt | Below | BelowOrEqual | Above | AboveOrEqual
  | Sign | NotSign | Overflow | NotOverflow | Parity | NotParity
  deriving DecidableEq

def Cond.code : Cond → UInt8
  | .Eq => 0x84 | .Neq => 0x85 | .Lt => 0x8C | .Ge => 0x8D | .Le => 0x8E | .Gt => 0x8F
  | .Below => 0x82 | .BelowOrEqual => 0x86 | .Above => 0x87 | .AboveOrEqual => 0x83
  | .Sign => 0x88 | .NotSign => 0x89 | .Overflow => 0x80 | .NotOverflow => 0x81
  | .Parity => 0x8A | .NotParity => 0x8B

/-! ## Results -/

/-- Why an instruction is refused. -/
inductive EncodeError where
  | OperandCount (mnemonic : Mnemonic) (expected got : Nat)
  | OperandShape (mnemonic : Mnemonic)
  | InvalidOperand (msg : String)
  | Unsupported (msg : String)

/-- How a call ends other than with a value: an `Err`, or a panic. -/
inductive Stop where
  | err (e : EncodeError)
  | panic (msg : String)

/-- How the linker computes a field. -/
inductive RelocKind where
  | PcRel32
  | Plt32
  | Abs32
  | Abs64
  deriving DecidableEq

/-- A field that the linker fills in. -/
structure RelocSite where
  byte_offset : Nat
  symbol : String
  kind : RelocKind
  addend : Int32
  deriving DecidableEq

/-- A field for the distance to a label. -/
structure LabelFixup where
  byte_offset : Nat
  label_name : String
  addend : Int32
  instruction_size : Nat
  deriving DecidableEq

/-- What a call leaves open. -/
structure EncodeOutput where
  reloc_sites : List RelocSite
  label_fixups : List LabelFixup
  deriving DecidableEq

def EncodeOutput.new : EncodeOutput := ⟨[], []⟩

def EncodeOutput.reloc (site : RelocSite) : EncodeOutput := ⟨[site], []⟩

def EncodeOutput.fixup (f : LabelFixup) : EncodeOutput := ⟨[], [f]⟩

/-! ## The code buffer

A call only ever appends to the buffer, so it is modelled by the bytes it
appends, which stay there if it fails, and by its result. -/

/-- The bytes appended, and the result. -/
structure Emit (α : Type) where
  bytes : List UInt8
  result : Except Stop α

namespace Emit

variable {α β : Type}

/-- The second call appends behind the first, unless that failed. -/
protected def bind (x : Emit α) (f : α → Emit β) : Emit β :=
  match x.result with
  | .ok a => ⟨x.bytes ++ (f a).bytes, (f a).result⟩
  | .error e => ⟨x.bytes, .error e⟩

instance : Monad Emit where
  pure a := ⟨[], .ok a⟩
  bind := Emit.bind

/-- Appends `bs`. -/
def push (bs : List UInt8) : Emit Unit := ⟨bs, .ok ()⟩

/-- Returns `Err(e)`. -/
def fail (e : EncodeError) : Emit α := ⟨[], .error (.err e)⟩

/-- Panics. -/
def unreachable (msg : String) : Emit α := ⟨[], .error (.panic msg)⟩

variable {bs : List UInt8} {a : α}

@[simp] theorem bind_ok_iff {x : Emit α} {f : α → Emit β} {b : β} : (x >>= f) = ⟨bs, .ok b⟩ ↔
      ∃ bs₁ a bs₂, x = ⟨bs₁, .ok a⟩ ∧ f a = ⟨bs₂, .ok b⟩ ∧ bs = bs₁ ++ bs₂ := by
  rcases x with ⟨xs, e | a⟩
  · simp [Bind.bind, Emit.bind]
  · rcases hf : f a with ⟨ys, r⟩
    simp only [Bind.bind, Emit.bind, hf, Emit.mk.injEq, Except.ok.injEq]
    constructor
    · rintro ⟨rfl, rfl⟩; exact ⟨xs, a, ys, ⟨rfl, rfl⟩, hf, rfl⟩
    · rintro ⟨_, _, zs, ⟨rfl, rfl⟩, hz, rfl⟩
      rw [hf] at hz
      simp only [Emit.mk.injEq] at hz
      exact ⟨by rw [hz.1], hz.2⟩

@[simp] theorem pure_ok_iff {b : α} : (pure a : Emit α) = ⟨bs, .ok b⟩ ↔ bs = [] ∧ b = a := by
  simp only [pure, Emit.mk.injEq, Except.ok.injEq]
  tauto

@[simp] theorem push_ok_iff {cs : List UInt8} {u : Unit} : push cs = ⟨bs, .ok u⟩ ↔ bs = cs := by
  simp only [push, Emit.mk.injEq, and_true]
  exact eq_comm

@[simp] theorem fail_ok_iff {e : EncodeError} : (fail e : Emit α) = ⟨bs, .ok a⟩ ↔ False := by
  simp [fail]

@[simp] theorem unreachable_ok_iff {msg : String} :
    (unreachable msg : Emit α) = ⟨bs, .ok a⟩ ↔ False := by
  simp [unreachable]

end Emit

/-! ## Conversions -/

/-- `reg64_from`: only 0–15 are general registers. `reg32_from` accepts the
same ids and its registers have the same numbers. -/
def reg64_from (id : RegId) : Emit Reg64 :=
  match Reg64.all.find? (·.id == id.num) with
  | some r => pure r
  | none => .fail (.Unsupported "invalid register id")

@[simp] theorem reg64_from_ok_iff {id : RegId} {bs : List UInt8} {r : Reg64} :
    reg64_from id = ⟨bs, .ok r⟩ ↔ bs = [] ∧ id.num = r.id := by
  unfold reg64_from
  split
  case h_2 hf =>
    simp only [Emit.fail_ok_iff, false_iff, not_and]
    rintro _ hr
    rw [List.find?_eq_none] at hf
    exact hf r (by cases r <;> decide) (by simp [hr])
  case h_1 s hf =>
    have hs := List.find?_some hf
    simp only [beq_iff_eq] at hs
    simp only [Emit.pure_ok_iff, and_congr_right_iff]
    rintro _
    constructor
    · rintro rfl; exact hs.symm
    · intro h; exact Reg64.id_inj (h.symm.trans hs.symm)

/-- The scale field of a SIB byte. -/
def sib_scale_bits : Scale → UInt8
  | .X1 => 0
  | .X2 => 1
  | .X4 => 2
  | .X8 => 3

/-- `Zero` is `Eq`, `NonZero` is `Neq`. -/
def cond_from : paideia_as_runtime.Cond → Cond
  | .Eq => .Eq
  | .Ne => .Neq
  | .Lt => .Lt
  | .Ge => .Ge
  | .Le => .Le
  | .Gt => .Gt
  | .Below => .Below
  | .BelowOrEqual => .BelowOrEqual
  | .Above => .Above
  | .AboveOrEqual => .AboveOrEqual
  | .Zero => .Eq
  | .NonZero => .Neq
  | .Sign => .Sign
  | .NotSign => .NotSign
  | .Overflow => .Overflow
  | .NotOverflow => .NotOverflow
  | .Parity => .Parity
  | .NotParity => .NotParity

def can_use_rel8 (displacement : Int64) : Bool :=
  -128 ≤ displacement.toInt && displacement.toInt ≤ 127

/-- `imm >= i32::MIN && imm <= i32::MAX`, which is also when
`i32::try_from(imm)` succeeds. -/
def fits_i32 (imm : Int64) : Bool :=
  -2147483648 ≤ imm.toInt && imm.toInt ≤ 2147483647

/-- `i8::try_from(imm)` succeeds. -/
def fits_i8 (imm : Int64) : Bool :=
  -128 ≤ imm.toInt && imm.toInt ≤ 127

/-- `(imm as iN).to_le_bytes()` for an N of `8 * n` bits: the `n` low bytes. -/
def low (n : Nat) (imm : Int64) : List UInt8 := Bytes.sle n imm.toInt

@[simp] theorem length_low (n : Nat) (imm : Int64) : (low n imm).length = n := Bytes.length_sle _ _

/-- `x.to_le_bytes()`. -/
def i32_le (x : Int32) : List UInt8 := Bytes.sle 4 x.toInt

end paideia_as_encoder
