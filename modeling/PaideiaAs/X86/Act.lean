-- What a decoded instruction does, for the 64-bit operations on a register and
-- an immediate: the operation, its register and the value of its source.
import PaideiaAs.X86.Form

namespace X86

open Bytes

/-- The eight operations, in the order of their opcode digits. -/
inductive Alu where
  | add | or | adc | sbb | and | sub | xor | cmp
  deriving DecidableEq

def Alu.ofDigit (n : Nat) : Alu :=
  [add, or, adc, sbb, and, sub, xor, cmp].getD n add

/-- A register, or an immediate extended to 64 bits with its sign. -/
inductive Source where
  | reg (n : Nat)
  | imm (v : Int)
  deriving DecidableEq

inductive Act where
  | mov (dst : Nat) (src : Source)
  | alu (op : Alu) (dst : Nat) (src : Source)
  | test (dst : Nat) (src : Source)
  | imul (dst factor : Nat) (src : Source)
  | push (src : Source)
  deriving DecidableEq

/-- Opcodes with a ModRM operand that is a register. -/
def actOnReg (op : UInt8) (reg rm : Nat) (imm : List UInt8) : Option Act :=
  if op = 0x81 ∨ op = 0x83 then some (.alu (.ofDigit (reg % 8)) rm (.imm (signed imm)))
  else if op.toNat < 0x40 ∧ op.toNat % 8 = 1 then some (.alu (.ofDigit (op.toNat / 8)) rm (.reg reg))
  else if op = 0xC7 ∧ reg % 8 = 0 then some (.mov rm (.imm (signed imm)))
  else if op = 0xF7 ∧ reg % 8 = 0 then some (.test rm (.imm (signed imm)))
  else if op = 0x69 ∨ op = 0x6B then some (.imul reg rm (.imm (signed imm)))
  else none

/-- The 64-bit register operations. A `push` is 64 bits wide without REX.W. -/
def Insn.act (i : Insn) : Option Act :=
  if i.vex.isSome ∨ i.map ≠ .one then none
  else if i.opcode = 0x68 ∨ i.opcode = 0x6A then some (.push (.imm (signed i.imm)))
  else match i.rex with
    | none => none
    | some rex =>
      if !rex.w then none
      else match i.modrm with
        | some ⟨reg, .reg rm⟩ => actOnReg i.opcode reg rm i.imm
        | some _ => none
        | none =>
          if i.opcode.toNat / 8 = 0x17 then
            some (.mov (ext (i.opcode.toNat % 8) rex.b) (.imm (signed i.imm)))
          else if i.opcode = 0xA9 then some (.test 0 (.imm (signed i.imm)))
          else none

theorem Form.rex_of_w {f : Form} (hw : f.w = true) : f.rex = some f.bits := by
  simp [Form.rex, hw]

/-- `REX.W B8+r` loads the register `r` with its eight bytes. -/
theorem act_movabs {m : Mode} {f : Form} {n : Nat} (hmap : f.map = .one) (hop : f.op = 0xB8)
    (harg : f.arg = .plus n) (hn : n < 16) (hw : f.w = true) :
    (f.insn m).act = some (.mov n (.imm (signed f.imm))) := by
  have hbyte : f.opByte.toNat = 0xB8 + n % 8 := by
    simp only [Form.opByte, harg, Arg.opByte, hop, UInt8.toNat_add, UInt8.reduceToNat,
      UInt8.toNat_ofNat']
    omega
  have hne : ∀ c : UInt8, c.toNat < 0xB8 → f.opByte ≠ c := by
    rintro c hc rfl
    omega
  have hext : ext (f.opByte.toNat % 8) f.bits.b = n := by
    rw [hbyte, show (0xB8 + n % 8) % 8 = n % 8 by omega]
    simp only [Form.bits, harg, Arg.b]
    exact ext_low hn
  have hw' : f.bits.w = true := hw
  have h17 : f.opByte.toNat / 8 = 0x17 := by omega
  unfold Insn.act
  simp [Form.insn, hmap, hne 0x68 (by decide), hne 0x6A (by decide), Form.rex_of_w hw, harg,
    Arg.modrm, hw', h17, hext]

/-- A wide one-byte opcode on a register operand. -/
theorem act_onReg {m : Mode} {f : Form} {reg rm : Nat} (hmap : f.map = .one)
    (harg : f.arg = .rm reg (.reg rm)) (hw : f.w = true) (h68 : f.op ≠ 0x68) (h6a : f.op ≠ 0x6A) :
    (f.insn m).act = actOnReg f.op reg rm f.imm := by
  have hbyte : f.opByte = f.op := by simp [Form.opByte, harg, Arg.opByte]
  unfold Insn.act
  simp [Form.insn, hmap, hbyte, h68, h6a, Form.rex_of_w hw, harg, Arg.modrm, Form.bits, hw,
    Slot.place]

/-! ## Running the loads before an operation -/

abbrev Regs := Nat → BitVec 64

def Source.value (s : Regs) : Source → BitVec 64
  | .reg n => s n
  | .imm v => BitVec.ofInt 64 v

/-- A load of a register; the other operations are not run. -/
def Act.load (s : Regs) : Act → Option Regs
  | .mov dst src => some (Function.update s dst (src.value s))
  | _ => none

/-- The registers that the operation works on, apart from its source. -/
def Act.registers : Act → List Nat
  | .mov dst _ => [dst]
  | .alu _ dst _ => [dst]
  | .test dst _ => [dst]
  | .imul _ factor _ => [factor]
  | .push _ => []

/-- The loads that stand before the last operation, run one after the other. -/
def runLoads (s : Regs) (acts : List Act) : Option Regs :=
  acts.foldlM (fun s a => a.load s) s

/-- Direct near jumps, conditional or not. -/
def isJump : OpMap → UInt8 → Bool
  | .one, b => b == 0xE9 || b == 0xEB || b.toNat / 16 == 7
  | .two, b => b.toNat / 16 == 8
  | _, _ => false

/-- Where the jump at `start` goes when it is taken. -/
def Insn.jumpsTo (i : Insn) (start : Int) : Option Int :=
  if isJump i.map i.opcode then some (start + i.size + signed i.imm) else none

/-- An opcode and its field, wherever they stand. -/
theorem decode_jump {m : Mode} {map : OpMap} {op : UInt8} {imm : List UInt8}
    (htable : tableOk m [] false map op false 0 imm.length = true) (hjump : isJump map op = true) :
    ∃ i : Insn, (∀ rest, decode m (opBytes map op ++ imm ++ rest) = some (i, rest)) ∧
      ∀ start, i.jumpsTo start = some (start + (opBytes map op ++ imm).length + signed imm) := by
  let f : Form := ⟨[], false, false, map, op, .none, imm⟩
  have hbytes : f.bytes = opBytes map op ++ imm := by
    simp [f, Form.bytes, Form.front, Form.rex, Form.opByte, Arg.opByte, Arg.lead, Arg.dispBytes,
      Arg.r, Arg.x, Arg.b]
  have hfits : f.Fits m := ⟨htable, trivial, fun _ => rfl⟩
  refine ⟨f.insn m, ?_, ?_⟩
  · intro rest
    rw [← hbytes]
    exact decode_form hfits rest
  · intro start
    have hop : isJump (f.insn m).map (f.insn m).opcode = true := hjump
    rw [Insn.jumpsTo, if_pos hop, Form.insn_size, hbytes]
    rfl

end X86
