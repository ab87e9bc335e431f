-- The x86 instruction decoder: legacy prefixes, REX and VEX, the opcode maps,
-- ModRM, SIB, displacement and immediate, for 64-bit mode and for 32-bit
-- protected mode. It reads the bytes as the processor does, and it keeps where
-- the displacement and the immediate stand.
import PaideiaAs.Lib.Bytes

namespace X86

open Bytes

/-- 64-bit mode, or protected mode with 32-bit operands and addresses. -/
inductive Mode where
  | long
  | prot
  deriving DecidableEq

/-- The four bits of a REX prefix. A VEX prefix carries the same bits. -/
structure Rex where
  w : Bool
  r : Bool
  x : Bool
  b : Bool
  deriving DecidableEq

structure Vex where
  l : Nat
  pp : Nat
  vvvv : Nat
  deriving DecidableEq

inductive OpMap where
  | one
  | two
  | x38
  | x3a
  deriving DecidableEq

/-- An address: base, scaled index (the scale is the exponent of 2) and
displacement. -/
structure Mem where
  base : Option Nat
  index : Option (Nat × Nat)
  disp : Int
  deriving DecidableEq

/-- What the `r/m` part names: a register, an address, or a displacement from
the end of the instruction. -/
inductive Place where
  | reg (n : Nat)
  | mem (m : Mem)
  | rip (disp : Int)
  deriving DecidableEq

structure ModRM where
  reg : Nat
  place : Place
  deriving DecidableEq

/-- A decoded instruction. `head` counts the bytes before the displacement. -/
structure Insn where
  prefixes : List UInt8
  rex : Option Rex
  vex : Option Vex
  map : OpMap
  opcode : UInt8
  modrm : Option ModRM
  head : Nat
  disp : List UInt8
  imm : List UInt8
  deriving DecidableEq

/-- Where the immediate starts. -/
def Insn.immAt (i : Insn) : Nat := i.head + i.disp.length

def Insn.size (i : Insn) : Nat := i.immAt + i.imm.length

/-! ## Prefixes -/

def isPrefix (b : UInt8) : Bool :=
  [0x66, 0x67, 0xF0, 0xF2, 0xF3, 0x2E, 0x36, 0x3E, 0x26, 0x64, 0x65].contains b

def isRex (m : Mode) (b : UInt8) : Bool := m == .long && b.toNat / 16 == 4

def bit (b : UInt8) (k : Nat) : Bool := b.toNat / 2 ^ k % 2 == 1

def Rex.none : Rex := ⟨false, false, false, false⟩

def Rex.ofByte (b : UInt8) : Rex := ⟨bit b 3, bit b 2, bit b 1, bit b 0⟩

def takeRex (m : Mode) : List UInt8 → Option Rex × List UInt8
  | [] => (Option.none, [])
  | b :: bs => if isRex m b then (some (Rex.ofByte b), bs) else (Option.none, b :: bs)

def takeN (n : Nat) (bs : List UInt8) : Option (List UInt8 × List UInt8) :=
  if n ≤ bs.length then some (bs.take n, bs.drop n) else none

/-! ## Opcodes -/

/-- What the opcode bytes say: the map and the opcode, the REX bits in force
and the VEX fields, and how many bytes that took. -/
structure Opcode where
  map : OpMap
  byte : UInt8
  bits : Rex
  vex : Option Vex
  len : Nat
  deriving DecidableEq

def vexMap : Nat → Option OpMap
  | 1 => some .two
  | 2 => some .x38
  | 3 => some .x3a
  | _ => none

def vexTail (b : UInt8) : Vex := ⟨(bit b 2).toNat, b.toNat % 4, 15 - b.toNat / 8 % 16⟩

/-- The extension bits of a VEX prefix; only 64-bit mode has use for them. -/
def vexBits (m : Mode) (bits : Rex) : Rex :=
  match m with
  | .long => bits
  | .prot => Rex.none

/-- `C5` and `C4` start a VEX prefix, which stores `R`, `X`, `B` and `vvvv`
inverted and may not follow a REX prefix. In protected mode they are `lds` and
`les` unless the next byte starts with two ones. -/
def takeOpcode (m : Mode) (rex : Option Rex) : List UInt8 → Option (Opcode × List UInt8)
  | 0x0F :: 0x38 :: b :: bs => some (⟨.x38, b, rex.getD Rex.none, none, 3⟩, bs)
  | 0x0F :: 0x3A :: b :: bs => some (⟨.x3a, b, rex.getD Rex.none, none, 3⟩, bs)
  | 0x0F :: b :: bs => some (⟨.two, b, rex.getD Rex.none, none, 2⟩, bs)
  | 0xC5 :: p :: b :: bs =>
    if m = .prot ∧ p < 0xC0 then some (⟨.one, 0xC5, Rex.none, none, 1⟩, p :: b :: bs)
    else if rex = none then
      some (⟨.two, b, vexBits m ⟨false, !bit p 7, false, false⟩, some (vexTail p), 3⟩, bs)
    else none
  | 0xC4 :: p :: q :: b :: bs =>
    if m = .prot ∧ p < 0xC0 then some (⟨.one, 0xC4, Rex.none, none, 1⟩, p :: q :: b :: bs)
    else if rex = none then
      (vexMap (p.toNat % 32)).map fun map =>
        (⟨map, b, vexBits m ⟨bit q 7, !bit p 7, !bit p 6, !bit p 5⟩, some (vexTail q), 4⟩, bs)
    else none
  | b :: bs => some (⟨.one, b, rex.getD Rex.none, none, 1⟩, bs)
  | [] => none

/-- One-byte opcodes that 64-bit mode has given up. -/
def gone : List UInt8 :=
  [0x06, 0x07, 0x0E, 0x16, 0x17, 0x1E, 0x1F, 0x27, 0x2F, 0x37, 0x3F, 0x60, 0x61, 0x62, 0x82, 0x9A,
    0xC4, 0xC5, 0xCE, 0xD4, 0xD5, 0xD6, 0xEA]

def legal (m : Mode) : OpMap → UInt8 → Bool
  | .one, b => !(m == .long && gone.contains b)
  | _, _ => true

def hasModRM : OpMap → UInt8 → Bool
  | .one, b =>
    let n := b.toNat
    (n < 0x40 && n % 8 < 4) || (0x80 ≤ n && n < 0x90) || (0xD0 ≤ n && n < 0xD4) ||
      (0xD8 ≤ n && n < 0xE0) ||
      [0x62, 0x63, 0x69, 0x6B, 0xC0, 0xC1, 0xC4, 0xC5, 0xC6, 0xC7, 0xF6, 0xF7, 0xFE, 0xFF].contains b
  | .two, b =>
    let n := b.toNat
    !((0x30 ≤ n && n < 0x38) || (0x80 ≤ n && n < 0x90) || (0xC8 ≤ n && n < 0xD0) ||
      [0x05, 0x06, 0x07, 0x08, 0x09, 0x0A, 0x0B, 0x0C, 0x0E, 0x77, 0xA0, 0xA1, 0xA2, 0xA8, 0xA9,
        0xAA].contains b)
  | .x38, _ => true
  | .x3a, _ => true

/-- The size of the immediate. `digit` is the `reg` part of ModRM, which
matters for `F6` and `F7` only; `half` is the operand-size prefix. -/
def immLen (m : Mode) (map : OpMap) (b : UInt8) (digit : Nat) (half w : Bool) : Nat :=
  let n := b.toNat
  let z := if w then 4 else if half then 2 else 4
  match map with
  | .one =>
    if n < 0x40 then (if n % 8 = 4 then 1 else if n % 8 = 5 then z else 0)
    else if [0x68, 0x69, 0x81, 0xA9, 0xC7].contains b then z
    else if n / 8 = 0x17 then (if w then 8 else if half then 2 else 4)
    else if n / 16 = 7 || n / 8 = 0x16 || n / 8 = 0x1C then 1
    else if [0x6A, 0x6B, 0x80, 0x82, 0x83, 0xA8, 0xC0, 0xC1, 0xC6, 0xCD, 0xD4, 0xD5, 0xEB].contains b then 1
    else if b = 0xE8 || b = 0xE9 then (if m = .prot && half then 2 else 4)
    else if n / 4 = 0x28 then (if m = .long then 8 else 4)
    else if b = 0xC2 || b = 0xCA then 2
    else if b = 0xC8 then 3
    else if b = 0x9A || b = 0xEA then (if half then 4 else 6)
    else if b = 0xF6 then (if digit < 2 then 1 else 0)
    else if b = 0xF7 then (if digit < 2 then z else 0)
    else 0
  | .two =>
    if n / 16 = 8 then (if m = .prot && half then 2 else 4)
    else if [0x0F, 0x70, 0x71, 0x72, 0x73, 0xA4, 0xAC, 0xBA, 0xC2, 0xC4, 0xC5, 0xC6].contains b then 1
    else 0
  | .x38 => 0
  | .x3a => 1

/-! ## ModRM, SIB and displacement -/

def ext (low : Nat) (high : Bool) : Nat := low + 8 * high.toNat

/-- The displacement size that the `mod` part asks for. -/
def dispLen : Nat → Nat
  | 1 => 1
  | 2 => 4
  | _ => 0

/-- Index 4 without its REX bit stands for no index. -/
def sibIndex (s : UInt8) (x : Bool) : Option (Nat × Nat) :=
  if ext (s.toNat / 8 % 8) x = 4 then none else some (ext (s.toNat / 8 % 8) x, s.toNat / 64)

/-- What was read of an operand: the operand, the bytes before its displacement,
and the displacement itself. -/
structure Taken where
  modrm : ModRM
  len : Nat
  disp : List UInt8
  deriving DecidableEq

/-- The address after a SIB byte. Base 5 under `mod` 0 stands for no base and a
displacement of four bytes. -/
def takeSib (p : Rex) (md reg : Nat) : List UInt8 → Option (Taken × List UInt8)
  | [] => none
  | s :: bs =>
    if s.toNat % 8 = 5 ∧ md = 0 then
      (takeN 4 bs).map fun (d, bs) => (⟨⟨reg, .mem ⟨none, sibIndex s p.x, signed d⟩⟩, 2, d⟩, bs)
    else
      (takeN (dispLen md) bs).map fun (d, bs) =>
        (⟨⟨reg, .mem ⟨some (ext (s.toNat % 8) p.b), sibIndex s p.x, signed d⟩⟩, 2, d⟩, bs)

/-- The place that `mod` 0 with `r/m` 5 names. -/
def disp32Place (m : Mode) (d : Int) : Place :=
  match m with
  | .long => .rip d
  | .prot => .mem ⟨none, none, d⟩

def takeModRM (m : Mode) (p : Rex) : List UInt8 → Option (Taken × List UInt8)
  | [] => none
  | b :: bs =>
    let md := b.toNat / 64
    let reg := ext (b.toNat / 8 % 8) p.r
    let rm := b.toNat % 8
    if md = 3 then some (⟨⟨reg, .reg (ext rm p.b)⟩, 1, []⟩, bs)
    else if rm = 4 then takeSib p md reg bs
    else if rm = 5 ∧ md = 0 then
      (takeN 4 bs).map fun (d, bs) => (⟨⟨reg, disp32Place m (signed d)⟩, 1, d⟩, bs)
    else
      (takeN (dispLen md) bs).map fun (d, bs) =>
        (⟨⟨reg, .mem ⟨some (ext rm p.b), none, signed d⟩⟩, 1, d⟩, bs)

/-! ## The whole instruction -/

/-- The operand part: nothing for an opcode without ModRM. -/
def takeOperand (m : Mode) (o : Opcode) (bs : List UInt8) : Option (Option Taken × List UInt8) :=
  if hasModRM o.map o.byte then (takeModRM m o.bits bs).map fun (t, bs) => (some t, bs)
  else some (none, bs)

def Taken.digit (t : Option Taken) : Nat := (t.map fun t => t.modrm.reg % 8).getD 0

/-- One instruction, and the bytes after it. An address-size prefix in
protected mode asks for 16-bit addresses, which are not decoded here. -/
def decode (m : Mode) (bytes : List UInt8) : Option (Insn × List UInt8) := do
  let pre := bytes.takeWhile isPrefix
  let (rex, bs) := takeRex m (bytes.dropWhile isPrefix)
  let (o, bs) ← takeOpcode m rex bs
  if !legal m o.map o.byte || (m == .prot && pre.contains 0x67) then none
  let (t, bs) ← takeOperand m o bs
  let (imm, bs) ← takeN (immLen m o.map o.byte (Taken.digit t) (pre.contains 0x66) o.bits.w) bs
  let head := pre.length + rex.toList.length + o.len + (t.map (·.len)).getD 0
  some (⟨pre, rex, o.vex, o.map, o.byte, t.map (·.modrm), head, (t.map (·.disp)).getD [], imm⟩, bs)

/-- The whole byte string, one instruction after the other. The fuel is the
number of instructions that may be read. -/
def decodeAll (m : Mode) : Nat → List UInt8 → Option (List Insn)
  | _, [] => some []
  | 0, _ :: _ => none
  | k + 1, b :: bs => do
    let (i, rest) ← decode m (b :: bs)
    let is ← decodeAll m k rest
    some (i :: is)

/-- The whole byte string: no instruction is shorter than one byte. -/
def disassemble (m : Mode) (bs : List UInt8) : Option (List Insn) := decodeAll m bs.length bs

/-- The addresses of a mode wrap around at this size. -/
def Mode.space : Mode → Int
  | .long => 2 ^ 64
  | .prot => 2 ^ 32

/-- Near jumps, calls and conditional jumps. -/
def isRel : OpMap → UInt8 → Bool
  | .one, b => b == 0xE8 || b == 0xE9
  | .two, b => b.toNat / 16 == 8
  | _, _ => false

/-- The address that the field at `pos` of the instruction at `start` stands
for: the address of the memory operand without its registers, or the target of
the jump. -/
def Insn.pointsTo (i : Insn) (pos : Nat) (start : Int) : Option Int :=
  if pos = i.head ∧ i.disp.length = 4 then
    match i.modrm with
    | some ⟨_, .rip d⟩ => some (start + i.size + d)
    | some ⟨_, .mem m⟩ => some m.disp
    | _ => none
  else if pos = i.immAt then
    if isRel i.map i.opcode && i.imm.length == 4 then some (start + i.size + signed i.imm)
    else if i.map = .one ∧ i.opcode = 0xEA then some (ofLe (i.imm.take 4))
    else none
  else none

/-- Opcodes whose `reg` part names a byte register. -/
def byteReg : OpMap → UInt8 → Bool
  | .one, b => (b.toNat < 0x40 && (b.toNat % 8 = 0 || b.toNat % 8 = 2)) ||
      [0x84, 0x86, 0x88, 0x8A].contains b
  | .two, b => [0xB0, 0xC0].contains b
  | _, _ => false

/-- The `reg` part stands for the general register `r`. Without a REX prefix
the byte registers 4–7 are `ah`–`bh`, which belong to other registers. -/
def Insn.names (i : Insn) (r : Nat) : Bool :=
  match i.modrm with
  | some md => md.reg == r && !(byteReg i.map i.opcode && i.rex.isNone && 4 ≤ r && r < 8)
  | none => false

example : (decode .long [0x48, 0x8B, 0x44, 0x8F, 0x10]).map (·.1.modrm) =
    some (some ⟨0, .mem ⟨some 7, some (1, 2), 16⟩⟩) := by decide

end X86
