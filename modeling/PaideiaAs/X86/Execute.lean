-- Decoded instructions at work on registers, flags and memory: 64-bit loads and
-- stores, the load of an immediate, the comparison with an immediate and the
-- conditional jump. A processor may do what it likes with the others, as long as it
-- takes back no store.
import PaideiaAs.Lib.ByteMemory
import PaideiaAs.X86.Patch

namespace X86

open Bytes ByteMemory
open Option (bind_eq_some_iff bind_some)
open BitVec (msb_eq_toInt ofInt ofNat setWidth_add slt_iff_toInt_lt ssubOverflow toInt_sub
  ule_iff_toNat_le ult_iff_toNat_lt)

/-! ## State -/

structure Flags where
  carry : Bool
  zero : Bool
  sign : Bool
  overflow : Bool
  parity : Bool

/-- An even number of ones in the low byte. -/
def evenParity (v : BitVec 64) : Bool := (List.range 8).countP v.getLsbD % 2 == 0

/-- The flags after the subtraction of `y` from `x`. -/
def Flags.difference (x y : BitVec 64) : Flags where
  carry := BitVec.usubOverflow x y
  zero := x - y == 0
  sign := (x - y).msb
  overflow := ssubOverflow x y
  parity := evenParity (x - y)

/-- The conditions by their codes: eight tests, and the negation of each. -/
def Flags.test (f : Flags) (code : Nat) : Bool :=
  (match code / 2 with
    | 0 => f.overflow
    | 1 => f.carry
    | 2 => f.zero
    | 3 => f.carry || f.zero
    | 4 => f.sign
    | 5 => f.parity
    | 6 => f.sign != f.overflow
    | _ => f.zero || f.sign != f.overflow) != (code % 2 == 1)

/-- The state of a processor, with the quads that it has stored so far. -/
structure State where
  regs : Nat → BitVec 64
  mem : Memory
  flags : Flags
  rip : Address
  stores : List (Address × BitVec 64)

namespace State

def set (s : State) (r : Nat) (v : BitVec 64) : State :=
  { s with regs := Function.update s.regs r v }

def write (s : State) (a : Address) (v : BitVec 64) : State :=
  { s with mem := store s.mem a v, stores := s.stores ++ [(a, v)] }

def jump (s : State) (d : BitVec 64) : State := { s with rip := s.rip + d }

/-- The address that an operand names; `rip` is that of the next instruction. -/
def address (s : State) : Place → Option Address
  | .reg _ => none
  | .mem m => some (m.base.elim 0 s.regs + m.index.elim 0 (fun i => s.regs i.1 <<< i.2) +
      ofInt 64 m.disp)
  | .rip d => some (s.rip + ofInt 64 d)

end State

/-! ## Instructions -/

/-- A wide instruction of the first map with a ModRM operand. -/
def wideEffect (op : UInt8) (reg : Nat) (place : Place) (imm : List UInt8) (s : State) :
    Option State :=
  match s.address place, place with
  | some a, _ =>
    if op = 0x89 then some (s.write a (s.regs reg))
    else if op = 0x8B then some (s.set reg (load s.mem a))
    else none
  | none, .reg n =>
    if op = 0x81 ∧ reg % 8 = 7 then
      some { s with flags := .difference (s.regs n) (ofInt 64 (signed imm)) }
    else none
  | none, _ => none

/-- What an instruction does, after `rip` has moved on. -/
def Insn.effect (i : Insn) (s : State) : Option State :=
  if i.vex.isSome ∨ i.prefixes ≠ [] then none
  else match i.map, i.modrm with
    | .one, some ⟨reg, place⟩ =>
      if i.rex.any (·.w) then wideEffect i.opcode reg place i.imm s else none
    | .one, none =>
      if i.rex.any (·.w) ∧ i.opcode.toNat / 8 = 0x17 then
        some (s.set (ext (i.opcode.toNat % 8) (i.rex.any (·.b))) (ofInt 64 (signed i.imm)))
      else none
    | .two, none =>
      if i.opcode.toNat / 16 = 8 then
        some (if s.flags.test (i.opcode.toNat % 16) then s.jump (ofInt 64 (signed i.imm))
          else s)
      else none
    | _, _ => none

/-- What a processor does with all other instructions. -/
structure Processor where
  other : Insn → State → Option State
  keeps : ∀ i s s', other i s = some s' → s.stores <+: s'.stores

namespace Processor

variable (cpu : Processor)

def step (i : Insn) (s : State) : Option State :=
  let next := s.jump (ofNat 64 i.size)
  match i.effect next with
  | some s' => some s'
  | none => cpu.other i next

/-- One instruction after the other, until one does not go on to the next. -/
def runAll : List Insn → State → Option State
  | [], s => some s
  | i :: is, s => do
    let s' ← cpu.step i s
    if s'.rip = s.rip + ofNat 64 i.size then runAll is s' else some s'

/-- The bytes from the place on where `rip` stands. -/
def run (bs : List UInt8) (s : State) : Option State := do
  let is ← disassemble .long bs
  cpu.runAll is s

end Processor

/-! ## Runs -/

section

variable {cpu : Processor} {i : Insn} {is : List Insn} {s s' : State} {bs rest : List UInt8}

theorem stores_wideEffect {op : UInt8} {reg : Nat} {place : Place} {imm : List UInt8}
    (h : wideEffect op reg place imm s = some s') : s.stores <+: s'.stores := by
  unfold wideEffect at h
  split at h
  · split_ifs at h <;> cases h
    · exact List.prefix_append _ _
    · exact List.prefix_refl _
  · split_ifs at h
    cases h
    exact List.prefix_refl _
  · cases h

theorem stores_effect (h : i.effect s = some s') : s.stores <+: s'.stores := by
  unfold Insn.effect at h
  split at h
  · cases h
  · split at h
    · split at h
      · exact stores_wideEffect h
      · cases h
    · split at h
      · cases h
        exact List.prefix_refl _
      · cases h
    · split at h
      · cases h
        split <;> exact List.prefix_refl _
      · cases h
    · cases h

theorem stores_step (h : cpu.step i s = some s') : s.stores <+: s'.stores := by
  unfold Processor.step at h
  dsimp only at h
  split at h
  · rename_i heffect
    cases h
    have hstores := stores_effect heffect
    exact hstores
  · have hstores := cpu.keeps _ _ _ h
    exact hstores

theorem stores_runAll (h : cpu.runAll is s = some s') : s.stores <+: s'.stores := by
  induction is generalizing s with
  | nil =>
    cases h
    exact List.prefix_refl _
  | cons i is ih =>
    obtain ⟨t, ht, h⟩ := bind_eq_some_iff.mp h
    have hstep := stores_step ht
    split at h
    · exact hstep.trans (ih h)
    · cases h
      exact hstep

theorem step_of_effect (h : i.effect (s.jump (ofNat 64 i.size)) = some s') :
    cpu.step i s = some s' := by
  unfold Processor.step
  dsimp only
  rw [h]

/-- An instruction that leaves `rip` alone hands over to the next. -/
theorem runAll_cons (h : i.effect (s.jump (ofNat 64 i.size)) = some s')
    (hrip : s'.rip = s.rip + ofNat 64 i.size) :
    cpu.runAll (i :: is) s = cpu.runAll is s' := by
  show (cpu.step i s).bind _ = _
  rw [step_of_effect h, bind_some, if_pos hrip]

/-- The same for what an instruction does in every state. -/
theorem runAll_next {g : State → State} (h : ∀ t, i.effect t = some (g t))
    (hrip : ∀ t, (g t).rip = t.rip) (is : List Insn) (s : State) :
    cpu.runAll (i :: is) s = cpu.runAll is (g (s.jump (ofNat 64 i.size))) :=
  runAll_cons (h _) (hrip _)

/-- Behind the last instruction it does not matter where `rip` stands. -/
theorem runAll_last {g : State → State} (h : ∀ t, i.effect t = some (g t)) (s : State) :
    cpu.runAll [i] s = some (g (s.jump (ofNat 64 i.size))) := by
  show (cpu.step i s).bind _ = _
  rw [step_of_effect (h _), bind_some]
  split <;> rfl

theorem run_eq (h : disassemble .long bs = some is) : cpu.run bs s = cpu.runAll is s := by
  unfold Processor.run
  rw [h]
  rfl

/-- The bytes stop short of their last instruction. -/
theorem run_none (h : disassemble .long bs = none) : cpu.run bs s = none := by
  unfold Processor.run
  rw [h]
  rfl

end

/-! ## Comparisons -/

/-- What the test of a condition says about two numbers after the subtraction of the
second. -/
def relation (x y : BitVec 64) : Nat → Bool
  | 0 => ssubOverflow x y
  | 1 => x.ult y
  | 2 => x == y
  | 3 => x.ule y
  | 4 => (x - y).msb
  | 5 => evenParity (x - y)
  | 6 => x.slt y
  | _ => x.sle y

def compares (code : Nat) (x y : BitVec 64) : Bool := relation x y (code / 2) != (code % 2 == 1)

section

variable {x y v w : BitVec 64}

theorem sub_beq_zero : (x - y == 0) = (x == y) := by
  rw [Bool.eq_iff_iff, beq_iff_eq, beq_iff_eq]
  exact sub_eq_zero

theorem ssubOverflow_iff : ssubOverflow x y = true ↔
    9223372036854775808 ≤ x.toInt - y.toInt ∨ x.toInt - y.toInt < -9223372036854775808 := by
  unfold ssubOverflow
  rw [Bool.or_eq_true, decide_eq_true_iff, decide_eq_true_iff]
  rfl

theorem slt_eq_flags : ((x - y).msb != ssubOverflow x y) = x.slt y := by
  have hx := x.toInt_lt
  have hx' := x.le_toInt
  have hy := y.toInt_lt
  have hy' := y.le_toInt
  have hmsb : (x - y).msb = true ↔ (x.toInt - y.toInt).bmod (2 ^ 64) < 0 := by
    rw [msb_eq_toInt, toInt_sub, decide_eq_true_iff]
  rw [Bool.eq_iff_iff, bne_iff_ne, slt_iff_toInt_lt, ne_eq, Bool.eq_iff_iff, hmsb,
    ssubOverflow_iff, Int.bmod_def]
  omega

theorem difference_test (code : Nat) : (Flags.difference x y).test code = compares code x y := by
  have hle : (x.ult y || x == y) = x.ule y := by
    rw [Bool.eq_iff_iff, Bool.or_eq_true, beq_iff_eq, ule_iff_toNat_le,
      ult_iff_toNat_lt, ← BitVec.toNat_inj]
    omega
  have hsle : (x == y || x.slt y) = x.sle y := by
    rw [BitVec.sle_eq_slt_or_eq, Bool.or_comm]
  unfold Flags.test compares Flags.difference relation
  dsimp only
  rw [sub_beq_zero, slt_eq_flags, hsle]
  split
  all_goals first | rfl | exact congrArg (· != _) hle

/-- A difference that fits for one subtrahend overflows for another. -/
theorem exists_overflow_ne (h : v.toInt < w.toInt) : ∃ x, ssubOverflow x v ≠ ssubOverflow x w := by
  have hv := v.le_toInt
  have hw := w.toInt_lt
  have hof : ∀ n : Int, -9223372036854775808 ≤ n → n < 9223372036854775808 →
      (ofInt 64 n).toInt = n := by
    intro n hlo hhi
    rw [BitVec.toInt_ofInt, Int.bmod_def]
    omega
  by_cases hpos : 0 < w.toInt
  · -- the least number that `v` can be taken from
    refine ⟨ofInt 64 (-9223372036854775808 + max v.toInt 0), ?_⟩
    have hx := hof (-9223372036854775808 + max v.toInt 0) (by omega) (by omega)
    rw [ne_eq, Bool.eq_iff_iff, ssubOverflow_iff, ssubOverflow_iff, hx]
    omega
  · -- the greatest number that `w` can be taken from
    refine ⟨ofInt 64 (9223372036854775807 + w.toInt), ?_⟩
    have hx := hof (9223372036854775807 + w.toInt) (by omega) (by omega)
    rw [ne_eq, Bool.eq_iff_iff, ssubOverflow_iff, ssubOverflow_iff, hx]
    omega

/-- Two numbers are told apart by every test except that of the parity. -/
theorem exists_relation_ne {k : Nat} (h : v ≠ w) (hk : k ≠ 5) :
    ∃ x, relation x v k ≠ relation x w k := by
  have hnat : v.toNat ≠ w.toNat := fun he => h (BitVec.toNat_inj.mp he)
  have hint : v.toInt ≠ w.toInt := fun he => h (BitVec.toInt_inj.mp he)
  unfold relation
  split
  · rcases Int.lt_or_lt_of_ne hint with hlt | hlt
    · exact exists_overflow_ne hlt
    · obtain ⟨x, hx⟩ := exists_overflow_ne hlt
      exact ⟨x, hx.symm⟩
  · -- the smaller one is not below itself
    refine ⟨if v.toNat < w.toNat then v else w, ?_⟩
    rw [ne_eq, Bool.eq_iff_iff, ult_iff_toNat_lt, ult_iff_toNat_lt]
    split <;> omega
  · refine ⟨v, ?_⟩
    rw [ne_eq, Bool.eq_iff_iff, beq_iff_eq, beq_iff_eq]
    tauto
  · -- the larger one is not below the other
    refine ⟨if v.toNat < w.toNat then w else v, ?_⟩
    rw [ne_eq, Bool.eq_iff_iff, ule_iff_toNat_le, ule_iff_toNat_le]
    split <;> omega
  · -- one of the two differences is negative
    have hv := v.le_toInt
    have hv' := v.toInt_lt
    have hw := w.le_toInt
    have hw' := w.toInt_lt
    have hmsb : ∀ a b : BitVec 64, (a - b).msb = true ↔ (a.toInt - b.toInt).bmod (2 ^ 64) < 0 := by
      intro a b
      rw [msb_eq_toInt, toInt_sub, decide_eq_true_iff]
    refine ⟨if (v.toInt - w.toInt).bmod (2 ^ 64) < 0 then v else w, ?_⟩
    rw [ne_eq, Bool.eq_iff_iff, hmsb, hmsb]
    split
    all_goals
      simp only [Int.bmod_def] at *
      omega
  · exact absurd rfl hk
  · refine ⟨if v.toInt < w.toInt then v else w, ?_⟩
    rw [ne_eq, Bool.eq_iff_iff, slt_iff_toInt_lt, slt_iff_toInt_lt]
    split <;> omega
  · refine ⟨if v.toInt < w.toInt then w else v, ?_⟩
    rw [ne_eq, Bool.eq_iff_iff, BitVec.sle_iff_toInt_le, BitVec.sle_iff_toInt_le]
    split <;> omega

theorem exists_compares_ne {code : Nat} (h : v ≠ w) (hcode : code / 2 ≠ 5) :
    ∃ x, compares code x v ≠ compares code x w := by
  obtain ⟨x, hx⟩ := exists_relation_ne h hcode
  refine ⟨x, fun he => hx ?_⟩
  unfold compares at he
  exact Bool.bne_left_inj.mp he

/-- The parity depends on the low bytes only. -/
theorem evenParity_sub (h : v.setWidth 8 = w.setWidth 8) :
    evenParity (x - v) = evenParity (x - w) := by
  have hlow : (x - v).setWidth 8 = (x - w).setWidth 8 := by
    rw [sub_eq_add_neg, sub_eq_add_neg, setWidth_add _ _ (by omega),
      setWidth_add _ _ (by omega), BitVec.setWidth_neg_of_le (by omega),
      BitVec.setWidth_neg_of_le (by omega), h]
  unfold evenParity
  refine congrArg (fun n => n % 2 == 0) (List.countP_congr fun i hi => ?_)
  have hi8 : i < 8 := List.mem_range.mp hi
  have hbit := congrArg (BitVec.getLsbD · i) hlow
  simp only [BitVec.getLsbD_setWidth, hi8, decide_true, Bool.true_and] at hbit
  rw [hbit]

end

/-! ## One instruction after the other -/

section

variable {m : Mode} {i : Insn} {is : List Insn} {bs rest : List UInt8}

/-- More fuel than needed changes nothing. -/
theorem decodeAll_fuel {k j : Nat} (hk : k ≤ j) (h : decodeAll m k bs = some is) :
    decodeAll m j bs = some is := by
  induction k generalizing j bs is with
  | zero =>
    cases bs with
    | nil => cases j <;> exact h
    | cons b bs => cases h
  | succ k ih =>
    cases bs with
    | nil => cases j <;> exact h
    | cons b bs =>
      obtain ⟨j, rfl⟩ := Nat.exists_eq_succ_of_ne_zero (by omega : j ≠ 0)
      obtain ⟨⟨i, rest⟩, hdec, h⟩ := bind_eq_some_iff.mp h
      obtain ⟨js, hall, h⟩ := bind_eq_some_iff.mp h
      refine bind_eq_some_iff.mpr ⟨_, hdec, ?_⟩
      exact bind_eq_some_iff.mpr ⟨js, ih (by omega) hall, h⟩

theorem disassemble_cons (hdec : decode m bs = some (i, rest)) (hlen : rest.length < bs.length)
    (h : disassemble m rest = some is) : disassemble m bs = some (i :: is) := by
  cases bs with
  | nil => cases hlen
  | cons b bs =>
    refine bind_eq_some_iff.mpr ⟨_, hdec, ?_⟩
    have hall := decodeAll_fuel (Nat.lt_succ_iff.mp hlen) h
    exact bind_eq_some_iff.mpr ⟨is, hall, rfl⟩

/-- What is read of bytes that start with an instruction starts with it. -/
theorem decodeAll_head {k : Nat} (hdec : decode m bs = some (i, rest)) (hbs : bs ≠ [])
    (h : decodeAll m k bs = some is) : ∃ js j, is = i :: js ∧ decodeAll m j rest = some js := by
  cases bs with
  | nil => exact absurd rfl hbs
  | cons b bs =>
    cases k with
    | zero => cases h
    | succ k =>
      obtain ⟨t, hdec', h⟩ := bind_eq_some_iff.mp h
      rw [hdec] at hdec'
      cases hdec'
      obtain ⟨js, hall, his⟩ := bind_eq_some_iff.mp h
      cases his
      exact ⟨js, k, rfl, hall⟩

theorem decodeAll_stuck {k : Nat} (hdec : decode m bs = none) (hbs : bs ≠ []) :
    decodeAll m k bs = none := by
  cases bs with
  | nil => exact absurd rfl hbs
  | cons b bs =>
    cases k with
    | zero => rfl
    | succ k => exact Option.bind_eq_none_iff.mpr fun t ht => by rw [hdec] at ht; cases ht

end

/-- A one-byte opcode with an operand and no immediate. -/
structure Plain (op : UInt8) : Prop where
  start : opStart .long .one op = true
  legal : legal .long .one op = true
  modrm : hasModRM .one op = true
  imm : ∀ k half w, immLen .long .one op k half w = 0

/-- What is read of such an instruction is its operand. -/
theorem decode_plain {op : UInt8} (h : Plain op) (p : Option Rex) (bs : List UInt8) :
    decode .long (p.toList.map Rex.byte ++ op :: bs) =
      (takeModRM .long (p.getD Rex.none) bs).map fun t =>
        (⟨[], p, none, .one, op, some t.1.modrm, p.toList.length + 1 + t.1.len, t.1.disp, []⟩,
          t.2) := by
  have hop := @takeOpcode_opBytes .long .one op p h.start bs
  obtain ⟨c, cs, hc, hlead, hrex⟩ := @opBytes_head .long .one op h.start
  cases hc
  have hsplit : (p.toList.map Rex.byte ++ op :: bs).takeWhile isPrefix = [] ∧
      takeRex .long ((p.toList.map Rex.byte ++ op :: bs).dropWhile isPrefix) = (p, op :: bs) := by
    cases p with
    | none => simp [hlead, takeRex, hrex]
    | some p => simp [p.isPrefix_byte, takeRex, p.isRex_byte, p.ofByte_byte]
  change takeOpcode .long p (op :: bs) = _ at hop
  unfold decode
  rw [hsplit.1, hsplit.2]
  simp only [hop, Option.bind_eq_bind, bind_some, h.legal, takeOperand, h.modrm, if_true,
    Bool.not_true, List.contains_nil, Bool.and_false, Bool.or_self, Bool.false_eq_true, if_false]
  cases takeModRM .long (p.getD Rex.none) bs with
  | none => rfl
  | some t =>
    simp only [Option.map_some, bind_some, h.imm, takeN, Nat.zero_le, if_true,
      List.take_zero, List.drop_zero, List.length_nil, Nat.zero_add, Option.getD_some]
    rfl

end X86
