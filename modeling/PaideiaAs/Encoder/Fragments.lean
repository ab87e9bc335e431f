-- Records and enumerations in code (`encode/cond_call.rs`): the fragments that store
-- the fields of a record, load one, store a discriminant, and branch on it. Their
-- memory operands are written by hand: base 4 gets no SIB byte, and the displacement
-- 0 is written out except behind the discriminant. Here also what the stores and the
-- load do when they are executed, on any processor.
import PaideiaAs.Encoder.Addressing
import PaideiaAs.X86.Execute

namespace paideia_as_encoder

open X86

/-! ## The fragments -/

/-- `[base + offset]` with eight bits of displacement if they are enough. -/
def field_operand (reg base : Reg64) (offset : Int32) : List UInt8 :=
  if -128 ≤ offset.toInt ∧ offset.toInt ≤ 127 then
    ((0x40 : UInt8) ||| ((reg.id &&& 7) <<< 3) ||| (base.id &&& 7)) :: Bytes.sle 1 offset.toInt
  else ((0x80 : UInt8) ||| ((reg.id &&& 7) <<< 3) ||| (base.id &&& 7)) :: Bytes.sle 4 offset.toInt

/-- A `mov` between a register and a field; the opcode says which way. -/
def field_move (op : UInt8) (reg base : Reg64) (offset : Int32) : List UInt8 :=
  rex true (high reg.id) false (high base.id) :: op :: field_operand reg base offset

/-- One store for each field. -/
def emit_record_cons (base : Reg64) : List (Int32 × Reg64 × UInt32) → Emit Unit
  | [] => pure ()
  | (offset, src, width) :: field_stores => do
    if width = 8 then .push (field_move 0x89 src base offset)
    else .unreachable s!"emit_record_cons: unsupported width {width}"
    emit_record_cons base field_stores

/-- One load. -/
def emit_field_access (dest base : Reg64) (offset : Int32) (width : UInt32) : Emit Unit :=
  if width = 8 then .push (field_move 0x8B dest base offset)
  else .unreachable s!"emit_field_access: unsupported width {width}"

/-- The discriminant passes through `rax`; its operand is under `mod` 0. -/
def emit_enum_cons (base : Reg64) (discriminant : UInt64)
    (payload_stores : List (Int32 × Reg64 × UInt32)) : Emit Unit := do
  Emit.push (mov_reg64_imm64 .Rax discriminant.toInt64)
  Emit.push [rex true false false (high base.id), 0x89, base.id &&& 7]
  emit_record_cons base payload_stores

/-- The comparison, the branch with an empty target, and where the target belongs. -/
def emit_match_arm_branch (dest : Reg64) (expected_variant : UInt64) (cond : Cond) : Emit Nat := do
  let compare := [rex true false false (high dest.id), 0x81, (0xF8 : UInt8) ||| (dest.id &&& 7)] ++
    low 4 expected_variant.toInt64
  Emit.push compare
  let patch_offset := compare.length + 2
  Emit.push [0x0F, cond.code, 0, 0, 0, 0]
  pure patch_offset

end paideia_as_encoder

namespace paideia_as_encoder

open X86 ByteMemory

/-! ## The operand of a field -/

/-- The `mod` part of a field operand; 0 is never used. -/
def fieldMod (d : Int) : Nat := if -128 ≤ d ∧ d ≤ 127 then 1 else 2

/-- The displacement bytes of a field. -/
def fieldDisp (d : Int) : List UInt8 := Bytes.sle (dispLen (fieldMod d)) d

theorem fieldMod_cases (d : Int) : fieldMod d = 1 ∨ fieldMod d = 2 := by
  unfold fieldMod
  split
  · exact .inl rfl
  · exact .inr rfl

theorem length_fieldDisp (d : Int) : (fieldDisp d).length = dispLen (fieldMod d) :=
  Bytes.length_sle _ _

theorem signed_fieldDisp (d : Int32) : Bytes.signed (fieldDisp d.toInt) = d.toInt := by
  unfold fieldDisp fieldMod
  split
  · rename_i h
    exact Bytes.signed_sle_of_fits (by decide) h.1 (by simp [dispLen]; omega)
  · exact signed_disp32 d.le_toInt d.toInt_lt

section

variable (reg base : Reg64) (offset : Int32) (rest : List UInt8)

theorem field_operand_eq : field_operand reg base offset =
    fields (fieldMod offset.toInt) (reg.id.toNat % 8) (base.id.toNat % 8) ::
      fieldDisp offset.toInt := by
  have hr : reg.id.toNat % 8 < 8 := Nat.mod_lt _ (by decide)
  have hb : base.id.toNat % 8 < 8 := Nat.mod_lt _ (by decide)
  unfold field_operand fieldDisp fieldMod
  rw [and_seven, and_seven, num_id, num_id]
  split
  · rw [← pack 1 (by decide) _ hr _ hb]
    rfl
  · rw [← pack 2 (by decide) _ hr _ hb]
    rfl

/-- The extension bits of the two registers. -/
def fieldRex : Rex := ⟨true, decide (8 ≤ reg.id.toNat), false, decide (8 ≤ base.id.toNat)⟩

theorem takeModRM_field (h4 : base.id.toNat % 8 ≠ 4) :
    takeModRM .long (fieldRex reg base) (field_operand reg base offset ++ rest) =
      some (⟨⟨reg.id.toNat, .mem ⟨some base.id.toNat, none, offset.toInt⟩⟩, 1,
        fieldDisp offset.toInt⟩, rest) := by
  have hmd := fieldMod_cases offset.toInt
  rw [field_operand_eq, List.cons_append, takeModRM_base .long _ (Nat.mod_lt _ (by decide))
    (Nat.mod_lt _ (by decide)) (by omega) h4 (fun _ => by omega) _ _ (length_fieldDisp _),
    signed_fieldDisp]
  unfold fieldRex
  rw [ext_low reg.id_lt, ext_low base.id_lt]

/-- Base 4 takes the displacement for a SIB byte. -/
theorem takeModRM_field_four (h4 : base.id.toNat % 8 = 4) (p : Rex) :
    ∃ f : List UInt8 → Taken, takeModRM .long p (field_operand reg base offset ++ rest) =
      (takeN (fieldDisp offset.toInt).length ((fieldDisp offset.toInt).tail ++ rest)).map
        fun t => (f t.1, t.2) := by
  have hmd := fieldMod_cases offset.toInt
  have hlen := length_fieldDisp offset.toInt
  rw [field_operand_eq, h4, List.cons_append,
    takeModRM_sib .long p (Nat.mod_lt _ (by decide)) (by omega), hlen]
  revert hlen
  generalize fieldDisp offset.toInt = ds
  intro hlen
  cases ds with
  | nil => rcases hmd with h | h <;> rw [h] at hlen <;> cases hlen
  | cons s ds =>
    refine ⟨fun d => ⟨⟨ext (reg.id.toNat % 8) p.r, .mem ⟨some (ext (s.toNat % 8) p.b),
      sibIndex s p.x, Bytes.signed d⟩⟩, 2, d⟩, ?_⟩
    exact if_neg fun h => by omega

theorem fieldDisp_ne_nil (d : Int) : fieldDisp d ≠ [] := by
  have hlen := length_fieldDisp d
  intro h
  rcases fieldMod_cases d with hmd | hmd <;> rw [h, hmd] at hlen <;> cases hlen

/-- The operand ends with the first byte of what follows. -/
theorem takeModRM_field_sib (h4 : base.id.toNat % 8 = 4) (p : Rex) :
    takeModRM .long p (field_operand reg base offset) = none ∧
      ∀ c cs, ∃ t, takeModRM .long p (field_operand reg base offset ++ c :: cs) = some (t, cs) := by
  obtain ⟨s, ds, hds⟩ := List.exists_cons_of_ne_nil (fieldDisp_ne_nil offset.toInt)
  constructor
  · obtain ⟨f, hf⟩ := takeModRM_field_four reg base offset [] h4 p
    have hshort : takeN (s :: ds).length (ds ++ []) = none := if_neg (by simp)
    rw [List.append_nil, hds, List.tail_cons, hshort] at hf
    exact hf
  · intro c cs
    obtain ⟨f, hf⟩ := takeModRM_field_four reg base offset (c :: cs) h4 p
    have hfull := takeN_append (ds ++ [c]) cs
    rw [List.length_append, List.length_singleton, List.append_assoc,
      List.singleton_append] at hfull
    rw [hds, List.tail_cons, List.length_cons, hfull] at hf
    exact ⟨_, hf⟩

end

/-! ## Wide moves -/

theorem plain_store : Plain 0x89 := ⟨rfl, rfl, rfl, fun _ _ _ => rfl⟩

theorem plain_load : Plain 0x8B := ⟨rfl, rfl, rfl, fun _ _ _ => rfl⟩

section

variable {op : UInt8} (reg base : Reg64) (offset : Int32) (rest : List UInt8)

theorem field_move_eq : field_move op reg base offset =
    (fieldRex reg base).byte :: op :: field_operand reg base offset := by
  unfold field_move fieldRex
  rw [rex_eq, high_eq, high_eq]

/-- The instruction that a field move is read as. -/
def fieldInsn (op : UInt8) : Insn :=
  ⟨[], some (fieldRex reg base), none, .one, op,
    some ⟨reg.id.toNat, .mem ⟨some base.id.toNat, none, offset.toInt⟩⟩, 3,
    fieldDisp offset.toInt, []⟩

theorem decode_field_move (hop : Plain op) (h4 : base.id.toNat % 8 ≠ 4) :
    decode .long (field_move op reg base offset ++ rest) =
      some (fieldInsn reg base offset op, rest) := by
  have hdec := decode_plain hop (some (fieldRex reg base)) (field_operand reg base offset ++ rest)
  rw [Option.getD_some, takeModRM_field _ _ _ _ h4] at hdec
  rw [field_move_eq]
  exact hdec

theorem effect_wide {op : UInt8} {p : Rex} {modrm : ModRM} {head : Nat} {disp imm : List UInt8}
    (hw : p.w = true) (s : State) :
    (⟨[], some p, none, .one, op, some modrm, head, disp, imm⟩ : Insn).effect s =
      wideEffect op modrm.reg modrm.place imm s := by
  unfold Insn.effect
  simp [hw]

/-- Where a field is. -/
def field_address (regs : Nat → BitVec 64) (base : Reg64) (offset : Int32) : Address :=
  regs base.id.toNat + BitVec.ofInt 64 offset.toInt

theorem effect_field_store (s : State) : (fieldInsn reg base offset 0x89).effect s =
      some (s.write (field_address s.regs base offset) (s.regs reg.id.toNat)) := by
  unfold fieldInsn
  rw [effect_wide rfl]
  simp [wideEffect, State.address, field_address]

theorem effect_field_load (s : State) : (fieldInsn reg base offset 0x8B).effect s =
      some (s.set reg.id.toNat (load s.mem (field_address s.regs base offset))) := by
  unfold fieldInsn
  rw [effect_wide rfl]
  simp [wideEffect, State.address, field_address]

/-- With or without its prefix, a field move on base 4 is one byte short. -/
theorem decode_field_move_sib (hop : Plain op) (h4 : base.id.toNat % 8 = 4) (p : Option Rex) :
    decode .long (p.toList.map Rex.byte ++ op :: field_operand reg base offset) = none ∧
      ∀ c cs, ∃ i, decode .long
        (p.toList.map Rex.byte ++ op :: (field_operand reg base offset ++ c :: cs)) =
          some (i, cs) := by
  obtain ⟨hnone, hsome⟩ := takeModRM_field_sib reg base offset h4 (p.getD Rex.none)
  constructor
  · rw [decode_plain hop, hnone]
    rfl
  · intro c cs
    obtain ⟨t, ht⟩ := hsome c cs
    rw [decode_plain hop, ht]
    exact ⟨_, rfl⟩

end

/-! ## Records -/

/-- The stores in a row, on the memory and in the log. -/
def writes (m : Memory) (ws : List (Address × BitVec 64)) : Memory :=
  ws.foldl (fun m w => store m w.1 w.2) m

/-- Executing the bytes stores these quads, in this order, and no others. -/
def Stores (bs : List UInt8) (quads : (Nat → BitVec 64) → List (Address × BitVec 64)) : Prop :=
  ∀ (cpu : Processor) (s : State), ∃ s', cpu.run bs s = some s' ∧
    s'.stores = s.stores ++ quads s.regs ∧ s'.mem = writes s.mem (quads s.regs)

/-- The fields of a record with the values of their registers. -/
def record_quads (base : Reg64) (fields : List (Int32 × Reg64)) (regs : Nat → BitVec 64) :
    List (Address × BitVec 64) :=
  fields.map fun f => (field_address regs base f.1, regs f.2.id.toNat)

/-- Stores of eight bytes each. -/
def wide_stores (fields : List (Int32 × Reg64)) : List (Int32 × Reg64 × UInt32) :=
  fields.map fun f => (f.1, f.2, 8)

/-- The stores, without the check of the width. -/
def record_bytes (base : Reg64) (fields : List (Int32 × Reg64)) : List UInt8 :=
  fields.flatMap fun f => field_move 0x89 f.2 base f.1

section

variable {base : Reg64} {fields : List (Int32 × Reg64)}

theorem emit_record_cons_eq :
    emit_record_cons base (wide_stores fields) = ⟨record_bytes base fields, .ok ()⟩ := by
  induction fields with
  | nil => rfl
  | cons f fields ih =>
    show emit_record_cons base ((f.1, f.2, 8) :: wide_stores fields) = _
    unfold emit_record_cons
    rw [if_pos rfl]
    exact Emit.bind_ok_iff.mpr ⟨_, (), _, rfl, ih, rfl⟩

theorem field_move_length_pos (op : UInt8) (reg : Reg64) (offset : Int32) (rest : List UInt8) :
    rest.length < (field_move op reg base offset ++ rest).length := by
  unfold field_move
  simp only [List.cons_append, List.length_cons, List.length_append]
  omega

/-- On any base but 4 the stores are read one by one, and each leaves the registers
alone. -/
theorem runs_record (h4 : base.id.toNat % 8 ≠ 4) (fields : List (Int32 × Reg64)) :
    ∃ is, disassemble .long (record_bytes base fields) = some is ∧
      ∀ (cpu : Processor) (s : State), ∃ s', cpu.runAll is s = some s' ∧
        s'.stores = s.stores ++ record_quads base fields s.regs ∧
        s'.mem = writes s.mem (record_quads base fields s.regs) := by
  induction fields with
  | nil => exact ⟨[], rfl, fun cpu s => ⟨s, rfl, (List.append_nil _).symm, rfl⟩⟩
  | cons f fields ih =>
    obtain ⟨is, his, hrun⟩ := ih
    have hdec := decode_field_move f.2 base f.1 (record_bytes base fields) plain_store h4
    refine ⟨_, disassemble_cons hdec (field_move_length_pos _ _ _ _) his, fun cpu s => ?_⟩
    rw [runAll_cons (effect_field_store f.2 base f.1 _) rfl]
    obtain ⟨s', hs', hstores, hmem⟩ := hrun cpu (((s.jump (BitVec.ofNat 64
      (fieldInsn f.2 base f.1 0x89).size))).write (field_address s.regs base f.1)
      (s.regs f.2.id.toNat))
    refine ⟨s', hs', hstores.trans ?_, hmem⟩
    exact List.append_assoc _ _ _

/-- On base 4 the bytes are never read to the end, also without the first of them. -/
theorem record_stuck (h4 : base.id.toNat % 8 = 4) (f : Int32 × Reg64)
    (fields : List (Int32 × Reg64)) (p : Option Rex) (k : Nat) :
    decodeAll .long k (p.toList.map Rex.byte ++
      0x89 :: (field_operand f.2 base f.1 ++ record_bytes base fields)) = none := by
  induction fields generalizing f p k with
  | nil =>
    obtain ⟨hnone, -⟩ := decode_field_move_sib f.2 base f.1 plain_store h4 p
    have hall := @decodeAll_stuck _ _ k hnone (by simp)
    rwa [← List.append_nil (field_operand f.2 base f.1)] at hall
  | cons g fields ih =>
    obtain ⟨-, hsome⟩ := decode_field_move_sib f.2 base f.1 plain_store h4 p
    obtain ⟨i, hi⟩ := hsome (fieldRex g.2 base).byte
      (0x89 :: field_operand g.2 base g.1 ++ record_bytes base fields)
    have hbytes : record_bytes base (g :: fields) = (fieldRex g.2 base).byte ::
        (0x89 :: field_operand g.2 base g.1 ++ record_bytes base fields) := by
      unfold record_bytes
      rw [List.flatMap_cons, field_move_eq]
      rfl
    rw [hbytes]
    cases hall : decodeAll .long k (p.toList.map Rex.byte ++ 0x89 :: (field_operand f.2 base f.1 ++
        (fieldRex g.2 base).byte ::
          (0x89 :: field_operand g.2 base g.1 ++ record_bytes base fields))) with
    | none => rfl
    | some is =>
      obtain ⟨js, j, -, hjs⟩ := decodeAll_head hi (by simp) hall
      have hstuck : decodeAll .long j
          (0x89 :: field_operand g.2 base g.1 ++ record_bytes base fields) = none := ih g none j
      rw [hjs] at hstuck
      cases hstuck

theorem disassemble_record_stuck (h4 : base.id.toNat % 8 = 4) (hfields : fields ≠ []) :
    disassemble .long (record_bytes base fields) = none := by
  obtain ⟨f, fields, rfl⟩ := List.exists_cons_of_ne_nil hfields
  have hstuck := record_stuck h4 f fields (some (fieldRex f.2 base))
    (record_bytes base (f :: fields)).length
  have hbytes : record_bytes base (f :: fields) = (some (fieldRex f.2 base)).toList.map Rex.byte ++
      0x89 :: (field_operand f.2 base f.1 ++ record_bytes base fields) := by
    unfold record_bytes
    rw [List.flatMap_cons, field_move_eq]
    rfl
  unfold disassemble
  rwa [← hbytes] at hstuck

/-- A processor that stops at every instruction without an effect of its own. -/
def halting : Processor where
  other _ _ := none
  keeps _ _ _ h := by cases h

/-- Memory and flags are clear. -/
def idle (regs : Nat → BitVec 64) (rip : Address) : State :=
  ⟨regs, fun _ => 0, ⟨false, false, false, false, false⟩, rip, []⟩

theorem stores_record_iff : Stores (record_bytes base fields) (record_quads base fields) ↔
      fields = [] ∨ base.id.toNat % 8 ≠ 4 := by
  constructor
  · intro h
    by_contra hbad
    rw [not_or, not_not] at hbad
    obtain ⟨s', hs', -⟩ := h halting (idle 0 0)
    rw [run_none (disassemble_record_stuck hbad.2 hbad.1)] at hs'
    cases hs'
  · rintro (rfl | h4)
    · intro cpu s
      exact ⟨s, rfl, (List.append_nil _).symm, rfl⟩
    · obtain ⟨is, his, hrun⟩ := runs_record h4 fields
      intro cpu s
      rw [run_eq his]
      exact hrun cpu s

end

/-- Executing the bytes loads the field into the register, and changes no other
register and no memory. -/
def Loads (bs : List UInt8) (dest base : Reg64) (offset : Int32) : Prop :=
  ∀ (cpu : Processor) (s : State), ∃ s', cpu.run bs s = some s' ∧
    s'.regs = Function.update s.regs dest.id.toNat (load s.mem (field_address s.regs base offset)) ∧
    s'.mem = s.mem

theorem loads_field_iff {dest base : Reg64} {offset : Int32} :
    Loads (field_move 0x8B dest base offset) dest base offset ↔ base.id.toNat % 8 ≠ 4 := by
  constructor
  · intro h h4
    obtain ⟨s', hs', -⟩ := h halting (idle 0 0)
    obtain ⟨hnone, -⟩ := decode_field_move_sib dest base offset plain_load h4
      (some (fieldRex dest base))
    have hstuck : disassemble .long (field_move 0x8B dest base offset) = none := by
      rw [field_move_eq]
      exact decodeAll_stuck hnone (List.cons_ne_nil _ _)
    rw [run_none hstuck] at hs'
    cases hs'
  · intro h4 cpu s
    have hdec := decode_field_move dest base offset [] plain_load h4
    rw [List.append_nil] at hdec
    rw [run_eq (disassemble_of_decode hdec), runAll_cons (effect_field_load dest base offset _) rfl]
    exact ⟨_, rfl, rfl, rfl⟩

end paideia_as_encoder
