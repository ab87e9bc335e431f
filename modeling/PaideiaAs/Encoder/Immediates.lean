-- Immediates of 64-bit arithmetic: whatever short form or staging the encoder
-- picks, the processor works on the register it was given with the value it
-- was given.
import PaideiaAs.Encoder.Addressing

namespace paideia_as_encoder

open paideia_as_runtime X86
open Emit (push_ok_iff)

/-- The 64-bit operation on a register, still without its source, and the
immediate. In 32-bit mode `or` and `mov` work on 32-bit registers. -/
def immediateOp (inst : Instruction) : Option ((Source → Act) × Int64) :=
  match inst.mnemonic, inst.operands with
  | .Add, [.Reg dst, .Imm64 imm] => some (.alu .add dst.num.toNat, imm)
  | .Sub, [.Reg dst, .Imm64 imm] => some (.alu .sub dst.num.toNat, imm)
  | .Adc .W64, [.Reg dst, .Imm64 imm] => some (.alu .adc dst.num.toNat, imm)
  | .And, [.Reg dst, .Imm64 imm] => some (.alu .and dst.num.toNat, imm)
  | .Or, [.Reg dst, .Imm64 imm] =>
    if inst.mode = .Mode64 then some (.alu .or dst.num.toNat, imm) else none
  | .Xor, [.Reg dst, .Imm64 imm] => some (.alu .xor dst.num.toNat, imm)
  | .Cmp, [.Reg dst, .Imm64 imm] => some (.alu .cmp dst.num.toNat, imm)
  | .CmpSized .W64, [.Reg dst, .Imm64 imm] => some (.alu .cmp dst.num.toNat, imm)
  | .Imul, [.Reg dst, .Reg src, .Imm64 imm] => some (.imul dst.num.toNat src.num.toNat, imm)
  | .Test, [.Reg dst, .Imm64 imm] => some (.test dst.num.toNat, imm)
  | .Push, [.Imm64 imm] => some (.push, imm)
  | .Mov, [.Reg dst, .Imm64 imm] =>
    if inst.mode = .Mode64 then some (.mov dst.num.toNat, imm) else none
  | .MovSized .W64, [.Reg dst, .Imm64 imm] => some (.mov dst.num.toNat, imm)
  | _, _ => none

/-- The bytes decode to loads and then the operation. After the loads its
source has the value of the immediate, and every register but `r11`, and every
register that the operation works on, is as it was. -/
def Performs (act : Source → Act) (imm : Int64) (bs : List UInt8) : Prop :=
  ∃ is i loads src, disassemble .long bs = some (is ++ [i]) ∧ is.mapM Insn.act = some loads ∧
    i.act = some (act src) ∧
    ∀ s : Regs, ∃ s', runLoads s loads = some s' ∧ src.value s' = imm.toBitVec ∧
      (∀ r, r ≠ 11 → s' r = s r) ∧ ∀ r ∈ (act src).registers, s' r = s r

/-! ## Fields that hold the whole value -/

theorem value_imm (imm : Int64) (s : Regs) : (Source.imm imm.toInt).value s = imm.toBitVec := by
  rw [← Int64.toInt_toBitVec]
  exact BitVec.ofInt_toInt

variable {imm : Int64} {op : UInt8} {dst : RegId} {bs : List UInt8} {inst : Instruction}

theorem signed_low_one (h : fits_i8 imm = true) : Bytes.signed (low 1 imm) = imm.toInt := by
  simp only [fits_i8, Bool.and_eq_true, decide_eq_true_eq] at h
  exact Bytes.signed_sle_of_fits (by decide) (by simpa using h.1) (by simp; omega)

theorem signed_low_four (h : fits_i32 imm = true) : Bytes.signed (low 4 imm) = imm.toInt := by
  simp only [fits_i32, Bool.and_eq_true, decide_eq_true_eq] at h
  exact Bytes.signed_sle_of_fits (by decide) (by simpa using h.1) (by simp; omega)

theorem signed_low_eight (imm : Int64) : Bytes.signed (low 8 imm) = imm.toInt :=
  Bytes.signed_sle_of_fits (by decide) (by simpa using imm.le_toInt) (by simpa using imm.toInt_lt)

theorem performs_form {f : Form} {act : Source → Act} {imm : Int64} (hf : f.Fits .long)
    (hact : (f.insn .long).act = some (act (.imm imm.toInt))) : Performs act imm f.bytes := by
  refine ⟨[], f.insn .long, [], .imm imm.toInt, disassemble_form hf, rfl, hact, fun s => ?_⟩
  exact ⟨s, rfl, value_imm imm s, fun _ _ => rfl, fun _ _ => rfl⟩

/-- `movabs r11, imm` and then the operation on `r11`. -/
theorem performs_staged {f : Form} {act : Source → Act} (hf : f.Fits .long)
    (hact : (f.insn .long).act = some (act (.reg 11))) (h11 : 11 ∉ (act (.reg 11)).registers) :
    Performs act imm (mov_reg64_imm64 .R11 imm ++ f.bytes) := by
  have hdis := @disassemble_forms .long
    [form [] .wide .one 0xB8 (.plus Reg64.R11.id.toNat) (low 8 imm), f]
    (by simpa using ⟨fits_mov_reg64_imm64 .R11 imm, hf⟩)
  simp only [List.flatMap_cons, List.flatMap_nil, List.append_nil, ← mov_reg64_imm64_form,
    List.map_cons, List.map_nil] at hdis
  have hload := act_mov_reg64_imm64 [] .R11 imm
  rw [signed_low_eight] at hload
  refine ⟨[_], _, [.mov 11 (.imm imm.toInt)], .reg 11, hdis, ?_, hact, fun s => ?_⟩
  · simp only [List.mapM_cons, List.mapM_nil]
    exact congrArg (·.bind fun a => some [a]) hload
  · refine ⟨Function.update s 11 ((Source.imm imm.toInt).value s), rfl, ?_, ?_, ?_⟩
    · simp only [Source.value, Function.update_self]
      exact value_imm imm s
    · intro r hr
      exact Function.update_of_ne hr _ _
    · intro r hr
      have hne : r ≠ 11 := by
        rintro rfl
        exact h11 hr
      exact Function.update_of_ne hne _ _

/-! ## The immediate forms of an operation -/

/-- What the opcode tables say of a wide operation on a register. -/
def TableReg (op : UInt8) (n : Nat) : Prop :=
  ∀ k < 8, tableOk .long [] true .one op true k n = true

instance (op : UInt8) (n : Nat) : Decidable (TableReg op n) := by
  unfold TableReg; infer_instance

theorem TableReg.at {n : Nat} (h : TableReg op n) (reg : Nat) :
    tableOk .long [] true .one op true (reg % 8) n = true :=
  h _ (Nat.mod_lt _ (by decide))

theorem fits_reg {op : UInt8} {reg rm : Nat} {imm : List UInt8}
    (htable : tableOk .long [] true .one op true (reg % 8) imm.length = true) (hreg : reg < 16)
    (hrm : rm < 16) : (form [] .wide .one op (.rm reg (.reg rm)) imm).Fits .long :=
  ⟨htable, ⟨hreg, hrm⟩, fun h => by cases h⟩

/-- A wide one-byte opcode whose operand is a register and whose field holds
the whole immediate. -/
theorem performs_op_reg {reg rm : UInt8} {n : Nat} {act : Source → Act}
    (htable : tableOk .long [] true .one op true (num reg % 8) n = true)
    (h68 : op ≠ 0x68) (h6a : op ≠ 0x6A)
    (hact : ∀ bs, actOnReg op (num reg) (num rm) bs = some (act (.imm (Bytes.signed bs))))
    (hval : Bytes.signed (low n imm) = imm.toInt) :
    Performs act imm (op_reg [] .wide (opBytes .one op) reg rm (low n imm)) := by
  rw [op_reg_form]
  have hf := @fits_reg op (num reg) (num rm) (low n imm) (by rwa [length_low]) (num_lt reg) (num_lt rm)
  refine performs_form hf ?_
  rw [act_onReg rfl rfl rfl h68 h6a, ← hval]
  exact hact _

/-- The three forms of one operation of the ALU. -/
structure ImmForms.Writes (f : ImmForms) (op : UInt8) (digit : UInt8) : Prop where
  imm8 : ∀ r v, f.imm8 r v = op_reg [] .wide (opBytes .one 0x83) digit r.id (low 1 v)
  imm32 : ∀ r v, f.imm32 r v = op_reg [] .wide (opBytes .one 0x81) digit r.id (low 4 v)
  reg : ∀ r s, f.reg r s = op_reg [] .wide (opBytes .one op) s.id r.id []
  table : TableReg op 0

theorem imm_forms_performs {f : ImmForms} (op digit : UInt8) (hf : f.Writes op digit) {a : Alu}
    (hdigit : Alu.ofDigit (num digit % 8) = a) (hop : op.toNat < 0x40 ∧ op.toNat % 8 = 1)
    (hopa : Alu.ofDigit (op.toNat / 8) = a) (h : f.encode dst imm = ⟨bs, .ok ()⟩) :
    Performs (.alu a dst.num.toNat) imm bs := by
  unfold ImmForms.encode at h
  simp only [Emit.bind_ok_iff, reg64_from_ok_iff] at h
  obtain ⟨_, r, bs', ⟨rfl, hr⟩, h, rfl⟩ := h
  rw [hr, ← num_id]
  split at h
  case isTrue h8 =>
    rw [push_ok_iff.mp h, hf.imm8]
    exact performs_op_reg (TableReg.at (by decide) _) (by decide) (by decide)
      (fun bs => by simp [actOnReg, hdigit]) (signed_low_one h8)
  case isFalse =>
    split at h
    case isTrue h32 =>
      rw [push_ok_iff.mp h, hf.imm32]
      exact performs_op_reg (TableReg.at (by decide) _) (by decide) (by decide)
        (fun bs => by simp [actOnReg, hdigit]) (signed_low_four h32)
    case isFalse =>
      unfold stage_imm64_r11 at h
      split at h
      · simp at h
      case isFalse h11 =>
        simp only [Emit.bind_ok_iff, push_ok_iff, Emit.pure_ok_iff] at h
        obtain ⟨_, _, _, ⟨_, _, _, rfl, ⟨rfl, rfl⟩, rfl⟩, rfl, rfl⟩ := h
        have hne : r.id.toNat ≠ 11 := fun h => h11 (Reg64.id_inj (UInt8.toNat_inj.mp h))
        have h68 : op ≠ 0x68 := by rintro rfl; simp at hop
        have h6a : op ≠ 0x6A := by rintro rfl; simp at hop
        have h81 : op ≠ 0x81 := by rintro rfl; simp at hop
        have h83 : op ≠ 0x83 := by rintro rfl; simp at hop
        rw [List.append_nil, hf.reg, op_reg_form]
        refine performs_staged (fits_reg (hf.table.at _) (num_lt _) (num_lt _)) ?_ ?_
        · rw [act_onReg rfl rfl rfl h68 h6a]
          simp [form, actOnReg, h81, h83, hop, hopa]
          rfl
        · simp [Act.registers, Ne.symm hne]

/-! ## The other operations -/

theorem adc_performs (hops : inst.operands = [.Reg dst, .Imm64 imm])
    (h : encode_adc inst .W64 = ⟨bs, .ok ()⟩) : Performs (.alu .adc dst.num.toNat) imm bs := by
  simp only [encode_adc, hops] at h
  split at h
  · simp at h
  case isFalse h32 =>
    split at h
    all_goals
      simp at h
      obtain ⟨r, hr, rfl⟩ := h
      rw [hr, ← num_id]
    case isTrue h8 =>
      exact performs_op_reg (by decide) (by decide) (by decide) (fun bs => rfl) (signed_low_one h8)
    case isFalse =>
      exact performs_op_reg (by decide) (by decide) (by decide) (fun bs => rfl)
        (signed_low_four (by simpa using h32))

theorem imul_performs {src : RegId} (hops : inst.operands = [.Reg dst, .Reg src, .Imm64 imm])
    (h : encode_imul inst = ⟨bs, .ok ()⟩) :
    Performs (.imul dst.num.toNat src.num.toNat) imm bs := by
  simp only [encode_imul, hops] at h
  simp at h
  obtain ⟨r, hr, f, hf, h⟩ := h
  rw [hr, hf, ← num_id, ← num_id]
  split at h
  case isTrue h8 =>
    rw [push_ok_iff.mp h]
    exact performs_op_reg (TableReg.at (by decide) _) (by decide) (by decide) (fun bs => rfl)
      (signed_low_one h8)
  case isFalse =>
    split at h
    case isTrue h32 =>
      rw [push_ok_iff.mp h]
      exact performs_op_reg (TableReg.at (by decide) _) (by decide) (by decide) (fun bs => rfl)
        (signed_low_four h32)
    case isFalse => simp at h

/-- An opcode without ModRM and its field. -/
def bareForm (w : Bool) (op : UInt8) (imm : List UInt8) : Form :=
  ⟨[], w, false, .one, op, .none, imm⟩

theorem fits_bareForm {w : Bool} {imm : List UInt8}
    (htable : tableOk .long [] w .one op false 0 imm.length = true) :
    (bareForm w op imm).Fits .long :=
  ⟨htable, trivial, fun h => by cases h⟩

theorem test_performs (hops : inst.operands = [.Reg dst, .Imm64 imm])
    (h : encode_test inst = ⟨bs, .ok ()⟩) :
    Performs (.test dst.num.toNat) imm bs := by
  simp only [encode_test, hops] at h
  simp at h
  obtain ⟨r, hr, h⟩ := h
  split at h
  · simp at h
  case isFalse h32 =>
    have hval : Bytes.signed (low 4 imm) = imm.toInt := signed_low_four (by simpa using h32)
    rw [hr, push_ok_iff.mp h]
    unfold test_reg64_imm32
    split_ifs with hrax
    · -- `A9` without ModRM is the form of `rax`
      subst hrax
      have hbytes : [rex true false false false, 0xA9] ++ low 4 imm =
          (bareForm true 0xA9 (low 4 imm)).bytes := by
        rw [rex_eq]
        rfl
      rw [hbytes]
      refine performs_form (fits_bareForm (by rw [length_low]; decide)) ?_
      simp [Insn.act, Form.insn, bareForm, Form.rex, Form.bits, Form.opByte, Arg.opByte, Arg.modrm,
        hval]
      rfl
    · rw [← num_id]
      exact performs_op_reg (by decide) (by decide) (by decide) (fun bs => rfl) hval

theorem push_performs (hops : inst.operands = [.Imm64 imm]) (h : encode_push inst = ⟨bs, .ok ()⟩) :
    Performs .push imm bs := by
  simp only [encode_push, hops] at h
  split at h
  · simp at h
  · split at h
    case isTrue h8 =>
      rw [push_ok_iff.mp h]
      refine @performs_form (bareForm false 0x6A (low 1 imm)) _ _
        (fits_bareForm (by rw [length_low]; decide)) ?_
      rw [← signed_low_one h8]
      rfl
    case isFalse =>
      split at h
      case isTrue h32 =>
        rw [push_ok_iff.mp h]
        refine @performs_form (bareForm false 0x68 (low 4 imm)) _ _
          (fits_bareForm (by rw [length_low]; decide)) ?_
        rw [← signed_low_four h32]
        rfl
      case isFalse => simp at h

theorem movabs_performs (r : Reg64) (imm : Int64) :
    Performs (.mov r.id.toNat) imm (mov_reg64_imm64 r imm) := by
  rw [mov_reg64_imm64_form]
  refine performs_form (fits_mov_reg64_imm64 r imm) ?_
  rw [← signed_low_eight imm]
  exact act_mov_reg64_imm64 [] r imm

theorem mov_performs {out : EncodeOutput} (hmode : inst.mode = .Mode64)
    (hops : inst.operands = [.Reg dst, .Imm64 imm]) (h : encode_mov inst = ⟨bs, .ok out⟩) :
    Performs (.mov dst.num.toNat) imm bs := by
  rcases encode_mov_ok h with ⟨⟨d, s, heq⟩, _⟩ | hg
  · simp [hops] at heq
  · simp only [encode_mov_generic, hops, hmode, encode_mov_shapes] at hg
    simp at hg
    obtain ⟨hg, _⟩ := hg
    split at hg
    all_goals
      simp at hg
      obtain ⟨r, hr, rfl⟩ := hg
      rw [hr]
    case isTrue h32 =>
      rw [← num_id]
      exact performs_op_reg (by decide) (by decide) (by decide) (fun bs => rfl)
        (signed_low_four h32)
    case isFalse => exact movabs_performs r imm

theorem mov_sized_performs {out : EncodeOutput} (hops : inst.operands = [.Reg dst, .Imm64 imm])
    (h : encode_mov_sized inst .W64 = ⟨bs, .ok out⟩) : Performs (.mov dst.num.toNat) imm bs := by
  simp only [encode_mov_sized, hops, plain_ok_iff] at h
  simp at h
  obtain ⟨⟨r, hr, h⟩, _⟩ := h
  split at h
  · simp at h
  · rw [hr, push_ok_iff.mp h]
    exact movabs_performs r imm

/-- Without a memory operand there is no segment prefix. -/
theorem encode_instruction_of_none (h : find_mem_seg inst.operands = none) :
    encode_instruction inst = encode_instruction_impl inst := by
  simp [encode_instruction, h]

/-- No immediate of a 64-bit operation is cut. -/
theorem immediate_performed_whole {inst : Instruction} {act : Source → Act} {imm : Int64}
    {bs : List UInt8} {out : EncodeOutput} (hop : immediateOp inst = some (act, imm))
    (h : encode_instruction inst = ⟨bs, .ok out⟩) : Performs act imm bs := by
  unfold immediateOp at hop
  split at hop <;> rename_i hmn hops <;> try split at hop
  all_goals cases hop
  all_goals
    rw [encode_instruction_of_none (by rw [hops]; rfl)] at h
    simp only [encode_instruction_impl, hmn, plain_ok_iff] at h
  case h_1 =>
    simp only [encode_add, hops] at h
    exact imm_forms_performs 0x01 0
      ⟨fun _ _ => rfl, fun _ _ => rfl, fun _ _ => rfl, by decide⟩ rfl (by decide) rfl h.1
  case h_2 =>
    simp only [encode_sub, hops] at h
    exact imm_forms_performs 0x29 5
      ⟨fun _ _ => rfl, fun _ _ => rfl, fun _ _ => rfl, by decide⟩ rfl (by decide) rfl h.1
  case h_3 => exact adc_performs hops h.1
  case h_4 =>
    simp only [encode_and, hops] at h
    exact imm_forms_performs 0x21 4
      ⟨fun _ _ => rfl, fun _ _ => rfl, fun _ _ => rfl, by decide⟩ rfl (by decide) rfl h.1
  case h_5.isTrue hmode =>
    simp only [encode_or, hops, hmode] at h
    exact imm_forms_performs 0x09 1
      ⟨fun _ _ => rfl, fun _ _ => rfl, fun _ _ => rfl, by decide⟩ rfl (by decide) rfl h.1
  case h_6 =>
    simp only [encode_xor, hops] at h
    exact imm_forms_performs 0x31 6
      ⟨fun _ _ => rfl, fun _ _ => rfl, fun _ _ => rfl, by decide⟩ rfl (by decide) rfl h.1
  case h_7 | h_8 =>
    simp only [encode_cmp_sized, encode_cmp, hops] at h
    exact imm_forms_performs 0x39 7
      ⟨fun _ _ => rfl, fun _ _ => rfl, fun _ _ => rfl, by decide⟩ rfl (by decide) rfl h.1
  case h_9 => exact imul_performs hops h.1
  case h_10 => exact test_performs hops h.1
  case h_11 => exact push_performs hops h.1
  case h_12.isTrue hmode => exact mov_performs hmode hops h
  case h_13 => exact mov_sized_performs hops h

/-- `add rdx, 2^40` goes through `r11`. -/
theorem add_rdx_wide_performed_whole :
    Performs (.alu .add 2) 0x10000000000
      [0x49, 0xBB, 0, 0, 0, 0, 0, 1, 0, 0, 0x4C, 0x01, 0xDA] :=
  @immediate_performed_whole ⟨.Add, [.Reg ⟨2⟩, .Imm64 0x10000000000], none, .Mode64⟩ _ _ _ .new
    rfl rfl

end paideia_as_encoder
