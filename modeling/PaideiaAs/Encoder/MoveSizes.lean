-- The sizes of the moves, the system instructions and the vector
-- instructions, and the table over every mnemonic.
import PaideiaAs.Encoder.Sizes

namespace paideia_as_encoder

open paideia_as_runtime Emit
open RexUse (len need)

section

variable {inst : Instruction} {width : IntWidth} {n : Nat}

theorem yields_rol_iff : (encode_rol inst width).Yields n ↔
    (match width with
      | .W64 => size_rotation .wide inst.operands
      | .W32 => size_rotation .need inst.operands
      | .W16 => size_rol_w16 inst.operands
      | .W8 => none) = some n := by
  unfold encode_rol
  cases width with
  | W8 => simp
  | W16 =>
    unfold size_rol_w16
    dsimp only
    split
    · simp_all [yields_ite, rol_reg16_imm8, len]
      grind
    · simp_all [yields_ite, rol_reg16_cl, len]
      grind
    · simp_all
  | W32 => apply yields_rotate_iff <;> simp [rol_reg32_imm8, rol_reg32_cl, len]
  | W64 => apply yields_rotate_iff <;> simp [rol_reg64_imm8, rol_reg64_cl, len]

theorem yields_ror_iff : (encode_ror inst width).Yields n ↔
    wide32 width = true ∧ size_rotation (widthRex width) inst.operands = some n := by
  unfold encode_ror
  cases width with
  | W8 | W16 => simp [wide32]
  | W32 =>
    refine (@yields_rotate_iff inst n _ _ .need _ _ ?_ ?_).trans (by simp [wide32, widthRex]) <;>
    simp [ror_reg32_imm8, ror_reg32_cl, len]
  | W64 =>
    refine (@yields_rotate_iff inst n _ _ .wide _ _ ?_ ?_).trans (by simp [wide32, widthRex]) <;>
    simp [ror_reg64_imm8, ror_reg64_cl, len]

variable {u : RexUse} {k : Nat} {x : Emit Unit} {o : Option Nat}

theorem yields_one_reg_iff {bytes : Reg64 → List UInt8}
    (h : ∀ r, (bytes r).length = k + u.len (high r.id)) :
    (one_reg bytes inst).Yields n ↔ size_reg u k inst.operands = some n := by
  unfold one_reg size_reg
  split <;> simp_all +contextual [asReg_id]

theorem yields_push_inst_iff : (encode_push inst).Yields n ↔
    inst.mode = .Mode64 ∧ size_push inst.operands = some n := by
  unfold encode_push
  rcases hmode : inst.mode with _ | _
  · simp only [reduceCtorEq, if_false, true_and]
    split <;> unfold size_push
    · simp_all +contextual [push_reg64, len, asReg_id, Nat.add_comm]
    · rename_i imm heq
      rw [heq]
      rcases h8 : fits_i8 imm with _ | _
      · simp [yields_ite, push_imm32, h8]
      · simp [fits_i32_of_i8 h8, push_imm8, h8]
    · simp_all
  · simp

theorem yields_pop_iff : (encode_pop inst).Yields n ↔
    inst.mode = .Mode64 ∧ size_reg .need 1 inst.operands = some n := by
  have hreg : (one_reg pop_reg64 inst).Yields n ↔ size_reg .need 1 inst.operands = some n := by
    apply yields_one_reg_iff
    simp [pop_reg64, len, Nat.add_comm]
  unfold encode_pop
  rcases hmode : inst.mode with _ | _ <;> simp [hreg]

theorem yields_bare_opcode_iff (byte : UInt8) :
    (bare_opcode byte inst).Yields n ↔ sized inst.operands.isEmpty 1 = some n := by
  unfold bare_opcode
  split_ifs <;> simp_all

theorem yields_no_operands_iff (bytes : List UInt8) :
    (no_operands bytes inst).Yields n ↔ sized inst.operands.isEmpty bytes.length = some n := by
  unfold no_operands
  split_ifs <;> simp_all

theorem yields_mem_reg_iff {bytes : Reg64 → Int32 → Reg64 → List UInt8} (h : ∀ b disp s, (bytes b disp s).length =
      k + u.len (high b.id || high s.id) + memLen b.id disp) :
    (mem_reg bytes inst).Yields n ↔ size_mem_reg u k inst.operands = some n := by
  unfold mem_reg size_mem_reg
  split <;> simp_all +contextual [asReg_id, and_assoc]

theorem yields_one_mem_iff {bytes : Reg64 → Int32 → List UInt8}
    (h : ∀ b disp, (bytes b disp).length = k + u.len (high b.id) + memLen b.id disp) :
    (one_mem bytes inst).Yields n ↔ size_mem u k inst.operands = some n := by
  unfold one_mem size_mem
  split <;> simp_all +contextual [asReg_id]

theorem yields_lock_xadd_iff : (encode_lock_xadd inst width).Yields n ↔
    wide32 width = true ∧ size_mem_reg (widthRex width) 3 inst.operands = some n := by
  unfold encode_lock_xadd size_mem_reg
  split
  · cases width with
    | W8 | W16 => simp [wide32]
    | W32 =>
      simp_all +contextual [wide32, widthRex, lock_xadd_mem_base_disp_reg32, len, asReg_id,
        and_assoc]
      grind
    | W64 =>
      simp_all +contextual [wide32, widthRex, lock_xadd_mem_base_disp_reg64, len, asReg_id,
        and_assoc]
  · simp_all

theorem yields_lock_forms_iff {f : LockForms} {u : RexUse} {imm_msg : String} {other : Emit Unit}
    (hreg : ∀ b disp s, (f.reg b disp s).length =
      2 + u.len (high b.id || high s.id) + memLen b.id disp)
    (h8 : ∀ b disp imm, (f.imm8 b disp imm).length = 3 + u.len (high b.id) + memLen b.id disp)
    (h32 : ∀ b disp imm, (f.imm32 b disp imm).length = 6 + u.len (high b.id) + memLen b.id disp)
    (hother : size_lock u inst.operands = none → ¬ other.Yields n) :
    (f.encode imm_msg inst other).Yields n ↔ size_lock u inst.operands = some n := by
  unfold LockForms.encode
  split
  · simp_all +contextual [size_lock, asReg_id, and_assoc]
  · rename_i base disp imm heq
    rw [heq]
    simp only [yields_reg64_from_bind, size_lock, sized_eq_some, Bool.and_eq_true, and_assoc]
    apply and_congr_right
    intro hg
    rcases hf : fits_i8 imm with _ | _
    · simp +arith [yields_ite, h32, asReg_id hg]
    · simp +arith [fits_i32_of_i8 hf, h8, asReg_id hg]
  · rename_i hnot1 hnot2
    have hnone : size_lock u inst.operands = none := by
      unfold size_lock
      split <;> simp_all
    rw [hnone]
    simpa using hother hnone

theorem yields_lock_bit_iff {reg : Reg64 → Int32 → Reg64 → List UInt8}
    {imm8 : Reg64 → Int32 → Int64 → List UInt8} {width_msg imm_msg : String}
    (hreg : ∀ b disp s, (reg b disp s).length = 4 + memLen b.id disp)
    (himm : ∀ b disp imm, (imm8 b disp imm).length = 5 + memLen b.id disp) :
    (lock_bit reg imm8 width_msg imm_msg inst width).Yields n ↔
      (width == .W64) = true ∧ size_lock_bit inst.operands = some n := by
  unfold lock_bit size_lock_bit
  cases width with
  | W64 =>
    simp only [ne_eq, not_true_eq_false, if_false, beq_self_eq_true, true_and]
    split <;> simp_all +contextual [yields_ite, asReg_id, and_assoc]
  | _ => simp

theorem yields_lock_logic_iff {bytes : Reg64 → Int32 → Reg64 → List UInt8} {width_msg : String}
    (h : ∀ b disp s, (bytes b disp s).length = 3 + memLen b.id disp) :
    (lock_logic bytes width_msg inst width).Yields n ↔
      (width == .W64) = true ∧ size_mem_reg .wide 2 inst.operands = some n := by
  have hmem : (mem_reg bytes inst).Yields n ↔ size_mem_reg .wide 2 inst.operands = some n := by
    apply yields_mem_reg_iff
    simpa [len] using h
  unfold lock_logic
  cases width <;> simp [hmem]

theorem yields_lock_abs_iff (op : UInt8) (disp32 : Int32) (imm : List UInt8) :
    (lock_abs width op disp32 imm).Yields n ↔
      wide32 width = true ∧ 8 + (widthRex width).len false + imm.length = n := by
  cases width with
  | W8 | W16 =>
    refine iff_of_false ?_ (by simp [wide32])
    rintro ⟨⟨a, ha⟩, -⟩
    cases ha
  | W32 | W64 => simp +arith [lock_abs, wide32, widthRex, high_digit, len]

theorem size_lock_abs (u : RexUse) {ops : List Operand}
    (h : ∀ disp imm, ops ≠ [.MemDisp disp, .Imm64 imm]) :
    size_lock_add u ops = size_lock u ops := by
  unfold size_lock_add
  split
  · exact absurd rfl (h _ _)
  · rfl

/-- The locked addition takes an absolute address beside the shapes of
`lock_sub`. -/
theorem yields_lock_add_forms_iff {f : LockForms} {imm_msg : String}
    (hw : wide32 width = true) (hu : widthRex width = u)
    (hforms : (size_lock u inst.operands = none → ¬ (lock_add_abs inst width).Yields n) →
      ((f.encode imm_msg inst (lock_add_abs inst width)).Yields n ↔
        size_lock u inst.operands = some n)) :
    (f.encode imm_msg inst (lock_add_abs inst width)).Yields n ↔
      size_lock_add u inst.operands = some n := by
  by_cases habs : ∃ disp imm, inst.operands = [.MemDisp disp, .Imm64 imm]
  · obtain ⟨disp, imm, heq⟩ := habs
    have hother : f.encode imm_msg inst (lock_add_abs inst width) = lock_add_abs inst width := by
      unfold LockForms.encode
      rw [heq]
    rw [hother]
    unfold lock_add_abs
    rw [heq]
    rcases h8 : fits_i8 imm with _ | _
    · simp [yields_ite, size_lock_add, lock_add_mem_abs_disp32_imm32, yields_lock_abs_iff, hw, hu,
        h8]
    · simp [size_lock_add, lock_add_mem_abs_disp32_imm8, yields_lock_abs_iff, hw, hu, h8,
        fits_i32_of_i8 h8]
  · rw [size_lock_abs u fun disp imm h => habs ⟨disp, imm, h⟩]
    refine hforms fun _ => ?_
    unfold lock_add_abs
    split
    · rename_i disp imm heq
      exact absurd ⟨disp, imm, heq⟩ habs
    · simp

theorem yields_lock_add_iff : (encode_lock_add inst width).Yields n ↔
    wide32 width = true ∧ size_lock_add (widthRex width) inst.operands = some n := by
  unfold encode_lock_add
  cases width with
  | W8 | W16 => simp [wide32]
  | W32 =>
    refine (yields_lock_add_forms_iff rfl rfl (yields_lock_forms_iff ?_ ?_ ?_)).trans ?_
    · simp +arith [lock_add_mem_base_disp_reg32, widthRex, len, Bool.or_comm]
    · simp +arith [lock_add_mem_base_disp_imm8_w32, high_digit, widthRex, len]
    · simp +arith [lock_add_mem_base_disp_imm32_w32, high_digit, widthRex, len]
    · simp [wide32, widthRex]
  | W64 =>
    refine (yields_lock_add_forms_iff rfl rfl (yields_lock_forms_iff ?_ ?_ ?_)).trans ?_
    · simp +arith [lock_add_mem_base_disp_reg64, widthRex, len]
    · simp +arith [lock_add_mem_base_disp_imm8, widthRex, len]
    · simp +arith [lock_add_mem_base_disp_imm32, widthRex, len]
    · simp [wide32]

theorem yields_lock_sub_iff : (encode_lock_sub inst width).Yields n ↔
    wide32 width = true ∧ size_lock (widthRex width) inst.operands = some n := by
  unfold encode_lock_sub
  cases width with
  | W8 | W16 => simp [wide32]
  | W32 =>
    refine (@yields_lock_forms_iff inst n _ .need _ _ ?_ ?_ ?_ ?_).trans ?_
    · simp +arith [lock_sub_mem_base_disp_reg32, len, Bool.or_comm]
    · simp +arith [lock_sub_mem_base_disp_imm8_w32, high_digit, len]
    · simp +arith [lock_sub_mem_base_disp_imm32_w32, high_digit, len]
    · simp
    · simp [wide32, widthRex]
  | W64 =>
    refine (@yields_lock_forms_iff inst n _ .wide _ _ ?_ ?_ ?_ ?_).trans ?_
    · simp +arith [lock_sub_mem_base_disp_reg64, len]
    · simp +arith [lock_sub_mem_base_disp_imm8, len]
    · simp +arith [lock_sub_mem_base_disp_imm32, len]
    · simp
    · simp [wide32, widthRex]

def size_lock_inc (u : RexUse) : List Operand → Option Nat
  | [.MemDisp _] => some (8 + u.len false)
  | _ => none

theorem yields_lock_inc_iff : (encode_lock_inc inst width).Yields n ↔
    wide32 width = true ∧ size_lock_inc (widthRex width) inst.operands = some n := by
  unfold encode_lock_inc size_lock_inc
  cases width with
  | W8 | W16 => simp [wide32]
  | W32 | W64 =>
    rw [if_neg (by simp)]
    split <;> simp_all [lock_inc_mem_abs_disp32, yields_lock_abs_iff, wide32]

theorem yields_checked_iff {bad : Bool} {gpr : UInt8} {e e' : EncodeError} {bs : List UInt8} :
    (if bad then Emit.fail e else if 15 < gpr then Emit.fail e'
      else Emit.push bs : Emit Unit).Yields n ↔ (!bad && gpr ≤ 15) = true ∧ bs.length = n := by
  rcases bad with _ | _
  · rcases UInt8.lt_or_le 15 gpr with h | h
    · simp [h]
    · simp [UInt8.not_lt.mpr h, h]
  · simp

variable (write : Bool)

@[simp] theorem length_encode_mov_cr (cr gpr : UInt8) :
    (encode_mov_cr write cr gpr).length = 3 + (8 ≤ cr || 8 ≤ gpr : Bool).toNat := by
  unfold encode_mov_cr
  split_ifs with h <;> simp [h]

theorem yields_mov_cr_iff : (encode_mov_cr_inst inst write).Yields n ↔
    size_mov_cr write inst.operands = some n := by
  unfold encode_mov_cr_inst
  split <;> unfold size_mov_cr
  · rename_i first second heq
    rw [heq, sized_eq_some]
    cases write with
    | false =>
      refine (@yields_checked_iff n (!List.contains [0, 2, 3, 4, 8] second.num) first.num _ _ _).trans ?_
      simp [takes_mov_cr, Bool.or_comm]
    | true =>
      refine (@yields_checked_iff n (!List.contains [0, 2, 3, 4, 8] first.num) second.num _ _ _).trans ?_
      simp [takes_mov_cr]
  · simp_all

theorem yields_mov_dr_iff : (encode_mov_dr_inst inst write).Yields n ↔
    sized (takes_mov_dr write inst.operands) 3 = some n := by
  unfold encode_mov_dr_inst
  split <;> unfold takes_mov_dr
  · rename_i first second heq
    rw [heq, sized_eq_some]
    have hchecks := @yields_checked_iff n
    cases write
    · have := @hchecks (7 < second.num) first.num
      simp_all [encode_mov_dr]
    · have := @hchecks (7 < first.num) second.num
      simp_all [encode_mov_dr]
  · simp_all

theorem yields_movnti_iff : (encode_movnti inst width).Yields n ↔
    size_movnti width inst.operands = some n := by
  unfold encode_movnti size_movnti
  split
  · cases width <;> simp_all +contextual [movnti_mem_base_disp_reg32, movnti_mem_base_disp_reg64,
      widthRex, len, asReg_id, and_assoc]
    all_goals grind
  · cases width <;> simp_all +contextual [movnti_mem_sib_disp_reg32, movnti_mem_sib_disp_reg64,
      widthRex, len, asReg_id, and_assoc]
    all_goals grind
  · simp_all

theorem length_movzx_reg64 (d s : Reg64) (w : UInt8) :
    ((movzx_reg64 d s w).getD []).length = if w = 1 ∨ w = 2 then 4 else 0 := by
  unfold movzx_reg64
  split <;> simp_all [len]

theorem yields_movzx_iff : (encode_movzx inst).Yields n ↔
    size_movzx ((inst.encoding_hint.map (·.operand_size)).getD 1) inst.operands = some n := by
  have hmem : ∀ d b disp w, w = 1 ∨ w = 2 →
      (movzx_reg64_mem_base_disp d b disp w).length = 3 + memLen b.id disp := by
    rintro d b disp w (rfl | rfl) <;> simp [movzx_reg64_mem_base_disp, len]
  unfold encode_movzx size_movzx
  split
  · rename_i dest src heq
    rw [heq]
    simp only
    split
    · simp only [yields_reg64_from_bind, yields_push, length_movzx_reg64, sized_eq_some,
        Bool.and_eq_true, and_assoc]
    · rename_i base index scale disp
      rcases index with _ | index
      · rw [if_neg (by simp)]
        split_ifs with hw
        · simp +contextual [hw, hmem _ _ _ _ hw, asReg_id, and_assoc]
        · simp [hw]
      · simp
    · simp_all
  · simp_all
  · simp_all

theorem length_movsx_reg64 {d s : Reg64} {w : UInt8} {bs : List UInt8}
    (h : movsx_reg64 d s w = some bs) : bs.length = if w = 4 then 3 else 4 := by
  unfold movsx_reg64 at h
  split at h
  all_goals
    cases h
    try simp [len]

theorem yields_movsx_iff : (encode_movsx inst).Yields n ↔
    size_movsx ((inst.encoding_hint.map (·.operand_size)).getD 4) inst.operands = some n := by
  have hmem : ∀ d b disp w, w = 1 ∨ w = 2 ∨ w = 4 →
      (movsx_reg64_mem_base_disp d b disp w).length =
        memLen b.id disp + if w = 4 then 2 else 3 := by
    rintro d b disp w (rfl | rfl | rfl) <;>
    simp +arith [movsx_reg64_mem_base_disp, len]
  unfold encode_movsx size_movsx
  split
  · rename_i dest src heq
    rw [heq]
    simp only
    generalize (inst.encoding_hint.map (·.operand_size)).getD 4 = w
    split
    · rename_i src_reg
      simp only [yields_reg64_from_bind, sized_eq_some, Bool.and_eq_true, and_assoc]
      have hsome := movsx_reg64_isSome_iff (asReg dest) (asReg src_reg) w
      split
      · rename_i bs hbs
        rw [yields_push, length_movsx_reg64 hbs, ← hsome, hbs]
        simp
      · rename_i hnone
        rw [← hsome, hnone]
        simp
    · rename_i base index scale disp
      rcases index with _ | index
      · rw [if_neg (by simp)]
        by_cases hw : w = 1 ∨ w = 2 ∨ w = 4
        · rw [if_pos hw]
          simp +contextual [hw, hmem _ _ _ _ hw, asReg_id, and_assoc]
        · rw [if_neg hw]
          simp [hw]
      · simp
    · simp_all
  · simp_all
  · simp_all

theorem yields_mov_sized_iff : (encode_mov_sized inst width).Yields n ↔
    size_mov_sized inst.mode width inst.operands = some n := by
  unfold encode_mov_sized size_mov_sized
  split
  · cases width <;> simp_all +contextual [yields_ite, mov_reg64_imm64, mov_reg32_imm32,
      mov_reg16_imm16, mov_reg8_imm8, opsize, widthRex, immLen, len, asReg_id, and_assoc]
  · cases width <;> simp_all +contextual [mov_reg64_mem_reg64_disp, mov_reg32_mem_base_disp,
      mov_reg16_mem_base_disp, mov_reg8_mem_base_disp, opsize, widthRex, len, asReg_id,
      and_assoc]
  · cases width <;> simp_all +contextual [mov_reg64_mem_sib_disp, mov_reg_mem_sib_disp_sized,
      opsize, widthRex, len, asReg_id, and_assoc]
  · cases width <;> simp_all +contextual [yields_ite, mov_mem_base_disp_imm8,
      mov_mem_base_disp_imm16, mov_mem_base_disp_imm32, mov_mem_base_disp_imm32_sxt, opsize,
      widthRex, immLen, len, asReg_id, and_assoc]
  · cases width <;> simp_all +contextual [mov_mem_base_disp_reg8, mov_mem_base_disp_reg16,
      mov_mem_base_disp_reg32, mov_mem_reg64_disp_reg64, opsize, widthRex, storeRex,
      requires_rex_for_byte_reg, len, asReg_id, and_assoc]
  · cases width <;> simp_all +contextual [mov_mem_sib_disp_reg8, mov_mem_sib_disp_reg16,
      mov_mem_sib_disp_reg32, mov_mem_sib_disp_reg64, opsize, widthRex, storeRex,
      requires_rex_for_byte_reg, len, asReg_id, and_assoc]
  · cases width <;> simp_all +contextual [yields_ite, mov_mem_sib_disp_imm8,
      mov_mem_sib_disp_imm16, mov_mem_sib_disp_imm32, mov_mem_sib_disp_imm32_sxt, opsize,
      widthRex, immLen, len, asReg_id, and_assoc]
  · cases width <;> simp_all [mov_reg_mem_rip_rel_sized, mov_rip_sized, opsize, widthRex,
      len]
  · cases width <;> simp_all [mov_reg_mem_rip_rel_sized, mov_rip_sized, opsize, widthRex,
      len]
  · cases width <;> simp_all [mov_rip_sized, opsize, widthRex, len]
  · cases width <;> simp_all +contextual [mov_reg_mem_abs_disp32, opsize, widthRex, len,
      asReg_id]
  · cases width <;> simp_all +contextual [mov_mem_abs_disp32_reg, opsize, widthRex, len,
      asReg_id]
  · cases width <;> simp_all [yields_ite, mov_mem_abs_disp32_imm, opsize, widthRex, immLen,
      len]
  · simp_all [yields_ite]

theorem yields_mov_shapes_iff (hmov : inst.mnemonic = .Mov) :
    (encode_mov_shapes inst).Yields n ↔ size_mov_both inst.operands = some n := by
  unfold encode_mov_shapes
  rw [hmov]
  simp only
  split <;> unfold size_mov_both
  · simp_all [mov_reg64_reg64, len, and_assoc]
  · rename_i dest imm heq
    rw [heq]
    rcases hfits : fits_i32 imm with _ | _ <;>
    simp [hfits, mov_reg64_imm32, mov_reg64_imm64, len]
  · simp_all +contextual [mov_reg64_mem_reg64_disp, len, asReg_id, and_assoc]
  · simp_all +contextual [mov_mem_reg64_disp_reg64, len, asReg_id, and_assoc]
  · simp_all +contextual [mov_reg64_mem_sib_disp, len, asReg_id, and_assoc]
  · simp_all +contextual [mov_mem_sib_disp_reg64, len, asReg_id, and_assoc]
  · rename_i base disp imm heq
    rw [heq]
    simp only [yields_plain, yields_reg64_from_bind, staged, sized_eq_some, Bool.and_eq_true,
      and_assoc]
    apply and_congr_right
    intro hg
    have h11 : asReg base = .R11 ↔ base.num = 11 := asReg_eq_iff hg .R11
    rcases hfits : fits_i32 imm with _ | _ <;>
    simp +arith [yields_ite, h11, asReg_id hg, mov_mem_base_disp_imm32_sxt,
      mov_reg64_imm64, mov_mem_reg64_disp_reg64, len]
  · rename_i base idx scale disp imm heq
    rw [heq]
    simp only [yields_plain, yields_reg64_from_bind, staged, sized_eq_some, Bool.and_eq_true]
    by_cases hb : general base = true
    · by_cases hi : general idx = true
      · have h11 : asReg base = .R11 ↔ base.num = 11 := asReg_eq_iff hb .R11
        have h11' : asReg idx = .R11 ↔ idx.num = 11 := asReg_eq_iff hi .R11
        rcases hfits : fits_i32 imm with _ | _ <;>
        simp +arith [yields_ite, h11, h11', hb, hi, asReg_id hb, mov_mem_sib_disp_imm32_sxt,
          mov_reg64_imm64, mov_mem_sib_disp_reg64, len, and_assoc]
      · simp [hi]
    · simp [hb]
  · simp_all [yields_ite]
  · simp_all [mov_reg_mem_abs_disp32, len]
  · simp_all [mov_mem_abs_disp32_reg, len]
  · simp_all [mov_mem_abs_disp32_imm, len]
  · simp_all [len]
  · simp_all [len]
  · simp_all [len]
  · simp_all [len]
  · simp_all [yields_ite]

@[simp] theorem length_mem_abs32 (op reg_id : UInt8) :
    (mem_abs32 op reg_id).1.length = (high reg_id).toNat + 6 := by
  unfold mem_abs32
  cases high reg_id <;> rfl

theorem yields_mov_generic_iff (hmov : inst.mnemonic = .Mov) :
    (encode_mov_generic inst).Yields n ↔ size_mov_generic inst.mode inst.operands = some n := by
  have hshapes := yields_mov_shapes_iff (n := n) hmov
  unfold encode_mov_generic size_mov_generic
  split
  · simp_all [mov_sreg_reg16]
  · rename_i hseg
    rcases hmode : inst.mode with _ | _
    · simp only
      split
      · simp_all [size_mov_both]
      · simp_all
    · simp only
      unfold encode_mov_mode32
      split <;> unfold size_mov_mode32
      · simp_all +contextual [yields_ite, mov_reg32_imm32, len, asReg_id, and_assoc]
      · simp_all +contextual [mov_reg32_reg32, len, asReg_id, and_assoc]
        grind
      · simp_all +contextual [mov_reg32_mem_abs32, asReg_id]
      · simp_all +contextual [mov_mem_abs32_reg32, asReg_id]
      · simp_all [yields_ite, mov_mem_abs32_imm32]
      · rw [Option.getD_none, hshapes]
        split <;> simp_all

/-- A move with one control or debug register. -/
theorem yields_special_iff {d s : RegId} (hops : inst.operands = [.Reg d, .Reg s])
    (hspecial : special d s = true) :
    (match moveKind d s with
      | .MovToCr => plain (encode_mov_cr_dispatcher inst true)
      | .MovFromCr => plain (encode_mov_cr_dispatcher inst false)
      | .MovToDr => plain (encode_mov_dr_dispatcher inst true)
      | .MovFromDr => plain (encode_mov_dr_dispatcher inst false)
      | .MovGeneric => encode_mov_generic inst).Yields n ↔ size_special d s = n := by
  have hgeneric := mt (moveKind_generic_iff d s).mp (not_not_intro hspecial)
  unfold moveKind at hgeneric ⊢
  unfold size_special
  split_ifs at hgeneric ⊢ <;>
  simp_all [encode_mov_cr_dispatcher, encode_mov_dr_dispatcher, encode_mov_dr]

theorem yields_mov_iff (hmov : inst.mnemonic = .Mov) : (encode_mov inst).Yields n ↔
    size_mov inst.mode inst.operands = some n := by
  have hgeneric := yields_mov_generic_iff (n := n) hmov
  unfold encode_mov size_mov
  split
  · rename_i d s rest heq
    have hkind : classify inst.operands = pure (moveKind d s) := by
      rw [heq]
      rfl
    rw [hkind, pure_bind']
    split_ifs with hspecial
    · rcases rest with _ | ⟨o, rest⟩
      · refine (yields_special_iff heq hspecial).trans ?_
        simp
      · have hnot := mt (moveKind_generic_iff d s).mp (not_not_intro hspecial)
        refine iff_of_false ?_ (by simp)
        cases hkind : moveKind d s with
        | MovGeneric => exact absurd hkind hnot
        | _ => simp [encode_mov_cr_dispatcher, encode_mov_dr_dispatcher, heq]
    · rw [(moveKind_generic_iff d s).mpr hspecial, ← heq]
      exact hgeneric
  · rename_i name o rest heq
    rw [heq]
    exact iff_of_false (fun h => nomatch h.1) (by simp)
  · rename_i o name rest hreg heq
    have hkind : classify inst.operands = .unreachable var_reached_classifier := by
      rw [heq]
      cases o <;> rfl
    rw [hkind]
    exact iff_of_false (fun h => nomatch h.1) (by simp)
  · rename_i h1 h2 h3
    have hkind : classify inst.operands = pure .MovGeneric := by
      unfold classify
      split <;> simp_all
    rw [hkind, pure_bind']
    exact hgeneric

theorem yields_lea_rip_iff (dest : RegId) (name : String) (addend : Int32) :
    (lea_rip dest name addend).Yields n ↔
      sized (general dest && !decide (AddendTooLow addend)) 7 = some n := by
  have hhi := biased_not_high addend
  unfold lea_rip AddendTooLow
  simp only [yields_reg64_from_bind, yields_push_bind, yields_ite, hhi, or_false, sized_eq_some,
    Bool.and_eq_true, and_assoc]
  by_cases hlow : addend.toInt + PC32_FIELD_BIAS.toInt < -2147483648 <;> simp [hlow, len]

theorem yields_lea_iff : (encode_lea inst).Yields n ↔
    size_lea inst.mode inst.operands = some n := by
  have hrip := @yields_lea_rip_iff n
  unfold encode_lea size_lea
  split
  · simp_all +contextual [len, asReg_id, and_assoc]
  · simp_all +contextual [len, asReg_id, and_assoc]
  · rcases hmode : inst.mode with _ | _ <;>
    simp_all +contextual [lea_reg32_mem_abs32, asReg_id]
  · simp_all
  · simp_all

theorem yields_jcc_iff (cond : paideia_as_runtime.Cond) :
    (encode_jcc cond inst).Yields n ↔ size_jcc inst.operands = some n := by
  unfold encode_jcc size_jcc
  split <;> simp_all [yields_ite, jcc_rel8, jcc_rel32]
  split_ifs <;> simp

theorem yields_setcc_iff (cond : paideia_as_runtime.Cond) :
    (encode_setcc cond inst).Yields n ↔ size_setcc inst.operands = some n := by
  unfold encode_setcc size_setcc
  split
  · simp_all [setcc_reg8]
    split_ifs <;> simp_all
  · simp_all

theorem yields_jmp_mem_iff {α : Type} {index : RegId} (hg : general index = true)
    (scale_bits : UInt8) (disp32 : Int32) (f : Nat → α) :
    (jmp_mem_sib_no_base_indexed (asReg index) scale_bits disp32 >>= fun k => pure (f k)).Yields n ↔
      index.num ≠ 4 ∧ (high index.num).toNat + 7 = n := by
  unfold jmp_mem_sib_no_base_indexed
  rw [(reg64_from_general hg).2]
  by_cases h4 : index.num = 4
  · rw [if_pos h4]
    exact iff_of_false (fun h => nomatch h.1) fun h => h.1 h4
  · rw [if_neg h4, yields_bind_pure]
    cases high index.num <;> simp [h4]

theorem yields_jmp_iff : (encode_jmp inst).Yields n ↔ size_jmp inst.operands = some n := by
  unfold encode_jmp
  split <;> unfold size_jmp
  · simp_all [jmp_rel32]
  · simp_all [jmp_rel32]
  · simp_all
  · rename_i name addend index scale heq
    rw [heq]
    by_cases hg : general index = true
    · simp [hg, yields_jmp_mem_iff hg, abs_site]
    · simp [hg]
  · rename_i disp index scale heq
    rw [heq]
    by_cases hg : general index = true
    · simp [hg, yields_jmp_mem_iff hg]
    · simp [hg]
  · simp_all +contextual [jmp_reg64, len, asReg_id]
  · simp_all

theorem yields_call_iff : (encode_call inst).Yields n ↔ size_call inst.operands = some n := by
  unfold encode_call size_call
  split <;> simp_all +contextual [call_rel32, call_reg64, call_mem_base_disp, call_mem_sib_disp,
    call_mem_rip_rel, len, asReg_id, and_assoc]

theorem yields_far_jmp_iff : (encode_far_jmp_inst inst).Yields n ↔
    size_far_jmp inst.operands = some n := by
  unfold encode_far_jmp_inst size_far_jmp
  split <;> simp_all +arith [encode_far_jmp, encode_far_jmp_imm, encode_far_jmp_imm_sym, len]

theorem yields_int_iff : (encode_int inst).Yields n ↔ size_int inst.operands = some n := by
  unfold encode_int size_int
  split <;> simp_all [yields_ite, encode_int_imm8]

theorem yields_port_iff {bytes : List UInt8} : (port bytes inst).Yields n ↔
    sized (takes_port inst.operands) bytes.length = some n := by
  unfold port takes_port
  split <;> simp_all [yields_ite]

theorem yields_invlpg_iff : (encode_invlpg_inst inst).Yields n ↔
    size_invlpg inst.operands = some n := by
  unfold encode_invlpg_inst size_invlpg
  split <;> simp_all +arith [encode_invlpg]

theorem yields_invpcid_iff : (encode_invpcid_inst inst).Yields n ↔
    size_invpcid inst.operands = some n := by
  unfold encode_invpcid_inst size_invpcid
  split <;> simp_all +contextual +arith [invpcid_reg_mem_base_disp, len, asReg_id, and_assoc]

theorem yields_descriptor_iff (digit : UInt8) : (descriptor_shapes digit inst).Yields n ↔
    size_descriptor inst.operands = some n := by
  unfold descriptor_shapes size_descriptor descriptor_sym
  split <;> simp_all +arith [encode_descriptor_table_load]

theorem yields_lgdt_iff : (encode_lgdt_inst inst).Yields n ↔
    size_descriptor inst.operands = some n := by
  unfold encode_lgdt_inst
  split
  · simp_all [descriptor_sym, size_descriptor]
  · exact yields_descriptor_iff 2

theorem length_maybe_rex (w r b : Bool) : (maybe_rex w r b).length = (w || r || b).toNat := by
  unfold maybe_rex
  split_ifs with h <;> simp [h]

variable (mnemonic : Mnemonic)

theorem yields_sse_iff (pre : Option UInt8) (opcode : UInt8) :
    (encode_sse_xmm_xmm inst mnemonic pre opcode).Yields n ↔
      size_xmm_xmm pre.toList.length inst.operands = some n := by
  unfold encode_sse_xmm_xmm size_xmm_xmm
  split
  · simp_all +arith [encode_xmm_xmm, length_maybe_rex, and_assoc]
  · simp_all

theorem yields_cvtsi2s_iff (pre : UInt8) : (encode_cvtsi2s_inst inst mnemonic pre).Yields n ↔
      sized (takes_xmm_reg inst.operands) 5 = some n := by
  unfold encode_cvtsi2s_inst takes_xmm_reg
  split <;> simp_all [encode_cvtsi2s, and_assoc]

theorem yields_cvtts2si_iff (pre : UInt8) : (encode_cvtts2si_inst inst mnemonic pre).Yields n ↔
      sized (takes_reg_xmm inst.operands) 5 = some n := by
  unfold encode_cvtts2si_inst takes_reg_xmm
  split <;> simp_all [encode_cvtts2si, and_assoc]

theorem yields_bitcast_iff (rex_w : Bool) (mnemonic : Mnemonic) (to_xmm : Bool) :
    (bitcast rex_w mnemonic to_xmm inst).Yields n ↔
      size_bitcast rex_w to_xmm inst.operands = some n := by
  unfold bitcast size_bitcast
  split
  · cases to_xmm <;>
    simp_all +arith [encode_movd_movq_bitcast, length_maybe_rex, and_assoc]
  · simp_all

/-! ## Vectors -/

theorem length_vex_lead (r b : Bool) (vvvv pp : UInt8) :
    (vex_lead r b vvvv pp).length = vexLen (r || b) := by
  unfold vex_lead vexLen
  cases r <;> cases b <;> rfl

@[simp] theorem yields_ymm_id_bind {α : Type} (r : RegId) (msg : String) (f : UInt8 → Emit α) :
    (ymm_id r.num msg >>= f).Yields n ↔ ymm r = true ∧ (f (r.num - 37)).Yields n := by
  unfold ymm_id ymm_id_from_regid ymm
  by_cases h : 37 ≤ r.num ∧ r.num ≤ 52
  · rw [if_pos h]
    simp [h, pure_bind']
  · rw [if_neg h]
    refine iff_of_false (fun h => nomatch h.1) fun hx => h ?_
    simpa using hx.1

theorem yields_vex_regs_iff (opcode : UInt8) (name : String) (dst src1 src2 : RegId) :
    (vex_reg_reg_reg opcode name dst.num src1.num src2.num).Yields n ↔
      size_vex_regs [.Reg dst, .Reg src1, .Reg src2] = some n := by
  unfold vex_reg_reg_reg
  simp +arith [size_vex_regs, length_vex_lead, and_assoc]

theorem yields_vex_shape_iff (opcode : UInt8) (name : String) (e : EncodeError) :
    (match inst.operands with
      | [.Reg dst, .Reg src1, .Reg src2] =>
        vex_reg_reg_reg opcode name dst.num src1.num src2.num
      | _ => .fail e).Yields n ↔ size_vex_regs inst.operands = some n := by
  split
  · rename_i heq
    rw [heq]
    exact yields_vex_regs_iff _ _ _ _ _
  · unfold size_vex_regs
    split <;> simp_all

theorem yields_vpmovmskb_iff : (encode_vpmovmskb inst).Yields n ↔
    size_vpmovmskb inst.operands = some n := by
  unfold encode_vpmovmskb
  split <;> unfold size_vpmovmskb
  · rename_i dst src heq
    rw [heq]
    unfold encode_vpmovmskb_reg32_ymm general
    by_cases hd : dst.num < 16
    · simp +arith [hd, length_vex_lead]
    · refine iff_of_false ?_ (by simp [hd])
      simp only [hd, decide_false, Bool.not_false, if_true]
      exact fun h => nomatch h.1
  · simp_all

theorem yields_vmovdqu_iff (is_store : Bool) : (encode_vmovdqu inst is_store).Yields n ↔
    size_vmovdqu is_store inst.operands = some n := by
  unfold encode_vmovdqu
  split
  case h_8 =>
    unfold size_vmovdqu
    split <;> simp_all
  all_goals simp_all +arith [size_vmovdqu, encode_vmovdqu_ymm_ymm, encode_vmovdqu_ymm_mem,
    vmovdqu_mem, encode_vmovdqu_mem_ymm, encode_vmovdqu_ymm_riprel, encode_vmovdqu_riprel_ymm,
    vmovdqu_sym, vmovdqu_riprel, length_vex_lead, yields_bind_pure, and_assoc]

/-! ## Every mnemonic -/

/-- The length of an instruction without operands. -/
def bare_size : Mnemonic → Nat
  | .Ret | .Cli | .Cld | .Sti | .Std | .Hlt | .Nop | .Iret | .Pushfq | .Popfq | .Int3 => 1
  | .RepMovsb | .RepStosb | .Cpuid | .Ud2 | .Wrmsr | .Rdmsr | .Iretq | .Syscall | .Rdtsc | .Pause
  | .Wbinvd | .Invd => 2
  | .Endbr64 | .Endbr32 => 4
  | _ => 3

/-- The number of bytes of an instruction that the encoder accepts. -/
def size (inst : Instruction) : Option Nat :=
  let ops := inst.operands
  let src_width := (inst.encoding_hint.map (·.operand_size)).getD
  match inst.mnemonic with
  | .Mov => size_mov inst.mode ops
  | .MovSized width => size_mov_sized inst.mode width ops
  | .MovCr write => size_mov_cr write ops
  | .MovDr write => sized (takes_mov_dr write ops) 3
  | .Movnti width => size_movnti width ops
  | .Movzx => size_movzx (src_width 1) ops
  | .Movsx => size_movsx (src_width 4) ops
  | .Lea => size_lea inst.mode ops
  | .Add | .Sub => size_sum ops
  | .Adc width => if wide32 width then size_carry (widthRex width) ops else none
  | .Sbb width => if wide32 width then size_reg_mem (widthRex width) 1 ops else none
  | .Popcnt width => if wide32 width then size_reg_mem (widthRex width) 3 ops else none
  | .Crc32 width => if width == .W64 then size_reg_mem .wide 4 ops else none
  | .Bsf width | .Bsr width => if width == .W64 then size_reg_mem .wide 2 ops else none
  | .Tzcnt width => if width == .W64 then size_reg_mem .wide 3 ops else none
  | .Bt width | .Bts width | .Btr width | .Btc width =>
    if wide32 width then size_bit (widthRex width) ops else none
  | .And | .Xor => size_logic ops
  | .Or => if inst.mode = .Mode32 then size_or_mode32 ops else size_logic ops
  | .Imul => size_imul ops
  | .Cmp => size_cmp ops
  | .CmpSized width => size_cmp_sized width ops
  | .Test => size_test ops
  | .Shl | .Shr | .Sar => size_shift ops
  | .Rol width =>
    match width with
    | .W64 => size_rotation .wide ops
    | .W32 => size_rotation .need ops
    | .W16 => size_rol_w16 ops
    | .W8 => none
  | .Ror width => if wide32 width then size_rotation (widthRex width) ops else none
  | .Not | .Div | .Idiv | .Mul | .Inc | .Dec => size_reg .wide 2 ops
  | .Bswap => size_reg .wide 2 ops
  | .Bswap32 => size_reg .need 2 ops
  | .Ltr => size_reg .need 3 ops
  | .Push => if inst.mode = .Mode64 then size_push ops else none
  | .Pop => if inst.mode = .Mode64 then size_reg .need 1 ops else none
  | .Xchg => size_mem_reg .wide 1 ops
  | .LockCmpxchg => size_mem_reg .wide 3 ops
  | .LockCmpxchg32 => size_mem_reg .need 3 ops
  | .LockCmpxchg16b => size_mem .wide 3 ops
  | .Fxsave | .Fxrstor | .Xsaveopt | .Xrstor | .Clflush | .Prefetchnta | .Prefetcht0
  | .Prefetcht1 | .Prefetcht2 => size_mem .need 2 ops
  | .Clflushopt => size_mem .need 3 ops
  | .Invlpg => size_invlpg ops
  | .LockXadd width => if wide32 width then size_mem_reg (widthRex width) 3 ops else none
  | .LockAdd width => if wide32 width then size_lock_add (widthRex width) ops else none
  | .LockSub width => if wide32 width then size_lock (widthRex width) ops else none
  | .LockInc width => if wide32 width then size_lock_inc (widthRex width) ops else none
  | .LockBts width | .LockBtr width | .LockBtc width =>
    if width == .W64 then size_lock_bit ops else none
  | .LockAnd width | .LockOr width | .LockXor width =>
    if width == .W64 then size_mem_reg .wide 2 ops else none
  | .Jcc _ => size_jcc ops
  | .Setcc _ => size_setcc ops
  | .Jmp => size_jmp ops
  | .Call => size_call ops
  | .FarJmp => size_far_jmp ops
  | .Int => size_int ops
  | .In width | .Out width => size_port width ops
  | .Lgdt | .Lidt => size_descriptor ops
  | .Invpcid => size_invpcid ops
  | .Vpxor | .Vpcmpeqb => size_vex_regs ops
  | .Vpmovmskb => size_vpmovmskb ops
  | .Vmovdqu is_store => size_vmovdqu is_store ops
  | .Ucomiss | .Comiss => size_xmm_xmm 0 ops
  | .MovSd | .MovSs | .AddSd | .AddSs | .SubSd | .SubSs | .MulSd | .MulSs | .DivSd | .DivSs
  | .Sqrtsd | .Sqrtss | .Ucomisd | .Comisd => size_xmm_xmm 1 ops
  | .Cvtsi2sd | .Cvtsi2ss => sized (takes_xmm_reg ops) 5
  | .Cvttsd2si | .Cvttss2si => sized (takes_reg_xmm ops) 5
  | .MovdBitcast to_xmm => size_bitcast false to_xmm ops
  | .MovqBitcast to_xmm => size_bitcast true to_xmm ops
  | m => sized ops.isEmpty (bare_size m)

/-- The answer of one encoder under the dispatcher. -/
theorem plain_size (h : x.Yields n ↔ o = some n) : (plain x).Yields n ↔ o = some n :=
  (yields_plain x n).trans h

theorem widthed_size {b : Bool} (h : x.Yields n ↔ b = true ∧ o = some n) :
    (plain x).Yields n ↔ (if b then o else none) = some n := by
  refine plain_size (h.trans ?_)
  cases b <;> simp

/-- A mnemonic of 64-bit mode only. -/
theorem gated_size (h : x.Yields n ↔ inst.mode = .Mode64 ∧ o = some n) :
    (plain x).Yields n ↔ (if inst.mode = .Mode64 then o else none) = some n := by
  refine plain_size (h.trans ?_)
  split_ifs <;> simp_all

theorem length_need_mem (pre op : List UInt8) (digit : UInt8) (hd : digit < 8) (b : Reg64)
    (disp : Int32) : (op_base pre .need op digit b.id disp []).length =
      pre.length + op.length + need.len (high b.id) + memLen b.id disp := by
  simp +arith [high_digit hd]

theorem yields_in_iff (w : UInt8) : (encode_in inst w).Yields n ↔
    size_port w inst.operands = some n := by
  refine yields_port_iff.trans ?_
  unfold encode_in_dx size_port
  split <;> simp_all

theorem yields_out_iff (w : UInt8) : (encode_out inst w).Yields n ↔
    size_port w inst.operands = some n := by
  refine yields_port_iff.trans ?_
  unfold encode_out_dx size_port
  split <;> simp_all

end

/-- An accepted instruction has exactly the bytes of the table, and one that
the table refuses does not encode. -/
theorem yields_impl_iff (inst : Instruction) (n : Nat) :
    (encode_instruction_impl inst).Yields n ↔ size inst = some n := by
  unfold encode_instruction_impl size
  cases hm : inst.mnemonic with
  | Mov => exact yields_mov_iff hm
  | MovSized width => exact yields_mov_sized_iff
  | MovCr write => exact plain_size (yields_mov_cr_iff write)
  | MovDr write => exact plain_size (yields_mov_dr_iff write)
  | Movnti width => exact plain_size yields_movnti_iff
  | Movzx => exact plain_size yields_movzx_iff
  | Movsx => exact plain_size yields_movsx_iff
  | Lea => exact yields_lea_iff
  | Add => exact plain_size yields_add_iff
  | Sub => exact plain_size yields_sub_iff
  | Adc width => exact widthed_size yields_adc_iff
  | Sbb width | Popcnt width =>
    apply widthed_size (yields_shape_widths ?_ ?_ ?_ ?_) <;>
    simp +arith [sbb_reg64_reg64, sbb_reg64_mem_base_disp, sbb_reg32_reg32,
      sbb_reg32_mem_base_disp, popcnt_reg64_reg64, popcnt_reg64_mem_base_disp,
      popcnt_reg32_reg32, popcnt_reg32_mem_base_disp, len]
  | Crc32 width | Bsf width | Bsr width | Tzcnt width =>
    apply widthed_size (yields_scan_iff ?_ ?_) <;>
    simp [crc32_reg64_reg64, crc32_reg64_mem_base_disp, bsf_reg64_reg64,
      bsf_reg64_mem_base_disp, bsr_reg64_reg64, bsr_reg64_mem_base_disp, tzcnt_reg64_reg64,
      tzcnt_reg64_mem_base_disp, len]
  | Bt width | Bts width | Btr width | Btc width =>
    apply widthed_size (yields_bit_test_widths ?_ ?_ ?_ ?_) <;>
    simp [bt_reg64_reg64, bt_mem_base_disp_reg64, bt_reg32_reg32, bt_mem_base_disp_reg32,
      bts_reg64_reg64, bts_mem_base_disp_reg64, bts_reg32_reg32, bts_mem_base_disp_reg32,
      btr_reg64_reg64, btr_mem_base_disp_reg64, btr_reg32_reg32, btr_mem_base_disp_reg32,
      btc_reg64_reg64, btc_mem_base_disp_reg64, btc_reg32_reg32, btc_mem_base_disp_reg32,
      len, Bool.or_comm]
  | And => exact plain_size yields_and_iff
  | Or => exact plain_size yields_or_iff
  | Xor => exact plain_size yields_xor_iff
  | Imul => exact plain_size yields_imul_iff
  | Cmp => exact plain_size yields_cmp_iff
  | CmpSized width => exact plain_size yields_cmp_sized_iff
  | Test => exact plain_size yields_test_iff
  | Shl => exact plain_size (yields_shift_iff 4 _ _)
  | Shr => exact plain_size (yields_shift_iff 5 _ _)
  | Sar => exact plain_size (yields_shift_iff 7 _ _)
  | Rol width => exact plain_size yields_rol_iff
  | Ror width => exact widthed_size yields_ror_iff
  | Not | Div | Idiv | Mul | Inc | Dec | Bswap =>
    refine plain_size (yields_one_reg_iff ?_)
    simp [not_reg64, div_reg64, idiv_reg64, mul_reg64, inc_reg64, dec_reg64, bswap_reg64, len]
  | Bswap32 =>
    exact plain_size (yields_one_reg_iff (by simp [bswap_reg32, len, Nat.add_comm]))
  | Ltr => exact plain_size (yields_one_reg_iff (by simp +arith [ltr_reg16, len]))
  | Push => exact gated_size yields_push_inst_iff
  | Pop => exact gated_size yields_pop_iff
  | Xchg | LockCmpxchg | LockCmpxchg32 =>
    refine plain_size (yields_mem_reg_iff ?_)
    simp +arith [xchg_mem_base_disp_reg64, lock_cmpxchg_mem_base_disp_reg64,
      lock_cmpxchg_mem_base_disp_reg32, len, Bool.or_comm]
  | LockCmpxchg16b =>
    refine plain_size (yields_one_mem_iff ?_)
    simp +arith [lock_cmpxchg16b_mem_base_disp, len]
  | Fxsave | Fxrstor | Xsaveopt | Xrstor | Clflush | Prefetchnta | Prefetcht0 | Prefetcht1
  | Prefetcht2 =>
    exact plain_size (yields_one_mem_iff (length_need_mem [] _ _ (by decide)))
  | Clflushopt => exact plain_size (yields_one_mem_iff (length_need_mem [0x66] _ _ (by decide)))
  | Invlpg => exact plain_size yields_invlpg_iff
  | LockXadd width => exact widthed_size yields_lock_xadd_iff
  | LockAdd width => exact widthed_size yields_lock_add_iff
  | LockSub width => exact widthed_size yields_lock_sub_iff
  | LockInc width => exact widthed_size yields_lock_inc_iff
  | LockBts width | LockBtr width | LockBtc width =>
    apply widthed_size (yields_lock_bit_iff ?_ ?_) <;>
    simp +arith [lock_bts_mem_base_disp_reg64, lock_bts_mem_base_disp_imm8,
      lock_btr_mem_base_disp_reg64, lock_btr_mem_base_disp_imm8, lock_btc_mem_base_disp_reg64,
      lock_btc_mem_base_disp_imm8, len]
  | LockAnd width | LockOr width | LockXor width =>
    refine widthed_size (yields_lock_logic_iff ?_)
    simp +arith [lock_and_mem_base_disp_reg64, lock_or_mem_base_disp_reg64,
      lock_xor_mem_base_disp_reg64, len]
  | Jcc cond => exact yields_jcc_iff cond
  | Setcc cond => exact plain_size (yields_setcc_iff cond)
  | Jmp => exact yields_jmp_iff
  | Call => exact yields_call_iff
  | FarJmp => exact yields_far_jmp_iff
  | Int => exact plain_size yields_int_iff
  | In width => exact plain_size (yields_in_iff width)
  | Out width => exact plain_size (yields_out_iff width)
  | Lgdt => exact yields_lgdt_iff
  | Lidt => exact yields_descriptor_iff 3
  | Invpcid => exact plain_size yields_invpcid_iff
  | Vpxor | Vpcmpeqb => exact plain_size (yields_vex_shape_iff _ _ _)
  | Vpmovmskb => exact plain_size yields_vpmovmskb_iff
  | Vmovdqu is_store => exact yields_vmovdqu_iff is_store
  | MovSd | MovSs | AddSd | AddSs | SubSd | SubSs | MulSd | MulSs | DivSd | DivSs | Sqrtsd | Sqrtss
  | Ucomisd | Ucomiss | Comisd | Comiss => exact plain_size (yields_sse_iff _ _ _)
  | Cvtsi2sd | Cvtsi2ss => exact plain_size (yields_cvtsi2s_iff _ _)
  | Cvttsd2si | Cvttss2si => exact plain_size (yields_cvtts2si_iff _ _)
  | MovdBitcast to_xmm => exact plain_size (yields_bitcast_iff false _ to_xmm)
  | MovqBitcast to_xmm => exact plain_size (yields_bitcast_iff true _ to_xmm)
  | Pushfq | Popfq | Int3 => exact plain_size (yields_bare_opcode_iff _)
  | _ => exact plain_size (yields_no_operands_iff _)

end paideia_as_encoder
