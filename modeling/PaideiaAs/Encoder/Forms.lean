-- The byte-level encoders against the instruction forms: every family writes
-- the bytes of a form, so the decoder reads it back.
import PaideiaAs.Encoder.EncodeInstruction
import PaideiaAs.X86.Form

namespace paideia_as_encoder

open paideia_as_runtime X86
open Form (front)
open Nat (mod_lt)
open UInt8 (ofNat reduceToNat toNat_ofNat')
open Emit (bind_ok_iff pure_ok_iff push_ok_iff)

/-! ## Bit fields -/

/-- The register that an encoder writes for an id: the three low bits, and one
REX bit for everything from 8 on. -/
def num (id : UInt8) : Nat := id.toNat % 8 + 8 * (high id).toNat

variable (id : UInt8)

theorem high_eq : high id = decide (8 ≤ id.toNat) := by
  unfold high
  rw [Bool.eq_iff_iff, bne_iff_ne, ne_eq, ← UInt8.toNat_inj, decide_eq_true_iff]
  simp only [UInt8.toNat_shiftRight, reduceToNat, Nat.shiftRight_eq_div_pow,
    Nat.reduceMod, Nat.reducePow]
  omega

theorem num_of_lt {id : UInt8} (h : id.toNat < 16) : num id = id.toNat := by
  unfold num
  rw [high_eq]
  by_cases h8 : 8 ≤ id.toNat
  · simp only [h8, decide_true, Bool.toNat_true]; omega
  · simp only [h8, decide_false, Bool.toNat_false]; omega

@[simp] theorem num_id (r : Reg64) : num r.id = r.id.toNat := num_of_lt r.id_lt

theorem num_lt : num id < 16 := by
  unfold num
  cases high id <;> simp <;> omega

theorem num_mod : num id % 8 = id.toNat % 8 := by
  unfold num
  omega

theorem high_num : high id = decide (8 ≤ num id) := by
  unfold num
  cases h : high id
  · simp only [Bool.toNat_false, false_eq_decide_iff]; omega
  · simp only [Bool.toNat_true, true_eq_decide_iff]; omega

theorem and_seven : id &&& 7 = ofNat (num id % 8) := by
  rw [num_mod, ← UInt8.toNat_inj]
  simp only [UInt8.toNat_and, reduceToNat, toNat_ofNat']
  rw [show (7 : Nat) = 2 ^ 3 - 1 from rfl, Nat.and_two_pow_sub_one_eq_mod]
  omega

theorem and_seven_twice : id &&& 7 &&& 7 = id &&& 7 := by
  rw [UInt8.and_assoc]
  rfl

theorem pack : ∀ a < 4, ∀ b < 8, ∀ c < 8,
    ofNat (64 * a) ||| (ofNat b <<< 3) ||| ofNat c = fields a b c := by
  decide

theorem pack_sib : ∀ a < 4, ∀ b < 8, ∀ c < 8,
    (ofNat a &&& 3) <<< 6 ||| (ofNat b <<< 3) ||| ofNat c = fields a b c := by
  decide

theorem pack_rm : ∀ b < 8, ∀ c < 8, ofNat c ||| (ofNat b <<< 3) = fields 0 b c := by
  decide

theorem rex_eq (w r x b : Bool) : rex w r x b = Rex.byte ⟨w, r, x, b⟩ := by
  cases w <;> cases r <;> cases x <;> cases b <;> rfl

/-- The exponent that a scale is written with. -/
def scaleExp : Scale → Nat
  | .X1 => 0
  | .X2 => 1
  | .X4 => 2
  | .X8 => 3

theorem scaleExp_lt (s : Scale) : scaleExp s < 4 := by cases s <;> decide

theorem sib_scale_bits_eq (s : Scale) : sib_scale_bits s = ofNat (scaleExp s) := by
  cases s <;> rfl

theorem disp_lo (d : Int32) : -2147483648 ≤ d.toInt := d.le_toInt
theorem disp_hi (d : Int32) : d.toInt < 2147483648 := d.toInt_lt

theorem base_ok (b : UInt8) (d : Int32) : (Slot.base (num b) d.toInt).Ok :=
  ⟨num_lt b, disp_lo d, disp_hi d⟩

theorem sib_ok (b i : UInt8) (s : Scale) (d : Int32) :
    (Slot.sib (num b) (num i) (scaleExp s) d.toInt).Ok :=
  ⟨num_lt b, num_lt i, scaleExp_lt s, disp_lo d, disp_hi d⟩

theorem noBase_ok (i : Reg64) (s : Scale) (d : Int32) :
    (Slot.noBase i.id.toNat (scaleExp s) d.toInt).Ok :=
  ⟨i.id_lt, scaleExp_lt s, disp_lo d, disp_hi d⟩

/-! ## Families as forms -/

/-- REX.W is set. -/
def RexUse.w : RexUse → Bool
  | .wide => true
  | _ => false

/-- The prefix is written even when it is empty. -/
def RexUse.force : RexUse → Bool
  | .always => true
  | _ => false

/-- A family member as a form. -/
def form (pre : List UInt8) (u : RexUse) (map : OpMap) (op : UInt8) (arg : Arg)
    (imm : List UInt8) : Form :=
  ⟨pre, u.w, u.force, map, op, arg, imm⟩

theorem RexUse.bytes_eq (u : RexUse) (r x b : Bool) : u.bytes r x b =
      ((if u.w || u.force || r || x || b then some (⟨u.w, r, x, b⟩ : Rex) else none).toList.map
        Rex.byte) := by
  cases u <;> cases r <;> cases x <;> cases b <;> rfl

theorem disp_mode_eq (d : Int32) : disp_mode (id &&& 7) d =
      (ofNat (64 * dispMod (num id) d.toInt), dispLen (dispMod (num id) d.toInt)) := by
  have h5 : id &&& 7 = 5 ↔ num id % 8 = 5 := by
    rw [and_seven, ← UInt8.toNat_inj, toNat_ofNat']
    simp only [reduceToNat]
    omega
  unfold disp_mode dispMod
  simp only [ne_eq, h5]
  split_ifs <;> rfl

theorem emit_mem_base_disp_eq (reg base : UInt8) (d : Int32) :
    emit_mem_base_disp (reg &&& 7) base d = (Slot.base (num base) d.toInt).lead (num reg % 8) ++
        (Slot.base (num base) d.toInt).dispBytes := by
  have h4 : base &&& 7 = 4 ↔ num base % 8 = 4 := by
    rw [and_seven, ← UInt8.toNat_inj, toNat_ofNat']
    simp only [reduceToNat]
    omega
  have hmd : dispMod (num base) d.toInt < 4 := Nat.lt_trans (dispMod_lt _ _) (by decide)
  have hr : num reg % 8 < 8 := mod_lt _ (by decide)
  have hb : num base % 8 < 8 := mod_lt _ (by decide)
  simp only [emit_mem_base_disp, disp_mode_eq, and_seven_twice, Slot.lead, Slot.dispBytes, h4]
  rw [and_seven reg, and_seven base]
  split_ifs with h
  · rw [h, show (0b100 : UInt8) = ofNat 4 from rfl, pack _ hmd _ hr 4 (by decide)]
    rfl
  · rw [pack _ hmd _ hr _ hb]

theorem emit_mem_sib_disp_eq (reg base index : UInt8) (s : Scale) (d : Int32) :
    emit_mem_sib_disp (reg &&& 7) base index (sib_scale_bits s) d =
      (Slot.sib (num base) (num index) (scaleExp s) d.toInt).lead (num reg % 8) ++
        (Slot.sib (num base) (num index) (scaleExp s) d.toInt).dispBytes := by
  have hmd : dispMod (num base) d.toInt < 4 := Nat.lt_trans (dispMod_lt _ _) (by decide)
  have hr : num reg % 8 < 8 := mod_lt _ (by decide)
  have hb : num base % 8 < 8 := mod_lt _ (by decide)
  have hi : num index % 8 < 8 := mod_lt _ (by decide)
  simp only [emit_mem_sib_disp, disp_mode_eq, and_seven_twice, Slot.lead, Slot.dispBytes]
  rw [and_seven reg, and_seven base, and_seven index, sib_scale_bits_eq,
    show (0b100 : UInt8) = ofNat 4 from rfl, pack _ hmd _ hr 4 (by decide),
    pack_sib _ (scaleExp_lt s) _ hi _ hb]

variable (pre : List UInt8)

section

variable (u : RexUse)

include u

variable (map : OpMap)

theorem op_reg_form (op reg rm : UInt8) (imm : List UInt8) :
    op_reg pre u (opBytes map op) reg rm imm =
      (form pre u map op (.rm (num reg) (.reg (num rm))) imm).bytes := by
  have hr : num reg % 8 < 8 := mod_lt _ (by decide)
  have hm : num rm % 8 < 8 := mod_lt _ (by decide)
  simp only [op_reg, Form.bytes, front, form, Form.rex, Form.bits, Form.opByte, Arg.opByte,
    Arg.r, Arg.x, Arg.b, Arg.lead, Arg.dispBytes, Slot.x, Slot.b, Slot.lead, Slot.dispBytes,
    RexUse.bytes_eq, ← high_num]
  rw [and_seven reg, and_seven rm, show (0xC0 : UInt8) = ofNat (64 * 3) from rfl,
    pack 3 (by decide) _ hr _ hm]
  simp

theorem op_base_form (op reg base : UInt8) (d : Int32) (imm : List UInt8) :
    op_base pre u (opBytes map op) reg base d imm =
      (form pre u map op (.rm (num reg) (.base (num base) d.toInt)) imm).bytes := by
  simp only [op_base, Form.bytes, front, form, Form.rex, Form.bits, Form.opByte, Arg.opByte,
    Arg.r, Arg.x, Arg.b, Arg.lead, Arg.dispBytes, Slot.x, Slot.b, RexUse.bytes_eq, ← high_num,
    emit_mem_base_disp_eq, List.append_assoc]

theorem op_sib_form (op reg base index : UInt8) (s : Scale) (d : Int32) (imm : List UInt8) :
    op_sib pre u (opBytes map op) reg base index (sib_scale_bits s) d imm =
      (form pre u map op (.rm (num reg) (.sib (num base) (num index) (scaleExp s) d.toInt))
        imm).bytes := by
  simp only [op_sib, Form.bytes, front, form, Form.rex, Form.bits, Form.opByte, Arg.opByte,
    Arg.r, Arg.x, Arg.b, Arg.lead, Arg.dispBytes, Slot.x, Slot.b, RexUse.bytes_eq, ← high_num,
    emit_mem_sib_disp_eq, List.append_assoc]

theorem op_rip_form (op reg : UInt8) (d : Int32) (imm : List UInt8) :
    op_rip pre u (opBytes map op) reg d imm =
      (form pre u map op (.rm (num reg) (.disp32 d.toInt)) imm).bytes := by
  have hr : num reg % 8 < 8 := mod_lt _ (by decide)
  simp only [op_rip, Form.bytes, front, form, Form.rex, Form.bits, Form.opByte, Arg.opByte,
    Arg.r, Arg.x, Arg.b, Arg.lead, Arg.dispBytes, Slot.x, Slot.b, Slot.lead, Slot.dispBytes,
    RexUse.bytes_eq, ← high_num, i32_le]
  rw [and_seven reg, show (0x05 : UInt8) = ofNat 5 from rfl, pack_rm _ hr 5 (by decide)]

theorem op_abs_form (op reg : UInt8) (d : Int32) (imm : List UInt8) :
    op_abs pre u (opBytes map op) reg d imm =
      (form pre u map op (.rm (num reg) (.noBase 4 0 d.toInt)) imm).bytes := by
  have hr : num reg % 8 < 8 := mod_lt _ (by decide)
  have h25 : (0x25 : UInt8) = fields 0 4 5 := rfl
  simp only [op_abs, Form.bytes, front, form, Form.rex, Form.bits, Form.opByte, Arg.opByte,
    Arg.r, Arg.x, Arg.b, Arg.lead, Arg.dispBytes, Slot.x, Slot.b, Slot.lead, Slot.dispBytes,
    RexUse.bytes_eq, ← high_num, i32_le, h25]
  rw [and_seven reg, show (0x04 : UInt8) = ofNat 4 from rfl, pack_rm _ hr 4 (by decide)]
  rfl

theorem op_plus_form (op reg : UInt8) (imm : List UInt8) :
    op_plus pre u op reg imm = (form pre u .one op (.plus (num reg)) imm).bytes := by
  simp only [op_plus, Form.bytes, front, form, Form.rex, Form.bits, Form.opByte, Arg.opByte,
    Arg.r, Arg.x, Arg.b, Arg.lead, Arg.dispBytes, RexUse.bytes_eq, ← high_num, and_seven, opBytes,
    List.append_nil]

end

theorem jmp_no_base_form (i : Reg64) (s : Scale) (d : Int32) :
    (if high i.id then [(0x42 : UInt8)] else []) ++ [(0xFF : UInt8), 0x24,
      ((sib_scale_bits s &&& 3) <<< 6) ||| ((i.id &&& 7) <<< 3) ||| (0b101 : UInt8)] ++ i32_le d =
      (form [] .need .one 0xFF (.rm 4 (.noBase i.id.toNat (scaleExp s) d.toInt)) []).bytes := by
  have hi : num i.id % 8 < 8 := mod_lt _ (by decide)
  rw [and_seven, sib_scale_bits_eq, show (0b101 : UInt8) = ofNat 5 from rfl,
    pack_sib _ (scaleExp_lt s) _ hi 5 (by decide), ← num_id]
  simp only [Form.bytes, front, form, Form.rex, Form.bits, Form.opByte, Arg.opByte, Arg.r,
    Arg.x, Arg.b, Arg.lead, Arg.dispBytes, Slot.x, Slot.b, Slot.lead, Slot.dispBytes, i32_le,
    ← high_num]
  cases high i.id <;> rfl

variable {bs : List UInt8} {out : EncodeOutput}

/-- `jmp [index*scale + disp32]`: index 4 is refused, and the answer is where
the displacement starts. -/
theorem jmp_mem_sib_no_base_indexed_ok {i : Reg64} {s : Scale} {d : Int32} {k : Nat}
    (h : jmp_mem_sib_no_base_indexed i (sib_scale_bits s) d = ⟨bs, .ok k⟩) :
    i.id.toNat ≠ 4 ∧
      bs = (form [] .need .one 0xFF (.rm 4 (.noBase i.id.toNat (scaleExp s) d.toInt)) []).bytes ∧
      k = (form [] .need .one 0xFF
        (.rm 4 (.noBase i.id.toNat (scaleExp s) d.toInt)) []).front.length := by
  unfold jmp_mem_sib_no_base_indexed at h
  split at h
  · simp at h
  case isFalse h4 =>
    simp only [bind_ok_iff, push_ok_iff, pure_ok_iff] at h
    obtain ⟨_, _, _, rfl, ⟨rfl, rfl⟩, rfl⟩ := h
    refine ⟨fun hn => h4 (UInt8.toNat_inj.mp hn), ?_, ?_⟩
    · rw [List.append_nil, jmp_no_base_form]
    · rw [← num_id]
      simp only [front, form, Form.rex, Form.bits, Form.opByte, Arg.opByte, Arg.r, Arg.x,
        Arg.b, Arg.lead, Slot.x, Slot.b, Slot.lead, ← high_num]
      cases high i.id <;> rfl

/-! ## The segment pre-pass -/

@[simp] theorem plain_ok_iff {x : Emit Unit} :
    plain x = ⟨bs, .ok out⟩ ↔ x = ⟨bs, .ok ()⟩ ∧ out = .new := by
  unfold plain
  simp only [bind_ok_iff, pure_ok_iff]
  constructor
  · rintro ⟨bs₁, _, _, hx, ⟨rfl, rfl⟩, rfl⟩
    exact ⟨by simpa using hx, rfl⟩
  · rintro ⟨hx, rfl⟩
    exact ⟨bs, (), [], hx, ⟨rfl, rfl⟩, by simp⟩

@[simp] theorem sited_ok_iff {cs : List UInt8} {site : EncodeOutput} :
    sited cs site = ⟨bs, .ok out⟩ ↔ bs = cs ∧ out = site := by
  unfold sited
  simp only [bind_ok_iff, push_ok_iff, pure_ok_iff]
  constructor
  · rintro ⟨_, _, _, rfl, ⟨rfl, rfl⟩, rfl⟩
    exact ⟨by simp, rfl⟩
  · rintro ⟨rfl, rfl⟩
    exact ⟨bs, (), [], rfl, ⟨rfl, rfl⟩, by simp⟩

/-- The operands that the inner encoder is given. -/
def unwrapped (operands : List Operand) : List Operand :=
  match find_mem_seg operands with
  | some (idx, _, inner) => operands.set idx inner
  | none => operands

theorem SegPrefix.segLead (seg : SegPrefix) : SegLead [seg.byte] := by
  cases seg <;> simp [SegLead, SegPrefix.byte]

theorem EncodeOutput.shift_zero (out : EncodeOutput) : out.shift 0 = out := by
  simp [EncodeOutput.shift]

/-- A segment prefix stands in front of what the inner encoder writes, and
moves its sites. -/
theorem encode_instruction_ok {inst : Instruction} (h : encode_instruction inst = ⟨bs, .ok out⟩) :
    ∃ lead bs' out', SegLead lead ∧
      encode_instruction_impl { inst with operands := unwrapped inst.operands } = ⟨bs', .ok out'⟩ ∧
      bs = lead ++ bs' ∧ out = out'.shift lead.length := by
  unfold encode_instruction at h
  split at h
  case h_1 idx seg inner hseg =>
    simp only [bind_ok_iff, push_ok_iff, pure_ok_iff] at h
    obtain ⟨_, _, _, rfl, ⟨bs', out', _, himpl, ⟨rfl, rfl⟩, rfl⟩, rfl⟩ := h
    refine ⟨[seg.byte], bs', out', SegPrefix.segLead seg, ?_, by simp, rfl⟩
    simpa [unwrapped, hseg] using himpl
  case h_2 hseg =>
    refine ⟨[], bs, out, by simp [SegLead], ?_, rfl, out.shift_zero.symm⟩
    simpa [unwrapped, hseg] using h

end paideia_as_encoder
