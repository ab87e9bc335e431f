-- Operands that are narrowed to a field: branch displacements, shift counts,
-- the parts of a far pointer, and immediates stored to an absolute address.
import PaideiaAs.Encoder.Immediates

namespace paideia_as_encoder

open paideia_as_runtime X86
open Emit (push_ok_iff)
open Bytes (ofLe sle)

/-! ## Fields and what the processor reads in them -/

/-- A field that is extended with its sign, one that is extended with zeros,
or one whose bits are used as they are. -/
inductive Reading where
  | signed
  | unsigned
  | raw
  deriving DecidableEq

/-- The bytes, so read, are `v`. -/
def Reading.Is (reading : Reading) (bs : List UInt8) (v : Int) : Prop :=
  match reading with
  | .signed => Bytes.signed bs = v
  | .unsigned => (ofLe bs : Int) = v
  | .raw => Bytes.signed bs = v ∨ (ofLe bs : Int) = v

/-- The values that a field of `n` bytes can hold. -/
def Reading.Range (reading : Reading) (n : Nat) (v : Int) : Prop :=
  match reading with
  | .signed => -(128 * 256 ^ (n - 1) : Nat) ≤ v ∧ v < (128 * 256 ^ (n - 1) : Nat)
  | .unsigned => 0 ≤ v ∧ v < (256 ^ n : Nat)
  | .raw => -(128 * 256 ^ (n - 1) : Nat) ≤ v ∧ v < (256 ^ n : Nat)

variable {n : Nat} {lead bs : List UInt8} {inst : Instruction} {out : EncodeOutput}

theorem Reading.is_sle_iff (hn : 0 < n) (reading : Reading) (v : Int) :
    reading.Is (sle n v) v ↔ reading.Range n v := by
  have hpos : (0 : Int) < (256 ^ n : Nat) := by positivity
  have hunsigned : (ofLe (sle n v) : Int) = v ↔ 0 ≤ v ∧ v < (256 ^ n : Nat) := by
    rw [Bytes.ofLe_sle]
    constructor
    · intro h
      exact ⟨h ▸ Int.emod_nonneg v (ne_of_gt hpos), h ▸ Int.emod_lt_of_pos v hpos⟩
    · rintro ⟨h0, h1⟩
      exact Int.emod_eq_of_lt h0 h1
  cases reading with
  | signed => exact Bytes.signed_sle_eq_iff hn
  | unsigned => exact hunsigned
  | raw =>
    simp only [Reading.Is, Reading.Range, Bytes.signed_sle_eq_iff hn, hunsigned]
    obtain ⟨k, rfl⟩ : ∃ k, n = k + 1 := ⟨n - 1, by omega⟩
    simp only [Nat.add_sub_cancel, pow_succ]
    generalize 256 ^ k = x at *
    omega

/-- An operand value, the field it is written to, and the mode in which the
instruction exists. -/
structure Field where
  mode : Mode
  size : Nat
  reading : Reading
  pick : Insn → List UInt8
  value : Int64

/-- The processor reads the value back. -/
def Field.Kept (f : Field) (bs : List UInt8) : Prop :=
  ∃ i, disassemble f.mode bs = some [i] ∧ f.reading.Is (f.pick i) f.value.toInt

/-- The field can hold the value. -/
def Field.InRange (f : Field) : Prop := f.reading.Range f.size f.value.toInt

/-- The direct far jump exists in 32-bit mode only. -/
def operandFields (mnemonic : Mnemonic) (operands : List Operand) : List Field :=
  match mnemonic, operands with
  | .Jmp, [.Imm64 rel] => [⟨.long, 4, .signed, (·.imm), rel⟩]
  | .Jcc _, [.Imm64 rel] => [⟨.long, 4, .signed, (·.imm), rel⟩]
  | .Call, [.Imm64 rel] => [⟨.long, 4, .signed, (·.imm), rel⟩]
  | .Shl, [.Reg _, .Imm64 count] => [⟨.long, 1, .unsigned, (·.imm), count⟩]
  | .Shr, [.Reg _, .Imm64 count] => [⟨.long, 1, .unsigned, (·.imm), count⟩]
  | .Sar, [.Reg _, .Imm64 count] => [⟨.long, 1, .unsigned, (·.imm), count⟩]
  | .FarJmp, [.Imm64 selector, .Imm64 offset] =>
    [⟨.prot, 2, .unsigned, (·.imm.drop 4), selector⟩, ⟨.prot, 4, .unsigned, (·.imm.take 4), offset⟩]
  | .FarJmp, [.Imm64 selector, .SymbolRef _ _] =>
    [⟨.prot, 2, .unsigned, (·.imm.drop 4), selector⟩]
  | .Mov, [.MemDisp _, .Imm64 imm] => [⟨.long, 4, .signed, (·.imm), imm⟩]
  | .Mov, [.SymbolRef _ _, .Imm64 imm] => [⟨.prot, 4, .raw, (·.imm), imm⟩]
  | .MovSized .W64, [.MemDisp _, .Imm64 imm] => [⟨.long, 4, .signed, (·.imm), imm⟩]
  | .MovSized .W32, [.MemDisp _, .Imm64 imm] => [⟨.long, 4, .raw, (·.imm), imm⟩]
  | .MovSized .W16, [.MemDisp _, .Imm64 imm] => [⟨.long, 2, .raw, (·.imm), imm⟩]
  | .MovSized .W8, [.MemDisp _, .Imm64 imm] => [⟨.long, 1, .raw, (·.imm), imm⟩]
  | _, _ => []

theorem Field.kept_iff {field : Field} {lead : List UInt8} {f : Form} (hl : SegLead lead)
    (hf : f.Fits field.mode) :
    field.Kept (lead ++ f.bytes) ↔
      field.reading.Is (field.pick ((f.under lead).insn field.mode)) field.value.toInt := by
  have hdis := disassemble_form (hf.under hl)
  rw [Form.under_bytes] at hdis
  unfold Field.Kept
  rw [hdis]
  constructor
  · rintro ⟨i, hi, his⟩
    rw [Option.some.injEq, List.singleton_inj] at hi
    rwa [hi]
  · intro h
    exact ⟨_, rfl, h⟩

/-- The immediate of the form is the operand, cut to the field. -/
theorem Field.kept_iff_of_imm {mode : Mode} {reading : Reading} {v : Int64}
    {f : Form} (hl : SegLead lead) (hf : f.Fits mode) (hn : 0 < n) (himm : f.imm = low n v) :
    Field.Kept ⟨mode, n, reading, (·.imm), v⟩ (lead ++ f.bytes) ↔
      Field.InRange ⟨mode, n, reading, (·.imm), v⟩ := by
  rw [@Field.kept_iff ⟨mode, n, reading, (·.imm), v⟩ lead f hl hf]
  simp only [Form.insn, Form.under, himm]
  exact Reading.is_sle_iff hn reading v.toInt

/-! ## Encoder by encoder -/

theorem rel32_fits (op : UInt8) (v : Int64) (h : tableOk .long [] false .one op false 0 4 = true) :
    (bareForm false op (low 4 v)).Fits .long :=
  fits_bareForm (by rwa [length_low])

/-- The two-byte conditional jump with a four-byte displacement. -/
def jccForm (cond : Cond) (rel : Int64) : Form := ⟨[], false, false, .two, cond.code, .none, low 4 rel⟩

theorem jccForm_fits (cond : Cond) (rel : Int64) : (jccForm cond rel).Fits .long where
  table := by
    show tableOk .long [] false .two cond.code false 0 (low 4 rel).length = true
    rw [length_low]
    cases cond <;> decide
  arg := trivial
  rex := fun h => by cases h

theorem jcc_kept_iff {cond : paideia_as_runtime.Cond} {rel : Int64} (hl : SegLead lead)
    (hops : inst.operands = [.Imm64 rel])
    (h : encode_jcc cond inst = ⟨bs, .ok out⟩) :
    Field.Kept ⟨.long, 4, .signed, (·.imm), rel⟩ (lead ++ bs) ↔
      Field.InRange ⟨.long, 4, .signed, (·.imm), rel⟩ := by
  simp only [encode_jcc, hops, plain_ok_iff] at h
  obtain ⟨h, _⟩ := h
  split at h
  case isTrue h8 =>
    -- the short form is picked only for a displacement that it holds
    have hfits : fits_i8 rel = true := h8
    have hrel8 : (bareForm false (0x70 + ((cond_from cond).code - 0x80)) (low 1 rel)).Fits .long :=
      fits_bareForm (by rw [length_low]; cases cond_from cond <;> decide)
    rw [push_ok_iff.mp h]
    refine iff_of_true ?_ ?_
    · exact (@Field.kept_iff ⟨.long, 4, .signed, (·.imm), rel⟩ lead _ hl hrel8).mpr
        (signed_low_one hfits)
    · simp only [fits_i8, Bool.and_eq_true, decide_eq_true_eq] at hfits
      simp only [Field.InRange, Reading.Range]
      omega
  case isFalse =>
    rw [push_ok_iff.mp h]
    exact Field.kept_iff_of_imm hl (jccForm_fits (cond_from cond) rel) (by decide) rfl

theorem shift_kept_iff {digit : UInt8} {cl_msg form_msg : String}
    {dst : RegId} {count : Int64} (hl : SegLead lead)
    (hops : inst.operands = [.Reg dst, .Imm64 count])
    (h : encode_shift digit cl_msg form_msg inst = ⟨bs, .ok ()⟩) :
    Field.Kept ⟨.long, 1, .unsigned, (·.imm), count⟩ (lead ++ bs) ↔
      Field.InRange ⟨.long, 1, .unsigned, (·.imm), count⟩ := by
  simp only [encode_shift, hops] at h
  simp at h
  obtain ⟨r, _, rfl⟩ := h
  rw [show [0xC1] = opBytes .one 0xC1 from rfl, op_reg_form]
  have htable : TableReg 0xC1 1 := by decide
  have hf := @fits_reg 0xC1 (num digit) (num r.id) (low 1 count)
    (by rw [length_low]; exact htable.at _) (num_lt _) (num_lt _)
  exact Field.kept_iff_of_imm hl hf (by decide) rfl

theorem abs_kept_iff {pre : List UInt8} {u : RexUse} {op : UInt8} {reading : Reading} (d : Int32)
    (v : Int64) (hl : SegLead lead)
    (htable : tableOk .long pre u.w .one op true 0 n = true) (hn : 0 < n) :
    Field.Kept ⟨.long, n, reading, (·.imm), v⟩
        (lead ++ op_abs pre u (opBytes .one op) 0 d (low n v)) ↔
      Field.InRange ⟨.long, n, reading, (·.imm), v⟩ := by
  rw [op_abs_form]
  have hf : (form pre u .one op (.rm (num 0) (.noBase 4 0 d.toInt)) (low n v)).Fits .long :=
    fits_rm (by rw [length_low]; exact htable) (num_lt _)
      ⟨by decide, by decide, disp_lo d, disp_hi d⟩
  exact Field.kept_iff_of_imm hl hf hn rfl

/-- `EA`: four bytes of offset and two of selector. -/
theorem far_fits (offset selector : List UInt8) (ho : offset.length = 4)
    (hs : selector.length = 2) : (bareForm false 0xEA (offset ++ selector)).Fits .prot where
  table := by
    show tableOk .prot [] false .one 0xEA false 0 (offset ++ selector).length = true
    rw [List.length_append, ho, hs]
    decide
  arg := trivial
  rex := fun _ => rfl

theorem far_selector_kept_iff {offset : List UInt8} (selector : Int64) (hl : SegLead lead)
    (ho : offset.length = 4) :
    Field.Kept ⟨.prot, 2, .unsigned, (·.imm.drop 4), selector⟩
        (lead ++ 0xEA :: (offset ++ low 2 selector)) ↔
      Field.InRange ⟨.prot, 2, .unsigned, (·.imm.drop 4), selector⟩ := by
  have hf := far_fits offset (low 2 selector) ho (length_low _ _)
  refine (@Field.kept_iff ⟨.prot, 2, .unsigned, (·.imm.drop 4), selector⟩ lead _ hl hf).trans ?_
  simp only [Form.insn, Form.under, bareForm]
  rw [← ho, List.drop_left]
  exact Reading.is_sle_iff (by decide) .unsigned selector.toInt

theorem far_offset_kept_iff {selector : List UInt8} (offset : Int64) (hl : SegLead lead)
    (hs : selector.length = 2) :
    Field.Kept ⟨.prot, 4, .unsigned, (·.imm.take 4), offset⟩
        (lead ++ 0xEA :: (low 4 offset ++ selector)) ↔
      Field.InRange ⟨.prot, 4, .unsigned, (·.imm.take 4), offset⟩ := by
  have hf := far_fits (low 4 offset) selector (length_low _ _) hs
  refine (@Field.kept_iff ⟨.prot, 4, .unsigned, (·.imm.take 4), offset⟩ lead _ hl hf).trans ?_
  have htake : (low 4 offset ++ selector).take 4 = low 4 offset := by
    rw [List.take_left' (length_low 4 offset)]
  simp only [Form.insn, Form.under, bareForm, htake]
  exact Reading.is_sle_iff (by decide) .unsigned offset.toInt

/-- `mov [abs32], imm` of 32-bit mode. -/
theorem mov_abs32_imm32_form (imm : Int64) :
    (mov_mem_abs32_imm32 imm).1 = (form [] .need .one 0xC7 (.rm 0 (.disp32 0)) (low 4 imm)).bytes :=
  rfl

theorem mov_sym_kept_iff {name : String} {addend : Int32} {imm : Int64} (hl : SegLead lead)
    (hops : inst.operands = [.SymbolRef name addend, .Imm64 imm])
    (h : encode_mov inst = ⟨bs, .ok out⟩) :
    Field.Kept ⟨.prot, 4, .raw, (·.imm), imm⟩ (lead ++ bs) ↔
      Field.InRange ⟨.prot, 4, .raw, (·.imm), imm⟩ := by
  rcases encode_mov_ok h with ⟨⟨d, s, heq⟩, _⟩ | hg
  · simp [hops] at heq
  · simp only [encode_mov_generic, hops, encode_mov_mode32] at hg
    split at hg
    · simp only [Option.getD_some] at hg
      split at hg
      · simp at hg
      · have hf : (form [] .need .one 0xC7 (.rm 0 (.disp32 0)) (low 4 imm)).Fits .prot :=
          ⟨by show tableOk .prot [] false .one 0xC7 true 0 (low 4 imm).length = true
              rw [length_low]; decide,
            ⟨by decide, ⟨by decide, by decide⟩⟩, fun _ => rfl⟩
        rw [(sited_ok_iff.mp hg).1, mov_abs32_imm32_form]
        exact Field.kept_iff_of_imm hl hf (by decide) rfl
    · simp at hg

theorem mov_disp_kept_iff {d : Int32} {imm : Int64} (hl : SegLead lead) (hmn : inst.mnemonic = .Mov)
    (hops : inst.operands = [.MemDisp d, .Imm64 imm]) (h : encode_mov inst = ⟨bs, .ok out⟩) :
    Field.Kept ⟨.long, 4, .signed, (·.imm), imm⟩ (lead ++ bs) ↔
      Field.InRange ⟨.long, 4, .signed, (·.imm), imm⟩ := by
  have hbytes : bs = mov_mem_abs_disp32_imm .W64 d imm := by
    rcases encode_mov_ok h with ⟨⟨d, s, heq⟩, _⟩ | hg
    · simp [hops] at heq
    · simp only [encode_mov_generic, hops, encode_mov_mode32, encode_mov_shapes, hmn] at hg
      split at hg <;> exact push_ok_iff.mp (plain_ok_iff.mp hg).1
  rw [hbytes]
  exact abs_kept_iff d imm hl (by decide) (by decide)

/-! ## The whole encoder -/

theorem operands_kept_impl (hl : SegLead lead) (h : encode_instruction_impl inst = ⟨bs, .ok out⟩) :
    (∀ f ∈ operandFields inst.mnemonic inst.operands, f.Kept (lead ++ bs)) ↔
      ∀ f ∈ operandFields inst.mnemonic inst.operands, f.InRange := by
  unfold operandFields
  split <;> rename_i hmn hops
  all_goals
    simp only [encode_instruction_impl, hmn] at h
    simp only [List.forall_mem_cons, List.not_mem_nil, false_implies, implies_true, and_true]
  case h_1 =>
    simp only [encode_jmp, hops, plain_ok_iff, push_ok_iff] at h
    rw [h.1]
    exact Field.kept_iff_of_imm hl (rel32_fits 0xE9 _ (by decide)) (by decide) rfl
  case h_2 => exact jcc_kept_iff hl hops h
  case h_3 =>
    simp only [encode_call, hops, plain_ok_iff, push_ok_iff] at h
    rw [h.1]
    exact Field.kept_iff_of_imm hl (rel32_fits 0xE8 _ (by decide)) (by decide) rfl
  case h_4 | h_5 | h_6 => exact shift_kept_iff hl hops (plain_ok_iff.mp h).1
  case h_7 =>
    simp only [encode_far_jmp_inst, hops, plain_ok_iff, push_ok_iff] at h
    rw [h.1]
    exact and_congr (far_selector_kept_iff _ hl (length_low _ _))
      (far_offset_kept_iff _ hl (length_low _ _))
  case h_8 =>
    simp only [encode_far_jmp_inst, hops, sited_ok_iff] at h
    rw [h.1]
    exact far_selector_kept_iff _ hl rfl
  case h_9 => exact mov_disp_kept_iff hl hmn hops h
  case h_10 => exact mov_sym_kept_iff hl hops h
  case h_11 | h_12 | h_13 | h_14 =>
    simp only [encode_mov_sized, hops, plain_ok_iff] at h
    have hbs := h.1
    split at hbs
    · simp at hbs
    · rw [push_ok_iff.mp hbs]
      exact abs_kept_iff _ _ hl (by decide) (by decide)

/-- The processor reads every operand value of an accepted instruction as it
was given exactly if the value is in the range of its field. -/
theorem operand_values_kept_iff {inst : Instruction} {bs : List UInt8} {out : EncodeOutput}
    (h : encode_instruction inst = ⟨bs, .ok out⟩) :
    (∀ f ∈ operandFields inst.mnemonic (unwrapped inst.operands), f.Kept bs) ↔
      ∀ f ∈ operandFields inst.mnemonic (unwrapped inst.operands), f.InRange := by
  obtain ⟨lead, bs', out', hl, himpl, rfl, rfl⟩ := encode_instruction_ok h
  exact operands_kept_impl hl himpl

/-- A jump of `-2^31` bytes, the farthest one back. -/
theorem jmp_farthest_back_kept :
    Field.Kept ⟨.long, 4, .signed, (·.imm), -2147483648⟩ [0xE9, 0, 0, 0, 0x80] :=
  (@operand_values_kept_iff ⟨.Jmp, [.Imm64 (-2147483648)], none, .Mode64⟩ _ .new rfl).mpr
    (by
      intro f hf
      rw [List.mem_singleton.mp hf]
      exact ⟨by decide, by decide⟩)
    _ (.head _)

/-- `jmp 2^32` is accepted and jumps nowhere. -/
theorem jmp_past_rel32_is_cut :
    encode_instruction ⟨.Jmp, [.Imm64 0x100000000], none, .Mode64⟩ =
      ⟨[0xE9, 0, 0, 0, 0], .ok .new⟩ ∧
    ¬ Field.Kept ⟨.long, 4, .signed, (·.imm), 0x100000000⟩ [0xE9, 0, 0, 0, 0] := by
  refine ⟨rfl, ?_⟩
  rintro ⟨i, hi, his⟩
  have hread : disassemble .long [0xE9, 0, 0, 0, 0] =
      some [⟨[], none, none, .one, 0xE9, none, 1, [], [0, 0, 0, 0]⟩] := by decide
  rw [hread, Option.some.injEq, List.singleton_inj] at hi
  subst hi
  have hzero : Bytes.signed [0, 0, 0, 0] = (0x100000000 : Int64).toInt := his
  exact absurd hzero (by decide)

end paideia_as_encoder
