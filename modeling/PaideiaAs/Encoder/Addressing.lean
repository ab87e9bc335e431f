-- What the processor makes of a memory operand that the encoder has written:
-- the address and the register operand of the decoded instruction.
import PaideiaAs.Encoder.Forms
import PaideiaAs.X86.Act

namespace paideia_as_encoder

open paideia_as_runtime X86
open Emit (pure_ok_iff push_ok_iff)
open Form (insn)

/-! ## The operands as the processor names them -/

/-- The address that an operand asks for. -/
def Operand.mem : Operand → Option Mem
  | .MemSib base index scale disp =>
    some ⟨some base.num.toNat, index.map fun i => (i.num.toNat, scaleExp scale), disp.toInt⟩
  | .MemDispIndexed disp index scale =>
    some ⟨none, some (index.num.toNat, scaleExp scale), disp.toInt⟩
  | _ => none

/-- The number of a register. -/
def Operand.reg? : Operand → Option Nat
  | .Reg r => some r.num.toNat
  | _ => none

/-- The address that the instruction asks for. -/
def address (operands : List Operand) : Option Mem := operands.findSome? Operand.mem

/-- The registers that stand as operands. -/
def registers (operands : List Operand) : List Nat := operands.filterMap Operand.reg?

/-- The address is computed from the register. -/
def usesReg (m : Mem) (r : Nat) : Bool := m.base == some r || m.index.any (·.1 == r)

/-- The bytes decode, and their last instruction has the address `m` and names
the registers. What stands before it loads `r11`, which is then no part of the
address. -/
def ReadsAs (m : Mem) (regs : List Nat) (bs : List UInt8) : Prop :=
  ∃ is i, disassemble .long bs = some (is ++ [i]) ∧
    (∀ j ∈ is, (∃ v, j.act = some (.mov 11 (.imm v))) ∧ usesReg m 11 = false) ∧
    i.modrm.map (·.place) = some (.mem m) ∧ ∀ r ∈ regs, i.names r = true

theorem readsAs_forms {stage : List Form} {f : Form} (hs : ∀ g ∈ stage, g.Fits .long)
    (hf : f.Fits .long) {m : Mem} {regs : List Nat}
    (hact : ∀ g ∈ stage, (∃ v, (g.insn .long).act = some (.mov 11 (.imm v))) ∧
      usesReg m 11 = false) :
    ReadsAs m regs (stage.flatMap Form.bytes ++ f.bytes) ↔
      (f.insn .long).modrm.map (·.place) = some (.mem m) ∧
        ∀ r ∈ regs, (f.insn .long).names r = true := by
  have hfits : ∀ g ∈ stage ++ [f], g.Fits .long := by
    intro g hg
    rcases List.mem_append.mp hg with h | h
    · exact hs g h
    · rw [List.mem_singleton.mp h]; exact hf
  have hdis := disassemble_forms hfits
  simp only [List.flatMap_append, List.flatMap_cons, List.flatMap_nil, List.append_nil,
    List.map_append, List.map_cons, List.map_nil] at hdis
  unfold ReadsAs
  rw [hdis]
  constructor
  · rintro ⟨is, i, heq, _, hi⟩
    simp only [Option.some.injEq] at heq
    have hlast := (List.append_inj' heq rfl).2
    rw [List.singleton_inj.mp hlast]
    exact hi
  · intro h
    refine ⟨_, _, rfl, ?_, h⟩
    intro j hj
    obtain ⟨g, hg, rfl⟩ := List.mem_map.mp hj
    exact hact g hg

/-- A register operand is named as it is, apart from the byte registers 4–7,
which need a REX prefix. -/
def NamesReg (u : RexUse) (map : OpMap) (op : UInt8) (reg : Nat) (t : Slot) (r : Nat) : Prop :=
  reg = r ∧ (byteReg map op = true → 4 ≤ r → r < 8 → (u.w || u.force || t.x || t.b) = true)

theorem names_form (lead pre : List UInt8) (u : RexUse) (map : OpMap) (op : UInt8) (reg : Nat)
    (t : Slot) (imm : List UInt8) (r : Nat) :
    (((form pre u map op (.rm reg t) imm).under lead).insn .long).names r = true ↔
      NamesReg u map op reg t r := by
  unfold NamesReg
  by_cases hr : reg = r
  · subst hr
    by_cases h8 : 8 ≤ reg
    · simp [Insn.names, insn, Form.under, form, Arg.modrm, Nat.not_lt.mpr h8]
    · simp only [Insn.names, insn, Form.under, form, Arg.modrm, Form.rex, Form.opByte,
        Arg.opByte, Arg.r, Arg.x, Arg.b, h8, decide_false, Bool.or_false]
      cases byteReg map op <;> cases (u.w || u.force || t.x || t.b) <;> simp
      omega
  · simp [Insn.names, insn, Form.under, form, Arg.modrm, hr]

variable {pre imm lead : List UInt8} {u : RexUse} {map : OpMap} {op : UInt8} {reg : Nat} {t : Slot}

theorem fits_rm (htable : tableOk .long pre u.w map op true (reg % 8) imm.length = true)
    (hreg : reg < 16)
    (ht : t.Ok) : (form pre u map op (.rm reg t) imm).Fits .long :=
  ⟨htable, ⟨hreg, ht⟩, fun h => by cases h⟩

theorem readsAs_rm (hl : SegLead lead)
    (htable : tableOk .long pre u.w map op true (reg % 8) imm.length = true) (hreg : reg < 16)
    (ht : t.Ok) {m : Mem} {regs : List Nat} :
    ReadsAs m regs (lead ++ (form pre u map op (.rm reg t) imm).bytes) ↔
      t.place .long = .mem m ∧ ∀ r ∈ regs, NamesReg u map op reg t r := by
  have h := @readsAs_forms [] _ (by simp) ((fits_rm htable hreg ht).under hl) m regs (by simp)
  simp only [List.flatMap_nil, List.nil_append, Form.under_bytes] at h
  rw [h]
  apply and_congr
  · simp [insn, Form.under, form, Arg.modrm]
  · exact forall₂_congr fun r _ => names_form lead pre u map op reg t imm r

/-- `movabs` of a general register. -/
theorem fits_mov_reg64_imm64 (r : Reg64) (v : Int64) :
    (form [] .wide .one 0xB8 (.plus r.id.toNat) (low 8 v)).Fits .long where
  table := by
    show tableOk .long [] true .one (0xB8 + UInt8.ofNat (r.id.toNat % 8)) false 0
      (low 8 v).length = true
    rw [length_low]
    cases r <;> decide
  arg := r.id_lt
  rex := fun h => by cases h

theorem act_mov_reg64_imm64 (lead : List UInt8) (r : Reg64) (v : Int64) :
    (((form [] .wide .one 0xB8 (.plus r.id.toNat) (low 8 v)).under lead).insn .long).act =
      some (.mov r.id.toNat (.imm (Bytes.signed (low 8 v)))) :=
  X86.act_movabs rfl rfl rfl r.id_lt rfl

theorem mov_reg64_imm64_form (r : Reg64) (v : Int64) :
    mov_reg64_imm64 r v = (form [] .wide .one 0xB8 (.plus r.id.toNat) (low 8 v)).bytes := by
  rw [← num_id]
  exact op_plus_form _ _ _ _ _

/-- `movabs r11, imm` in front of the instruction. -/
theorem readsAs_staged (v : Int64) (hl : SegLead lead)
    (htable : tableOk .long pre u.w map op true (reg % 8) imm.length = true) (hreg : reg < 16)
    (ht : t.Ok) {m : Mem} (h11 : usesReg m 11 = false) {regs : List Nat} :
    ReadsAs m regs (lead ++ (mov_reg64_imm64 .R11 v ++ (form pre u map op (.rm reg t) imm).bytes)) ↔
      t.place .long = .mem m ∧ ∀ r ∈ regs, NamesReg u map op reg t r := by
  have h := @readsAs_forms [(form [] .wide .one 0xB8 (.plus Reg64.R11.id.toNat) (low 8 v)).under lead]
    _ (by simpa using (fits_mov_reg64_imm64 .R11 v).under hl) (fits_rm htable hreg ht) m regs
    (by
      intro g hg
      rw [List.mem_singleton.mp hg]
      exact ⟨⟨_, act_mov_reg64_imm64 lead .R11 v⟩, h11⟩)
  simp only [List.flatMap_cons, List.flatMap_nil, List.append_nil, Form.under_bytes,
    List.append_assoc, ← mov_reg64_imm64_form] at h
  rw [h]
  apply and_congr
  · simp [insn, form, Arg.modrm]
  · exact forall₂_congr fun r _ => names_form [] pre u map op reg t imm r

/-! ## The memory families -/

/-- What the opcode table says of a memory form, whatever its registers. -/
def TableRm (pre : List UInt8) (u : RexUse) (map : OpMap) (op : UInt8) (n : Nat) : Prop :=
  ∀ k < 8, tableOk .long pre u.w map op true k n = true

instance (pre : List UInt8) (u : RexUse) (map : OpMap) (op : UInt8) (n : Nat) :
    Decidable (TableRm pre u map op n) := by
  unfold TableRm; infer_instance

section

variable {lead pre : List UInt8} {u : RexUse} {map : OpMap} {op : UInt8} {n : Nat}
  {imm : List UInt8} {m : Mem} {regs : List Nat}

theorem readsAs_op_base (hl : SegLead lead) (htable : TableRm pre u map op n)
    (himm : imm.length = n) (reg base : UInt8) (d : Int32) :
    ReadsAs m regs (lead ++ op_base pre u (opBytes map op) reg base d imm) ↔
      m = ⟨some (num base), none, d.toInt⟩ ∧
        ∀ r ∈ regs, NamesReg u map op (num reg) (.base (num base) d.toInt) r := by
  rw [op_base_form, readsAs_rm hl (himm ▸ htable _ (Nat.mod_lt _ (by decide))) (num_lt reg)
    (base_ok base d)]
  apply and_congr_left'
  simp [Slot.place, eq_comm]

theorem readsAs_op_sib (hl : SegLead lead) (htable : TableRm pre u map op n)
    (himm : imm.length = n) (reg base index : UInt8) (s : Scale) (d : Int32) :
    ReadsAs m regs (lead ++ op_sib pre u (opBytes map op) reg base index (sib_scale_bits s) d imm) ↔
      m = ⟨some (num base), Slot.indexOf (num index) (scaleExp s), d.toInt⟩ ∧
        ∀ r ∈ regs, NamesReg u map op (num reg)
          (.sib (num base) (num index) (scaleExp s) d.toInt) r := by
  rw [op_sib_form, readsAs_rm hl (himm ▸ htable _ (Nat.mod_lt _ (by decide))) (num_lt reg)
    (sib_ok base index s d)]
  apply and_congr_left'
  simp [Slot.place, eq_comm]

end

/-! ## When an operand is read back as it was given -/

/-- `rsp` is no index. -/
def IndexOk : Operand → Prop
  | .MemSib _ (some index) _ _ => index.num ≠ 4
  | _ => True

/-- A byte load into a register below 8 gets a REX prefix only from its
address, and so does the byte `cmp`. The narrow `cmp` also takes ids that are no
general register. -/
def ByteOk : Mnemonic → List Operand → Prop
  | .MovSized .W8, [.Reg dst, .MemSib base index _ _] =>
    4 ≤ dst.num.toNat → dst.num.toNat < 8 →
      8 ≤ base.num.toNat ∨ ∃ i ∈ index, 8 ≤ i.num.toNat
  | .CmpSized w, [.MemSib base _ _ _, .Reg src] =>
    w ≠ .W64 → base.num.toNat < 16 ∧ src.num.toNat < 16 ∧
      (w = .W8 → 4 ≤ src.num.toNat → src.num.toNat < 8 → 8 ≤ base.num.toNat)
  | _, _ => True

/-- Index and byte registers have an encoding. -/
def WellAddressed (mnemonic : Mnemonic) (operands : List Operand) : Prop :=
  (∀ op ∈ operands, IndexOk op) ∧ ByteOk mnemonic operands

/-- The bytes are read back with the operands' address and registers exactly
if the operands are well addressed. -/
def Meets (mnemonic : Mnemonic) (operands : List Operand) (lead bs : List UInt8) : Prop :=
  ∀ m, address operands = some m →
    (ReadsAs m (registers operands) (lead ++ bs) ↔ WellAddressed mnemonic operands)

theorem meets_of_none {mnemonic : Mnemonic} {operands : List Operand} {bs : List UInt8}
    (h : address operands = none) : Meets mnemonic operands lead bs := by
  intro m hm
  rw [h] at hm
  cases hm

section

variable {mnemonic : Mnemonic} {operands : List Operand} {lead pre : List UInt8} {u : RexUse}
  (map : OpMap) {op : UInt8} {n : Nat} {imm : List UInt8} {reg : UInt8} {base index : RegId}
  {b i : Reg64} {s : Scale} {d : Int32}

theorem meets_op_base (hl : SegLead lead) (htable : TableRm pre u map op n)
    (himm : imm.length = n) (hbase : base.num = b.id)
    (haddr : address operands = some ⟨some base.num.toNat, none, d.toInt⟩)
    (hwell : WellAddressed mnemonic operands ↔ ∀ r ∈ registers operands,
      NamesReg u map op (num reg) (.base b.id.toNat d.toInt) r) :
    Meets mnemonic operands lead (op_base pre u (opBytes map op) reg b.id d imm) := by
  intro m hm
  rw [haddr] at hm
  cases hm
  rw [readsAs_op_base hl htable himm, hbase, num_id, hwell]
  exact and_iff_right rfl

theorem meets_op_sib (hl : SegLead lead) (htable : TableRm pre u map op n)
    (himm : imm.length = n) (hbase : base.num = b.id) (hindex : index.num = i.id)
    (haddr : address operands =
      some ⟨some base.num.toNat, some (index.num.toNat, scaleExp s), d.toInt⟩)
    (hwell : WellAddressed mnemonic operands ↔ index.num ≠ 4 ∧ ∀ r ∈ registers operands,
      NamesReg u map op (num reg) (.sib b.id.toNat i.id.toNat (scaleExp s) d.toInt) r) :
    Meets mnemonic operands lead
      (op_sib pre u (opBytes map op) reg b.id i.id (sib_scale_bits s) d imm) := by
  intro m hm
  rw [haddr] at hm
  cases hm
  have h4 : i.id = 4 ↔ i.id.toNat = 4 := by
    rw [← UInt8.toNat_inj]; rfl
  rw [readsAs_op_sib hl htable himm, hwell, hbase, hindex, num_id, num_id, ne_eq, h4]
  apply and_congr_left'
  unfold Slot.indexOf
  split_ifs with h <;> simp [h]

theorem names_wide (hbyte : byteReg map op = false) {regs : List Nat} {t : Slot}
    (hregs : ∀ r ∈ regs, r = num reg) : ∀ r ∈ regs, NamesReg u map op (num reg) t r :=
  fun r hr => ⟨(hregs r hr).symm, fun h => by simp [hbyte] at h⟩

theorem meets_base (hl : SegLead lead) (htable : TableRm pre u map op n)
    (hbyte : byteReg map op = false) (himm : imm.length = n) (hbase : base.num = b.id)
    (haddr : address operands = some ⟨some base.num.toNat, none, d.toInt⟩)
    (hregs : ∀ r ∈ registers operands, r = num reg) (hwell : WellAddressed mnemonic operands) :
    Meets mnemonic operands lead (op_base pre u (opBytes map op) reg b.id d imm) :=
  meets_op_base map hl htable himm hbase haddr (iff_of_true hwell (names_wide map hbyte hregs))

theorem meets_sib (hl : SegLead lead) (htable : TableRm pre u map op n)
    (hbyte : byteReg map op = false) (himm : imm.length = n) (hbase : base.num = b.id)
    (hindex : index.num = i.id)
    (haddr : address operands =
      some ⟨some base.num.toNat, some (index.num.toNat, scaleExp s), d.toInt⟩)
    (hregs : ∀ r ∈ registers operands, r = num reg)
    (hwell : WellAddressed mnemonic operands ↔ index.num ≠ 4) :
    Meets mnemonic operands lead
      (op_sib pre u (opBytes map op) reg b.id i.id (sib_scale_bits s) d imm) :=
  meets_op_sib map hl htable himm hbase hindex haddr
    (hwell.trans (and_iff_left (names_wide map hbyte hregs)).symm)

/-! The operand lists of the encoders: a register and an address in either
order, an address and an immediate, and an address alone. -/

variable {reg' : RegId} {r : Reg64} {v : Int64}

section

variable (hl : SegLead lead)

include hl

section

variable (htable : TableRm pre u map op 0)

include htable

theorem meets_reg_base (hbyte : byteReg map op = false) (hreg : reg'.num = r.id)
    (hbase : base.num = b.id)
    (hok : ByteOk mnemonic [.Reg reg', .MemSib base none s d]) :
    Meets mnemonic [.Reg reg', .MemSib base none s d] lead
      (op_base pre u (opBytes map op) r.id b.id d []) :=
  meets_base map hl htable hbyte rfl hbase rfl (by simp [registers, Operand.reg?, hreg])
    ⟨by simp [IndexOk], hok⟩

theorem meets_base_reg (hbyte : byteReg map op = false) (hbase : base.num = b.id)
    (hreg : reg'.num = r.id)
    (hok : ByteOk mnemonic [.MemSib base none s d, .Reg reg']) :
    Meets mnemonic [.MemSib base none s d, .Reg reg'] lead
      (op_base pre u (opBytes map op) r.id b.id d []) :=
  meets_base map hl htable hbyte rfl hbase rfl (by simp [registers, Operand.reg?, hreg])
    ⟨by simp [IndexOk], hok⟩

omit htable in
theorem meets_base_imm (htable : TableRm pre u map op n)
    (hbyte : byteReg map op = false) (himm : imm.length = n) (hbase : base.num = b.id)
    (hok : ByteOk mnemonic [.MemSib base none s d, .Imm64 v]) :
    Meets mnemonic [.MemSib base none s d, .Imm64 v] lead
      (op_base pre u (opBytes map op) reg b.id d imm) :=
  meets_base map hl htable hbyte himm hbase rfl (by simp [registers, Operand.reg?])
    ⟨by simp [IndexOk], hok⟩

theorem meets_base_alone (hbyte : byteReg map op = false) (hbase : base.num = b.id)
    (hok : ByteOk mnemonic [.MemSib base none s d]) :
    Meets mnemonic [.MemSib base none s d] lead (op_base pre u (opBytes map op) reg b.id d []) :=
  meets_base map hl htable hbyte rfl hbase rfl (by simp [registers, Operand.reg?])
    ⟨by simp [IndexOk], hok⟩

theorem meets_reg_sib (hbyte : byteReg map op = false) (hreg : reg'.num = r.id)
    (hbase : base.num = b.id)
    (hindex : index.num = i.id) (hok : ByteOk mnemonic [.Reg reg', .MemSib base (some index) s d]) :
    Meets mnemonic [.Reg reg', .MemSib base (some index) s d] lead
      (op_sib pre u (opBytes map op) r.id b.id i.id (sib_scale_bits s) d []) :=
  meets_sib map hl htable hbyte rfl hbase hindex rfl (by simp [registers, Operand.reg?, hreg])
    (by simp [WellAddressed, IndexOk, hok])

theorem meets_sib_reg (hbyte : byteReg map op = false) (hbase : base.num = b.id)
    (hindex : index.num = i.id)
    (hreg : reg'.num = r.id) (hok : ByteOk mnemonic [.MemSib base (some index) s d, .Reg reg']) :
    Meets mnemonic [.MemSib base (some index) s d, .Reg reg'] lead
      (op_sib pre u (opBytes map op) r.id b.id i.id (sib_scale_bits s) d []) :=
  meets_sib map hl htable hbyte rfl hbase hindex rfl (by simp [registers, Operand.reg?, hreg])
    (by simp [WellAddressed, IndexOk, hok])

omit htable in
theorem meets_sib_imm (htable : TableRm pre u map op n)
    (hbyte : byteReg map op = false) (himm : imm.length = n) (hbase : base.num = b.id)
    (hindex : index.num = i.id) (hok : ByteOk mnemonic [.MemSib base (some index) s d, .Imm64 v]) :
    Meets mnemonic [.MemSib base (some index) s d, .Imm64 v] lead
      (op_sib pre u (opBytes map op) reg b.id i.id (sib_scale_bits s) d imm) :=
  meets_sib map hl htable hbyte himm hbase hindex rfl (by simp [registers, Operand.reg?])
    (by simp [WellAddressed, IndexOk, hok])

theorem meets_sib_alone (hbyte : byteReg map op = false) (hbase : base.num = b.id)
    (hindex : index.num = i.id)
    (hok : ByteOk mnemonic [.MemSib base (some index) s d]) :
    Meets mnemonic [.MemSib base (some index) s d] lead
      (op_sib pre u (opBytes map op) reg b.id i.id (sib_scale_bits s) d []) :=
  meets_sib map hl htable hbyte rfl hbase hindex rfl (by simp [registers, Operand.reg?])
    (by simp [WellAddressed, IndexOk, hok])

end

end

end

/-! ## Encoder by encoder -/

section

variable {inst : Instruction} {lead bs : List UInt8}

theorem encode_add_meets (hl : SegLead lead) (h : encode_add inst = ⟨bs, .ok ()⟩) :
    Meets .Add inst.operands lead bs := by
  unfold encode_add at h
  split at h <;> rename_i heq <;> first | rw [heq] | simp at h
  · exact meets_of_none rfl
  · simp at h
    obtain ⟨r, hr, b, hb, rfl⟩ := h
    exact meets_reg_base .one hl (by decide) (by decide) hr hb trivial
  · simp at h
    obtain ⟨r, hr, b, i, ⟨hb, hi⟩, rfl⟩ := h
    exact meets_reg_sib .one hl (by decide) (by decide) hr hb hi trivial
  · exact meets_of_none rfl

theorem encode_sub_meets (hl : SegLead lead) (h : encode_sub inst = ⟨bs, .ok ()⟩) :
    Meets .Sub inst.operands lead bs := by
  unfold encode_sub at h
  split at h <;> rename_i heq <;> first | rw [heq] | simp at h
  · exact meets_of_none rfl
  · simp at h
    obtain ⟨r, hr, b, hb, rfl⟩ := h
    exact meets_reg_base .one hl (by decide) (by decide) hr hb trivial
  · simp at h
    obtain ⟨r, hr, b, i, ⟨hb, hi⟩, rfl⟩ := h
    exact meets_reg_sib .one hl (by decide) (by decide) hr hb hi trivial
  · exact meets_of_none rfl

variable {width : IntWidth} {mnemonic : Mnemonic} {base : RegId} {d : Int32} {out : EncodeOutput}

section

variable (hl : SegLead lead)

include hl

theorem encode_adc_meets (h : encode_adc inst width = ⟨bs, .ok ()⟩) :
    Meets (.Adc width) inst.operands lead bs := by
  unfold encode_adc at h
  split at h
  · simp at h
  · simp at h
  all_goals
    split at h <;> rename_i heq <;> first | rw [heq] | simp at h
    · exact meets_of_none rfl
    · simp at h
      obtain ⟨r, hr, b, hb, rfl⟩ := h
      exact meets_reg_base .one hl (by decide) (by decide) hr hb trivial
    · exact meets_of_none rfl

omit hl in
theorem encode_cmp_meets (hm : mnemonic = .Cmp ∨ mnemonic = .CmpSized .W64)
    (hl : SegLead lead) (h : encode_cmp inst = ⟨bs, .ok ()⟩) :
    Meets mnemonic inst.operands lead bs := by
  unfold encode_cmp at h
  split at h <;> rename_i heq <;> first | rw [heq] | simp at h
  · exact meets_of_none rfl
  · simp at h
    obtain ⟨b, hb, r, hr, rfl⟩ := h
    exact meets_base .one hl (by decide) (by decide) rfl hb rfl
      (by simp [registers, Operand.reg?, hr])
      (by rcases hm with rfl | rfl <;> simp [WellAddressed, IndexOk, ByteOk])
  · exact meets_of_none rfl

/-- The narrow `cmp` with a memory operand writes the ids as they come. -/
theorem narrow_cmp_meets {w : IntWidth} {src : RegId} (hw : w ≠ .W64)
    (htable : TableRm pre .need .one op 0) (hbyte : byteReg .one op = decide (w = .W8)) :
    Meets (.CmpSized w) [.MemSib base none .X1 d, .Reg src] lead
      (op_base pre .need (opBytes .one op) src.num base.num d []) := by
  intro m hm
  cases hm
  rw [readsAs_op_base hl htable rfl]
  have hb : base.num.toNat = num base.num ↔ base.num.toNat < 16 :=
    ⟨fun h => h ▸ num_lt _, fun h => (num_of_lt h).symm⟩
  have hs : num src.num = src.num.toNat ↔ src.num.toNat < 16 :=
    ⟨fun h => h ▸ num_lt _, num_of_lt⟩
  simp only [registers, List.filterMap_cons, Operand.reg?, List.filterMap_nil,
    forall_eq, NamesReg, hbyte, decide_eq_true_iff, hs, Option.map_none, Mem.mk.injEq,
    Option.some.injEq, hb, and_true, RexUse.w, RexUse.force, Slot.x, Slot.b, Bool.false_or,
    WellAddressed, IndexOk, ByteOk, ne_eq, hw, not_false_eq_true, forall_const, List.mem_cons,
    List.not_mem_nil, or_false, forall_eq_or_imp, and_self, true_and]
  constructor
  · rintro ⟨h16, hs16, hrex⟩
    rw [num_of_lt h16] at hrex
    exact ⟨h16, hs16, hrex⟩
  · rintro ⟨h16, hs16, hrex⟩
    rw [num_of_lt h16]
    exact ⟨h16, hs16, hrex⟩

theorem encode_cmp_sized_meets (h : encode_cmp_sized inst width = ⟨bs, .ok ()⟩) :
    Meets (.CmpSized width) inst.operands lead bs := by
  unfold encode_cmp_sized at h
  split at h
  case h_1 => exact encode_cmp_meets (.inr rfl) hl h
  case h_8 heq =>
    rw [heq, push_ok_iff.mp h]
    exact narrow_cmp_meets hl (by decide) (by decide) (by decide)
  case h_9 heq =>
    rw [heq, push_ok_iff.mp h]
    exact narrow_cmp_meets hl (by decide) (by decide) (by decide)
  case h_10 heq =>
    rw [heq, push_ok_iff.mp h]
    exact narrow_cmp_meets hl (by decide) (by decide) (by decide)
  case h_11 => simp at h
  all_goals
    rename_i heq
    rw [heq]
    exact meets_of_none rfl

theorem encode_lea_meets (h : encode_lea inst = ⟨bs, .ok out⟩) :
    Meets .Lea inst.operands lead bs := by
  unfold encode_lea at h
  split at h <;> rename_i heq <;> first | rw [heq] | simp at h
  · simp at h
    obtain ⟨⟨r, hr, b, hb, rfl⟩, rfl⟩ := h
    exact meets_reg_base .one hl (by decide) (by decide) hr hb trivial
  · simp at h
    obtain ⟨⟨r, hr, b, i, ⟨hb, hi⟩, rfl⟩, rfl⟩ := h
    exact meets_reg_sib .one hl (by decide) (by decide) hr hb hi trivial
  · exact meets_of_none rfl
  · exact meets_of_none rfl

theorem encode_call_meets (h : encode_call inst = ⟨bs, .ok out⟩) :
    Meets .Call inst.operands lead bs := by
  unfold encode_call at h
  split at h <;> rename_i heq <;> first | rw [heq] | simp at h
  · exact meets_of_none rfl
  · exact meets_of_none rfl
  · exact meets_of_none rfl
  · simp at h
    obtain ⟨⟨b, hb, rfl⟩, rfl⟩ := h
    exact meets_base_alone .one hl (by decide) (by decide) hb trivial
  · simp at h
    obtain ⟨⟨b, hb, i, hi, rfl⟩, rfl⟩ := h
    exact meets_sib_alone .one hl (by decide) (by decide) hb hi trivial
  · exact meets_of_none rfl
  · exact meets_of_none rfl

theorem encode_movnti_meets (h : encode_movnti inst width = ⟨bs, .ok ()⟩) :
    Meets (.Movnti width) inst.operands lead bs := by
  unfold encode_movnti at h
  split at h <;> rename_i heq <;> first | rw [heq] | simp at h
  · simp at h
    obtain ⟨b, hb, r, hr, h⟩ := h
    split at h <;> simp at h <;> subst h <;>
    exact meets_base_reg .two hl (by decide) (by decide) hb hr trivial
  · simp at h
    obtain ⟨b, hb, i, hi, r, hr, h⟩ := h
    split at h <;> simp at h <;> subst h <;>
    exact meets_sib_reg .two hl (by decide) (by decide) hb hi hr trivial

/-! Locked operations: one family each for `[mem], reg`, for `[mem]`, and for
`[mem], reg` or `[mem], imm`. -/

omit hl in
theorem mem_reg_meets {bytes : Reg64 → Int32 → Reg64 → List UInt8}
    (map : OpMap) (hbytes : ∀ b d r, bytes b d r = op_base pre u (opBytes map op) r.id b.id d [])
    (htable : TableRm pre u map op 0) (hbyte : byteReg map op = false)
    (hwell : ∀ b d r, ByteOk mnemonic [.MemSib b none .X1 d, .Reg r]) (hl : SegLead lead)
    (h : mem_reg bytes inst = ⟨bs, .ok ()⟩) : Meets mnemonic inst.operands lead bs := by
  unfold mem_reg at h
  split at h <;> rename_i heq <;> first | rw [heq] | simp at h
  simp at h
  obtain ⟨b, hb, r, hr, rfl⟩ := h
  rw [hbytes]
  exact meets_base_reg map hl htable hbyte hb hr (hwell _ _ _)

theorem encode_lock_cmpxchg16b_meets (h : encode_lock_cmpxchg16b_inst inst = ⟨bs, .ok ()⟩) :
    Meets .LockCmpxchg16b inst.operands lead bs := by
  unfold encode_lock_cmpxchg16b_inst one_mem at h
  split at h <;> rename_i heq <;> first | rw [heq] | simp at h
  simp at h
  obtain ⟨b, hb, rfl⟩ := h
  exact meets_base_alone .two hl (by decide) (by decide) hb trivial

theorem encode_lock_xadd_meets (h : encode_lock_xadd inst width = ⟨bs, .ok ()⟩) :
    Meets (.LockXadd width) inst.operands lead bs := by
  unfold encode_lock_xadd at h
  split at h <;> rename_i heq <;> first | rw [heq] | simp at h
  simp at h
  obtain ⟨b, hb, r, hr, h⟩ := h
  split at h <;> simp at h <;> subst h <;>
  exact meets_base_reg .two hl (by decide) (by decide) hb hr trivial

end

/-- The three byte encoders of a locked operation write one family. -/
structure LockForms.Writes (f : LockForms) (u : RexUse) (op digit : UInt8) : Prop where
  reg : ∀ b d r, f.reg b d r = op_base [0xF0] u (opBytes .one op) r.id b.id d []
  imm8 : ∀ b d v, f.imm8 b d v = op_base [0xF0] u (opBytes .one 0x83) digit b.id d (low 1 v)
  imm32 : ∀ b d v, f.imm32 b d v = op_base [0xF0] u (opBytes .one 0x81) digit b.id d (low 4 v)
  table : TableRm [0xF0] u .one op 0 ∧ TableRm [0xF0] u .one 0x83 1 ∧ TableRm [0xF0] u .one 0x81 4
  wide : byteReg .one op = false

theorem lock_forms_meets {f : LockForms} (op digit : UInt8) (hf : f.Writes u op digit)
    {msg : String}
    {other : Emit Unit} (hl : SegLead lead)
    (hwell : ∀ b d o, ByteOk mnemonic [.MemSib b none .X1 d, o])
    (hother : other = ⟨bs, .ok ()⟩ → Meets mnemonic inst.operands lead bs)
    (h : f.encode msg inst other = ⟨bs, .ok ()⟩) : Meets mnemonic inst.operands lead bs := by
  unfold LockForms.encode at h
  split at h
  · rename_i heq
    rw [heq]
    simp at h
    obtain ⟨b, hb, r, hr, rfl⟩ := h
    rw [hf.reg]
    exact meets_base_reg .one hl hf.table.1 hf.wide hb hr (hwell _ _ _)
  · rename_i heq
    rw [heq]
    simp at h
    obtain ⟨b, hb, h⟩ := h
    split at h
    · rw [push_ok_iff.mp h, hf.imm8]
      exact meets_base_imm .one hl hf.table.2.1 (by decide) (length_low _ _) hb (hwell _ _ _)
    · split at h
      · rw [push_ok_iff.mp h, hf.imm32]
        exact meets_base_imm .one hl hf.table.2.2 (by decide) (length_low _ _) hb (hwell _ _ _)
      · simp at h
  · exact hother h

theorem encode_lock_add_meets (hl : SegLead lead) (h : encode_lock_add inst width = ⟨bs, .ok ()⟩) :
    Meets (.LockAdd width) inst.operands lead bs := by
  have habs : lock_add_abs inst width = ⟨bs, .ok ()⟩ →
      Meets (.LockAdd width) inst.operands lead bs := by
    intro h
    unfold lock_add_abs at h
    split at h <;> rename_i heq <;> first | rw [heq] | simp at h
    exact meets_of_none rfl
  unfold encode_lock_add at h
  split at h
  · exact lock_forms_meets 0x01 0
      ⟨fun _ _ _ => rfl, fun _ _ _ => rfl, fun _ _ _ => rfl, by decide, by decide⟩ hl
      (by simp [ByteOk]) habs h
  · exact lock_forms_meets 0x01 0
      ⟨fun _ _ _ => rfl, fun _ _ _ => rfl, fun _ _ _ => rfl, by decide, by decide⟩ hl
      (by simp [ByteOk]) habs h
  · simp at h

theorem encode_lock_sub_meets (hl : SegLead lead) (h : encode_lock_sub inst width = ⟨bs, .ok ()⟩) :
    Meets (.LockSub width) inst.operands lead bs := by
  unfold encode_lock_sub at h
  split at h
  · exact lock_forms_meets 0x29 5
      ⟨fun _ _ _ => rfl, fun _ _ _ => rfl, fun _ _ _ => rfl, by decide, by decide⟩ hl
      (by simp [ByteOk]) (by simp) h
  · exact lock_forms_meets 0x29 5
      ⟨fun _ _ _ => rfl, fun _ _ _ => rfl, fun _ _ _ => rfl, by decide, by decide⟩ hl
      (by simp [ByteOk]) (by simp) h
  · simp at h

theorem encode_lock_inc_meets (h : encode_lock_inc inst width = ⟨bs, .ok ()⟩) :
    Meets (.LockInc width) inst.operands lead bs := by
  unfold encode_lock_inc at h
  split at h
  · simp at h
  · split at h <;> rename_i heq <;> first | rw [heq] | simp at h
    exact meets_of_none rfl

theorem lock_bit_meets {reg : Reg64 → Int32 → Reg64 → List UInt8}
    {imm8 : Reg64 → Int32 → Int64 → List UInt8} {width_msg imm_msg : String} (op digit : UInt8)
    (hreg : ∀ b d r, reg b d r = op_base [0xF0] .wide (opBytes .two op) r.id b.id d [])
    (himm : ∀ b d v, imm8 b d v = op_base [0xF0] .wide (opBytes .two 0xBA) digit b.id d (low 1 v))
    (htable : TableRm [0xF0] .wide .two op 0) (hbyte : byteReg .two op = false)
    (hwell : ∀ b d o, ByteOk mnemonic [.MemSib b none .X1 d, o]) (hl : SegLead lead)
    (h : lock_bit reg imm8 width_msg imm_msg inst width = ⟨bs, .ok ()⟩) :
    Meets mnemonic inst.operands lead bs := by
  unfold lock_bit at h
  split at h
  · simp at h
  · split at h <;> rename_i heq <;> first | rw [heq] | simp at h
    · simp at h
      obtain ⟨b, hb, r, hr, rfl⟩ := h
      rw [hreg]
      exact meets_base_reg .two hl htable hbyte hb hr (hwell _ _ _)
    · simp at h
      obtain ⟨b, hb, h⟩ := h
      split at h
      · rw [push_ok_iff.mp h, himm]
        exact meets_base_imm .two hl (by decide) (by decide) (length_low _ _) hb (hwell _ _ _)
      · simp at h

theorem lock_logic_meets {bytes : Reg64 → Int32 → Reg64 → List UInt8}
    {width_msg : String} (op : UInt8)
    (hbytes : ∀ b d r, bytes b d r = op_base [0xF0] .wide (opBytes .one op) r.id b.id d [])
    (htable : TableRm [0xF0] .wide .one op 0) (hbyte : byteReg .one op = false)
    (hwell : ∀ b d r, ByteOk mnemonic [.MemSib b none .X1 d, .Reg r]) (hl : SegLead lead)
    (h : lock_logic bytes width_msg inst width = ⟨bs, .ok ()⟩) :
    Meets mnemonic inst.operands lead bs := by
  unfold lock_logic at h
  split at h
  · simp at h
  · exact mem_reg_meets .one hbytes htable hbyte hwell hl h

/-! `jmp` has an address without a base, and refuses index 4 itself. -/

theorem encode_jmp_meets (hl : SegLead lead)
    (h : encode_jmp inst = ⟨bs, .ok out⟩) : Meets .Jmp inst.operands lead bs := by
  unfold encode_jmp at h
  split at h <;> rename_i heq <;> first | rw [heq] | simp at h
  · exact meets_of_none rfl
  · exact meets_of_none rfl
  · exact meets_of_none rfl
  · exact meets_of_none rfl
  · simp only [plain_ok_iff, Emit.bind_ok_iff, reg64_from_ok_iff, pure_ok_iff] at h
    obtain ⟨⟨_, _, _, ⟨rfl, hi⟩, ⟨_, _, _, hj, ⟨rfl, _⟩, rfl⟩, rfl⟩, rfl⟩ := h
    obtain ⟨h4, rfl, _⟩ := jmp_mem_sib_no_base_indexed_ok hj
    intro m hm
    cases hm
    rw [List.nil_append, List.append_nil, readsAs_rm hl (by decide) (by decide) (noBase_ok _ _ _)]
    simp [Slot.place, Slot.indexOf, h4, hi, registers, Operand.reg?, WellAddressed, IndexOk, ByteOk]
  · exact meets_of_none rfl

/-! `mov`: control and debug registers, segment registers and the shapes of
32-bit mode have no address. -/

theorem classify_ok {operands : List Operand} {kind : DispatchKind}
    (h : classify operands = ⟨bs, .ok kind⟩) :
    bs = [] ∧ (kind ≠ .MovGeneric → ∃ d s rest, operands = .Reg d :: .Reg s :: rest) := by
  unfold classify at h
  split at h
  · exact ⟨(pure_ok_iff.mp h).1, fun _ => ⟨_, _, _, rfl⟩⟩
  · simp at h
  · simp at h
  · obtain ⟨rfl, rfl⟩ := pure_ok_iff.mp h
    exact ⟨rfl, fun h => absurd rfl h⟩

/-- Apart from two registers, every operand list of a `mov` is generic. -/
theorem encode_mov_ok (h : encode_mov inst = ⟨bs, .ok out⟩) :
    ((∃ d s, inst.operands = [.Reg d, .Reg s]) ∧ out = .new) ∨
      encode_mov_generic inst = ⟨bs, .ok out⟩ := by
  unfold encode_mov at h
  rw [Emit.bind_ok_iff] at h
  obtain ⟨_, kind, bs', hc, h, rfl⟩ := h
  obtain ⟨rfl, hkind⟩ := classify_ok hc
  cases kind with
  | MovGeneric => exact .inr h
  | MovToCr | MovFromCr | MovToDr | MovFromDr =>
    left
    simp only [plain_ok_iff, encode_mov_cr_dispatcher, encode_mov_dr_dispatcher] at h
    obtain ⟨h, hout⟩ := h
    split at h
    · exact ⟨⟨_, _, ‹_›⟩, hout⟩
    · simp at h

theorem encode_mov_generic_ok (h : encode_mov_generic inst = ⟨bs, .ok out⟩) {m : Mem}
    (hm : address inst.operands = some m) :
    encode_mov_shapes inst = ⟨bs, .ok out⟩ := by
  unfold encode_mov_generic at h
  split at h
  · rename_i heq
    rw [heq] at hm
    cases hm
  · split at h
    · unfold encode_mov_mode32 at h
      split at h <;> first | exact h | (rename_i heq; rw [heq] at hm; cases hm)
    · split at h
      · simp at h
      · exact h

/-- The store that follows `movabs r11`. -/
theorem staged_base_meets {b : Reg64} (v : Int64) (hl : SegLead lead)
    (hb : base.num = b.id) (h11 : b ≠ .R11) :
    Meets .Mov [.MemSib base none .X1 d, .Imm64 v] lead
      (mov_reg64_imm64 .R11 v ++ mov_mem_reg64_disp_reg64 b d .R11) := by
  intro m hm
  cases hm
  have hne : b.id.toNat ≠ 11 := fun h => h11 (Reg64.id_inj (UInt8.toNat_inj.mp h))
  have huse : usesReg ⟨some base.num.toNat, none, d.toInt⟩ 11 = false := by
    simp [usesReg, hb, hne]
  unfold mov_mem_reg64_disp_reg64
  rw [show [0x89] = opBytes .one 0x89 from rfl, op_base_form]
  refine (readsAs_staged v hl (by decide) (num_lt _) (base_ok _ _) huse).trans ?_
  simp [Slot.place, hb, registers, Operand.reg?, WellAddressed, IndexOk, ByteOk]

theorem staged_sib_meets {index : RegId} {b i : Reg64} {s : Scale} (v : Int64)
    (hl : SegLead lead) (hb : base.num = b.id) (hi : index.num = i.id) (h11 : b ≠ .R11)
    (hi11 : i ≠ .R11) :
    Meets .Mov [.MemSib base (some index) s d, .Imm64 v] lead
      (mov_reg64_imm64 .R11 v ++ mov_mem_sib_disp_reg64 b i (sib_scale_bits s) d .R11) := by
  intro m hm
  cases hm
  have hne : b.id.toNat ≠ 11 := fun h => h11 (Reg64.id_inj (UInt8.toNat_inj.mp h))
  have hine : i.id.toNat ≠ 11 := fun h => hi11 (Reg64.id_inj (UInt8.toNat_inj.mp h))
  have h4 : i.id = 4 ↔ i.id.toNat = 4 := by
    rw [← UInt8.toNat_inj]; rfl
  have huse : usesReg ⟨some base.num.toNat, some (index.num.toNat, scaleExp s), d.toInt⟩ 11
      = false := by
    simp [usesReg, hb, hi, hne, hine]
  unfold mov_mem_sib_disp_reg64
  rw [show [0x89] = opBytes .one 0x89 from rfl, op_sib_form]
  refine (readsAs_staged v hl (by decide) (num_lt _) (sib_ok _ _ _ _) huse).trans ?_
  by_cases h : i.id.toNat = 4 <;>
    simp [Slot.place, Slot.indexOf, hb, hi, h4, h, registers, Operand.reg?, WellAddressed, IndexOk,
      ByteOk]

theorem encode_mov_shapes_meets (hl : SegLead lead)
    (h : encode_mov_shapes inst = ⟨bs, .ok out⟩) : Meets .Mov inst.operands lead bs := by
  unfold encode_mov_shapes at h
  dsimp only at h
  split at h <;> rename_i heq <;> try rw [heq]
  · exact meets_of_none rfl
  · exact meets_of_none rfl
  · simp at h
    obtain ⟨⟨r, hr, b, hb, rfl⟩, rfl⟩ := h
    exact meets_reg_base .one hl (by decide) (by decide) hr hb trivial
  · simp at h
    obtain ⟨⟨b, hb, r, hr, rfl⟩, rfl⟩ := h
    exact meets_base_reg .one hl (by decide) (by decide) hb hr trivial
  · simp at h
    obtain ⟨⟨r, hr, b, i, ⟨hb, hi⟩, rfl⟩, rfl⟩ := h
    exact meets_reg_sib .one hl (by decide) (by decide) hr hb hi trivial
  · simp at h
    obtain ⟨⟨b, hb, i, r, ⟨hi, hr⟩, rfl⟩, rfl⟩ := h
    exact meets_sib_reg .one hl (by decide) (by decide) hb hi hr trivial
  · simp at h
    obtain ⟨⟨b, hb, h⟩, rfl⟩ := h
    split at h
    · rw [push_ok_iff.mp h]
      exact meets_base_imm .one hl (by decide) (by decide) (length_low _ _) hb trivial
    · split at h
      · simp at h
      case isFalse h11 =>
        simp at h
        subst h
        exact staged_base_meets _ hl hb h11
  · simp at h
    obtain ⟨⟨b, hb, i, hi, h⟩, rfl⟩ := h
    split at h
    · rw [push_ok_iff.mp h]
      exact meets_sib_imm .one hl (by decide) (by decide) (length_low _ _) hb hi trivial
    · split at h
      · simp at h
      case isFalse h11 =>
        simp at h
        subst h
        exact staged_sib_meets _ hl hb hi (fun h => h11 (.inl h)) (fun h => h11 (.inr h))
  all_goals first
    | exact meets_of_none rfl
    | (split at h <;> simp at h)

theorem encode_mov_meets (hl : SegLead lead)
    (h : encode_mov inst = ⟨bs, .ok out⟩) : Meets .Mov inst.operands lead bs := by
  intro m hm
  rcases encode_mov_ok h with ⟨⟨d, s, heq⟩, _⟩ | hg
  · rw [heq] at hm
    cases hm
  · exact encode_mov_shapes_meets hl (encode_mov_generic_ok hg hm) m hm

/-! Sized moves. A byte store forces the REX prefix where its register needs
one; a byte load does not. -/

section

variable {dst src base index : RegId} {r b i : Reg64} {s : Scale} {d : Int32}

theorem byte_load_base_meets (hl : SegLead lead) (hr : dst.num = r.id) (hb : base.num = b.id) :
    Meets (.MovSized .W8) [.Reg dst, .MemSib base none s d] lead
      (mov_reg8_mem_base_disp r b d) := by
  refine meets_op_base .one hl (by decide) rfl hb rfl ?_
  simp [WellAddressed, IndexOk, ByteOk, registers, Operand.reg?, NamesReg, hr, hb, RexUse.w,
    RexUse.force, Slot.x, Slot.b, show byteReg .one 0x8A = true from by decide]

theorem byte_load_sib_meets (hl : SegLead lead) (hr : dst.num = r.id) (hb : base.num = b.id)
    (hi : index.num = i.id) :
    Meets (.MovSized .W8) [.Reg dst, .MemSib base (some index) s d] lead
      (mov_reg_mem_sib_disp_sized .W8 r b i (sib_scale_bits s) d) := by
  refine meets_op_sib .one hl (by decide) rfl hb hi rfl ?_
  simp [WellAddressed, IndexOk, ByteOk, registers, Operand.reg?, NamesReg, hr, hb, hi, RexUse.w,
    RexUse.force, Slot.x, Slot.b, show byteReg .one 0x8A = true from by decide, or_comm]

theorem table_byte_store (r : Reg64) : TableRm [] (requires_rex_for_byte_reg r) .one 0x88 0 := by
  cases r <;> decide

theorem names_byte_store (hr : src.num = r.id) (t : Slot) :
    ∀ n ∈ [src.num.toNat], NamesReg (requires_rex_for_byte_reg r) .one 0x88 (num r.id) t n := by
  simp only [List.mem_singleton, forall_eq, hr]
  refine ⟨num_id r, fun _ h4 h8 => ?_⟩
  have hforce : (requires_rex_for_byte_reg r).force = true := by
    revert h4 h8
    cases r <;> decide
  simp [hforce]

theorem byte_store_base_meets (hl : SegLead lead) (hb : base.num = b.id) (hr : src.num = r.id) :
    Meets (.MovSized .W8) [.MemSib base none .X1 d, .Reg src] lead (mov_mem_base_disp_reg8 b d r) :=
  meets_op_base .one hl (table_byte_store r) rfl hb rfl
    (iff_of_true (by simp [WellAddressed, IndexOk, ByteOk]) (names_byte_store hr _))

theorem byte_store_sib_meets (hl : SegLead lead) (hb : base.num = b.id) (hi : index.num = i.id)
    (hr : src.num = r.id) :
    Meets (.MovSized .W8) [.MemSib base (some index) s d, .Reg src] lead
      (mov_mem_sib_disp_reg8 b i (sib_scale_bits s) d r) := by
  have hwell : WellAddressed (.MovSized .W8) [.MemSib base (some index) s d, .Reg src] ↔
      index.num ≠ 4 := by
    simp [WellAddressed, IndexOk, ByteOk]
  exact meets_op_sib .one hl (table_byte_store r) rfl hb hi rfl
    (hwell.trans (and_iff_left (names_byte_store hr _)).symm)

end

theorem encode_mov_sized_meets (hl : SegLead lead)
    (h : encode_mov_sized inst width = ⟨bs, .ok out⟩) :
    Meets (.MovSized width) inst.operands lead bs := by
  unfold encode_mov_sized at h
  split at h <;> rename_i heq <;> try rw [heq]
  · exact meets_of_none rfl
  · simp at h
    obtain ⟨⟨r, hr, b, hb, h⟩, rfl⟩ := h
    cases width <;> simp at h <;> subst h
    · exact byte_load_base_meets hl hr hb
    all_goals
      exact meets_reg_base .one hl (by decide) (by decide) hr hb trivial
  · simp at h
    obtain ⟨⟨r, hr, b, hb, i, hi, h⟩, rfl⟩ := h
    cases width <;> simp at h <;> subst h
    · exact byte_load_sib_meets hl hr hb hi
    all_goals
      exact meets_reg_sib .one hl (by decide) (by decide) hr hb hi trivial
  · simp at h
    obtain ⟨⟨b, hb, h⟩, rfl⟩ := h
    cases width
    case' W64 => simp only at h; split at h; · simp at h
    all_goals
      rw [push_ok_iff.mp h]
      exact meets_base_imm .one hl (by decide) (by decide) (length_low _ _) hb trivial
  · simp at h
    obtain ⟨⟨b, hb, r, hr, h⟩, rfl⟩ := h
    cases width <;> simp at h <;> subst h
    · exact byte_store_base_meets hl hb hr
    all_goals
      exact meets_base_reg .one hl (by decide) (by decide) hb hr trivial
  · simp at h
    obtain ⟨⟨b, hb, i, hi, r, hr, h⟩, rfl⟩ := h
    cases width <;> simp at h <;> subst h
    · exact byte_store_sib_meets hl hb hi hr
    all_goals
      exact meets_sib_reg .one hl (by decide) (by decide) hb hi hr trivial
  · simp at h
    obtain ⟨⟨b, hb, i, hi, h⟩, rfl⟩ := h
    cases width
    case' W64 => simp only at h; split at h; · simp at h
    all_goals
      rw [push_ok_iff.mp h]
      exact meets_sib_imm .one hl (by decide) (by decide) (length_low _ _) hb hi trivial
  all_goals first
    | exact meets_of_none rfl
    | (split at h <;> simp at h)

end

/-! ## The whole encoder -/

/-- The moves, `lea`, `add`, `sub`, `adc`, `cmp`, `call`, `jmp`, the locked
operations and the non-temporal stores. -/
inductive Addressed : Mnemonic → Prop
  | mov : Addressed .Mov
  | mov_sized (w : IntWidth) : Addressed (.MovSized w)
  | lea : Addressed .Lea
  | add : Addressed .Add
  | sub : Addressed .Sub
  | adc (w : IntWidth) : Addressed (.Adc w)
  | cmp : Addressed .Cmp
  | cmp_sized (w : IntWidth) : Addressed (.CmpSized w)
  | call : Addressed .Call
  | jmp : Addressed .Jmp
  | xchg : Addressed .Xchg
  | lock_cmpxchg : Addressed .LockCmpxchg
  | lock_cmpxchg32 : Addressed .LockCmpxchg32
  | lock_cmpxchg16b : Addressed .LockCmpxchg16b
  | lock_xadd (w : IntWidth) : Addressed (.LockXadd w)
  | lock_add (w : IntWidth) : Addressed (.LockAdd w)
  | lock_sub (w : IntWidth) : Addressed (.LockSub w)
  | lock_inc (w : IntWidth) : Addressed (.LockInc w)
  | lock_bts (w : IntWidth) : Addressed (.LockBts w)
  | lock_btr (w : IntWidth) : Addressed (.LockBtr w)
  | lock_btc (w : IntWidth) : Addressed (.LockBtc w)
  | lock_and (w : IntWidth) : Addressed (.LockAnd w)
  | lock_or (w : IntWidth) : Addressed (.LockOr w)
  | lock_xor (w : IntWidth) : Addressed (.LockXor w)
  | movnti (w : IntWidth) : Addressed (.Movnti w)

theorem encode_instruction_impl_meets {inst : Instruction} {bs : List UInt8}
    {out : EncodeOutput} (hm : Addressed inst.mnemonic) (hl : SegLead lead)
    (h : encode_instruction_impl inst = ⟨bs, .ok out⟩) :
    Meets inst.mnemonic inst.operands lead bs := by
  unfold encode_instruction_impl at h
  generalize hmn : inst.mnemonic = mn at hm h ⊢
  cases hm with
  | mov => exact encode_mov_meets hl h
  | mov_sized w => exact encode_mov_sized_meets hl h
  | lea => exact encode_lea_meets hl h
  | add => exact encode_add_meets hl (plain_ok_iff.mp h).1
  | sub => exact encode_sub_meets hl (plain_ok_iff.mp h).1
  | adc w => exact encode_adc_meets hl (plain_ok_iff.mp h).1
  | cmp => exact encode_cmp_meets (.inl rfl) hl (plain_ok_iff.mp h).1
  | cmp_sized w => exact encode_cmp_sized_meets hl (plain_ok_iff.mp h).1
  | call => exact encode_call_meets hl h
  | jmp => exact encode_jmp_meets hl h
  | xchg =>
    exact mem_reg_meets .one (fun _ _ _ => rfl) (by decide) (by decide) (by simp [ByteOk]) hl
      (plain_ok_iff.mp h).1
  | lock_cmpxchg | lock_cmpxchg32 =>
    exact mem_reg_meets .two (fun _ _ _ => rfl) (by decide) (by decide) (by simp [ByteOk]) hl
      (plain_ok_iff.mp h).1
  | lock_cmpxchg16b => exact encode_lock_cmpxchg16b_meets hl (plain_ok_iff.mp h).1
  | lock_xadd w => exact encode_lock_xadd_meets hl (plain_ok_iff.mp h).1
  | lock_add w => exact encode_lock_add_meets hl (plain_ok_iff.mp h).1
  | lock_sub w => exact encode_lock_sub_meets hl (plain_ok_iff.mp h).1
  | lock_inc w => exact encode_lock_inc_meets (plain_ok_iff.mp h).1
  | lock_bts w =>
    exact lock_bit_meets 0xAB 5 (fun _ _ _ => rfl) (fun _ _ _ => rfl) (by decide) (by decide)
      (by simp [ByteOk]) hl (plain_ok_iff.mp h).1
  | lock_btr w =>
    exact lock_bit_meets 0xB3 6 (fun _ _ _ => rfl) (fun _ _ _ => rfl) (by decide) (by decide)
      (by simp [ByteOk]) hl (plain_ok_iff.mp h).1
  | lock_btc w =>
    exact lock_bit_meets 0xBB 7 (fun _ _ _ => rfl) (fun _ _ _ => rfl) (by decide) (by decide)
      (by simp [ByteOk]) hl (plain_ok_iff.mp h).1
  | lock_and w =>
    exact lock_logic_meets 0x21 (fun _ _ _ => rfl) (by decide) (by decide) (by simp [ByteOk]) hl
      (plain_ok_iff.mp h).1
  | lock_or w =>
    exact lock_logic_meets 0x09 (fun _ _ _ => rfl) (by decide) (by decide) (by simp [ByteOk]) hl
      (plain_ok_iff.mp h).1
  | lock_xor w =>
    exact lock_logic_meets 0x31 (fun _ _ _ => rfl) (by decide) (by decide) (by simp [ByteOk]) hl
      (plain_ok_iff.mp h).1
  | movnti w => exact encode_movnti_meets hl (plain_ok_iff.mp h).1

/-- The processor reads the address and the register of an accepted instruction
as they were given, unless the index is `rsp` or a byte register lacks its REX
prefix. -/
theorem address_read_back_iff {inst : Instruction} {bs : List UInt8} {out : EncodeOutput}
    {m : Mem} (hm : Addressed inst.mnemonic) (haddr : address (unwrapped inst.operands) = some m)
    (h : encode_instruction inst = ⟨bs, .ok out⟩) :
    ReadsAs m (registers (unwrapped inst.operands)) bs ↔
      WellAddressed inst.mnemonic (unwrapped inst.operands) := by
  obtain ⟨lead, bs', out', hl, himpl, rfl, rfl⟩ := encode_instruction_ok h
  have hmeets := encode_instruction_impl_meets
    (show Addressed { inst with operands := unwrapped inst.operands }.mnemonic from hm) hl himpl
  exact hmeets m haddr

/-- `mov r9, gs:[r13 + r12*4]`: base and index with special low bits. -/
theorem mov_r9_gs_r13_r12_read_back :
    ReadsAs ⟨some 13, some (12, 2), 0⟩ [9] [0x65, 0x4F, 0x8B, 0x4C, 0xA5, 0x00] :=
  (@address_read_back_iff
    ⟨.Mov, [.Reg ⟨9⟩, .MemSeg .Gs (.MemSib ⟨13⟩ (some ⟨12⟩) .X4 0)], none, .Mode64⟩ _ .new _
    .mov rfl rfl).mpr (by simp [WellAddressed, unwrapped, find_mem_seg, IndexOk, ByteOk])

/-- `mov rax, [rbx + rsp]` loads from `[rbx]`. -/
theorem mov_rax_rbx_rsp_loses_index :
    encode_instruction ⟨.Mov, [.Reg ⟨0⟩, .MemSib ⟨3⟩ (some ⟨4⟩) .X1 0], none, .Mode64⟩ =
      ⟨[0x48, 0x8B, 0x04, 0x23], .ok .new⟩ ∧
    address [.Reg ⟨0⟩, .MemSib ⟨3⟩ (some ⟨4⟩) .X1 0] = some ⟨some 3, some (4, 0), 0⟩ ∧
    ¬ ReadsAs ⟨some 3, some (4, 0), 0⟩ [0] [0x48, 0x8B, 0x04, 0x23] := by
  refine ⟨rfl, rfl, ?_⟩
  rintro ⟨is, i, hdis, _, hplace, _⟩
  have hread : disassemble .long [0x48, 0x8B, 0x04, 0x23] =
      some [⟨[], some ⟨true, false, false, false⟩, none, .one, 0x8B,
        some ⟨0, .mem ⟨some 3, none, 0⟩⟩, 4, [], []⟩] := by decide
  rw [hread, Option.some.injEq] at hdis
  rw [← List.singleton_inj.mp (List.append_inj' (List.nil_append _ |>.trans hdis) rfl).2] at hplace
  simp at hplace

end paideia_as_encoder
