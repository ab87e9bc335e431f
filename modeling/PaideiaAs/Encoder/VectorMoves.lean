-- `vmovdqu` between a vector register and memory (`encode_vex.rs`, `avx.rs`): which
-- bases and displacements the decoder reads back. ModRM is written by hand there,
-- without the SIB byte of base 4 and the forced displacement of base 5.
import PaideiaAs.Encoder.Sites

namespace paideia_as_encoder

open paideia_as_runtime X86
open Bytes (length_sle sle)

/-! ## The operand -/

/-- The `mod` part that a displacement gets. -/
def bareMod (d : Int) : Nat := if d = 0 then 0 else if -128 ≤ d ∧ d ≤ 127 then 1 else 2

theorem bareMod_lt (d : Int) : bareMod d < 3 := by
  unfold bareMod
  split_ifs <;> omega

theorem bareMod_eq_zero {d : Int} : bareMod d = 0 ↔ d = 0 := by
  unfold bareMod
  split_ifs <;> simp_all

theorem bare_mem_eq (reg base : UInt8) (disp : Int32) :
    bare_mem reg base disp = fields (bareMod disp.toInt) (num reg % 8) (num base % 8) ::
      sle (dispLen (bareMod disp.toInt)) disp.toInt := by
  have hr : num reg % 8 < 8 := Nat.mod_lt _ (by decide)
  have hb : num base % 8 < 8 := Nat.mod_lt _ (by decide)
  unfold bare_mem bareMod
  rw [and_seven, and_seven]
  split_ifs
  · rw [← pack 0 (by decide) _ hr _ hb]
    simp [dispLen, sle, Bytes.le]
  · rw [← pack 1 (by decide) _ hr _ hb]
    rfl
  · rw [← pack 2 (by decide) _ hr _ hb]
    rfl

/-- The bytes of the displacement say it in full. -/
theorem signed_bareMod {d : Int} (hlo : -2147483648 ≤ d) (hhi : d < 2147483648) :
    Bytes.signed (sle (dispLen (bareMod d)) d) = d := by
  unfold bareMod
  split_ifs with h0 h8
  · rw [h0]
    rfl
  · exact Bytes.signed_sle_of_fits (by decide) (by simpa [dispLen] using h8.1)
      (by simp [dispLen]; omega)
  · exact signed_disp32 hlo hhi

/-- Base 4 makes the displacement a SIB byte, which leaves too few bytes, and base 5
without a displacement asks for four. -/
theorem takeModRM_bare (m : Mode) (p : Rex) (reg base : UInt8) (disp : Int32) :
    takeModRM m p (bare_mem reg base disp) =
      if num base % 8 = 4 ∨ num base % 8 = 5 ∧ disp.toInt = 0 then none
      else some (⟨⟨ext (num reg % 8) p.r, .mem ⟨some (ext (num base % 8) p.b), none, disp.toInt⟩⟩, 1,
        sle (dispLen (bareMod disp.toInt)) disp.toInt⟩, []) := by
  have hr : num reg % 8 < 8 := Nat.mod_lt _ (by decide)
  have hb : num base % 8 < 8 := Nat.mod_lt _ (by decide)
  have hmd := bareMod_lt disp.toInt
  have hsigned := signed_bareMod disp.le_toInt disp.toInt_lt
  rw [bare_mem_eq]
  by_cases h4 : num base % 8 = 4
  · rw [if_pos (.inl h4), h4, takeModRM_sib m p hr hmd]
    have hlen : (sle (dispLen (bareMod disp.toInt)) disp.toInt).length
        = dispLen (bareMod disp.toInt) := length_sle _ _
    revert hlen
    generalize sle (dispLen (bareMod disp.toInt)) disp.toInt = ds
    intro hlen
    cases ds with
    | nil => rfl
    | cons s ds =>
      have hmod : bareMod disp.toInt ≠ 0 := by
        intro h0
        rw [h0] at hlen
        cases hlen
      rw [List.length_cons] at hlen
      have hshort : takeN (dispLen (bareMod disp.toInt)) ds = none :=
        if_neg (by omega)
      show (if s.toNat % 8 = 5 ∧ bareMod disp.toInt = 0 then _ else _) = _
      rw [if_neg fun h => hmod h.2, hshort]
      rfl
  · by_cases h5 : num base % 8 = 5 ∧ disp.toInt = 0
    · rw [if_pos (.inr h5), h5.1, h5.2]
      have hn := toNat_fields (by decide : 0 < 4) hr (by decide : 5 < 8)
      have h1 : (fields 0 (num reg % 8) 5).toNat / 64 = 0 := by omega
      have h3 : (fields 0 (num reg % 8) 5).toNat % 8 = 5 := by omega
      show takeModRM m p [fields 0 (num reg % 8) 5] = none
      simp [takeModRM, h1, h3, takeN]
    · rw [if_neg (by tauto)]
      have hbase := takeModRM_base m p hr hb hmd h4
        (fun hb5 hz => h5 ⟨hb5, bareMod_eq_zero.mp hz⟩)
        (sle (dispLen (bareMod disp.toInt)) disp.toInt) [] (length_sle _ _)
      rw [List.append_nil, hsigned] at hbase
      exact hbase

/-! ## The prefix -/

theorem is_high_num (id : UInt8) (h : id.toNat < 16) : is_high id = decide (8 ≤ num id) := by
  rw [num_of_lt h]
  have hall : ∀ n < 16, is_high (UInt8.ofNat n) = decide (8 ≤ n) := by decide
  have hid := hall id.toNat h
  rwa [UInt8.ofNat_toNat] at hid

variable {op : UInt8} {bs : List UInt8}

theorem immLen_move (m : Mode) (hop : op = 0x6F ∨ op = 0x7F) (k : Nat) (half : Bool) :
    X86.immLen m .two op k half false = 0 := by
  rcases hop with rfl | rfl <;> cases m <;> cases half <;> rfl

/-- In 64-bit mode both lengths of the prefix say the same. -/
theorem vex_lead_long (r b : Bool) (hop : op = 0x6F ∨ op = 0x7F) :
    VexLead .long (vex_lead r b 0x0F 0x2 ++ [op])
      ⟨.two, op, ⟨false, r, false, b⟩, some ⟨1, 2, 0⟩, if r || b then 4 else 3⟩ where
  head := by
    cases r <;> cases b
    · exact ⟨0xC5, [0xFE, op], rfl, by decide, by decide⟩
    · exact ⟨0xC4, [0xC1, 0x7E, op], rfl, by decide, by decide⟩
    · exact ⟨0xC4, [0x61, 0x7E, op], rfl, by decide, by decide⟩
    · exact ⟨0xC4, [0x41, 0x7E, op], rfl, by decide, by decide⟩
  reads rest := by cases r <;> cases b <;> rfl
  len := by cases r <;> cases b <;> rfl
  table := by
    refine ⟨rfl, ?_, fun k half => immLen_move _ hop k half⟩
    rcases hop with rfl | rfl <;> rfl

/-- In protected mode the extension bit of the base is not read. -/
theorem vex_lead_prot (b : Bool) (hop : op = 0x6F ∨ op = 0x7F) :
    VexLead .prot (vex_lead false b 0x0F 0x2 ++ [op])
      ⟨.two, op, Rex.none, some ⟨1, 2, 0⟩, if b then 4 else 3⟩ where
  head := by
    cases b
    · exact ⟨0xC5, [0xFE, op], rfl, by decide, by decide⟩
    · exact ⟨0xC4, [0xC1, 0x7E, op], rfl, by decide, by decide⟩
  reads rest := by cases b <;> rfl
  len := by cases b <;> rfl
  table := by
    refine ⟨rfl, ?_, fun k half => immLen_move _ hop k half⟩
    rcases hop with rfl | rfl <;> rfl

/-! ## The instruction -/

/-- The bytes are one unaligned move of 256 bits between the vector register `ymm`
and the memory at `base + disp`. -/
def MovesVector (m : Mode) (bs : List UInt8) (op : UInt8) (ymm base : Nat) (disp : Int) : Prop :=
  ∃ insn, disassemble m bs = some [insn] ∧ insn.map = .two ∧ insn.opcode = op ∧
    insn.vex = some ⟨1, 2, 0⟩ ∧ insn.modrm = some ⟨ymm, .mem ⟨some base, none, disp⟩⟩

theorem not_disassemble_of_decode_none {m : Mode} {is : List Insn}
    (hbs : bs ≠ []) (h : decode m bs = none) : disassemble m bs ≠ some is := by
  cases bs with
  | nil => exact absurd rfl hbs
  | cons b bs =>
    unfold disassemble
    simp [decodeAll, h]

/-- What the decoder makes of a move under a prefix that it takes as VEX. -/
theorem movesVector_of_lead {m : Mode} {vb : List UInt8} {p : Rex} {len : Nat}
    (h : VexLead m vb ⟨.two, op, p, some ⟨1, 2, 0⟩, len⟩) (reg base : UInt8) (disp : Int32)
    (ymm b : Nat) :
    MovesVector m (vb ++ bare_mem reg base disp) op ymm b disp.toInt ↔
      ¬ (num base % 8 = 4 ∨ num base % 8 = 5 ∧ disp.toInt = 0) ∧
        ext (num reg % 8) p.r = ymm ∧ ext (num base % 8) p.b = b := by
  have hdec := @decode_vex_operand [] _ _ _ h (by simp [SegLead]) (bare_mem reg base disp)
  rw [List.nil_append, takeModRM_bare] at hdec
  have hne : vb ++ bare_mem reg base disp ≠ [] := by
    obtain ⟨c, cs, rfl, -⟩ := h.head
    exact List.cons_ne_nil _ _
  unfold MovesVector
  by_cases hbad : num base % 8 = 4 ∨ num base % 8 = 5 ∧ disp.toInt = 0
  · rw [if_pos hbad] at hdec
    constructor
    · rintro ⟨insn, hinsn, -⟩
      exact absurd hinsn (not_disassemble_of_decode_none hne hdec)
    · rintro ⟨hgood, -⟩
      exact absurd hbad hgood
  · rw [if_neg hbad] at hdec
    have hall := disassemble_of_decode hdec
    constructor
    · rintro ⟨insn, hinsn, -, -, -, hmodrm⟩
      rw [hall] at hinsn
      cases hinsn
      cases hmodrm
      exact ⟨hbad, rfl, rfl⟩
    · rintro ⟨-, rfl, rfl⟩
      exact ⟨_, hall, rfl, rfl, rfl, rfl⟩

/-- In protected mode an extended vector register turns the prefix into `les`. -/
theorem not_movesVector_les (b : Bool) (reg base : UInt8) (disp : Int32) (ymm n : Nat) :
    ¬ MovesVector .prot (vex_lead true b 0x0F 0x2 ++ [op] ++ bare_mem reg base disp) op ymm n
      disp.toInt := by
  rintro ⟨insn, hinsn, -⟩
  have hbytes : ∃ p q, vex_lead true b 0x0F 0x2 = [0xC4, p, q] ∧ p.toNat / 64 = 1 ∧
      p.toNat % 8 ≠ 4 := by
    cases b
    · exact ⟨0x61, 0x7E, rfl, by decide, by decide⟩
    · exact ⟨0x41, 0x7E, rfl, by decide, by decide⟩
  obtain ⟨p, q, hlead, hp, hrm⟩ := hbytes
  obtain ⟨j, hj⟩ := @decode_les_prot [] (by simp [SegLead]) p q op (bare_mem reg base disp) hp hrm
  rw [hlead] at hinsn
  exact absurd (disassemble_single hinsn hj) (List.cons_ne_nil _ _)

theorem ymm_id_ok {id reg : UInt8} {msg : String} :
    ymm_id id msg = ⟨bs, .ok reg⟩ ↔ bs = [] ∧ 37 ≤ id ∧ id ≤ 52 ∧ reg = id - 37 := by
  unfold ymm_id ymm_id_from_regid
  split_ifs with h
  · simp [h]
  · simp only [Emit.unreachable_ok_iff, false_iff]
    rintro ⟨-, h1, h2, -⟩
    exact h ⟨h1, h2⟩

theorem vmovdqu_mem_ok {opcode : UInt8} {msg : String} {ymm base : UInt8} {disp : Int32}
    {u : Unit} (h : vmovdqu_mem opcode msg ymm base disp = ⟨bs, .ok u⟩) :
    37 ≤ ymm ∧ ymm ≤ 52 ∧ bs = vex_lead (is_high (ymm - 37)) (is_high base) 0x0F 0x2 ++ [opcode] ++
      bare_mem (ymm - 37) base disp := by
  unfold vmovdqu_mem at h
  obtain ⟨_, reg, _, hreg, hpush, rfl⟩ := Emit.bind_ok_iff.mp h
  obtain ⟨rfl, hlo, hhi, rfl⟩ := ymm_id_ok.mp hreg
  exact ⟨hlo, hhi, by simpa using hpush⟩

/-- The base has a plain ModRM form with this displacement: it is a general register
other than `rsp` and `r12`, and `rbp` and `r13` come with a displacement. 32-bit mode
has no extended registers. -/
structure Addressable (mode : InstrMode) (ymm base : RegId) (disp : Int32) : Prop where
  general : base.num.toNat < 16
  no_sib : base.num.toNat % 8 ≠ 4
  no_rip : base.num.toNat % 8 = 5 → disp ≠ 0
  low : mode = .Mode32 → base.num.toNat < 8 ∧ ymm.num.toNat - 37 < 8

section

variable {mode : InstrMode} {ymm base : RegId} {disp : Int32} {op : UInt8}

theorem not_bare_iff : ¬ (num base.num % 8 = 4 ∨ num base.num % 8 = 5 ∧ disp.toInt = 0) ↔
    base.num.toNat % 8 ≠ 4 ∧ (base.num.toNat % 8 = 5 → disp ≠ 0) := by
  rw [num_mod, show disp.toInt = 0 ↔ disp = 0 from Int32.toInt_inj (y := 0)]
  tauto

theorem ext_lt {n : Nat} (h : n < 8) (b : Bool) : ext n b < 16 := by
  unfold ext
  cases b <;> simp <;> omega

theorem ext_is_high {id : UInt8} (h : id.toNat < 16) : ext (num id % 8) (is_high id) = id.toNat := by
  rw [is_high_num id h, ext_low (num_lt id), num_of_lt h]

theorem moves_long_iff (hop : op = 0x6F ∨ op = 0x7F) {reg : UInt8} (hreg : reg.toNat < 16) :
    MovesVector .long (vex_lead (is_high reg) (is_high base.num) 0x0F 0x2 ++ [op] ++
        bare_mem reg base.num disp) op reg.toNat base.num.toNat disp.toInt ↔
      base.num.toNat < 16 ∧ base.num.toNat % 8 ≠ 4 ∧ (base.num.toNat % 8 = 5 → disp ≠ 0) := by
  rw [movesVector_of_lead (vex_lead_long _ _ hop), not_bare_iff]
  dsimp only
  rw [ext_is_high hreg]
  constructor
  · rintro ⟨hbare, -, hbase⟩
    refine ⟨?_, hbare⟩
    rw [← hbase]
    exact ext_lt (Nat.mod_lt _ (by decide)) _
  · rintro ⟨hlt, hbare⟩
    exact ⟨hbare, rfl, ext_is_high hlt⟩

theorem moves_prot_iff (hop : op = 0x6F ∨ op = 0x7F) {reg : UInt8} (hreg : reg.toNat < 16) :
    MovesVector .prot (vex_lead (is_high reg) (is_high base.num) 0x0F 0x2 ++ [op] ++
        bare_mem reg base.num disp) op reg.toNat base.num.toNat disp.toInt ↔
      (base.num.toNat < 8 ∧ reg.toNat < 8) ∧
        base.num.toNat % 8 ≠ 4 ∧ (base.num.toNat % 8 = 5 → disp ≠ 0) := by
  have hhigh : is_high reg = decide (8 ≤ reg.toNat) := by rw [is_high_num reg hreg, num_of_lt hreg]
  by_cases h8 : 8 ≤ reg.toNat
  · rw [hhigh, decide_eq_true h8]
    refine iff_of_false (not_movesVector_les _ _ _ _ _ _) ?_
    rintro ⟨⟨-, hlow⟩, -⟩
    omega
  · rw [hhigh, decide_eq_false h8, movesVector_of_lead (vex_lead_prot _ hop), not_bare_iff, num_mod,
      num_mod]
    show _ ∧ reg.toNat % 8 + 8 * 0 = _ ∧ base.num.toNat % 8 + 8 * 0 = _ ↔ _
    constructor
    · rintro ⟨hbare, hreg', hbase⟩
      exact ⟨⟨by omega, by omega⟩, hbare⟩
    · rintro ⟨⟨hlow, -⟩, hbare⟩
      exact ⟨hbare, by omega, by omega⟩

/-- A 256-bit move between a vector register and memory is read back with that
register and address exactly if the base has a plain ModRM form. -/
theorem vmovdqu_addresses_iff {inst : Instruction} {is_store : Bool} {bs : List UInt8}
    {out : EncodeOutput} (hmnemonic : inst.mnemonic = .Vmovdqu is_store)
    (hoperands : inst.operands = if is_store then [.MemSib base none .X1 disp, .Reg ymm]
      else [.Reg ymm, .MemSib base none .X1 disp])
    (h : encode_instruction inst = ⟨bs, .ok out⟩) :
    MovesVector (processorMode inst.mode) bs (if is_store then 0x7F else 0x6F)
        (ymm.num.toNat - 37) base.num.toNat disp.toInt ↔
      Addressable inst.mode ymm base disp := by
  have hmem : ∃ msg, vmovdqu_mem (if is_store then 0x7F else 0x6F) msg ymm.num base.num disp
      = ⟨bs, .ok ()⟩ := by
    have hseg : find_mem_seg inst.operands = none := by
      rw [hoperands]
      cases is_store <;> rfl
    unfold encode_instruction at h
    rw [hseg] at h
    dsimp only at h
    unfold encode_instruction_impl at h
    rw [hmnemonic] at h
    dsimp only at h
    unfold encode_vmovdqu at h
    rw [hoperands] at h
    cases is_store with
    | false => exact ⟨_, (plain_ok_iff.mp h).1⟩
    | true => exact ⟨_, (plain_ok_iff.mp h).1⟩
  obtain ⟨msg, hmem⟩ := hmem
  obtain ⟨hlo, hhi, rfl⟩ := vmovdqu_mem_ok hmem
  have hop : (if is_store then 0x7F else 0x6F : UInt8) = 0x6F ∨
      (if is_store then 0x7F else 0x6F : UInt8) = 0x7F := by
    cases is_store
    · exact .inl rfl
    · exact .inr rfl
  have hsub : (ymm.num - 37).toNat = ymm.num.toNat - 37 := UInt8.toNat_sub_of_le _ _ hlo
  have hreg : (ymm.num - 37).toNat < 16 := by
    rw [UInt8.le_iff_toNat_le] at hhi
    rw [hsub]
    change _ ≤ 52 at hhi
    omega
  rw [← hsub]
  cases hmode : inst.mode with
  | Mode64 =>
    rw [show processorMode .Mode64 = .long from rfl, moves_long_iff hop hreg]
    constructor
    · rintro ⟨hlt, hsib, hrip⟩
      exact ⟨hlt, hsib, hrip, nofun⟩
    · rintro ⟨hlt, hsib, hrip, -⟩
      exact ⟨hlt, hsib, hrip⟩
  | Mode32 =>
    rw [show processorMode .Mode32 = .prot from rfl, moves_prot_iff hop hreg, hsub]
    constructor
    · rintro ⟨hlow, hsib, hrip⟩
      exact ⟨by omega, hsib, hrip, fun _ => hlow⟩
    · rintro ⟨-, hsib, hrip, hlow⟩
      exact ⟨hlow rfl, hsib, hrip⟩

end

/-- `vmovdqu ymm, [base + disp]`. -/
def vector_load (ymm base : RegId) (disp : Int32) : Instruction :=
  ⟨.Vmovdqu false, [.Reg ymm, .MemSib base none .X1 disp], none, .Mode64⟩

/-- `vmovdqu ymm9, [rbp - 32]`. -/
theorem vmovdqu_addresses_frame :
    Addressable .Mode64 ⟨46⟩ ⟨5⟩ (-32) ∧
      MovesVector .long [0xC4, 0x61, 0x7E, 0x6F, 0x4D, 0xE0] 0x6F 9 5 (-32) := by
  have haddress : Addressable .Mode64 ⟨46⟩ ⟨5⟩ (-32) := ⟨by decide, by decide, by decide, nofun⟩
  have hencode : encode_instruction (vector_load ⟨46⟩ ⟨5⟩ (-32))
      = ⟨[0xC4, 0x61, 0x7E, 0x6F, 0x4D, 0xE0], .ok .new⟩ := rfl
  exact ⟨haddress, (@vmovdqu_addresses_iff _ _ _ _ false _ _ rfl rfl hencode).mpr haddress⟩

/-- `vmovdqu ymm0, [rsp]` and `vmovdqu ymm0, [rbp]` are accepted, and neither is read
back. -/
theorem vmovdqu_loses_stack_base :
    encode_instruction (vector_load ⟨37⟩ ⟨4⟩ 0) = ⟨[0xC5, 0xFE, 0x6F, 0x04], .ok .new⟩ ∧
      disassemble .long [0xC5, 0xFE, 0x6F, 0x04] = none ∧
      ¬ MovesVector .long [0xC5, 0xFE, 0x6F, 0x04] 0x6F 0 4 0 ∧
      encode_instruction (vector_load ⟨37⟩ ⟨5⟩ 0) = ⟨[0xC5, 0xFE, 0x6F, 0x05], .ok .new⟩ ∧
      ¬ MovesVector .long [0xC5, 0xFE, 0x6F, 0x05] 0x6F 0 5 0 := by
  have hsib : disassemble .long [0xC5, 0xFE, 0x6F, 0x04] = none := by decide
  have hrip : disassemble .long [0xC5, 0xFE, 0x6F, 0x05] = none := by decide
  refine ⟨rfl, hsib, ?_, rfl, ?_⟩
  · rintro ⟨insn, hinsn, -⟩
    rw [hsib] at hinsn
    cases hinsn
  · rintro ⟨insn, hinsn, -⟩
    rw [hrip] at hinsn
    cases hinsn

end paideia_as_encoder
