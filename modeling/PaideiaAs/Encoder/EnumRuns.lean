-- Enumerations at run time: the discriminant and its payload are stored where they
-- belong unless a register stands in the way, and an arm is chosen by the whole
-- discriminant unless the comparison cannot carry the variant.
import PaideiaAs.Encoder.Fragments

namespace paideia_as_encoder

open X86 ByteMemory
open BitVec (getLsbD_setWidth ofInt ssubOverflow)
open Bytes (patch sle)

/-! ## Construction -/

/-- The discriminant, and behind it the payload. -/
def enum_quads (base : Reg64) (discriminant : UInt64) (payload : List (Int32 × Reg64))
    (regs : Nat → BitVec 64) : List (Address × BitVec 64) :=
  (regs base.id.toNat, discriminant.toBitVec) :: record_quads base payload regs

/-- The prefix of the store of the discriminant. -/
def headRex (base : Reg64) : Rex := ⟨true, false, false, decide (8 ≤ base.id.toNat)⟩

/-- The store of the discriminant, and the payload behind it. -/
def enum_stores (base : Reg64) (payload : List (Int32 × Reg64)) : List UInt8 :=
  (headRex base).byte :: 0x89 :: fields 0 0 (base.id.toNat % 8) :: record_bytes base payload

/-- What `emit_enum_cons` writes. -/
def enum_bytes (base : Reg64) (discriminant : UInt64) (payload : List (Int32 × Reg64)) :
    List UInt8 :=
  mov_reg64_imm64 .Rax discriminant.toInt64 ++ enum_stores base payload

section

variable {base : Reg64} {discriminant : UInt64} {payload : List (Int32 × Reg64)}

theorem emit_enum_cons_eq : emit_enum_cons base discriminant (wide_stores payload) =
    ⟨enum_bytes base discriminant payload, .ok ()⟩ := by
  have hmodrm : base.id &&& 7 = fields 0 0 (base.id.toNat % 8) := by
    rw [and_seven, num_id]
    unfold fields
    simp
  have hrex : rex true false false (high base.id) = (headRex base).byte := by
    unfold headRex
    rw [rex_eq, high_eq]
  unfold emit_enum_cons
  rw [hmodrm, hrex]
  refine Emit.bind_ok_iff.mpr ⟨_, (), _, rfl, ?_, rfl⟩
  exact Emit.bind_ok_iff.mpr ⟨_, (), _, rfl, emit_record_cons_eq, rfl⟩

/-- The load of the discriminant into `rax`. -/
def loadInsn (discriminant : UInt64) : Insn :=
  (form [] .wide .one 0xB8 (.plus Reg64.Rax.id.toNat) (low 8 discriminant.toInt64)).insn .long

theorem decode_load (rest : List UInt8) :
    decode .long (mov_reg64_imm64 .Rax discriminant.toInt64 ++ rest) =
      some (loadInsn discriminant, rest) := by
  rw [mov_reg64_imm64_form]
  exact decode_form (fits_mov_reg64_imm64 .Rax _) rest

theorem discriminant_bits (v : UInt64) :
    ofInt 64 (Bytes.signed (low 8 v.toInt64)) = v.toBitVec := by
  have hsigned : Bytes.signed (low 8 v.toInt64) = v.toInt64.toInt := by
    unfold low
    exact Bytes.signed_sle_of_fits (by decide) v.toInt64.le_toInt v.toInt64.toInt_lt
  rw [hsigned]
  exact BitVec.ofInt_toInt

theorem effect_load (s : State) :
    (loadInsn discriminant).effect s = some (s.set 0 discriminant.toBitVec) := by
  have heffect : (loadInsn discriminant).effect s =
      some (s.set 0 (ofInt 64 (Bytes.signed (low 8 discriminant.toInt64)))) := by
    have hopcode : (loadInsn discriminant).opcode = 0xB8 := by
      show (0xB8 : UInt8) + UInt8.ofNat (0 % 8) = 0xB8
      decide
    unfold Insn.effect
    rw [if_neg (by simp [loadInsn, form, Form.insn]), hopcode]
    rfl
  rw [heffect, discriminant_bits]

/-- The state before the store of the discriminant. -/
def loaded (discriminant : UInt64) (s : State) : State :=
  (s.jump (BitVec.ofNat 64 (loadInsn discriminant).size)).set 0 discriminant.toBitVec

theorem loaded_regs (s : State) : (loaded discriminant s).regs =
    Function.update s.regs 0 discriminant.toBitVec := rfl

theorem decode_enum_stores : decode .long (enum_stores base payload) =
    (takeModRM .long (headRex base)
      (fields 0 0 (base.id.toNat % 8) :: record_bytes base payload)).map fun t =>
        (⟨[], some (headRex base), none, .one, 0x89, some t.1.modrm, 2 + t.1.len, t.1.disp, []⟩,
          t.2) :=
  decode_plain plain_store (some (headRex base)) _

theorem run_enum {cpu : Processor} {s s' : State}
    (h : cpu.run (enum_bytes base discriminant payload) s = some s') :
    ∃ is k, decodeAll .long k (enum_stores base payload) = some is ∧
      cpu.runAll is (loaded discriminant s) = some s' := by
  obtain ⟨is, his, hrun⟩ := Option.bind_eq_some_iff.mp h
  have hne : enum_bytes base discriminant payload ≠ [] := by
    unfold enum_bytes enum_stores
    simp
  obtain ⟨js, k, rfl, hjs⟩ := decodeAll_head (decode_load _) hne his
  rw [runAll_cons (effect_load _) rfl] at hrun
  exact ⟨js, k, hjs, hrun⟩

/-- The base is one whose ModRM code means the register itself. -/
theorem takeModRM_head (h4 : base.id.toNat % 8 ≠ 4) (h5 : base.id.toNat % 8 ≠ 5)
    (rest : List UInt8) : takeModRM .long (headRex base) (fields 0 0 (base.id.toNat % 8) :: rest) =
      some (⟨⟨0, .mem ⟨some base.id.toNat, none, 0⟩⟩, 1, []⟩, rest) := by
  have hbase := takeModRM_base .long (headRex base) (by decide : 0 < 8)
    (Nat.mod_lt base.id.toNat (by decide : 0 < 8)) (by decide : 0 < 3) h4 (fun h => absurd h h5)
    [] rest rfl
  unfold headRex at hbase
  rw [ext_low base.id_lt] at hbase
  exact hbase

/-- The payload is stored from the registers as the load of the discriminant left
them. -/
theorem runs_enum (h4 : base.id.toNat % 8 ≠ 4) (h5 : base.id.toNat % 8 ≠ 5) (cpu : Processor)
    (s : State) : ∃ s', cpu.run (enum_bytes base discriminant payload) s = some s' ∧
      s'.stores = s.stores ++ enum_quads base discriminant payload
        (Function.update s.regs 0 discriminant.toBitVec) ∧
      s'.mem = writes s.mem (enum_quads base discriminant payload
        (Function.update s.regs 0 discriminant.toBitVec)) := by
  obtain ⟨is, his, hrun⟩ := runs_record h4 payload
  have hstore := @decode_enum_stores base payload
  rw [takeModRM_head h4 h5] at hstore
  have hshort : (record_bytes base payload).length < (enum_stores base payload).length := by
    unfold enum_stores
    simp only [List.length_cons]
    omega
  have hall := disassemble_cons (@decode_load discriminant (enum_stores base payload))
    (by simp [mov_reg64_imm64, op_plus, RexUse.bytes]; omega)
    (disassemble_cons hstore hshort his)
  have hrun_all : cpu.run (enum_bytes base discriminant payload) s = _ := run_eq hall
  rw [hrun_all, runAll_cons (effect_load _) rfl]
  have heffect : ∀ t : State, (⟨[], some (headRex base), none, .one, 0x89,
      some ⟨0, .mem ⟨some base.id.toNat, none, 0⟩⟩, 2 + 1, [], []⟩ : Insn).effect t =
        some (t.write (t.regs base.id.toNat) (t.regs 0)) := by
    intro t
    rw [effect_wide rfl]
    simp [wideEffect, State.address]
  rw [runAll_cons (heffect _) rfl]
  have hrax : (loaded discriminant s).regs 0 = discriminant.toBitVec := by
    rw [loaded_regs, Function.update_self]
  obtain ⟨s', hs', hstores, hmem⟩ := hrun cpu (((loaded discriminant s).jump (BitVec.ofNat 64 3)).write
    ((loaded discriminant s).regs base.id.toNat) ((loaded discriminant s).regs 0))
  unfold enum_quads
  rw [← loaded_regs, ← hrax]
  exact ⟨s', hs', hstores.trans (List.append_assoc _ _ _), hmem⟩

theorem first_store_at (h : Stores (enum_bytes base discriminant payload)
      (enum_quads base discriminant payload)) :
    ∃ t rest, takeModRM .long (headRex base)
        (fields 0 0 (base.id.toNat % 8) :: record_bytes base payload) = some (t, rest) ∧
      ∀ s a, ((loaded discriminant s).jump (BitVec.ofNat 64 (2 + t.len + t.disp.length))).address
        t.modrm.place = some a → a = s.regs base.id.toNat := by
  have hstore := @decode_enum_stores base payload
  have hne : enum_stores base payload ≠ [] := List.cons_ne_nil _ _
  cases hread : takeModRM .long (headRex base)
      (fields 0 0 (base.id.toNat % 8) :: record_bytes base payload) with
  | none =>
    obtain ⟨s', hs', -⟩ := h halting (idle 0 0)
    obtain ⟨is, k, his, -⟩ := run_enum hs'
    rw [hread] at hstore
    rw [decodeAll_stuck hstore hne] at his
    cases his
  | some t =>
    obtain ⟨t, rest⟩ := t
    refine ⟨t, rest, rfl, fun s a ha => ?_⟩
    obtain ⟨s', hs', hstores, -⟩ := h halting s
    obtain ⟨is, k, his, hrun⟩ := run_enum hs'
    rw [hread] at hstore
    obtain ⟨js, j, rfl, -⟩ := decodeAll_head hstore hne his
    have heffect : (⟨[], some (headRex base), none, .one, 0x89, some t.modrm, 2 + t.len, t.disp,
        []⟩ : Insn).effect ((loaded discriminant s).jump
          (BitVec.ofNat 64 (2 + t.len + t.disp.length))) =
        some (((loaded discriminant s).jump (BitVec.ofNat 64 (2 + t.len + t.disp.length))).write a
          ((loaded discriminant s).regs t.modrm.reg)) := by
      rw [effect_wide rfl]
      unfold wideEffect
      rw [ha]
      rfl
    rw [runAll_cons heffect rfl] at hrun
    have hprefix := stores_runAll hrun
    rw [hstores] at hprefix
    obtain ⟨tail, htail⟩ := hprefix
    have hcons := List.append_cancel_left ((List.append_assoc s.stores [_] tail).symm.trans htail)
    exact congrArg Prod.fst (List.cons.inj hcons).1

/-- Base 5 under `mod` 0 means an address relative to the instruction. -/
theorem not_stores_five (h5 : base.id.toNat % 8 = 5) :
    ¬ Stores (enum_bytes base discriminant payload) (enum_quads base discriminant payload) := by
  intro h
  obtain ⟨t, rest, hread, haddr⟩ := first_store_at h
  rw [h5] at hread
  obtain ⟨d, -, ht⟩ := Option.map_eq_some_iff.mp
    (show (takeN 4 _).map _ = some (t, rest) from hread)
  have hplace : t.modrm.place = .rip (Bytes.signed d.1) := by
    rw [← (Prod.mk.inj ht).1]
    rfl
  rw [hplace] at haddr
  have h0 := haddr (idle 0 0) _ rfl
  have h1 := haddr (idle 0 1) _ rfl
  rw [show (idle 0 1).regs = (idle 0 0).regs from rfl, ← h0] at h1
  simp [loaded, State.jump, State.set, idle] at h1

/-- Registers that hold nothing but a one in `rcx`. -/
def counting (n : Nat) : BitVec 64 := if n = 1 then 1 else 0

/-- A wide prefix without `X`, taken for a SIB byte. -/
theorem byte_as_sib (p : Rex) (hw : p.w = true) (hx : p.x = false) :
    p.byte.toNat / 8 % 8 = 1 ∧ p.byte.toNat / 64 = 1 ∧
      ext (p.byte.toNat % 8) p.b ≠ 1 := by
  obtain ⟨w, r, x, b⟩ := p
  cases hw
  cases hx
  cases r <;> cases b <;> decide

/-- Base 4 takes the prefix of the next store for a SIB byte, which asks for `rcx`. -/
theorem not_stores_four (h4 : base.id.toNat % 8 = 4) :
    ¬ Stores (enum_bytes base discriminant payload) (enum_quads base discriminant payload) := by
  intro h
  obtain ⟨t, rest, hread, haddr⟩ := first_store_at h
  rw [h4] at hread
  have hsib : takeSib (headRex base) 0 0 (record_bytes base payload) = some (t, rest) := hread
  have hplace : ∃ b d, t.modrm.place = .mem ⟨b, some (1, 1), d⟩ ∧ b ≠ some 1 := by
    cases payload with
    | nil => cases hsib
    | cons f payload =>
      obtain ⟨hindex, hscale, hbase⟩ := byte_as_sib ⟨true, decide (8 ≤ f.2.id.toNat), false,
        decide (8 ≤ base.id.toNat)⟩ rfl rfl
      have hbytes : record_bytes base (f :: payload) = (fieldRex f.2 base).byte :: 0x89 ::
          (field_operand f.2 base f.1 ++ record_bytes base payload) := by
        unfold record_bytes
        rw [List.flatMap_cons, field_move_eq]
        rfl
      have hsibIndex : sibIndex (fieldRex f.2 base).byte (headRex base).x = some (1, 1) := by
        unfold sibIndex fieldRex
        rw [hindex, hscale]
        rfl
      rw [hbytes] at hsib
      simp only [takeSib] at hsib
      split at hsib
      · obtain ⟨d, -, ht⟩ := Option.map_eq_some_iff.mp hsib
        refine ⟨none, Bytes.signed d.1, ?_, by simp⟩
        rw [← (Prod.mk.inj ht).1, ← hsibIndex]
      · obtain ⟨d, -, ht⟩ := Option.map_eq_some_iff.mp hsib
        refine ⟨some (ext ((fieldRex f.2 base).byte.toNat % 8) (headRex base).b),
          Bytes.signed d.1, ?_, fun hone => hbase (Option.some.inj hone)⟩
        rw [← (Prod.mk.inj ht).1, ← hsibIndex]
  obtain ⟨b, d, hplace, hb⟩ := hplace
  rw [hplace] at haddr
  have hne : base.id.toNat ≠ 1 := by omega
  have h0 := haddr (idle 0 0) _ rfl
  have h1 := haddr (idle counting 0) _ rfl
  have hbase : b.elim 0 (loaded discriminant (idle counting 0)).regs =
      b.elim 0 (loaded discriminant (idle 0 0)).regs := by
    cases b with
    | none => rfl
    | some n =>
      have hn : n ≠ 1 := fun hn => hb (congrArg some hn)
      show (loaded discriminant (idle counting 0)).regs n = (loaded discriminant (idle 0 0)).regs n
      rw [loaded_regs, loaded_regs, Function.update_apply, Function.update_apply]
      show (if n = 0 then _ else counting n) = _
      unfold counting
      rw [if_neg hn]
      rfl
  have hcount : counting base.id.toNat = 0 := if_neg hne
  have h0 : b.elim 0 (loaded discriminant (idle 0 0)).regs + (0 : BitVec 64) <<< 1 +
      ofInt 64 d = 0 := h0
  have h1 : b.elim 0 (loaded discriminant (idle counting 0)).regs + (1 : BitVec 64) <<< 1 +
      ofInt 64 d = 0 := h1.trans hcount
  rw [hbase] at h1
  have heq := h1.trans h0.symm
  rw [add_left_inj, add_right_inj] at heq
  exact absurd heq (by decide)

/-- The discriminant and the payload are stored unless the base is the scratch register
or has no plain ModRM form, or the payload is to come from the scratch register. -/
theorem stores_enum_iff :
    Stores (enum_bytes base discriminant payload) (enum_quads base discriminant payload) ↔
      base ∉ [Reg64.Rax, .Rsp, .R12, .Rbp, .R13] ∧ ∀ f ∈ payload, f.2 ≠ .Rax := by
  have hfive : base.id.toNat % 8 ≠ 4 → base.id.toNat % 8 ≠ 5 → base ≠ .Rax →
      base ∉ [Reg64.Rax, .Rsp, .R12, .Rbp, .R13] := by
    intro h4 h5 hax
    cases base <;> simp_all [Reg64.id]
  constructor
  · intro h
    have h4 : base.id.toNat % 8 ≠ 4 := fun h4 => not_stores_four h4 h
    have h5 : base.id.toNat % 8 ≠ 5 := fun h5 => not_stores_five h5 h
    -- no register holds what `rax` is loaded with
    obtain ⟨s', hs', hstores, -⟩ := h halting (idle (fun _ => discriminant.toBitVec + 1) 0)
    obtain ⟨t', ht', hstores', -⟩ := runs_enum h4 h5 halting
      (idle (fun _ => discriminant.toBitVec + 1) 0)
    rw [hs'] at ht'
    cases ht'
    rw [hstores] at hstores'
    obtain ⟨hhead, htail⟩ := List.cons.inj (List.append_cancel_left hstores')
    have hne : discriminant.toBitVec + 1 ≠ discriminant.toBitVec := by bv_omega
    refine ⟨hfive h4 h5 ?_, fun f hf hax => ?_⟩
    · rintro rfl
      have haddr := congrArg Prod.fst hhead
      exact hne haddr
    · have hmap := List.map_inj_left.mp htail f hf
      have hvalue := congrArg Prod.snd hmap
      dsimp only at hvalue
      rw [hax] at hvalue
      exact hne hvalue
  · rintro ⟨hbase, hpayload⟩ cpu s
    have hdigits : base.id.toNat % 8 ≠ 4 ∧ base.id.toNat % 8 ≠ 5 ∧ base.id.toNat ≠ 0 := by
      cases base <;> simp_all [Reg64.id]
    obtain ⟨h4, h5, h0⟩ := hdigits
    obtain ⟨s', hs', hstores, hmem⟩ := @runs_enum base discriminant payload h4 h5 cpu s
    have hquads : enum_quads base discriminant payload
        (Function.update s.regs 0 discriminant.toBitVec) =
          enum_quads base discriminant payload s.regs := by
      unfold enum_quads record_quads field_address
      rw [Function.update_of_ne h0]
      refine congrArg _ (List.map_congr_left fun f hf => ?_)
      have hf0 : f.2.id.toNat ≠ 0 := by
        have hax := hpayload f hf
        cases hr : f.2 <;> simp_all [Reg64.id]
      rw [Function.update_of_ne hf0]
    rw [hquads] at hstores hmem
    exact ⟨s', hs', hstores, hmem⟩

end

/-! ## Branches -/

/-- What a condition says about the unsigned or signed comparison of two values, or
about their difference. -/
def Cond.holds (x y : BitVec 64) : Cond → Bool
  | .Eq => x == y
  | .Neq => x != y
  | .Lt => x.slt y
  | .Ge => !x.slt y
  | .Le => x.sle y
  | .Gt => !x.sle y
  | .Below => x.ult y
  | .BelowOrEqual => x.ule y
  | .Above => !x.ule y
  | .AboveOrEqual => !x.ult y
  | .Sign => (x - y).msb
  | .NotSign => !(x - y).msb
  | .Overflow => ssubOverflow x y
  | .NotOverflow => !ssubOverflow x y
  | .Parity => evenParity (x - y)
  | .NotParity => !evenParity (x - y)

/-- What the comparison carries of a variant: its low half, extended by sign. -/
def carried (variant : UInt64) : BitVec 64 := (variant.toBitVec.setWidth 32).signExtend 64

/-- Wherever the displacement `d` is patched in, executing the bytes ends `d` bytes
further exactly if the discriminant in `dest` satisfies the condition. -/
def Branches (bs : List UInt8) (patch_offset : Nat) (dest : Reg64) (variant : UInt64)
    (cond : Cond) : Prop :=
  ∀ (d : Int32) (cpu : Processor) (s : State), ∃ s',
    cpu.run (patch bs patch_offset (sle 4 d.toInt)) s = some s' ∧
      s'.rip = s.rip + BitVec.ofNat 64 bs.length +
        if cond.holds (s.regs dest.id.toNat) variant.toBitVec then ofInt 64 d.toInt else 0

section

variable {dest : Reg64} {variant : UInt64} {cond : Cond}

theorem holds_eq (x y : BitVec 64) : cond.holds x y = compares (cond.code.toNat % 16) x y := by
  cases cond <;> simp [Cond.holds, Cond.code, compares, relation, bne]

theorem code_parity : cond.code.toNat % 16 / 2 = 5 ↔ cond = .Parity ∨ cond = .NotParity := by
  cases cond <;> simp [Cond.code]

theorem carried_eq : ofInt 64 (Bytes.signed (low 4 variant.toInt64)) = carried variant := by
  have hwide : variant.toInt64.toInt = (variant.toBitVec.toNat : Int).bmod (2 ^ 64) := by
    exact BitVec.toInt_eq_toNat_bmod _
  have hlow : (variant.toBitVec.setWidth 32).toInt = (variant.toBitVec.toNat : Int).bmod (2 ^ 32) := by
    rw [BitVec.toInt_eq_toNat_bmod, BitVec.toNat_setWidth, Int.natCast_mod, Int.emod_bmod]
  unfold carried low BitVec.signExtend
  rw [Bytes.signed_sle, hwide, hlow, Int.bmod_bmod_of_dvd (by decide)]
  rfl

/-- The comparison with the discriminant. -/
def compare_bytes (dest : Reg64) (variant : UInt64) : List UInt8 :=
  [rex true false false (high dest.id), 0x81, (0xF8 : UInt8) ||| (dest.id &&& 7)] ++
    low 4 variant.toInt64

/-- The comparison, and a branch over `d`. -/
def branch_bytes (dest : Reg64) (variant : UInt64) (cond : Cond) (d : Int) : List UInt8 :=
  (compare_bytes dest variant ++ [0x0F, cond.code]) ++ sle 4 d

variable (d : Int)

theorem length_branch_bytes : (branch_bytes dest variant cond d).length = 13 := by
  simp [branch_bytes, compare_bytes]

theorem emit_match_arm_branch_eq : emit_match_arm_branch dest variant cond =
    ⟨branch_bytes dest variant cond 0, .ok 9⟩ := by
  have hzero : [0x0F, cond.code, 0, 0, 0, 0] = [0x0F, cond.code] ++ sle 4 0 := rfl
  unfold emit_match_arm_branch branch_bytes
  rw [hzero, List.append_assoc]
  refine Emit.bind_ok_iff.mpr ⟨_, (), _, rfl, ?_, rfl⟩
  refine Emit.bind_ok_iff.mpr ⟨_, (), [], rfl, ?_, (List.append_nil _).symm⟩
  simp

theorem patched_branch : patch (branch_bytes dest variant cond 0) 9 (sle 4 d) =
    branch_bytes dest variant cond d := by
  have hlen : (compare_bytes dest variant ++ [0x0F, cond.code]).length = 9 := by
    simp [compare_bytes]
  have hpatch := Bytes.patch_append (compare_bytes dest variant ++ [0x0F, cond.code])
    (sle 4 0) [] (sle 4 d) (by simp)
  rw [hlen, List.append_nil, List.append_nil] at hpatch
  exact hpatch

/-- The same as an instruction form. -/
def compareForm (dest : Reg64) (variant : UInt64) : Form :=
  form [] .wide .one 0x81 (.rm 7 (.reg dest.id.toNat)) (low 4 variant.toInt64)

theorem compareForm_bytes : (compareForm dest variant).bytes = compare_bytes dest variant := by
  have hform := op_reg_form [] .wide .one 0x81 7 dest.id (low 4 variant.toInt64)
  rw [num_id, show num 7 = 7 from by decide] at hform
  unfold compareForm compare_bytes
  rw [← hform]
  rfl

theorem relForm_bytes : (relForm .two cond.code d).bytes = [0x0F, cond.code] ++ sle 4 d := by
  simp [relForm, Form.bytes, Form.front, Form.rex, Form.opByte, Arg.opByte, Arg.r, Arg.x, Arg.b,
    Arg.lead, Arg.dispBytes, opBytes]

theorem disassemble_branch : disassemble .long (branch_bytes dest variant cond d) =
    some [(compareForm dest variant).insn .long, (relForm .two cond.code d).insn .long] := by
  have hcompare : (compareForm dest variant).Fits .long := by
    refine fits_rm ?_ (by decide) dest.id_lt
    rw [length_low]
    rfl
  have hrel : (relForm .two cond.code d).Fits .long := by
    refine ⟨?_, trivial, fun h => by cases h⟩
    show tableOk .long [] false .two cond.code false 0 (sle 4 d).length = true
    rw [Bytes.length_sle]
    cases cond <;> rfl
  have hfits : ∀ f ∈ [compareForm dest variant, relForm .two cond.code d], f.Fits .long := by
    intro f hf
    rcases List.mem_cons.mp hf with rfl | hf
    · exact hcompare
    · rwa [List.mem_singleton.mp hf]
  have hall := disassemble_forms hfits
  rw [List.flatMap_cons, List.flatMap_cons, List.flatMap_nil, List.append_nil, compareForm_bytes,
    relForm_bytes, ← List.append_assoc] at hall
  exact hall

theorem runs_branch (d : Int32) (cpu : Processor) (s : State) : ∃ s',
    cpu.run (branch_bytes dest variant cond d.toInt) s = some s' ∧
      s'.rip = s.rip + BitVec.ofNat 64 13 +
        if cond.holds (s.regs dest.id.toNat) (carried variant) then ofInt 64 d.toInt else 0 := by
  have hcompare : ∀ t : State, ((compareForm dest variant).insn .long).effect t =
      some { t with flags := .difference (t.regs dest.id.toNat) (carried variant) } := by
    intro t
    rw [← carried_eq]
    have heffect : ((compareForm dest variant).insn .long).effect t =
        wideEffect 0x81 7 (.reg dest.id.toNat) (low 4 variant.toInt64) t := effect_wide rfl t
    rw [heffect]
    rfl
  have hjump : ∀ t : State, ((relForm .two cond.code d.toInt).insn .long).effect t =
      some (if t.flags.test (cond.code.toNat % 16) then t.jump (ofInt 64 d.toInt) else t) := by
    intro t
    have hcode : cond.code.toNat / 16 = 8 := by cases cond <;> rfl
    have heffect : ((relForm .two cond.code d.toInt).insn .long).effect t =
        if cond.code.toNat / 16 = 8 then
          some (if t.flags.test (cond.code.toNat % 16) then
            t.jump (ofInt 64 (Bytes.signed (sle 4 d.toInt))) else t)
        else none := rfl
    rw [heffect, if_pos hcode, signed_disp32 d.le_toInt d.toInt_lt]
  have hsizes : ((compareForm dest variant).insn .long).size = 7 ∧
      ((relForm .two cond.code d.toInt).insn .long).size = 6 := by
    rw [Form.insn_size, Form.insn_size, compareForm_bytes, relForm_bytes]
    simp [compare_bytes]
  obtain ⟨hsize, hsize'⟩ := hsizes
  rw [run_eq (disassemble_branch _), runAll_next hcompare (fun _ => rfl), runAll_last hjump, hsize,
    hsize']
  refine ⟨_, rfl, ?_⟩
  rw [holds_eq, ← difference_test]
  have hrip : s.rip + BitVec.ofNat 64 7 + BitVec.ofNat 64 6 = s.rip + BitVec.ofNat 64 13 := by
    rw [add_assoc]
    rfl
  show State.rip (if (Flags.difference (s.regs dest.id.toNat) (carried variant)).test _ = true then
    _ else _) = _
  split
  · rw [← hrip]
    rfl
  · rw [← hrip, add_zero]
    rfl

/-- The branch is right for every variant that the comparison carries in full, and the
parity is that of the low byte in any case. -/
theorem branches_iff : Branches (branch_bytes dest variant cond 0) 9 dest variant cond ↔
    carried variant = variant.toBitVec ∨ cond = .Parity ∨ cond = .NotParity := by
  have hrun := @runs_branch dest variant cond
  unfold Branches
  simp only [patched_branch, length_branch_bytes]
  constructor
  · intro h
    by_contra hbad
    rw [not_or, ← code_parity] at hbad
    obtain ⟨x, hx⟩ := exists_compares_ne hbad.1 hbad.2
    obtain ⟨s', hs', hrip⟩ := h 1 halting (idle (fun _ => x) 0)
    obtain ⟨t', ht', hrip'⟩ := hrun 1 halting (idle (fun _ => x) 0)
    rw [hs'] at ht'
    cases ht'
    rw [hrip, add_right_inj, holds_eq, holds_eq] at hrip'
    apply hx
    revert hrip'
    show (if compares _ x _ then (1 : BitVec 64) else 0) = (if compares _ x _ then 1 else 0) → _
    cases compares (cond.code.toNat % 16) x (carried variant) <;>
      cases compares (cond.code.toNat % 16) x variant.toBitVec <;> decide
  · intro hgood d cpu s
    have hsame : cond.holds (s.regs dest.id.toNat) variant.toBitVec =
        cond.holds (s.regs dest.id.toNat) (carried variant) := by
      rcases hgood with hcarried | hparity
      · rw [hcarried]
      · have hlow : variant.toBitVec.setWidth 8 = (carried variant).setWidth 8 := by
          unfold carried
          apply BitVec.eq_of_getLsbD_eq
          intro i hi
          have h32 : i < 32 := by omega
          have h64 : i < 64 := by omega
          rw [getLsbD_setWidth, getLsbD_setWidth, BitVec.getLsbD_signExtend, getLsbD_setWidth]
          simp [hi, h32, h64]
        have heven := @evenParity_sub (s.regs dest.id.toNat) _ _ hlow
        rcases hparity with rfl | rfl
        · exact heven
        · exact congrArg (fun b => !b) heven
    rw [hsame]
    exact hrun d cpu s

end

/-- The bases that a ModRM byte alone cannot name under a displacement. -/
theorem stack_like {base : Reg64} : base ∈ [Reg64.Rsp, .R12] ↔ base.id.toNat % 8 = 4 := by
  cases base <;> simp [Reg64.id]

/-- When the fragments do what they are for: stores and loads reach their fields on
every base but `rsp` and `r12`; a discriminant also keeps off `rbp`, `r13` and the
scratch register, which may be no part of the payload; and a branch is for variants
that the comparison carries, or about the parity. -/
theorem fragments_iff (base : Reg64) :
    (∀ fields, (∃ bs, emit_record_cons base (wide_stores fields) = ⟨bs, .ok ()⟩ ∧
        Stores bs (record_quads base fields)) ↔ fields = [] ∨ base ∉ [Reg64.Rsp, .R12]) ∧
      (∀ dest offset, (∃ bs, emit_field_access dest base offset 8 = ⟨bs, .ok ()⟩ ∧
        Loads bs dest base offset) ↔ base ∉ [Reg64.Rsp, .R12]) ∧
      (∀ discriminant payload,
        (∃ bs, emit_enum_cons base discriminant (wide_stores payload) = ⟨bs, .ok ()⟩ ∧
          Stores bs (enum_quads base discriminant payload)) ↔
            base ∉ [Reg64.Rax, .Rsp, .R12, .Rbp, .R13] ∧ ∀ f ∈ payload, f.2 ≠ .Rax) ∧
      ∀ dest variant cond,
        (∃ bs patch_offset, emit_match_arm_branch dest variant cond = ⟨bs, .ok patch_offset⟩ ∧
          Branches bs patch_offset dest variant cond) ↔
            carried variant = variant.toBitVec ∨ cond = .Parity ∨ cond = .NotParity := by
  refine ⟨fun fields => ?_, fun dest offset => ?_, fun discriminant payload => ?_,
    fun dest variant cond => ?_⟩
  · rw [emit_record_cons_eq, stack_like, ← ne_eq, ← stores_record_iff]
    exact ⟨fun ⟨_, heq, h⟩ => by cases heq; exact h, fun h => ⟨_, rfl, h⟩⟩
  · have haccess : emit_field_access dest base offset 8 =
        ⟨field_move 0x8B dest base offset, .ok ()⟩ := if_pos rfl
    rw [haccess, stack_like, ← ne_eq, ← @loads_field_iff dest base offset]
    exact ⟨fun ⟨_, heq, h⟩ => by cases heq; exact h, fun h => ⟨_, rfl, h⟩⟩
  · rw [emit_enum_cons_eq, ← @stores_enum_iff base discriminant payload]
    exact ⟨fun ⟨_, heq, h⟩ => by cases heq; exact h, fun h => ⟨_, rfl, h⟩⟩
  · rw [emit_match_arm_branch_eq, ← @branches_iff dest variant cond]
    exact ⟨fun ⟨_, _, heq, h⟩ => by cases heq; exact h, fun h => ⟨_, _, rfl, h⟩⟩

/-- A field of a record on the stack is not stored, an enumeration under construction
in `rax` overwrites its own address, and the variant 2^32 is taken for 0. -/
theorem fragments_lose_operands :
    disassemble .long (record_bytes .Rsp [(8, .Rax)]) = none ∧
      ¬ Stores (record_bytes .Rsp [(8, .Rax)]) (record_quads .Rsp [(8, .Rax)]) ∧
      ¬ Loads (field_move 0x8B .Rax .Rsp 8) .Rax .Rsp 8 ∧
      ¬ Stores (enum_bytes .Rax 1 []) (enum_quads .Rax 1 []) ∧
      ¬ Branches (branch_bytes .Rax 0x100000000 .Eq 0) 9 .Rax 0x100000000 .Eq := by
  refine ⟨by decide, ?_, ?_, ?_, ?_⟩
  · rw [stores_record_iff]
    decide
  · rw [loads_field_iff]
    decide
  · rw [stores_enum_iff]
    simp
  · rw [branches_iff]
    decide

end paideia_as_encoder
