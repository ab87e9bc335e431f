-- What a refused instruction leaves in the buffer: encoders check their operands before
-- they push the first byte. Two do not: `lea` of a symbol checks the addend last, and a
-- segment prefix is pushed before the rest of the instruction is looked at.
import PaideiaAs.Encoder.EncodeInstruction

namespace paideia_as_encoder

open paideia_as_runtime
open Except (error)

namespace Emit

variable {α β : Type}

/-- The call on a buffer: the buffer after it, and its result. -/
def run (x : Emit α) (buf : List UInt8) : List UInt8 × Except Stop α :=
  (buf ++ x.bytes, x.result)

/-- The call does not return `Err`. -/
def Accepts (x : Emit α) : Prop := ∀ e, x.result ≠ .error (.err e)

/-- Whenever the call returns `Err`, the buffer is what it was. -/
def AllOrNothing (x : Emit α) : Prop :=
  ∀ buf e, (x.run buf).2 = .error (.err e) → (x.run buf).1 = buf

/-- The call checks `p` before it pushes a byte. -/
abbrev Checks (x : Emit α) (p : Prop) : Prop := x.AllOrNothing ∧ (x.Accepts ↔ p)

@[simp] theorem checks_iff (x : Emit α) (p : Prop) :
    x.Checks p ↔ x.AllOrNothing ∧ (x.Accepts ↔ p) :=
  Iff.rfl

/-! ## Small calls and sequences -/

variable {x : Emit α} {f : α → Emit β} {p : Prop}

theorem allOrNothing_iff : x.AllOrNothing ↔ x.Accepts ∨ x.bytes = [] := by
  unfold AllOrNothing Accepts run
  refine ⟨fun h => ?_, ?_⟩
  · by_cases he : ∃ e, x.result = .error (.err e)
    · obtain ⟨e, he⟩ := he
      exact .inr (by simpa using h [] e he)
    · exact .inl fun e hx => he ⟨e, hx⟩
  · rintro (h | h) buf e he
    · exact absurd he (h e)
    · simp [h]

@[simp] theorem accepts_push (bs : List UInt8) : (push bs).Accepts := nofun

@[simp] theorem accepts_pure (a : α) : (pure a : Emit α).Accepts := nofun

@[simp] theorem accepts_unreachable (msg : String) : (unreachable msg : Emit α).Accepts := nofun

theorem nil_ok_bind (a : α) (f : α → Emit β) : ((⟨[], .ok a⟩ : Emit α) >>= f) = f a := rfl

theorem Accepts.allOrNothing (h : x.Accepts) : x.AllOrNothing := by
  intro buf e he
  exact absurd he (h e)

theorem Accepts.bind (hx : x.Accepts) (hf : ∀ a, (f a).Accepts) : (x >>= f).Accepts := by
  rcases x with ⟨bs, stop | a⟩
  · intro e he
    have hstop : stop = .err e := error.inj he
    exact hx e (congrArg error hstop)
  · exact hf a

@[simp] theorem allOrNothing_push (bs : List UInt8) : (push bs).AllOrNothing :=
  allOrNothing_iff.mpr (.inl (accepts_push bs))

@[simp] theorem allOrNothing_fail (e : EncodeError) : (fail e : Emit α).AllOrNothing :=
  allOrNothing_iff.mpr (.inr rfl)

@[simp] theorem allOrNothing_unreachable (msg : String) : (unreachable msg : Emit α).AllOrNothing :=
  allOrNothing_iff.mpr (.inr rfl)

@[simp] theorem allOrNothing_ite {c : Prop} [Decidable c] {y : Emit α} :
    (if c then x else y).AllOrNothing ↔ (c → x.AllOrNothing) ∧ (¬c → y.AllOrNothing) := by
  split_ifs with h <;> simp [h]

theorem allOrNothing_after_check (hx : x.bytes = [])
    (hf : ∀ a, (f a).AllOrNothing) : (x >>= f).AllOrNothing := by
  rcases x with ⟨bs, e | a⟩
  · exact allOrNothing_iff.mpr (.inr hx)
  · obtain rfl : bs = [] := hx
    exact hf a

/-- What cannot be refused may stand after anything. -/
theorem AllOrNothing.bind (hx : x.AllOrNothing)
    (hf : ∀ a, (f a).Accepts) : (x >>= f).AllOrNothing := by
  rcases allOrNothing_iff.mp hx with hx | hx
  · exact allOrNothing_iff.mpr (.inl (hx.bind hf))
  · apply allOrNothing_after_check hx
    intro a
    exact allOrNothing_iff.mpr (.inl (hf a))

@[simp] theorem allOrNothing_push_bind {bs : List UInt8} {f : Unit → Emit β} (hf : (f ()).Accepts) :
    (push bs >>= f).AllOrNothing :=
  (allOrNothing_push bs).bind fun _ => hf

theorem Accepts.plain {x : Emit Unit} (h : x.Accepts) : (plain x).Accepts :=
  h.bind fun _ => accepts_pure _

theorem Accepts.checks (h : x.Accepts) (hp : p) : x.Checks p :=
  ⟨h.allOrNothing, iff_of_true h hp⟩

theorem fail_checks {e : EncodeError} (hp : ¬p) : (fail e : Emit α).Checks p :=
  ⟨allOrNothing_fail e, iff_of_false (fun h => h e rfl) hp⟩

theorem Checks.congr {q : Prop} (h : x.Checks p) (hpq : p ↔ q) : x.Checks q :=
  ⟨h.1, h.2.trans hpq⟩

end Emit

open Emit

/-! ## The checks -/

section

variable {α : Type}

theorem reg64_from_bytes (id : RegId) : (reg64_from id).bytes = [] := by
  unfold reg64_from
  split <;> rfl

theorem allOrNothing_reg64_from {id : RegId} {f : Reg64 → Emit α}
    (hf : ∀ r, (f r).AllOrNothing) : (reg64_from id >>= f).AllOrNothing :=
  allOrNothing_after_check (reg64_from_bytes id) hf

@[simp] theorem allOrNothing_reg64_from_iff {id : RegId} {f : Reg64 → Emit α} :
    (reg64_from id >>= f).AllOrNothing ↔ ∀ r, reg64_from id = pure r → (f r).AllOrNothing := by
  have hbytes := reg64_from_bytes id
  rcases hres : reg64_from id with ⟨bs, e | r⟩
  · rw [hres] at hbytes
    exact iff_of_true (allOrNothing_iff.mpr (.inr hbytes)) nofun
  · rw [hres] at hbytes
    obtain rfl : bs = [] := hbytes
    refine ⟨fun h r' hr => ?_, fun h => h r rfl⟩
    cases hr
    exact h

theorem xmm_operand_bytes (mnemonic : Mnemonic) (r : RegId) :
    (xmm_operand mnemonic r).bytes = [] := by
  unfold xmm_operand
  split <;> rfl

theorem gpr_operand_bytes (mnemonic : Mnemonic) (r : RegId) :
    (gpr_operand mnemonic r).bytes = [] := by
  unfold gpr_operand
  split <;> rfl

@[simp] theorem allOrNothing_xmm_operand {mnemonic : Mnemonic} {r : RegId} {f : UInt8 → Emit α}
    (hf : ∀ x, (f x).AllOrNothing) : (xmm_operand mnemonic r >>= f).AllOrNothing :=
  allOrNothing_after_check (xmm_operand_bytes mnemonic r) hf

@[simp] theorem allOrNothing_gpr_operand {mnemonic : Mnemonic} {r : RegId} {f : UInt8 → Emit α}
    (hf : ∀ x, (f x).AllOrNothing) : (gpr_operand mnemonic r >>= f).AllOrNothing :=
  allOrNothing_after_check (gpr_operand_bytes mnemonic r) hf

variable (x : Emit Unit)

@[simp] theorem accepts_plain_iff : (plain x).Accepts ↔ x.Accepts := by
  refine ⟨fun h e he => ?_, Accepts.plain⟩
  rcases x with ⟨bs, stop | u⟩
  · exact h e (congrArg _ (error.inj he))
  · cases he

@[simp] theorem allOrNothing_plain_iff : (plain x).AllOrNothing ↔ x.AllOrNothing := by
  have hbytes : (plain x).bytes = x.bytes := by
    rcases x with ⟨bs, stop | a⟩
    · rfl
    · exact List.append_nil bs
  rw [allOrNothing_iff, allOrNothing_iff, accepts_plain_iff, hbytes]

theorem checks_plain_iff (p : Prop) : (plain x).Checks p ↔ x.Checks p :=
  and_congr (allOrNothing_plain_iff x) (iff_congr (accepts_plain_iff x) Iff.rfl)

@[simp] theorem allOrNothing_sited (bs : List UInt8) (out : EncodeOutput) :
    (sited bs out).AllOrNothing :=
  (allOrNothing_push bs).bind fun _ => accepts_pure _

/-- Staging fails before it pushes, and what follows it is not refused. -/
theorem allOrNothing_stage {operand_reg : Reg64} {imm : Int64} {msg : String}
    {f : Reg64 → List UInt8} :
    (stage_imm64_r11 operand_reg imm msg >>= fun scratch => push (f scratch)).AllOrNothing := by
  apply AllOrNothing.bind
  · unfold stage_imm64_r11
    split
    · exact allOrNothing_fail _
    · exact (allOrNothing_push _).bind fun _ => accepts_pure _
  · exact fun r => accepts_push _

end

/-! ## Vector registers -/

/-- A vector register of another class is a panic, not an `Err`. -/
theorem accepts_ymm_id (reg_id : UInt8) (msg : String) : (ymm_id reg_id msg).Accepts := by
  unfold ymm_id
  split <;> simp

variable (opcode : UInt8)

theorem accepts_vex_reg_reg_reg (name : String) (dst src1 src2 : UInt8) :
    (vex_reg_reg_reg opcode name dst src1 src2).Accepts := by
  unfold vex_reg_reg_reg
  apply (accepts_ymm_id _ _).bind
  intro d
  apply (accepts_ymm_id _ _).bind
  intro s1
  apply (accepts_ymm_id _ _).bind
  intro s2
  exact accepts_push _

theorem accepts_vpmovmskb (dst src : UInt8) : (encode_vpmovmskb_reg32_ymm dst src).Accepts := by
  unfold encode_vpmovmskb_reg32_ymm
  split
  · exact accepts_unreachable _
  · exact (accepts_ymm_id _ _).bind fun _ => accepts_push _

theorem accepts_vmovdqu_ymm_ymm (dst src : UInt8) : (encode_vmovdqu_ymm_ymm dst src).Accepts := by
  unfold encode_vmovdqu_ymm_ymm
  exact (accepts_ymm_id _ _).bind fun _ => (accepts_ymm_id _ _).bind fun _ => accepts_push _

theorem accepts_vmovdqu_mem (msg : String) (ymm base : UInt8) (disp : Int32) :
    (vmovdqu_mem opcode msg ymm base disp).Accepts := by
  unfold vmovdqu_mem
  exact (accepts_ymm_id _ _).bind fun _ => accepts_push _

theorem accepts_vmovdqu_riprel (msg : String) (ymm : UInt8) (disp : Int32) :
    (vmovdqu_riprel opcode msg ymm disp).Accepts := by
  unfold vmovdqu_riprel
  exact (accepts_ymm_id _ _).bind fun _ => (accepts_push _).bind fun _ => accepts_pure _

/-! ## Symbols of `lea` -/

/-- The addend of the symbol leaves the range of an `i32` once it is biased. -/
def AddendTooLow (addend : Int32) : Prop := addend.toInt + PC32_FIELD_BIAS.toInt < -2147483648

instance (addend : Int32) : Decidable (AddendTooLow addend) := by
  unfold AddendTooLow
  exact inferInstance

theorem biased_not_high (addend : Int32) : ¬ 2147483647 < addend.toInt + PC32_FIELD_BIAS.toInt := by
  have hbias : PC32_FIELD_BIAS.toInt = -4 := by decide
  have hlt := addend.toInt_lt
  omega

theorem reg64_from_of_lt {id : RegId} (h : id.num < 16) :
    ∃ r, r.id = id.num ∧ reg64_from id = ⟨[], .ok r⟩ := by
  have hall : ∀ k < 16, ∃ r : Reg64, r ∈ Reg64.all ∧ r.id.toNat = k := by decide
  obtain ⟨r, -, hid⟩ := hall id.num.toNat h
  have hr : r.id = id.num := UInt8.toNat_inj.mp hid
  exact ⟨r, hr, reg64_from_ok_iff.mpr ⟨rfl, hr.symm⟩⟩

theorem reg64_from_of_le {id : RegId} (h : ¬ id.num < 16) :
    reg64_from id = fail (.Unsupported "invalid register id") := by
  unfold reg64_from
  split
  · rename_i r hr
    have hid : r.id = id.num := by simpa using List.find?_some hr
    rw [← hid] at h
    exact absurd r.id_lt h
  · rfl

/-- The bytes of the RIP-relative form are there before the addend is looked
at. -/
theorem allOrNothing_lea_rip_iff (dest : RegId) (name : String) (addend : Int32) :
    (lea_rip dest name addend).AllOrNothing ↔ ¬ (dest.num < 16 ∧ AddendTooLow addend) := by
  have hhi := biased_not_high addend
  unfold lea_rip
  by_cases hlt : dest.num < 16
  · obtain ⟨r, -, hr⟩ := reg64_from_of_lt hlt
    rw [hr, nil_ok_bind]
    by_cases hlow : AddendTooLow addend
    · refine iff_of_false ?_ fun h => h ⟨hlt, hlow⟩
      have hif : addend.toInt + PC32_FIELD_BIAS.toInt < -2147483648 ∨
        2147483647 < addend.toInt + PC32_FIELD_BIAS.toInt := .inl hlow
      simp only [if_pos hif]
      intro h
      cases h [] _ rfl
    · refine iff_of_true ?_ fun h => hlow h.2
      have hif : ¬ (addend.toInt + PC32_FIELD_BIAS.toInt < -2147483648 ∨
        2147483647 < addend.toInt + PC32_FIELD_BIAS.toInt) := fun h => h.elim hlow hhi
      simp only [if_neg hif]
      exact (allOrNothing_push _).bind fun _ => accepts_pure _
  · rw [reg64_from_of_le hlt]
    exact iff_of_true (allOrNothing_iff.mpr (.inr rfl)) fun h => hlt h.1

/-- Where `lea` checks the addend after it has pushed its bytes. -/
def LeaTooLow (inst : Instruction) : Prop :=
  match inst.operands with
  | [.Reg dest, .SymbolRef _ addend] =>
    inst.mode = .Mode64 ∧ dest.num < 16 ∧ AddendTooLow addend
  | [.Reg dest, .MemRipRelSym _ addend] => dest.num < 16 ∧ AddendTooLow addend
  | _ => False

theorem allOrNothing_lea_iff {inst : Instruction} :
    (encode_lea inst).AllOrNothing ↔ ¬ LeaTooLow inst := by
  unfold encode_lea LeaTooLow
  split
  · rename_i heq
    rw [heq]
    exact iff_of_true ((allOrNothing_plain_iff _).mpr (by simp)) id
  · rename_i heq
    rw [heq]
    exact iff_of_true ((allOrNothing_plain_iff _).mpr (by simp)) id
  · rename_i heq
    rw [heq]
    rcases hmode : inst.mode with _ | _
    · simpa using allOrNothing_lea_rip_iff _ _ _
    · exact iff_of_true (by simp) fun h => nomatch h.1
  · rename_i heq
    rw [heq]
    exact allOrNothing_lea_rip_iff _ _ _
  · rename_i hsym hrip
    refine iff_of_true (allOrNothing_fail _) ?_
    split
    · rename_i heq
      exact absurd heq (hsym _ _ _)
    · rename_i heq
      exact absurd heq (hrip _ _ _)
    · exact id

theorem allOrNothing_behind_iff {α β : Type} {bs : List UInt8} (hbs : bs ≠ []) (x : Emit α)
    (f : α → β) :
    (push bs >>= fun _ => x >>= fun a => pure (f a) : Emit β).AllOrNothing ↔ x.Accepts := by
  have hbind : ∀ e, (push bs >>= fun _ => x >>= fun a => pure (f a) : Emit β).result =
      .error (.err e) ↔ x.result = .error (.err e) := by
    intro e
    rcases x with ⟨ys, stop | a⟩
    · exact ⟨fun h => congrArg _ (error.inj h), fun h => congrArg _ (error.inj h)⟩
    · exact ⟨nofun, nofun⟩
  have hbytes : (push bs >>= fun _ => x >>= fun a => pure (f a) : Emit β).bytes ≠ [] := by
    intro h
    exact hbs (List.append_eq_nil_iff.mp h).1
  rw [allOrNothing_iff]
  refine ⟨fun h => ?_, fun h => .inl fun e he => h e ((hbind e).mp he)⟩
  rcases h with h | h
  · exact fun e he => h e ((hbind e).mpr he)
  · exact absurd h hbytes

/-- The operands without the first segment prefix, if there is one. -/
def underPrefix (operands : List Operand) : Option (List Operand) :=
  (find_mem_seg operands).map fun (idx, _, inner) => operands.set idx inner

end paideia_as_encoder
