-- How many bytes the encoder writes, told from the operands alone. Where the
-- REX prefix is optional the count depends on the registers, and a few
-- mnemonics have a shorter form for the accumulator.
import PaideiaAs.Encoder.Accepted
import PaideiaAs.Encoder.Forms

namespace paideia_as_encoder

open paideia_as_runtime Emit
open List (length_append length_cons length_nil)

/-! ## Parts of an instruction -/

/-- The prefix, where an extended register is named or not. -/
def RexUse.len (u : RexUse) (extended : Bool) : Nat :=
  match u with
  | .need => extended.toNat
  | _ => 1

open RexUse (len)

/-- ModRM, SIB and displacement of `[base + disp]`. -/
def memLen (base : UInt8) (disp : Int32) : Nat :=
  1 + (if base &&& 7 = 4 then 1 else 0) + (disp_mode (base &&& 7) disp).2

/-- ModRM, SIB and displacement of `[base + index*scale + disp]`. -/
def sibLen (base : UInt8) (disp : Int32) : Nat := 2 + (disp_mode (base &&& 7) disp).2

/-- ModRM and displacement of the address written without a SIB byte. -/
def bareLen (disp : Int32) : Nat :=
  if disp.toInt = 0 then 1 else if -128 ≤ disp.toInt ∧ disp.toInt ≤ 127 then 2 else 5

section

variable (pre : List UInt8) (u : RexUse) (op imm : List UInt8) (reg rm base index sc : UInt8)
  (disp : Int32)

@[simp] theorem high_digit {d : UInt8} (h : d < 8) : high d = false := by
  rw [high_eq, decide_eq_false_iff_not, Nat.not_le]
  exact h

@[simp] theorem length_rex_bytes (r x b : Bool) : (u.bytes r x b).length = u.len (r || x || b) := by
  cases u <;> cases r <;> cases x <;> cases b <;> rfl

theorem length_emit_mem_base_disp :
    (emit_mem_base_disp reg base disp).length = memLen base disp := by
  unfold emit_mem_base_disp memLen
  simp only [length_append, Bytes.length_sle]
  split_ifs <;> rfl

theorem length_emit_mem_sib_disp :
    (emit_mem_sib_disp reg base index sc disp).length = sibLen base disp := by
  unfold emit_mem_sib_disp sibLen
  simp only [length_append, Bytes.length_sle]
  rfl

@[simp] theorem length_i32_le : (i32_le disp).length = 4 := Bytes.length_sle _ _

@[simp] theorem length_op_reg : (op_reg pre u op reg rm imm).length =
    pre.length + u.len (high reg || high rm) + op.length + 1 + imm.length := by
  unfold op_reg
  simp only [length_append, length_cons, length_nil, length_rex_bytes, Bool.or_false]

@[simp] theorem length_op_base : (op_base pre u op reg base disp imm).length =
    pre.length + u.len (high reg || high base) + op.length + memLen base disp + imm.length := by
  unfold op_base
  simp only [length_append, length_rex_bytes, Bool.or_false, length_emit_mem_base_disp]

@[simp] theorem length_op_sib : (op_sib pre u op reg base index sc disp imm).length =
    pre.length + u.len (high reg || high index || high base) + op.length + sibLen base disp +
      imm.length := by
  unfold op_sib
  simp only [length_append, length_rex_bytes, length_emit_mem_sib_disp]

@[simp] theorem length_op_rip : (op_rip pre u op reg disp imm).length =
    pre.length + u.len (high reg) + op.length + 5 + imm.length := by
  unfold op_rip
  simp only [length_append, length_cons, length_nil, length_rex_bytes, Bool.or_false, length_i32_le]

@[simp] theorem length_op_abs : (op_abs pre u op reg disp imm).length =
    pre.length + u.len (high reg) + op.length + 6 + imm.length := by
  unfold op_abs
  simp only [length_append, length_cons, length_nil, length_rex_bytes, Bool.or_false, length_i32_le]

@[simp] theorem length_op_plus (o : UInt8) : (op_plus pre u o reg imm).length =
    pre.length + u.len (high reg) + 1 + imm.length := by
  unfold op_plus
  simp only [length_append, length_cons, length_nil, length_rex_bytes, Bool.false_or]

@[simp] theorem length_rotate_imm8 (count : Int64) : (rotate_imm8 pre u reg rm count).length =
      pre.length + u.len (high reg || high rm) + if count.toInt = 1 then 2 else 3 := by
  unfold rotate_imm8
  split_ifs <;> simp [Nat.add_assoc]

@[simp] theorem length_bare_mem : (bare_mem reg base disp).length = bareLen disp := by
  unfold bare_mem bareLen
  split_ifs <;> simp

end

/-! ## What a call yields -/

/-- The number where the condition holds. -/
def sized (c : Bool) (n : Nat) : Option Nat := if c then some n else none

@[simp] theorem sized_eq_some {c : Bool} {n m : Nat} : sized c n = some m ↔ c = true ∧ n = m := by
  unfold sized
  split_ifs <;> simp_all

theorem size_of {c : Bool} {n m : Nat} (h : sized c n = some m) : n = m := (sized_eq_some.mp h).2

namespace Emit

variable {α β : Type}

/-- The call succeeds with this many bytes. -/
def Yields (x : Emit α) (n : Nat) : Prop := (∃ a, x.result = .ok a) ∧ x.bytes.length = n

@[simp] theorem yields_push (bs : List UInt8) (n : Nat) : (push bs).Yields n ↔ bs.length = n :=
  ⟨And.right, fun h => ⟨⟨(), rfl⟩, h⟩⟩

@[simp] theorem yields_pure (a : α) (n : Nat) : (pure a : Emit α).Yields n ↔ n = 0 :=
  ⟨fun h => h.2.symm, fun h => ⟨⟨a, rfl⟩, h.symm⟩⟩

@[simp] theorem yields_fail (e : EncodeError) (n : Nat) : (fail e : Emit α).Yields n ↔ False :=
  iff_of_false (fun h => nomatch h.1) id

@[simp] theorem yields_unreachable (msg : String) (n : Nat) :
    (unreachable msg : Emit α).Yields n ↔ False :=
  iff_of_false (fun h => nomatch h.1) id

theorem yields_ite (c : Prop) [Decidable c] (x y : Emit α) (n : Nat) :
    (if c then x else y).Yields n ↔ if c then x.Yields n else y.Yields n := by
  split_ifs <;> rfl

theorem yields_bind (x : Emit α) (f : α → Emit β) (n : Nat) : (x >>= f).Yields n ↔
    ∃ a, x.result = .ok a ∧ ∃ m, (f a).Yields m ∧ x.bytes.length + m = n := by
  rcases x with ⟨bs, stop | a⟩
  · exact iff_of_false (fun h => nomatch h.1) fun ⟨a, h, _⟩ => nomatch h
  · refine ⟨fun ⟨hr, hn⟩ => ⟨a, rfl, _, ⟨hr, rfl⟩, ?_⟩, ?_⟩
    · rw [← hn]
      exact (length_append).symm
    · rintro ⟨b, hb, m, ⟨hr, hm⟩, hn⟩
      obtain rfl := Except.ok.inj hb
      refine ⟨hr, ?_⟩
      rw [← hn, ← hm]
      exact length_append

@[simp] theorem yields_push_bind (bs : List UInt8) (f : Unit → Emit β) (n : Nat) :
    (push bs >>= f).Yields n ↔ ∃ m, (f ()).Yields m ∧ bs.length + m = n := by
  rw [yields_bind]
  exact ⟨fun ⟨_, _, h⟩ => h, fun h => ⟨(), rfl, h⟩⟩

theorem yields_bind_pure (x : Emit α) (f : α → β) (n : Nat) :
    (x >>= fun a => pure (f a)).Yields n ↔ x.Yields n := by
  rw [yields_bind]
  simp only [yields_pure, exists_eq_left, Nat.add_zero]
  exact ⟨fun ⟨a, ha, hn⟩ => ⟨⟨a, ha⟩, hn⟩, fun ⟨⟨a, ha⟩, hn⟩ => ⟨a, ha, hn⟩⟩

end Emit

section

variable {α : Type}

@[simp] theorem yields_reg64_from_bind (id : RegId) (f : Reg64 → Emit α) (n : Nat) :
    (reg64_from id >>= f).Yields n ↔ general id = true ∧ (f (asReg id)).Yields n := by
  by_cases hg : general id = true
  · rw [(reg64_from_general hg).1, nil_ok_bind]
    simp [hg]
  · have hle : ¬ id.num < 16 := fun h => hg (decide_eq_true h)
    rw [reg64_from_of_le hle]
    exact iff_of_false (fun h => nomatch h.1) fun h => hg h.1

theorem asReg_id {id : RegId} (h : general id = true) : (asReg id).id = id.num :=
  (reg64_from_general h).2

@[simp] theorem yields_plain (x : Emit Unit) (n : Nat) : (plain x).Yields n ↔ x.Yields n :=
  yields_bind_pure x (fun _ => EncodeOutput.new) n

@[simp] theorem yields_sited (bs : List UInt8) (out : EncodeOutput) (n : Nat) :
    (sited bs out).Yields n ↔ bs.length = n := by
  unfold sited
  simp

@[simp] theorem yields_xmm_operand_bind (mnemonic : Mnemonic) (r : RegId) (f : UInt8 → Emit α)
    (n : Nat) : (xmm_operand mnemonic r >>= f).Yields n ↔
      xmm r = true ∧ (f (r.num - 53)).Yields n := by
  unfold xmm_operand xmm_id_from_regid xmm
  by_cases h : 53 ≤ r.num ∧ r.num ≤ 68
  · rw [if_pos h]
    simp [h, pure_bind']
  · rw [if_neg h]
    refine iff_of_false (fun h => nomatch h.1) fun hx => h ?_
    simpa using hx.1

@[simp] theorem yields_gpr_operand_bind (mnemonic : Mnemonic) (r : RegId) (f : UInt8 → Emit α)
    (n : Nat) : (gpr_operand mnemonic r >>= f).Yields n ↔
      general r = true ∧ (f r.num).Yields n := by
  unfold gpr_operand general
  by_cases h : 16 ≤ r.num
  · rw [if_pos h]
    refine iff_of_false (fun h => nomatch h.1) fun hx => ?_
    exact absurd h (UInt8.not_le.mpr (of_decide_eq_true hx.1))
  · rw [if_neg h]
    simp [UInt8.not_le.mp h, pure_bind']

end

/-! ## The table -/

/-- `reg, reg` and `reg, [base + disp]`, with `n` bytes beside REX and operand. -/
def size_reg_mem (u : RexUse) (n : Nat) : List Operand → Option Nat
  | [.Reg dest, .Reg src] =>
    sized (general dest && general src) (n + u.len (high dest.num || high src.num) + 1)
  | [.Reg dest, .MemSib base none _ disp] =>
    sized (general dest && general base)
      (n + u.len (high dest.num || high base.num) + memLen base.num disp)
  | _ => none

/-- An immediate in the shortest of its three forms. -/
def size_imm (dest : RegId) (imm : Int64) : Option Nat :=
  sized (staged dest imm) (if fits_i8 imm then 4 else if fits_i32 imm then 7 else 13)

/-- `add` and `sub`. -/
def size_sum : List Operand → Option Nat
  | [.Reg dest, .Reg src] => sized (general dest && general src) 3
  | [.Reg dest, .MemSib base none _ disp] =>
    sized (general dest && general base) (2 + memLen base.num disp)
  | [.Reg dest, .MemSib base (some index) _ disp] =>
    sized (general dest && general base && general index) (2 + sibLen base.num disp)
  | [.Reg dest, .Imm64 imm] => size_imm dest imm
  | _ => none

/-- `and`, `or` and `xor`. -/
def size_logic : List Operand → Option Nat
  | [.Reg dst, .Reg src] => sized (general dst && general src) 3
  | [.Reg dst, .Imm64 imm] => size_imm dst imm
  | [.Reg dst, .MemSib base none _ disp] =>
    sized (general dst && general base) (2 + memLen base.num disp)
  | _ => none

/-- `adc`. -/
def size_carry (u : RexUse) : List Operand → Option Nat
  | [.Reg dest, .Imm64 imm] =>
    sized (fits_i32 imm && general dest) (u.len (high dest.num) + if fits_i8 imm then 3 else 6)
  | ops => size_reg_mem u 1 ops

/-- The bit tests. -/
def size_bit (u : RexUse) : List Operand → Option Nat
  | [.Reg bitmap, .Reg index] =>
    sized (general bitmap && general index) (u.len (high bitmap.num || high index.num) + 3)
  | [.MemSib base none _ disp, .Reg index_reg] =>
    sized (general base && general index_reg)
      (u.len (high base.num || high index_reg.num) + 2 + memLen base.num disp)
  | _ => none

/-- The shifts. -/
def size_shift : List Operand → Option Nat
  | [.Reg dst, .Imm64 _] => sized (general dst) 4
  | [.Reg dst, .Reg src] => sized (general dst && src.num == 1) 3
  | _ => none

/-- The count 1 has a form without immediate. -/
def size_rotation (u : RexUse) : List Operand → Option Nat
  | [.Reg dst, .Imm64 imm] =>
    sized (general dst && fits_i8 imm) (u.len (high dst.num) + if imm.toInt = 1 then 2 else 3)
  | [.Reg dst, .Reg src] => sized (general dst && src.num == 1) (u.len (high dst.num) + 2)
  | _ => none

def size_rol_w16 : List Operand → Option Nat
  | [.Reg dst, .Imm64 imm] =>
    sized (fits_i8 imm) ((high dst.num).toNat + if imm.toInt = 1 then 3 else 4)
  | [.Reg dst, .Reg src] => sized (src.num == 1) ((high dst.num).toNat + 3)
  | _ => none

/-- One register, with `n` bytes beside REX. -/
def size_reg (u : RexUse) (n : Nat) : List Operand → Option Nat
  | [.Reg r] => sized (general r) (n + u.len (high r.num))
  | _ => none

def size_mem (u : RexUse) (n : Nat) : List Operand → Option Nat
  | [.MemSib base none .X1 disp] =>
    sized (general base) (n + u.len (high base.num) + memLen base.num disp)
  | _ => none

def size_mem_reg (u : RexUse) (n : Nat) : List Operand → Option Nat
  | [.MemSib base none .X1 disp, .Reg src] =>
    sized (general base && general src)
      (n + u.len (high base.num || high src.num) + memLen base.num disp)
  | _ => none

/-- Locked `add` and `sub`. -/
def size_lock (u : RexUse) : List Operand → Option Nat
  | [.MemSib base none .X1 disp, .Reg src] =>
    sized (general base && general src)
      (2 + u.len (high base.num || high src.num) + memLen base.num disp)
  | [.MemSib base none .X1 disp, .Imm64 imm] =>
    sized (general base && fits_i32 imm)
      (2 + u.len (high base.num) + memLen base.num disp + if fits_i8 imm then 1 else 4)
  | _ => none

def size_lock_add (u : RexUse) : List Operand → Option Nat
  | [.MemDisp _, .Imm64 imm] =>
    sized (fits_i32 imm) (8 + u.len false + if fits_i8 imm then 1 else 4)
  | ops => size_lock u ops

/-- The locked bit tests. -/
def size_lock_bit : List Operand → Option Nat
  | [.MemSib base none .X1 disp, .Reg src] =>
    sized (general base && general src) (4 + memLen base.num disp)
  | [.MemSib base none .X1 disp, .Imm64 imm] =>
    sized (general base && (0 ≤ imm.toInt && imm.toInt ≤ 255)) (5 + memLen base.num disp)
  | _ => none

/-- `mov` with a control or debug register. -/
def size_special (d s : RegId) : Nat :=
  if is_control_register d && is_general_purpose_register s then
    3 + (8 ≤ d.num - 16 || 8 ≤ s.num : Bool).toNat
  else if is_control_register s && is_general_purpose_register d then
    3 + (8 ≤ s.num - 16 || 8 ≤ d.num : Bool).toNat
  else 3

/-- `mov`, in both modes. -/
def size_mov_both : List Operand → Option Nat
  | [.Reg dest, .Reg src] => sized (general dest && general src) 3
  | [.Reg dest, .Imm64 imm] => sized (general dest) (if fits_i32 imm then 7 else 10)
  | [.Reg dest, .MemSib base none .X1 disp] =>
    sized (general dest && general base) (2 + memLen base.num disp)
  | [.MemSib base none .X1 disp, .Reg src] =>
    sized (general base && general src) (2 + memLen base.num disp)
  | [.Reg dest, .MemSib base (some index) _ disp] =>
    sized (general dest && general base && general index) (2 + sibLen base.num disp)
  | [.MemSib base (some index) _ disp, .Reg src] =>
    sized (general base && general index && general src) (2 + sibLen base.num disp)
  | [.MemSib base none .X1 disp, .Imm64 imm] =>
    sized (staged base imm) (memLen base.num disp + if fits_i32 imm then 6 else 12)
  | [.MemSib base (some idx) _ disp, .Imm64 imm] =>
    sized (staged base imm && staged idx imm)
      (sibLen base.num disp + if fits_i32 imm then 6 else 12)
  | [.MemRipRelSym _ _, .Imm64 imm] => sized (fits_i32 imm) 11
  | [.Reg dest, .MemDisp _] => sized (general dest) 8
  | [.MemDisp _, .Reg src] => sized (general src) 8
  | [.MemDisp _, .Imm64 _] => some 12
  | [.Reg dest, .SymbolRef _ _] => sized (general dest) 7
  | [.SymbolRef _ _, .Reg src] => sized (general src) 7
  | [.Reg dest, .MemRipRelSym _ _] => sized (general dest) 7
  | [.MemRipRelSym _ _, .Reg src] => sized (general src) 7
  | _ => none

/-- The shapes of 32-bit mode. -/
def size_mov_mode32 : List Operand → Option Nat
  | [.Reg dst, .Imm64 imm] => sized (fits_32 imm && general dst) ((high dst.num).toNat + 5)
  | [.Reg dst, .Reg src] =>
    sized (general dst && general src) ((high dst.num || high src.num).toNat + 2)
  | [.Reg dst, .SymbolRef _ _] => sized (general dst) ((high dst.num).toNat + 6)
  | [.SymbolRef _ _, .Reg src] => sized (general src) ((high src.num).toNat + 6)
  | [.SymbolRef _ _, .Imm64 imm] => sized (fits_32 imm) 10
  | ops => size_mov_both ops

def size_mov_generic (mode : InstrMode) : List Operand → Option Nat
  | [.SegReg _, .Reg src] => sized (general src) 2
  | ops =>
    match mode with
    | .Mode32 => size_mov_mode32 ops
    | .Mode64 => size_mov_both ops

def size_mov (mode : InstrMode) : List Operand → Option Nat
  | .Reg d :: .Reg s :: rest =>
    if special d s then sized rest.isEmpty (size_special d s)
    else size_mov_generic mode (.Reg d :: .Reg s :: rest)
  | .Var _ :: _ :: _ => none
  | _ :: .Var _ :: _ => none
  | ops => size_mov_generic mode ops

/-- The 66 prefix of a 16-bit operand. -/
def opsize (width : IntWidth) : Nat := if width = .W16 then 1 else 0

/-- REX.W at 64 bits. -/
def widthRex (width : IntWidth) : RexUse := if width = .W64 then .wide else .need

/-- An immediate of this width, never of eight bytes. -/
def immLen (width : IntWidth) : Nat :=
  match width with
  | .W8 => 1
  | .W16 => 2
  | .W32 | .W64 => 4

/-- A byte register from 4 on needs the prefix as well. -/
def storeRex (width : IntWidth) (src : RegId) : RexUse :=
  if width = .W8 && 4 ≤ src.num &&& 7 then .always else widthRex width

def size_mov_sized (mode : InstrMode) (width : IntWidth) : List Operand → Option Nat
  | [.Reg dst, .Imm64 _] =>
    sized (general dst && !(width == .W64 && mode == .Mode32))
      (opsize width + (widthRex width).len (high dst.num) + 1 +
        if width = .W64 then 8 else immLen width)
  | [.Reg dst, .MemSib base none _ disp] =>
    sized (general dst && general base)
      (opsize width + (widthRex width).len (high dst.num || high base.num) + 1 +
        memLen base.num disp)
  | [.Reg dst, .MemSib base (some index) _ disp] =>
    sized (general dst && general base && general index)
      (opsize width + (widthRex width).len (high dst.num || high index.num || high base.num) + 1 +
        sibLen base.num disp)
  | [.MemSib base none _ disp, .Imm64 imm] =>
    sized (general base && (width != .W64 || fits_i32 imm))
      (opsize width + (widthRex width).len (high base.num) + 1 + memLen base.num disp +
        immLen width)
  | [.MemSib base none .X1 disp, .Reg src] =>
    sized (general base && general src)
      (opsize width + (storeRex width src).len (high src.num || high base.num) + 1 +
        memLen base.num disp)
  | [.MemSib base (some idx) _ disp, .Reg src] =>
    sized (general base && general idx && general src)
      (opsize width + (storeRex width src).len (high src.num || high idx.num || high base.num) + 1 +
        sibLen base.num disp)
  | [.MemSib base (some idx) _ disp, .Imm64 imm] =>
    sized (general base && general idx && (width != .W64 || fits_i32 imm))
      (opsize width + (widthRex width).len (high idx.num || high base.num) + 1 +
        sibLen base.num disp + immLen width)
  | [.Reg dst, .MemRipRel _] | [.Reg dst, .MemRipRelSym _ _] =>
    some (opsize width + (widthRex width).len (high dst.num) + 6)
  | [.MemRipRelSym _ _, .Reg src] => some (opsize width + (widthRex width).len (high src.num) + 6)
  | [.Reg dst, .MemDisp _] =>
    sized (general dst) (opsize width + (widthRex width).len (high dst.num) + 7)
  | [.MemDisp _, .Reg src] =>
    sized (general src) (opsize width + (widthRex width).len (high src.num) + 7)
  | [.MemDisp _, .Imm64 imm] =>
    sized (width != .W64 || fits_i32 imm)
      (opsize width + (widthRex width).len false + 7 + immLen width)
  | _ => none

def size_movnti (width : IntWidth) : List Operand → Option Nat
  | [.MemSib base none .X1 disp, .Reg src] =>
    sized (general base && general src && (width == .W32 || width == .W64))
      (2 + (widthRex width).len (high src.num || high base.num) + memLen base.num disp)
  | [.MemSib base (some index) _ disp, .Reg src] =>
    sized (general base && general index && general src && (width == .W32 || width == .W64))
      (2 + (widthRex width).len (high src.num || high index.num || high base.num) +
        sibLen base.num disp)
  | _ => none

def size_movzx (src_width : UInt8) : List Operand → Option Nat
  | [.Reg dest, .Reg src] =>
    sized (general dest && general src) (if src_width = 1 ∨ src_width = 2 then 4 else 0)
  | [.Reg dest, .MemSib base none _ disp] =>
    sized (general dest && general base && [1, 2].contains src_width) (3 + memLen base.num disp)
  | _ => none

def size_movsx (src_width : UInt8) : List Operand → Option Nat
  | [.Reg dest, .Reg src] =>
    sized (general dest && general src && [1, 2, 4].contains src_width)
      (if src_width = 4 then 3 else 4)
  | [.Reg dest, .MemSib base none _ disp] =>
    sized (general dest && general base && [1, 2, 4].contains src_width)
      (memLen base.num disp + if src_width = 4 then 2 else 3)
  | _ => none

def size_lea (mode : InstrMode) : List Operand → Option Nat
  | [.Reg dest, .MemSib base none .X1 disp] =>
    sized (general dest && general base) (2 + memLen base.num disp)
  | [.Reg dest, .MemSib base (some index) _ disp] =>
    sized (general dest && general base && general index) (2 + sibLen base.num disp)
  | [.Reg dest, .SymbolRef _ addend] =>
    match mode with
    | .Mode32 => sized (general dest) ((high dest.num).toNat + 6)
    | .Mode64 => sized (general dest && !decide (AddendTooLow addend)) 7
  | [.Reg dest, .MemRipRelSym _ addend] =>
    sized (general dest && !decide (AddendTooLow addend)) 7
  | _ => none

def size_or_mode32 : List Operand → Option Nat
  | [.Reg dst, .Imm64 imm] =>
    sized (general dst && (-2147483648 ≤ imm.toInt && imm.toInt ≤ 4294967295))
      ((high dst.num).toNat + if fits_i8 imm then 3 else 6)
  | ops => size_logic ops

def size_imul : List Operand → Option Nat
  | [.Reg dst, .Reg src] => sized (general dst && general src) 4
  | [.Reg dst, .Reg src, .Imm64 imm] =>
    sized (general dst && general src && fits_i32 imm) (if fits_i8 imm then 4 else 7)
  | [.Reg dst, .MemSib base none _ disp] =>
    sized (general dst && general base) (3 + memLen base.num disp)
  | _ => none

def size_cmp : List Operand → Option Nat
  | [.Reg dest, .Reg src] => sized (general dest && general src) 3
  | [.MemSib base none .X1 disp, .Reg src] =>
    sized (general base && general src) (2 + memLen base.num disp)
  | [.Reg dest, .Imm64 imm] => size_imm dest imm
  | _ => none

/-- Beside the byte forms, only an immediate that does not fit in a byte has
the short form of the accumulator. -/
def size_cmp_sized (width : IntWidth) (operands : List Operand) : Option Nat :=
  match width, operands with
  | .W64, _ => size_cmp operands
  | .W8, [.Reg dest, .Imm64 imm] =>
    sized (fits_i8 imm) (if dest.num = 0 then 2 else (high dest.num).toNat + 3)
  | .W16, [.Reg dest, .Imm64 imm] =>
    sized (-32768 ≤ imm.toInt && imm.toInt ≤ 32767) (if fits_i8 imm then (high dest.num).toNat + 4
        else if dest.num = 0 then 4 else (high dest.num).toNat + 5)
  | .W32, [.Reg dest, .Imm64 imm] =>
    sized (fits_i32 imm) (if fits_i8 imm then (high dest.num).toNat + 3
        else if dest.num = 0 then 5 else (high dest.num).toNat + 6)
  | _, [.Reg dest, .Reg src] =>
    some (opsize width + (high src.num || high dest.num).toNat + 2)
  | _, [.MemSib base none .X1 disp, .Reg src] =>
    some (opsize width + (high src.num || high base.num).toNat + 1 + memLen base.num disp)
  | _, _ => none

def size_test : List Operand → Option Nat
  | [.Reg dest, .Reg src] => sized (general dest && general src) 3
  | [.Reg dest, .Imm64 imm] =>
    sized (general dest && fits_i32 imm) (if dest.num = 0 then 6 else 7)
  | _ => none

def size_push : List Operand → Option Nat
  | [.Reg src] => sized (general src) (1 + (high src.num).toNat)
  | [.Imm64 imm] => sized (fits_i32 imm) (if fits_i8 imm then 2 else 5)
  | _ => none

def size_jcc : List Operand → Option Nat
  | [.Imm64 rel] => some (if can_use_rel8 rel then 2 else 6)
  | [.LabelRef _ _] => some 6
  | _ => none

/-- `spl` to `dil` need a prefix as well. -/
def size_setcc : List Operand → Option Nat
  | [.Reg dst] =>
    some (3 + (high (resolve_reg8 dst).1 || (resolve_reg8 dst).2).toNat)
  | _ => none

def size_jmp : List Operand → Option Nat
  | [.Imm64 _] | [.LabelRef _ _] | [.SymbolRef _ _] => some 5
  | [.MemSymIndexed _ _ index _] =>
    sized (general index && index.num != 4) ((high index.num).toNat + 7)
  | [.MemDispIndexed _ index _] =>
    sized (general index && index.num != 4) ((high index.num).toNat + 7)
  | [.Reg r] => sized (general r) ((high r.num).toNat + 2)
  | _ => none

def size_call : List Operand → Option Nat
  | [.Imm64 _] | [.SymbolRef _ _] => some 5
  | [.MemRipRel _] | [.MemRipRelSym _ _] => some 6
  | [.Reg r] => sized (general r) ((high r.num).toNat + 2)
  | [.MemSib base none .X1 disp] =>
    sized (general base) ((high base.num).toNat + 1 + memLen base.num disp)
  | [.MemSib base (some idx) _ disp] =>
    sized (general base && general idx)
      ((high idx.num || high base.num).toNat + 1 + sibLen base.num disp)
  | _ => none

def size_far_jmp : List Operand → Option Nat
  | [.MemSib base none .X1 disp] => sized (general base) (2 + bareLen disp)
  | [.MemRipRel _] => some 7
  | [.Imm64 _, .Imm64 _] | [.Imm64 _, .SymbolRef _ _] => some 7
  | _ => none

def size_int : List Operand → Option Nat
  | [.Imm64 imm] => sized (imm.toInt ≤ 255) 2
  | _ => none

/-- `in` and `out`. -/
def size_port (width : UInt8) (operands : List Operand) : Option Nat :=
  sized (takes_port operands)
    (if width = 1 then 1 else if width = 2 then 2 else if width = 4 then 1 else 0)

/-- `lgdt` and `lidt`. -/
def size_descriptor : List Operand → Option Nat
  | [.MemSib base none .X1 disp] => sized (general base) (2 + bareLen disp)
  | [.SymbolRef _ _] | [.MemRipRelSym _ _] => some 7
  | _ => none

def size_invlpg : List Operand → Option Nat
  | [.MemSib base none .X1 disp] => sized (general base) (2 + bareLen disp)
  | _ => none

def size_invpcid : List Operand → Option Nat
  | [.Reg reg, .MemSib base none .X1 disp] =>
    sized (general reg && general base)
      (4 + (high reg.num || high base.num).toNat + memLen base.num disp)
  | _ => none

def size_mov_cr (write : Bool) (operands : List Operand) : Option Nat :=
  match operands with
  | [.Reg first, .Reg second] =>
    sized (takes_mov_cr write operands) (3 + (8 ≤ first.num || 8 ≤ second.num : Bool).toNat)
  | _ => none

/-- A vector register of 256 bits. -/
def ymm (r : RegId) : Bool := 37 ≤ r.num && r.num ≤ 52

/-- The two VEX prefixes. -/
def vexLen (extended : Bool) : Nat := if extended then 3 else 2

def size_vex_regs : List Operand → Option Nat
  | [.Reg dst, .Reg src1, .Reg src2] =>
    sized (ymm dst && ymm src1 && ymm src2)
      (2 + vexLen (is_high (dst.num - 37) || is_high (src2.num - 37)))
  | _ => none

def size_vpmovmskb : List Operand → Option Nat
  | [.Reg dst, .Reg src] =>
    sized (general dst && ymm src) (2 + vexLen (is_high dst.num || is_high (src.num - 37)))
  | _ => none

def size_vmovdqu (is_store : Bool) : List Operand → Option Nat
  | [.Reg dst, .Reg src] =>
    sized (ymm dst && ymm src) (2 + vexLen (is_high (dst.num - 37) || is_high (src.num - 37)))
  | [.Reg dst, .MemSib base none .X1 disp] =>
    sized (!is_store && ymm dst)
      (1 + vexLen (is_high (dst.num - 37) || is_high base.num) + bareLen disp)
  | [.MemSib base none .X1 disp, .Reg src] =>
    sized (is_store && ymm src)
      (1 + vexLen (is_high (src.num - 37) || is_high base.num) + bareLen disp)
  | [.Reg dst, .MemRipRelSym _ _] | [.Reg dst, .MemRipRel _] =>
    sized (!is_store && ymm dst) (6 + vexLen (is_high (dst.num - 37)))
  | [.MemRipRelSym _ _, .Reg src] | [.MemRipRel _, .Reg src] =>
    sized (is_store && ymm src) (6 + vexLen (is_high (src.num - 37)))
  | _ => none

def size_xmm_xmm (pre : Nat) : List Operand → Option Nat
  | [.Reg dst, .Reg src] =>
    sized (xmm dst && xmm src) (3 + pre + (is_high (dst.num - 53) || is_high (src.num - 53)).toNat)
  | _ => none

/-- `movd` and `movq`. -/
def size_bitcast (rex_w to_xmm : Bool) : List Operand → Option Nat
  | [.Reg dst, .Reg src] =>
    if to_xmm then
      sized (xmm dst && general src)
        (4 + (rex_w || is_high (dst.num - 53) || is_high src.num).toNat)
    else
      sized (general dst && xmm src)
        (4 + (rex_w || is_high (src.num - 53) || is_high dst.num).toNat)
  | _ => none

/-! ## The families -/

section

variable {inst : Instruction} {width : IntWidth} {n : Nat}

theorem yields_immForms_iff (f : ImmForms) (dst : RegId) (imm : Int64)
    (h8 : ∀ r, (f.imm8 r imm).length = 4) (h32 : ∀ r, (f.imm32 r imm).length = 7)
    (hreg : ∀ r s, (f.reg r s).length = 3) :
    (f.encode dst imm).Yields n ↔ size_imm dst imm = some n := by
  unfold ImmForms.encode size_imm staged
  rw [yields_reg64_from_bind, sized_eq_some, Bool.and_eq_true, and_assoc]
  apply and_congr_right
  intro hg
  split_ifs with h8' h32'
  · simp [fits_i32_of_i8 h8', h8]
  · simp [h32', h32]
  · have h11 := asReg_eq_iff hg .R11
    unfold stage_imm64_r11
    split_ifs with hr
    · refine iff_of_false (fun h => nomatch h.1) ?_
      simp [h32', h11.mp hr, Reg64.id]
    · rw [h11] at hr
      have hne : (dst.num != 11) = true := by simpa [Reg64.id] using hr
      have hlen : (mov_reg64_imm64 .R11 imm ++ [] ++ f.reg (asReg dst) .R11).length = 13 := by
        simp [mov_reg64_imm64, len, hreg]
      simp only [h32', hne, Bool.false_or, true_and]
      exact ⟨fun h => hlen.symm.trans h.2, fun h => ⟨⟨(), rfl⟩, hlen.trans h⟩⟩

theorem yields_add_iff : (encode_add inst).Yields n ↔ size_sum inst.operands = some n := by
  have himm := fun dst imm => @yields_immForms_iff n add_imm dst imm
    (by simp [add_imm, add_reg64_imm8, len]) (by simp [add_imm, add_reg64_imm32, len])
    (by simp [add_imm, add_reg64_reg64, len])
  unfold encode_add size_sum
  split <;> simp_all +contextual [add_reg64_reg64, add_reg64_mem_base_disp, add_reg64_mem_sib_disp,
    len, asReg_id, and_assoc]

theorem yields_sub_iff : (encode_sub inst).Yields n ↔ size_sum inst.operands = some n := by
  have himm := fun dst imm => @yields_immForms_iff n sub_imm dst imm
    (by simp [sub_imm, sub_reg64_imm8, len]) (by simp [sub_imm, sub_reg64_imm32, len])
    (by simp [sub_imm, sub_reg64_reg64, len])
  unfold encode_sub size_sum
  split <;> simp_all +contextual [sub_reg64_reg64, sub_reg64_mem_base_disp, sub_reg64_mem_sib_disp,
    len, asReg_id, and_assoc]

/-- Forms of one prefix rule and `k` bytes beside REX and operand. -/
theorem yields_shapes_iff {reg : Reg64 → Reg64 → List UInt8}
    {mem : Reg64 → Reg64 → Int32 → List UInt8} {u : RexUse} {k : Nat}
    (hreg : ∀ d s, (reg d s).length = k + u.len (high d.id || high s.id) + 1)
    (hmem : ∀ d b disp, (mem d b disp).length =
      k + u.len (high d.id || high b.id) + memLen b.id disp) :
    (RegMemForms.shapes inst reg mem).Yields n ↔ size_reg_mem u k inst.operands = some n := by
  unfold RegMemForms.shapes size_reg_mem
  split <;> simp_all +contextual [asReg_id, and_assoc]

theorem yields_adc_iff : (encode_adc inst width).Yields n ↔
    wide32 width = true ∧ size_carry (widthRex width) inst.operands = some n := by
  unfold encode_adc size_carry size_reg_mem
  split
  · simp [wide32]
  · simp [wide32]
  · split <;> simp_all +contextual [wide32, widthRex, adc_reg32_reg32, adc_reg32_mem_base_disp,
      adc_reg32_imm8, adc_reg32_imm32, len, asReg_id, and_assoc, yields_ite]
    all_goals grind [asReg_id]
  · split <;> simp_all +contextual [wide32, widthRex, adc_reg64_reg64, adc_reg64_mem_base_disp,
      adc_reg64_imm8, adc_reg64_imm32, len, asReg_id, and_assoc, yields_ite]
    all_goals grind [asReg_id]

/-- An operation of 64 and of 32 bits. -/
theorem yields_shape_widths {reg64 reg32 : Reg64 → Reg64 → List UInt8}
    {mem64 mem32 : Reg64 → Reg64 → Int32 → List UInt8} {msg : String} {k : Nat}
    (hreg64 : ∀ d s, (reg64 d s).length = k + 1 + 1)
    (hmem64 : ∀ d b disp, (mem64 d b disp).length = k + 1 + memLen b.id disp)
    (hreg32 : ∀ d s, (reg32 d s).length = k + (high d.id || high s.id).toNat + 1)
    (hmem32 : ∀ d b disp, (mem32 d b disp).length =
      k + (high d.id || high b.id).toNat + memLen b.id disp) :
    (RegMemForms.encode ⟨reg64, mem64, some (reg32, mem32), msg⟩ inst width).Yields n ↔
      wide32 width = true ∧ size_reg_mem (widthRex width) k inst.operands = some n := by
  unfold RegMemForms.encode
  cases width with
  | W8 | W16 => simp [wide32]
  | W32 =>
    refine (@yields_shapes_iff inst n _ _ .need k hreg32 hmem32).trans ?_
    simp [wide32, widthRex]
  | W64 =>
    refine (@yields_shapes_iff inst n _ _ .wide k hreg64 hmem64).trans ?_
    simp [wide32, widthRex]

/-- An operation of 64 bits only. -/
theorem yields_scan_iff {reg : Reg64 → Reg64 → List UInt8}
    {mem : Reg64 → Reg64 → Int32 → List UInt8}
    {msg : String} {k : Nat} (hreg : ∀ d s, (reg d s).length = k + 2)
    (hmem : ∀ d b disp, (mem d b disp).length = k + 1 + memLen b.id disp) :
    (RegMemForms.encode ⟨reg, mem, none, msg⟩ inst width).Yields n ↔
      (width == .W64) = true ∧ size_reg_mem .wide k inst.operands = some n := by
  unfold RegMemForms.encode
  cases width with
  | W64 =>
    refine (@yields_shapes_iff inst n _ _ .wide k ?_ ?_).trans (by simp)
    · simpa [len] using hreg
    · simpa [len] using hmem
  | _ => simp

theorem yields_bit_test_iff {reg : Reg64 → Reg64 → List UInt8}
    {mem : Reg64 → Int32 → Reg64 → List UInt8} {u : RexUse}
    (hreg : ∀ b i, (reg b i).length = u.len (high b.id || high i.id) + 3)
    (hmem : ∀ b disp i, (mem b disp i).length =
      u.len (high b.id || high i.id) + 2 + memLen b.id disp) :
    (bit_test_shapes inst reg mem).Yields n ↔ size_bit u inst.operands = some n := by
  unfold bit_test_shapes size_bit
  split <;> simp_all +contextual [asReg_id, and_assoc]

theorem yields_bit_test_widths {reg64 reg32 : Reg64 → Reg64 → List UInt8}
    {mem64 mem32 : Reg64 → Int32 → Reg64 → List UInt8} {e : EncodeError}
    (hreg64 : ∀ b i, (reg64 b i).length = 1 + 3)
    (hmem64 : ∀ b disp i, (mem64 b disp i).length = 1 + 2 + memLen b.id disp)
    (hreg32 : ∀ b i, (reg32 b i).length = (high b.id || high i.id).toNat + 3)
    (hmem32 : ∀ b disp i, (mem32 b disp i).length =
      (high b.id || high i.id).toNat + 2 + memLen b.id disp) :
    (match width with
      | .W64 => bit_test_shapes inst reg64 mem64
      | .W32 => bit_test_shapes inst reg32 mem32
      | _ => fail e).Yields n ↔
        wide32 width = true ∧ size_bit (widthRex width) inst.operands = some n := by
  cases width with
  | W8 | W16 => simp [wide32]
  | W32 =>
    refine (@yields_bit_test_iff inst n _ _ .need hreg32 hmem32).trans ?_
    simp [wide32, widthRex]
  | W64 =>
    refine (@yields_bit_test_iff inst n _ _ .wide hreg64 hmem64).trans ?_
    simp [wide32, widthRex]

theorem yields_logic_iff {reg : Reg64 → Reg64 → List UInt8}
    {mem : Reg64 → Reg64 → Int32 → List UInt8}
    {f : ImmForms} (hreg : ∀ d s, (reg d s).length = 3)
    (hmem : ∀ d b disp, (mem d b disp).length = 2 + memLen b.id disp)
    (himm : ∀ dst imm, (f.encode dst imm).Yields n ↔ size_imm dst imm = some n) (msg : String) :
    (match inst.operands with
      | [.Reg dst, .Reg src] => do Emit.push (reg (← reg64_from dst) (← reg64_from src))
      | [.Reg dst, .Imm64 imm] => f.encode dst imm
      | [.Reg dst, .MemSib base none _ disp] => do
        Emit.push (mem (← reg64_from dst) (← reg64_from base) disp)
      | ops => no_arm ops msg).Yields n ↔ size_logic inst.operands = some n := by
  unfold size_logic no_arm
  split
  · simp_all +contextual [and_assoc]
  · simp_all
  · simp_all +contextual [asReg_id, and_assoc]
  · simp_all [yields_ite]

theorem yields_and_iff : (encode_and inst).Yields n ↔ size_logic inst.operands = some n := by
  unfold encode_and
  refine yields_logic_iff ?_ ?_ (fun dst imm => yields_immForms_iff and_imm dst imm ?_ ?_ ?_) _ <;>
  · intros
    simp [and_imm, and_reg64_reg64, and_reg64_mem_reg64_disp, and_reg64_imm8, and_reg64_imm32,
      len]

theorem yields_xor_iff : (encode_xor inst).Yields n ↔ size_logic inst.operands = some n := by
  unfold encode_xor
  refine yields_logic_iff ?_ ?_ (fun dst imm => yields_immForms_iff xor_imm dst imm ?_ ?_ ?_) _ <;>
  · intros
    simp [xor_imm, xor_reg64_reg64, xor_reg64_mem_reg64_disp, xor_reg64_imm8, xor_reg64_imm32,
      len]

theorem yields_or_imm_mode32_iff (dst : RegId) (imm : Int64) :
    (or_imm_mode32 dst imm).Yields n ↔ size_or_mode32 [.Reg dst, .Imm64 imm] = some n := by
  unfold or_imm_mode32
  simp only [size_or_mode32, yields_reg64_from_bind, sized_eq_some, Bool.and_eq_true, and_assoc]
  apply and_congr_right
  intro hg
  split_ifs with h8 h32
  · simp [in_range_of_i8 h8, or_reg32_imm8, len, asReg_id hg]
  · simp [h32, or_reg32_imm32, len, asReg_id hg]
  · have hout : ¬ (decide (-2147483648 ≤ imm.toInt) = true ∧
        decide (imm.toInt ≤ 4294967295) = true) := by simpa using h32
    refine iff_of_false (fun h => nomatch h.1) fun h => hout ⟨h.1, h.2.1⟩

theorem yields_or_iff : (encode_or inst).Yields n ↔
    (if inst.mode = .Mode32 then size_or_mode32 inst.operands else size_logic inst.operands) =
      some n := by
  have himm : ∀ dst imm, (or_imm.encode dst imm).Yields n ↔ size_imm dst imm = some n := by
    intro dst imm
    apply yields_immForms_iff <;>
    · intros
      simp [or_imm, or_reg64_reg64, or_reg64_imm8, or_reg64_imm32, len]
  unfold encode_or
  split
  · simp_all +contextual [size_or_mode32, size_logic, or_reg64_reg64, len, and_assoc]
  · rename_i dst imm heq
    rw [heq]
    split_ifs
    · exact yields_or_imm_mode32_iff dst imm
    · simp_all [size_logic]
  · simp_all +contextual [size_or_mode32, size_logic, or_reg64_mem_reg64_disp, len,
      asReg_id, and_assoc]
  · unfold size_or_mode32 size_logic no_arm
    split_ifs <;> simp_all

theorem yields_imul_iff : (encode_imul inst).Yields n ↔ size_imul inst.operands = some n := by
  unfold encode_imul size_imul no_arm
  split
  · simp_all +contextual [imul_reg64_reg64, len, and_assoc]
  · simp_all +contextual [imul_reg64_reg64_imm8, imul_reg64_reg64_imm32, len, yields_ite]
    grind [fits_i32_of_i8]
  · simp_all +contextual [imul_reg64_mem_reg64_disp, len, asReg_id, and_assoc]
  · simp_all
  · simp_all [yields_ite]

theorem yields_cmp_iff : (encode_cmp inst).Yields n ↔ size_cmp inst.operands = some n := by
  have himm : ∀ dst imm, (cmp_imm.encode dst imm).Yields n ↔ size_imm dst imm = some n := by
    intro dst imm
    apply yields_immForms_iff <;>
    · intros
      simp [cmp_imm, cmp_reg64_reg64, cmp_reg64_imm8, cmp_reg64_imm32, len]
  unfold encode_cmp size_cmp
  split <;> simp_all +contextual [cmp_reg64_reg64, cmp_mem_reg64_reg64, len, asReg_id,
    and_assoc]

theorem yields_cmp_sized_iff : (encode_cmp_sized inst width).Yields n ↔
    size_cmp_sized width inst.operands = some n := by
  cases width with
  | W64 => exact yields_cmp_iff
  | W8 =>
    unfold encode_cmp_sized size_cmp_sized
    split <;> simp_all [encode_cmp_reg8_imm, encode_cmp_reg8_reg8, encode_cmp_mem_reg8, opsize,
      len, yields_ite]
    grind
  | W16 =>
    unfold encode_cmp_sized size_cmp_sized
    split <;> simp_all [encode_cmp_reg16_imm, encode_cmp_reg16_reg16, encode_cmp_mem_reg16, opsize,
      len, yields_ite]
    grind
  | W32 =>
    unfold encode_cmp_sized size_cmp_sized
    split <;> simp_all [encode_cmp_reg32_imm, encode_cmp_reg32_reg32, encode_cmp_mem_reg32, opsize,
      len, yields_ite]
    grind

theorem yields_test_iff : (encode_test inst).Yields n ↔ size_test inst.operands = some n := by
  unfold encode_test
  split <;> unfold size_test
  · simp_all +contextual [test_reg64_reg64, len, and_assoc]
  · rename_i dest imm heq
    rw [heq]
    simp only [yields_reg64_from_bind, yields_ite, yields_push, yields_fail, sized_eq_some]
    have hrax : general dest = true → (asReg dest = .Rax ↔ dest.num = 0) := fun hg =>
      asReg_eq_iff hg .Rax
    have hlen : ∀ r, (test_reg64_imm32 r imm).length = if r = .Rax then 6 else 7 := by
      intro r
      unfold test_reg64_imm32
      split_ifs <;> simp [len]
    grind
  · simp_all

theorem yields_shift_iff (digit : UInt8) (cl_msg form_msg : String) :
    (encode_shift digit cl_msg form_msg inst).Yields n ↔ size_shift inst.operands = some n := by
  unfold encode_shift
  split <;> unfold size_shift
  · simp_all [len]
  · rename_i dst src heq
    rw [heq]
    simp only [yields_reg64_from_bind, sized_eq_some, Bool.and_eq_true, beq_iff_eq]
    rw [← names_rcx_iff]
    split_ifs with hcl
    · simp [hcl]
    · simp only [ne_eq, not_not] at hcl
      simp [hcl, len]
      tauto
  · simp_all

theorem yields_rotate_iff {imm8 : Reg64 → Int64 → List UInt8} {cl : Reg64 → List UInt8}
    {u : RexUse} {imm_msg cl_msg : String}
    (himm : ∀ r imm, (imm8 r imm).length = u.len (high r.id) + if imm.toInt = 1 then 2 else 3)
    (hcl : ∀ r, (cl r).length = u.len (high r.id) + 2) :
    (rotate_shapes inst imm8 cl imm_msg cl_msg).Yields n ↔
      size_rotation u inst.operands = some n := by
  unfold rotate_shapes
  split <;> unfold size_rotation
  · simp_all +contextual [yields_ite]
    grind [asReg_id]
  · rename_i dst src heq
    rw [heq]
    simp only [yields_reg64_from_bind, sized_eq_some, Bool.and_eq_true, beq_iff_eq]
    rw [← names_rcx_iff]
    split_ifs with hne
    · simp [hne]
    · simp only [ne_eq, not_not] at hne
      simp +contextual [hne, hcl, asReg_id, and_assoc]
  · simp_all

end

end paideia_as_encoder
