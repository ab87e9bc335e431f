-- The size of an instruction whose variables have no registers yet. The
-- estimate puts RAX in their places, so it is exact where the registers that
-- come later ask for the same prefix and the same form as RAX.
import PaideiaAs.Encoder.MoveSizes

namespace paideia_as_encoder

open paideia_as_runtime Emit
open Bool (and_eq_true)
open List (Forall₂ forall₂_cons_left_iff forall₂_cons_right_iff forall₂_nil_right_iff)

/-! ## The estimate -/

/-- RAX stands for a variable. -/
def placeholder : Operand → Operand
  | .Var _ => .Reg ⟨0⟩
  | op => op

/-- The instruction that the estimate encodes. -/
def sized_inst (inst : Instruction) : Instruction :=
  if inst.operands.any (·.isVar) then { inst with operands := inst.operands.map placeholder }
  else inst

/-- 0 stands for an instruction that does not encode. The `u32` of the source
holds every length. -/
def estimated_bytes (inst : Instruction) : Except Stop Nat :=
  match (encode_instruction (sized_inst inst)).run [] with
  | (buf, .ok _) => .ok buf.length
  | (_, .error (.err _)) => .ok 0
  | (_, .error (.panic msg)) => .error (.panic msg)

/-- A register takes the place of a variable; every other operand stays. -/
def Fills (op op' : Operand) : Prop :=
  match op with
  | .Var _ => ∃ r, general r = true ∧ op' = .Reg r
  | op => op' = op

/-! ## What the registers decide -/

/-- An operand that names a register from 8 on. -/
def extendedOperand : Operand → Bool
  | .Reg r => high r.num
  | .MemSib base index _ _ => high base.num || index.any (high ·.num)
  | .MemSymIndexed _ _ index _ => high index.num
  | .MemDispIndexed _ index _ => high index.num
  | _ => false

/-- Some operand names one. -/
def extended (ops : List Operand) : Bool := ops.any extendedOperand

/-- The registers from 4 on that a byte store names with a prefix. -/
def byte_store : List Operand → Bool
  | [.MemSib _ _ _ _, .Reg src] => 4 ≤ src.num &&& 7
  | _ => false

/-- A control register from 8 on, or a general one with a control register. -/
def special_extended (d s : RegId) : Bool :=
  is_control_register d && (8 ≤ d.num - 16 || 8 ≤ s.num) ||
    is_control_register s && (8 ≤ s.num - 16 || 8 ≤ d.num)

/-- The shapes of a move that are of 32 bits in 32-bit mode. -/
def mov_shape32 : List Operand → Bool
  | [.Reg _, .Reg _] | [.Reg _, .Imm64 _] | [.Reg _, .SymbolRef _ _] | [.SymbolRef _ _, .Reg _] =>
    true
  | _ => false

def mov_prefixed (mode : InstrMode) (ops : List Operand) : Bool :=
  match ops with
  | [.Reg d, .Reg s] =>
    if special d s then special_extended d s else mode == .Mode32 && extended ops
  | _ => mode == .Mode32 && mov_shape32 ops && extended ops

def lea_prefixed (mode : InstrMode) (ops : List Operand) : Bool :=
  match ops with
  | [.Reg _, .SymbolRef _ _] => mode == .Mode32 && extended ops
  | _ => false

def or_prefixed (mode : InstrMode) (ops : List Operand) : Bool :=
  match ops with
  | [.Reg _, .Imm64 _] => mode == .Mode32 && extended ops
  | _ => false

/-- The longer prefix of a vector instruction. -/
def vpmovmskb_prefixed : List Operand → Bool
  | [.Reg dst, .Reg src] => is_high dst.num || is_high (src.num - 37)
  | _ => false

def movd_prefixed (to_xmm : Bool) : List Operand → Bool
  | [.Reg dst, .Reg src] =>
    if to_xmm then is_high (dst.num - 53) || is_high src.num
    else is_high (src.num - 53) || is_high dst.num
  | _ => false

/-- Does the instruction write a prefix that its form leaves out for other
registers? -/
def prefix_asked (inst : Instruction) : Bool :=
  let ops := inst.operands
  match inst.mnemonic with
  | .Adc width | .Sbb width | .Popcnt width | .Bt width | .Bts width | .Btr width | .Btc width
  | .Rol width | .Ror width | .LockXadd width | .LockAdd width | .LockSub width | .Movnti width
  | .CmpSized width => width != .W64 && extended ops
  | .MovSized width => width != .W64 && (extended ops || width == .W8 && byte_store ops)
  | .Bswap32 | .Ltr | .Push | .Pop | .LockCmpxchg32 | .Invpcid | .Jmp | .Call | .Setcc _
  | .MovCr _ => extended ops
  | .Or => or_prefixed inst.mode ops
  | .Lea => lea_prefixed inst.mode ops
  | .Mov => mov_prefixed inst.mode ops
  | .Vpmovmskb => vpmovmskb_prefixed ops
  | .MovdBitcast to_xmm => movd_prefixed to_xmm ops
  | _ => false

/-- The accumulator beside an immediate, of more than a byte where `long`. -/
def on_rax (long : Bool) : List Operand → Bool
  | [.Reg dest, .Imm64 imm] => dest.num == 0 && !(long && fits_i8 imm)
  | _ => false

/-- A comparison of the accumulator with an immediate has a form of its own. -/
def accumulator_form (inst : Instruction) : Bool :=
  match inst.mnemonic with
  | .Test | .CmpSized .W8 => on_rax false inst.operands
  | .CmpSized .W16 | .CmpSized .W32 => on_rax true inst.operands
  | _ => false

/-- The second operand is the count register `cl`. -/
def by_cl : List Operand → Bool
  | [.Reg _, .Reg count] => count.num == 1
  | _ => false

/-- A shift or a rotation by a register. -/
def counts_in_cl (inst : Instruction) : Bool :=
  match inst.mnemonic with
  | .Shl | .Shr | .Sar | .Rol _ | .Ror _ => by_cl inst.operands
  | _ => false

/-- The instruction without its segment prefix. -/
def under_prefixed (inst : Instruction) : Instruction :=
  { inst with operands := (underPrefix inst.operands).getD inst.operands }

/-- Both ask for the same prefix, and both take the same form. -/
structure SameForm (inst inst' : Instruction) : Prop where
  prefix_eq : prefix_asked inst = prefix_asked inst'
  accumulator_eq : accumulator_form inst = accumulator_form inst'
  count_eq : counts_in_cl inst = counts_in_cl inst'

/-! ## Operands with RAX in a place -/

/-- The same operand, or RAX for a register. -/
def Placed (p r : Operand) : Prop := p = r ∨ p = .Reg ⟨0⟩ ∧ ∃ g, general g = true ∧ r = .Reg g

/-- The same register, or RAX for a general one. -/
def PlacedReg (p r : RegId) : Prop := p = r ∨ p = ⟨0⟩ ∧ general r = true

/-- Where the resolved form has `n` bytes, the placeholder's has as many exactly
under the condition, and only a form without bytes could pass for a refused
one. -/
def Steady (o o' : Option Nat) (c : Prop) : Prop :=
  ∀ n, o' = some n → (o = some n ↔ c) ∧ (o = none → n ≠ 0)

variable {r p : RegId} {c : Prop} {a b : Bool} {ps rs : List Operand}

@[simp] theorem placed_reg {p : Operand} : Placed p (.Reg r) ↔ ∃ q, p = .Reg q ∧ PlacedReg q r := by
  unfold Placed PlacedReg
  grind

theorem placed_other {p r : Operand} (h : ∀ g, r ≠ .Reg g) : Placed p r ↔ p = r :=
  ⟨fun hp => hp.elim id fun hr => absurd hr.2.choose_spec.2 (h _), Or.inl⟩

theorem placed_reg_left {r : Operand} : Placed (.Reg p) r ↔ ∃ g, r = .Reg g ∧ PlacedReg p g := by
  unfold Placed PlacedReg
  grind

theorem placed_other_left {p r : Operand} (h : ∀ g, p ≠ .Reg g) : Placed p r ↔ r = p :=
  ⟨fun hp => hp.elim Eq.symm fun hr => absurd hr.1 (h _), fun hp => .inl hp.symm⟩

theorem PlacedReg.general (h : PlacedReg p r)
    (hr : paideia_as_encoder.general r = true) : paideia_as_encoder.general p = true := by
  rcases h with rfl | ⟨rfl, -⟩
  · exact hr
  · rfl

theorem PlacedReg.staged {imm : Int64} (h : PlacedReg p r)
    (hr : paideia_as_encoder.staged r imm = true) : paideia_as_encoder.staged p imm = true := by
  rcases h with rfl | ⟨rfl, -⟩
  · exact hr
  · simp [paideia_as_encoder.staged, paideia_as_encoder.general]

theorem PlacedReg.eq_of_vector (h : PlacedReg p r) (hr : 16 ≤ r.num) : p = r := by
  rcases h with rfl | ⟨-, hg⟩
  · rfl
  · exact absurd (of_decide_eq_true hg) (UInt8.not_lt.mpr hr)

theorem PlacedReg.classes (h : PlacedReg p r) :
    is_control_register p = is_control_register r ∧ is_debug_register p = is_debug_register r ∧
      is_general_purpose_register p = is_general_purpose_register r := by
  rcases h with rfl | ⟨rfl, hg⟩
  · exact ⟨rfl, rfl, rfl⟩
  · have hlt : r.num < 16 := of_decide_eq_true hg
    have h16 : ¬ 16 ≤ r.num := UInt8.not_le.mpr hlt
    have h25 : ¬ 25 ≤ r.num := fun h => h16 (UInt8.le_trans (by decide) h)
    unfold is_control_register is_debug_register is_general_purpose_register
    simp [h16, h25, hlt]

theorem PlacedReg.special {q d s : RegId} (hp : PlacedReg p d) (hq : PlacedReg q s) :
    paideia_as_encoder.special p q = paideia_as_encoder.special d s := by
  unfold paideia_as_encoder.special
  rw [hp.classes.1, hp.classes.2.1, hp.classes.2.2, hq.classes.1, hq.classes.2.1, hq.classes.2.2]

@[simp] theorem sized_eq_none {c : Bool} {n : Nat} : sized c n = none ↔ c = false := by
  unfold sized
  split_ifs with h <;> simp [h]

theorem steady_rfl {o : Option Nat} (hc : c) : Steady o o c := by
  intro n hn
  rw [hn]
  exact ⟨iff_of_true rfl hc, fun h => by cases h⟩

theorem steady_none {o : Option Nat} : Steady o none c := fun _ h => by cases h

theorem steady_some {m m' : Nat} (hm : m = m' ↔ c) : Steady (some m) (some m') c := by
  rintro n ⟨⟩
  rw [Option.some_inj]
  exact ⟨hm, fun h => by cases h⟩

/-- RAX is as general as the register, and the lengths then decide. -/
theorem steady_sized {g g' : Bool} {m m' : Nat} (hg : g' = true → g = true)
    (hm : g' = true → (m = m' ↔ c)) : Steady (sized g m) (sized g' m') c := by
  intro n hn
  obtain ⟨hg', rfl⟩ := sized_eq_some.mp hn
  simp only [sized_eq_some, sized_eq_none, hg hg', true_and]
  exact ⟨hm hg', fun h => by cases h⟩

/-- A count must be in `cl`, which RAX is not. -/
theorem steady_counted {g g' : Bool} {p r : RegId} {m m' : Nat} {c : Prop}
    (hg : g' = true → g = true) (hm : p.num = 1 → r.num = 1 → (m = m' ↔ c)) (hpos : m' ≠ 0) :
    Steady (sized (g && p.num == 1) m) (sized (g' && r.num == 1) m')
      (c ∧ (p.num == 1) = (r.num == 1)) := by
  intro n hn
  obtain ⟨hg', rfl⟩ := sized_eq_some.mp hn
  simp only [and_eq_true, beq_iff_eq] at hg'
  by_cases hp : p.num = 1
  · simp [hg hg'.1, hg'.2, hp, hm hp hg'.2]
  · simp [hg'.2, hp, hpos]

@[simp] theorem toNat_eq_toNat : a.toNat = b.toNat ↔ a = b := by
  cases a <;> cases b <;> decide

@[simp] theorem RexUse.len_eq_len {u : RexUse} : u.len a = u.len b ↔ (u = .need → a = b) := by
  cases u <;> simp [RexUse.len]

theorem widthRex_len (width : IntWidth) (e : Bool) :
    (widthRex width).len e = (width == .W64 || e).toNat := by
  cases width <;> rfl

theorem storeRex_len (width : IntWidth) (src : RegId) (e : Bool) : (storeRex width src).len e =
      (width == .W64 || e || width == .W8 && 4 ≤ src.num &&& 7).toNat := by
  unfold storeRex
  cases width with
  | W8 => rcases h : decide (4 ≤ src.num &&& 7) with _ | _ <;> cases e <;> simp <;> rfl
  | _ => cases e <;> rfl

theorem widthRex_need_iff (width : IntWidth) :
    (widthRex width = .need → a = b) ↔ (width != .W64 && a) = (width != .W64 && b) := by
  cases width with
  | W64 => exact ⟨fun _ => rfl, nofun⟩
  | _ => exact ⟨fun h => h rfl, fun h _ => h⟩

theorem not_or_iff {w : Bool} : (w || a) = (w || b) ↔ (!w && a) = (!w && b) := by
  cases w <;> simp

section

attribute [local simp] extended extendedOperand by_cl mov_shape32 byte_store lea_prefixed
  or_prefixed widthRex_len storeRex_len not_or_iff bne
  Bool.or_assoc Bool.or_comm Bool.or_left_comm

variable {ps rs : List Operand}
  {a dest p r : RegId} {op : Operand} {imm : Int64} {b : Bool} {o o' : Option Nat}

theorem placed_two_regs {b : RegId} (h : Forall₂ Placed ps [.Reg a, .Reg b]) :
    ∃ p q, ps = [.Reg p, .Reg q] ∧ (PlacedReg p a ∧ PlacedReg q b) ∧
      (general a = true → general p = true) ∧ (general b = true → general q = true) := by
  simp only [forall₂_cons_right_iff, forall₂_nil_right_iff, placed_reg] at h
  obtain ⟨_, _, ⟨p, rfl, hp⟩, ⟨_, _, ⟨q, rfl, hq⟩, rfl, rfl⟩, rfl⟩ := h
  exact ⟨p, q, rfl, ⟨hp, hq⟩, hp.general, hq.general⟩

theorem placed_reg_op (h : Forall₂ Placed ps [.Reg a, op])
    (hop : ∀ g, op ≠ .Reg g) : ∃ p, ps = [.Reg p, op] ∧
      PlacedReg p a ∧ (general a = true → general p = true) := by
  simp only [forall₂_cons_right_iff, forall₂_nil_right_iff, placed_reg, placed_other hop] at h
  obtain ⟨_, _, ⟨p, rfl, hp⟩, ⟨_, _, rfl, rfl, rfl⟩, rfl⟩ := h
  exact ⟨p, rfl, hp, hp.general⟩

theorem placed_op_reg (h : Forall₂ Placed ps [op, .Reg a])
    (hop : ∀ g, op ≠ .Reg g) : ∃ p, ps = [op, .Reg p] ∧
      PlacedReg p a ∧ (general a = true → general p = true) := by
  simp only [forall₂_cons_right_iff, forall₂_nil_right_iff, placed_reg, placed_other hop] at h
  obtain ⟨_, _, rfl, ⟨_, _, ⟨p, rfl, hp⟩, rfl, rfl⟩, rfl⟩ := h
  exact ⟨p, rfl, hp, hp.general⟩

theorem placed_one_reg (h : Forall₂ Placed ps [.Reg a]) :
    ∃ p, ps = [.Reg p] ∧ PlacedReg p a ∧ (general a = true → general p = true) := by
  simp only [forall₂_cons_right_iff, forall₂_nil_right_iff, placed_reg] at h
  obtain ⟨_, _, ⟨p, rfl, hp⟩, rfl, rfl⟩ := h
  exact ⟨p, rfl, hp, hp.general⟩

theorem steady_imm (hp : PlacedReg p dest) : Steady (size_imm p imm) (size_imm dest imm) True :=
  steady_sized hp.staged fun _ => by simp

/-- Only a control or debug register sets the two rules apart. -/
theorem mov_prefix_eq {mode : InstrMode} {ops : List Operand}
    (h : ∀ d s, ops = [.Reg d, .Reg s] → special d s = false) :
    mov_prefixed mode ops = (mode == .Mode32 && mov_shape32 ops && extended ops) := by
  unfold mov_prefixed
  split
  · rename_i d s
    simp [h d s rfl, mov_shape32]
  · rfl

theorem size_special_eq {d s : RegId} (h : special d s = true) :
    size_special d s = 3 + (special_extended d s).toNat := by
  unfold special at h
  unfold size_special special_extended
  have hnot : ∀ r, is_general_purpose_register r = true → is_control_register r = false := by
    unfold is_general_purpose_register is_control_register
    intro r hlt
    simp [UInt8.not_le.mpr (of_decide_eq_true hlt)]
  have hd := hnot d
  have hs := hnot s
  split_ifs <;> simp_all
  grind

theorem placed_three {b : RegId} (h : Forall₂ Placed ps [.Reg a, .Reg b, op]) :
    ∃ p q op', ps = [.Reg p, .Reg q, op'] ∧ (PlacedReg p a ∧ PlacedReg q b) ∧ Placed op' op := by
  simp only [forall₂_cons_right_iff, forall₂_nil_right_iff, placed_reg] at h
  obtain ⟨_, _, ⟨p, rfl, hp⟩, ⟨_, _, ⟨q, rfl, hq⟩, ⟨op', _, hop, rfl, rfl⟩, rfl⟩, rfl⟩ := h
  exact ⟨p, q, op', rfl, ⟨hp, hq⟩, hop⟩

theorem resolve_reg8_general (h : general r = true) : resolve_reg8 r = (r.num, false) := by
  have hlt : r.num < 16 := of_decide_eq_true h
  unfold resolve_reg8
  split
  · rename_i heq
    rw [heq] at hlt
    exact absurd hlt (by decide)
  · rename_i heq
    rw [heq] at hlt
    exact absurd hlt (by decide)
  · rename_i heq
    rw [heq] at hlt
    exact absurd hlt (by decide)
  · rename_i heq
    rw [heq] at hlt
    exact absurd hlt (by decide)
  · rfl

/-- RAX beside an immediate takes the short form, another register does not. -/
theorem steady_on_rax {w : Bool} {g : Bool} {short k : Nat}
    (hp : PlacedReg p dest) (hk : short < k) (hlong : w = true → fits_i8 imm = false) :
    Steady (sized g (if p.num = 0 then short else (high p.num).toNat + k))
      (sized g (if dest.num = 0 then short else (high dest.num).toNat + k))
      (extended [.Reg p, .Imm64 imm] = extended [.Reg dest, .Imm64 imm] ∧
        on_rax w [.Reg p, .Imm64 imm] = on_rax w [.Reg dest, .Imm64 imm]) := by
  rcases hp with rfl | ⟨rfl, -⟩
  · exact steady_rfl ⟨rfl, rfl⟩
  · refine steady_sized id fun _ => ?_
    by_cases h0 : dest.num = 0
    · simp [h0, extended, extendedOperand, on_rax]
    · have hne : short ≠ (high dest.num).toNat + k := by omega
      have himm : (!(w && fits_i8 imm)) = true := by
        cases w
        · rfl
        · simp [hlong rfl]
      rw [if_pos rfl, if_neg h0]
      simp [hne, h0, on_rax, himm]

/-- An immediate of a byte has one form for every register. -/
theorem steady_short_imm {g : Bool} {k : Nat} (himm : fits_i8 imm = true) :
    Steady (sized g ((high p.num).toNat + k)) (sized g ((high dest.num).toNat + k))
      (extended [.Reg p, .Imm64 imm] = extended [.Reg dest, .Imm64 imm] ∧
        on_rax true [.Reg p, .Imm64 imm] = on_rax true [.Reg dest, .Imm64 imm]) := by
  refine steady_sized id fun _ => ?_
  simp [extended, extendedOperand, on_rax, himm]

theorem steady_cmp_regs {width : IntWidth} {long : Bool} {src : RegId}
    (h : Forall₂ Placed ps [.Reg dest, .Reg src])
    (hps : ∀ d s, size_cmp_sized width [.Reg d, .Reg s] =
      some (opsize width + (high s.num || high d.num).toNat + 2)) :
    Steady (size_cmp_sized width ps) (size_cmp_sized width [.Reg dest, .Reg src])
      (extended ps = extended [.Reg dest, .Reg src] ∧
        on_rax long ps = on_rax long [.Reg dest, .Reg src]) := by
  obtain ⟨p, q, rfl, ⟨hp, hq⟩, -⟩ := placed_two_regs h
  rw [hps, hps]
  refine steady_some ?_
  simp [extended, extendedOperand, on_rax, Bool.or_comm]

theorem steady_cmp_mem {width : IntWidth} {long : Bool} {base src : RegId} {disp : Int32}
    (h : Forall₂ Placed ps [.MemSib base none .X1 disp, .Reg src])
    (hps : ∀ s, size_cmp_sized width [.MemSib base none .X1 disp, .Reg s] =
      some (opsize width + (high s.num || high base.num).toNat + 1 + memLen base.num disp)) :
    Steady (size_cmp_sized width ps)
      (size_cmp_sized width [.MemSib base none .X1 disp, .Reg src])
      (extended ps = extended [.MemSib base none .X1 disp, .Reg src] ∧
        on_rax long ps = on_rax long [.MemSib base none .X1 disp, .Reg src]) := by
  obtain ⟨p, rfl, hp, hg⟩ := placed_op_reg h (by simp)
  rw [hps, hps]
  refine steady_some ?_
  simp [extended, extendedOperand, on_rax, Bool.or_comm]

/-- `accumulator_form` of a sized `cmp`. -/
def accumulator_cmp (width : IntWidth) (ops : List Operand) : Bool :=
  match width with
  | .W8 => on_rax false ops
  | .W16 | .W32 => on_rax true ops
  | .W64 => false

theorem high_le (id : UInt8) : high id = decide (8 ≤ id) := by
  rw [high_eq]
  rfl

theorem PlacedReg.eq_of_ymm (h : PlacedReg p r) (hr : ymm r = true) : p = r := by
  simp only [ymm, and_eq_true, decide_eq_true_eq] at hr
  exact h.eq_of_vector (UInt8.le_trans (by decide) hr.1)

theorem PlacedReg.eq_of_xmm (h : PlacedReg p r) (hr : xmm r = true) : p = r := by
  simp only [xmm, and_eq_true, decide_eq_true_eq] at hr
  exact h.eq_of_vector (UInt8.le_trans (by decide) hr.1)

theorem vexLen_inj {a : Bool} : vexLen a = vexLen b ↔ a = b := by
  cases a <;> cases b <;> simp [vexLen]

section

variable (h : Forall₂ Placed ps rs)

include h

/-- Without a register nothing changes. -/
theorem placed_ops (hrs : ∀ op ∈ rs, ∀ g, op ≠ .Reg g) : ps = rs := by
  induction h with
  | nil => rfl
  | cons hp _ ih =>
    rw [(placed_other (hrs _ List.mem_cons_self)).mp hp, ih fun op hop => hrs op (.tail _ hop)]

theorem steady_reg_mem (u : RexUse) (k : Nat) :
    Steady (size_reg_mem u k ps) (size_reg_mem u k rs) (u = .need → extended ps = extended rs) := by
  fun_cases size_reg_mem u k rs with
  | case1 =>
    obtain ⟨p, q, rfl, -, hp, hq⟩ := placed_two_regs h
    exact steady_sized (by simp +contextual [hp, hq]) (by simp)
  | case2 =>
    obtain ⟨p, rfl, -, hg⟩ := placed_reg_op h (by simp)
    exact steady_sized (by simp +contextual [hg]) (by simp)
  | case3 => exact steady_none

theorem steady_sum : Steady (size_sum ps) (size_sum rs) True := by
  fun_cases size_sum rs with
  | case1 =>
    obtain ⟨p, q, rfl, -, hp, hq⟩ := placed_two_regs h
    exact steady_sized (by simp +contextual [hp, hq]) (by simp)
  | case2 | case3 =>
    obtain ⟨p, rfl, -, hg⟩ := placed_reg_op h (by simp)
    exact steady_sized (by simp +contextual [hg]) (by simp)
  | case4 =>
    obtain ⟨p, rfl, hp, hg⟩ := placed_reg_op h (by simp)
    exact steady_imm hp
  | case5 => exact steady_none

theorem steady_logic : Steady (size_logic ps) (size_logic rs) True := by
  fun_cases size_logic rs with
  | case1 =>
    obtain ⟨p, q, rfl, -, hp, hq⟩ := placed_two_regs h
    exact steady_sized (by simp +contextual [hp, hq]) (by simp)
  | case2 =>
    obtain ⟨p, rfl, hp, hg⟩ := placed_reg_op h (by simp)
    exact steady_imm hp
  | case3 =>
    obtain ⟨p, rfl, -, hg⟩ := placed_reg_op h (by simp)
    exact steady_sized (by simp +contextual [hg]) (by simp)
  | case4 => exact steady_none

section

variable (u : RexUse)

include u

theorem steady_carry :
    Steady (size_carry u ps) (size_carry u rs) (u = .need → extended ps = extended rs) := by
  intro n hn
  unfold size_carry at hn
  split at hn
  · obtain ⟨p, rfl, hp, hg⟩ := placed_reg_op h (by simp)
    refine steady_sized ?_ ?_ n hn
    · simp +contextual [hp.general]
    · simp
  · unfold size_reg_mem at hn
    split at hn
    · obtain ⟨p, q, rfl, ⟨hp, hq⟩, -⟩ := placed_two_regs h
      refine steady_sized ?_ ?_ n hn
      · simp +contextual [hp.general, hq.general]
      · simp
    · obtain ⟨p, rfl, hp, hg⟩ := placed_reg_op h (by simp)
      refine steady_sized ?_ ?_ n hn
      · simp +contextual [hp.general]
      · simp
    · cases hn

theorem steady_bit :
    Steady (size_bit u ps) (size_bit u rs) (u = .need → extended ps = extended rs) := by
  fun_cases size_bit u rs with
  | case1 =>
    obtain ⟨p, q, rfl, -, hp, hq⟩ := placed_two_regs h
    exact steady_sized (by simp +contextual [hp, hq]) (by simp)
  | case2 =>
    obtain ⟨p, rfl, -, hg⟩ := placed_op_reg h (by simp)
    exact steady_sized (by simp +contextual [hg]) (by simp)
  | case3 => exact steady_none

omit u in
theorem steady_shift : Steady (size_shift ps) (size_shift rs) (True ∧ by_cl ps = by_cl rs) := by
  fun_cases size_shift rs with
  | case1 =>
    obtain ⟨p, rfl, -, hg⟩ := placed_reg_op h (by simp)
    exact steady_sized (by simp +contextual [hg]) (by simp)
  | case2 =>
    obtain ⟨p, q, rfl, ⟨hp, hq⟩, -⟩ := placed_two_regs h
    refine steady_counted ?_ ?_ ?_
    · simp +contextual [hp.general]
    · simp
    · simp
  | case3 => exact steady_none

theorem steady_rotation : Steady (size_rotation u ps) (size_rotation u rs)
      ((u = .need → extended ps = extended rs) ∧ by_cl ps = by_cl rs) := by
  fun_cases size_rotation u rs with
  | case1 =>
    obtain ⟨p, rfl, -, hg⟩ := placed_reg_op h (by simp)
    exact steady_sized (by simp +contextual [hg]) (by simp)
  | case2 =>
    obtain ⟨p, q, rfl, ⟨hp, hq⟩, -⟩ := placed_two_regs h
    refine steady_counted ?_ ?_ ?_
    · simp +contextual [hp.general]
    · intro hq1 hs1
      cases u <;> simp [extended, extendedOperand, RexUse.len, hq1, hs1]
    · simp
  | case3 => exact steady_none

theorem steady_reg (k : Nat) :
    Steady (size_reg u k ps) (size_reg u k rs) (u = .need → extended ps = extended rs) := by
  fun_cases size_reg u k rs with
  | case1 =>
    obtain ⟨p, rfl, -, hg⟩ := placed_one_reg h
    exact steady_sized (by simp +contextual [hg]) (by simp)
  | case2 => exact steady_none

theorem steady_mem (k : Nat) : Steady (size_mem u k ps) (size_mem u k rs) True := by
  fun_cases size_mem u k rs with
  | case1 =>
    obtain rfl := placed_ops h (by simp)
    exact steady_rfl trivial
  | case2 => exact steady_none

theorem steady_mem_reg (k : Nat) :
    Steady (size_mem_reg u k ps) (size_mem_reg u k rs) (u = .need → extended ps = extended rs) := by
  fun_cases size_mem_reg u k rs with
  | case1 =>
    obtain ⟨p, rfl, -, hg⟩ := placed_op_reg h (by simp)
    exact steady_sized (by simp +contextual [hg]) (by simp)
  | case2 => exact steady_none

theorem steady_lock :
    Steady (size_lock u ps) (size_lock u rs) (u = .need → extended ps = extended rs) := by
  fun_cases size_lock u rs with
  | case1 =>
    obtain ⟨p, rfl, -, hg⟩ := placed_op_reg h (by simp)
    exact steady_sized (by simp +contextual [hg]) (by simp)
  | case2 =>
    obtain rfl := placed_ops h (by simp)
    exact steady_rfl (fun _ => rfl)
  | case3 => exact steady_none

end

theorem steady_lock_bit : Steady (size_lock_bit ps) (size_lock_bit rs) True := by
  fun_cases size_lock_bit rs with
  | case1 =>
    obtain ⟨p, rfl, -, hg⟩ := placed_op_reg h (by simp)
    exact steady_sized (by simp +contextual [hg]) (by simp)
  | case2 =>
    obtain rfl := placed_ops h (by simp)
    exact steady_rfl trivial
  | case3 => exact steady_none

theorem steady_rol_w16 : Steady (size_rol_w16 ps) (size_rol_w16 rs)
      (extended ps = extended rs ∧ by_cl ps = by_cl rs) := by
  fun_cases size_rol_w16 rs with
  | case1 =>
    obtain ⟨p, rfl, -, hg⟩ := placed_reg_op h (by simp)
    exact steady_sized (by simp +contextual) (by simp)
  | case2 =>
    obtain ⟨p, q, rfl, ⟨hp, hq⟩, -⟩ := placed_two_regs h
    refine @steady_counted true true _ _ _ _ _ ?_ ?_ ?_
    · simp
    · intro hq1 hs1
      simp [extended, extendedOperand, hq1, hs1]
    · simp
  | case3 => exact steady_none

/-! ## Moves with RAX in a place -/

theorem steady_mov_both : Steady (size_mov_both ps) (size_mov_both rs) True := by
  fun_cases size_mov_both rs with
  | case1 =>
    obtain ⟨p, q, rfl, -, hp, hq⟩ := placed_two_regs h
    exact steady_sized (by simp +contextual [hp, hq]) (by simp)
  | case2 | case3 | case5 | case10 | case13 | case15 =>
    obtain ⟨p, rfl, -, hg⟩ := placed_reg_op h (by simp)
    exact steady_sized (by simp +contextual [hg]) (by simp)
  | case4 | case6 | case11 | case14 | case16 =>
    obtain ⟨p, rfl, -, hg⟩ := placed_op_reg h (by simp)
    exact steady_sized (by simp +contextual [hg]) (by simp)
  | case7 | case8 | case9 | case12 =>
    obtain rfl := placed_ops h (by simp)
    exact steady_rfl trivial
  | case17 => exact steady_none

theorem mov_shape32_placed : mov_shape32 ps = mov_shape32 rs := by
  rcases h with _ | ⟨ha, _ | ⟨hb, _ | ⟨hc, h⟩⟩⟩
  · rfl
  · simp [mov_shape32]
  · rcases ha with rfl | ⟨rfl, g, -, rfl⟩ <;> rcases hb with rfl | ⟨rfl, g', -, rfl⟩
    · rfl
    · cases ‹Operand› <;> rfl
    · cases ‹Operand› <;> rfl
    · rfl
  · simp [mov_shape32]

theorem steady_mov_mode32 : Steady (size_mov_mode32 ps) (size_mov_mode32 rs)
      ((mov_shape32 ps && extended ps) = (mov_shape32 rs && extended rs)) := by
  intro n hn
  unfold size_mov_mode32 at hn
  split at hn
  · obtain ⟨p, rfl, hp, hg⟩ := placed_reg_op h (by simp)
    refine steady_sized ?_ ?_ n hn
    · simp +contextual [hp.general]
    · simp
  · obtain ⟨p, q, rfl, ⟨hp, hq⟩, -⟩ := placed_two_regs h
    refine steady_sized ?_ ?_ n hn
    · simp +contextual [hp.general, hq.general]
    · simp
  · obtain ⟨p, rfl, hp, hg⟩ := placed_reg_op h (by simp)
    refine steady_sized ?_ ?_ n hn
    · simp +contextual [hp.general]
    · simp
  · obtain ⟨p, rfl, hp, hg⟩ := placed_op_reg h (by simp)
    refine steady_sized ?_ ?_ n hn
    · simp +contextual [hp.general]
    · simp
  · obtain rfl := placed_ops h (by simp)
    exact steady_rfl rfl n hn
  · rename_i h1 h2 h3 h4 h5
    have hps : size_mov_mode32 ps = size_mov_both ps := by
      unfold size_mov_mode32
      split <;> simp_all [forall₂_cons_left_iff, placed_reg_left, placed_other_left]
    have hshape : mov_shape32 rs = false := by
      unfold mov_shape32
      split <;> simp_all
    rw [hps, mov_shape32_placed h, hshape]
    simpa using steady_mov_both h n hn

theorem steady_mov_generic (mode : InstrMode) :
    Steady (size_mov_generic mode ps) (size_mov_generic mode rs)
      ((mode == .Mode32 && mov_shape32 ps && extended ps) =
        (mode == .Mode32 && mov_shape32 rs && extended rs)) := by
  intro n hn
  unfold size_mov_generic at hn
  split at hn
  · obtain ⟨p, rfl, hp, hg⟩ := placed_op_reg h (by simp)
    refine steady_sized ?_ ?_ n hn
    · simp +contextual [hp.general]
    · simp [mov_shape32]
  · rename_i hseg
    have hps : ∀ s src, ps ≠ [.SegReg s, .Reg src] := by
      intro s src hps
      simp_all [forall₂_cons_left_iff, placed_reg_left, placed_other_left]
    cases mode with
    | Mode32 =>
      rw [size_mov_generic.eq_2 _ hps]
      simpa using steady_mov_mode32 h n hn
    | Mode64 =>
      rw [size_mov_generic.eq_3 _ hps]
      have h64 : (InstrMode.Mode64 == InstrMode.Mode32) = false := rfl
      simpa [h64] using steady_mov_both h n hn

theorem steady_mov (mode : InstrMode) :
    Steady (size_mov mode ps) (size_mov mode rs) (mov_prefixed mode ps = mov_prefixed mode rs) := by
  intro n hn
  unfold size_mov at hn
  split at hn
  · rename_i d s rest
    rcases h with _ | ⟨ha, _ | ⟨hb, h⟩⟩
    obtain ⟨p, rfl, hp⟩ := placed_reg.mp ha
    obtain ⟨q, rfl, hq⟩ := placed_reg.mp hb
    rename_i rest'
    have hspecial := hp.special hq
    have hrest : rest'.isEmpty = rest.isEmpty := by cases h <;> rfl
    have hps : size_mov mode (.Reg p :: .Reg q :: rest') = if special d s then
        sized rest.isEmpty (size_special p q)
        else size_mov_generic mode (.Reg p :: .Reg q :: rest') := by
      simp only [size_mov, hspecial, hrest]
    rw [hps]
    split_ifs at hn ⊢ with hds
    · refine steady_sized id (fun hempty => ?_) n hn
      obtain rfl := List.isEmpty_iff.mp hempty
      obtain rfl := List.isEmpty_iff.mp (hrest.trans hempty)
      rw [size_special_eq hds, size_special_eq (hspecial.trans hds)]
      simp [mov_prefixed, hds, hspecial.trans hds]
    · have hd : ∀ d' s', .Reg d :: .Reg s :: rest = [Operand.Reg d', .Reg s'] →
          special d' s' = false := by
        rintro d' s' ⟨⟩
        simpa using hds
      have hd' : ∀ d' s', .Reg p :: .Reg q :: rest' = [Operand.Reg d', .Reg s'] →
          special d' s' = false := by
        rintro d' s' ⟨⟩
        simpa [hspecial] using hds
      rw [mov_prefix_eq hd, mov_prefix_eq hd']
      exact steady_mov_generic (.cons ha (.cons hb h)) mode n hn
  · cases hn
  · cases hn
  · rename_i h1 h2 h3
    have hps : size_mov mode ps = size_mov_generic mode ps := by
      unfold size_mov
      split <;> simp_all [forall₂_cons_left_iff, placed_reg_left, placed_other_left]
    have hrs : ∀ d s, rs = [.Reg d, .Reg s] → special d s = false := fun d s heq =>
      absurd heq (h1 d s [])
    have hno : ∀ d s, ps = [.Reg d, .Reg s] → special d s = false := by
      intro d s heq
      simp_all [forall₂_cons_left_iff, placed_reg_left]
    rw [hps, mov_prefix_eq hrs, mov_prefix_eq hno]
    exact steady_mov_generic h mode n hn

theorem steady_mov_sized (mode : InstrMode) (width : IntWidth) :
    Steady (size_mov_sized mode width ps) (size_mov_sized mode width rs)
      ((width != .W64 && (extended ps || width == .W8 && byte_store ps)) =
        (width != .W64 && (extended rs || width == .W8 && byte_store rs))) := by
  fun_cases size_mov_sized mode width rs with
  | case1 | case2 | case3 | case11 =>
    obtain ⟨p, rfl, -, hg⟩ := placed_reg_op h (by simp)
    exact steady_sized (by simp +contextual [hg]) (by simp)
  | case4 | case7 | case13 =>
    obtain rfl := placed_ops h (by simp)
    exact steady_rfl rfl
  | case5 | case6 | case12 =>
    obtain ⟨p, rfl, -, hg⟩ := placed_op_reg h (by simp)
    exact steady_sized (by simp +contextual [hg]) (by simp)
  | case8 | case9 =>
    obtain ⟨p, rfl, hp, hg⟩ := placed_reg_op h (by simp)
    refine steady_some ?_
    simp [widthRex_len, Bool.or_comm, not_or_iff, bne, extended, extendedOperand, byte_store]
  | case10 =>
    obtain ⟨p, rfl, hp, hg⟩ := placed_op_reg h (by simp)
    refine steady_some ?_
    simp [widthRex_len, Bool.or_comm, not_or_iff, bne, extended, extendedOperand, byte_store]
  | case14 => exact steady_none

/-! ## The rest -/

theorem steady_movnti (width : IntWidth) : Steady (size_movnti width ps) (size_movnti width rs)
      ((width != .W64 && extended ps) = (width != .W64 && extended rs)) := by
  fun_cases size_movnti width rs with
  | case1 | case2 =>
    obtain ⟨p, rfl, -, hg⟩ := placed_op_reg h (by simp)
    exact steady_sized (by simp +contextual [hg]) (by simp)
  | case3 => exact steady_none

theorem steady_movzx (w : UInt8) : Steady (size_movzx w ps) (size_movzx w rs) True := by
  fun_cases size_movzx w rs with
  | case1 =>
    obtain ⟨p, q, rfl, -, hp, hq⟩ := placed_two_regs h
    exact steady_sized (by simp +contextual [hp, hq]) (by simp)
  | case2 =>
    obtain ⟨p, rfl, -, hg⟩ := placed_reg_op h (by simp)
    exact steady_sized (by simp +contextual [hg]) (by simp)
  | case3 => exact steady_none

theorem steady_movsx (w : UInt8) : Steady (size_movsx w ps) (size_movsx w rs) True := by
  fun_cases size_movsx w rs with
  | case1 =>
    obtain ⟨p, q, rfl, -, hp, hq⟩ := placed_two_regs h
    exact steady_sized (by simp +contextual [hp, hq]) (by simp)
  | case2 =>
    obtain ⟨p, rfl, -, hg⟩ := placed_reg_op h (by simp)
    exact steady_sized (by simp +contextual [hg]) (by simp)
  | case3 => exact steady_none

theorem steady_lea (mode : InstrMode) :
    Steady (size_lea mode ps) (size_lea mode rs) (lea_prefixed mode ps = lea_prefixed mode rs) := by
  fun_cases size_lea mode rs with
  | case6 => exact steady_none
  | case4 =>
    obtain ⟨p, rfl, -, hg⟩ := placed_reg_op h (by simp)
    exact steady_sized (by simp +contextual [hg]) fun _ => iff_of_true rfl rfl
  | _ =>
    obtain ⟨p, rfl, -, hg⟩ := placed_reg_op h (by simp)
    exact steady_sized (by simp +contextual [hg]) (by simp)

theorem steady_or_mode32 : Steady (size_or_mode32 ps) (size_or_mode32 rs)
      (or_prefixed .Mode32 ps = or_prefixed .Mode32 rs) := by
  intro n hn
  unfold size_or_mode32 at hn
  split at hn
  · obtain ⟨p, rfl, hp, hg⟩ := placed_reg_op h (by simp)
    refine steady_sized ?_ ?_ n hn
    · simp +contextual [hp.general]
    · simp [or_prefixed, extended, extendedOperand]
  · rename_i hne
    have hps : ∀ dst imm, ps ≠ [.Reg dst, .Imm64 imm] := by
      intro dst imm hps
      simp_all [forall₂_cons_left_iff, placed_reg_left, placed_other_left]
    have hpre : ∀ ops : List Operand, (∀ dst imm, ops ≠ [.Reg dst, .Imm64 imm]) →
        or_prefixed .Mode32 ops = false := by
      intro ops hops
      unfold or_prefixed
      split
      · exact absurd rfl (hops _ _)
      · rfl
    rw [size_or_mode32.eq_2 _ hps, hpre ps hps, hpre rs hne]
    simpa using steady_logic h n hn

theorem steady_imul : Steady (size_imul ps) (size_imul rs) True := by
  fun_cases size_imul rs with
  | case1 =>
    obtain ⟨p, q, rfl, -, hp, hq⟩ := placed_two_regs h
    exact steady_sized (by simp +contextual [hp, hq]) (by simp)
  | case2 =>
    obtain ⟨p, q, _, rfl, ⟨hp, hq⟩, hop⟩ := placed_three h
    obtain rfl := (placed_other (by simp)).mp hop
    exact steady_sized (by simp +contextual [hp.general, hq.general]) (by simp)
  | case3 =>
    obtain ⟨p, rfl, -, hg⟩ := placed_reg_op h (by simp)
    exact steady_sized (by simp +contextual [hg]) (by simp)
  | case4 => exact steady_none

theorem steady_cmp : Steady (size_cmp ps) (size_cmp rs) True := by
  fun_cases size_cmp rs with
  | case1 =>
    obtain ⟨p, q, rfl, -, hp, hq⟩ := placed_two_regs h
    exact steady_sized (by simp +contextual [hp, hq]) (by simp)
  | case2 =>
    obtain ⟨p, rfl, -, hg⟩ := placed_op_reg h (by simp)
    exact steady_sized (by simp +contextual [hg]) (by simp)
  | case3 =>
    obtain ⟨p, rfl, hp, hg⟩ := placed_reg_op h (by simp)
    exact steady_imm hp
  | case4 => exact steady_none

theorem steady_test : Steady (size_test ps) (size_test rs) (on_rax false ps = on_rax false rs) := by
  fun_cases size_test rs with
  | case1 =>
    obtain ⟨p, q, rfl, -, hp, hq⟩ := placed_two_regs h
    exact steady_sized (by simp +contextual [hp, hq]) (by simp [on_rax])
  | case2 =>
    obtain ⟨p, rfl, hp, hg⟩ := placed_reg_op h (by simp)
    refine steady_sized (by simp +contextual [hp.general]) ?_
    simp only [on_rax, Bool.false_and, Bool.not_false, Bool.and_true]
    grind
  | case3 => exact steady_none

theorem steady_push : Steady (size_push ps) (size_push rs) (extended ps = extended rs) := by
  fun_cases size_push rs with
  | case1 =>
    obtain ⟨p, rfl, -, hg⟩ := placed_one_reg h
    exact steady_sized (by simp +contextual [hg]) (by simp)
  | case2 =>
    obtain rfl := placed_ops h (by simp)
    exact steady_rfl rfl
  | case3 => exact steady_none

theorem steady_jcc : Steady (size_jcc ps) (size_jcc rs) True := by
  fun_cases size_jcc rs with
  | case1 | case2 =>
    obtain rfl := placed_ops h (by simp)
    exact steady_rfl trivial
  | case3 => exact steady_none

theorem steady_setcc : Steady (size_setcc ps) (size_setcc rs) (extended ps = extended rs) := by
  intro n hn
  unfold size_setcc at hn
  split at hn
  · obtain ⟨p, rfl, hp, -⟩ := placed_one_reg h
    rcases hp with rfl | ⟨rfl, hg⟩
    · exact steady_rfl rfl n hn
    · rw [resolve_reg8_general hg] at hn
      refine steady_some ?_ n hn
      simp [resolve_reg8, extended, extendedOperand]
  · cases hn

theorem steady_jmp : Steady (size_jmp ps) (size_jmp rs) (extended ps = extended rs) := by
  fun_cases size_jmp rs with
  | case1 | case2 | case3 | case4 | case5 =>
    obtain rfl := placed_ops h (by simp)
    exact steady_rfl rfl
  | case6 =>
    obtain ⟨p, rfl, -, hg⟩ := placed_one_reg h
    exact steady_sized (by simp +contextual [hg]) (by simp)
  | case7 => exact steady_none

theorem steady_call : Steady (size_call ps) (size_call rs) (extended ps = extended rs) := by
  fun_cases size_call rs with
  | case1 | case2 | case3 | case4 | case6 | case7 =>
    obtain rfl := placed_ops h (by simp)
    exact steady_rfl rfl
  | case5 =>
    obtain ⟨p, rfl, -, hg⟩ := placed_one_reg h
    exact steady_sized (by simp +contextual [hg]) (by simp)
  | case8 => exact steady_none

theorem steady_invpcid :
    Steady (size_invpcid ps) (size_invpcid rs) (extended ps = extended rs) := by
  fun_cases size_invpcid rs with
  | case1 =>
    obtain ⟨p, rfl, -, hg⟩ := placed_reg_op h (by simp)
    exact steady_sized (by simp +contextual [hg]) (by simp)
  | case2 => exact steady_none

theorem steady_cmp_sized (width : IntWidth) :
    Steady (size_cmp_sized width ps) (size_cmp_sized width rs)
      ((width != .W64 && extended ps) = (width != .W64 && extended rs) ∧
        accumulator_cmp width ps = accumulator_cmp width rs) := by
  intro n hn
  cases width with
  | W64 =>
    have hcmp := steady_cmp h n hn
    exact ⟨hcmp.1.trans (iff_of_true trivial ⟨rfl, rfl⟩), hcmp.2⟩
  | W8 =>
    have hn' := hn
    unfold size_cmp_sized at hn'
    split at hn'
    case h_2 =>
      obtain ⟨p, rfl, hp, hg⟩ := placed_reg_op h (by simp)
      exact steady_on_rax (w := false) hp (by decide) nofun n hn
    case h_5 => exact steady_cmp_regs h (fun _ _ => rfl) n hn
    case h_6 => exact steady_cmp_mem h (fun _ => rfl) n hn
    all_goals simp_all
  | W16 =>
    have hn' := hn
    unfold size_cmp_sized at hn'
    split at hn'
    case h_3 =>
      rename_i dest imm _
      obtain ⟨p, rfl, hp, hg⟩ := placed_reg_op h (by simp)
      rcases h8 : fits_i8 imm with _ | _
      · have hsize : ∀ r, size_cmp_sized .W16 [.Reg r, .Imm64 imm] =
            sized (-32768 ≤ imm.toInt && imm.toInt ≤ 32767)
              (if r.num = 0 then 4 else (high r.num).toNat + 5) :=
          fun r => by simp [size_cmp_sized, h8]
        rw [hsize] at hn ⊢
        exact steady_on_rax (w := true) hp (by decide) (fun _ => h8) n hn
      · have hsize : ∀ r, size_cmp_sized .W16 [.Reg r, .Imm64 imm] =
            sized (-32768 ≤ imm.toInt && imm.toInt ≤ 32767) ((high r.num).toNat + 4) :=
          fun r => by simp [size_cmp_sized, h8]
        rw [hsize] at hn ⊢
        exact steady_short_imm h8 n hn
    case h_5 => exact steady_cmp_regs h (fun _ _ => rfl) n hn
    case h_6 => exact steady_cmp_mem h (fun _ => rfl) n hn
    all_goals simp_all
  | W32 =>
    have hn' := hn
    unfold size_cmp_sized at hn'
    split at hn'
    case h_4 =>
      rename_i dest imm _
      obtain ⟨p, rfl, hp, hg⟩ := placed_reg_op h (by simp)
      rcases h8 : fits_i8 imm with _ | _
      · have hsize : ∀ r, size_cmp_sized .W32 [.Reg r, .Imm64 imm] =
            sized (fits_i32 imm) (if r.num = 0 then 5 else (high r.num).toNat + 6) :=
          fun r => by simp [size_cmp_sized, h8]
        rw [hsize] at hn ⊢
        exact steady_on_rax (w := true) hp (by decide) (fun _ => h8) n hn
      · have hsize : ∀ r, size_cmp_sized .W32 [.Reg r, .Imm64 imm] =
            sized (fits_i32 imm) ((high r.num).toNat + 3) :=
          fun r => by simp [size_cmp_sized, h8]
        rw [hsize] at hn ⊢
        exact steady_short_imm h8 n hn
    case h_5 => exact steady_cmp_regs h (fun _ _ => rfl) n hn
    case h_6 => exact steady_cmp_mem h (fun _ => rfl) n hn
    all_goals simp_all

theorem steady_lock_add (u : RexUse) :
    Steady (size_lock_add u ps) (size_lock_add u rs) (u = .need → extended ps = extended rs) := by
  intro n hn
  unfold size_lock_add at hn
  split at hn
  · obtain rfl := placed_ops h (by simp)
    exact steady_rfl (fun _ => rfl) n hn
  · rename_i hne
    have hps : ∀ disp imm, ps ≠ [.MemDisp disp, .Imm64 imm] := by
      intro disp imm hps
      simp_all [forall₂_cons_left_iff, placed_other_left]
    rw [size_lock_abs u hps]
    exact steady_lock h u n hn

theorem steady_lock_inc (u : RexUse) : Steady (size_lock_inc u ps) (size_lock_inc u rs) True := by
  fun_cases size_lock_inc u rs with
  | case1 =>
    obtain rfl := placed_ops h (by simp)
    exact steady_rfl trivial
  | case2 => exact steady_none

theorem steady_int : Steady (size_int ps) (size_int rs) True := by
  fun_cases size_int rs with
  | case1 =>
    obtain rfl := placed_ops h (by simp)
    exact steady_rfl trivial
  | case2 => exact steady_none

theorem steady_far_jmp : Steady (size_far_jmp ps) (size_far_jmp rs) True := by
  fun_cases size_far_jmp rs with
  | case1 | case2 | case3 | case4 =>
    obtain rfl := placed_ops h (by simp)
    exact steady_rfl trivial
  | case5 => exact steady_none

theorem steady_descriptor : Steady (size_descriptor ps) (size_descriptor rs) True := by
  fun_cases size_descriptor rs with
  | case1 | case2 | case3 =>
    obtain rfl := placed_ops h (by simp)
    exact steady_rfl trivial
  | case4 => exact steady_none

theorem steady_invlpg : Steady (size_invlpg ps) (size_invlpg rs) True := by
  fun_cases size_invlpg rs with
  | case1 =>
    obtain rfl := placed_ops h (by simp)
    exact steady_rfl trivial
  | case2 => exact steady_none

theorem steady_bare (k : Nat) : Steady (sized ps.isEmpty k) (sized rs.isEmpty k) True := by
  cases h with
  | nil => exact steady_rfl trivial
  | cons => exact steady_none

theorem steady_mov_cr (write : Bool) :
    Steady (size_mov_cr write ps) (size_mov_cr write rs) (extended ps = extended rs) := by
  fun_cases size_mov_cr write rs with
  | case1 =>
    obtain ⟨p, q, rfl, ⟨hp, hq⟩, -⟩ := placed_two_regs h
    refine steady_sized ?_ ?_
    · rcases hp with rfl | ⟨rfl, -⟩ <;> rcases hq with rfl | ⟨rfl, -⟩ <;> cases write <;>
      simp +contextual [takes_mov_cr]
    · simp [extended, extendedOperand, high_le]
  | case2 => exact steady_none

theorem steady_mov_dr (write : Bool) :
    Steady (sized (takes_mov_dr write ps) 3) (sized (takes_mov_dr write rs) 3) True := by
  refine steady_sized (fun hn => ?_) fun _ => iff_of_true rfl trivial
  unfold takes_mov_dr at hn
  split at hn
  · obtain ⟨p, q, rfl, ⟨hp, hq⟩, -⟩ := placed_two_regs h
    rcases hp with rfl | ⟨rfl, -⟩ <;> rcases hq with rfl | ⟨rfl, -⟩ <;> cases write <;>
    simp_all [takes_mov_dr]
  · cases hn

/-- The accumulator stands for itself. -/
theorem steady_port (w : UInt8) : Steady (size_port w ps) (size_port w rs) True := by
  intro n hn
  unfold size_port takes_port at hn
  split at hn
  · obtain ⟨p, rfl, hp, hg⟩ := placed_one_reg h
    refine steady_sized ?_ ?_ n hn
    · rcases hp with rfl | ⟨rfl, -⟩ <;> simp [takes_port]
    · simp
  · cases hn

/-! ## Vectors with RAX in a place -/

theorem steady_vex_regs : Steady (size_vex_regs ps) (size_vex_regs rs) True := by
  intro n hn
  have hn' := hn
  unfold size_vex_regs at hn'
  split at hn'
  · obtain ⟨p, q, _, rfl, ⟨hp, hq⟩, hop⟩ := placed_three h
    obtain ⟨r, rfl, hr⟩ := placed_reg.mp hop
    simp only [sized_eq_some, and_eq_true] at hn'
    obtain rfl := hp.eq_of_ymm hn'.1.1.1
    obtain rfl := hq.eq_of_ymm hn'.1.1.2
    obtain rfl := hr.eq_of_ymm hn'.1.2
    exact steady_rfl trivial n hn
  · cases hn'

theorem steady_vpmovmskb :
    Steady (size_vpmovmskb ps) (size_vpmovmskb rs) (vpmovmskb_prefixed ps = vpmovmskb_prefixed rs) := by
  intro n hn
  unfold size_vpmovmskb at hn
  split at hn
  · obtain ⟨p, q, rfl, ⟨hp, hq⟩, -⟩ := placed_two_regs h
    have hy := (sized_eq_some.mp hn).1
    rw [and_eq_true] at hy
    obtain rfl := hq.eq_of_ymm hy.2
    refine steady_sized ?_ ?_ n hn
    · simp +contextual [hp.general]
    · simp [vpmovmskb_prefixed, vexLen_inj]
  · cases hn

theorem steady_vmovdqu (is_store : Bool) :
    Steady (size_vmovdqu is_store ps) (size_vmovdqu is_store rs) True := by
  have hreg : ∀ {a op}, ymm a = true → Forall₂ Placed ps [.Reg a, op] →
      (∀ g, op ≠ .Reg g) → ps = [.Reg a, op] := by
    intro a op ha h hop
    obtain ⟨p, rfl, hp, hg⟩ := placed_reg_op h hop
    rw [hp.eq_of_ymm ha]
  have hop : ∀ {a op}, ymm a = true → Forall₂ Placed ps [op, .Reg a] →
      (∀ g, op ≠ .Reg g) → ps = [op, .Reg a] := by
    intro a op ha h hop
    obtain ⟨p, rfl, hp, hg⟩ := placed_op_reg h hop
    rw [hp.eq_of_ymm ha]
  intro n hn
  have hn' := hn
  unfold size_vmovdqu at hn'
  split at hn' <;> simp only [sized_eq_some, and_eq_true, reduceCtorEq] at hn'
  · obtain ⟨p, q, rfl, ⟨hp, hq⟩, -⟩ := placed_two_regs h
    obtain rfl := hp.eq_of_ymm hn'.1.1
    obtain rfl := hq.eq_of_ymm hn'.1.2
    exact steady_rfl trivial n hn
  · obtain rfl := hreg hn'.1.2 h (by simp)
    exact steady_rfl trivial n hn
  · obtain rfl := hop hn'.1.2 h (by simp)
    exact steady_rfl trivial n hn
  · obtain rfl := hreg hn'.1.2 h (by simp)
    exact steady_rfl trivial n hn
  · obtain rfl := hreg hn'.1.2 h (by simp)
    exact steady_rfl trivial n hn
  all_goals
    obtain rfl := hop hn'.1.2 h (by simp)
    exact steady_rfl trivial n hn

theorem steady_xmm_xmm (pre : Nat) : Steady (size_xmm_xmm pre ps) (size_xmm_xmm pre rs) True := by
  intro n hn
  have hn' := hn
  unfold size_xmm_xmm at hn'
  split at hn'
  · obtain ⟨p, q, rfl, ⟨hp, hq⟩, -⟩ := placed_two_regs h
    simp only [sized_eq_some, and_eq_true] at hn'
    obtain rfl := hp.eq_of_xmm hn'.1.1
    obtain rfl := hq.eq_of_xmm hn'.1.2
    exact steady_rfl trivial n hn
  · cases hn'

theorem takes_xmm_reg_placed (hrs : takes_xmm_reg rs = true) : takes_xmm_reg ps = true := by
  unfold takes_xmm_reg at hrs
  split at hrs
  · obtain ⟨p, q, rfl, ⟨hp, hq⟩, -⟩ := placed_two_regs h
    rw [and_eq_true] at hrs
    obtain rfl := hp.eq_of_xmm hrs.1
    simp [takes_xmm_reg, hrs.1, hq.general hrs.2]
  · cases hrs

theorem takes_reg_xmm_placed (hrs : takes_reg_xmm rs = true) : takes_reg_xmm ps = true := by
  unfold takes_reg_xmm at hrs
  split at hrs
  · obtain ⟨p, q, rfl, ⟨hp, hq⟩, -⟩ := placed_two_regs h
    rw [and_eq_true] at hrs
    obtain rfl := hq.eq_of_xmm hrs.2
    simp [takes_reg_xmm, hrs.2, hp.general hrs.1]
  · cases hrs

theorem steady_bitcast (rex_w to_xmm : Bool) :
    Steady (size_bitcast rex_w to_xmm ps) (size_bitcast rex_w to_xmm rs)
      ((!rex_w && movd_prefixed to_xmm ps) = (!rex_w && movd_prefixed to_xmm rs)) := by
  intro n hn
  unfold size_bitcast at hn
  split at hn
  · obtain ⟨p, q, rfl, ⟨hp, hq⟩, -⟩ := placed_two_regs h
    cases to_xmm with
    | true =>
      have hx := (sized_eq_some.mp hn).1
      rw [and_eq_true] at hx
      obtain rfl := hp.eq_of_xmm hx.1
      refine steady_sized ?_ ?_ n hn
      · simp +contextual [hq.general]
      · simp [movd_prefixed, not_or_iff]
    | false =>
      have hx := (sized_eq_some.mp hn).1
      rw [and_eq_true] at hx
      obtain rfl := hq.eq_of_xmm hx.2
      refine steady_sized ?_ ?_ n hn
      · simp +contextual [hp.general]
      · simp [movd_prefixed, not_or_iff]
  · cases hn

/-! ## Every mnemonic with RAX in a place -/


end

theorem Steady.congr {c c' : Prop} (h : Steady o o' c) (hc : c ↔ c') : Steady o o' c' :=
  fun n hn => ⟨(h n hn).1.trans hc, (h n hn).2⟩

theorem Steady.gate {c g : Prop} [Decidable g] (h : Steady o o' c) :
    Steady (if g then o else none) (if g then o' else none) c := by
  split_ifs
  · exact h
  · exact steady_none

theorem Steady.width {width : IntWidth} {o o' : Option Nat} {a b : Bool}
    (h : Steady o o' (widthRex width = .need → a = b)) :
    Steady (if wide32 width then o else none) (if wide32 width then o' else none)
      ((width != .W64 && a) = (width != .W64 && b)) :=
  h.gate.congr (widthRex_need_iff width)

theorem Steady.need {a : Bool}
    (h : Steady o o' (RexUse.need = .need → a = b)) : Steady o o' (a = b) :=
  h.congr ⟨fun h => h rfl, fun h _ => h⟩

theorem Steady.wide {a : Bool} (h : Steady o o' (RexUse.wide = .need → a = b)) : Steady o o' True :=
  h.congr (iff_of_true nofun trivial)

theorem or_prefix_mode64 (ops : List Operand) : or_prefixed .Mode64 ops = false := by
  unfold or_prefixed
  split <;> rfl

section

variable {i i' : Instruction} {o o' : Option Nat}

/-- No register changes the form. -/
theorem of_fixed (h : Steady o o' True)
    (hp : prefix_asked i = prefix_asked i') (ha : accumulator_form i = accumulator_form i')
    (hc : counts_in_cl i = counts_in_cl i') : Steady o o' (SameForm i i') :=
  h.congr (iff_of_true trivial ⟨hp, ha, hc⟩)

theorem of_prefix (h : Steady o o' (prefix_asked i = prefix_asked i'))
    (ha : accumulator_form i = accumulator_form i') (hc : counts_in_cl i = counts_in_cl i') :
    Steady o o' (SameForm i i') :=
  h.congr ⟨fun hp => ⟨hp, ha, hc⟩, SameForm.prefix_eq⟩

theorem of_accumulator (h : Steady o o' (prefix_asked i = prefix_asked i' ∧ accumulator_form i = accumulator_form i'))
    (hc : counts_in_cl i = counts_in_cl i') : Steady o o' (SameForm i i') :=
  h.congr ⟨fun hp => ⟨hp.1, hp.2, hc⟩, fun hs => ⟨hs.prefix_eq, hs.accumulator_eq⟩⟩

theorem of_count (h : Steady o o' (prefix_asked i = prefix_asked i' ∧ counts_in_cl i = counts_in_cl i'))
    (ha : accumulator_form i = accumulator_form i') : Steady o o' (SameForm i i') :=
  h.congr ⟨fun hp => ⟨hp.1, ha, hp.2⟩, fun hs => ⟨hs.prefix_eq, hs.count_eq⟩⟩

end

theorem steady_size (inst : Instruction) (h : Forall₂ Placed ps rs) :
    Steady (size { inst with operands := ps }) (size { inst with operands := rs })
      (SameForm { inst with operands := ps } { inst with operands := rs }) := by
  obtain ⟨m, ops, hint, mode⟩ := inst
  cases m with
  | Mov => exact of_prefix (steady_mov h mode) rfl rfl
  | MovSized width => exact of_prefix (steady_mov_sized h mode width) rfl rfl
  | MovCr write => exact of_prefix (steady_mov_cr h write) rfl rfl
  | MovDr write => exact of_fixed (steady_mov_dr h write) rfl rfl rfl
  | Movnti width => exact of_prefix (steady_movnti h width) rfl rfl
  | Movzx => exact of_fixed (steady_movzx h _) rfl rfl rfl
  | Movsx => exact of_fixed (steady_movsx h _) rfl rfl rfl
  | Lea => exact of_prefix (steady_lea h mode) rfl rfl
  | Add | Sub => exact of_fixed (steady_sum h) rfl rfl rfl
  | Adc width => exact of_prefix (steady_carry h _).width rfl rfl
  | Sbb width | Popcnt width => exact of_prefix (steady_reg_mem h _ _).width rfl rfl
  | Crc32 width | Bsf width | Bsr width | Tzcnt width =>
    exact of_fixed (steady_reg_mem h _ _).wide.gate rfl rfl rfl
  | Bt width | Bts width | Btr width | Btc width =>
    exact of_prefix (steady_bit h _).width rfl rfl
  | And | Xor => exact of_fixed (steady_logic h) rfl rfl rfl
  | Or =>
    cases mode with
    | Mode32 => exact of_prefix (steady_or_mode32 h) rfl rfl
    | Mode64 =>
      exact of_fixed (steady_logic h) ((or_prefix_mode64 ps).trans (or_prefix_mode64 rs).symm)
        rfl rfl
  | Imul => exact of_fixed (steady_imul h) rfl rfl rfl
  | Cmp => exact of_fixed (steady_cmp h) rfl rfl rfl
  | CmpSized width =>
    cases width with
    | W8 => exact of_accumulator (steady_cmp_sized h .W8) rfl
    | W16 => exact of_accumulator (steady_cmp_sized h .W16) rfl
    | W32 => exact of_accumulator (steady_cmp_sized h .W32) rfl
    | W64 => exact of_accumulator (steady_cmp_sized h .W64) rfl
  | Test => exact of_accumulator ((steady_test h).congr ⟨fun h => ⟨rfl, h⟩, And.right⟩) rfl
  | Shl | Shr | Sar =>
    exact of_count ((steady_shift h).congr (and_congr_left fun _ => iff_of_true trivial rfl)) rfl
  | Rol width =>
    cases width with
    | W8 => exact steady_none
    | W16 => exact of_count (steady_rol_w16 h) rfl
    | W32 =>
      exact of_count
        ((steady_rotation h .need).congr (and_congr_left fun _ => widthRex_need_iff .W32)) rfl
    | W64 =>
      exact of_count
        ((steady_rotation h .wide).congr (and_congr_left fun _ => widthRex_need_iff .W64)) rfl
  | Ror width =>
    exact of_count
      ((steady_rotation h _).gate.congr (and_congr_left fun _ => widthRex_need_iff width)) rfl
  | Not | Div | Idiv | Mul | Inc | Dec | Bswap =>
    exact of_fixed (steady_reg h _ _).wide rfl rfl rfl
  | Bswap32 | Ltr => exact of_prefix (steady_reg h _ _).need rfl rfl
  | Push => exact of_prefix (steady_push h).gate rfl rfl
  | Pop => exact of_prefix (steady_reg h _ _).need.gate rfl rfl
  | Xchg | LockCmpxchg => exact of_fixed (steady_mem_reg h _ _).wide rfl rfl rfl
  | LockCmpxchg32 => exact of_prefix (steady_mem_reg h _ _).need rfl rfl
  | LockCmpxchg16b | Fxsave | Fxrstor | Xsaveopt | Xrstor | Clflush | Clflushopt | Prefetchnta
  | Prefetcht0 | Prefetcht1 | Prefetcht2 =>
    exact of_fixed (steady_mem h _ _) rfl rfl rfl
  | Invlpg => exact of_fixed (steady_invlpg h) rfl rfl rfl
  | LockXadd width => exact of_prefix (steady_mem_reg h _ _).width rfl rfl
  | LockAdd width => exact of_prefix (steady_lock_add h _).width rfl rfl
  | LockSub width => exact of_prefix (steady_lock h _).width rfl rfl
  | LockInc width => exact of_fixed (steady_lock_inc h _).gate rfl rfl rfl
  | LockBts width | LockBtr width | LockBtc width =>
    exact of_fixed (steady_lock_bit h).gate rfl rfl rfl
  | LockAnd width | LockOr width | LockXor width =>
    exact of_fixed (steady_mem_reg h _ _).wide.gate rfl rfl rfl
  | Jcc cond => exact of_fixed (steady_jcc h) rfl rfl rfl
  | Setcc cond => exact of_prefix (steady_setcc h) rfl rfl
  | Jmp => exact of_prefix (steady_jmp h) rfl rfl
  | Call => exact of_prefix (steady_call h) rfl rfl
  | FarJmp => exact of_fixed (steady_far_jmp h) rfl rfl rfl
  | Int => exact of_fixed (steady_int h) rfl rfl rfl
  | In width | Out width => exact of_fixed (steady_port h _) rfl rfl rfl
  | Lgdt | Lidt => exact of_fixed (steady_descriptor h) rfl rfl rfl
  | Invpcid => exact of_prefix (steady_invpcid h) rfl rfl
  | Vpxor | Vpcmpeqb => exact of_fixed (steady_vex_regs h) rfl rfl rfl
  | Vpmovmskb => exact of_prefix (steady_vpmovmskb h) rfl rfl
  | Vmovdqu is_store => exact of_fixed (steady_vmovdqu h _) rfl rfl rfl
  | MovSd | MovSs | AddSd | AddSs | SubSd | SubSs | MulSd | MulSs | DivSd | DivSs | Sqrtsd | Sqrtss
  | Ucomisd | Ucomiss | Comisd | Comiss =>
    exact of_fixed (steady_xmm_xmm h _) rfl rfl rfl
  | Cvtsi2sd | Cvtsi2ss =>
    exact of_fixed (steady_sized (takes_xmm_reg_placed h) fun _ => iff_of_true rfl trivial)
      rfl rfl rfl
  | Cvttsd2si | Cvttss2si =>
    exact of_fixed (steady_sized (takes_reg_xmm_placed h) fun _ => iff_of_true rfl trivial)
      rfl rfl rfl
  | MovdBitcast to_xmm => exact of_prefix (steady_bitcast h false to_xmm) rfl rfl
  | MovqBitcast to_xmm =>
    exact of_fixed ((steady_bitcast h true to_xmm).congr (iff_of_true rfl trivial)) rfl rfl rfl
  | _ => exact of_fixed (steady_bare h _) rfl rfl rfl

end

/-! ## The estimate against the encoding -/

theorem fills_placed {op op' : Operand} (h : Fills op op') : Placed (placeholder op) op' := by
  cases op with
  | Var name =>
    obtain ⟨r, hr, rfl⟩ := h
    exact .inr ⟨rfl, r, hr, rfl⟩
  | _ =>
    cases h
    exact .inl rfl

theorem sized_inst_eq (inst : Instruction) :
    sized_inst inst = { inst with operands := inst.operands.map placeholder } := by
  unfold sized_inst
  split_ifs with h
  · rfl
  · have hmap : inst.operands.map placeholder = inst.operands := by
      refine (List.map_congr_left fun op hop => ?_).trans (List.map_id _)
      cases op with
      | Var name => exact absurd (List.any_eq_true.mpr ⟨_, hop, rfl⟩) h
      | _ => rfl
    rw [hmap]

/-- A segment prefix stands at the same place. -/
theorem find_mem_seg_placed (h : Forall₂ Placed ps rs) : find_mem_seg ps = find_mem_seg rs := by
  induction h with
  | nil => rfl
  | @cons p r ps rs hp _ ih =>
    rcases hp with rfl | ⟨rfl, g, -, rfl⟩
    · cases p <;> simp [find_mem_seg, ih]
    · simp [find_mem_seg, ih]

theorem forall₂_set (h : Forall₂ Placed ps rs) (idx : Nat)
    (op : Operand) : Forall₂ Placed (ps.set idx op) (rs.set idx op) := by
  induction h generalizing idx with
  | nil => exact .nil
  | cons hp h ih =>
    cases idx with
    | zero => exact .cons (.inl rfl) h
    | succ idx => exact .cons hp (ih idx)

theorem under_prefix_placed (h : Forall₂ Placed ps rs) :
    Forall₂ Placed ((underPrefix ps).getD ps) ((underPrefix rs).getD rs) := by
  unfold underPrefix
  rw [find_mem_seg_placed h]
  rcases find_mem_seg rs with _ | ⟨idx, seg, inner⟩
  · exact h
  · exact forall₂_set h idx inner

/-- The byte of a segment prefix. -/
def prefixLen (ops : List Operand) : Nat := if (find_mem_seg ops).isSome then 1 else 0

theorem yields_encode_iff (inst : Instruction) (n : Nat) : (encode_instruction inst).Yields n ↔
    ∃ m, size (under_prefixed inst) = some m ∧ prefixLen inst.operands + m = n := by
  unfold encode_instruction under_prefixed underPrefix prefixLen
  rcases find_mem_seg inst.operands with _ | ⟨idx, seg, inner⟩
  · simp [yields_impl_iff]
  · simp [yields_impl_iff, yields_bind_pure]

theorem estimated_bytes_eq_iff (inst : Instruction) (n : Nat) : estimated_bytes inst = .ok n ↔
    (encode_instruction (sized_inst inst)).Yields n ∨
      (∃ e, (encode_instruction (sized_inst inst)).result = .error (.err e)) ∧ n = 0 := by
  unfold estimated_bytes run Yields
  rcases (encode_instruction (sized_inst inst)) with ⟨bs, (_ | _) | out⟩ <;> simp [eq_comm]

/-- The estimate is right exactly if the filled instruction has the same form. -/
theorem estimate_exact_iff (inst : Instruction) (ops : List Operand) (bs : List UInt8)
    (out : EncodeOutput) (hfill : List.Forall₂ Fills inst.operands ops)
    (henc : (encode_instruction { inst with operands := ops }).run [] = (bs, .ok out)) :
    estimated_bytes inst = .ok bs.length ↔
      SameForm (under_prefixed (sized_inst inst)) (under_prefixed { inst with operands := ops }) := by
  have hplaced : List.Forall₂ Placed (inst.operands.map placeholder) ops :=
    List.forall₂_map_left_iff.mpr (hfill.imp fun _ _ => fills_placed)
  have hyields : (encode_instruction { inst with operands := ops }).Yields bs.length :=
    ⟨⟨out, congrArg Prod.snd henc⟩, congrArg (List.length ∘ Prod.fst) henc⟩
  obtain ⟨m, hm, hlen⟩ := (yields_encode_iff _ _).mp hyields
  obtain ⟨hsteady, hpos⟩ := steady_size inst (under_prefix_placed hplaced) m hm
  have hpre : prefixLen (sized_inst inst).operands = prefixLen ops := by
    rw [sized_inst_eq]
    unfold prefixLen
    rw [find_mem_seg_placed hplaced]
  have hest : (encode_instruction (sized_inst inst)).Yields bs.length ↔
      size (under_prefixed (sized_inst inst)) = some m := by
    rw [yields_encode_iff, hpre, ← hlen]
    simp
  rw [estimated_bytes_eq_iff, hest]
  rw [sized_inst_eq] at hest ⊢
  refine Iff.trans (or_iff_left ?_) hsteady
  rintro ⟨⟨e, he⟩, hzero⟩
  refine hpos ?_ (by omega)
  -- a form that the table has would not end in an error
  rcases hsize : size _ with _ | k
  · rfl
  · obtain ⟨⟨a, ha⟩, -⟩ := (yields_encode_iff
      { inst with operands := inst.operands.map placeholder } _).mpr ⟨k, hsize, rfl⟩
    exact nomatch he.symm.trans ha

/-- `push x` with `r12` for `x` has two bytes, and the estimate is one. -/
theorem estimated_push_r12 : ¬ ∀ inst ops bs out, List.Forall₂ Fills inst.operands ops →
    (encode_instruction { inst with operands := ops }).run [] = (bs, .ok out) →
      estimated_bytes inst = .ok bs.length := by
  intro h
  have hbytes := h ⟨.Push, [.Var "x"], none, .Mode64⟩ [.Reg ⟨12⟩] [0x41, 0x54] .new
    (.cons ⟨⟨12⟩, rfl, rfl⟩ .nil) rfl
  cases hbytes

/-- `add x, 5` has four bytes whatever the register. -/
theorem add_r12_exact : estimated_bytes ⟨.Add, [.Var "x", .Imm64 5], none, .Mode64⟩ = .ok 4 :=
  (estimate_exact_iff ⟨.Add, [.Var "x", .Imm64 5], none, .Mode64⟩ [.Reg ⟨12⟩, .Imm64 5]
    [0x49, 0x83, 0xC4, 0x05] .new (.cons ⟨⟨12⟩, rfl, rfl⟩ (.cons rfl .nil)) rfl).mpr
    ⟨rfl, rfl, rfl⟩

end paideia_as_encoder
