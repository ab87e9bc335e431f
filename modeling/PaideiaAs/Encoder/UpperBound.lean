-- The sizes that the resolver lays labels out with, beside the bytes that the
-- encoder writes: which forms outgrow the table.
import PaideiaAs.Encoder.Estimates
import PaideiaAs.Runtime.Resolve

namespace paideia_as_encoder

open paideia_as_runtime Emit
open Bool (toNat_le)

/-! ## What makes an instruction longer -/

/-- A displacement of four bytes. -/
def wide (disp : Int32) : Bool := decide (¬(-128 ≤ disp.toInt ∧ disp.toInt ≤ 127))

/-- A displacement is written. Over `rbp` and `r13` that is so for zero too. -/
def displaced (base : RegId) (disp : Int32) : Bool :=
  decide (¬(disp.toInt = 0 ∧ base.num &&& 7 ≠ 5))

/-- `rsp` and `r12` as a base take a SIB byte. -/
def sib_base (base : RegId) : Bool := base.num &&& 7 == 4

/-- `n` of the flags are set. -/
def atLeast (n : Nat) (flags : List Bool) : Bool := n ≤ flags.count true

/-- A wide displacement, and `n` of the flags beside it. -/
def far (n : Nat) (flags : List Bool) (disp : Int32) : Bool := wide disp && atLeast n flags

/-- A wide displacement, or any displacement and the flags, `n` together. -/
def near (n : Nat) (flags : List Bool) (base : RegId) (disp : Int32) : Bool :=
  wide disp || atLeast n (displaced base disp :: flags)

section

variable {n m : Nat} {b : Bool} {flags : List Bool} {base : RegId} {disp : Int32}

/-- The bytes of a displacement. -/
def dispWidth (base : RegId) (disp : Int32) : Nat :=
  if wide disp then 4 else (displaced base disp).toNat

theorem disp_mode_len : (disp_mode (base.num &&& 7) disp).2 = dispWidth base disp := by
  unfold disp_mode dispWidth wide displaced
  by_cases hnone : disp.toInt = 0 ∧ base.num &&& 7 ≠ 5
  · simp [hnone]
  · by_cases hfits : -128 ≤ disp.toInt ∧ disp.toInt ≤ 127
    · simp [hnone, hfits]
    · simp [hnone, hfits]

theorem memLen_eq : memLen base.num disp = 1 + (sib_base base).toNat + dispWidth base disp := by
  unfold memLen sib_base
  rw [disp_mode_len]
  by_cases h : base.num &&& 7 = 4 <;> simp [h]

theorem sibLen_eq : sibLen base.num disp = 2 + dispWidth base disp := by
  unfold sibLen
  rw [disp_mode_len]

theorem bareLen_le : bareLen disp ≤ 5 := by
  unfold bareLen
  split_ifs <;> decide

theorem bareLen_narrow (h : wide disp = false) : bareLen disp ≤ 2 := by
  have hfits := of_decide_eq_false h
  unfold bareLen
  rw [if_pos (not_not.mp hfits)]
  split_ifs <;> decide

theorem bareLen_wide (h : wide disp = true) : bareLen disp = 5 := by
  have hfits := of_decide_eq_true h
  unfold bareLen
  rw [if_neg hfits, if_neg]
  intro hzero
  exact hfits (by omega)

theorem count_flag : (b :: flags).count true = b.toNat + flags.count true := by
  cases b <;> simp [Nat.add_comm]

theorem atLeast_false : atLeast n flags = false ↔ flags.count true < n := by
  unfold atLeast
  rw [decide_eq_false_iff_not, Nat.not_le]

theorem near_false (hn : n ≤ 4) :
    near n flags base disp = false ↔ dispWidth base disp + flags.count true < n := by
  unfold near dispWidth
  rw [Bool.or_eq_false_iff, atLeast_false, count_flag]
  cases wide disp
  · simp
  · simp
    omega

theorem far_false (hn : flags.length < n + 3) :
    far n flags disp = false ↔ dispWidth base disp + flags.count true < n + 4 := by
  have hcount : flags.count true ≤ flags.length := List.count_le_length
  have hone := toNat_le (displaced base disp)
  unfold far dispWidth
  cases wide disp
  · simp
    omega
  · rw [Bool.true_and, atLeast_false]
    simp
    omega

end

/-! ## The forms that outgrow the table -/

section

variable (seg : Bool)

def mov_outgrows (mode : InstrMode) : List Operand → Bool
  | [.Reg _, .Imm64 imm] => seg && mode == .Mode64 && !fits_i32 imm
  | [.MemSib _ _ _ disp, .Imm64 imm] => !fits_i32 imm || wide disp
  | [.MemRipRelSym _ _, .Imm64 _] | [.MemDisp _, .Imm64 _] => true
  | [.SymbolRef _ _, .Imm64 _] => seg
  | _ => false

/-- A byte register from 4 on takes a prefix in a store. -/
def store_prefixed (width : IntWidth) (src : RegId) (extended : Bool) : Bool :=
  width == .W8 && decide (4 ≤ src.num &&& 7) || extended

/-- A sized `mov` of up to four bytes. -/
def mov_narrow_outgrows (width : IntWidth) : List Operand → Bool
  | [.Reg dst, .Imm64 _] => atLeast (if width = .W8 then 2 else 1) [high dst.num, seg]
  | [.Reg dst, .MemSib base none _ disp] =>
    near (if width = .W32 then 4 else 2) [high dst.num || high base.num, sib_base base, seg]
      base disp
  | [.Reg dst, .MemSib base (some index) _ disp] =>
    near (if width = .W32 then 3 else 1) [high dst.num || high index.num || high base.num, seg]
      base disp
  | [.MemSib base none _ disp, .Reg src] =>
    near (if width = .W32 then 4 else 2)
      [store_prefixed width src (high src.num || high base.num), sib_base base, seg] base disp
  | [.MemSib base (some index) _ disp, .Reg src] =>
    near (if width = .W32 then 3 else 1)
      [store_prefixed width src (high src.num || high index.num || high base.num), seg] base disp
  | [.MemSib base none _ disp, .Imm64 _] =>
    width != .W8 || near 1 [high base.num, sib_base base, seg] base disp
  | _ => true

def mov_sized_outgrows (width : IntWidth) (ops : List Operand) : Bool :=
  match width, ops with
  | .W64, [.Reg _, .Imm64 _] => seg
  | .W64, [.MemSib _ _ _ disp, .Imm64 _] => wide disp
  | .W64, [.MemDisp _, .Imm64 _] => true
  | .W64, _ => false
  | _, _ => mov_narrow_outgrows seg width ops

/-- Only the lowering of an immediate beyond 32 bits is too long. -/
def imm_outgrows : List Operand → Bool
  | [.Reg _, .Imm64 imm] => !fits_i32 imm
  | _ => false

def cmp_sized_outgrows (width : IntWidth) : List Operand → Bool
  | [.Reg dest, .Imm64 imm] =>
    match width with
    | .W8 => dest.num != 0 && atLeast 1 [high dest.num, seg]
    | .W16 =>
      if fits_i8 imm then atLeast 1 [high dest.num, seg] else dest.num != 0 || seg
    | .W32 => !fits_i8 imm && (dest.num != 0 || seg)
    | .W64 => !fits_i32 imm
  | [.Reg dest, .Reg src] =>
    (width == .W8 || width == .W16) && atLeast 2 [high src.num || high dest.num, seg]
  | [.MemSib base none _ disp, .Reg src] =>
    width != .W64 && near (if width = .W32 then 4 else 2)
      [high src.num || high base.num, sib_base base, seg] base disp
  | _ => false

/-- A memory operand that, with a wide displacement, has no room for `n` of a
REX prefix, a SIB byte and a segment prefix. -/
def mem_outgrows (n : Nat) (long : Bool) : List Operand → Bool
  | [.MemSib base none _ disp] => far n [long || high base.num, sib_base base, seg] disp
  | [.MemSib base none _ disp, .Reg src] =>
    far n [long || (high base.num || high src.num), sib_base base, seg] disp
  | [.Reg dest, .MemSib base none _ disp] =>
    far n [long || (high dest.num || high base.num), sib_base base, seg] disp
  | _ => false

def movnti_outgrows (long : Bool) : List Operand → Bool
  | [.MemSib base none _ disp, .Reg src] =>
    far 2 [long || (high src.num || high base.num), sib_base base, seg] disp
  | [.MemSib base (some index) _ disp, .Reg src] =>
    far 1 [long || (high src.num || high index.num || high base.num), seg] disp
  | _ => false

def lock_outgrows (long : Bool) : List Operand → Bool
  | [.MemSib base none _ disp, .Imm64 imm] =>
    if fits_i8 imm then far 2 [long || high base.num, sib_base base, seg] disp
    else near 3 [long || high base.num, sib_base base, seg] base disp
  | [.MemDisp _, .Imm64 imm] => !fits_i8 imm || long || seg
  | ops => mem_outgrows seg 3 long ops

def lock_bit_outgrows : List Operand → Bool
  | [.MemSib base none _ disp, .Reg _] => far 1 [sib_base base, seg] disp
  | [.MemSib _ none _ disp, .Imm64 _] => wide disp
  | _ => false

def rotation_outgrows (long : Bool) : List Operand → Bool
  | [.Reg dst, .Imm64 imm] => imm.toInt != 1 && atLeast 2 [long || high dst.num, seg]
  | _ => false

def rol_w16_outgrows : List Operand → Bool
  | [.Reg dst, .Imm64 imm] => atLeast (if imm.toInt = 1 then 2 else 1) [high dst.num, seg]
  | [.Reg dst, .Reg _] => atLeast 2 [high dst.num, seg]
  | _ => false

/-- Under a segment prefix, a register that takes a REX prefix. -/
def reg_outgrows : List Operand → Bool
  | [.Reg r] => atLeast 2 [high r.num, seg]
  | _ => false

def call_outgrows : List Operand → Bool
  | [.Imm64 _] | [.SymbolRef _ _] => seg
  | [.MemRipRel _] | [.MemRipRelSym _ _] => true
  | [.MemSib base none _ disp] => near 4 [high base.num, sib_base base, seg] base disp
  | [.MemSib base (some idx) _ disp] => near 3 [high idx.num || high base.num, seg] base disp
  | _ => false

def push_outgrows : List Operand → Bool
  | [.Imm64 imm] => seg && !fits_i8 imm
  | _ => false

def jcc_outgrows : List Operand → Bool
  | [.Imm64 rel] => seg && !can_use_rel8 rel
  | _ => seg

def setcc_outgrows : List Operand → Bool
  | [.Reg dst] => seg && (high (resolve_reg8 dst).1 || (resolve_reg8 dst).2)
  | _ => false

def jmp_outgrows : List Operand → Bool
  | [.Reg _] => false
  | _ => seg

def movd_outgrows (to_xmm : Bool) : List Operand → Bool
  | [.Reg dst, .Reg src] =>
    let (vector, gpr) := if to_xmm then (dst, src) else (src, dst)
    seg && (is_high (vector.num - 53) || is_high gpr.num)
  | _ => false

/-- An address written without a SIB byte, under a segment prefix. -/
def bare_outgrows : List Operand → Bool
  | [.MemSib _ _ _ disp] => seg && wide disp
  | _ => seg

def xmm_outgrows : List Operand → Bool
  | [.Reg dst, .Reg src] => atLeast 2 [is_high (dst.num - 53) || is_high (src.num - 53), seg]
  | _ => false

end

/-- The forms whose bytes are more than the table says. -/
def form_outgrows (seg : Bool) (mode : InstrMode) (ops : List Operand) : Mnemonic → Bool
  | .Iretq | .Sysret | .Swapgs | .RepStosq => true
  | .Mov => mov_outgrows seg mode ops
  | .MovSized width => mov_sized_outgrows seg width ops
  | .Movnti width => movnti_outgrows seg (width == .W64) ops
  | .Add | .Sub | .And | .Xor | .Cmp => imm_outgrows ops
  | .Or => mode == .Mode64 && imm_outgrows ops
  | .CmpSized width => cmp_sized_outgrows seg width ops
  | .Crc32 _ => mem_outgrows seg 1 true ops
  | .Popcnt width => mem_outgrows seg 2 (width == .W64) ops
  | .Tzcnt _ | .LockAnd _ | .LockOr _ | .LockXor _ | .Xchg | .LockCmpxchg | .LockCmpxchg16b =>
    mem_outgrows seg 3 true ops
  | .Bt width | .Bts width | .Btr width | .Btc width => mem_outgrows seg 3 (width == .W64) ops
  | .LockCmpxchg32 | .Invpcid | .Fxsave | .Fxrstor | .Xsaveopt | .Xrstor | .Clflush
  | .Prefetchnta | .Prefetcht0 | .Prefetcht1 | .Prefetcht2 => mem_outgrows seg 3 false ops
  | .Clflushopt => mem_outgrows seg 2 false ops
  | .LockXadd width => mem_outgrows seg 1 (width == .W64) ops
  | .LockAdd width | .LockSub width => lock_outgrows seg (width == .W64) ops
  | .LockInc width => atLeast 2 [width == .W64, seg]
  | .LockBts _ | .LockBtr _ | .LockBtc _ => lock_bit_outgrows seg ops
  | .Rol .W16 => rol_w16_outgrows seg ops
  | .Rol width | .Ror width => rotation_outgrows seg (width == .W64) ops
  | .Shl | .Shr | .Sar => seg && !by_cl ops
  | .Inc | .Dec | .Bswap | .Int => seg
  | .Pop | .Bswap32 | .Ltr => reg_outgrows seg ops
  | .Push => push_outgrows seg ops
  | .Jcc _ => jcc_outgrows seg ops
  | .Setcc _ => setcc_outgrows seg ops
  | .Jmp => jmp_outgrows seg ops
  | .Call => call_outgrows seg ops
  | .FarJmp | .Lgdt | .Lidt | .Invlpg => bare_outgrows seg ops
  | .In width | .Out width => seg && width == 2
  | .MovSd | .MovSs | .AddSd | .AddSs | .SubSd | .SubSs | .MulSd | .MulSs | .DivSd | .DivSs
  | .Sqrtsd | .Sqrtss | .Ucomisd | .Comisd => xmm_outgrows seg ops
  | .Cvtsi2sd | .Cvtsi2ss | .Cvttsd2si | .Cvttss2si | .MovqBitcast _ => seg
  | .MovdBitcast to_xmm => movd_outgrows seg to_xmm ops
  | _ => false

/-- The instruction under its segment prefix, and that prefix. -/
def outgrows (inst : Instruction) : Bool :=
  form_outgrows (find_mem_seg inst.operands).isSome inst.mode (under_prefixed inst).operands
    inst.mnemonic

/-! ## Each form against its room -/

section

variable {seg long : Bool} {u : RexUse} {n k e m : Nat} {ops : List Operand} {base : RegId}
  {disp : Int32} {width : IntWidth} {mode : InstrMode}
  {a b : Bool} {w : UInt8} {full : List Operand}

theorem near_three {c : Bool} (hn : n ≤ 4) : near n [a, b, c] base disp = false ↔
    dispWidth base disp + a.toNat + b.toNat + c.toNat < n := by
  rw [near_false hn, count_flag, count_flag, count_flag, List.count_nil]
  omega

theorem near_two (hn : n ≤ 4) : near n [a, b] base disp = false ↔
    dispWidth base disp + a.toNat + b.toNat < n := by
  rw [near_false hn, count_flag, count_flag, List.count_nil]
  omega

theorem far_three {c : Bool} (base : RegId) (hn : 0 < n) : far n [a, b, c] disp = false ↔
    dispWidth base disp + a.toNat + b.toNat + c.toNat < n + 4 := by
  rw [@far_false n [a, b, c] base disp (Nat.lt_add_of_pos_left hn), count_flag, count_flag,
    count_flag, List.count_nil]
  omega

theorem far_two (base : RegId) : far n [a, b] disp = false ↔
    dispWidth base disp + a.toNat + b.toNat < n + 4 := by
  have hroom : [a, b].length < n + 3 := Nat.lt_add_left n (Nat.lt_succ_self 2)
  rw [@far_false n [a, b] base disp hroom, count_flag, count_flag, List.count_nil]
  omega

theorem two_flags : atLeast n [a, b] = false ↔ a.toNat + b.toNat < n := by
  rw [atLeast_false, count_flag, count_flag, List.count_nil]
  omega

theorem dispWidth_wide (h : wide disp = true) : dispWidth base disp = 4 := by
  unfold dispWidth
  rw [if_pos h]

theorem dispWidth_narrow (h : wide disp = false) : dispWidth base disp ≤ 1 := by
  unfold dispWidth
  rw [h]
  exact toNat_le _

/-- The prefix of a form that always has one, or only for an extended register. -/
def Prefixes (u : RexUse) (long : Bool) : Prop :=
  ∀ extended, u.len extended = (long || extended).toNat

theorem prefixes_wide : Prefixes .wide true := fun _ => rfl

theorem prefixes_need : Prefixes .need false := fun _ => rfl

theorem prefixes_width (width : IntWidth) : Prefixes (widthRex width) (width == .W64) := by
  intro extended
  cases width <;> rfl

theorem mem_room (hu : Prefixes u long) (hn : 0 < n) (extended : Bool) :
    seg.toNat + (k + u.len extended + memLen base.num disp) ≤ k + n + 4 ↔
      far n [long || extended, sib_base base, seg] disp = false := by
  rw [far_three base hn, hu, memLen_eq]
  omega

theorem reg_mem_fits (hu : Prefixes u long) (hn : 0 < n) (h : size_reg_mem u k ops = some m) :
    seg.toNat + m ≤ k + n + 4 ↔ mem_outgrows seg n long ops = false := by
  have hseg := toNat_le seg
  unfold size_reg_mem at h
  split at h
  · rename_i dest src
    obtain rfl := size_of h
    have hlen := toNat_le (long || (high dest.num || high src.num))
    refine iff_of_true ?_ rfl
    rw [hu]
    omega
  · obtain rfl := size_of h
    exact mem_room hu hn _
  · cases h

theorem mem_fits (hu : Prefixes u long) (hn : 0 < n) (h : size_mem u k ops = some m) :
    seg.toNat + m ≤ k + n + 4 ↔ mem_outgrows seg n long ops = false := by
  unfold size_mem at h
  split at h
  · obtain rfl := size_of h
    exact mem_room hu hn _
  · cases h

theorem mem_reg_fits (hu : Prefixes u long) (hn : 0 < n) (h : size_mem_reg u k ops = some m) :
    seg.toNat + m ≤ k + n + 4 ↔ mem_outgrows seg n long ops = false := by
  unfold size_mem_reg at h
  split at h
  · obtain rfl := size_of h
    exact mem_room hu hn _
  · cases h

theorem bit_fits (hu : Prefixes u long) (h : size_bit u ops = some m) :
    seg.toNat + m ≤ 9 ↔ mem_outgrows seg 3 long ops = false := by
  have hseg := toNat_le seg
  unfold size_bit at h
  split at h
  · rename_i bitmap index
    obtain rfl := size_of h
    have hlen := toNat_le (long || (high bitmap.num || high index.num))
    refine iff_of_true ?_ rfl
    rw [hu]
    omega
  · obtain rfl := size_of h
    rw [Nat.add_comm _ 2]
    exact @mem_room seg long u 3 2 _ _ hu (by decide) _
  · cases h

/-- A form within its room, whatever its flags. -/
theorem sized_within {g : Bool} (h : sized g k = some m) (hk : seg.toNat + k ≤ e) :
    seg.toNat + m ≤ e ↔ false = false := by
  obtain rfl := size_of h
  exact iff_of_true hk rfl

theorem dispWidth_le : dispWidth base disp ≤ 4 := by
  cases hwide : wide disp
  · exact (dispWidth_narrow hwide).trans (by decide)
  · exact (dispWidth_wide hwide).le

theorem memLen_le : memLen base.num disp ≤ 6 := by
  have hsib := toNat_le (sib_base base)
  have hdisp : dispWidth base disp ≤ 4 := dispWidth_le
  rw [memLen_eq]
  omega

theorem sibLen_le : sibLen base.num disp ≤ 6 := by
  have hdisp : dispWidth base disp ≤ 4 := dispWidth_le
  rw [sibLen_eq]
  omega

theorem sized_le {g : Bool} (h : sized g k = some m) (hk : k ≤ e) : m ≤ e :=
  (sized_eq_some.mp h).2 ▸ hk

theorem mem_le (hk : k + 6 ≤ e) : k + memLen base.num disp ≤ e :=
  (Nat.add_le_add_left memLen_le k).trans hk

theorem sib_le (hk : k + 6 ≤ e) : k + sibLen base.num disp ≤ e :=
  (Nat.add_le_add_left sibLen_le k).trans hk

theorem mem_within (hk : k + 7 ≤ e) : seg.toNat + (k + memLen base.num disp) ≤ e :=
  (Nat.add_le_add (toNat_le seg) (mem_le (Nat.le_refl _))).trans (by omega)

theorem sib_within (hk : k + 7 ≤ e) : seg.toNat + (k + sibLen base.num disp) ≤ e :=
  (Nat.add_le_add (toNat_le seg) (sib_le (Nat.le_refl _))).trans (by omega)

theorem not_fits {p : Prop} (h : ¬ p) : p ↔ true = false := iff_of_false h Bool.noConfusion

/-- A form that fills its room. -/
theorem seg_fits : seg.toNat + k ≤ k ↔ seg = false := by
  cases seg <;> simp

/-- A form whose displacement decides. -/
theorem wide_fits (base : RegId) (hnear : dispWidth base disp ≤ 1 → m ≤ e)
    (hfar : dispWidth base disp = 4 → e < m) : m ≤ e ↔ wide disp = false := by
  cases hwide : wide disp with
  | true => exact not_fits (Nat.not_le.mpr (hfar (dispWidth_wide hwide)))
  | false => exact iff_of_true (hnear (dispWidth_narrow hwide)) rfl

theorem imm_fits {dest : RegId} {imm : Int64} (h : size_imm dest imm = some m) :
    seg.toNat + m ≤ 10 ↔ imm_outgrows [.Reg dest, .Imm64 imm] = false := by
  have hseg := toNat_le seg
  obtain rfl := size_of h
  change _ ↔ (!fits_i32 imm) = false
  split_ifs with hi8 hi32
  · rw [fits_i32_of_i8 hi8]
    exact iff_of_true (by omega) rfl
  · rw [hi32]
    exact iff_of_true (by omega) rfl
  · rw [Bool.not_eq_true] at hi32
    rw [hi32]
    exact not_fits (by omega)

theorem sum_fits (h : size_sum ops = some m) : seg.toNat + m ≤ 10 ↔ imm_outgrows ops = false := by
  have hseg := toNat_le seg
  unfold size_sum at h
  split at h
  · exact sized_within h (by omega)
  · exact sized_within h (mem_within (by decide))
  · exact sized_within h (sib_within (by decide))
  · exact imm_fits h
  · cases h

theorem logic_fits (h : size_logic ops = some m) :
    seg.toNat + m ≤ 10 ↔ imm_outgrows ops = false := by
  have hseg := toNat_le seg
  unfold size_logic at h
  split at h
  · exact sized_within h (by omega)
  · exact imm_fits h
  · exact sized_within h (mem_within (by decide))
  · cases h

theorem cmp_fits (h : size_cmp ops = some m) : seg.toNat + m ≤ 10 ↔ imm_outgrows ops = false := by
  have hseg := toNat_le seg
  unfold size_cmp at h
  split at h
  · exact sized_within h (by omega)
  · exact sized_within h (mem_within (by decide))
  · exact imm_fits h
  · cases h

/-! ### Moves -/

/-- The store of an immediate, whose address takes `k` bytes beside the
displacement. -/
theorem store_imm_fits {imm : Int64} (hpos : 0 < k) (hk : k ≤ 2) :
    seg.toNat + (k + dispWidth base disp + if fits_i32 imm then 6 else 12) ≤ 10 ↔
      (!fits_i32 imm || wide disp) = false := by
  have hseg := toNat_le seg
  cases hfits : fits_i32 imm with
  | false => exact not_fits (by simp; omega)
  | true =>
    cases hwide : wide disp with
    | true =>
      rw [dispWidth_wide hwide]
      exact not_fits (by simp; omega)
    | false =>
      have hdisp : dispWidth base disp ≤ 1 := dispWidth_narrow hwide
      exact iff_of_true (by simp; omega) rfl

theorem size_special_le (d s : RegId) : size_special d s ≤ 4 := by
  have hcr := toNat_le (decide (8 ≤ d.num - 16) || decide (8 ≤ s.num))
  have hrc := toNat_le (decide (8 ≤ s.num - 16) || decide (8 ≤ d.num))
  unfold size_special
  split_ifs <;> omega

theorem mov_both_fits (h : size_mov_both ops = some m) :
    seg.toNat + m ≤ 10 ↔ mov_outgrows seg .Mode64 ops = false := by
  have hseg := toNat_le seg
  unfold size_mov_both at h
  split at h
  · exact sized_within h (by omega)
  · rename_i dest imm
    obtain rfl := size_of h
    change _ ↔ (seg && true && !fits_i32 imm) = false
    cases fits_i32 imm <;> cases seg <;> simp
  · exact sized_within h (mem_within (by decide))
  · exact sized_within h (mem_within (by decide))
  · exact sized_within h (sib_within (by decide))
  · exact sized_within h (sib_within (by decide))
  · rename_i base disp imm
    obtain rfl := size_of h
    have hsib := toNat_le (sib_base base)
    rw [memLen_eq]
    exact store_imm_fits (Nat.le_add_right 1 _) (Nat.add_le_add_left hsib 1)
  · obtain rfl := size_of h
    rw [sibLen_eq]
    exact store_imm_fits (by decide) (by decide)
  · obtain rfl := size_of h
    exact not_fits (by omega)
  · exact sized_within h (by omega)
  · exact sized_within h (by omega)
  · cases h
    exact not_fits (by omega)
  · exact sized_within h (by omega)
  · exact sized_within h (by omega)
  · exact sized_within h (by omega)
  · exact sized_within h (by omega)
  · cases h

/-- Beside the load of an immediate the mode makes no difference. -/
theorem mov_outgrows_mode (hops : ∀ dst imm, ops ≠ [.Reg dst, .Imm64 imm]) :
    mov_outgrows seg .Mode32 ops = mov_outgrows seg .Mode64 ops := by
  unfold mov_outgrows
  split
  · rename_i dst imm
    exact absurd rfl (hops dst imm)
  all_goals rfl

theorem mov_mode32_fits (h : size_mov_mode32 ops = some m) :
    seg.toNat + m ≤ 10 ↔ mov_outgrows seg .Mode32 ops = false := by
  have hseg := toNat_le seg
  unfold size_mov_mode32 at h
  split at h
  · rename_i dst imm
    have hhigh := toNat_le (high dst.num)
    obtain rfl := size_of h
    refine iff_of_true (by omega) ?_
    change (seg && false && !fits_i32 imm) = false
    simp
  · rename_i dst src
    have hhigh := toNat_le (high dst.num || high src.num)
    exact sized_within h (by omega)
  · rename_i dst _ _
    have hhigh := toNat_le (high dst.num)
    exact sized_within h (by omega)
  · rename_i _ _ src
    have hhigh := toNat_le (high src.num)
    exact sized_within h (by omega)
  · obtain rfl := size_of h
    exact seg_fits
  · rename_i hload _ _ _ _
    rw [mov_outgrows_mode hload]
    exact mov_both_fits h

theorem mov_generic_fits (h : size_mov_generic mode ops = some m) :
    seg.toNat + m ≤ 10 ↔ mov_outgrows seg mode ops = false := by
  unfold size_mov_generic at h
  split at h
  · have hseg := toNat_le seg
    exact sized_within h (by omega)
  · cases mode with
    | Mode32 => exact mov_mode32_fits h
    | Mode64 => exact mov_both_fits h

theorem mov_fits (h : size_mov mode ops = some m) :
    seg.toNat + m ≤ 10 ↔ mov_outgrows seg mode ops = false := by
  unfold size_mov at h
  split at h
  · rename_i d s rest
    split at h
    · have hseg := toNat_le seg
      have hle := size_special_le d s
      exact sized_within h (by omega)
    · exact mov_generic_fits h
  · cases h
  · cases h
  · exact mov_generic_fits h

section

variable (hw : width ≠ .W64)

include hw

theorem storeRex_narrow (src : RegId) (extended : Bool) :
    (storeRex width src).len extended = (store_prefixed width src extended).toNat := by
  unfold storeRex store_prefixed
  cases hbyte : width == .W8 && decide (4 ≤ src.num &&& 7) with
  | true =>
    rw [if_pos rfl, Bool.true_or]
    rfl
  | false =>
    rw [if_neg Bool.false_ne_true, Bool.false_or]
    unfold widthRex
    rw [if_neg hw]
    rfl

theorem widthRex_narrow (extended : Bool) : (widthRex width).len extended = extended.toNat := by
  unfold widthRex
  rw [if_neg hw]
  rfl

/-- A form of two bytes and an address, of a width below 64 bits. -/
theorem narrow_mem_fits {extended : Bool} :
    seg.toNat + (opsize width + extended.toNat + 1 + memLen base.num disp) ≤ width.estimated_size ↔
      near (if width = .W32 then 4 else 2) [extended, sib_base base, seg] base disp = false := by
  rw [near_three (by split <;> decide), memLen_eq]
  cases width with
  | W64 => exact absurd rfl hw
  | W8 | W16 | W32 =>
    simp only [opsize, IntWidth.estimated_size, reduceCtorEq, if_true, if_false]
    omega

theorem narrow_sib_fits {extended : Bool} :
    seg.toNat + (opsize width + extended.toNat + 1 + sibLen base.num disp) ≤ width.estimated_size ↔
      near (if width = .W32 then 3 else 1) [extended, seg] base disp = false := by
  rw [near_two (by split <;> decide), sibLen_eq]
  cases width with
  | W64 => exact absurd rfl hw
  | W8 | W16 | W32 =>
    simp only [opsize, IntWidth.estimated_size, reduceCtorEq, if_true, if_false]
    omega

theorem estimated_narrow : width.estimated_size ≤ opsize width + 5 := by
  cases width with
  | W64 => exact absurd rfl hw
  | W8 | W16 | W32 => decide

theorem mov_narrow_fits (h : size_mov_sized mode width ops = some m) :
    seg.toNat + m ≤ width.estimated_size ↔ mov_narrow_outgrows seg width ops = false := by
  have hroom := estimated_narrow hw
  unfold size_mov_sized at h
  split at h
  · rename_i dst imm
    obtain rfl := size_of h
    change _ ↔ atLeast (if width = .W8 then 2 else 1) [high dst.num, seg] = false
    rw [two_flags, widthRex_narrow hw, if_neg hw]
    cases width with
    | W64 => exact absurd rfl hw
    | W8 | W16 | W32 =>
      simp only [opsize, immLen, IntWidth.estimated_size, reduceCtorEq, if_true, if_false]
      omega
  · obtain rfl := size_of h
    rw [widthRex_narrow hw]
    exact narrow_mem_fits hw
  · obtain rfl := size_of h
    rw [widthRex_narrow hw]
    exact narrow_sib_fits hw
  · rename_i base _ disp imm
    obtain rfl := size_of h
    change _ ↔ (width != .W8 || near 1 [high base.num, sib_base base, seg] base disp) = false
    rw [widthRex_narrow hw, memLen_eq]
    cases width with
    | W64 => exact absurd rfl hw
    | W8 =>
      rw [bne_self_eq_false, Bool.false_or, near_three (by decide)]
      simp only [opsize, immLen, IntWidth.estimated_size, reduceCtorEq, if_false]
      omega
    | W16 | W32 =>
      refine not_fits ?_
      simp only [opsize, immLen, IntWidth.estimated_size, reduceCtorEq, if_true, if_false]
      omega
  · obtain rfl := size_of h
    rw [storeRex_narrow hw]
    exact narrow_mem_fits hw
  · obtain rfl := size_of h
    rw [storeRex_narrow hw]
    exact narrow_sib_fits hw
  · rename_i base idx _ disp imm
    obtain rfl := size_of h
    refine not_fits ?_
    rw [sibLen_eq]
    cases width with
    | W64 => exact absurd rfl hw
    | W8 | W16 | W32 =>
      simp only [opsize, immLen, IntWidth.estimated_size, reduceCtorEq, if_true, if_false]
      omega
  · cases h
    exact not_fits (by omega)
  · cases h
    exact not_fits (by omega)
  · cases h
    exact not_fits (by omega)
  · obtain rfl := size_of h
    exact not_fits (by omega)
  · obtain rfl := size_of h
    exact not_fits (by omega)
  · obtain rfl := size_of h
    exact not_fits (by omega)
  · cases h

end

/-- At 64 bits an address has room unless an immediate follows. -/
theorem mov_w64_fits (h : size_mov_sized mode .W64 ops = some m) :
    seg.toNat + m ≤ 10 ↔ mov_sized_outgrows seg .W64 ops = false := by
  have hseg := toNat_le seg
  have hw : (widthRex .W64).len = fun _ => 1 := rfl
  have hs : ∀ src, storeRex .W64 src = widthRex .W64 := fun _ => rfl
  have hop : opsize .W64 = 0 := rfl
  unfold size_mov_sized at h
  simp only [hs, hw, hop, immLen, if_true] at h
  split at h
  · obtain rfl := size_of h
    exact seg_fits
  · exact sized_within h (mem_within (by decide))
  · exact sized_within h (sib_within (by decide))
  · rename_i base _ disp imm
    obtain rfl := size_of h
    change _ ↔ wide disp = false
    have hsib := toNat_le (sib_base base)
    rw [memLen_eq]
    exact wide_fits base (by omega) (by omega)
  · exact sized_within h (mem_within (by decide))
  · exact sized_within h (sib_within (by decide))
  · rename_i base idx _ disp imm
    obtain rfl := size_of h
    change _ ↔ wide disp = false
    rw [sibLen_eq]
    exact wide_fits base (by omega) (by omega)
  · cases h
    exact iff_of_true (by omega) rfl
  · cases h
    exact iff_of_true (by omega) rfl
  · cases h
    exact iff_of_true (by omega) rfl
  · exact sized_within h (by omega)
  · exact sized_within h (by omega)
  · obtain rfl := size_of h
    exact not_fits (by omega)
  · cases h

theorem mov_sized_fits (h : size_mov_sized mode width ops = some m) :
    seg.toNat + m ≤ width.estimated_size ↔ mov_sized_outgrows seg width ops = false := by
  cases width with
  | W64 => exact mov_w64_fits h
  | W8 | W16 | W32 => exact mov_narrow_fits nofun h

theorem movnti_fits (h : size_movnti width ops = some m) :
    seg.toNat + m ≤ 8 ↔ movnti_outgrows seg (width == .W64) ops = false := by
  unfold size_movnti at h
  split at h
  · obtain rfl := size_of h
    exact @mem_room seg _ _ 2 2 _ _ (prefixes_width width) (by decide) _
  · rename_i base index _ disp src
    obtain rfl := size_of h
    change _ ↔ far 1 [width == .W64 || (high src.num || high index.num || high base.num), seg]
      disp = false
    rw [far_two base, prefixes_width, sibLen_eq]
    omega
  · cases h

/-! ### Arithmetic -/

theorem cmp_sized_fits (h : size_cmp_sized width ops = some m) :
    seg.toNat + m ≤ width.estimated_size ↔ cmp_sized_outgrows seg width ops = false := by
  unfold size_cmp_sized at h
  split at h
  · rw [show IntWidth.W64.estimated_size = 10 from rfl, cmp_fits h]
    unfold size_cmp at h
    split at h
    · exact iff_of_true rfl rfl
    · exact iff_of_true rfl rfl
    · rfl
    · cases h
  · rename_i dest imm
    obtain rfl := size_of h
    change _ ≤ 3 ↔ (dest.num != 0 && atLeast 1 [high dest.num, seg]) = false
    by_cases hzero : dest.num = 0
    · rw [if_pos hzero, hzero]
      have hseg := toNat_le seg
      exact iff_of_true (by omega) rfl
    · rw [if_neg hzero, bne_iff_ne.mpr hzero, Bool.true_and, two_flags]
      omega
  · rename_i dest imm
    obtain rfl := size_of h
    change _ ≤ 4 ↔ (if fits_i8 imm then atLeast 1 [high dest.num, seg]
      else dest.num != 0 || seg) = false
    split
    · rw [two_flags]
      omega
    · by_cases hzero : dest.num = 0
      · rw [if_pos hzero, hzero]
        change _ ↔ seg = false
        cases seg <;> simp
      · rw [if_neg hzero, bne_iff_ne.mpr hzero]
        exact not_fits (by omega)
  · rename_i dest imm
    obtain rfl := size_of h
    change _ ≤ 5 ↔ (!fits_i8 imm && (dest.num != 0 || seg)) = false
    have hhigh := toNat_le (high dest.num)
    have hseg := toNat_le seg
    cases fits_i8 imm with
    | true => exact iff_of_true (by rw [if_pos rfl]; omega) rfl
    | false =>
      rw [if_neg Bool.false_ne_true]
      by_cases hzero : dest.num = 0
      · rw [if_pos hzero, hzero]
        change _ ↔ seg = false
        cases seg <;> simp
      · rw [if_neg hzero, bne_iff_ne.mpr hzero]
        exact not_fits (by omega)
  · rename_i dest src hw
    cases h
    change _ ↔ ((width == .W8 || width == .W16) &&
      atLeast 2 [high src.num || high dest.num, seg]) = false
    have hhigh := toNat_le (high src.num || high dest.num)
    have hseg := toNat_le seg
    cases width with
    | W64 => exact absurd rfl hw
    | W8 | W16 =>
      change _ ↔ atLeast 2 [high src.num || high dest.num, seg] = false
      rw [two_flags]
      simp only [opsize, IntWidth.estimated_size, reduceCtorEq, if_true, if_false]
      omega
    | W32 =>
      refine iff_of_true ?_ rfl
      simp only [opsize, IntWidth.estimated_size, reduceCtorEq, if_false]
      omega
  · rename_i base disp src hw
    cases h
    change _ ↔ (width != .W64 && near (if width = .W32 then 4 else 2)
      [high src.num || high base.num, sib_base base, seg] base disp) = false
    rw [bne_iff_ne.mpr hw, Bool.true_and]
    exact narrow_mem_fits hw
  · cases h

/-- The forms without an immediate are those of a memory operand and a register. -/
theorem lock_fits (hu : Prefixes u long) (h : size_lock u ops = some m) :
    seg.toNat + m ≤ 9 ↔ lock_outgrows seg long ops = false := by
  unfold size_lock at h
  split at h
  · obtain rfl := size_of h
    exact @mem_room seg _ _ 3 2 _ _ hu (by decide) _
  · rename_i base disp imm
    obtain rfl := size_of h
    change _ ↔ (if fits_i8 imm then far 2 [long || high base.num, sib_base base, seg] disp
      else near 3 [long || high base.num, sib_base base, seg] base disp) = false
    split
    · rw [far_three base (by decide), hu, memLen_eq]
      omega
    · rw [near_three (by decide), hu, memLen_eq]
      omega
  · cases h

theorem lock_add_fits (hu : Prefixes u long) (h : size_lock_add u ops = some m) :
    seg.toNat + m ≤ 9 ↔ lock_outgrows seg long ops = false := by
  unfold size_lock_add at h
  split at h
  · rename_i disp imm
    obtain rfl := size_of h
    change _ ↔ (!fits_i8 imm || long || seg) = false
    rw [hu, Bool.or_false]
    cases fits_i8 imm <;> cases long <;> cases seg <;> simp
  · exact lock_fits hu h

theorem lock_inc_fits (hu : Prefixes u long) (h : size_lock_inc u ops = some m) :
    seg.toNat + m ≤ 9 ↔ atLeast 2 [long, seg] = false := by
  unfold size_lock_inc at h
  split at h
  · cases h
    rw [two_flags, hu, Bool.or_false]
    omega
  · cases h

theorem lock_bit_fits (h : size_lock_bit ops = some m) :
    seg.toNat + m ≤ 9 ↔ lock_bit_outgrows seg ops = false := by
  unfold size_lock_bit at h
  split at h
  · rename_i base disp src
    obtain rfl := size_of h
    change _ ↔ far 1 [sib_base base, seg] disp = false
    rw [far_two base, memLen_eq]
    omega
  · rename_i base disp imm
    obtain rfl := size_of h
    change _ ↔ wide disp = false
    have hseg := toNat_le seg
    have hsib := toNat_le (sib_base base)
    rw [memLen_eq]
    exact wide_fits base (by omega) (by omega)
  · cases h

theorem rotation_fits (hu : Prefixes u long) (h : size_rotation u ops = some m) :
    seg.toNat + m ≤ 4 ↔ rotation_outgrows seg long ops = false := by
  have hseg := toNat_le seg
  unfold size_rotation at h
  split at h
  · rename_i dst imm
    obtain rfl := size_of h
    have hlen := toNat_le (long || high dst.num)
    change _ ↔ (imm.toInt != 1 && atLeast 2 [long || high dst.num, seg]) = false
    rw [hu]
    by_cases hone : imm.toInt = 1
    · rw [if_pos hone, hone]
      exact iff_of_true (by omega) rfl
    · rw [if_neg hone, bne_iff_ne.mpr hone, Bool.true_and, two_flags]
      omega
  · rename_i dst src
    obtain rfl := size_of h
    have hlen := toNat_le (long || high dst.num)
    rw [hu]
    exact iff_of_true (by omega) rfl
  · cases h

theorem rol_w16_fits (h : size_rol_w16 ops = some m) :
    seg.toNat + m ≤ 4 ↔ rol_w16_outgrows seg ops = false := by
  unfold size_rol_w16 at h
  split at h
  · rename_i dst imm
    obtain rfl := size_of h
    change _ ↔ atLeast (if imm.toInt = 1 then 2 else 1) [high dst.num, seg] = false
    rw [two_flags]
    split <;> omega
  · rename_i dst src
    obtain rfl := size_of h
    change _ ↔ atLeast 2 [high dst.num, seg] = false
    rw [two_flags]
    omega
  · cases h

theorem shift_fits (h : size_shift ops = some m) :
    seg.toNat + m ≤ 4 ↔ (seg && !by_cl ops) = false := by
  unfold size_shift at h
  split at h
  · obtain rfl := size_of h
    cases seg <;> simp [by_cl]
  · rename_i dst src
    obtain ⟨hcl, rfl⟩ := sized_eq_some.mp h
    rw [Bool.and_eq_true] at hcl
    change _ ↔ (seg && !(src.num == 1)) = false
    rw [hcl.2]
    cases seg <;> simp
  · cases h

theorem reg_fits (h : size_reg .need k ops = some m) :
    seg.toNat + m ≤ k + 1 ↔ reg_outgrows seg ops = false := by
  unfold size_reg at h
  split at h
  · rename_i r
    obtain rfl := size_of h
    change seg.toNat + (k + (high r.num).toNat) ≤ k + 1 ↔ atLeast 2 [high r.num, seg] = false
    rw [two_flags]
    omega
  · cases h

theorem call_fits (h : size_call ops = some m) :
    seg.toNat + m ≤ 5 ↔ call_outgrows seg ops = false := by
  have hseg := toNat_le seg
  unfold size_call at h
  split at h
  · cases h
    exact seg_fits
  · cases h
    exact seg_fits
  · cases h
    exact not_fits (by omega)
  · cases h
    exact not_fits (by omega)
  · rename_i r
    obtain rfl := size_of h
    have hhigh := toNat_le (high r.num)
    exact iff_of_true (by omega) rfl
  · rename_i base disp
    obtain rfl := size_of h
    change _ ↔ near 4 [high base.num, sib_base base, seg] base disp = false
    rw [near_three (by decide), memLen_eq]
    omega
  · rename_i base idx _ disp
    obtain rfl := size_of h
    change _ ↔ near 3 [high idx.num || high base.num, seg] base disp = false
    rw [near_two (by decide), sibLen_eq]
    omega
  · cases h

/-! ### Jumps, system instructions and vectors -/

theorem bare_fits (h : size_descriptor ops = some m ∨ size_invlpg ops = some m ∨
    size_far_jmp ops = some m) : seg.toNat + m ≤ 7 ↔ bare_outgrows seg ops = false := by
  have hmem : ∀ base disp, m = 2 + bareLen disp →
      (seg.toNat + m ≤ 7 ↔ bare_outgrows seg [.MemSib base none .X1 disp] = false) := by
    intro base disp hm
    change _ ↔ (seg && wide disp) = false
    have hseg := toNat_le seg
    cases hwide : wide disp with
    | true =>
      rw [hm, bareLen_wide hwide]
      cases seg <;> simp
    | false =>
      have hlen := bareLen_narrow hwide
      rw [Bool.and_false]
      exact iff_of_true (by omega) rfl
  have hseven : seg.toNat + 7 ≤ 7 ↔ seg = false := by cases seg <;> simp
  rcases h with h | h | h
  · unfold size_descriptor at h
    split at h
    · exact hmem _ _ (sized_eq_some.mp h).2.symm
    · cases h
      exact hseven
    · cases h
      exact hseven
    · cases h
  · unfold size_invlpg at h
    split at h
    · exact hmem _ _ (sized_eq_some.mp h).2.symm
    · cases h
  · unfold size_far_jmp at h
    split at h
    · exact hmem _ _ (sized_eq_some.mp h).2.symm
    · cases h
      exact hseven
    · cases h
      exact hseven
    · cases h
      exact hseven
    · cases h

theorem invpcid_fits (h : size_invpcid ops = some m) :
    seg.toNat + m ≤ 11 ↔ mem_outgrows seg 3 false ops = false := by
  unfold size_invpcid at h
  split at h
  · obtain rfl := size_of h
    exact @mem_room seg _ _ 3 4 _ _ prefixes_need (by decide) _
  · cases h

theorem xmm_fits (h : size_xmm_xmm 1 ops = some m) :
    seg.toNat + m ≤ 5 ↔ xmm_outgrows seg ops = false := by
  unfold size_xmm_xmm at h
  split at h
  · rename_i dst src
    obtain rfl := size_of h
    change _ ↔ atLeast 2 [is_high (dst.num - 53) || is_high (src.num - 53), seg] = false
    rw [two_flags]
    omega
  · cases h

/-- A flag beside the segment prefix, in a form with room for one of them. -/
theorem seg_and_fits (he : k + 1 = e) : seg.toNat + (k + b.toNat) ≤ e ↔ (seg && b) = false := by
  subst he
  cases seg <;> cases b <;> simp [Nat.add_comm]

theorem push_fits (h : size_push ops = some m) :
    seg.toNat + m ≤ 5 ↔ push_outgrows seg ops = false := by
  have hseg := toNat_le seg
  unfold size_push at h
  split at h
  · rename_i src
    have hhigh := toNat_le (high src.num)
    exact sized_within h (by omega)
  · rename_i imm
    obtain rfl := size_of h
    change _ ↔ (seg && !fits_i8 imm) = false
    cases fits_i8 imm <;> cases seg <;> simp
  · cases h

theorem jcc_fits (h : size_jcc ops = some m) :
    seg.toNat + m ≤ 6 ↔ jcc_outgrows seg ops = false := by
  unfold size_jcc at h
  split at h
  · rename_i rel
    cases h
    change _ ↔ (seg && !can_use_rel8 rel) = false
    cases can_use_rel8 rel <;> cases seg <;> simp
  · cases h
    exact seg_fits
  · cases h

theorem setcc_fits (h : size_setcc ops = some m) :
    seg.toNat + m ≤ 4 ↔ setcc_outgrows seg ops = false := by
  unfold size_setcc at h
  split at h
  · cases h
    exact seg_and_fits rfl
  · cases h

theorem movd_fits {to_xmm : Bool} (h : size_bitcast false to_xmm ops = some m) :
    seg.toNat + m ≤ 5 ↔ movd_outgrows seg to_xmm ops = false := by
  unfold size_bitcast at h
  split at h
  · cases to_xmm with
    | true =>
      obtain rfl := size_of h
      exact seg_and_fits rfl
    | false =>
      obtain rfl := size_of h
      exact seg_and_fits rfl
  · cases h

theorem movq_fits {to_xmm : Bool} (h : size_bitcast true to_xmm ops = some m) :
    seg.toNat + m ≤ 5 ↔ seg = false := by
  have hm : m = 5 := by
    unfold size_bitcast at h
    split at h
    · cases to_xmm with
      | true => exact (sized_eq_some.mp h).2.symm
      | false => exact (sized_eq_some.mp h).2.symm
    · cases h
  rw [hm]
  exact seg_fits

theorem port_fits (h : size_port w ops = some m) : seg.toNat + m ≤ 2 ↔ (seg && w == 2) = false := by
  obtain rfl := size_of h
  by_cases htwo : w = 2
  · subst htwo
    cases seg <;> simp
  · rw [beq_false_of_ne htwo, Bool.and_false, if_neg htwo]
    have hseg := toNat_le seg
    refine iff_of_true ?_ rfl
    split_ifs <;> omega

/-! ### Forms with room to spare -/

theorem RexUse.len_le (extended : Bool) : u.len extended ≤ 1 := by
  cases u with
  | need => exact toNat_le extended
  | _ => exact Nat.le_refl 1

theorem size_reg_mem_le (h : size_reg_mem u k ops = some m) : m ≤ k + 7 := by
  unfold size_reg_mem at h
  split at h
  · rename_i dest src
    have hlen : u.len (high dest.num || high src.num) ≤ 1 := RexUse.len_le _
    obtain rfl := size_of h
    omega
  · rename_i dest base _ disp
    have hlen : u.len (high dest.num || high base.num) ≤ 1 := RexUse.len_le _
    have hmem : memLen base.num disp ≤ 6 := memLen_le
    obtain rfl := size_of h
    omega
  · cases h

theorem size_carry_le (h : size_carry u ops = some m) : m ≤ 8 := by
  unfold size_carry at h
  split at h
  · rename_i dest imm
    have hlen : u.len (high dest.num) ≤ 1 := RexUse.len_le _
    exact sized_le h (by split <;> omega)
  · exact size_reg_mem_le h

theorem size_movzx_le (h : size_movzx w ops = some m) : m ≤ 9 := by
  unfold size_movzx at h
  split at h
  · exact sized_le h (by split <;> decide)
  · exact sized_le h (mem_le (by decide))
  · cases h

theorem size_movsx_le (h : size_movsx w ops = some m) : m ≤ 9 := by
  unfold size_movsx at h
  split at h
  · exact sized_le h (by split <;> decide)
  · rename_i dest base _ disp
    have hmem : memLen base.num disp ≤ 6 := memLen_le
    exact sized_le h (by split <;> omega)
  · cases h

theorem size_lea_le (h : size_lea mode ops = some m) : m ≤ 8 := by
  unfold size_lea at h
  split at h
  · exact sized_le h (mem_le (by decide))
  · exact sized_le h (sib_le (by decide))
  · rename_i dest _ addend
    have hhigh := toNat_le (high dest.num)
    cases mode with
    | Mode32 =>
      exact sized_le h (by omega)
    | Mode64 =>
      exact sized_le h (by decide)
  · exact sized_le h (by decide)
  · cases h

theorem size_or_mode32_le (h : size_or_mode32 ops = some m) : m ≤ 8 := by
  unfold size_or_mode32 at h
  split at h
  · rename_i dst imm
    have hhigh := toNat_le (high dst.num)
    exact sized_le h (by split <;> omega)
  · rename_i himm
    unfold size_logic at h
    split at h
    · exact sized_le h (by decide)
    · rename_i dst imm
      exact absurd rfl (himm dst imm)
    · rename_i base _ disp
      have hmem : memLen base.num disp ≤ 6 := memLen_le
      exact sized_le h (by omega)
    · cases h

theorem size_imul_le (h : size_imul ops = some m) : m ≤ 9 := by
  unfold size_imul at h
  split at h
  · exact sized_le h (by decide)
  · exact sized_le h (by split <;> decide)
  · exact sized_le h (mem_le (by decide))
  · cases h

theorem size_test_le (h : size_test ops = some m) : m ≤ 7 := by
  unfold size_test at h
  split at h
  · exact sized_le h (by decide)
  · exact sized_le h (by split <;> decide)
  · cases h

theorem size_mov_cr_le {write : Bool} (h : size_mov_cr write ops = some m) : m ≤ 4 := by
  unfold size_mov_cr at h
  split at h
  · rename_i first second
    have hlen := toNat_le (decide (8 ≤ first.num) || decide (8 ≤ second.num))
    exact sized_le h (by omega)
  · cases h

theorem vexLen_le (extended : Bool) : vexLen extended ≤ 3 := by
  cases extended <;> decide

theorem size_vex_regs_le (h : size_vex_regs ops = some m) : m ≤ 5 := by
  unfold size_vex_regs at h
  split at h
  · exact sized_le h (Nat.add_le_add_left (vexLen_le _) 2)
  · cases h

theorem size_vpmovmskb_le (h : size_vpmovmskb ops = some m) : m ≤ 5 := by
  unfold size_vpmovmskb at h
  split at h
  · exact sized_le h (Nat.add_le_add_left (vexLen_le _) 2)
  · cases h

theorem size_vmovdqu_le {is_store : Bool} (h : size_vmovdqu is_store ops = some m) : m ≤ 9 := by
  have hmem : ∀ extended disp, 1 + vexLen extended + bareLen disp ≤ 9 := fun _ _ =>
    Nat.add_le_add (Nat.add_le_add_left (vexLen_le _) 1) bareLen_le
  have hrip : ∀ extended, 6 + vexLen extended ≤ 9 := fun _ => Nat.add_le_add_left (vexLen_le _) 6
  unfold size_vmovdqu at h
  split at h
  · exact sized_le h ((Nat.add_le_add_left (vexLen_le _) 2).trans (by decide))
  · exact sized_le h (hmem _ _)
  · exact sized_le h (hmem _ _)
  · exact sized_le h (hrip _)
  · exact sized_le h (hrip _)
  · exact sized_le h (hrip _)
  · exact sized_le h (hrip _)
  · cases h

theorem size_xmm_plain_le (h : size_xmm_xmm 0 ops = some m) : m ≤ 4 := by
  unfold size_xmm_xmm at h
  split at h
  · rename_i dst src
    have hlen := toNat_le (is_high (dst.num - 53) || is_high (src.num - 53))
    exact sized_le h (by omega)
  · cases h

theorem roomy (h : m ≤ k) (hk : k < e) : seg.toNat + m ≤ e ↔ false = false := by
  have hseg := toNat_le seg
  exact iff_of_true (by omega) rfl

theorem size_reg_wide (h : size_reg .wide k ops = some m) : m = k + 1 := by
  unfold size_reg at h
  split at h
  · exact (sized_eq_some.mp h).2.symm
  · cases h

theorem gate_eq_some {c : Prop} [Decidable c] {o : Option Nat}
    (h : (if c then o else none) = some m) : o = some m :=
  (Option.ite_none_right_eq_some.mp h).2

theorem bare_fits_le {mnemonic : Mnemonic} (hseg : seg = true → ops ≠ [])
    (h : sized ops.isEmpty (bare_size mnemonic) = some m)
    (hroom : bare_size mnemonic ≤ mnemonic.estimated_size full) :
    seg.toNat + m ≤ mnemonic.estimated_size full ↔ false = false := by
  obtain ⟨hempty, rfl⟩ := sized_eq_some.mp h
  refine iff_of_true ?_ rfl
  cases seg with
  | false => exact (Nat.zero_add _).trans_le hroom
  | true => exact absurd (List.isEmpty_iff.mp hempty) (hseg rfl)

theorem jmp_fits (hfull : if seg then Mnemonic.Jmp.estimated_size full = 5
      else full = ops) (h : size_jmp ops = some m) :
    seg.toNat + m ≤ Mnemonic.Jmp.estimated_size full ↔ jmp_outgrows seg ops = false := by
  cases seg with
  | true =>
    rw [if_pos rfl] at hfull
    rw [hfull]
    unfold size_jmp at h
    split at h
    · cases h
      exact not_fits (by decide)
    · cases h
      exact not_fits (by decide)
    · cases h
      exact not_fits (by decide)
    · obtain rfl := size_of h
      exact not_fits (by simp; omega)
    · obtain rfl := size_of h
      exact not_fits (by simp; omega)
    · rename_i r
      have hhigh := toNat_le (high r.num)
      obtain rfl := size_of h
      exact iff_of_true (by simp; omega) rfl
    · cases h
  | false =>
    rw [if_neg Bool.false_ne_true] at hfull
    rw [hfull]
    have hindex : ∀ r : RegId, (high r.num).toNat + 7 ≤ if r.num < 8 then 7 else 8 := by
      intro r
      rw [high_eq]
      by_cases hr : r.num < 8
      · have hlow : ¬8 ≤ r.num.toNat := Nat.not_le.mpr (UInt8.lt_iff_toNat_lt.mp hr)
        rw [if_pos hr, decide_eq_false hlow]
        exact Nat.le_refl 7
      · rw [if_neg hr]
        exact Nat.add_le_add_right (toNat_le _) 7
    unfold size_jmp at h
    split at h
    · cases h
      exact iff_of_true (Nat.le_refl 5) rfl
    · cases h
      exact iff_of_true (Nat.le_refl 5) rfl
    · cases h
      exact iff_of_true (Nat.le_refl 5) rfl
    · obtain rfl := size_of h
      exact iff_of_true ((Nat.zero_add _).trans_le (hindex _)) rfl
    · obtain rfl := size_of h
      exact iff_of_true ((Nat.zero_add _).trans_le (hindex _)) rfl
    · rename_i r
      have hhigh := toNat_le (high r.num)
      obtain rfl := size_of h
      exact iff_of_true (by simp [Mnemonic.estimated_size]; omega) rfl
    · cases h

/-- In 32-bit mode the immediate is never staged. -/
theorem or_fits {hint : Option EncodingHint} (h : size ⟨.Or, ops, hint, mode⟩ = some m) :
    seg.toNat + m ≤ 10 ↔ form_outgrows seg mode ops .Or = false := by
  cases mode with
  | Mode32 => exact roomy (size_or_mode32_le h) (show 8 < 10 by decide)
  | Mode64 => exact logic_fits h

theorem rol_fits {hint : Option EncodingHint} (h : size ⟨.Rol width, ops, hint, mode⟩ = some m) :
    seg.toNat + m ≤ 4 ↔ form_outgrows seg mode ops (.Rol width) = false := by
  cases width with
  | W8 => cases h
  | W16 => exact rol_w16_fits h
  | W32 => exact rotation_fits prefixes_need h
  | W64 => exact rotation_fits prefixes_wide h

theorem int_fits (h : size_int ops = some m) : seg.toNat + m ≤ 2 ↔ seg = false := by
  unfold size_int at h
  split at h
  · obtain rfl := size_of h
    exact seg_fits
  · cases h

/-- Each form against the table, by its mnemonic. -/
theorem form_fits {mnemonic : Mnemonic} {hint : Option EncodingHint} (hseg : seg = true → ops ≠ [])
    (hfull : if seg then Mnemonic.Jmp.estimated_size full = 5 else full = ops)
    (h : size ⟨mnemonic, ops, hint, mode⟩ = some m) :
    seg.toNat + m ≤ mnemonic.estimated_size full ↔
      form_outgrows seg mode ops mnemonic = false := by
  cases mnemonic with
  | Mov => exact mov_fits h
  | MovSized width => exact mov_sized_fits h
  | MovCr write => exact roomy (size_mov_cr_le h) (show 4 < 10 by decide)
  | MovDr write =>
    obtain rfl := size_of h
    exact roomy (Nat.le_refl 3) (show 3 < 10 by decide)
  | Movnti width => exact movnti_fits h
  | Movzx => exact roomy (size_movzx_le h) (Nat.lt_succ_self _)
  | Movsx => exact roomy (size_movsx_le h) (Nat.lt_succ_self _)
  | Lea => exact roomy (size_lea_le h) (show 8 < 10 by decide)
  | Add | Sub => exact sum_fits h
  | Adc width =>
    exact roomy (size_carry_le (gate_eq_some h)) (show 8 < 10 by decide)
  | Sbb width =>
    exact roomy (size_reg_mem_le (gate_eq_some h)) (show 8 < 10 by decide)
  | Popcnt width =>
    exact @reg_mem_fits _ _ _ 2 3 _ _ (prefixes_width width) (by decide) (gate_eq_some h)
  | Crc32 width => exact @reg_mem_fits _ _ _ 1 4 _ _ prefixes_wide (by decide) (gate_eq_some h)
  | Bsf width | Bsr width =>
    exact roomy (size_reg_mem_le (gate_eq_some h)) (Nat.lt_succ_self _)
  | Tzcnt width => exact @reg_mem_fits _ _ _ 3 3 _ _ prefixes_wide (by decide) (gate_eq_some h)
  | Bt width | Bts width | Btr width | Btc width =>
    exact bit_fits (prefixes_width width) (gate_eq_some h)
  | And | Xor => exact logic_fits h
  | Or => exact or_fits h
  | Imul => exact roomy (size_imul_le h) (Nat.lt_succ_self _)
  | Cmp => exact cmp_fits h
  | CmpSized width => exact cmp_sized_fits h
  | Test => exact roomy (size_test_le h) (show 7 < 10 by decide)
  | Shl | Shr | Sar => exact shift_fits h
  | Rol width => exact rol_fits h
  | Ror width => exact rotation_fits (prefixes_width width) (gate_eq_some h)
  | Not | Div | Idiv | Mul =>
    exact roomy (size_reg_wide h).le (show 3 < 4 by decide)
  | Inc | Dec | Bswap =>
    rw [size_reg_wide h]
    exact seg_fits
  | Bswap32 | Ltr => exact reg_fits h
  | Push => exact push_fits (gate_eq_some h)
  | Pop => exact reg_fits (gate_eq_some h)
  | Xchg => exact @mem_reg_fits _ _ _ 3 1 _ _ prefixes_wide (by decide) h
  | LockCmpxchg => exact @mem_reg_fits _ _ _ 3 3 _ _ prefixes_wide (by decide) h
  | LockCmpxchg32 => exact @mem_reg_fits _ _ _ 3 3 _ _ prefixes_need (by decide) h
  | LockCmpxchg16b => exact @mem_fits _ _ _ 3 3 _ _ prefixes_wide (by decide) h
  | Fxsave | Fxrstor | Xsaveopt | Xrstor | Clflush | Prefetchnta | Prefetcht0 | Prefetcht1
  | Prefetcht2 =>
    exact @mem_fits _ _ _ 3 2 _ _ prefixes_need (by decide) h
  | Clflushopt => exact @mem_fits _ _ _ 2 3 _ _ prefixes_need (by decide) h
  | Invlpg => exact bare_fits (.inr (.inl h))
  | LockXadd width =>
    exact @mem_reg_fits _ _ _ 1 3 _ _ (prefixes_width width) (by decide) (gate_eq_some h)
  | LockAdd width => exact lock_add_fits (prefixes_width width) (gate_eq_some h)
  | LockSub width => exact lock_fits (prefixes_width width) (gate_eq_some h)
  | LockInc width => exact lock_inc_fits (prefixes_width width) (gate_eq_some h)
  | LockBts width | LockBtr width | LockBtc width => exact lock_bit_fits (gate_eq_some h)
  | LockAnd width | LockOr width | LockXor width =>
    exact @mem_reg_fits _ _ _ 3 2 _ _ prefixes_wide (by decide) (gate_eq_some h)
  | Jcc cond => exact jcc_fits h
  | Setcc cond => exact setcc_fits h
  | Jmp => exact jmp_fits hfull h
  | Call => exact call_fits h
  | FarJmp => exact bare_fits (.inr (.inr h))
  | Int => exact int_fits h
  | In width | Out width => exact port_fits h
  | Lgdt | Lidt => exact bare_fits (.inl h)
  | Invpcid => exact invpcid_fits h
  | Vpxor | Vpcmpeqb => exact roomy (size_vex_regs_le h) (show 5 < 7 by decide)
  | Vpmovmskb => exact roomy (size_vpmovmskb_le h) (show 5 < 7 by decide)
  | Vmovdqu is_store => exact roomy (size_vmovdqu_le h) (show 9 < 11 by decide)
  | MovSd | MovSs | AddSd | AddSs | SubSd | SubSs | MulSd | MulSs | DivSd | DivSs | Sqrtsd | Sqrtss
  | Ucomisd | Comisd =>
    exact xmm_fits h
  | Ucomiss | Comiss => exact roomy (size_xmm_plain_le h) (Nat.lt_succ_self _)
  | Cvtsi2sd | Cvtsi2ss | Cvttsd2si | Cvttss2si =>
    obtain rfl := size_of h
    exact seg_fits
  | MovdBitcast to_xmm => exact movd_fits h
  | MovqBitcast to_xmm => exact movq_fits h
  | Iretq | Swapgs | RepStosq | Sysret =>
    obtain rfl := size_of h
    exact not_fits (by simp [bare_size, Mnemonic.estimated_size])
  | _ => exact bare_fits_le hseg h (by simp [bare_size, Mnemonic.estimated_size])

end

/-! ## The estimate as a bound -/

theorem prefixLen_eq (ops : List Operand) : prefixLen ops = (find_mem_seg ops).isSome.toNat := by
  unfold prefixLen
  cases find_mem_seg ops <;> rfl

theorem find_mem_seg_mem {ops : List Operand} {found : Nat × SegPrefix × Operand}
    (h : find_mem_seg ops = some found) :
    found.1 < ops.length ∧ ∃ inner, .MemSeg found.2.1 inner ∈ ops := by
  induction ops generalizing found with
  | nil => cases h
  | cons op rest ih =>
    unfold find_mem_seg at h
    split at h
    · cases h
    · rename_i seg inner _ heq
      obtain ⟨rfl, rfl⟩ := List.cons.inj heq
      cases h
      exact ⟨Nat.zero_lt_succ _, inner, .head _⟩
    · rename_i heq
      obtain ⟨rfl, rfl⟩ := List.cons.inj heq
      obtain ⟨found', hfound, rfl⟩ := Option.map_eq_some_iff.mp h
      obtain ⟨hlt, inner, hmem⟩ := ih hfound
      exact ⟨Nat.succ_lt_succ hlt, inner, .tail _ hmem⟩

/-- An operand under a segment prefix is no indexed one. -/
theorem estimated_jmp_seg {ops : List Operand} {seg : SegPrefix} {inner : Operand}
    (h : .MemSeg seg inner ∈ ops) : Mnemonic.Jmp.estimated_size ops = 5 := by
  unfold Mnemonic.estimated_size
  dsimp only
  split
  · cases List.mem_singleton.mp h
  · cases List.mem_singleton.mp h
  · rfl

/-- The bytes of an accepted instruction are within the estimate, unless its
form outgrows the table. -/
theorem estimated_bound_iff (inst : Instruction) (bs : List UInt8) (out : EncodeOutput)
    (h : (encode_instruction inst).run [] = (bs, .ok out)) :
    bs.length ≤ inst.mnemonic.estimated_size inst.operands ↔ outgrows inst = false := by
  have hyields : (encode_instruction inst).Yields bs.length :=
    ⟨⟨out, congrArg Prod.snd h⟩, congrArg (List.length ∘ Prod.fst) h⟩
  obtain ⟨m, hm, hlen⟩ := (yields_encode_iff _ _).mp hyields
  rw [← hlen, prefixLen_eq]
  refine form_fits ?_ ?_ hm
  · intro hseg
    obtain ⟨found, hfound⟩ := Option.isSome_iff_exists.mp hseg
    obtain ⟨hlt, -⟩ := find_mem_seg_mem hfound
    unfold under_prefixed underPrefix
    rw [hfound]
    intro hnil
    have hset := congrArg List.length hnil
    simp only [Option.map_some, Option.getD_some, List.length_set, List.length_nil] at hset
    omega
  · cases hfound : find_mem_seg inst.operands with
    | none =>
      unfold under_prefixed underPrefix
      rw [hfound]
      rfl
    | some found =>
      obtain ⟨-, inner, hmem⟩ := find_mem_seg_mem hfound
      exact estimated_jmp_seg hmem

/-- `mov [r12 + 4096], 1` has twelve bytes, and the table says ten. -/
theorem estimated_mov_r12 : ¬ ∀ inst bs out, (encode_instruction inst).run [] = (bs, .ok out) →
    bs.length ≤ inst.mnemonic.estimated_size inst.operands := by
  intro h
  have hlen := h ⟨.Mov, [.MemSib ⟨12⟩ none .X1 4096, .Imm64 1], none, .Mode64⟩
    [0x49, 0xC7, 0x84, 0x24, 0x00, 0x10, 0x00, 0x00, 0x01, 0x00, 0x00, 0x00] .new rfl
  exact absurd hlen (by decide)

/-- With the displacement 8 there are nine. -/
theorem estimated_mov_r12_near : [0x49, 0xC7, 0x44, 0x24, 0x08, 0x01, 0x00, 0x00, 0x00].length ≤
    Mnemonic.Mov.estimated_size [.MemSib ⟨12⟩ none .X1 8, .Imm64 1] :=
  (estimated_bound_iff ⟨.Mov, [.MemSib ⟨12⟩ none .X1 8, .Imm64 1], none, .Mode64⟩
    [0x49, 0xC7, 0x44, 0x24, 0x08, 0x01, 0x00, 0x00, 0x00] .new rfl).mpr rfl

end paideia_as_encoder
