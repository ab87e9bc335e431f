-- Instruction forms and their bytes, and that the decoder reads every form
-- back: the round trip that the encoders of a program are measured against.
import PaideiaAs.X86.Decode

namespace X86

open Bytes
open List (cons_append map_cons map_nil nil_append)
open Nat (mod_lt)

/-! ## Bytes built from fields -/

def Rex.byte (p : Rex) : UInt8 :=
  UInt8.ofNat (64 + 8 * p.w.toNat + 4 * p.r.toNat + 2 * p.x.toNat + p.b.toNat)

/-- A ModRM or SIB byte: two bits, three bits, three bits. -/
def fields (a b c : Nat) : UInt8 := UInt8.ofNat (64 * a + 8 * b + c)

variable (p : Rex)

theorem Rex.ofByte_byte : Rex.ofByte p.byte = p := by
  rcases p with ⟨_ | _, _ | _, _ | _, _ | _⟩ <;> rfl

theorem Rex.isRex_byte : isRex .long p.byte = true := by
  rcases p with ⟨_ | _, _ | _, _ | _, _ | _⟩ <;> rfl

theorem Rex.isPrefix_byte : isPrefix p.byte = false := by
  rcases p with ⟨_ | _, _ | _, _ | _, _ | _⟩ <;> rfl

theorem toNat_fields {a b c : Nat} (ha : a < 4) (hb : b < 8) (hc : c < 8) :
    (fields a b c).toNat = 64 * a + 8 * b + c := by
  unfold fields
  simp only [UInt8.toNat_ofNat']
  omega

theorem takeN_append (bs rest : List UInt8) : takeN bs.length (bs ++ rest) = some (bs, rest) := by
  simp [takeN]

theorem takeN_sle (n : Nat) (x : Int) (rest : List UInt8) :
    takeN n (sle n x ++ rest) = some (sle n x, rest) := by
  simpa using takeN_append (sle n x) rest

/-! ## Operand slots -/

/-- The ways to write the `r/m` part. -/
inductive Slot where
  | reg (n : Nat)
  | base (b : Nat) (disp : Int)
  | sib (b i s : Nat) (disp : Int)
  | noBase (i s : Nat) (disp : Int)
  | disp32 (disp : Int)
  deriving DecidableEq

/-- `mod` of the shortest displacement from base `b`: base 5 cannot go without
one. -/
def dispMod (b : Nat) (d : Int) : Nat :=
  if d = 0 ∧ b % 8 ≠ 5 then 0 else if -128 ≤ d ∧ d ≤ 127 then 1 else 2

namespace Slot

/-- The `X` and `B` bits that the slot needs. -/
def x : Slot → Bool
  | sib _ i _ _ => 8 ≤ i
  | noBase i _ _ => 8 ≤ i
  | _ => false

def b : Slot → Bool
  | reg n => 8 ≤ n
  | base n _ => 8 ≤ n
  | sib n _ _ _ => 8 ≤ n
  | _ => false

def dispBytes : Slot → List UInt8
  | reg _ => []
  | base b d => sle (dispLen (dispMod b d)) d
  | sib b _ _ d => sle (dispLen (dispMod b d)) d
  | noBase _ _ d => sle 4 d
  | disp32 d => sle 4 d

/-- ModRM and SIB. An address on base 4 needs a SIB byte without an index. -/
def lead (reg : Nat) : Slot → List UInt8
  | .reg n => [fields 3 reg (n % 8)]
  | base b d =>
    if b % 8 = 4 then [fields (dispMod b d) reg 4, fields 0 4 4]
    else [fields (dispMod b d) reg (b % 8)]
  | sib b i s d => [fields (dispMod b d) reg 4, fields s (i % 8) (b % 8)]
  | noBase i s _ => [fields 0 reg 4, fields s (i % 8) 5]
  | disp32 _ => [fields 0 reg 5]

/-- The index that a SIB byte names: 4 is no index. -/
def indexOf (i s : Nat) : Option (Nat × Nat) := if i = 4 then none else some (i, s)

/-- The place that the slot stands for. -/
def place (m : Mode) : Slot → Place
  | reg n => .reg n
  | base b d => .mem ⟨some b, none, d⟩
  | sib b i s d => .mem ⟨some b, indexOf i s, d⟩
  | noBase i s d => .mem ⟨none, indexOf i s, d⟩
  | disp32 d => disp32Place m d

/-- Register numbers, scale and displacement are in range. -/
def Ok : Slot → Prop
  | reg n => n < 16
  | base b d => b < 16 ∧ -2147483648 ≤ d ∧ d < 2147483648
  | sib b i s d => b < 16 ∧ i < 16 ∧ s < 4 ∧ -2147483648 ≤ d ∧ d < 2147483648
  | noBase i s d => i < 16 ∧ s < 4 ∧ -2147483648 ≤ d ∧ d < 2147483648
  | disp32 d => -2147483648 ≤ d ∧ d < 2147483648

end Slot

theorem ext_low {n : Nat} (h : n < 16) : ext (n % 8) (decide (8 ≤ n)) = n := by
  unfold ext
  by_cases h8 : 8 ≤ n
  · simp only [h8, decide_true, Bool.toNat_true]; omega
  · simp only [h8, decide_false, Bool.toNat_false]; omega

theorem dispMod_lt (b : Nat) (d : Int) : dispMod b d < 3 := by
  unfold dispMod
  split_ifs <;> omega

theorem dispMod_pos {b : Nat} (d : Int) (h : b % 8 = 5) : dispMod b d ≠ 0 := by
  unfold dispMod
  split_ifs <;> simp_all

theorem signed_disp32 {d : Int} (hlo : -2147483648 ≤ d) (hhi : d < 2147483648) :
    signed (sle 4 d) = d :=
  signed_sle_of_fits (by decide) (by simpa using hlo) (by simpa using hhi)

/-- The chosen displacement size loses nothing. -/
theorem signed_dispMod {b : Nat} {d : Int} (hlo : -2147483648 ≤ d) (hhi : d < 2147483648) :
    signed (sle (dispLen (dispMod b d)) d) = d := by
  unfold dispMod
  split_ifs with h0 h8
  · rw [h0.1]; rfl
  · exact signed_sle_of_fits (by decide) (by simpa [dispLen] using h8.1)
      (by simp [dispLen]; omega)
  · exact signed_disp32 hlo hhi

/-! ## Reading a slot back -/

theorem sibIndex_fields {s i b : Nat} (hs : s < 4) (hi : i < 16) (hb : b < 8) :
    sibIndex (fields s (i % 8) b) (decide (8 ≤ i)) = Slot.indexOf i s := by
  have hn := toNat_fields hs (mod_lt i (by decide : 0 < 8)) hb
  have h1 : (fields s (i % 8) b).toNat / 8 % 8 = i % 8 := by omega
  have h2 : (fields s (i % 8) b).toNat / 64 = s := by omega
  unfold sibIndex Slot.indexOf
  rw [h1, h2, ext_low hi]

variable (m : Mode)

theorem takeModRM_reg (p : Rex) {r n : Nat} (hr : r < 8) (rest : List UInt8) :
    takeModRM m p (fields 3 r (n % 8) :: rest) =
      some (⟨⟨ext r p.r, .reg (ext (n % 8) p.b)⟩, 1, []⟩, rest) := by
  have hn := toNat_fields (by decide : 3 < 4) hr (mod_lt n (by decide : 0 < 8))
  have h1 : (fields 3 r (n % 8)).toNat / 64 = 3 := by omega
  have h2 : (fields 3 r (n % 8)).toNat / 8 % 8 = r := by omega
  have h3 : (fields 3 r (n % 8)).toNat % 8 = n % 8 := by omega
  simp [takeModRM, h1, h2, h3]

theorem takeModRM_base (p : Rex) {r c md : Nat} (hr : r < 8) (hc : c < 8)
    (hmd : md < 3) (h4 : c ≠ 4) (h5 : c = 5 → md ≠ 0) (bs rest : List UInt8)
    (hlen : bs.length = dispLen md) :
    takeModRM m p (fields md r c :: (bs ++ rest)) =
      some (⟨⟨ext r p.r, .mem ⟨some (ext c p.b), none, signed bs⟩⟩, 1, bs⟩, rest) := by
  have hn := toNat_fields (by omega : md < 4) hr hc
  have h1 : (fields md r c).toNat / 64 = md := by omega
  have h2 : (fields md r c).toNat / 8 % 8 = r := by omega
  have h3 : (fields md r c).toNat % 8 = c := by omega
  have h50 : ¬ (c = 5 ∧ md = 0) := fun h => h5 h.1 h.2
  simp only [takeModRM, h1, h2, h3, if_neg (by omega : ¬ md = 3), if_neg h4, if_neg h50]
  rw [← hlen, takeN_append]
  rfl

theorem takeModRM_sib (p : Rex) {r md : Nat} (hr : r < 8) (hmd : md < 3) (rest : List UInt8) :
    takeModRM m p (fields md r 4 :: rest) = takeSib p md (ext r p.r) rest := by
  have hn := toNat_fields (by omega : md < 4) hr (by decide : 4 < 8)
  have h1 : (fields md r 4).toNat / 64 = md := by omega
  have h2 : (fields md r 4).toNat / 8 % 8 = r := by omega
  have h3 : (fields md r 4).toNat % 8 = 4 := by omega
  simp only [takeModRM, h1, h2, h3, if_neg (by omega : ¬ md = 3), if_true]

theorem takeModRM_disp32 (p : Rex) {r : Nat} (hr : r < 8) (d : Int) (rest : List UInt8) :
    takeModRM m p (fields 0 r 5 :: (sle 4 d ++ rest)) =
      some (⟨⟨ext r p.r, disp32Place m (signed (sle 4 d))⟩, 1, sle 4 d⟩, rest) := by
  have hn := toNat_fields (by decide : 0 < 4) hr (by decide : 5 < 8)
  have h1 : (fields 0 r 5).toNat / 64 = 0 := by omega
  have h2 : (fields 0 r 5).toNat / 8 % 8 = r := by omega
  have h3 : (fields 0 r 5).toNat % 8 = 5 := by omega
  simp [takeModRM, h1, h2, h3, takeN_sle]

theorem takeSib_base {reg md s i b : Nat} (hs : s < 4) (hi : i < 8) (hb : b < 8)
    (h5 : b = 5 → md ≠ 0) (bs rest : List UInt8) (hlen : bs.length = dispLen md) :
    takeSib p md reg (fields s i b :: (bs ++ rest)) =
      some (⟨⟨reg, .mem ⟨some (ext b p.b), sibIndex (fields s i b) p.x, signed bs⟩⟩, 2, bs⟩,
        rest) := by
  have hn := toNat_fields hs hi hb
  have h1 : (fields s i b).toNat % 8 = b := by omega
  have h50 : ¬ (b = 5 ∧ md = 0) := fun h => h5 h.1 h.2
  simp only [takeSib, h1, if_neg h50]
  rw [← hlen, takeN_append]
  rfl

theorem takeSib_noBase {reg s i : Nat} (hs : s < 4) (hi : i < 8) (d : Int) (rest : List UInt8) :
    takeSib p 0 reg (fields s i 5 :: (sle 4 d ++ rest)) =
      some (⟨⟨reg, .mem ⟨none, sibIndex (fields s i 5) p.x, signed (sle 4 d)⟩⟩, 2, sle 4 d⟩,
        rest) := by
  have hn := toNat_fields hs hi (by decide : 5 < 8)
  have h1 : (fields s i 5).toNat % 8 = 5 := by omega
  simp [takeSib, h1, takeN_sle]

/-- The operand part reads back as the slot it was written for. -/
theorem takeModRM_slot (p : Rex) {reg : Nat} (t : Slot) (hreg : reg < 16) (ht : t.Ok)
    (hr : p.r = decide (8 ≤ reg)) (hx : p.x = t.x) (hb : p.b = t.b) (rest : List UInt8) :
    takeModRM m p (t.lead (reg % 8) ++ (t.dispBytes ++ rest)) =
      some (⟨⟨reg, t.place m⟩, (t.lead (reg % 8)).length, t.dispBytes⟩, rest) := by
  have hr8 : reg % 8 < 8 := mod_lt _ (by decide)
  have hreg' : ext (reg % 8) p.r = reg := by rw [hr, ext_low hreg]
  cases t with
  | reg n =>
    simp only [Slot.lead, Slot.dispBytes, nil_append, cons_append]
    rw [takeModRM_reg m p hr8, hreg', hb]
    simp only [Slot.b, ext_low ht]
    rfl
  | base b d =>
    obtain ⟨hb16, hlo, hhi⟩ := ht
    have hb8 : b % 8 < 8 := mod_lt _ (by decide)
    have hbase : ext (b % 8) p.b = b := by rw [hb]; exact ext_low hb16
    simp only [Slot.lead, Slot.dispBytes]
    by_cases h4 : b % 8 = 4
    · -- base 4 goes through a SIB byte whose index part says "no index"
      have hb4 : ext 4 p.b = b := by rw [← h4]; exact hbase
      have hx0 : p.x = false := hx
      simp only [if_pos h4, cons_append, nil_append]
      rw [takeModRM_sib m p hr8 (dispMod_lt b d), hreg',
        takeSib_base p (by decide) (by decide) (by decide) (by omega) _ _ (length_sle _ _)]
      rw [hb4, hx0, signed_dispMod hlo hhi]
      rfl
    · simp only [if_neg h4, cons_append, nil_append]
      rw [takeModRM_base m p hr8 hb8 (dispMod_lt b d) h4 (dispMod_pos d) _ _ (length_sle _ _),
        hreg', hbase, signed_dispMod hlo hhi]
      rfl
  | sib b i s d =>
    obtain ⟨hb16, hi16, hs, hlo, hhi⟩ := ht
    have hbase : ext (b % 8) p.b = b := by rw [hb]; exact ext_low hb16
    simp only [Slot.lead, Slot.dispBytes, cons_append, nil_append]
    rw [takeModRM_sib m p hr8 (dispMod_lt b d), hreg',
      takeSib_base p hs (mod_lt _ (by decide)) (mod_lt _ (by decide)) (dispMod_pos d) _ _
        (length_sle _ _),
      hbase, hx, signed_dispMod hlo hhi]
    simp only [Slot.x, Slot.place, sibIndex_fields hs hi16 (mod_lt b (by decide : 0 < 8))]
    rfl
  | noBase i s d =>
    obtain ⟨hi16, hs, hlo, hhi⟩ := ht
    simp only [Slot.lead, Slot.dispBytes, cons_append, nil_append]
    rw [takeModRM_sib m p hr8 (by decide), hreg', takeSib_noBase p hs (mod_lt _ (by decide)),
      hx, signed_disp32 hlo hhi]
    simp only [Slot.x, Slot.place, sibIndex_fields hs hi16 (by decide : 5 < 8)]
    rfl
  | disp32 d =>
    simp only [Slot.lead, Slot.dispBytes, cons_append, nil_append]
    rw [takeModRM_disp32 m p hr8, hreg', signed_disp32 ht.1 ht.2]
    rfl

/-! ## Forms -/

/-- What follows the opcode: nothing, a register in the low bits of the opcode
itself, or a ModRM operand. -/
inductive Arg where
  | none
  | plus (r : Nat)
  | rm (reg : Nat) (t : Slot)
  deriving DecidableEq

structure Form where
  pre : List UInt8
  w : Bool
  /-- A REX prefix stands even if no bit of it is needed. -/
  force : Bool
  map : OpMap
  op : UInt8
  arg : Arg
  imm : List UInt8
  deriving DecidableEq

def opBytes (map : OpMap) (b : UInt8) : List UInt8 :=
  match map with
  | .one => [b]
  | .two => [0x0F, b]
  | .x38 => [0x0F, 0x38, b]
  | .x3a => [0x0F, 0x3A, b]

namespace Arg

def r : Arg → Bool
  | rm reg _ => 8 ≤ reg
  | _ => false

def x : Arg → Bool
  | rm _ t => t.x
  | _ => false

def b : Arg → Bool
  | none => false
  | plus n => 8 ≤ n
  | rm _ t => t.b

def opByte (op : UInt8) : Arg → UInt8
  | plus n => op + UInt8.ofNat (n % 8)
  | _ => op

def lead : Arg → List UInt8
  | rm reg t => t.lead (reg % 8)
  | _ => []

def dispBytes : Arg → List UInt8
  | rm _ t => t.dispBytes
  | _ => []

def digit : Arg → Nat
  | rm reg _ => reg % 8
  | _ => 0

def isRm : Arg → Bool
  | rm _ _ => true
  | _ => false

def modrm (m : Mode) : Arg → Option ModRM
  | rm reg t => some ⟨reg, t.place m⟩
  | _ => Option.none

def Ok : Arg → Prop
  | none => True
  | plus n => n < 16
  | rm reg t => reg < 16 ∧ t.Ok

end Arg

namespace Form

def opByte (f : Form) : UInt8 := f.arg.opByte f.op

def bits (f : Form) : Rex := ⟨f.w, f.arg.r, f.arg.x, f.arg.b⟩

def rex (f : Form) : Option Rex :=
  if f.w || f.force || f.arg.r || f.arg.x || f.arg.b then some f.bits else none

/-- Everything before the displacement. -/
def front (f : Form) : List UInt8 :=
  f.pre ++ f.rex.toList.map Rex.byte ++ opBytes f.map f.opByte ++ f.arg.lead

def bytes (f : Form) : List UInt8 := f.front ++ f.arg.dispBytes ++ f.imm

/-- The instruction that the bytes of the form stand for. -/
def insn (m : Mode) (f : Form) : Insn :=
  { prefixes := f.pre, rex := f.rex, vex := none, map := f.map, opcode := f.opByte,
    modrm := f.arg.modrm m, head := f.front.length, disp := f.arg.dispBytes, imm := f.imm }

end Form

/-- The opcode is no prefix, no escape and no VEX lead. -/
def opStart (m : Mode) : OpMap → UInt8 → Bool
  | .one, b => !isPrefix b && !isRex m b && b != 0x0F && b != 0xC4 && b != 0xC5
  | .two, b => b != 0x38 && b != 0x3A
  | _, _ => true

/-- What the opcode tables ask of a form, apart from its registers. -/
def tableOk (m : Mode) (pre : List UInt8) (w : Bool) (map : OpMap) (b : UInt8) (isRm : Bool)
    (digit immLength : Nat) : Bool :=
  pre.all isPrefix && opStart m map b && legal m map b && !(m == .prot && pre.contains 0x67) &&
    hasModRM map b == isRm && immLen m map b digit (pre.contains 0x66) w == immLength

structure Form.Fits (m : Mode) (f : Form) : Prop where
  table : tableOk m f.pre f.w f.map f.opByte f.arg.isRm f.arg.digit f.imm.length = true
  arg : f.arg.Ok
  rex : m = .prot → f.rex = none

/-! ## The decoder reads a form back -/

theorem takeOpcode_opBytes {m : Mode} {map : OpMap} {b : UInt8} (rex : Option Rex)
    (h : opStart m map b = true) (rest : List UInt8) :
    takeOpcode m rex (opBytes map b ++ rest) =
      some (⟨map, b, rex.getD Rex.none, none, (opBytes map b).length⟩, rest) := by
  cases map with
  | one =>
    simp only [opStart, Bool.and_eq_true, bne_iff_ne, ne_eq] at h
    obtain ⟨⟨⟨_, h0f⟩, hc4⟩, hc5⟩ := h
    simp only [opBytes, cons_append, nil_append]
    unfold takeOpcode
    split <;> simp_all
  | two =>
    simp only [opStart, Bool.and_eq_true, bne_iff_ne, ne_eq] at h
    simp only [opBytes, cons_append, nil_append]
    rw [takeOpcode]
    · rfl
    · exact fun _ _ h38 _ => h.1 h38
    · exact fun _ _ h3a _ => h.2 h3a
  | x38 => rfl
  | x3a => rfl

/-- The bytes of an opcode do not start like a prefix. -/
theorem opBytes_head {m : Mode} {map : OpMap} {b : UInt8} (h : opStart m map b = true) :
    ∃ c bs, opBytes map b = c :: bs ∧ isPrefix c = false ∧ isRex m c = false := by
  cases map with
  | one =>
    simp only [opStart, Bool.and_eq_true, Bool.not_eq_true'] at h
    exact ⟨b, [], rfl, h.1.1.1.1, h.1.1.1.2⟩
  | two => exact ⟨0x0F, [b], rfl, rfl, by cases m <;> rfl⟩
  | x38 => exact ⟨0x0F, [0x38, b], rfl, rfl, by cases m <;> rfl⟩
  | x3a => exact ⟨0x0F, [0x3A, b], rfl, rfl, by cases m <;> rfl⟩

theorem prefixes_split {pre : List UInt8} (hpre : pre.all isPrefix = true) {c : UInt8}
    (hc : isPrefix c = false) (bs : List UInt8) :
    (pre ++ c :: bs).takeWhile isPrefix = pre ∧ (pre ++ c :: bs).dropWhile isPrefix = c :: bs := by
  have hall : ∀ b ∈ pre, isPrefix b = true := List.all_eq_true.mp hpre
  rw [List.takeWhile_append_of_pos hall, List.dropWhile_append_of_pos hall]
  simp [hc]

/-- After the prefixes and REX, the opcode bytes are next. -/
theorem front_split {m : Mode} {f : Form} (h : f.Fits m) (rest : List UInt8) :
    (f.pre ++ (f.rex.toList.map Rex.byte ++ (opBytes f.map f.opByte ++ rest))).takeWhile isPrefix
        = f.pre ∧
      takeRex m ((f.pre ++ (f.rex.toList.map Rex.byte ++
        (opBytes f.map f.opByte ++ rest))).dropWhile isPrefix)
        = (f.rex, opBytes f.map f.opByte ++ rest) := by
  have ht := h.table
  simp only [tableOk, Bool.and_eq_true] at ht
  obtain ⟨⟨⟨⟨⟨hpre, hstart⟩, _⟩, _⟩, _⟩, _⟩ := ht
  obtain ⟨c, bs, hc, hcp, hcr⟩ := opBytes_head hstart
  rcases hrex : f.rex with _ | p
  · obtain ⟨h1, h2⟩ := prefixes_split hpre hcp (bs ++ rest)
    simp only [Option.toList_none, map_nil, nil_append, hc, cons_append]
    exact ⟨h1, by rw [h2]; simp [takeRex, hcr]⟩
  · -- a REX prefix only stands in 64-bit mode
    obtain rfl : m = .long := by
      cases m with
      | long => rfl
      | prot => simp [h.rex rfl] at hrex
    obtain ⟨h1, h2⟩ := prefixes_split hpre p.isPrefix_byte (opBytes f.map f.opByte ++ rest)
    simp only [Option.toList_some, map_cons, map_nil, cons_append, nil_append]
    exact ⟨h1, by rw [h2]; simp [takeRex, p.isRex_byte, p.ofByte_byte]⟩

variable (f : Form)

/-- The bits in force are the ones of the form, with or without a prefix. -/
theorem Form.rex_getD : f.rex.getD Rex.none = f.bits := by
  unfold Form.rex Form.bits Rex.none
  split_ifs with h
  · rfl
  · simp only [Bool.or_eq_true, not_or, Bool.not_eq_true] at h
    obtain ⟨⟨⟨⟨hw, _⟩, hr⟩, hx⟩, hb⟩ := h
    simp [hw, hr, hx, hb]

theorem takeOperand_arg {m : Mode} {f : Form} (h : f.Fits m) (len : Nat) (rest : List UInt8) :
    takeOperand m ⟨f.map, f.opByte, f.bits, none, len⟩ (f.arg.lead ++ (f.arg.dispBytes ++ rest)) =
      some ((f.arg.modrm m).map fun md => ⟨md, f.arg.lead.length, f.arg.dispBytes⟩, rest) := by
  have ht := h.table
  simp only [tableOk, Bool.and_eq_true, beq_iff_eq] at ht
  have hm := ht.1.2
  have harg := h.arg
  unfold takeOperand
  simp only [hm]
  cases hf : f.arg with
  | none => rfl
  | plus n => rfl
  | rm reg t =>
    rw [hf] at harg
    simp only [Arg.isRm, Arg.lead, Arg.dispBytes, if_true]
    rw [takeModRM_slot m f.bits t harg.1 harg.2 (by simp [Form.bits, hf, Arg.r])
      (by simp [Form.bits, hf, Arg.x]) (by simp [Form.bits, hf, Arg.b])]
    rfl

theorem decode_form {m : Mode} {f : Form} (h : f.Fits m) (rest : List UInt8) :
    decode m (f.bytes ++ rest) = some (f.insn m, rest) := by
  obtain ⟨htake, hdrop⟩ := front_split h (f.arg.lead ++ (f.arg.dispBytes ++ (f.imm ++ rest)))
  have hbytes : f.bytes ++ rest = f.pre ++ (f.rex.toList.map Rex.byte ++
      (opBytes f.map f.opByte ++ (f.arg.lead ++ (f.arg.dispBytes ++ (f.imm ++ rest))))) := by
    simp [Form.bytes, Form.front]
  have ht := h.table
  simp only [tableOk, Bool.and_eq_true, beq_iff_eq, Bool.not_eq_true'] at ht
  obtain ⟨⟨⟨⟨⟨_, hstart⟩, hlegal⟩, h67⟩, _⟩, himm⟩ := ht
  have hdigit : Taken.digit ((f.arg.modrm m).map fun md =>
      (⟨md, f.arg.lead.length, f.arg.dispBytes⟩ : Taken)) = f.arg.digit := by
    cases f.arg <;> rfl
  have hw : f.bits.w = f.w := rfl
  unfold decode
  rw [hbytes, htake, hdrop]
  simp only [takeOpcode_opBytes f.rex hstart, Form.rex_getD, Option.bind_eq_bind, Option.bind_some,
    takeOperand_arg h, hlegal, h67, hdigit, hw, himm, takeN_append, Bool.not_true, Bool.or_self,
    Bool.false_eq_true, if_false]
  cases harg : f.arg <;>
    simp [Form.insn, Form.front, harg, Arg.modrm, Arg.lead, Arg.dispBytes] <;> omega

/-! ## Several forms in a row -/

theorem Form.bytes_length_pos : 0 < f.bytes.length := by
  have h : 0 < (opBytes f.map f.opByte).length := by cases f.map <;> simp [opBytes]
  simp only [Form.bytes, Form.front, List.length_append]
  omega

theorem length_le_flatMap_bytes (fs : List Form) : fs.length ≤ (fs.flatMap Form.bytes).length := by
  induction fs with
  | nil => simp
  | cons f fs ih =>
    have := f.bytes_length_pos
    simp only [List.flatMap_cons, List.length_append, List.length_cons]
    omega

theorem decodeAll_forms {m : Mode} {fs : List Form} (h : ∀ f ∈ fs, f.Fits m) {k : Nat}
    (hk : fs.length ≤ k) :
    decodeAll m k (fs.flatMap Form.bytes) = some (fs.map (Form.insn m)) := by
  induction fs generalizing k with
  | nil => cases k <;> rfl
  | cons f fs ih =>
    obtain ⟨k, rfl⟩ : ∃ j, k = j + 1 := ⟨k - 1, by simp at hk; omega⟩
    have hrest := ih (fun g hg => h g (.tail _ hg)) (by simpa using hk)
    have hdec := decode_form (h f (.head _)) (fs.flatMap Form.bytes)
    rw [List.flatMap_cons]
    rcases hbs : f.bytes with _ | ⟨b, bs⟩
    · have := f.bytes_length_pos
      simp [hbs] at this
    · rw [hbs, cons_append] at hdec
      simp only [cons_append, decodeAll, hdec, Option.bind_eq_bind, Option.bind_some, hrest,
        map_cons]

theorem disassemble_forms {m : Mode} {fs : List Form} (h : ∀ f ∈ fs, f.Fits m) :
    disassemble m (fs.flatMap Form.bytes) = some (fs.map (Form.insn m)) :=
  decodeAll_forms h (length_le_flatMap_bytes fs)

theorem disassemble_form {m : Mode} {f : Form} (h : f.Fits m) :
    disassemble m f.bytes = some [f.insn m] := by
  have := @disassemble_forms m [f] (by simpa using h)
  simpa using this

/-! ## Segment prefixes -/

/-- The bytes `64` and `65` in front of an instruction. -/
def SegLead (lead : List UInt8) : Prop := ∀ b ∈ lead, b = 0x64 ∨ b = 0x65

theorem SegLead.all {lead : List UInt8} (h : SegLead lead) : lead.all isPrefix = true := by
  rw [List.all_eq_true]
  intro b hb
  rcases h b hb with rfl | rfl <;> rfl

theorem SegLead.contains {lead : List UInt8} (h : SegLead lead) {c : UInt8} (h4 : c ≠ 0x64)
    (h5 : c ≠ 0x65) (pre : List UInt8) : (lead ++ pre).contains c = pre.contains c := by
  have hc : c ∉ lead := fun hc => (h c hc).elim h4 h5
  simp [List.contains_eq_mem, hc]

def Form.under (f : Form) (lead : List UInt8) : Form := { f with pre := lead ++ f.pre }

theorem Form.under_bytes (lead : List UInt8) : (f.under lead).bytes = lead ++ f.bytes := by
  simp [Form.under, Form.bytes, Form.front, Form.rex, Form.bits, Form.opByte]

theorem Form.under_front (lead : List UInt8) : (f.under lead).front = lead ++ f.front := by
  simp [Form.under, Form.front, Form.rex, Form.bits, Form.opByte]

theorem Form.Fits.under {m : Mode} {f : Form} (h : f.Fits m) {lead : List UInt8}
    (hl : SegLead lead) : (f.under lead).Fits m where
  table := by
    have ht := h.table
    unfold tableOk at ht ⊢
    simp only [Form.under, Form.opByte, List.all_append, hl.all, Bool.true_and,
      hl.contains (by decide : (0x67 : UInt8) ≠ 0x64) (by decide),
      hl.contains (by decide : (0x66 : UInt8) ≠ 0x64) (by decide)]
    exact ht
  arg := h.arg
  rex := h.rex

theorem fits_rex_prot {pre : List UInt8} (hpre : pre = [] ∨ pre = [0x66]) (p : Rex) :
    (⟨pre, false, false, .one, p.byte, .none, []⟩ : Form).Fits .prot := by
  refine ⟨?_, trivial, fun _ => rfl⟩
  rcases hpre with rfl | rfl <;> rcases p with ⟨_ | _, _ | _, _ | _, _ | _⟩ <;> decide

theorem bytes_rex_prot (pre : List UInt8) (p : Rex) :
    (⟨pre, false, false, .one, p.byte, .none, []⟩ : Form).bytes = pre ++ [p.byte] := by
  simp [Form.bytes, Form.front, Form.rex, Form.opByte, Arg.opByte, Arg.r, Arg.x, Arg.b, Arg.lead,
    Arg.dispBytes, opBytes]

theorem Form.insn_size (f : Form) : (f.insn m).size = f.bytes.length := by
  simp [Insn.size, Insn.immAt, Form.insn, Form.bytes, Nat.add_assoc]

end X86
