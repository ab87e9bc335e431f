-- Points of Ed25519 in extended coordinates: doubling, addition, the multiplication by a
-- scalar, and the two byte encodings. The bounds of the limbs are carried together with
-- the elements they stand for.
import PaideiaAs.Crypto.X25519
import PaideiaAs.Lib.Edwards

namespace paideia_as_crypto.curve.ed25519

open Trace Bytes FieldElement
open Call (NoLoss)
open Edwards (Extended)

/-- `d = -121665 / 121666`. -/
def D_LE : Bytes32 :=
  ⟨[0xa3, 0x78, 0x59, 0x13, 0xca, 0x4d, 0xeb, 0x75,
    0xab, 0xd8, 0x41, 0x41, 0x4d, 0x0a, 0x70, 0x00,
    0x98, 0xe8, 0x79, 0x77, 0x79, 0x40, 0xc7, 0x8c,
    0x73, 0xfe, 0x6f, 0x2b, 0xee, 0x6c, 0x03, 0x52], rfl⟩

/-- A square root of -1. -/
def SQRT_M1_LE : Bytes32 :=
  ⟨[0xb0, 0xa0, 0x0e, 0x4a, 0x27, 0x1b, 0xee, 0xc4,
    0x78, 0xe4, 0x2f, 0xad, 0x06, 0x18, 0x43, 0x2f,
    0xa7, 0xd7, 0xfb, 0x3d, 0x99, 0x00, 0x4d, 0x2b,
    0x0b, 0xdf, 0xc1, 0x4f, 0x80, 0x24, 0x83, 0x2b], rfl⟩

/-- The bytes of `p`. -/
def p_bytes : Bytes32 := ⟨0xed :: List.replicate 30 0xff ++ [0x7f], rfl⟩

/-! ## Helpers of the field -/

/-- Equality without an early return. -/
def ct_eq (a b : List UInt8) : Bool :=
  if a.length ≠ b.length then false
  else (a.zip b).foldl (fun acc p => acc ||| (p.1 ^^^ p.2)) 0 == 0

def fe_neg (a : FieldElement) : Field FieldElement := ZERO.sub a

/-- The low bit of the encoding. -/
def fe_is_negative (a : FieldElement) : UInt8 := byte a.to_bytes 0 &&& 1

def fe_eq (a b : FieldElement) : Bool := ct_eq a.to_bytes.1 b.to_bytes.1

/-! ## Points -/

/-- A point in extended coordinates. -/
structure Point where
  x : FieldElement
  y : FieldElement
  z : FieldElement
  t : FieldElement

def d_times_2 : Field FieldElement := do
  let d := from_bytes D_LE
  d.add d

namespace Point

def identity : Point := ⟨ZERO, ONE, ONE, ZERO⟩

def cswap (a b : Point) (swap : UInt64) : Point × Point :=
  let (ax, bx) := FieldElement.cswap a.x b.x swap
  let (ay, b_y) := FieldElement.cswap a.y b.y swap
  let (az, bz) := FieldElement.cswap a.z b.z swap
  let (a_t, bt) := FieldElement.cswap a.t b.t swap
  (⟨ax, ay, az, a_t⟩, ⟨bx, b_y, bz, bt⟩)

def double (p : Point) : Field Point := do
  let a ← p.x.square
  let b ← p.y.square
  let zz ← p.z.square
  let zz' ← p.z.square
  let c ← zz.add zz'
  let d ← fe_neg a
  let s ← p.x.add p.y
  let ss ← s.square
  let ss_a ← ss.sub a
  let e ← ss_a.sub b
  let g ← d.add b
  let f ← g.sub c
  let h ← d.sub b
  let x ← e.mul f
  let y ← g.mul h
  let t ← e.mul h
  let z ← f.mul g
  pure ⟨x, y, z, t⟩

def add (p other : Point) : Field Point := do
  let d2 ← d_times_2
  let p_minus ← p.y.sub p.x
  let o_minus ← other.y.sub other.x
  let a ← p_minus.mul o_minus
  let p_plus ← p.y.add p.x
  let o_plus ← other.y.add other.x
  let b ← p_plus.mul o_plus
  let tt ← p.t.mul other.t
  let c ← tt.mul d2
  let zz ← p.z.mul other.z
  let zz' ← p.z.mul other.z
  let d ← zz.add zz'
  let e ← b.sub a
  let f ← d.sub c
  let g ← d.add c
  let h ← b.add a
  let x ← e.mul f
  let y ← g.mul h
  let t ← e.mul h
  let z ← f.mul g
  pure ⟨x, y, z, t⟩

/-- The body of the loop, for one bit of the scalar. -/
def scalar_step (r0 r1 : Point) (bit : UInt64) : Field (Point × Point) := do
  let (r0, r1) := cswap r0 r1 bit
  let new_r1 ← r0.add r1
  let new_r0 ← r0.double
  pure (cswap new_r0 new_r1 bit)

/-- The two points after `i` turns of the loop, which begins with bit 255. -/
def scalar_loop (p : Point) (scalar : Bytes32) : Nat → Field (Point × Point)
  | 0 => pure (identity, p)
  | i + 1 => do
    let (r0, r1) ← scalar_loop p scalar i
    scalar_step r0 r1 (scalar_bit scalar (255 - i))

def scalar_mul (p : Point) (scalar : Bytes32) : Field Point := do
  let (r0, _) ← scalar_loop p scalar 256
  pure r0

def compress (p : Point) : Field Bytes32 := do
  let z_inv ← p.z.invert
  let x ← p.x.mul z_inv
  let y ← p.y.mul z_inv
  let out := y.to_bytes
  pure (set_byte out 31 (byte out 31 ||| fe_is_negative x <<< 7))

end Point

/-! ## Decompression -/

/-- The bytes below `i` compared, the highest first. -/
def compare_down (a b : Bytes32) (i : Nat) : Ordering :=
  Limbs.compareDown (fun j => (byte a j).toNat) (fun j => (byte b j).toNat) i

/-- Whether the coordinate is rejected: `y >= p`. -/
def y_rejected (y_bytes : Bytes32) : Bool :=
  match compare_down y_bytes p_bytes 32 with
  | .gt => true
  | .lt => false
  | .eq => y_bytes == p_bytes

/-- The candidate, or the candidate times the root of -1, where its square is `w`. -/
def choose_root (x w : FieldElement) : Field (Option FieldElement) := do
  let xx ← x.square
  if fe_eq xx w then pure (some x)
  else do
    let sqrt_m1 := from_bytes SQRT_M1_LE
    let x ← x.mul sqrt_m1
    let xx ← x.square
    if fe_eq xx w then pure (some x) else pure none

/-- The root whose low bit is the sign. -/
def adjust_sign (x : FieldElement) (x_sign : UInt8) : Field FieldElement :=
  if byte x.to_bytes 0 &&& 1 ≠ x_sign then fe_neg x else pure x

/-- The square root of `(y^2 - 1) / (d * y^2 + 1)`, if there is one. -/
def recover_x (y : FieldElement) : Field (Option FieldElement) := do
  let y2 ← y.square
  let d := from_bytes D_LE
  let u ← y2.sub ONE
  let dy2 ← d.mul y2
  let v ← dy2.add ONE
  let v_inv ← v.invert
  let w ← u.mul v_inv
  let power ← w.fe_pow_p_minus_5_over_8
  let x ← w.mul power
  choose_root x w

def decompress (bytes : Bytes32) : Field (Option Point) := do
  let x_sign := byte bytes 31 >>> 7
  let y_bytes := set_byte bytes 31 (byte bytes 31 &&& 0x7f)
  if y_rejected y_bytes then pure none
  else do
    let y := from_bytes y_bytes
    match ← recover_x y with
    | none => pure none
    | some x =>
      if ct_eq x.to_bytes.1 (List.replicate 32 0) && x_sign == 1 then pure none
      else do
        let x ← adjust_sign x x_sign
        let t ← x.mul y
        pure (some ⟨x, y, ONE, t⟩)

/-! ## Bounds and values of the points -/

/-- The coordinates in the field. -/
def Point.ext (p : Point) : Extended (ZMod P) := ⟨p.x.val, p.y.val, p.z.val, p.t.val⟩

/-- `d`. -/
def dCoefficient : ZMod P := (from_bytes D_LE).val

/-- The coordinates can be subtracted. -/
structure Ready (p : Point) : Prop where
  x : Below2p p.x
  y : Below2p p.y
  z : Below2p p.z
  t : Below2p p.t

variable {a x b : FieldElement} {p : Point}

theorem Below2p.loose (h : Below2p a) : Loose a := h.bounded.mono (by norm_num)

theorem tight_zero : Tight ZERO := by constructor <;> decide

theorem tight_one : Tight ONE := by constructor <;> decide

theorem val_zero : ZERO.val = 0 := Nat.cast_zero

theorem val_one : ONE.val = 1 := Nat.cast_one

theorem identity_ready : Ready Point.identity :=
  ⟨tight_zero.below2p, tight_one.below2p, tight_one.below2p, tight_zero.below2p⟩

theorem identity_ext : Point.identity.ext = ⟨0, 1, 1, 0⟩ := by
  unfold Point.ext Point.identity
  rw [val_zero, val_one]

/-- Four products in the place of coordinates. -/
theorem ready_of_tight {y z t : FieldElement} (hx : Tight x) (hy : Tight y) (hz : Tight z)
    (ht : Tight t) : Ready ⟨x, y, z, t⟩ :=
  ⟨hx.below2p, hy.below2p, hz.below2p, ht.below2p⟩

theorem cswap_points (a b : Point) (c : Bool) :
    Point.cswap a b (flag c) = if c then (b, a) else (a, b) := by
  unfold Point.cswap
  simp only [cswap_flag]
  cases c <;> rfl

theorem Sum.loose {r : FieldElement} (h : Sum a b r) (ha : Below2p a) (hb : Below2p b) :
    Loose r := h.bounded ha.bounded hb.bounded (by norm_num)

theorem Difference.loose {r : FieldElement} (h : Difference a b r)
    (ha : Bounded (2 ^ 53) a) : Loose r := h.bounded ha (by norm_num)

theorem neg_spec (ha : Below2p a) :
    Ensures NoLoss (fe_neg a) (Difference ZERO a) := sub_spec tight_zero.loose ha

/-- The counterweight of the difference `d + b`, with `d` above `2 * p`, still covers a
doubled product: this is where `2 * Z^2` is subtracted. -/
theorem doubled_covered {d g z z' c : FieldElement} (ha : Tight a)
    (hd : Difference ZERO a d) (hg : Sum d b g) (hz : Tight z) (hz' : Tight z')
    (hc : Sum z z' c) : Covers g c := by
  obtain ⟨a0, a1, a2, a3, a4⟩ := ha
  obtain ⟨d0, d1, d2, d3, d4⟩ := hd
  obtain ⟨g0, g1, g2, g3, g4⟩ := hg
  obtain ⟨z0, z1, z2, z3, z4⟩ := hz
  obtain ⟨y0, y1, y2, y3, y4⟩ := hz'
  obtain ⟨c0, c1, c2, c3, c4⟩ := hc
  constructor <;> omega

theorem double_spec {p : Point} (hp : Ready p) :
    Ensures NoLoss p.double fun r => Ready r ∧ r.ext = p.ext.double := by
  obtain ⟨hx, hy, hz, -⟩ := hp
  unfold Point.double
  apply Ensures.bind (square_spec (Below2p.loose hx))
  rintro a ⟨ta, va⟩
  apply Ensures.bind (square_spec (Below2p.loose hy))
  rintro b ⟨tb, vb⟩
  apply Ensures.bind (square_spec (Below2p.loose hz))
  rintro zz ⟨tzz, vzz⟩
  apply Ensures.bind (square_spec (Below2p.loose hz))
  rintro zz' ⟨tzz', vzz'⟩
  apply Ensures.bind (add_spec tzz.loose tzz'.loose)
  intro c hc
  apply Ensures.bind (neg_spec ta.below2p)
  intro d hd
  apply Ensures.bind (add_spec (Below2p.loose hx) (Below2p.loose hy))
  intro s hs
  apply Ensures.bind (square_spec (Sum.loose hs hx hy))
  rintro ss ⟨tss, vss⟩
  apply Ensures.bind (sub_spec tss.loose ta.below2p)
  intro ss_a hssa
  have bssa : Bounded (2 ^ 53) ss_a := hssa.bounded tss.bounded (by norm_num)
  apply Ensures.bind (sub_spec (bssa.mono (by norm_num)) tb.below2p)
  intro e he
  have le : Loose e := Difference.loose he bssa
  have bd : Bounded (2 ^ 52) d := hd.bounded (m := 0) (by constructor <;> decide) (by norm_num)
  apply Ensures.bind (add_spec (bd.mono (by norm_num)) tb.loose)
  intro g hg
  have bg : Bounded (2 ^ 53) g := hg.bounded bd tb.bounded (by norm_num)
  apply Ensures.bind (sub_covered_spec (bg.mono (by norm_num))
    (doubled_covered ta hd hg tzz tzz' hc))
  intro f hf
  have lf : Loose f := Difference.loose hf bg
  have lg : Loose g := bg.mono (by norm_num)
  apply Ensures.bind (sub_spec (bd.mono (by norm_num)) tb.below2p)
  intro h hh
  have lh : Loose h := Difference.loose hh (bd.mono (by norm_num))
  apply Ensures.bind (mul_spec le lf)
  rintro x3 ⟨tx, vx⟩
  apply Ensures.bind (mul_spec lg lh)
  rintro y3 ⟨ty, vy⟩
  apply Ensures.bind (mul_spec le lh)
  rintro t3 ⟨tt, vt⟩
  apply Ensures.bind (mul_spec lf lg)
  rintro z3 ⟨tz, vz⟩
  apply Ensures.pure
  refine ⟨ready_of_tight tx ty tz tt, ?_⟩
  unfold Point.ext Extended.double
  simp only [vx, vy, vz, vt, he.val, hssa.val, vss, hs.val, hf.val, hg.val, hh.val, hd.val,
    hc.val, va, vb, vzz, vzz', val_zero]

theorem add_points_spec {q : Point} (hp : Ready p) (hq : Ready q) :
    Ensures NoLoss (p.add q) fun r =>
      Ready r ∧ r.ext = p.ext.add (dCoefficient + dCoefficient) q.ext := by
  obtain ⟨hx, hy, hz, ht⟩ := hp
  obtain ⟨hx', hy', hz', ht'⟩ := hq
  have hD : Tight (from_bytes D_LE) := from_bytes_tight D_LE
  have minus : ∀ {a b r}, Difference a b r → Below2p a → Loose r := by
    intro a b r h ha
    exact Difference.loose h (ha.bounded.mono (by norm_num))
  unfold Point.add d_times_2
  apply Ensures.bind (add_spec hD.loose hD.loose)
  intro d2 hd2
  apply Ensures.bind (sub_spec (Below2p.loose hy) hx)
  intro pm hpm
  apply Ensures.bind (sub_spec (Below2p.loose hy') hx')
  intro om hom
  apply Ensures.bind (mul_spec (minus hpm hy) (minus hom hy'))
  rintro a ⟨ta, va⟩
  apply Ensures.bind (add_spec (Below2p.loose hy) (Below2p.loose hx))
  intro pp hpp
  apply Ensures.bind (add_spec (Below2p.loose hy') (Below2p.loose hx'))
  intro op hop
  apply Ensures.bind (mul_spec (Sum.loose hpp hy hx) (Sum.loose hop hy' hx'))
  rintro b ⟨tb, vb⟩
  apply Ensures.bind (mul_spec (Below2p.loose ht) (Below2p.loose ht'))
  rintro tt ⟨ttt, vtt⟩
  apply Ensures.bind (mul_spec ttt.loose (Sum.loose hd2 hD.below2p hD.below2p))
  rintro c ⟨tc, vc⟩
  apply Ensures.bind (mul_spec (Below2p.loose hz) (Below2p.loose hz'))
  rintro zz ⟨tzz, vzz⟩
  apply Ensures.bind (mul_spec (Below2p.loose hz) (Below2p.loose hz'))
  rintro zz' ⟨tzz', vzz'⟩
  apply Ensures.bind (add_spec tzz.loose tzz'.loose)
  intro d hd
  have bd : Bounded (2 ^ 53) d := hd.bounded tzz.bounded tzz'.bounded (by norm_num)
  apply Ensures.bind (sub_spec tb.loose ta.below2p)
  intro e he
  have le : Loose e := minus he tb.below2p
  apply Ensures.bind (sub_spec (bd.mono (by norm_num)) tc.below2p)
  intro f hf
  have lf : Loose f := Difference.loose hf bd
  apply Ensures.bind (add_spec (bd.mono (by norm_num)) tc.loose)
  intro g hg
  have lg : Loose g := hg.bounded bd tc.bounded (by norm_num)
  apply Ensures.bind (add_spec tb.loose ta.loose)
  intro h hh
  have lh : Loose h := Sum.loose hh tb.below2p ta.below2p
  apply Ensures.bind (mul_spec le lf)
  rintro x3 ⟨tx, vx⟩
  apply Ensures.bind (mul_spec lg lh)
  rintro y3 ⟨ty, vy⟩
  apply Ensures.bind (mul_spec le lh)
  rintro t3 ⟨tt3, vt⟩
  apply Ensures.bind (mul_spec lf lg)
  rintro z3 ⟨tz, vz⟩
  apply Ensures.pure
  refine ⟨ready_of_tight tx ty tz tt3, ?_⟩
  unfold Point.ext Extended.add dCoefficient
  simp only [vx, vy, vz, vt, he.val, hf.val, hg.val, hh.val, hd.val, hpm.val, hom.val, hpp.val,
    hop.val, hd2.val, va, vb, vc, vtt, vzz, vzz']

/-! ## The multiplication by a scalar -/

/-- A prefix of the scalar grows by its next bit. -/
theorem prefix_succ (n : Nat) {i : Nat} (hi : i < 256) : n / 2 ^ (256 - (i + 1)) =
      n / 2 ^ (256 - i) + n / 2 ^ (256 - i) + (n.testBit (255 - i)).toNat := by
  have hpow : 2 ^ (256 - i) = 2 ^ (255 - i) * 2 := by
    rw [← Nat.pow_succ]
    congr 1
    omega
  have hsub : 256 - (i + 1) = 255 - i := by omega
  rw [Nat.toNat_testBit, hsub, hpow, ← Nat.div_div_eq_div_mul]
  omega

variable {I : Nat → Point → Prop}

/-- One turn, for whatever doubling and addition keep of the multiples of a point. -/
theorem scalar_step_spec (hadd : ∀ m n p q, I m p → I n q → Ensures NoLoss (p.add q) (I (m + n)))
    (hdouble : ∀ n p, I n p → Ensures NoLoss p.double (I (n + n)))
    {n : Nat} {r0 r1 : Point} (h0 : I n r0) (h1 : I (n + 1) r1) (b : Bool) :
    Ensures NoLoss (Point.scalar_step r0 r1 (flag b)) fun r =>
      I (n + n + b.toNat) r.1 ∧ I (n + n + b.toNat + 1) r.2 := by
  unfold Point.scalar_step
  rw [cswap_points]
  cases b with
  | false =>
    apply Ensures.bind (hadd _ _ _ _ h0 h1)
    intro s hs
    apply Ensures.bind (hdouble _ _ h0)
    intro t ht
    apply Ensures.pure
    rw [cswap_points]
    exact ⟨ht, hs⟩
  | true =>
    apply Ensures.bind (hadd _ _ _ _ h1 h0)
    intro s hs
    apply Ensures.bind (hdouble _ _ h1)
    intro t ht
    apply Ensures.pure
    rw [cswap_points]
    refine ⟨?_, ?_⟩
    · have he : n + 1 + n = n + n + true.toNat := Nat.add_right_comm n 1 n
      rwa [he] at hs
    · have he : n + 1 + (n + 1) = n + n + true.toNat + 1 := by
        rw [Bool.toNat_true]
        omega
      rwa [he] at ht

theorem scalar_loop_spec (hadd : ∀ m n p q, I m p → I n q → Ensures NoLoss (p.add q) (I (m + n)))
    (hdouble : ∀ n p, I n p → Ensures NoLoss p.double (I (n + n)))
    (h0 : I 0 Point.identity) (h1 : I 1 p) (scalar : Bytes32) {i : Nat} (hi : i ≤ 256) :
    Ensures NoLoss (p.scalar_loop scalar i) fun r =>
      I (ofLe scalar.1 / 2 ^ (256 - i)) r.1 ∧ I (ofLe scalar.1 / 2 ^ (256 - i) + 1) r.2 := by
  induction i with
  | zero =>
    apply Ensures.pure
    rw [Nat.sub_zero, Nat.div_eq_of_lt (ofLe_lt_256 scalar)]
    exact ⟨h0, h1⟩
  | succ i ih =>
    unfold Point.scalar_loop
    apply Ensures.bind (ih (by omega))
    rintro ⟨r0, r1⟩ ⟨hr0, hr1⟩
    rw [scalar_bit_eq, prefix_succ _ hi]
    exact scalar_step_spec hadd hdouble hr0 hr1 _

theorem scalar_mul_spec (hadd : ∀ m n p q, I m p → I n q → Ensures NoLoss (p.add q) (I (m + n)))
    (hdouble : ∀ n p, I n p → Ensures NoLoss p.double (I (n + n)))
    (h0 : I 0 Point.identity) (h1 : I 1 p) (scalar : Bytes32) :
    Ensures NoLoss (p.scalar_mul scalar) (I (ofLe scalar.1)) := by
  unfold Point.scalar_mul
  apply Ensures.bind (scalar_loop_spec hadd hdouble h0 h1 scalar (le_refl 256))
  rintro ⟨r0, r1⟩ ⟨hr0, -⟩
  apply Ensures.pure
  rwa [Nat.sub_self, pow_zero, Nat.div_one] at hr0

/-! ## Bytes -/

theorem ct_eq_iff (a b : List UInt8) : ct_eq a b = true ↔ a = b := by
  have hfold : ∀ (a b : List UInt8) (acc : UInt8), a.length = b.length →
      ((a.zip b).foldl (fun acc p => acc ||| (p.1 ^^^ p.2)) acc = 0 ↔ acc = 0 ∧ a = b) := by
    intro a
    induction a with
    | nil =>
      intro b acc hlen
      have hb : b = [] := List.eq_nil_of_length_eq_zero hlen.symm
      simp [hb]
    | cons x a ih =>
      intro b acc hlen
      cases b with
      | nil => cases hlen
      | cons y b =>
        rw [List.zip_cons_cons, List.foldl_cons, ih b _ (Nat.succ.inj hlen), UInt8.or_eq_zero_iff,
          UInt8.xor_eq_zero_iff, List.cons.injEq, and_assoc]
  unfold ct_eq
  by_cases hlen : a.length = b.length
  · simp [hlen, hfold a b 0 hlen]
  · rw [if_pos hlen]
    simp only [Bool.false_eq_true, false_iff]
    intro h
    exact hlen (congrArg List.length h)

instance : NeZero P := ⟨by unfold P; norm_num⟩

theorem val_lt (v : ZMod P) : v.val < 2 ^ 255 - 19 := ZMod.val_lt v

/-- Two elements are equal when their encodings are. -/
theorem fe_eq_iff (ha : Loose a) (hb : Loose b) : fe_eq a b = true ↔ a.val = b.val := by
  unfold fe_eq
  rw [ct_eq_iff, to_bytes_spec ha, to_bytes_spec hb]
  refine ⟨?_, fun h => by rw [h]⟩
  intro h
  have hle := congrArg ofLe h
  have h1 := val_lt a.val
  have h2 := val_lt b.val
  rw [ofLe_le, ofLe_le, Nat.mod_eq_of_lt (by omega), Nat.mod_eq_of_lt (by omega)] at hle
  exact ZMod.val_injective P hle

theorem low_bit (b : UInt8) : (b &&& 1).toNat = b.toNat % 2 := by
  rw [UInt8.toNat_and]
  exact Nat.and_two_pow_sub_one_eq_mod _ 1

theorem parity_spec (ha : Loose a) : (byte a.to_bytes 0 &&& 1).toNat = a.val.val % 2 := by
  have hlt := val_lt a.val
  rw [low_bit, byte_toNat, to_bytes_spec ha, ofLe_le]
  omega

theorem ofLe_to_bytes (ha : Loose a) : ofLe a.to_bytes.1 = a.val.val := by
  have hlt := val_lt a.val
  rw [to_bytes_spec ha, ofLe_le, Nat.mod_eq_of_lt (by omega)]

/-- The number that the encoding of a point stands for: the sign of `x` above `y`. -/
def encoded (x y : ZMod P) : Nat := y.val + 2 ^ 255 * (x.val % 2)

theorem compress_spec (hp : Ready p) : Ensures NoLoss p.compress fun r =>
      r.1 = le 32 (encoded (p.ext.x * p.ext.z ^ (P - 2)) (p.ext.y * p.ext.z ^ (P - 2))) := by
  obtain ⟨hx, hy, hz, -⟩ := hp
  unfold Point.compress
  apply Ensures.bind (invert_spec (Below2p.loose hz))
  intro zi hzi
  apply Ensures.bind (mul_spec (Below2p.loose hx) hzi.loose)
  rintro x ⟨tx, vx⟩
  apply Ensures.bind (mul_spec (Below2p.loose hy) hzi.loose)
  rintro y ⟨ty, vy⟩
  apply Ensures.pure
  have hsign : ∀ n < 128, ∀ s < 2, n ||| s <<< 7 = n + 128 * s := by decide
  have hset := ofLe_set_byte y.to_bytes (i := 31) (by decide)
    (byte y.to_bytes 31 ||| fe_is_negative x <<< 7)
  have hy255 := val_lt y.val
  have hpar := parity_spec tx.loose
  have hbyte := byte_toNat y.to_bytes 31
  rw [ofLe_to_bytes ty.loose] at hset hbyte
  have hor : (byte y.to_bytes 31 ||| fe_is_negative x <<< 7).toNat =
      (byte y.to_bytes 31).toNat + 128 * (x.val.val % 2) := by
    have h7 : (7 : UInt8).toNat % 8 = 7 := rfl
    unfold fe_is_negative
    rw [UInt8.toNat_or, UInt8.toNat_shiftLeft, hpar, h7, Nat.mod_eq_of_lt]
    · exact hsign _ (by omega) _ (by omega)
    · rw [Nat.shiftLeft_eq]
      omega
  have hsum : ofLe (set_byte y.to_bytes 31 (byte y.to_bytes 31 ||| fe_is_negative x <<< 7)).1 =
      encoded x.val y.val := by
    unfold encoded
    rw [hor] at hset
    omega
  change _ = le 32 (encoded (p.x.val * p.z.val ^ (P - 2)) (p.y.val * p.z.val ^ (P - 2)))
  rw [← hzi.val, ← vx, ← vy, ← hsum]
  exact (le_ofLe_32 _).symm

/-! ## Decompression in the field -/

theorem compare_down_32 (a b : Bytes32) : compare_down a b 32 = compare (ofLe a.1) (ofLe b.1) := by
  have hpow : 256 ^ 32 = 2 ^ 256 := by norm_num
  unfold compare_down
  rw [Limbs.compareDown_eq (by decide) (byte_toNat a) (byte_toNat b), hpow,
    Nat.mod_eq_of_lt (ofLe_lt_256 a), Nat.mod_eq_of_lt (ofLe_lt_256 b)]

theorem y_rejected_eq (y : Bytes32) : y_rejected y = decide (P ≤ ofLe y.1) := by
  have hp : ofLe p_bytes.1 = P := rfl
  unfold y_rejected
  rw [compare_down_32, hp]
  split
  · rename_i h
    have := Nat.compare_eq_gt.1 h
    exact (decide_eq_true (by omega)).symm
  · rename_i h
    have := Nat.compare_eq_lt.1 h
    exact (decide_eq_false (by omega)).symm
  · rename_i h
    have heq := Nat.compare_eq_eq.1 h
    have hsame : y = p_bytes := by
      apply Subtype.ext
      rw [← le_ofLe_32 y, heq, ← hp, le_ofLe_32]
    rw [hsame, beq_self_eq_true, hp]
    exact (decide_eq_true (Nat.le_refl P)).symm

def rootOfMinusOne : ZMod P := (from_bytes SQRT_M1_LE).val

/-- The candidate for a root of `w`, or that times the root of -1. -/
def chosenRoot (c w : ZMod P) : Option (ZMod P) :=
  if c * c = w then some c
  else if c * rootOfMinusOne * (c * rootOfMinusOne) = w then some (c * rootOfMinusOne)
  else none

/-- `(y^2 - 1) / (d * y^2 + 1)`. -/
def xSquared (y : ZMod P) : ZMod P := (y * y - 1) * (dCoefficient * (y * y) + 1) ^ (P - 2)

def recoveredX (y : ZMod P) : Option (ZMod P) :=
  chosenRoot (xSquared y * xSquared y ^ ((P - 5) / 8)) (xSquared y)

def signedX (x : ZMod P) (sign : Nat) : ZMod P := if x.val % 2 ≠ sign then 0 - x else x

/-- The point that a number encodes. -/
def decoded (n : Nat) : Option (Extended (ZMod P)) :=
  if P ≤ n % 2 ^ 255 then none
  else match recoveredX (n % 2 ^ 255 : Nat) with
    | none => none
    | some x =>
      if x = 0 ∧ n / 2 ^ 255 = 1 then none
      else some ⟨signedX x (n / 2 ^ 255), (n % 2 ^ 255 : Nat), 1,
        signedX x (n / 2 ^ 255) * (n % 2 ^ 255 : Nat)⟩

theorem choose_root_spec {w : FieldElement} (hx : Tight x) (hw : Tight w) :
    Ensures NoLoss (choose_root x w) fun r =>
      (∀ c ∈ r, Tight c) ∧ r.map FieldElement.val = chosenRoot x.val w.val := by
  unfold choose_root chosenRoot
  apply Ensures.bind (square_spec hx.loose)
  rintro xx ⟨txx, vxx⟩
  have heq := fe_eq_iff txx.loose hw.loose
  rw [vxx] at heq
  by_cases h : x.val * x.val = w.val
  · rw [if_pos (heq.2 h), if_pos h]
    apply Ensures.pure
    refine ⟨?_, rfl⟩
    intro c hc
    rwa [← Option.some.inj hc]
  · rw [if_neg (fun h' => h (heq.1 h')), if_neg h]
    apply Ensures.bind (mul_spec hx.loose (from_bytes_tight SQRT_M1_LE).loose)
    rintro x' ⟨tx', vx'⟩
    apply Ensures.bind (square_spec tx'.loose)
    rintro xx' ⟨txx', vxx'⟩
    have heq' := fe_eq_iff txx'.loose hw.loose
    rw [vxx', vx'] at heq'
    by_cases h' : x.val * rootOfMinusOne * (x.val * rootOfMinusOne) = w.val
    · rw [if_pos (heq'.2 h'), if_pos h']
      apply Ensures.pure
      refine ⟨?_, congrArg some vx'⟩
      intro c hc
      rwa [← Option.some.inj hc]
    · rw [if_neg (fun h'' => h' (heq'.1 h'')), if_neg h']
      apply Ensures.pure
      refine ⟨?_, rfl⟩
      intro c hc
      cases hc

theorem recover_x_spec {y : FieldElement} (hy : Tight y) : Ensures NoLoss (recover_x y) fun r =>
      (∀ c ∈ r, Tight c) ∧ r.map FieldElement.val = recoveredX y.val := by
  have hD : Tight (from_bytes D_LE) := from_bytes_tight D_LE
  unfold recover_x
  apply Ensures.bind (square_spec hy.loose)
  rintro y2 ⟨ty2, vy2⟩
  apply Ensures.bind (sub_spec ty2.loose tight_one.below2p)
  intro u hu
  have lu : Loose u := Difference.loose hu (ty2.bounded.mono (by norm_num))
  apply Ensures.bind (mul_spec hD.loose ty2.loose)
  rintro dy2 ⟨tdy2, vdy2⟩
  apply Ensures.bind (add_spec tdy2.loose tight_one.loose)
  intro v hv
  apply Ensures.bind (invert_spec (Sum.loose hv tdy2.below2p tight_one.below2p))
  intro v_inv hvi
  apply Ensures.bind (mul_spec lu hvi.loose)
  rintro w ⟨tw, vw⟩
  apply Ensures.bind (fe_pow_p_minus_5_over_8_spec tw.loose)
  intro power hpower
  apply Ensures.bind (mul_spec tw.loose hpower.loose)
  rintro x ⟨tx, vx⟩
  have hw : w.val = xSquared y.val := by
    unfold xSquared dCoefficient
    rw [vw, hvi.val, hu.val, hv.val, vdy2, vy2, val_one]
  apply (choose_root_spec tx tw).mono
  rintro r ⟨hr, hval⟩
  refine ⟨hr, ?_⟩
  unfold recoveredX
  rw [hval, vx, hpower.val, hw]

theorem adjust_sign_spec (hx : Tight x) {x_sign : UInt8} :
    Ensures NoLoss (adjust_sign x x_sign) fun r =>
      Below2p r ∧ r.val = signedX x.val x_sign.toNat := by
  have hpar := parity_spec hx.loose
  have hiff : byte x.to_bytes 0 &&& 1 ≠ x_sign ↔ x.val.val % 2 ≠ x_sign.toNat := by
    rw [← hpar, ne_eq, ne_eq, UInt8.toNat_inj]
  unfold adjust_sign signedX
  by_cases h : x.val.val % 2 ≠ x_sign.toNat
  · rw [if_pos (hiff.2 h), if_pos h]
    apply (neg_spec hx.below2p).mono
    intro r hr
    refine ⟨?_, by rw [hr.val, val_zero]⟩
    obtain ⟨e0, e1, e2, e3, e4⟩ := hr
    have z : (ZERO.l0.toNat = 0 ∧ ZERO.l1.toNat = 0) ∧ ZERO.l2.toNat = 0 ∧ ZERO.l3.toNat = 0 ∧
        ZERO.l4.toNat = 0 := ⟨⟨rfl, rfl⟩, rfl, rfl, rfl⟩
    constructor <;> omega
  · rw [if_neg (fun h' => h (hiff.1 h')), if_neg h]
    exact Ensures.pure ⟨hx.below2p, rfl⟩

theorem split_sign (bytes : Bytes32) : (byte bytes 31 >>> 7).toNat = ofLe bytes.1 / 2 ^ 255 ∧
      ofLe (set_byte bytes 31 (byte bytes 31 &&& 0x7f)).1 = ofLe bytes.1 % 2 ^ 255 := by
  have hlt := ofLe_lt_256 bytes
  have hbyte := byte_toNat bytes 31
  have hset := ofLe_set_byte bytes (i := 31) (by decide) (byte bytes 31 &&& 0x7f)
  have hand : (byte bytes 31 &&& 0x7f).toNat = (byte bytes 31).toNat % 128 := by
    rw [UInt8.toNat_and]
    exact Nat.and_two_pow_sub_one_eq_mod _ 7
  have hshift : (byte bytes 31 >>> 7).toNat = (byte bytes 31).toNat / 128 := by
    rw [UInt8.toNat_shiftRight]
    exact Nat.shiftRight_eq_div_pow _ 7
  rw [hand] at hset
  omega

theorem is_zero_iff (hx : Tight x) :
    ct_eq x.to_bytes.1 (List.replicate 32 0) = true ↔ x.val = 0 := by
  have h := fe_eq_iff hx.loose tight_zero.loose
  have hzero : ZERO.to_bytes.1 = List.replicate 32 0 := by
    decide
  unfold fe_eq at h
  rwa [hzero, val_zero] at h

theorem decompress_spec (bytes : Bytes32) : Ensures NoLoss (decompress bytes) fun r =>
      (∀ p ∈ r, Ready p) ∧ r.map Point.ext = decoded (ofLe bytes.1) := by
  obtain ⟨hsign, hrest⟩ := split_sign bytes
  have hnone : ∀ p ∈ (none : Option Point), Ready p := by
    intro p hp
    cases hp
  unfold decompress decoded
  dsimp only
  rw [y_rejected_eq, hrest]
  by_cases hge : P ≤ ofLe bytes.1 % 2 ^ 255
  · rw [if_pos hge, if_pos (decide_eq_true hge)]
    exact Ensures.pure ⟨hnone, rfl⟩
  · rw [if_neg hge, if_neg (by simpa using hge)]
    have hy : (from_bytes (set_byte bytes 31 (byte bytes 31 &&& 0x7f))).val =
        ((ofLe bytes.1 % 2 ^ 255 : Nat) : ZMod P) := by
      rw [from_bytes_val]
      unfold uCoordinate
      rw [hrest, Nat.mod_mod]
    have ty : Tight (from_bytes (set_byte bytes 31 (byte bytes 31 &&& 0x7f))) := from_bytes_tight _
    apply Ensures.bind (recover_x_spec ty)
    rintro r ⟨hr, hval⟩
    rw [← hy, ← hval]
    cases r with
    | none => exact Ensures.pure ⟨hnone, rfl⟩
    | some x =>
      have tx : Tight x := hr x rfl
      have hone : (byte bytes 31 >>> 7 == 1) = true ↔ ofLe bytes.1 / 2 ^ 255 = 1 := by
        rw [beq_iff_eq, ← hsign, ← UInt8.toNat_inj]
        rfl
      have hbad : (ct_eq x.to_bytes.1 (List.replicate 32 0) && byte bytes 31 >>> 7 == 1) = true ↔
          x.val = 0 ∧ ofLe bytes.1 / 2 ^ 255 = 1 := by
        rw [Bool.and_eq_true, is_zero_iff tx, hone]
      simp only [Option.map_some]
      by_cases h : x.val = 0 ∧ ofLe bytes.1 / 2 ^ 255 = 1
      · rw [if_pos (hbad.2 h), if_pos h]
        exact Ensures.pure ⟨hnone, rfl⟩
      · rw [if_neg (fun h' => h (hbad.1 h')), if_neg h]
        apply Ensures.bind (adjust_sign_spec tx)
        rintro x' ⟨bx', vx'⟩
        apply Ensures.bind (mul_spec (Below2p.loose bx') ty.loose)
        rintro t ⟨tt, vt⟩
        apply Ensures.pure
        refine ⟨?_, ?_⟩
        · intro p hp
          rw [← Option.some.inj hp]
          exact ⟨bx', ty.below2p, tight_one.below2p, tt.below2p⟩
        · rw [Option.map_some, ← hsign, ← vx']
          unfold Point.ext
          simp only [vt, val_one]

/-! ## Whole computations -/

/-- The points that the operations lead to from the identity and decompressed bytes. -/
inductive Reached : Point → Prop
  | identity : Reached Point.identity
  | decompress {bytes : Bytes32} {p : Point} : (decompress bytes).value = some p → Reached p
  | double {p : Point} : Reached p → Reached p.double.value
  | add {p q : Point} : Reached p → Reached q → Reached (p.add q).value
  | scalar_mul {p : Point} (scalar : Bytes32) : Reached p → Reached (p.scalar_mul scalar).value

theorem double_ready (hp : Ready p) : Ensures NoLoss p.double Ready :=
  (double_spec hp).mono fun _ h => h.1

theorem add_ready {q : Point} (hp : Ready p) (hq : Ready q) : Ensures NoLoss (p.add q) Ready :=
  (add_points_spec hp hq).mono fun _ h => h.1

theorem scalar_mul_ready (hp : Ready p) (scalar : Bytes32) :
    Ensures NoLoss (p.scalar_mul scalar) Ready := by
  apply scalar_mul_spec (I := fun _ => Ready)
  · intro _ _ _ _ h h'
    exact add_ready h h'
  · intro _ _ h
    exact double_ready h
  · exact identity_ready
  · exact hp

theorem Reached.ready (h : Reached p) : Ready p := by
  induction h with
  | identity => exact identity_ready
  | decompress h => exact (decompress_spec _).2.1 _ h
  | double _ ih => exact (double_ready ih).2
  | add _ _ ih ih' => exact (add_ready ih ih').2
  | scalar_mul scalar _ ih => exact (scalar_mul_ready ih scalar).2

/-- No call of a whole computation loses anything: on any bytes for X25519 and for the
decompression, and on every reached point for the operations of Ed25519. -/
theorem no_call_loses :
    (∀ scalar point, ∀ k ∈ (x25519_scalarmult scalar point).calls, k.NoLoss) ∧
      (∀ bytes, ∀ k ∈ (decompress bytes).calls, k.NoLoss) ∧
      ∀ p, Reached p →
        (∀ k ∈ p.double.calls, k.NoLoss) ∧
        (∀ q, Reached q → ∀ k ∈ (p.add q).calls, k.NoLoss) ∧
        (∀ scalar, ∀ k ∈ (p.scalar_mul scalar).calls, k.NoLoss) ∧
        ∀ k ∈ p.compress.calls, k.NoLoss := by
  refine ⟨?_, ?_, ?_⟩
  · intro scalar point
    exact (x25519_scalarmult_spec scalar point).1
  · intro bytes
    exact (decompress_spec bytes).1
  · intro p hp
    refine ⟨(double_ready hp.ready).1, ?_, ?_, (compress_spec hp.ready).1⟩
    · intro q hq
      exact (add_ready hp.ready hq.ready).1
    · intro scalar
      exact (scalar_mul_ready hp.ready scalar).1

end paideia_as_crypto.curve.ed25519
