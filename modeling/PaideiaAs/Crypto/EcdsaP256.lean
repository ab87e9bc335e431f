-- ECDSA over P-256: the points in Jacobian coordinates, signing with the deterministic
-- nonce, and verification, over any hash functions.
import PaideiaAs.Crypto.P256Curve

namespace paideia_as_crypto.ecdsa_p256

open Bytes Limbs ShortWeierstrass

open paideia_as_crypto.curve (Bytes32)
open Bool (eq_false_iff)

/-! ## Points -/

/-- A point in Jacobian coordinates. -/
structure Point where
  x : Words 8
  y : Words 8
  z : Words 8

namespace Point

def identity : Point := ⟨ONE_LIMBS, ONE_LIMBS, ZERO_LIMBS⟩

def is_identity (p : Point) : Bool := is_zero_limbs p.z

def base : Point := ⟨GX, GY, ONE_LIMBS⟩

def from_affine (x y : Words 8) : Point := ⟨x, y, ONE_LIMBS⟩

def to_affine (p : Point) : Option (Words 8 × Words 8) :=
  if p.is_identity then none
  else
    let z_inv := inv_p p.z
    let z_inv2 := mul_mod z_inv z_inv P
    let z_inv3 := mul_mod z_inv2 z_inv P
    some (mul_mod p.x z_inv2 P, mul_mod p.y z_inv3 P)

/-- The limbs of two coordinates, swapped where the mask has its bits set. -/
def cswap_limbs (mask : UInt32) (a b : Words 8) : Words 8 × Words 8 :=
  (⟨List.zipWith (fun x y => x ^^^ (mask &&& (x ^^^ y))) a.1 b.1, by
      rw [List.length_zipWith, a.2, b.2]; rfl⟩,
    ⟨List.zipWith (fun x y => y ^^^ (mask &&& (x ^^^ y))) a.1 b.1, by
      rw [List.length_zipWith, a.2, b.2]; rfl⟩)

def cswap (a b : Point) (swap : UInt32) : Point × Point :=
  let mask := 0 - (swap &&& 1)
  let (ax, bx) := cswap_limbs mask a.x b.x
  let (ay, b_y) := cswap_limbs mask a.y b.y
  let (az, bz) := cswap_limbs mask a.z b.z
  (⟨ax, ay, az⟩, ⟨bx, b_y, bz⟩)

def double (p : Point) : Point :=
  if p.is_identity then identity
  else
    let delta := mul_mod p.z p.z P
    let gamma := mul_mod p.y p.y P
    let beta := mul_mod p.x gamma P
    let x_minus_delta := sub_mod p.x delta P
    let x_plus_delta := add_mod p.x delta P
    let alpha_pre := mul_mod x_minus_delta x_plus_delta P
    let alpha := add_mod (add_mod alpha_pre alpha_pre P) alpha_pre P
    let alpha_sq := mul_mod alpha alpha P
    let two_beta := add_mod beta beta P
    let four_beta := add_mod two_beta two_beta P
    let eight_beta := add_mod four_beta four_beta P
    let x3 := sub_mod alpha_sq eight_beta P
    let y_plus_z := add_mod p.y p.z P
    let y_plus_z_sq := mul_mod y_plus_z y_plus_z P
    let z3 := sub_mod (sub_mod y_plus_z_sq gamma P) delta P
    let four_beta_minus_x3 := sub_mod four_beta x3 P
    let alpha_term := mul_mod alpha four_beta_minus_x3 P
    let gamma_sq := mul_mod gamma gamma P
    let two_gamma_sq := add_mod gamma_sq gamma_sq P
    let four_gamma_sq := add_mod two_gamma_sq two_gamma_sq P
    let eight_gamma_sq := add_mod four_gamma_sq four_gamma_sq P
    let y3 := sub_mod alpha_term eight_gamma_sq P
    ⟨x3, y3, z3⟩

def add (p other : Point) : Point :=
  if p.is_identity then other
  else if other.is_identity then p
  else
    let z1z1 := mul_mod p.z p.z P
    let z2z2 := mul_mod other.z other.z P
    let u1 := mul_mod p.x z2z2 P
    let u2 := mul_mod other.x z1z1 P
    let z1z1z1 := mul_mod z1z1 p.z P
    let z2z2z2 := mul_mod z2z2 other.z P
    let s1 := mul_mod p.y z2z2z2 P
    let s2 := mul_mod other.y z1z1z1 P
    if eq_limbs u1 u2 then
      if !eq_limbs s1 s2 then identity else p.double
    else
      let h := sub_mod u2 u1 P
      let r := sub_mod s2 s1 P
      let h_sq := mul_mod h h P
      let h_cubed := mul_mod h_sq h P
      let u1_h_sq := mul_mod u1 h_sq P
      let r_sq := mul_mod r r P
      let two_u1_h_sq := add_mod u1_h_sq u1_h_sq P
      let x3 := sub_mod (sub_mod r_sq two_u1_h_sq P) h_cubed P
      let u1_h_sq_minus_x3 := sub_mod u1_h_sq x3 P
      let r_times := mul_mod r u1_h_sq_minus_x3 P
      let s1_h_cubed := mul_mod s1 h_cubed P
      let y3 := sub_mod r_times s1_h_cubed P
      let z1_z2 := mul_mod p.z other.z P
      let z3 := mul_mod z1_z2 h P
      ⟨x3, y3, z3⟩

/-- The body of the loop, for one bit of the scalar. -/
def scalar_step (r0 r1 : Point) (bit : UInt32) : Point × Point :=
  let (r0, r1) := cswap r0 r1 bit
  let new_r1 := r0.add r1
  let new_r0 := r0.double
  cswap new_r0 new_r1 bit

/-- The two points after `i` turns of the loop, which begins with bit 255. -/
def scalar_loop (p : Point) (scalar : Words 8) : Nat → Point × Point
  | 0 => (identity, p)
  | i + 1 =>
    let (r0, r1) := scalar_loop p scalar i
    scalar_step r0 r1 (bit scalar.1 (255 - i))

def scalar_mul (p : Point) (scalar : Words 8) : Point := (scalar_loop p scalar 256).1

end Point

def point_on_curve (x y : Words 8) : Bool :=
  if cmp_limbs x P ≥ 0 || cmp_limbs y P ≥ 0 then false
  else if is_zero_limbs x && is_zero_limbs y then false
  else
    let lhs := mul_mod y y P
    let x2 := mul_mod x x P
    let x3 := mul_mod x2 x P
    let two_x := add_mod x x P
    let three_x := add_mod two_x x P
    let rhs := add_mod (sub_mod x3 three_x P) B_COEFF P
    eq_limbs lhs rhs

/-! ## Signing and verification -/

/-- The single conditional subtraction of `n`. -/
def sub_n_once (l : Words 8) : Words 8 :=
  if cmp_limbs l N ≥ 0 then ⟨(subtract l.1 N.1 0).1, length_difference l N⟩ else l

def bits2octets_p256 (h1 : Bytes32) : Bytes32 :=
  limbs_to_bytes_be (sub_n_once (bytes_be_to_limbs h1))

variable (sha256 : List UInt8 → Bytes32) (hmac_sha256 : List UInt8 → List UInt8 → Bytes32)

/-- At most `fuel` turns of the loop; none where it is still running after them. -/
def nonce_loop : Nat → Bytes32 → Bytes32 → Option (Words 8)
  | 0, _, _ => none
  | fuel + 1, k, v =>
    let v := hmac_sha256 k.1 v.1
    let candidate := bytes_be_to_limbs v
    if !is_zero_limbs candidate && cmp_limbs candidate N < 0 then some candidate
    else
      let k := hmac_sha256 k.1 (v.1 ++ [0x00])
      let v := hmac_sha256 k.1 v.1
      nonce_loop fuel k v

def rfc6979_k (fuel : Nat) (priv_key msg_hash : Bytes32) : Option (Words 8) :=
  let v : Bytes32 := ⟨List.replicate 32 0x01, rfl⟩
  let k : Bytes32 := ⟨List.replicate 32 0x00, rfl⟩
  let bh1 := bits2octets_p256 msg_hash
  let k := hmac_sha256 k.1 (v.1 ++ [0x00] ++ priv_key.1 ++ bh1.1)
  let v := hmac_sha256 k.1 v.1
  let k := hmac_sha256 k.1 (v.1 ++ [0x01] ++ priv_key.1 ++ bh1.1)
  let v := hmac_sha256 k.1 v.1
  nonce_loop hmac_sha256 fuel k v

def ecdsa_p256_verify (pub_x pub_y : Bytes32) (msg : List UInt8) (sig_r sig_s : Bytes32) : Bool :=
  let r := bytes_be_to_limbs sig_r
  let s := bytes_be_to_limbs sig_s
  if is_zero_limbs r || cmp_limbs r N ≥ 0 then false
  else if is_zero_limbs s || cmp_limbs s N ≥ 0 then false
  else
    let qx := bytes_be_to_limbs pub_x
    let qy := bytes_be_to_limbs pub_y
    if !point_on_curve qx qy then false
    else
      let q := Point.from_affine qx qy
      let e := sub_n_once (bytes_be_to_limbs (sha256 msg))
      let w := inv_n s
      let u1 := mul_mod e w N
      let u2 := mul_mod r w N
      let u1_g := Point.base.scalar_mul u1
      let u2_q := q.scalar_mul u2
      let big_r := u1_g.add u2_q
      if big_r.is_identity then false
      else
        match big_r.to_affine with
        | none => false
        | some (rx, _) => eq_limbs (sub_n_once rx) r

/-- The outer option is `none` where the loop of the nonce is still running. -/
def ecdsa_p256_sign (fuel : Nat) (priv_key : Bytes32) (msg : List UInt8) :
    Option (Option (Bytes32 × Bytes32)) :=
  let d := bytes_be_to_limbs priv_key
  if is_zero_limbs d || cmp_limbs d N ≥ 0 then some none
  else
    let e_bytes := sha256 msg
    let e := sub_n_once (bytes_be_to_limbs e_bytes)
    (rfc6979_k hmac_sha256 fuel priv_key e_bytes).map fun k =>
      let big_r := Point.base.scalar_mul k
      match big_r.to_affine with
      | none => none
      | some (rx, _) =>
        let r := sub_n_once rx
        if is_zero_limbs r then none
        else
          let k_inv := inv_n k
          let rd := mul_mod r d N
          let e_plus_rd := add_mod e rd N
          let s := mul_mod k_inv e_plus_rd N
          if is_zero_limbs s then none
          else some (limbs_to_bytes_be r, limbs_to_bytes_be s)

def ecdsa_p256_public_from_secret (priv_key : Bytes32) : Option (Bytes32 × Bytes32) :=
  let d := bytes_be_to_limbs priv_key
  if is_zero_limbs d || cmp_limbs d N ≥ 0 then none
  else
    let q := Point.base.scalar_mul d
    match q.to_affine with
    | none => none
    | some (qx, qy) => some (limbs_to_bytes_be qx, limbs_to_bytes_be qy)

/-! ## The points of the code and those of the curve -/

/-- The coordinates hold a triple. -/
structure Stored (m : Words 8) (t : Triple (ZMod (val m.1))) (p : Point) : Prop where
  x : Holds m t.x p.x
  y : Holds m t.y p.y
  z : Holds m t.z p.z

theorem stored_identity : Stored P identity Point.identity :=
  ⟨holds_one prime_p.one_lt, holds_one prime_p.one_lt, holds_zero prime_p.one_lt⟩

variable {t u : Triple (ZMod (val P.1))} {p q : Point}

theorem Stored.is_identity {m : Words 8} {t : Triple (ZMod (val m.1))} {p : Point}
    (h : Stored m t p) : p.is_identity = true ↔ t.z = 0 := h.z.is_zero

theorem stored_double (h : Stored P t p) : Stored P t.double p.double := by
  have hid := stored_identity
  unfold Point.double Triple.double
  -- nothing below is about this modulus, and its numeral would be computed with
  generalize P = m at *
  by_cases hz : t.z = 0
  · rw [if_pos (h.is_identity.2 hz), if_pos hz]
    exact hid
  · rw [if_neg fun h' => hz (h.is_identity.1 h'), if_neg hz]
    have delta := holds_mul h.z h.z
    have gamma := holds_mul h.y h.y
    have beta := holds_mul h.x gamma
    have alpha_pre := holds_mul (holds_sub h.x delta) (holds_add h.x delta)
    have alpha := holds_add (holds_add alpha_pre alpha_pre) alpha_pre
    have two_beta := holds_add beta beta
    have four_beta := holds_add two_beta two_beta
    have x3 := holds_sub (holds_mul alpha alpha) (holds_add four_beta four_beta)
    have y_plus_z := holds_add h.y h.z
    have gamma_sq := holds_mul gamma gamma
    have two_gamma_sq := holds_add gamma_sq gamma_sq
    have four_gamma_sq := holds_add two_gamma_sq two_gamma_sq
    unfold Triple.tangent
    refine ⟨?_, ?_, ?_⟩ <;> dsimp only
    · exact x3
    · exact holds_sub (holds_mul alpha (holds_sub four_beta x3))
        (holds_add four_gamma_sq four_gamma_sq)
    · exact holds_sub (holds_sub (holds_mul y_plus_z y_plus_z) gamma) delta

theorem stored_add (h : Stored P t p) (h' : Stored P u q) : Stored P (t.add u) (p.add q) := by
  have hid := stored_identity
  have hdouble := stored_double h
  unfold Point.add Triple.add
  generalize P = m at *
  by_cases hz : t.z = 0
  · rw [if_pos (h.is_identity.2 hz), if_pos hz]
    exact h'
  rw [if_neg fun hp => hz (h.is_identity.1 hp), if_neg hz]
  by_cases hz' : u.z = 0
  · rw [if_pos (h'.is_identity.2 hz'), if_pos hz']
    exact h
  rw [if_neg fun hq => hz' (h'.is_identity.1 hq), if_neg hz']
  have z1z1 := holds_mul h.z h.z
  have z2z2 := holds_mul h'.z h'.z
  have u1 := holds_mul h.x z2z2
  have u2 := holds_mul h'.x z1z1
  have s1 := holds_mul h.y (holds_mul z2z2 h'.z)
  have s2 := holds_mul h'.y (holds_mul z1z1 h.z)
  dsimp only
  by_cases hu : t.x * (u.z * u.z) = u.x * (t.z * t.z)
  · rw [if_pos ((u1.eq_limbs u2).2 hu), if_pos hu]
    by_cases hs : t.y * (u.z * u.z * u.z) = u.y * (t.z * t.z * t.z)
    · rw [(s1.eq_limbs s2).2 hs, Bool.not_true, if_neg Bool.false_ne_true, if_pos hs]
      exact hdouble
    · rw [eq_false_iff.2 fun he => hs ((s1.eq_limbs s2).1 he), Bool.not_false, if_pos rfl,
        if_neg hs]
      exact hid
  · rw [if_neg fun he => hu ((u1.eq_limbs u2).1 he), if_neg hu]
    have hh := holds_sub u2 u1
    have r := holds_sub s2 s1
    have h_sq := holds_mul hh hh
    have h_cubed := holds_mul h_sq hh
    have u1_h_sq := holds_mul u1 h_sq
    have x3 := holds_sub (holds_sub (holds_mul r r) (holds_add u1_h_sq u1_h_sq)) h_cubed
    unfold Triple.chord
    refine ⟨?_, ?_, ?_⟩ <;> dsimp only
    · exact x3
    · exact holds_sub (holds_mul r (holds_sub u1_h_sq x3)) (holds_mul s1 h_cubed)
    · exact holds_mul (holds_mul h.z h'.z) hh

/-- The coordinates stand for a point of the curve. -/
def Represents (A : Curve.Point) (p : Point) : Prop := ∃ t, Stored P t p ∧ Stands A t

variable {A B : Curve.Point} {x y : ZMod fieldPrime} {X Y : Words 8}

theorem represents_identity : Represents 0 Point.identity :=
  ⟨identity, stored_identity, stands_identity⟩

theorem represents_double (h : Represents A p) : Represents (A + A) p.double := by
  obtain ⟨t, ht, hA⟩ := h
  exact ⟨t.double, stored_double ht, stands_double two_ne_zero hA⟩

theorem represents_add (h : Represents A p) (h' : Represents B q) :
    Represents (A + B) (p.add q) := by
  obtain ⟨t, ht, hA⟩ := h
  obtain ⟨u, hu, hB⟩ := h'
  exact ⟨t.add u, stored_add ht hu, stands_add two_ne_zero hA hB⟩

theorem represents_affine (h : Curve.Nonsingular x y) (hx : Holds P x X) (hy : Holds P y Y) :
    Represents (.some x y h) (Point.from_affine X Y) :=
  ⟨⟨x, y, 1⟩, ⟨hx, hy, holds_one prime_p.one_lt⟩, stands_affine h⟩

theorem holds_val (h : val X.1 < fieldPrime) : Holds P (val X.1 : ZMod fieldPrime) X := ⟨h, rfl⟩

theorem represents_base : Represents G Point.base :=
  represents_affine base_nonsingular (holds_val (by decide)) (holds_val (by decide))

theorem Represents.is_identity (h : Represents A p) : p.is_identity = true ↔ A = 0 := by
  obtain ⟨t, ht, hA⟩ := h
  rw [ht.is_identity, hA.eq_zero_iff]

theorem to_affine_zero (h : Represents 0 p) : p.to_affine = none := by
  unfold Point.to_affine
  rw [if_pos (h.is_identity.2 rfl)]

theorem to_affine_some {hxy : Curve.Nonsingular x y} (h : Represents (.some x y hxy) p) :
    ∃ X Y, p.to_affine = some (X, Y) ∧ Holds P x X ∧ Holds P y Y := by
  have hne := fun hp => WeierstrassCurve.Affine.Point.some_ne_zero hxy (h.is_identity.1 hp)
  obtain ⟨t, ht, hA⟩ := h
  obtain ⟨hz, hX, hY⟩ := hA.coordinates
  have hinv := pow_sub_two hz
  have z_inv := holds_inv_p ht.z
  have z_inv2 := holds_mul z_inv z_inv
  have hx := holds_mul ht.x z_inv2
  have hy := holds_mul ht.y (holds_mul z_inv2 z_inv)
  generalize t.z ^ (fieldPrime - 2) = i at *
  have hxi : t.x * (i * i) = x := by
    rw [hX]
    linear_combination (x * (i * t.z + 1)) * hinv
  have hyi : t.y * (i * i * i) = y := by
    rw [hY]
    linear_combination (y * (i ^ 2 * t.z ^ 2 + i * t.z + 1)) * hinv
  rw [hxi] at hx
  rw [hyi] at hy
  unfold Point.to_affine
  rw [if_neg hne]
  exact ⟨_, _, rfl, hx, hy⟩

/-- The affine coordinates depend on the point alone. -/
theorem to_affine_congr (h : Represents A p) (h' : Represents A q) : p.to_affine = q.to_affine := by
  cases A with
  | zero => rw [to_affine_zero h, to_affine_zero h']
  | some x y hxy =>
    obtain ⟨X, Y, hp, hX, hY⟩ := to_affine_some h
    obtain ⟨X', Y', hq, hX', hY'⟩ := to_affine_some h'
    rw [hp, hq, hX.unique hX', hY.unique hY']

/-! ## The ladder -/

theorem zipWith_left {f : UInt32 → UInt32 → UInt32} (hf : ∀ a b, f a b = a) :
    ∀ {l k : List UInt32}, l.length = k.length → List.zipWith f l k = l
  | [], [], _ => rfl
  | a :: l, b :: k, h => by
    rw [List.zipWith_cons_cons, hf, zipWith_left hf (Nat.succ.inj h)]

theorem zipWith_right {f : UInt32 → UInt32 → UInt32} (hf : ∀ a b, f a b = b) :
    ∀ {l k : List UInt32}, l.length = k.length → List.zipWith f l k = k
  | [], [], _ => rfl
  | a :: l, b :: k, h => by
    rw [List.zipWith_cons_cons, hf, zipWith_right hf (Nat.succ.inj h)]

theorem cswap_limbs_none (a b : Words 8) : Point.cswap_limbs 0 a b = (a, b) := by
  have hlen := a.2.trans b.2.symm
  unfold Point.cswap_limbs
  congr 1
  · exact Subtype.ext (zipWith_left (fun x y => by simp) hlen)
  · exact Subtype.ext (zipWith_right (fun x y => by simp) hlen)

theorem cswap_limbs_all (a b : Words 8) : Point.cswap_limbs (0 - 1) a b = (b, a) := by
  have hlen := a.2.trans b.2.symm
  have hall : ∀ x : UInt32, (0 - 1) &&& x = x := by
    intro x
    exact UInt32.neg_one_and
  unfold Point.cswap_limbs
  congr 1
  · refine Subtype.ext (zipWith_right (fun x y => ?_) hlen)
    rw [hall, ← UInt32.xor_assoc, UInt32.xor_self, UInt32.zero_xor]
  · refine Subtype.ext (zipWith_left (fun x y => ?_) hlen)
    rw [hall, UInt32.xor_comm x y, ← UInt32.xor_assoc, UInt32.xor_self, UInt32.zero_xor]

variable (a b : Point)

theorem cswap_zero : Point.cswap a b 0 = (a, b) := by
  unfold Point.cswap
  simp only [UInt32.zero_and, UInt32.sub_self, cswap_limbs_none]

theorem cswap_one : Point.cswap a b 1 = (b, a) := by
  unfold Point.cswap
  simp only [UInt32.and_self, cswap_limbs_all]

theorem scalar_step_zero : Point.scalar_step a b 0 = (a.double, a.add b) := by
  unfold Point.scalar_step
  simp only [cswap_zero]

theorem scalar_step_one : Point.scalar_step a b 1 = (b.add a, b.double) := by
  unfold Point.scalar_step
  simp only [cswap_one]

theorem scalar_loop_succ (p : Point) (scalar : Words 8) (i : Nat) :
    p.scalar_loop scalar (i + 1) = Point.scalar_step (p.scalar_loop scalar i).1
      (p.scalar_loop scalar i).2 (bit scalar.1 (255 - i)) := rfl

/-- The two points keep their distance, which is the base of the ladder. -/
theorem scalar_loop_spec (hp : Represents A p) (scalar : Words 8) {i : Nat} (hi : i ≤ 256) :
    Represents ((val scalar.1 / 2 ^ (256 - i)) • A) (p.scalar_loop scalar i).1 ∧
      Represents ((val scalar.1 / 2 ^ (256 - i) + 1) • A) (p.scalar_loop scalar i).2 := by
  induction i with
  | zero =>
    rw [Nat.sub_zero, Nat.div_eq_of_lt (val_lt_256 scalar), zero_nsmul, Nat.zero_add, one_nsmul]
    exact ⟨represents_identity, hp⟩
  | succ i ih =>
    obtain ⟨h0, h1⟩ := ih (by omega)
    rw [scalar_loop_succ, prefix_succ _ hi]
    generalize val scalar.1 / 2 ^ (256 - i) = c at *
    rcases bit_cases scalar.1 (255 - i) with ⟨hb, hv⟩ | ⟨hb, hv⟩
    · have hsum := represents_add h0 h1
      have hdouble := represents_double h0
      rw [← add_nsmul] at hsum hdouble
      rw [← Nat.add_assoc] at hsum
      rw [hb, hv, Nat.add_zero, scalar_step_zero]
      exact ⟨hdouble, hsum⟩
    · have hsum := represents_add h1 h0
      have hdouble := represents_double h1
      rw [← add_nsmul] at hsum hdouble
      rw [Nat.add_right_comm] at hsum
      rw [← Nat.add_assoc, Nat.add_right_comm c 1 c] at hdouble
      rw [hb, hv, scalar_step_one]
      exact ⟨hsum, hdouble⟩

theorem represents_scalar_mul (hp : Represents A p) (scalar : Words 8) :
    Represents (val scalar.1 • A) (p.scalar_mul scalar) := by
  have h := (scalar_loop_spec hp scalar (le_refl 256)).1
  rwa [Nat.sub_self, pow_zero, Nat.div_one] at h

/-- The multiples depend on the number modulo the order. -/
theorem multiples_eq {a b : Nat} (h : (a : ZMod groupOrder) = b) : a • G = b • G := by
  rw [ZMod.natCast_eq_natCast_iff'] at h
  rw [nsmul_eq_mod_nsmul a order_base, nsmul_eq_mod_nsmul b order_base, h]

theorem multiple_ne_zero {d : Nat} (h0 : d ≠ 0) (hn : d < groupOrder) : d • G ≠ 0 := by
  have horder : addOrderOf G = groupOrder := addOrderOf_eq_prime order_base base_ne_zero
  intro h
  have hdvd := addOrderOf_dvd_of_nsmul_eq_zero h
  rw [horder] at hdvd
  exact h0 (Nat.eq_zero_of_dvd_of_lt hdvd hn)

/-! ## Numbers modulo the order -/

/-- The number of the limbs is a valid private key, nonce or half of a signature. -/
def InRange (l : Words 8) : Prop := 1 ≤ val l.1 ∧ val l.1 < groupOrder

theorem in_range_iff (l : Words 8) :
    InRange l ↔ (is_zero_limbs l || cmp_limbs l N ≥ 0) = false := by
  unfold InRange
  rw [Bool.or_eq_false_iff, eq_false_iff, ne_eq, is_zero_limbs_iff, decide_eq_false_iff_not,
    (cmp_limbs_spec l N).2, Nat.not_le, Nat.one_le_iff_ne_zero]

theorem val_sub_n_once (l : Words 8) : val (sub_n_once l).1 = val l.1 % groupOrder := by
  have hl := val_lt_256 l
  have hn : 2 ^ 256 < 2 * val N.1 := by decide
  have hzero : (0 : UInt64).toNat = 0 := rfl
  unfold sub_n_once groupOrder
  by_cases hle : val N.1 ≤ val l.1
  · obtain ⟨hdiff, hborrow, hlen⟩ := @subtract_spec _ _ 0 (l.2.trans N.2.symm) (by decide)
    have hlt := val_lt (subtract l.1 N.1 0).1
    have hpow : 2 ^ (32 * 8) = 2 ^ 256 := rfl
    rw [l.2] at hdiff
    rw [hlen, l.2, hpow] at hlt
    rw [if_pos ((cmp_limbs_spec l N).2.2 hle), Nat.mod_eq_sub_mod hle, Nat.mod_eq_of_lt (by omega)]
    dsimp only
    omega
  · rw [if_neg fun h => hle ((cmp_limbs_spec l N).2.1 h), Nat.mod_eq_of_lt (Nat.not_le.1 hle)]

theorem holds_sub_n_once (l : Words 8) : Holds N (val l.1 : ZMod groupOrder) (sub_n_once l) :=
  holds_of_mod prime_n.pos (val_sub_n_once l) rfl

theorem InRange.holds {l : Words 8} (h : InRange l) : Holds N (val l.1 : ZMod groupOrder) l :=
  ⟨h.2, rfl⟩

theorem InRange.ne_zero {l : Words 8} (h : InRange l) : (val l.1 : ZMod groupOrder) ≠ 0 := by
  intro h0
  exact absurd h.1 (by rw [(is_zero_limbs_iff l).1 (h.holds.is_zero.2 h0)]; decide)

theorem bCoefficient_ne_zero : bCoefficient ≠ 0 := by
  have hlt : val B_COEFF.1 < fieldPrime := by decide
  have hne : val B_COEFF.1 ≠ 0 := by decide
  unfold bCoefficient
  rw [ne_eq, ZMod.natCast_eq_zero_iff]
  exact fun h => hne (Nat.eq_zero_of_dvd_of_lt h hlt)

theorem point_on_curve_iff (X Y : Words 8) : point_on_curve X Y = true ↔
    val X.1 < fieldPrime ∧ val Y.1 < fieldPrime ∧
      Curve.Equation (val X.1 : ZMod fieldPrime) (val Y.1) := by
  unfold point_on_curve
  split
  next h =>
    rw [Bool.or_eq_true, decide_eq_true_iff, decide_eq_true_iff, (cmp_limbs_spec X P).2,
      (cmp_limbs_spec Y P).2] at h
    refine iff_of_false Bool.false_ne_true ?_
    rintro ⟨hx, hy, -⟩
    rcases h with h | h
    · exact absurd hx (Nat.not_lt.2 h)
    · exact absurd hy (Nat.not_lt.2 h)
  next h =>
    rw [Bool.or_eq_true, decide_eq_true_iff, decide_eq_true_iff, (cmp_limbs_spec X P).2,
      (cmp_limbs_spec Y P).2, not_or, Nat.not_le, Nat.not_le] at h
    have hX := holds_val h.1
    have hY := holds_val h.2
    rw [and_iff_right h.1, and_iff_right h.2, equation_iff]
    generalize (val X.1 : ZMod fieldPrime) = x at *
    generalize (val Y.1 : ZMod fieldPrime) = y at *
    split
    next h0 =>
      -- the constant term is not zero
      rw [Bool.and_eq_true, hX.is_zero, hY.is_zero] at h0
      refine iff_of_false Bool.false_ne_true ?_
      rw [h0.1, h0.2]
      intro heq
      apply bCoefficient_ne_zero
      linear_combination -heq
    next =>
      have hB := holds_val (X := B_COEFF) (by decide)
      have hrhs := holds_add (holds_sub (holds_mul (holds_mul hX hX) hX)
        (holds_add (holds_add hX hX) hX)) hB
      rw [(holds_mul hY hY).eq_limbs hrhs]
      change _ = _ + bCoefficient ↔ _
      constructor
      all_goals
        intro heq
        linear_combination heq

section

variable {sha256 : List UInt8 → Bytes32} {hmac_sha256 : List UInt8 → List UInt8 → Bytes32}
  {fuel : Nat} {priv_key sig_r sig_s : Bytes32}

theorem nonce_loop_in_range {k v : Bytes32} {nonce : Words 8}
    (h : nonce_loop hmac_sha256 fuel k v = some nonce) : InRange nonce := by
  induction fuel generalizing k v with
  | zero => cases h
  | succ fuel ih =>
    unfold nonce_loop at h
    dsimp only at h
    split at h
    next hc =>
      obtain rfl := Option.some.inj h
      rw [Bool.and_eq_true, Bool.not_eq_true', decide_eq_true_iff, (cmp_limbs_spec _ N).1] at hc
      refine ⟨?_, hc.2⟩
      rw [Nat.one_le_iff_ne_zero, ne_eq, ← is_zero_limbs_iff, hc.1]
      exact Bool.false_ne_true
    next => exact ih h

theorem rfc6979_k_in_range {msg_hash : Bytes32} {nonce : Words 8}
    (h : rfc6979_k hmac_sha256 fuel priv_key msg_hash = some nonce) : InRange nonce :=
  nonce_loop_in_range h

/-! ## A signature -/

/-- What the code signs with: the nonce, its point and the two halves. -/
structure Signed (sha256 : List UInt8 → Bytes32) (d : Words 8) (msg : List UInt8)
    (sig_r sig_s : Bytes32) (k rx ry : Words 8) : Prop where
  key : InRange d
  nonce : InRange k
  point : (Point.base.scalar_mul k).to_affine = some (rx, ry)
  r_ne_zero : is_zero_limbs (sub_n_once rx) = false
  s_ne_zero : is_zero_limbs (bytes_be_to_limbs sig_s) = false
  r : bytes_be_to_limbs sig_r = sub_n_once rx
  s : bytes_be_to_limbs sig_s = mul_mod (inv_n k)
    (add_mod (sub_n_once (bytes_be_to_limbs (sha256 msg))) (mul_mod (sub_n_once rx) d N) N) N

theorem sign_cases {msg : List UInt8}
    (h : ecdsa_p256_sign sha256 hmac_sha256 fuel priv_key msg = some (some (sig_r, sig_s))) :
    ∃ k rx ry, Signed sha256 (bytes_be_to_limbs priv_key) msg sig_r sig_s k rx ry := by
  unfold ecdsa_p256_sign at h
  dsimp only at h
  split at h
  · cases h
  next hd =>
    obtain ⟨k, hk, h⟩ := Option.map_eq_some_iff.1 h
    split at h
    · cases h
    next rx ry hpoint =>
      split at h
      · cases h
      next hr =>
        split at h
        · cases h
        next hs =>
          obtain ⟨rfl, rfl⟩ := Prod.mk.inj (Option.some.inj h)
          refine ⟨k, rx, ry, (in_range_iff _).2 (eq_false_iff.2 hd), rfc6979_k_in_range hk,
            hpoint, eq_false_iff.2 hr, ?_, bytes_of_limbs _, bytes_of_limbs _⟩
          rw [bytes_of_limbs]
          exact eq_false_iff.2 hs

theorem public_of_key (h : InRange (bytes_be_to_limbs priv_key)) :
    ∃ x y, ∃ hxy : Curve.Nonsingular x y, ∃ pub_x pub_y,
      ecdsa_p256_public_from_secret priv_key = some (pub_x, pub_y) ∧
        val (bytes_be_to_limbs priv_key).1 • G = .some x y hxy ∧
        Holds P x (bytes_be_to_limbs pub_x) ∧ Holds P y (bytes_be_to_limbs pub_y) := by
  have hne := multiple_ne_zero (Nat.one_le_iff_ne_zero.1 h.1) h.2
  have hQ := represents_scalar_mul represents_base (bytes_be_to_limbs priv_key)
  generalize hA : val (bytes_be_to_limbs priv_key).1 • G = A at *
  cases A with
  | zero => exact absurd rfl hne
  | some x y hxy =>
    obtain ⟨X, Y, hXY, hX, hY⟩ := to_affine_some hQ
    refine ⟨x, y, hxy, limbs_to_bytes_be X, limbs_to_bytes_be Y, ?_, rfl, ?_, ?_⟩
    · unfold ecdsa_p256_public_from_secret
      dsimp only
      rw [if_neg (eq_false_iff.1 ((in_range_iff _).1 h)), hXY]
    · rwa [bytes_of_limbs]
    · rwa [bytes_of_limbs]

/-- The two scalars of the verification recombine to the nonce. -/
theorem recombine {e r d k s : ZMod groupOrder} (hk : k ≠ 0) (hs : s ≠ 0)
    (h : s = k ^ (groupOrder - 2) * (e + r * d)) :
    e * s ^ (groupOrder - 2) + r * s ^ (groupOrder - 2) * d = k := by
  have hk' := pow_sub_two hk
  have hs' := pow_sub_two hs
  generalize k ^ (groupOrder - 2) = i at *
  generalize s ^ (groupOrder - 2) = w at *
  have hsum : k * s = e + r * d := by
    rw [h]
    linear_combination (e + r * d) * hk'
  calc e * w + r * w * d = w * (e + r * d) := by ring
    _ = w * (k * s) := by rw [hsum]
    _ = k := by linear_combination k * hs'

theorem verify_signed {d k rx ry : Words 8} {msg : List UInt8} {pub_x pub_y : Bytes32}
    (h : Signed sha256 d msg sig_r sig_s k rx ry) {hxy : Curve.Nonsingular x y}
    (hQ : val d.1 • G = .some x y hxy)
    (hx : Holds P x (bytes_be_to_limbs pub_x)) (hy : Holds P y (bytes_be_to_limbs pub_y)) :
    ecdsa_p256_verify sha256 pub_x pub_y msg sig_r sig_s = true := by
  have hr := holds_sub_n_once rx
  have hin_r : InRange (bytes_be_to_limbs sig_r) := by
    rw [h.r]
    exact ⟨Nat.one_le_iff_ne_zero.2 fun h0 => absurd ((is_zero_limbs_iff _).2 h0)
      (eq_false_iff.1 h.r_ne_zero), hr.below⟩
  have he := holds_sub_n_once (bytes_be_to_limbs (sha256 msg))
  have hs := holds_mul (holds_inv_n h.nonce.holds) (holds_add he (holds_mul hr h.key.holds))
  rw [← h.s] at hs
  have hin_s : InRange (bytes_be_to_limbs sig_s) :=
    ⟨Nat.one_le_iff_ne_zero.2 fun h0 => absurd ((is_zero_limbs_iff _).2 h0)
      (eq_false_iff.1 h.s_ne_zero), hs.below⟩
  have hcurve : point_on_curve (bytes_be_to_limbs pub_x) (bytes_be_to_limbs pub_y) = true := by
    rw [point_on_curve_iff, hx.value, hy.value]
    exact ⟨hx.below, hy.below, hxy.1⟩
  have hvalue := hs.value
  have hw := holds_inv_n hin_s.holds
  have hu1 := holds_mul he hw
  have hu2 := holds_mul hr hw
  have hsum := represents_add (represents_scalar_mul represents_base (mul_mod
      (sub_n_once (bytes_be_to_limbs (sha256 msg))) (inv_n (bytes_be_to_limbs sig_s)) N))
    (represents_scalar_mul (represents_affine hxy hx hy)
      (mul_mod (sub_n_once rx) (inv_n (bytes_be_to_limbs sig_s)) N))
  rw [← hQ, ← mul_nsmul, ← add_nsmul, multiples_eq (b := val k.1)] at hsum
  · have haffine := (to_affine_congr hsum (represents_scalar_mul represents_base k)).trans h.point
    have hne := mt hsum.is_identity.1
      (multiple_ne_zero (Nat.one_le_iff_ne_zero.1 h.nonce.1) h.nonce.2)
    unfold ecdsa_p256_verify
    dsimp only
    rw [if_neg (eq_false_iff.1 ((in_range_iff _).1 hin_r)),
      if_neg (eq_false_iff.1 ((in_range_iff _).1 hin_s)), hcurve, h.r, Bool.not_true,
      if_neg Bool.false_ne_true, if_neg hne, haffine]
    exact (eq_limbs_iff _ _).2 rfl
  · rw [Nat.cast_add, Nat.cast_mul, hu1.value, hu2.value, mul_comm (val d.1 : ZMod groupOrder)]
    exact recombine h.nonce.ne_zero hin_s.ne_zero hvalue

theorem verify_rejects {pub_x pub_y : Bytes32} (msg : List UInt8)
    (h : ¬(InRange (bytes_be_to_limbs sig_r) ∧ InRange (bytes_be_to_limbs sig_s) ∧
      point_on_curve (bytes_be_to_limbs pub_x) (bytes_be_to_limbs pub_y) = true)) :
    ecdsa_p256_verify sha256 pub_x pub_y msg sig_r sig_s = false := by
  unfold ecdsa_p256_verify
  dsimp only
  split
  · rfl
  next hr =>
    split
    · rfl
    next hs =>
      split
      · rfl
      next hq =>
        rw [Bool.not_eq_true', Bool.not_eq_false] at hq
        exact absurd ⟨(in_range_iff _).2 (eq_false_iff.2 hr),
          (in_range_iff _).2 (eq_false_iff.2 hs), hq⟩ h

end

/-- A signature verifies under the key that goes with it, a nonce is in the range of the
group, and a verification needs a signature in range and a point of the curve. -/
theorem signatures_verify (sha256 : List UInt8 → Bytes32)
    (hmac_sha256 : List UInt8 → List UInt8 → Bytes32) :
    (∀ (fuel : Nat) (priv_key : Bytes32) (msg : List UInt8) (sig_r sig_s : Bytes32),
      1 ≤ ofBe priv_key → ofBe priv_key < groupOrder →
      ecdsa_p256_sign sha256 hmac_sha256 fuel priv_key msg = some (some (sig_r, sig_s)) →
        ∃ pub_x pub_y, ecdsa_p256_public_from_secret priv_key = some (pub_x, pub_y) ∧
          ecdsa_p256_verify sha256 pub_x pub_y msg sig_r sig_s = true) ∧
    (∀ (fuel : Nat) (priv_key msg_hash : Bytes32) (k : Words 8),
      rfc6979_k hmac_sha256 fuel priv_key msg_hash = some k →
        1 ≤ val k.1 ∧ val k.1 < groupOrder) ∧
    ∀ (pub_x pub_y : Bytes32) (msg : List UInt8) (sig_r sig_s : Bytes32),
      ofBe sig_r = 0 ∨ groupOrder ≤ ofBe sig_r ∨ ofBe sig_s = 0 ∨ groupOrder ≤ ofBe sig_s ∨
        fieldPrime ≤ ofBe pub_x ∨ fieldPrime ≤ ofBe pub_y ∨
        (ofBe pub_y : ZMod fieldPrime) ^ 2 ≠
          (ofBe pub_x : ZMod fieldPrime) ^ 3 - 3 * ofBe pub_x + bCoefficient →
      ecdsa_p256_verify sha256 pub_x pub_y msg sig_r sig_s = false := by
  refine ⟨?_, fun _ _ _ _ h => rfc6979_k_in_range h, ?_⟩
  · intro fuel priv_key msg sig_r sig_s _ _ h
    obtain ⟨k, rx, ry, hsigned⟩ := sign_cases h
    obtain ⟨x, y, hxy, pub_x, pub_y, hpub, hQ, hx, hy⟩ := public_of_key hsigned.key
    exact ⟨pub_x, pub_y, hpub, verify_signed hsigned hQ hx hy⟩
  · intro pub_x pub_y msg sig_r sig_s h
    apply verify_rejects
    unfold InRange
    rw [point_on_curve_iff, equation_iff, val_bytes_be_to_limbs, val_bytes_be_to_limbs,
      val_bytes_be_to_limbs, val_bytes_be_to_limbs]
    rintro ⟨⟨hr, hr'⟩, ⟨hs, hs'⟩, hx, hy, heq⟩
    rcases h with h | h | h | h | h | h | h
    · exact absurd hr (by rw [h]; decide)
    · exact Nat.not_lt.2 h hr'
    · exact absurd hs (by rw [h]; decide)
    · exact Nat.not_lt.2 h hs'
    · exact Nat.not_lt.2 h hx
    · exact Nat.not_lt.2 h hy
    · exact h heq

def oneBytes : Bytes32 := limbs_to_bytes_be ONE_LIMBS

theorem sign_with_one : ∃ sig_r sig_s,
    ecdsa_p256_sign (fun _ => limbs_to_bytes_be ZERO_LIMBS) (fun _ _ => oneBytes) 1 oneBytes [] =
      some (some (sig_r, sig_s)) := by
  have hone : InRange ONE_LIMBS := by
    unfold InRange
    decide
  have hk : rfc6979_k (fun _ _ => oneBytes) 1 oneBytes (limbs_to_bytes_be ZERO_LIMBS) =
      some ONE_LIMBS := by
    decide
  have hG := represents_scalar_mul represents_base ONE_LIMBS
  have hval : val ONE_LIMBS.1 = 1 := by decide
  rw [hval, one_nsmul] at hG
  obtain ⟨X, Y, hpoint, hX, -⟩ := to_affine_some hG
  obtain rfl := hX.unique (holds_val (by decide))
  have hr : Holds N (val GX.1 : ZMod groupOrder) (sub_n_once GX) := holds_sub_n_once GX
  have hin : InRange GX := by
    unfold InRange
    decide
  have hs := holds_mul (holds_inv_n hone.holds)
    (holds_add (holds_sub_n_once ZERO_LIMBS) (holds_mul hr hone.holds))
  have hzero : val ZERO_LIMBS.1 = 0 := by decide
  rw [hval, hzero, Nat.cast_one, Nat.cast_zero, one_pow, one_mul, zero_add, mul_one] at hs
  unfold ecdsa_p256_sign oneBytes
  dsimp only
  rw [bytes_of_limbs, bytes_of_limbs, if_neg (eq_false_iff.1 ((in_range_iff _).1 hone))]
  unfold oneBytes at hk
  rw [hk, Option.map_some, hpoint]
  dsimp only
  rw [if_neg (mt hr.is_zero.1 hin.ne_zero), if_neg (mt hs.is_zero.1 hin.ne_zero)]
  exact ⟨_, _, rfl⟩

theorem signature_of_one_verifies : ∃ sig_r sig_s pub_x pub_y,
    ecdsa_p256_public_from_secret oneBytes = some (pub_x, pub_y) ∧
      ecdsa_p256_verify (fun _ => limbs_to_bytes_be ZERO_LIMBS) pub_x pub_y [] sig_r sig_s = true ∧
      ecdsa_p256_verify (fun _ => limbs_to_bytes_be ZERO_LIMBS) pub_x pub_y [] sig_r
        (limbs_to_bytes_be ZERO_LIMBS) = false := by
  obtain ⟨hverify, -, hreject⟩ :=
    signatures_verify (fun _ => limbs_to_bytes_be ZERO_LIMBS) (fun _ _ => oneBytes)
  obtain ⟨sig_r, sig_s, hsign⟩ := sign_with_one
  obtain ⟨pub_x, pub_y, hpub, hv⟩ := hverify 1 oneBytes [] sig_r sig_s (by decide)
    (by decide) hsign
  exact ⟨sig_r, sig_s, pub_x, pub_y, hpub, hv,
    hreject pub_x pub_y [] sig_r _ (.inr (.inr (.inl (by decide))))⟩

end paideia_as_crypto.ecdsa_p256
