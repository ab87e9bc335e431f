-- The scalars of Ed25519: numbers modulo `L` in 32 bytes. Ed25519: the public key,
-- signing and verification, over any hash function.
import PaideiaAs.Crypto.Ed25519Curve

namespace paideia_as_crypto.curve.ed25519

open Blocks Bytes Limbs

abbrev Bytes64 : Type := Block UInt8 64

/-! ## The functions -/

def unpack8 (b : Bytes32) : Words 8 := ⟨unpack b.1, (unpack_spec (n := 8) b.2).2⟩

def L_LIMBS : Words 8 := unpack8 L_LE

/-- The limbs with `L` taken off, unless they are below `L`. -/
def conditional_sub_l (r : Words 9) : Words 9 := reduceOnce r L_LIMBS

/-- `(input[i / 8] >> (i & 7)) & 1`. -/
def input_bit (input : Bytes64) (i : Nat) : UInt32 :=
  ((input.1.getD (i / 8) 0 >>> UInt8.ofNat (i % 8)) &&& 1).toUInt32

/-- The accumulator after `i` turns, which begin with bit 511. -/
def sc_reduce_loop (input : Bytes64) : Nat → Words 9
  | 0 => ⟨List.replicate 9 0, List.length_replicate⟩
  | i + 1 => conditional_sub_l (shiftIn (sc_reduce_loop input i) (input_bit input (511 - i)))

def pack8 (r : Words 8) : Bytes32 := ⟨pack r.1, by rw [length_pack, r.2]⟩

def sc_reduce_64 (input : Bytes64) : Bytes32 := pack8 (truncate (sc_reduce_loop input 512))

/-- `c` added to the lower eight limbs, and the carry to the others. -/
def add_low (p : Words 16) (c : Words 8) : Words 16 :=
  let low := add (p.1.take 8) c.1 0
  ⟨low.1 ++ propagate (p.1.drop 8) low.2, by
    have hlen : (p.1.take 8).length = 8 := by rw [List.length_take, p.2]; rfl
    rw [List.length_append, length_propagate, List.length_drop, p.2,
      (Limbs.add_spec (hlen.trans c.2.symm) (by decide)).2.2, hlen]⟩

def sc_muladd (a b c : Bytes32) : Bytes32 :=
  let p := add_low (product (unpack8 a) (unpack8 b)) (unpack8 c)
  sc_reduce_64 ⟨pack p.1, by rw [length_pack, p.2]⟩

def scalar_less_than_l (s : Bytes32) : Bool := compare_down s L_LE 32 == .lt

/-! ## What they compute -/

theorem val_unpack8 (b : Bytes32) : val (unpack8 b).1 = ofLe b.1 := (unpack_spec (n := 8) b.2).1

theorem val_L_LIMBS : val L_LIMBS.1 = L := val_unpack8 L_LE

theorem L_pos : 0 < L := by decide

theorem L_lt : L < 2 ^ 253 := by decide

variable (input : Bytes64)

theorem sc_reduce_loop_eq (i : Nat) :
    sc_reduce_loop input i = remainder L_LIMBS (input_bit input) 512 i := by
  induction i with
  | zero => rfl
  | succ i ih =>
    unfold sc_reduce_loop remainder
    rw [ih]
    rfl

theorem ofLe_lt_512 : ofLe input.1 < 2 ^ 512 := by
  have hlt := ofLe_lt input.1
  have hpow := Nat.pow_mul 2 8 64
  rw [show 8 * 64 = 512 from rfl] at hpow
  rw [input.2] at hlt
  rw [hpow]
  exact hlt

/-- The accumulator is the remainder of the bits that were shifted in. -/
theorem val_sc_reduce_loop {i : Nat} (hi : i ≤ 512) :
    val (sc_reduce_loop input i).1 = ofLe input.1 / 2 ^ (512 - i) % L := by
  have hbit : ∀ i < 512, (input_bit input i).toNat = ofLe input.1 / 2 ^ i % 2 := by
    intro i _
    unfold input_bit
    rw [UInt8.toNat_toUInt32, bit_of_bytes]
  rw [sc_reduce_loop_eq, val_remainder (val_L_LIMBS ▸ L_pos) (ofLe_lt_512 input) hbit hi,
    val_L_LIMBS]

theorem sc_reduce_64_spec : (sc_reduce_64 input).1 = le 32 (ofLe input.1 % L) := by
  have hmod := Nat.mod_lt (ofLe input.1) L_pos
  have hL := L_lt
  have hrem := val_sc_reduce_loop input (le_refl 512)
  rw [Nat.sub_self, pow_zero, Nat.div_one] at hrem
  have htrunc := val_truncate (r := sc_reduce_loop input 512) (by omega)
  unfold sc_reduce_64 pack8
  dsimp only
  rw [pack_eq, htrunc, hrem, (truncate _).2]

theorem ofLe_sc_reduce_64 : ofLe (sc_reduce_64 input).1 = ofLe input.1 % L := by
  have hmod := Nat.mod_lt (ofLe input.1) L_pos
  have hL := L_lt
  rw [sc_reduce_64_spec, ofLe_le, Nat.mod_eq_of_lt (by omega)]

theorem val_add_low {p : Words 16} {c : Words 8} (h : val p.1 + val c.1 < 2 ^ 512) :
    val (add_low p c).1 = val p.1 + val c.1 := by
  have hlen : (p.1.take 8).length = 8 := by rw [List.length_take, p.2]; rfl
  have hsplit := val_append (p.1.take 8) (p.1.drop 8)
  obtain ⟨hlow, hcarry, hlen'⟩ := @Limbs.add_spec _ _ 0 (hlen.trans c.2.symm) (by decide)
  have hzero : (0 : UInt64).toNat = 0 := rfl
  have hbound := Limbs.val_lt (add (p.1.take 8) c.1 0).1
  rw [List.take_append_drop, hlen] at hsplit
  rw [hlen', hlen] at hbound
  rw [hlen] at hlow
  have hdrop : (p.1.drop 8).length = 8 := by rw [List.length_drop, p.2]
  have hhigh := @val_propagate (p.1.drop 8) _ hcarry (by rw [hdrop]; omega)
  unfold add_low
  dsimp only
  rw [val_append, hhigh, hlen', hlen]
  omega

theorem val_muladd (a b c : Bytes32) :
    val (add_low (product (unpack8 a) (unpack8 b)) (unpack8 c)).1 =
      ofLe a.1 * ofLe b.1 + ofLe c.1 := by
  have ha := ofLe_lt_256 a
  have hb := ofLe_lt_256 b
  have hc := ofLe_lt_256 c
  have hprod : val (product (unpack8 a) (unpack8 b)).1 = ofLe a.1 * ofLe b.1 := by
    rw [val_product, val_unpack8, val_unpack8]
  have hmul : ofLe a.1 * ofLe b.1 ≤ (2 ^ 256 - 1) * (2 ^ 256 - 1) :=
    Nat.mul_le_mul (by omega) (by omega)
  have hsum := val_add_low (p := product (unpack8 a) (unpack8 b)) (c := unpack8 c)
    (by rw [hprod, val_unpack8]; omega)
  rw [hsum, hprod, val_unpack8]

theorem sc_muladd_spec (a b c : Bytes32) :
    (sc_muladd a b c).1 = le 32 ((ofLe a.1 * ofLe b.1 + ofLe c.1) % L) := by
  unfold sc_muladd
  dsimp only
  rw [sc_reduce_64_spec, ofLe_pack, val_muladd]

theorem scalar_less_than_l_iff (s : Bytes32) : scalar_less_than_l s = true ↔ ofLe s.1 < L := by
  unfold scalar_less_than_l
  rw [compare_down_32, beq_iff_eq]
  exact Nat.compare_eq_lt

end paideia_as_crypto.curve.ed25519

namespace paideia_as_crypto.curve.ed25519

open Blocks Bytes Edwards Trace
open Call (NoLoss)

/-! ## The functions -/

def first_half (h : Bytes64) : Bytes32 := ⟨h.1.take 32, by rw [List.length_take, h.2]; rfl⟩

def second_half (h : Bytes64) : Bytes32 := ⟨h.1.drop 32, by rw [List.length_drop, h.2]⟩

def join (r s : Bytes32) : Bytes64 := ⟨r.1 ++ s.1, by rw [List.length_append, r.2, s.2]⟩

def clamp (a_bytes : Bytes32) : Bytes32 :=
  let a_bytes := set_byte a_bytes 0 (byte a_bytes 0 &&& 248)
  let a_bytes := set_byte a_bytes 31 (byte a_bytes 31 &&& 63)
  set_byte a_bytes 31 (byte a_bytes 31 ||| 64)

variable (sha512 : List UInt8 → Bytes64)

/-- The result is `none` where the base point does not decompress, and the code panics. -/
def ed25519_public_from_secret (secret : Bytes32) : Field (Option Bytes32) := do
  let h := sha512 secret.1
  let a_bytes := clamp (first_half h)
  match ← decompress BASE_COMPRESSED with
  | none => pure none
  | some base => do
    let a_b ← base.scalar_mul a_bytes
    let public_bytes ← a_b.compress
    pure (some public_bytes)

def ed25519_sign (secret : Bytes32) (msg : List UInt8) : Field (Option Bytes64) := do
  let h := sha512 secret.1
  let a_bytes := clamp (first_half h)
  let r_hash := sha512 ((second_half h).1 ++ msg)
  let r_bytes := sc_reduce_64 r_hash
  match ← decompress BASE_COMPRESSED with
  | none => pure none
  | some base => do
    let big_r ← base.scalar_mul r_bytes
    let big_r_bytes ← big_r.compress
    let big_a ← base.scalar_mul a_bytes
    let big_a_bytes ← big_a.compress
    let k_hash := sha512 (big_r_bytes.1 ++ big_a_bytes.1 ++ msg)
    let k_bytes := sc_reduce_64 k_hash
    let s_bytes := sc_muladd k_bytes a_bytes r_bytes
    pure (some (join big_r_bytes s_bytes))

def ed25519_verify (public_bytes : Bytes32) (msg : List UInt8) (signature : Bytes64) :
    Field (Option Bool) := do
  let big_r_bytes := first_half signature
  let s_bytes := second_half signature
  if !scalar_less_than_l s_bytes then pure (some false)
  else do
    match ← decompress public_bytes with
    | none => pure (some false)
    | some big_a => do
      match ← decompress big_r_bytes with
      | none => pure (some false)
      | some big_r => do
        let k_hash := sha512 (big_r_bytes.1 ++ public_bytes.1 ++ msg)
        let k_bytes := sc_reduce_64 k_hash
        match ← decompress BASE_COMPRESSED with
        | none => pure none
        | some base => do
          let lhs ← base.scalar_mul s_bytes
          let ka ← big_a.scalar_mul k_bytes
          let rhs ← big_r.add ka
          let lhs_bytes ← lhs.compress
          let rhs_bytes ← rhs.compress
          pure (some (ct_eq lhs_bytes.1 rhs_bytes.1))

/-! ## The operations on points of the curve -/

/-- The coordinates can be worked with, and stand for the point. -/
structure Stands (B : Edwards.Point dCoefficient) (p : Point) : Prop where
  ready : Ready p
  represents : Represents B p.ext

def encode (B : Edwards.Point dCoefficient) : Bytes32 := ⟨le 32 (encoded B.x B.y), length_le ..⟩

variable {A B : Edwards.Point dCoefficient} {p q : Point}

theorem stands_add (hp : Stands A p) (hq : Stands B q) :
    Ensures NoLoss (p.add q) (Stands (A + B)) := by
  apply (add_points_spec hp.ready hq.ready).mono
  rintro r ⟨hr, hext⟩
  refine ⟨hr, ?_⟩
  rw [hext]
  exact represents_add hp.represents hq.represents

theorem stands_double (hp : Stands A p) : Ensures NoLoss p.double (Stands (A + A)) := by
  apply (double_spec hp.ready).mono
  rintro r ⟨hr, hext⟩
  refine ⟨hr, ?_⟩
  rw [hext]
  exact represents_double hp.represents

theorem stands_scalar_mul (hp : Stands A p) (scalar : Bytes32) :
    Ensures NoLoss (p.scalar_mul scalar) (Stands (ofLe scalar.1 • A)) := by
  apply scalar_mul_spec (I := fun n => Stands (n • A))
  · intro m n p q hm hn
    have h := stands_add hm hn
    rwa [← add_nsmul] at h
  · intro n p hn
    have h := stands_double hn
    rwa [← add_nsmul] at h
  · refine ⟨identity_ready, ?_⟩
    rw [zero_nsmul, identity_ext]
    exact represents_zero
  · rwa [one_nsmul]

theorem stands_compress (hp : Stands A p) : Ensures NoLoss p.compress (· = encode A) := by
  obtain ⟨hready, hz, hx, hy, -⟩ := hp
  have hinv := pow_sub_two hz
  apply (compress_spec hready).mono
  intro r hr
  apply Subtype.ext
  have hx' : p.ext.x * p.ext.z ^ (P - 2) = A.x := by
    rw [hx]
    linear_combination A.x * hinv
  have hy' : p.ext.y * p.ext.z ^ (P - 2) = A.y := by
    rw [hy]
    linear_combination A.y * hinv
  rw [hr, hx', hy']
  rfl

/-- The decompression inverts the encoding of every point. -/
theorem stands_decompress (A : Edwards.Point dCoefficient) :
    Ensures NoLoss (decompress (encode A)) fun r => ∃ p, r = some p ∧ Stands A p := by
  have hle : ofLe (encode A).1 = encoded A.x A.y := by
    unfold encode
    rw [ofLe_le]
    exact Nat.mod_eq_of_lt (encoded_lt A.x A.y)
  apply (decompress_spec (encode A)).mono
  rintro r ⟨hready, hext⟩
  rw [hle, decoded_encoded] at hext
  obtain ⟨p, rfl, hp⟩ := Option.map_eq_some_iff.1 hext
  refine ⟨p, rfl, hready p rfl, ?_⟩
  rw [hp]
  exact represents_affine A

theorem encode_base : BASE_COMPRESSED = encode base := by
  have hbytes := le_ofLe_32 BASE_COMPRESSED
  have hnum : le 32 (encoded base.x base.y) = le 32 (ofLe BASE_COMPRESSED.1) :=
    congrArg (le 32) encoded_base
  exact Subtype.ext (hbytes.symm.trans hnum.symm)

/-- A multiple of the base point by a number and by its remainder modulo `L`. -/
theorem mod_nsmul_base (n : Nat) : (n % L) • base = n • base := by
  conv_rhs => rw [← Nat.div_add_mod n L]
  rw [add_nsmul, Nat.mul_comm L, mul_nsmul', order_base, nsmul_zero, zero_add]

/-! ## Signing and verification -/

/-- The point of the public key: the clamped half of the hash times the base point. -/
def publicPoint (secret : Bytes32) : Edwards.Point dCoefficient :=
  ofLe (clamp (first_half (sha512 secret.1))).1 • base

/-- The number `r` of a signature. -/
def nonce (secret : Bytes32) (msg : List UInt8) : Nat :=
  ofLe (sha512 ((second_half (sha512 secret.1)).1 ++ msg)).1 % L

/-- The scalar `k` that the three parts are hashed to. -/
def challenge (R A : Bytes32) (msg : List UInt8) : Nat := ofLe (sha512 (R.1 ++ A.1 ++ msg)).1 % L

theorem stands_base :
    Ensures NoLoss (decompress BASE_COMPRESSED) fun r => ∃ p, r = some p ∧ Stands base p := by
  rw [encode_base]
  exact stands_decompress base

theorem public_spec (secret : Bytes32) : Ensures NoLoss (ed25519_public_from_secret sha512 secret)
      (· = some (encode (publicPoint sha512 secret))) := by
  unfold ed25519_public_from_secret
  apply Ensures.bind stands_base
  rintro _ ⟨b, rfl, hb⟩
  apply Ensures.bind (stands_scalar_mul hb _)
  intro a_b ha
  apply Ensures.bind (stands_compress ha)
  rintro _ rfl
  exact Ensures.pure rfl

theorem sign_spec (secret : Bytes32) (msg : List UInt8) :
    Ensures NoLoss (ed25519_sign sha512 secret msg) fun r => ∃ s : Bytes32,
      r = some (join (encode (nonce sha512 secret msg • base)) s) ∧
      ofLe s.1 = (challenge sha512 (encode (nonce sha512 secret msg • base))
        (encode (publicPoint sha512 secret)) msg *
          ofLe (clamp (first_half (sha512 secret.1))).1 + nonce sha512 secret msg) % L := by
  unfold ed25519_sign
  apply Ensures.bind stands_base
  rintro _ ⟨b, rfl, hb⟩
  apply Ensures.bind (stands_scalar_mul hb _)
  intro big_r hr
  apply Ensures.bind (stands_compress hr)
  rintro _ rfl
  apply Ensures.bind (stands_scalar_mul hb _)
  intro big_a ha
  apply Ensures.bind (stands_compress ha)
  rintro _ rfl
  apply Ensures.pure
  rw [ofLe_sc_reduce_64]
  refine ⟨_, rfl, ?_⟩
  rw [sc_muladd_spec, ofLe_le, ofLe_sc_reduce_64, ofLe_sc_reduce_64, Nat.mod_eq_of_lt]
  · rfl
  · exact Nat.lt_trans (Nat.mod_lt _ L_pos) (by decide)

theorem first_half_join (r s : Bytes32) : first_half (join r s) = r :=
  Subtype.ext (List.take_left' r.2)

theorem second_half_join (r s : Bytes32) : second_half (join r s) = s :=
  Subtype.ext (List.drop_left' r.2)

/-- A signature is accepted where its equation holds between the points. -/
theorem verify_spec {A R : Edwards.Point dCoefficient} {s : Bytes32} (msg : List UInt8)
    (hs : ofLe s.1 < L)
    (heq : ofLe s.1 • base = R + challenge sha512 (encode R) (encode A) msg • A) :
    Ensures NoLoss (ed25519_verify sha512 (encode A) msg (join (encode R) s)) (· = some true) := by
  unfold ed25519_verify
  dsimp only
  rw [first_half_join, second_half_join, (scalar_less_than_l_iff s).2 hs, Bool.not_true,
    if_neg Bool.false_ne_true]
  apply Ensures.bind (stands_decompress A)
  rintro _ ⟨a, rfl, ha⟩
  apply Ensures.bind (stands_decompress R)
  rintro _ ⟨r, rfl, hr⟩
  apply Ensures.bind stands_base
  rintro _ ⟨b, rfl, hb⟩
  apply Ensures.bind (stands_scalar_mul hb s)
  intro lhs hlhs
  apply Ensures.bind (stands_scalar_mul ha _)
  intro ka hka
  apply Ensures.bind (stands_add hr hka)
  intro rhs hrhs
  apply Ensures.bind (stands_compress hlhs)
  rintro _ rfl
  apply Ensures.bind (stands_compress hrhs)
  rintro _ rfl
  apply Ensures.pure
  rw [ofLe_sc_reduce_64, heq]
  unfold challenge
  rw [(ct_eq_iff _ _).2 rfl]

theorem signature_equation (k a r : Nat) : ((k * a + r) % L) • base = r • base + k • a • base := by
  rw [mod_nsmul_base, add_nsmul, mul_nsmul', add_comm]

/-- What is signed is accepted, and a second half from `L` on is rejected. -/
theorem signatures_are_complete_and_canonical :
    (∀ secret msg, ∃ key signature,
      (ed25519_public_from_secret sha512 secret).value = some key ∧
      (ed25519_sign sha512 secret msg).value = some signature ∧
      (ed25519_verify sha512 key msg signature).value = some true) ∧
    ∀ key msg (signature : Bytes64), L ≤ ofLe (signature.1.drop 32) →
      (ed25519_verify sha512 key msg signature).value = some false := by
  refine ⟨?_, ?_⟩
  · intro secret msg
    obtain ⟨s, hsign, hs⟩ := (sign_spec sha512 secret msg).2
    refine ⟨_, _, (public_spec sha512 secret).2, hsign, ?_⟩
    apply (verify_spec sha512 msg _ _).2
    · rw [hs]
      exact Nat.mod_lt _ L_pos
    · rw [hs]
      exact signature_equation _ _ _
  · intro key msg signature hge
    have hs : scalar_less_than_l (second_half signature) = false := by
      rw [← Bool.not_eq_true, scalar_less_than_l_iff]
      exact Nat.not_lt.2 hge
    unfold ed25519_verify
    dsimp only
    rw [hs]
    rfl

/-- Sixty-four bytes 0xff. -/
def ones : Bytes64 := ⟨List.replicate 64 0xff, rfl⟩

theorem ones_are_rejected :
    (ed25519_verify (fun _ => ones) zeros [] ones).value = some false :=
  (signatures_are_complete_and_canonical fun _ => ones).2 zeros [] ones (by decide)

end paideia_as_crypto.curve.ed25519
