-- The decompression of Ed25519: it accepts the encodings of the points of the curve and no
-- other bytes. The scalars: what each step of the reduction modulo `L` leaves. Which
-- signatures are accepted.
import PaideiaAs.Crypto.Ed25519

namespace paideia_as_crypto.curve.ed25519

open Bytes Trace Edwards

/-! ## What is decoded is encoded -/

theorem on_curve_of_root {x y : ZMod P} (h : x * x = xSquared y) : OnCurve dCoefficient x y := by
  have hinv := pow_sub_two (denominator_ne_zero y)
  unfold xSquared at h
  unfold OnCurve
  linear_combination (-(dCoefficient * (y * y) + 1)) * h - (y * y - 1) * hinv

theorem recoveredX_root {y r : ZMod P} (h : recoveredX y = some r) : r * r = xSquared y := by
  unfold recoveredX chosenRoot at h
  split at h
  · rename_i hroot
    rw [← Option.some.inj h]
    exact hroot
  · split at h
    · rename_i hroot
      rw [← Option.some.inj h]
      exact hroot
    · cases h

theorem signedX_spec {r : ZMod P} {sign : Nat} (hsign : sign < 2) (h : ¬(r = 0 ∧ sign = 1)) :
    signedX r sign * signedX r sign = r * r ∧ (signedX r sign).val % 2 = sign := by
  unfold signedX
  by_cases hpar : r.val % 2 = sign
  · rw [if_neg (not_not_intro hpar)]
    exact ⟨rfl, hpar⟩
  · have hodd : P % 2 = 1 := by decide
    have hlt := ZMod.val_lt r
    have hr : r ≠ 0 := by
      rintro rfl
      rw [ZMod.val_zero] at hpar
      exact h ⟨rfl, by omega⟩
    rw [if_pos hpar, zero_sub, ZMod.neg_val, if_neg hr]
    refine ⟨neg_mul_neg r r, ?_⟩
    omega

theorem encoded_of_decoded {n : Nat} (hn : n < 2 ^ 256) {e : Extended (ZMod P)}
    (h : decoded n = some e) :
    ∃ A : Edwards.Point dCoefficient, n = encoded A.x A.y ∧ e = ⟨A.x, A.y, 1, A.x * A.y⟩ := by
  have hsplit := Nat.div_add_mod n (2 ^ 255)
  have hsign : n / 2 ^ 255 < 2 := by omega
  unfold decoded at h
  generalize n % 2 ^ 255 = y, n / 2 ^ 255 = sign at *
  split at h
  · cases h
  · rename_i hge
    split at h
    · cases h
    · rename_i r hr
      split at h
      · cases h
      · rename_i hz
        obtain ⟨hsq, hpar⟩ := signedX_spec hsign hz
        refine ⟨⟨_, _, on_curve_of_root (hsq.trans (recoveredX_root hr))⟩, ?_,
          (Option.some.inj h).symm⟩
        unfold encoded
        rw [hpar, ZMod.val_natCast_of_lt (Nat.not_le.1 hge)]
        omega

/-! ## The decompression -/

variable {bytes : Bytes32}

theorem encode_of_encoded {A : Edwards.Point dCoefficient}
    (h : ofLe bytes.1 = encoded A.x A.y) : encode A = bytes := by
  have hbytes := le_ofLe_32 bytes
  rw [h] at hbytes
  exact Subtype.ext hbytes

theorem point_of_decompress {p : Point} (h : (decompress bytes).value = some p) :
    ∃ A : Edwards.Point dCoefficient, ofLe bytes.1 = encoded A.x A.y ∧
      p.ext = ⟨A.x, A.y, 1, A.x * A.y⟩ := by
  have hext := (decompress_spec bytes).2.2
  rw [h] at hext
  exact encoded_of_decoded (ofLe_lt_256 bytes) hext.symm

theorem compress_of_decompress {p : Point}
    (h : (decompress bytes).value = some p) : p.compress.value = bytes := by
  obtain ⟨A, hA, hext⟩ := point_of_decompress h
  have hstands : Stands A p :=
    ⟨(decompress_spec bytes).2.1 p h, hext ▸ Edwards.represents_affine A⟩
  have hcompress := (stands_compress hstands).2
  rw [encode_of_encoded hA] at hcompress
  exact hcompress

/-- Bytes are decompressed exactly if they are the number that a point of the curve encodes
to, the sign of `x` above the `y` below `p`; the coordinates are then those of that point,
they are compressed to the same bytes, and no other bytes lead to them. -/
theorem decompress_is_exact (bytes : Bytes32) :
    (∀ k ∈ (decompress bytes).calls, k.NoLoss) ∧
      ((decompress bytes).value.isSome ↔
        ∃ A : Edwards.Point dCoefficient, ofLe bytes.1 = encoded A.x A.y) ∧
      ∀ p, (decompress bytes).value = some p →
        (∃ A : Edwards.Point dCoefficient, ofLe bytes.1 = encoded A.x A.y ∧
          p.ext = ⟨A.x, A.y, 1, A.x * A.y⟩) ∧
        p.compress.value = bytes ∧
        ∀ bytes', (decompress bytes').value = some p → bytes' = bytes := by
  refine ⟨(decompress_spec bytes).1, ?_, ?_⟩
  · constructor
    · intro h
      obtain ⟨p, hp⟩ := Option.isSome_iff_exists.1 h
      obtain ⟨A, hA, -⟩ := point_of_decompress hp
      exact ⟨A, hA⟩
    · rintro ⟨A, hA⟩
      have hext := (decompress_spec bytes).2.2
      rw [hA, decoded_encoded] at hext
      obtain ⟨p, hp, -⟩ := Option.map_eq_some_iff.1 hext
      rw [hp]
      rfl
  · intro p hp
    refine ⟨point_of_decompress hp, compress_of_decompress hp, ?_⟩
    intro bytes' hp'
    rw [← compress_of_decompress hp, compress_of_decompress hp']

/-- The reduction keeps the accumulator below `L` and the shift loses no bit; the product
and the sum lose no carry; both results are the encodings modulo `L`. -/
theorem scalars_are_reduced :
    L = 2 ^ 252 + 27742317777372353535851937790883648493 ∧
      (∀ (input : Bytes64) (i : Nat), i ≤ 512 →
        Limbs.val (sc_reduce_loop input i).1 = ofLe input.1 / 2 ^ (512 - i) % L) ∧
      (∀ input : Bytes64, (sc_reduce_64 input).1 = le 32 (ofLe input.1 % L)) ∧
      (∀ a b c : Bytes32,
        Limbs.val (add_low (Limbs.product (unpack8 a) (unpack8 b)) (unpack8 c)).1 =
          ofLe a.1 * ofLe b.1 + ofLe c.1) ∧
      ∀ a b c : Bytes32,
        (sc_muladd a b c).1 = le 32 ((ofLe a.1 * ofLe b.1 + ofLe c.1) % L) := by
  refine ⟨by decide, fun input i hi => val_sc_reduce_loop input hi, sc_reduce_64_spec, val_muladd,
    sc_muladd_spec⟩

/-! ## Verification -/

theorem decompress_cases (bytes : Bytes32) : Ensures Call.NoLoss (decompress bytes) fun r =>
    (∃ A p, r = some p ∧ bytes = encode A ∧ Stands A p) ∨ r = none ∧ ∀ A, bytes ≠ encode A := by
  refine ⟨(decompress_spec bytes).1, ?_⟩
  cases h : (decompress bytes).value with
  | none =>
    refine .inr ⟨rfl, ?_⟩
    rintro A rfl
    obtain ⟨p, hp, -⟩ := (stands_decompress A).2
    rw [h] at hp
    cases hp
  | some p =>
    obtain ⟨A, hA, hext⟩ := point_of_decompress h
    exact .inl ⟨A, p, rfl, (encode_of_encoded hA).symm,
      (decompress_spec bytes).2.1 p h, hext ▸ Edwards.represents_affine A⟩

theorem encode_injective {A B : Edwards.Point dCoefficient} (h : encode A = encode B) : A = B := by
  have hle : ∀ C : Edwards.Point dCoefficient, ofLe (encode C).1 = encoded C.x C.y := by
    intro C
    unfold encode
    rw [ofLe_le]
    exact Nat.mod_eq_of_lt (encoded_lt C.x C.y)
  have hdec := decoded_encoded A
  rw [← hle, h, hle, decoded_encoded] at hdec
  injection hdec with hdec
  injection hdec with hx hy
  exact Edwards.Point.ext hx.symm hy.symm

/-- A signature is accepted exactly if its second half is below `L`, the key and its first
half are encodings of points, and these satisfy the equation without the cofactor. -/
theorem verify_accepts_iff (sha512 : List UInt8 → Bytes64) (key : Bytes32) (msg : List UInt8)
    (signature : Bytes64) : (ed25519_verify sha512 key msg signature).value = some true ↔
      ofLe (second_half signature).1 < L ∧ ∃ A R : Edwards.Point dCoefficient, key = encode A ∧
        first_half signature = encode R ∧ ofLe (second_half signature).1 • base =
          R + challenge sha512 (first_half signature) key msg • A := by
  suffices Ensures Call.NoLoss (ed25519_verify sha512 key msg signature) (· = some true ↔ _) from
    this.2
  unfold ed25519_verify
  dsimp only
  by_cases hs : ofLe (second_half signature).1 < L
  · rw [(scalar_less_than_l_iff _).2 hs, Bool.not_true, if_neg Bool.false_ne_true, and_iff_right hs]
    apply Ensures.bind (decompress_cases key)
    rintro _ (⟨A, a, rfl, rfl, ha⟩ | ⟨rfl, hkey⟩)
    · apply Ensures.bind (decompress_cases (first_half signature))
      rintro _ (⟨R, r, rfl, hR, hr⟩ | ⟨rfl, hfirst⟩)
      · apply Ensures.bind stands_base
        rintro _ ⟨b, rfl, hb⟩
        apply Ensures.bind (stands_scalar_mul hb _)
        intro lhs hlhs
        apply Ensures.bind (stands_scalar_mul ha _)
        intro ka hka
        apply Ensures.bind (stands_add hr hka)
        intro rhs hrhs
        apply Ensures.bind (stands_compress hlhs)
        rintro _ rfl
        apply Ensures.bind (stands_compress hrhs)
        rintro _ rfl
        apply Ensures.pure
        rw [Option.some.injEq, ct_eq_iff, ofLe_sc_reduce_64]
        constructor
        · intro h
          exact ⟨A, R, rfl, hR, encode_injective (Subtype.ext h)⟩
        · rintro ⟨A', R', hA', hR', h⟩
          obtain rfl := encode_injective hA'
          obtain rfl := encode_injective (hR.symm.trans hR')
          exact congrArg (fun C => (encode C).1) h
      · apply Ensures.pure
        refine iff_of_false (by decide) ?_
        rintro ⟨-, R, -, hR, -⟩
        exact hfirst R hR
    · apply Ensures.pure
      refine iff_of_false (by decide) ?_
      rintro ⟨A, -, hA, -⟩
      exact hkey A hA
  · rw [Bool.eq_false_iff.2 (mt (scalar_less_than_l_iff _).1 hs), Bool.not_false, if_pos rfl]
    exact Ensures.pure (iff_of_false (by decide) fun h => hs h.1)

end paideia_as_crypto.curve.ed25519
