-- SHA-256 and SHA-512 of FIPS 180-4 over the streaming context: the constants, the
-- compression, and what a stream of slices hashes to.
import PaideiaAs.Crypto.Streaming

namespace paideia_as_crypto.hash

open Blocks Bytes Outcome

/-! ## The compression -/

/-- The word operations, the constants and the number of rounds of one of the two. -/
structure Core (W : Type) where
  rounds : Nat
  word_bytes : Nat
  from_nat : Nat → W
  to_nat : W → Nat
  k : Array W
  schedule0 : W → W
  schedule1 : W → W
  sigma0 : W → W
  sigma1 : W → W

variable {W : Type} [Inhabited W] [Add W] [XorOp W] [AndOp W] [Complement W]

def Core.schedule (core : Core W) (block : List UInt8) : Array W :=
  let w : Array W := (Array.range 16).map fun i =>
    core.from_nat (ofLe ((block.drop (i * core.word_bytes)).take core.word_bytes).reverse)
  (List.range' 16 (core.rounds - 16)).foldl (fun w i =>
    let s0 := core.schedule0 w[i - 15]!
    let s1 := core.schedule1 w[i - 2]!
    w.push (w[i - 16]! + s0 + w[i - 7]! + s1)) w

/-- One round on the working variables `a` to `h`. -/
def Core.round (core : Core W) (w : Array W) (v : Vector W 8) (i : Nat) : Vector W 8 :=
  let a := v[0]
  let b := v[1]
  let c := v[2]
  let d := v[3]
  let e := v[4]
  let f := v[5]
  let g := v[6]
  let h := v[7]
  let ch := (e &&& f) ^^^ (~~~e &&& g)
  let t1 := h + core.sigma1 e + ch + core.k[i]! + w[i]!
  let maj := (a &&& b) ^^^ (a &&& c) ^^^ (b &&& c)
  let t2 := core.sigma0 a + maj
  #v[t1 + t2, a, b, c, d + t1, e, f, g]

def Core.compress {n : Nat} (core : Core W) (state : Vector W 8) (block : Block UInt8 n) :
    Vector W 8 :=
  let w := core.schedule block.1
  let v := (List.range core.rounds).foldl (core.round w) state
  Vector.zipWith (· + ·) state v

/-- The words of the state, each big-endian. -/
def Core.emit (core : Core W) (state : Vector W 8) : List UInt8 :=
  state.toList.flatMap fun word => (le core.word_bytes (core.to_nat word)).reverse

/-! ## SHA-256 -/

namespace sha256

def rotate_right (x n : UInt32) : UInt32 := (x >>> n) ||| (x <<< (32 - n))

def H0 : Vector UInt32 8 :=
  #v[
    0x6a09e667, 0xbb67ae85, 0x3c6ef372, 0xa54ff53a, 0x510e527f, 0x9b05688c,
    0x1f83d9ab, 0x5be0cd19]

def K : Array UInt32 :=
  #[
    0x428a2f98, 0x71374491, 0xb5c0fbcf, 0xe9b5dba5, 0x3956c25b, 0x59f111f1,
    0x923f82a4, 0xab1c5ed5, 0xd807aa98, 0x12835b01, 0x243185be, 0x550c7dc3,
    0x72be5d74, 0x80deb1fe, 0x9bdc06a7, 0xc19bf174, 0xe49b69c1, 0xefbe4786,
    0x0fc19dc6, 0x240ca1cc, 0x2de92c6f, 0x4a7484aa, 0x5cb0a9dc, 0x76f988da,
    0x983e5152, 0xa831c66d, 0xb00327c8, 0xbf597fc7, 0xc6e00bf3, 0xd5a79147,
    0x06ca6351, 0x14292967, 0x27b70a85, 0x2e1b2138, 0x4d2c6dfc, 0x53380d13,
    0x650a7354, 0x766a0abb, 0x81c2c92e, 0x92722c85, 0xa2bfe8a1, 0xa81a664b,
    0xc24b8b70, 0xc76c51a3, 0xd192e819, 0xd6990624, 0xf40e3585, 0x106aa070,
    0x19a4c116, 0x1e376c08, 0x2748774c, 0x34b0bcb5, 0x391c0cb3, 0x4ed8aa4a,
    0x5b9cca4f, 0x682e6ff3, 0x748f82ee, 0x78a5636f, 0x84c87814, 0x8cc70208,
    0x90befffa, 0xa4506ceb, 0xbef9a3f7, 0xc67178f2]

def core : Core UInt32 where
  rounds := 64
  word_bytes := 4
  from_nat := UInt32.ofNat
  to_nat := UInt32.toNat
  k := K
  schedule0 x := rotate_right x 7 ^^^ rotate_right x 18 ^^^ (x >>> 3)
  schedule1 x := rotate_right x 17 ^^^ rotate_right x 19 ^^^ (x >>> 10)
  sigma0 a := rotate_right a 2 ^^^ rotate_right a 13 ^^^ rotate_right a 22
  sigma1 e := rotate_right e 6 ^^^ rotate_right e 11 ^^^ rotate_right e 25

def compress (state : Vector UInt32 8) (block : Block UInt8 64) : Vector UInt32 8 :=
  core.compress state block

def shape : Sha UInt32 where
  block := 64
  tail := 56
  len_at := 56
  tail_le := Nat.le_refl _
  len_at_eq := rfl
  h0 := H0
  compress := compress

abbrev Sha256Ctx : Type := Ctx shape

def Sha256Ctx.new : Sha256Ctx := hash.new shape

def Sha256Ctx.update (c : Sha256Ctx) (data : List UInt8) : Outcome Sha256Ctx :=
  hash.update c data

def Sha256Ctx.finalize (c : Sha256Ctx) : Outcome (List UInt8) := do
  let state ← finalize_state c
  .ok (core.emit state)

/-- The slices in turn, then the digest. -/
def stream (slices : List (List UInt8)) : Outcome (List UInt8) := do
  let ctx ← slices.foldlM Sha256Ctx.update Sha256Ctx.new
  Sha256Ctx.finalize ctx

end sha256

def sha256 (msg : List UInt8) : Outcome (List UInt8) := do
  let ctx ← sha256.Sha256Ctx.update sha256.Sha256Ctx.new msg
  ctx.finalize

/-! ## SHA-512 -/

namespace sha512

def rotate_right (x n : UInt64) : UInt64 := (x >>> n) ||| (x <<< (64 - n))

def H0 : Vector UInt64 8 :=
  #v[
    0x6a09e667f3bcc908, 0xbb67ae8584caa73b, 0x3c6ef372fe94f82b, 0xa54ff53a5f1d36f1,
    0x510e527fade682d1, 0x9b05688c2b3e6c1f, 0x1f83d9abfb41bd6b, 0x5be0cd19137e2179]

def K : Array UInt64 :=
  #[
    0x428a2f98d728ae22, 0x7137449123ef65cd, 0xb5c0fbcfec4d3b2f, 0xe9b5dba58189dbbc,
    0x3956c25bf348b538, 0x59f111f1b605d019, 0x923f82a4af194f9b, 0xab1c5ed5da6d8118,
    0xd807aa98a3030242, 0x12835b0145706fbe, 0x243185be4ee4b28c, 0x550c7dc3d5ffb4e2,
    0x72be5d74f27b896f, 0x80deb1fe3b1696b1, 0x9bdc06a725c71235, 0xc19bf174cf692694,
    0xe49b69c19ef14ad2, 0xefbe4786384f25e3, 0x0fc19dc68b8cd5b5, 0x240ca1cc77ac9c65,
    0x2de92c6f592b0275, 0x4a7484aa6ea6e483, 0x5cb0a9dcbd41fbd4, 0x76f988da831153b5,
    0x983e5152ee66dfab, 0xa831c66d2db43210, 0xb00327c898fb213f, 0xbf597fc7beef0ee4,
    0xc6e00bf33da88fc2, 0xd5a79147930aa725, 0x06ca6351e003826f, 0x142929670a0e6e70,
    0x27b70a8546d22ffc, 0x2e1b21385c26c926, 0x4d2c6dfc5ac42aed, 0x53380d139d95b3df,
    0x650a73548baf63de, 0x766a0abb3c77b2a8, 0x81c2c92e47edaee6, 0x92722c851482353b,
    0xa2bfe8a14cf10364, 0xa81a664bbc423001, 0xc24b8b70d0f89791, 0xc76c51a30654be30,
    0xd192e819d6ef5218, 0xd69906245565a910, 0xf40e35855771202a, 0x106aa07032bbd1b8,
    0x19a4c116b8d2d0c8, 0x1e376c085141ab53, 0x2748774cdf8eeb99, 0x34b0bcb5e19b48a8,
    0x391c0cb3c5c95a63, 0x4ed8aa4ae3418acb, 0x5b9cca4f7763e373, 0x682e6ff3d6b2b8a3,
    0x748f82ee5defb2fc, 0x78a5636f43172f60, 0x84c87814a1f0ab72, 0x8cc702081a6439ec,
    0x90befffa23631e28, 0xa4506cebde82bde9, 0xbef9a3f7b2c67915, 0xc67178f2e372532b,
    0xca273eceea26619c, 0xd186b8c721c0c207, 0xeada7dd6cde0eb1e, 0xf57d4f7fee6ed178,
    0x06f067aa72176fba, 0x0a637dc5a2c898a6, 0x113f9804bef90dae, 0x1b710b35131c471b,
    0x28db77f523047d84, 0x32caab7b40c72493, 0x3c9ebe0a15c9bebc, 0x431d67c49c100d4c,
    0x4cc5d4becb3e42b6, 0x597f299cfc657e2a, 0x5fcb6fab3ad6faec, 0x6c44198c4a475817]

def core : Core UInt64 where
  rounds := 80
  word_bytes := 8
  from_nat := UInt64.ofNat
  to_nat := UInt64.toNat
  k := K
  schedule0 x := rotate_right x 1 ^^^ rotate_right x 8 ^^^ (x >>> 7)
  schedule1 x := rotate_right x 19 ^^^ rotate_right x 61 ^^^ (x >>> 6)
  sigma0 a := rotate_right a 28 ^^^ rotate_right a 34 ^^^ rotate_right a 39
  sigma1 e := rotate_right e 14 ^^^ rotate_right e 18 ^^^ rotate_right e 41

def compress (state : Vector UInt64 8) (block : Block UInt8 128) : Vector UInt64 8 :=
  core.compress state block

def shape : Sha UInt64 where
  block := 128
  tail := 112
  len_at := 120
  tail_le := by decide
  len_at_eq := rfl
  h0 := H0
  compress := compress

abbrev Sha512Ctx : Type := Ctx shape

def Sha512Ctx.new : Sha512Ctx := hash.new shape

def Sha512Ctx.update (c : Sha512Ctx) (data : List UInt8) : Outcome Sha512Ctx :=
  hash.update c data

def Sha512Ctx.finalize (c : Sha512Ctx) : Outcome (List UInt8) := do
  let state ← finalize_state c
  .ok (core.emit state)

/-- The slices in turn, then the digest. -/
def stream (slices : List (List UInt8)) : Outcome (List UInt8) := do
  let ctx ← slices.foldlM Sha512Ctx.update Sha512Ctx.new
  Sha512Ctx.finalize ctx

end sha512

def sha512 (msg : List UInt8) : Outcome (List UInt8) := do
  let ctx ← sha512.Sha512Ctx.update sha512.Sha512Ctx.new msg
  ctx.finalize

/-! ## A stream of slices -/

theorem sha256.stream_eq (slices : List (List UInt8)) : sha256.stream slices = (do
      let state ← hash_slices shape slices
      .ok (core.emit state)) := by
  unfold stream hash_slices
  rw [bind_assoc]
  rfl

theorem sha512.stream_eq (slices : List (List UInt8)) : sha512.stream slices = (do
      let state ← hash_slices shape slices
      .ok (core.emit state)) := by
  unfold stream hash_slices
  rw [bind_assoc]
  rfl

theorem sha256.stream_one (msg : List UInt8) : sha256.stream [msg] = sha256 msg := by
  unfold stream sha256
  rw [List.foldlM_cons, bind_assoc]
  rfl

theorem sha512.stream_one (msg : List UInt8) : sha512.stream [msg] = sha512 msg := by
  unfold stream sha512
  rw [List.foldlM_cons, bind_assoc]
  rfl

/-- Any chunking of a message below 2^61 bytes gives, with no panic, the compression
folded over the blocks of the padded message, which is what the one-shot function gives. -/
theorem streams_hash_the_padded_message (slices : List (List UInt8))
    (hsize : slices.flatten.length < 2 ^ 61) :
    ((∃ p, Padded 64 8 slices.flatten p ∧
        sha256.stream slices =
          .ok (sha256.core.emit (fold (by decide) sha256.compress sha256.H0 p))) ∧
      sha256.stream slices = sha256 slices.flatten) ∧
    (∃ p, Padded 128 16 slices.flatten p ∧
        sha512.stream slices =
          .ok (sha512.core.emit (fold (by decide) sha512.compress sha512.H0 p))) ∧
      sha512.stream slices = sha512 slices.flatten := by
  refine ⟨⟨?_, ?_⟩, ?_, ?_⟩
  · obtain ⟨p, hp, hrun⟩ := hash_slices_spec sha256.shape slices hsize
    refine ⟨p, hp, ?_⟩
    rw [sha256.stream_eq, hrun, ok_bind]
    rfl
  · rw [← sha256.stream_one, sha256.stream_eq, sha256.stream_eq, hash_slices_flatten _ _ hsize]
  · obtain ⟨p, hp, hrun⟩ := hash_slices_spec sha512.shape slices hsize
    refine ⟨p, hp, ?_⟩
    rw [sha512.stream_eq, hrun, ok_bind]
    rfl
  · rw [← sha512.stream_one, sha512.stream_eq, sha512.stream_eq, hash_slices_flatten _ _ hsize]

theorem two_slices_hash :
    sha256.stream [[1, 2], [], [3]] = sha256 [1, 2, 3] ∧
      sha512.stream [[1, 2], [], [3]] = sha512 [1, 2, 3] :=
  have h := streams_hash_the_padded_message [[1, 2], [], [3]] (by decide)
  ⟨h.1.2, h.2.2⟩

end paideia_as_crypto.hash
