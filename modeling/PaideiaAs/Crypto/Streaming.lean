-- The streaming contexts of SHA-256 and SHA-512. The two differ in their block size,
-- in where the length stands and in the compression, so the context is written once
-- with these as parameters.
import PaideiaAs.Lib.Limbs
import PaideiaAs.Lib.Buffer

namespace paideia_as_crypto.hash

open Blocks Bytes Outcome
open UInt64 (ofNat)
open List (append_assoc append_nil length_append length_drop length_mapIdx length_replicate
  length_take nil_append replicate take_left' take_zero)

/-- The length stands in the last eight bytes of a block; the padding leaves the bytes
from `tail` on to it. -/
structure Sha (W : Type) where
  block : Nat
  tail : Nat
  len_at : Nat
  tail_le : tail ≤ len_at
  len_at_eq : len_at + 8 = block
  h0 : Vector W 8
  compress : Vector W 8 → Block UInt8 block → Vector W 8

variable {W : Type} (h : Sha W)

theorem Sha.block_pos : 0 < h.block := by
  have := h.len_at_eq
  omega

/-- The compression over the blocks of a message, from the initial value. -/
def Sha.digest_state (m : List UInt8) : Vector W 8 := fold h.block_pos h.compress h.h0 m

/-! ## The context -/

structure Ctx where
  state : Vector W 8
  len : UInt64
  buf : Block UInt8 h.block
  buf_len : Nat

def new : Ctx h := ⟨h.h0, 0, ⟨replicate h.block 0, length_replicate⟩, 0⟩

variable {h}

/-- `buf[lo..hi].copy_from_slice(src)`. -/
def copy_from_slice {n : Nat} (buf : Block UInt8 n) (lo hi : Nat) (src : List UInt8) :
    Outcome (Block UInt8 n) :=
  if hb : lo ≤ hi ∧ hi ≤ n ∧ src.length = hi - lo then
    .ok ⟨patch buf.1 lo src, by
      have := buf.2
      unfold patch
      simp only [length_append, length_take, length_drop]
      omega⟩
  else .error .panic

/-- `buf[i] = byte`. -/
def set {n : Nat} (buf : Block UInt8 n) (i : Nat) (byte : UInt8) : Outcome (Block UInt8 n) :=
  if i < n then .ok ⟨buf.1.set i byte, by rw [List.length_set, buf.2]⟩ else .error .panic

/-- `for byte in buf.iter_mut().take(hi).skip(lo) { *byte = 0; }`. -/
def zero {n : Nat} (buf : Block UInt8 n) (lo hi : Nat) : Block UInt8 n :=
  ⟨buf.1.mapIdx fun i byte => if lo ≤ i ∧ i < hi then 0 else byte, by
    rw [length_mapIdx, buf.2]⟩

/-- Tops the buffer off, when there are bytes in it. -/
def top_off (c : Ctx h) (data : List UInt8) : Outcome (Ctx h × Nat) :=
  if c.buf_len > 0 then do
    let take := min (h.block - c.buf_len) data.length
    let src ← Buffer.slice data 0 take
    let buf ← copy_from_slice c.buf c.buf_len (c.buf_len + take) src
    let buf_len := c.buf_len + take
    if buf_len = h.block then
      .ok ({ c with state := h.compress c.state buf, buf := buf, buf_len := 0 }, take)
    else .ok ({ c with buf := buf, buf_len := buf_len }, take)
  else .ok (c, 0)

/-- The loop over the full blocks of the input. -/
def full_blocks (data : List UInt8) (state : Vector W 8) (i : Nat) : Vector W 8 × Nat :=
  if hi : i + h.block ≤ data.length then
    full_blocks data
      (h.compress state (first (data.drop i) (by rw [length_drop]; omega))) (i + h.block)
  else (state, i)
termination_by data.length - i
decreasing_by
  have := h.block_pos
  omega

def update (c : Ctx h) (data : List UInt8) : Outcome (Ctx h) := do
  let (c, i) ← top_off { c with len := c.len + ofNat data.length } data
  let (state, i) := full_blocks (h := h) data c.state i
  let tail := data.length - i
  if tail > 0 then do
    let src ← Buffer.slice data i data.length
    let buf ← copy_from_slice c.buf 0 tail src
    .ok { c with state := state, buf := buf, buf_len := tail }
  else .ok { c with state := state }

/-- `u64::to_be_bytes`. -/
def to_be_bytes (x : UInt64) : List UInt8 := (le 8 x.toNat).reverse

/-- The state after the padding. -/
def finalize_state (c : Ctx h) : Outcome (Vector W 8) := do
  let bit_len := c.len * 8
  let buf ← set c.buf c.buf_len 0x80
  let buf_len := c.buf_len + 1
  let c : Ctx h :=
    if buf_len > h.tail then
      { c with
        state := h.compress c.state (zero buf buf_len h.block)
        buf := zero buf buf_len h.block
        buf_len := 0 }
    else { c with buf := buf, buf_len := buf_len }
  -- SHA-512 alone has bytes between the tail and the length
  let buf := zero (zero c.buf c.buf_len h.tail) h.tail h.len_at
  let buf ← copy_from_slice buf h.len_at h.block (to_be_bytes bit_len)
  .ok (h.compress c.state buf)

/-! ## The buffer -/

theorem copy_from_slice_ok {n : Nat} (buf : Block UInt8 n) {lo hi : Nat} {src : List UInt8}
    (hlo : lo + src.length = hi) (hhi : hi ≤ n) :
    ∃ b, copy_from_slice buf lo hi src = .ok b ∧ b.1 = patch buf.1 lo src := by
  unfold copy_from_slice
  rw [dif_pos (by omega)]
  exact ⟨_, rfl, rfl⟩

theorem take_patch {bs src : List UInt8} {lo hi : Nat} (hhi : lo + src.length = hi)
    (hlo : lo ≤ bs.length) : (patch bs lo src).take hi = bs.take lo ++ src := by
  unfold patch
  apply take_left'
  rw [length_append, length_take]
  omega

theorem set_ok {n : Nat} (buf : Block UInt8 n) {i : Nat} (byte : UInt8) (hi : i < n) :
    ∃ b, set buf i byte = .ok b ∧
      b.1 = buf.1.take i ++ byte :: buf.1.drop (i + 1) := by
  have hn := buf.2
  unfold set
  rw [if_pos hi]
  exact ⟨_, rfl, List.set_eq_take_append_cons_drop.trans (if_pos (by omega))⟩

theorem zero_eq {n : Nat} (buf : Block UInt8 n) {lo hi : Nat} (hlo : lo ≤ hi) (hhi : hi ≤ n) :
    (zero buf lo hi).1 = buf.1.take lo ++ replicate (hi - lo) 0 ++ buf.1.drop hi := by
  have hn := buf.2
  unfold zero
  apply List.ext_getElem
  · simp only [length_mapIdx, length_append, length_take, length_replicate,
      length_drop]
    omega
  · intro i h1 h2
    rw [length_mapIdx] at h1
    rw [List.getElem_mapIdx]
    have hfront : (buf.1.take lo).length = lo := by
      rw [length_take]
      omega
    have hmid : (buf.1.take lo ++ replicate (hi - lo) 0).length = hi := by
      rw [length_append, hfront, length_replicate]
      omega
    by_cases hlow : i < hi
    · rw [List.getElem_append_left (by omega)]
      by_cases hlo' : i < lo
      · rw [if_neg (by omega), List.getElem_append_left (by omega), List.getElem_take]
      · rw [if_pos (by omega), List.getElem_append_right (by omega), List.getElem_replicate]
    · rw [if_neg (by omega), List.getElem_append_right (by omega), List.getElem_drop]
      congr 1
      omega

theorem zero_zero {n : Nat} (buf : Block UInt8 n) {lo mid hi : Nat} (hlo : lo ≤ mid)
    (hhi : mid ≤ hi) : zero (zero buf lo mid) mid hi = zero buf lo hi := by
  apply Subtype.ext
  unfold zero
  simp only [List.mapIdx_mapIdx]
  congr 1
  funext i byte
  simp only [Function.comp]
  split_ifs <;> first | rfl | omega

/-! ## What a context has absorbed -/

/-- The message is the blocks that are compressed, and what stands in the buffer. -/
structure Absorbed (c : Ctx h) (m : List UInt8) : Prop where
  short : c.buf_len < h.block
  parts : ∃ whole, h.block ∣ whole.length ∧ m = whole ++ c.buf.1.take c.buf_len ∧
    c.state = h.digest_state whole

theorem new_absorbed : Absorbed (new h) [] := by
  refine ⟨h.block_pos, [], ⟨0, rfl⟩, ?_, ?_⟩
  · rfl
  · exact (fold_nil h.block_pos h.compress h.h0).symm

/-- A full buffer goes into the state. -/
theorem digest_state_block {whole : List UInt8} (hw : h.block ∣ whole.length)
    (b : Block UInt8 h.block) :
    h.digest_state (whole ++ b.1) = h.compress (h.digest_state whole) b := by
  unfold Sha.digest_state
  rw [fold_append _ _ _ hw, fold_block]

variable {c : Ctx h} {m : List UInt8}

theorem top_off_spec (hc : Absorbed c m) (data : List UInt8) :
    ∃ c' i, top_off c data = .ok (c', i) ∧ i ≤ data.length ∧ c'.len = c.len ∧
      Absorbed c' (m ++ data.take i) ∧ (c'.buf_len = 0 ∨ i = data.length) := by
  obtain ⟨hshort, whole, hwhole, hm, hstate⟩ := hc
  have hn := c.buf.2
  unfold top_off
  by_cases hpos : c.buf_len > 0
  · obtain ⟨take, htake⟩ : ∃ t, t = min (h.block - c.buf_len) data.length := ⟨_, rfl⟩
    have hlen : (data.take take).length = take := by
      rw [length_take]
      omega
    obtain ⟨buf, hbuf, hpatch⟩ :=
      @copy_from_slice_ok _ c.buf c.buf_len _ (data.take take) rfl (by omega)
    have hcontent := @take_patch c.buf.1 (data.take take) c.buf_len _ rfl (by omega)
    rw [← hpatch] at hcontent
    rw [hlen] at hbuf hcontent
    rw [if_pos hpos, ← htake]
    dsimp only
    rw [Buffer.slice_eq_ok (Nat.zero_le _) (by omega), ok_bind, Nat.sub_zero,
      List.drop_zero, hbuf, ok_bind]
    split
    · rename_i hfull
      refine ⟨_, _, rfl, by omega, rfl, ⟨h.block_pos, whole ++ buf.1, ?_, ?_, ?_⟩, .inl rfl⟩
      · rw [length_append, buf.2]
        exact Nat.dvd_add hwhole ⟨1, by omega⟩
      · rw [hfull, List.take_of_length_le (Nat.le_of_eq buf.2)] at hcontent
        rw [hm, append_assoc, ← hcontent]
        simp
      · rw [digest_state_block hwhole, hstate]
    · refine ⟨_, _, rfl, by omega, rfl, ⟨by simp only; omega, whole, hwhole, ?_, hstate⟩,
        .inr (by omega)⟩
      rw [hcontent, hm, append_assoc]
  · rw [if_neg hpos]
    refine ⟨c, 0, rfl, Nat.zero_le _, rfl, ⟨hshort, whole, hwhole, ?_, hstate⟩, .inl (by omega)⟩
    rw [hm, take_zero, append_nil]

theorem full_blocks_spec (data : List UInt8) (state : Vector W 8) (i : Nat) (hi : i ≤ data.length) :
    ∃ k, h.block ∣ k ∧ i + k ≤ data.length ∧ data.length < i + k + h.block ∧
      full_blocks (h := h) data state i =
        (fold h.block_pos h.compress state ((data.drop i).take k), i + k) := by
  induction state, i using full_blocks.induct (h := h) data with
  | case1 state i hle ih =>
    obtain ⟨k, hk, hsum, hrest, heq⟩ := ih (by omega)
    refine ⟨h.block + k, Nat.dvd_add (Nat.dvd_refl _) hk, by omega, by omega, ?_⟩
    rw [full_blocks, dif_pos hle, heq, List.take_add, ← fold_cons, List.drop_drop]
    rw [Nat.add_assoc]
    rfl
  | case2 state i hlt =>
    refine ⟨0, ⟨0, rfl⟩, by omega, by omega, ?_⟩
    rw [full_blocks, dif_neg hlt, take_zero, fold_nil]
    rfl

theorem update_spec (hc : Absorbed c m) (data : List UInt8) :
    ∃ c', update c data = .ok c' ∧ Absorbed c' (m ++ data) ∧
      c'.len = c.len + ofNat data.length := by
  obtain ⟨c1, i, htop, hi, hlen, hc1, hend⟩ :=
    top_off_spec (c := { c with len := c.len + ofNat data.length }) ⟨hc.short, hc.parts⟩ data
  obtain ⟨hshort, whole, hwhole, hm, hstate⟩ := hc1
  obtain ⟨k, hk, hsum, hrest, hfull⟩ := full_blocks_spec (h := h) data c1.state i hi
  have hn := c1.buf.2
  unfold update
  rw [htop, ok_bind]
  dsimp only
  rw [hfull]
  dsimp only
  -- after the loop the buffer counts again: it is empty, or all the input is read
  have hbuf : c1.buf.1.take c1.buf_len = [] ∨ i = data.length :=
    hend.imp (fun h0 => by rw [h0, take_zero]) id
  have hmsg : m ++ data =
      whole ++ c1.buf.1.take c1.buf_len ++ (data.drop i).take k ++ data.drop (i + k) := by
    rw [← hm, append_assoc, append_assoc, ← List.drop_drop, List.take_append_drop,
      List.take_append_drop]
  have htaken : ((data.drop i).take k).length = k := by
    rw [length_take, length_drop]
    omega
  split
  · rename_i htail
    have hempty : c1.buf.1.take c1.buf_len = [] := by
      rcases hbuf with h0 | h0
      · exact h0
      · omega
    have hsrc : data.drop (i + k) = (data.drop (i + k)).take (data.length - (i + k)) := by
      rw [← length_drop, List.take_length]
    obtain ⟨buf, hcopy, hpatch⟩ :=
      @copy_from_slice_ok _ c1.buf 0 _ (data.drop (i + k))
        (Nat.zero_add _) (by rw [length_drop]; omega)
    rw [length_drop] at hcopy
    rw [Buffer.slice_eq_ok (by omega) (Nat.le_refl _), ok_bind, ← hsrc, hcopy]
    refine ⟨_, rfl, ⟨by simp only; omega, whole ++ (data.drop i).take k, ?_, ?_, ?_⟩, hlen⟩
    · rw [length_append, htaken]
      exact Nat.dvd_add hwhole hk
    · have hcontent := @take_patch c1.buf.1 (data.drop (i + k)) 0 _ rfl
        (Nat.zero_le _)
      rw [← hpatch, length_drop, Nat.zero_add, take_zero, nil_append] at hcontent
      rw [hcontent, hmsg, hempty, append_nil]
    · unfold Sha.digest_state at *
      rw [fold_append _ _ _ hwhole, hstate]
  · rename_i htail
    have hdone : data.drop (i + k) = [] := List.drop_eq_nil_of_le (by omega)
    rcases hbuf with hempty | hread
    · refine ⟨_, rfl, ⟨hshort, whole ++ (data.drop i).take k, ?_, ?_, ?_⟩, hlen⟩
      · rw [length_append, htaken]
        exact Nat.dvd_add hwhole hk
      · rw [hmsg, hdone, hempty]
        simp
      · unfold Sha.digest_state at *
        rw [fold_append _ _ _ hwhole, hstate]
    · obtain rfl : k = 0 := by omega
      refine ⟨_, rfl, ⟨hshort, whole, hwhole, ?_, ?_⟩, hlen⟩
      · rw [hmsg, hdone, take_zero]
        simp
      · rw [take_zero, fold_nil, hstate]

/-! ## The padding -/

/-- `p` is `m` with the shortest padding: a one bit, zeros, and the number of bits as a
big-endian number of `field` bytes. -/
def Padded (block field : Nat) (m p : List UInt8) : Prop :=
  ∃ z, p = m ++ 0x80 :: (replicate z 0 ++ (le field (8 * m.length)).reverse) ∧
    block ∣ m.length + 1 + z + field ∧ ∀ y < z, ¬ block ∣ m.length + 1 + y + field

theorem Padded.unique {block field : Nat} {p p' : List UInt8} (hp : Padded block field m p)
    (hp' : Padded block field m p') : p = p' := by
  obtain ⟨z, rfl, hz, hmin⟩ := hp
  obtain ⟨z', rfl, hz', hmin'⟩ := hp'
  rcases Nat.lt_trichotomy z z' with hlt | rfl | hlt
  · exact absurd hz (hmin' z hlt)
  · rfl
  · exact absurd hz' (hmin z' hlt)

theorem le_zero (n : Nat) : le n 0 = replicate n 0 := by
  induction n with
  | zero => rfl
  | succ n ih =>
    unfold le
    rw [Nat.zero_div, ih]
    rfl

theorem le_add (a b x : Nat) : le (a + b) x = le a x ++ le b (x / 256 ^ a) := by
  induction a generalizing x with
  | zero => simp [le]
  | succ a ih =>
    rw [Nat.succ_add]
    simp only [le]
    rw [ih, Nat.div_div_eq_div_mul, ← Nat.pow_succ']
    rfl

/-- The upper half of a field that is wider than the number. -/
theorem field_eq {x : Nat} (k : Nat) (hx : x < 2 ^ 64) :
    (le (8 + k) x).reverse = replicate k 0 ++ (to_be_bytes (ofNat x)) := by
  unfold to_be_bytes
  rw [le_add, List.reverse_append, Nat.div_eq_of_lt (by exact hx), le_zero, List.reverse_replicate,
    UInt64.toNat_ofNat_of_lt' hx]

theorem last_block (b : Block UInt8 h.block) {lo : Nat} (hlo : lo ≤ h.tail) (x : UInt64) :
    ∃ r : Block UInt8 h.block,
      copy_from_slice (zero (zero b lo h.tail) h.tail h.len_at) h.len_at h.block
        (to_be_bytes x) = .ok r ∧
      r.1 = b.1.take lo ++ replicate (h.len_at - lo) 0 ++ to_be_bytes x := by
  have ht := h.tail_le
  have hl := h.len_at_eq
  have hb := b.2
  have hx : (to_be_bytes x).length = 8 := by
    unfold to_be_bytes
    rw [List.length_reverse, length_le]
  rw [zero_zero b hlo ht]
  obtain ⟨r, hr, hpatch⟩ := @copy_from_slice_ok _ (zero b lo h.len_at) h.len_at
    h.block (to_be_bytes x) (by omega) (by omega)
  refine ⟨r, hr, ?_⟩
  have hlen := (zero b lo h.len_at).2
  rw [hpatch, patch, hx, hl, List.drop_eq_nil_of_le (by omega), append_nil,
    zero_eq b (by omega) (by omega)]
  congr 1
  apply take_left'
  rw [length_append, length_take, length_replicate]
  omega

theorem finalize_spec (hc : Absorbed c m) (hlen : c.len = ofNat m.length) (hm : m.length < 2 ^ 61) :
    ∃ p, Padded h.block (h.block - h.tail) m p ∧
      finalize_state c = .ok (h.digest_state p) := by
  obtain ⟨hshort, whole, hwhole, hmsg, hstate⟩ := hc
  have ht := h.tail_le
  have hl := h.len_at_eq
  have hbuf := c.buf.2
  have hbits : c.len * 8 = ofNat (8 * m.length) := by
    rw [hlen, Nat.mul_comm, UInt64.ofNat_mul]
    rfl
  have hfield := field_eq (h.len_at - h.tail) (x := 8 * m.length) (by omega)
  rw [show 8 + (h.len_at - h.tail) = h.block - h.tail by omega] at hfield
  have hpart : (c.buf.1.take c.buf_len).length = c.buf_len := by
    rw [length_take]
    omega
  have hsize : m.length = whole.length + c.buf_len := by
    rw [hmsg, length_append, hpart]
  obtain ⟨q, hq⟩ := hwhole
  obtain ⟨b, hset, hb⟩ := set_ok c.buf 0x80 hshort
  have hmark : b.1.take (c.buf_len + 1) = c.buf.1.take c.buf_len ++ [0x80] := by
    rw [hb, List.append_cons]
    apply take_left'
    rw [length_append, hpart]
    rfl
  unfold finalize_state
  rw [hset, ok_bind, hbits]
  dsimp only
  by_cases hroom : c.buf_len + 1 > h.tail
  · -- no room for the length: the rest of this block is zeros, and another one follows
    obtain ⟨r, hcopy, hr⟩ := @last_block _ _ (zero b (c.buf_len + 1) h.block) 0
      (Nat.zero_le _) (ofNat (8 * m.length))
    have hzero := @zero_eq _ b (c.buf_len + 1) h.block hshort (Nat.le_refl _)
    rw [hmark, List.drop_eq_nil_of_le (Nat.le_of_eq b.2), append_nil] at hzero
    refine ⟨whole ++ (zero b (c.buf_len + 1) h.block).1 ++ r.1, ⟨h.block - (c.buf_len + 1) + h.tail,
      ?_, ?_, ?_⟩, ?_⟩
    · rw [hr, hzero, hfield, hmsg]
      rw [show h.len_at - 0 = h.tail + (h.len_at - h.tail) by omega]
      simp only [take_zero, nil_append, append_assoc, List.replicate_add, List.cons_append]
    · refine ⟨q + 2, ?_⟩
      rw [Nat.mul_add]
      omega
    · rintro y hy ⟨d, hd⟩
      have h1 : h.block * (q + 1) < h.block * d := by
        rw [Nat.mul_add]
        omega
      have h2 : h.block * d < h.block * (q + 2) := by
        rw [Nat.mul_add]
        omega
      have h3 := Nat.lt_of_mul_lt_mul_left h1
      have h4 := Nat.lt_of_mul_lt_mul_left h2
      omega
    · rw [if_pos hroom, hcopy, ok_bind, digest_state_block, digest_state_block ⟨q, hq⟩, hstate]
      rw [length_append, (zero b (c.buf_len + 1) h.block).2, hq]
      exact ⟨q + 1, rfl⟩
  · obtain ⟨r, hcopy, hr⟩ := @last_block _ _ b (c.buf_len + 1) (by omega)
      (ofNat (8 * m.length))
    refine ⟨whole ++ r.1, ⟨h.tail - (c.buf_len + 1), ?_, ?_, ?_⟩, ?_⟩
    · rw [hr, hmark, hfield, hmsg]
      rw [show h.len_at - (c.buf_len + 1) = h.tail - (c.buf_len + 1) + (h.len_at - h.tail) by omega]
      simp only [append_assoc, List.replicate_add, List.cons_append, nil_append]
    · refine ⟨q + 1, ?_⟩
      rw [Nat.mul_add]
      omega
    · rintro y hy ⟨d, hd⟩
      have h1 : h.block * q < h.block * d := by omega
      have h2 : h.block * d < h.block * (q + 1) := by
        rw [Nat.mul_add]
        omega
      have h3 := Nat.lt_of_mul_lt_mul_left h1
      have h4 := Nat.lt_of_mul_lt_mul_left h2
      omega
    · rw [if_neg hroom, hcopy, ok_bind, digest_state_block ⟨q, hq⟩, hstate]

/-! ## A whole run -/

/-- The slices one after the other, and the padding. -/
def hash_slices (h : Sha W) (slices : List (List UInt8)) : Outcome (Vector W 8) := do
  let c ← slices.foldlM update (new h)
  finalize_state c

theorem updates_spec (hc : Absorbed c m)
    (hlen : c.len = ofNat m.length) (slices : List (List UInt8)) :
    ∃ c', slices.foldlM update c = .ok c' ∧ Absorbed c' (m ++ slices.flatten) ∧
      c'.len = ofNat (m ++ slices.flatten).length := by
  induction slices generalizing c m with
  | nil => exact ⟨c, rfl, by simpa using hc, by simpa using hlen⟩
  | cons data slices ih =>
    obtain ⟨c1, hupd, hc1, hlen1⟩ := update_spec hc data
    have hlen' : c1.len = ofNat (m ++ data).length := by
      rw [hlen1, hlen, length_append, UInt64.ofNat_add]
    obtain ⟨c2, hrun, hc2, hlen2⟩ := ih hc1 hlen'
    refine ⟨c2, ?_, ?_, ?_⟩
    · rw [List.foldlM_cons, hupd]
      exact hrun
    · rw [List.flatten_cons, ← append_assoc]
      exact hc2
    · rw [List.flatten_cons, ← append_assoc]
      exact hlen2

/-- In any chunking: the digest of the padded message. -/
theorem hash_slices_spec (h : Sha W) (slices : List (List UInt8))
    (hsize : slices.flatten.length < 2 ^ 61) :
    ∃ p, Padded h.block (h.block - h.tail) slices.flatten p ∧
      hash_slices h slices = .ok (h.digest_state p) := by
  obtain ⟨c, hrun, hc, hlen⟩ := updates_spec (new_absorbed (h := h)) rfl slices
  obtain ⟨p, hp, hfin⟩ := finalize_spec hc hlen hsize
  refine ⟨p, hp, ?_⟩
  unfold hash_slices
  rw [hrun]
  exact hfin

/-- The chunking does not matter. -/
theorem hash_slices_flatten (h : Sha W) (slices : List (List UInt8))
    (hsize : slices.flatten.length < 2 ^ 61) :
    hash_slices h slices = hash_slices h [slices.flatten] := by
  obtain ⟨p, hp, hrun⟩ := hash_slices_spec h slices hsize
  have hflat : [slices.flatten].flatten = slices.flatten := by simp
  obtain ⟨p', hp', hrun'⟩ := hash_slices_spec h [slices.flatten] (by rw [hflat]; exact hsize)
  rw [hflat] at hp'
  rw [hrun, hrun', hp.unique hp']

end paideia_as_crypto.hash
