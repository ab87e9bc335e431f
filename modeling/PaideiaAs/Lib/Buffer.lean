-- Reading a byte buffer the way a Rust parser does: a slice that leaves the
-- buffer is a panic, the integer fields are little-endian and of a fixed
-- width, and a section is either a table of records of one size or a stream
-- of records that each say how long they are.
import PaideiaAs.Lib.Bytes
import PaideiaAs.Lib.Outcome

namespace Buffer

open Bytes
open Outcome (bind_eq_ok ok_bind)
open List (flatMap_cons length_append)

/-! ## Slices -/

/-- `&bs[a..b]`: a panic unless `a ≤ b ≤ bs.len()`. -/
def slice (bs : List UInt8) (a b : Nat) : Outcome (List UInt8) :=
  if a ≤ b ∧ b ≤ bs.length then .ok ((bs.drop a).take (b - a)) else .error .panic

variable {bs f : List UInt8} {a b n pos : Nat}

theorem slice_eq_ok (hab : a ≤ b) (hb : b ≤ bs.length) :
    slice bs a b = .ok ((bs.drop a).take (b - a)) := by
  unfold slice
  rw [if_pos ⟨hab, hb⟩]

theorem slice_isOk_iff : (∃ r, slice bs a b = .ok r) ↔ a ≤ b ∧ b ≤ bs.length := by
  unfold slice
  split <;> simp_all

variable (rest : List UInt8)

/-- Only the part in front is read. -/
theorem slice_append_left (hb : b ≤ f.length) : slice (f ++ rest) a b = slice f a b := by
  unfold slice
  by_cases hab : a ≤ b
  · have hlen : b ≤ (f ++ rest).length := by simp; omega
    rw [if_pos ⟨hab, hlen⟩, if_pos ⟨hab, hb⟩, List.drop_append_of_le_length (by omega),
      List.take_append_of_le_length (by simp; omega)]
  · rw [if_neg (fun h => hab h.1), if_neg (fun h => hab h.1)]

/-- Only the part behind is read. -/
theorem slice_append_right {f : List UInt8} (rest : List UInt8) {a b : Nat} (ha : f.length ≤ a)
    (hab : a ≤ b) :
    slice (f ++ rest) a b = slice rest (a - f.length) (b - f.length) := by
  unfold slice
  have hdrop : (f ++ rest).drop a = rest.drop (a - f.length) := by
    rw [List.drop_append, List.drop_of_length_le ha, List.nil_append]
  have hwidth : b - f.length - (a - f.length) = b - a := by omega
  have hiff : (a ≤ b ∧ b ≤ (f ++ rest).length) ↔
      (a - f.length ≤ b - f.length ∧ b - f.length ≤ rest.length) := by
    rw [length_append]; omega
  simp only [hiff, hdrop, hwidth]

theorem slice_front (f rest : List UInt8) (hn : n = f.length) : slice (f ++ rest) 0 n = .ok f := by
  subst hn
  rw [slice_append_left rest le_rfl, slice_eq_ok (Nat.zero_le _) le_rfl]
  simp

/-- The part behind, whole. -/
theorem slice_back (f rest : List UInt8) {m : Nat} (hn : n = f.length)
    (hm : m = f.length + rest.length) : slice (f ++ rest) n m = .ok rest := by
  subst hn hm
  rw [slice_append_right rest le_rfl (by omega), slice_eq_ok (by omega) (by omega)]
  simp

/-- A buffer that is long enough starts with a part of a given length. -/
theorem exists_front (h : n ≤ bs.length) : ∃ f rest, bs = f ++ rest ∧ f.length = n :=
  ⟨bs.take n, bs.drop n, (List.take_append_drop n bs).symm, by simp [h]⟩

/-- `bs[pos..pos + field.len()].copy_from_slice(field)`. -/
def copyInto (bs : List UInt8) (pos : Nat) (field : List UInt8) : Outcome (List UInt8) :=
  if pos + field.length ≤ bs.length then .ok (patch bs pos field) else .error .panic

theorem length_patch {field : List UInt8} (h : pos + field.length ≤ bs.length) :
    (patch bs pos field).length = bs.length := by
  simp only [patch, length_append, List.length_take, List.length_drop]
  omega

/-! ## Little-endian fields

`to_le_bytes` and `from_le_bytes` of the unsigned integers. -/

def u16 (x : UInt16) : List UInt8 := le 2 x.toNat

def u32 (x : UInt32) : List UInt8 := le 4 x.toNat

def u64 (x : UInt64) : List UInt8 := le 8 x.toNat

@[simp] theorem length_u16 (x : UInt16) : (u16 x).length = 2 := length_le _ _

@[simp] theorem length_u32 (x : UInt32) : (u32 x).length = 4 := length_le _ _

@[simp] theorem length_u64 (x : UInt64) : (u64 x).length = 8 := length_le _ _

def readU16 (bs : List UInt8) (pos : Nat) : Outcome UInt16 := do
  let field ← slice bs pos (pos + 2)
  .ok (UInt16.ofNat (ofLe field))

def readU32 (bs : List UInt8) (pos : Nat) : Outcome UInt32 := do
  let field ← slice bs pos (pos + 4)
  .ok (UInt32.ofNat (ofLe field))

def readU64 (bs : List UInt8) (pos : Nat) : Outcome UInt64 := do
  let field ← slice bs pos (pos + 8)
  .ok (UInt64.ofNat (ofLe field))

@[simp] theorem readU16_u16 (x : UInt16) (rest : List UInt8) :
    readU16 (u16 x ++ rest) 0 = .ok x := by
  unfold readU16
  rw [slice_front _ _ (by simp)]
  simp [u16, ofLe_le]

@[simp] theorem readU32_u32 (x : UInt32) (rest : List UInt8) :
    readU32 (u32 x ++ rest) 0 = .ok x := by
  unfold readU32
  rw [slice_front _ _ (by simp)]
  simp [u32, ofLe_le]

@[simp] theorem readU64_u64 (x : UInt64) (rest : List UInt8) :
    readU64 (u64 x ++ rest) 0 = .ok x := by
  unfold readU64
  rw [slice_front _ _ (by simp)]
  simp [u64, ofLe_le]

theorem readU16_skip (h : f.length ≤ pos) :
    readU16 (f ++ rest) pos = readU16 rest (pos - f.length) := by
  unfold readU16
  rw [slice_append_right rest h (by omega), Nat.sub_add_comm h]

theorem readU32_skip (h : f.length ≤ pos) :
    readU32 (f ++ rest) pos = readU32 rest (pos - f.length) := by
  unfold readU32
  rw [slice_append_right rest h (by omega), Nat.sub_add_comm h]

theorem readU64_skip (h : f.length ≤ pos) :
    readU64 (f ++ rest) pos = readU64 rest (pos - f.length) := by
  unfold readU64
  rw [slice_append_right rest h (by omega), Nat.sub_add_comm h]

theorem readU32_isOk (h : pos + 4 ≤ bs.length) : ∃ x, readU32 bs pos = .ok x := by
  unfold readU32
  rw [slice_eq_ok (by omega) h]
  exact ⟨_, rfl⟩

theorem readU64_isOk (h : pos + 8 ≤ bs.length) : ∃ x, readU64 bs pos = .ok x := by
  unfold readU64
  rw [slice_eq_ok (by omega) h]
  exact ⟨_, rfl⟩

/-- The field at a position, for bytes that are there. -/
def u16At (bs : List UInt8) (pos : Nat) : UInt16 := UInt16.ofNat (ofLe ((bs.drop pos).take 2))

def u32At (bs : List UInt8) (pos : Nat) : UInt32 := UInt32.ofNat (ofLe ((bs.drop pos).take 4))

theorem readU16_eq (h : pos + 2 ≤ bs.length) : readU16 bs pos = .ok (u16At bs pos) := by
  unfold readU16
  rw [slice_eq_ok (by omega) h, ok_bind, Nat.add_sub_cancel_left]
  rfl

theorem readU32_eq (h : pos + 4 ≤ bs.length) : readU32 bs pos = .ok (u32At bs pos) := by
  unfold readU32
  rw [slice_eq_ok (by omega) h, ok_bind, Nat.add_sub_cancel_left]
  rfl

theorem u16At_u16 {front : List UInt8} (h : pos = front.length) (x : UInt16)
    (rest : List UInt8) : u16At (front ++ (u16 x ++ rest)) pos = x := by
  unfold u16At
  rw [h, List.drop_left, List.take_left' (length_u16 x)]
  simp [u16, ofLe_le]

theorem u32At_u32 {front : List UInt8} (h : pos = front.length) (x : UInt32)
    (rest : List UInt8) : u32At (front ++ (u32 x ++ rest)) pos = x := by
  unfold u32At
  rw [h, List.drop_left, List.take_left' (length_u32 x)]
  simp [u32, ofLe_le]

/-- Any two bytes are a number of that width. -/
theorem exists_u16 (h : 2 ≤ bs.length) : ∃ x rest, bs = u16 x ++ rest := by
  obtain ⟨f, rest, rfl, hf⟩ := exists_front h
  have hlt : ofLe f < 2 ^ 16 := by simpa [hf] using ofLe_lt f
  refine ⟨UInt16.ofNat (ofLe f), rest, ?_⟩
  rw [u16, UInt16.toNat_ofNat_of_lt' hlt, ← hf, le_ofLe]

theorem exists_u32 (h : 4 ≤ bs.length) : ∃ x rest, bs = u32 x ++ rest := by
  obtain ⟨f, rest, rfl, hf⟩ := exists_front h
  have hlt : ofLe f < 2 ^ 32 := by simpa [hf] using ofLe_lt f
  refine ⟨UInt32.ofNat (ofLe f), rest, ?_⟩
  rw [u32, UInt32.toNat_ofNat_of_lt' hlt, ← hf, le_ofLe]

theorem exists_u64 (h : 8 ≤ bs.length) : ∃ x rest, bs = u64 x ++ rest := by
  obtain ⟨f, rest, rfl, hf⟩ := exists_front h
  have hlt : ofLe f < 2 ^ 64 := by simpa [hf] using ofLe_lt f
  refine ⟨UInt64.ofNat (ofLe f), rest, ?_⟩
  rw [u64, UInt64.toNat_ofNat_of_lt' hlt, ← hf, le_ofLe]

/-- Any `4 * n` bytes are `n` numbers. -/
theorem exists_u32s (n : Nat) : ∀ {bs : List UInt8}, n * 4 ≤ bs.length →
    ∃ (xs : List UInt32) (rest : List UInt8), bs = xs.flatMap u32 ++ rest ∧ xs.length = n := by
  induction n with
  | zero => exact fun {bs} _ => ⟨[], bs, rfl, rfl⟩
  | succ n ih =>
    intro bs h
    obtain ⟨x, tail, rfl⟩ := exists_u32 (show 4 ≤ bs.length by omega)
    obtain ⟨xs, rest, rfl, rfl⟩ := @ih tail (by simp at h; omega)
    exact ⟨x :: xs, rest, by simp, rfl⟩

@[simp] theorem length_flatMap_u32 (xs : List UInt32) : (xs.flatMap u32).length = xs.length * 4 := by
  induction xs with
  | nil => rfl
  | cons x xs ih => simp [ih]; omega

theorem u16_inj {x y : UInt16} (h : u16 x = u16 y) : x = y := by
  have hread := congrArg (fun bs => readU16 (bs ++ []) 0) h
  simpa only [readU16_u16, Except.ok.injEq] using hread

theorem u32_inj {x y : UInt32} (h : u32 x = u32 y) : x = y := by
  have hread := congrArg (fun bs => readU32 (bs ++ []) 0) h
  simpa only [readU32_u32, Except.ok.injEq] using hread

theorem u64_inj {x y : UInt64} (h : u64 x = u64 y) : x = y := by
  have hread := congrArg (fun bs => readU64 (bs ++ []) 0) h
  simpa only [readU64_u64, Except.ok.injEq] using hread

/-! ## Byte arrays of a fixed length -/

/-- The array of the `n` bytes from `pos` on. -/
def readArray (n : Nat) (bs : List UInt8) (pos : Nat) : Outcome (Vector UInt8 n) :=
  if h : pos + n ≤ bs.length then
    .ok ⟨((bs.drop pos).take n).toArray, by simp; omega⟩
  else .error .panic

@[simp] theorem readArray_toList (v : Vector UInt8 n) (rest : List UInt8) :
    readArray n (v.toList ++ rest) 0 = .ok v := by
  unfold readArray
  have hlen : 0 + n ≤ (v.toList ++ rest).length := by simp
  rw [dif_pos hlen]
  congr 1
  apply Vector.toList_inj.mp
  simp

theorem readArray_skip (h : f.length ≤ pos) :
    readArray n (f ++ rest) pos = readArray n rest (pos - f.length) := by
  unfold readArray
  have hdrop : (f ++ rest).drop pos = rest.drop (pos - f.length) := by
    rw [List.drop_append, List.drop_of_length_le h, List.nil_append]
  have hiff : pos + n ≤ (f ++ rest).length ↔ pos - f.length + n ≤ rest.length := by
    rw [length_append]; omega
  simp only [hiff, hdrop]

theorem exists_array (h : n ≤ bs.length) :
    ∃ (v : Vector UInt8 n) (rest : List UInt8), bs = v.toList ++ rest := by
  obtain ⟨f, rest, rfl, hf⟩ := exists_front h
  exact ⟨⟨f.toArray, by simpa using hf⟩, rest, by simp⟩

/-! ## Text -/

/-- `str::as_bytes`. -/
def as_bytes (s : String) : List UInt8 := s.toByteArray.data.toList

/-- `str::from_utf8`: `None` on bytes that are not UTF-8. -/
def from_utf8 (bs : List UInt8) : Option String := String.fromUTF8? ⟨bs.toArray⟩

@[simp] theorem from_utf8_as_bytes (s : String) : from_utf8 (as_bytes s) = some s := by
  unfold from_utf8 as_bytes String.fromUTF8?
  have hvalid : ByteArray.IsValidUTF8 ⟨s.toByteArray.data⟩ := s.isValidUTF8
  simp [hvalid, String.fromUTF8]

theorem as_bytes_of_from_utf8 {s : String} (h : from_utf8 bs = some s) : as_bytes s = bs := by
  unfold from_utf8 String.fromUTF8? at h
  split at h
  · cases h
    simp [as_bytes, String.fromUTF8]
  · cases h

/-! ## Tables of records of one size -/

section

variable {α β : Type}

/-- The loop over records `i`, `i + 1`, ..., `n` of them, each of `size`
bytes: `None` as soon as one does not parse. -/
def readTable (size : Nat) (parse : List UInt8 → Outcome (Option α)) (bs : List UInt8) :
    Nat → Nat → Outcome (Option (List α))
  | _, 0 => .ok (some [])
  | i, n + 1 => do
    let record ← slice bs (i * size) (i * size + size)
    match ← parse record with
    | none => .ok none
    | some x =>
      match ← readTable size parse bs (i + 1) n with
      | none => .ok none
      | some xs => .ok (some (x :: xs))

variable {size : Nat} {parse : List UInt8 → Outcome (Option α)}

/-- A buffer that holds all the records is read without a fault. -/
theorem readTable_isOk (hparse : ∀ r, r.length = size → ∃ x, parse r = .ok x) (n : Nat) :
    ∀ i, (i + n) * size ≤ bs.length → ∃ r, readTable size parse bs i n = .ok r := by
  induction n with
  | zero => exact fun i _ => ⟨_, rfl⟩
  | succ n ih =>
    intro i hlen
    have hstep : i * size + size ≤ (i + (n + 1)) * size := by
      rw [← Nat.succ_mul]
      exact Nat.mul_le_mul_right _ (by omega)
    have hslice : slice bs (i * size) (i * size + size) = _ :=
      slice_eq_ok (Nat.le_add_right _ size) (by omega)
    obtain ⟨x, hx⟩ := hparse ((bs.drop (i * size)).take (i * size + size - i * size))
      (by simp; omega)
    obtain ⟨xs, hxs⟩ := ih (i + 1) (by rw [show i + 1 + n = i + (n + 1) by omega]; exact hlen)
    unfold readTable
    rw [hslice, ok_bind, hx, ok_bind]
    rcases x with _ | x
    · exact ⟨_, rfl⟩
    · rcases xs with _ | xs
      · exact ⟨none, by simp [hxs]⟩
      · exact ⟨some (x :: xs), by simp [hxs]⟩

theorem length_of_readTable : ∀ {i : Nat} {xs : List α},
    readTable size parse bs i n = .ok (some xs) → xs.length = n := by
  induction n with
  | zero =>
    intro i xs h
    cases h
    rfl
  | succ n ih =>
    intro i xs h
    obtain ⟨record, -, h⟩ := bind_eq_ok.mp h
    obtain ⟨x, -, h⟩ := bind_eq_ok.mp h
    rcases x with _ | x
    · cases h
    obtain ⟨ys, hys, h⟩ := bind_eq_ok.mp h
    rcases ys with _ | ys
    · cases h
    · cases h
      rw [List.length_cons, ih hys]

/-- Records that were written one after the other are read in that order, up
to the first that does not parse. -/
theorem readTable_flatMap {enc : β → List UInt8} {g : β → Option α}
    (hsize : ∀ y, (enc y).length = size) (hparse : ∀ y, parse (enc y) = .ok (g y))
    (rest : List UInt8) (ys : List β) :
    ∀ (front : List UInt8) (i : Nat), front.length = i * size →
      readTable size parse (front ++ (ys.flatMap enc ++ rest)) i ys.length = .ok (ys.mapM g) := by
  induction ys with
  | nil => exact fun _ _ _ => rfl
  | cons y ys ih =>
    intro front i hfront
    have hslice : slice (front ++ (enc y ++ (ys.flatMap enc ++ rest))) (i * size)
        (i * size + size) = .ok (enc y) := by
      rw [slice_append_right _ (by omega) (by omega), hfront, Nat.sub_self,
        Nat.add_sub_cancel_left, slice_front _ _ (hsize y).symm]
    have hrest := ih (front ++ enc y) (i + 1) (by rw [length_append, hfront, hsize, Nat.succ_mul])
    rw [List.append_assoc] at hrest
    rw [flatMap_cons, List.append_assoc, List.length_cons, readTable, hslice,
      ok_bind, hparse y, ok_bind, List.mapM_cons]
    rcases g y with _ | x
    · rfl
    · simp only [hrest, ok_bind]
      rcases ys.mapM g with _ | xs
      · rfl
      · rfl

/-- A buffer that is a table and nothing else: `None` unless its length is a
multiple of the size of a record. -/
def readWholeTable (size : Nat) (parse : List UInt8 → Outcome (Option α)) (bs : List UInt8) :
    Outcome (Option (List α)) :=
  if bs.length % size ≠ 0 then .ok none else readTable size parse bs 0 (bs.length / size)

theorem readWholeTable_isOk (hparse : ∀ r, r.length = size → ∃ x, parse r = .ok x)
    (bs : List UInt8) : ∃ r, readWholeTable size parse bs = .ok r := by
  unfold readWholeTable
  split
  · exact ⟨_, rfl⟩
  · apply readTable_isOk hparse
    rw [Nat.zero_add]
    exact Nat.div_mul_le_self _ _

end

/-! ## Streams of records of their own size -/

section

variable {α β : Type}

/-- The loop that reads a record, skips the bytes it used and goes on until
the buffer ends: `None` as soon as a record does not parse. -/
def readStream (parse : List UInt8 → Outcome (Option (α × Nat))) (bs : List UInt8) :
    Nat → Nat → Outcome (Option (List α))
  | 0, _ => .error .div
  | fuel + 1, offset =>
    if offset < bs.length then do
      let rest ← slice bs offset bs.length
      match ← parse rest with
      | none => .ok none
      | some (x, used) =>
        match ← readStream parse bs fuel (offset + used) with
        | none => .ok none
        | some xs => .ok (some (x :: xs))
    else .ok (some [])

variable {parse : List UInt8 → Outcome (Option (α × Nat))}

theorem readStream_append (parse : List UInt8 → Outcome (Option (α × Nat)))
    (front rest : List UInt8) (fuel : Nat) : ∀ k,
    readStream parse (front ++ rest) fuel (front.length + k) = readStream parse rest fuel k := by
  induction fuel with
  | zero => exact fun _ => rfl
  | succ fuel ih =>
    intro k
    unfold readStream
    by_cases hk : k < rest.length
    · have hslice : slice (front ++ rest) (front.length + k) (front ++ rest).length =
          slice rest k rest.length := by
        rw [slice_append_right _ (by omega) (by simp; omega), length_append,
          Nat.add_sub_cancel_left, Nat.add_sub_cancel_left]
      rw [if_pos (by simp; omega), if_pos hk, hslice]
      simp only [Nat.add_assoc, ih]
    · rw [if_neg (by simp; omega), if_neg hk]

/-- One turn of the loop on a buffer that is not empty. -/
theorem readStream_step (hne : bs ≠ []) (fuel : Nat) : readStream parse bs (fuel + 1) 0 = (do
      match ← parse bs with
      | none => .ok none
      | some (x, used) =>
        match ← readStream parse bs fuel used with
        | none => .ok none
        | some xs => .ok (some (x :: xs))) := by
  have hpos := List.length_pos_iff.mpr hne
  rw [readStream, if_pos hpos, slice_eq_ok (Nat.zero_le _) le_rfl]
  simp

theorem readStream_nil (fuel : Nat) : readStream parse [] (fuel + 1) 0 = .ok (some []) := rfl

/-- A parser of one record that faults on no input, uses at least one byte
and reads no byte that is not there. -/
def Progresses (parse : List UInt8 → Outcome (Option (α × Nat))) : Prop :=
  ∀ bs, ∃ r, parse bs = .ok r ∧ ∀ x used, r = some (x, used) → 0 < used ∧ used ≤ bs.length

/-- With such a parser the loop ends, without a fault, on every buffer. -/
theorem readStream_isOk (hparse : Progresses parse) : ∀ (fuel : Nat) (bs : List UInt8),
    bs.length < fuel → ∃ r, readStream parse bs fuel 0 = .ok r := by
  intro fuel
  induction fuel with
  | zero => exact fun _ h => absurd h (Nat.not_lt_zero _)
  | succ fuel ih =>
    intro bs hfuel
    by_cases hne : bs = []
    · subst hne
      exact ⟨_, readStream_nil fuel⟩
    rw [readStream_step hne]
    obtain ⟨r, hr, huse⟩ := hparse bs
    rw [hr, ok_bind]
    rcases r with _ | ⟨x, used⟩
    · exact ⟨_, rfl⟩
    · obtain ⟨hpos, hle⟩ := huse x used rfl
      obtain ⟨f, rest, rfl, hf⟩ := exists_front hle
      have hshort : rest.length < fuel := by
        rw [length_append] at hfuel
        omega
      obtain ⟨xs, hxs⟩ := ih rest hshort
      have hshift := readStream_append parse f rest fuel 0
      rw [Nat.add_zero, hf] at hshift
      simp only [hshift, hxs, ok_bind]
      rcases xs with _ | xs
      · exact ⟨_, rfl⟩
      · exact ⟨_, rfl⟩

/-- More fuel changes nothing once the loop has ended. -/
theorem readStream_fuel {r : Option (List α)} {fuel : Nat} :
    ∀ {offset : Nat}, readStream parse bs fuel offset = .ok r → ∀ more, fuel ≤ more →
      readStream parse bs more offset = .ok r := by
  induction fuel generalizing r with
  | zero =>
    intro offset h
    cases h
  | succ fuel ih =>
    intro offset h more hmore
    obtain ⟨n, rfl⟩ : ∃ n, more = n + 1 := ⟨more - 1, by omega⟩
    unfold readStream at h ⊢
    split at h
    · next hlt =>
      rw [if_pos hlt]
      obtain ⟨rest, hrest, h⟩ := bind_eq_ok.mp h
      obtain ⟨e, he, h⟩ := bind_eq_ok.mp h
      rw [hrest, ok_bind, he, ok_bind]
      rcases e with _ | ⟨x, used⟩
      · exact h
      · obtain ⟨xs, hxs, h⟩ := bind_eq_ok.mp h
        simp only [ih hxs n (by omega), ok_bind]
        exact h
    · next hlt =>
      rw [if_neg hlt]
      exact h

/-- Records that were written one after the other are read in that order. -/
theorem readStream_flatMap {enc : β → List UInt8} {f : β → α} (hne : ∀ y, enc y ≠ []) (ys : List β)
    (hparse : ∀ y ∈ ys, ∀ rest, parse (enc y ++ rest) = .ok (some (f y, (enc y).length))) :
    ∀ fuel, (ys.flatMap enc).length < fuel →
      readStream parse (ys.flatMap enc) fuel 0 = .ok (some (ys.map f)) := by
  induction ys with
  | nil =>
    intro fuel hfuel
    obtain ⟨n, rfl⟩ : ∃ n, fuel = n + 1 := ⟨fuel - 1, by simp at hfuel; omega⟩
    rfl
  | cons y ys ih =>
    intro fuel hfuel
    obtain ⟨n, rfl⟩ : ∃ n, fuel = n + 1 := ⟨fuel - 1, by omega⟩
    have hlen := List.length_pos_iff.mpr (hne y)
    rw [flatMap_cons, length_append] at hfuel
    have hrest := ih (fun z hz => hparse z (.tail _ hz)) n (by omega)
    have hshift := readStream_append parse (enc y) (ys.flatMap enc) n 0
    rw [Nat.add_zero, hrest] at hshift
    rw [flatMap_cons, readStream_step (by simp [hne y]), hparse y List.mem_cons_self]
    simp only [ok_bind, hshift, List.map_cons]

/-- They are read back as they were exactly when each of them is read back as
it was on its own. -/
theorem readStream_flatMap_iff {enc : α → List UInt8} {Good : α → Prop} (hne : ∀ x, enc x ≠ [])
    (hgood : ∀ x rest, Good x → parse (enc x ++ rest) = .ok (some (x, (enc x).length)))
    (hbad : ∀ x rest used, parse (enc x ++ rest) = .ok (some (x, used)) → Good x)
    (xs : List α) : ∀ fuel, (xs.flatMap enc).length < fuel →
      (readStream parse (xs.flatMap enc) fuel 0 = .ok (some xs) ↔ ∀ x ∈ xs, Good x) := by
  intro fuel hfuel
  refine ⟨?_, fun h => ?_⟩
  · induction xs generalizing fuel with
    | nil => simp
    | cons x xs ih =>
      intro h
      obtain ⟨n, rfl⟩ : ∃ n, fuel = n + 1 := ⟨fuel - 1, by omega⟩
      have hlen := List.length_pos_iff.mpr (hne x)
      rw [flatMap_cons, length_append] at hfuel
      rw [flatMap_cons, readStream_step (by simp [hne x])] at h
      obtain ⟨r, hr, h⟩ := bind_eq_ok.mp h
      rcases r with _ | ⟨y, used⟩
      · cases h
      obtain ⟨ys, hys, h⟩ := bind_eq_ok.mp h
      rcases ys with _ | ys
      · cases h
      cases h
      have hx := hbad x _ _ hr
      have hused : used = (enc x).length := by
        have := hr.symm.trans (hgood x _ hx)
        simpa using this
      have hshift := readStream_append parse (enc x) (xs.flatMap enc) n 0
      rw [Nat.add_zero, ← hused, hys] at hshift
      exact List.forall_mem_cons.mpr ⟨hx, ih n (by omega) hshift.symm⟩
  · have hread := readStream_flatMap (f := id) hne xs (fun x hx rest => hgood x rest (h x hx))
      fuel hfuel
    rwa [List.map_id] at hread

/-- What the loop accepts is a sequence of records, each of them one that the
parser of one record accepts. -/
theorem readStream_eq_some {enc : β → List UInt8} {f : β → α}
    (hparse : ∀ bs x used, parse bs = .ok (some (x, used)) →
      ∃ y rest, f y = x ∧ bs = enc y ++ rest ∧ used = (enc y).length) :
    ∀ (fuel : Nat) (bs : List UInt8) (xs : List α), readStream parse bs fuel 0 = .ok (some xs) →
      ∃ ys : List β, ys.map f = xs ∧ ys.flatMap enc = bs := by
  intro fuel
  induction fuel with
  | zero =>
    intro bs xs h
    cases h
  | succ fuel ih =>
    intro bs xs h
    by_cases hne : bs = []
    · subst hne
      cases h
      exact ⟨[], rfl, rfl⟩
    rw [readStream_step hne] at h
    obtain ⟨r, hr, h⟩ := bind_eq_ok.mp h
    rcases r with _ | ⟨x, used⟩
    · cases h
    · obtain ⟨zs, hzs, h⟩ := bind_eq_ok.mp h
      rcases zs with _ | zs
      · cases h
      · cases h
        obtain ⟨y, rest, rfl, rfl, rfl⟩ := hparse bs x used hr
        have hshift := readStream_append parse (enc y) rest fuel 0
        rw [Nat.add_zero, hzs] at hshift
        obtain ⟨ys, rfl, rfl⟩ := ih rest zs hshift.symm
        exact ⟨y :: ys, rfl, rfl⟩

end

end Buffer
