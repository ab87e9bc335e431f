-- The streaming UTF-8 decoder: what one call reads, and the items of a whole run.
import PaideiaAs.Lib.Utf8
import PaideiaAs.Lib.Cuts
import Mathlib.Algebra.Ring.Nat

namespace paideia_as_unicode

open Utf8 Tiling
open Nat (and_two_pow_sub_one_eq_mod mod_lt reduceMod)
open List (cons_append length length_drop map_cons mem_cons)

/-! ## The decoder -/

inductive Utf8ErrorKind where
  | InvalidLeadByte
  | InvalidContinuationByte
  | UnexpectedEndOfInput
  | Overlong
  | Surrogate
  | OutOfRange
deriving DecidableEq

structure Utf8Error where
  offset : Nat
  reason : Utf8ErrorKind
deriving DecidableEq

structure Utf8Decoder where
  bytes : List UInt8
  pos : Nat
deriving DecidableEq

def Utf8Decoder.new (bytes : List UInt8) : Utf8Decoder := ⟨bytes, 0⟩

def lead_seq_len (byte : UInt8) : Option Nat :=
  if byte.toNat ≤ 0x7F then some 1
  else if 0xC2 ≤ byte.toNat ∧ byte.toNat ≤ 0xDF then some 2
  else if 0xE0 ≤ byte.toNat ∧ byte.toNat ≤ 0xEF then some 3
  else if 0xF0 ≤ byte.toNat ∧ byte.toNat ≤ 0xF4 then some 4
  else none

def is_continuation (byte : UInt8) : Bool := byte &&& 0xC0 == 0x80

def contains (lo hi byte : UInt8) : Bool := lo ≤ byte && byte ≤ hi

/-- The code point of a whole sequence, or the index of its first bad byte. -/
def code_point : List UInt8 → UInt32 × Option Nat
  | [lead] => (lead.toUInt32, none)
  | [lead, c1] =>
    if !is_continuation c1 then (0, some 1)
    else (((lead.toUInt32 &&& 0x1F) <<< 6) ||| (c1.toUInt32 &&& 0x3F), none)
  | [lead, c1, c2] =>
    let c1_ok :=
      if lead = 0xE0 then contains 0xA0 0xBF c1
      else if lead = 0xED then contains 0x80 0x9F c1
      else is_continuation c1
    if !c1_ok then (0, some 1)
    else if !is_continuation c2 then (0, some 2)
    else (((lead.toUInt32 &&& 0x0F) <<< 12) ||| ((c1.toUInt32 &&& 0x3F) <<< 6) |||
      (c2.toUInt32 &&& 0x3F), none)
  | [lead, c1, c2, c3] =>
    let c1_ok :=
      if lead = 0xF0 then contains 0x90 0xBF c1
      else if lead = 0xF4 then contains 0x80 0x8F c1
      else is_continuation c1
    if !c1_ok then (0, some 1)
    else if !is_continuation c2 then (0, some 2)
    else if !is_continuation c3 then (0, some 3)
    else (((lead.toUInt32 &&& 0x07) <<< 18) ||| ((c1.toUInt32 &&& 0x3F) <<< 12) |||
      ((c2.toUInt32 &&& 0x3F) <<< 6) ||| (c3.toUInt32 &&& 0x3F), none)
  | _ => (0, none)  -- no lead byte asks for another length

/-- `char::from_u32`. -/
def from_u32 (cp : UInt32) : Option Char :=
  if h : cp.isValidChar then some ⟨cp, h⟩ else none

/-- One call: the item, and the decoder after it. -/
def Utf8Decoder.next (d : Utf8Decoder) : Option (Except Utf8Error Char × Utf8Decoder) :=
  match d.bytes.drop d.pos with
  | [] => none
  | lead :: rest =>
    match lead_seq_len lead with
    | none => some (.error ⟨d.pos, .InvalidLeadByte⟩, { d with pos := d.pos + 1 })
    | some seq_len =>
      if d.pos + seq_len > d.bytes.length then
        some (.error ⟨d.pos, .UnexpectedEndOfInput⟩, { d with pos := d.bytes.length })
      else
        match code_point ((lead :: rest).take seq_len) with
        | (_, some bad) =>
          some (.error ⟨d.pos, .InvalidContinuationByte⟩, { d with pos := d.pos + bad + 1 })
        | (cp, none) =>
          let after := { d with pos := d.pos + seq_len }
          if cp > 0x10FFFF then some (.error ⟨d.pos, .OutOfRange⟩, after)
          else
            match from_u32 cp with
            | some c => some (.ok c, after)
            | none => some (.error ⟨d.pos, .Surrogate⟩, after)

/-! ## One sequence -/

theorem is_continuation_iff (b : UInt8) : is_continuation b = true ↔ Tail b := by
  have h : ∀ n < 256, (n &&& 0xC0 = 0x80) ↔ (0x80 ≤ n ∧ n ≤ 0xBF) := by decide +kernel
  unfold is_continuation Tail
  rw [← h b.toNat b.toNat_lt, beq_iff_eq, ← UInt8.toNat_inj, UInt8.toNat_and]
  rfl

theorem contains_iff (lo hi b : UInt8) :
    contains lo hi b = true ↔ lo.toNat ≤ b.toNat ∧ b.toNat ≤ hi.toNat := by
  simp [contains, UInt8.le_iff_toNat_le]

/-- A field of a code point that stands above `k` free bits. -/
theorem field_or {a b k m : Nat} (hb : b < 2 ^ k) (ha : a < 2 ^ m) (hm : m + k ≤ 32) :
    (a <<< k % 2 ^ 32) ||| b = a * 2 ^ k + b := by
  have hlt : a * 2 ^ k < 2 ^ 32 := by
    calc a * 2 ^ k < 2 ^ m * 2 ^ k := (Nat.mul_lt_mul_right (Nat.two_pow_pos k)).2 ha
      _ = 2 ^ (m + k) := (Nat.pow_add 2 m k).symm
      _ ≤ 2 ^ 32 := Nat.pow_le_pow_right (by omega) hm
  rw [Nat.shiftLeft_eq, Nat.mod_eq_of_lt hlt, ← Nat.shiftLeft_eq]
  exact (Nat.shiftLeft_add_eq_or_of_lt hb a).symm

theorem value_two (a b : UInt8) : (((a.toUInt32 &&& 0x1F) <<< 6) ||| (b.toUInt32 &&& 0x3F)).toNat =
      a.toNat % 32 * 64 + b.toNat % 64 := by
  simp only [UInt32.toNat_or, UInt32.toNat_shiftLeft, UInt32.toNat_and, UInt8.toNat_toUInt32,
    UInt32.reduceToNat, reduceMod]
  rw [and_two_pow_sub_one_eq_mod _ 5, and_two_pow_sub_one_eq_mod _ 6]
  exact field_or (m := 5) (mod_lt _ (by decide)) (mod_lt _ (by decide)) (by decide)

theorem value_three (a b d : UInt8) :
    (((a.toUInt32 &&& 0x0F) <<< 12) ||| ((b.toUInt32 &&& 0x3F) <<< 6) |||
        (d.toUInt32 &&& 0x3F)).toNat =
      a.toNat % 16 * 4096 + b.toNat % 64 * 64 + d.toNat % 64 := by
  simp only [UInt32.toNat_or, UInt32.toNat_shiftLeft, UInt32.toNat_and, UInt8.toNat_toUInt32,
    UInt32.reduceToNat, reduceMod]
  rw [and_two_pow_sub_one_eq_mod _ 4, and_two_pow_sub_one_eq_mod _ 6,
    and_two_pow_sub_one_eq_mod _ 6, Nat.or_assoc,
    field_or (k := 6) (m := 6) (mod_lt _ (by decide)) (mod_lt _ (by decide)) (by decide),
    field_or (k := 12) (m := 4) (by omega) (mod_lt _ (by decide)) (by decide)]
  omega

theorem value_four (a b d e : UInt8) :
    (((a.toUInt32 &&& 0x07) <<< 18) ||| ((b.toUInt32 &&& 0x3F) <<< 12) |||
        ((d.toUInt32 &&& 0x3F) <<< 6) ||| (e.toUInt32 &&& 0x3F)).toNat =
      a.toNat % 8 * 262144 + b.toNat % 64 * 4096 + d.toNat % 64 * 64 + e.toNat % 64 := by
  simp only [UInt32.toNat_or, UInt32.toNat_shiftLeft, UInt32.toNat_and, UInt8.toNat_toUInt32,
    UInt32.reduceToNat, reduceMod]
  rw [and_two_pow_sub_one_eq_mod _ 3, and_two_pow_sub_one_eq_mod _ 6,
    and_two_pow_sub_one_eq_mod _ 6, and_two_pow_sub_one_eq_mod _ 6, Nat.or_assoc,
    Nat.or_assoc,
    field_or (k := 6) (m := 6) (mod_lt _ (by decide)) (mod_lt _ (by decide)) (by decide),
    field_or (k := 12) (m := 6) (by omega) (mod_lt _ (by decide)) (by decide),
    field_or (k := 18) (m := 3) (by omega) (mod_lt _ (by decide)) (by decide)]
  omega

variable {a : UInt8} {c : Char} {d' : Utf8Decoder}

theorem lead_seq_len_of_encodes {t : List UInt8}
    (h : String.utf8EncodeChar c = a :: t) : lead_seq_len a = some (t.length + 1) := by
  unfold lead_seq_len
  rcases forms c with ⟨a', h1⟩ | ⟨a', b', h1⟩ | ⟨a', b', d', h1⟩ | ⟨a', b', d', e', h1⟩
  · obtain ⟨rfl, rfl⟩ := List.cons.inj (h.symm.trans h1)
    have := ((encodes_one c a).1 h).1
    simp [this]
  · obtain ⟨rfl, rfl⟩ := List.cons.inj (h.symm.trans h1)
    have := (encodes_two c a _).1 h
    rw [if_neg (by omega), if_pos (by omega)]
    rfl
  · obtain ⟨rfl, rfl⟩ := List.cons.inj (h.symm.trans h1)
    have := (encodes_three c a _ _).1 h
    rw [if_neg (by omega), if_neg (by omega), if_pos (by omega)]
    rfl
  · obtain ⟨rfl, rfl⟩ := List.cons.inj (h.symm.trans h1)
    have := (encodes_four c a _ _ _).1 h
    rw [if_neg (by omega), if_neg (by omega), if_neg (by omega), if_pos (by omega)]
    rfl

theorem code_point_two (a b : UInt8) (v : UInt32) :
    code_point [a, b] = (v, none) ↔ Tail b ∧ v.toNat = a.toNat % 32 * 64 + b.toNat % 64 := by
  rw [← value_two, UInt32.toNat_inj, ← is_continuation_iff]
  simp only [code_point]
  cases is_continuation b <;> simp [eq_comm (b := v)]

theorem code_point_three (a b d : UInt8) (v : UInt32) : code_point [a, b, d] = (v, none) ↔
      (if a = 0xE0 then contains 0xA0 0xBF b else if a = 0xED then contains 0x80 0x9F b
        else is_continuation b) = true ∧ Tail d ∧
        v.toNat = a.toNat % 16 * 4096 + b.toNat % 64 * 64 + d.toNat % 64 := by
  rw [← value_three, UInt32.toNat_inj, ← is_continuation_iff]
  simp only [code_point]
  generalize (if a = 0xE0 then contains 0xA0 0xBF b else if a = 0xED then contains 0x80 0x9F b
    else is_continuation b) = ok
  cases ok <;> cases is_continuation d <;> simp [eq_comm (b := v)]

theorem code_point_four (a b d e : UInt8) (v : UInt32) : code_point [a, b, d, e] = (v, none) ↔
      (if a = 0xF0 then contains 0x90 0xBF b else if a = 0xF4 then contains 0x80 0x8F b
        else is_continuation b) = true ∧ Tail d ∧ Tail e ∧
        v.toNat = a.toNat % 8 * 262144 + b.toNat % 64 * 4096 + d.toNat % 64 * 64 +
          e.toNat % 64 := by
  rw [← value_four, UInt32.toNat_inj, ← is_continuation_iff, ← is_continuation_iff]
  simp only [code_point]
  generalize (if a = 0xF0 then contains 0x90 0xBF b else if a = 0xF4 then contains 0x80 0x8F b
    else is_continuation b) = ok
  cases ok <;> cases is_continuation d <;> cases is_continuation e <;> simp [eq_comm (b := v)]

/-- The second byte's window after a lead byte with a window of its own on each side. -/
theorem window_iff {b l h lo hi : UInt8} (hlh : l ≠ h) (hlo : 0x80 ≤ lo.toNat)
    (hhi : hi.toNat ≤ 0xBF) :
    (if a = l then contains lo 0xBF b else if a = h then contains 0x80 hi b
        else is_continuation b) = true ↔
      Tail b ∧ (a.toNat = l.toNat → lo.toNat ≤ b.toNat) ∧
        (a.toNat = h.toNat → b.toNat ≤ hi.toNat) := by
  have h80 : (0x80 : UInt8).toNat = 0x80 := rfl
  have hBF : (0xBF : UInt8).toNat = 0xBF := rfl
  have hne : l.toNat ≠ h.toNat := fun he => hlh (UInt8.toNat_inj.1 he)
  unfold Tail
  split_ifs with hl hh
  · subst hl
    rw [contains_iff]
    omega
  · subst hh
    rw [contains_iff]
    omega
  · rw [← UInt8.toNat_inj] at hl hh
    rw [is_continuation_iff]
    unfold Tail
    omega

theorem lead_seq_len_range {n : Nat} (h : lead_seq_len a = some n) :
    (n = 1 ∧ a.toNat ≤ 0x7F) ∨ (n = 2 ∧ 0xC2 ≤ a.toNat ∧ a.toNat ≤ 0xDF) ∨
      (n = 3 ∧ 0xE0 ≤ a.toNat ∧ a.toNat ≤ 0xEF) ∨ (n = 4 ∧ 0xF0 ≤ a.toNat ∧ a.toNat ≤ 0xF4) := by
  unfold lead_seq_len at h
  split_ifs at h with h1 h2 h3 h4 <;> cases h
  · exact .inl ⟨rfl, h1⟩
  · exact .inr (.inl ⟨rfl, h2⟩)
  · exact .inr (.inr (.inl ⟨rfl, h3⟩))
  · exact .inr (.inr (.inr ⟨rfl, h4⟩))

/-- A sequence of the length its lead byte asks for has the code point of `c` exactly
when it is the encoding of `c`. -/
theorem code_point_iff (c : Char) {t : List UInt8} (hl : lead_seq_len a = some (t.length + 1)) :
    code_point (a :: t) = (c.val, none) ↔ String.utf8EncodeChar c = a :: t := by
  have hv : c.val.toNat = c.toNat := rfl
  rcases lead_seq_len_range hl with ⟨hn, ha⟩ | ⟨hn, ha⟩ | ⟨hn, ha⟩ | ⟨hn, ha⟩
  · obtain rfl := List.length_eq_zero_iff.1 (Nat.succ.inj hn)
    rw [encodes_one, and_iff_right ha, ← hv, ← UInt8.toNat_toUInt32, UInt32.toNat_inj]
    simp [code_point, eq_comm]
  · obtain ⟨b, rfl⟩ := List.length_eq_one_iff.1 (Nat.succ.inj hn)
    rw [encodes_two, code_point_two, hv, and_iff_right ha.1, and_iff_right ha.2]
  · obtain ⟨b, d, rfl⟩ := List.length_eq_two.1 (Nat.succ.inj hn)
    rw [encodes_three, code_point_three, hv, window_iff (by decide) (by decide) (by decide),
      and_iff_right ha.1, and_iff_right ha.2]
    simp only [UInt8.reduceToNat]
    tauto
  · obtain ⟨b, d, e, rfl⟩ := List.length_eq_three.1 (Nat.succ.inj hn)
    rw [encodes_four, code_point_four, hv, window_iff (by decide) (by decide) (by decide),
      and_iff_right ha.1, and_iff_right ha.2]
    simp only [UInt8.reduceToNat]
    tauto

/-! ## One call -/

theorem code_point_bad {s : List UInt8} {cp : UInt32} {bad : Nat}
    (h : code_point s = (cp, some bad)) : bad < s.length := by
  unfold code_point at h
  split at h
  · cases h
  · split_ifs at h <;> cases h
    simp
  · simp only at h
    split_ifs at h <;> cases h <;> simp
  · simp only at h
    split_ifs at h <;> cases h <;> simp
  · cases h

theorem from_u32_some {cp : UInt32} : from_u32 cp = some c ↔ cp = c.val := by
  unfold from_u32
  split_ifs with h
  · rw [Option.some.injEq, Char.ext_iff]
  · apply iff_of_false
    · intro hc
      cases hc
    · intro hc
      exact h (hc ▸ c.valid)

/-- A call goes forward, and never past the end. -/
theorem next_advances {d : Utf8Decoder} {r : Except Utf8Error Char} (h : d.next = some (r, d')) :
    d'.bytes = d.bytes ∧ d.pos < d'.pos ∧ d'.pos ≤ d.bytes.length := by
  unfold Utf8Decoder.next at h
  split at h
  · cases h
  · rename_i lead rest hrest
    have hlen : d.bytes.length - d.pos = rest.length + 1 := by
      rw [← length_drop, hrest]
      rfl
    split at h
    · cases h
      exact ⟨rfl, Nat.lt_succ_self _, by simp only; omega⟩
    · rename_i seq_len hseq
      have hpos : 0 < seq_len := by
        rcases lead_seq_len_range hseq with hn | hn | hn | hn <;> omega
      split at h
      · cases h
        exact ⟨rfl, by simp only; omega, Nat.le_refl _⟩
      · split at h
        · rename_i bad hcp
          have hbad := code_point_bad hcp
          rw [List.length_take, List.length_cons] at hbad
          cases h
          exact ⟨rfl, by simp only; omega, by simp only; omega⟩
        · simp only at h
          split_ifs at h
          · cases h
            exact ⟨rfl, by simp only; omega, by simp only; omega⟩
          · split at h <;> cases h <;> exact ⟨rfl, by simp only; omega, by simp only; omega⟩

theorem next_eq_none {d : Utf8Decoder} : d.next = none ↔ d.bytes.length ≤ d.pos := by
  rw [← List.drop_eq_nil_iff]
  unfold Utf8Decoder.next
  split
  · simp_all
  · rename_i hrest
    simp only [hrest, reduceCtorEq, iff_false]
    split
    · simp
    split
    · simp
    · split
      · simp
      · split
        · simp
        · split <;> simp

/-- What stands next is read as `c` when it begins with the encoding of `c`. -/
theorem next_complete {d : Utf8Decoder} (h : Begins c (d.bytes.drop d.pos)) :
    d.next = some (.ok c, { d with pos := d.pos + (String.utf8EncodeChar c).length }) := by
  obtain ⟨rest, hrest⟩ := h
  obtain ⟨a, t, hat⟩ := List.exists_cons_of_ne_nil (encodeChar_ne_nil c)
  have hseq := lead_seq_len_of_encodes hat
  have hcp := (code_point_iff c hseq).2 hat
  have hmax : ¬ c.val > 0x10FFFF := by
    have := scalar c
    have hv : c.val.toNat = c.toNat := rfl
    rw [gt_iff_lt, UInt32.lt_iff_toNat_lt, hv]
    simp only [UInt32.reduceToNat]
    omega
  rw [hat, cons_append] at hrest
  have hlen := congrArg length hrest
  rw [length_drop, List.length_cons, List.length_append] at hlen
  unfold Utf8Decoder.next
  rw [← hrest]
  simp only [hseq]
  rw [if_neg (by omega), ← cons_append, List.take_left' (by simp), hcp]
  simp only
  rw [if_neg hmax, from_u32_some.2 rfl, hat]
  rfl

/-- What is read as `c` is the encoding of `c`. -/
theorem next_sound {d : Utf8Decoder} (h : d.next = some (.ok c, d')) :
    Begins c (d.bytes.drop d.pos) := by
  unfold Utf8Decoder.next at h
  split at h
  · cases h
  · rename_i lead rest hrest
    have hlen : d.bytes.length - d.pos = rest.length + 1 := by
      rw [← length_drop, hrest]
      rfl
    split at h
    · cases h
    · rename_i seq_len hseq
      split at h
      · cases h
      · split at h
        · cases h
        · rename_i cp hcp
          simp only at h
          split_ifs at h
          · cases h
          split at h
          · rename_i c' hc'
            cases h
            obtain rfl := from_u32_some.1 hc'
            obtain ⟨n, rfl⟩ : ∃ n, seq_len = n + 1 := by
              rcases lead_seq_len_range hseq with hn | hn | hn | hn
              · exact ⟨0, hn.1⟩
              · exact ⟨1, hn.1⟩
              · exact ⟨2, hn.1⟩
              · exact ⟨3, hn.1⟩
            rw [List.take_succ_cons] at hcp
            have hn : (rest.take n).length = n := by
              rw [List.length_take]
              omega
            rw [code_point_iff _ (by rw [hn, hseq])] at hcp
            rw [hrest]
            refine ⟨rest.drop n, ?_⟩
            rw [hcp, cons_append, List.take_append_drop]
          · cases h

theorem next_error_offset {d : Utf8Decoder} {e : Utf8Error}
    (h : d.next = some (.error e, d')) : e.offset = d.pos := by
  unfold Utf8Decoder.next at h
  split at h
  · cases h
  · split at h
    · cases h
      rfl
    · split at h
      · cases h
        rfl
      · split at h
        · cases h
          rfl
        · simp only at h
          split_ifs at h
          · cases h
            rfl
          · split at h
            · cases h
            · cases h
              rfl

/-! ## The whole run -/

/-- What one call gave, with the range it consumed. -/
structure Item where
  start : Nat
  stop : Nat
  result : Except Utf8Error Char

def Item.range (i : Item) : Nat × Nat := (i.start, i.stop)

/-- The items of the calls until there is none. -/
def Utf8Decoder.items (d : Utf8Decoder) : List Item :=
  match _h : d.next with
  | none => []
  | some (r, d') => ⟨d.pos, d'.pos, r⟩ :: d'.items
termination_by d.bytes.length - d.pos
decreasing_by
  have := next_advances _h
  rw [this.1]
  omega

theorem items_none {d : Utf8Decoder} (h : d.next = none) : d.items = [] := by
  unfold Utf8Decoder.items
  split
  · rfl
  · simp_all

theorem items_some {d : Utf8Decoder} {r : Except Utf8Error Char}
    (h : d.next = some (r, d')) : d.items = ⟨d.pos, d'.pos, r⟩ :: d'.items := by
  rw [Utf8Decoder.items]
  split
  · simp_all
  · rename_i hd
    rw [h] at hd
    cases hd
    rfl

theorem run_induction {P : Utf8Decoder → Prop} (done : ∀ d, d.next = none → P d)
    (call : ∀ d d' r, d.next = some (r, d') → P d' → P d) (d : Utf8Decoder) : P d := by
  generalize hn : d.bytes.length - d.pos = n
  induction n using Nat.strongRecOn generalizing d with
  | ind n ih =>
    cases h : d.next with
    | none => exact done d h
    | some p =>
      have hadv := next_advances h
      refine call d p.2 p.1 h (ih _ ?_ p.2 rfl)
      rw [hadv.1]
      omega

variable (d : Utf8Decoder)

theorem items_tile (hd : d.pos ≤ d.bytes.length) :
    Tiles d.pos d.bytes.length (d.items.map Item.range) := by
  induction d using run_induction with
  | done d h =>
    rw [items_none h, ← Nat.le_antisymm (next_eq_none.1 h) hd]
    exact Tiles.nil _
  | call d d' r h ih =>
    have hadv := next_advances h
    rw [items_some h]
    apply Tiles.cons hadv.2.1
    rw [← hadv.1]
    apply ih
    rw [hadv.1]
    exact hadv.2.2

theorem items_sound : ∀ i ∈ d.items, ∀ c, i.result = .ok c →
      (d.bytes.drop i.start).take (i.stop - i.start) = String.utf8EncodeChar c := by
  induction d using run_induction with
  | done d h =>
    rw [items_none h]
    simp
  | call d d' r h ih =>
    rw [items_some h]
    rw [(next_advances h).1] at ih
    intro i hi c hc
    rcases mem_cons.1 hi with rfl | hi
    · simp only at hc
      subst hc
      have hb := next_sound h
      rw [next_complete hb] at h
      cases h
      simp only
      rw [Nat.add_sub_cancel_left]
      exact (List.prefix_iff_eq_take.1 hb).symm
    · exact ih i hi c hc

theorem items_errors : ∀ i ∈ d.items, ∀ e, i.result = .error e →
      e.offset = i.start ∧ ∀ c, ¬ Begins c (d.bytes.drop e.offset) := by
  induction d using run_induction with
  | done d h =>
    rw [items_none h]
    simp
  | call d d' r h ih =>
    rw [items_some h]
    rw [(next_advances h).1] at ih
    intro i hi e he
    rcases mem_cons.1 hi with rfl | hi
    · simp only at he
      subst he
      refine ⟨next_error_offset h, ?_⟩
      intro c hc
      rw [next_error_offset h] at hc
      rw [next_complete hc] at h
      cases h
    · exact ih i hi e he

/-- The items are all characters when the rest is the encoding of these characters,
and the other way round. -/
theorem items_ok_iff (cs : List Char) :
    d.items.map Item.result = cs.map .ok ↔ encode cs = d.bytes.drop d.pos := by
  induction d using run_induction generalizing cs with
  | done d h =>
    rw [items_none h, List.drop_eq_nil_of_le (next_eq_none.1 h)]
    cases cs with
    | nil => simp
    | cons c cs => simp
  | call d d' r h ih =>
    have hlt : d.pos < d.bytes.length := by
      have := next_advances h
      omega
    rw [items_some h]
    cases cs with
    | nil =>
      apply iff_of_false
      · simp
      · intro he
        have := congrArg length he
        rw [length_drop, encode_nil, List.length_nil] at this
        omega
    | cons c cs =>
      rw [map_cons, map_cons, List.cons.injEq, ih cs, encode_cons]
      constructor
      · rintro ⟨rfl, hcs⟩
        have hb := next_sound h
        rw [next_complete hb] at h
        cases h
        obtain ⟨rest, hrest⟩ := hb
        rw [hcs, ← List.drop_drop, ← hrest, List.drop_left]
      · intro he
        have hb : Begins c (d.bytes.drop d.pos) := ⟨encode cs, he⟩
        rw [next_complete hb] at h
        cases h
        refine ⟨rfl, ?_⟩
        rw [← List.drop_drop, ← he, List.drop_left]

theorem items_all_ok_iff :
    (∀ i ∈ d.items, ∃ c, i.result = .ok c) ↔ ∃ cs : List Char, d.items.map Item.result = cs.map .ok := by
  generalize d.items = l
  induction l with
  | nil =>
    apply iff_of_true
    · simp
    · exact ⟨[], rfl⟩
  | cons i l ih =>
    rw [List.forall_mem_cons, ih]
    constructor
    · rintro ⟨⟨c, hc⟩, cs, hcs⟩
      exact ⟨c :: cs, by simp [hc, hcs]⟩
    · rintro ⟨cs, hcs⟩
      cases cs with
      | nil => cases hcs
      | cons c cs =>
        rw [map_cons, map_cons, List.cons.injEq] at hcs
        exact ⟨⟨c, hcs.1⟩, cs, hcs.2⟩

/-- The decoder reads every input as RFC 3629 says: its items tile the input, they are
all characters exactly on well-formed input, and then these characters encode to it. A
character's range is its shortest form, and an error stands where no character begins. -/
theorem decoder_conforms (bytes : List UInt8) :
    Tiles 0 bytes.length ((Utf8Decoder.new bytes).items.map Item.range) ∧
      ((∀ i ∈ (Utf8Decoder.new bytes).items, ∃ c, i.result = .ok c) ↔ WellFormed bytes) ∧
      (∀ cs, (Utf8Decoder.new bytes).items.map Item.result = cs.map .ok → encode cs = bytes) ∧
      (∀ i ∈ (Utf8Decoder.new bytes).items, ∀ c, i.result = .ok c →
        (bytes.drop i.start).take (i.stop - i.start) = String.utf8EncodeChar c) ∧
      ∀ i ∈ (Utf8Decoder.new bytes).items, ∀ e, i.result = .error e →
        e.offset = i.start ∧ ∀ c, ¬ Begins c (bytes.drop e.offset) := by
  have hok := items_ok_iff (Utf8Decoder.new bytes)
  refine ⟨items_tile (Utf8Decoder.new bytes) (Nat.zero_le _), ?_, fun cs => (hok cs).1,
    items_sound (Utf8Decoder.new bytes), items_errors (Utf8Decoder.new bytes)⟩
  rw [items_all_ok_iff]
  exact exists_congr hok

end paideia_as_unicode
