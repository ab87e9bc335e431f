-- The bytes of a text by position: where a character begins, and what follows it.
import PaideiaAs.Lib.Utf8

namespace Utf8

/-! ## Positions -/

/-- The number of bytes of a text. -/
def size (cs : List Char) : Nat := (encode cs).length

/-- The text from a byte position on; none unless a character begins or the text ends there. -/
def suffixAt : List Char → Nat → Option (List Char)
  | cs, 0 => some cs
  | [], _ + 1 => none
  | c :: cs, n + 1 => if c.utf8Size ≤ n + 1 then suffixAt cs (n + 1 - c.utf8Size) else none

@[simp] theorem size_nil : size [] = 0 := rfl

variable (c : Char)

@[simp] theorem size_cons (cs : List Char) : size (c :: cs) = c.utf8Size + size cs := by
  unfold size
  rw [encode_cons, List.length_append, String.length_utf8EncodeChar]

theorem size_append (cs ds : List Char) : size (cs ++ ds) = size cs + size ds := by
  unfold size
  rw [encode_append, List.length_append]

variable {cs : List Char} {n : Nat} {b : UInt8} {bs : List UInt8}

theorem size_pos (h : cs ≠ []) : 0 < size cs := by
  cases cs with
  | nil => exact absurd rfl h
  | cons c cs =>
    have := Char.utf8Size_pos c
    rw [size_cons]
    omega

theorem suffixAt_append (pre post : List Char) : suffixAt (pre ++ post) (size pre) = some post := by
  induction pre with
  | nil =>
    cases post with
    | nil => rfl
    | cons c cs => rfl
  | cons c pre ih =>
    obtain ⟨n, hn⟩ : ∃ n, c.utf8Size = n + 1 :=
      Nat.exists_eq_succ_of_ne_zero (Nat.ne_of_gt (Char.utf8Size_pos c))
    have hsum : size (c :: pre) = (n + size pre) + 1 := by
      rw [size_cons]
      omega
    have hrest : n + size pre + 1 - c.utf8Size = size pre := by omega
    rw [hsum, List.cons_append, suffixAt, if_pos (by omega), hrest, ih]

theorem suffixAt_some {post : List Char} (h : suffixAt cs n = some post) :
    ∃ pre, cs = pre ++ post ∧ n = size pre := by
  induction cs generalizing n with
  | nil =>
    cases n with
    | zero =>
      obtain rfl := Option.some.inj h
      exact ⟨[], rfl, rfl⟩
    | succ n => cases h
  | cons c cs ih =>
    cases n with
    | zero =>
      obtain rfl := Option.some.inj h
      exact ⟨[], rfl, rfl⟩
    | succ n =>
      unfold suffixAt at h
      split at h
      next hle =>
        obtain ⟨pre, rfl, hn⟩ := ih h
        refine ⟨c :: pre, rfl, ?_⟩
        rw [size_cons]
        omega
      next => cases h

theorem drop_encode (pre post : List Char) :
    (encode (pre ++ post)).drop (size pre) = encode post := by
  unfold size
  rw [encode_append, List.drop_left]

/-! ## Lead bytes -/

/-- The length of the encoding that a lead byte announces. -/
def width (b : UInt8) : Nat :=
  if b.toNat < 0x80 then 1 else if b.toNat < 0xE0 then 2 else if b.toNat < 0xF0 then 3 else 4

instance (b : UInt8) : Decidable (Tail b) := by
  unfold Tail
  exact inferInstance

theorem width_pos (b : UInt8) : 0 < width b := by
  unfold width
  split_ifs <;> decide

/-- The first byte tells how many others follow it, and they are tails. -/
theorem encodeChar_cases : ∃ a t, String.utf8EncodeChar c = a :: t ∧ ¬Tail a ∧
    (∀ b ∈ t, Tail b) ∧ t.length + 1 = width a ∧ (a.toNat < 0x80 → t = [] ∧ c.toNat = a.toNat) := by
  rcases forms c with ⟨a, h⟩ | ⟨a, b, h⟩ | ⟨a, b, d, h⟩ | ⟨a, b, d, e, h⟩
  · obtain ⟨ha, hc⟩ := (encodes_one c a).1 h
    refine ⟨a, [], h, ?_, by simp, ?_, fun _ => ⟨rfl, hc⟩⟩
    · unfold Tail
      omega
    · unfold width
      rw [if_pos (by omega)]
      rfl
  · obtain ⟨ha, ha', hb, -⟩ := (encodes_two c a b).1 h
    refine ⟨a, [b], h, ?_, by simpa using hb, ?_, fun _ => by omega⟩
    · unfold Tail
      omega
    · unfold width
      rw [if_neg (by omega), if_pos (by omega)]
      rfl
  · obtain ⟨ha, ha', hb, hd, -⟩ := (encodes_three c a b d).1 h
    refine ⟨a, [b, d], h, ?_, by simpa using ⟨hb, hd⟩, ?_, fun _ => by omega⟩
    · unfold Tail
      omega
    · unfold width
      rw [if_neg (by omega), if_neg (by omega), if_pos (by omega)]
      rfl
  · obtain ⟨ha, ha', hb, hd, he, -⟩ := (encodes_four c a b d e).1 h
    refine ⟨a, [b, d, e], h, ?_, by simpa using ⟨hb, hd, he⟩, ?_, fun _ => by omega⟩
    · unfold Tail
      omega
    · unfold width
      rw [if_neg (by omega), if_neg (by omega), if_neg (by omega)]
      rfl

theorem wellFormed_encode (cs : List Char) : WellFormed (encode cs) := ⟨cs, rfl⟩

theorem wellFormed_nil : WellFormed [] := ⟨[], rfl⟩

/-- A text that is not empty begins with a lead byte, and goes on behind its character. -/
theorem WellFormed.cases {b : UInt8} {bs : List UInt8} (h : WellFormed (b :: bs)) :
    ¬Tail b ∧ ∃ t post, bs = t ++ post ∧ t.length + 1 = width b ∧ (∀ x ∈ t, Tail x) ∧
      (b.toNat < 0x80 → t = []) ∧ WellFormed post := by
  obtain ⟨cs, hcs⟩ := h
  cases cs with
  | nil => cases hcs
  | cons c cs =>
    obtain ⟨a, t, henc, ha, ht, hw, hlow⟩ := encodeChar_cases c
    rw [encode_cons, henc, List.cons_append, List.cons.injEq] at hcs
    obtain ⟨rfl, rfl⟩ := hcs
    exact ⟨ha, t, encode cs, rfl, hw, ht, fun h => (hlow h).1, wellFormed_encode cs⟩

theorem WellFormed.head (h : WellFormed (b :: bs)) : ¬Tail b :=
  h.cases.1

/-- Behind a byte of ASCII a character begins. -/
theorem WellFormed.tail (h : WellFormed (b :: bs)) (hb : b.toNat < 0x80) : WellFormed bs := by
  obtain ⟨-, t, post, rfl, -, -, hnil, hpost⟩ := h.cases
  rw [hnil hb, List.nil_append]
  exact hpost

theorem WellFormed.drop_ascii {post : List UInt8} (h : WellFormed (bs ++ post))
    (hbs : ∀ b ∈ bs, b.toNat < 0x80) : WellFormed post := by
  induction bs with
  | nil => exact h
  | cons b bs ih =>
    exact ih (h.tail (hbs b (.head _))) fun x hx => hbs x (.tail b hx)

/-- Behind the character of a lead byte the next one begins. -/
theorem WellFormed.drop_width (h : WellFormed (b :: bs)) :
    width b ≤ (b :: bs).length ∧ WellFormed ((b :: bs).drop (width b)) := by
  obtain ⟨-, t, post, rfl, hw, -, -, hpost⟩ := h.cases
  rw [← hw, List.drop_succ_cons, List.drop_left]
  refine ⟨?_, hpost⟩
  rw [List.length_cons, List.length_append]
  omega

/-- A character begins at every position but those of tails. -/
theorem WellFormed.drop (h : WellFormed bs) (hn : ∀ b ∈ (bs.drop n).head?, ¬Tail b) :
    WellFormed (bs.drop n) := by
  obtain ⟨cs, rfl⟩ := h
  induction cs generalizing n with
  | nil =>
    rw [encode_nil, List.drop_nil]
    exact wellFormed_nil
  | cons c cs ih =>
    obtain ⟨a, t, henc, -, ht, -⟩ := encodeChar_cases c
    rw [encode_cons, henc] at hn ⊢
    by_cases hlt : n < (a :: t).length
    · rw [List.drop_append_of_le_length (Nat.le_of_lt hlt)] at hn ⊢
      cases n with
      | zero =>
        rw [List.drop_zero, ← henc, ← encode_cons]
        exact wellFormed_encode _
      | succ n =>
        -- inside the character
        have hlt' : n < t.length := Nat.lt_of_succ_lt_succ hlt
        rw [List.drop_succ_cons, List.drop_eq_getElem_cons hlt', List.cons_append,
          List.head?_cons] at hn
        exact absurd (ht _ (List.getElem_mem hlt')) (hn _ rfl)
    · have hle : (a :: t).length ≤ n := Nat.not_lt.1 hlt
      rw [List.drop_append, List.drop_eq_nil_of_le hle, List.nil_append] at hn ⊢
      exact ih hn

/-- A position where a text can go on splits the text. -/
theorem split_of_wellFormed (hn : n ≤ size cs)
    (h : WellFormed ((encode cs).drop n)) : ∃ pre post, cs = pre ++ post ∧ n = size pre := by
  induction cs generalizing n with
  | nil => exact ⟨[], [], rfl, Nat.le_zero.1 hn⟩
  | cons c cs ih =>
    obtain ⟨a, t, henc, -, ht, -⟩ := encodeChar_cases c
    have hlen : (a :: t).length = c.utf8Size := by rw [← henc, String.length_utf8EncodeChar]
    rw [encode_cons, henc] at h
    by_cases hlt : n < (a :: t).length
    · cases n with
      | zero => exact ⟨[], c :: cs, rfl, rfl⟩
      | succ n =>
        -- inside the character
        have hlt' : n < t.length := Nat.lt_of_succ_lt_succ hlt
        rw [List.drop_append_of_le_length (Nat.le_of_lt hlt), List.drop_succ_cons,
          List.drop_eq_getElem_cons hlt', List.cons_append] at h
        exact absurd (ht _ (List.getElem_mem hlt')) h.head
    · have hle : (a :: t).length ≤ n := Nat.not_lt.1 hlt
      rw [size_cons, ← hlen] at hn
      rw [List.drop_append, List.drop_eq_nil_of_le hle, List.nil_append] at h
      obtain ⟨pre, post, rfl, hpre⟩ := ih (by omega) h
      refine ⟨c :: pre, post, rfl, ?_⟩
      rw [size_cons, ← hlen, ← hpre]
      omega

/-- A beginning of a text, not empty, with `n` bytes. -/
def Takes (text : List Char) (n : Nat) : Prop :=
  ∃ pre post, text = pre ++ post ∧ pre ≠ [] ∧ n = size pre

theorem takes_of_wellFormed {text : List Char} (hpos : 0 < n) (hn : n ≤ size text)
    (h : WellFormed ((encode text).drop n)) : Takes text n := by
  obtain ⟨pre, post, heq, hpre⟩ := split_of_wellFormed hn h
  refine ⟨pre, post, heq, ?_, hpre⟩
  rintro rfl
  rw [size_nil] at hpre
  omega

theorem takes_cons (cs : List Char) : Takes (c :: cs) c.utf8Size :=
  ⟨[c], cs, rfl, by simp, by simp⟩

theorem takes_takeWhile (cs : List Char) (p : Char → Bool) :
    Takes (c :: cs) (size (c :: cs.takeWhile p)) :=
  ⟨c :: cs.takeWhile p, cs.dropWhile p,
    by rw [List.cons_append, List.takeWhile_append_dropWhile], by simp, rfl⟩

theorem size_ascii (h : ∀ c ∈ cs, c.toNat < 0x80) : size cs = cs.length := by
  induction cs with
  | nil => rfl
  | cons c cs ih =>
    have hc : c.utf8Size = 1 := by
      rw [Char.utf8Size_eq_one_iff, UInt32.le_iff_toNat_le]
      exact Nat.le_of_lt_succ (h c (.head _))
    rw [size_cons, hc, ih fun d hd => h d (List.mem_cons_of_mem c hd), List.length_cons,
      Nat.add_comm]

theorem takes_ascii {text : List Char} (hpos : 0 < n) (hn : n ≤ text.length)
    (h : ∀ c ∈ text.take n, c.toNat < 0x80) : Takes text n := by
  have hlen : (text.take n).length = n := by rw [List.length_take, Nat.min_eq_left hn]
  refine ⟨text.take n, text.drop n, (List.take_append_drop n text).symm, ?_, ?_⟩
  · intro hnil
    rw [hnil] at hlen
    simp at hlen
    omega
  · rw [size_ascii h, hlen]

end Utf8
