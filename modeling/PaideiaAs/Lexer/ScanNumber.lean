-- Integer literals as the lexer scans them: base, digits with underscores, and
-- a type suffix.
import PaideiaAs.Lib.Radix

namespace paideia_as_lexer

open Radix
open Bool (and_eq_true or_eq_true)

/-! ## The scanner -/

/-- The base, and the text after its mark. -/
def base_and_digits : List Char → Nat × List Char
  | '0' :: c :: rest =>
    if c = 'x' ∨ c = 'X' then (16, rest)
    else if c = 'b' ∨ c = 'B' then (2, rest)
    else if c = 'o' ∨ c = 'O' then (8, rest)
    else (10, '0' :: c :: rest)
  | text => (10, text)

/-- Digits, and underscores after the first digit. -/
def scan_int_part (base : Nat) : Bool → List Char → List Char × List Char
  | _, [] => ([], [])
  | has_digit, c :: cs =>
    if (toDigit base c).isSome then (c :: (scan_int_part base true cs).1, (scan_int_part base true cs).2)
    else if c = '_' ∧ has_digit = true then
      (c :: (scan_int_part base true cs).1, (scan_int_part base true cs).2)
    else ([], c :: cs)

/-- A point with a digit after it, or an exponent. -/
def is_float : List Char → Bool
  | '.' :: c :: _ => (toDigit 10 c).isSome
  | c :: _ => c = 'e' || c = 'E'
  | [] => false

/-- The suffixes with their largest values. -/
def valid_suffixes : List (List Char × Nat) :=
  [(['u', '8'], 255), (['u', '1', '6'], 65535), (['u', '3', '2'], 4294967295),
    (['u', '6', '4'], 18446744073709551615), (['u', '1', '2', '8'], 2 ^ 128 - 1),
    (['u', 's', 'i', 'z', 'e'], 18446744073709551615), (['i', '8'], 127), (['i', '1', '6'], 32767),
    (['i', '3', '2'], 2147483647), (['i', '6', '4'], 9223372036854775807),
    (['i', '1', '2', '8'], 2 ^ 127 - 1), (['i', 's', 'i', 'z', 'e'], 9223372036854775807)]

/-- The suffix is known, and the value is not too large for it. -/
def suffix_ok (suffix : List Char) (value : Nat) : Bool :=
  suffix = [] || valid_suffixes.any fun s => s.1 = suffix && value ≤ s.2

/-- The value of a text that is one integer token without a diagnostic. -/
def int_literal (text : List Char) : Option Nat :=
  let (base, after) := base_and_digits text
  let (int_text, rest) := scan_int_part base false after
  match natural base (int_text.filter (· ≠ '_')) with
  | some value =>
    if (text.head?.any fun c => (toDigit 10 c).isSome) && !is_float rest && suffix_ok rest value then
      some value
    else none
  | none => none

/-- Digits only: neither underscore nor suffix. -/
def plain (text : List Char) : Bool :=
  (base_and_digits text).2.all fun c => (toDigit (base_and_digits text).1 c).isSome

/-! ## What the scanner accepts -/

theorem scan_int_part_append (base : Nat) (b : Bool) (cs : List Char) :
    (scan_int_part base b cs).1 ++ (scan_int_part base b cs).2 = cs := by
  induction cs generalizing b with
  | nil => rfl
  | cons c cs ih =>
    unfold scan_int_part
    split_ifs
    · simp [ih]
    · simp [ih]
    · rfl

theorem scan_int_part_chars (base : Nat) (b : Bool) (cs : List Char) :
    ∀ c ∈ (scan_int_part base b cs).1, (toDigit base c).isSome ∨ c = '_' := by
  induction cs generalizing b with
  | nil =>
    intro c hc
    cases hc
  | cons a cs ih =>
    unfold scan_int_part
    split_ifs with h1 h2
    · intro c hc
      rcases List.mem_cons.mp hc with rfl | hc
      · exact .inl h1
      · exact ih true c hc
    · intro c hc
      rcases List.mem_cons.mp hc with rfl | hc
      · exact .inr h2.1
      · exact ih true c hc
    · intro c hc
      cases hc

variable {suffix text : List Char} {value base v : Nat}

theorem suffix_chars (h : suffix_ok suffix value = true) : ∀ c ∈ suffix, c ≠ '+' := by
  unfold suffix_ok at h
  rcases or_eq_true _ _ ▸ h with h | h
  · have : suffix = [] := by simpa using h
    simp [this]
  · obtain ⟨s, hs, hval⟩ := List.any_eq_true.mp h
    have heq : s.1 = suffix := by
      simp only [and_eq_true, decide_eq_true_eq] at hval
      exact hval.1
    rw [← heq]
    have htable : ∀ s ∈ valid_suffixes, ∀ c ∈ s.1, c ≠ '+' := by
      simp [valid_suffixes]
    exact htable s hs

theorem suffix_head (h : suffix_ok suffix value = true)
    (hbase : base ≤ 16) (hne : suffix ≠ []) : ∃ c ∈ suffix, toDigit base c = none := by
  unfold suffix_ok at h
  rcases or_eq_true _ _ ▸ h with h | h
  · exact absurd (by simpa using h) hne
  · obtain ⟨s, hs, hval⟩ := List.any_eq_true.mp h
    have heq : s.1 = suffix := by
      simp only [and_eq_true, decide_eq_true_eq] at hval
      exact hval.1
    have htable : ∀ s ∈ valid_suffixes, ∃ c ∈ s.1, c = 'u' ∨ c = 'i' := by
      simp [valid_suffixes]
    obtain ⟨c, hc, hui⟩ := htable s hs
    refine ⟨c, heq ▸ hc, ?_⟩
    rcases hui with rfl | rfl
    · have : ¬ (30 : Nat) < base := by omega
      simp [toDigit, this]
    · have : ¬ (18 : Nat) < base := by omega
      simp [toDigit, this]

/-- An accepted literal: a digit first, no sign anywhere, and either digits
alone or a character that no reader takes for a digit. -/
theorem int_literal_parts (h : int_literal text = some value) :
    (text.head?.any fun c => (toDigit 10 c).isSome) = true ∧
      (base_and_digits text).1 ≤ 16 ∧
      (∀ c ∈ (base_and_digits text).2, c ≠ '+') ∧
      (plain text = true → natural (base_and_digits text).1 (base_and_digits text).2 = some value) ∧
      (plain text = false →
        ∃ c ∈ (base_and_digits text).2, toDigit (base_and_digits text).1 c = none) := by
  have hbase : (base_and_digits text).1 ≤ 16 := by
    unfold base_and_digits
    split
    · split_ifs <;> simp
    · simp
  unfold int_literal at h
  dsimp only at h
  generalize hb : (base_and_digits text).1 = base at *
  generalize ha : (base_and_digits text).2 = after at *
  have happ := scan_int_part_append base false after
  have hchars := scan_int_part_chars base false after
  split at h
  · rename_i v hv
    split_ifs at h with hok
    cases h
    simp only [and_eq_true, Bool.not_eq_true'] at hok
    obtain ⟨⟨hhead, _⟩, hsuf⟩ := hok
    have hplain : plain text = after.all fun c => (toDigit base c).isSome := by
      rw [plain, hb, ha]
    refine ⟨hhead, hbase, ?_, ?_, ?_⟩
    · intro c hc
      rw [← happ] at hc
      rcases List.mem_append.mp hc with hc | hc
      · rintro rfl
        rcases hchars _ hc with h1 | h1
        · simp [toDigit] at h1
        · simp at h1
      · exact suffix_chars hsuf c hc
    · intro hp
      rw [hplain, List.all_eq_true] at hp
      have hrest : (scan_int_part base false after).2 = [] := by
        by_contra hne
        obtain ⟨c, hc, hnone⟩ := suffix_head hsuf hbase hne
        have := hp c (by rw [← happ]; exact List.mem_append_right _ hc)
        simp [hnone] at this
      have hint : (scan_int_part base false after).1 = after := by
        rw [hrest, List.append_nil] at happ
        exact happ
      rw [hint] at hv
      rw [← hv]
      congr 1
      refine (List.filter_eq_self.mpr fun c hc => ?_).symm
      have := hp c hc
      simp only [ne_eq, decide_not, Bool.not_eq_eq_eq_not, Bool.not_true, decide_eq_false_iff_not]
      rintro rfl
      simp [toDigit] at this
    · intro hp
      rw [hplain, List.all_eq_false] at hp
      obtain ⟨c, hc, hnot⟩ := hp
      exact ⟨c, hc, by simpa using hnot⟩
  · cases h

theorem base_and_digits_cases (text : List Char) :
    (base_and_digits text = (10, text) ∧ ∀ c rest, text = '0' :: c :: rest →
      c ≠ 'x' ∧ c ≠ 'X' ∧ c ≠ 'b' ∧ c ≠ 'B' ∧ c ≠ 'o' ∧ c ≠ 'O') ∨
    ∃ c rest, text = '0' :: c :: rest ∧
      ((c = 'x' ∨ c = 'X') ∧ base_and_digits text = (16, rest) ∨
        (c = 'b' ∨ c = 'B') ∧ base_and_digits text = (2, rest) ∨
        (c = 'o' ∨ c = 'O') ∧ base_and_digits text = (8, rest)) := by
  unfold base_and_digits
  split
  · rename_i c rest
    split_ifs with hx hb ho
    · exact .inr ⟨c, rest, rfl, .inl ⟨hx, rfl⟩⟩
    · exact .inr ⟨c, rest, rfl, .inr (.inl ⟨hb, rfl⟩)⟩
    · exact .inr ⟨c, rest, rfl, .inr (.inr ⟨ho, rfl⟩)⟩
    · refine .inl ⟨rfl, ?_⟩
      intro c' rest' heq
      obtain ⟨rfl, rfl⟩ : c = c' ∧ rest = rest' := by simpa using heq
      tauto
  · rename_i hne
    refine .inl ⟨rfl, ?_⟩
    intro c rest heq
    exact absurd heq (hne c rest)

/-! ## The whole scan

`scan_number` sees the text from the number on, with all that follows it. -/

inductive TokenKind where
  | IntLit
  | FloatLit
  deriving DecidableEq

/-- An error of code E0006, with its span. -/
structure Diagnostic where
  message : String
  start : Nat
  stop : Nat
  deriving DecidableEq

structure NumberScan where
  kind : TokenKind
  byte_len : Nat
  diagnostic : Option Diagnostic
  deriving DecidableEq

/-- Lower-case letters and underscores, and digits after the first of them. -/
def scan_suffix : Bool → List Char → List Char × List Char
  | _, [] => ([], [])
  | first, c :: cs =>
    if c.isLower = true ∨ c = '_' ∨ (first = false ∧ (toDigit 10 c).isSome) then
      (c :: (scan_suffix false cs).1, (scan_suffix false cs).2)
    else ([], c :: cs)

def scan_float_part (content : List Char) (int_len int_start : Nat) : Nat × Option Diagnostic :=
  let point : List Char → Nat
    | '.' :: cs => 1 + (scan_int_part 10 false cs).1.length
    | _ => 0
  let sign : List Char → Nat
    | c :: _ => if c = '+' ∨ c = '-' then 1 else 0
    | [] => 0
  let exponent : List Char → Nat
    | c :: cs =>
      if c = 'e' ∨ c = 'E' then
        1 + sign cs + (scan_int_part 10 false (cs.drop (sign cs))).1.length
      else 0
    | [] => 0
  let len := int_len + point (content.drop int_len)
  let len := len + exponent (content.drop len)
  let suffix := (scan_suffix true (content.drop len)).1
  (len + suffix.length, if suffix ≠ [] ∧ suffix ≠ ['f', '3', '2'] ∧ suffix ≠ ['f', '6', '4'] then
      some ⟨"invalid float suffix", int_start + len, int_start + (len + suffix.length)⟩
    else none)

def validate_number_and_overflow (int_start : Nat) (int_text : List Char) (base : Nat)
    (suffix : List Char) (stop : Nat) : Option Diagnostic :=
  if suffix = [] then none
  else
    match valid_suffixes.find? fun s => s.1 = suffix with
    | none =>
      some ⟨"unknown integer suffix '" ++ String.ofList suffix ++ "'", int_start, stop⟩
    | some (_, max_val) =>
      let clean_int := int_text.filter (· ≠ '_')
      match unsigned 128 base clean_int with
      | some val =>
        if val > max_val then
          some ⟨"number " ++ String.ofList clean_int ++ " is too large for type '" ++
            String.ofList suffix ++ "'", int_start, stop⟩
        else none
      | none => some ⟨"invalid number literal", int_start, stop⟩

/-- The length of the base mark. -/
def mark_len (text : List Char) : Nat := text.length - (base_and_digits text).2.length

def scan_number (rest : List Char) (byte_offset : Nat) : NumberScan :=
  let (base, after) := base_and_digits rest
  let mark := mark_len rest
  let (int_part, after_int) := scan_int_part base false after
  let int_len := int_part.length
  if is_float after_int then
    let (flt_len, diag) := scan_float_part after int_len (byte_offset + mark)
    ⟨.FloatLit, mark + flt_len, diag⟩
  else if mark > 0 ∧ (int_part.any fun c => (toDigit base c).isSome) = false then
    ⟨.IntLit, mark + int_len,
      some ⟨"number literal requires at least one digit after base prefix", byte_offset,
        byte_offset + mark⟩⟩
  else
    let suffix := (scan_suffix true after_int).1
    ⟨.IntLit, mark + (int_len + suffix.length),
      validate_number_and_overflow (byte_offset + mark) int_part base suffix
        (byte_offset + (mark + int_len + suffix.length))⟩

/-- A text that `scan_number` takes as one integer token without a diagnostic,
with some text after it. The dispatcher has seen a digit. -/
def IsIntToken (text : List Char) : Prop :=
  ∃ rest byte_offset, ((text ++ rest).head?.any fun c => (toDigit 10 c).isSome) = true ∧
    scan_number (text ++ rest) byte_offset = ⟨.IntLit, text.length, none⟩

/-- The value of a token's digits in its base. -/
def digit_value (text : List Char) : Nat :=
  let (base, after) := base_and_digits text
  (natural base ((scan_int_part base false after).1.filter (· ≠ '_'))).getD 0

theorem scan_suffix_append (first : Bool) (cs : List Char) :
    (scan_suffix first cs).1 ++ (scan_suffix first cs).2 = cs := by
  induction cs generalizing first with
  | nil => rfl
  | cons c cs ih =>
    unfold scan_suffix
    split_ifs
    · simp [ih]
    · rfl

theorem scan_int_part_again (base : Nat) (b : Bool) (cs s : List Char)
    (hs : ∀ c ∈ s.head?, toDigit base c = none ∧ c ≠ '_') :
    scan_int_part base b ((scan_int_part base b cs).1 ++ s) = ((scan_int_part base b cs).1, s) := by
  have hstop : ∀ b, scan_int_part base b s = ([], s) := by
    intro b
    cases s with
    | nil => rfl
    | cons a s =>
      obtain ⟨h1, h2⟩ := hs a rfl
      simp [scan_int_part, h1, h2]
  induction cs generalizing b with
  | nil => exact hstop b
  | cons c cs ih =>
    by_cases h1 : (toDigit base c).isSome
    · simp [scan_int_part, h1, ih]
    · by_cases h2 : c = '_' ∧ b = true
      · simp [scan_int_part, h2.1, h2.2, ih]
      · have hnone : (scan_int_part base b (c :: cs)).1 = [] := by
          simp only [scan_int_part, h1, h2, if_false, Bool.false_eq_true]
        rw [hnone]
        exact hstop b

/-- The digits that were found have a value. -/
theorem natural_scanned (base : Nat) (b : Bool) (cs : List Char)
    (h : ((scan_int_part base b cs).1.any fun c => (toDigit base c).isSome) = true) :
    ∃ v, natural base ((scan_int_part base b cs).1.filter (· ≠ '_')) = some v := by
  obtain ⟨c, hc, hdigit⟩ := List.any_eq_true.mp h
  have hunder : c ≠ '_' := by
    rintro rfl
    simp [toDigit] at hdigit
  have hmem : c ∈ (scan_int_part base b cs).1.filter (· ≠ '_') := by
    simp [hc, hunder]
  unfold natural
  rw [if_neg (List.ne_nil_of_mem hmem)]
  refine Option.isSome_iff_exists.mp (digits_isSome ?_ 0)
  intro d hd
  obtain ⟨hd, hne⟩ := List.mem_filter.mp hd
  rcases scan_int_part_chars base b cs d hd with h1 | h1
  · exact h1
  · simp [h1] at hne

theorem validate_ok {int_start stop : Nat} {int_text : List Char} (hplus : ∀ c ∈ int_text, c ≠ '+')
    (hv : natural base (int_text.filter (· ≠ '_')) = some v)
    (h : validate_number_and_overflow int_start int_text base suffix stop = none) :
    suffix_ok suffix v = true := by
  have hhead : (int_text.filter (· ≠ '_')).head? ≠ some '+' := by
    intro heq
    have hmem := List.mem_of_mem_head? heq
    exact hplus _ (List.mem_filter.mp hmem).1 rfl
  unfold validate_number_and_overflow at h
  unfold suffix_ok
  split at h
  · rename_i hnil
    simp [hnil]
  · split at h
    · cases h
    · rename_i s max_val hfind
      dsimp only at h
      rw [unsigned_natural 128 hhead, hv] at h
      have hs := List.find?_some hfind
      have hmem := List.mem_of_find?_eq_some hfind
      refine or_eq_true _ _ ▸ .inr (List.any_eq_true.mpr ⟨_, hmem, ?_⟩)
      by_cases h128 : v < 2 ^ 128
      · simp only [Option.filter, h128, decide_true, if_true] at h
        split_ifs at h with hle
        simp only [and_eq_true, decide_eq_true_eq]
        exact ⟨by simpa using hs, by omega⟩
      · simp only [Option.filter, h128, decide_false, if_false, Bool.false_eq_true] at h
        cases h

theorem suffix_ok_head (h : suffix_ok suffix v = true) : ∀ c ∈ suffix.head?, c = 'u' ∨ c = 'i' := by
  unfold suffix_ok at h
  rcases or_eq_true _ _ ▸ h with h | h
  · have : suffix = [] := by simpa using h
    simp [this]
  · obtain ⟨s, hs, hval⟩ := List.any_eq_true.mp h
    have heq : s.1 = suffix := by
      simp only [and_eq_true, decide_eq_true_eq] at hval
      exact hval.1
    rw [← heq]
    have htable : ∀ s ∈ valid_suffixes, ∀ c ∈ s.1.head?, c = 'u' ∨ c = 'i' := by
      simp [valid_suffixes]
    exact htable s hs

/-- A digit run and a valid suffix, with the base mark before them. -/
theorem int_literal_of_parts {cs : List Char} (hbase : base ≤ 16)
    (hmark : base_and_digits text = (base, (scan_int_part base false cs).1 ++ suffix))
    (hhead : (text.head?.any fun c => (toDigit 10 c).isSome) = true)
    (hv : natural base ((scan_int_part base false cs).1.filter (· ≠ '_')) = some v)
    (hsuf : suffix_ok suffix v = true) :
    int_literal text = some v ∧ digit_value text = v := by
  have hstop : ∀ c ∈ suffix.head?, toDigit base c = none ∧ c ≠ '_' := by
    intro c hc
    rcases suffix_ok_head hsuf c hc with rfl | rfl
    · have : ¬ (30 : Nat) < base := by omega
      simp [toDigit, this]
    · have : ¬ (18 : Nat) < base := by omega
      simp [toDigit, this]
  have hfloat : is_float suffix = false := by
    cases suffix with
    | nil => rfl
    | cons a s =>
      rcases suffix_ok_head hsuf a rfl with rfl | rfl
      · simp [is_float]
      · simp [is_float]
  have hagain := scan_int_part_again base false cs suffix hstop
  constructor
  · simp only [int_literal, hmark, hagain, hv, hhead, hfloat, hsuf]
    rfl
  · simp only [digit_value, hmark, hagain, hv, Option.getD_some]

theorem mark_len_decimal (h : base_and_digits text = (10, text)) : mark_len text = 0 := by
  simp [mark_len, h]

theorem mark_len_marked {c : Char} {cs : List Char}
    (h : base_and_digits ('0' :: c :: cs) = (base, cs)) : mark_len ('0' :: c :: cs) = 2 := by
  simp only [mark_len, h, List.length_cons]
  omega

/-- What an integer token without a diagnostic consists of. -/
theorem scan_number_parts {rest : List Char} {byte_offset n : Nat}
    (hhead : (rest.head?.any fun c => (toDigit 10 c).isSome) = true)
    (h : scan_number rest byte_offset = ⟨.IntLit, n, none⟩) :
    ∃ suffix tail v, (base_and_digits rest).2 =
        (scan_int_part (base_and_digits rest).1 false (base_and_digits rest).2).1 ++ (suffix ++ tail) ∧
      n = mark_len rest +
        ((scan_int_part (base_and_digits rest).1 false (base_and_digits rest).2).1 ++ suffix).length ∧
      natural (base_and_digits rest).1
        ((scan_int_part (base_and_digits rest).1 false (base_and_digits rest).2).1.filter (· ≠ '_')) =
          some v ∧
      suffix_ok suffix v = true := by
  have hten : base_and_digits rest = (10, rest) ∨ 0 < mark_len rest := by
    rcases base_and_digits_cases rest with ⟨hbase, _⟩ | ⟨c, cs, rfl, hmark⟩
    · exact .inl hbase
    · refine .inr ?_
      rcases hmark with ⟨_, hbase⟩ | ⟨_, hbase⟩ | ⟨_, hbase⟩ <;> simp [mark_len_marked hbase]
  unfold scan_number at h
  dsimp only at h
  have hany : ¬ (mark_len rest > 0 ∧
      ((scan_int_part (base_and_digits rest).1 false (base_and_digits rest).2).1.any
        fun c => (toDigit (base_and_digits rest).1 c).isSome) = false) := by
    intro hno
    rw [if_pos hno] at h
    split at h <;> simp at h
  have hdigit : ((scan_int_part (base_and_digits rest).1 false (base_and_digits rest).2).1.any
      fun c => (toDigit (base_and_digits rest).1 c).isSome) = true := by
    rcases hten with hten | hten
    · rw [hten]
      cases rest with
      | nil => simp at hhead
      | cons a rest =>
        have ha : (toDigit 10 a).isSome = true := by simpa using hhead
        simp [scan_int_part, ha]
    · by_contra hno
      exact hany ⟨hten, Bool.eq_false_iff.mpr hno⟩
  rw [if_neg hany] at h
  split at h
  · simp at h
  · obtain ⟨v, hv⟩ := natural_scanned _ _ _ hdigit
    simp only [NumberScan.mk.injEq, true_and] at h
    obtain ⟨hlen, hvalid⟩ := h
    refine ⟨_, (scan_suffix true (scan_int_part (base_and_digits rest).1 false
      (base_and_digits rest).2).2).2, v, ?_, ?_, hv, validate_ok ?_ hv hvalid⟩
    · rw [scan_suffix_append, scan_int_part_append]
    · rw [List.length_append, hlen]
    · rintro c hc rfl
      rcases scan_int_part_chars _ _ _ _ hc with h1 | h1
      · simp [toDigit] at h1
      · simp at h1

/-- The value of a token, as the grammar of the text alone gives it. -/
theorem int_literal_of_token (h : IsIntToken text) :
    int_literal text = some (digit_value text) := by
  obtain ⟨rest, byte_offset, hhead, hscan⟩ := h
  obtain ⟨suffix, tail, v, happ, hlen, hv, hsuf⟩ := scan_number_parts hhead hscan
  have hparts : ∃ base cs, base ≤ 16 ∧
      base_and_digits text = (base, (scan_int_part base false cs).1 ++ suffix) ∧
      (text.head?.any fun c => (toDigit 10 c).isSome) = true ∧
      natural base ((scan_int_part base false cs).1.filter (· ≠ '_')) = some v := by
    rcases base_and_digits_cases (text ++ rest) with ⟨hbase, hmark⟩ | ⟨c, cs, heq, hmark⟩
    · rw [mark_len_decimal hbase, Nat.zero_add] at hlen
      rw [hbase] at happ hv hlen
      rw [← List.append_assoc] at happ
      obtain ⟨htext, _⟩ := List.append_inj happ hlen
      refine ⟨10, text ++ rest, by decide, ?_, ?_, hv⟩
      · rw [← htext]
        rcases base_and_digits_cases text with ⟨hb, _⟩ | ⟨c, cs, rfl, hm⟩
        · exact hb
        · have := hmark c (cs ++ rest) rfl
          tauto
      · cases text with
        | nil =>
          have hnil : (scan_int_part 10 false ([] ++ rest)).1 = [] := by
            have := congrArg List.length htext
            simp only [List.length_nil, List.length_append] at this
            exact List.eq_nil_of_length_eq_zero (by omega)
          rw [hnil] at hv
          simp [natural] at hv
        | cons a text => simpa using hhead
    · have hb : ∃ base, base ≤ 16 ∧ base_and_digits (text ++ rest) = (base, cs) ∧
          ∀ l, base_and_digits ('0' :: c :: l) = (base, l) := by
        rcases hmark with ⟨hc, hb⟩ | ⟨hc, hb⟩ | ⟨hc, hb⟩
        · exact ⟨16, by decide, hb, fun l => by rcases hc with rfl | rfl <;> rfl⟩
        · exact ⟨2, by decide, hb, fun l => by rcases hc with rfl | rfl <;> rfl⟩
        · exact ⟨8, by decide, hb, fun l => by rcases hc with rfl | rfl <;> rfl⟩
      obtain ⟨base, hle, hb, hall⟩ := hb
      have htwo : mark_len (text ++ rest) = 2 := by
        rw [heq] at hb ⊢
        exact mark_len_marked hb
      rw [hb] at happ hv hlen
      rw [htwo] at hlen
      dsimp only at happ hv hlen
      have htext : text = '0' :: c :: ((scan_int_part base false cs).1 ++ suffix) := by
        have heq' : text ++ rest = ('0' :: c :: ((scan_int_part base false cs).1 ++ suffix)) ++ tail := by
          rw [heq]
          nth_rewrite 1 [happ]
          simp
        exact (List.append_inj heq' (by simp only [List.length_cons, hlen]; omega)).1
      refine ⟨base, cs, hle, ?_, ?_, hv⟩
      · rw [htext, hall]
      · rw [htext]
        rfl
  obtain ⟨base, cs, hle, hmark, hdigit, hval⟩ := hparts
  obtain ⟨hlit, hdv⟩ := int_literal_of_parts hle hmark hdigit hval hsuf
  rw [hlit, hdv]

end paideia_as_lexer
