-- String literals: the scanner that finds where one ends, and the two extractors that
-- decode what is inside. Character and byte literals: one character or one escape
-- between single quotes.
import PaideiaAs.Lexer.Token
import PaideiaAs.Lib.Radix
import PaideiaAs.Lib.Slices

namespace paideia_as_lexer.strings

open Utf8 Radix
open List (all_eq_true all_takeWhile append_assoc append_nil cons cons_append drop_left
  drop_succ_cons length length_append length_cons length_drop mem_cons nil_append replicate)

/-! ## Bytes -/

/-- The byte of an ASCII character. -/
def byte (c : Char) : UInt8 := UInt8.ofNat c.toNat

def parse_hex_digit (b : UInt8) : Option UInt8 :=
  if byte '0' ≤ b ∧ b ≤ byte '9' then some (b - byte '0')
  else if byte 'a' ≤ b ∧ b ≤ byte 'f' then some (b - byte 'a' + 10)
  else if byte 'A' ≤ b ∧ b ≤ byte 'F' then some (b - byte 'A' + 10)
  else none

/-- The escapes of one character after the backslash, with what they stand for. -/
def simple_escapes : List (UInt8 × UInt8) :=
  [(byte 'n', 10), (byte 'r', 13), (byte 't', 9), (byte '\\', byte '\\'), (0x27, 0x27),
    (byte '"', byte '"'), (byte '0', 0)]

/-- `u32::from_str_radix` on the bytes between the braces. -/
def from_hex (digits : List UInt8) : Option Nat :=
  unsigned 32 16 (digits.map fun b => Char.ofNat b.toNat)

/-! ## The scanner

A text is seen from a position on, as its bytes from there to the end. No value is a panic:
a slice that begins inside a character, or a sum that does not fit a `u32`. -/

/-- The bytes taken from the backslash on, and the error. -/
def parse_unicode_escape_in_string (pos : Nat) (rest : List UInt8) :
    Nat × Option token.Diagnostic :=
  if rest.length ≤ 3 ∨ rest[2]? ≠ some (byte '{') then
    (3, some ⟨16, "incomplete Unicode escape", ⟨pos, pos + 3⟩⟩)
  else
    let hex_str := (rest.drop 3).takeWhile (· ≠ byte '}')
    let hex_end := 3 + hex_str.length
    if hex_end ≥ rest.length then
      (hex_end, some ⟨16, "unclosed Unicode escape", ⟨pos, pos + hex_end⟩⟩)
    else if hex_str = [] then
      (hex_end + 1, some ⟨16, "empty Unicode escape", ⟨pos, pos + (hex_end + 1)⟩⟩)
    else
      match from_hex hex_str with
      | some val =>
        if val > 0x10FFFF then
          (hex_end + 1, some ⟨16, "Unicode codepoint out of range", ⟨pos, pos + (hex_end + 1)⟩⟩)
        else if 0xD800 ≤ val ∧ val ≤ 0xDFFF then
          (hex_end + 1, some ⟨17, "surrogate codepoint not allowed in Unicode escape",
              ⟨pos, pos + (hex_end + 1)⟩⟩)
        else (hex_end + 1, none)
      | none =>
        (hex_end + 1, some ⟨16, "invalid hex digits in Unicode escape", ⟨pos, pos + (hex_end + 1)⟩⟩)

def parse_string_escape (pos : Nat) (rest : List UInt8) (is_byte : Bool) :
    Nat × Option token.Diagnostic :=
  match rest with
  | _ :: b :: more =>
    if (simple_escapes.lookup b).isSome then (2, none)
    else if b = byte 'x' then
      match more with
      | d1 :: d2 :: _ =>
        if (parse_hex_digit d1).isSome ∧ (parse_hex_digit d2).isSome then (4, none)
        else (4, some ⟨8, "invalid hex escape sequence", ⟨pos, pos + 4⟩⟩)
      | _ => (rest.length, some ⟨8, "incomplete hex escape sequence", ⟨pos, pos + rest.length⟩⟩)
    else if b = byte 'u' then
      if is_byte then
        (2, some ⟨8, "Unicode escape not allowed in byte string literal", ⟨pos, pos + 2⟩⟩)
      else parse_unicode_escape_in_string pos rest
    else (2, some ⟨8, "unknown escape sequence", ⟨pos, pos + 2⟩⟩)
  | _ => (1, none)

theorem parse_unicode_escape_in_string_pos (pos : Nat) (rest : List UInt8) :
    0 < (parse_unicode_escape_in_string pos rest).1 := by
  unfold parse_unicode_escape_in_string
  dsimp only
  repeat' split
  all_goals
    dsimp only
    omega

theorem parse_string_escape_pos (pos : Nat) (b : UInt8) (rest : List UInt8) (is_byte : Bool) :
    0 < (parse_string_escape pos (b :: rest) is_byte).1 := by
  have hunicode := parse_unicode_escape_in_string_pos pos (b :: rest)
  unfold parse_string_escape
  repeat' split
  all_goals first | exact hunicode | simp

/-- The bytes before the closing quote or the end, and the first error. -/
def scan_regular_string_contents (start : Nat) (is_byte : Bool) (pos : Nat) (rest : List UInt8)
    (first_error : Option token.Diagnostic) : Option (Nat × Option token.Diagnostic) :=
  match rest with
  | [] => some (0, first_error)
  | b :: bs =>
    if b = byte '"' then some (0, first_error)
    else if b = byte '\\' then
      let escape := parse_string_escape pos (b :: bs) is_byte
      (scan_regular_string_contents start is_byte (pos + escape.1) ((b :: bs).drop escape.1)
        (first_error.or escape.2)).map fun r => (escape.1 + r.1, r.2)
    else if b = byte '\n' then
      -- the position is counted from the start of the file, and the start is added to it
      if first_error = none ∧ start + pos + 1 ≥ 2 ^ 32 then none
      else
        (scan_regular_string_contents start is_byte (pos + 1) bs
          (first_error.or (some ⟨4, "unescaped newline in string literal",
            ⟨start + pos, start + pos + 1⟩⟩))).map fun r => (1 + r.1, r.2)
    else if Tail b then none
    else
      (scan_regular_string_contents start is_byte (pos + width b) ((b :: bs).drop (width b))
        first_error).map fun r => (width b + r.1, r.2)
termination_by rest.length
decreasing_by
  · have := parse_string_escape_pos pos b bs is_byte
    rw [length_drop, length_cons]
    omega
  · rw [length_cons]
    omega
  · have := width_pos b
    rw [length_drop, length_cons]
    omega

/-- As many hashes as the opening has, and no hash after them. -/
def check_raw_closing (rest : List UInt8) (num_hashes : Nat) : Bool :=
  let hash_count := ((rest.take num_hashes).takeWhile (· = byte '#')).length
  hash_count == num_hashes && rest[hash_count]? != some (byte '#')

/-- The bytes before the closing quote or the end. -/
def scan_raw_string_contents (num_hashes : Nat) : List UInt8 → Nat
  | [] => 0
  | b :: bs =>
    if b = byte '"' ∧ check_raw_closing bs num_hashes = true then 0
    else 1 + scan_raw_string_contents num_hashes bs

def raw_closing_found (num_hashes : Nat) (contents : List UInt8) : Bool :=
  match contents.drop (scan_raw_string_contents num_hashes contents) with
  | b :: bs => b = byte '"' && check_raw_closing bs num_hashes
  | [] => false

/-- The scan of a literal, with the bytes of the text from its first one on. -/
def scan_literal (byte_offset : Nat) (bytes : List UInt8) : Option token.Scan :=
  let is_byte := bytes.head? == some (byte 'b')
  let rest := if is_byte then bytes.drop 1 else bytes
  let is_raw := rest.head? == some (byte 'r')
  let rest := if is_raw then rest.drop 1 else rest
  let num_hashes := if is_raw then (rest.takeWhile (· = byte '#')).length else 0
  let rest := rest.drop num_hashes
  let after_hashes := bytes.length - rest.length
  let kind := if is_byte then token.TokenKind.ByteStringLit else token.TokenKind.StringLit
  let unterminated (len : Nat) : token.Diagnostic :=
    ⟨4, "unterminated string literal", ⟨byte_offset, byte_offset + len⟩⟩
  if rest.head? ≠ some (byte '"') then
    some ⟨kind, after_hashes, some ⟨4, "expected opening quote for string literal",
      ⟨byte_offset, byte_offset + after_hashes⟩⟩⟩
  else
    let contents := rest.drop 1
    let pos := after_hashes + 1
    if is_raw then
      let content_len := scan_raw_string_contents num_hashes contents
      if raw_closing_found num_hashes contents then
        some ⟨kind, pos + content_len + (1 + num_hashes), none⟩
      else some ⟨kind, pos + content_len, some (unterminated (pos + content_len))⟩
    else
      (scan_regular_string_contents (byte_offset + pos) is_byte (byte_offset + pos) contents
        none).map fun r =>
          if contents[r.1]? = some (byte '"') then ⟨kind, pos + r.1 + 1, r.2⟩
          else ⟨kind, pos + r.1, some (unterminated (pos + r.1))⟩

def scan_string (content : List Char) (byte_offset : Nat) : Option token.Scan :=
  match suffixAt content byte_offset with
  | none | some [] => none
  | some (c :: cs) => scan_literal byte_offset (encode (c :: cs))

/-! ## The extractors -/

/-- The code point of an escape, and its bytes. -/
def parse_unicode_escape (rest : List UInt8) : Except String (Nat × Nat) :=
  if rest.length ≤ 2 ∨ rest[2]? ≠ some (byte '{') then .error "incomplete Unicode escape"
  else
    let hex_str := (rest.drop 3).takeWhile (· ≠ byte '}')
    let hex_end := 3 + hex_str.length
    if hex_end ≥ rest.length then .error "unclosed Unicode escape"
    else if hex_str = [] then .error "empty Unicode escape"
    else
      match from_hex hex_str with
      | none => .error "invalid hex in Unicode escape"
      | some codepoint =>
        if codepoint > 0x10FFFF then .error "Unicode codepoint out of range"
        else if 0xD800 ≤ codepoint ∧ codepoint ≤ 0xDFFF then .error "surrogate codepoint not allowed"
        else .ok (codepoint, hex_end + 1)

/-- `\xHH`. -/
def hex_escape (more : List UInt8) : Except String UInt8 :=
  match more with
  | d1 :: d2 :: _ =>
    match parse_hex_digit d1, parse_hex_digit d2 with
    | some h1, some h2 => .ok ((h1 <<< 4) ||| h2)
    | _, _ => .error "invalid hex digit"
  | _ => .error "incomplete hex escape"

/-- The decoded bytes of an escape, and the bytes that it takes. -/
def process_string_escape_into (rest : List UInt8) (is_byte : Bool) :
    Except String (List UInt8 × Nat) :=
  match rest with
  | _ :: b :: more =>
    match simple_escapes.lookup b with
    | some v => .ok ([v], 2)
    | none =>
      if b = byte 'x' then (hex_escape more).map fun v => ([v], 4)
      else if b = byte 'u' then
        if is_byte then .error "Unicode escape not allowed in byte string"
        else
          match parse_unicode_escape rest with
          | .error e => .error e
          | .ok (codepoint, advance) =>
            if codepoint.isValidChar then
              .ok (String.utf8EncodeChar (Char.ofNat codepoint), advance)
            else .error "invalid Unicode codepoint"
      else .error "unknown escape sequence"
  | _ => .error "incomplete escape sequence"

def process_byte_escape (rest : List UInt8) : Except String UInt8 :=
  match rest with
  | _ :: b :: more =>
    match simple_escapes.lookup b with
    | some v => .ok v
    | none => if b = byte 'x' then hex_escape more else .error "unknown escape sequence in byte string"
  | _ => .error "incomplete escape sequence"

variable {n start pos byte_offset : Nat} {more bs e d : List UInt8} {v b : UInt8} {text : List Char}

theorem process_string_escape_pos {rest out : List UInt8} {is_byte : Bool}
    (h : process_string_escape_into rest is_byte = .ok (out, n)) : 0 < n := by
  have hunicode : ∀ {c m}, parse_unicode_escape rest = .ok (c, m) → 0 < m := by
    intro c m hm
    unfold parse_unicode_escape at hm
    dsimp only at hm
    repeat' split at hm
    all_goals cases hm
    omega
  have hhex : ∀ {more}, (hex_escape more).map (fun v => ([v], 4)) = .ok (out, n) → 0 < n := by
    intro more hm
    cases hex : hex_escape more with
    | error e =>
      rw [hex] at hm
      cases hm
    | ok v =>
      rw [hex] at hm
      cases hm
      decide
  unfold process_string_escape_into at h
  repeat' split at h
  all_goals first | exact hhex h | cases h
  · decide
  next => exact hunicode (by assumption)

def extract_regular_string_content (is_byte : Bool) (rest : List UInt8) :
    Except String (List UInt8) :=
  match rest with
  | [] => .error "unterminated string"
  | b :: bs =>
    if b = byte '"' then .ok []
    else if b = byte '\\' then
      if bs = [] then .error "unterminated string"
      else
        match _h : process_string_escape_into (b :: bs) is_byte with
        | .error e => .error e
        | .ok (out, advance) =>
          (extract_regular_string_content is_byte ((b :: bs).drop advance)).map (out ++ ·)
    else if b = byte '\n' then .error "unescaped newline in string"
    else (extract_regular_string_content is_byte bs).map (b :: ·)
termination_by rest.length
decreasing_by
  · have := process_string_escape_pos _h
    rw [length_drop, length_cons]
    omega
  · rw [length_cons]
    omega

def byte_escape_len (rest : List UInt8) : Nat := if rest[1]? = some (byte 'x') then 4 else 2

def extract_regular_byte_string_content (rest : List UInt8) : Except String (List UInt8) :=
  match rest with
  | [] => .error "unterminated byte string"
  | b :: bs =>
    if b = byte '"' then .ok []
    else if b = byte '\\' then
      if bs = [] then .error "unterminated byte string"
      else
        match process_byte_escape (b :: bs) with
        | .error e => .error e
        | .ok byte_val =>
          (extract_regular_byte_string_content ((b :: bs).drop (byte_escape_len (b :: bs)))).map
            (byte_val :: ·)
    else if b = byte '\n' then .error "unescaped newline in byte string"
    else if b > 127 then .error "non-ASCII byte in byte string (use escape)"
    else (extract_regular_byte_string_content bs).map (b :: ·)
termination_by rest.length
decreasing_by
  · unfold byte_escape_len
    rw [length_drop, length_cons]
    split_ifs <;> omega
  · rw [length_cons]
    omega

/-- The contents of a raw literal of either kind, as they are. -/
def extract_raw (error : String) (num_hashes : Nat) : List UInt8 → Except String (List UInt8)
  | [] => .error error
  | b :: bs =>
    if b = byte '"' ∧ check_raw_closing bs num_hashes = true then .ok []
    else (extract_raw error num_hashes bs).map (b :: ·)

def extract_raw_string_content : Nat → List UInt8 → Except String (List UInt8) :=
  extract_raw "unterminated raw string"

def extract_raw_byte_string_content : Nat → List UInt8 → Except String (List UInt8) :=
  extract_raw "unterminated raw byte string"

/-- What comes before the quote, and the rest from the quote on. -/
def skip_prefix (bytes : List UInt8) : Nat × List UInt8 :=
  let rest := if bytes.head? = some (byte 'b') then bytes.drop 1 else bytes
  let rest := if rest.head? = some (byte 'r') then rest.drop 1 else rest
  let hash_count := (rest.takeWhile (· = byte '#')).length
  (hash_count, rest.drop hash_count)

def extract_string_content (content : List Char) (byte_offset : Nat) (is_raw is_byte : Bool) :
    Option (Except String (List UInt8)) :=
  let bytes := (encode content).drop byte_offset
  if bytes = [] then none
  else
    let (hash_count, rest) := skip_prefix bytes
    if rest.head? ≠ some (byte '"') then some (.error "missing opening quote")
    else if is_raw then some (extract_raw_string_content hash_count (rest.drop 1))
    else some (extract_regular_string_content is_byte (rest.drop 1))

def extract_byte_string_content (content : List Char) (byte_offset : Nat) (is_raw : Bool) :
    Option (Except String (List UInt8)) :=
  let bytes := (encode content).drop byte_offset
  if bytes = [] then none
  else
    let (hash_count, rest) := skip_prefix bytes
    if rest.head? ≠ some (byte '"') then some (.error "missing opening quote")
    else if is_raw then some (extract_raw_byte_string_content hash_count (rest.drop 1))
    else some (extract_regular_byte_string_content (rest.drop 1))

/-! ## The escapes as a grammar -/

/-- The text of an escape, and the bytes that it stands for. -/
inductive Escape (is_byte : Bool) : List UInt8 → List UInt8 → Prop
  | simple {b v : UInt8} : simple_escapes.lookup b = some v → Escape is_byte [byte '\\', b] [v]
  | hex {d1 d2 h1 h2 : UInt8} : parse_hex_digit d1 = some h1 → parse_hex_digit d2 = some h2 →
    Escape is_byte [byte '\\', byte 'x', d1, d2] [(h1 <<< 4) ||| h2]
  | unicode {digits : List UInt8} {c : Char} : is_byte = false → (∀ b ∈ digits, b ≠ byte '}') →
    digits ≠ [] → from_hex digits = some c.toNat →
    Escape is_byte (byte '\\' :: byte 'u' :: byte '{' :: (digits ++ [byte '}']))
      (String.utf8EncodeChar c)

/-- What may stand between the quotes, and what it stands for. -/
inductive Contents (is_byte : Bool) : List UInt8 → List UInt8 → Prop
  | nil : Contents is_byte [] []
  | plain {b : UInt8} {t out : List UInt8} : b ≠ byte '"' → b ≠ byte '\\' → b ≠ byte '\n' →
    Contents is_byte t out → Contents is_byte (b :: t) (b :: out)
  | escape {e d t out : List UInt8} : Escape is_byte e d → Contents is_byte t out →
    Contents is_byte (e ++ t) (d ++ out)

theorem hex_escape_ok : hex_escape more = .ok v ↔
    ∃ d1 d2 post h1 h2, more = d1 :: d2 :: post ∧ parse_hex_digit d1 = some h1 ∧
      parse_hex_digit d2 = some h2 ∧ v = (h1 <<< 4) ||| h2 := by
  constructor
  · intro h
    unfold hex_escape at h
    split at h
    next d1 d2 post =>
      split at h
      next h1 h2 hd1 hd2 =>
        cases h
        exact ⟨d1, d2, post, h1, h2, rfl, hd1, hd2, rfl⟩
      next => cases h
    next => cases h
  · rintro ⟨d1, d2, post, h1, h2, rfl, hd1, hd2, rfl⟩
    unfold hex_escape
    simp only [hd1, hd2]

theorem braces {digits : List UInt8}
    (hd : digits = more.takeWhile (· ≠ byte '}')) (h : digits.length < more.length) :
    ∃ post, more = digits ++ byte '}' :: post ∧ ∀ b ∈ digits, b ≠ byte '}' := by
  have happ := List.takeWhile_append_dropWhile (p := (· ≠ byte '}')) (l := more)
  rw [← hd] at happ
  have hall : ∀ b ∈ digits, b ≠ byte '}' := by
    intro b hb
    rw [hd] at hb
    simpa using all_eq_true.1 all_takeWhile b hb
  cases hrest : more.dropWhile (· ≠ byte '}') with
  | nil =>
    rw [hrest, append_nil] at happ
    rw [happ] at h
    exact absurd h (Nat.lt_irrefl _)
  | cons b post =>
    have hb := List.head_dropWhile_not (p := (· ≠ byte '}')) (l := more) (by rw [hrest]; simp)
    rw [hrest] at happ
    simp only [hrest, List.head_cons] at hb
    obtain rfl : b = byte '}' := by simpa using hb
    exact ⟨post, happ.symm, hall⟩

theorem takeWhile_braces {digits post : List UInt8} (h : ∀ b ∈ digits, b ≠ byte '}') :
    (digits ++ byte '}' :: post).takeWhile (· ≠ byte '}') = digits := by
  rw [List.takeWhile_append_of_pos (by simpa using h), List.takeWhile_cons_of_neg (by simp),
    append_nil]

theorem isValidChar_iff (n : Nat) : n.isValidChar ↔ n ≤ 0x10FFFF ∧ ¬(0xD800 ≤ n ∧ n ≤ 0xDFFF) := by
  unfold Nat.isValidChar
  omega

theorem parse_unicode_escape_ok {rest : List UInt8} {codepoint advance : Nat} :
    parse_unicode_escape (byte '\\' :: byte 'u' :: rest) = .ok (codepoint, advance) ↔
      ∃ digits post, rest = byte '{' :: (digits ++ byte '}' :: post) ∧
        (∀ b ∈ digits, b ≠ byte '}') ∧ digits ≠ [] ∧ from_hex digits = some codepoint ∧
        codepoint.isValidChar ∧ advance = digits.length + 4 := by
  unfold parse_unicode_escape
  constructor
  · intro h
    split at h
    · cases h
    next hopen =>
      rw [not_or, not_not] at hopen
      cases rest with
      | nil => exact absurd hopen.1 (by decide)
      | cons b more =>
        obtain rfl : b = byte '{' := Option.some.inj hopen.2
        simp only [drop_succ_cons, List.drop_zero, length_cons] at h
        generalize hd : more.takeWhile (· ≠ byte '}') = digits at h
        split at h
        · cases h
        next hlen =>
          split at h
          · cases h
          next hne =>
            split at h
            · cases h
            next cp hcp =>
              split at h
              · cases h
              next hmax =>
                split at h
                · cases h
                next hsurrogate =>
                  obtain ⟨rfl, rfl⟩ := Prod.mk.inj (Except.ok.inj h)
                  obtain ⟨post, hpost, hall⟩ := braces hd.symm (by omega)
                  refine ⟨digits, post, by rw [hpost], hall, hne, hcp, ?_, by omega⟩
                  rw [isValidChar_iff]
                  exact ⟨Nat.not_lt.1 hmax, hsurrogate⟩
  · rintro ⟨digits, post, rfl, hall, hne, hcp, hvalid, rfl⟩
    rw [isValidChar_iff] at hvalid
    simp only [drop_succ_cons, List.drop_zero, takeWhile_braces hall]
    rw [if_neg (by simp), if_neg (by simp; omega), if_neg hne, hcp]
    dsimp only
    rw [if_neg (Nat.not_lt.2 hvalid.1), if_neg hvalid.2]
    congr 2
    omega

theorem lookup_x : simple_escapes.lookup (byte 'x') = none := by decide

theorem lookup_u : simple_escapes.lookup (byte 'u') = none := by decide

/-- The extractor decodes exactly the escapes of the grammar. -/
theorem process_string_escape_ok {is_byte : Bool} {out : List UInt8} :
    process_string_escape_into (byte '\\' :: bs) is_byte = .ok (out, n) ↔
      ∃ e post, byte '\\' :: bs = e ++ post ∧ n = e.length ∧ Escape is_byte e out := by
  constructor
  · intro h
    unfold process_string_escape_into at h
    split at h
    next b more heq =>
      obtain ⟨-, rfl⟩ := cons.inj heq
      split at h
      next v hv =>
        obtain ⟨rfl, rfl⟩ := Prod.mk.inj (Except.ok.inj h)
        exact ⟨[byte '\\', b], more, rfl, rfl, Escape.simple hv⟩
      next =>
        split at h
        next hx =>
          subst hx
          cases hex : hex_escape more with
          | error e =>
            rw [hex] at h
            cases h
          | ok v =>
            rw [hex] at h
            obtain ⟨rfl, rfl⟩ := Prod.mk.inj (Except.ok.inj h)
            obtain ⟨d1, d2, post, h1, h2, rfl, hd1, hd2, rfl⟩ := hex_escape_ok.1 hex
            exact ⟨[byte '\\', byte 'x', d1, d2], post, rfl, rfl, Escape.hex hd1 hd2⟩
        next =>
          split at h
          next hu =>
            subst hu
            split at h
            · cases h
            next hbyte =>
              split at h
              · cases h
              next cp adv hcp =>
                split at h
                next hvalid =>
                  obtain ⟨rfl, rfl⟩ := Prod.mk.inj (Except.ok.inj h)
                  obtain ⟨rfl, -⟩ := cons.inj heq
                  obtain ⟨digits, post, rfl, hall, hne, hhex, -, rfl⟩ :=
                    parse_unicode_escape_ok.1 hcp
                  refine ⟨_, post, ?_, ?_, Escape.unicode (Bool.eq_false_iff.2 hbyte) hall hne ?_⟩
                  · simp
                  · simp
                  · rw [hhex, Char.ofNat, dif_pos hvalid]
                    rfl
                next => cases h
          next => cases h
    next => cases h
  · rintro ⟨e, post, heq, rfl, he⟩
    rw [heq]
    unfold process_string_escape_into
    cases he with
    | @simple b v hv => simp only [cons_append, nil_append, hv, length_cons,
        List.length_nil]
    | @hex d1 d2 h1 h2 hd1 hd2 =>
      have hex : hex_escape (d1 :: d2 :: post) = .ok ((h1 <<< 4) ||| h2) :=
        hex_escape_ok.2 ⟨d1, d2, post, h1, h2, rfl, hd1, hd2, rfl⟩
      simp only [cons_append, nil_append, lookup_x, if_pos, hex]
      rfl
    | @unicode digits c hbyte hall hne hhex =>
      have hcp : parse_unicode_escape (byte '\\' :: byte 'u' :: byte '{' ::
          (digits ++ byte '}' :: post)) = .ok (c.toNat, digits.length + 4) :=
        parse_unicode_escape_ok.2 ⟨digits, post, rfl, hall, hne, hhex, c.valid, rfl⟩
      have hux : byte 'u' ≠ byte 'x' := by decide
      simp only [cons_append, append_assoc, nil_append, lookup_u, if_neg hux,
        if_pos, hbyte, hcp, Bool.false_eq_true, if_false]
      have hvalid : c.toNat.isValidChar := c.valid
      rw [if_pos hvalid, Char.ofNat_toNat]
      simp

theorem parse_unicode_escape_in_string_none {pos n : Nat} {rest : List UInt8} :
    parse_unicode_escape_in_string pos rest = (n, none) ↔
      ∃ codepoint, parse_unicode_escape rest = .ok (codepoint, n) := by
  unfold parse_unicode_escape_in_string parse_unicode_escape
  by_cases hopen : rest.length ≤ 3 ∨ rest[2]? ≠ some (byte '{')
  · rw [if_pos hopen]
    refine iff_of_false (fun h => by cases h) ?_
    rintro ⟨codepoint, h⟩
    split at h
    · cases h
    next hopen' =>
      -- nothing follows the brace
      have hlen : rest.length = 3 := by
        rcases hopen with h3 | h3
        · omega
        · exact absurd (.inr h3) hopen'
      have hdrop : rest.drop 3 = [] := List.drop_eq_nil_of_le (Nat.le_of_eq hlen)
      dsimp only at h
      rw [hdrop, hlen, if_pos (by simp)] at h
      cases h
  · have hopen' : ¬(rest.length ≤ 2 ∨ rest[2]? ≠ some (byte '{')) := by
      rw [not_or] at hopen ⊢
      exact ⟨by omega, hopen.2⟩
    rw [if_neg hopen, if_neg hopen']
    dsimp only
    generalize (rest.drop 3).takeWhile (· ≠ byte '}') = hex_str
    split
    · simp
    · split
      · simp
      · cases from_hex hex_str with
        | none => simp
        | some val =>
          dsimp only
          split_ifs <;> simp

/-- The scanner has nothing to report about exactly the escapes that the extractor decodes. -/
theorem parse_string_escape_none {pos n : Nat} {is_byte : Bool} {b : UInt8} {more : List UInt8} :
    parse_string_escape pos (byte '\\' :: b :: more) is_byte = (n, none) ↔
      ∃ out, process_string_escape_into (byte '\\' :: b :: more) is_byte = .ok (out, n) := by
  have hunicode := @parse_unicode_escape_in_string_none pos n (byte '\\' :: b :: more)
  unfold parse_string_escape process_string_escape_into
  dsimp only
  cases simple_escapes.lookup b with
  | some v => simp
  | none =>
    rw [if_neg (by simp)]
    split
    · -- two hexadecimal digits
      unfold hex_escape
      split
      next d1 d2 _ =>
        dsimp only
        cases parse_hex_digit d1 with
        | none => simp [Except.map]
        | some h1 =>
          cases parse_hex_digit d2 with
          | none => simp [Except.map]
          | some h2 => simp [Except.map]
      next => simp [Except.map]
    · split
      next hu =>
        subst hu
        cases is_byte with
        | true => simp
        | false =>
          rw [if_neg (by decide), hunicode, if_neg (by decide)]
          cases hcp : parse_unicode_escape (byte '\\' :: byte 'u' :: more) with
          | error e => simp
          | ok r =>
            obtain ⟨codepoint, advance⟩ := r
            obtain ⟨_, _, _, _, _, _, hvalid, _⟩ := parse_unicode_escape_ok.1 hcp
            simp [hvalid]
      next => simp

/-! ## The loops -/

variable {is_byte : Bool} {rest body out : List UInt8}

theorem hex_digit_ascii {h : UInt8} (hb : parse_hex_digit b = some h) : b.toNat < 0x80 := by
  unfold parse_hex_digit byte at hb
  simp only [UInt8.le_iff_toNat_le] at hb
  split_ifs at hb with h1 h2 h3
  · exact Nat.lt_of_le_of_lt h1.2 (by decide)
  · exact Nat.lt_of_le_of_lt h2.2 (by decide)
  · exact Nat.lt_of_le_of_lt h3.2 (by decide)

theorem simple_escape_ascii (h : simple_escapes.lookup b = some v) : b.toNat < 0x80 := by
  obtain ⟨l, k, heq, -⟩ := List.lookup_eq_some_iff.1 h
  have hall : (simple_escapes.all fun p => p.1.toNat < 0x80) = true := by decide
  have hmem : (b, v) ∈ simple_escapes := by
    rw [heq]
    simp
  exact of_decide_eq_true (all_eq_true.1 hall _ hmem)

theorem from_hex_ascii {digits : List UInt8} (h : from_hex digits = some n) :
    ∀ b ∈ digits, b.toNat < 0x80 := by
  intro b hb
  by_contra hge
  have hlt := b.toNat_lt
  have hc : (Char.ofNat b.toNat).toNat = b.toNat := by
    rw [Char.ofNat, dif_pos (.inl (by omega))]
    rfl
  have hnone : toDigit 16 (Char.ofNat b.toNat) = none := by
    unfold toDigit
    rw [hc]
    dsimp only
    split_ifs <;> first | rfl | omega
  have hplus : Char.ofNat b.toNat ≠ '+' := by
    intro heq
    have hplus : ('+').toNat = 43 := rfl
    rw [heq] at hc
    omega
  unfold from_hex at h
  rw [unsigned_none 32 (List.mem_map.2 ⟨b, hb, rfl⟩) hnone hplus] at h
  cases h

/-- An escape is a backslash and more, all of it in ASCII. -/
theorem Escape.shape (h : Escape is_byte e d) :
    (∃ b t, e = byte '\\' :: b :: t) ∧ ∀ x ∈ e, x.toNat < 0x80 := by
  have hslash : (byte '\\').toNat < 0x80 := by decide
  cases h with
  | @simple b v hv =>
    refine ⟨⟨b, [], rfl⟩, ?_⟩
    simp [hslash, simple_escape_ascii hv]
  | @hex d1 d2 h1 h2 hd1 hd2 =>
    refine ⟨⟨byte 'x', [d1, d2], rfl⟩, ?_⟩
    have hx : (byte 'x').toNat < 0x80 := by decide
    simp [hslash, hx, hex_digit_ascii hd1, hex_digit_ascii hd2]
  | @unicode digits c _ _ _ hhex =>
    refine ⟨⟨byte 'u', _, rfl⟩, ?_⟩
    have hu : (byte 'u').toNat < 0x80 := by decide
    have hopen : (byte '{').toNat < 0x80 := by decide
    have hclose : (byte '}').toNat < 0x80 := by decide
    have hdigits := from_hex_ascii hhex
    intro x hx
    simp only [mem_cons, List.mem_append, List.not_mem_nil, or_false] at hx
    rcases hx with rfl | rfl | rfl | hx | rfl
    · exact hslash
    · exact hu
    · exact hopen
    · exact hdigits x hx
    · exact hclose

/-- The escape is read whole, whatever stands behind it. -/
theorem Escape.taken (h : Escape is_byte e d) (rest : List UInt8) :
    ∃ bs, bs ≠ [] ∧ e ++ rest = byte '\\' :: bs ∧
      process_string_escape_into (byte '\\' :: bs) is_byte = .ok (d, e.length) ∧
      (byte '\\' :: bs).drop e.length = rest := by
  obtain ⟨⟨b, t, rfl⟩, -⟩ := h.shape
  exact ⟨b :: t ++ rest, by simp, rfl, process_string_escape_ok.2 ⟨_, _, rfl, rfl, h⟩, drop_left⟩

theorem extract_escape (hbs : bs ≠ [])
    (h : process_string_escape_into (byte '\\' :: bs) is_byte = .ok (d, n)) :
    extract_regular_string_content is_byte (byte '\\' :: bs) =
      (extract_regular_string_content is_byte ((byte '\\' :: bs).drop n)).map (d ++ ·) := by
  rw [extract_regular_string_content, if_neg (by decide), if_pos rfl, if_neg hbs]
  split
  next h' =>
    rw [h] at h'
    cases h'
  next h' =>
    rw [h] at h'
    cases h'
    rfl

theorem map_ok {r : Except String (List UInt8)} {f : List UInt8 → List UInt8}
    (h : r.map f = .ok out) : ∃ t, r = .ok t ∧ f t = out := by
  cases r with
  | error e => cases h
  | ok t => exact ⟨t, rfl, Except.ok.inj h⟩

/-- The extractor takes the contents up to the first quote that is not escaped. -/
theorem extract_regular_ok : extract_regular_string_content is_byte rest = .ok out ↔
    ∃ body post, rest = body ++ byte '"' :: post ∧ Contents is_byte body out := by
  constructor
  · intro h
    induction rest using extract_regular_string_content.induct is_byte generalizing out with
    | case1 =>
      rw [extract_regular_string_content] at h
      cases h
    | case2 bs =>
      rw [extract_regular_string_content, if_pos rfl] at h
      obtain rfl := Except.ok.inj h
      exact ⟨[], bs, rfl, Contents.nil⟩
    | case3 =>
      rw [extract_regular_string_content, if_neg (by decide), if_pos rfl, if_pos rfl] at h
      cases h
    | case4 bs hbs e _ he =>
      rw [extract_regular_string_content, if_neg (by decide), if_pos rfl, if_neg hbs] at h
      split at h
      next => cases h
      next h' =>
        rw [he] at h'
        cases h'
    | case5 bs hbs d n _ hd ih =>
      rw [extract_escape hbs hd] at h
      obtain ⟨t, ht, rfl⟩ := map_ok h
      obtain ⟨body, post, hrest, hbody⟩ := ih ht
      obtain ⟨e, post', heq, rfl, he⟩ := process_string_escape_ok.1 hd
      rw [heq, drop_left] at hrest
      refine ⟨e ++ body, post, ?_, Contents.escape he hbody⟩
      rw [heq, hrest, append_assoc]
    | case6 bs =>
      rw [extract_regular_string_content, if_neg (by decide), if_neg (by decide), if_pos rfl] at h
      cases h
    | case7 b bs hq hb hn ih =>
      rw [extract_regular_string_content, if_neg hq, if_neg hb, if_neg hn] at h
      obtain ⟨t, ht, rfl⟩ := map_ok h
      obtain ⟨body, post, rfl, hbody⟩ := ih ht
      exact ⟨b :: body, post, rfl, Contents.plain hq hb hn hbody⟩
  · rintro ⟨body, post, rfl, h⟩
    induction h with
    | nil => rw [nil_append, extract_regular_string_content, if_pos rfl]
    | plain hq hb hn _ ih =>
      rw [cons_append, extract_regular_string_content, if_neg hq, if_neg hb, if_neg hn, ih]
      rfl
    | @escape e d t out he _ ih =>
      obtain ⟨bs, hbs, heq, hok, hdrop⟩ := he.taken (t ++ byte '"' :: post)
      rw [append_assoc, heq, extract_escape hbs hok, hdrop, ih]
      rfl

theorem tail_plain (h : Tail b) : b ≠ byte '"' ∧ b ≠ byte '\\' ∧ b ≠ byte '\n' := by
  refine ⟨?_, ?_, ?_⟩
  all_goals
    rintro rfl
    exact absurd h (by decide)

theorem Contents.tails {t : List UInt8} (ht : ∀ x ∈ t, Tail x) (h : Contents is_byte body out) :
    Contents is_byte (t ++ body) (t ++ out) := by
  induction t with
  | nil => exact h
  | cons b t ih =>
    obtain ⟨hq, hb, hn⟩ := tail_plain (ht b (.head _))
    exact Contents.plain hq hb hn (ih fun x hx => ht x (.tail b hx))

/-- The contents go on behind a byte that is not a quote and does not begin an escape. -/
theorem Contents.uncons {post : List UInt8} (hq : b ≠ byte '"') (hb : b ≠ byte '\\')
    (h : Contents is_byte body out) (heq : b :: bs = body ++ byte '"' :: post) :
    ∃ body' out', body = b :: body' ∧ out = b :: out' ∧ bs = body' ++ byte '"' :: post ∧
      Contents is_byte body' out' ∧ b ≠ byte '\n' := by
  cases h with
  | nil => exact absurd (cons.inj heq).1 hq
  | plain _ _ hn hrest =>
    obtain ⟨rfl, rfl⟩ := cons.inj heq
    exact ⟨_, _, rfl, rfl, rfl, hrest, hn⟩
  | escape he _ =>
    obtain ⟨⟨c, t, rfl⟩, -⟩ := he.shape
    exact absurd (cons.inj heq).1 hb

theorem Contents.drop_tails {t post : List UInt8} (ht : ∀ x ∈ t, Tail x)
    (h : Contents is_byte body out) (heq : t ++ bs = body ++ byte '"' :: post) :
    ∃ body' out', body = t ++ body' ∧ bs = body' ++ byte '"' :: post ∧
      Contents is_byte body' out' := by
  induction t generalizing body out with
  | nil => exact ⟨body, out, rfl, heq, h⟩
  | cons b t ih =>
    obtain ⟨hq, hb, -⟩ := tail_plain (ht b (.head _))
    obtain ⟨body', out', rfl, -, heq', h', -⟩ := h.uncons hq hb heq
    obtain ⟨body'', out'', rfl, hbs, h''⟩ :=
      ih (fun x hx => ht x (.tail b hx)) h' heq'
    exact ⟨body'', out'', rfl, hbs, h''⟩

theorem scan_keeps_error {e e' : Option token.Diagnostic}
    (h : scan_regular_string_contents start is_byte pos rest e = some (n, e')) (he : e ≠ none) :
    e' ≠ none := by
  induction pos, rest, e using scan_regular_string_contents.induct start is_byte generalizing n with
  | case1 pos e =>
    rw [scan_regular_string_contents] at h
    cases h
    exact he
  | case2 pos e bs =>
    rw [scan_regular_string_contents, if_pos rfl] at h
    cases h
    exact he
  | case3 pos e bs _ escape =>
    rename_i ih
    rw [scan_regular_string_contents, if_neg (by decide), if_pos rfl] at h
    obtain ⟨r, hr, hres⟩ := Option.map_eq_some_iff.1 h
    obtain ⟨-, rfl⟩ := Prod.mk.inj hres
    exact ih hr (by cases e <;> simp_all)
  | case4 pos e bs hlarge =>
    exact absurd hlarge.1 he
  | case5 pos e bs hsmall _ _ ih =>
    rw [scan_regular_string_contents, if_neg (by decide), if_neg (by decide), if_pos rfl,
      if_neg hsmall] at h
    obtain ⟨r, hr, hres⟩ := Option.map_eq_some_iff.1 h
    obtain ⟨-, rfl⟩ := Prod.mk.inj hres
    exact ih hr (by cases e <;> simp)
  | case6 pos e b bs hq hb hn ht =>
    rw [scan_regular_string_contents, if_neg hq, if_neg hb, if_neg hn, if_pos ht] at h
    cases h
  | case7 pos e b bs hq hb hn ht ih =>
    rw [scan_regular_string_contents, if_neg hq, if_neg hb, if_neg hn, if_neg ht] at h
    obtain ⟨r, hr, hres⟩ := Option.map_eq_some_iff.1 h
    obtain ⟨-, rfl⟩ := Prod.mk.inj hres
    exact ih hr he

theorem scan_escape (hbs : bs ≠ [])
    (h : process_string_escape_into (byte '\\' :: bs) is_byte = .ok (d, n)) :
    scan_regular_string_contents start is_byte pos (byte '\\' :: bs) none =
      (scan_regular_string_contents start is_byte (pos + n) ((byte '\\' :: bs).drop n) none).map
        fun r => (n + r.1, r.2) := by
  obtain ⟨b, more, rfl⟩ := List.exists_cons_of_ne_nil hbs
  have hscan := (@parse_string_escape_none pos _ _ _ _).2 ⟨d, h⟩
  rw [scan_regular_string_contents, if_neg (by decide), if_pos rfl, hscan]
  rfl

/-- The scanner has nothing to report about contents of the grammar. -/
theorem scan_contents {start : Nat} {out post : List UInt8} (h : Contents is_byte body out)
    (hw : WellFormed (body ++ byte '"' :: post)) (pos : Nat) :
    scan_regular_string_contents start is_byte pos (body ++ byte '"' :: post) none =
      some (body.length, none) := by
  -- by the length, for one turn of the scanner takes all bytes of a character
  induction hlen : body.length using Nat.strongRecOn generalizing body out pos with
  | _ n ih =>
    cases h with
    | nil =>
      rw [nil_append, scan_regular_string_contents, if_pos rfl, ← hlen]
      rfl
    | @plain b t out hq hb hn h =>
      rw [cons_append] at hw ⊢
      obtain ⟨hnt, tails, rest, heq, hwidth, ht, -, hrest⟩ := hw.cases
      obtain ⟨body, out', rfl, rfl, h'⟩ := h.drop_tails ht heq.symm
      have hdrop : (b :: (tails ++ body ++ byte '"' :: post)).drop (width b) =
          body ++ byte '"' :: post := by
        rw [← hwidth, drop_succ_cons, append_assoc, drop_left]
      have hscan := ih body.length (by
        rw [← hlen, length_cons, length_append]
        omega) h' hrest (pos + width b) rfl
      rw [scan_regular_string_contents, if_neg hq, if_neg hb, if_neg hn, if_neg hnt, hdrop, hscan,
        Option.map_some, ← hlen, length_cons, length_append, ← hwidth]
      congr 2
      omega
    | @escape e d t out he h =>
      obtain ⟨bs, hbs, heq, hok, hdrop⟩ := he.taken (t ++ byte '"' :: post)
      rw [append_assoc] at hw ⊢
      have hrest : WellFormed (t ++ byte '"' :: post) := hw.drop_ascii he.shape.2
      have hpos : 0 < e.length := by
        obtain ⟨⟨b, t', rfl⟩, -⟩ := he.shape
        exact Nat.succ_pos _
      have hscan := ih t.length (by
        rw [← hlen, length_append]
        omega) h hrest (pos + e.length) rfl
      rw [heq, scan_escape hbs hok, hdrop, hscan, Option.map_some, ← hlen, length_append]

/-- What the scanner has nothing to report about are contents of the grammar. -/
theorem contents_of_scan (hw : WellFormed rest)
    (h : scan_regular_string_contents start is_byte pos rest none = some (n, none))
    (hq : rest[n]? = some (byte '"')) :
    ∃ body out post, rest = body ++ byte '"' :: post ∧ Contents is_byte body out ∧
      n = body.length := by
  generalize he : (none : Option token.Diagnostic) = e at h
  induction pos, rest, e using scan_regular_string_contents.induct start is_byte generalizing n with
  | case1 pos e => cases hq
  | case2 pos e bs =>
    rw [scan_regular_string_contents, if_pos rfl] at h
    obtain ⟨rfl, -⟩ := Prod.mk.inj (Option.some.inj h)
    exact ⟨[], [], bs, rfl, Contents.nil, rfl⟩
  | case3 pos e bs _ escape =>
    rename_i ih
    subst he
    rw [scan_regular_string_contents, if_neg (by decide), if_pos rfl] at h
    obtain ⟨r, hr, hres⟩ := Option.map_eq_some_iff.1 h
    obtain ⟨rfl, hnone⟩ := Prod.mk.inj hres
    have hdiag : escape.2 = none := by
      by_contra hne
      exact scan_keeps_error hr (by rwa [Option.none_or]) hnone
    cases bs with
    | nil =>
      -- a backslash at the end
      have hlen : escape.1 = 1 := rfl
      rw [hlen, Nat.add_comm] at hq
      cases hq
    | cons b more =>
      obtain ⟨d, hd⟩ := parse_string_escape_none.1 (Prod.ext rfl hdiag : escape = (escape.1, none))
      obtain ⟨e, post, heq, hlen, hesc⟩ := process_string_escape_ok.1 hd
      have hdrop : (byte '\\' :: b :: more).drop escape.1 = post := by
        rw [heq, hlen, drop_left]
      rw [heq] at hw
      obtain ⟨-, hascii⟩ := hesc.shape
      rw [← List.getElem?_drop, hdrop] at hq
      rw [hdrop, hdiag] at ih
      change scan_regular_string_contents start is_byte (pos + escape.1)
        ((byte '\\' :: b :: more).drop escape.1) (none.or escape.2) = some r at hr
      rw [hdrop, hdiag] at hr
      obtain ⟨body, out, post', rfl, hbody, hn⟩ := ih (hw.drop_ascii hascii) hq rfl
        (hr.trans (congrArg some (Prod.ext rfl hnone)))
      refine ⟨e ++ body, d ++ out, post', ?_, Contents.escape hesc hbody, ?_⟩
      · rw [heq, append_assoc]
      · rw [length_append, hn, hlen]
  | case4 pos e bs hlarge =>
    rw [scan_regular_string_contents, if_neg (by decide), if_neg (by decide), if_pos rfl,
      if_pos hlarge] at h
    cases h
  | case5 pos e bs hsmall _ _ ih =>
    subst he
    rw [scan_regular_string_contents, if_neg (by decide), if_neg (by decide), if_pos rfl,
      if_neg hsmall] at h
    obtain ⟨r, hr, hres⟩ := Option.map_eq_some_iff.1 h
    exact absurd (Prod.mk.inj hres).2 (scan_keeps_error hr (by simp))
  | case6 pos e b bs hq' hb hn ht =>
    rw [scan_regular_string_contents, if_neg hq', if_neg hb, if_neg hn, if_pos ht] at h
    cases h
  | case7 pos e b bs hq' hb hn ht ih =>
    subst he
    rw [scan_regular_string_contents, if_neg hq', if_neg hb, if_neg hn, if_neg ht] at h
    obtain ⟨r, hr, hres⟩ := Option.map_eq_some_iff.1 h
    obtain ⟨rfl, hnone⟩ := Prod.mk.inj hres
    obtain ⟨-, tails, post, rfl, hwidth, htails, -, hpost⟩ := hw.cases
    have hdrop : (b :: (tails ++ post)).drop (width b) = post := by
      rw [← hwidth, drop_succ_cons, drop_left]
    rw [← List.getElem?_drop, hdrop] at hq
    rw [hdrop] at ih hr
    have hr' : scan_regular_string_contents start is_byte (pos + width b) post none =
        some (r.1, none) := by rw [hr, ← hnone]
    obtain ⟨body, out, post', rfl, hbody, hn'⟩ := ih hpost hq rfl hr'
    refine ⟨b :: (tails ++ body), b :: (tails ++ out), post', ?_,
      Contents.plain hq' hb hn (hbody.tails htails), ?_⟩
    · rw [cons_append, append_assoc]
    · rw [length_cons, length_append, hn', ← hwidth]
      omega

/-! ## The extractor of byte strings -/

theorem process_byte_escape_ok : process_byte_escape (byte '\\' :: b :: more) = .ok v ↔
      process_string_escape_into (byte '\\' :: b :: more) true =
        .ok ([v], byte_escape_len (byte '\\' :: b :: more)) := by
  have hlen : byte_escape_len (byte '\\' :: b :: more) = if b = byte 'x' then 4 else 2 := by
    unfold byte_escape_len
    simp
  rw [hlen]
  unfold process_byte_escape process_string_escape_into
  dsimp only
  cases hv : simple_escapes.lookup b with
  | some w =>
    have hx : b ≠ byte 'x' := by
      rintro rfl
      rw [lookup_x] at hv
      cases hv
    simp [hx]
  | none =>
    by_cases hx : b = byte 'x'
    · subst hx
      rw [if_pos rfl, if_pos rfl, if_pos rfl]
      cases hex_escape more with
      | error e => simp [Except.map]
      | ok w => simp [Except.map]
    · simp only [if_neg hx]
      by_cases hu : b = byte 'u' <;> simp [hu]

/-- An escape of a byte string stands for one byte. -/
theorem Escape.one (h : Escape true e d) : ∃ v, d = [v] := by
  cases h with
  | simple _ => exact ⟨_, rfl⟩
  | hex _ _ => exact ⟨_, rfl⟩
  | unicode hbyte => cases hbyte

theorem Escape.byte_len (h : Escape true e d) (post : List UInt8) :
    byte_escape_len (e ++ post) = e.length := by
  unfold byte_escape_len
  cases h with
  | @simple b v hv =>
    have hx : b ≠ byte 'x' := by
      rintro rfl
      rw [lookup_x] at hv
      cases hv
    simp [hx]
  | hex _ _ => simp
  | unicode hbyte => cases hbyte

theorem extract_byte_escape (hbs : bs ≠ []) (h : process_byte_escape (byte '\\' :: bs) = .ok v) :
    extract_regular_byte_string_content (byte '\\' :: bs) = (extract_regular_byte_string_content
        ((byte '\\' :: bs).drop (byte_escape_len (byte '\\' :: bs)))).map (v :: ·) := by
  rw [extract_regular_byte_string_content, if_neg (by decide), if_pos rfl, if_neg hbs, h]

/-- The extractor of byte strings takes the same contents, where they are in ASCII. -/
theorem extract_regular_byte_ok : extract_regular_byte_string_content rest = .ok out ↔
    ∃ body post, rest = body ++ byte '"' :: post ∧ Contents true body out ∧
      ∀ b ∈ body, b.toNat < 0x80 := by
  constructor
  · intro h
    induction rest using extract_regular_byte_string_content.induct generalizing out with
    | case1 =>
      rw [extract_regular_byte_string_content] at h
      cases h
    | case2 bs =>
      rw [extract_regular_byte_string_content, if_pos rfl] at h
      obtain rfl := Except.ok.inj h
      exact ⟨[], bs, rfl, Contents.nil, by simp⟩
    | case3 =>
      rw [extract_regular_byte_string_content, if_neg (by decide), if_pos rfl, if_pos rfl] at h
      cases h
    | case4 bs hbs e _ he =>
      rw [extract_regular_byte_string_content, if_neg (by decide), if_pos rfl, if_neg hbs, he] at h
      cases h
    | case5 bs hbs v _ hv ih =>
      rw [extract_byte_escape hbs hv] at h
      obtain ⟨t, ht, rfl⟩ := map_ok h
      obtain ⟨body, post, hrest, hbody, hascii⟩ := ih ht
      obtain ⟨b, more, rfl⟩ := List.exists_cons_of_ne_nil hbs
      obtain ⟨e, post', heq, hlen, he⟩ := process_string_escape_ok.1 (process_byte_escape_ok.1 hv)
      rw [hlen, heq, drop_left] at hrest
      refine ⟨e ++ body, post, ?_, Contents.escape he hbody, ?_⟩
      · rw [heq, hrest, append_assoc]
      · intro x hx
        rcases List.mem_append.1 hx with hx | hx
        · exact he.shape.2 x hx
        · exact hascii x hx
    | case6 bs =>
      rw [extract_regular_byte_string_content, if_neg (by decide), if_neg (by decide),
        if_pos rfl] at h
      cases h
    | case7 b bs hq hb hn hhigh =>
      rw [extract_regular_byte_string_content, if_neg hq, if_neg hb, if_neg hn, if_pos hhigh] at h
      cases h
    | case8 b bs hq hb hn hlow ih =>
      rw [extract_regular_byte_string_content, if_neg hq, if_neg hb, if_neg hn, if_neg hlow] at h
      obtain ⟨t, ht, rfl⟩ := map_ok h
      obtain ⟨body, post, rfl, hbody, hascii⟩ := ih ht
      refine ⟨b :: body, post, rfl, Contents.plain hq hb hn hbody, ?_⟩
      intro x hx
      rcases mem_cons.1 hx with rfl | hx
      · rw [gt_iff_lt, UInt8.lt_iff_toNat_lt] at hlow
        exact Nat.lt_succ_of_le (Nat.not_lt.1 hlow)
      · exact hascii x hx
  · rintro ⟨body, post, rfl, h, hascii⟩
    induction h with
    | nil => rw [nil_append, extract_regular_byte_string_content, if_pos rfl]
    | @plain b t out hq hb hn _ ih =>
      have hlow : ¬b > 127 := by
        rw [gt_iff_lt, UInt8.lt_iff_toNat_lt]
        exact Nat.not_lt.2 (Nat.le_of_lt_succ (hascii b (.head _)))
      rw [cons_append, extract_regular_byte_string_content, if_neg hq, if_neg hb, if_neg hn,
        if_neg hlow, ih fun x hx => hascii x (.tail b hx)]
      rfl
    | @escape e d t out he _ ih =>
      obtain ⟨⟨b, t', rfl⟩, -⟩ := he.shape
      obtain ⟨v, rfl⟩ := he.one
      have hlen : byte_escape_len (byte '\\' :: b :: (t' ++ (t ++ byte '"' :: post))) =
          (byte '\\' :: b :: t').length := he.byte_len _
      have hok : process_byte_escape (byte '\\' :: b :: (t' ++ (t ++ byte '"' :: post))) = .ok v := by
        rw [process_byte_escape_ok, hlen]
        exact process_string_escape_ok.2 ⟨_, _, rfl, rfl, he⟩
      have hdrop : (byte '\\' :: b :: (t' ++ (t ++ byte '"' :: post))).drop
          (byte '\\' :: b :: t').length = t ++ byte '"' :: post := by
        rw [← cons_append, ← cons_append]
        exact drop_left
      rw [append_assoc, cons_append, cons_append, extract_byte_escape (by simp) hok,
        hlen, hdrop, ih fun x hx => hascii x (List.mem_append_right _ hx)]
      rfl

theorem check_raw_closing_hashes (h : check_raw_closing bs n = true) :
    ∃ post, bs = replicate n (byte '#') ++ post := by
  unfold check_raw_closing at h
  rw [Bool.and_eq_true, beq_iff_eq] at h
  have happ := List.takeWhile_append_dropWhile (p := (· = byte '#')) (l := bs.take n)
  have hall := all_eq_true.1 (all_takeWhile (p := (· = byte '#')) (l := bs.take n))
  have hlen := congrArg length happ
  generalize (bs.take n).takeWhile (· = byte '#') = hashes at *
  rw [length_append, List.length_take, h.1] at hlen
  have hrest : (bs.take n).dropWhile (· = byte '#') = [] := by
    apply List.eq_nil_of_length_eq_zero
    omega
  have hhashes : hashes = replicate n (byte '#') := by
    apply List.eq_replicate_iff.2
    exact ⟨h.1, fun b hb => by simpa using hall b hb⟩
  rw [hrest, append_nil] at happ
  refine ⟨bs.drop n, ?_⟩
  rw [← hhashes, happ, List.take_append_drop]

theorem extract_raw_ok {error : String} {n : Nat} {contents : List UInt8} :
    extract_raw error n contents = .ok out ↔
      raw_closing_found n contents = true ∧
        out = contents.take (scan_raw_string_contents n contents) := by
  unfold raw_closing_found
  induction contents generalizing out with
  | nil => simp [extract_raw, scan_raw_string_contents]
  | cons b bs ih =>
    unfold extract_raw scan_raw_string_contents
    by_cases hclose : b = byte '"' ∧ check_raw_closing bs n = true
    · rw [if_pos hclose, if_pos hclose]
      simp [hclose, eq_comm]
    · rw [if_neg hclose, if_neg hclose, Nat.add_comm, drop_succ_cons, List.take_succ_cons]
      constructor
      · intro h
        obtain ⟨t, ht, rfl⟩ := map_ok h
        obtain ⟨hfound, rfl⟩ := ih.1 ht
        exact ⟨hfound, rfl⟩
      · rintro ⟨hfound, rfl⟩
        rw [ih.2 ⟨hfound, rfl⟩]
        rfl

theorem raw_closing {contents : List UInt8} (h : raw_closing_found n contents = true) :
    ∃ post, contents = contents.take (scan_raw_string_contents n contents) ++
      (byte '"' :: (replicate n (byte '#') ++ post)) ∧
      (contents.take (scan_raw_string_contents n contents)).length =
        scan_raw_string_contents n contents := by
  unfold raw_closing_found at h
  split at h
  next b bs hdrop =>
    rw [Bool.and_eq_true, decide_eq_true_iff] at h
    obtain ⟨rfl, hclose⟩ := h
    obtain ⟨post, rfl⟩ := check_raw_closing_hashes hclose
    refine ⟨post, ?_, ?_⟩
    · rw [← hdrop, List.take_append_drop]
    · have hlen := congrArg length hdrop
      rw [length_drop, length_cons] at hlen
      rw [List.length_take]
      omega
  next => cases h

/-! ## The agreement -/

/-- The texts that the lexer takes for the beginning of a string literal. -/
def begins_string : List Char → Bool
  | '"' :: _ => true
  | 'r' :: c :: _ => c = '"' || c = '#'
  | 'b' :: '"' :: _ => true
  | 'b' :: 'r' :: c :: _ => c = '"' || c = '#'
  | _ => false

def is_byte_literal (text : List Char) : Bool := text.head? = some 'b'

def is_raw_literal : List Char → Bool
  | 'r' :: _ | 'b' :: 'r' :: _ => true
  | _ => false

/-- The extractor for a literal, with its flags. -/
def extract (content : List Char) (byte_offset : Nat) (text : List Char) :
    Option (Except String (List UInt8)) :=
  if is_byte_literal text then
    extract_byte_string_content content byte_offset (is_raw_literal text)
  else extract_string_content content byte_offset (is_raw_literal text) false

/-- The bytes before the opening quote. -/
def opening (is_byte is_raw : Bool) (hashes : Nat) : List UInt8 :=
  (if is_byte then [byte 'b'] else []) ++ (if is_raw then [byte 'r'] else []) ++
    replicate hashes (byte '#')

/-- The bytes of a literal from its first one to its last one, and what they stand for: the
bytes between the quotes of a raw literal, the contents by the rules of the escapes of another. -/
def Denotes (is_byte is_raw : Bool) (span out : List UInt8) : Prop :=
  ∃ hashes body, span = opening is_byte is_raw hashes ++ byte '"' :: body ++
      byte '"' :: replicate hashes (byte '#') ∧
    if is_raw then out = body else hashes = 0 ∧ Contents is_byte body out

/-- The scanner reports nothing exactly where the extractor succeeds, and there the decoded
bytes are those of the token. -/
def Agree (content : List Char) (byte_offset : Nat) (text : List Char) : Prop :=
  ((∃ scan, scan_string content byte_offset = some scan ∧ scan.diagnostic = none) ↔
    ∃ out, extract content byte_offset text = some (.ok out)) ∧
  ∀ scan out, scan_string content byte_offset = some scan → scan.diagnostic = none →
    extract content byte_offset text = some (.ok out) →
      Denotes (is_byte_literal text) (is_raw_literal text) ((encode text).take scan.byte_len) out

/-- A byte string, not raw, with sound escapes and a byte that is not in ASCII. -/
def HighByte (text : List Char) : Prop :=
  ∃ body out post, encode text = byte 'b' :: byte '"' :: (body ++ byte '"' :: post) ∧
    Contents true body out ∧ ∃ b ∈ body, 0x80 ≤ b.toNat

theorem scan_string_at {content : List Char} (h : suffixAt content byte_offset = some text)
    (hne : text ≠ []) :
    scan_string content byte_offset = scan_literal byte_offset (encode text) := by
  unfold scan_string
  cases text with
  | nil => exact absurd rfl hne
  | cons c cs => rw [h]

theorem drop_at {content : List Char} (h : suffixAt content byte_offset = some text) :
    (encode content).drop byte_offset = encode text := by
  obtain ⟨pre, rfl, rfl⟩ := suffixAt_some h
  exact drop_encode pre text

/-- The bytes before the quote of a literal that is not raw. -/
def mark (is_byte : Bool) : List UInt8 := if is_byte then [byte 'b'] else []

theorem scan_literal_regular (byte_offset : Nat) (is_byte : Bool) (contents : List UInt8) :
    ∃ kind pos message, pos = (mark is_byte).length + 1 ∧
      scan_literal byte_offset (mark is_byte ++ byte '"' :: contents) =
        (scan_regular_string_contents (byte_offset + pos) is_byte (byte_offset + pos) contents
          none).map fun r =>
            if contents[r.1]? = some (byte '"') then ⟨kind, pos + r.1 + 1, r.2⟩
            else ⟨kind, pos + r.1, some ⟨4, message, ⟨byte_offset, byte_offset + (pos + r.1)⟩⟩⟩ := by
  have hqb : (byte '"' == byte 'b') = false := by decide
  have hqr : (byte '"' == byte 'r') = false := by decide
  cases is_byte with
  | true =>
    refine ⟨.ByteStringLit, 2, "unterminated string literal", rfl, ?_⟩
    unfold scan_literal mark
    simp [hqr]
  | false =>
    refine ⟨.StringLit, 1, "unterminated string literal", rfl, ?_⟩
    unfold scan_literal mark
    simp [hqb, hqr]

theorem quiet_contents {contents : List UInt8} {scan : token.Scan} (hw : WellFormed contents)
    (h : scan_literal byte_offset (mark is_byte ++ byte '"' :: contents) = some scan)
    (hnone : scan.diagnostic = none) :
    ∃ body out post, contents = body ++ byte '"' :: post ∧ Contents is_byte body out := by
  obtain ⟨kind, pos, message, -, heq⟩ := scan_literal_regular byte_offset is_byte contents
  rw [heq] at h
  obtain ⟨⟨n, e⟩, hr, rfl⟩ := Option.map_eq_some_iff.1 h
  dsimp only at hnone
  split at hnone
  next hq =>
    obtain rfl : e = none := hnone
    obtain ⟨body, out, post, hrest, hbody, -⟩ := contents_of_scan hw hr hq
    exact ⟨body, out, post, hrest, hbody⟩
  next => cases hnone

theorem scan_of_contents {byte_offset : Nat} {is_byte : Bool} {body out post : List UInt8}
    (hw : WellFormed (body ++ byte '"' :: post)) (h : Contents is_byte body out) :
    ∃ kind, scan_literal byte_offset (mark is_byte ++ byte '"' :: (body ++ byte '"' :: post)) =
      some ⟨kind, (mark is_byte).length + 1 + body.length + 1, none⟩ := by
  obtain ⟨kind, pos, message, rfl, heq⟩ :=
    scan_literal_regular byte_offset is_byte (body ++ byte '"' :: post)
  refine ⟨kind, ?_⟩
  rw [heq, scan_contents h hw, Option.map_some, if_pos (by simp)]

theorem scan_literal_raw (byte_offset : Nat) (is_byte : Bool) (more : List UInt8) :
    let hashes := (more.takeWhile (· = byte '#')).length
    let rest := more.drop hashes
    let pos := (mark is_byte).length + 1 + hashes
    let kind := if is_byte then token.TokenKind.ByteStringLit else token.TokenKind.StringLit
    let content_len := scan_raw_string_contents hashes (rest.drop 1)
    scan_literal byte_offset (mark is_byte ++ byte 'r' :: more) =
      if rest.head? ≠ some (byte '"') then
        some ⟨kind, pos, some ⟨4, "expected opening quote for string literal",
          ⟨byte_offset, byte_offset + pos⟩⟩⟩
      else if raw_closing_found hashes (rest.drop 1) then
        some ⟨kind, pos + 1 + content_len + (1 + hashes), none⟩
      else
        some ⟨kind, pos + 1 + content_len, some ⟨4, "unterminated string literal",
          ⟨byte_offset, byte_offset + (pos + 1 + content_len)⟩⟩⟩ := by
  have hrb : (byte 'r' == byte 'b') = false := by decide
  have hle : (more.takeWhile (· = byte '#')).length ≤ more.length :=
    (List.takeWhile_prefix _).length_le
  unfold scan_literal
  cases is_byte with
  | true =>
    have hpos : more.length + 1 + 1 - (more.length - (more.takeWhile (· = byte '#')).length) =
        2 + (more.takeWhile (· = byte '#')).length := by omega
    simp [mark, hpos]
  | false =>
    have hpos : more.length + 1 - (more.length - (more.takeWhile (· = byte '#')).length) =
        1 + (more.takeWhile (· = byte '#')).length := by omega
    simp [mark, hrb, hpos]

theorem hashes_split {hashes : Nat} (hn : (more.takeWhile (· = byte '#')).length = hashes)
    (hq : (more.drop hashes).head? = some (byte '"')) :
    more = replicate hashes (byte '#') ++ byte '"' :: (more.drop hashes).drop 1 := by
  have happ := List.takeWhile_append_dropWhile (p := (· = byte '#')) (l := more)
  have hall := all_eq_true.1 (all_takeWhile (p := (· = byte '#')) (l := more))
  generalize more.takeWhile (· = byte '#') = marks at *
  generalize more.dropWhile (· = byte '#') = rest at *
  have hrep : marks = replicate hashes (byte '#') :=
    List.eq_replicate_iff.2 ⟨hn, fun b hb => by simpa using hall b hb⟩
  subst happ hn
  rw [drop_left] at hq ⊢
  rw [← hrep]
  cases rest with
  | nil => cases hq
  | cons b bs =>
    obtain rfl := Option.some.inj hq
    rfl

theorem skip_prefix_regular (is_byte : Bool) (contents : List UInt8) :
    skip_prefix (mark is_byte ++ byte '"' :: contents) = (0, byte '"' :: contents) := by
  have hqb : byte '"' ≠ byte 'b' := by decide
  have hqr : byte '"' ≠ byte 'r' := by decide
  have hqh : byte '"' ≠ byte '#' := by decide
  unfold skip_prefix
  cases is_byte with
  | true => simp [mark, hqr, hqh]
  | false => simp [mark, hqb, hqr, hqh]

theorem skip_prefix_raw (is_byte : Bool) (more : List UInt8) :
    skip_prefix (mark is_byte ++ byte 'r' :: more) = ((more.takeWhile (· = byte '#')).length,
        more.drop (more.takeWhile (· = byte '#')).length) := by
  have hrb : byte 'r' ≠ byte 'b' := by decide
  unfold skip_prefix
  cases is_byte with
  | true => simp [mark]
  | false => simp [mark, hrb]

/-- A text that begins a literal has the marks of its flags, and a quote or an `r`. -/
theorem begins_string_cases (h : begins_string text = true) : text ≠ [] ∧
      (is_raw_literal text = false ∧
          (∃ cs, encode text = mark (is_byte_literal text) ++ byte '"' :: encode cs) ∨
        is_raw_literal text = true ∧
          ∃ cs, encode text = mark (is_byte_literal text) ++ byte 'r' :: encode cs) := by
  unfold begins_string at h
  split at h
  next cs => exact ⟨by simp, .inl ⟨rfl, cs, rfl⟩⟩
  next c cs => exact ⟨by simp, .inr ⟨rfl, c :: cs, rfl⟩⟩
  next cs => exact ⟨by simp, .inl ⟨rfl, cs, rfl⟩⟩
  next c cs => exact ⟨by simp, .inr ⟨rfl, c :: cs, rfl⟩⟩
  next => cases h

section

variable {content text cs : List Char} {byte_offset : Nat}

theorem extract_regular (hat : suffixAt content byte_offset = some text)
    (hraw : is_raw_literal text = false)
    (henc : encode text = mark (is_byte_literal text) ++ byte '"' :: encode cs) {out : List UInt8} :
    extract content byte_offset text = some (.ok out) ↔
      ∃ body post, encode cs = body ++ byte '"' :: post ∧
        Contents (is_byte_literal text) body out ∧
        (is_byte_literal text = true → ∀ b ∈ body, b.toNat < 0x80) := by
  have hne : encode text ≠ [] := by
    rw [henc]
    simp
  unfold extract extract_byte_string_content extract_string_content
  rw [drop_at hat, hraw]
  rw [if_neg hne, if_neg hne, henc, skip_prefix_regular]
  cases is_byte_literal text with
  | true => simp [extract_regular_byte_ok]
  | false => simp [extract_regular_ok]

theorem agree_regular (hat : suffixAt content byte_offset = some text) (hne : text ≠ [])
    (hraw : is_raw_literal text = false)
    (henc : encode text = mark (is_byte_literal text) ++ byte '"' :: encode cs) :
    Agree content byte_offset text ↔
      ¬(is_byte_literal text = true ∧ ∃ body out post, encode cs = body ++ byte '"' :: post ∧
        Contents true body out ∧ ∃ b ∈ body, 0x80 ≤ b.toNat) := by
  have hextract := fun out => @extract_regular content text cs byte_offset hat hraw henc out
  have hw := wellFormed_encode cs
  unfold Agree
  rw [scan_string_at hat hne, hraw]
  generalize is_byte_literal text = is_byte at *
  rw [henc]
  constructor
  · rintro ⟨hiff, -⟩ ⟨rfl, body, out, post, heq, hbody, b, hb, hhigh⟩
    rw [heq] at hw hiff
    obtain ⟨kind, hscan⟩ := @scan_of_contents byte_offset _ _ _ _ hw hbody
    obtain ⟨out', hout'⟩ := hiff.1 ⟨_, hscan, rfl⟩
    obtain ⟨body', post', heq', hbody', hascii⟩ := (hextract out').1 hout'
    -- the two ends are the same
    rw [heq] at heq'
    have hscan' := @scan_contents _ _ 0 _ _ hbody hw 0
    have hscan'' := @scan_contents _ _ 0 _ _ hbody' (heq' ▸ hw) 0
    rw [heq', hscan''] at hscan'
    have hlen := (Prod.mk.inj (Option.some.inj hscan')).1
    obtain rfl := (List.append_inj heq' hlen.symm).1
    exact absurd (hascii rfl b hb) (Nat.not_lt.2 hhigh)
  · intro hhigh
    refine ⟨⟨?_, ?_⟩, ?_⟩
    · rintro ⟨scan, hscan, hnone⟩
      obtain ⟨body, out, post, heq, hbody⟩ := quiet_contents hw hscan hnone
      refine ⟨out, (hextract out).2 ⟨body, post, heq, hbody, ?_⟩⟩
      rintro rfl b hb
      by_contra hlt
      exact hhigh ⟨rfl, body, out, post, heq, hbody, b, hb, Nat.not_lt.1 hlt⟩
    · rintro ⟨out, hout⟩
      obtain ⟨body, post, heq, hbody, -⟩ := (hextract out).1 hout
      rw [heq] at hw ⊢
      obtain ⟨kind, hscan⟩ := @scan_of_contents byte_offset _ _ _ _ hw hbody
      exact ⟨_, hscan, rfl⟩
    · intro scan out hscan _ hout
      obtain ⟨body, post, heq, hbody, -⟩ := (hextract out).1 hout
      rw [heq] at hw hscan ⊢
      obtain ⟨kind, hscan'⟩ := @scan_of_contents byte_offset _ _ _ _ hw hbody
      rw [hscan'] at hscan
      obtain rfl := Option.some.inj hscan
      refine ⟨0, body, ?_, ?_⟩
      · have hsplit : mark is_byte ++ byte '"' :: (body ++ byte '"' :: post) =
            (opening is_byte false 0 ++ byte '"' :: body ++ byte '"' ::
              replicate 0 (byte '#')) ++ post := by
          simp [opening, mark]
        rw [hsplit]
        apply List.take_left'
        simp [opening, mark]
        omega
      · rw [if_neg (by decide)]
        exact ⟨rfl, hbody⟩

theorem agree_raw (hat : suffixAt content byte_offset = some text) (hne : text ≠ [])
    (hraw : is_raw_literal text = true)
    (henc : encode text = mark (is_byte_literal text) ++ byte 'r' :: encode cs) :
    Agree content byte_offset text := by
  have hne' : encode text ≠ [] := by
    rw [henc]
    simp
  have hextract : ∃ error, extract content byte_offset text =
      if ((encode cs).drop ((encode cs).takeWhile (· = byte '#')).length).head? ≠
          some (byte '"') then some (.error "missing opening quote")
      else some (extract_raw error ((encode cs).takeWhile (· = byte '#')).length
        (((encode cs).drop ((encode cs).takeWhile (· = byte '#')).length).drop 1)) := by
    unfold extract extract_byte_string_content extract_string_content
      extract_raw_byte_string_content extract_raw_string_content
    rw [drop_at hat, hraw]
    dsimp only
    rw [if_neg hne', if_neg hne', henc, skip_prefix_raw]
    cases is_byte_literal text with
    | true => exact ⟨"unterminated raw byte string", rfl⟩
    | false => exact ⟨"unterminated raw string", rfl⟩
  obtain ⟨error, hextract⟩ := hextract
  unfold Agree
  rw [scan_string_at hat hne, hraw, hextract]
  generalize is_byte_literal text = is_byte at *
  rw [henc, scan_literal_raw]
  generalize hn : ((encode cs).takeWhile (· = byte '#')).length = hashes
  by_cases hq : ((encode cs).drop hashes).head? = some (byte '"')
  · -- the quote stands behind the hashes
    rw [if_neg (not_not_intro hq), if_neg (not_not_intro hq)]
    generalize hcontents : ((encode cs).drop hashes).drop 1 = contents
    cases hclose : raw_closing_found hashes contents with
    | false =>
      have herror : ∀ out, extract_raw error hashes contents ≠ .ok out := by
        intro out hout
        rw [(extract_raw_ok.1 hout).1] at hclose
        cases hclose
      simp [herror]
    | true =>
      have hok := (@extract_raw_ok _ error _ _).2 ⟨hclose, rfl⟩
      rw [hok, if_pos rfl]
      refine ⟨⟨fun _ => ⟨_, rfl⟩, fun _ => ⟨_, rfl, rfl⟩⟩, ?_⟩
      intro scan out hscan _ hout
      obtain rfl := Option.some.inj hscan
      obtain rfl := Except.ok.inj (Option.some.inj hout)
      obtain ⟨post, heq, hlen⟩ := raw_closing hclose
      have hmore := hashes_split hn hq
      rw [hcontents, heq] at hmore
      generalize contents.take (scan_raw_string_contents hashes contents) = body at *
      refine ⟨hashes, body, ?_, rfl⟩
      have hsplit : mark is_byte ++ byte 'r' :: encode cs =
          (opening is_byte true hashes ++ byte '"' :: body ++ byte '"' ::
            replicate hashes (byte '#')) ++ post := by
        simp [hmore, opening, mark]
      rw [hsplit]
      apply List.take_left'
      rw [← hlen]
      simp [opening, mark]
      omega
  · rw [if_pos hq, if_pos hq]
    simp

end

theorem high_byte_regular {cs : List Char}
    (henc : encode text = mark (is_byte_literal text) ++ byte '"' :: encode cs) :
    HighByte text ↔ is_byte_literal text = true ∧ ∃ body out post,
      encode cs = body ++ byte '"' :: post ∧ Contents true body out ∧
        ∃ b ∈ body, 0x80 ≤ b.toNat := by
  unfold HighByte
  rw [henc]
  cases is_byte_literal text with
  | true => simp [mark]
  | false =>
    have hqb : byte '"' ≠ byte 'b' := by decide
    simp [mark, hqb]

theorem high_byte_raw {cs : List Char}
    (henc : encode text = mark (is_byte_literal text) ++ byte 'r' :: encode cs) :
    ¬HighByte text := by
  have hrb : byte 'r' ≠ byte 'b' := by decide
  have hrq : byte 'r' ≠ byte '"' := by decide
  unfold HighByte
  rw [henc]
  cases is_byte_literal text with
  | true => simp [mark, hrq]
  | false => simp [mark, hrb]

/-- Scanner and extractor agree about every string literal but the byte strings with a byte
outside ASCII, which only the extractor refuses. -/
theorem scanner_and_extractor_agree {content text : List Char} {byte_offset : Nat}
    (hat : suffixAt content byte_offset = some text) (h : begins_string text = true) :
    Agree content byte_offset text ↔ ¬HighByte text := by
  obtain ⟨hne, ⟨hraw, cs, henc⟩ | ⟨hraw, cs, henc⟩⟩ := begins_string_cases h
  · rw [high_byte_regular henc]
    exact agree_regular hat hne hraw henc
  · exact iff_of_true (agree_raw hat hne hraw henc) (high_byte_raw henc)

theorem plain_string_agrees : Agree ['"', 'a', '"'] 0 ['"', 'a', '"'] := by
  apply (scanner_and_extractor_agree rfl rfl).2
  rintro ⟨_, _, _, heq, -⟩
  exact absurd (cons.inj heq).1 (by decide)

/-- The extractor refuses the byte string of `é`, about which the scanner says nothing. -/
theorem high_byte_string_disagrees : ¬Agree ['b', '"', 'é', '"'] 0 ['b', '"', 'é', '"'] := by
  rintro ⟨hiff, -⟩
  have hscan : scan_string ['b', '"', 'é', '"'] 0 = some ⟨.ByteStringLit, 5, none⟩ := by
    decide +kernel
  have hextract : extract ['b', '"', 'é', '"'] 0 ['b', '"', 'é', '"'] =
      some (.error "non-ASCII byte in byte string (use escape)") := by
    decide +kernel
  obtain ⟨out, hout⟩ := hiff.1 ⟨_, hscan, rfl⟩
  rw [hextract] at hout
  cases hout

end paideia_as_lexer.strings

namespace paideia_as_lexer.chars

open Utf8 strings

/-! ## Escapes

As in strings, an escape is seen as the bytes from its backslash on. Its character is given by
the number, for no byte of the source is copied. -/

/-- The quote around the character. -/
def QUOTE : Char := Char.ofNat 0x27

def parse_hex_escape (start : Nat) (rest : List UInt8) :
    Option Nat × Nat × Option token.Diagnostic :=
  match rest with
  | _ :: _ :: d1 :: d2 :: _ =>
    match parse_hex_digit d1, parse_hex_digit d2 with
    | some h1, some h2 => (some ((h1 <<< 4) ||| h2).toNat, 4, none)
    | _, _ =>
      (none, 4, some ⟨8, "invalid hex escape sequence (expected two hex digits)",
        ⟨start, start + 4⟩⟩)
  | _ =>
    (none, rest.length, some ⟨8, "incomplete hex escape sequence (expected \\xHH)",
      ⟨start, start + rest.length⟩⟩)

def parse_unicode_escape (start : Nat) (rest : List UInt8) :
    Option Nat × Nat × Option token.Diagnostic :=
  if rest.length ≤ 3 ∨ rest[2]? ≠ some (byte '{') then
    (none, 3, some ⟨16, "incomplete Unicode escape (expected \\u\x7b...\x7d)", ⟨start, start + 3⟩⟩)
  else
    let hex_str := (rest.drop 3).takeWhile (· ≠ byte '}')
    let hex_end := 3 + hex_str.length
    if hex_end ≥ rest.length then
      (none, hex_end, some ⟨16, "unclosed Unicode escape", ⟨start, start + hex_end⟩⟩)
    else
      let span : token.Span := ⟨start, start + (hex_end + 1)⟩
      if hex_str = [] then (none, hex_end + 1, some ⟨16, "empty Unicode escape", span⟩)
      else
        match from_hex hex_str with
        | some val =>
          if val > 0x10FFFF then
            (none, hex_end + 1, some ⟨16, "Unicode codepoint out of range", span⟩)
          else if 0xD800 ≤ val ∧ val ≤ 0xDFFF then
            (none, hex_end + 1,
              some ⟨17, "surrogate codepoint not allowed in Unicode escape", span⟩)
          else (some val, hex_end + 1, none)
        | none => (none, hex_end + 1, some ⟨16, "invalid hex digits in Unicode escape", span⟩)

def parse_escape_sequence (start : Nat) (rest : List UInt8) (is_byte : Bool) :
    Option Nat × Nat × Option token.Diagnostic :=
  match rest with
  | _ :: b :: _ =>
    match simple_escapes.lookup b with
    | some v => (some v.toNat, 2, none)
    | none =>
      if b = byte 'x' then parse_hex_escape start rest
      else if b = byte 'u' then
        if is_byte then
          let esc_len := (parse_unicode_escape start rest).2.1
          (none, esc_len, some ⟨8, "Unicode escape not allowed in byte literal",
            ⟨start, start + esc_len⟩⟩)
        else parse_unicode_escape start rest
      else (none, 2, some ⟨8, "unknown escape sequence", ⟨start, start + 2⟩⟩)
  | _ => (none, 1, none)

/-- The text is that behind the opening quote: the bytes that are taken, the character, and
what there is to report. -/
def scan_char_contents (start : Nat) (text : List Char) (is_byte : Bool) :
    Nat × Option Nat × Option token.Diagnostic :=
  match text with
  | [] => (0, none, none)
  | ch :: rest =>
    if ch = '\\' then
      let (escape_char, escape_len, diag) := parse_escape_sequence start (encode text) is_byte
      match (encode text)[escape_len]? with
      | some b =>
        if b = byte QUOTE then (escape_len, escape_char, diag)
        else
          (escape_len, escape_char, some ⟨7, "character literal contains more than one character",
              ⟨start, start + escape_len + 1⟩⟩)
      | none => (escape_len, escape_char, diag)
    else if rest = [] ∨ rest.head? = some QUOTE then (ch.utf8Size, some ch.toNat, none)
    else
      (ch.utf8Size, some ch.toNat,
        some ⟨7, "character literal contains more than one character", ⟨start, start + 1⟩⟩)

def scan_char (content : List Char) (byte_offset : Nat) : Option token.Scan :=
  match suffixAt content byte_offset with
  | none | some [] => none
  | some (c :: cs) =>
    let is_byte := c = 'b'
    let quoted := if is_byte then cs else c :: cs
    -- the opening quote is asserted
    if quoted.head? ≠ some QUOTE then none
    else
      let inner := quoted.drop 1
      let opening_len := if is_byte then 2 else 1
      let (content_len, codepoint, diag) :=
        scan_char_contents (byte_offset + opening_len) inner is_byte
      let closing_present := (encode inner)[content_len]? = some (byte QUOTE)
      let total_len := opening_len + content_len + if closing_present then 1 else 0
      let span : token.Span := ⟨byte_offset, byte_offset + total_len⟩
      some {
        kind := if is_byte then .ByteLit else .CharLit
        byte_len := total_len
        diagnostic :=
          match diag with
          | some d => some d
          | none =>
            if codepoint = none ∧ closing_present then
              some ⟨7, "character literal must contain exactly one character", span⟩
            else if ¬closing_present then some ⟨7, "unterminated character literal", span⟩
            else none }

end paideia_as_lexer.chars
