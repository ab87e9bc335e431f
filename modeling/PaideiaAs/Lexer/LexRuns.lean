-- Runs of the lexer: every turn takes whole characters from the front of what is left, as
-- long as no escape of a literal is cut off by the bytes that the scanner takes for it.
import PaideiaAs.Lexer.Lex

namespace paideia_as_lexer.lex

open Utf8 chars scan strings Tiling Radix
open List (append_assoc cons cons_append drop_drop drop_left drop_succ_cons drop_zero head?_cons
  head?_drop length_append length_cons length_drop mem_cons replicate)

/-! ## Numbers -/

/-- The first `n` characters are there, and in ASCII. -/
def Ascii (text : List Char) (n : Nat) : Prop :=
  n ≤ text.length ∧ ∀ c ∈ text.take n, c.toNat < 0x80

variable {text : List Char} {n : Nat} {c : Char} {rest bs : List UInt8} {lexer lexer' : Lexer}
  {sink sink' : Sink}

theorem Ascii.append {m : Nat} (hm : Ascii text m)
    (hn : Ascii (text.drop m) n) : Ascii text (m + n) := by
  obtain ⟨hle, hall⟩ := hm
  obtain ⟨hle', hall'⟩ := hn
  rw [length_drop] at hle'
  refine ⟨by omega, ?_⟩
  intro c hc
  rw [List.take_add] at hc
  rcases List.mem_append.1 hc with hc | hc
  · exact hall c hc
  · exact hall' c hc

theorem ascii_zero (text : List Char) : Ascii text 0 := ⟨Nat.zero_le _, by simp⟩

theorem ascii_cons {cs : List Char} (hc : c.toNat < 0x80) (h : Ascii cs n) :
    Ascii (c :: cs) (1 + n) := by
  have hone : Ascii (c :: cs) 1 := ⟨by simp, by simpa using hc⟩
  exact hone.append h

theorem ascii_of_append {pre post : List Char} (heq : pre ++ post = text)
    (h : ∀ c ∈ pre, c.toNat < 0x80) : Ascii text pre.length := by
  subst heq
  refine ⟨by simp, ?_⟩
  rwa [List.take_left]

theorem digit_ascii {base : Nat} (h : (toDigit base c).isSome) : c.toNat < 0x80 := by
  by_contra hge
  unfold toDigit at h
  dsimp only at h
  split_ifs at h <;> first | omega | simp at h

theorem ascii_int_part (base : Nat) (b : Bool) (cs : List Char) :
    Ascii cs (scan_int_part base b cs).1.length := by
  apply ascii_of_append (scan_int_part_append base b cs)
  intro c hc
  rcases scan_int_part_chars base b cs c hc with h | rfl
  · exact digit_ascii h
  · decide

theorem ascii_suffix (first : Bool) (cs : List Char) :
    Ascii cs (scan_suffix first cs).1.length := by
  apply ascii_of_append (scan_suffix_append first cs)
  induction cs generalizing first with
  | nil => simp [scan_suffix]
  | cons c cs ih =>
    unfold scan_suffix
    split
    next h =>
      intro d hd
      rcases mem_cons.1 hd with rfl | hd
      · rcases h with h | rfl | ⟨-, h⟩
        · have hle := of_decide_eq_true (Bool.and_eq_true_iff.mp h).2
          exact Nat.lt_of_le_of_lt (UInt32.le_iff_toNat_le.mp hle) (by decide)
        · decide
        · exact digit_ascii h
      · exact ih false d hd
    next => simp

theorem ascii_mark (text : List Char) : Ascii text (mark_len text) ∧
    text.drop (mark_len text) = (base_and_digits text).2 := by
  unfold mark_len
  obtain ⟨h, -⟩ | ⟨c, rest, rfl, hc⟩ := base_and_digits_cases text
  · rw [h]
    simp [ascii_zero]
  · have hascii : c.toNat < 0x80 := by
      rcases hc with ⟨rfl | rfl, -⟩ | ⟨rfl | rfl, -⟩ | ⟨rfl | rfl, -⟩ <;> decide
    have hrest : (base_and_digits ('0' :: c :: rest)).2 = rest := by
      rcases hc with ⟨-, h⟩ | ⟨-, h⟩ | ⟨-, h⟩ <;> rw [h]
    have hlen : ('0' :: c :: rest).length - rest.length = 1 + (1 + 0) := by
      simp only [length_cons]
      omega
    rw [hrest, hlen]
    exact ⟨ascii_cons (by decide) (ascii_cons hascii (ascii_zero _)), rfl⟩

theorem ascii_float_part (content : List Char) {int_len : Nat} (int_start : Nat)
    (h : Ascii content int_len) : Ascii content (scan_float_part content int_len int_start).1 ∧
      int_len ≤ (scan_float_part content int_len int_start).1 := by
  unfold scan_float_part
  lift_lets
  intro point sign exponent len len' suffix
  have hpoint : ∀ text, Ascii text (point text) := by
    intro text
    dsimp only [point]
    split
    · exact ascii_cons (by decide) (ascii_int_part _ _ _)
    · exact ascii_zero _
  have hsign : ∀ text, Ascii text (sign text) := by
    intro text
    dsimp only [sign]
    split
    next c cs =>
      split
      next hc =>
        have hascii : c.toNat < 0x80 := by rcases hc with rfl | rfl <;> decide
        exact ascii_cons hascii (ascii_zero cs)
      next => exact ascii_zero _
    next => exact ascii_zero _
  have hexponent : ∀ text, Ascii text (exponent text) := by
    intro text
    dsimp only [exponent]
    split
    next c cs =>
      split
      next hc =>
        have hascii : c.toNat < 0x80 := by rcases hc with rfl | rfl <;> decide
        rw [Nat.add_assoc]
        exact ascii_cons hascii ((hsign cs).append (ascii_int_part _ _ _))
      next => exact ascii_zero _
    next => exact ascii_zero _
  refine ⟨((h.append (hpoint _)).append (hexponent _)).append (ascii_suffix true _), ?_⟩
  show int_len ≤ int_len + point (content.drop int_len) + exponent (content.drop len) + suffix.length
  omega

theorem is_ascii_digit_toDigit (h : is_ascii_digit c = true) :
    c.toNat < 0x80 ∧ (toDigit 10 c).isSome = true := by
  unfold is_ascii_digit at h
  rw [Bool.and_eq_true, decide_eq_true_iff, decide_eq_true_iff, Char.le_def, Char.le_def,
    UInt32.le_iff_toNat_le, UInt32.le_iff_toNat_le] at h
  have hlow : 48 ≤ c.toNat := h.1
  have hhigh : c.toNat ≤ 57 := h.2
  refine ⟨by omega, ?_⟩
  unfold toDigit
  simp only [if_pos (And.intro hlow hhigh)]
  rw [if_pos (by omega)]
  rfl

theorem ascii_int_suffix (base : Nat) (text : List Char) :
    Ascii text ((scan_int_part base false text).1.length +
      (scan_suffix true (scan_int_part base false text).2).1.length) := by
  apply (ascii_int_part base false text).append
  have happ := scan_int_part_append base false text
  have hdrop : text.drop (scan_int_part base false text).1.length =
      (scan_int_part base false text).2 := by
    have hleft := @List.drop_left Char (scan_int_part base false text).1
      (scan_int_part base false text).2
    rwa [happ] at hleft
  rw [hdrop]
  exact ascii_suffix true _

theorem takes_number (cs : List Char) (byte_offset : Nat) (h : is_ascii_digit c = true) :
    Takes (c :: cs) (scan_number (c :: cs) byte_offset).byte_len := by
  -- without a mark the digit itself is in the integer part
  have hpos : mark_len (c :: cs) = 0 → 0 < (scan_int_part (base_and_digits (c :: cs)).1 false
      (base_and_digits (c :: cs)).2).1.length := by
    intro hmark
    unfold mark_len at hmark
    obtain ⟨heq, -⟩ | ⟨d, rest, heq, hd⟩ := base_and_digits_cases (c :: cs)
    · rw [heq, scan_int_part, if_pos (is_ascii_digit_toDigit h).2]
      simp
    · have hrest : (base_and_digits (c :: cs)).2 = rest := by
        rcases hd with ⟨-, h⟩ | ⟨-, h⟩ | ⟨-, h⟩ <;> rw [h]
      rw [hrest, heq] at hmark
      simp only [length_cons] at hmark
      omega
  obtain ⟨hmark, hdrop⟩ := ascii_mark (c :: cs)
  have hint := ascii_int_part (base_and_digits (c :: cs)).1 false (base_and_digits (c :: cs)).2
  have hsuffix := ascii_int_suffix (base_and_digits (c :: cs)).1 (base_and_digits (c :: cs)).2
  obtain ⟨hfloat, hle⟩ := ascii_float_part (base_and_digits (c :: cs)).2
    (byte_offset + mark_len (c :: cs)) hint
  rw [← hdrop] at hint hsuffix hfloat
  have hall : Ascii (c :: cs) (scan_number (c :: cs) byte_offset).byte_len ∧
      0 < (scan_number (c :: cs) byte_offset).byte_len := by
    unfold scan_number
    dsimp only
    rw [← hdrop] at hle hpos ⊢
    split
    · exact ⟨hmark.append hfloat, by dsimp only; omega⟩
    · split
      · exact ⟨hmark.append hint, by dsimp only; omega⟩
      · exact ⟨hmark.append hsuffix, by dsimp only; omega⟩
  exact takes_ascii hall.2 hall.1.1 hall.1.2

/-! ## Blanks, comments, identifiers and operators -/

/-- What is taken are whole characters, and no character is reported to begin nothing. -/
def Sound (text : List Char) (byte_len : Nat) (diagnostic : Option token.Diagnostic) : Prop :=
  Takes text byte_len ∧ ∀ d ∈ diagnostic, d.code ≠ 11

/-- And no token is the end of the file. -/
def SoundToken (text : List Char) (scan : token.Scan) : Prop :=
  Sound text scan.byte_len scan.diagnostic ∧ scan.kind ≠ .Eof

theorem sound_of_takes (h : Takes text n) : Sound text n none :=
  ⟨h, by simp⟩

theorem sound_whitespace {byte_offset : Nat} {ws : TriviaScan}
    (h : scan_whitespace byte_offset text = some ws) : Sound text ws.byte_len ws.diagnostic := by
  unfold scan_whitespace at h
  split at h
  next => cases h
  next c cs =>
    split at h
    next hc =>
      cases h
      subst hc
      exact sound_of_takes (takes_cons '\n' cs)
    next =>
      split at h
      next hc =>
        cases h
        obtain ⟨rfl, hc⟩ := hc
        cases cs with
        | nil => cases hc
        | cons d ds =>
          obtain rfl := Option.some.inj hc
          exact sound_of_takes ⟨['\r', '\n'], ds, rfl, by simp, rfl⟩
      next =>
        split at h
        next hc =>
          cases h
          subst hc
          exact ⟨takes_cons ZWSP cs, by simp⟩
        next =>
          split at h
          next =>
            cases h
            exact sound_of_takes (takes_takeWhile c cs _)
          next => cases h

theorem sound_line_comment (cs : List Char) : Sound ('/' :: cs)
    (scan_line_comment ('/' :: cs)).byte_len (scan_line_comment ('/' :: cs)).diagnostic := by
  have hslash : ('/' :: cs).takeWhile (· ≠ '\n') = '/' :: cs.takeWhile (· ≠ '\n') :=
    List.takeWhile_cons_of_pos (by decide)
  apply sound_of_takes
  unfold scan_line_comment
  dsimp only
  rw [hslash]
  exact takes_takeWhile '/' cs _

/-- The end of a comment is found behind a character. -/
theorem block_end_split {depth len : Nat} (h : block_end depth text = some len) :
    ∃ pre post, text = pre ++ post ∧ len = size pre := by
  induction depth, text using block_end.induct generalizing len with
  | case1 depth a b cs hopen ih =>
    rw [block_end, if_pos hopen] at h
    obtain ⟨n, hn, rfl⟩ := Option.map_eq_some_iff.1 h
    obtain ⟨pre, post, rfl, rfl⟩ := ih hn
    obtain ⟨rfl, rfl⟩ := hopen
    refine ⟨'/' :: '*' :: pre, post, rfl, ?_⟩
    rw [size_cons, size_cons, ← Nat.add_assoc]
    rfl
  | case2 a b cs hopen hclose =>
    rw [block_end, if_neg hopen, if_pos hclose, if_pos rfl] at h
    cases h
    obtain ⟨rfl, rfl⟩ := hclose
    exact ⟨['*', '/'], cs, rfl, rfl⟩
  | case3 depth a b cs hopen hclose hdepth ih =>
    rw [block_end, if_neg hopen, if_pos hclose, if_neg hdepth] at h
    obtain ⟨n, hn, rfl⟩ := Option.map_eq_some_iff.1 h
    obtain ⟨pre, post, rfl, rfl⟩ := ih hn
    obtain ⟨rfl, rfl⟩ := hclose
    refine ⟨'*' :: '/' :: pre, post, rfl, ?_⟩
    rw [size_cons, size_cons, ← Nat.add_assoc]
    rfl
  | case4 depth a b cs hopen hclose ih =>
    rw [block_end, if_neg hopen, if_neg hclose] at h
    obtain ⟨n, hn, rfl⟩ := Option.map_eq_some_iff.1 h
    obtain ⟨pre, post, heq, rfl⟩ := ih hn
    refine ⟨a :: pre, post, by rw [heq, cons_append], ?_⟩
    rw [size_cons]
  | case5 depth text hshort =>
    unfold block_end at h
    split at h
    next a b cs => exact absurd rfl (hshort a b cs)
    next => cases h

theorem sound_block_comment (byte_offset : Nat) (cs : List Char) : Sound ('/' :: '*' :: cs)
    (scan_block_comment byte_offset ('/' :: '*' :: cs)).byte_len
    (scan_block_comment byte_offset ('/' :: '*' :: cs)).diagnostic := by
  unfold scan_block_comment
  dsimp only [drop_succ_cons, drop_zero]
  split
  next len hlen =>
    obtain ⟨pre, post, rfl, rfl⟩ := block_end_split hlen
    apply sound_of_takes
    refine ⟨'/' :: '*' :: pre, post, rfl, by simp, ?_⟩
    rw [size_cons, size_cons, ← Nat.add_assoc]
    rfl
  next =>
    refine ⟨⟨'/' :: '*' :: cs, [], ?_, by simp, rfl⟩, by simp⟩
    rw [List.append_nil]

variable (is_xid_start is_xid_continue : Char → Bool)

theorem sound_raw_identifier (byte_offset : Nat) (cs : List Char) :
    SoundToken (BACKTICK :: cs) (scan_raw_identifier byte_offset cs) := by
  have hmark : BACKTICK.utf8Size = 1 := rfl
  unfold scan_raw_identifier
  dsimp only
  have happ := List.takeWhile_append_dropWhile
    (p := fun d => decide (d ≠ BACKTICK ∧ d ≠ '\n')) (l := cs)
  generalize cs.takeWhile (fun d => decide (d ≠ BACKTICK ∧ d ≠ '\n')) = inner at *
  generalize cs.dropWhile (fun d => decide (d ≠ BACKTICK ∧ d ≠ '\n')) = rest at *
  subst happ
  split
  next hclose =>
    -- the closing mark is behind the inner text
    rw [List.getElem?_append_right (Nat.le_refl _), Nat.sub_self] at hclose
    cases rest with
    | nil => cases hclose
    | cons d ds =>
      obtain rfl := Option.some.inj hclose
      refine ⟨sound_of_takes ⟨BACKTICK :: (inner ++ [BACKTICK]), ds, by simp, by simp, ?_⟩, by simp⟩
      rw [size_cons, size_append, size_cons, size_nil, hmark]
      dsimp only
      omega
  next =>
    refine ⟨⟨⟨BACKTICK :: inner, rest, rfl, by simp, ?_⟩, by simp⟩, by simp⟩
    rw [size_cons, hmark]

theorem lookup_mem {α β : Type} [BEq α] [LawfulBEq α] {l : List (α × β)} {a : α} {b : β}
    (h : l.lookup a = some b) : (a, b) ∈ l := by
  obtain ⟨pre, post, heq, -⟩ := List.lookup_eq_some_iff.1 h
  rw [heq]
  simp

variable (is_xid_start is_xid_continue : Char → Bool)

theorem sound_identifier (byte_offset : Nat) (c : Char) (cs : List Char) :
    SoundToken (c :: cs) (scan_identifier is_xid_start is_xid_continue byte_offset (c :: cs)) := by
  unfold scan_identifier
  dsimp only
  split
  next hc =>
    subst hc
    exact sound_raw_identifier byte_offset cs
  next =>
    refine ⟨⟨takes_takeWhile c cs _, ?_⟩, ?_⟩
    · intro d hd
      dsimp only at hd
      split_ifs at hd <;> cases hd <;> simp
    · dsimp only
      split
      · decide
      · generalize c :: cs.takeWhile _ = run
        cases hkey : token.keyword_kind run with
        | none => decide
        | some kind =>
          have hall : ∀ p ∈ token.keywords, p.2 ≠ .Eof := by decide
          exact hall _ (lookup_mem hkey)

theorem sound_lifetime {cursor : Nat} {scan : token.Scan}
    (h : scan_lifetime is_xid_start is_xid_continue cursor text = some scan) :
    SoundToken text scan := by
  unfold scan_lifetime at h
  split at h
  next quote next rest =>
    split at h
    next hq =>
      dsimp only at h
      split at h
      next =>
        cases h
        obtain ⟨rfl, -⟩ := hq
        obtain ⟨⟨⟨pre, post, heq, -, hlen⟩, -⟩, -⟩ :=
          sound_identifier is_xid_start is_xid_continue (cursor + 1) next rest
        refine ⟨sound_of_takes ⟨QUOTE :: pre, post, ?_, by simp, ?_⟩, by simp⟩
        · rw [heq, cons_append]
        · dsimp only
          rw [size_cons, hlen]
          rfl
      next => cases h
    next => cases h
  next => cases h

theorem sound_op {byte_offset : Nat} {mode : AsciiMode} {op : token.Scan}
    (h : scan_op byte_offset text mode = some op) : SoundToken text op := by
  unfold scan_op at h
  split at h
  next => cases h
  next c cs =>
    split at h
    next entry hentry =>
      cases h
      have hall : ∀ e ∈ GLYPHS, e.kind ≠ .Eof := by decide
      refine ⟨⟨takes_cons c cs, ?_⟩, hall _ (List.mem_of_find?_eq_some hentry)⟩
      cases mode <;> simp
    next =>
      split at h
      next kind htwo =>
        cases h
        unfold two_char_ascii at htwo
        split at htwo
        next a b more heq =>
          obtain ⟨rfl, rfl⟩ := cons.inj heq
          have hall : ∀ p ∈ two_char_operators,
              p.1.1.utf8Size + (p.1.2.utf8Size + 0) = 2 ∧ p.2 ≠ .Eof := by decide
          obtain ⟨hsize, hkind⟩ := hall _ (lookup_mem htwo)
          refine ⟨sound_of_takes ⟨[c, b], more, rfl, by simp, ?_⟩, hkind⟩
          rw [size_cons, size_cons, size_nil, hsize]
        next => cases htwo
      next =>
        obtain ⟨kind, hone, rfl⟩ := Option.map_eq_some_iff.1 h
        have hall : ∀ p ∈ single_char_operators, p.1.utf8Size = 1 ∧ p.2 ≠ .Eof := by decide
        obtain ⟨hsize, hkind⟩ := hall _ (lookup_mem hone)
        have htakes := takes_cons c cs
        rw [hsize] at htakes
        exact ⟨sound_of_takes htakes, hkind⟩

/-! ## Escapes -/

/-- The bytes of an escape with braces, or of what is taken for one. -/
def bracesLen (rest : List UInt8) : Nat :=
  if 4 ≤ rest.length ∧ rest[2]? = some (byte '{') then
    min rest.length (4 + ((rest.drop 3).takeWhile (· ≠ byte '}')).length)
  else 3

theorem bracesLen_cases (rest : List UInt8) :
    ((rest.length ≤ 3 ∨ rest[2]? ≠ some (byte '{')) ∧ bracesLen rest = 3) ∨
      ¬(rest.length ≤ 3 ∨ rest[2]? ≠ some (byte '{')) ∧
        (3 + ((rest.drop 3).takeWhile (· ≠ byte '}')).length ≥ rest.length ∧
            bracesLen rest = 3 + ((rest.drop 3).takeWhile (· ≠ byte '}')).length ∨
          ¬3 + ((rest.drop 3).takeWhile (· ≠ byte '}')).length ≥ rest.length ∧
            bracesLen rest = 3 + ((rest.drop 3).takeWhile (· ≠ byte '}')).length + 1) := by
  have hle : ((rest.drop 3).takeWhile (· ≠ byte '}')).length ≤ rest.length - 3 := by
    rw [← length_drop]
    exact (List.takeWhile_prefix _).length_le
  unfold bracesLen
  by_cases hopen : rest.length ≤ 3 ∨ rest[2]? ≠ some (byte '{')
  · refine .inl ⟨hopen, if_neg ?_⟩
    rintro ⟨hlen, hbrace⟩
    rcases hopen with h | h
    · omega
    · exact h hbrace
  · have hopen' := hopen
    rw [not_or, not_not] at hopen'
    rw [if_pos ⟨by omega, hopen'.2⟩]
    refine .inr ⟨hopen, ?_⟩
    by_cases hend : 3 + ((rest.drop 3).takeWhile (· ≠ byte '}')).length ≥ rest.length
    · exact .inl ⟨hend, by omega⟩
    · exact .inr ⟨hend, by omega⟩

theorem string_braces_len (pos : Nat) (rest : List UInt8) :
    (parse_unicode_escape_in_string pos rest).1 = bracesLen rest ∧
      ∀ d ∈ (parse_unicode_escape_in_string pos rest).2, d.code ≠ 11 := by
  unfold parse_unicode_escape_in_string
  rcases bracesLen_cases rest with ⟨hopen, hlen⟩ | ⟨hopen, ⟨hend, hlen⟩ | ⟨hend, hlen⟩⟩
  · rw [if_pos hopen, hlen]
    simp
  · rw [if_neg hopen, hlen]
    dsimp only
    rw [if_pos hend]
    simp
  · rw [if_neg hopen, hlen]
    dsimp only
    rw [if_neg hend]
    split
    · simp
    · split
      · split
        · simp
        · split <;> simp
      · simp

theorem char_braces_len (start : Nat) (rest : List UInt8) :
    (chars.parse_unicode_escape start rest).2.1 = bracesLen rest ∧
      ∀ d ∈ (chars.parse_unicode_escape start rest).2.2, d.code ≠ 11 := by
  unfold chars.parse_unicode_escape
  rcases bracesLen_cases rest with ⟨hopen, hlen⟩ | ⟨hopen, ⟨hend, hlen⟩ | ⟨hend, hlen⟩⟩
  · rw [if_pos hopen, hlen]
    simp
  · rw [if_neg hopen, hlen]
    dsimp only
    rw [if_pos hend]
    simp
  · rw [if_neg hopen, hlen]
    dsimp only
    rw [if_neg hend]
    split
    · simp
    · split
      · split
        · simp
        · split <;> simp
      · simp

/-- The bytes that are taken for an escape, from its backslash on; `braces` where `\u` begins
one with braces. -/
def escapeLen (braces : Bool) (rest : List UInt8) : Nat :=
  match rest with
  | _ :: b :: _ =>
    if b = byte 'x' then min 4 rest.length
    else if b = byte 'u' ∧ braces = true then bracesLen rest
    else 2
  | _ => 1

theorem lookup_simple {b : UInt8} (h : simple_escapes.lookup b ≠ none) :
    b ≠ byte 'x' ∧ b ≠ byte 'u' := by
  refine ⟨?_, ?_⟩
  · rintro rfl
    exact h lookup_x
  · rintro rfl
    exact h lookup_u

theorem escapeLen_hex (braces : Bool) (a : UInt8) (more : List UInt8) :
    escapeLen braces (a :: byte 'x' :: more) = min 4 (a :: byte 'x' :: more).length := rfl

theorem escapeLen_braces (a : UInt8) (more : List UInt8) :
    escapeLen true (a :: byte 'u' :: more) = bracesLen (a :: byte 'u' :: more) := rfl

theorem escapeLen_two {braces : Bool} {a b : UInt8} {more : List UInt8} (hx : b ≠ byte 'x')
    (hu : ¬(b = byte 'u' ∧ braces = true)) : escapeLen braces (a :: b :: more) = 2 := by
  unfold escapeLen
  dsimp only
  rw [if_neg hx, if_neg hu]

/-- A hexadecimal escape is cut by the end of the text only. -/
theorem hex_len (bs : List UInt8) : (∃ a b d1 d2 post, bs = a :: b :: d1 :: d2 :: post) ∧
      min 4 bs.length = 4 ∨
    (∀ a b d1 d2 post, bs ≠ a :: b :: d1 :: d2 :: post) ∧ min 4 bs.length = bs.length := by
  match bs with
  | [] | [_] | [_, _] | [_, _, _] => exact .inr ⟨by simp, rfl⟩
  | a :: b :: d1 :: d2 :: post =>
    exact .inl ⟨⟨a, b, d1, d2, post, rfl⟩, Nat.min_eq_left (by simp)⟩

theorem string_escape_len (pos : Nat) (rest : List UInt8) (is_byte : Bool) :
    (parse_string_escape pos rest is_byte).1 = escapeLen (!is_byte) rest ∧
      ∀ d ∈ (parse_string_escape pos rest is_byte).2, d.code ≠ 11 := by
  match rest with
  | [] | [_] => exact ⟨rfl, by simp [parse_string_escape]⟩
  | a :: b :: more =>
    unfold parse_string_escape
    dsimp only
    split
    next hsimple =>
      obtain ⟨hx, hu⟩ := lookup_simple (Option.isSome_iff_ne_none.1 hsimple)
      rw [escapeLen_two hx fun h => hu h.1]
      simp
    next =>
      split
      next hx =>
        subst hx
        rw [escapeLen_hex]
        obtain ⟨⟨_, _, d1, d2, post, heq⟩, hmin⟩ | ⟨hshort, hmin⟩ := hex_len (a :: byte 'x' :: more)
        · obtain ⟨rfl, rfl, rfl⟩ := heq
          rw [hmin]
          dsimp only
          split <;> simp
        · rw [hmin]
          split
          next d1 d2 post => exact absurd rfl (hshort a (byte 'x') d1 d2 post)
          next => simp
      next hx =>
        split
        next hu =>
          subst hu
          cases is_byte with
          | true =>
            rw [escapeLen_two hx fun h => by cases h.2]
            simp
          | false =>
            exact string_braces_len pos (a :: byte 'u' :: more)
        next hu =>
          rw [escapeLen_two hx fun h => hu h.1]
          simp

theorem char_escape_len (start : Nat) (rest : List UInt8) (is_byte : Bool) :
    (parse_escape_sequence start rest is_byte).2.1 = escapeLen true rest ∧
      ∀ d ∈ (parse_escape_sequence start rest is_byte).2.2, d.code ≠ 11 := by
  match rest with
  | [] | [_] => exact ⟨rfl, by simp [parse_escape_sequence]⟩
  | a :: b :: more =>
    unfold parse_escape_sequence
    dsimp only
    split
    next hsimple =>
      obtain ⟨hx, hu⟩ := lookup_simple (by rw [hsimple]; simp)
      rw [escapeLen_two hx fun h => hu h.1]
      simp
    next =>
      split
      next hx =>
        subst hx
        rw [escapeLen_hex]
        unfold parse_hex_escape
        obtain ⟨⟨_, _, d1, d2, post, heq⟩, hmin⟩ | ⟨hshort, hmin⟩ := hex_len (a :: byte 'x' :: more)
        · obtain ⟨rfl, rfl, rfl⟩ := heq
          rw [hmin]
          dsimp only
          split <;> simp
        · rw [hmin]
          split
          next d1 d2 post heq => exact absurd heq (hshort _ _ d1 d2 post)
          next => simp
      next hx =>
        split
        next hu =>
          subst hu
          obtain ⟨hlen, hcode⟩ := char_braces_len start (a :: byte 'u' :: more)
          rw [escapeLen_braces]
          cases is_byte with
          | true =>
            exact ⟨hlen, by simp⟩
          | false => exact ⟨hlen, hcode⟩
        next hu =>
          rw [escapeLen_two hx fun h => hu h.1]
          simp

/-! ## Strings -/

/-- The bytes are there, and no character goes on behind them. -/
def Whole (n : Nat) (rest : List UInt8) : Prop :=
  n ≤ rest.length ∧ ∀ b ∈ (rest.drop n).head?, ¬Tail b

/-- What stands between the quotes of a string, as the scanner reads it: escapes that are not
sound end with a character of the text, and the first error is no newline too far in the file.
`noted` is whether there has been an error. -/
inductive Fits (start : Nat) (is_byte : Bool) : Nat → List UInt8 → Bool → Prop
  | done {pos : Nat} {noted : Bool} : Fits start is_byte pos [] noted
  | quote {pos : Nat} {bs : List UInt8} {noted : Bool} :
      Fits start is_byte pos (byte '"' :: bs) noted
  | backslash {pos : Nat} {noted : Bool} : Fits start is_byte pos [byte '\\'] noted
  | sound {pos : Nat} {e d post : List UInt8} {noted : Bool} : Escape is_byte e d →
      Fits start is_byte (pos + e.length) post noted → Fits start is_byte pos (e ++ post) noted
  | unsound {pos : Nat} {bs : List UInt8} {noted : Bool} : bs ≠ [] →
      (∀ e d post, byte '\\' :: bs = e ++ post → ¬Escape is_byte e d) →
      Whole (escapeLen (!is_byte) (byte '\\' :: bs)) (byte '\\' :: bs) →
      Fits start is_byte (pos + escapeLen (!is_byte) (byte '\\' :: bs))
        ((byte '\\' :: bs).drop (escapeLen (!is_byte) (byte '\\' :: bs))) true →
      Fits start is_byte pos (byte '\\' :: bs) noted
  | newline {pos : Nat} {bs : List UInt8} {noted : Bool} :
      noted = true ∨ start + pos + 1 < 2 ^ 32 → Fits start is_byte (pos + 1) bs true →
      Fits start is_byte pos (byte '\n' :: bs) noted
  | char {pos : Nat} {c : Char} {bs : List UInt8} {noted : Bool} : c ≠ '"' → c ≠ '\\' →
      c ≠ '\n' → Fits start is_byte (pos + c.utf8Size) bs noted →
      Fits start is_byte pos (String.utf8EncodeChar c ++ bs) noted

/-- The bytes end where a character does. -/
def Lands (n : Nat) (rest : List UInt8) : Prop := n ≤ rest.length ∧ WellFormed (rest.drop n)

theorem Whole.lands (h : Whole n rest) (hw : WellFormed rest) : Lands n rest := ⟨h.1, hw.drop h.2⟩

theorem Lands.add {m : Nat} (hm : m ≤ rest.length)
    (hn : Lands n (rest.drop m)) : Lands (m + n) rest := by
  obtain ⟨hle, hw⟩ := hn
  rw [length_drop] at hle
  rw [drop_drop] at hw
  exact ⟨by omega, hw⟩

theorem Lands.append {post : List UInt8} (h : Lands n post) (pre : List UInt8) :
    Lands (pre.length + n) (pre ++ post) := by
  refine Lands.add ?_ ?_
  · rw [length_append]
    exact Nat.le_add_right _ _
  · rwa [drop_left]

theorem WellFormed.drop_char (h : WellFormed (String.utf8EncodeChar c ++ bs)) : WellFormed bs := by
  obtain ⟨a, t, henc, -, -, hw, -⟩ := encodeChar_cases c
  rw [henc, cons_append] at h
  have hdrop := h.drop_width.2
  rwa [← hw, drop_succ_cons, drop_left] at hdrop

theorem scan_backslash {start pos : Nat} {is_byte : Bool} {first_error : Option token.Diagnostic} :
    scan_regular_string_contents start is_byte pos (byte '\\' :: bs) first_error =
      (scan_regular_string_contents start is_byte
        (pos + escapeLen (!is_byte) (byte '\\' :: bs))
        ((byte '\\' :: bs).drop (escapeLen (!is_byte) (byte '\\' :: bs)))
        (first_error.or (parse_string_escape pos (byte '\\' :: bs) is_byte).2)).map
          fun r => (escapeLen (!is_byte) (byte '\\' :: bs) + r.1, r.2) := by
  rw [scan_regular_string_contents, if_neg (by decide), if_pos rfl]
  dsimp only
  rw [(string_escape_len pos _ is_byte).1]

theorem scan_char_step {start pos : Nat} {is_byte : Bool} {first_error : Option token.Diagnostic}
    (hq : c ≠ '"') (hb : c ≠ '\\') (hn : c ≠ '\n') :
    scan_regular_string_contents start is_byte pos (String.utf8EncodeChar c ++ bs) first_error =
      (scan_regular_string_contents start is_byte (pos + c.utf8Size) bs first_error).map
        fun r => (c.utf8Size + r.1, r.2) := by
  obtain ⟨a, t, henc, ha, -, hw, hlow⟩ := encodeChar_cases c
  have hne : ∀ d : Char, d.toNat < 0x80 → c ≠ d → a ≠ byte d := by
    rintro d hd hcd rfl
    have hbyte : (byte d).toNat = d.toNat := by
      unfold byte
      rw [UInt8.toNat_ofNat']
      omega
    apply hcd
    rw [hbyte] at hlow
    exact Char.toNat_inj.1 (hlow hd).2
  have hsize : c.utf8Size = width a := by
    rw [← String.length_utf8EncodeChar, henc, length_cons, hw]
  have hdrop : (a :: (t ++ bs)).drop (width a) = bs := by
    rw [← hw, drop_succ_cons, drop_left]
  rw [henc, cons_append, scan_regular_string_contents,
    if_neg (hne '"' (by decide) hq), if_neg (hne '\\' (by decide) hb),
    if_neg (hne '\n' (by decide) hn), if_neg ha, hdrop, hsize]

/-- The scan of contents that fit ends where a character does. -/
theorem scan_fits {start pos : Nat} {is_byte noted : Bool} {rest : List UInt8}
    (h : Fits start is_byte pos rest noted) (hw : WellFormed rest)
    {first_error : Option token.Diagnostic} (he : noted = true → first_error ≠ none)
    (hcode : ∀ d ∈ first_error, d.code ≠ 11) :
    ∃ n error, scan_regular_string_contents start is_byte pos rest first_error = some (n, error) ∧
      Lands n rest ∧ ∀ d ∈ error, d.code ≠ 11 := by
  have hor : ∀ {e e' : Option token.Diagnostic}, (∀ d ∈ e, d.code ≠ 11) →
      (∀ d ∈ e', d.code ≠ 11) → ∀ d ∈ e.or e', d.code ≠ 11 := by
    intro e e' h h'
    cases e with
    | none => exact h'
    | some d => exact h
  induction h generalizing first_error with
  | done =>
    rw [scan_regular_string_contents]
    exact ⟨0, first_error, rfl, ⟨Nat.le_refl _, hw⟩, hcode⟩
  | @quote pos bs noted =>
    rw [scan_regular_string_contents, if_pos rfl]
    exact ⟨0, first_error, rfl, ⟨Nat.zero_le _, hw⟩, hcode⟩
  | @backslash pos noted =>
    have hlen : escapeLen (!is_byte) [byte '\\'] = 1 := rfl
    have hnone : (parse_string_escape pos [byte '\\'] is_byte).2 = none := rfl
    rw [scan_backslash, hlen, hnone, Option.or_none, drop_succ_cons, List.drop_nil,
      scan_regular_string_contents]
    exact ⟨1, first_error, rfl, ⟨Nat.le_refl _, wellFormed_nil⟩, hcode⟩
  | @sound pos e d post noted hesc _ ih =>
    obtain ⟨⟨b, t, rfl⟩, hascii⟩ := hesc.shape
    have hpost := hw.drop_ascii hascii
    obtain ⟨n, error, hscan, hlands, herror⟩ := ih hpost he hcode
    have hparse : parse_string_escape pos (byte '\\' :: b :: (t ++ post)) is_byte =
        ((byte '\\' :: b :: t).length, none) :=
      parse_string_escape_none.2 ⟨d, process_string_escape_ok.2 ⟨_, post, rfl, rfl, hesc⟩⟩
    have hlen := (string_escape_len pos (byte '\\' :: b :: (t ++ post)) is_byte).1
    rw [hparse] at hlen
    refine ⟨_, error, ?_, hlands.append _, herror⟩
    rw [cons_append, cons_append, scan_backslash, ← hlen, hparse, Option.or_none]
    rw [← cons_append, ← cons_append, drop_left, hscan]
    rfl
  | @unsound pos bs noted hbs hno hwhole _ ih =>
    obtain ⟨b, more, rfl⟩ := List.exists_cons_of_ne_nil hbs
    have hlands := hwhole.lands hw
    have hsome : true = true →
        first_error.or (parse_string_escape pos (byte '\\' :: b :: more) is_byte).2 ≠ none := by
      intro _ hnone
      obtain ⟨d, hd⟩ := parse_string_escape_none.1 (Prod.ext rfl (Option.or_eq_none_iff.1 hnone).2 :
        parse_string_escape pos (byte '\\' :: b :: more) is_byte = (_, none))
      obtain ⟨e, post, heq, -, hesc⟩ := process_string_escape_ok.1 hd
      exact hno e d post heq hesc
    obtain ⟨n, error, hscan, hrest, herror⟩ := ih hlands.2 hsome
      (hor hcode (string_escape_len pos _ is_byte).2)
    refine ⟨_, error, ?_, Lands.add hwhole.1 hrest, herror⟩
    rw [scan_backslash, hscan]
    rfl
  | @newline pos bs noted hfar _ ih =>
    have hn : (byte '\n').toNat < 0x80 := by decide
    have hsome : true = true → first_error.or (some ⟨4, "unescaped newline in string literal",
        ⟨start + pos, start + pos + 1⟩⟩) ≠ none := by
      intro _
      cases first_error <;> simp
    obtain ⟨n, error, hscan, hrest, herror⟩ := ih (hw.tail hn) hsome (hor hcode (by simp))
    have hone : 1 ≤ (byte '\n' :: bs).length := Nat.le_add_left 1 _
    refine ⟨1 + n, error, ?_, Lands.add hone hrest, herror⟩
    rw [scan_regular_string_contents, if_neg (by decide), if_neg (by decide), if_pos rfl, if_neg,
      hscan]
    · rfl
    · rintro ⟨hnone, hlarge⟩
      rcases hfar with hnoted | hsmall
      · exact he hnoted hnone
      · omega
  | @char pos c bs noted hq hb hn _ ih =>
    obtain ⟨n, error, hscan, hrest, herror⟩ := ih (WellFormed.drop_char hw) he hcode
    refine ⟨c.utf8Size + n, error, ?_, ?_, herror⟩
    · rw [scan_char_step hq hb hn, hscan]
      rfl
    · rw [← String.length_utf8EncodeChar]
      exact hrest.append _

/-! ## Literals -/

/-- Where a literal begins, its escapes end with characters of the text. -/
structure LiteralFits (cursor : Nat) (text : List Char) : Prop where
  char : ∀ is_byte rest, encode text = mark is_byte ++ byte QUOTE :: byte '\\' :: rest →
    Whole (escapeLen true (byte '\\' :: rest)) (byte '\\' :: rest)
  string : ∀ is_byte contents, encode text = mark is_byte ++ byte '"' :: contents →
    Fits (cursor + ((mark is_byte).length + 1)) is_byte (cursor + ((mark is_byte).length + 1))
      contents false

theorem Lands.next {n : Nat} {b : UInt8} {rest : List UInt8} (h : Lands n rest)
    (hb : b.toNat < 0x80) (hn : rest[n]? = some b) : Lands (n + 1) rest := by
  obtain ⟨hle, hw⟩ := h
  cases hdrop : rest.drop n with
  | nil =>
    rw [← head?_drop, hdrop] at hn
    cases hn
  | cons d ds =>
    rw [← head?_drop, hdrop] at hn
    obtain rfl := Option.some.inj hn
    rw [hdrop] at hw
    have hlen := congrArg List.length hdrop
    rw [length_drop, length_cons] at hlen
    refine ⟨by omega, ?_⟩
    rw [← drop_drop, hdrop]
    exact hw.tail hb

theorem Lands.takes (hpos : 0 < n) (h : Lands n (encode text)) :
    Takes text n := takes_of_wellFormed hpos h.1 h.2

theorem mark_ascii (is_byte : Bool) : ∀ b ∈ mark is_byte, b.toNat < 0x80 := by
  cases is_byte with
  | true =>
    intro b hb
    obtain rfl := List.mem_singleton.1 hb
    decide
  | false => simp [mark]

theorem raw_contents_end (num_hashes : Nat) (contents : List UInt8) :
    scan_raw_string_contents num_hashes contents ≤ contents.length ∧
      ∀ b ∈ (contents.drop (scan_raw_string_contents num_hashes contents)).head?, b = byte '"' := by
  induction contents with
  | nil => simp [scan_raw_string_contents]
  | cons b bs ih =>
    unfold scan_raw_string_contents
    split
    next h => simpa using h.1
    next =>
      rw [Nat.add_comm, drop_succ_cons, length_cons]
      exact ⟨Nat.succ_le_succ ih.1, ih.2⟩

theorem lands_raw_contents {num_hashes : Nat} {contents : List UInt8} (hw : WellFormed contents) :
    Lands (scan_raw_string_contents num_hashes contents) contents := by
  obtain ⟨hle, hend⟩ := raw_contents_end num_hashes contents
  refine ⟨hle, hw.drop ?_⟩
  intro b hb
  rw [hend b hb]
  decide

theorem lands_zero (hw : WellFormed rest) : Lands 0 rest :=
  ⟨Nat.zero_le _, hw⟩

theorem lands_raw_closing {num_hashes : Nat} {contents : List UInt8} (hw : WellFormed contents)
    (h : raw_closing_found num_hashes contents = true) :
    Lands (scan_raw_string_contents num_hashes contents + (1 + num_hashes)) contents := by
  obtain ⟨post, heq, hlen⟩ := raw_closing h
  have hbody : Lands (scan_raw_string_contents num_hashes contents) contents :=
    lands_raw_contents hw
  generalize contents.take (scan_raw_string_contents num_hashes contents) = body at heq hlen
  generalize scan_raw_string_contents num_hashes contents = n at *
  have hascii : ∀ b ∈ byte '"' :: replicate num_hashes (byte '#'), b.toNat < 0x80 := by
    intro b hb
    rcases mem_cons.1 hb with rfl | hb
    · decide
    · rw [List.eq_of_mem_replicate hb]
      decide
  have hclosing : (byte '"' :: replicate num_hashes (byte '#')).length = 1 + num_hashes := by
    rw [length_cons, List.length_replicate, Nat.add_comm]
  subst heq hlen
  rw [← cons_append] at hbody ⊢
  have hpost := hbody.2
  rw [drop_left] at hpost
  rw [← hclosing]
  have hlands := (lands_zero (hpost.drop_ascii hascii)).append
    (byte '"' :: replicate num_hashes (byte '#'))
  rw [Nat.add_zero] at hlands
  exact hlands.append body

section

variable {content text : List Char} {cursor : Nat}

theorem sound_regular {is_byte : Bool} {contents : List UInt8}
    (henc : encode text = mark is_byte ++ byte '"' :: contents)
    (hfits : LiteralFits cursor text) :
    ∃ scan, scan_literal cursor (encode text) = some scan ∧
      Sound text scan.byte_len scan.diagnostic := by
  have hw : WellFormed contents := by
    have hwhole : WellFormed (mark is_byte ++ byte '"' :: contents) := ⟨text, henc⟩
    exact (hwhole.drop_ascii (mark_ascii is_byte)).tail (by decide)
  obtain ⟨n, error, hscan, hlands, hcode⟩ :=
    @scan_fits _ _ _ _ _ (hfits.string is_byte contents henc) hw none (by simp) (by simp)
  obtain ⟨kind, pos, message, rfl, heq⟩ := scan_literal_regular cursor is_byte contents
  have hopening : encode text = (mark is_byte ++ [byte '"']) ++ contents := by simp [henc]
  have htakes : ∀ {m k}, Lands m contents → k = (mark is_byte).length + 1 + m → Takes text k := by
    rintro m _ hm rfl
    have hlands := hm.append (mark is_byte ++ [byte '"'])
    rw [← hopening, length_append] at hlands
    exact Lands.takes (by omega) hlands
  refine ⟨_, by rw [henc, heq, hscan, Option.map_some], ?_⟩
  dsimp only
  split
  next hclose => exact ⟨htakes (hlands.next (by decide) hclose) (Nat.add_assoc _ _ _), hcode⟩
  next => exact ⟨htakes hlands rfl, by simp⟩

theorem sound_raw {is_byte : Bool} {more : List UInt8}
    (henc : encode text = mark is_byte ++ byte 'r' :: more) :
    ∃ scan, scan_literal cursor (encode text) = some scan ∧
      Sound text scan.byte_len scan.diagnostic := by
  have heq := scan_literal_raw cursor is_byte more
  have hw : WellFormed more := by
    have hwhole : WellFormed (mark is_byte ++ byte 'r' :: more) := ⟨text, henc⟩
    exact (hwhole.drop_ascii (mark_ascii is_byte)).tail (by decide)
  have hopening : encode text = (mark is_byte ++ [byte 'r']) ++ more := by simp [henc]
  have htakes : ∀ {m k}, Lands m more → k = (mark is_byte).length + 1 + m → Takes text k := by
    rintro m _ hm rfl
    have hlands := hm.append (mark is_byte ++ [byte 'r'])
    rw [← hopening, length_append] at hlands
    exact Lands.takes (by omega) hlands
  have hhashes : Lands (more.takeWhile (· = byte '#')).length more := by
    have happ := List.takeWhile_append_dropWhile (p := (· = byte '#')) (l := more)
    have hall := List.all_eq_true.1 (List.all_takeWhile (p := (· = byte '#')) (l := more))
    generalize more.takeWhile (· = byte '#') = hashes at *
    generalize more.dropWhile (· = byte '#') = rest at *
    subst happ
    refine (lands_zero (hw.drop_ascii ?_)).append hashes
    intro b hb
    obtain rfl : b = byte '#' := by simpa using hall b hb
    decide
  dsimp only at heq
  rw [henc, heq]
  generalize (more.takeWhile (· = byte '#')).length = hashes at *
  split
  next => exact ⟨_, rfl, htakes hhashes rfl, by simp⟩
  next hq =>
    rw [not_not] at hq
    have hquote : more[hashes]? = some (byte '"') := by rw [← hq, head?_drop]
    have hcontents := hhashes.next (by decide) hquote
    rw [drop_drop]
    split
    next hfound =>
      have hlands := Lands.add hcontents.1 (lands_raw_closing hcontents.2 hfound)
      exact ⟨_, rfl, htakes hlands (by dsimp only; omega), by simp⟩
    next =>
      have hlands := Lands.add hcontents.1 (@lands_raw_contents hashes _ hcontents.2)
      exact ⟨_, rfl, htakes hlands (by dsimp only; omega), by simp⟩

theorem scan_literal_kind {bytes : List UInt8} {scan : token.Scan}
    (h : scan_literal cursor bytes = some scan) : scan.kind ≠ .Eof := by
  unfold scan_literal at h
  extract_lets is_byte rest is_raw rest' num_hashes rest'' after_hashes kind unterminated contents
    pos content_len at h
  have hkind : kind ≠ .Eof := by
    dsimp only [kind]
    split <;> decide
  split at h
  · cases h
    exact hkind
  · split at h
    · split at h
      · cases h
        exact hkind
      · cases h
        exact hkind
    · obtain ⟨r, -, rfl⟩ := Option.map_eq_some_iff.1 h
      split
      · exact hkind
      · exact hkind

theorem sound_string (hat : suffixAt content cursor = some text)
    (h : begins_string text = true) (hfits : LiteralFits cursor text) :
    ∃ scan, scan_string content cursor = some scan ∧ SoundToken text scan := by
  obtain ⟨hne, ⟨-, cs, henc⟩ | ⟨-, cs, henc⟩⟩ := begins_string_cases h
  · obtain ⟨scan, hscan, hsound⟩ := sound_regular henc hfits
    rw [scan_string_at hat hne]
    exact ⟨scan, hscan, hsound, scan_literal_kind hscan⟩
  · obtain ⟨scan, hscan, hsound⟩ := @sound_raw _ cursor _ _ henc
    rw [scan_string_at hat hne]
    exact ⟨scan, hscan, hsound, scan_literal_kind hscan⟩

theorem lands_char_contents (start : Nat) {inner : List Char} (is_byte : Bool)
    (h : ∀ rest, encode inner = byte '\\' :: rest →
      Whole (escapeLen true (byte '\\' :: rest)) (byte '\\' :: rest)) :
    Lands (scan_char_contents start inner is_byte).1 (encode inner) ∧
      ∀ d ∈ (scan_char_contents start inner is_byte).2.2, d.code ≠ 11 := by
  have hchar : ∀ c cs, Lands c.utf8Size (encode (c :: cs)) := by
    intro c cs
    rw [encode_cons, ← String.length_utf8EncodeChar]
    exact (lands_zero (wellFormed_encode cs)).append _
  unfold scan_char_contents
  split
  next => exact ⟨lands_zero wellFormed_nil, by simp⟩
  next ch rest =>
    split
    next hch =>
      subst hch
      have henc : encode ('\\' :: rest) = byte '\\' :: encode rest := rfl
      have hw := wellFormed_encode ('\\' :: rest)
      rw [henc] at hw ⊢
      obtain ⟨hlen, hcode⟩ := char_escape_len start (byte '\\' :: encode rest) is_byte
      have hlands := (h (encode rest) rfl).lands hw
      rw [← hlen] at hlands
      generalize parse_escape_sequence start (byte '\\' :: encode rest) is_byte = escape at *
      obtain ⟨escape_char, escape_len, diag⟩ := escape
      dsimp only at hlands hcode ⊢
      split
      · split
        · exact ⟨hlands, hcode⟩
        · exact ⟨hlands, by simp⟩
      · exact ⟨hlands, hcode⟩
    next =>
      split
      all_goals exact ⟨hchar ch rest, by simp⟩

theorem sound_char (hat : suffixAt content cursor = some text)
    (h : begins_char text = true) (hfits : LiteralFits cursor text) :
    ∃ scan, scan_char content cursor = some scan ∧ SoundToken text scan := by
  -- the end of the contents, and the closing quote behind them
  have hall : ∀ (is_byte : Bool) (inner : List Char) (start : Nat),
      encode text = mark is_byte ++ byte QUOTE :: encode inner →
      Takes text ((mark is_byte).length + 1 + (scan_char_contents start inner is_byte).1 +
        if (encode inner)[(scan_char_contents start inner is_byte).1]? = some (byte QUOTE) then 1
        else 0) ∧
      ∀ d ∈ (scan_char_contents start inner is_byte).2.2, d.code ≠ 11 := by
    intro is_byte inner start henc
    obtain ⟨hlands, hcode⟩ := lands_char_contents start is_byte fun rest hrest =>
      hfits.char is_byte rest (by rw [henc, hrest])
    refine ⟨?_, hcode⟩
    have hopening : encode text = (mark is_byte ++ [byte QUOTE]) ++ encode inner := by simp [henc]
    have htakes : ∀ {m k}, Lands m (encode inner) → k = (mark is_byte).length + 1 + m →
        Takes text k := by
      rintro m _ hm rfl
      have hwhole := hm.append (mark is_byte ++ [byte QUOTE])
      rw [← hopening, length_append] at hwhole
      exact Lands.takes (by omega) hwhole
    split
    next hclose => exact htakes (hlands.next (by decide) hclose) (Nat.add_assoc _ _ _)
    next => exact htakes hlands rfl
  have hcases : (∃ inner, text = QUOTE :: inner) ∨ ∃ inner, text = 'b' :: QUOTE :: inner := by
    unfold begins_char at h
    match text with
    | [] => cases h
    | [c] => exact .inl ⟨[], by simpa using h⟩
    | c :: d :: inner =>
      simp only [head?_cons, List.getElem?_cons_succ, List.getElem?_cons_zero,
        Option.some.injEq, Bool.or_eq_true, Bool.and_eq_true, decide_eq_true_eq] at h
      rcases h with rfl | ⟨rfl, rfl⟩
      · exact .inl ⟨d :: inner, rfl⟩
      · exact .inr ⟨inner, rfl⟩
  unfold scan_char
  rw [hat]
  rcases hcases with ⟨inner, rfl⟩ | ⟨inner, rfl⟩
  · obtain ⟨htakes, hcode⟩ := hall false inner (cursor + 1) rfl
    have hquote : QUOTE ≠ 'b' := by decide
    simp only [if_neg hquote, decide_eq_false hquote, head?_cons, drop_succ_cons,
      drop_zero, ne_eq, not_true_eq_false, if_false]
    refine ⟨_, rfl, ⟨htakes, ?_⟩, by simp⟩
    intro d hd
    dsimp only at hd
    split at hd
    next heq => exact hcode d (heq.trans hd)
    next => split_ifs at hd <;> cases hd <;> simp
  · obtain ⟨htakes, hcode⟩ := hall true inner (cursor + 2) rfl
    simp only [if_true, decide_true, head?_cons, drop_succ_cons,
      drop_zero, ne_eq, not_true_eq_false, if_false]
    refine ⟨_, rfl, ⟨htakes, ?_⟩, by simp⟩
    intro d hd
    dsimp only at hd
    split at hd
    next heq => exact hcode d (heq.trans hd)
    next => split_ifs at hd <;> cases hd <;> simp

/-! ## Turns -/

/-- What a turn takes are whole characters; only a character that begins nothing is reported as
one, and no token is the end of the file. -/
def Turn.Sound (text : List Char) : Turn → Prop
  | .trivia scan => lex.Sound text scan.byte_len scan.diagnostic
  | .token scan => SoundToken text scan
  | .unrecognized ch => Takes text ch.utf8Size

theorem Turn.Sound.takes {t : Turn} (h : t.Sound text) : Takes text t.byte_len := by
  cases t with
  | trivia scan => exact h.1
  | token scan => exact h.1.1
  | unrecognized ch => exact h

theorem sound_number {c : Char} (cs : List Char) (h : is_ascii_digit c = true) :
    SoundToken (c :: cs) (number_token (scan_number (c :: cs) cursor)) := by
  refine ⟨⟨takes_number cs cursor h, ?_⟩, ?_⟩
  · intro d hd
    obtain ⟨_, -, rfl⟩ := Option.map_eq_some_iff.1 hd
    simp
  · unfold number_token
    dsimp only
    split <;> decide

theorem turn_sound {mode : AsciiMode} (hat : suffixAt content cursor = some text) (hne : text ≠ [])
    (hfits : LiteralFits cursor text) :
    ∃ t, turn is_xid_start is_xid_continue mode content cursor = some t ∧ t.Sound text := by
  obtain ⟨c, cs, rfl⟩ := List.exists_cons_of_ne_nil hne
  unfold turn
  rw [hat]
  dsimp only
  split
  next ws hws => exact ⟨_, rfl, sound_whitespace hws⟩
  next =>
    split
    next hcomment =>
      unfold begins_comment at hcomment
      split at hcomment
      next d ds heq =>
        obtain ⟨rfl, rfl⟩ := cons.inj heq
        split
        next => exact ⟨_, rfl, sound_line_comment _⟩
        next hline =>
          obtain rfl : d = '*' := by
            simpa [show d ≠ '/' from fun h => hline (by rw [h, head?_cons])] using hcomment
          exact ⟨_, rfl, sound_block_comment cursor ds⟩
      next => cases hcomment
    next =>
      split
      next lifetime hlifetime =>
        exact ⟨_, rfl, sound_lifetime is_xid_start is_xid_continue hlifetime⟩
      next =>
        split
        next hchar =>
          obtain ⟨scan, hscan, hsound⟩ := sound_char hat hchar hfits
          rw [hscan]
          exact ⟨_, rfl, hsound⟩
        next =>
          split
          next hstring =>
            obtain ⟨scan, hscan, hsound⟩ := sound_string hat hstring hfits
            rw [hscan]
            exact ⟨_, rfl, hsound⟩
          next =>
            split
            next hdigit => exact ⟨_, rfl, sound_number cs hdigit⟩
            next =>
              split
              next => exact ⟨_, rfl, sound_identifier is_xid_start is_xid_continue cursor c cs⟩
              next =>
                split
                next op hop => exact ⟨_, rfl, sound_op hop⟩
                next => exact ⟨_, rfl, takes_cons c cs⟩

end

/-! ## Runs -/

/-- The positions that the lexer comes to, turn by turn. -/
inductive Reaches (mode : AsciiMode) (content : List Char) : Nat → Prop
  | start : Reaches mode content 0
  | turn {cursor : Nat} {t : Turn} : Reaches mode content cursor →
      turn is_xid_start is_xid_continue mode content cursor = some t →
      Reaches mode content (cursor + t.byte_len)

/-- No literal that the lexer comes to has an escape that ends inside a character, or behind
the end of the text. -/
def LiteralsFit (mode : AsciiMode) (content : List Char) : Prop :=
  ∀ cursor text, Reaches is_xid_start is_xid_continue mode content cursor →
    suffixAt content cursor = some text → LiteralFits cursor text

/-- The lexer between two calls, and the sink. -/
inductive Called (mode : AsciiMode) (content : List Char) (sink : Sink) : Lexer → Sink → Prop
  | start : Called mode content sink (Lexer.with_ascii_mode content mode) sink
  | call {lexer lexer' : Lexer} {sink' sink'' : Sink} {tok : token.Token} :
      Called mode content sink lexer sink' →
      next_token is_xid_start is_xid_continue lexer sink' = some (tok, lexer', sink'') →
      Called mode content sink lexer' sink''

def range (span : token.Span) : Nat × Nat := (span.byte_start, span.byte_start + span.byte_len)

/-- The spans, in order, go from one position to the other with no gap and no overlap. -/
def Tiled (p q : Nat) (spans : List token.Span) : Prop :=
  ∃ ranges, Tiles p q ranges ∧ ranges.Perm (spans.map range)

/-- The spans of what is reported to begin nothing. -/
def unrecognizedSpans (reports : List token.Diagnostic) : List token.Span :=
  (reports.filter fun d => d.code = 11).map (·.span)

/-- Between the states the tokens, the trivia and the reported characters are the text. -/
structure Covers (toks : List token.Token) (lexer : Lexer) (sink : Sink) (lexer' : Lexer)
    (sink' : Sink) : Prop where
  content : lexer'.content = lexer.content
  mode : lexer'.ascii_mode = lexer.ascii_mode
  bailed : lexer'.bailed = lexer.bailed
  overflows : sink'.overflows = sink.overflows
  spans : ∃ trivia reports, lexer'.trivia = lexer.trivia ++ trivia ∧
    sink'.emitted = sink.emitted ++ reports ∧
    Tiled lexer.cursor lexer'.cursor
      (toks.map (·.span) ++ trivia.map (·.span) ++ unrecognizedSpans reports)

theorem Covers.refl (lexer : Lexer) (sink : Sink) : Covers [] lexer sink lexer sink :=
  ⟨rfl, rfl, rfl, rfl, [], [], by simp, by simp, [], Tiles.nil _, List.Perm.refl _⟩

theorem Covers.trans {toks toks' : List token.Token} {lexer'' : Lexer}
    {sink'' : Sink} (h : Covers toks lexer sink lexer' sink')
    (h' : Covers toks' lexer' sink' lexer'' sink'') :
    Covers (toks ++ toks') lexer sink lexer'' sink'' := by
  obtain ⟨trivia, reports, htrivia, hreports, ranges, htiles, hperm⟩ := h.spans
  obtain ⟨trivia', reports', htrivia', hreports', ranges', htiles', hperm'⟩ := h'.spans
  refine ⟨h'.content.trans h.content, h'.mode.trans h.mode, h'.bailed.trans h.bailed,
    h'.overflows.trans h.overflows, trivia ++ trivia', reports ++ reports', ?_, ?_,
    ranges ++ ranges', htiles.append htiles', ?_⟩
  · rw [htrivia', htrivia, append_assoc]
  · rw [hreports', hreports, append_assoc]
  · apply List.perm_iff_count.2
    intro r
    have hcount := hperm.count_eq r
    have hcount' := hperm'.count_eq r
    unfold unrecognizedSpans at hcount hcount' ⊢
    simp only [List.filter_append, List.map_append, List.count_append] at hcount hcount' ⊢
    omega

/-- A sink that does not overflow keeps the report. -/
theorem emit_quiet (h : ∀ ds, sink.overflows ds = false) (diagnostic : Option token.Diagnostic) :
    sink.emit diagnostic = (⟨sink.overflows, sink.emitted ++ diagnostic.toList⟩, false) := by
  cases diagnostic with
  | none =>
    unfold Sink.emit
    simp
  | some d =>
    unfold Sink.emit
    simp [h]

theorem unrecognizedSpans_other {diagnostic : Option token.Diagnostic}
    (h : ∀ d ∈ diagnostic, d.code ≠ 11) : unrecognizedSpans diagnostic.toList = [] := by
  cases diagnostic with
  | none => rfl
  | some d => simp [unrecognizedSpans, h d rfl]

theorem tiles_one {p : Nat} (h : 0 < n) : Tiles p (p + n) [(p, p + n)] :=
  Tiles.cons (Nat.lt_add_of_pos_right h) (Tiles.nil _)

theorem takes_pos (h : Takes text n) : 0 < n := by
  obtain ⟨pre, post, -, hne, rfl⟩ := h
  exact size_pos hne

section

variable {lexer : Lexer} {sink : Sink} {text : List Char}

theorem cover_trivia {scan : TriviaScan} (h : Sound text scan.byte_len scan.diagnostic) :
    Covers [] lexer sink { lexer with
        trivia := lexer.trivia ++ [⟨scan.kind, ⟨lexer.cursor, scan.byte_len⟩⟩]
        cursor := lexer.cursor + scan.byte_len }
      ⟨sink.overflows, sink.emitted ++ scan.diagnostic.toList⟩ := by
  refine ⟨rfl, rfl, rfl, rfl, _, _, rfl, rfl, _, tiles_one (takes_pos h.1), ?_⟩
  rw [unrecognizedSpans_other h.2]
  exact List.Perm.refl _

theorem cover_token {scan : token.Scan} (h : SoundToken text scan) :
    Covers [⟨scan.kind, ⟨lexer.cursor, scan.byte_len⟩⟩] lexer sink { lexer with
        cursor := lexer.cursor + scan.byte_len
        bailed := lexer.bailed || false }
      ⟨sink.overflows, sink.emitted ++ scan.diagnostic.toList⟩ := by
  refine ⟨rfl, rfl, Bool.or_false _, rfl, [], _, by simp, rfl, _, tiles_one (takes_pos h.1.1), ?_⟩
  rw [unrecognizedSpans_other h.1.2]
  exact List.Perm.refl _

theorem cover_unrecognized {ch : Char} (h : Takes text ch.utf8Size) :
    Covers [] lexer sink { lexer with cursor := lexer.cursor + ch.utf8Size }
      ⟨sink.overflows, sink.emitted ++ (some (unrecognized lexer.cursor ch)).toList⟩ := by
  refine ⟨rfl, rfl, rfl, rfl, [], _, by simp, rfl, _, tiles_one (takes_pos h), ?_⟩
  exact List.Perm.refl _

end

/-- The lexer stands at a position of the content that it reaches, and has not given up; its sink
does not overflow. -/
structure Ready (mode : AsciiMode) (content : List Char) (lexer : Lexer) (sink : Sink) : Prop where
  content_eq : lexer.content = content
  mode_eq : lexer.ascii_mode = mode
  bailed : lexer.bailed = false
  quiet : ∀ ds, sink.overflows ds = false
  reaches : Reaches is_xid_start is_xid_continue mode content lexer.cursor

/-- A call ends with the next token, or with the end of the text. -/
def Ends (content : List Char) (lexer : Lexer) (sink : Sink) (mode : AsciiMode)
    (result : Option (token.Token × Lexer × Sink)) : Prop :=
  ∃ tok lexer' sink', result = some (tok, lexer', sink') ∧
    Covers (if tok.kind = .Eof then [] else [tok]) lexer sink lexer' sink' ∧
    Ready is_xid_start is_xid_continue mode content lexer' sink' ∧
    (tok.kind = .Eof → lexer'.cursor = size content)

variable {is_xid_start is_xid_continue} {content : List Char} {mode : AsciiMode}

section

variable (hfit : LiteralsFit is_xid_start is_xid_continue mode content)

include hfit

/-- What the lexer comes to is a position of a character, or the end. -/
theorem Reaches.split {cursor : Nat}
    (h : Reaches is_xid_start is_xid_continue mode content cursor) :
    ∃ pre post, content = pre ++ post ∧ cursor = size pre := by
  induction h with
  | start => exact ⟨[], content, rfl, rfl⟩
  | @turn cursor t hreach ht ih =>
    obtain ⟨pre, post, heq, rfl⟩ := ih
    have hat : suffixAt content (size pre) = some post := by
      rw [heq]
      exact suffixAt_append pre post
    have hne : post ≠ [] := by
      rintro rfl
      unfold lex.turn at ht
      rw [hat] at ht
      cases ht
    obtain ⟨t', ht', hsound⟩ :=
      turn_sound is_xid_start is_xid_continue hat hne (hfit _ _ hreach hat)
    obtain rfl := Option.some.inj (ht.symm.trans ht')
    obtain ⟨pre', post', rfl, -, hlen⟩ := hsound.takes
    refine ⟨pre ++ pre', post', ?_, ?_⟩
    · rw [heq, append_assoc]
    · rw [size_append, hlen]

section

variable (h : Ready is_xid_start is_xid_continue mode content lexer sink)

include h

omit hfit in
/-- What the lexer covers leaves it ready, where a turn has got it to. -/
theorem Ready.after {toks : List token.Token} (hcovers : Covers toks lexer sink lexer' sink')
    (hreach : Reaches is_xid_start is_xid_continue mode content lexer'.cursor) :
    Ready is_xid_start is_xid_continue mode content lexer' sink' := by
  refine ⟨hcovers.content.trans h.content_eq, hcovers.mode.trans h.mode_eq,
    hcovers.bailed.trans h.bailed, ?_, hreach⟩
  rw [hcovers.overflows]
  exact h.quiet

theorem next_token_loop_ends {fuel : Nat} (hfuel : size content < lexer.cursor + fuel) :
    Ends is_xid_start is_xid_continue content lexer sink mode
      (next_token_loop is_xid_start is_xid_continue fuel lexer sink) := by
  induction fuel generalizing lexer sink with
  | zero =>
    obtain ⟨pre, post, heq, hcursor⟩ := h.reaches.split hfit
    rw [hcursor, heq, size_append] at hfuel
    omega
  | succ fuel ih =>
    obtain ⟨pre, post, heq, hcursor⟩ := h.reaches.split hfit
    have hat : suffixAt content lexer.cursor = some post := by
      rw [hcursor, heq]
      exact suffixAt_append pre post
    have hsize : size content = size pre + size post := by rw [heq, size_append]
    -- a turn that ends without a token
    have hnext : ∀ {lexer' sink'}, Covers [] lexer sink lexer' sink' →
        Reaches is_xid_start is_xid_continue mode content lexer'.cursor →
        lexer.cursor < lexer'.cursor → Ends is_xid_start is_xid_continue content lexer sink mode
          (next_token_loop is_xid_start is_xid_continue fuel lexer' sink') := by
      intro lexer' sink' hcovers hreach hlt
      obtain ⟨tok, lexer'', sink'', hloop, hcovers', hrest⟩ :=
        ih (h.after hcovers hreach) (by omega)
      exact ⟨tok, lexer'', sink'', hloop, hcovers.trans hcovers', hrest⟩
    obtain rfl := h.content_eq
    obtain rfl := h.mode_eq
    unfold next_token_loop
    dsimp only
    split
    next hend => exact ⟨_, lexer, sink, rfl, Covers.refl lexer sink, h, fun _ => by omega⟩
    next hend =>
      have hne : post ≠ [] := by
        rintro rfl
        rw [size_nil] at hsize
        omega
      obtain ⟨t, ht, hsound⟩ :=
        turn_sound is_xid_start is_xid_continue hat hne (hfit _ _ h.reaches hat)
      have hreach := Reaches.turn h.reaches ht
      have hlt : lexer.cursor < lexer.cursor + t.byte_len :=
        Nat.lt_add_of_pos_right (takes_pos hsound.takes)
      rw [ht]
      cases t with
      | trivia scan =>
        dsimp only
        rw [emit_quiet h.quiet, if_neg Bool.false_ne_true]
        exact hnext (cover_trivia hsound) hreach hlt
      | token scan =>
        have hcovers : Covers [⟨scan.kind, ⟨lexer.cursor, scan.byte_len⟩⟩] _ _ _ _ :=
          @cover_token lexer sink post scan hsound
        dsimp only
        rw [emit_quiet h.quiet]
        refine ⟨_, _, _, rfl, ?_, h.after hcovers hreach, fun heof => absurd heof hsound.2⟩
        rw [if_neg hsound.2]
        exact hcovers
      | unrecognized ch =>
        dsimp only
        rw [emit_quiet h.quiet, if_neg Bool.false_ne_true]
        exact hnext (cover_unrecognized hsound) hreach hlt

theorem next_token_ends : Ends is_xid_start is_xid_continue content lexer sink mode
      (next_token is_xid_start is_xid_continue lexer sink) := by
  unfold next_token
  rw [h.bailed, if_neg (by decide), h.content_eq]
  exact next_token_loop_ends hfit h (by omega)

end

omit hfit in
theorem ready_start {sink : Sink} (hsink : ∀ ds, sink.overflows ds = false) :
    Ready is_xid_start is_xid_continue mode content (Lexer.with_ascii_mode content mode) sink :=
  ⟨rfl, rfl, rfl, hsink, Reaches.start⟩

theorem called_ready (hsink : ∀ ds, sink.overflows ds = false)
    (h : Called is_xid_start is_xid_continue mode content sink lexer sink') :
    Ready is_xid_start is_xid_continue mode content lexer sink' := by
  induction h with
  | start => exact ready_start hsink
  | call _ hcall ih =>
    obtain ⟨tok, lexer', sink', heq, -, hready, -⟩ := next_token_ends hfit ih
    rw [hcall] at heq
    cases heq
    exact hready

omit hfit in
/-- A token takes a byte at least. -/
theorem covers_lt {tok : token.Token} (h : Covers [tok] lexer sink lexer' sink') :
    lexer.cursor < lexer'.cursor := by
  obtain ⟨trivia, reports, -, -, ranges, htiles, hperm⟩ := h.spans
  apply htiles.lt
  rintro rfl
  have hlen := hperm.length_eq
  simp at hlen

/-- The calls get to the end of the text. -/
theorem collect_tokens_ends {fuel : Nat}
    (h : Ready is_xid_start is_xid_continue mode content lexer sink)
    (hfuel : size content < lexer.cursor + fuel) :
    ∃ toks eof lexer' sink', collect_tokens is_xid_start is_xid_continue fuel lexer sink =
        some (toks ++ [eof], lexer', sink') ∧ eof.kind = .Eof ∧ (∀ tok ∈ toks, tok.kind ≠ .Eof) ∧
      lexer'.cursor = size content ∧ Covers toks lexer sink lexer' sink' := by
  induction fuel generalizing lexer sink with
  | zero =>
    obtain ⟨pre, post, heq, hcursor⟩ := h.reaches.split hfit
    rw [hcursor, heq, size_append] at hfuel
    omega
  | succ fuel ih =>
    obtain ⟨tok, lexer', sink', hcall, hcovers, hready, hend⟩ := next_token_ends hfit h
    unfold collect_tokens
    rw [hcall]
    dsimp only
    split
    next heof =>
      rw [if_pos heof] at hcovers
      exact ⟨[], tok, lexer', sink', rfl, heof, by simp, hend heof, hcovers⟩
    next heof =>
      rw [if_neg heof] at hcovers
      have hlt := covers_lt hcovers
      obtain ⟨toks, eof, lexer'', sink'', hrest, hkind, hkinds, hcursor, hcovers'⟩ :=
        ih hready (by omega)
      refine ⟨tok :: toks, eof, lexer'', sink'', ?_, hkind, ?_, hcursor, hcovers.trans hcovers'⟩
      · rw [hrest]
        rfl
      · intro tok' htok'
        rcases mem_cons.1 htok' with rfl | htok'
        · exact heof
        · exact hkinds tok' htok'

end

variable (is_xid_start is_xid_continue)

/-- Every call returns, goes on unless it is at the end, and finds the cursor where a character
begins or at the end; the calls get to the end, and what they find is the whole text. -/
structure Lossless (mode : AsciiMode) (content : List Char) (sink : Sink) : Prop where
  calls : ∀ lexer sink', Called is_xid_start is_xid_continue mode content sink lexer sink' →
    suffixAt content lexer.cursor ≠ none ∧ lexer.cursor ≤ size content ∧ lexer.cursor < 2 ^ 32 ∧
      ∃ tok lexer' sink'', next_token is_xid_start is_xid_continue lexer sink' =
        some (tok, lexer', sink'') ∧ (tok.kind = .Eof ∨ lexer.cursor < lexer'.cursor)
  partition : ∃ fuel toks eof lexer sink' reports,
    collect_tokens is_xid_start is_xid_continue fuel (Lexer.with_ascii_mode content mode) sink =
        some (toks ++ [eof], lexer, sink') ∧
      eof.kind = .Eof ∧ lexer.cursor = size content ∧ sink'.emitted = sink.emitted ++ reports ∧
      Tiled 0 (size content)
        (toks.map (·.span) ++ lexer.trivia.map (·.span) ++ unrecognizedSpans reports)

/-- Every call goes on, and tokens, trivia and reports tile the text. -/
theorem lexer_lossless (mode : AsciiMode) (content : List Char) (sink : Sink)
    (hsize : size content < 2 ^ 32) (hsink : ∀ ds, sink.overflows ds = false)
    (hfit : LiteralsFit is_xid_start is_xid_continue mode content) :
    Lossless is_xid_start is_xid_continue mode content sink := by
  refine ⟨?_, ?_⟩
  · intro lexer sink' hcalled
    have hready := called_ready hfit hsink hcalled
    obtain ⟨pre, post, heq, hcursor⟩ := hready.reaches.split hfit
    obtain ⟨tok, lexer', sink'', hcall, hcovers, -, -⟩ := next_token_ends hfit hready
    have hle : lexer.cursor ≤ size content := by
      rw [hcursor, heq, size_append]
      omega
    refine ⟨?_, hle, Nat.lt_of_le_of_lt hle hsize, tok, lexer', sink'', hcall, ?_⟩
    · rw [hcursor, heq, suffixAt_append]
      simp
    · split at hcovers
      next heof => exact .inl heof
      next => exact .inr (covers_lt hcovers)
  · have hready := @ready_start is_xid_start is_xid_continue content mode sink hsink
    obtain ⟨toks, eof, lexer, sink', hcollect, heof, -, hcursor, hcovers⟩ :=
      collect_tokens_ends hfit hready (show size content < 0 + (size content + 1) by omega)
    obtain ⟨trivia, reports, htrivia, hreports, htiled⟩ := hcovers.spans
    refine ⟨_, toks, eof, lexer, sink', reports, hcollect, heof, hcursor, hreports, ?_⟩
    rw [htrivia, ← hcursor]
    exact htiled

theorem newline_escape_lossless : Lossless Char.isAlpha Char.isAlphanum .UnicodeAllowed
    ['"', '\\', 'n', '"'] ⟨fun _ => false, []⟩ := by
  have hstart : (turn Char.isAlpha Char.isAlphanum .UnicodeAllowed ['"', '\\', 'n', '"'] 0).map
      Turn.byte_len = some 4 := by decide +kernel
  have hend : (turn Char.isAlpha Char.isAlphanum .UnicodeAllowed ['"', '\\', 'n', '"'] 4).map
      Turn.byte_len = none := by decide
  have hreach : ∀ cursor, Reaches Char.isAlpha Char.isAlphanum .UnicodeAllowed
      ['"', '\\', 'n', '"'] cursor → cursor = 0 ∨ cursor = 4 := by
    intro cursor h
    induction h with
    | start => exact .inl rfl
    | turn _ ht ih =>
      rcases ih with rfl | rfl
      · rw [ht] at hstart
        exact .inr ((Nat.zero_add _).trans (Option.some.inj hstart))
      · rw [ht] at hend
        cases hend
  apply lexer_lossless
  · decide
  · exact fun _ => rfl
  · intro cursor text h hat
    rcases hreach cursor h with rfl | rfl
    · obtain rfl := Option.some.inj hat
      refine ⟨?_, ?_⟩
      · intro is_byte rest heq
        cases is_byte <;> exact absurd (cons.inj heq).1 (by decide)
      · intro is_byte contents heq
        cases is_byte with
        | true => exact absurd (cons.inj heq).1 (by decide)
        | false =>
          obtain rfl : [byte '\\', byte 'n', byte '"'] = contents := (cons.inj heq).2
          have hescape : Escape false [byte '\\', byte 'n'] [10] := Escape.simple rfl
          exact Fits.sound hescape Fits.quote
    · obtain rfl := Option.some.inj hat
      refine ⟨?_, ?_⟩ <;>
      · intro is_byte rest heq
        cases is_byte <;> cases heq

/-- An escape of two bytes, with a character of two bytes behind the backslash. -/
theorem cut_escape_panics : ¬Lossless Char.isAlpha Char.isAlphanum .UnicodeAllowed
    ['"', '\\', 'é', '"'] ⟨fun _ => false, []⟩ := by
  intro h
  obtain ⟨-, -, -, tok, lexer', sink'', hcall, -⟩ := h.calls _ _ Called.start
  have hpanic : (next_token Char.isAlpha Char.isAlphanum
      (Lexer.with_ascii_mode ['"', '\\', 'é', '"'] .UnicodeAllowed) ⟨fun _ => false, []⟩).isNone =
        true := by decide +kernel
  rw [hcall] at hpanic
  cases hpanic

end paideia_as_lexer.lex
