-- The scanners of blanks, comments, identifiers and operators. Each sees the text from the
-- position of the cursor on; that a character begins there is asserted by the lexer's turn.
import PaideiaAs.Lexer.Token
import PaideiaAs.Lib.Slices

namespace paideia_as_lexer.scan

open Utf8

/-- The zero-width space, which is forbidden. -/
def ZWSP : Char := Char.ofNat 0x200B

structure TriviaScan where
  kind : token.TriviaKind
  byte_len : Nat
  diagnostic : Option token.Diagnostic

def scan_whitespace (byte_offset : Nat) (text : List Char) : Option TriviaScan :=
  match text with
  | [] => none
  | c :: cs =>
    if c = '\n' then some ⟨.Newline, 1, none⟩
    else if c = '\r' ∧ cs.head? = some '\n' then some ⟨.Newline, 2, none⟩
    else if c = ZWSP then
      some ⟨.Whitespace, 3, some ⟨3, "zero-width space (U+200B) is forbidden in source",
        ⟨byte_offset, 3⟩⟩⟩
    else if c = '\t' ∨ c = ' ' then
      some ⟨.Whitespace, size (c :: cs.takeWhile fun d => d = '\t' ∨ d = ' '), none⟩
    else none

def scan_line_comment (text : List Char) : TriviaScan :=
  let is_doc := text[2]? = some '/' ∧ text[3]? ≠ some '/'
  ⟨if is_doc then .DocLineComment else .LineComment, size (text.takeWhile (· ≠ '\n')), none⟩

/-- The bytes to the end of the comment, from inside it; none where it does not end. -/
def block_end : Nat → List Char → Option Nat
  | depth, a :: b :: cs =>
    if a = '/' ∧ b = '*' then (block_end (depth + 1) cs).map (2 + ·)
    else if a = '*' ∧ b = '/' then
      if depth = 1 then some 2 else (block_end (depth - 1) cs).map (2 + ·)
    else (block_end depth (b :: cs)).map (a.utf8Size + ·)
  | _, _ => none

def scan_block_comment (byte_offset : Nat) (text : List Char) : TriviaScan :=
  let is_doc := text[2]? = some '*' ∧ text[3]? ≠ some '/'
  let kind := if is_doc then token.TriviaKind.DocBlockComment else .BlockComment
  match block_end 1 (text.drop 2) with
  | some len => ⟨kind, 2 + len, none⟩
  | none => ⟨kind, size text, some ⟨4, "unterminated block comment", ⟨byte_offset, size text⟩⟩⟩

/-! ## Identifiers -/

/-- The mark of raw identifiers. -/
def BACKTICK : Char := Char.ofNat 0x60

variable (is_xid_start is_xid_continue : Char → Bool)

/-- `rest` is the text behind the opening mark. -/
def scan_raw_identifier (byte_offset : Nat) (rest : List Char) : token.Scan :=
  let inner := rest.takeWhile fun c => c ≠ BACKTICK ∧ c ≠ '\n'
  if rest[inner.length]? = some BACKTICK then ⟨.Ident, 1 + size inner + 1, none⟩
  else
    ⟨.Ident, 1 + size inner, some ⟨12, "unterminated raw identifier",
      ⟨byte_offset, 1 + size inner⟩⟩⟩

def is_ascii_digit (c : Char) : Bool := '0' ≤ c && c ≤ '9'

/-- The text is not empty. -/
def scan_identifier (byte_offset : Nat) (text : List Char) : token.Scan :=
  match text with
  | [] => ⟨.Ident, 0, none⟩
  | first_char :: rest =>
    if first_char = BACKTICK then scan_raw_identifier byte_offset rest
    else
      let run := first_char :: rest.takeWhile fun c => is_xid_continue c || c = '_'
      let leading_digit := is_ascii_digit first_char
      {
        kind := if leading_digit then .Ident else (token.keyword_kind run).getD .Ident
        byte_len := size run
        diagnostic :=
          if leading_digit then
            some ⟨12, "identifier may not start with a digit", ⟨byte_offset, size run⟩⟩
          else if !(is_xid_start first_char || first_char = '_') then
            some ⟨12, "identifier starts with invalid character", ⟨byte_offset, size run⟩⟩
          else none }

/-! ## Operators -/

inductive AsciiMode where
  | UnicodeAllowed
  | AsciiOnly
  deriving DecidableEq

structure GlyphEntry where
  unicode : Option Char
  ascii : String
  kind : token.TokenKind

def GLYPHS : List GlyphEntry :=
  [⟨none, "!\x7b", .EffectOpen⟩, ⟨none, "@\x7b", .CapOpen⟩, ⟨some '→', "->", .Arrow⟩,
    ⟨some '↦', "=>", .FatArrow⟩, ⟨some '∷', "::", .ColonColon⟩, ⟨some '↓', "$", .LinearMark⟩,
    ⟨none, "~", .AffineMark⟩]

def two_char_operators : List ((Char × Char) × token.TokenKind) :=
  [(('-', '>'), .Arrow), (('=', '>'), .FatArrow), ((':', ':'), .ColonColon), (('=', '='), .Eq),
    (('!', '='), .Neq), (('<', '='), .Le), (('>', '='), .Ge), (('&', '&'), .AndAnd),
    (('|', '|'), .OrOr), (('<', '<'), .Shl), (('>', '>'), .Shr), (('!', '{'), .EffectOpen),
    (('@', '{'), .CapOpen), (('.', '.'), .DotDot)]

def two_char_ascii : List Char → Option token.TokenKind
  | a :: b :: _ => two_char_operators.lookup (a, b)
  | _ => none

def single_char_operators : List (Char × token.TokenKind) :=
  [('(', .LParen), (')', .RParen), ('{', .LBrace), ('}', .RBrace), ('[', .LBracket),
    (']', .RBracket), (',', .Comma), (';', .Semicolon), (':', .Colon), ('.', .Dot), ('+', .Plus),
    ('-', .Minus), ('*', .Star), ('/', .Slash), ('%', .Percent), ('=', .Assign), ('<', .Lt),
    ('>', .Gt), ('!', .Bang), ('&', .Amp), ('|', .Pipe), ('^', .Caret), ('?', .Question),
    ('@', .At), ('#', .Hash), ('$', .LinearMark), ('~', .AffineMark)]

def single_char_ascii (c : Char) : Option token.TokenKind := single_char_operators.lookup c

def scan_op (byte_offset : Nat) (text : List Char) (mode : AsciiMode) : Option token.Scan :=
  match text with
  | [] => none
  | c :: cs =>
    match GLYPHS.find? fun entry => entry.unicode = some c with
    | some entry =>
      some ⟨entry.kind, c.utf8Size,
        match mode with
        | .AsciiOnly =>
          some ⟨10, "Unicode operator '" ++ String.singleton c ++
            "' used in ASCII-only mode; use '" ++ entry.ascii ++ "' instead",
            ⟨byte_offset, c.utf8Size⟩⟩
        | .UnicodeAllowed => none⟩
    | none =>
      match two_char_ascii (c :: cs) with
      | some kind => some ⟨kind, 2, none⟩
      | none => (single_char_ascii c).map fun kind => ⟨kind, 1, none⟩

end paideia_as_lexer.scan
