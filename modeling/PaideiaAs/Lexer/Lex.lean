-- The lexer: turn by turn, blanks and comments as trivia, tokens one call at a time, and a
-- report of every character that begins nothing.
import PaideiaAs.Lexer.ScanString
import PaideiaAs.Lexer.ScanNumber
import PaideiaAs.Lexer.Scanners
import PaideiaAs.Lib.Cuts

namespace paideia_as_lexer.lex

open Utf8 chars scan strings Tiling

/-! ## One turn -/

/-- What one turn of the loop of `next_token` finds at the cursor. -/
inductive Turn where
  | trivia (scan : TriviaScan)
  | token (scan : token.Scan)
  | unrecognized (ch : Char)

def Turn.byte_len : Turn → Nat
  | .trivia scan => scan.byte_len
  | .token scan => scan.byte_len
  | .unrecognized ch => ch.utf8Size

def is_ascii_letter (c : Char) : Bool := ('a' ≤ c && c ≤ 'z') || ('A' ≤ c && c ≤ 'Z')

/-- The scan of a number with the kinds of all tokens. -/
def number_token (scan : NumberScan) : token.Scan :=
  ⟨match scan.kind with
    | .IntLit => .IntLit
    | .FloatLit => .FloatLit,
    scan.byte_len, scan.diagnostic.map fun d => ⟨6, d.message, ⟨d.start, d.stop⟩⟩⟩

variable (is_xid_start is_xid_continue : Char → Bool)

/-- A quote and an identifier, with no quote behind it. -/
def scan_lifetime (cursor : Nat) (text : List Char) : Option token.Scan :=
  match text with
  | quote :: next :: rest =>
    if quote = QUOTE ∧ (next = '_' ∨ is_ascii_letter next = true) then
      let ident_scan := scan_identifier is_xid_start is_xid_continue (cursor + 1) (next :: rest)
      let looks_like_lifetime := (encode text)[1 + ident_scan.byte_len]? ≠ some (byte QUOTE)
      if looks_like_lifetime ∧ ident_scan.kind = .Ident then
        some ⟨.Ident, 1 + ident_scan.byte_len, none⟩
      else none
    else none
  | _ => none

def begins_comment : List Char → Bool
  | '/' :: c :: _ => c = '/' || c = '*'
  | _ => false

def begins_char (text : List Char) : Bool :=
  text.head? = some QUOTE || (text.head? = some 'b' && text[1]? = some QUOTE)

def begins_identifier (c : Char) : Bool :=
  c = '_' || is_ascii_letter c || c = BACKTICK || (decide (0x80 ≤ c.toNat) && is_xid_start c)

/-- The cursor is not at the end. No value is a panic: a character does not begin there, or a
scanner cuts one. -/
def turn (mode : AsciiMode) (content : List Char) (cursor : Nat) : Option Turn :=
  match suffixAt content cursor with
  | none | some [] => none
  | some (c :: cs) =>
    let text := c :: cs
    match scan_whitespace cursor text with
    | some ws => some (.trivia ws)
    | none =>
      if begins_comment text then
        if cs.head? = some '/' then some (.trivia (scan_line_comment text))
        else some (.trivia (scan_block_comment cursor text))
      else
        match scan_lifetime is_xid_start is_xid_continue cursor text with
        | some lifetime => some (.token lifetime)
        | none =>
          if begins_char text then (scan_char content cursor).map .token
          else if begins_string text then (scan_string content cursor).map .token
          else if is_ascii_digit c then some (.token (number_token (scan_number text cursor)))
          else if begins_identifier is_xid_start c then
            some (.token (scan_identifier is_xid_start is_xid_continue cursor text))
          else
            match scan_op cursor text mode with
            | some op => some (.token op)
            | none => some (.unrecognized c)

/-! ## The lexer -/

structure Lexer where
  content : List Char
  cursor : Nat
  ascii_mode : AsciiMode
  trivia : List token.Trivia
  bailed : Bool

/-- A sink keeps what is emitted, and may refuse to go on. -/
structure Sink where
  overflows : List token.Diagnostic → Bool
  emitted : List token.Diagnostic

/-- The sink after a report, if there is one, and whether it overflows. -/
def Sink.emit (sink : Sink) : Option token.Diagnostic → Sink × Bool
  | none => (sink, false)
  | some diag =>
    ({ sink with emitted := sink.emitted ++ [diag] }, sink.overflows (sink.emitted ++ [diag]))

def Lexer.with_ascii_mode (content : List Char) (mode : AsciiMode) : Lexer :=
  ⟨content, 0, mode, [], false⟩

def is_control (c : Char) : Bool := c.toNat < 0x20 || (0x7F ≤ c.toNat && c.toNat < 0xA0)

/-- At least four digits. -/
def hex4 (n : Nat) : String :=
  let digits := (Nat.toDigits 16 n).map Char.toUpper
  String.ofList (List.replicate (4 - digits.length) '0' ++ digits)

/-- The report of an unrecognized character. -/
def unrecognized (cursor : Nat) (ch : Char) : token.Diagnostic :=
  ⟨11, "unrecognized character '" ++
    (if is_control ch then "U+" ++ hex4 ch.toNat else String.singleton ch) ++ "'",
    ⟨cursor, ch.utf8Size⟩⟩

/-- At most `fuel` turns. -/
def next_token_loop : Nat → Lexer → Sink → Option (token.Token × Lexer × Sink)
  | 0, _, _ => none
  | fuel + 1, lexer, sink =>
    let eof : token.Token := ⟨.Eof, ⟨lexer.cursor, 0⟩⟩
    if size lexer.content ≤ lexer.cursor then some (eof, lexer, sink)
    else
      match turn is_xid_start is_xid_continue lexer.ascii_mode lexer.content lexer.cursor with
      | none => none
      | some (.trivia scan) =>
        let (sink, overflow) := sink.emit scan.diagnostic
        if overflow then some (eof, { lexer with bailed := true }, sink)
        else
          next_token_loop fuel { lexer with
              trivia := lexer.trivia ++ [⟨scan.kind, ⟨lexer.cursor, scan.byte_len⟩⟩]
              cursor := lexer.cursor + scan.byte_len } sink
      | some (.token scan) =>
        let (sink, overflow) := sink.emit scan.diagnostic
        some (⟨scan.kind, ⟨lexer.cursor, scan.byte_len⟩⟩, { lexer with
            cursor := lexer.cursor + scan.byte_len
            bailed := lexer.bailed || overflow }, sink)
      | some (.unrecognized ch) =>
        let (sink, overflow) := sink.emit (some (unrecognized lexer.cursor ch))
        if overflow then some (eof, { lexer with bailed := true }, sink)
        else next_token_loop fuel { lexer with cursor := lexer.cursor + ch.utf8Size } sink

/-- Every turn takes a byte, so that there are no more turns than bytes. -/
def next_token (lexer : Lexer) (sink : Sink) : Option (token.Token × Lexer × Sink) :=
  if lexer.bailed then some (⟨.Eof, ⟨lexer.cursor, 0⟩⟩, lexer, sink)
  else next_token_loop is_xid_start is_xid_continue (size lexer.content + 1) lexer sink

/-- At most `fuel` calls. -/
def collect_tokens : Nat → Lexer → Sink → Option (List token.Token × Lexer × Sink)
  | 0, _, _ => none
  | fuel + 1, lexer, sink =>
    match next_token is_xid_start is_xid_continue lexer sink with
    | none => none
    | some (tok, lexer, sink) =>
      if tok.kind = .Eof then some ([tok], lexer, sink)
      else (collect_tokens fuel lexer sink).map fun r => (tok :: r.1, r.2)

end paideia_as_lexer.lex
