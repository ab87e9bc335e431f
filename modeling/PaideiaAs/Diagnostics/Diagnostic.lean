-- Spans and diagnostics, as `paideia-as-diagnostics` declares them, and the
-- text that `Debug` of Rust gives for a string.
import Mathlib.Data.Nat.Digits.Defs

namespace paideia_as_diagnostics

/-! ## Spans -/

/-- A `NonZeroU32`. -/
structure FileId where
  num : Nat
  pos : 0 < num
  deriving DecidableEq

/-- A range of bytes in a file. A source file has at most `u32::MAX` bytes. -/
structure Span where
  file : FileId
  byte_start : Nat
  byte_len : Nat
  fits : byte_start + byte_len < 2 ^ 32
  deriving DecidableEq

theorem Span.one_fits : 0 + 1 < 2 ^ 32 := by decide

def Span.byte_end (s : Span) : Nat := s.byte_start + s.byte_len

/-- The categories of the codes that occur here. -/
inductive Category where
  | F
  | M
  | S
  deriving DecidableEq

/-- An error. Secondary spans, payload and suggestions are not used. -/
structure Diagnostic where
  category : Category
  number : Nat
  message : String
  primary_span : Span
  deriving DecidableEq

/-! ## Debug texts -/

/-- The escape of a character that is not printed as it is. -/
def escape_unicode (c : Char) : String :=
  "\\u\x7b" ++ String.ofList (Nat.toDigits 16 c.toNat) ++ "\x7d"

/-- `printable` is the standard library's table of the characters that `Debug`
prints as they are. -/
def debug_char (printable : Char → Bool) (c : Char) : String :=
  if c.toNat = 0 then "\\0"
  else if c = '\t' then "\\t"
  else if c = '\r' then "\\r"
  else if c = '\n' then "\\n"
  else if c = '\\' then "\\\\"
  else if c = '"' then "\\\""
  else if printable c then String.singleton c
  else escape_unicode c

def debug_str (printable : Char → Bool) (s : String) : String :=
  "\"" ++ String.join (s.toList.map (debug_char printable)) ++ "\""

/-- `Debug` of a vector, from the texts of its elements. -/
def debug_list (texts : List String) : String := "[" ++ ", ".intercalate texts ++ "]"

end paideia_as_diagnostics
