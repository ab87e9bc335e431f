-- Soft hygiene of macro templates: `rewrite_ident_tokens_hygienic` walks the bytes of
-- a text and puts the scope behind every identifier. It slices only where characters
-- begin, and what it does not rename it keeps, with one exception: a character beyond
-- ASCII in the open comes out as one character for each of its bytes.
import PaideiaAs.Lib.Outcome
import PaideiaAs.Lib.Slices

namespace paideia_as_elaborator.macro_expand

open Utf8
open List (append_assoc cons_append flatMap_cons length length_append length_cons length_map
  singleton_append)

/-! ## The scanner -/

/-- `b as char` of Rust. -/
def as_char (b : UInt8) : Char := Char.ofUInt8 b

def ident_char (c : Char) : Bool := c.isAlphanum || c = '_'

def number_char (c : Char) : Bool := ident_char c || c = '.'

def not_newline (c : Char) : Bool := c ≠ '\n'

/-- The bytes of a literal behind its opening quote: up to the closing quote, or all
that are left. A backslash takes the next byte with it. -/
def quoted (quote : Char) : List UInt8 → Nat
  | [] => 0
  | b :: bytes =>
    if as_char b = quote then 1
    else if as_char b = '\\' then
      match bytes with
      | [] => 1
      | _ :: rest => 2 + quoted quote rest
    else 1 + quoted quote bytes

def run_length (p : Char → Bool) (bytes : List UInt8) : Nat :=
  (bytes.takeWhile fun b => p (as_char b)).length

/-- How many bytes a piece that begins with `b` has behind it, and whether the piece is
an identifier; none where `b` is copied alone. -/
def scan_piece (b : UInt8) (bytes : List UInt8) : Option (Nat × Bool) :=
  let c := as_char b
  if c = '"' ∨ c = '\'' then some (quoted c bytes, false)
  else if c = '/' ∧ bytes.head?.map as_char = some '/' then
    some (run_length not_newline bytes, false)
  else if c.isDigit then some (run_length number_char bytes, false)
  else if c.isAlpha ∨ c = '_' then some (run_length ident_char bytes, true)
  else none

/-- `&text[start..stop]`, which panics unless a character begins at both ends. -/
def slice (text : List Char) (start stop : Nat) : Outcome (List Char) :=
  match suffixAt text start, suffixAt text stop with
  | some tail, some rest => .ok (tail.take (tail.length - rest.length))
  | _, _ => .error .panic

/-- The loop from byte `i` on. -/
def rewrite_from (text suffix : List Char) (i : Nat) (out : List Char) : Outcome (List Char) :=
  match _h : (encode text).drop i with
  | [] => .ok out
  | b :: bytes =>
    match scan_piece b bytes with
    | some (n, is_ident) => do
      let piece ← slice text i (i + 1 + n)
      rewrite_from text suffix (i + 1 + n) (out ++ piece ++ if is_ident then suffix else [])
    | none => rewrite_from text suffix (i + 1) (out ++ [as_char b])
termination_by size text - i
decreasing_by
  all_goals
    have hlen := congrArg length _h
    rw [List.length_drop, length_cons] at hlen
    unfold size
    omega

/-- The scope of a template is a positive `u32`. -/
def scope_suffix (scope : UInt32) : List Char := ("_h" ++ toString scope.toNat).toList

def rewrite_ident_tokens_hygienic (text : List Char) (scope : UInt32) (out : List Char) :
    Outcome (List Char) :=
  rewrite_from text (scope_suffix scope) 0 out

/-! ## The pieces of a text -/

inductive Kind where
  | Verbatim
  | Ident
  | Other
  deriving DecidableEq

structure Piece where
  kind : Kind
  text : List Char

/-- A literal behind its opening quote, by characters. -/
def literal (quote : Char) : List Char → List Char
  | [] => []
  | c :: cs =>
    if c = quote then [c]
    else if c = '\\' then
      match cs with
      | [] => [c]
      | d :: rest => c :: d :: literal quote rest
    else c :: literal quote cs

/-- The kind of the piece that begins with `c`, and its text behind `c`. -/
def next (c : Char) (cs : List Char) : Kind × List Char :=
  if c = '"' ∨ c = '\'' then (.Verbatim, literal c cs)
  else if c = '/' ∧ cs.head? = some '/' then (.Verbatim, cs.takeWhile not_newline)
  else if c.isDigit then (.Verbatim, cs.takeWhile number_char)
  else if c.isAlpha ∨ c = '_' then (.Ident, cs.takeWhile ident_char)
  else (.Other, [])

def pieces : List Char → List Piece
  | [] => []
  | c :: cs => ⟨(next c cs).1, c :: (next c cs).2⟩ :: pieces (cs.drop (next c cs).2.length)
termination_by text => text.length
decreasing_by
  rw [List.length_drop, length_cons]
  omega

/-- The text with the scope behind every identifier, and nothing else touched. -/
def hygienic (suffix text : List Char) : List Char :=
  (pieces text).flatMap fun p => p.text ++ if p.kind = .Ident then suffix else []

/-- What a piece becomes in the scanner. -/
def written (suffix : List Char) (p : Piece) : List Char :=
  match p.kind with
  | .Verbatim => p.text
  | .Ident => p.text ++ suffix
  | .Other => (encode p.text).map as_char

/-! ## Bytes and characters -/

variable {c quote : Char} {b : UInt8}

theorem as_char_of_toNat {a : UInt8} (h : c.toNat = a.toNat) : as_char a = c := by
  apply Char.ext
  apply UInt32.toNat_inj.mp
  exact h.symm

theorem as_char_toNat (b : UInt8) : (as_char b).toNat = b.toNat := rfl

/-- A character is one byte, its own, or every byte of it lies beyond ASCII. -/
theorem encodeChar_ascii_or (c : Char) :
    (∃ a, String.utf8EncodeChar c = [a] ∧ as_char a = c ∧ c.toNat < 0x80) ∨
      0x80 ≤ c.toNat ∧ ∀ b ∈ String.utf8EncodeChar c, 0x80 ≤ (as_char b).toNat := by
  obtain ⟨a, t, henc, -, ht, -, hlow⟩ := encodeChar_cases c
  by_cases ha : a.toNat < 0x80
  · obtain ⟨rfl, hc⟩ := hlow ha
    exact .inl ⟨a, henc, as_char_of_toNat hc, by omega⟩
  · have hbytes : ∀ b ∈ String.utf8EncodeChar c, 0x80 ≤ (as_char b).toNat := by
      intro b hb
      rw [henc] at hb
      rcases List.mem_cons.mp hb with rfl | hb
      · exact Nat.not_lt.mp ha
      · exact (ht b hb).1
    refine .inr ⟨Nat.not_lt.mp fun hc => ha ?_, hbytes⟩
    -- the one form below 0x80
    have hnum : (UInt8.ofNat c.toNat).toNat = c.toNat :=
      UInt8.toNat_ofNat_of_lt' (Nat.lt_trans hc (by decide))
    have hone := (encodes_one c (UInt8.ofNat c.toNat)).2 ⟨by omega, hnum.symm⟩
    rw [henc] at hone
    rwa [(List.cons.inj hone).1, hnum]

/-- A test that is the same for all characters beyond ASCII may be made by bytes. -/
theorem run_length_encode {p : Char → Bool} {k : Bool} (hp : ∀ c : Char, 0x80 ≤ c.toNat → p c = k)
    (cs : List Char) : run_length p (encode cs) = size (cs.takeWhile p) := by
  induction cs with
  | nil => rfl
  | cons c cs ih =>
    unfold run_length at ih ⊢
    rw [encode_cons, List.takeWhile_cons]
    rcases encodeChar_ascii_or c with ⟨a, henc, rfl, -⟩ | ⟨hc, hbytes⟩
    · rw [henc, singleton_append, List.takeWhile_cons]
      split_ifs
      · rw [length_cons, ih, size_cons, ← String.length_utf8EncodeChar, henc]
        exact Nat.add_comm _ 1
      · rfl
    · rw [hp c hc]
      cases k with
      | true =>
        rw [List.takeWhile_append_of_pos fun b hb => hp _ (hbytes b hb), length_append, ih,
          if_pos rfl, size_cons, String.length_utf8EncodeChar]
      | false =>
        obtain ⟨a, t, henc, -⟩ := encodeChar_cases c
        rw [henc] at hbytes ⊢
        rw [cons_append, List.takeWhile_cons, hp _ (hbytes a List.mem_cons_self)]
        rfl

theorem quoted_plain (hq : as_char b ≠ quote) (hb : as_char b ≠ '\\')
    (bytes : List UInt8) : quoted quote (b :: bytes) = 1 + quoted quote bytes := by
  cases bytes with
  | nil => simp [quoted, hq, hb]
  | cons d bytes => rw [quoted, if_neg hq, if_neg hb]

theorem literal_plain (hq : c ≠ quote) (hb : c ≠ '\\') (cs : List Char) :
    literal quote (c :: cs) = c :: literal quote cs := by
  cases cs with
  | nil => simp [literal, hq, hb]
  | cons d cs => rw [literal, if_neg hq, if_neg hb]

theorem quoted_append (hq : quote.toNat < 0x80) {t : List UInt8}
    (ht : ∀ b ∈ t, 0x80 ≤ (as_char b).toNat) (bytes : List UInt8) :
    quoted quote (t ++ bytes) = t.length + quoted quote bytes := by
  induction t with
  | nil => exact (Nat.zero_add _).symm
  | cons b t ih =>
    have hb := ht b (.head _)
    have hne : ∀ c : Char, c.toNat < 0x80 → as_char b ≠ c := by
      rintro c hc rfl
      omega
    rw [cons_append, quoted_plain (hne _ hq) (hne _ (by decide)),
      ih fun x hx => ht x (.tail b hx), length_cons]
    omega

theorem quoted_encode {quote : Char} (hq : quote.toNat < 0x80) :
    ∀ cs, quoted quote (encode cs) = size (literal quote cs)
  | [] => rfl
  | c :: cs => by
    rw [encode_cons]
    rcases encodeChar_ascii_or c with ⟨a, henc, rfl, -⟩ | ⟨hc, hbytes⟩
    · have hsize : (as_char a).utf8Size = 1 := by
        rw [← String.length_utf8EncodeChar, henc]
        rfl
      rw [henc, singleton_append]
      unfold quoted literal
      split_ifs
      · rw [size_cons, hsize, size_nil]
      · cases cs with
        | nil => rw [size_cons, hsize, size_nil]; rfl
        | cons d rest =>
          -- the backslash takes the first byte of `d`, and the rest of `d` ends nothing
          obtain ⟨b, t, hd, -, ht, -⟩ := encodeChar_cases d
          rw [encode_cons, hd, cons_append]
          simp only
          rw [quoted_append hq fun x hx => (ht x hx).1, quoted_encode hq rest, size_cons,
            size_cons, hsize, ← String.length_utf8EncodeChar d, hd, length_cons]
          omega
      · rw [size_cons, hsize, quoted_encode hq cs]
    · have hne : ∀ d : Char, d.toNat < 0x80 → c ≠ d := by
        rintro d hd rfl
        omega
      rw [quoted_append hq hbytes, quoted_encode hq cs,
        literal_plain (hne _ hq) (hne _ (by decide)), size_cons, String.length_utf8EncodeChar]

theorem head_encode {d : Char} (hd : d.toNat < 0x80) (cs : List Char) :
    (encode cs).head?.map as_char = some d ↔ cs.head? = some d := by
  cases cs with
  | nil => simp
  | cons c cs =>
    rw [encode_cons]
    rcases encodeChar_ascii_or c with ⟨a, henc, rfl, -⟩ | ⟨hc, hbytes⟩
    · simp [henc]
    · obtain ⟨a, t, henc, -⟩ := encodeChar_cases c
      rw [henc] at hbytes ⊢
      have ha := hbytes a (.head _)
      apply iff_of_false
      all_goals
        intro h
        cases h
        omega

section

variable (hc : 0x80 ≤ c.toNat)

include hc

theorem alphanum_high : c.isAlphanum = false := by
  have hv : c.val.toNat = c.toNat := rfl
  unfold Char.isAlphanum Char.isAlpha Char.isUpper Char.isLower Char.isDigit
  simp [UInt32.le_iff_toNat_le, hv]
  omega

theorem ne_of_high {d : Char} (hd : d.toNat < 0x80) : c ≠ d := by
  rintro rfl
  omega

theorem ident_char_high : ident_char c = false := by
  unfold ident_char
  rw [alphanum_high hc, decide_eq_false (ne_of_high hc (by decide))]
  rfl

theorem number_char_high : number_char c = false := by
  unfold number_char
  rw [ident_char_high hc, decide_eq_false (ne_of_high hc (by decide))]
  rfl

theorem not_newline_high : not_newline c = true :=
  decide_eq_true (ne_of_high hc (by decide))

/-! ## One piece -/

omit hc in
/-- Nothing but itself begins with a byte beyond ASCII. -/
theorem scan_piece_high (hb : 0x80 ≤ (as_char b).toNat) (bytes : List UInt8) :
    scan_piece b bytes = none := by
  have halpha := alphanum_high hb
  unfold Char.isAlphanum at halpha
  rw [Bool.or_eq_false_iff] at halpha
  unfold scan_piece
  simp [ne_of_high hb, halpha]

theorem next_high (cs : List Char) : next c cs = (.Other, []) := by
  have halpha := alphanum_high hc
  unfold Char.isAlphanum at halpha
  rw [Bool.or_eq_false_iff] at halpha
  unfold next
  simp [ne_of_high hc, halpha]

end

theorem scan_piece_encode {a : UInt8} (ha : (as_char a).toNat < 0x80) (cs : List Char) :
    scan_piece a (encode cs) =
      if (next (as_char a) cs).1 = .Other then none
      else some (size (next (as_char a) cs).2, decide ((next (as_char a) cs).1 = .Ident)) := by
  unfold scan_piece next
  simp only [head_encode (show Char.toNat '/' < 0x80 by decide)]
  by_cases hquote : as_char a = '"' ∨ as_char a = '\''
  · simp [hquote, quoted_encode ha]
  by_cases hcomment : as_char a = '/' ∧ cs.head? = some '/'
  · simp [hcomment, run_length_encode fun _ => not_newline_high]
  by_cases hdigit : (as_char a).isDigit = true
  · simp [hquote, hcomment, hdigit, run_length_encode fun _ => number_char_high]
  by_cases hident : (as_char a).isAlpha = true ∨ as_char a = '_'
  · simp [hquote, hcomment, hdigit, hident, run_length_encode fun _ => ident_char_high]
  · simp [hquote, hcomment, hdigit, hident]

theorem next_other {c : Char} {cs : List Char} (h : (next c cs).1 = .Other) :
    (next c cs).2 = [] := by
  unfold next at h ⊢
  split_ifs at h ⊢
  rfl

/-- The text of a piece is a beginning of what is left. -/
theorem literal_prefix (quote : Char) : ∀ cs, literal quote cs <+: cs
  | [] => List.nil_prefix
  | c :: cs => by
    unfold literal
    split_ifs
    · exact ⟨cs, rfl⟩
    · cases cs with
      | nil => exact List.prefix_refl _
      | cons d rest => simpa using literal_prefix quote rest
    · simpa using literal_prefix quote cs

theorem next_prefix (c : Char) (cs : List Char) : (next c cs).2 <+: cs := by
  unfold next
  split_ifs
  · exact literal_prefix c cs
  · exact List.takeWhile_prefix _
  · exact List.takeWhile_prefix _
  · exact List.takeWhile_prefix _
  · exact List.nil_prefix

/-! ## The whole text -/

theorem slice_ok (pre mid post : List Char) :
    slice (pre ++ (mid ++ post)) (size pre) (size (pre ++ mid)) = .ok mid := by
  unfold slice
  rw [suffixAt_append, ← append_assoc, suffixAt_append]
  simp

theorem rewrite_from_cons {text suffix out : List Char} {i : Nat} {bytes : List UInt8}
    (h : (encode text).drop i = b :: bytes) :
    rewrite_from text suffix i out =
      match scan_piece b bytes with
      | some (n, is_ident) => do
        let piece ← slice text i (i + 1 + n)
        rewrite_from text suffix (i + 1 + n) (out ++ piece ++ if is_ident then suffix else [])
      | none => rewrite_from text suffix (i + 1) (out ++ [as_char b]) := by
  rw [rewrite_from]
  split
  · simp_all
  · rename_i heq
    rw [h] at heq
    cases heq
    rfl

/-- Bytes beyond ASCII are copied one by one. -/
theorem rewrite_from_high {text : List Char} (suffix : List Char) {t rest : List UInt8}
    (ht : ∀ b ∈ t, 0x80 ≤ (as_char b).toNat) {i : Nat} (h : (encode text).drop i = t ++ rest)
    (out : List Char) :
    rewrite_from text suffix i out =
      rewrite_from text suffix (i + t.length) (out ++ t.map as_char) := by
  induction t generalizing i out with
  | nil => simp
  | cons b t ih =>
    have hrest : (encode text).drop (i + 1) = t ++ rest := by
      rw [← List.drop_drop, h, cons_append, List.drop_succ_cons, List.drop_zero]
    rw [rewrite_from_cons h, scan_piece_high (ht b List.mem_cons_self)]
    simp only
    rw [ih (fun x hx => ht x (List.mem_cons_of_mem b hx)) hrest, length_cons,
      List.map_cons, append_assoc, singleton_append, Nat.add_assoc, Nat.add_comm 1]

theorem rewrite_from_eq (suffix : List Char) (post : List Char) : ∀ pre out,
    rewrite_from (pre ++ post) suffix (size pre) out =
      .ok (out ++ (pieces post).flatMap (written suffix)) := by
  induction post using pieces.induct with
  | case1 =>
    intro pre out
    rw [List.append_nil, rewrite_from]
    split
    · simp [pieces]
    · rename_i heq
      unfold size at heq
      simp at heq
  | case2 c cs ih =>
    intro pre out
    have hdrop := drop_encode pre (c :: cs)
    rw [pieces, flatMap_cons]
    rcases encodeChar_ascii_or c with ⟨a, henc, rfl, ha⟩ | ⟨hc, hbytes⟩
    · obtain ⟨rest, hrest⟩ := next_prefix (as_char a) cs
      have hone := @next_other (as_char a) cs
      have hscan := scan_piece_encode ha cs
      rcases hnext : next (as_char a) cs with ⟨kind, tail⟩
      rw [hnext] at hrest ih hone hscan
      subst hrest
      rw [encode_cons, henc, singleton_append] at hdrop
      rw [rewrite_from_cons hdrop, hscan]
      simp only [List.drop_left] at ih hone ⊢
      have hstep := ih (pre ++ as_char a :: tail)
      have hsize : size (pre ++ as_char a :: tail) = size pre + 1 + size tail := by
        rw [size_append, size_cons, ← String.length_utf8EncodeChar, henc, Nat.add_assoc]
        rfl
      rw [append_assoc, cons_append, hsize] at hstep
      cases kind with
      | Other =>
        obtain rfl := hone rfl
        rw [if_pos rfl]
        simp only
        rw [size_nil, Nat.add_zero] at hstep
        rw [hstep]
        simp [written, henc]
      | Verbatim | Ident =>
        have hslice := slice_ok pre (as_char a :: tail) rest
        rw [cons_append, hsize] at hslice
        rw [if_neg nofun]
        simp [hslice, hstep, written]
    · have hcopied := rewrite_from_high suffix hbytes hdrop out
      rw [String.length_utf8EncodeChar] at hcopied
      rw [hcopied]
      have hstep := ih (pre ++ [c])
      rw [next_high hc] at hstep ⊢
      rw [List.length_nil, List.drop_zero, append_assoc, singleton_append,
        size_append, size_cons, size_nil, Nat.add_zero] at hstep
      rw [hstep]
      simp [written]

/-! ## What is written -/

theorem flatMap_eq_iff {α β : Type} {f g : α → List β} (hle : ∀ a, (f a).length ≤ (g a).length)
    (as : List α) : as.flatMap f = as.flatMap g ↔ ∀ a ∈ as, f a = g a := by
  induction as with
  | nil => simp
  | cons a as ih =>
    rw [flatMap_cons, flatMap_cons, List.forall_mem_cons, ← ih]
    refine ⟨fun h => ?_, fun h => by rw [h.1, h.2]⟩
    have hsum : ∀ bs : List α, (bs.flatMap f).length ≤ (bs.flatMap g).length := by
      intro bs
      induction bs with
      | nil => exact Nat.le_refl _
      | cons b bs ihb =>
        have := hle b
        rw [flatMap_cons, flatMap_cons, length_append, length_append]
        omega
    have hlen := congrArg length h
    rw [length_append, length_append] at hlen
    have := hle a
    have := hsum as
    exact List.append_inj h (by omega)

theorem encode_as_chars_iff (cs : List Char) :
    cs = (encode cs).map as_char ↔ ∀ c ∈ cs, c.toNat < 0x80 := by
  have hbytes : (encode cs).map as_char =
      cs.flatMap fun c => (String.utf8EncodeChar c).map as_char := List.map_flatMap
  rw [hbytes]
  nth_rewrite 1 [← List.flatMap_singleton' cs]
  rw [flatMap_eq_iff]
  · apply forall₂_congr
    intro c _
    rcases encodeChar_ascii_or c with ⟨a, henc, hc, hlow⟩ | ⟨hc, hbytes⟩
    · rw [henc]
      simp [hc, hlow]
    · refine iff_of_false (fun h => ?_) (Nat.not_lt.mpr hc)
      have hlen := congrArg length h
      rw [length_map] at hlen
      obtain ⟨b, hb⟩ := List.length_eq_one_iff.mp hlen.symm
      have hhigh := hbytes b (hb ▸ List.mem_singleton_self b)
      have hlow := ((encodes_one c b).1 hb).1
      rw [as_char_toNat] at hhigh
      omega
  · intro c
    rw [length_map, String.length_utf8EncodeChar]
    exact Char.utf8Size_pos c

/-- Every character beyond ASCII stands in a literal or a comment. -/
def OpenAscii (text : List Char) : Prop :=
  ∀ p ∈ pieces text, p.kind = .Other → ∀ c ∈ p.text, c.toNat < 0x80

theorem written_all_iff (suffix text : List Char) :
    (pieces text).flatMap (written suffix) = hygienic suffix text ↔ OpenAscii text := by
  unfold hygienic OpenAscii
  rw [eq_comm, flatMap_eq_iff]
  · apply forall₂_congr
    rintro ⟨kind, cs⟩ -
    unfold written
    cases kind with
    | Verbatim | Ident => simp
    | Other => simpa using encode_as_chars_iff cs
  · rintro ⟨kind, cs⟩
    unfold written
    cases kind with
    | Verbatim | Ident => simp
    | Other =>
      simp only [reduceCtorEq, if_false, List.append_nil, length_map]
      induction cs with
      | nil => exact Nat.le_refl _
      | cons c cs ih =>
        have := Char.utf8Size_pos c
        rw [encode_cons, length_append, String.length_utf8EncodeChar, length_cons]
        omega

theorem rewrite_eq (text : List Char) (scope : UInt32) (out : List Char) :
    rewrite_ident_tokens_hygienic text scope out =
      .ok (out ++ (pieces text).flatMap (written (scope_suffix scope))) :=
  rewrite_from_eq (scope_suffix scope) text [] out

/-- The scan always ends, with every slice between characters, and it is soft hygiene
exactly when no character beyond ASCII stands in the open. -/
theorem rewrite_renames_only_identifiers_iff (text : List Char) (scope : UInt32)
    (out : List Char) :
    (∃ result, rewrite_ident_tokens_hygienic text scope out = .ok result) ∧
      (rewrite_ident_tokens_hygienic text scope out =
        .ok (out ++ hygienic (scope_suffix scope) text) ↔ OpenAscii text) := by
  rw [rewrite_eq]
  refine ⟨⟨_, rfl⟩, ?_⟩
  rw [Except.ok.injEq, List.append_right_inj]
  exact written_all_iff _ _

/-- In the open, `é` comes out as `Ã©`. -/
theorem open_letter_is_torn :
    ¬ ∀ text scope out, rewrite_ident_tokens_hygienic text scope out =
      .ok (out ++ hygienic (scope_suffix scope) text) := by
  intro h
  have htext := h ['é'] 1 []
  rw [rewrite_eq, Except.ok.injEq, List.append_right_inj, written_all_iff] at htext
  have hpiece : ⟨.Other, ['é']⟩ ∈ pieces ['é'] := by
    rw [pieces, next_high (by decide)]
    exact .head _
  exact absurd (htext _ hpiece rfl 'é' (.head _)) (by decide)

end paideia_as_elaborator.macro_expand
