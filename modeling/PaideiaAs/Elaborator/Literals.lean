-- The readers of integer literals: ordinary literals, the unsafe block, and the
-- patterns of a match, each with its own idea of the text of a token.
import PaideiaAs.Elaborator.Addresses
import PaideiaAs.Lib.Outcome

namespace paideia_as

open paideia_as_lexer

/-! ## Ordinary literals -/

/-- `char::is_whitespace`. -/
def is_whitespace (c : Char) : Bool :=
  let n := c.toNat
  (9 ≤ n && n ≤ 13) || n == 0x20 || n == 0x85 || n == 0xA0 || n == 0x1680 ||
    (0x2000 ≤ n && n ≤ 0x200A) || n == 0x2028 || n == 0x2029 || n == 0x202F || n == 0x205F ||
    n == 0x3000

/-- `str::trim`. -/
def trim (text : List Char) : List Char :=
  ((text.dropWhile is_whitespace).reverse.dropWhile is_whitespace).reverse

/-- `str::strip_suffix`. -/
def strip_suffix (text suffix : List Char) : Option (List Char) :=
  if suffix <:+ text then some (text.take (text.length - suffix.length)) else none

def type_suffixes : List (List Char) :=
  [['u', 's', 'i', 'z', 'e'], ['i', 's', 'i', 'z', 'e'], ['u', '1', '2', '8'], ['i', '1', '2', '8'],
    ['u', '6', '4'], ['i', '6', '4'], ['u', '3', '2'], ['i', '3', '2'], ['u', '1', '6'],
    ['i', '1', '6'], ['u', '8'], ['i', '8'] ]

/-- The marks of the bases are those of the lexer, tried in the same order. -/
def parse_integer_literal (text : List Char) : Option Int64 :=
  let text := trim text
  if text = [] then none
  else
    let is_negative := text.head? = some '-'
    let text := if text.head? = some '-' ∨ text.head? = some '+' then text.tail else text
    let (base, digits) := base_and_digits text
    let digits := (type_suffixes.findSome? (strip_suffix digits)).getD digits
    let digits := digits.filter (· ≠ '_')
    (Radix.unsigned 64 base digits).map fun n =>
      let result := Int64.ofNat n
      if is_negative then -result else result

section

variable {text : List Char} {v : Nat}

theorem dropWhile_whitespace (h : ∀ c ∈ text, is_whitespace c = false) :
    text.dropWhile is_whitespace = text := by
  cases text with
  | nil => rfl
  | cons a text => simp [h a (List.mem_cons_self ..)]

theorem trim_self (h : ∀ c ∈ text, is_whitespace c = false) : trim text = text := by
  have hrev : ∀ c ∈ text.reverse, is_whitespace c = false := by
    intro c hc
    exact h c (List.mem_reverse.mp hc)
  rw [trim, dropWhile_whitespace h, dropWhile_whitespace hrev, List.reverse_reverse]

variable {e s : List Char}

theorem type_suffix_of_suffix (he : e ∈ type_suffixes) (hs : s ∈ type_suffixes)
    (h : e <:+ s) : e = s := by
  have htable : ∀ e ∈ type_suffixes, ∀ s ∈ type_suffixes, e <:+ s → e = s := by decide
  exact htable e he s hs h

theorem type_suffix_head (he : e ∈ type_suffixes) : ∃ c tl, e = c :: tl ∧ (c = 'u' ∨ c = 'i') := by
  have htable : ∀ e ∈ type_suffixes, ∃ c tl, e = c :: tl ∧ (c = 'u' ∨ c = 'i') := by
    simp [type_suffixes]
  exact htable e he

/-- Behind a run of digits stands one suffix, or none. -/
theorem suffix_unique {int : List Char} (hint : ∀ c ∈ int, c ≠ 'u' ∧ c ≠ 'i')
    (he : e ∈ type_suffixes) (hs : s = [] ∨ s ∈ type_suffixes) (h : e <:+ int ++ s) : e = s := by
  obtain ⟨c, tl, rfl, hc⟩ := type_suffix_head he
  have hsuffix : (c :: tl) <:+ s := by
    obtain ⟨before, heq⟩ := h
    rcases List.append_eq_append_iff.mp heq with ⟨t, hint', ht⟩ | ⟨t, _, ht⟩
    · cases t with
      | nil => exact ht ▸ List.suffix_refl _
      | cons a t =>
        obtain rfl : c = a := (List.cons_eq_cons.mp ht).1
        have := hint c (by simp [hint'])
        tauto
    · exact ⟨t, ht.symm⟩
  rcases hs with rfl | hs
  · simp at hsuffix
  · exact type_suffix_of_suffix he hs hsuffix

theorem strip_type_suffix {int : List Char} (hint : ∀ c ∈ int, c ≠ 'u' ∧ c ≠ 'i')
    (hs : s = [] ∨ s ∈ type_suffixes) :
    (type_suffixes.findSome? (strip_suffix (int ++ s))).getD (int ++ s) = int := by
  cases hfind : type_suffixes.findSome? (strip_suffix (int ++ s)) with
  | none =>
    rcases hs with rfl | hs
    · simp
    · have hnone := List.findSome?_eq_none_iff.mp hfind s hs
      simp [strip_suffix] at hnone
  | some d =>
    obtain ⟨e, he, hstrip⟩ := List.exists_of_findSome?_eq_some hfind
    unfold strip_suffix at hstrip
    split_ifs at hstrip with hsuf
    obtain rfl := suffix_unique hint he hs hsuf
    cases hstrip
    simp

/-- The parts of a token: a base, a run of digits that has a value, and a suffix. -/
theorem int_literal_run (h : int_literal text = some v) :
    ∃ base int s, base_and_digits text = (base, int ++ s) ∧ base ≤ 16 ∧
      (∀ c ∈ int, (Radix.toDigit base c).isSome ∨ c = '_') ∧
      Radix.natural base (int.filter (· ≠ '_')) = some v ∧ (s = [] ∨ s ∈ type_suffixes) := by
  have hbase := (int_literal_parts h).2.1
  unfold int_literal at h
  dsimp only at h
  refine ⟨(base_and_digits text).1,
    (scan_int_part (base_and_digits text).1 false (base_and_digits text).2).1,
    (scan_int_part (base_and_digits text).1 false (base_and_digits text).2).2, ?_, hbase,
    scan_int_part_chars _ false _, ?_⟩
  · rw [scan_int_part_append]
  · split at h
    · rename_i w hw
      split_ifs at h with hok
      cases h
      refine ⟨hw, ?_⟩
      simp only [Bool.and_eq_true] at hok
      have hsuf := hok.2
      unfold suffix_ok at hsuf
      rcases Bool.or_eq_true _ _ ▸ hsuf with hsuf | hsuf
      · exact .inl (by simpa using hsuf)
      · obtain ⟨e, he, hval⟩ := List.any_eq_true.mp hsuf
        simp only [Bool.and_eq_true, decide_eq_true_eq] at hval
        have htable : ∀ e ∈ valid_suffixes, e.1 ∈ type_suffixes := by
          simp [valid_suffixes, type_suffixes]
        exact .inr (hval.1 ▸ htable e he)
    · cases h

theorem token_chars (h : int_literal text = some v) : ∀ c ∈ text, is_whitespace c = false := by
  obtain ⟨base, int, s, hbase, hle, hint, _, hs⟩ := int_literal_run h
  have hdigit : ∀ c, (Radix.toDigit base c).isSome → is_whitespace c = false := by
    intro c hc
    have hrange : 48 ≤ c.toNat ∧ c.toNat ≤ 122 := by
      unfold Radix.toDigit at hc
      dsimp only at hc
      split_ifs at hc <;> first | omega | simp at hc
    simp [is_whitespace]
    omega
  have hrun : ∀ c ∈ int ++ s, is_whitespace c = false := by
    intro c hc
    rcases List.mem_append.mp hc with hc | hc
    · rcases hint c hc with hc | rfl
      · exact hdigit c hc
      · decide
    · have htable : type_suffixes.all (·.all (!is_whitespace ·)) = true := by decide
      rcases hs with rfl | hs
      · cases hc
      · simpa using List.all_eq_true.mp (List.all_eq_true.mp htable s hs) c hc
  rcases base_and_digits_cases text with ⟨hten, _⟩ | ⟨m, cs, rfl, hmark⟩
  · obtain ⟨_, rfl⟩ := Prod.mk.injEq .. ▸ (hten.symm.trans hbase)
    exact hrun
  · have hcs : cs = int ++ s ∧ is_whitespace m = false := by
      rcases hmark with ⟨hm, hb⟩ | ⟨hm, hb⟩ | ⟨hm, hb⟩ <;>
        exact ⟨(Prod.mk.injEq .. ▸ (hb.symm.trans hbase)).2, by rcases hm with rfl | rfl <;> decide⟩
    intro c hc
    rcases List.mem_cons.mp hc with rfl | hc
    · decide
    · rcases List.mem_cons.mp hc with rfl | hc
      · exact hcs.2
      · exact hrun c (hcs.1 ▸ hc)

/-- An ordinary literal is read as its value, whatever its spelling. -/
theorem parse_integer_literal_spec (h : int_literal text = some v)
    (hv : v < 2 ^ 64) : parse_integer_literal text = some (Int64.ofNat v) := by
  have hhead := (int_literal_parts h).1
  obtain ⟨base, int, s, hbase, hle, hint, hval, hs⟩ := int_literal_run h
  have hne : text ≠ [] := by
    rintro rfl
    simp at hhead
  have hminus : text.head? ≠ some '-' := paideia_as_elaborator.head_ne hhead (by decide)
  have hplus : text.head? ≠ some '+' := paideia_as_elaborator.head_ne hhead (by decide)
  have hui : ∀ c ∈ int, c ≠ 'u' ∧ c ≠ 'i' := by
    intro c hc
    have hu : ¬ (30 : Nat) < base := by omega
    have hi : ¬ (18 : Nat) < base := by omega
    constructor
    · rintro rfl
      simpa [Radix.toDigit, hu] using hint _ hc
    · rintro rfl
      simpa [Radix.toDigit, hi] using hint _ hc
  have hclean : (int.filter (· ≠ '_')).head? ≠ some '+' := by
    intro heq
    have hmem := (List.mem_filter.mp (List.mem_of_mem_head? heq)).1
    simpa [Radix.toDigit] using hint _ hmem
  unfold parse_integer_literal
  simp only [trim_self (token_chars h), hne, if_false, hminus, hplus, or_self, hbase,
    strip_type_suffix hui hs, Radix.unsigned_natural 64 hclean, hval]
  have h64 : v < 18446744073709551616 := hv
  simp [Option.filter, h64]

end

end paideia_as

namespace paideia_as_elaborator

open paideia_as_lexer
open Int64 (ofInt ofNat)

/-! ## The patterns of a match -/

/-- `text[..n]`, which panics inside a character and past the end. -/
def slice_to : Nat → List Char → Outcome (List Char)
  | 0, _ => .ok []
  | _ + 1, [] => .error .panic
  | n + 1, c :: cs =>
    if c.utf8Size ≤ n + 1 then (slice_to (n + 1 - c.utf8Size) cs).map (c :: ·) else .error .panic

def digit_or_underscore (c : Char) : Bool := (Radix.toDigit 10 c).isSome || c = '_'

/-- Cuts the text at its last character that is no digit. The source counts
characters, and then cuts at that many bytes. -/
def strip_integer_suffix (text : List Char) : Outcome (List Char) :=
  match text.reverse.findIdx? fun c => !digit_or_underscore c with
  | some k => slice_to (text.length - 1 - k) text
  | none => .ok text

/-- `parsed_value` of a literal pattern. -/
def parse_pattern (text : List Char) : Outcome (Option Int64) := do
  let text_no_suffix ← strip_integer_suffix text
  .ok ((Radix.signed 64 text_no_suffix).map ofInt <|>
    (Radix.unsigned 64 10 text_no_suffix).map fun n => ofNat n)

section

variable {text : List Char} {v : Nat} {c : Char} {rest : List Char}

theorem digit_of_decimal (h : (Radix.toDigit 10 c).isSome) : digit_or_underscore c = true := by
  simp [digit_or_underscore, h]

theorem slice_to_ascii (hc : c.utf8Size = 1) (n : Nat) (cs : List Char) :
    slice_to (n + 1) (c :: cs) = (slice_to n cs).map (c :: ·) := by
  simp [slice_to, hc]

theorem strip_digits (h : ∀ c ∈ text, digit_or_underscore c = true) :
    strip_integer_suffix text = .ok text := by
  have hnone : text.reverse.findIdx? (fun c => !digit_or_underscore c) = none := by
    rw [List.findIdx?_eq_none_iff]
    intro c hc
    simp [h c (List.mem_reverse.mp hc)]
  rw [strip_integer_suffix, hnone]

theorem strip_marked (hc : digit_or_underscore c = false)
    (h : ∀ d ∈ rest, digit_or_underscore d = true) :
    strip_integer_suffix ('0' :: c :: rest) = .ok ['0'] := by
  have hfind : ('0' :: c :: rest).reverse.findIdx? (fun c => !digit_or_underscore c) =
      some rest.length := by
    have hnone : rest.reverse.findIdx? (fun c => !digit_or_underscore c) = none := by
      rw [List.findIdx?_eq_none_iff]
      intro d hd
      simp [h d (List.mem_reverse.mp hd)]
    simp [List.findIdx?_append, hnone, List.findIdx?_cons, hc]
  rw [strip_integer_suffix, hfind]
  have hlen : ('0' :: c :: rest).length - 1 - rest.length = 1 := by
    simp only [List.length_cons]
    omega
  dsimp only
  rw [hlen]
  rfl

/-- A letter behind the mark leaves the mark in the text. -/
theorem strip_letter {t : List Char} (hc : c.utf8Size = 1)
    (hd : ∃ d ∈ rest, digit_or_underscore d = false)
    (h : strip_integer_suffix ('0' :: c :: rest) = .ok t) : ∃ t', t = '0' :: c :: t' := by
  have hfind : ∃ k, ('0' :: c :: rest).reverse.findIdx? (fun c => !digit_or_underscore c) = some k ∧
      k < rest.length := by
    obtain ⟨d, hd, hno⟩ := hd
    have hsome : (rest.reverse.findIdx? fun c => !digit_or_underscore c).isSome := by
      rw [List.findIdx?_isSome, List.any_eq_true]
      exact ⟨d, List.mem_reverse.mpr hd, by simp [hno]⟩
    obtain ⟨k, hk⟩ := Option.isSome_iff_exists.mp hsome
    refine ⟨k, by simp [List.findIdx?_append, hk], ?_⟩
    have := (List.findIdx?_eq_some_iff_findIdx_eq.mp hk).1
    simpa using this
  obtain ⟨k, hk, hlt⟩ := hfind
  have hlen : ∃ n, ('0' :: c :: rest).length - 1 - k = n + 2 := by
    refine ⟨rest.length - 1 - k, ?_⟩
    simp only [List.length_cons]
    omega
  obtain ⟨n, hn⟩ := hlen
  rw [strip_integer_suffix, hk] at h
  dsimp only at h
  rw [hn] at h
  rw [slice_to_ascii (by decide), slice_to_ascii hc] at h
  cases hs : slice_to n rest with
  | error e => simp [hs, Except.map] at h
  | ok t' =>
    refine ⟨t', ?_⟩
    simpa [hs, Except.map] using h.symm

theorem parse_pattern_ok {t : List Char} (h : strip_integer_suffix text = .ok t) :
    parse_pattern text = .ok ((Radix.signed 64 t).map ofInt <|>
      (Radix.unsigned 64 10 t).map fun n => ofNat n) := by
  rw [parse_pattern, h]
  rfl

theorem parse_pattern_decimal (h : int_literal text = some v) (hv : v < 2 ^ 64)
    (hbase : base_and_digits text = (10, text)) (hp : plain text = true) :
    parse_pattern text = .ok (some (ofNat v)) := by
  obtain ⟨hhead, _, _, hplain, _⟩ := int_literal_parts h
  have hdigits : ∀ c ∈ text, digit_or_underscore c = true := by
    intro c hc
    simp only [plain, hbase, List.all_eq_true] at hp
    exact digit_of_decimal (hp c hc)
  have hval : Radix.natural 10 text = some v := by simpa [hbase] using hplain hp
  have hplus : text.head? ≠ some '+' := head_ne hhead (by decide)
  rw [parse_pattern_ok (strip_digits hdigits), Radix.signed_natural 64 hplus (head_ne hhead (by decide)),
    Radix.unsigned_natural 64 hplus, hval]
  have h64 : v < 18446744073709551616 := hv
  by_cases h63 : v < 9223372036854775808
  · simp [Option.filter, h63, Int64.ofInt_eq_ofNat]
  · simp [Option.filter, h63, h64]

/-- Behind a base mark, only zero is read as what it is. -/
theorem parse_pattern_marked {radix : Nat}
    (h : int_literal ('0' :: c :: rest) = some v) (hv : v < 2 ^ 64)
    (hbase : base_and_digits ('0' :: c :: rest) = (radix, rest)) (hradix : 0 < radix)
    (hc : digit_or_underscore c = false) (hplus : c ≠ '+') (hsize : c.utf8Size = 1)
    (hp : plain ('0' :: c :: rest) = true) :
    parse_pattern ('0' :: c :: rest) = .ok (some (ofNat v)) ↔ ∀ d ∈ rest, d = '0' := by
  obtain ⟨_, _, _, hplain, _⟩ := int_literal_parts h
  have hval : Radix.natural radix rest = some v := by simpa [hbase] using hplain hp
  have hcdigit : Radix.toDigit 10 c = none := by
    simp only [digit_or_underscore, Bool.or_eq_false_iff] at hc
    simpa using hc.1
  by_cases hall : ∀ d ∈ rest, digit_or_underscore d = true
  · have hzero : parse_pattern ('0' :: c :: rest) = .ok (some 0) := by
      rw [parse_pattern_ok (strip_marked hc hall)]
      decide
    rw [hzero, ← Radix.natural_zero_iff hradix hval]
    constructor
    · intro heq
      have hz : (0 : Int64) = ofNat v := by simpa using heq
      have htoNat := congrArg (fun i : Int64 => i.toUInt64.toNat) hz
      have h64 : v % 18446744073709551616 = v := Nat.mod_eq_of_lt hv
      have hleft : (Int64.toUInt64 0).toNat = 0 := rfl
      simpa [h64, hleft] using htoNat.symm
    · rintro rfl
      rfl
  · have hletter : ∃ d ∈ rest, digit_or_underscore d = false := by
      by_contra hno
      refine hall fun d hd => ?_
      by_contra hne
      exact hno ⟨d, hd, Bool.eq_false_iff.mpr hne⟩
    constructor
    · intro hparse
      exfalso
      cases hstrip : strip_integer_suffix ('0' :: c :: rest) with
      | error e =>
        rw [parse_pattern, hstrip] at hparse
        cases hparse
      | ok t =>
        obtain ⟨t', rfl⟩ := strip_letter hsize hletter hstrip
        have hmem : c ∈ '0' :: c :: t' := by simp
        rw [parse_pattern_ok hstrip, Radix.signed_natural 64 (by simp) (by simp),
          Radix.natural_none hmem hcdigit, Radix.unsigned_none 64 hmem hcdigit hplus] at hparse
        simp at hparse
    · intro hzeros
      obtain ⟨d, hd, hno⟩ := hletter
      rw [hzeros d hd] at hno
      exact absurd hno (by decide)

end

/-! ## The readers side by side -/

/-- Every reader gives the value of the token's digits in its base. -/
structure ReadersAgree (text : List Char) : Prop where
  ordinary : paideia_as.parse_integer_literal text = some (ofNat (digit_value text))
  block : extract_integer_from_span text = some (ofNat (digit_value text))
  pattern : parse_pattern text = .ok (some (ofNat (digit_value text)))

/-- Digits alone, and in another base than ten only zeros. -/
def ReadAlike (text : List Char) : Prop :=
  plain text = true ∧ ((base_and_digits text).1 = 10 ∨ ∀ c ∈ (base_and_digits text).2, c = '0')

instance (text : List Char) : Decidable (ReadAlike text) := inferInstanceAs (Decidable (_ ∧ _))

theorem parse_pattern_iff {text : List Char} {v : Nat} (h : int_literal text = some v)
    (hv : v < 2 ^ 64) (hp : plain text = true) :
    parse_pattern text = .ok (some (ofNat v)) ↔
      (base_and_digits text).1 = 10 ∨ ∀ c ∈ (base_and_digits text).2, c = '0' := by
  rcases base_and_digits_cases text with ⟨hbase, _⟩ | ⟨c, rest, rfl, hmark⟩
  · simp [parse_pattern_decimal h hv hbase hp, hbase]
  · rcases hmark with ⟨hc, hbase⟩ | ⟨hc, hbase⟩ | ⟨hc, hbase⟩ <;> rcases hc with rfl | rfl
    all_goals
      rw [parse_pattern_marked h hv hbase (by decide) (by decide) (by decide) (by decide) hp, hbase]
      simp

/-- The readers agree on a token when it is digits alone, in base ten or zero. -/
theorem readers_agree_iff (text : List Char) (h : IsIntToken text)
    (hv : digit_value text < 2 ^ 64) : ReadersAgree text ↔ ReadAlike text := by
  have hlit := int_literal_of_token h
  have hblock : extract_integer_from_span text = some (Int64.ofNat (digit_value text)) ↔
      plain text = true := by
    rw [extract_integer_spec hlit]
    simp only [readable_iff hlit, hv, and_true]
    split_ifs with hp
    · simp [hp]
    · simp [hp]
  constructor
  · intro hagree
    have hp := hblock.mp hagree.block
    exact ⟨hp, (parse_pattern_iff hlit hv hp).mp hagree.pattern⟩
  · rintro ⟨hp, hbase⟩
    exact ⟨paideia_as.parse_integer_literal_spec hlit hv, hblock.mpr hp,
      (parse_pattern_iff hlit hv hp).mpr hbase⟩

/-- The token `42`. -/
theorem readers_agree_on_forty_two :
    IsIntToken ['4', '2'] ∧ (ReadersAgree ['4', '2'] ↔ ReadAlike ['4', '2']) := by
  have htoken : IsIntToken ['4', '2'] := ⟨[], 0, by decide, by decide⟩
  exact ⟨htoken, readers_agree_iff _ htoken (by decide)⟩

/-- The token `0x10` in a pattern is read as 0. -/
theorem readers_disagree :
    ¬ ∀ text, IsIntToken text → digit_value text < 2 ^ 64 → ReadersAgree text := by
  intro hall
  have htoken : IsIntToken ['0', 'x', '1', '0'] := ⟨[], 0, by decide, by decide⟩
  have hpattern := (hall _ htoken (by decide)).pattern
  exact absurd hpattern (by decide)

end paideia_as_elaborator
