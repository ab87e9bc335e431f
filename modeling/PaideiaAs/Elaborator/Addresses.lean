-- Address expressions: the address that the parsed operand names, against the
-- value of the expression.
import PaideiaAs.Elaborator.Operand
import Mathlib.Algebra.BigOperators.Group.List.Lemmas
import Mathlib.Tactic.Ring

namespace paideia_as_elaborator

open paideia_as_runtime paideia_as_lexer
open List (filter_cons foldlM_append foldlM_cons foldlM_nil mem_append_left mem_append_right
  mem_cons mem_filter mem_singleton)
open Int64 (ofNat)
open Scale (X1 from_factor)
open Option (bind_eq_bind bind_eq_some_iff bind_some filter getD_none getD_some isSome_iff_exists
  map_none map_some)

/-! ## Literals

The elaborator reads a literal's text again. It reads digits alone, and no
underscore or suffix. -/

/-- The literals that the elaborator can read. -/
def Readable (text : List Char) : Prop := plain text = true ∧ (int_literal text).getD 0 < 2 ^ 64

instance (text : List Char) : Decidable (Readable text) :=
  inferInstanceAs (Decidable (_ ∧ _))

section

variable {text : List Char} {v : Nat}

theorem readable_iff (h : int_literal text = some v) :
    Readable text ↔ plain text = true ∧ v < 2 ^ 64 := by
  simp [Readable, h]

theorem head_ne {d : Char} (h : (text.head?.any fun c => (Radix.toDigit 10 c).isSome) = true)
    (hd : Radix.toDigit 10 d = none) : text.head? ≠ some d := by
  intro heq
  rw [heq] at h
  simp [hd] at h

theorem quoted_none (h : (text.head?.any fun c => (Radix.toDigit 10 c).isSome) = true) :
    parse_char_or_byte_literal text = none := by
  have hb : text.head? ≠ some 'b' := head_ne h (by decide)
  have hq : text.head? ≠ some (Char.ofNat 39) := head_ne h (by decide)
  simp [parse_char_or_byte_literal, quoted, hb, hq]

/-- Another base mark, or none at all. -/
theorem prefixed_none {lower upper : Char} {radix : Nat}
    (h : ∀ c rest, text = '0' :: c :: rest → c ≠ lower ∧ c ≠ upper) :
    prefixed lower upper radix text = none := by
  unfold prefixed
  split
  · rename_i c rest
    obtain ⟨h1, h2⟩ := h c rest rfl
    rw [if_neg (by tauto)]
  · rfl

theorem extract_decimal (h : int_literal text = some v) (hbase : base_and_digits text = (10, text))
    (hmark : ∀ c rest, text = '0' :: c :: rest →
      c ≠ 'x' ∧ c ≠ 'X' ∧ c ≠ 'b' ∧ c ≠ 'B' ∧ c ≠ 'o' ∧ c ≠ 'O') :
    extract_integer_from_span text = if Readable text then some (ofNat v) else none := by
  obtain ⟨hhead, _, hplus, hplain, hnot⟩ := int_literal_parts h
  rw [hbase] at hplus hplain hnot
  have hx : prefixed 'x' 'X' 16 text = none :=
    prefixed_none fun c rest heq => ⟨(hmark c rest heq).1, (hmark c rest heq).2.1⟩
  have hb : prefixed 'b' 'B' 2 text = none :=
    prefixed_none fun c rest heq => ⟨(hmark c rest heq).2.2.1, (hmark c rest heq).2.2.2.1⟩
  have ho : prefixed 'o' 'O' 8 text = none :=
    prefixed_none fun c rest heq => ⟨(hmark c rest heq).2.2.2.2.1, (hmark c rest heq).2.2.2.2.2⟩
  have hsigned := Radix.signed_natural 64 (head_ne hhead (by decide : Radix.toDigit 10 '+' = none))
    (head_ne hhead (by decide : Radix.toDigit 10 '-' = none))
  have hunsigned := @Radix.unsigned_natural 10 text 64
    (head_ne hhead (by decide : Radix.toDigit 10 '+' = none))
  unfold extract_integer_from_span
  rw [hsigned, hunsigned, hx, hb, ho, quoted_none hhead]
  simp only [readable_iff h]
  cases hp : plain text with
  | true =>
    rw [hplain hp]
    by_cases h63 : v < 9223372036854775808
    · have h64 : v < 18446744073709551616 := by omega
      simp [filter, h63, h64, Int64.ofInt_eq_ofNat]
    · by_cases h64 : v < 18446744073709551616
      all_goals simp [filter, h63, h64]
  | false =>
    obtain ⟨c, hc, hnone⟩ := hnot hp
    rw [Radix.natural_none hc hnone]
    simp

theorem extract_marked {c : Char} {rest : List Char} {radix : Nat}
    (h : int_literal ('0' :: c :: rest) = some v)
    (hbase : base_and_digits ('0' :: c :: rest) = (radix, rest)) (hc : Radix.toDigit 10 c = none)
    (hcp : c ≠ '+')
    (hread : extract_integer_from_span ('0' :: c :: rest) =
      ((Radix.signed 64 ('0' :: c :: rest)).map Int64.ofInt <|>
        (Radix.unsigned 64 radix rest).map (fun n => ofNat n) <|>
        (Radix.unsigned 64 10 ('0' :: c :: rest)).map (fun n => ofNat n) <|>
        parse_char_or_byte_literal ('0' :: c :: rest))) :
    extract_integer_from_span ('0' :: c :: rest) =
      if Readable ('0' :: c :: rest) then some (ofNat v) else none := by
  obtain ⟨hhead, _, hplus, hplain, hnot⟩ := int_literal_parts h
  rw [hbase] at hplus hplain hnot
  have hmem : c ∈ '0' :: c :: rest := by simp
  have hsigned : Radix.signed 64 ('0' :: c :: rest) = none := by
    rw [Radix.signed_natural 64 (by simp) (by simp), Radix.natural_none hmem hc]
    rfl
  have hrest : rest.head? ≠ some '+' := by
    intro heq
    cases rest with
    | nil => cases heq
    | cons a rest =>
      obtain rfl : a = '+' := by simpa using heq
      exact hplus _ (.head _) rfl
  rw [hread, hsigned, Radix.unsigned_none 64 hmem hc hcp, quoted_none hhead,
    Radix.unsigned_natural 64 hrest]
  simp only [readable_iff h]
  cases hp : plain ('0' :: c :: rest) with
  | true =>
    rw [hplain hp]
    by_cases h64 : v < 18446744073709551616
    · simp [filter, h64]
    · simp [filter, h64]
  | false =>
    obtain ⟨d, hd, hnone⟩ := hnot hp
    rw [Radix.natural_none hd hnone]
    simp

/-- What the elaborator reads of an integer token: its value, or nothing. -/
theorem extract_integer_spec (h : int_literal text = some v) :
    extract_integer_from_span text = if Readable text then some (ofNat v) else none := by
  rcases base_and_digits_cases text with ⟨hbase, hmark⟩ | ⟨c, rest, rfl, hmark⟩
  · exact extract_decimal h hbase hmark
  · rcases hmark with ⟨hc, hbase⟩ | ⟨hc, hbase⟩ | ⟨hc, hbase⟩ <;> rcases hc with rfl | rfl
    all_goals
      refine extract_marked h hbase (by decide) (by decide) ?_
      simp [extract_integer_from_span, prefixed]

end

/-! ## What an address expression says -/

/-- The value of an expression for values of registers and symbols. -/
def value (regs : RegId → Int) (syms : String → Int) : Expr → Int
  | .Ident name => named name
  | .Path segments => (segments.getLast?.map named).getD 0
  | .Literal text => ((int_literal text).getD 0 : Nat)
  | .Infix op lhs rhs =>
    match get_infix_op_name op with
    | some .Add => value regs syms lhs + value regs syms rhs
    | some .Sub => value regs syms lhs - value regs syms rhs
    | some .Mul => value regs syms lhs * value regs syms rhs
    | _ => 0
  | _ => 0
where
  named (name : String) : Int :=
    match register_name_to_regid name with
    | some r => regs r
    | none => syms name

inductive Term where
  | reg (r : RegId)
  | sym (name : String)
  | lit (text : List Char)
  | mul (r : RegId) (text : List Char)
  | other
  deriving DecidableEq

def nameTerm (name : String) : Term :=
  match register_name_to_regid name with
  | some r => .reg r
  | none => .sym name

/-- An expression that is neither a sum nor a difference. -/
def atom : Expr → Term
  | .Ident name => nameTerm name
  | .Path [name] => nameTerm name
  | .Path segments =>
    match try_extract_symbol_name (.Path segments) with
    | some name => .sym name
    | none => .other
  | .Literal text => .lit text
  | .Infix op lhs (.Literal text) =>
    if get_infix_op_name op = some .Mul then
      match parse_register_from_ident lhs with
      | .ok r => .mul r text
      | .error _ => .other
    else .other
  | _ => .other

/-- The terms of a sum, each with whether it is subtracted. -/
def terms (sub : Bool) : Expr → List (Bool × Term)
  | .Infix op lhs rhs =>
    match get_infix_op_name op with
    | some .Add => terms sub lhs ++ terms sub rhs
    | some .Sub => terms sub lhs ++ terms (!sub) rhs
    | _ => [(sub, atom (.Infix op lhs rhs))]
  | e => [(sub, atom e)]

example (regs : RegId → Int) (syms : String → Int) (a b : Expr) :
    terms false (.Infix "-" a b) = terms false a ++ terms true b ∧
      value regs syms (.Infix "-" a b) = value regs syms a - value regs syms b := by
  simp [terms, value, get_infix_op_name]

/-- Registers, symbols, integer literals, and products of a register and an
integer literal. -/
def Term.Ok : Term → Prop
  | .reg _ => True
  | .sym _ => True
  | .lit text => (int_literal text).isSome
  | .mul _ text => (int_literal text).isSome
  | .other => False

def IsAddress (addr : Expr) : Prop := ∀ t ∈ terms false addr, t.2.Ok

def Term.value (regs : RegId → Int) (syms : String → Int) : Term → Int
  | .reg r => regs r
  | .sym name => syms name
  | .lit text => ((int_literal text).getD 0 : Nat)
  | .mul r text => regs r * ((int_literal text).getD 0 : Nat)
  | .other => 0

def signed (sub : Bool) (n : Int) : Int := if sub then -n else n

def total (regs : RegId → Int) (syms : String → Int) (ts : List (Bool × Term)) : Int :=
  (ts.map fun t => signed t.1 (t.2.value regs syms)).sum

section

variable {regs : RegId → Int} {syms : String → Int} {sub : Bool}

theorem value_named (name : String) :
    value.named regs syms name = (nameTerm name).value regs syms := by
  unfold value.named nameTerm
  cases register_name_to_regid name <;> rfl

theorem parse_register_ok {e : Expr} {r : RegId} (h : parse_register_from_ident e = .ok r) :
    value regs syms e = regs r ∧ atom e = .reg r ∧ terms sub e = [(sub, .reg r)] := by
  have hreg : ∀ name, parse_register_from_ident.regid name = .ok r →
      register_name_to_regid name = some r := by
    intro name hname
    unfold parse_register_from_ident.regid at hname
    split at hname
    · rename_i heq
      cases hname
      exact heq
    · cases hname
  unfold parse_register_from_ident at h
  split at h
  · rename_i name
    have := hreg name h
    simp [value, value.named, terms, atom, nameTerm, this]
  · rename_i name
    have := hreg name h
    simp [value, value.named, terms, atom, nameTerm, this]
  · cases h

theorem symbol_name_eq {name n : String} (h : symbol_name name = some n) :
    n = name ∧ register_name_to_regid name = none := by
  unfold symbol_name at h
  split at h
  · cases h
  · rename_i hnot
    cases h
    refine ⟨rfl, ?_⟩
    cases hreg : register_name_to_regid name with
    | none => rfl
    | some r => simp [hreg] at hnot

theorem value_atom (e : Expr) (hok : (atom e).Ok) (hop : ∀ op l r, e = .Infix op l r →
    get_infix_op_name op ≠ some .Add ∧ get_infix_op_name op ≠ some .Sub) :
    value regs syms e = (atom e).value regs syms := by
  unfold atom at hok ⊢
  split at hok
  · exact value_named _
  · exact value_named _
  · rename_i segments _
    cases hname : try_extract_symbol_name (.Path segments) with
    | none => simp [hname, Term.Ok] at hok
    | some name =>
      unfold try_extract_symbol_name at hname
      cases hlast : segments.getLast? with
      | none => simp [hlast] at hname
      | some last =>
        simp only [hlast, bind_some] at hname
        obtain ⟨rfl, hnone⟩ := symbol_name_eq hname
        simp [value, hlast, value.named, hnone, Term.value]
  · rfl
  · rename_i op lhs text
    split at hok
    · rename_i hmul
      cases hreg : parse_register_from_ident lhs with
      | error _ => simp [hreg, Term.Ok] at hok
      | ok r =>
        simp only [value, hmul, if_true, Term.value, (@parse_register_ok regs syms true _ _ hreg).1]
    · simp [Term.Ok] at hok
  · simp [Term.Ok] at hok

theorem total_append (ts us : List (Bool × Term)) :
    total regs syms (ts ++ us) = total regs syms ts + total regs syms us := by
  simp [total]

theorem value_terms (e : Expr) (hok : ∀ t ∈ terms sub e, t.2.Ok) :
    total regs syms (terms sub e) = signed sub (value regs syms e) := by
  induction e generalizing sub with
  | Infix op lhs rhs ihl ihr =>
    unfold terms at hok ⊢
    split at hok
    · rename_i hop
      rw [total_append, ihl fun t ht => hok t (mem_append_left _ ht),
        ihr fun t ht => hok t (mem_append_right _ ht)]
      cases sub <;> simp [signed, value, hop]
      ring
    · rename_i hop
      rw [total_append, ihl fun t ht => hok t (mem_append_left _ ht),
        ihr fun t ht => hok t (mem_append_right _ ht)]
      cases sub <;> simp [signed, value, hop] <;> ring
    · rename_i hadd hsub
      rw [value_atom _ (hok _ (mem_singleton.mpr rfl)) (by
        intro op' l r heq
        cases heq
        exact ⟨hadd, hsub⟩)]
      simp [total]
  | _ =>
    unfold terms at hok ⊢
    rw [value_atom _ (hok _ (mem_singleton.mpr rfl)) (by intro _ _ _ heq; cases heq)]
    simp [total]

end

/-! ## The base, index and displacement form -/

/-- What the elaborator reads of a literal in an address. -/
def reading (text : List Char) : Int64 := (extract_integer_from_span text).getD 0

def scaleReading (text : List Char) : Nat :=
  (((extract_integer_from_span text).getD 1).toUInt64.toUInt32).toNat

/-- One term merged into the components so far. -/
def sibStep (left : Sib) (t : Bool × Term) : Option Sib :=
  let (base, index, scale, disp) := left
  match t with
  | (sub, .reg r) =>
    if base = RAX ∧ index.isNone then some (r, none, .X1, if sub then -disp else disp)
    else if index.isNone then some (base, some r, scale, if sub then -disp else disp)
    else none
  | (sub, .lit text) =>
    some (base, index, scale,
      if sub then disp - (reading text).toInt32 else disp + (reading text).toInt32)
  | (_, .mul r text) =>
    (from_factor (scaleReading text)).map fun scale => (base, some r, scale, disp)
  | _ => none

variable {σ : Sib} {ts : List (Bool × Term)} {addr : Expr}

theorem combine_ok {left : Sib} {right : Expr} {is_sub : Bool}
    (h : combine_additive_terms left right is_sub = .ok σ)
    (hok : ∀ t ∈ terms is_sub right, t.2.Ok) :
    ∃ t, terms is_sub right = [(is_sub, t)] ∧ sibStep left (is_sub, t) = some σ := by
  obtain ⟨base, index, scale, disp⟩ := left
  have hreg : ∀ r, parse_register_from_ident right = .ok r →
      (if base = RAX ∧ index.isNone = true then
          (pure (r, none, X1, if is_sub then -disp else disp) : Except OperandError Sib)
        else if index.isNone = true then
          pure (base, some r, scale, if is_sub then -disp else disp)
        else throw .MalformedOperand) = .ok σ →
      ∃ t, terms is_sub right = [(is_sub, t)] ∧
        sibStep (base, index, scale, disp) (is_sub, t) = some σ := by
    intro r hr hσ
    refine ⟨.reg r, (@parse_register_ok (fun _ => 0) (fun _ => 0) is_sub _ _ hr).2.2, ?_⟩
    unfold sibStep
    dsimp only
    split_ifs at hσ ⊢ <;> cases hσ <;> rfl
  unfold combine_additive_terms at h
  dsimp only at h
  split at h
  · cases hr : parse_register_from_ident (.Ident _) with
    | error e => rw [hr] at h; cases h
    | ok r => rw [hr] at h; exact hreg r hr h
  · cases hr : parse_register_from_ident (.Path _) with
    | error e => rw [hr] at h; cases h
    | ok r => rw [hr] at h; exact hreg r hr h
  · cases h
    exact ⟨.lit _, rfl, rfl⟩
  · rename_i op lhs rhs
    split at h
    · rename_i hmul
      have hterms : terms is_sub (.Infix op lhs rhs) = [(is_sub, atom (.Infix op lhs rhs))] := by
        simp [terms, hmul]
      have hatom := hok _ (by rw [hterms]; exact mem_singleton.mpr rfl)
      cases hr : parse_register_from_ident lhs with
      | error e => simp [extract_index_scale, hr, bind, Except.bind] at h
      | ok r =>
        have htext : ∃ text, rhs = .Literal text := by
          cases rhs <;> first
            | exact ⟨_, rfl⟩
            | simp [atom, Term.Ok] at hatom
        obtain ⟨text, rfl⟩ := htext
        refine ⟨.mul r text, by rw [hterms]; simp [atom, hmul, hr], ?_⟩
        simp only [extract_index_scale, hr, bind, Except.bind, pure, Except.pure, Expr.digits] at h
        unfold sibStep
        simp only [scaleReading]
        split at h
        · rename_i heq
          cases h
          rw [heq]
          rfl
        · cases h
    · cases h
  · cases h

/-- The components are those of the terms, taken one after the other. -/
theorem extract_sib_ok {e : Expr} (h : extract_sib_components e = .ok σ)
    (hok : ∀ t ∈ terms false e, t.2.Ok) :
    ∃ b ts, terms false e = (false, .reg b) :: ts ∧ ts.foldlM sibStep (b, none, .X1, 0) = some σ := by
  induction e generalizing σ with
  | Infix op lhs rhs ihl ihr =>
    have hstep : ∀ is_sub, terms false (.Infix op lhs rhs) = terms false lhs ++ terms is_sub rhs →
        (extract_sib_components lhs >>= fun left => combine_additive_terms left rhs is_sub) = .ok σ →
        ∃ b ts, terms false (.Infix op lhs rhs) = (false, .reg b) :: ts ∧
          ts.foldlM sibStep (b, none, .X1, 0) = some σ := by
      intro is_sub hterms hσ
      rw [hterms] at hok ⊢
      cases hl : extract_sib_components lhs with
      | error e => rw [hl] at hσ; cases hσ
      | ok left =>
        rw [hl] at hσ
        obtain ⟨b, ts, hts, hfold⟩ := ihl hl fun t ht => hok t (mem_append_left _ ht)
        obtain ⟨t, ht, hcombine⟩ := combine_ok hσ fun t ht => hok t (mem_append_right _ ht)
        refine ⟨b, ts ++ [(is_sub, t)], by rw [hts, ht]; rfl, ?_⟩
        rw [foldlM_append, hfold]
        simp [hcombine]
    unfold extract_sib_components at h
    split at h
    · rename_i hop
      exact hstep false (by simp [terms, hop]) h
    · rename_i hop
      exact hstep true (by simp [terms, hop]) h
    · cases h
  | Ident name =>
    unfold extract_sib_components at h
    cases hr : parse_register_from_ident (.Ident name) with
    | error e => rw [hr] at h; cases h
    | ok r =>
      rw [hr] at h
      cases h
      exact ⟨r, [], (@parse_register_ok (fun _ => 0) (fun _ => 0) false _ _ hr).2.2, rfl⟩
  | Path segments =>
    unfold extract_sib_components at h
    cases hr : parse_register_from_ident (.Path segments) with
    | error e => rw [hr] at h; cases h
    | ok r =>
      rw [hr] at h
      cases h
      exact ⟨r, [], (@parse_register_ok (fun _ => 0) (fun _ => 0) false _ _ hr).2.2, rfl⟩
  | _ =>
    unfold extract_sib_components at h
    cases h

/-! ## Sums of literals -/

def literalValue (text : List Char) : Int := ((int_literal text).getD 0 : Nat)

/-- The part of a literal that the elaborator does not read. -/
def unreadValue (text : List Char) : Int := if Readable text then 0 else literalValue text

def litSum (f : List Char → Int) (ts : List (Bool × Term)) : Int :=
  (ts.map fun t => match t.2 with
    | .lit text => signed t.1 (f text)
    | _ => 0).sum

variable (f : List Char → Int)

theorem litSum_nil : litSum f [] = 0 := rfl

theorem litSum_lit (sub : Bool) (text : List Char) (ts : List (Bool × Term)) :
    litSum f ((sub, .lit text) :: ts) = signed sub (f text) + litSum f ts := by
  simp [litSum]

theorem litSum_place {sub : Bool} {t : Term} (h : ∀ text, t ≠ .lit text)
    (ts : List (Bool × Term)) : litSum f ((sub, t) :: ts) = litSum f ts := by
  cases t <;> simp_all [litSum]

theorem reading_mod {text : List Char} (h : (int_literal text).isSome) :
    (18446744073709551616 : Int) ∣
      (reading text).toInt - (literalValue text - unreadValue text) := by
  obtain ⟨v, hv⟩ := isSome_iff_exists.mp h
  unfold reading literalValue unreadValue
  rw [extract_integer_spec hv]
  split
  · have hbmod := @Int.dvd_bmod_sub_self (v : Int) (2 ^ 64)
    simp only [getD_some, hv, Int64.toInt_ofNat', Int64.size, Int.sub_zero]
    exact_mod_cast hbmod
  · simp [literalValue, hv]

theorem readSum_mod (hok : ∀ t ∈ ts, t.2.Ok) :
    (18446744073709551616 : Int) ∣ litSum (fun text => (reading text).toInt) ts -
      (litSum literalValue ts - litSum unreadValue ts) := by
  induction ts with
  | nil => simp [litSum_nil]
  | cons t ts ih =>
    obtain ⟨sub, t⟩ := t
    have ih := ih fun u hu => hok u (.tail _ hu)
    by_cases hlit : ∃ text, t = .lit text
    · obtain ⟨text, rfl⟩ := hlit
      have hmod := reading_mod (hok (sub, .lit text) (.head _))
      simp only [litSum_lit]
      cases sub <;> simp only [signed, if_true, Bool.false_eq_true, if_false] <;> omega
    · have hne : ∀ text, t ≠ .lit text := fun text h => hlit ⟨text, h⟩
      simpa only [litSum_place _ hne] using ih

theorem sibStep_lit (b : RegId) (i : Option RegId) (s : Scale) (d : Int32) (sub : Bool)
    (text : List Char) : ∃ d' : Int32, sibStep (b, i, s, d) (sub, .lit text) = some (b, i, s, d') ∧
      (4294967296 : Int) ∣ d'.toInt - (d.toInt + signed sub (reading text).toInt) := by
  have hread := @Int.dvd_bmod_sub_self (reading text).toInt (2 ^ 32)
  have hadd := @Int.dvd_bmod_sub_self (d.toInt + (reading text).toInt.bmod (2 ^ 32)) (2 ^ 32)
  have hsub := @Int.dvd_bmod_sub_self (d.toInt - (reading text).toInt.bmod (2 ^ 32)) (2 ^ 32)
  simp only [Nat.reducePow, Nat.cast_ofNat] at hread hadd hsub
  refine ⟨_, rfl, ?_⟩
  cases sub
  · simp only [Bool.false_eq_true, if_false, Int32.toInt_add, Int64.toInt_toInt32, signed,
      Nat.reducePow]
    omega
  · simp only [if_true, Int32.toInt_sub, Int64.toInt_toInt32, signed, Nat.reducePow]
    omega

def Term.isLit : Term → Bool
  | .lit _ => true
  | _ => false

def Term.isScaled : Term → Bool
  | .mul _ _ => true
  | _ => false

theorem isLit_iff {t : Term} : t.isLit = true ↔ ∃ text, t = .lit text := by
  cases t <;> simp [Term.isLit]

/-- Literals only move the displacement. -/
theorem fold_lits (h : ∀ t ∈ ts, t.2.isLit = true) (b : RegId)
    (i : Option RegId) (s : Scale) (d : Int32) :
    ∃ d' : Int32, ts.foldlM sibStep (b, i, s, d) = some (b, i, s, d') ∧
      (4294967296 : Int) ∣ d'.toInt - (d.toInt + litSum (fun text => (reading text).toInt) ts) := by
  induction ts generalizing d with
  | nil => exact ⟨d, rfl, by simp [litSum_nil]⟩
  | cons t ts ih =>
    obtain ⟨sub, t⟩ := t
    obtain ⟨text, rfl⟩ := isLit_iff.mp (h (sub, t) (.head _))
    obtain ⟨d₁, hstep, hd₁⟩ := sibStep_lit b i s d sub text
    obtain ⟨d', hfold, hd'⟩ := ih (fun u hu => h u (.tail _ hu)) d₁
    refine ⟨d', ?_, ?_⟩
    · simp [hstep, hfold]
    · rw [litSum_lit]
      omega

/-- The components after a first register and at most one further place. -/
def Merged (b : RegId) (ps : List (Bool × Term)) (σ : Sib) (d : Int32) : Prop :=
  match ps with
  | [] => σ = (b, none, .X1, d)
  | [(_, .reg r)] => σ = if b = RAX then (r, none, .X1, d) else (b, some r, .X1, d)
  | [(_, .mul r text)] =>
    ∃ s, from_factor (scaleReading text) = some s ∧ σ = (b, some r, s, d)
  | _ => False

theorem fold_merged {b : RegId} (d : Int32) (h : ts.foldlM sibStep (b, none, .X1, d) = some σ)
    (hadded : ∀ t ∈ ts.filter (fun t => !t.2.isLit), t.1 = false)
    (hone : (ts.filter fun t => !t.2.isLit).length ≤ 1) :
    ∃ d' : Int32, Merged b (ts.filter fun t => !t.2.isLit) σ d' ∧
      (4294967296 : Int) ∣ d'.toInt - (d.toInt + litSum (fun text => (reading text).toInt) ts) := by
  induction ts generalizing d with
  | nil =>
    cases h
    exact ⟨d, rfl, by simp [litSum_nil]⟩
  | cons t ts ih =>
    obtain ⟨sub, t⟩ := t
    cases hlit : t.isLit with
    | true =>
      obtain ⟨text, rfl⟩ := isLit_iff.mp hlit
      obtain ⟨d₁, hstep, hd₁⟩ := sibStep_lit b none .X1 d sub text
      simp only [foldlM_cons, hstep, bind_eq_bind, bind_some] at h
      simp only [filter_cons, hlit, Bool.not_true, Bool.false_eq_true, if_false] at hadded hone ⊢
      obtain ⟨d', hmerged, hd'⟩ := ih d₁ h hadded hone
      exact ⟨d', hmerged, by rw [litSum_lit]; omega⟩
    | false =>
      have hne : ∀ text, t ≠ .lit text := by
        rintro text rfl
        cases hlit
      simp only [filter_cons, hlit, Bool.not_false, if_true, List.length_cons] at hadded hone ⊢
      have hrest : ts.filter (fun t => !t.2.isLit) = [] := List.length_eq_zero_iff.mp (by omega)
      have hlits : ∀ u ∈ ts, u.2.isLit = true := by
        simpa [List.filter_eq_nil_iff] using hrest
      have hsub : sub = false := hadded (sub, t) (.head _)
      subst hsub
      rw [hrest, litSum_place _ hne]
      rw [foldlM_cons, bind_eq_bind] at h
      cases t with
      | reg r =>
        by_cases hrax : b = RAX
        · have hstep : sibStep (b, none, .X1, d) (false, .reg r) = some (r, none, .X1, d) := by
            simp [sibStep, hrax]
          obtain ⟨d', hfold, hd'⟩ := fold_lits hlits r none .X1 d
          rw [hstep, bind_some, hfold] at h
          cases h
          exact ⟨d', by simp [Merged, hrax], hd'⟩
        · have hstep : sibStep (b, none, .X1, d) (false, .reg r) = some (b, some r, .X1, d) := by
            simp [sibStep, hrax]
          obtain ⟨d', hfold, hd'⟩ := fold_lits hlits b (some r) .X1 d
          rw [hstep, bind_some, hfold] at h
          cases h
          exact ⟨d', by simp [Merged, hrax], hd'⟩
      | mul r text =>
        cases hs : from_factor (scaleReading text) with
        | none => simp [sibStep, hs] at h
        | some s =>
          have hstep : sibStep (b, none, .X1, d) (false, .mul r text) = some (b, some r, s, d) := by
            simp [sibStep, hs]
          obtain ⟨d', hfold, hd'⟩ := fold_lits hlits b (some r) s d
          rw [hstep, bind_some, hfold] at h
          cases h
          exact ⟨d', ⟨s, hs, rfl⟩, hd'⟩
      | sym name => simp [sibStep] at h
      | lit text => exact absurd rfl (hne text)
      | other => simp [sibStep] at h

/-! ## When the components are right -/

/-- The address that a memory operand names. -/
def sibAddress (regs : RegId → Int) (base : RegId) (index : Option RegId) (scale : Scale)
    (disp : Int32) : Int :=
  regs base + (index.map regs).getD 0 * scale.factor + disp.toInt

/-- The terms that are no literals. -/
def places (addr : Expr) : List (Bool × Term) := (terms false addr).filter fun t => !t.2.isLit

/-- A base and an index at most, none of them subtracted. -/
structure Shaped (addr : Expr) : Prop where
  added : ∀ t ∈ places addr, t.1 = false
  two : (places addr).length ≤ 2

/-- When the components are those of the expression: a bare register after `rax`
is no index, a scale has to be readable, and so have the literals. -/
structure SibOk (addr : Expr) : Prop extends Shaped addr where
  rax : ∀ t u, places addr = [t, u] → t.2 = .reg RAX → u.2.isScaled = true
  scale : ∀ t ∈ places addr, ∀ r text, t.2 = .mul r text →
    ∃ s : Scale, (18446744073709551616 : Int) ∣ literalValue text - s.factor ∧
      (Readable text ∨ s = .X1)
  unread : (4294967296 : Int) ∣ litSum unreadValue (terms false addr)
  disp : ∃ d : Int32, (18446744073709551616 : Int) ∣ d.toInt - litSum literalValue (terms false addr)

theorem from_factor_eq {n : Nat} {s : Scale} : from_factor n = some s ↔ n = s.factor := by
  constructor
  · intro h
    unfold from_factor at h
    split at h <;> cases h <;> rfl
  · rintro rfl
    cases s <;> rfl

theorem scale_right_iff {text : List Char} (hok : (int_literal text).isSome) {s : Scale}
    (h : from_factor (scaleReading text) = some s) :
    (18446744073709551616 : Int) ∣ literalValue text - s.factor ↔
      ∃ s' : Scale, (18446744073709551616 : Int) ∣ literalValue text - s'.factor ∧
        (Readable text ∨ s' = .X1) := by
  obtain ⟨v, hv⟩ := isSome_iff_exists.mp hok
  have hval : literalValue text = v := by simp [literalValue, hv]
  have hfactor := from_factor_eq.mp h
  rw [scaleReading, extract_integer_spec hv] at hfactor
  by_cases hread : Readable text
  · have hscale : (s.factor : Int) = (v : Int) % 18446744073709551616 % 4294967296 := by
      rw [if_pos hread, getD_some] at hfactor
      rw [← hfactor]
      simp
    rw [hval]
    refine ⟨fun hs => ⟨s, hs, .inl hread⟩, ?_⟩
    rintro ⟨s', hs', _⟩
    have hlt : ∀ u : Scale, u.factor < 9 := by
      intro u
      cases u <;> decide
    have h1 := hlt s
    have h2 := hlt s'
    omega
  · have hone : s = .X1 := by
      rw [if_neg hread] at hfactor
      cases s <;> first | rfl | exact absurd hfactor (by decide)
    subst hone
    constructor
    · exact fun hs => ⟨.X1, hs, .inr rfl⟩
    · rintro ⟨s', hs', hor⟩
      obtain rfl := hor.resolve_left hread
      exact hs'

theorem disp_right_iff {d : Int32} {R L U : Int} (hd : (4294967296 : Int) ∣ d.toInt - R)
    (hR : (18446744073709551616 : Int) ∣ R - (L - U)) :
    (18446744073709551616 : Int) ∣ d.toInt - L ↔
      (4294967296 : Int) ∣ U ∧ ∃ d' : Int32, (18446744073709551616 : Int) ∣ d'.toInt - L := by
  constructor
  · intro h
    exact ⟨by omega, d, h⟩
  · rintro ⟨hU, d', hd'⟩
    have h1 := d.toInt_lt
    have h2 := d.le_toInt
    have h3 := d'.toInt_lt
    have h4 := d'.le_toInt
    omega

theorem total_split (regs : RegId → Int) (syms : String → Int) (ts : List (Bool × Term)) :
    total regs syms ts =
      total regs syms (ts.filter fun t => !t.2.isLit) + litSum literalValue ts := by
  induction ts with
  | nil => rfl
  | cons t ts ih =>
    obtain ⟨sub, t⟩ := t
    have hcons : ∀ us, total regs syms ((sub, t) :: us) =
        signed sub (t.value regs syms) + total regs syms us := by
      intro us
      simp [total]
    cases hlit : t.isLit with
    | true =>
      obtain ⟨text, rfl⟩ := isLit_iff.mp hlit
      rw [hcons, litSum_lit, ih]
      simp only [filter_cons, hlit, Bool.not_true, Bool.false_eq_true, if_false]
      simp only [Term.value, literalValue]
      ring
    | false =>
      have hne : ∀ text, t ≠ .lit text := by
        rintro text rfl
        cases hlit
      simp only [filter_cons, hlit, Bool.not_false, if_true]
      rw [hcons, hcons, litSum_place _ hne, ih]
      ring

/-- The registers are all zero but one. -/
def oneAt (r : RegId) : RegId → Int := fun r' => if r' = r then 1 else 0

theorem total_one (regs : RegId → Int) (syms : String → Int) (t : Term) :
    total regs syms [(false, t)] = t.value regs syms := by
  simp [total, signed]

/-- Each of the three merges is settled by a few choices of register values. -/
theorem merged_denotes_iff {b base : RegId} {ps : List (Bool × Term)} {index : Option RegId}
    {scale : Scale} {d : Int32} {L : Int} (hm : Merged b ps (base, index, scale, d) d)
    (hadded : ∀ t ∈ ps, t.1 = false) (hok : ∀ t ∈ ps, t.2.Ok) :
    (∀ regs syms, (18446744073709551616 : Int) ∣
        sibAddress regs base index scale d - (regs b + total regs syms ps + L)) ↔
      (b = RAX → ∀ t, ps = [t] → t.2.isScaled = true) ∧
      (∀ t ∈ ps, ∀ r text, t.2 = .mul r text →
        ∃ s : Scale, (18446744073709551616 : Int) ∣ literalValue text - s.factor ∧
          (Readable text ∨ s = .X1)) ∧
      (18446744073709551616 : Int) ∣ d.toInt - L := by
  unfold Merged at hm
  split at hm
  · obtain ⟨rfl, rfl, rfl, _⟩ : base = b ∧ index = none ∧ scale = .X1 ∧ d = d := by
      simpa using hm
    constructor
    · intro h
      have h0 := h (fun _ => 0) (fun _ => 0)
      refine ⟨by simp, by simp, ?_⟩
      simpa [sibAddress, total] using h0
    · rintro ⟨_, _, hd⟩ regs syms
      simp only [sibAddress, total, List.map_nil, List.sum_nil, map_none, getD_none]
      ring_nf at hd ⊢
      exact hd
  · rename_i sub r
    obtain rfl : sub = false := hadded _ (mem_singleton.mpr rfl)
    by_cases hrax : b = RAX
    · -- the first register is dropped
      rw [if_pos hrax] at hm
      obtain ⟨rfl, rfl, rfl⟩ : base = r ∧ index = none ∧ scale = .X1 := by simpa using hm
      refine iff_of_false (fun h => ?_) fun h => ?_
      · have h0 := h (fun _ => 0) (fun _ => 0)
        have h1 := h (oneAt b) (fun _ => 0)
        simp only [sibAddress, total_one, Term.value, map_none, getD_none] at h0 h1
        by_cases hb : base = b
        · simp only [oneAt, hb, if_true] at h1
          omega
        · simp only [oneAt, hb, if_true, if_false] at h1
          omega
      · have := h.1 hrax _ rfl
        simp [Term.isScaled] at this
    · rw [if_neg hrax] at hm
      obtain ⟨rfl, rfl, rfl⟩ : base = b ∧ index = some r ∧ scale = .X1 := by simpa using hm
      constructor
      · intro h
        have h0 := h (fun _ => 0) (fun _ => 0)
        refine ⟨fun hb => absurd hb hrax, by simp, ?_⟩
        simpa [sibAddress, total_one, Term.value] using h0
      · rintro ⟨_, _, hd⟩ regs syms
        simp only [sibAddress, total_one, Term.value, map_some, getD_some, Scale.factor]
        push_cast
        ring_nf at hd ⊢
        exact hd
  · rename_i sub r text
    obtain rfl : sub = false := hadded _ (mem_singleton.mpr rfl)
    obtain ⟨s, hs, hσ⟩ := hm
    obtain ⟨rfl, rfl, rfl⟩ : base = b ∧ index = some r ∧ scale = s := by simpa using hσ
    have hlit : (int_literal text).isSome := hok _ (mem_singleton.mpr rfl)
    have hscale := scale_right_iff hlit hs
    constructor
    · intro h
      have h0 := h (fun _ => 0) (fun _ => 0)
      have h1 := h (oneAt r) (fun _ => 0)
      have hd : (18446744073709551616 : Int) ∣ d.toInt - L := by
        simpa [sibAddress, total_one, Term.value] using h0
      refine ⟨fun _ t ht => ?_, ?_, hd⟩
      · cases ht
        rfl
      · intro t ht r' text' heq
        rw [mem_singleton.mp ht] at heq
        cases heq
        refine hscale.mp ?_
        simp only [sibAddress, total_one, Term.value, map_some, getD_some, oneAt, if_true] at h1
        simp only [literalValue]
        by_cases hb : base = r <;> simp only [hb, if_true, if_false] at h1 <;> omega
    · rintro ⟨_, hall, hd⟩ regs syms
      have hfactor := hscale.mpr (hall _ (mem_singleton.mpr rfl) r text rfl)
      simp only [sibAddress, total_one, Term.value, map_some, getD_some]
      have hmul : (18446744073709551616 : Int) ∣ regs r * (literalValue text - scale.factor) :=
        Dvd.dvd.mul_left hfactor _
      have := Int.dvd_sub hd hmul
      have heq : regs base + regs r * scale.factor + d.toInt -
          (regs base + regs r * ((int_literal text).getD 0 : Nat) + L) =
          d.toInt - L - regs r * (literalValue text - scale.factor) := by
        simp only [literalValue]
        ring
      rw [heq]
      exact this
  · exact hm.elim

theorem sib_denotes_iff {base : RegId} {index : Option RegId} {scale : Scale}
    {disp : Int32} (hok : IsAddress addr)
    (h : extract_sib_components addr = .ok (base, index, scale, disp)) :
    ((∀ regs syms, (18446744073709551616 : Int) ∣
        sibAddress regs base index scale disp - value regs syms addr) ∧ Shaped addr) ↔
      SibOk addr := by
  obtain ⟨b, ts, hterms, hfold⟩ := extract_sib_ok h hok
  have hplaces : places addr = (false, .reg b) :: ts.filter fun t => !t.2.isLit := by
    rw [places, hterms]
    rfl
  have hsums : ∀ f, litSum f (terms false addr) = litSum f ts := by
    intro f
    rw [hterms]
    exact litSum_place f (fun text => by simp) ts
  have hts : ∀ t ∈ ts, t.2.Ok := fun t ht => hok t (by rw [hterms]; exact List.mem_cons_of_mem _ ht)
  have hvalue : ∀ regs syms, value regs syms addr =
      regs b + total regs syms (ts.filter fun t => !t.2.isLit) + litSum literalValue ts := by
    intro regs syms
    have hsum := @value_terms regs syms false addr hok
    rw [hterms, signed, if_neg (by decide)] at hsum
    rw [← hsum, Int.add_assoc, ← total_split]
    simp [total, signed, Term.value]
  -- under `Shaped` the components are one of three merges
  have key : Shaped addr → ((∀ regs syms, (18446744073709551616 : Int) ∣
      sibAddress regs base index scale disp - value regs syms addr) ↔ SibOk addr) := by
    intro hshape
    have hadded : ∀ t ∈ ts.filter (fun t => !t.2.isLit), t.1 = false := fun t ht =>
      hshape.added t (by rw [hplaces]; exact List.mem_cons_of_mem _ ht)
    have hone : (ts.filter fun t => !t.2.isLit).length ≤ 1 := by
      have := hshape.two
      rw [hplaces, List.length_cons] at this
      omega
    obtain ⟨d, hmerged, hd⟩ := fold_merged 0 hfold hadded hone
    obtain rfl : disp = d := by
      unfold Merged at hmerged
      split at hmerged
      · simpa using congrArg (·.2.2.2) hmerged
      · split at hmerged <;> simpa using congrArg (·.2.2.2) hmerged
      · obtain ⟨s, _, hσ⟩ := hmerged
        simpa using congrArg (·.2.2.2) hσ
      · exact hmerged.elim
    have hread := readSum_mod hts
    have hdisp := disp_right_iff (by simpa using hd) hread
    simp only [hvalue]
    rw [merged_denotes_iff hmerged hadded fun t ht => hts t (List.mem_of_mem_filter ht), hdisp]
    constructor
    · rintro ⟨hrax, hscale, hunread, hfits⟩
      refine ⟨hshape, ?_, ?_, ?_, ?_⟩
      · intro t u hpl ht
        rw [hplaces] at hpl
        injection hpl with hfirst hrest
        subst hfirst
        exact hrax (by simpa using ht) u hrest
      · intro t ht
        rw [hplaces] at ht
        rcases mem_cons.mp ht with rfl | ht
        · intro r text heq
          cases heq
        · exact hscale t ht
      · rw [hsums]
        exact hunread
      · rw [hsums]
        exact hfits
    · intro hsib
      refine ⟨?_, ?_, by rw [← hsums]; exact hsib.unread, by rw [← hsums]; exact hsib.disp⟩
      · rintro rfl u hpl
        exact hsib.rax (false, .reg RAX) u (by rw [hplaces, hpl]) rfl
      · intro t ht
        exact hsib.scale t (by rw [hplaces]; exact List.mem_cons_of_mem _ ht)
  constructor
  · rintro ⟨hall, hshape⟩
    exact (key hshape).mp hall
  · intro hsib
    exact ⟨(key hsib.toShaped).mpr hsib, hsib.toShaped⟩

/-! ## The symbol form -/

def RIP : RegId := ⟨0xFF⟩

theorem regid_rip_iff (name : String) : register_name_to_regid name = some RIP ↔ name = "rip" := by
  constructor
  · intro h
    unfold register_name_to_regid at h
    obtain ⟨entry, hfind, hid⟩ := Option.map_eq_some_iff.mp h
    have hmem := List.mem_of_find?_eq_some hfind
    have hname := List.find?_some hfind
    have htable : ∀ e ∈ register_names, e.1 = RIP → e.2 = ["rip"] := by decide
    rw [htable entry hmem hid] at hname
    simpa using hname
  · rintro rfl
    decide

/-- One term added to the accumulator of the walk. -/
def symStep (acc : Acc) (t : Bool × Term) : Option Acc :=
  match t with
  | (_, .reg r) =>
    if r = RIP then if acc.rip_seen then none else some { acc with rip_seen := true } else none
  | (_, .sym name) => if acc.name.isSome then none else some { acc with name := some name }
  | (sub, .lit text) => walk (.Literal text) (signed sub 1) acc
  | _ => none

theorem place_name (e : Expr) (name : String) (acc : Acc) (sub : Bool)
    (hrip : is_rip_identifier e = (name == "rip"))
    (hsym : try_extract_symbol_name e = symbol_name name) :
    walk.place e acc = symStep acc (sub, nameTerm name) := by
  unfold walk.place
  rw [hrip, hsym]
  by_cases h : name = "rip"
  · subst h
    have hreg : nameTerm "rip" = .reg RIP := by decide
    simp [hreg, symStep]
  · have hne : register_name_to_regid name ≠ some RIP := fun hr => h ((regid_rip_iff name).mp hr)
    unfold nameTerm symbol_name
    cases hreg : register_name_to_regid name with
    | none => simp [symStep, h]
    | some r =>
      have : r ≠ RIP := fun hr => hne (by rw [hreg, hr])
      simp [symStep, h, this]

theorem walk_add {op : String} {lhs rhs : Expr} {sign : Int} {acc : Acc}
    (hop : get_infix_op_name op = some .Add) :
    walk (.Infix op lhs rhs) sign acc = (walk lhs sign acc).bind (walk rhs sign) := by
  simp [walk, hop]

theorem walk_sub {op : String} {lhs rhs : Expr} {sign : Int} {acc : Acc}
    (hop : get_infix_op_name op = some .Sub) :
    walk (.Infix op lhs rhs) sign acc = (walk lhs sign acc).bind (walk rhs (-sign)) := by
  simp [walk, hop]

theorem walk_terms (e : Expr) (sub : Bool) (acc : Acc) (hok : ∀ t ∈ terms sub e, t.2.Ok) :
    walk e (signed sub 1) acc = (terms sub e).foldlM symStep acc := by
  induction e generalizing sub acc with
  | Ident name =>
    simp only [terms, atom, foldlM_cons, foldlM_nil, bind_pure]
    exact place_name (.Ident name) name acc sub rfl rfl
  | Path segments =>
    simp only [terms, foldlM_cons, foldlM_nil, bind_pure]
    have hatom : (atom (.Path segments)).Ok := hok _ (mem_singleton.mpr rfl)
    unfold atom at hatom ⊢
    split at hatom
    · rename_i heq
      cases heq
    · rename_i name heq
      cases heq
      exact place_name (.Path [name]) name acc sub rfl rfl
    · rename_i segs hne heq
      cases heq
      have hrip : is_rip_identifier (.Path segments) = false := by
        unfold is_rip_identifier
        split
        · rename_i heq
          cases heq
        · rename_i name heq
          cases heq
          exact absurd rfl (hne name)
        · rfl
      simp only [walk, walk.place, hrip, Bool.false_eq_true, if_false]
      cases hsym : try_extract_symbol_name (.Path segments) with
      | none => simp [hsym, Term.Ok] at hatom
      | some name => simp [symStep]
    · rename_i heq
      cases heq
    · rename_i heq
      cases heq
    · simp [Term.Ok] at hatom
  | Literal text =>
    simp only [terms, atom, foldlM_cons, foldlM_nil, bind_pure]
    rfl
  | Infix op lhs rhs ihl ihr =>
    unfold terms at hok ⊢
    split at hok
    · rename_i hop
      rw [walk_add hop, foldlM_append, ihl sub acc fun t ht => hok t (mem_append_left _ ht)]
      congr 1
      funext acc'
      exact ihr sub acc' fun t ht => hok t (mem_append_right _ ht)
    · rename_i hop
      rw [walk_sub hop, foldlM_append, ihl sub acc fun t ht => hok t (mem_append_left _ ht)]
      congr 1
      funext acc'
      have hsign : -signed sub 1 = signed (!sub) 1 := by cases sub <;> rfl
      rw [hsign]
      exact ihr (!sub) acc' fun t ht => hok t (mem_append_right _ ht)
    · rename_i hadd hsub
      unfold walk
      have hatom := hok _ (mem_singleton.mpr rfl)
      cases hrhs : rhs with
      | Literal text =>
        subst hrhs
        have hmul : ∃ r, atom (.Infix op lhs (.Literal text)) = .mul r text := by
          simp only [atom] at hatom ⊢
          split at hatom
          · cases hr : parse_register_from_ident lhs with
            | ok r => exact ⟨r, by simp_all⟩
            | error e => simp [hr, Term.Ok] at hatom
          · simp [Term.Ok] at hatom
        obtain ⟨r, hr⟩ := hmul
        rw [hr]
        simp [symStep]
      | _ =>
        subst hrhs
        simp [atom, Term.Ok] at hatom
  | _ => exact (hok _ (mem_singleton.mpr rfl)).elim

def subtractedSyms (syms : String → Int) (ts : List (Bool × Term)) : Int :=
  (ts.map fun t => match t with
    | (true, .sym name) => syms name
    | _ => 0).sum

def Acc.value (syms : String → Int) (acc : Acc) : Int :=
  (acc.name.map syms).getD 0 + acc.addend.toInt

def Acc.count (acc : Acc) : Int := if acc.name.isSome then 1 else 0

section

variable {regs : RegId → Int} {syms : String → Int} {acc acc' : Acc} {ts : List (Bool × Term)}

theorem symStep_lit {sub : Bool} {text : List Char} (hok : (int_literal text).isSome)
    (h : symStep acc (sub, .lit text) = some acc') : acc'.name = acc.name ∧
      (18446744073709551616 : Int) ∣
        acc'.addend.toInt - (acc.addend.toInt + signed sub (literalValue text)) := by
  obtain ⟨v, hv⟩ := isSome_iff_exists.mp hok
  simp only [symStep, walk, extract_integer_spec hv] at h
  split at h
  · simp only [bind_eq_bind, bind_some] at h
    split_ifs at h with hrange hsum
    cases h
    refine ⟨rfl, ?_⟩
    have hbmod := @Int.dvd_bmod_sub_self (v : Int) (2 ^ 64)
    have hlit : literalValue text = v := by simp [literalValue, hv]
    rw [Int32.toInt_ofInt_of_le hsum.1 hsum.2, hlit]
    simp only [Int64.toInt_ofNat', Int64.size, Nat.reducePow, Nat.cast_ofNat] at hbmod ⊢
    cases sub <;> simp only [signed, if_true, Bool.false_eq_true, if_false] <;> omega
  · cases h

/-- A step is right up to the sign of a symbol. -/
theorem symStep_value {t : Bool × Term} (hrip : regs RIP = 0) (hok : t.2.Ok)
    (h : symStep acc t = some acc') :
    (18446744073709551616 : Int) ∣ acc'.value syms -
      (acc.value syms + signed t.1 (t.2.value regs syms) + 2 * subtractedSyms syms [t]) := by
  obtain ⟨sub, t⟩ := t
  cases t with
  | reg r =>
    simp only [symStep] at h
    split_ifs at h with hr hseen
    cases h
    subst hr
    cases sub <;> simp [Acc.value, signed, Term.value, hrip, subtractedSyms]
  | sym name =>
    simp only [symStep] at h
    split_ifs at h with hname
    cases h
    have hnone : acc.name = none := by simpa using hname
    cases sub <;> simp [Acc.value, signed, Term.value, subtractedSyms, hnone] <;> exact ⟨0, by ring⟩
  | lit text =>
    obtain ⟨hname, hval⟩ := symStep_lit hok h
    have hsub : subtractedSyms syms [(sub, .lit text)] = 0 := by
      cases sub <;> simp [subtractedSyms]
    rw [hsub]
    simp only [Acc.value, hname, Term.value]
    simp only [literalValue] at hval
    omega
  | mul r text => simp [symStep] at h
  | other => simp [symStep] at h

theorem fold_syms (hrip : regs RIP = 0) (hok : ∀ t ∈ ts, t.2.Ok)
    (h : ts.foldlM symStep acc = some acc') :
    (18446744073709551616 : Int) ∣ acc'.value syms -
      (acc.value syms + total regs syms ts + 2 * subtractedSyms syms ts) := by
  induction ts generalizing acc with
  | nil =>
    cases h
    simp [total, subtractedSyms]
  | cons t ts ih =>
    rw [foldlM_cons, bind_eq_bind] at h
    obtain ⟨acc₁, hstep, hrest⟩ := bind_eq_some_iff.mp h
    have h1 := @symStep_value regs syms acc acc₁ t hrip (hok t (.head _)) hstep
    have h2 := ih (fun u hu => hok u (.tail _ hu)) hrest
    have htotal : total regs syms (t :: ts) =
        signed t.1 (t.2.value regs syms) + total regs syms ts := by
      simp [total]
    have hsub : subtractedSyms syms (t :: ts) =
        subtractedSyms syms [t] + subtractedSyms syms ts := by
      simp [subtractedSyms]
    rw [htotal, hsub]
    omega

/-- One symbol at most, and nothing but symbols, literals and `rip`. -/
theorem fold_places (h : ts.foldlM symStep acc = some acc') :
    subtractedSyms (fun _ => 1) ts + acc.count ≤ acc'.count ∧
      0 ≤ subtractedSyms (fun _ => 1) ts ∧
      (∀ name, (true, .sym name) ∈ ts → 1 ≤ subtractedSyms (fun _ => 1) ts) ∧
      ∀ t ∈ ts, t.2.isLit = false → t.2 = .reg RIP ∨ ∃ name, t.2 = .sym name := by
  induction ts generalizing acc with
  | nil =>
    cases h
    simp [subtractedSyms]
  | cons t ts ih =>
    rw [foldlM_cons, bind_eq_bind] at h
    obtain ⟨acc₁, hstep, hrest⟩ := bind_eq_some_iff.mp h
    obtain ⟨hcount, hpos, hmem, hplaces⟩ := ih hrest
    have hsub : subtractedSyms (fun _ => 1) (t :: ts) =
        subtractedSyms (fun _ => 1) [t] + subtractedSyms (fun _ => 1) ts := by
      simp [subtractedSyms]
    have hhead : subtractedSyms (fun _ => 1) [t] + acc.count ≤ acc₁.count ∧
        0 ≤ subtractedSyms (fun _ => 1) [t] ∧
        (∀ name, (true, .sym name) = t → 1 ≤ subtractedSyms (fun _ => 1) [t]) ∧
        (t.2.isLit = false → t.2 = .reg RIP ∨ ∃ name, t.2 = .sym name) := by
      obtain ⟨sub, t⟩ := t
      cases t with
      | reg r =>
        simp only [symStep] at hstep
        split_ifs at hstep with hr hseen
        cases hstep
        cases sub <;> simp [subtractedSyms, Acc.count, hr]
      | sym name =>
        simp only [symStep] at hstep
        split_ifs at hstep with hname
        cases hstep
        cases sub <;> simp [subtractedSyms, Acc.count, hname]
      | lit text =>
        have hname : acc₁.name = acc.name := by
          simp only [symStep, walk] at hstep
          obtain ⟨v, _, hstep⟩ := bind_eq_some_iff.mp hstep
          split_ifs at hstep
          cases hstep
          rfl
        cases sub <;> simp [subtractedSyms, Acc.count, hname, Term.isLit]
      | mul r text => simp [symStep] at hstep
      | other => simp [symStep] at hstep
    obtain ⟨h1, h2, h3, h4⟩ := hhead
    rw [hsub]
    refine ⟨by omega, by omega, ?_, ?_⟩
    · intro name hname
      rcases mem_cons.mp hname with heq | hts
      · have := h3 name heq
        omega
      · have := hmem name hts
        omega
    · intro u hu hlit
      rcases mem_cons.mp hu with rfl | hu
      · exact h4 hlit
      · exact hplaces u hu hlit

end

theorem try_parse_symbol_ok {name : String} {addend : Int32} (hok : IsAddress addr)
    (h : try_parse_symbol_memory addr = .ok (.MemRipRelSym name addend)) :
    ∃ acc, (terms false addr).foldlM symStep ⟨none, 0, false⟩ = some acc ∧
      acc.name = some name ∧ acc.addend = addend := by
  have hwalk := walk_terms addr false ⟨none, 0, false⟩ hok
  have hname : ∀ n, try_extract_symbol_name addr = some n → terms false addr = [(false, atom addr)] →
      (atom addr = .sym n) → n = name ∧ addend = 0 →
      ∃ acc, (terms false addr).foldlM symStep ⟨none, 0, false⟩ = some acc ∧
        acc.name = some name ∧ acc.addend = addend := by
    rintro n _ hterms hatom ⟨rfl, rfl⟩
    refine ⟨⟨some n, 0, false⟩, ?_, rfl, rfl⟩
    rw [hterms, hatom]
    simp [symStep]
  unfold try_parse_symbol_memory at h
  split at h
  · rename_i ident
    cases hsym : try_extract_symbol_name (.Ident ident) with
    | none => simp [hsym] at h
    | some n =>
      simp only [hsym, Except.ok.injEq, Operand.MemRipRelSym.injEq] at h
      obtain ⟨rfl, hnone⟩ := symbol_name_eq (show symbol_name ident = some n from hsym)
      exact hname n hsym rfl (by simp [atom, nameTerm, hnone]) ⟨h.1, h.2.symm⟩
  · rename_i segments
    cases hsym : try_extract_symbol_name (.Path segments) with
    | none => simp [hsym] at h
    | some n =>
      simp only [hsym, Except.ok.injEq, Operand.MemRipRelSym.injEq] at h
      refine hname n hsym rfl ?_ ⟨h.1, h.2.symm⟩
      rcases segments with _ | ⟨single, _ | ⟨b, rest⟩⟩
      · cases hsym
      · obtain ⟨rfl, hnone⟩ := symbol_name_eq (show symbol_name single = some n from hsym)
        simp [atom, nameTerm, hnone]
      · simp [atom, hsym]
  · unfold try_extract_symbol_sum at h
    rw [show (1 : Int) = signed false 1 from rfl, hwalk] at h
    cases hfold : (terms false _).foldlM symStep ⟨none, 0, false⟩ with
    | none => simp [hfold] at h
    | some acc =>
      simp only [hfold, bind_eq_bind, bind_some] at h
      cases hn : acc.name with
      | none => simp [hn] at h
      | some n =>
        simp only [hn, map_some, Except.ok.injEq, Operand.MemRipRelSym.injEq] at h
        exact ⟨acc, rfl, by rw [hn, h.1], h.2⟩
  · cases h

/-- Neither the symbol nor `rip` is subtracted. -/
def SymOk (addr : Expr) : Prop := ∀ t ∈ places addr, t.1 = false

theorem sym_denotes_iff {name : String} {addend : Int32} (hok : IsAddress addr)
    (h : try_parse_symbol_memory addr = .ok (.MemRipRelSym name addend)) :
    ((∀ regs syms, regs RIP = 0 → (18446744073709551616 : Int) ∣
        syms name + addend.toInt - value regs syms addr) ∧
        (true, .reg RIP) ∉ terms false addr) ↔ SymOk addr := by
  obtain ⟨acc, hfold, hname, haddend⟩ := try_parse_symbol_ok hok h
  obtain ⟨hcount, hpos, hmem, hplaces⟩ := fold_places hfold
  -- the sum is right up to twice the subtracted symbols
  have hright : ∀ regs syms, regs RIP = 0 → (18446744073709551616 : Int) ∣
      syms name + addend.toInt -
        (value regs syms addr + 2 * subtractedSyms syms (terms false addr)) := by
    intro regs syms hrip
    have hval := @value_terms regs syms false addr hok
    have hsum := @fold_syms regs syms _ _ _ hrip hok hfold
    rw [hval] at hsum
    simpa [Acc.value, hname, haddend, signed] using hsum
  constructor
  · rintro ⟨hall, hrip⟩
    rintro ⟨sub, t⟩ ht
    obtain ⟨ht, hlit⟩ := mem_filter.mp ht
    rcases hplaces (sub, t) ht (by simpa using hlit) with heq | ⟨n, heq⟩
    · cases sub with
      | false => rfl
      | true => exact absurd (by rw [← heq]; exact ht) hrip
    · cases sub with
      | false => rfl
      | true =>
        have h1 := hmem n (by rw [← heq]; exact ht)
        have h2 := hall (fun _ => 0) (fun _ => 1) rfl
        have h3 := hright (fun _ => 0) (fun _ => 1) rfl
        have h4 : acc.count = 1 := by simp [Acc.count, hname]
        have h5 : (⟨none, 0, false⟩ : Acc).count = 0 := rfl
        omega
  · intro hsym
    have hzero : ∀ syms, subtractedSyms syms (terms false addr) = 0 := by
      intro syms
      refine List.sum_eq_zero fun x hx => ?_
      obtain ⟨⟨sub, t⟩, ht, rfl⟩ := List.mem_map.mp hx
      cases sub with
      | false => rfl
      | true =>
        cases t with
        | sym n =>
          have := hsym (true, .sym n) (mem_filter.mpr ⟨ht, rfl⟩)
          cases this
        | _ => rfl
    refine ⟨fun regs syms hrip => ?_, fun hmem => ?_⟩
    · have := hright regs syms hrip
      rw [hzero] at this
      simpa using this
    · have := hsym (true, .reg RIP) (mem_filter.mpr ⟨hmem, rfl⟩)
      cases this

/-- An accepted address names the place that its expression says, and has the
form of a base, an index and a displacement, or of a symbol and an addend,
exactly under `SibOk` and `SymOk`. -/
theorem address_denotes_iff (addr : Expr) (h : IsAddress addr) :
    (∀ base index scale disp,
      parse_address_to_sib addr = .ok (.MemSib base index scale disp) →
      (((∀ regs syms, (18446744073709551616 : Int) ∣
          sibAddress regs base index scale disp - value regs syms addr) ∧ Shaped addr) ↔
        SibOk addr)) ∧
    (∀ name addend, try_parse_symbol_memory addr = .ok (.MemRipRelSym name addend) →
      (((∀ regs syms, regs RIP = 0 → (18446744073709551616 : Int) ∣
          syms name + addend.toInt - value regs syms addr) ∧
          (true, .reg RIP) ∉ terms false addr) ↔
        SymOk addr)) := by
  refine ⟨fun base index scale disp hparse => ?_, fun name addend hparse => sym_denotes_iff h hparse⟩
  unfold parse_address_to_sib at hparse
  cases hsib : extract_sib_components addr with
  | error e => rw [hsib] at hparse; cases hparse
  | ok σ =>
    rw [hsib] at hparse
    cases hparse
    exact sib_denotes_iff h hsib

/-- `[rbx + rcx*4 - 8]`. -/
def rbxRcxFour : Expr :=
  .Infix "-" (.Infix "+" (.Ident "rbx") (.Infix "*" (.Ident "rcx") (.Literal ['4']))) (.Literal ['8'])

theorem rbx_rcx_four_denotes : IsAddress rbxRcxFour ∧
    ∀ regs syms, (18446744073709551616 : Int) ∣
      sibAddress regs ⟨3⟩ (some ⟨1⟩) .X4 (-8) - value regs syms rbxRcxFour := by
  have hterms : terms false rbxRcxFour =
      [(false, .reg ⟨3⟩), (false, .mul ⟨1⟩ ['4']), (true, .lit ['8'])] := by decide
  have hplaces : places rbxRcxFour = [(false, .reg ⟨3⟩), (false, .mul ⟨1⟩ ['4'])] := by decide
  have haddr : IsAddress rbxRcxFour := by
    intro t ht
    rw [hterms] at ht
    simp only [List.mem_cons, List.not_mem_nil, or_false] at ht
    rcases ht with rfl | rfl | rfl <;> trivial
  have hsib : SibOk rbxRcxFour := by
    refine ⟨⟨by rw [hplaces]; decide, by rw [hplaces]; decide⟩, ?_, ?_, ?_, ?_⟩
    · intro t u hpl ht
      rw [hplaces] at hpl
      cases hpl
      rfl
    · intro t ht r text heq
      rw [hplaces] at ht
      simp only [List.mem_cons, List.not_mem_nil, or_false] at ht
      rcases ht with rfl | rfl <;> cases heq
      exact ⟨.X4, by decide, .inl (by decide)⟩
    · rw [hterms]
      decide
    · rw [hterms]
      exact ⟨-8, by decide⟩
  exact ⟨haddr, (((address_denotes_iff rbxRcxFour haddr).1 ⟨3⟩ (some ⟨1⟩) .X4 (-8) rfl).mpr hsib).1⟩

/-- `[rax + rbx]` is accepted, and `rax` is lost. -/
theorem rax_rbx_loses_rax :
    parse_address_to_sib (.Infix "+" (.Ident "rax") (.Ident "rbx")) =
        .ok (.MemSib ⟨3⟩ none .X1 0) ∧
      ¬ (18446744073709551616 : Int) ∣ sibAddress (oneAt RAX) ⟨3⟩ none .X1 0 -
        value (oneAt RAX) (fun _ => 0) (.Infix "+" (.Ident "rax") (.Ident "rbx")) :=
  ⟨rfl, by decide⟩

end paideia_as_elaborator
