-- `lower/match_int.rs`: which matches are taken for integer matches, and the row
-- of the side table that each of their arms gets.
import PaideiaAs.Elaborator.Literals
import PaideiaAs.Elaborator.EmitMatch

namespace paideia_as_elaborator

open paideia_as_runtime emit_walker

/-! ## The scrutinee -/

def parse_integer_suffix (text : List Char) : Option (IntWidth × Bool) :=
  if text = ['u', '8'] then some (.W8, false)
  else if text = ['u', '1', '6'] then some (.W16, false)
  else if text = ['u', '3', '2'] then some (.W32, false)
  else if text = ['u', '6', '4'] then some (.W64, false)
  else if text = ['i', '8'] then some (.W8, true)
  else if text = ['i', '1', '6'] then some (.W16, true)
  else if text = ['i', '3', '2'] then some (.W32, true)
  else if text = ['i', '6', '4'] then some (.W64, true)
  else none

/-- `text[n..]`, which panics inside a character. -/
def slice_from : Nat → List Char → Outcome (List Char)
  | 0, cs => .ok cs
  | _ + 1, [] => .error .panic
  | n + 1, c :: cs =>
    if c.utf8Size ≤ n + 1 then slice_from (n + 1 - c.utf8Size) cs else .error .panic

def extract_integer_type_suffix (text : List Char) : Outcome (Option (IntWidth × Bool)) :=
  let candidate := (paideia_as_lexer.base_and_digits text).2
  match candidate.reverse.findIdx? fun c => !digit_or_underscore c with
  | some k => (slice_from (candidate.length - 1 - k) candidate).map parse_integer_suffix
  | none => .ok none

/-- The scrutinee in the source: a literal's text, or a variable with the text of
its declared type. -/
inductive ScrutineeText where
  | Literal (text : List Char)
  | Var (type_text : Option (List Char))
  | Other

def scrutinee_width : ScrutineeText → Outcome (Option (IntWidth × Bool))
  | .Literal text => (extract_integer_type_suffix text).map fun w => some (w.getD (.W64, false))
  | .Var type_text => .ok (type_text.bind parse_integer_suffix)
  | .Other => .ok none

/-! ## The patterns -/

inductive Pat where
  | Literal (text : List Char)
  | Wildcard
  | Ident (text : Option String)
  | Or (alternatives : List Pat)
  | Binding (name : Option String) (inner : Pat)
  | Other

/-- The values of an or-pattern: literals alone, each of which can be read. -/
def or_alt_values : List Pat → Outcome (Option (List Int64))
  | [] => .ok (some [])
  | .Literal text :: rest => do
    match ← parse_pattern text with
    | some value => (or_alt_values rest).map fun values => values.map (value :: ·)
    | none => .ok none
  | _ :: _ => .ok none

def default_row : MatchArmMeta := { MatchArmMeta.default with is_default := true }

def value_row (value : Int64) : MatchArmMeta :=
  { MatchArmMeta.default with int_pattern_value := some value }

/-- The row of an or-pattern with at least one alternative. -/
def or_row : Option (List Int64) → Option MatchArmMeta
  | some (value :: values) =>
    some { value_row value with alt_int_values := value :: values }
  | _ => none

/-- One arm of step 4: `none` where the match is no integer match, and a row where
one is recorded. A literal that cannot be read records nothing. -/
def arm_row : Pat → Outcome (Option (Option MatchArmMeta))
  | .Literal text => do
    let parsed_value ← parse_pattern text
    .ok (some (parsed_value.map value_row))
  | .Wildcard => .ok (some (some default_row))
  | .Ident text => .ok (if text = some "_" then some (some default_row) else none)
  | .Or alternatives => do
    let values ← or_alt_values alternatives
    .ok ((or_row values).map some)
  | .Binding name (.Literal text) => do
    let parsed_value ← parse_pattern text
    .ok (parsed_value.map fun value => some { value_row value with outer_binder := name })
  | .Binding name (.Or alternatives) => do
    let values ← or_alt_values alternatives
    .ok ((or_row values).map fun row => some { row with outer_binder := name })
  | .Binding _ _ => .ok none
  | .Other => .ok none

/-- A guard is noted in the row, which is made for it where there is none. -/
def guard_row (guard : Bool) (row : Option MatchArmMeta) : Option MatchArmMeta :=
  if guard then some { row.getD .default with guard := true } else row

def arm_rows : List (Pat × Bool) → Outcome (Option (List (Option MatchArmMeta)))
  | [] => .ok (some [])
  | (pattern, guard) :: rest => do
    match ← arm_row pattern with
    | some row => (arm_rows rest).map fun rows => rows.map (guard_row guard row :: ·)
    | none => .ok none

def Pat.is_literal : Pat → Bool
  | .Literal _ => true
  | _ => false

def Pat.is_default : Pat → Bool
  | .Wildcard => true
  | .Ident text => text = some "_"
  | _ => false

/-- A binding of a literal or of an or-pattern. -/
def Pat.is_binding : Pat → Bool
  | .Binding _ (.Literal _) => true
  | .Binding _ (.Or _) => true
  | _ => false

/-- The rows of the arms, where the match is an integer match: patterns with their
guards, at least one integer pattern and at least one default arm. -/
def classify_match_integer (scrutinee : ScrutineeText) (arms : List (Pat × Bool)) :
    Outcome (Option (List (Option MatchArmMeta))) := do
  match ← scrutinee_width scrutinee with
  | none => .ok none
  | some _ =>
    match ← arm_rows arms with
    | none => .ok none
    | some rows =>
      let has_lit := arms.any (·.1.is_literal)
      let has_or := rows.any fun row => row.any fun row => !row.alt_int_values.isEmpty
      let has_binding := arms.any (·.1.is_binding)
      if !(has_lit || has_or || has_binding) then .ok none
      else if !(arms.any (·.1.is_default)) then .ok none
      else .ok (some rows)

end paideia_as_elaborator
