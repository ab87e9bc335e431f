-- Structures and signatures of the module language, and their elaboration:
-- the linearity context, `elaborate_structure` and `match_signature`
-- (`modules.rs`, `linearity_ctx.rs`, `check_linearity.rs`, `sig_match.rs`).
import PaideiaAs.Diagnostics.Diagnostic
import PaideiaAs.Lib.Assoc
import Mathlib.Data.List.Sort

namespace paideia_as_elaborator.modules

open paideia_as_diagnostics

/-! ## The syntax -/

mutual

structure Signature where
  decls : List SigDecl
  span : Span

/-- The definition of a type is the text of a concrete type. -/
inductive SigDecl where
  | Type (name : String) (definition : Option String) (span : Span)
  | Val (name ty : String) (span : Span)
  | Module (name : String) (signature : Signature) (span : Span)
  | Include (signature_name : String) (span : Span)

end

mutual

structure Structure where
  defs : List Def
  span : Span

inductive Def where
  | Type (name ty : String) (span : Span)
  | Val (name expr : String) (span : Span)
  | Module (name : String) (ascription : Option Signature) (body : Structure) (span : Span)

end

structure Functor where
  param_name : String
  param_signature : Signature
  body : Structure
  span : Span

/-! ## Equality of the syntax, as it is derived -/

mutual

def Signature.eq : Signature → Signature → Bool
  | ⟨decls, span⟩, ⟨decls', span'⟩ => SigDecl.eqs decls decls' && decide (span = span')

def SigDecl.eq : SigDecl → SigDecl → Bool
  | .Type name definition span, .Type name' definition' span' =>
    decide (name = name') && decide (definition = definition') && decide (span = span')
  | .Val name ty span, .Val name' ty' span' =>
    decide (name = name') && decide (ty = ty') && decide (span = span')
  | .Module name signature span, .Module name' signature' span' =>
    decide (name = name') && signature.eq signature' && decide (span = span')
  | .Include name span, .Include name' span' => decide (name = name') && decide (span = span')
  | _, _ => false

def SigDecl.eqs : List SigDecl → List SigDecl → Bool
  | [], [] => true
  | d :: ds, d' :: ds' => d.eq d' && SigDecl.eqs ds ds'
  | _, _ => false

end

def ascription_eq : Option Signature → Option Signature → Bool
  | none, none => true
  | some a, some b => a.eq b
  | _, _ => false

mutual

def Structure.eq : Structure → Structure → Bool
  | ⟨defs, span⟩, ⟨defs', span'⟩ => Def.eqs defs defs' && decide (span = span')

def Def.eq : Def → Def → Bool
  | .Type name ty span, .Type name' ty' span' =>
    decide (name = name') && decide (ty = ty') && decide (span = span')
  | .Val name expr span, .Val name' expr' span' =>
    decide (name = name') && decide (expr = expr') && decide (span = span')
  | .Module name ascription body span, .Module name' ascription' body' span' =>
    decide (name = name') && ascription_eq ascription ascription' && body.eq body' &&
      decide (span = span')
  | _, _ => false

def Def.eqs : List Def → List Def → Bool
  | [], [] => true
  | d :: ds, d' :: ds' => d.eq d' && Def.eqs ds ds'
  | _, _ => false

end

/-! ## Typed values -/

inductive LinClass where
  | Ordered
  | Linear
  | Affine
  | Unrestricted
  deriving DecidableEq

def LinClass.debug : LinClass → String
  | .Ordered => "Ordered"
  | .Linear => "Linear"
  | .Affine => "Affine"
  | .Unrestricted => "Unrestricted"

mutual

structure SignatureKind where
  decls : List SigDeclKind

inductive SigDeclKind where
  | Type (name : String) (kind : LinClass)
  | Val (name : String) (ty_id : Nat)
  | Module (name : String) (kind : SignatureKind)

end

mutual

structure TypedValue where
  bindings : List FieldBinding
  signature : SignatureKind
  span : Span

structure FieldBinding where
  name : String
  ty_id : Nat
  value : ValueRef
  class_ : LinClass
  span : Span

inductive ValueRef where
  | Val (expr : String)
  | Type (ty : String)
  | Module (value : TypedValue)

end

/-! ## The linearity context -/

abbrev Symbol := UInt32

/-- The `u32` of the uses saturates. -/
structure Binding where
  class_ : LinClass
  uses : Nat
  bind_span : Span

/-- The scopes, the innermost first. -/
abbrev LinearityCtx := List (List (Symbol × Binding))

namespace LinearityCtx

def new : LinearityCtx := [[]]

def enter_scope (ctx : LinearityCtx) : LinearityCtx := [] :: ctx

def leave_scope (ctx : LinearityCtx) : LinearityCtx := ctx.tail

def innermost (ctx : LinearityCtx) : List (Symbol × Binding) := ctx.headD []

def bind (ctx : LinearityCtx) (sym : Symbol) (class_ : LinClass) (bind_span : Span) :
    LinearityCtx :=
  Assoc.insert ctx.innermost sym ⟨class_, 0, bind_span⟩ :: ctx.tail

/-- The use counts for the innermost scope that binds the symbol. -/
def use : LinearityCtx → Symbol → LinearityCtx
  | [], _ => []
  | scope :: outer, sym =>
    match scope.lookup sym with
    | some b => Assoc.insert scope sym { b with uses := min (b.uses + 1) (2 ^ 32 - 1) } :: outer
    | none => scope :: use outer sym

end LinearityCtx

def S_NEVER_USED : Nat := 900

def S_OVERUSED : Nat := 901

/-- What a closed scope says about one binding. -/
def validate_binding (b : Binding) : Option Diagnostic :=
  match b.class_ with
  | .Linear | .Ordered =>
    if b.uses = 0 then
      some ⟨.S, S_NEVER_USED, b.class_.debug ++
        " binding is never used; substructural lattice requires exactly one use", b.bind_span⟩
    else if 1 < b.uses then
      some ⟨.S, S_OVERUSED, b.class_.debug ++ " binding used " ++ toString b.uses ++
        " times; substructural lattice permits exactly one use", b.bind_span⟩
    else none
  | .Affine =>
    if 1 < b.uses then
      some ⟨.S, S_OVERUSED, "affine binding used " ++ toString b.uses ++
        " times; affine permits at most one use", b.bind_span⟩
    else none
  | .Unrestricted => none

/-- Sorted by the start of the span. Diagnostics with one start are left in the
order of the scope, which Rust does not fix. -/
def validate_scope (scope : List (Symbol × Binding)) : List Diagnostic :=
  (scope.filterMap fun entry => validate_binding entry.2).insertionSort
    fun a b => a.primary_span.byte_start ≤ b.primary_span.byte_start

/-! ## Names in texts -/

def bytes (s : String) : List UInt8 := s.toUTF8.toList

def symbol_of (name : String) : Symbol :=
  (bytes name).foldl (fun a b => a * 31 + b.toUInt32) 0

def is_word_char (b : UInt8) : Bool :=
  (48 ≤ b && b ≤ 57) || (65 ≤ b && b ≤ 90) || (97 ≤ b && b ≤ 122) || b == 95

/-- The name starts at `start` and stands alone. -/
def token_at (text name : List UInt8) (start : Nat) : Bool :=
  name.isPrefixOf (text.drop start) &&
    (start == 0 || !(text[start - 1]?.any is_word_char)) &&
    !(text[start + name.length]?.any is_word_char)

def contains_name_token (expr name : String) : Bool :=
  !name.isEmpty && (List.range (bytes expr).length).any (token_at (bytes expr) (bytes name))

mutual

def structure_contains_name_token (name : String) : Structure → Bool
  | ⟨defs, _⟩ => defs_contain_name_token name defs

def def_contains_name_token (name : String) : Def → Bool
  | .Val _ expr _ => contains_name_token expr name
  | .Type _ ty _ => contains_name_token ty name
  | .Module _ _ body _ => structure_contains_name_token name body

def defs_contain_name_token (name : String) : List Def → Bool
  | [] => false
  | d :: ds => def_contains_name_token name d || defs_contain_name_token name ds

end

/-! ## Elaboration -/

/-- The class is read off the text of the expression. -/
def class_of_expr (expr : String) : LinClass :=
  if "linear:".toList.isPrefixOf expr.toList then .Linear else .Unrestricted

/-- The uses of a value in the definitions after the first one that is equal to its
own. -/
def count_uses (defs : List Def) (d : Def) (name : String) (ctx : LinearityCtx) : LinearityCtx :=
  (defs.drop (defs.findIdx (·.eq d) + 1)).foldl (fun ctx next =>
      match next with
      | .Val _ next_expr _ =>
        if contains_name_token next_expr name then ctx.use (symbol_of name) else ctx
      | .Module _ _ body _ =>
        if structure_contains_name_token name body then ctx.use (symbol_of name) else ctx
      | .Type .. => ctx) ctx

/-- The bindings and declarations so far, the context and the diagnostics. -/
structure Elaborated where
  bindings : List FieldBinding
  decls : List SigDeclKind
  ctx : LinearityCtx
  diags : List Diagnostic

mutual

/-- The typed value, and the context and the diagnostics after it. -/
def elaborate_structure : Structure → LinearityCtx → TypedValue × LinearityCtx × List Diagnostic
  | ⟨defs, span⟩, ctx =>
    let out := elaborate_defs defs defs ⟨[], [], ctx, []⟩
    (⟨out.bindings, ⟨out.decls⟩, span⟩, out.ctx, out.diags ++ validate_scope out.ctx.innermost)

/-- One definition of `all`. -/
def elaborate_def : Def → List Def → Elaborated → Elaborated
  | .Type name ty span, _, out =>
    { out with
      bindings := out.bindings ++ [⟨name, 0, .Type ty, .Unrestricted, span⟩]
      decls := out.decls ++ [.Type name .Unrestricted] }
  | .Val name expr span, all, out =>
    let class_ := class_of_expr expr
    let ctx := out.ctx.bind (symbol_of name) class_ span
    { out with
      bindings := out.bindings ++ [⟨name, 0, .Val expr, class_, span⟩]
      decls := out.decls ++ [.Val name 0]
      ctx := count_uses all (.Val name expr span) name ctx }
  | .Module name _ body span, _, out =>
    let (nested_typed, ctx, diags) := elaborate_structure body out.ctx.enter_scope
    { bindings := out.bindings ++ [⟨name, 0, .Module nested_typed, .Unrestricted, span⟩]
      decls := out.decls ++ [.Module name nested_typed.signature]
      ctx := ctx.leave_scope
      diags := out.diags ++ diags }

def elaborate_defs : List Def → List Def → Elaborated → Elaborated
  | [], _, out => out
  | d :: ds, all, out => elaborate_defs ds all (elaborate_def d all out)

end

/-! ## Signature matching -/

def M_SIG_MISSING_DECL : Nat := 301

def M_SIG_KIND_MISMATCH : Nat := 302

/-- Of two bindings of a name, the later one. -/
def by_name (bindings : List FieldBinding) (name : String) : Option FieldBinding :=
  bindings.reverse.find? fun b => decide (b.name = name)

def missing_decl (name : String) (span : Span) : Diagnostic :=
  ⟨.M, M_SIG_MISSING_DECL, "signature declares '" ++ name ++ "' but structure does not provide it",
    span⟩

section

variable (printable : Char → Bool)

def check_type_decl (bindings : List FieldBinding) (name : String) (definition : Option String)
    (span : Span) : Bool × List Diagnostic :=
  match by_name bindings name with
  | none => (false, [missing_decl name span])
  | some binding =>
    match binding.value with
    | .Type s =>
      match definition with
      | some t =>
        if s ≠ t then
          (false, [⟨.M, M_SIG_KIND_MISMATCH, "structure binding '" ++ name ++ "' has type " ++
            debug_str printable s ++ ", but signature requires " ++ debug_str printable t, span⟩])
        else (true, [])
      | none => (true, [])
    | .Val _ | .Module _ =>
      (false, [⟨.M, M_SIG_KIND_MISMATCH, "signature declares '" ++ name ++
        "' as a type, but structure provides a value/module", span⟩])

def check_val_decl (bindings : List FieldBinding) (name : String) (span : Span) :
    Bool × List Diagnostic :=
  match by_name bindings name with
  | none => (false, [missing_decl name span])
  | some binding =>
    match binding.value with
    | .Val _ => (true, [])
    | .Type _ | .Module _ =>
      (false, [⟨.M, M_SIG_KIND_MISMATCH, "signature declares '" ++ name ++
        "' as a value, but structure provides a type/module", span⟩])

mutual

/-- Whether the structure has what the signature declares, and the diagnostics. -/
def match_signature : Signature → TypedValue → Bool × List Diagnostic
  | ⟨decls, _⟩, structure_ => match_decls decls structure_.bindings

def check_decl : SigDecl → List FieldBinding → Bool × List Diagnostic
  | .Type name definition span, bindings => check_type_decl printable bindings name definition span
  | .Val name _ span, bindings => check_val_decl bindings name span
  | .Module name signature span, bindings =>
    match by_name bindings name with
    | none => (false, [missing_decl name span])
    | some binding =>
      match binding.value with
      | .Module inner => match_signature signature inner
      | .Type _ | .Val _ =>
        (false, [⟨.M, M_SIG_KIND_MISMATCH, "signature declares '" ++ name ++
          "' as a module, but structure provides a type/value", span⟩])
  | .Include _ _, _ => (true, [])

/-- A failed declaration does not end the walk. -/
def match_decls : List SigDecl → List FieldBinding → Bool × List Diagnostic
  | [], _ => (true, [])
  | d :: ds, bindings =>
    let (ok, diags) := check_decl d bindings
    let (oks, rest) := match_decls ds bindings
    (ok && oks, diags ++ rest)

end

end

end paideia_as_elaborator.modules
