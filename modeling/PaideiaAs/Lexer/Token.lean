-- The kinds of tokens, the reserved words, and what the scanners report.
import Mathlib.Data.List.Basic

namespace paideia_as_lexer.token

inductive TokenKind where
  | KwLet | KwFn | KwModule | KwSignature | KwStructure | KwFunctor | KwEffect | KwCapability
  | KwExtern | KwImport | KwExport | KwPub | KwIf | KwElse | KwMatch | KwWhen | KwDo | KwWith
  | KwLoop | KwWhile | KwFor | KwBreak | KwContinue | KwReturn | KwYield | KwAction | KwType
  | KwEnum | KwStruct | KwRecord | KwTrait | KwImpl | KwWhere | KwForall | KwOrdered | KwLinear
  | KwAffine | KwUnrestricted | KwPerform | KwResume | KwFinally | KwUnsafe | KwMove | KwBorrow
  | KwConsume | KwDrop | KwOwn | KwMut | KwTrue | KwFalse | KwNull | KwSelfType | KwSelfValue
  | KwSizeof | KwAlignof | KwOffsetof | KwAsm | KwIn | KwAs | KwUse | KwAbstract | KwAsync
  | KwAwait | KwCoroutine | KwDeriving | KwDyn | KwImplicit | KwLemma | KwProof | KwReflect
  | KwVirtual | Ident | IntLit | FloatLit | CharLit | StringLit | ByteLit | ByteStringLit
  | UnitLit | LParen | RParen | LBrace | RBrace | LBracket | RBracket | Comma | Semicolon | Colon
  | Dot | DotDot | EffectOpen | CapOpen | LinearMark | AffineMark | Plus | Minus | Star | Slash
  | Percent | Assign | Eq | Neq | Lt | Gt | Le | Ge | AndAnd | OrOr | Bang | Amp | Pipe | Caret
  | Shl | Shr | Arrow | FatArrow | ColonColon | Question | At | Hash | Eof
  deriving DecidableEq

def keywords : List (String × TokenKind) :=
  [("let", .KwLet), ("fn", .KwFn), ("module", .KwModule), ("signature", .KwSignature),
    ("structure", .KwStructure), ("functor", .KwFunctor), ("effect", .KwEffect),
    ("capability", .KwCapability), ("extern", .KwExtern), ("import", .KwImport),
    ("export", .KwExport), ("pub", .KwPub), ("if", .KwIf), ("else", .KwElse), ("match", .KwMatch),
    ("when", .KwWhen), ("do", .KwDo), ("with", .KwWith), ("loop", .KwLoop), ("while", .KwWhile),
    ("for", .KwFor), ("break", .KwBreak), ("continue", .KwContinue), ("return", .KwReturn),
    ("yield", .KwYield), ("action", .KwAction), ("type", .KwType), ("enum", .KwEnum),
    ("struct", .KwStruct), ("record", .KwRecord), ("trait", .KwTrait), ("impl", .KwImpl),
    ("where", .KwWhere), ("forall", .KwForall), ("ordered", .KwOrdered), ("linear", .KwLinear),
    ("affine", .KwAffine), ("unrestricted", .KwUnrestricted), ("perform", .KwPerform),
    ("resume", .KwResume), ("finally", .KwFinally), ("unsafe", .KwUnsafe), ("move", .KwMove),
    ("borrow", .KwBorrow), ("consume", .KwConsume), ("drop", .KwDrop), ("own", .KwOwn),
    ("mut", .KwMut), ("true", .KwTrue), ("false", .KwFalse), ("null", .KwNull),
    ("Self", .KwSelfType), ("self", .KwSelfValue), ("sizeof", .KwSizeof), ("alignof", .KwAlignof),
    ("offsetof", .KwOffsetof), ("asm", .KwAsm), ("in", .KwIn), ("as", .KwAs), ("use", .KwUse),
    ("abstract", .KwAbstract), ("async", .KwAsync), ("await", .KwAwait),
    ("coroutine", .KwCoroutine), ("deriving", .KwDeriving), ("dyn", .KwDyn),
    ("implicit", .KwImplicit), ("lemma", .KwLemma), ("proof", .KwProof), ("reflect", .KwReflect),
    ("virtual", .KwVirtual)]

/-- The kind of a reserved word. -/
def keyword_kind (text : List Char) : Option TokenKind := keywords.lookup (String.ofList text)

/-! ## Spans and diagnostics -/

/-- A range of bytes, as `Span::new` is given it. -/
structure Span where
  byte_start : Nat
  byte_len : Nat
  deriving DecidableEq

/-- An error of category E. -/
structure Diagnostic where
  code : Nat
  message : String
  span : Span
  deriving DecidableEq

structure Token where
  kind : TokenKind
  span : Span
  deriving DecidableEq

inductive TriviaKind where
  | Whitespace | Newline | LineComment | BlockComment | DocLineComment | DocBlockComment
  deriving DecidableEq

structure Trivia where
  kind : TriviaKind
  span : Span
  deriving DecidableEq

/-- What a scanner finds: the kind, the bytes it takes, and what it has to report. -/
structure Scan where
  kind : TokenKind
  byte_len : Nat
  diagnostic : Option Diagnostic
  deriving DecidableEq

end paideia_as_lexer.token
