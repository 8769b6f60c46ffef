import Mathlib.Tactic.Common

/-!
# Tokens

The token kinds of {lit}`token.def`, the token record of {lit}`token.h`, and the
interned names that identifier tokens carry.

Main results:

- Definition {lit}`TokenKind.text`: the keyword and punctuator table.
- Definitions {lit}`TokenValue.name`, {lit}`TokenValue.asInt`,
  {lit}`TokenValue.asFloat` and {lit}`TokenValue.asDouble`: the members of the
  value union, readable whichever of them was written.
-/

namespace Cact

/-- The token kinds, in the order of {lit}`token.def`. -/
inductive TokenKind where
  | eof
  | error
  | ident
  | litInt
  | litFloat
  | litDouble
  | kwConst
  | kwInt
  | kwBool
  | kwFloat
  | kwDouble
  | kwVoid
  | kwIf
  | kwElse
  | kwWhile
  | kwBreak
  | kwContinue
  | kwReturn
  | kwTrue
  | kwFalse
  | plus
  | minus
  | star
  | slash
  | percent
  | eq
  | neq
  | lt
  | le
  | gt
  | ge
  | lParen
  | rParen
  | lBrace
  | rBrace
  | lBracket
  | rBracket
  | assign
  | semicolon
  | comma
  | logAnd
  | logOr
  | logNot
deriving DecidableEq, Repr

/-- A byte of source text, given as the character the source code writes. -/
def byte (c : Char) : UInt8 := UInt8.ofNat c.toNat

/-- The {lit}`KW` entries of {lit}`token.def`. -/
def keywords : List (TokenKind × List UInt8) :=
  [(.kwConst, ['c', 'o', 'n', 's', 't'].map byte),
   (.kwInt, ['i', 'n', 't'].map byte),
   (.kwBool, ['b', 'o', 'o', 'l'].map byte),
   (.kwFloat, ['f', 'l', 'o', 'a', 't'].map byte),
   (.kwDouble, ['d', 'o', 'u', 'b', 'l', 'e'].map byte),
   (.kwVoid, ['v', 'o', 'i', 'd'].map byte),
   (.kwIf, ['i', 'f'].map byte),
   (.kwElse, ['e', 'l', 's', 'e'].map byte),
   (.kwWhile, ['w', 'h', 'i', 'l', 'e'].map byte),
   (.kwBreak, ['b', 'r', 'e', 'a', 'k'].map byte),
   (.kwContinue, ['c', 'o', 'n', 't', 'i', 'n', 'u', 'e'].map byte),
   (.kwReturn, ['r', 'e', 't', 'u', 'r', 'n'].map byte),
   (.kwTrue, ['t', 'r', 'u', 'e'].map byte),
   (.kwFalse, ['f', 'a', 'l', 's', 'e'].map byte)]

/-- The {lit}`PUNCT` entries of {lit}`token.def`. -/
def punctuators : List (TokenKind × List UInt8) :=
  [(.plus, ['+'].map byte),
   (.minus, ['-'].map byte),
   (.star, ['*'].map byte),
   (.slash, ['/'].map byte),
   (.percent, ['%'].map byte),
   (.eq, ['=', '='].map byte),
   (.neq, ['!', '='].map byte),
   (.lt, ['<'].map byte),
   (.le, ['<', '='].map byte),
   (.gt, ['>'].map byte),
   (.ge, ['>', '='].map byte),
   (.lParen, ['('].map byte),
   (.rParen, [')'].map byte),
   (.lBrace, ['{'].map byte),
   (.rBrace, ['}'].map byte),
   (.lBracket, ['['].map byte),
   (.rBracket, [']'].map byte),
   (.assign, ['='].map byte),
   (.semicolon, [';'].map byte),
   (.comma, [','].map byte),
   (.logAnd, ['&', '&'].map byte),
   (.logOr, ['|', '|'].map byte),
   (.logNot, ['!'].map byte)]

/-- The text a keyword or punctuator is printed with. -/
def TokenKind.text (k : TokenKind) : Option (List UInt8) :=
  ((keywords ++ punctuators).find? fun entry => entry.1 == k).map Prod.snd

/-- A name held by the interner.  Ids are unbounded: the interner is taken never to
run out of them. -/
structure Symbol where
  id : Nat
deriving DecidableEq, Repr

/-- A half-open range of byte offsets. -/
structure Span where
  start : Nat
  stop : Nat
deriving DecidableEq, Repr

/-- The texts with which the lexer rejects input. -/
inductive LexMsg where
  | hexDigits
  | exponentDigits
  | suffixOnInteger
  | numberTooLong
  | unexpectedDot
  | unexpectedAmpersand
  | unexpectedBar
  | unexpectedChar (c : UInt8)
deriving DecidableEq, Repr

/-- The value union of a token, tagged with the member last written.  An error
token's union is never written; the slot keeps the text the lexer reported. -/
inductive TokenValue where
  | unset
  | ofName (s : Symbol)
  | ofInt (v : Int32)
  | ofFloat (bits : BitVec 32)
  | ofDouble (bits : BitVec 64)
  | rejected (m : LexMsg)
deriving DecidableEq, Repr

namespace TokenValue

/-- The low word of the union, as the bytes of the member last written. -/
def low : TokenValue → Nat
  | .unset | .rejected _ => 0
  | .ofName s => s.id
  | .ofInt v => v.toUInt32.toNat
  | .ofFloat bits => bits.toNat
  | .ofDouble bits => (bits.setWidth 32).toNat

/-- Member {lit}`name`. -/
def name : TokenValue → Symbol
  | .ofName s => s
  | v => ⟨v.low⟩

/-- Member {lit}`as_int`. -/
def asInt : TokenValue → Int32
  | .ofInt v => v
  | v => Int32.ofNat v.low

/-- Member {lit}`as_float`. -/
def asFloat : TokenValue → BitVec 32
  | .ofFloat bits => bits
  | v => BitVec.ofNat 32 v.low

/-- Member {lit}`as_double`. -/
def asDouble : TokenValue → BitVec 64
  | .ofDouble bits => bits
  | v => BitVec.ofNat 64 v.low

/-- The text a rejected token was reported with. -/
def lexMsg : TokenValue → LexMsg
  | .rejected m => m
  | _ => .unexpectedChar 0

end TokenValue

/-- A token: its kind, where it stands in the source, and its value. -/
structure Token where
  kind : TokenKind
  span : Span
  value : TokenValue
deriving DecidableEq, Repr

/-- The token at the end of the input. -/
def Token.eof (span : Span) : Token := ⟨.eof, span, .unset⟩

/-- Tokens before the end of the input. -/
abbrev Tokens := List { t : Token // t.kind ≠ .eof }

/-- What {lit}`lexer_next` returns on its successive calls: some tokens, and then the
same end-of-file token for ever. -/
structure TokenStream where
  tokens : Tokens
  endSpan : Span

end Cact
