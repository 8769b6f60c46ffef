import Cact.Token
import Mathlib.Data.List.Basic

/-!
# The lexer

The functions of {lit}`lexer.c`, over a cursor into the bytes of a file.  The character
predicates, the interner and the floating-point conversions come from libraries
outside the repository and are parameters.

A loop of the source runs on a count of iterations that starts at the number of bytes
left; each iteration moves the cursor, so the count never stops a loop early.

Main results:

- Definition {lit}`Lexer.lexerNext`: the next token and the cursor after it.
- Definition {lit}`Lexer.lexTokens`: everything the lexer returns for a file.
-/

namespace Cact

/-- The library functions the lexer calls. -/
structure Fluf where
  charIsAlpha : UInt8 → Bool
  charIsAlphanum : UInt8 → Bool
  charIsDigit : UInt8 → Bool
  charIsHex : UInt8 → Bool
  intern : List UInt8 → Symbol
  strtof : List UInt8 → BitVec 32
  strtod : List UInt8 → BitVec 64

/-- The lexer record: the bytes of the file, its offset among all files, and the
cursor. -/
structure Lexer where
  content : List UInt8
  baseOffset : Nat
  cursor : Nat

namespace Lexer

/-! ## Helpers -/

/-- The number of bytes from the cursor on. -/
def left (l : Lexer) : Nat := l.content.length - l.cursor

/-- {lit}`peek`. -/
def peek (l : Lexer) : UInt8 := l.content.getD l.cursor 0

/-- {lit}`peek_next`. -/
def peekNext (l : Lexer) : UInt8 := l.content.getD (l.cursor + 1) 0

/-- The effect of {lit}`advance` on the cursor; it returns what {lit}`peek` shows. -/
def advance (l : Lexer) : Lexer :=
  if l.content.length ≤ l.cursor then l else { l with cursor := l.cursor + 1 }

/-- {lit}`make_span`. -/
def makeSpan (l : Lexer) (startCursor : Nat) : Span :=
  ⟨l.baseOffset + startCursor, l.baseOffset + l.cursor⟩

/-- {lit}`lexer_error_token`.  Its call of {lit}`ctx_error` is made where the parser
reads the token. -/
def lexerErrorToken (l : Lexer) (m : LexMsg) (start : Nat) : Token :=
  ⟨.error, l.makeSpan start, .rejected m⟩

/-- A token without a value. -/
def retTok (l : Lexer) (kind : TokenKind) (start : Nat) : Token :=
  ⟨kind, l.makeSpan start, .unset⟩

/-- The loops that advance while the current character satisfies a test. -/
def advanceWhileLoop (test : UInt8 → Bool) : Nat → Lexer → Lexer
  | 0, l => l
  | n + 1, l => if test l.peek then advanceWhileLoop test n l.advance else l

/-- Advance while the current character satisfies a test. -/
def advanceWhile (test : UInt8 → Bool) (l : Lexer) : Lexer :=
  advanceWhileLoop test l.left l

/-! ## Blanks and comments -/

/-- The white space of {lit}`skip_whitespace`. -/
def isBlank (c : UInt8) : Bool :=
  c == byte ' ' || c == byte '\r' || c == byte '\t' || c == byte '\n' || c == 11 || c == 12

/-- The loop over the text of a block comment, and whether the comment was closed. -/
def blockCommentLoop : Nat → Lexer → Lexer × Bool
  | 0, l => (l, false)
  | n + 1, l =>
      if l.peek == 0 then (l, false)
      else if l.peek == byte '*' && l.peekNext == byte '/' then (l.advance.advance, true)
      else blockCommentLoop n l.advance

/-- The loop of {lit}`skip_whitespace`. -/
def skipWhitespaceLoop : Nat → Lexer → Lexer
  | 0, l => l
  | n + 1, l =>
      if isBlank l.peek then
        skipWhitespaceLoop n l.advance
      else if l.peek == byte '/' then
        if l.peekNext == byte '/' then
          skipWhitespaceLoop n (l.advanceWhile fun c => c != byte '\n' && c != 0)
        else if l.peekNext == byte '*' then
          match blockCommentLoop (l.left + 1) l.advance.advance with
          | (l', true) => skipWhitespaceLoop n l'
          | (l', false) => l'
        else l
      else l

/-- {lit}`skip_whitespace`. -/
def skipWhitespace (l : Lexer) : Lexer := skipWhitespaceLoop (l.left + 1) l

/-! ## Scanners -/

/-- The bytes from a start up to the cursor. -/
def lexeme (l : Lexer) (start : Nat) : List UInt8 :=
  (l.content.drop start).take (l.cursor - start)

/-- The keyword map that {lit}`context_init` fills. -/
def kwMap (f : Fluf) : List (Symbol × TokenKind) :=
  keywords.foldl (fun m entry => (f.intern entry.2, entry.1) :: m) []

/-- {lit}`scan_identifier`. -/
def scanIdentifier (f : Fluf) (l : Lexer) : Token × Lexer :=
  let l' := l.advanceWhile fun c => f.charIsAlphanum c || c == byte '_'
  let sym := f.intern (l'.lexeme l.cursor)
  match (kwMap f).lookup sym with
  | some kind => (⟨kind, l'.makeSpan l.cursor, .unset⟩, l')
  | none => (⟨.ident, l'.makeSpan l.cursor, .ofName sym⟩, l')

/-- The value of a digit in the bases {lit}`strtoll` is used with. -/
def digitValue (c : UInt8) : Nat :=
  if byte '0' ≤ c ∧ c ≤ byte '9' then c.toNat - (byte '0').toNat
  else if byte 'a' ≤ c ∧ c ≤ byte 'f' then c.toNat - (byte 'a').toNat + 10
  else if byte 'A' ≤ c ∧ c ≤ byte 'F' then c.toNat - (byte 'A').toNat + 10
  else 16

/-- The number that the longest run of digits of a base stands for. -/
def digitsValue (base : Nat) (buf : List UInt8) : Nat :=
  (buf.takeWhile fun c => digitValue c < base).foldl
    (fun acc c => acc * base + digitValue c) 0

/-- {lit}`strtoll` in base 0, on a text that begins with a digit: the base is read off
the beginning, and values too large are replaced by the largest one. -/
def strtoll (buf : List UInt8) : Nat :=
  let value := match buf with
    | c :: x :: ds =>
        if c == byte '0' && (x == byte 'x' || x == byte 'X') then digitsValue 16 ds
        else if c == byte '0' then digitsValue 8 buf
        else digitsValue 10 buf
    | _ => digitsValue 10 buf
  min value 9223372036854775807

/-- The last part of {lit}`scan_number`, after the lexeme. -/
def numberToken (f : Fluf) (l : Lexer) (start : Nat) (isFraction isFloat32 : Bool) :
    Token :=
  let buf := l.lexeme start
  if 128 ≤ l.cursor - start then l.lexerErrorToken .numberTooLong start
  else if isFraction then
    if isFloat32 then ⟨.litFloat, l.makeSpan start, .ofFloat (f.strtof buf)⟩
    else ⟨.litDouble, l.makeSpan start, .ofDouble (f.strtod buf)⟩
  else ⟨.litInt, l.makeSpan start, .ofInt (Int32.ofNat (strtoll buf))⟩

/-- The hexadecimal branch of {lit}`scan_number`. -/
def scanHex (f : Fluf) (l : Lexer) : Token × Lexer :=
  let l₁ := l.advance.advance
  if f.charIsHex l₁.peek then
    let l₂ := l₁.advanceWhile f.charIsHex
    (numberToken f l₂ l.cursor false false, l₂)
  else (l₁.lexerErrorToken .hexDigits l.cursor, l₁)

/-- The fraction of a decimal literal, and whether there is one. -/
def scanFraction (f : Fluf) (l : Lexer) : Bool × Lexer :=
  if l.peek == byte '.' then (true, l.advance.advanceWhile f.charIsDigit)
  else (false, l)

/-- The sign of an exponent. -/
def scanSign (l : Lexer) : Lexer :=
  if l.peek == byte '+' || l.peek == byte '-' then l.advance else l

/-- What {lit}`scan_number` finds where an exponent may stand. -/
inductive ExponentScan where
  | absent
  | present (l : Lexer)
  | noDigits (l : Lexer)

/-- The exponent of a decimal literal. -/
def scanExponent (f : Fluf) (l : Lexer) : ExponentScan :=
  if l.peek == byte 'e' || l.peek == byte 'E' then
    let l' := l.advance.scanSign
    if f.charIsDigit l'.peek then .present (l'.advanceWhile f.charIsDigit)
    else .noDigits l'
  else .absent

/-- The suffix of a decimal literal and the token it completes. -/
def scanSuffix (f : Fluf) (l : Lexer) (start : Nat) (isFraction : Bool) : Token × Lexer :=
  if l.peek == byte 'f' || l.peek == byte 'F' then
    if isFraction then (numberToken f l.advance start isFraction true, l.advance)
    else (l.lexerErrorToken .suffixOnInteger start, l)
  else (numberToken f l start isFraction false, l)

/-- The decimal branch of {lit}`scan_number`. -/
def scanDecimal (f : Fluf) (l : Lexer) : Token × Lexer :=
  let (hasDot, l₁) := scanFraction f (l.advanceWhile f.charIsDigit)
  match scanExponent f l₁ with
  | .absent => scanSuffix f l₁ l.cursor hasDot
  | .present l₂ => scanSuffix f l₂ l.cursor true
  | .noDigits l₂ => (l₂.lexerErrorToken .exponentDigits l.cursor, l₂)

/-- {lit}`scan_number`. -/
def scanNumber (f : Fluf) (l : Lexer) : Token × Lexer :=
  if l.peek == byte '0' && (l.peekNext == byte 'x' || l.peekNext == byte 'X') then
    scanHex f l
  else scanDecimal f l

/-! ## Tokens -/

/-- The characters that are tokens by themselves. -/
def singleKind (c : UInt8) : Option TokenKind :=
  List.lookup c
    [(byte '+', .plus), (byte '-', .minus), (byte '*', .star), (byte '%', .percent),
     (byte '(', .lParen), (byte ')', .rParen), (byte '\x7b', .lBrace),
     (byte '\x7d', .rBrace), (byte '[', .lBracket), (byte ']', .rBracket),
     (byte ';', .semicolon), (byte ',', .comma), (byte '/', .slash)]

/-- The characters that are one token before {lit}`=` and another otherwise. -/
def withEqual (c : UInt8) : Option (TokenKind × TokenKind) :=
  List.lookup c
    [(byte '=', (.eq, .assign)), (byte '!', (.neq, .logNot)), (byte '<', (.le, .lt)),
     (byte '>', (.ge, .gt))]

/-- The characters that are tokens only when doubled, and the complaint otherwise. -/
def doubled (c : UInt8) : Option (TokenKind × LexMsg) :=
  List.lookup c
    [(byte '&', (.logAnd, .unexpectedAmpersand)), (byte '|', (.logOr, .unexpectedBar))]

/-- The switch of {lit}`lexer_next`, on the character {lit}`c` that stands before the
cursor. -/
def scanPunctuator (l : Lexer) (c : UInt8) (start : Nat) : Token × Lexer :=
  match singleKind c, withEqual c, doubled c with
  | some kind, _, _ => (l.retTok kind start, l)
  | none, some (long, short), _ =>
      if l.peek == byte '=' then (l.advance.retTok long start, l.advance)
      else (l.retTok short start, l)
  | none, none, some (kind, complaint) =>
      if l.peek == c then (l.advance.retTok kind start, l.advance)
      else (l.lexerErrorToken complaint start, l)
  | none, none, none => (l.lexerErrorToken (.unexpectedChar c) start, l)

/-- {lit}`lexer_next`.  The two scanners start at the character that chose them. -/
def lexerNext (f : Fluf) (l : Lexer) : Token × Lexer :=
  let l := l.skipWhitespace
  if l.content.length ≤ l.cursor then (l.retTok .eof l.cursor, l)
  else
    let c := l.peek
    if f.charIsAlpha c || c == byte '_' then scanIdentifier f l
    else if f.charIsDigit c then scanNumber f l
    else if c == byte '.' then
      if f.charIsDigit l.advance.peek then scanNumber f l
      else (l.advance.lexerErrorToken .unexpectedDot l.cursor, l.advance)
    else scanPunctuator l.advance c l.cursor

/-- The tokens of the successive calls of {lit}`lexer_next`, up to the end. -/
def lexTokensLoop (f : Fluf) : Nat → Lexer → TokenStream
  | 0, l => ⟨[], l.makeSpan l.cursor⟩
  | n + 1, l =>
      let (t, l') := lexerNext f l
      if h : t.kind = .eof then ⟨[], t.span⟩
      else
        let ts := lexTokensLoop f n l'
        ⟨⟨t, h⟩ :: ts.tokens, ts.endSpan⟩

/-- {lit}`lexer_init`. -/
def init (baseOffset : Nat) (content : List UInt8) : Lexer := ⟨content, baseOffset, 0⟩

/-- Everything the lexer returns for a file. -/
def lexTokens (f : Fluf) (l : Lexer) : TokenStream := lexTokensLoop f (l.left + 1) l

end Lexer

end Cact
