import Cact.Lexer
import Mathlib.Data.List.Infix

/-!
# Printed tokens and layouts

The texts the lexer is meant to read: printed tokens, the blanks and comments that may
stand between two of them, and whole files made of both.

Main results:

- Definition {lit}`Lexeme`: a printed token, with the kind and the value it stands for.
- Definition {lit}`Separator`: what may stand between two tokens.
- Definition {lit}`concatenate`: a file, for any choice of separators.
-/

namespace Cact

/-! ## Characters -/

/-- The decimal digits. -/
def IsDigit (c : UInt8) : Prop := byte '0' ≤ c ∧ c ≤ byte '9'

/-- The characters that may begin an identifier. -/
def IsLetter (c : UInt8) : Prop :=
  (byte 'a' ≤ c ∧ c ≤ byte 'z') ∨ (byte 'A' ≤ c ∧ c ≤ byte 'Z') ∨ c = byte '_'

/-- The hexadecimal digits. -/
def IsHexDigit (c : UInt8) : Prop :=
  IsDigit c ∨ (byte 'a' ≤ c ∧ c ≤ byte 'f') ∨ (byte 'A' ≤ c ∧ c ≤ byte 'F')

/-- The letters that mark a hexadecimal literal. -/
def IsHexMark (c : UInt8) : Prop := c = byte 'x' ∨ c = byte 'X'

/-- The letters that mark an exponent. -/
def IsExponentMark (c : UInt8) : Prop := c = byte 'e' ∨ c = byte 'E'

/-- The letters that mark a {lit}`float`. -/
def IsFloatMark (c : UInt8) : Prop := c = byte 'f' ∨ c = byte 'F'

/-- Blank, carriage return, tabulators, newline and form feed. -/
def whitespace : List UInt8 :=
  [byte ' ', byte '\r', byte '\t', byte '\n', 11, 12]

/-! ## Numerals -/

/-- One or more digits. -/
structure Digits where
  text : List UInt8
  ne_nil : text ≠ []
  digits : ∀ c ∈ text, IsDigit c

/-- An exponent: its letter, a sign or none, and digits. -/
structure Exponent where
  letter : UInt8
  sign : List UInt8
  digits : Digits
  letter_eq : letter = byte 'e' ∨ letter = byte 'E'
  sign_eq : sign = [] ∨ sign = [byte '+'] ∨ sign = [byte '-']

/-- The text of an exponent. -/
def Exponent.text (e : Exponent) : List UInt8 := e.letter :: (e.sign ++ e.digits.text)

/-- Numerals with a point or an exponent. -/
inductive Numeral where
  | point (whole fraction : Digits) (exponent : Option Exponent)
  | noWhole (fraction : Digits) (exponent : Option Exponent)
  | noFraction (whole : Digits) (exponent : Option Exponent)
  | noPoint (whole : Digits) (exponent : Exponent)

namespace Numeral

/-- The digits before the point. -/
def whole : Numeral → List UInt8
  | point whole _ _ | noFraction whole _ | noPoint whole _ => whole.text
  | noWhole _ _ => []

/-- The point and the digits after it. -/
def fraction : Numeral → List UInt8
  | point _ fraction _ | noWhole fraction _ => byte '.' :: fraction.text
  | noFraction _ _ => [byte '.']
  | noPoint _ _ => []

/-- The exponent, if there is one. -/
def exponent : Numeral → Option Exponent
  | point _ _ exponent | noWhole _ exponent | noFraction _ exponent => exponent
  | noPoint _ exponent => some exponent

/-- The text of the exponent. -/
def tail (r : Numeral) : List UInt8 := (r.exponent.map Exponent.text).getD []

/-- The text of a numeral. -/
def text (r : Numeral) : List UInt8 := r.whole ++ (r.fraction ++ r.tail)

end Numeral

/-! ## Tokens -/

/-- A printed token. -/
inductive Lexeme where
  | fixed (kind : TokenKind) (s : List UInt8) (h : kind.text = some s)
  | ident (first : UInt8) (more : List UInt8) (hfirst : IsLetter first)
      (hmore : ∀ c ∈ more, IsLetter c ∨ IsDigit c)
      (hkeyword : ∀ e ∈ keywords, e.2 ≠ first :: more)
  | int (n : Nat) (h : n < 2147483648)
  | float (r : Numeral) (suffix : UInt8) (hsuffix : suffix = byte 'f' ∨ suffix = byte 'F')
      (h : (r.text ++ [suffix]).length < 128)
  | double (r : Numeral) (h : r.text.length < 128)

namespace Lexeme

/-- The text of a token. -/
@[simp]
def text : Lexeme → List UInt8
  | fixed _ s _ => s
  | ident first more _ _ _ => first :: more
  | int n _ => (Nat.toDigits 10 n).map byte
  | float r suffix _ _ => r.text ++ [suffix]
  | double r _ => r.text

/-- The kind of a token. -/
@[simp]
def kind : Lexeme → TokenKind
  | fixed kind _ _ => kind
  | ident _ _ _ _ _ => .ident
  | int _ _ => .litInt
  | float _ _ _ _ => .litFloat
  | double _ _ => .litDouble

/-- The value of a token: the interned name, the number, or what the conversion of its
text yields. -/
@[simp]
def value (f : Fluf) : Lexeme → TokenValue
  | fixed _ _ _ => .unset
  | ident first more _ _ _ => .ofName (f.intern (first :: more))
  | int n _ => .ofInt (Int32.ofNat n)
  | float r suffix _ _ => .ofFloat (f.strtof (r.text ++ [suffix]))
  | double r _ => .ofDouble (f.strtod r.text)

end Lexeme

/-! ## Layout -/

/-- A blank or a comment.  A line comment includes the newline that ends it. -/
inductive Trivia where
  | blank (c : UInt8) (h : c ∈ whitespace)
  | line (body : List UInt8) (hzero : 0 ∉ body) (hline : byte '\n' ∉ body)
  | block (body : List UInt8) (hzero : 0 ∉ body)
      (hopen : ¬ [byte '*', byte '/'] <:+: body)

/-- The text of a blank or a comment. -/
def Trivia.text : Trivia → List UInt8
  | blank c _ => [c]
  | line body _ _ => byte '/' :: byte '/' :: (body ++ [byte '\n'])
  | block body _ _ => byte '/' :: byte '*' :: (body ++ [byte '*', byte '/'])

/-- What stands between two tokens: a blank, and then blanks and comments. -/
structure Separator where
  first : UInt8
  more : List Trivia
  first_mem : first ∈ whitespace

/-- The text of a separator. -/
def Separator.text (s : Separator) : List UInt8 := s.first :: s.more.flatMap Trivia.text

/-- Tokens with a separator between any two of them. -/
def concatenate : List Lexeme → (Nat → Separator) → List UInt8
  | [], _ => []
  | [t], _ => t.text
  | t :: u :: ts, sep => t.text ++ ((sep 0).text ++ concatenate (u :: ts) fun i => sep (i + 1))

end Cact
