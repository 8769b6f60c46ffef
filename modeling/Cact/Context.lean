import Cact.Token

/-!
# Error reporting

The texts of all diagnostics and the two flags of the compilation context.
{lit}`ctx_error` prints the first error of a compilation and drops every later one:
{lit}`panic_mode` is set by the first call and never cleared.

Main results:

- Theorem {lit}`Context.error_hadError`: if the panic flag implies the error flag,
  every call of {lit}`ctx_error` leaves the error flag set.
- Theorem {lit}`Context.error_mono`: no call clears the error flag.
-/

namespace Cact

/-- The messages of the lexer, the parser and the semantic checks. -/
inductive Msg where
  | lexer (m : LexMsg)
  | emptyText
  | expectRParenAfterExpr
  | expectRParenAfterArgs
  | expectRBracket
  | expectExpression
  | expectBlockLBrace
  | unexpectedInBlock
  | expectBlockRBrace
  | expectLParen
  | expectRParen
  | expectSemicolon
  | expectExprAfterAssign
  | arraySizeConstInt
  | expectLBrace
  | expectRBrace
  | expectVariableName
  | constUninitialized
  | expectTypeName
  | expectParamType
  | expectParamName
  | expectArraySize
  | unexpectedInBody
  | expectType
  | expectName
  | unexpectedTopLevel
  | undefinedFunction
  | undefinedVariable
  | notAnArray
  | initMismatch
  | redefinition
  | binaryMismatch
  | arithmeticOperands
  | moduloOperands
  | logicalOperands
  | assignConst
  | assignMismatch
  | voidReturnsValue
  | missingReturnValue
  | returnMismatch
deriving DecidableEq, Repr

/-- The texts the lexer passes to {lit}`ctx_error`. -/
def LexMsg.text : LexMsg → String
  | .hexDigits => "Hex literal must have at least one digit"
  | .exponentDigits => "Exponent has no digits"
  | .suffixOnInteger => "Invalid suffix 'f' on integer constant"
  | .numberTooLong => "Number literal too long"
  | .unexpectedDot => "Unexpected character '.'"
  | .unexpectedAmpersand => "Unexpected character '&' (Bitwise AND not supported)"
  | .unexpectedBar => "Unexpected character '|' (Bitwise OR not supported)"
  -- The source formats the text into a buffer, where a zero byte ends it.
  | .unexpectedChar c =>
      if c = 0 then "Unexpected character '"
      else "Unexpected character '" ++ (Char.ofNat c.toNat).toString ++ "'"

/-- The texts of all messages, as the source has them. -/
def Msg.text : Msg → String
  | .lexer m => m.text
  | .emptyText => ""
  | .expectRParenAfterExpr => "Expect ')' after expression"
  | .expectRParenAfterArgs => "Expect ')' after arguments"
  | .expectRBracket => "Expect ']'"
  | .expectExpression => "Expect expression"
  | .expectBlockLBrace => "Expect '\x7b' to begin block"
  | .unexpectedInBlock => "Unexpected token in block"
  | .expectBlockRBrace => "Expect '\x7d' to end block"
  | .expectLParen => "Expect '('"
  | .expectRParen => "Expect ')'"
  | .expectSemicolon => "Expect ';'"
  | .expectExprAfterAssign => "Expect expression after '='"
  | .arraySizeConstInt => "Array size must be constant int"
  | .expectLBrace => "Expect '\x7b'"
  | .expectRBrace => "Expect '\x7d'"
  | .expectVariableName => "Expect variable name"
  | .constUninitialized => "Const variable must be initialized"
  | .expectTypeName => "Expect type name"
  | .expectParamType => "Expect param type"
  | .expectParamName => "Expect param name"
  | .expectArraySize => "Expect array size"
  | .unexpectedInBody => "Unexpected token in function body"
  | .expectType => "Expect type"
  | .expectName => "Expect name"
  | .unexpectedTopLevel => "Unexpected token at top level"
  | .undefinedFunction => "Undefined function call"
  | .undefinedVariable => "Undefined variable"
  | .notAnArray => "Subscripted value is not an array"
  | .initMismatch => "Init type mismatch"
  | .redefinition => "Redefinition of symbol in the same scope"
  | .binaryMismatch => "Type mismatch in binary expression"
  | .arithmeticOperands => "Arithmetic operator requires numeric operands"
  | .moduloOperands => "Modulo operator requires integer operands"
  | .logicalOperands => "Logical operator requires boolean operands"
  | .assignConst => "Cannot assign to const variable"
  | .assignMismatch => "Type mismatch in assignment"
  | .voidReturnsValue => "Void function should not return a value"
  | .missingReturnValue => "Non-void function must return a value"
  | .returnMismatch => "Return type mismatch"

/-- The messages that report a semantic error: an undefined name, a redefinition, a
type rule, an assignment to a constant, a subscript of something that is no array. -/
def Msg.isSemantic : Msg → Bool
  | .undefinedFunction | .undefinedVariable | .notAnArray | .initMismatch
  | .redefinition | .binaryMismatch | .arithmeticOperands | .moduloOperands
  | .logicalOperands | .assignConst | .assignMismatch | .voidReturnsValue
  | .missingReturnValue | .returnMismatch => true
  | _ => false

/-- A diagnostic written to the error stream. -/
structure Diagnostic where
  loc : Option Span
  msg : Msg
deriving DecidableEq, Repr

/-- The part of the compilation context that error reporting reads and writes. -/
structure Context where
  hadError : Bool
  panicMode : Bool
  diags : List Diagnostic
deriving DecidableEq, Repr

namespace Context

/-- {lit}`context_init`. -/
def init : Context := ⟨false, false, []⟩

/-- {lit}`ctx_error`. -/
def error (ctx : Context) (loc : Option Span) (m : Msg) : Context :=
  if ctx.panicMode then ctx
  else ⟨true, true, ctx.diags ++ [⟨loc, m⟩]⟩

/-- No error leaves the error flag clear, provided a set panic flag already told of one. -/
theorem error_hadError {ctx : Context} (h : ctx.panicMode = true → ctx.hadError = true)
    (loc : Option Span) (m : Msg) : (ctx.error loc m).hadError = true := by
  unfold error
  split <;> rename_i hpanic
  · exact h hpanic
  · rfl

/-- Reporting an error never clears the error flag. -/
theorem error_mono {ctx : Context} (h : ctx.hadError = true) (loc : Option Span)
    (m : Msg) : (ctx.error loc m).hadError = true := by
  unfold error
  split
  · exact h
  · rfl

end Context

end Cact
