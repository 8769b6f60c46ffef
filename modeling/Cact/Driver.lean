import Cact.Lexer
import Cact.Parser.TopLevel

/-!
# The driver

{lit}`run_compile` of {lit}`main.c`: read a file, lex it, parse it, and report success
if no error was recorded.
-/

open Traced

namespace Cact

/-- The parse of a file with the given content. -/
def compileRun (f : Fluf) (mem : Memory) (baseOffset : Nat) (content : List UInt8) :
    Run Parser Event (List Node) :=
  Parser.parserRun f.intern mem (Lexer.lexTokens f (Lexer.init baseOffset content))

/-- {lit}`run_compile`, given what reading the file yields.  A fault of the parser is a
fault of the compiler. -/
def runCompile (f : Fluf) (mem : Memory) (baseOffset : Nat)
    (content : Option (List UInt8)) : Outcome Context Bool :=
  match content with
  | none => .done false Context.init
  | some content =>
      match (compileRun f mem baseOffset content).outcome with
      | .done _ p => .done (!p.ctx.hadError) p.ctx
      | .fault p => .fault p.ctx
      | .timeout => .timeout

end Cact
