import Cact.Library.LexicalScope
import Cact.Library.Contract
import Cact.Library.Decoding
import Cact.Library.Congruence
import Cact.Driver
import Cact.Parser.Closure
import Cact.Lexer.Progress
import Cact.Parser.ErrorFlag
import Cact.Parser.EndOfFile
import Cact.Parser.ScopeStack
import Cact.Parser.Termination
import Cact.Lexer.RoundTrip
import Cact.Grammar.Syntax
import Cact.Parser.Input
import Cact.Parser.Soundness
import Cact.Grammar.DanglingElse
import Cact.Grammar.Analysis
import Cact.Grammar.First
import Cact.Grammar.Unchecked
import Cact.Grammar.Trees
import Cact.Parser.Completeness.Reading
import Cact.Parser.Completeness.Expr
import Cact.Parser.Completeness.Stmt
import Cact.Parser.Completeness.Unit
import Cact.Parser.Language
import Cact.Parser.Precedence
import Cact.Parser.ArrayTypes
import Cact.Grammar.Sites
import Cact.Grammar.Statics
import Cact.Parser.Rules
import Cact.Parser.Initializers
import Cact.Grammar.Scoping
import Cact.Parser.Resolution
import Cact.Grammar.TypedNodes
import Cact.Parser.TypeSoundness
import Cact.Lexer.Machine
import Cact.Lexer.Tiling
import Cact.Lexer.Integers
import Cact.Library.Monitor
import Cact.Library.Observation
import Cact.Library.Blame
import Cact.Parser.Diagnostics
import Cact.Parser.FreshMemory
import Cact.Parser.MissingOperands
import Cact.Types.Heap
import Cact.Types.Structure
import Cact.Types.Values
import Cact.Library.LongestPrefix
import Cact.Library.Brackets
import Cact.Lexer.LongestMatch
import Cact.Lexer.Comments
import Cact.Parser.ObjectTypes
import Cact.Parser.Assignments
import Cact.Parser.Jumps
import Cact.Parser.Recovery
import Cact.Parser.Nesting
import Cact.Parser.Translation
import Cact.Library.Lockstep
import Cact.Renaming
import Cact.Parser.Correspondence.Unit
import Cact.Parser.FirstError
import Cact.Lexer.Reformat
import Cact.Presentation
import Cact.Main
import Cact.Process
import Cact.Parser.Lookahead
import Cact.Library.Amortized
import Cact.Grammar.Unambiguity.Expr
import Cact.Grammar.Unambiguity.Unit
import Cact.Parser.Derivations
import Cact.Library.Tracking
import Cact.Scopes.Heap
import Cact.Parser.ScopeHeap
import Cact.Parser.Cost
import Cact.Lexer.Cost
import Cact.Printing
