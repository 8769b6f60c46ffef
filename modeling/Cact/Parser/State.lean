import Cact.Library.Run
import Cact.Context
import Cact.Sema

/-!
# Parser state and primitive operations

The parser record, the events its runs are made of, and the helpers of
{lit}`parser.c` that everything else is assembled from.

The lexer is present through the tokens it is still going to return.  Its only effect
on the rest of the program is the call of {lit}`ctx_error` with which it reports an
error token, and only {lit}`advance` calls it, so that call is made when
{lit}`advance` reads the token.

Main results:

- Definitions {lit}`Parser.advance`, {lit}`Parser.parserErrorAt`,
  {lit}`Parser.consume`, {lit}`Parser.matchKind` and {lit}`Parser.synchronize`.
-/

open Traced

namespace Cact

/-- The parsing functions, as they appear in traces.  {lit}`param` stands for one
iteration of the parameter loop of {lit}`parse_func`. -/
inductive Fn where
  | primary
  | unary
  | binary (prec : Int)
  | assign
  | expr
  | stmt
  | block
  | arrayDims
  | initializerList
  | varDeclList
  | decl
  | func
  | param
  | topLevel
deriving DecidableEq, Repr

/-- What a step of the parser does. -/
inductive Event where
  | enter (f : Fn)
  | advance
  | next
  | lexError (t : Token)
  | parserErrorAt (m : Msg)
  | ctxError (m : Msg)
  | synchronize
  | skip (t : Token)
  | scopeEnter
  | scopeLeave
  | setFuncRet
  | define
  | newFunc
  | pushParam
  | freshField
  | keepField
  | operand
  | callee (name : Symbol)
  | analyzeBinary
  | analyzeAssign
  | analyzeReturn
  | typeArrayOf
deriving DecidableEq, Repr

/-- The contents of memory the program reads before writing: what the arena holds in
the fields a new node leaves unwritten, and the current token before the first call of
{lit}`advance`. -/
structure Memory where
  field : Nat → Option Node
  token : Token

/-- The parser record, with the context and the analysis state it points to, the
tokens the lexer is still going to return, and the fresh memory of the arena. -/
structure Parser where
  rest : Tokens
  endSpan : Span
  curr : Token
  prev : Token
  panicMode : Bool
  ctx : Context
  sema : Sema
  fresh : Nat → Option Node
  allocs : Nat

/-- A piece of the parser. -/
abbrev Parse (α : Type) : Type := Prog Parser Event α

namespace Parser

/-! ## Changes of state -/

/-- {lit}`parser_error_at`: in panic mode nothing, otherwise panic and report. -/
def errorAt (p : Parser) (tok : Token) (m : Msg) : Parser :=
  if p.panicMode then p
  else { p with panicMode := true, ctx := p.ctx.error (some tok.span) m }

section

variable (p : Parser) (tok : Token) (m : Msg)

@[simp]
theorem errorAt_rest : (p.errorAt tok m).rest = p.rest := by
  unfold errorAt
  split <;> rfl

@[simp]
theorem errorAt_curr : (p.errorAt tok m).curr = p.curr := by
  unfold errorAt
  split <;> rfl

@[simp]
theorem errorAt_sema : (p.errorAt tok m).sema = p.sema := by
  unfold errorAt
  split <;> rfl

end

/-- {lit}`ctx_error`, called from the parser or from a semantic check. -/
def report (p : Parser) (tok : Option Token) (m : Msg) : Parser :=
  { p with ctx := p.ctx.error (tok.map Token.span) m }

/-- {lit}`lexer_next` returns an error token, having reported it. -/
def takeError (p : Parser) (t : Token) (ts : Tokens) : Parser :=
  { p with
    curr := t
    rest := ts
    ctx := p.ctx.error (some t.span) (.lexer t.value.lexMsg) }

/-- {lit}`lexer_next` returns any other token. -/
def take (p : Parser) (t : Token) (ts : Tokens) : Parser :=
  { p with curr := t, rest := ts }

/-! ## Tokens -/

/-- The loop of {lit}`advance`, over the tokens {lit}`lexer_next` will return. -/
def advanceLoop : Tokens → Parse Unit
  | [] => Prog.step .next fun p => p.take (Token.eof p.endSpan) []
  | t :: ts =>
      if t.val.kind = .error then do
        Prog.step (.lexError t.val) fun p => p.takeError t.val ts
        advanceLoop ts
      else
        Prog.step .next fun p => p.take t.val ts

/-- {lit}`advance`. -/
def advance : Parse Unit := do
  Prog.step .advance fun p => { p with prev := p.curr }
  let rest ← Prog.read Parser.rest
  advanceLoop rest

/-- {lit}`parser_error_at`. -/
def parserErrorAt (tok : Token) (m : Msg) : Parse Unit :=
  Prog.step (.parserErrorAt m) fun p => p.errorAt tok m

/-- {lit}`parser_error`. -/
def parserError (m : Msg) : Parse Unit := do
  let curr ← Prog.read Parser.curr
  parserErrorAt curr m

/-- {lit}`ctx_error`. -/
def ctxError (tok : Option Token) (m : Msg) : Parse Unit :=
  Prog.step (.ctxError m) fun p => p.report tok m

/-- {lit}`check_kind`. -/
def checkKind (kind : TokenKind) : Parse Bool :=
  Prog.read fun p => p.curr.kind == kind

/-- {lit}`match`. -/
def matchKind (kind : TokenKind) : Parse Bool := do
  if ← checkKind kind then
    advance
    return true
  else
    return false

/-- {lit}`consume`. -/
def consume (kind : TokenKind) (m : Msg) : Parse Unit := do
  if ← checkKind kind then
    advance
  else
    parserError m

/-- The token kinds at which {lit}`synchronize` stops. -/
def isSyncKind : TokenKind → Bool
  | .kwIf | .kwWhile | .kwReturn | .kwInt | .kwFloat | .kwDouble | .kwBool | .kwVoid
  | .kwConst => true
  | _ => false

/-- One iteration of the loop of {lit}`synchronize`. -/
def synchronizeIter (_ : Unit) : Parse (Iter Unit Unit) := do
  if ← checkKind .eof then
    return .leave ()
  else if ← Prog.read fun p => p.prev.kind == .semicolon then
    return .leave ()
  else if ← Prog.read fun p => isSyncKind p.curr.kind then
    return .leave ()
  else
    let curr ← Prog.read Parser.curr
    Prog.mark (.skip curr)
    advance
    return .again ()

/-- {lit}`synchronize`. -/
def synchronize (n : Nat) : Parse Unit := do
  Prog.step .synchronize fun p => { p with panicMode := false }
  loop synchronizeIter n ()

/-! ## Nodes -/

/-- {lit}`new_node`: the token the node records. -/
def newNode : Parse Token := Prog.read Parser.prev

/-- {lit}`new_node`, for a node with a field that may stay unwritten: what fresh
memory holds there. -/
def newNodeField : Parse (Option Node) := do
  let field ← Prog.read fun p => p.fresh p.allocs
  Prog.step .freshField fun p => { p with allocs := p.allocs + 1 }
  return field

/-- A field stays unwritten, and the node keeps what fresh memory held there. -/
def keepField (field : Option Node) : Parse (Option Node) := do
  Prog.mark .keepField
  return field

/-! ## Scopes and types -/

/-- {lit}`sema_scope_enter`. -/
def semaScopeEnter : Parse Unit :=
  Prog.step .scopeEnter fun p => { p with sema := p.sema.enter }

/-- {lit}`sema_scope_leave`. -/
def semaScopeLeave : Parse Unit :=
  Prog.step .scopeLeave fun p => { p with sema := p.sema.leave }

/-- Assign {lit}`curr_func_ret`. -/
def setFuncRet (ret : Option ObjTy) : Parse Unit :=
  Prog.step .setFuncRet fun p => { p with sema := { p.sema with currFuncRet := ret } }

/-- {lit}`sema_define_var`. -/
def semaDefineVar (name : Symbol) (ty : Option Ty) (isConst : Bool) :
    Parse (Option SemaSymbol) := do
  if ← Prog.read fun p => p.sema.scopes.isEmpty then
    return none
  else if ← Prog.read fun p => p.sema.declared name then
    ctxError none .redefinition
    return none
  else
    let sym ← Prog.read fun p => p.sema.newSymbol name ty isConst
    Prog.step .define fun p =>
      { p with sema := p.sema.define (p.sema.newSymbol name ty isConst) }
    return some sym

/-- {lit}`sema_lookup`. -/
def semaLookup (name : Symbol) : Parse (Option SemaSymbol) :=
  Prog.read fun p => p.sema.lookup name

/-- {lit}`type_func_new`: the place of the new type in the table. -/
def typeFuncNew (ret : ObjTy) : Parse Nat := do
  let id ← Prog.read fun p => p.sema.funcs.length
  Prog.step .newFunc fun p => { p with sema := p.sema.newFunc ret }
  return id

/-- {lit}`vec_push` on the parameters of a function type. -/
def pushParam (id : Nat) (ty : Option ObjTy) : Parse Unit :=
  Prog.step .pushParam fun p => { p with sema := p.sema.pushParam id ty }

/-- {lit}`type_array_of`: reads its base type, so a null base is a fault. -/
def typeArrayOf (base : Option ObjTy) (len : Int32) : Parse (Option ObjTy) := do
  Prog.mark .typeArrayOf
  match base with
  | none => Prog.fault
  | some base => return some (.array base len)

end Parser

end Cact
