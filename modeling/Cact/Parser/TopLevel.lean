import Cact.Parser.Stmt

/-!
# Parsing functions and compilation units

The top-level functions of {lit}`parser.c`: function definitions, top-level items, the
built-in functions and {lit}`parser_parse` with its recovery loop.

Main results:

- Definitions {lit}`Parser.parseFunc`, {lit}`Parser.parseTopLevel` and
  {lit}`Parser.parserParse`.
- Definition {lit}`Parser.parserRun`: the whole parse of a token stream.
-/

open Traced

namespace Cact

namespace Parser

/-! ## Functions -/

/-- The first dimension of an array parameter, after its opening bracket. -/
def parseParamLen (argTy : Option ObjTy) : Parse (Option ObjTy) := do
  if ← matchKind .rBracket then
    typeArrayOf argTy 0
  else if ← matchKind .litInt then
    let prev ← Prog.read Parser.prev
    consume .rBracket .expectRBracket
    typeArrayOf argTy prev.value.asInt
  else
    parserError .expectArraySize
    return argTy

/-- The array part of a parameter. -/
def parseParamSuffix (n : Nat) (argTy : Option ObjTy) : Parse (Option ObjTy) := do
  if ← matchKind .lBracket then
    let ty ← parseParamLen argTy
    parseArrayDims n ty
  else
    return argTy

/-- {lit}`parser_error` for a parameter that does not begin with a type. -/
def parserErrorIfNoType (ty : Option ObjTy) : Parse Unit :=
  match ty with
  | none => parserError .expectParamType
  | some _ => return ()

/-- One iteration of the parameter loop of {lit}`parse_func`. -/
def paramIter (n : Nat) (funcTy : Nat) (_ : Unit) : Parse (Iter Unit Unit) := do
  Prog.mark (.enter .param)
  let curr ← Prog.read Parser.curr
  parserErrorIfNoType (tokenToType curr.kind)
  advance
  consume .ident .expectParamName
  let prev ← Prog.read Parser.prev
  let argTy ← parseParamSuffix n (tokenToType curr.kind)
  let _ ← semaDefineVar prev.value.name (argTy.map Ty.obj) false
  pushParam funcTy argTy
  if ← matchKind .comma then
    return .again ()
  else
    return .leave ()

/-- The parameters of a function, up to the closing parenthesis. -/
def parseParams (n : Nat) (funcTy : Nat) : Parse Unit := do
  if ← checkKind .rParen then
    return ()
  else
    loop (paramIter n funcTy) n ()

/-- {lit}`parse_func`. -/
def parseFunc (n : Nat) (retTy : ObjTy) (name : Symbol) : Parse (Option Node) := do
  Prog.mark (.enter .func)
  consume .lParen .emptyText
  let funcTy ← typeFuncNew retTy
  let _ ← semaDefineVar name (some (.func funcTy)) false
  setFuncRet (some retTy)
  semaScopeEnter
  parseParams n funcTy
  consume .rParen .expectRParen
  consume .lBrace .expectLBrace
  let stmts ← loop (bodyIter (parseDecl n) (parseStmt n) .unexpectedInBody n) n []
  consume .rBrace .expectRBrace
  semaScopeLeave
  setFuncRet none
  return some (.block none stmts)

/-! ## Top-level items -/

/-- {lit}`parse_top_level`. -/
def parseTopLevel (n : Nat) : Parse (Option Node) := do
  Prog.mark (.enter .topLevel)
  let isConst ← matchKind .kwConst
  let curr ← Prog.read Parser.curr
  match tokenToType curr.kind with
  | none =>
      if isConst then
        parserError .expectType
        advance
        return none
      else
        return none
  | some ty =>
      advance
      if ← checkKind .ident then
        consume .ident .expectName
        let prev ← Prog.read Parser.prev
        if ← checkKind .lParen then
          parseFunc n ty prev.value.name
        else
          parseVarDeclList n ty prev.value.name isConst true
      else
        parserError .expectName
        return none

/-! ## The compilation unit -/

/-- The parameter of a built-in function, if it has one. -/
def pushBuiltinParam (funcTy : Nat) (arg1Ty : Option ObjTy) : Parse Unit :=
  match arg1Ty with
  | some _ => pushParam funcTy arg1Ty
  | none => return ()

/-- {lit}`install_builtin`, under the given interner. -/
def installBuiltin (intern : List UInt8 → Symbol) (name : List Char) (ret : ObjTy)
    (arg1Ty : Option ObjTy) : Parse Unit := do
  let funcTy ← typeFuncNew ret
  pushBuiltinParam funcTy arg1Ty
  let _ ← semaDefineVar (intern (name.map byte)) (some (.func funcTy)) false
  return ()

/-- The built-in functions: name, return type and parameter. -/
def builtins : List (List Char × ObjTy × Option ObjTy) :=
  [("print_int".toList, .void, some .int),
   ("print_float".toList, .void, some .float),
   ("print_double".toList, .void, some .double),
   ("print_bool".toList, .void, some .bool),
   ("get_int".toList, .int, none),
   ("get_float".toList, .float, none),
   ("get_double".toList, .double, none)]

/-- {lit}`install_builtins`. -/
def installBuiltins (intern : List UInt8 → Symbol) :
    List (List Char × ObjTy × Option ObjTy) → Parse Unit
  | [] => return ()
  | (name, ret, arg1Ty) :: bs => do
      installBuiltin intern name ret arg1Ty
      installBuiltins intern bs

/-- The report {lit}`parser_parse` adds when nothing else was reported. -/
def reportTopLevel : Parse Unit := do
  if ← Prog.read fun p => !p.ctx.hadError && !p.panicMode then
    parserError .unexpectedTopLevel
  else
    return ()

/-- {lit}`synchronize`, when in panic. -/
def synchronizeIfPanic (n : Nat) : Parse Unit := do
  if ← Prog.read Parser.panicMode then
    synchronize n
    return ()
  else
    return ()

/-- Step over a token that can begin nothing at top level. -/
def skipIfStuck : Parse Unit := do
  if ← Prog.read fun p => !isDecl p.curr.kind && p.curr.kind != .eof then
    advance
  else
    return ()

/-- One iteration of the loop of {lit}`parser_parse`. -/
def topIter (n : Nat) (globals : List Node) :
    Parse (Iter (List Node) (List Node)) := do
  if ← matchKind .eof then
    return .leave globals
  else
    let node ← parseTopLevel n
    match node with
    | some node => return .again (globals ++ [node])
    | none =>
        reportTopLevel
        synchronizeIfPanic n
        skipIfStuck
        return .again globals

/-- {lit}`parser_parse`. -/
def parserParse (intern : List UInt8 → Symbol) (n : Nat) : Parse (List Node) := do
  semaScopeEnter
  installBuiltins intern builtins
  let globals ← loop (topIter n) n []
  semaScopeLeave
  return globals

/-- The parser record {lit}`parser_init` fills in, before it reads the first token. -/
def start (mem : Memory) (ctx : Context) (ts : TokenStream) : Parser where
  rest := ts.tokens
  endSpan := ts.endSpan
  curr := mem.token
  prev := mem.token
  panicMode := false
  ctx := ctx
  sema := Sema.init
  fresh := mem.field
  allocs := 0

/-- {lit}`parser_init` and {lit}`parser_parse`. -/
def parserProgram (intern : List UInt8 → Symbol) (n : Nat) : Parse (List Node) := do
  advance
  parserParse intern n

/-- A budget larger than any parse of a stream of the given length uses. -/
def budget (length : Nat) : Nat := 32 * length + 64

/-- The parse of a token stream, from a fresh context. -/
def parserRun (intern : List UInt8 → Symbol) (mem : Memory) (ts : TokenStream) :
    Run Parser Event (List Node) :=
  (parserProgram intern (budget ts.tokens.length)).run (start mem Context.init ts)

end Parser

end Cact
