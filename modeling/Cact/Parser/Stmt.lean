import Cact.Parser.Expr

/-!
# Parsing statements and declarations inside a function

The statement functions of {lit}`parser.c` and the declaration functions they share
with the top level.  As for expressions, each function is written over the functions it
calls, and the recursion is tied at the end.

Main results:

- Definition {lit}`Parser.bodyIter`: the loop that {lit}`parse_block` and
  {lit}`parse_func` both contain, written once with the message they differ in.
- Definitions {lit}`Parser.parseVarDeclList`, {lit}`Parser.parseDecl`,
  {lit}`Parser.parseBlock` and {lit}`Parser.parseStmt`.
-/

open Traced

namespace Cact

namespace Parser

/-! ## Declarations -/

/-- One iteration of the loop of {lit}`parse_array_dims`. -/
def dimsIter (base : Option ObjTy) : Parse (Iter (Option ObjTy) (Option ObjTy)) := do
  if ← matchKind .lBracket then
    if ← matchKind .litInt then
      let prev ← Prog.read Parser.prev
      consume .rBracket .expectRBracket
      let ty ← typeArrayOf base prev.value.asInt
      return .again ty
    else
      parserError .arraySizeConstInt
      let _ ← matchKind .rBracket
      return .again base
  else
    return .leave base

/-- {lit}`parse_array_dims`. -/
def parseArrayDims (n : Nat) (base : Option ObjTy) : Parse (Option ObjTy) := do
  Prog.mark (.enter .arrayDims)
  loop dimsIter n base

/-- One element of a brace list. -/
def parseElement (parseInitializerList parseAssign : Parse (Option Node)) :
    Parse (Option Node) := do
  if ← checkKind .lBrace then
    parseInitializerList
  else
    parseAssign

/-- The element loop of {lit}`parse_initializer_list`. -/
def elementIter (parseInitializerList parseAssign : Parse (Option Node))
    (inits : List (Option Node)) :
    Parse (Iter (List (Option Node)) (List (Option Node))) := do
  let val ← parseElement parseInitializerList parseAssign
  if ← matchKind .comma then
    return .again (inits ++ [val])
  else
    return .leave (inits ++ [val])

/-- The elements of a brace list, up to the closing brace. -/
def parseElements (parseInitializerList parseAssign : Parse (Option Node)) (n : Nat) :
    Parse (List (Option Node)) := do
  if ← checkKind .rBrace then
    return []
  else
    loop (elementIter parseInitializerList parseAssign) n []

/-- {lit}`parse_initializer_list`. -/
def parseInitializerListBody (parseInitializerList parseAssign : Parse (Option Node))
    (n : Nat) : Parse (Option Node) := do
  Prog.mark (.enter .initializerList)
  consume .lBrace .expectLBrace
  let inits ← parseElements parseInitializerList parseAssign n
  consume .rBrace .expectRBrace
  return some (.initList none inits)

def parseInitializerList : Nat → Parse (Option Node)
  | 0 => Prog.timeout
  | n + 1 => parseInitializerListBody (parseInitializerList n) (parseAssign n) n

/-- The type check on an initializer expression. -/
def checkInit (ty : Option ObjTy) (tok : Token) (init : Option Node) : Parse Unit := do
  match init with
  | none => return ()
  | some e =>
      if ← Prog.read fun p => !typeEq p.sema.funcs (ty.map Ty.obj) e.ty then
        ctxError tok .initMismatch
      else
        return ()

/-- The initializer of a declarator: without one, the node keeps what fresh memory
held in the field. -/
def parseInit (parseInitializerList parseExpr : Parse (Option Node))
    (ty : Option ObjTy) (isConst : Bool) (tok : Token) (field : Option Node) :
    Parse (Option Node) := do
  if ← matchKind .assign then
    if ← checkKind .lBrace then
      parseInitializerList
    else
      let init ← parseExpr
      checkInit ty tok init
      return init
  else if isConst then
    parserError .constUninitialized
    keepField field
  else
    keepField field

/-- A declarator after its name. -/
def parseDeclarator (parseInitializerList parseExpr : Parse (Option Node)) (n : Nat)
    (baseTy : ObjTy) (isConst : Bool) (name : Symbol) : Parse Node := do
  let ty ← parseArrayDims n (some baseTy)
  let sym ← semaDefineVar name (ty.map Ty.obj) isConst
  let tok ← newNode
  let field ← newNodeField
  let init ← parseInit parseInitializerList parseExpr ty isConst tok field
  return .varDecl (ty.map Ty.obj) sym init

/-- The name of a declarator: the first one was read by the caller, every later one
follows its comma. -/
def parseDeclaratorName (first : Option Symbol) : Parse (Option Symbol) := do
  match first with
  | some name => return some name
  | none =>
      if ← matchKind .ident then
        let prev ← Prog.read Parser.prev
        return some prev.value.name
      else
        parserError .expectVariableName
        return none

/-- The declarator loop of {lit}`parse_var_decl_list`, over the name already read, if
any, and the declarators built so far. -/
def declaratorIter (parseInitializerList parseExpr : Parse (Option Node)) (n : Nat)
    (baseTy : ObjTy) (isConst : Bool) (st : Option Symbol × List Node) :
    Parse (Iter (Option Symbol × List Node) (List Node)) := do
  let name ← parseDeclaratorName st.1
  match name with
  | none => return .leave st.2
  | some name =>
      let decl ← parseDeclarator parseInitializerList parseExpr n baseTy isConst name
      if ← matchKind .comma then
        return .again (none, st.2 ++ [decl])
      else
        return .leave (st.2 ++ [decl])

/-- {lit}`parse_var_decl_list`.  The parameter {lit}`is_global` is never read. -/
def parseVarDeclList (n : Nat) (baseTy : ObjTy) (firstName : Symbol) (isConst : Bool)
    (_isGlobal : Bool) : Parse (Option Node) := do
  Prog.mark (.enter .varDeclList)
  let stmts ← loop
    (declaratorIter (parseInitializerList n) (parseExpr n) n baseTy isConst) n
    (some firstName, [])
  consume .semicolon .expectSemicolon
  return some (.block none stmts)

/-- {lit}`parse_decl`. -/
def parseDecl (n : Nat) : Parse (Option Node) := do
  Prog.mark (.enter .decl)
  let isConst ← matchKind .kwConst
  let curr ← Prog.read Parser.curr
  match tokenToType curr.kind with
  | none =>
      parserError .expectTypeName
      return none
  | some baseTy =>
      advance
      if ← matchKind .ident then
        let prev ← Prog.read Parser.prev
        parseVarDeclList n baseTy prev.value.name isConst false
      else
        parserError .expectVariableName
        return none

/-! ## Semantic checks -/

/-- The type of the value a return statement returns. -/
def actualTy : Option Node → Option Ty
  | some l => l.ty
  | none => tyVoid

/-- {lit}`sema_analyze_return`, on the node that records the token {lit}`tok`. -/
def semaAnalyzeReturn (tok : Token) (lhs : Option Node) : Parse Node := do
  Prog.mark .analyzeReturn
  let ret ← Prog.read fun p => p.sema.currFuncRet.map Ty.obj
  if ret == tyVoid then
    if actualTy lhs != tyVoid then
      ctxError tok .voidReturnsValue
      return .retStmt tyVoid lhs
    else
      return .retStmt tyVoid lhs
  else if actualTy lhs == tyVoid then
    ctxError tok .missingReturnValue
    return .retStmt tyVoid lhs
  else if ← Prog.read fun p => !typeEq p.sema.funcs ret (actualTy lhs) then
    ctxError tok .returnMismatch
    return .retStmt tyVoid lhs
  else
    return .retStmt tyVoid lhs

/-! ## Bodies -/

/-- Whether a token can begin a declaration. -/
def isDecl (kind : TokenKind) : Bool :=
  (tokenToType kind).isSome || kind == .kwConst

/-- Whether a token can begin a statement. -/
def isStmtStart : TokenKind → Bool
  | .kwIf | .kwWhile | .kwReturn | .kwBreak | .kwContinue | .lBrace
  | .ident | .lParen | .litInt | .litFloat | .litDouble | .kwTrue | .kwFalse
  | .plus | .minus | .logNot => true
  | _ => false

/-- Whether a body ends at the current token. -/
def bodyEnds : Parse Bool :=
  Prog.read fun p => p.curr.kind == .rBrace || p.curr.kind == .eof

/-- Recover from a panic, then see whether the body ends here. -/
def recoverInBody (n : Nat) : Parse Bool := do
  if ← Prog.read Parser.panicMode then
    synchronize n
    bodyEnds
  else
    return false

/-- {lit}`vec_push` of a node that is not null. -/
def pushNonNull (stmts : List Node) : Option Node → List Node
  | none => stmts
  | some node => stmts ++ [node]

/-- One item of a body. -/
def bodyItem (parseDecl parseStmt : Parse (Option Node)) (unexpected : Msg)
    (stmts : List Node) : Parse (Iter (List Node) (List Node)) := do
  let kind ← Prog.read fun p => p.curr.kind
  if !isDecl kind && !isStmtStart kind then
    parserError unexpected
    advance
    return .again stmts
  else if isDecl kind then
    let decl ← parseDecl
    return .again (pushNonNull stmts decl)
  else
    let stmt ← parseStmt
    return .again (pushNonNull stmts stmt)

/-- The item loop of {lit}`parse_block` and {lit}`parse_func`. -/
def bodyIter (parseDecl parseStmt : Parse (Option Node)) (unexpected : Msg) (n : Nat)
    (stmts : List Node) : Parse (Iter (List Node) (List Node)) := do
  if ← bodyEnds then
    return .leave stmts
  else if ← recoverInBody n then
    return .leave stmts
  else
    bodyItem parseDecl parseStmt unexpected stmts

/-! ## Statements -/

/-- {lit}`parse_block`. -/
def parseBlockBody (parseDecl parseStmt : Parse (Option Node)) (n : Nat) :
    Parse (Option Node) := do
  Prog.mark (.enter .block)
  consume .lBrace .expectBlockLBrace
  semaScopeEnter
  let stmts ← loop (bodyIter parseDecl parseStmt .unexpectedInBlock n) n []
  semaScopeLeave
  consume .rBrace .expectBlockRBrace
  return some (.block none stmts)

/-- The {lit}`else` branch of an {lit}`if` statement, or what fresh memory held in its
field. -/
def parseElse (parseStmt : Parse (Option Node)) (field : Option Node) :
    Parse (Option Node) := do
  if ← matchKind .kwElse then
    parseStmt
  else
    keepField field

/-- The {lit}`if` branch of {lit}`parse_stmt`. -/
def parseIf (parseExpr parseStmt : Parse (Option Node)) : Parse (Option Node) := do
  let field ← newNodeField
  consume .lParen .expectLParen
  let cond ← parseExpr
  consume .rParen .expectRParen
  let thenBranch ← parseStmt
  let elseBranch ← parseElse parseStmt field
  return some (.ifStmt none cond thenBranch elseBranch)

/-- The {lit}`while` branch of {lit}`parse_stmt`. -/
def parseWhile (parseExpr parseStmt : Parse (Option Node)) : Parse (Option Node) := do
  consume .lParen .expectLParen
  let cond ← parseExpr
  consume .rParen .expectRParen
  let body ← parseStmt
  return some (.whileStmt none cond body)

/-- The operand of {lit}`return`, or what fresh memory held in its field. -/
def parseReturnValue (parseExpr : Parse (Option Node)) (field : Option Node) :
    Parse (Option Node) := do
  if ← checkKind .semicolon then
    keepField field
  else
    parseExpr

/-- The {lit}`return` branch of {lit}`parse_stmt`. -/
def parseReturn (parseExpr : Parse (Option Node)) : Parse (Option Node) := do
  let tok ← newNode
  let field ← newNodeField
  let lhs ← parseReturnValue parseExpr field
  consume .semicolon .expectSemicolon
  let node ← semaAnalyzeReturn tok lhs
  return some node

/-- The assignment that {lit}`parse_stmt` recognises after an expression. -/
def parseStmtAssign (parseExpr : Parse (Option Node)) (expr : Node) : Parse Node := do
  if ← matchKind .assign then
    let rhs ← parseExpr
    match rhs with
    | none =>
        parserError .expectExprAfterAssign
        return expr
    | some rhs =>
        let tok ← newNode
        semaAnalyzeAssign tok (some expr) (some rhs)
  else
    return expr

/-- The last branch of {lit}`parse_stmt`: an expression statement. -/
def parseExprStmt (parseExpr : Parse (Option Node)) : Parse (Option Node) := do
  let expr ← parseExpr
  match expr with
  | none => return none
  | some expr =>
      let lhs ← parseStmtAssign parseExpr expr
      consume .semicolon .expectSemicolon
      return some (.exprStmt none lhs)

/-- {lit}`parse_stmt`. -/
def parseStmtBody (parseExpr parseStmt parseBlock : Parse (Option Node)) :
    Parse (Option Node) := do
  Prog.mark (.enter .stmt)
  if ← matchKind .kwIf then
    parseIf parseExpr parseStmt
  else if ← matchKind .kwWhile then
    parseWhile parseExpr parseStmt
  else if ← matchKind .kwReturn then
    parseReturn parseExpr
  else if ← matchKind .kwBreak then
    consume .semicolon .expectSemicolon
    return some (.breakStmt none)
  else if ← matchKind .kwContinue then
    consume .semicolon .expectSemicolon
    return some (.continueStmt none)
  else if ← checkKind .lBrace then
    parseBlock
  else
    parseExprStmt parseExpr

/-! ## The recursion -/

mutual

def parseBlock : Nat → Parse (Option Node)
  | 0 => Prog.timeout
  | n + 1 => parseBlockBody (parseDecl n) (parseStmt n) n

def parseStmt : Nat → Parse (Option Node)
  | 0 => Prog.timeout
  | n + 1 => parseStmtBody (parseExpr n) (parseStmt n) (parseBlock n)

end

end Parser

end Cact
