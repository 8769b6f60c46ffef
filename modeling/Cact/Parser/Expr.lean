import Cact.Parser.State

/-!
# Parsing expressions

The expression functions of {lit}`parser.c` with the checks of {lit}`sema.c` they call.
Each function is written over the functions it calls; the recursion among them is tied
at the end, with a budget that every nested call shortens by one.

Main results:

- Definitions {lit}`Parser.parsePrimary`, {lit}`Parser.parseUnary`,
  {lit}`Parser.parseBinary`, {lit}`Parser.parseAssign` and {lit}`Parser.parseExpr`.
-/

open Traced

namespace Cact

namespace Parser

/-! ## Semantic checks -/

/-- {lit}`sema_analyze_binary`, on the node of operator {lit}`op` that records the
token {lit}`tok`.  Both operands are read through their pointers. -/
def semaAnalyzeBinary (op : BinOp) (tok : Token) (lhs rhs : Option Node) :
    Parse Node := do
  Prog.mark .analyzeBinary
  match lhs, rhs with
  | some l, some r =>
      if ← Prog.read fun p => !typeEq p.sema.funcs l.ty r.ty then
        ctxError tok .binaryMismatch
        return .binary op tyVoid l r
      else
        match op with
        | .add | .sub | .mul | .div =>
            if !typeIsArithmetic l.ty then
              ctxError tok .arithmeticOperands
              return .binary op l.ty l r
            else
              return .binary op l.ty l r
        | .mod =>
            if l.ty != tyInt then
              ctxError tok .moduloOperands
              return .binary op tyInt l r
            else
              return .binary op tyInt l r
        | .eq | .ne | .lt | .le | .gt | .ge => return .binary op tyBool l r
        | .logAnd | .logOr =>
            if l.ty != tyBool then
              ctxError tok .logicalOperands
              return .binary op tyBool l r
            else
              return .binary op tyBool l r
  | _, _ => Prog.fault

/-- The constness check of {lit}`sema_analyze_assign`. -/
def checkAssignTarget (tok : Token) (l : Node) : Parse Unit := do
  if l.isConstVar then
    ctxError tok .assignConst
  else
    return ()

/-- {lit}`sema_analyze_assign`. -/
def semaAnalyzeAssign (tok : Token) (lhs rhs : Option Node) : Parse Node := do
  Prog.mark .analyzeAssign
  match lhs, rhs with
  | some l, some r =>
      checkAssignTarget tok l
      if ← Prog.read fun p => !typeEq p.sema.funcs l.ty r.ty then
        ctxError tok .assignMismatch
        return .assign l.ty l r
      else
        return .assign l.ty l r
  | _, _ => Prog.fault

/-! ## Operators -/

/-- {lit}`get_prec`. -/
def getPrec : TokenKind → Int
  | .star | .slash | .percent => 10
  | .plus | .minus => 9
  | .lt | .le | .gt | .ge => 8
  | .eq | .neq => 7
  | .logAnd => 5
  | .logOr => 4
  | _ => -1

/-- {lit}`get_binary_kind`. -/
def getBinaryKind : TokenKind → BinOp
  | .plus => .add
  | .minus => .sub
  | .star => .mul
  | .slash => .div
  | .percent => .mod
  | .eq => .eq
  | .neq => .ne
  | .lt => .lt
  | .le => .le
  | .gt => .gt
  | .ge => .ge
  | .logAnd => .logAnd
  | .logOr => .logOr
  | _ => .add

/-! ## The bodies of the expression functions -/

/-- The argument loop of {lit}`parse_primary`. -/
def argIter (parseAssign : Parse (Option Node)) (args : List (Option Node)) :
    Parse (Iter (List (Option Node)) (List (Option Node))) := do
  let arg ← parseAssign
  if ← matchKind .comma then
    return .again (args ++ [arg])
  else
    return .leave (args ++ [arg])

/-- The arguments of a call, up to the closing parenthesis. -/
def parseArgs (parseAssign : Parse (Option Node)) (n : Nat) :
    Parse (List (Option Node)) := do
  if ← checkKind .rParen then
    return []
  else
    loop (argIter parseAssign) n []

/-- {lit}`parser_error` for a lookup that found nothing. -/
def parserErrorIfNull (sym : Option SemaSymbol) (m : Msg) : Parse Unit :=
  match sym with
  | none => parserError m
  | some _ => return ()

/-- The type {lit}`parse_primary` gives a call.  It reads the type of the symbol through
its pointer. -/
def callTy (name : Symbol) (sym : Option SemaSymbol) : Parse (Option Ty) := do
  match sym with
  | none => return tyInt
  | some sym =>
      Prog.mark (.callee name)
      match sym.ty with
      | none => Prog.fault
      | some ty => Prog.read fun p => p.sema.callTy ty

/-- The branch of {lit}`parse_primary` for a call: the name has been read and the
current token is the opening parenthesis. -/
def parseCall (parseAssign : Parse (Option Node)) (n : Nat) (name : Symbol) :
    Parse (Option Node) := do
  consume .lParen .emptyText
  let sym ← semaLookup name
  parserErrorIfNull sym .undefinedFunction
  let args ← parseArgs parseAssign n
  consume .rParen .expectRParenAfterArgs
  let ty ← callTy name sym
  return some (.funcCall ty name args)

/-- The subscript loop of {lit}`parse_primary`. -/
def subscriptIter (parseExpr : Parse (Option Node)) (curr : Node) :
    Parse (Iter Node (Option Node)) := do
  if ← matchKind .lBracket then
    let index ← parseExpr
    consume .rBracket .expectRBracket
    match curr.ty with
    | some (.obj (.array base _)) =>
        return .again (.arrayAccess (some (.obj base)) curr index)
    | _ =>
        parserError .notAnArray
        return .again (.arrayAccess tyInt curr index)
  else
    return .leave (some curr)

/-- The branch of {lit}`parse_primary` for a variable and its subscripts. -/
def parseVariable (parseExpr : Parse (Option Node)) (n : Nat) (name : Symbol) :
    Parse (Option Node) := do
  let sym ← semaLookup name
  parserErrorIfNull sym .undefinedVariable
  let ty := match sym with
    | some sym => sym.ty
    | none => tyInt
  loop (subscriptIter parseExpr) n (.var ty sym)

/-- {lit}`parse_primary`. -/
def parsePrimaryBody (parseExpr parseAssign : Parse (Option Node)) (n : Nat) :
    Parse (Option Node) := do
  Prog.mark (.enter .primary)
  if ← matchKind .litInt then
    let prev ← Prog.read Parser.prev
    return some (.litInt tyInt prev.value.asInt)
  else if ← matchKind .litFloat then
    let prev ← Prog.read Parser.prev
    return some (.litFloat tyFloat prev.value.asFloat)
  else if ← matchKind .litDouble then
    let prev ← Prog.read Parser.prev
    return some (.litDouble tyDouble prev.value.asDouble)
  else if ← matchKind .kwTrue then
    return some (.litBool tyBool true)
  else if ← matchKind .kwFalse then
    return some (.litBool tyBool false)
  else if ← matchKind .lParen then
    let expr ← parseExpr
    consume .rParen .expectRParenAfterExpr
    return expr
  else if ← matchKind .ident then
    let prev ← Prog.read Parser.prev
    if ← checkKind .lParen then
      parseCall parseAssign n prev.value.name
    else
      parseVariable parseExpr n prev.value.name
  else
    parserError .expectExpression
    return none

/-- {lit}`parse_unary`. -/
def parseUnaryBody (parseUnary parsePrimary : Parse (Option Node)) :
    Parse (Option Node) := do
  Prog.mark (.enter .unary)
  if ← matchKind .plus then
    parseUnary
  else if ← matchKind .minus then
    let lhs ← parseUnary
    return some (.neg (lhs.bind Node.ty) lhs)
  else if ← matchKind .logNot then
    let lhs ← parseUnary
    return some (.logNot tyBool lhs)
  else
    parsePrimary

/-- The loop of {lit}`parse_binary`. -/
def binaryIter (parseBinary : Int → Parse (Option Node)) (prec : Int)
    (lhs : Option Node) : Parse (Iter (Option Node) (Option Node)) := do
  let opToken ← Prog.read fun p => p.curr.kind
  if getPrec opToken < prec then
    return .leave lhs
  else
    advance
    Prog.mark .operand
    let rhs ← parseBinary (getPrec opToken + 1)
    let tok ← newNode
    let node ← semaAnalyzeBinary (getBinaryKind opToken) tok lhs rhs
    return .again (some node)

/-- {lit}`parse_binary`. -/
def parseBinaryBody (parseUnary : Parse (Option Node))
    (parseBinary : Int → Parse (Option Node)) (n : Nat) (prec : Int) :
    Parse (Option Node) := do
  Prog.mark (.enter (.binary prec))
  let lhs ← parseUnary
  loop (binaryIter parseBinary prec) n lhs

/-- {lit}`parse_assign`. -/
def parseAssignBody (parseBinary : Int → Parse (Option Node))
    (parseAssign : Parse (Option Node)) : Parse (Option Node) := do
  Prog.mark (.enter .assign)
  let lhs ← parseBinary 0
  if ← matchKind .assign then
    Prog.mark .operand
    let rhs ← parseAssign
    let tok ← newNode
    let node ← semaAnalyzeAssign tok lhs rhs
    return some node
  else
    return lhs

/-- {lit}`parse_expr`. -/
def parseExprBody (parseBinary : Int → Parse (Option Node)) : Parse (Option Node) := do
  Prog.mark (.enter .expr)
  parseBinary 0

/-! ## The recursion -/

mutual

def parsePrimary : Nat → Parse (Option Node)
  | 0 => Prog.timeout
  | n + 1 => parsePrimaryBody (parseExpr n) (parseAssign n) n

def parseUnary : Nat → Parse (Option Node)
  | 0 => Prog.timeout
  | n + 1 => parseUnaryBody (parseUnary n) (parsePrimary n)

def parseBinary : Nat → Int → Parse (Option Node)
  | 0, _ => Prog.timeout
  | n + 1, prec => parseBinaryBody (parseUnary n) (parseBinary n) n prec

def parseAssign : Nat → Parse (Option Node)
  | 0 => Prog.timeout
  | n + 1 => parseAssignBody (parseBinary n) (parseAssign n)

def parseExpr : Nat → Parse (Option Node)
  | 0 => Prog.timeout
  | n + 1 => parseExprBody (parseBinary n)

end

end Parser

end Cact
