import Cact.Types

/-!
# Syntax tree nodes

The nodes of {lit}`ast.h` as the parser leaves them.  A field that the parser may
leave null, or may leave as it found it in fresh memory, has an option type; the
operands of a binary operator and of an assignment are read by the checks that build
the node, so a finished node has both.  The token copied into every node only tells a
diagnostic where to point and is handed to the checks directly.
-/

namespace Cact

/-- The record of a declared name.  The address tells symbols apart. -/
structure SemaSymbol where
  addr : Nat
  name : Symbol
  ty : Option Ty
  isConst : Bool
  isGlobal : Bool
  stackOffset : Int32
deriving DecidableEq, Repr

/-- The binary operators, each its own node kind. -/
inductive BinOp where
  | add
  | sub
  | mul
  | div
  | mod
  | eq
  | ne
  | lt
  | le
  | gt
  | ge
  | logAnd
  | logOr
deriving DecidableEq, Repr

/-- A node that the parser has built. -/
inductive Node where
  | litInt (ty : Option Ty) (val : Int32)
  | litFloat (ty : Option Ty) (val : BitVec 32)
  | litDouble (ty : Option Ty) (val : BitVec 64)
  | litBool (ty : Option Ty) (val : Bool)
  | initList (ty : Option Ty) (inits : List (Option Node))
  | var (ty : Option Ty) (sym : Option SemaSymbol)
  | funcCall (ty : Option Ty) (funcName : Symbol) (args : List (Option Node))
  | arrayAccess (ty : Option Ty) (lhs : Node) (rhs : Option Node)
  | neg (ty : Option Ty) (lhs : Option Node)
  | logNot (ty : Option Ty) (lhs : Option Node)
  | binary (op : BinOp) (ty : Option Ty) (lhs rhs : Node)
  | assign (ty : Option Ty) (lhs rhs : Node)
  | block (ty : Option Ty) (stmts : List Node)
  | ifStmt (ty : Option Ty) (cond thenBranch elseBranch : Option Node)
  | whileStmt (ty : Option Ty) (cond body : Option Node)
  | retStmt (ty : Option Ty) (lhs : Option Node)
  | exprStmt (ty : Option Ty) (lhs : Node)
  | varDecl (ty : Option Ty) (sym : Option SemaSymbol) (init : Option Node)
  | breakStmt (ty : Option Ty)
  | continueStmt (ty : Option Ty)

/-- The type stored in a node. -/
def Node.ty : Node → Option Ty
  | litInt ty _ | litFloat ty _ | litDouble ty _ | litBool ty _ | initList ty _
  | var ty _ | funcCall ty _ _ | arrayAccess ty _ _ | neg ty _ | logNot ty _
  | binary _ ty _ _ | assign ty _ _ | block ty _ | ifStmt ty _ _ _ | whileStmt ty _ _
  | retStmt ty _ | exprStmt ty _ | varDecl ty _ _ | breakStmt ty | continueStmt ty => ty

/-- Whether a node is a variable whose symbol is declared {lit}`const`. -/
def Node.isConstVar : Node → Bool
  | var _ (some sym) => sym.isConst
  | _ => false

end Cact
