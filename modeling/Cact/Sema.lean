import Cact.Ast

/-!
# Scopes and symbols

The state of the semantic analysis: a stack of scopes, innermost first, the return
type of the function being parsed, and the table of function types.  Scopes and
symbols are allocated from counters, so an address identifies each of them.

Main results:

- Definitions {lit}`Sema.enter`, {lit}`Sema.leave`, {lit}`Sema.lookup` and
  {lit}`Sema.define`: the operations on the scope stack.
-/

namespace Cact

/-- A finite map from names to symbols. -/
abbrev SymbolMap := List (Symbol × SemaSymbol)

/-- {lit}`map_get`. -/
def SymbolMap.get (m : SymbolMap) (name : Symbol) : Option SemaSymbol :=
  List.lookup name m

/-- A scope; its parent is the next one on the stack. -/
structure Scope where
  addr : Nat
  symbols : SymbolMap
deriving DecidableEq, Repr

/-- The state of the semantic analysis. -/
structure Sema where
  scopes : List Scope
  currFuncRet : Option ObjTy
  funcs : List FuncTy
  nextSym : Nat
  nextScope : Nat
deriving DecidableEq, Repr

namespace Sema

/-- {lit}`sema_init`. -/
def init : Sema := ⟨[], none, [], 0, 0⟩

/-- {lit}`sema_scope_enter`. -/
def enter (s : Sema) : Sema :=
  { s with scopes := ⟨s.nextScope, []⟩ :: s.scopes, nextScope := s.nextScope + 1 }

/-- {lit}`sema_scope_leave`. -/
def leave (s : Sema) : Sema := { s with scopes := s.scopes.tail }

/-- {lit}`sema_lookup`. -/
def lookup (s : Sema) (name : Symbol) : Option SemaSymbol :=
  s.scopes.findSome? fun sc => sc.symbols.get name

/-- Whether the current scope already declares a name. -/
def declared (s : Sema) (name : Symbol) : Bool :=
  match s.scopes with
  | [] => false
  | sc :: _ => (sc.symbols.get name).isSome

/-- The symbol that a definition in the current scope allocates. -/
def newSymbol (s : Sema) (name : Symbol) (ty : Option Ty) (isConst : Bool) :
    SemaSymbol where
  addr := s.nextSym
  name := name
  ty := ty
  isConst := isConst
  isGlobal := s.scopes.tail.isEmpty
  stackOffset := 0

/-- Put a symbol into the current scope. -/
def define (s : Sema) (sym : SemaSymbol) : Sema :=
  match s.scopes with
  | [] => s
  | sc :: parents =>
      { s with
        scopes := { sc with symbols := (sym.name, sym) :: sc.symbols } :: parents
        nextSym := s.nextSym + 1 }

/-- {lit}`type_func_new`: a function type with no parameters yet. -/
def newFunc (s : Sema) (ret : ObjTy) : Sema :=
  { s with funcs := s.funcs ++ [⟨ret, []⟩] }

/-- Append a parameter type to a function type. -/
def pushParam (s : Sema) (id : Nat) (ty : Option ObjTy) : Sema :=
  { s with funcs := s.funcs.modify id fun f => { f with params := f.params ++ [ty] } }

/-- The type of a call of a symbol with type {lit}`ty`: the return type of a function
type and {lit}`int` for anything else. -/
def callTy (s : Sema) : Ty → Option Ty
  | .func id => s.funcs[id]?.map fun f => .obj f.ret
  | .obj _ => tyInt

end Sema

end Cact
