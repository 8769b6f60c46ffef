import Cact.Ast

/-!
# The grammar

The language of the parser, as syntax trees and the terminal symbols they stand for.  A
tree is a derivation of the grammar

    CompUnit  = {Item} EOF
    Item      = [const] Type IDENT ( '(' [Param {',' Param}] ')' '{' {BlockItem} '}'
                                   | DeclTail )
    DeclTail  = Dims [= Init] {',' IDENT Dims [= Init]} ';'
    Dims      = {'[' INT ']'}
    Init      = Expr | List
    List      = '{' [Elem {',' Elem}] '}'
    Elem      = List | Assign
    Param     = Type IDENT ['[' [INT] ']' Dims]
    BlockItem = [const] Type IDENT DeclTail | Stmt
    Stmt      = if '(' Expr ')' Stmt [else Stmt] | while '(' Expr ')' Stmt
              | return [Expr] ';' | break ';' | continue ';' | '{' {BlockItem} '}'
              | Expr ['=' Expr] ';'
    Assign    = Expr {'=' Expr}

where an initializer is mandatory after {lit}`const` and Expr is built from prefix
operators and primaries by left-associative operators of six levels.

Main results:

- Definitions {lit}`Expr.toks`, {lit}`Stmt.toks`, {lit}`Item.toks`: the terminal symbols
  of a tree.
- Definitions {lit}`Expr.WellFormed`, {lit}`Stmt.WellFormed`, {lit}`Item.WellFormed`: the
  trees that follow the levels of the operators and the rule for constants.
- Definition {lit}`Derives`: the language.
-/

namespace Cact

namespace Grammar

/-! ## Terminal symbols -/

/-- A terminal symbol: a token without its place in the file. -/
inductive Terminal where
  | ident (name : Symbol)
  | litInt (val : Int32)
  | litFloat (val : BitVec 32)
  | litDouble (val : BitVec 64)
  | fixed (kind : TokenKind)
deriving DecidableEq, Repr

/-- The token kind of a terminal symbol. -/
@[simp]
def Terminal.kind : Terminal → TokenKind
  | ident _ => .ident
  | litInt _ => .litInt
  | litFloat _ => .litFloat
  | litDouble _ => .litDouble
  | fixed kind => kind

/-- The types a declaration can begin with. -/
inductive BaseTy where
  | int
  | float
  | double
  | bool
  | void
deriving DecidableEq, Repr

/-- The keyword of a type. -/
def BaseTy.kind : BaseTy → TokenKind
  | int => .kwInt
  | float => .kwFloat
  | double => .kwDouble
  | bool => .kwBool
  | void => .kwVoid

/-- The type a keyword names. -/
def BaseTy.obj : BaseTy → ObjTy
  | int => .int
  | float => .float
  | double => .double
  | bool => .bool
  | void => .void

/-- The prefix operators. -/
inductive UnOp where
  | plus
  | minus
  | not
deriving DecidableEq, Repr

/-- The token of a unary operator. -/
def UnOp.kind : UnOp → TokenKind
  | plus => .plus
  | minus => .minus
  | not => .logNot

/-- The token of a binary operator. -/
def opKind : BinOp → TokenKind
  | .add => .plus
  | .sub => .minus
  | .mul => .star
  | .div => .slash
  | .mod => .percent
  | .eq => .eq
  | .ne => .neq
  | .lt => .lt
  | .le => .le
  | .gt => .gt
  | .ge => .ge
  | .logAnd => .logAnd
  | .logOr => .logOr

/-- The six levels of the binary operators. -/
def opLevel : BinOp → Int
  | .mul | .div | .mod => 10
  | .add | .sub => 9
  | .lt | .le | .gt | .ge => 8
  | .eq | .ne => 7
  | .logAnd => 5
  | .logOr => 4

/-- The levels of operators are those of {lit}`get_prec`. -/
theorem opLevel_range (op : BinOp) : 4 ≤ opLevel op ∧ opLevel op ≤ 10 := by
  cases op <;> simp [opLevel]

/-- Texts with commas between them. -/
def separated : List (List Terminal) → List Terminal
  | [] => []
  | [t] => t
  | t :: ts => t ++ .fixed .comma :: separated ts

/-- A comma stands behind each text but the last. -/
theorem separated_concat (ts : List (List Terminal)) (t : List Terminal) :
    separated (ts ++ [t]) = (ts.flatMap fun u => u ++ [.fixed .comma]) ++ t := by
  induction ts with
  | nil => simp [separated]
  | cons u ts ih =>
      obtain ⟨v, vs, hvs⟩ := List.exists_cons_of_ne_nil (List.append_ne_nil_of_right_ne_nil ts
        (List.cons_ne_nil t []))
      rw [List.cons_append, hvs, separated, ← hvs, ih]
      · simp
      · simp

/-! ## Expressions -/

/-- Expressions.  An assignment is one as an argument and as an element of a brace list
only. -/
inductive Expr where
  | int (val : Int32)
  | float (val : BitVec 32)
  | double (val : BitVec 64)
  | bool (val : Bool)
  | paren (inner : Expr)
  | var (name : Symbol)
  | index (base sub : Expr)
  | call (name : Symbol) (args : List Expr)
  | unary (op : UnOp) (operand : Expr)
  | binary (op : BinOp) (lhs rhs : Expr)
  | assign (lhs rhs : Expr)

/-- The level of an expression: its operator's, with assignments below and prefix
operators and primaries above all of these. -/
def Expr.level : Expr → Int
  | .assign _ _ => -1
  | .binary op _ _ => opLevel op
  | .unary _ _ => 11
  | _ => 12

/-- Names and their subscripts. -/
def Expr.isDesignator : Expr → Bool
  | .var _ | .index _ _ => true
  | _ => false

mutual

/-- The terminal symbols of an expression. -/
def Expr.toks : Expr → List Terminal
  | .int val => [.litInt val]
  | .float val => [.litFloat val]
  | .double val => [.litDouble val]
  | .bool true => [.fixed .kwTrue]
  | .bool false => [.fixed .kwFalse]
  | .paren inner => .fixed .lParen :: (inner.toks ++ [.fixed .rParen])
  | .var name => [.ident name]
  | .index base sub => base.toks ++ .fixed .lBracket :: (sub.toks ++ [.fixed .rBracket])
  | .call name args =>
      .ident name :: .fixed .lParen :: (separated (argToks args) ++ [.fixed .rParen])
  | .unary op operand => .fixed op.kind :: operand.toks
  | .binary op lhs rhs => lhs.toks ++ .fixed (opKind op) :: rhs.toks
  | .assign lhs rhs => lhs.toks ++ .fixed .assign :: rhs.toks

/-- The texts of the arguments of a call. -/
def argToks : List Expr → List (List Terminal)
  | [] => []
  | e :: es => e.toks :: argToks es

end

mutual

/-- The levels of the operators are respected: on the left of a binary operator stands
its own level or a higher one, on the right a higher one. -/
def Expr.WellFormed : Expr → Prop
  | .int _ | .float _ | .double _ | .bool _ | .var _ => True
  | .paren inner => inner.WellFormed ∧ 0 ≤ inner.level
  | .index base sub => base.WellFormed ∧ base.isDesignator = true ∧ sub.WellFormed ∧ 0 ≤ sub.level
  | .call _ args => argsWellFormed args
  | .unary _ operand => operand.WellFormed ∧ 11 ≤ operand.level
  | .binary op lhs rhs =>
      lhs.WellFormed ∧ rhs.WellFormed ∧ opLevel op ≤ lhs.level ∧ opLevel op < rhs.level
  | .assign lhs rhs => lhs.WellFormed ∧ rhs.WellFormed ∧ 0 ≤ lhs.level

/-- Each argument is well formed. -/
def argsWellFormed : List Expr → Prop
  | [] => True
  | e :: es => e.WellFormed ∧ argsWellFormed es

end

/-- The recursion over arguments is a map. -/
theorem argToks_eq (es : List Expr) : argToks es = es.map Expr.toks := by
  induction es with
  | nil => rfl
  | cons e es ih => simp [argToks, ih]

/-- Arguments are well formed if each one is. -/
theorem argsWellFormed_iff (es : List Expr) :
    argsWellFormed es ↔ ∀ e ∈ es, e.WellFormed := by
  induction es with
  | nil => simp [argsWellFormed]
  | cons e es ih => simp [argsWellFormed, ih]

/-- Well-formed, and no assignment. -/
def Expr.Operand (e : Expr) : Prop := e.WellFormed ∧ 0 ≤ e.level

/-! ## Declarations -/

/-- Elements of brace lists. -/
inductive Elem where
  | value (e : Expr)
  | list (es : List Elem)

mutual

/-- The text of an element of a brace list. -/
def Elem.toks : Elem → List Terminal
  | .value e => e.toks
  | .list es => .fixed .lBrace :: (separated (elemToks es) ++ [.fixed .rBrace])

/-- The texts of the elements. -/
def elemToks : List Elem → List (List Terminal)
  | [] => []
  | e :: es => e.toks :: elemToks es

end

mutual

/-- An element is well formed if what it holds is. -/
def Elem.WellFormed : Elem → Prop
  | .value e => e.WellFormed
  | .list es => elemsWellFormed es

/-- Each element is well formed. -/
def elemsWellFormed : List Elem → Prop
  | [] => True
  | e :: es => e.WellFormed ∧ elemsWellFormed es

end

/-- The recursion over elements is a map. -/
theorem elemToks_eq (es : List Elem) : elemToks es = es.map Elem.toks := by
  induction es with
  | nil => rfl
  | cons e es ih => simp [elemToks, ih]

/-- Elements are well formed if each one is. -/
theorem elemsWellFormed_iff (es : List Elem) : elemsWellFormed es ↔ ∀ e ∈ es, e.WellFormed := by
  induction es with
  | nil => simp [elemsWellFormed]
  | cons e es ih => simp [elemsWellFormed, ih]

/-- Initializers. -/
inductive Init where
  | expr (e : Expr)
  | list (es : List Elem)

/-- The text of an initializer, behind the equals sign. -/
def Init.toks : Init → List Terminal
  | .expr e => e.toks
  | .list es => (Elem.list es).toks

/-- An initializer is an expression or a brace list; an assignment is neither. -/
def Init.WellFormed : Init → Prop
  | .expr e => e.Operand
  | .list es => elemsWellFormed es

/-- One dimension of an array. -/
def dimToks (len : Int32) : List Terminal :=
  [.fixed .lBracket, .litInt len, .fixed .rBracket]

/-- A declared variable. -/
structure Declarator where
  name : Symbol
  dims : List Int32
  init : Option Init

/-- The initializer of a declarator, with its equals sign. -/
def initToks : Option Init → List Terminal
  | none => []
  | some init => .fixed .assign :: init.toks

/-- A declarator after its name. -/
def Declarator.tailToks (d : Declarator) : List Terminal :=
  d.dims.flatMap dimToks ++ initToks d.init

/-- The text of a declarator, with its name. -/
def Declarator.toks (d : Declarator) : List Terminal := .ident d.name :: d.tailToks

/-- The keyword of a constant. -/
def constToks : Bool → List Terminal
  | true => [.fixed .kwConst]
  | false => []

/-- A declaration of one or more variables. -/
structure Decl where
  isConst : Bool
  ty : BaseTy
  first : Declarator
  more : List Declarator

/-- All declarators of a declaration. -/
def Decl.declarators (d : Decl) : List Declarator := d.first :: d.more

/-- The text of a declaration. -/
def Decl.toks (d : Decl) : List Terminal :=
  constToks d.isConst ++ .fixed d.ty.kind ::
    (separated (d.declarators.map Declarator.toks) ++ [.fixed .semicolon])

/-- Initializers are well-formed, and present in constants. -/
def Declarator.WellFormed (isConst : Bool) (d : Declarator) : Prop :=
  (∀ init, d.init = some init → init.WellFormed) ∧ (isConst = true → d.init.isSome = true)

/-- A declaration is well formed if its declarators are. -/
def Decl.WellFormed (d : Decl) : Prop :=
  ∀ declarator ∈ d.declarators, declarator.WellFormed d.isConst

/-- The dimensions of an array parameter; the first one may be missing. -/
structure ParamDims where
  first : Option Int32
  more : List Int32

/-- The text of the dimensions of a parameter, the first of which may be open. -/
def ParamDims.toks (d : ParamDims) : List Terminal :=
  .fixed .lBracket :: ((d.first.map Terminal.litInt).toList ++
    .fixed .rBracket :: d.more.flatMap dimToks)

/-- A parameter of a function. -/
structure Param where
  ty : BaseTy
  name : Symbol
  dims : Option ParamDims

/-- The text of a parameter. -/
def Param.toks (p : Param) : List Terminal :=
  .fixed p.ty.kind :: .ident p.name :: (p.dims.map ParamDims.toks).getD []

/-! ## Statements -/

mutual

/-- Statements. -/
inductive Stmt where
  | ifThen (cond : Expr) (body : Stmt)
  | ifElse (cond : Expr) (body alt : Stmt)
  | while (cond : Expr) (body : Stmt)
  | ret (value : Option Expr)
  | break
  | continue
  | block (items : List BlockItem)
  | expr (e : Expr)
  | assign (lhs rhs : Expr)

/-- Items of a block. -/
inductive BlockItem where
  | decl (d : Decl)
  | stmt (s : Stmt)

end

/-- A condition in its parentheses. -/
def condToks (cond : Expr) : List Terminal :=
  .fixed .lParen :: (cond.toks ++ [.fixed .rParen])

mutual

/-- The text of a statement. -/
def Stmt.toks : Stmt → List Terminal
  | .ifThen cond body => .fixed .kwIf :: (condToks cond ++ body.toks)
  | .ifElse cond body alt =>
      .fixed .kwIf :: (condToks cond ++ (body.toks ++ .fixed .kwElse :: alt.toks))
  | .while cond body => .fixed .kwWhile :: (condToks cond ++ body.toks)
  | .ret value => .fixed .kwReturn :: ((value.map Expr.toks).getD [] ++ [.fixed .semicolon])
  | .break => [.fixed .kwBreak, .fixed .semicolon]
  | .continue => [.fixed .kwContinue, .fixed .semicolon]
  | .block items => .fixed .lBrace :: (blockToks items ++ [.fixed .rBrace])
  | .expr e => e.toks ++ [.fixed .semicolon]
  | .assign lhs rhs => lhs.toks ++ .fixed .assign :: (rhs.toks ++ [.fixed .semicolon])

/-- The text of an item of a block. -/
def BlockItem.toks : BlockItem → List Terminal
  | .decl d => d.toks
  | .stmt s => s.toks

/-- The text inside a block. -/
def blockToks : List BlockItem → List Terminal
  | [] => []
  | item :: items => item.toks ++ blockToks items

end

mutual

/-- A statement is well formed if its parts are. -/
def Stmt.WellFormed : Stmt → Prop
  | .ifThen cond body => cond.Operand ∧ body.WellFormed
  | .ifElse cond body alt => cond.Operand ∧ body.WellFormed ∧ alt.WellFormed
  | .while cond body => cond.Operand ∧ body.WellFormed
  | .ret value => ∀ e, value = some e → e.Operand
  | .break | .continue => True
  | .block items => blockWellFormed items
  | .expr e => e.Operand
  | .assign lhs rhs => lhs.Operand ∧ rhs.Operand

/-- So is an item of a block. -/
def BlockItem.WellFormed : BlockItem → Prop
  | .decl d => d.WellFormed
  | .stmt s => s.WellFormed

/-- So is a block. -/
def blockWellFormed : List BlockItem → Prop
  | [] => True
  | item :: items => item.WellFormed ∧ blockWellFormed items

end

/-- The recursion over the items of a block is a map. -/
theorem blockToks_eq (items : List BlockItem) : blockToks items = items.flatMap BlockItem.toks := by
  induction items with
  | nil => rfl
  | cons item items ih => simp [blockToks, ih]

/-- A block is well formed if each of its items is. -/
theorem blockWellFormed_iff (items : List BlockItem) :
    blockWellFormed items ↔ ∀ item ∈ items, item.WellFormed := by
  induction items with
  | nil => simp [blockWellFormed]
  | cons item items ih => simp [blockWellFormed, ih]

/-! ## Compilation units -/

/-- A function definition.  The keyword for constants has no effect in front of it. -/
structure Func where
  isConst : Bool
  ty : BaseTy
  name : Symbol
  params : List Param
  body : List BlockItem

/-- The text of a function. -/
def Func.toks (f : Func) : List Terminal :=
  constToks f.isConst ++ .fixed f.ty.kind :: .ident f.name :: .fixed .lParen ::
    (separated (f.params.map Param.toks) ++ .fixed .rParen :: .fixed .lBrace ::
      (blockToks f.body ++ [.fixed .rBrace]))

/-- Top-level items. -/
inductive Item where
  | func (f : Func)
  | decl (d : Decl)

/-- The text of a top-level item. -/
def Item.toks : Item → List Terminal
  | .func f => f.toks
  | .decl d => d.toks

/-- A function is well formed if its body is. -/
def Item.WellFormed : Item → Prop
  | .func f => blockWellFormed f.body
  | .decl d => d.WellFormed

/-- A compilation unit. -/
abbrev CompUnit := List Item

/-- The text of a file. -/
def CompUnit.toks (u : CompUnit) : List Terminal := u.flatMap Item.toks

/-- A file is well formed if each of its items is. -/
def CompUnit.WellFormed (u : CompUnit) : Prop := ∀ item ∈ u, item.WellFormed

/-- The language of the grammar. -/
def Derives (ts : List Terminal) : Prop := ∃ u : CompUnit, u.WellFormed ∧ u.toks = ts

end Grammar

end Cact
