import Cact.Grammar.Syntax
import Cact.Parser.TopLevel

/-!
# The semantic analysis of syntax trees

What the parser builds for a syntax tree when it reports nothing: the nodes and the
state of the analysis afterwards.  Every function below yields nothing as soon as one of
the semantic checks would report an error.  The functions are given the contents of
fresh memory, because some nodes keep what it held in the fields the parser leaves
unwritten.

Main results:

- Definitions {lit}`Expr.node`, {lit}`Decl.build`, {lit}`Stmt.build`, {lit}`Item.build`
  and {lit}`CompUnit.build`: one for each part of the grammar.
- Theorems {lit}`Expr.node_index`, {lit}`Stmt.build_ifThen` and so on: what a node is built
  from, one for each kind of node.
- Theorems {lit}`Regular.define` and {lit}`Regular.enter`: the scope stack never holds a
  symbol without a type.
-/

namespace Cact

namespace Grammar

/-! ## Checks -/

/-- The operator node, if its operands pass the checks. -/
def binaryNode (funcs : List FuncTy) (op : BinOp) (l r : Node) : Option Node :=
  if typeEq funcs l.ty r.ty = true then
    match op with
    | .add | .sub | .mul | .div =>
        if typeIsArithmetic l.ty = true then some (.binary op l.ty l r) else none
    | .mod => if l.ty = tyInt then some (.binary op tyInt l r) else none
    | .eq | .ne | .lt | .le | .gt | .ge => some (.binary op tyBool l r)
    | .logAnd | .logOr => if l.ty = tyBool then some (.binary op tyBool l r) else none
  else none

/-- The assignment node, if its sides pass the checks. -/
def assignNode (funcs : List FuncTy) (l r : Node) : Option Node :=
  if l.isConstVar = true then none
  else if typeEq funcs l.ty r.ty = true then some (.assign l.ty l r)
  else none

/-- The subscript node, if its base is an array. -/
def indexNode (l r : Node) : Option Node :=
  match l.ty with
  | some (.obj (.array base _)) => some (.arrayAccess (some (.obj base)) l (some r))
  | _ => none

/-- The return node, if the value fits the function. -/
def returnNode (σ : Sema) (lhs : Option Node) : Option Node :=
  if σ.currFuncRet.map Ty.obj = tyVoid then
    if Parser.actualTy lhs = tyVoid then some (.retStmt tyVoid lhs) else none
  else if Parser.actualTy lhs = tyVoid then none
  else if typeEq σ.funcs (σ.currFuncRet.map Ty.obj) (Parser.actualTy lhs) = true then
    some (.retStmt tyVoid lhs)
  else none

/-- A return statement that is accepted gets the node of its operand. -/
theorem returnNode_eq {σ : Sema} {lhs : Option Node} {n : Node}
    (h : returnNode σ lhs = some n) : n = .retStmt tyVoid lhs := by
  unfold returnNode at h
  split at h
  · split at h
    · exact (Option.some.inj h).symm
    · cases h
  · split at h
    · cases h
    · split at h
      · exact (Option.some.inj h).symm
      · cases h

/-- A subscript that is accepted goes into an array. -/
theorem indexNode_cases {l r n : Node} (h : indexNode l r = some n) :
    ∃ base len, l.ty = some (.obj (.array base len)) ∧
      n = .arrayAccess (some (.obj base)) l (some r) := by
  unfold indexNode at h
  split at h
  · rename_i base len hty
    exact ⟨base, len, hty, (Option.some.inj h).symm⟩
  · cases h

/-! ## Expressions -/

mutual

/-- The node of an expression. -/
def Expr.node (σ : Sema) : Expr → Option Node
  | .int val => some (.litInt tyInt val)
  | .float val => some (.litFloat tyFloat val)
  | .double val => some (.litDouble tyDouble val)
  | .bool val => some (.litBool tyBool val)
  | .paren inner => inner.node σ
  | .var name => do
      let sym ← σ.lookup name
      some (.var sym.ty (some sym))
  | .index base sub => do
      let l ← base.node σ
      let r ← sub.node σ
      indexNode l r
  | .call name args => do
      let sym ← σ.lookup name
      let nodes ← argNodes σ args
      let ty ← sym.ty
      some (.funcCall (σ.callTy ty) name (nodes.map some))
  | .unary .plus operand => operand.node σ
  | .unary .minus operand => do
      let n ← operand.node σ
      some (.neg n.ty (some n))
  | .unary .not operand => do
      let n ← operand.node σ
      some (.logNot tyBool (some n))
  | .binary op lhs rhs => do
      let l ← lhs.node σ
      let r ← rhs.node σ
      binaryNode σ.funcs op l r
  | .assign lhs rhs => do
      let l ← lhs.node σ
      let r ← rhs.node σ
      assignNode σ.funcs l r

/-- The nodes of the arguments of a call. -/
def argNodes (σ : Sema) : List Expr → Option (List Node)
  | [] => some []
  | e :: es => do
      let n ← e.node σ
      let ns ← argNodes σ es
      some (n :: ns)

end

mutual

/-- The node of an element of a brace list. -/
def Elem.node (σ : Sema) : Elem → Option Node
  | .value e => e.node σ
  | .list es => do
      let ns ← elemNodes σ es
      some (.initList none (ns.map some))

/-- The nodes of the elements of a brace list. -/
def elemNodes (σ : Sema) : List Elem → Option (List Node)
  | [] => some []
  | e :: es => do
      let n ← e.node σ
      let ns ← elemNodes σ es
      some (n :: ns)

end

/-! ## Declarations -/

/-- What the analysis has reached: its state, and the number of nodes with a field that
fresh memory fills. -/
structure Analysis where
  sema : Sema
  allocs : Nat

/-- A definition in the current scope, if the scope does not have the name yet. -/
def defineSym (σ : Sema) (name : Symbol) (ty : Ty) (isConst : Bool) :
    Option (SemaSymbol × Sema) :=
  if σ.declared name = true then none
  else some (σ.newSymbol name (some ty) isConst, σ.define (σ.newSymbol name (some ty) isConst))

/-- The type of an array: every dimension is put around what stands before it. -/
def arrayTy (base : ObjTy) (dims : List Int32) : ObjTy := dims.foldl ObjTy.array base

/-- The initializer expression of a variable of the given type, if it fits. -/
def initExprNode (σ : Sema) (ty : ObjTy) (e : Expr) : Option Node := do
  let n ← e.node σ
  if typeEq σ.funcs (some (.obj ty)) n.ty = true then some n else none

/-- The initializer in a declaration node: what the field held before, if there is none. -/
def initNode (σ : Sema) (ty : ObjTy) (field : Option Node) : Option Init → Option (Option Node)
  | none => some field
  | some (.expr e) => (initExprNode σ ty e).map some
  | some (.list es) => ((Elem.list es).node σ).map some

/-- The node of a declarator. -/
def Declarator.build (fresh : Nat → Option Node) (base : ObjTy) (isConst : Bool)
    (d : Declarator) (a : Analysis) : Option (Node × Analysis) := do
  let (sym, σ) ← defineSym a.sema d.name (.obj (arrayTy base d.dims)) isConst
  let init ← initNode σ (arrayTy base d.dims) (fresh a.allocs) d.init
  some (.varDecl (some (.obj (arrayTy base d.dims))) (some sym) init, ⟨σ, a.allocs + 1⟩)

/-- The nodes of the declarators of a declaration, each analysed behind those in front of it. -/
def declaratorsBuild (fresh : Nat → Option Node) (base : ObjTy) (isConst : Bool) :
    List Declarator → Analysis → Option (List Node × Analysis)
  | [], a => some ([], a)
  | d :: ds, a => do
      let (n, a) ← d.build fresh base isConst a
      let (ns, a) ← declaratorsBuild fresh base isConst ds a
      some (n :: ns, a)

/-- The node of a declaration. -/
def Decl.build (fresh : Nat → Option Node) (d : Decl) (a : Analysis) :
    Option (Node × Analysis) := do
  let (ns, a) ← declaratorsBuild fresh d.ty.obj d.isConst d.declarators a
  some (.block none ns, a)

/-! ## Statements -/

mutual

/-- The node of a statement. -/
def Stmt.build (fresh : Nat → Option Node) : Stmt → Analysis → Option (Node × Analysis)
  | .ifThen cond body, a => do
      let c ← cond.node a.sema
      let (b, a') ← body.build fresh ⟨a.sema, a.allocs + 1⟩
      some (.ifStmt none (some c) (some b) (fresh a.allocs), a')
  | .ifElse cond body alt, a => do
      let c ← cond.node a.sema
      let (b, a₁) ← body.build fresh ⟨a.sema, a.allocs + 1⟩
      let (e, a₂) ← alt.build fresh a₁
      some (.ifStmt none (some c) (some b) (some e), a₂)
  | .while cond body, a => do
      let c ← cond.node a.sema
      let (b, a') ← body.build fresh a
      some (.whileStmt none (some c) (some b), a')
  | .ret none, a => do
      let n ← returnNode a.sema (fresh a.allocs)
      some (n, ⟨a.sema, a.allocs + 1⟩)
  | .ret (some e), a => do
      let v ← e.node a.sema
      let n ← returnNode a.sema (some v)
      some (n, ⟨a.sema, a.allocs + 1⟩)
  | .break, a => some (.breakStmt none, a)
  | .continue, a => some (.continueStmt none, a)
  | .block items, a => do
      let (ns, a') ← blockBuild fresh items ⟨a.sema.enter, a.allocs⟩
      some (.block none ns, ⟨a'.sema.leave, a'.allocs⟩)
  | .expr e, a => do
      let n ← e.node a.sema
      some (.exprStmt none n, a)
  | .assign lhs rhs, a => do
      let l ← lhs.node a.sema
      let r ← rhs.node a.sema
      let n ← assignNode a.sema.funcs l r
      some (.exprStmt none n, a)

/-- The node of an item of a block, and the analysis behind it. -/
def BlockItem.build (fresh : Nat → Option Node) :
    BlockItem → Analysis → Option (Node × Analysis)
  | .decl d, a => d.build fresh a
  | .stmt s, a => s.build fresh a

/-- The nodes of a block, and the analysis behind it. -/
def blockBuild (fresh : Nat → Option Node) :
    List BlockItem → Analysis → Option (List Node × Analysis)
  | [], a => some ([], a)
  | item :: items, a => do
      let (n, a₁) ← item.build fresh a
      let (ns, a₂) ← blockBuild fresh items a₁
      some (n :: ns, a₂)

end

/-! ## Compilation units -/

/-- The type of a parameter.  A missing first dimension is zero. -/
def Param.obj (p : Param) : ObjTy :=
  match p.dims with
  | none => p.ty.obj
  | some dims => arrayTy (.array p.ty.obj (dims.first.getD 0)) dims.more

/-- The parameters of the function type {lit}`id`. -/
def paramsBuild (id : Nat) : List Param → Sema → Option Sema
  | [], σ => some σ
  | p :: ps, σ => do
      let (_, σ) ← defineSym σ p.name (.obj p.obj) false
      paramsBuild id ps (σ.pushParam id (some p.obj))

/-- The node of a function. -/
def Func.build (fresh : Nat → Option Node) (f : Func) (a : Analysis) :
    Option (Node × Analysis) := do
  let id := a.sema.funcs.length
  let (_, σ₁) ← defineSym (a.sema.newFunc f.ty.obj) f.name (.func id) false
  let σ₂ ← paramsBuild id f.params { σ₁ with currFuncRet := some f.ty.obj }.enter
  let (ns, a') ← blockBuild fresh f.body ⟨σ₂, a.allocs⟩
  some (.block none ns, ⟨{ a'.sema.leave with currFuncRet := none }, a'.allocs⟩)

/-- The node of a top-level item, and the analysis behind it. -/
def Item.build (fresh : Nat → Option Node) : Item → Analysis → Option (Node × Analysis)
  | .func f, a => f.build fresh a
  | .decl d, a => d.build fresh a

/-- The nodes of a file, and the analysis behind it. -/
def itemsBuild (fresh : Nat → Option Node) :
    List Item → Analysis → Option (List Node × Analysis)
  | [], a => some ([], a)
  | item :: items, a => do
      let (n, a₁) ← item.build fresh a
      let (ns, a₂) ← itemsBuild fresh items a₁
      some (n :: ns, a₂)

/-- The parameters of a built-in function. -/
def builtinParams (σ : Sema) (id : Nat) : Option ObjTy → Sema
  | none => σ
  | some ty => σ.pushParam id (some ty)

/-- The built-in functions. -/
def builtinsBuild (intern : List UInt8 → Symbol) :
    List (List Char × ObjTy × Option ObjTy) → Sema → Option Sema
  | [], σ => some σ
  | (name, ret, arg1Ty) :: bs, σ => do
      let id := σ.funcs.length
      let (_, σ) ← defineSym (builtinParams (σ.newFunc ret) id arg1Ty)
        (intern (name.map byte)) (.func id) false
      builtinsBuild intern bs σ

/-- The nodes of a compilation unit, and the state in which its global scope closes. -/
def CompUnit.build (intern : List UInt8 → Symbol) (fresh : Nat → Option Node)
    (u : CompUnit) : Option (List Node × Analysis) := do
  let σ ← builtinsBuild intern Parser.builtins Sema.init.enter
  itemsBuild fresh u ⟨σ, 0⟩

/-! ## What a node is built from -/

section

variable {σ : Sema} {n : Node} {ns : List Node}

/-- A variable that is accepted was found. -/
theorem Expr.node_var {name : Symbol} (h : (Expr.var name).node σ = some n) :
    ∃ sym, σ.lookup name = some sym ∧ n = .var sym.ty (some sym) := by
  obtain ⟨sym, hsym, hend⟩ := Option.bind_eq_some_iff.mp h
  exact ⟨sym, hsym, (Option.some.inj hend).symm⟩

/-- A subscript is built from its base and its index. -/
theorem Expr.node_index {base sub : Expr} (h : (Expr.index base sub).node σ = some n) :
    ∃ l r, base.node σ = some l ∧ sub.node σ = some r ∧ indexNode l r = some n := by
  obtain ⟨l, hl, h⟩ := Option.bind_eq_some_iff.mp h
  obtain ⟨r, hr, hend⟩ := Option.bind_eq_some_iff.mp h
  exact ⟨l, r, hl, hr, hend⟩

/-- A call that is accepted calls a symbol with a type. -/
theorem Expr.node_call {name : Symbol} {args : List Expr}
    (h : (Expr.call name args).node σ = some n) :
    ∃ sym ns ty, σ.lookup name = some sym ∧ argNodes σ args = some ns ∧ sym.ty = some ty ∧
      n = .funcCall (σ.callTy ty) name (ns.map some) := by
  obtain ⟨sym, hsym, h⟩ := Option.bind_eq_some_iff.mp h
  obtain ⟨ns, hns, h⟩ := Option.bind_eq_some_iff.mp h
  obtain ⟨ty, hty, hend⟩ := Option.bind_eq_some_iff.mp h
  exact ⟨sym, ns, ty, hsym, hns, hty, (Option.some.inj hend).symm⟩

/-- A sign keeps the type of its operand. -/
theorem Expr.node_minus {operand : Expr} (h : (Expr.unary .minus operand).node σ = some n) :
    ∃ o, operand.node σ = some o ∧ n = .neg o.ty (some o) := by
  obtain ⟨o, ho, hend⟩ := Option.bind_eq_some_iff.mp h
  exact ⟨o, ho, (Option.some.inj hend).symm⟩

/-- A negation is a truth value. -/
theorem Expr.node_not {operand : Expr} (h : (Expr.unary .not operand).node σ = some n) :
    ∃ o, operand.node σ = some o ∧ n = .logNot tyBool (some o) := by
  obtain ⟨o, ho, hend⟩ := Option.bind_eq_some_iff.mp h
  exact ⟨o, ho, (Option.some.inj hend).symm⟩

/-- An operator is built from its operands. -/
theorem Expr.node_binary {op : BinOp} {lhs rhs : Expr}
    (h : (Expr.binary op lhs rhs).node σ = some n) :
    ∃ l r, lhs.node σ = some l ∧ rhs.node σ = some r ∧ binaryNode σ.funcs op l r = some n := by
  obtain ⟨l, hl, h⟩ := Option.bind_eq_some_iff.mp h
  obtain ⟨r, hr, hend⟩ := Option.bind_eq_some_iff.mp h
  exact ⟨l, r, hl, hr, hend⟩

/-- An assignment is built from its two sides. -/
theorem Expr.node_assign {lhs rhs : Expr} (h : (Expr.assign lhs rhs).node σ = some n) :
    ∃ l r, lhs.node σ = some l ∧ rhs.node σ = some r ∧ assignNode σ.funcs l r = some n := by
  obtain ⟨l, hl, h⟩ := Option.bind_eq_some_iff.mp h
  obtain ⟨r, hr, hend⟩ := Option.bind_eq_some_iff.mp h
  exact ⟨l, r, hl, hr, hend⟩

/-- The first argument and the others. -/
theorem argNodes_cons {e : Expr} {es : List Expr} (h : argNodes σ (e :: es) = some ns) :
    ∃ n ns', e.node σ = some n ∧ argNodes σ es = some ns' ∧ ns = n :: ns' := by
  obtain ⟨n, hn, h⟩ := Option.bind_eq_some_iff.mp h
  obtain ⟨ns', hns', hend⟩ := Option.bind_eq_some_iff.mp h
  exact ⟨n, ns', hn, hns', (Option.some.inj hend).symm⟩

/-- A brace list is built from its elements. -/
theorem Elem.node_list {es : List Elem} (h : (Elem.list es).node σ = some n) :
    ∃ ns, elemNodes σ es = some ns ∧ n = .initList none (ns.map some) := by
  obtain ⟨ns, hns, hend⟩ := Option.bind_eq_some_iff.mp h
  exact ⟨ns, hns, (Option.some.inj hend).symm⟩

/-- The first element and the others. -/
theorem elemNodes_cons {e : Elem} {es : List Elem} (h : elemNodes σ (e :: es) = some ns) :
    ∃ n ns', e.node σ = some n ∧ elemNodes σ es = some ns' ∧ ns = n :: ns' := by
  obtain ⟨n, hn, h⟩ := Option.bind_eq_some_iff.mp h
  obtain ⟨ns', hns', hend⟩ := Option.bind_eq_some_iff.mp h
  exact ⟨n, ns', hn, hns', (Option.some.inj hend).symm⟩

/-- An initializer that is accepted has the type that is declared. -/
theorem initNode_expr {ty : ObjTy} {field r : Option Node} {e : Expr}
    (h : initNode σ ty field (some (.expr e)) = some r) :
    ∃ n, e.node σ = some n ∧ typeEq σ.funcs (some (.obj ty)) n.ty = true ∧ r = some n := by
  simp only [initNode, initExprNode, Option.bind_eq_bind, Option.map_eq_some_iff,
    Option.bind_eq_some_iff] at h
  obtain ⟨_, ⟨n, hn, hcheck⟩, rfl⟩ := h
  split at hcheck
  · rename_i hty
    cases hcheck
    exact ⟨_, hn, hty, rfl⟩
  · cases hcheck

/-- A brace list is accepted whatever is declared. -/
theorem initNode_list {ty : ObjTy} {field r : Option Node} {es : List Elem}
    (h : initNode σ ty field (some (.list es)) = some r) :
    ∃ n, (Elem.list es).node σ = some n ∧ r = some n := by
  simp only [initNode, Option.map_eq_some_iff] at h
  obtain ⟨n, hn, hend⟩ := h
  exact ⟨n, hn, hend.symm⟩

end

section

variable {fresh : Nat → Option Node} {a a' : Analysis} {n : Node} {ns : List Node}

/-- A declarator defines its name and then builds its initializer. -/
theorem Declarator.build_cases {base : ObjTy} {isConst : Bool} {d : Declarator}
    (h : d.build fresh base isConst a = some (n, a')) :
    ∃ sym σ init, defineSym a.sema d.name (.obj (arrayTy base d.dims)) isConst = some (sym, σ) ∧
      initNode σ (arrayTy base d.dims) (fresh a.allocs) d.init = some init ∧
      n = .varDecl (some (.obj (arrayTy base d.dims))) (some sym) init ∧
      a' = ⟨σ, a.allocs + 1⟩ := by
  obtain ⟨⟨sym, σ⟩, hdef, h⟩ := Option.bind_eq_some_iff.mp h
  obtain ⟨init, hinit, hend⟩ := Option.bind_eq_some_iff.mp h
  cases hend
  exact ⟨sym, σ, init, hdef, hinit, rfl, rfl⟩

/-- The first declarator and the others. -/
theorem declaratorsBuild_cons {base : ObjTy} {isConst : Bool} {d : Declarator}
    {ds : List Declarator} (h : declaratorsBuild fresh base isConst (d :: ds) a = some (ns, a')) :
    ∃ n a₁ ns', d.build fresh base isConst a = some (n, a₁) ∧
      declaratorsBuild fresh base isConst ds a₁ = some (ns', a') ∧ ns = n :: ns' := by
  obtain ⟨⟨m, a₁⟩, hd, h⟩ := Option.bind_eq_some_iff.mp h
  obtain ⟨⟨ns', a₂⟩, hds, hend⟩ := Option.bind_eq_some_iff.mp h
  cases hend
  exact ⟨m, a₁, ns', hd, hds, rfl⟩

/-- A declaration is a block of its declarators. -/
theorem Decl.build_cases {d : Decl} (h : d.build fresh a = some (n, a')) :
    ∃ ns, declaratorsBuild fresh d.ty.obj d.isConst d.declarators a = some (ns, a') ∧
      n = .block none ns := by
  obtain ⟨⟨ns, a₁⟩, hds, hend⟩ := Option.bind_eq_some_iff.mp h
  cases hend
  exact ⟨ns, hds, rfl⟩

/-- An {lit}`if` statement is built from its condition and its branch. -/
theorem Stmt.build_ifThen {cond : Expr} {body : Stmt}
    (h : (Stmt.ifThen cond body).build fresh a = some (n, a')) :
    ∃ c b, cond.node a.sema = some c ∧
      body.build fresh ⟨a.sema, a.allocs + 1⟩ = some (b, a') ∧
      n = .ifStmt none (some c) (some b) (fresh a.allocs) := by
  obtain ⟨c, hc, h⟩ := Option.bind_eq_some_iff.mp h
  obtain ⟨⟨b, a₁⟩, hbody, hend⟩ := Option.bind_eq_some_iff.mp h
  cases hend
  exact ⟨c, b, hc, hbody, rfl⟩

/-- With an {lit}`else`, the second branch is built behind the first. -/
theorem Stmt.build_ifElse {cond : Expr} {body alt : Stmt}
    (h : (Stmt.ifElse cond body alt).build fresh a = some (n, a')) :
    ∃ c b a₁ e, cond.node a.sema = some c ∧
      body.build fresh ⟨a.sema, a.allocs + 1⟩ = some (b, a₁) ∧
      alt.build fresh a₁ = some (e, a') ∧ n = .ifStmt none (some c) (some b) (some e) := by
  obtain ⟨c, hc, h⟩ := Option.bind_eq_some_iff.mp h
  obtain ⟨⟨b, a₁⟩, hbody, h⟩ := Option.bind_eq_some_iff.mp h
  obtain ⟨⟨e, a₂⟩, halt, hend⟩ := Option.bind_eq_some_iff.mp h
  cases hend
  exact ⟨c, b, a₁, e, hc, hbody, halt, rfl⟩

/-- A loop is built from its condition and its body. -/
theorem Stmt.build_while {cond : Expr} {body : Stmt}
    (h : (Stmt.while cond body).build fresh a = some (n, a')) :
    ∃ c b, cond.node a.sema = some c ∧ body.build fresh a = some (b, a') ∧
      n = .whileStmt none (some c) (some b) := by
  obtain ⟨c, hc, h⟩ := Option.bind_eq_some_iff.mp h
  obtain ⟨⟨b, a₁⟩, hbody, hend⟩ := Option.bind_eq_some_iff.mp h
  cases hend
  exact ⟨c, b, hc, hbody, rfl⟩

/-- A {lit}`return` without a value keeps what is in the field of its node. -/
theorem Stmt.build_ret_none (h : (Stmt.ret none).build fresh a = some (n, a')) :
    returnNode a.sema (fresh a.allocs) = some n ∧ a' = ⟨a.sema, a.allocs + 1⟩ := by
  obtain ⟨n, hn, hend⟩ := Option.bind_eq_some_iff.mp h
  cases hend
  exact ⟨hn, rfl⟩

/-- A {lit}`return` with a value writes the field. -/
theorem Stmt.build_ret_some {e : Expr} (h : (Stmt.ret (some e)).build fresh a = some (n, a')) :
    ∃ v, e.node a.sema = some v ∧ returnNode a.sema (some v) = some n ∧
      a' = ⟨a.sema, a.allocs + 1⟩ := by
  obtain ⟨v, hv, h⟩ := Option.bind_eq_some_iff.mp h
  obtain ⟨n, hn, hend⟩ := Option.bind_eq_some_iff.mp h
  cases hend
  exact ⟨v, hv, hn, rfl⟩

/-- A block is built in a scope of its own. -/
theorem Stmt.build_block {items : List BlockItem}
    (h : (Stmt.block items).build fresh a = some (n, a')) :
    ∃ ns a₁, blockBuild fresh items ⟨a.sema.enter, a.allocs⟩ = some (ns, a₁) ∧
      n = .block none ns ∧ a' = ⟨a₁.sema.leave, a₁.allocs⟩ := by
  obtain ⟨⟨ns, a₁⟩, hitems, hend⟩ := Option.bind_eq_some_iff.mp h
  cases hend
  exact ⟨ns, a₁, hitems, rfl, rfl⟩

/-- A statement that is an expression changes nothing. -/
theorem Stmt.build_expr {e : Expr} (h : (Stmt.expr e).build fresh a = some (n, a')) :
    ∃ v, e.node a.sema = some v ∧ n = .exprStmt none v ∧ a' = a := by
  obtain ⟨v, hv, hend⟩ := Option.bind_eq_some_iff.mp h
  cases hend
  exact ⟨v, hv, rfl, rfl⟩

/-- An assignment statement holds the node of the assignment. -/
theorem Stmt.build_assign {lhs rhs : Expr}
    (h : (Stmt.assign lhs rhs).build fresh a = some (n, a')) :
    ∃ v, (Expr.assign lhs rhs).node a.sema = some v ∧ n = .exprStmt none v ∧ a' = a := by
  obtain ⟨l, hl, h⟩ := Option.bind_eq_some_iff.mp h
  obtain ⟨r, hr, h⟩ := Option.bind_eq_some_iff.mp h
  obtain ⟨v, hv, hend⟩ := Option.bind_eq_some_iff.mp h
  cases hend
  exact ⟨v, by simp [Expr.node, hl, hr, hv], rfl, rfl⟩

/-- The first item of a block and the others. -/
theorem blockBuild_cons {item : BlockItem} {items : List BlockItem}
    (h : blockBuild fresh (item :: items) a = some (ns, a')) :
    ∃ n a₁ ns', item.build fresh a = some (n, a₁) ∧
      blockBuild fresh items a₁ = some (ns', a') ∧ ns = n :: ns' := by
  obtain ⟨⟨n, a₁⟩, hitem, h⟩ := Option.bind_eq_some_iff.mp h
  obtain ⟨⟨ns', a₂⟩, hitems, hend⟩ := Option.bind_eq_some_iff.mp h
  cases hend
  exact ⟨n, a₁, ns', hitem, hitems, rfl⟩

/-- The first parameter and the others. -/
theorem paramsBuild_cons {id : Nat} {p : Param} {ps : List Param} {σ σ' : Sema}
    (h : paramsBuild id (p :: ps) σ = some σ') :
    ∃ sym σ₁, defineSym σ p.name (.obj p.obj) false = some (sym, σ₁) ∧
      paramsBuild id ps (σ₁.pushParam id (some p.obj)) = some σ' := by
  obtain ⟨⟨sym, σ₁⟩, hdef, hps⟩ := Option.bind_eq_some_iff.mp h
  exact ⟨sym, σ₁, hdef, hps⟩

/-- A function is defined, entered, and its body built behind its parameters. -/
theorem Func.build_cases {f : Func} (h : f.build fresh a = some (n, a')) :
    ∃ sym σ₁ σ₂ ns a₁, defineSym (a.sema.newFunc f.ty.obj) f.name (.func a.sema.funcs.length)
        false = some (sym, σ₁) ∧
      paramsBuild a.sema.funcs.length f.params { σ₁ with currFuncRet := some f.ty.obj }.enter =
        some σ₂ ∧
      blockBuild fresh f.body ⟨σ₂, a.allocs⟩ = some (ns, a₁) ∧ n = .block none ns ∧
      a' = ⟨{ a₁.sema.leave with currFuncRet := none }, a₁.allocs⟩ := by
  obtain ⟨⟨sym, σ₁⟩, hdef, h⟩ := Option.bind_eq_some_iff.mp h
  obtain ⟨σ₂, hparams, h⟩ := Option.bind_eq_some_iff.mp h
  obtain ⟨⟨ns, a₁⟩, hbody, hend⟩ := Option.bind_eq_some_iff.mp h
  cases hend
  exact ⟨sym, σ₁, σ₂, ns, a₁, hdef, hparams, hbody, rfl, rfl⟩

/-- The first top-level item and the others. -/
theorem itemsBuild_cons {item : Item} {items : List Item}
    (h : itemsBuild fresh (item :: items) a = some (ns, a')) :
    ∃ n a₁ ns', item.build fresh a = some (n, a₁) ∧
      itemsBuild fresh items a₁ = some (ns', a') ∧ ns = n :: ns' := by
  obtain ⟨⟨n, a₁⟩, hitem, h⟩ := Option.bind_eq_some_iff.mp h
  obtain ⟨⟨ns', a₂⟩, hitems, hend⟩ := Option.bind_eq_some_iff.mp h
  cases hend
  exact ⟨n, a₁, ns', hitem, hitems, rfl⟩

/-- The first built-in function and the others. -/
theorem builtinsBuild_cons {intern : List UInt8 → Symbol} {name : List Char} {ret : ObjTy}
    {arg1Ty : Option ObjTy} {bs : List (List Char × ObjTy × Option ObjTy)} {σ σ' : Sema}
    (h : builtinsBuild intern ((name, ret, arg1Ty) :: bs) σ = some σ') :
    ∃ sym σ₁, defineSym (builtinParams (σ.newFunc ret) σ.funcs.length arg1Ty)
        (intern (name.map byte)) (.func σ.funcs.length) false = some (sym, σ₁) ∧
      builtinsBuild intern bs σ₁ = some σ' := by
  obtain ⟨⟨sym, σ₁⟩, hdef, hbs⟩ := Option.bind_eq_some_iff.mp h
  exact ⟨sym, σ₁, hdef, hbs⟩

/-- A file is built behind the built-in functions. -/
theorem CompUnit.build_cases {intern : List UInt8 → Symbol} {u : CompUnit}
    (h : u.build intern fresh = some (ns, a')) :
    ∃ σ, builtinsBuild intern Parser.builtins Sema.init.enter = some σ ∧
      itemsBuild fresh u ⟨σ, 0⟩ = some (ns, a') := by
  exact Option.bind_eq_some_iff.mp h

end

/-! ## The scope stack -/

/-- There is a current scope, and every symbol has a type. -/
structure Regular (σ : Sema) : Prop where
  nonempty : σ.scopes ≠ []
  typed : ∀ sc ∈ σ.scopes, ∀ entry ∈ sc.symbols, entry.2.ty.isSome = true

/-- What a map gives is one of its entries. -/
theorem SymbolMap.mem_of_get {m : SymbolMap} {name : Symbol} {sym : SemaSymbol}
    (h : m.get name = some sym) : ∃ entry ∈ m, entry.2 = sym := by
  induction m with
  | nil => cases h
  | cons entry m ih =>
      unfold SymbolMap.get at h ih
      rw [List.lookup_cons] at h
      split at h
      · exact ⟨entry, List.mem_cons_self, Option.some.inj h⟩
      · obtain ⟨entry', hmem, heq⟩ := ih h
        exact ⟨entry', List.mem_cons_of_mem _ hmem, heq⟩

/-- What a lookup finds has a type. -/
theorem Regular.lookup {σ : Sema} (h : Regular σ) {name : Symbol} {sym : SemaSymbol}
    (hsym : σ.lookup name = some sym) : ∃ ty, sym.ty = some ty := by
  obtain ⟨sc, hsc, hget⟩ := List.exists_of_findSome?_eq_some hsym
  obtain ⟨entry, hentry, rfl⟩ := SymbolMap.mem_of_get hget
  exact Option.isSome_iff_exists.mp (h.typed sc hsc entry hentry)

/-- A new scope holds no symbols. -/
theorem Regular.enter {σ : Sema} (h : Regular σ) : Regular σ.enter where
  nonempty := List.cons_ne_nil _ _
  typed := by
    intro sc hsc
    rcases List.mem_cons.mp hsc with rfl | hsc
    · simp
    · exact h.typed sc hsc

/-- A symbol with a type may be defined. -/
theorem Regular.define {σ : Sema} (h : Regular σ) {sym : SemaSymbol}
    (hsym : sym.ty.isSome = true) : Regular (σ.define sym) := by
  unfold Sema.define
  split
  · exact h
  · rename_i sc parents hscopes
    constructor
    · exact List.cons_ne_nil _ _
    · intro sc' hsc' entry hentry
      rcases List.mem_cons.mp hsc' with rfl | hsc'
      · rcases List.mem_cons.mp hentry with rfl | hentry
        · exact hsym
        · exact h.typed sc (by simp [hscopes]) entry hentry
      · exact h.typed sc' (by simp [hscopes, hsc']) entry hentry

/-- Only the scopes matter. -/
theorem Regular.of_scopes {σ σ' : Sema} (h : Regular σ) (heq : σ'.scopes = σ.scopes) :
    Regular σ' :=
  ⟨heq ▸ h.nonempty, heq ▸ h.typed⟩

/-! ## What a body leaves alone -/

/-- The states differ in the current scope only. -/
structure Local (σ σ' : Sema) : Prop where
  tail : σ'.scopes.tail = σ.scopes.tail
  currFuncRet : σ'.currFuncRet = σ.currFuncRet
  funcs : σ'.funcs = σ.funcs

/-- To change nothing is local. -/
theorem Local.refl (σ : Sema) : Local σ σ := ⟨rfl, rfl, rfl⟩

/-- Local changes add up. -/
theorem Local.trans {σ₁ σ₂ σ₃ : Sema} (h : Local σ₁ σ₂) (h' : Local σ₂ σ₃) : Local σ₁ σ₃ :=
  ⟨h'.tail.trans h.tail, h'.currFuncRet.trans h.currFuncRet, h'.funcs.trans h.funcs⟩

/-- A definition changes the innermost scope only. -/
theorem local_defineSym {σ σ' : Sema} {name : Symbol} {ty : Ty} {isConst : Bool}
    {sym : SemaSymbol} (h : defineSym σ name ty isConst = some (sym, σ')) : Local σ σ' := by
  unfold defineSym at h
  split at h
  · cases h
  · cases h
    unfold Sema.define
    split
    · exact Local.refl σ
    · rename_i sc parents hscopes
      exact ⟨by rw [hscopes]; rfl, rfl, rfl⟩

variable {fresh : Nat → Option Node}

/-- So does a declarator. -/
theorem Declarator.local_build {base : ObjTy} {isConst : Bool} {d : Declarator}
    {a a' : Analysis} {n : Node} (h : d.build fresh base isConst a = some (n, a')) :
    Local a.sema a'.sema := by
  unfold Declarator.build at h
  simp only [Option.bind_eq_bind, Option.bind_eq_some_iff, Prod.exists] at h
  obtain ⟨sym, σ, hdef, init, _, hend⟩ := h
  cases hend
  exact local_defineSym hdef

/-- So do the declarators of a declaration. -/
theorem local_declaratorsBuild {base : ObjTy} {isConst : Bool} {ds : List Declarator}
    {a a' : Analysis} {ns : List Node}
    (h : declaratorsBuild fresh base isConst ds a = some (ns, a')) : Local a.sema a'.sema := by
  induction ds generalizing a ns with
  | nil =>
      cases h
      exact Local.refl _
  | cons d ds ih =>
      obtain ⟨n, a₁, ns', hd, hds, rfl⟩ := declaratorsBuild_cons h
      exact (Declarator.local_build hd).trans (ih hds)

/-- So does a declaration. -/
theorem Decl.local_build {d : Decl} {a a' : Analysis} {n : Node}
    (h : d.build fresh a = some (n, a')) : Local a.sema a'.sema := by
  obtain ⟨ns, hds, rfl⟩ := Decl.build_cases h
  exact local_declaratorsBuild hds

/-- The states do not even differ in the current scope. -/
structure Still (σ σ' : Sema) : Prop where
  scopes : σ'.scopes = σ.scopes
  currFuncRet : σ'.currFuncRet = σ.currFuncRet
  funcs : σ'.funcs = σ.funcs

/-- To change nothing leaves the scopes as they are. -/
theorem Still.refl (σ : Sema) : Still σ σ := ⟨rfl, rfl, rfl⟩

/-- Two changes that do so add up. -/
theorem Still.trans {σ₁ σ₂ σ₃ : Sema} (h : Still σ₁ σ₂) (h' : Still σ₂ σ₃) : Still σ₁ σ₃ :=
  ⟨h'.scopes.trans h.scopes, h'.currFuncRet.trans h.currFuncRet, h'.funcs.trans h.funcs⟩

/-- What leaves the scopes as they are is local. -/
theorem Still.toLocal {σ σ' : Sema} (h : Still σ σ') : Local σ σ' :=
  ⟨by rw [h.scopes], h.currFuncRet, h.funcs⟩

/-- Whatever is declared in an inner scope is gone when the scope is left. -/
theorem Local.leave {σ σ' : Sema} (h : Local σ.enter σ') : Still σ σ'.leave :=
  ⟨h.tail, h.currFuncRet, h.funcs⟩

mutual

/-- A statement declares nothing in the scope it stands in. -/
theorem Stmt.still_build : ∀ {s : Stmt} {a a' : Analysis} {n : Node},
    s.build fresh a = some (n, a') → Still a.sema a'.sema
  | .ifThen cond body, a, a', n, h => by
      obtain ⟨c, b, _, hbody, rfl⟩ := Stmt.build_ifThen h
      have hstill := Stmt.still_build hbody
      exact hstill
  | .ifElse cond body alt, a, a', n, h => by
      obtain ⟨c, b, a₁, e, _, hbody, halt, rfl⟩ := Stmt.build_ifElse h
      have hstill := (Stmt.still_build hbody).trans (Stmt.still_build halt)
      exact hstill
  | .while cond body, a, a', n, h => by
      obtain ⟨c, b, _, hbody, rfl⟩ := Stmt.build_while h
      exact Stmt.still_build hbody
  | .ret none, a, a', n, h => by
      obtain ⟨_, rfl⟩ := Stmt.build_ret_none h
      exact Still.refl _
  | .ret (some e), a, a', n, h => by
      obtain ⟨_, _, _, rfl⟩ := Stmt.build_ret_some h
      exact Still.refl _
  | .break, a, a', n, h => by
      cases h
      exact Still.refl _
  | .continue, a, a', n, h => by
      cases h
      exact Still.refl _
  | .block items, a, a', n, h => by
      obtain ⟨ns, a₁, hitems, rfl, rfl⟩ := Stmt.build_block h
      exact (local_blockBuild hitems).leave
  | .expr e, a, a', n, h => by
      obtain ⟨_, _, rfl, rfl⟩ := Stmt.build_expr h
      exact Still.refl _
  | .assign lhs rhs, a, a', n, h => by
      obtain ⟨_, _, rfl, rfl⟩ := Stmt.build_assign h
      exact Still.refl _

/-- An item of a block changes the innermost scope only. -/
theorem BlockItem.local_build : ∀ {item : BlockItem} {a a' : Analysis} {n : Node},
    item.build fresh a = some (n, a') → Local a.sema a'.sema
  | .decl _, _, _, _, h => Decl.local_build h
  | .stmt s, _, _, _, h => (Stmt.still_build (s := s) h).toLocal

/-- So does what is inside a block. -/
theorem local_blockBuild : ∀ {items : List BlockItem} {a a' : Analysis} {ns : List Node},
    blockBuild fresh items a = some (ns, a') → Local a.sema a'.sema
  | [], a, a', ns, h => by
      cases h
      exact Local.refl _
  | item :: items, a, a', ns, h => by
      obtain ⟨n, a₁, ns', hitem, hitems, rfl⟩ := blockBuild_cons h
      exact (BlockItem.local_build hitem).trans (local_blockBuild hitems)

end

/-- Parameters are declared in the current scope, and leave the return type of the function
alone. -/
theorem local_paramsBuild {id : Nat} {ps : List Param} {σ σ' : Sema}
    (h : paramsBuild id ps σ = some σ') :
    σ'.scopes.tail = σ.scopes.tail ∧ σ'.currFuncRet = σ.currFuncRet := by
  induction ps generalizing σ with
  | nil =>
      cases h
      exact ⟨rfl, rfl⟩
  | cons p ps ih =>
      obtain ⟨sym, σ₁, hdef, hps⟩ := paramsBuild_cons h
      have hlocal := local_defineSym hdef
      exact ⟨(ih hps).1.trans hlocal.tail, (ih hps).2.trans hlocal.currFuncRet⟩

end Grammar

end Cact
