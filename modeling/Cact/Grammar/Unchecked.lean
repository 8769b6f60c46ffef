import Cact.Grammar.Analysis

/-!
# The nodes of expressions, checked or not

The parser goes on after a semantic error and still returns a node.  Here is the node it
returns for an expression, whatever the checks say: a mismatch gives an operator the type
{lit}`void`, an undeclared name and a subscripted scalar count as {lit}`int`.

Main results:

- Definition {lit}`Expr.built`: the node of an expression.
- Theorem {lit}`Expr.built_of_node`: it is the one of {lit}`Expr.node`, where that exists.
-/

namespace Cact

namespace Grammar

/-! ## Types -/

/-- The type that an operator node ends up with. -/
def binaryTy (funcs : List FuncTy) (op : BinOp) (l r : Node) : Option Ty :=
  if typeEq funcs l.ty r.ty = true then
    match op with
    | .add | .sub | .mul | .div => l.ty
    | .mod => tyInt
    | .eq | .ne | .lt | .le | .gt | .ge | .logAnd | .logOr => tyBool
  else tyVoid

/-- The type that a subscript node ends up with. -/
def elementTy : Option Ty → Option Ty
  | some (.obj (.array base _)) => some (.obj base)
  | _ => tyInt

/-- The type of a name, by what the lookup found. -/
def symbolTy : Option SemaSymbol → Option Ty
  | some sym => sym.ty
  | none => tyInt

/-- The type of a call, by what the lookup found. -/
def calledTy (σ : Sema) : Option SemaSymbol → Option Ty
  | some sym => sym.ty.bind σ.callTy
  | none => tyInt

/-! ## Nodes -/

mutual

/-- The node the parser builds for an expression. -/
def Expr.built (σ : Sema) : Expr → Node
  | .int val => .litInt tyInt val
  | .float val => .litFloat tyFloat val
  | .double val => .litDouble tyDouble val
  | .bool val => .litBool tyBool val
  | .paren inner => inner.built σ
  | .var name => .var (symbolTy (σ.lookup name)) (σ.lookup name)
  | .index base sub =>
      .arrayAccess (elementTy (base.built σ).ty) (base.built σ) (some (sub.built σ))
  | .call name args =>
      .funcCall (calledTy σ (σ.lookup name)) name ((argsBuilt σ args).map some)
  | .unary .plus operand => operand.built σ
  | .unary .minus operand => .neg (operand.built σ).ty (some (operand.built σ))
  | .unary .not operand => .logNot tyBool (some (operand.built σ))
  | .binary op lhs rhs =>
      .binary op (binaryTy σ.funcs op (lhs.built σ) (rhs.built σ)) (lhs.built σ) (rhs.built σ)
  | .assign lhs rhs => .assign (lhs.built σ).ty (lhs.built σ) (rhs.built σ)

/-- The nodes of the arguments of a call, in order. -/
def argsBuilt (σ : Sema) : List Expr → List Node
  | [] => []
  | e :: es => e.built σ :: argsBuilt σ es

end

/-- {lit}`argsBuilt` is the map of {lit}`built` over the arguments. -/
theorem argsBuilt_eq (σ : Sema) (es : List Expr) : argsBuilt σ es = es.map (Expr.built σ) := by
  induction es with
  | nil => rfl
  | cons e es ih => rw [argsBuilt, ih, List.map_cons]

/-- {lit}`argNodes` fails where one argument has no node. -/
theorem argNodes_eq (σ : Sema) (es : List Expr) : argNodes σ es = es.mapM (Expr.node σ) := by
  induction es with
  | nil => rfl
  | cons e es ih =>
      rw [argNodes, List.mapM_cons, ih]
      rfl

mutual

/-- No call is of a symbol whose type is null. -/
def Expr.Callable (σ : Sema) : Expr → Prop
  | .int _ | .float _ | .double _ | .bool _ | .var _ => True
  | .paren inner => inner.Callable σ
  | .index base sub => base.Callable σ ∧ sub.Callable σ
  | .call name args =>
      (∀ sym, σ.lookup name = some sym → sym.ty.isSome = true) ∧ argsCallable σ args
  | .unary _ operand => operand.Callable σ
  | .binary _ lhs rhs | .assign lhs rhs => lhs.Callable σ ∧ rhs.Callable σ

/-- Every name called among the arguments is a function. -/
def argsCallable (σ : Sema) : List Expr → Prop
  | [] => True
  | e :: es => e.Callable σ ∧ argsCallable σ es

end

/-- The arguments are callable one by one. -/
theorem argsCallable_iff (σ : Sema) (es : List Expr) :
    argsCallable σ es ↔ ∀ e ∈ es, e.Callable σ := by
  induction es with
  | nil => simp [argsCallable]
  | cons e es ih => simp [argsCallable, ih]

mutual

/-- Where every symbol has a type, everything can be called. -/
theorem Regular.callable {σ : Sema} (h : Regular σ) : ∀ e : Expr, e.Callable σ
  | .int _ | .float _ | .double _ | .bool _ | .var _ => trivial
  | .paren inner => h.callable inner
  | .index base sub => ⟨h.callable base, h.callable sub⟩
  | .call name args => by
      refine ⟨?_, h.argsCallable args⟩
      intro sym hsym
      obtain ⟨ty, hty⟩ := h.lookup hsym
      simp [hty]
  | .unary _ operand => h.callable operand
  | .binary _ lhs rhs => ⟨h.callable lhs, h.callable rhs⟩
  | .assign lhs rhs => ⟨h.callable lhs, h.callable rhs⟩

/-- In a regular scoping every argument list is callable. -/
theorem Regular.argsCallable {σ : Sema} (h : Regular σ) :
    ∀ es : List Expr, Grammar.argsCallable σ es
  | [] => trivial
  | e :: es => ⟨h.callable e, h.argsCallable es⟩

end

mutual

/-- The node of an element of a brace list. -/
def Elem.built (σ : Sema) : Elem → Node
  | .value e => e.built σ
  | .list es => .initList none ((elemsBuilt σ es).map some)

/-- The nodes of the elements of a list, in order. -/
def elemsBuilt (σ : Sema) : List Elem → List Node
  | [] => []
  | e :: es => e.built σ :: elemsBuilt σ es

end

mutual

/-- Every name called in the element is a function. -/
def Elem.Callable (σ : Sema) : Elem → Prop
  | .value e => e.Callable σ
  | .list es => elemsCallable σ es

/-- Every name called among the elements is a function. -/
def elemsCallable (σ : Sema) : List Elem → Prop
  | [] => True
  | e :: es => e.Callable σ ∧ elemsCallable σ es

end

/-- {lit}`elemsBuilt` is the map of {lit}`built` over the elements. -/
theorem elemsBuilt_eq (σ : Sema) (es : List Elem) : elemsBuilt σ es = es.map (Elem.built σ) := by
  induction es with
  | nil => rfl
  | cons e es ih => rw [elemsBuilt, ih, List.map_cons]

/-- {lit}`elemNodes` fails where one element has no node. -/
theorem elemNodes_eq (σ : Sema) (es : List Elem) : elemNodes σ es = es.mapM (Elem.node σ) := by
  induction es with
  | nil => rfl
  | cons e es ih =>
      rw [elemNodes, List.mapM_cons, ih]
      rfl

/-- The elements are callable one by one. -/
theorem elemsCallable_iff (σ : Sema) (es : List Elem) :
    elemsCallable σ es ↔ ∀ e ∈ es, e.Callable σ := by
  induction es with
  | nil => simp [elemsCallable]
  | cons e es ih => simp [elemsCallable, ih]

mutual

/-- In a regular scoping every element is callable. -/
theorem Regular.elemCallable {σ : Sema} (h : Regular σ) : ∀ e : Elem, e.Callable σ
  | .value e => h.callable e
  | .list es => h.elemsCallable es

/-- In a regular scoping every list of elements is callable. -/
theorem Regular.elemsCallable {σ : Sema} (h : Regular σ) :
    ∀ es : List Elem, Grammar.elemsCallable σ es
  | [] => trivial
  | e :: es => ⟨h.elemCallable e, h.elemsCallable es⟩

end

/-! ## Checked nodes -/

/-- A checked operator node has the type that every operator node has. -/
theorem binaryNode_eq {funcs : List FuncTy} {op : BinOp} {l r n : Node}
    (h : binaryNode funcs op l r = some n) : n = .binary op (binaryTy funcs op l r) l r := by
  unfold binaryNode at h
  unfold binaryTy
  split at h
  · rename_i hty
    rw [if_pos hty]
    cases op <;> dsimp only at h ⊢ <;>
      first
      | exact (Option.some.inj h).symm
      | (split at h
         · exact (Option.some.inj h).symm
         · cases h)
  · cases h

/-- An assignment that is accepted has the type of its left side. -/
theorem assignNode_eq {funcs : List FuncTy} {l r n : Node}
    (h : assignNode funcs l r = some n) : n = .assign l.ty l r := by
  unfold assignNode at h
  split at h
  · cases h
  · split at h
    · exact (Option.some.inj h).symm
    · cases h

/-- An index that is accepted has the element type of what is indexed. -/
theorem indexNode_eq {l r n : Node} (h : indexNode l r = some n) :
    n = .arrayAccess (elementTy l.ty) l (some r) := by
  obtain ⟨base, len, hty, rfl⟩ := indexNode_cases h
  rw [hty, elementTy]

mutual

/-- The checks do not change what is built. -/
theorem Expr.built_of_node {σ : Sema} : ∀ {e : Expr} {n : Node},
    e.node σ = some n → n = e.built σ
  | .int _, n, h => (Option.some.inj h).symm
  | .float _, n, h => (Option.some.inj h).symm
  | .double _, n, h => (Option.some.inj h).symm
  | .bool _, n, h => (Option.some.inj h).symm
  | .paren inner, n, h => Expr.built_of_node (e := inner) h
  | .var name, n, h => by
      obtain ⟨sym, hsym, rfl⟩ := Expr.node_var h
      rw [Expr.built, hsym]
      rfl
  | .index base sub, n, h => by
      obtain ⟨l, r, hl, hr, hend⟩ := Expr.node_index h
      rw [Expr.built, ← Expr.built_of_node hl, ← Expr.built_of_node hr]
      exact indexNode_eq hend
  | .call name args, n, h => by
      obtain ⟨sym, ns, ty, hsym, hns, hty, rfl⟩ := Expr.node_call h
      rw [Expr.built, hsym, ← argsBuilt_of_argNodes hns, calledTy, hty]
      rfl
  | .unary .plus operand, n, h => Expr.built_of_node (e := operand) h
  | .unary .minus operand, n, h => by
      obtain ⟨l, hl, rfl⟩ := Expr.node_minus h
      rw [Expr.built, ← Expr.built_of_node hl]
  | .unary .not operand, n, h => by
      obtain ⟨l, hl, rfl⟩ := Expr.node_not h
      rw [Expr.built, ← Expr.built_of_node hl]
  | .binary op lhs rhs, n, h => by
      obtain ⟨l, r, hl, hr, hend⟩ := Expr.node_binary h
      rw [Expr.built, ← Expr.built_of_node hl, ← Expr.built_of_node hr]
      exact binaryNode_eq hend
  | .assign lhs rhs, n, h => by
      obtain ⟨l, r, hl, hr, hend⟩ := Expr.node_assign h
      rw [Expr.built, ← Expr.built_of_node hl, ← Expr.built_of_node hr]
      exact assignNode_eq hend

/-- Where the arguments have nodes, these are the built ones. -/
theorem argsBuilt_of_argNodes {σ : Sema} : ∀ {es : List Expr} {ns : List Node},
    argNodes σ es = some ns → ns = argsBuilt σ es
  | [], ns, h => (Option.some.inj h).symm
  | e :: es, ns, h => by
      obtain ⟨n, ns', hn, hns, rfl⟩ := argNodes_cons h
      rw [argsBuilt, ← Expr.built_of_node hn, ← argsBuilt_of_argNodes hns]

end

end Grammar

end Cact
