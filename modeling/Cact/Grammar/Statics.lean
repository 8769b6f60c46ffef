import Cact.Grammar.DanglingElse
import Cact.Grammar.Sites

/-!
# The static rules

The rules of the language about names and types, stated over the declarations of a
program: every name is declared in front of its use, no scope declares a name twice,
operands, conditions, subscripts, assignments, initializers and returns have the types
they need, and only functions are called.  Nothing is converted.

The rules ask for no more than that: arguments, the values in brace lists and expressions
used as statements may have any type, so that an array may stand there as a whole.

Main results:

- Definitions {lit}`Expr.HasTy`, {lit}`Stmt.Typed` and {lit}`CompUnit.Typed`: the rules.
- Theorem {lit}`Expr.HasTy.node`: no check of the analysis fires in a typed expression.
- Theorem {lit}`CompUnit.Typed.build`: nor in a typed compilation unit.
- Theorem {lit}`CompUnit.Typed.rearranged`: it does not matter which {lit}`if` an
  {lit}`else` belongs to.
-/

open LexicalScope

namespace Cact

/-- The types of single values. -/
def ObjTy.isScalar : ObjTy → Bool
  | .int | .float | .double | .bool => true
  | _ => false

/-- The types of numbers. -/
def ObjTy.isNumeric : ObjTy → Bool
  | .int | .float | .double => true
  | _ => false

/-- The type of both operands and the type of the result of an operator. -/
def BinOp.Takes (op : BinOp) (operand result : ObjTy) : Prop :=
  match op with
  | .add | .sub | .mul | .div => operand.isNumeric = true ∧ result = operand
  | .mod => operand = .int ∧ result = .int
  | .eq | .ne | .lt | .le | .gt | .ge => operand.isScalar = true ∧ result = .bool
  | .logAnd | .logOr => operand = .bool ∧ result = .bool

namespace Grammar

/-! ## Expressions -/

/-- The type of an expression. -/
inductive Expr.HasTy (Γ : Scoping) : Expr → ObjTy → Prop
  | int (val : Int32) : HasTy Γ (.int val) .int
  | float (val : BitVec 32) : HasTy Γ (.float val) .float
  | double (val : BitVec 64) : HasTy Γ (.double val) .double
  | bool (val : Bool) : HasTy Γ (.bool val) .bool
  | paren {inner : Expr} {t : ObjTy} (h : HasTy Γ inner t) : HasTy Γ (.paren inner) t
  | var {name : Symbol} {sym : SemaSymbol} {t : ObjTy} (hsym : Γ.resolve name = some sym)
      (hty : sym.ty = some (.obj t)) : HasTy Γ (.var name) t
  | index {base sub : Expr} {t : ObjTy} {len : Int32} (hbase : HasTy Γ base (.array t len))
      (hsub : HasTy Γ sub .int) : HasTy Γ (.index base sub) t
  | call {name : Symbol} {args : List Expr} {sym : SemaSymbol} {id : Nat} {f : FuncTy}
      {tys : List ObjTy} (hsym : Γ.resolve name = some sym) (hty : sym.ty = some (.func id))
      (hfunc : Γ.funcs[id]? = some f) (hargs : List.Forall₂ (HasTy Γ) args tys) :
      HasTy Γ (.call name args) f.ret
  | plus {operand : Expr} {t : ObjTy} (hnum : t.isNumeric = true) (h : HasTy Γ operand t) :
      HasTy Γ (.unary .plus operand) t
  | minus {operand : Expr} {t : ObjTy} (hnum : t.isNumeric = true) (h : HasTy Γ operand t) :
      HasTy Γ (.unary .minus operand) t
  | not {operand : Expr} (h : HasTy Γ operand .bool) : HasTy Γ (.unary .not operand) .bool
  | binary {op : BinOp} {lhs rhs : Expr} {s t : ObjTy} (hl : HasTy Γ lhs s)
      (hr : HasTy Γ rhs s) (hop : op.Takes s t) : HasTy Γ (.binary op lhs rhs) t
  | assign {lhs rhs : Expr} {name : Symbol} {sym : SemaSymbol} {t : ObjTy}
      (hroot : lhs.root = some name) (hsym : Γ.resolve name = some sym)
      (hconst : sym.isConst = false) (hscalar : t.isScalar = true) (hl : HasTy Γ lhs t)
      (hr : HasTy Γ rhs t) : HasTy Γ (.assign lhs rhs) t

section

variable {Γ : Scoping} {σ : Sema}

/-- A type equals itself. -/
theorem typeEq_refl (funcs : List FuncTy) (t : ObjTy) :
    typeEq funcs (some (.obj t)) (some (.obj t)) = true :=
  ObjTy.typeEq_iff.mpr rfl

/-- The check of an operator is silent on operands it takes. -/
theorem BinOp.Takes.node {funcs : List FuncTy} {op : BinOp} {s t : ObjTy} {l r : Node}
    (hop : op.Takes s t) (hl : l.ty = some (.obj s)) (hr : r.ty = some (.obj s)) :
    binaryNode funcs op l r = some (.binary op (some (.obj t)) l r) := by
  unfold binaryNode
  rw [hl, hr, if_pos (typeEq_refl funcs s)]
  unfold BinOp.Takes at hop
  cases op with
  | add | sub | mul | div =>
      obtain ⟨hnum, rfl⟩ := hop
      cases t <;> first | rfl | cases hnum
  | mod =>
      obtain ⟨rfl, rfl⟩ := hop
      rfl
  | logAnd | logOr =>
      obtain ⟨rfl, rfl⟩ := hop
      rfl
  | _ =>
      obtain ⟨_, rfl⟩ := hop
      rfl

/-- The check for constants is silent on variables. -/
theorem Expr.isConstVar_node (hm : Models Γ σ) {name : Symbol} {sym : SemaSymbol}
    (hsym : Γ.resolve name = some sym) (hconst : sym.isConst = false) :
    ∀ {e : Expr} {n : Node}, e.node σ = some n → e.root = some name → n.isConstVar = false
  | .paren inner, n, h, hroot => Expr.isConstVar_node hm hsym hconst (e := inner) h hroot
  | .unary .plus operand, n, h, hroot =>
      Expr.isConstVar_node hm hsym hconst (e := operand) h hroot
  | .var _, n, h, hroot => by
      cases hroot
      obtain ⟨_, hlookup, rfl⟩ := Expr.node_var h
      rw [hm.lookup, hsym] at hlookup
      cases hlookup
      exact hconst
  | .index base sub, n, h, _ => by
      obtain ⟨l, r, _, _, hend⟩ := Expr.node_index h
      rw [indexNode_eq hend]
      rfl
  | .int _, _, _, hroot | .float _, _, _, hroot | .double _, _, _, hroot
  | .bool _, _, _, hroot | .call _ _, _, _, hroot | .unary .minus _, _, _, hroot
  | .unary .not _, _, _, hroot | .binary _ _ _, _, _, hroot | .assign _ _, _, _, hroot => by
      cases hroot

mutual

/-- No check fires in a typed expression, and its node has the type. -/
theorem Expr.HasTy.node (hm : Models Γ σ) : ∀ {e : Expr} {t : ObjTy}, e.HasTy Γ t →
    ∃ n, e.node σ = some n ∧ n.ty = some (.obj t)
  | .int val, _, h => by
      cases h
      exact ⟨_, rfl, rfl⟩
  | .float val, _, h => by
      cases h
      exact ⟨_, rfl, rfl⟩
  | .double val, _, h => by
      cases h
      exact ⟨_, rfl, rfl⟩
  | .bool val, _, h => by
      cases h
      exact ⟨_, rfl, rfl⟩
  | .paren inner, t, h => by
      cases h with
      | paren h => exact Expr.HasTy.node hm (e := inner) h
  | .var name, t, h => by
      cases h with
      | var hsym hty =>
          simp only [Expr.node, hm.lookup, hsym]
          exact ⟨_, rfl, hty⟩
  | .index base sub, t, h => by
      cases h with
      | index hbase hsub =>
          obtain ⟨l, hl, hlty⟩ := Expr.HasTy.node hm hbase
          obtain ⟨r, hr, _⟩ := Expr.HasTy.node hm hsub
          simp only [Expr.node, hl, hr, Option.bind_eq_bind, Option.bind_some, indexNode, hlty]
          exact ⟨_, rfl, rfl⟩
  | .call name args, t, h => by
      cases h with
      | call hsym hty hfunc hargs =>
          obtain ⟨ns, hns⟩ := args_node hm hargs
          simp only [Expr.node, hm.lookup, hsym, hns, hty, Option.bind_eq_bind,
            Option.bind_some, hm.callTy, Scoping.callTy, hfunc]
          exact ⟨_, rfl, rfl⟩
  | .unary .plus operand, t, h => by
      cases h with
      | plus _ h => exact Expr.HasTy.node hm (e := operand) h
  | .unary .minus operand, t, h => by
      cases h with
      | minus _ h =>
          obtain ⟨o, ho, hty⟩ := Expr.HasTy.node hm h
          simp only [Expr.node, ho, Option.bind_eq_bind, Option.bind_some]
          exact ⟨_, rfl, hty⟩
  | .unary .not operand, t, h => by
      cases h with
      | not h =>
          obtain ⟨o, ho, _⟩ := Expr.HasTy.node hm h
          simp only [Expr.node, ho, Option.bind_eq_bind, Option.bind_some]
          exact ⟨_, rfl, rfl⟩
  | .binary op lhs rhs, t, h => by
      cases h with
      | binary hl hr hop =>
          obtain ⟨l, hl, hlty⟩ := Expr.HasTy.node hm hl
          obtain ⟨r, hr, hrty⟩ := Expr.HasTy.node hm hr
          simp only [Expr.node, hl, hr, Option.bind_eq_bind, Option.bind_some,
            BinOp.Takes.node hop hlty hrty]
          exact ⟨_, rfl, rfl⟩
  | .assign lhs rhs, t, h => by
      cases h with
      | assign hroot hsym hconst _ hl hr =>
          obtain ⟨l, hl, hlty⟩ := Expr.HasTy.node hm hl
          obtain ⟨r, hr, hrty⟩ := Expr.HasTy.node hm hr
          have hvar := Expr.isConstVar_node hm hsym hconst hl hroot
          simp only [Expr.node, hl, hr, Option.bind_eq_bind, Option.bind_some, assignNode, hvar,
            hlty, hrty, typeEq_refl, Bool.false_eq_true, if_true, if_false]
          exact ⟨_, rfl, rfl⟩

/-- Arguments of the types that the function asks for are built. -/
theorem args_node (hm : Models Γ σ) : ∀ {es : List Expr} {tys : List ObjTy},
    List.Forall₂ (Expr.HasTy Γ) es tys → ∃ ns, argNodes σ es = some ns
  | [], _, _ => ⟨_, rfl⟩
  | e :: es, _, .cons h hs => by
      obtain ⟨n, hn, _⟩ := Expr.HasTy.node hm h
      obtain ⟨ns, hns⟩ := args_node hm hs
      simp only [argNodes, hn, hns, Option.bind_eq_bind, Option.bind_some]
      exact ⟨_, rfl⟩

end

end

/-! ## Declarations and statements -/

mutual

/-- The values in an element of a brace list have types. -/
def Elem.Typed (Γ : Scoping) : Elem → Prop
  | .value e => ∃ t, e.HasTy Γ t
  | .list es => elemsTyped Γ es

/-- Each element of a brace list is typed. -/
def elemsTyped (Γ : Scoping) : List Elem → Prop
  | [] => True
  | e :: es => e.Typed Γ ∧ elemsTyped Γ es

end

/-- A scalar initializer has the declared type. -/
def Init.Typed (Γ : Scoping) (ty : ObjTy) : Init → Prop
  | .expr e => ty.isScalar = true ∧ e.HasTy Γ ty
  | .list es => elemsTyped Γ es

/-- The scope does not have the name yet, and the initializer fits. -/
def Declarator.Typed (base : ObjTy) (isConst : Bool) (d : Declarator) (Γ : Scoping) : Prop :=
  Γ.history.declared d.name = false ∧
    ∀ init, d.init = some init →
      init.Typed (d.after base isConst Γ) (arrayTy base d.dims)

/-- Each declarator is typed behind those in front of it. -/
def declaratorsTyped (base : ObjTy) (isConst : Bool) : List Declarator → Scoping → Prop
  | [], _ => True
  | d :: ds, Γ => d.Typed base isConst Γ ∧
      declaratorsTyped base isConst ds (d.after base isConst Γ)

/-- A declaration is typed if its declarators are. -/
def Decl.Typed (d : Decl) (Γ : Scoping) : Prop :=
  declaratorsTyped d.ty.obj d.isConst d.declarators Γ

mutual

/-- The rules for a statement in a function that returns {lit}`ret`. -/
def Stmt.Typed (ret : ObjTy) : Stmt → Scoping → Prop
  | .ifThen cond body, Γ => cond.HasTy Γ .bool ∧ body.Typed ret Γ
  | .ifElse cond body alt, Γ =>
      cond.HasTy Γ .bool ∧ body.Typed ret Γ ∧ alt.Typed ret (body.after Γ)
  | .while cond body, Γ => cond.HasTy Γ .bool ∧ body.Typed ret Γ
  | .ret none, _ => ret = .void
  | .ret (some e), Γ => e.HasTy Γ ret
  | .break, _ | .continue, _ => True
  | .block items, Γ => blockTyped ret items Γ.enter
  | .expr e, Γ => ∃ t, e.HasTy Γ t
  | .assign lhs rhs, Γ => ∃ t, (Expr.assign lhs rhs).HasTy Γ t

/-- An item of a block is typed in a function that returns {lit}`ret`. -/
def BlockItem.Typed (ret : ObjTy) : BlockItem → Scoping → Prop
  | .decl d, Γ => d.Typed Γ
  | .stmt s, Γ => s.Typed ret Γ

/-- Each item of a block is typed behind those in front of it. -/
def blockTyped (ret : ObjTy) : List BlockItem → Scoping → Prop
  | [], _ => True
  | item :: items, Γ => item.Typed ret Γ ∧ blockTyped ret items (item.after Γ)

end

/-! ## Compilation units -/

/-- The parameters have different names. -/
def paramsDistinct : List Param → Scoping → Prop
  | [], _ => True
  | p :: ps, Γ => Γ.history.declared p.name = false ∧
      paramsDistinct ps (Γ.declare p.name (.obj p.obj) false)

/-- The parameters and the outermost items of the body share one scope. -/
def Func.Typed (f : Func) (Γ : Scoping) : Prop :=
  Γ.history.declared f.name = false ∧
    paramsDistinct f.params
      ((Γ.addFunc f.signature).declare f.name (.func Γ.funcs.length) false).enter ∧
    blockTyped f.ty.obj f.body (f.inside Γ)

/-- A top-level item is typed. -/
def Item.Typed : Item → Scoping → Prop
  | .func f, Γ => f.Typed Γ
  | .decl d, Γ => d.Typed Γ

/-- Each top-level item is typed behind those in front of it. -/
def itemsTyped : List Item → Scoping → Prop
  | [], _ => True
  | item :: items, Γ => item.Typed Γ ∧ itemsTyped items (item.after Γ)

/-- The built-in functions have different names. -/
def builtinsDistinct (intern : List UInt8 → Symbol) :
    List (List Char × ObjTy × Option ObjTy) → Scoping → Prop
  | [], _ => True
  | (name, ret, arg1Ty) :: bs, Γ =>
      Γ.history.declared (intern (name.map byte)) = false ∧
        builtinsDistinct intern bs ((Γ.addFunc ⟨ret, arg1Ty.toList.map some⟩).declare
          (intern (name.map byte)) (.func Γ.funcs.length) false)

/-- The rules for a compilation unit.  Its global scope begins with the built-in
functions. -/
def CompUnit.Typed (intern : List UInt8 → Symbol) (u : CompUnit) : Prop :=
  builtinsDistinct intern Parser.builtins (Scoping.enter ⟨History.empty, []⟩) ∧
    itemsTyped u (Scoping.start intern)

/-! ## No check fires -/

section

variable {Γ : Scoping} {σ : Sema}

mutual

/-- A typed element is built. -/
theorem Elem.Typed.node (hm : Models Γ σ) : ∀ {e : Elem}, e.Typed Γ → ∃ n, e.node σ = some n
  | .value e, h => by
      obtain ⟨t, ht⟩ := h
      obtain ⟨n, hn, _⟩ := ht.node hm
      exact ⟨n, hn⟩
  | .list es, h => by
      obtain ⟨ns, hns⟩ := elems_node hm h
      simp only [Elem.node, hns, Option.bind_eq_bind, Option.bind_some]
      exact ⟨_, rfl⟩

/-- So are typed elements. -/
theorem elems_node (hm : Models Γ σ) : ∀ {es : List Elem}, elemsTyped Γ es →
    ∃ ns, elemNodes σ es = some ns
  | [], _ => ⟨_, rfl⟩
  | e :: es, h => by
      obtain ⟨n, hn⟩ := Elem.Typed.node hm h.1
      obtain ⟨ns, hns⟩ := elems_node hm h.2
      simp only [elemNodes, hn, hns, Option.bind_eq_bind, Option.bind_some]
      exact ⟨_, rfl⟩

end

/-- So is a typed initializer. -/
theorem Init.Typed.node (hm : Models Γ σ) {ty : ObjTy} {init : Init} (h : init.Typed Γ ty)
    (field : Option Node) : ∃ r, initNode σ ty field (some init) = some r := by
  cases init with
  | expr e =>
      obtain ⟨n, hn, hty⟩ := h.2.node hm
      simp only [initNode, initExprNode, hn, hty, typeEq_refl, Option.bind_eq_bind,
        Option.bind_some, if_true, Option.map_some]
      exact ⟨_, rfl⟩
  | list es =>
      obtain ⟨n, hn⟩ := Elem.Typed.node (e := .list es) hm h
      simp only [initNode, hn, Option.map_some]
      exact ⟨_, rfl⟩

/-- A name that the scope does not have is defined. -/
theorem exists_defineSym {h : History Symbol SemaSymbol} (ht : Tracks h σ)
    {name : Symbol} (hname : h.declared name = false) (ty : Ty) (isConst : Bool) :
    ∃ sym σ', defineSym σ name ty isConst = some (sym, σ') := by
  unfold defineSym
  rw [ht.declared, hname]
  exact ⟨_, _, rfl⟩

variable {a : Analysis}

/-- So is a typed declarator. -/
theorem Declarator.Typed.build {base : ObjTy} {isConst : Bool} {d : Declarator}
    (hm : Models Γ a.sema) (h : d.Typed base isConst Γ) :
    ∃ n a', d.build noFields base isConst a = some (n, a') := by
  obtain ⟨sym, σ, hdef⟩ :=
    exists_defineSym hm.tracks h.1 (.obj (arrayTy base d.dims)) isConst
  have hm' := (hm.defineSym hdef).2
  simp only [Declarator.build, hdef, Option.bind_eq_bind, Option.bind_some]
  cases hd : d.init with
  | none => exact ⟨_, _, rfl⟩
  | some init =>
      obtain ⟨r, hr⟩ := (h.2 init hd).node hm' none
      rw [hr]
      exact ⟨_, _, rfl⟩

/-- So are typed declarators. -/
theorem declarators_build {base : ObjTy} {isConst : Bool} {ds : List Declarator}
    (hm : Models Γ a.sema) (h : declaratorsTyped base isConst ds Γ) :
    ∃ ns a', declaratorsBuild noFields base isConst ds a = some (ns, a') := by
  induction ds generalizing Γ a with
  | nil => exact ⟨_, _, rfl⟩
  | cons d ds ih =>
      obtain ⟨n, a₁, hn⟩ := h.1.build hm
      obtain ⟨ns, a₂, hns⟩ := ih (Declarator.resolved_build hm hn).2 h.2
      simp only [declaratorsBuild, hn, hns, Option.bind_eq_bind, Option.bind_some]
      exact ⟨_, _, rfl⟩

/-- So is a typed declaration. -/
theorem Decl.Typed.build {d : Decl} (hm : Models Γ a.sema) (h : d.Typed Γ) :
    ∃ n a', d.build noFields a = some (n, a') := by
  obtain ⟨ns, a', hns⟩ := declarators_build hm h
  simp only [Decl.build, hns, Option.bind_eq_bind, Option.bind_some]
  exact ⟨_, _, rfl⟩

/-- The check of a return statement is silent on a value of the right type. -/
theorem returnNode_of_actualTy {ret : ObjTy} {lhs : Option Node}
    (hret : σ.currFuncRet = some ret) (h : Parser.actualTy lhs = some (.obj ret)) :
    returnNode σ lhs = some (.retStmt tyVoid lhs) := by
  unfold returnNode
  rw [hret, h]
  by_cases hvoid : ret = .void
  · subst hvoid
    rfl
  · have hne : some (Ty.obj ret) ≠ tyVoid := by simpa [tyVoid] using hvoid
    rw [Option.map_some, if_neg hne, if_neg hne, if_pos (typeEq_refl _ _)]

mutual

/-- No check fires in a typed statement. -/
theorem Stmt.Typed.build {ret : ObjTy} : ∀ {s : Stmt} {Γ : Scoping} {a : Analysis},
    Models Γ a.sema → a.sema.currFuncRet = some ret → s.Typed ret Γ →
      ∃ n a', s.build noFields a = some (n, a')
  | .ifThen cond body, Γ, a, hm, hret, h => by
      obtain ⟨c, hc, _⟩ := h.1.node hm
      obtain ⟨b, a₁, hb⟩ := Stmt.Typed.build (a := ⟨a.sema, a.allocs + 1⟩) hm hret h.2
      simp only [Stmt.build, hc, hb, Option.bind_eq_bind, Option.bind_some]
      exact ⟨_, _, rfl⟩
  | .ifElse cond body alt, Γ, a, hm, hret, h => by
      obtain ⟨c, hc, _⟩ := h.1.node hm
      obtain ⟨b, a₁, hb⟩ := Stmt.Typed.build (a := ⟨a.sema, a.allocs + 1⟩) hm hret h.2.1
      have hm₁ := (Stmt.resolved_build (a := ⟨a.sema, a.allocs + 1⟩) hm hb).2
      have hret₁ := (Stmt.still_build hb).currFuncRet.trans hret
      obtain ⟨e, a₂, he⟩ := Stmt.Typed.build hm₁ hret₁ h.2.2
      simp only [Stmt.build, hc, hb, he, Option.bind_eq_bind, Option.bind_some]
      exact ⟨_, _, rfl⟩
  | .while cond body, Γ, a, hm, hret, h => by
      obtain ⟨c, hc, _⟩ := h.1.node hm
      obtain ⟨b, a₁, hb⟩ := Stmt.Typed.build hm hret h.2
      simp only [Stmt.build, hc, hb, Option.bind_eq_bind, Option.bind_some]
      exact ⟨_, _, rfl⟩
  | .ret none, Γ, a, hm, hret, h => by
      have hvoid : ret = .void := h
      have hreturn : returnNode a.sema none = some (.retStmt tyVoid none) :=
        returnNode_of_actualTy hret (hvoid ▸ rfl)
      simp only [Stmt.build, hreturn, Option.bind_eq_bind, Option.bind_some]
      exact ⟨_, _, rfl⟩
  | .ret (some e), Γ, a, hm, hret, h => by
      obtain ⟨v, hv, hty⟩ := Expr.HasTy.node hm h
      have hreturn : returnNode a.sema (some v) = some (.retStmt tyVoid (some v)) :=
        returnNode_of_actualTy hret hty
      simp only [Stmt.build, hv, hreturn, Option.bind_eq_bind, Option.bind_some]
      exact ⟨_, _, rfl⟩
  | .break, Γ, a, hm, hret, h => ⟨_, _, rfl⟩
  | .continue, Γ, a, hm, hret, h => ⟨_, _, rfl⟩
  | .block items, Γ, a, hm, hret, h => by
      obtain ⟨ns, a', hns⟩ := block_build (a := ⟨a.sema.enter, a.allocs⟩) hm.enter hret h
      simp only [Stmt.build, hns, Option.bind_eq_bind, Option.bind_some]
      exact ⟨_, _, rfl⟩
  | .expr e, Γ, a, hm, hret, h => by
      obtain ⟨t, ht⟩ := h
      obtain ⟨n, hn, _⟩ := ht.node hm
      simp only [Stmt.build, hn, Option.bind_eq_bind, Option.bind_some]
      exact ⟨_, _, rfl⟩
  | .assign lhs rhs, Γ, a, hm, hret, h => by
      obtain ⟨t, ht⟩ := h
      obtain ⟨n, hn, _⟩ := ht.node hm
      obtain ⟨l, r, hl, hr, hassign⟩ := Expr.node_assign hn
      simp only [Stmt.build, hl, hr, hassign, Option.bind_eq_bind, Option.bind_some]
      exact ⟨_, _, rfl⟩

/-- So is a typed item of a block. -/
theorem BlockItem.Typed.build {ret : ObjTy} : ∀ {item : BlockItem} {Γ : Scoping}
    {a : Analysis}, Models Γ a.sema → a.sema.currFuncRet = some ret → item.Typed ret Γ →
      ∃ n a', item.build noFields a = some (n, a')
  | .decl _, _, _, hm, _, h => Decl.Typed.build hm h
  | .stmt s, _, _, hm, hret, h => Stmt.Typed.build (s := s) hm hret h

/-- So is a typed block. -/
theorem block_build {ret : ObjTy} : ∀ {items : List BlockItem} {Γ : Scoping} {a : Analysis},
    Models Γ a.sema → a.sema.currFuncRet = some ret → blockTyped ret items Γ →
      ∃ ns a', blockBuild noFields items a = some (ns, a')
  | [], _, _, _, _, _ => ⟨_, _, rfl⟩
  | item :: items, Γ, a, hm, hret, h => by
      obtain ⟨n, a₁, hn⟩ := BlockItem.Typed.build hm hret h.1
      have hret₁ := (BlockItem.local_build hn).currFuncRet.trans hret
      obtain ⟨ns, a₂, hns⟩ := block_build (BlockItem.resolved_build hm hn).2 hret₁ h.2
      simp only [blockBuild, hn, hns, Option.bind_eq_bind, Option.bind_some]
      exact ⟨_, _, rfl⟩

end

/-- Parameters with different names are declared. -/
theorem params_build (id : Nat) {ps : List Param} (ht : Tracks Γ.history σ)
    (h : paramsDistinct ps Γ) : ∃ σ', paramsBuild id ps σ = some σ' := by
  induction ps generalizing Γ σ with
  | nil => exact ⟨σ, rfl⟩
  | cons p ps ih =>
      obtain ⟨sym, σ₁, hdef⟩ := exists_defineSym ht h.1 (.obj p.obj) false
      have ht₁ := (ht.defineSym hdef).2
      have ht₂ : Tracks (Γ.declare p.name (.obj p.obj) false).history
          (σ₁.pushParam id (some p.obj)) := ht₁.of_scopes rfl rfl rfl
      obtain ⟨σ', hσ'⟩ := ih ht₂ h.2
      simp only [paramsBuild, hdef, hσ', Option.bind_eq_bind, Option.bind_some]
      exact ⟨_, rfl⟩

/-- A typed function is built. -/
theorem Func.Typed.build {f : Func} (hm : Models Γ a.sema) (h : f.Typed Γ) :
    ∃ n a', f.build noFields a = some (n, a') := by
  have ht₀ : Tracks (Γ.addFunc f.signature).history (a.sema.newFunc f.ty.obj) :=
    hm.tracks.of_scopes rfl rfl rfl
  obtain ⟨sym, σ₁, hdef⟩ :=
    exists_defineSym ht₀ h.1 (.func a.sema.funcs.length) false
  have ht₁ : Tracks ((Γ.addFunc f.signature).declare f.name (.func Γ.funcs.length)
      false).history { σ₁ with currFuncRet := some f.ty.obj } := by
    have hdeclare := (ht₀.defineSym hdef).2
    rw [hm.funcs] at hdeclare
    exact hdeclare.of_scopes rfl rfl rfl
  obtain ⟨σ₂, hparams⟩ := params_build a.sema.funcs.length ht₁.enter h.2.1
  have hm₂ := Func.models_inside hm hdef hparams
  have hret : σ₂.currFuncRet = some f.ty.obj := (local_paramsBuild hparams).2
  obtain ⟨ns, a', hns⟩ := block_build (a := ⟨σ₂, a.allocs⟩) hm₂ hret h.2.2
  simp only [Func.build, hdef, hparams, hns, Option.bind_eq_bind, Option.bind_some]
  exact ⟨_, _, rfl⟩

/-- So is a typed top-level item. -/
theorem Item.Typed.build {item : Item} (hm : Models Γ a.sema) (h : item.Typed Γ) :
    ∃ n a', item.build noFields a = some (n, a') := by
  cases item with
  | func f => exact Func.Typed.build hm h
  | decl d => exact Decl.Typed.build hm h

/-- So is a typed file. -/
theorem items_build {items : List Item} (hm : Models Γ a.sema) (h : itemsTyped items Γ) :
    ∃ ns a', itemsBuild noFields items a = some (ns, a') := by
  induction items generalizing Γ a with
  | nil => exact ⟨_, _, rfl⟩
  | cons item items ih =>
      obtain ⟨n, a₁, hn⟩ := h.1.build hm
      obtain ⟨ns, a₂, hns⟩ := ih (Item.resolved_build hm hn).2 h.2
      simp only [itemsBuild, hn, hns, Option.bind_eq_bind, Option.bind_some]
      exact ⟨_, _, rfl⟩

/-- The built-in functions are installed. -/
theorem builtins_build {intern : List UInt8 → Symbol}
    {bs : List (List Char × ObjTy × Option ObjTy)} (hm : Models Γ σ)
    (h : builtinsDistinct intern bs Γ) : ∃ σ', builtinsBuild intern bs σ = some σ' := by
  induction bs generalizing Γ σ with
  | nil => exact ⟨σ, rfl⟩
  | cons entry bs ih =>
      rcases entry with ⟨name, ret, arg1Ty⟩
      have hm₁ := hm.builtin ret arg1Ty
      obtain ⟨sym, σ₁, hdef⟩ := exists_defineSym hm₁.tracks h.1 (.func σ.funcs.length) false
      have hm₂ := (hm₁.defineSym hdef).2
      rw [hm.funcs] at hm₂
      obtain ⟨σ', hσ'⟩ := ih hm₂ h.2
      simp only [builtinsBuild, hdef, hσ', Option.bind_eq_bind, Option.bind_some]
      exact ⟨_, rfl⟩

/-- No check fires in a typed compilation unit. -/
theorem CompUnit.Typed.build {intern : List UInt8 → Symbol} {u : CompUnit}
    (h : u.Typed intern) : ∃ ns a', u.build intern noFields = some (ns, a') := by
  obtain ⟨σ, hσ⟩ := builtins_build models_init h.1
  have hm : Models (Scoping.start intern) σ := builtins_resolved models_init hσ
  obtain ⟨ns, a', hns⟩ := items_build (a := ⟨σ, 0⟩) hm h.2
  simp only [CompUnit.build, hσ, hns, Option.bind_eq_bind, Option.bind_some]
  exact ⟨_, _, rfl⟩

/-! ## Rearranging -/

variable {ret : ObjTy} {alt : Stmt}

/-- An {lit}`else` that is given to another {lit}`if` leaves the same names behind. -/
theorem after_attach {s : Stmt} (h : s.isOpen = true) (Γ : Scoping) :
    (attach alt s).after Γ = alt.after (s.after Γ) := by
  induction s using attach.induct generalizing Γ with
  | case1 cond body hopen ih => simp [attach, hopen, Stmt.after, ih hopen]
  | case2 cond body hopen => simp [attach, hopen, Stmt.after]
  | case3 cond body alt' ih => simp [attach, Stmt.after, ih h]
  | case4 cond body ih => simp [attach, Stmt.after, ih h]
  | case5 s h₁ h₂ h₃ =>
      cases s <;> simp_all [Stmt.isOpen]

/-- It stays typed. -/
theorem typed_attach {s : Stmt} (h : s.isOpen = true) {Γ : Scoping} (hs : s.Typed ret Γ)
    (halt : alt.Typed ret (s.after Γ)) : (attach alt s).Typed ret Γ := by
  induction s using attach.induct generalizing Γ with
  | case1 cond body hopen ih =>
      simp only [attach, hopen, if_true]
      exact ⟨hs.1, ih hopen hs.2 halt⟩
  | case2 cond body hopen =>
      simp only [attach, hopen]
      exact ⟨hs.1, hs.2, halt⟩
  | case3 cond body alt' ih => exact ⟨hs.1, hs.2.1, ih h hs.2.2 halt⟩
  | case4 cond body ih => exact ⟨hs.1, ih h hs.2 halt⟩
  | case5 s h₁ h₂ h₃ =>
      cases s <;> simp_all [Stmt.isOpen]

mutual

/-- A statement whose {lit}`else` branches are given to the nearest {lit}`if` leaves the same names
behind. -/
theorem Stmt.after_rearranged : ∀ (s : Stmt) (Γ : Scoping), s.rearranged.after Γ = s.after Γ
  | .ifThen cond body, Γ => by
      simp only [Stmt.rearranged, Stmt.after, body.after_rearranged]
  | .ifElse cond body alt, Γ => by
      unfold Stmt.rearranged
      split
      · rename_i hopen
        simp only [Stmt.after, after_attach hopen, body.after_rearranged, alt.after_rearranged]
      · simp only [Stmt.after, body.after_rearranged, alt.after_rearranged]
  | .while cond body, Γ => by
      simp only [Stmt.rearranged, Stmt.after, body.after_rearranged]
  | .ret _, _ => rfl
  | .break, _ => rfl
  | .continue, _ => rfl
  | .block items, Γ => by
      simp only [Stmt.rearranged, Stmt.after, block_after_rearranged items]
  | .expr _, _ => rfl
  | .assign _ _, _ => rfl

/-- So does an item of a block. -/
theorem BlockItem.after_rearranged : ∀ (item : BlockItem) (Γ : Scoping),
    item.rearranged.after Γ = item.after Γ
  | .decl _, _ => rfl
  | .stmt s, Γ => by simp only [BlockItem.rearranged, BlockItem.after, s.after_rearranged]

/-- So does a block. -/
theorem block_after_rearranged : ∀ (items : List BlockItem) (Γ : Scoping),
    blockAfter (blockRearranged items) Γ = blockAfter items Γ
  | [], _ => rfl
  | item :: items, Γ => by
      simp only [blockRearranged, blockAfter, item.after_rearranged,
        block_after_rearranged items]

end

mutual

/-- A statement stays typed when its {lit}`else` branches are given to the nearest {lit}`if`. -/
theorem Stmt.Typed.rearranged : ∀ {s : Stmt} {Γ : Scoping}, s.Typed ret Γ →
    s.rearranged.Typed ret Γ
  | .ifThen _ _, _, h => ⟨h.1, h.2.rearranged⟩
  | .ifElse cond body alt, Γ, h => by
      have halt : alt.rearranged.Typed ret (body.rearranged.after Γ) := by
        rw [body.after_rearranged]
        exact h.2.2.rearranged
      unfold Stmt.rearranged
      split
      · rename_i hopen
        exact ⟨h.1, typed_attach hopen h.2.1.rearranged halt⟩
      · exact ⟨h.1, h.2.1.rearranged, halt⟩
  | .while _ _, _, h => ⟨h.1, h.2.rearranged⟩
  | .ret none, _, h => h
  | .ret (some _), _, h => h
  | .break, _, h => h
  | .continue, _, h => h
  | .block items, _, h => blockTyped_rearranged items h
  | .expr _, _, h => h
  | .assign _ _, _, h => h

/-- So does an item of a block. -/
theorem BlockItem.Typed.rearranged : ∀ {item : BlockItem} {Γ : Scoping}, item.Typed ret Γ →
    item.rearranged.Typed ret Γ
  | .decl _, _, h => h
  | .stmt s, _, h => Stmt.Typed.rearranged (s := s) h

/-- So does a block. -/
theorem blockTyped_rearranged : ∀ (items : List BlockItem) {Γ : Scoping},
    blockTyped ret items Γ → blockTyped ret (blockRearranged items) Γ
  | [], _, h => h
  | item :: items, Γ, h => by
      refine ⟨h.1.rearranged, ?_⟩
      rw [item.after_rearranged]
      exact blockTyped_rearranged items h.2

end

/-- So does a top-level item. -/
theorem Item.Typed.rearranged {item : Item} (h : item.Typed Γ) : item.rearranged.Typed Γ := by
  cases item with
  | func f => exact ⟨h.1, h.2.1, blockTyped_rearranged f.body h.2.2⟩
  | decl d => exact h

/-- A top-level item leaves the same names behind. -/
theorem Item.after_rearranged (item : Item) : item.rearranged.after Γ = item.after Γ := by
  cases item with
  | func f => exact congrArg Scoping.leave (block_after_rearranged f.body (f.inside Γ))
  | decl d => rfl

/-- A whole file stays typed. -/
theorem itemsTyped_rearranged {items : List Item} (h : itemsTyped items Γ) :
    itemsTyped (items.map Item.rearranged) Γ := by
  induction items generalizing Γ with
  | nil => exact h
  | cons item items ih =>
      refine ⟨h.1.rearranged, ?_⟩
      rw [item.after_rearranged]
      exact ih h.2

/-- A typed compilation unit stays typed when every {lit}`else` is given to the nearest
{lit}`if`. -/
theorem CompUnit.Typed.rearranged {intern : List UInt8 → Symbol} {u : CompUnit}
    (h : u.Typed intern) : u.rearranged.Typed intern :=
  ⟨h.1, itemsTyped_rearranged h.2⟩

end

end Grammar

end Cact
