import Cact.Grammar.TypedNodes
import Cact.Grammar.Unchecked

/-!
# Sites

The places of a program at which the rules of the language say something: its expressions,
with all their parts, its conditions and its declarators.  Every place comes with the
declarations in front of it, and a walk over a tree and its nodes in parallel finds the
node that was built there.  Fields that a statement leaves unwritten are not visited.

Main results:

- Definitions {lit}`CompUnit.sites` and {lit}`CompUnit.pairs`: the places of a program,
  and the same with their nodes.
- Theorem {lit}`Expr.ty_node`: the type of a node is the one that the declarations give.
- Theorem {lit}`CompUnit.built_pairs`: the analysis has built a node for every place.
- Theorem {lit}`Covers.forall_iff`: a rule about nodes as one about the source.
-/

namespace Cact

namespace Grammar

/-- What a rule of the language speaks about. -/
inductive Phrase where
  | expr (e : Expr)
  | cond (e : Expr)
  | decl (base : ObjTy) (isConst : Bool) (d : Declarator)

/-- A phrase of a program and the declarations it can see. -/
structure Site where
  scoping : Scoping
  phrase : Phrase

/-! ## Expressions -/

mutual

/-- An expression and its parts. -/
def Expr.parts : Expr → List Expr
  | .int val => [.int val]
  | .float val => [.float val]
  | .double val => [.double val]
  | .bool val => [.bool val]
  | .var name => [.var name]
  | .paren inner => .paren inner :: inner.parts
  | .index base sub => .index base sub :: (base.parts ++ sub.parts)
  | .call name args => .call name args :: argParts args
  | .unary op operand => .unary op operand :: operand.parts
  | .binary op lhs rhs => .binary op lhs rhs :: (lhs.parts ++ rhs.parts)
  | .assign lhs rhs => .assign lhs rhs :: (lhs.parts ++ rhs.parts)

/-- The expressions inside the arguments of a call. -/
def argParts : List Expr → List Expr
  | [] => []
  | e :: es => e.parts ++ argParts es

end

mutual

/-- An expression and its parts, with their nodes.  Parentheses and unary plus have the
node of what follows. -/
def Expr.pairs : Expr → Node → List (Expr × Node)
  | .int val, n => [(.int val, n)]
  | .float val, n => [(.float val, n)]
  | .double val, n => [(.double val, n)]
  | .bool val, n => [(.bool val, n)]
  | .var name, n => [(.var name, n)]
  | .paren inner, n => (.paren inner, n) :: inner.pairs n
  | .index base sub, n =>
      (.index base sub, n) ::
        match n.children with
        | [l, r] => base.pairs l ++ sub.pairs r
        | _ => []
  | .call name args, n => (.call name args, n) :: argPairs args n.children
  | .unary .plus operand, n => (.unary .plus operand, n) :: operand.pairs n
  | .unary op operand, n =>
      (.unary op operand, n) ::
        match n.children with
        | [l] => operand.pairs l
        | _ => []
  | .binary op lhs rhs, n =>
      (.binary op lhs rhs, n) ::
        match n.children with
        | [l, r] => lhs.pairs l ++ rhs.pairs r
        | _ => []
  | .assign lhs rhs, n =>
      (.assign lhs rhs, n) ::
        match n.children with
        | [l, r] => lhs.pairs l ++ rhs.pairs r
        | _ => []

/-- The same with their nodes. -/
def argPairs : List Expr → List Node → List (Expr × Node)
  | e :: es, n :: ns => e.pairs n ++ argPairs es ns
  | _, _ => []

end

mutual

/-- The expressions in an element of a brace list. -/
def Elem.parts : Elem → List Expr
  | .value e => e.parts
  | .list es => elemParts es

/-- The expressions inside the elements of a brace list. -/
def elemParts : List Elem → List Expr
  | [] => []
  | e :: es => e.parts ++ elemParts es

end

mutual

/-- The expressions inside an element, with their nodes. -/
def Elem.pairs : Elem → Node → List (Expr × Node)
  | .value e, n => e.pairs n
  | .list es, n => elemPairs es n.children

/-- The expressions inside the elements of a brace list, with their nodes. -/
def elemPairs : List Elem → List Node → List (Expr × Node)
  | e :: es, n :: ns => e.pairs n ++ elemPairs es ns
  | _, _ => []

end

/-- The expressions in an initializer. -/
def Init.parts : Init → List Expr
  | .expr e => e.parts
  | .list es => elemParts es

/-- The expressions inside an initializer, with their nodes. -/
def Init.pairs : Init → Node → List (Expr × Node)
  | .expr e, n => e.pairs n
  | .list es, n => (Elem.list es).pairs n

/-! ## Declarations and statements -/

/-- Expressions as places. -/
def exprSites (Γ : Scoping) (es : List Expr) : List Site := es.map fun e => ⟨Γ, .expr e⟩

/-- The places of expressions, with their nodes. -/
def exprPairs (Γ : Scoping) (ps : List (Expr × Node)) : List (Site × Node) :=
  ps.map fun p => (⟨Γ, .expr p.1⟩, p.2)

/-- A condition is a place of its own. -/
def condSites (Γ : Scoping) (cond : Expr) : List Site :=
  ⟨Γ, .cond cond⟩ :: exprSites Γ cond.parts

/-- The places in a condition, with their nodes. -/
def condPairs (Γ : Scoping) (cond : Expr) (n : Node) : List (Site × Node) :=
  (⟨Γ, .cond cond⟩, n) :: exprPairs Γ (cond.pairs n)

/-- The declarator and what its initializer contains. -/
def Declarator.sites (base : ObjTy) (isConst : Bool) (d : Declarator) (Γ : Scoping) :
    List Site :=
  ⟨d.after base isConst Γ, .decl base isConst d⟩ ::
    exprSites (d.after base isConst Γ) ((d.init.map Init.parts).getD [])

/-- The places in a declarator, with their nodes. -/
def Declarator.pairs (base : ObjTy) (isConst : Bool) (d : Declarator) (Γ : Scoping)
    (n : Node) : List (Site × Node) :=
  (⟨d.after base isConst Γ, .decl base isConst d⟩, n) ::
    exprPairs (d.after base isConst Γ)
      (match d.init, n with
        | some init, .varDecl _ _ (some m) => init.pairs m
        | _, _ => [])

/-- The places in the declarators of a declaration. -/
def declaratorsSites (base : ObjTy) (isConst : Bool) : List Declarator → Scoping → List Site
  | [], _ => []
  | d :: ds, Γ =>
      d.sites base isConst Γ ++ declaratorsSites base isConst ds (d.after base isConst Γ)

/-- The same with their nodes. -/
def declaratorsPairs (base : ObjTy) (isConst : Bool) :
    List Declarator → Scoping → List Node → List (Site × Node)
  | d :: ds, Γ, n :: ns =>
      d.pairs base isConst Γ n ++
        declaratorsPairs base isConst ds (d.after base isConst Γ) ns
  | _, _, _ => []

/-- The statements of a block node. -/
def Node.stmts : Node → List Node
  | .block _ stmts => stmts
  | _ => []

/-- The places in a declaration. -/
def Decl.sites (d : Decl) (Γ : Scoping) : List Site :=
  declaratorsSites d.ty.obj d.isConst d.declarators Γ

/-- The same with their nodes. -/
def Decl.pairs (d : Decl) (Γ : Scoping) (n : Node) : List (Site × Node) :=
  declaratorsPairs d.ty.obj d.isConst d.declarators Γ (Node.stmts n)

mutual

/-- The places of a statement. -/
def Stmt.sites : Stmt → Scoping → List Site
  | .ifThen cond body, Γ => condSites Γ cond ++ body.sites Γ
  | .ifElse cond body alt, Γ =>
      condSites Γ cond ++ (body.sites Γ ++ alt.sites (body.after Γ))
  | .while cond body, Γ => condSites Γ cond ++ body.sites Γ
  | .ret value, Γ => exprSites Γ ((value.map Expr.parts).getD [])
  | .break, _ | .continue, _ => []
  | .block items, Γ => blockSites items Γ.enter
  | .expr e, Γ => exprSites Γ e.parts
  | .assign lhs rhs, Γ => exprSites Γ (Expr.assign lhs rhs).parts

/-- The places in an item of a block. -/
def BlockItem.sites : BlockItem → Scoping → List Site
  | .decl d, Γ => d.sites Γ
  | .stmt s, Γ => s.sites Γ

/-- The places in a block. -/
def blockSites : List BlockItem → Scoping → List Site
  | [], _ => []
  | item :: items, Γ => item.sites Γ ++ blockSites items (item.after Γ)

end

mutual

/-- The places of a statement with their nodes. -/
def Stmt.pairs : Stmt → Scoping → Node → List (Site × Node)
  | .ifThen cond body, Γ, n =>
      match n with
      | .ifStmt _ (some c) (some b) _ => condPairs Γ cond c ++ body.pairs Γ b
      | _ => []
  | .ifElse cond body alt, Γ, n =>
      match n with
      | .ifStmt _ (some c) (some b) (some e) =>
          condPairs Γ cond c ++ (body.pairs Γ b ++ alt.pairs (body.after Γ) e)
      | _ => []
  | .while cond body, Γ, n =>
      match n with
      | .whileStmt _ (some c) (some b) => condPairs Γ cond c ++ body.pairs Γ b
      | _ => []
  | .ret value, Γ, n =>
      match value, n with
      | some e, .retStmt _ (some v) => exprPairs Γ (e.pairs v)
      | _, _ => []
  | .break, _, _ | .continue, _, _ => []
  | .block items, Γ, n => blockPairs items Γ.enter (Node.stmts n)
  | .expr e, Γ, n =>
      match n with
      | .exprStmt _ v => exprPairs Γ (e.pairs v)
      | _ => []
  | .assign lhs rhs, Γ, n =>
      match n with
      | .exprStmt _ v => exprPairs Γ ((Expr.assign lhs rhs).pairs v)
      | _ => []

/-- The places in an item of a block, with their nodes. -/
def BlockItem.pairs : BlockItem → Scoping → Node → List (Site × Node)
  | .decl d, Γ, n => d.pairs Γ n
  | .stmt s, Γ, n => s.pairs Γ n

/-- The places in a block, with their nodes. -/
def blockPairs : List BlockItem → Scoping → List Node → List (Site × Node)
  | item :: items, Γ, n :: ns => item.pairs Γ n ++ blockPairs items (item.after Γ) ns
  | _, _, _ => []

end

/-! ## Compilation units -/

/-- The places in a top-level item. -/
def Item.sites : Item → Scoping → List Site
  | .func f, Γ => blockSites f.body (f.inside Γ)
  | .decl d, Γ => d.sites Γ

/-- The same with their nodes. -/
def Item.pairs : Item → Scoping → Node → List (Site × Node)
  | .func f, Γ, n => blockPairs f.body (f.inside Γ) (Node.stmts n)
  | .decl d, Γ, n => d.pairs Γ n

/-- The places in a file. -/
def itemsSites : List Item → Scoping → List Site
  | [], _ => []
  | item :: items, Γ => item.sites Γ ++ itemsSites items (item.after Γ)

/-- The same with their nodes. -/
def itemsPairs : List Item → Scoping → List Node → List (Site × Node)
  | item :: items, Γ, n :: ns => item.pairs Γ n ++ itemsPairs items (item.after Γ) ns
  | _, _, _ => []

/-- The places of a compilation unit. -/
def CompUnit.sites (intern : List UInt8 → Symbol) (u : CompUnit) : List Site :=
  itemsSites u (Scoping.start intern)

/-- The places of a compilation unit with their nodes. -/
def CompUnit.pairs (intern : List UInt8 → Symbol) (u : CompUnit) (ns : List Node) :
    List (Site × Node) :=
  itemsPairs u (Scoping.start intern) ns

/-! ## Types by declaration -/

/-- The type of an expression, by the declarations of its names. -/
def Expr.ty (Γ : Scoping) : Expr → Option Ty
  | .int _ => tyInt
  | .float _ => tyFloat
  | .double _ => tyDouble
  | .bool _ => tyBool
  | .paren inner => inner.ty Γ
  | .var name => (Γ.resolve name).bind SemaSymbol.ty
  | .index base _ =>
      match base.ty Γ with
      | some (.obj (.array elem _)) => some (.obj elem)
      | _ => none
  | .call name _ => ((Γ.resolve name).bind SemaSymbol.ty).bind Γ.callTy
  | .unary .not _ => tyBool
  | .unary _ operand => operand.ty Γ
  | .binary op lhs _ =>
      match op with
      | .add | .sub | .mul | .div | .mod => lhs.ty Γ
      | _ => tyBool
  | .assign lhs _ => lhs.ty Γ

section

variable {Γ : Scoping} {σ : Sema}

/-- The parts of a checked operator node. -/
theorem binaryNode_ty {funcs : List FuncTy} {op : BinOp} {l r n : Node}
    (h : binaryNode funcs op l r = some n) :
    n.ty = match op with
      | .add | .sub | .mul | .div | .mod => l.ty
      | _ => tyBool := by
  unfold binaryNode at h
  split at h
  · cases op <;> dsimp only at h ⊢ <;>
      first
      | (cases h; rfl)
      | (split at h
         · cases h
           first
           | rfl
           | (rename_i hint; exact hint.symm)
         · cases h)
  · cases h

/-- The node of an expression has the type that the declarations give it. -/
theorem Expr.ty_node (hm : Models Γ σ) {e : Expr} {n : Node} (h : e.node σ = some n) :
    n.ty = e.ty Γ := by
  cases e with
  | int val | float val | double val | bool val =>
      cases h
      rfl
  | paren inner => exact Expr.ty_node hm (e := inner) h
  | var name =>
      obtain ⟨sym, hsym, rfl⟩ := Expr.node_var h
      rw [hm.lookup] at hsym
      simp only [Node.ty, Expr.ty, hsym, Option.bind_some]
  | index base sub =>
      obtain ⟨l, r, hl, hr, hend⟩ := Expr.node_index h
      obtain ⟨elem, len, hty, rfl⟩ := indexNode_cases hend
      rw [Expr.ty, ← Expr.ty_node hm hl, hty]
      rfl
  | call name args =>
      obtain ⟨sym, ns, ty, hsym, _, hty, rfl⟩ := Expr.node_call h
      rw [hm.lookup] at hsym
      simp only [Node.ty, Expr.ty, hsym, hty, Option.bind_some, hm.callTy]
  | unary op operand =>
      cases op with
      | plus => exact Expr.ty_node hm (e := operand) h
      | minus =>
          obtain ⟨o, ho, rfl⟩ := Expr.node_minus h
          have hty := Expr.ty_node hm ho
          exact hty
      | not =>
          obtain ⟨o, _, rfl⟩ := Expr.node_not h
          rfl
  | binary op lhs rhs =>
      obtain ⟨l, r, hl, _, hend⟩ := Expr.node_binary h
      rw [binaryNode_ty hend, Expr.ty_node hm hl]
      cases op <;> rfl
  | assign lhs rhs =>
      obtain ⟨l, r, hl, _, hend⟩ := Expr.node_assign h
      have hty := Expr.ty_node hm hl
      rw [assignNode_eq hend]
      exact hty

/-! ## Parentheses and signs -/

/-- The expression without the parentheses and the plus signs in front, which leave no
node. -/
def Expr.stripped : Expr → Expr
  | .paren inner => inner.stripped
  | .unary .plus operand => operand.stripped
  | e => e

/-- The name at the root of a variable or of a chain of subscripts. -/
def Expr.root : Expr → Option Symbol
  | .paren inner => inner.root
  | .unary .plus operand => operand.root
  | .var name => some name
  | .index base _ => base.root
  | _ => none

/-- How the node of an expression without parentheses and plus signs is built. -/
inductive Expr.Makes (σ : Sema) : Expr → Node → Prop
  | int (val : Int32) : Makes σ (.int val) (.litInt tyInt val)
  | float (val : BitVec 32) : Makes σ (.float val) (.litFloat tyFloat val)
  | double (val : BitVec 64) : Makes σ (.double val) (.litDouble tyDouble val)
  | bool (val : Bool) : Makes σ (.bool val) (.litBool tyBool val)
  | var {name : Symbol} {sym : SemaSymbol} (hsym : σ.lookup name = some sym) :
      Makes σ (.var name) (.var sym.ty (some sym))
  | index {base sub : Expr} {l r : Node} (hl : base.node σ = some l)
      (hr : sub.node σ = some r) :
      Makes σ (.index base sub) (.arrayAccess (elementTy l.ty) l (some r))
  | call {name : Symbol} {args : List Expr} {sym : SemaSymbol} {nodes : List Node} {ty : Ty}
      (hsym : σ.lookup name = some sym) (hargs : argNodes σ args = some nodes)
      (hty : sym.ty = some ty) :
      Makes σ (.call name args) (.funcCall (σ.callTy ty) name (nodes.map some))
  | minus {operand : Expr} {o : Node} (ho : operand.node σ = some o) :
      Makes σ (.unary .minus operand) (.neg o.ty (some o))
  | not {operand : Expr} {o : Node} (ho : operand.node σ = some o) :
      Makes σ (.unary .not operand) (.logNot tyBool (some o))
  | binary {op : BinOp} {lhs rhs : Expr} {l r : Node} (hl : lhs.node σ = some l)
      (hr : rhs.node σ = some r)
      (hcheck : binaryNode σ.funcs op l r = some (.binary op (binaryTy σ.funcs op l r) l r)) :
      Makes σ (.binary op lhs rhs) (.binary op (binaryTy σ.funcs op l r) l r)
  | assign {lhs rhs : Expr} {l r : Node} (hl : lhs.node σ = some l) (hr : rhs.node σ = some r)
      (hcheck : assignNode σ.funcs l r = some (.assign l.ty l r)) :
      Makes σ (.assign lhs rhs) (.assign l.ty l r)

/-- Every node is built in one of these ways. -/
theorem Expr.makes_of_node {e : Expr} {n : Node} (h : e.node σ = some n) :
    Expr.Makes σ e.stripped n := by
  cases e with
  | int val =>
      cases h
      exact .int val
  | float val =>
      cases h
      exact .float val
  | double val =>
      cases h
      exact .double val
  | bool val =>
      cases h
      exact .bool val
  | paren inner => exact Expr.makes_of_node (e := inner) h
  | var name =>
      obtain ⟨sym, hsym, rfl⟩ := Expr.node_var h
      exact .var hsym
  | index base sub =>
      obtain ⟨l, r, hl, hr, hend⟩ := Expr.node_index h
      rw [indexNode_eq hend]
      exact .index hl hr
  | call name args =>
      obtain ⟨sym, ns, ty, hsym, hns, hty, rfl⟩ := Expr.node_call h
      exact .call hsym hns hty
  | unary op operand =>
      cases op with
      | plus => exact Expr.makes_of_node (e := operand) h
      | minus =>
          obtain ⟨o, ho, rfl⟩ := Expr.node_minus h
          exact .minus ho
      | not =>
          obtain ⟨o, ho, rfl⟩ := Expr.node_not h
          exact .not ho
  | binary op lhs rhs =>
      obtain ⟨l, r, hl, hr, hend⟩ := Expr.node_binary h
      have heq := binaryNode_eq hend
      rw [heq] at hend ⊢
      exact .binary hl hr hend
  | assign lhs rhs =>
      obtain ⟨l, r, hl, hr, hend⟩ := Expr.node_assign h
      have heq := assignNode_eq hend
      rw [heq] at hend ⊢
      exact .assign hl hr hend

/-! ## Every place has its node -/

/-- The pairs of these expressions, each with the node the analysis builds for it. -/
def NodesOf (σ : Sema) : List Expr → List (Expr × Node) → Prop :=
  List.Forall₂ fun e p => p.1 = e ∧ e.node σ = some p.2

/-- The children of an operator are its operands. -/
theorem children_binaryNode {funcs : List FuncTy} {op : BinOp} {l r n : Node}
    (h : binaryNode funcs op l r = some n) : n.children = [l, r] :=
  (isExpr_binaryNode h).2

/-- Those of an assignment are its two sides. -/
theorem children_assignNode {funcs : List FuncTy} {l r n : Node}
    (h : assignNode funcs l r = some n) : n.children = [l, r] := by
  rw [assignNode_eq h]
  rfl

/-- Those of a subscript are its base and its index. -/
theorem children_indexNode {l r n : Node} (h : indexNode l r = some n) :
    n.children = [l, r] := by
  rw [indexNode_eq h]
  rfl

/-- A list of nodes that are all there. -/
theorem reduceOption_map_some (ns : List Node) : (ns.map some).reduceOption = ns := by
  simp [List.reduceOption]

mutual

/-- The walk finds the nodes of all parts of an expression. -/
theorem Expr.nodesOf_pairs : ∀ {e : Expr} {n : Node},
    e.node σ = some n → NodesOf σ e.parts (e.pairs n)
  | .int _, _, h => .cons ⟨rfl, h⟩ .nil
  | .float _, _, h => .cons ⟨rfl, h⟩ .nil
  | .double _, _, h => .cons ⟨rfl, h⟩ .nil
  | .bool _, _, h => .cons ⟨rfl, h⟩ .nil
  | .var _, _, h => .cons ⟨rfl, h⟩ .nil
  | .paren inner, _, h => .cons ⟨rfl, h⟩ (Expr.nodesOf_pairs (e := inner) h)
  | .index base sub, n, h => by
      obtain ⟨l, r, hl, hr, hend⟩ := Expr.node_index h
      rw [Expr.parts, Expr.pairs, children_indexNode hend]
      exact .cons ⟨rfl, h⟩
        (List.rel_append (Expr.nodesOf_pairs hl) (Expr.nodesOf_pairs hr))
  | .call name args, n, h => by
      obtain ⟨sym, ns, ty, _, hns, _, rfl⟩ := Expr.node_call h
      rw [Expr.parts, Expr.pairs, Node.children, reduceOption_map_some]
      exact .cons ⟨rfl, h⟩ (args_nodesOf hns)
  | .unary .plus operand, _, h => .cons ⟨rfl, h⟩ (Expr.nodesOf_pairs (e := operand) h)
  | .unary .minus operand, n, h => by
      obtain ⟨o, ho, rfl⟩ := Expr.node_minus h
      exact .cons ⟨rfl, h⟩ (Expr.nodesOf_pairs ho)
  | .unary .not operand, n, h => by
      obtain ⟨o, ho, rfl⟩ := Expr.node_not h
      exact .cons ⟨rfl, h⟩ (Expr.nodesOf_pairs ho)
  | .binary op lhs rhs, n, h => by
      obtain ⟨l, r, hl, hr, hend⟩ := Expr.node_binary h
      rw [Expr.parts, Expr.pairs, children_binaryNode hend]
      exact .cons ⟨rfl, h⟩
        (List.rel_append (Expr.nodesOf_pairs hl) (Expr.nodesOf_pairs hr))
  | .assign lhs rhs, n, h => by
      obtain ⟨l, r, hl, hr, hend⟩ := Expr.node_assign h
      rw [Expr.parts, Expr.pairs, children_assignNode hend]
      exact .cons ⟨rfl, h⟩
        (List.rel_append (Expr.nodesOf_pairs hl) (Expr.nodesOf_pairs hr))

/-- The arguments that are built pair up with their nodes. -/
theorem args_nodesOf : ∀ {es : List Expr} {ns : List Node},
    argNodes σ es = some ns → NodesOf σ (argParts es) (argPairs es ns)
  | [], _, h => by
      cases h
      exact .nil
  | e :: es, ns, h => by
      obtain ⟨n, ns', hn, hns', rfl⟩ := argNodes_cons h
      exact List.rel_append (Expr.nodesOf_pairs hn) (args_nodesOf hns')

end

mutual

/-- So does an element of a brace list. -/
theorem Elem.nodesOf_pairs : ∀ {e : Elem} {n : Node},
    e.node σ = some n → NodesOf σ e.parts (e.pairs n)
  | .value _, _, h => Expr.nodesOf_pairs h
  | .list es, n, h => by
      obtain ⟨ns, hns, rfl⟩ := Elem.node_list h
      rw [Elem.parts, Elem.pairs, Node.children, reduceOption_map_some]
      exact elems_nodesOf hns

/-- So do all elements. -/
theorem elems_nodesOf : ∀ {es : List Elem} {ns : List Node},
    elemNodes σ es = some ns → NodesOf σ (elemParts es) (elemPairs es ns)
  | [], _, h => by
      cases h
      exact .nil
  | e :: es, ns, h => by
      obtain ⟨n, ns', hn, hns', rfl⟩ := elemNodes_cons h
      exact List.rel_append (Elem.nodesOf_pairs hn) (elems_nodesOf hns')

end

/-- The node of an initializer. -/
def Init.node (σ : Sema) : Init → Option Node
  | .expr e => e.node σ
  | .list es => (Elem.list es).node σ

/-- The node of a phrase, as the analysis builds it. -/
def Phrase.Built (σ : Sema) : Phrase → Node → Prop
  | .expr e, n | .cond e, n => e.node σ = some n
  | .decl base _ d, n => ∃ sym field, n = .varDecl (some (.obj (arrayTy base d.dims))) sym field ∧
      ∀ init, d.init = some init → ∃ m, field = some m ∧ init.node σ = some m

/-- The same, in a state in which the analysis knows the declarations in front. -/
def Site.Built (s : Site) (n : Node) : Prop :=
  ∃ σ, Models s.scoping σ ∧ Tidy s.scoping ∧ s.phrase.Built σ n

/-- The pairs of these places, each with the node that is built there. -/
def Covers : List Site → List (Site × Node) → Prop :=
  List.Forall₂ fun s p => p.1 = s ∧ s.Built p.2

/-- Expressions that were built have the nodes that their places say. -/
theorem covers_exprPairs (hm : Models Γ σ) (ht : Tidy Γ) {es : List Expr}
    {ps : List (Expr × Node)} (h : NodesOf σ es ps) :
    Covers (exprSites Γ es) (exprPairs Γ ps) := by
  unfold Covers exprSites exprPairs
  rw [List.forall₂_map_left_iff, List.forall₂_map_right_iff]
  refine h.imp fun e p hp => ?_
  obtain ⟨rfl, hnode⟩ := hp
  exact ⟨rfl, σ, hm, ht, hnode⟩

/-- So has one expression with all that is inside it. -/
theorem covers_expr (hm : Models Γ σ) (ht : Tidy Γ) {e : Expr} {n : Node}
    (h : e.node σ = some n) : Covers (exprSites Γ e.parts) (exprPairs Γ (e.pairs n)) :=
  covers_exprPairs hm ht (Expr.nodesOf_pairs h)

/-- So has a condition. -/
theorem covers_cond (hm : Models Γ σ) (ht : Tidy Γ) {cond : Expr} {n : Node}
    (h : cond.node σ = some n) : Covers (condSites Γ cond) (condPairs Γ cond n) :=
  .cons ⟨rfl, σ, hm, ht, h⟩ (covers_expr hm ht h)

/-- An initializer that is built pairs up with its nodes. -/
theorem Init.nodesOf_pairs {init : Init} {n : Node} (h : init.node σ = some n) :
    NodesOf σ init.parts (init.pairs n) := by
  cases init with
  | expr e => exact Expr.nodesOf_pairs h
  | list es => exact Elem.nodesOf_pairs (e := .list es) h

/-- The initializer of a declaration node is the node of what stands in the source. -/
theorem initNode_node {ty : ObjTy} {field r : Option Node} {init : Init}
    (h : initNode σ ty field (some init) = some r) : ∃ m, r = some m ∧ init.node σ = some m := by
  cases init with
  | expr e =>
      obtain ⟨m, hm, _, rfl⟩ := initNode_expr h
      exact ⟨m, rfl, hm⟩
  | list es =>
      obtain ⟨m, hm, rfl⟩ := initNode_list h
      exact ⟨m, rfl, hm⟩

variable {F : List FuncTy} {fresh : Nat → Option Node} {a a' : Analysis} {n : Node}

/-- So does a declarator. -/
theorem Declarator.built_pairs {base : ObjTy} {isConst : Bool} {d : Declarator}
    (hs : Seen F Γ a.sema) (h : d.build fresh base isConst a = some (n, a')) :
    Covers (d.sites base isConst Γ) (d.pairs base isConst Γ n) := by
  have hs' := hs.declarator h
  obtain ⟨sym, σ, field, hdef, hinit, rfl, rfl⟩ := Declarator.build_cases h
  refine .cons ⟨rfl, σ, hs'.models, hs'.tidy, some sym, field, rfl, ?_⟩ ?_
  · intro init hd
    rw [hd] at hinit
    exact initNode_node hinit
  · apply covers_exprPairs hs'.models hs'.tidy
    cases hd : d.init with
    | none => exact .nil
    | some init =>
        rw [hd] at hinit
        obtain ⟨m, rfl, hm⟩ := initNode_node hinit
        exact Init.nodesOf_pairs hm

/-- So do the declarators of a declaration. -/
theorem declarators_built {base : ObjTy} {isConst : Bool} {ds : List Declarator}
    {ns : List Node} (hs : Seen F Γ a.sema)
    (h : declaratorsBuild fresh base isConst ds a = some (ns, a')) :
    Covers (declaratorsSites base isConst ds Γ) (declaratorsPairs base isConst ds Γ ns) := by
  induction ds generalizing Γ a ns with
  | nil =>
      cases h
      exact .nil
  | cons d ds ih =>
      obtain ⟨n, a₁, ns', hd, hds, rfl⟩ := declaratorsBuild_cons h
      exact List.rel_append (Declarator.built_pairs hs hd) (ih (hs.declarator hd) hds)

/-- So does a declaration. -/
theorem Decl.built_pairs {d : Decl} (hs : Seen F Γ a.sema)
    (h : d.build fresh a = some (n, a')) : Covers (d.sites Γ) (d.pairs Γ n) := by
  obtain ⟨ns, hds, rfl⟩ := Decl.build_cases h
  exact declarators_built hs hds

mutual

/-- The analysis has built a node for every place of a statement. -/
theorem Stmt.built_pairs : ∀ {s : Stmt} {Γ : Scoping} {a a' : Analysis} {n : Node},
    Seen F Γ a.sema → s.build fresh a = some (n, a') → Covers (s.sites Γ) (s.pairs Γ n)
  | .ifThen cond body, Γ, a, a', n, hs, h => by
      obtain ⟨c, b, hc, hbody, rfl⟩ := Stmt.build_ifThen h
      exact List.rel_append (covers_cond hs.models hs.tidy hc)
        (Stmt.built_pairs (a := ⟨a.sema, a.allocs + 1⟩) hs hbody)
  | .ifElse cond body alt, Γ, a, a', n, hs, h => by
      obtain ⟨c, b, a₁, e, hc, hbody, halt, rfl⟩ := Stmt.build_ifElse h
      have hs₁ := Seen.stmt (a := ⟨a.sema, a.allocs + 1⟩) hs hbody
      exact List.rel_append (covers_cond hs.models hs.tidy hc)
        (List.rel_append (Stmt.built_pairs (a := ⟨a.sema, a.allocs + 1⟩) hs hbody)
          (Stmt.built_pairs hs₁ halt))
  | .while cond body, Γ, a, a', n, hs, h => by
      obtain ⟨c, b, hc, hbody, rfl⟩ := Stmt.build_while h
      exact List.rel_append (covers_cond hs.models hs.tidy hc) (Stmt.built_pairs hs hbody)
  | .ret none, Γ, a, a', n, hs, h => .nil
  | .ret (some e), Γ, a, a', n, hs, h => by
      obtain ⟨v, hv, hr, rfl⟩ := Stmt.build_ret_some h
      rw [returnNode_eq hr]
      exact covers_expr hs.models hs.tidy hv
  | .break, Γ, a, a', n, hs, h => .nil
  | .continue, Γ, a, a', n, hs, h => .nil
  | .block items, Γ, a, a', n, hs, h => by
      obtain ⟨ns, a₁, hitems, rfl, rfl⟩ := Stmt.build_block h
      exact block_built (a := ⟨a.sema.enter, a.allocs⟩) hs.enter hitems
  | .expr e, Γ, a, a', n, hs, h => by
      obtain ⟨v, hv, rfl, rfl⟩ := Stmt.build_expr h
      exact covers_expr hs.models hs.tidy hv
  | .assign lhs rhs, Γ, a, a', n, hs, h => by
      obtain ⟨v, hassign, rfl, rfl⟩ := Stmt.build_assign h
      exact covers_expr hs.models hs.tidy hassign

/-- So does an item of a block. -/
theorem BlockItem.built_pairs : ∀ {item : BlockItem} {Γ : Scoping} {a a' : Analysis}
    {n : Node}, Seen F Γ a.sema → item.build fresh a = some (n, a') →
      Covers (item.sites Γ) (item.pairs Γ n)
  | .decl _, _, _, _, _, hs, h => Decl.built_pairs hs h
  | .stmt s, _, _, _, _, hs, h => Stmt.built_pairs (s := s) hs h

/-- So does a block. -/
theorem block_built : ∀ {items : List BlockItem} {Γ : Scoping} {a a' : Analysis}
    {ns : List Node}, Seen F Γ a.sema → blockBuild fresh items a = some (ns, a') →
      Covers (blockSites items Γ) (blockPairs items Γ ns)
  | [], Γ, a, a', ns, hs, h => by
      cases h
      exact .nil
  | item :: items, Γ, a, a', ns, hs, h => by
      obtain ⟨n, a₁, ns', hitem, hitems, rfl⟩ := blockBuild_cons h
      exact List.rel_append (BlockItem.built_pairs hs hitem)
        (block_built (hs.blockItem hitem) hitems)

end

/-- So does a top-level item. -/
theorem Item.built_pairs {item : Item} (hm : Models Γ a.sema) (ht : Tidy Γ)
    (h : item.build fresh a = some (n, a')) : Covers (item.sites Γ) (item.pairs Γ n) := by
  cases item with
  | func f =>
      obtain ⟨sym, σ₁, σ₂, ns, a₁, hdef, hparams, hbody, rfl, rfl⟩ := Func.build_cases h
      have hs : Seen σ₂.funcs (f.inside Γ) σ₂ :=
        ⟨Func.models_inside hm hdef hparams, f.tidy_inside ht, List.prefix_rfl⟩
      exact block_built (a := ⟨σ₂, a.allocs⟩) hs hbody
  | decl d => exact Decl.built_pairs ⟨hm, ht, List.prefix_rfl⟩ h

/-- So does a whole file. -/
theorem items_built {items : List Item} {ns : List Node} (hm : Models Γ a.sema) (ht : Tidy Γ)
    (h : itemsBuild fresh items a = some (ns, a')) :
    Covers (itemsSites items Γ) (itemsPairs items Γ ns) := by
  induction items generalizing Γ a ns with
  | nil =>
      cases h
      exact .nil
  | cons item items ih =>
      obtain ⟨n, a₁, ns', hitem, hitems, rfl⟩ := itemsBuild_cons h
      exact List.rel_append (Item.built_pairs hm ht hitem)
        (ih (Item.resolved_build hm hitem).2 (item.balanced_after Γ ht).tidy hitems)

/-- The analysis has built a node for every place of a compilation unit. -/
theorem CompUnit.built_pairs {intern : List UInt8 → Symbol} {u : CompUnit} {ns : List Node}
    (h : u.build intern fresh = some (ns, a')) :
    Covers (u.sites intern) (u.pairs intern ns) := by
  obtain ⟨σ, hσ, hitems⟩ := CompUnit.build_cases h
  exact items_built (a := ⟨σ, 0⟩) (builtins_resolved models_init hσ) (tidy_start intern) hitems

/-- A rule about the nodes of a program and a rule about its source agree, if they agree
wherever a node is built. -/
theorem Covers.forall_iff {sites : List Site} {pairs : List (Site × Node)}
    {R : Site → Node → Prop} {Q : Site → Prop} (h : Covers sites pairs)
    (hlocal : ∀ s n, s.Built n → (R s n ↔ Q s)) :
    (∀ p ∈ pairs, R p.1 p.2) ↔ ∀ s ∈ sites, Q s := by
  induction h with
  | nil => simp
  | cons hp _ ih =>
      obtain ⟨rfl, hbuilt⟩ := hp
      rw [List.forall_mem_cons, List.forall_mem_cons, ih, hlocal _ _ hbuilt]

end

end Grammar

end Cact
