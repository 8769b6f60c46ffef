import Cact.Grammar.Unchecked
import Cact.Library.LexicalScope

/-!
# Reference scoping

What every name in a syntax tree means, by lexical scoping alone.  The declarations of the
tree are collected in textual order, each with the scope it belongs to: the global scope,
one scope for every function, shared by its parameters and the outermost items of its
body, and one for every nested block.  A declarator is visible in its own initializer.

Main results:

- Definitions {lit}`Stmt.after`, {lit}`Func.after` and {lit}`CompUnit.after`: the
  declarations made so far.
- Definitions {lit}`Expr.Resolved`, {lit}`Stmt.Resolved` and {lit}`CompUnit.Resolved`: the
  nodes hold the symbols of the declarations their names mean.
- Theorem {lit}`CompUnit.resolved_build`: what the analysis builds is resolved.
-/

open LexicalScope

namespace Cact

namespace Grammar

/-! ## Declarations made so far -/

/-- The declarations made so far and the open scopes, and the functions declared so far. -/
structure Scoping where
  history : History Symbol SemaSymbol
  funcs : List FuncTy

namespace Scoping

/-- The symbol of the next declaration: its number in textual order, what the declarator
says, and whether only the global scope is open. -/
def symbol (Γ : Scoping) (name : Symbol) (ty : Ty) (isConst : Bool) : SemaSymbol where
  addr := Γ.history.decls.length
  name := name
  ty := some ty
  isConst := isConst
  isGlobal := Γ.history.path.tail.isEmpty
  stackOffset := 0

/-- A declaration adds to the history of scopes the symbol that it introduces. -/
def declare (Γ : Scoping) (name : Symbol) (ty : Ty) (isConst : Bool) : Scoping :=
  { Γ with history := Γ.history.declare name (Γ.symbol name ty isConst) }

/-- A scope is opened. -/
def enter (Γ : Scoping) : Scoping := { Γ with history := Γ.history.enter }

/-- The innermost scope is closed. -/
def leave (Γ : Scoping) : Scoping := { Γ with history := Γ.history.leave }

/-- What a name means. -/
def resolve (Γ : Scoping) (name : Symbol) : Option SemaSymbol := Γ.history.resolve name

/-- A new function. -/
def addFunc (Γ : Scoping) (f : FuncTy) : Scoping := { Γ with funcs := Γ.funcs ++ [f] }

/-- The type of a call of something declared with the type {lit}`ty`. -/
def callTy (Γ : Scoping) : Ty → Option Ty
  | .func id => Γ.funcs[id]?.map fun f => .obj f.ret
  | .obj _ => tyInt

end Scoping

/-- The declarations after a declarator. -/
def Declarator.after (base : ObjTy) (isConst : Bool) (d : Declarator) (Γ : Scoping) : Scoping :=
  Γ.declare d.name (.obj (arrayTy base d.dims)) isConst

/-- Each declarator is in the scope of those in front of it. -/
def declaratorsAfter (base : ObjTy) (isConst : Bool) : List Declarator → Scoping → Scoping
  | [], Γ => Γ
  | d :: ds, Γ => declaratorsAfter base isConst ds (d.after base isConst Γ)

/-- The declarations after a declaration. -/
def Decl.after (d : Decl) (Γ : Scoping) : Scoping :=
  declaratorsAfter d.ty.obj d.isConst d.declarators Γ

mutual

/-- The declarations after a statement: a block keeps its own for itself. -/
def Stmt.after : Stmt → Scoping → Scoping
  | .ifThen _ body, Γ => body.after Γ
  | .ifElse _ body alt, Γ => alt.after (body.after Γ)
  | .while _ body, Γ => body.after Γ
  | .block items, Γ => (blockAfter items Γ.enter).leave
  | .ret _, Γ | .break, Γ | .continue, Γ | .expr _, Γ | .assign _ _, Γ => Γ

/-- What is visible behind an item of a block. -/
def BlockItem.after : BlockItem → Scoping → Scoping
  | .decl d, Γ => d.after Γ
  | .stmt s, Γ => s.after Γ

/-- What is visible at the end of a block, from inside. -/
def blockAfter : List BlockItem → Scoping → Scoping
  | [], Γ => Γ
  | item :: items, Γ => blockAfter items (item.after Γ)

end

/-- The type of a function. -/
def Func.signature (f : Func) : FuncTy := ⟨f.ty.obj, f.params.map fun p => some p.obj⟩

/-- The parameters of a function are declared one by one. -/
def paramsAfter : List Param → Scoping → Scoping
  | [], Γ => Γ
  | p :: ps, Γ => paramsAfter ps (Γ.declare p.name (.obj p.obj) false)

/-- The declarations in front of the body of a function. -/
def Func.inside (f : Func) (Γ : Scoping) : Scoping :=
  paramsAfter f.params
    ((Γ.addFunc f.signature).declare f.name (.func Γ.funcs.length) false).enter

/-- The declarations after a function. -/
def Func.after (f : Func) (Γ : Scoping) : Scoping := (blockAfter f.body (f.inside Γ)).leave

/-- What is visible behind a top-level item. -/
def Item.after : Item → Scoping → Scoping
  | .func f, Γ => f.after Γ
  | .decl d, Γ => d.after Γ

/-- What is visible at the end of a file. -/
def itemsAfter : List Item → Scoping → Scoping
  | [], Γ => Γ
  | item :: items, Γ => itemsAfter items (item.after Γ)

/-- The built-in functions are declared in front of everything else. -/
def builtinsAfter (intern : List UInt8 → Symbol) :
    List (List Char × ObjTy × Option ObjTy) → Scoping → Scoping
  | [], Γ => Γ
  | (name, ret, arg1Ty) :: bs, Γ =>
      builtinsAfter intern bs ((Γ.addFunc ⟨ret, arg1Ty.toList.map some⟩).declare
        (intern (name.map byte)) (.func Γ.funcs.length) false)

/-- The global scope, with the built-in functions. -/
def Scoping.start (intern : List UInt8 → Symbol) : Scoping :=
  builtinsAfter intern Parser.builtins (Scoping.enter ⟨History.empty, []⟩)

/-- The declarations of a compilation unit. -/
def CompUnit.after (intern : List UInt8 → Symbol) (u : CompUnit) : Scoping :=
  itemsAfter u (Scoping.start intern)

/-! ## Resolved nodes -/

mutual

/-- The node is one of the expression, every variable in it holds the symbol that its name
means, and every call has the type that the declaration of its name gives it. -/
def Expr.Resolved (Γ : Scoping) : Expr → Node → Prop
  | .int val, n => n = .litInt tyInt val
  | .float val, n => n = .litFloat tyFloat val
  | .double val, n => n = .litDouble tyDouble val
  | .bool val, n => n = .litBool tyBool val
  | .paren inner, n => inner.Resolved Γ n
  | .var name, n => ∃ sym, Γ.resolve name = some sym ∧ n = .var sym.ty (some sym)
  | .index base sub, n => ∃ ty l r, n = .arrayAccess ty l (some r) ∧ base.Resolved Γ l ∧
      sub.Resolved Γ r
  | .call name args, n => ∃ sym ty nodes, Γ.resolve name = some sym ∧ sym.ty = some ty ∧
      n = .funcCall (Γ.callTy ty) name (nodes.map some) ∧ argsResolved Γ args nodes
  | .unary .plus operand, n => operand.Resolved Γ n
  | .unary .minus operand, n => ∃ ty o, n = .neg ty (some o) ∧ operand.Resolved Γ o
  | .unary .not operand, n => ∃ ty o, n = .logNot ty (some o) ∧ operand.Resolved Γ o
  | .binary op lhs rhs, n => ∃ ty l r, n = .binary op ty l r ∧ lhs.Resolved Γ l ∧
      rhs.Resolved Γ r
  | .assign lhs rhs, n => ∃ ty l r, n = .assign ty l r ∧ lhs.Resolved Γ l ∧ rhs.Resolved Γ r

/-- The nodes of the arguments are resolved one by one. -/
def argsResolved (Γ : Scoping) : List Expr → List Node → Prop
  | [], ns => ns = []
  | e :: es, ns => ∃ n ns', ns = n :: ns' ∧ e.Resolved Γ n ∧ argsResolved Γ es ns'

end

mutual

/-- The node of an element has its names resolved. -/
def Elem.Resolved (Γ : Scoping) : Elem → Node → Prop
  | .value e, n => e.Resolved Γ n
  | .list es, n => ∃ ns, n = .initList none (ns.map some) ∧ elemsResolved Γ es ns

/-- So have the elements of a brace list. -/
def elemsResolved (Γ : Scoping) : List Elem → List Node → Prop
  | [], ns => ns = []
  | e :: es, ns => ∃ n ns', ns = n :: ns' ∧ e.Resolved Γ n ∧ elemsResolved Γ es ns'

end

/-- The initializer of a node.  Without one, the field keeps what fresh memory held. -/
def initResolved (Γ : Scoping) : Option Init → Option Node → Prop
  | none, _ => True
  | some (.expr e), field => ∃ n, field = some n ∧ e.Resolved Γ n
  | some (.list es), field => ∃ n, field = some n ∧ (Elem.list es).Resolved Γ n

/-- The node of a declarator holds the symbol of that declarator. -/
def Declarator.Resolved (base : ObjTy) (isConst : Bool) (d : Declarator) (Γ : Scoping)
    (n : Node) : Prop :=
  ∃ init, n = .varDecl (some (.obj (arrayTy base d.dims)))
      (some (Γ.symbol d.name (.obj (arrayTy base d.dims)) isConst)) init ∧
    initResolved (d.after base isConst Γ) d.init init

/-- Each declarator is resolved in the scope of those in front of it. -/
def declaratorsResolved (base : ObjTy) (isConst : Bool) :
    List Declarator → Scoping → List Node → Prop
  | [], _, ns => ns = []
  | d :: ds, Γ, ns => ∃ n ns', ns = n :: ns' ∧ d.Resolved base isConst Γ n ∧
      declaratorsResolved base isConst ds (d.after base isConst Γ) ns'

/-- A declaration is resolved if its declarators are. -/
def Decl.Resolved (d : Decl) (Γ : Scoping) (n : Node) : Prop :=
  ∃ ns, n = .block none ns ∧ declaratorsResolved d.ty.obj d.isConst d.declarators Γ ns

mutual

/-- The nodes of a statement.  The fields that a statement without an {lit}`else` or
without a value leaves unwritten keep what fresh memory held. -/
def Stmt.Resolved : Stmt → Scoping → Node → Prop
  | .ifThen cond body, Γ, n => ∃ c b field, n = .ifStmt none (some c) (some b) field ∧
      cond.Resolved Γ c ∧ body.Resolved Γ b
  | .ifElse cond body alt, Γ, n => ∃ c b e, n = .ifStmt none (some c) (some b) (some e) ∧
      cond.Resolved Γ c ∧ body.Resolved Γ b ∧ alt.Resolved (body.after Γ) e
  | .while cond body, Γ, n => ∃ c b, n = .whileStmt none (some c) (some b) ∧
      cond.Resolved Γ c ∧ body.Resolved Γ b
  | .ret none, _, n => ∃ field, n = .retStmt tyVoid field
  | .ret (some e), Γ, n => ∃ v, n = .retStmt tyVoid (some v) ∧ e.Resolved Γ v
  | .break, _, n => n = .breakStmt none
  | .continue, _, n => n = .continueStmt none
  | .block items, Γ, n => ∃ ns, n = .block none ns ∧ blockResolved items Γ.enter ns
  | .expr e, Γ, n => ∃ v, n = .exprStmt none v ∧ e.Resolved Γ v
  | .assign lhs rhs, Γ, n => ∃ ty l r, n = .exprStmt none (.assign ty l r) ∧
      lhs.Resolved Γ l ∧ rhs.Resolved Γ r

/-- An item of a block is resolved. -/
def BlockItem.Resolved : BlockItem → Scoping → Node → Prop
  | .decl d, Γ, n => d.Resolved Γ n
  | .stmt s, Γ, n => s.Resolved Γ n

/-- Each item of a block is resolved where those in front of it have left off. -/
def blockResolved : List BlockItem → Scoping → List Node → Prop
  | [], _, ns => ns = []
  | item :: items, Γ, ns => ∃ n ns', ns = n :: ns' ∧ item.Resolved Γ n ∧
      blockResolved items (item.after Γ) ns'

end

/-- A function body is resolved inside the scope of its parameters. -/
def Item.Resolved : Item → Scoping → Node → Prop
  | .func f, Γ, n => ∃ ns, n = .block none ns ∧ blockResolved f.body (f.inside Γ) ns
  | .decl d, Γ, n => d.Resolved Γ n

/-- Each top-level item is resolved where those in front of it have left off. -/
def itemsResolved : List Item → Scoping → List Node → Prop
  | [], _, ns => ns = []
  | item :: items, Γ, ns => ∃ n ns', ns = n :: ns' ∧ item.Resolved Γ n ∧
      itemsResolved items (item.after Γ) ns'

/-- The nodes of a compilation unit hold the symbols that its names mean. -/
def CompUnit.Resolved (intern : List UInt8 → Symbol) (u : CompUnit) (ns : List Node) : Prop :=
  itemsResolved u (Scoping.start intern) ns

/-! ## The scope stack represents the declarations -/

/-- The maps on the scope stack. -/
def maps (σ : Sema) : Stack Symbol SemaSymbol :=
  σ.scopes.map fun sc => (sc.addr, sc.symbols.get)

/-- The scope stack and the counters of the analysis represent the declarations made so
far, and no scope has a name twice. -/
structure Tracks (h : History Symbol SemaSymbol) (σ : Sema) : Prop where
  scopes : Represents h (maps σ)
  unique : h.Unique
  nextSym : σ.nextSym = h.decls.length
  nextScope : σ.nextScope = h.next

/-- The same, with the function types. -/
structure Models (Γ : Scoping) (σ : Sema) : Prop where
  tracks : Tracks Γ.history σ
  funcs : σ.funcs = Γ.funcs

section

variable {Γ : Scoping} {σ σ' : Sema} {h : History Symbol SemaSymbol}

/-- Only the stack and the two counters matter. -/
theorem Tracks.of_scopes (ht : Tracks h σ) (hscopes : σ'.scopes = σ.scopes)
    (hsym : σ'.nextSym = σ.nextSym) (hscope : σ'.nextScope = σ.nextScope) : Tracks h σ' := by
  refine ⟨?_, ht.unique, hsym.trans ht.nextSym, hscope.trans ht.nextScope⟩
  unfold maps
  rw [hscopes]
  exact ht.scopes

/-- A search through the stack finds what the history resolves the name to. -/
theorem Tracks.lookup (ht : Tracks h σ) (name : Symbol) : σ.lookup name = h.resolve name := by
  rw [← ht.scopes.lookup]
  unfold Sema.lookup Stack.lookup maps
  rw [List.findSome?_map]
  rfl

/-- The analysis and the scoping agree on what a name means. -/
theorem Models.lookup (hm : Models Γ σ) (name : Symbol) : σ.lookup name = Γ.resolve name :=
  hm.tracks.lookup name

/-- They agree on the type of a call. -/
theorem Models.callTy (hm : Models Γ σ) (ty : Ty) : σ.callTy ty = Γ.callTy ty := by
  cases ty with
  | obj t => rfl
  | func id => simp only [Sema.callTy, Scoping.callTy, hm.funcs]

/-- A scope is pushed where the history opens one. -/
theorem Tracks.enter (ht : Tracks h σ) : Tracks h.enter σ.enter where
  scopes := by
    have henter := ht.scopes.enter
    rw [← ht.nextScope] at henter
    exact henter
  unique := ht.unique
  nextSym := ht.nextSym
  nextScope := by
    simp only [Sema.enter, History.enter, ht.nextScope]

/-- It is popped where the history closes it. -/
theorem Tracks.leave (ht : Tracks h σ) : Tracks h.leave σ.leave where
  scopes := by
    have hleave := ht.scopes.leave
    unfold maps at hleave
    rw [← List.map_tail] at hleave
    exact hleave
  unique := ht.unique
  nextSym := ht.nextSym
  nextScope := ht.nextScope

/-- Entering keeps the two in step. -/
theorem Models.enter (hm : Models Γ σ) : Models Γ.enter σ.enter :=
  ⟨hm.tracks.enter, hm.funcs⟩

/-- Leaving does. -/
theorem Models.leave (hm : Models Γ σ) : Models Γ.leave σ.leave :=
  ⟨hm.tracks.leave, hm.funcs⟩

/-- Both agree on what the current scope declares. -/
theorem Tracks.declared (ht : Tracks h σ) (name : Symbol) :
    σ.declared name = h.declared name := by
  have hscopes := ht.scopes
  unfold maps at hscopes
  unfold Sema.declared
  cases hlist : σ.scopes with
  | nil =>
      rw [hlist] at hscopes
      have hpath : h.path = [] := hscopes.path.symm
      simp [History.declared, hpath]
  | cons sc parents =>
      rw [hlist] at hscopes
      exact (hscopes.declared name).symm

/-- A new binding hides the old one of its name, and no other. -/
theorem SymbolMap.get_cons (m : SymbolMap) (name : Symbol) (sym : SemaSymbol) :
    SymbolMap.get ((name, sym) :: m) = Function.update (SymbolMap.get m) name (some sym) := by
  funext x
  unfold SymbolMap.get
  rw [List.lookup_cons]
  by_cases hx : x = name
  · subst hx
    simp
  · have hbeq : (x == name) = false := by simpa using hx
    simp [hbeq, hx]

/-- A definition allocates the symbol of its declarator and declares it. -/
theorem Tracks.defineSym (ht : Tracks Γ.history σ) {name : Symbol} {ty : Ty} {isConst : Bool}
    {sym : SemaSymbol} (hdef : defineSym σ name ty isConst = some (sym, σ')) :
    sym = Γ.symbol name ty isConst ∧ Tracks (Γ.declare name ty isConst).history σ' := by
  unfold Grammar.defineSym at hdef
  split at hdef
  · cases hdef
  · rename_i hdeclared
    rw [ht.declared] at hdeclared
    cases hdef
    have hscopes := ht.scopes
    have hsym : σ.newSymbol name (some ty) isConst = Γ.symbol name ty isConst := by
      have hempty : σ.scopes.tail.isEmpty = Γ.history.path.tail.isEmpty := by
        rw [← hscopes.path]
        unfold maps
        cases σ.scopes with
        | nil => rfl
        | cons sc parents => cases parents <;> rfl
      simp only [Sema.newSymbol, Scoping.symbol, ht.nextSym, hempty]
    refine ⟨hsym, ?_⟩
    have hunique := ht.unique.declare (by simpa using hdeclared) (Γ.symbol name ty isConst)
    rw [hsym]
    unfold maps at hscopes
    unfold Sema.define
    cases hlist : σ.scopes with
    | nil =>
        rw [hlist] at hscopes
        have hpath : Γ.history.path = [] := hscopes.path.symm
        refine ⟨?_, hunique, ?_, ht.nextScope⟩
        · refine ⟨?_, ?_⟩
          · simp [maps, hlist, Scoping.declare, hpath]
          · simp [maps, hlist]
        · rw [ht.nextSym]
          simp only [Scoping.declare, History.decls_declare_nil hpath]
    | cons sc parents =>
        rw [hlist] at hscopes
        have hpath : Γ.history.path = sc.addr :: parents.map Scope.addr := by
          rw [← hscopes.path]
          simp
        have hnone : sc.symbols.get name = none := by
          have hagree := hscopes.declared name
          rw [Bool.not_eq_true] at hdeclared
          rw [hdeclared] at hagree
          simpa using hagree.symm
        refine ⟨?_, hunique, ?_, ht.nextScope⟩
        · have hdeclare := hscopes.declare hnone (Γ.symbol name ty isConst)
          rw [← SymbolMap.get_cons] at hdeclare
          exact hdeclare
        · simp only [Scoping.declare, History.decls_declare hpath, List.length_append,
            List.length_singleton, ht.nextSym]

/-- A definition that succeeds makes the symbol that the scoping says, and keeps the two in step.
-/
theorem Models.defineSym (hm : Models Γ σ) {name : Symbol} {ty : Ty} {isConst : Bool}
    {sym : SemaSymbol} (hdef : defineSym σ name ty isConst = some (sym, σ')) :
    sym = Γ.symbol name ty isConst ∧ Models (Γ.declare name ty isConst) σ' := by
  obtain ⟨hsym, ht⟩ := hm.tracks.defineSym hdef
  exact ⟨hsym, ht, (local_defineSym hdef).funcs.trans hm.funcs⟩

/-! ## What is built is resolved -/

mutual

/-- The nodes of an expression hold the symbols that its names mean. -/
theorem Expr.resolved_node (hm : Models Γ σ) : ∀ {e : Expr} {n : Node},
    e.node σ = some n → e.Resolved Γ n
  | .int _, _, h => (Option.some.inj h).symm
  | .float _, _, h => (Option.some.inj h).symm
  | .double _, _, h => (Option.some.inj h).symm
  | .bool _, _, h => (Option.some.inj h).symm
  | .paren inner, n, h => Expr.resolved_node hm (e := inner) h
  | .var name, n, h => by
      obtain ⟨sym, hsym, rfl⟩ := Expr.node_var h
      rw [hm.lookup] at hsym
      exact ⟨sym, hsym, rfl⟩
  | .index base sub, n, h => by
      obtain ⟨l, r, hl, hr, hend⟩ := Expr.node_index h
      obtain ⟨elem, len, _, rfl⟩ := indexNode_cases hend
      exact ⟨_, l, r, rfl, Expr.resolved_node hm hl, Expr.resolved_node hm hr⟩
  | .call name args, n, h => by
      obtain ⟨sym, ns, ty, hsym, hns, hty, rfl⟩ := Expr.node_call h
      rw [hm.lookup] at hsym
      exact ⟨sym, ty, ns, hsym, hty, by rw [hm.callTy], args_resolved hm hns⟩
  | .unary .plus operand, n, h => Expr.resolved_node hm (e := operand) h
  | .unary .minus operand, n, h => by
      obtain ⟨o, ho, rfl⟩ := Expr.node_minus h
      exact ⟨_, o, rfl, Expr.resolved_node hm ho⟩
  | .unary .not operand, n, h => by
      obtain ⟨o, ho, rfl⟩ := Expr.node_not h
      exact ⟨_, o, rfl, Expr.resolved_node hm ho⟩
  | .binary op lhs rhs, n, h => by
      obtain ⟨l, r, hl, hr, hend⟩ := Expr.node_binary h
      exact ⟨_, l, r, binaryNode_eq hend, Expr.resolved_node hm hl, Expr.resolved_node hm hr⟩
  | .assign lhs rhs, n, h => by
      obtain ⟨l, r, hl, hr, hend⟩ := Expr.node_assign h
      exact ⟨_, l, r, assignNode_eq hend, Expr.resolved_node hm hl, Expr.resolved_node hm hr⟩

/-- The arguments that are built are resolved. -/
theorem args_resolved (hm : Models Γ σ) : ∀ {es : List Expr} {ns : List Node},
    argNodes σ es = some ns → argsResolved Γ es ns
  | [], _, h => (Option.some.inj h).symm
  | e :: es, ns, h => by
      obtain ⟨n, ns', hn, hns', rfl⟩ := argNodes_cons h
      exact ⟨n, ns', rfl, Expr.resolved_node hm hn, args_resolved hm hns'⟩

end

mutual

/-- An element that is built is resolved. -/
theorem Elem.resolved_node (hm : Models Γ σ) : ∀ {e : Elem} {n : Node},
    e.node σ = some n → e.Resolved Γ n
  | .value _, _, h => Expr.resolved_node hm h
  | .list es, n, h => by
      obtain ⟨ns, hns, rfl⟩ := Elem.node_list h
      exact ⟨ns, rfl, elems_resolved hm hns⟩

/-- So are all elements of a list. -/
theorem elems_resolved (hm : Models Γ σ) : ∀ {es : List Elem} {ns : List Node},
    elemNodes σ es = some ns → elemsResolved Γ es ns
  | [], _, h => (Option.some.inj h).symm
  | e :: es, ns, h => by
      obtain ⟨n, ns', hn, hns', rfl⟩ := elemNodes_cons h
      exact ⟨n, ns', rfl, Elem.resolved_node hm hn, elems_resolved hm hns'⟩

end

/-- So is an initializer; a field that is not written stays what it was. -/
theorem init_resolved (hm : Models Γ σ) {ty : ObjTy} {field : Option Node} {init : Option Init}
    {r : Option Node} (h : initNode σ ty field init = some r) : initResolved Γ init r := by
  cases init with
  | none => exact trivial
  | some init =>
      cases init with
      | expr e =>
          obtain ⟨n, hn, _, rfl⟩ := initNode_expr h
          exact ⟨n, rfl, Expr.resolved_node hm hn⟩
      | list es =>
          obtain ⟨n, hn, rfl⟩ := initNode_list h
          exact ⟨n, rfl, Elem.resolved_node hm hn⟩

variable {fresh : Nat → Option Node} {a a' : Analysis} {n : Node}

/-- A declarator that is built is resolved behind its own name. -/
theorem Declarator.resolved_build {base : ObjTy} {isConst : Bool} {d : Declarator}
    (hm : Models Γ a.sema) (h : d.build fresh base isConst a = some (n, a')) :
    d.Resolved base isConst Γ n ∧ Models (d.after base isConst Γ) a'.sema := by
  obtain ⟨sym, σ, init, hdef, hinit, rfl, rfl⟩ := Declarator.build_cases h
  obtain ⟨rfl, hm'⟩ := hm.defineSym hdef
  exact ⟨⟨init, rfl, init_resolved hm' hinit⟩, hm'⟩

/-- The declarators that are built are resolved, each behind those in front of it. -/
theorem declarators_resolved {base : ObjTy} {isConst : Bool} {ds : List Declarator}
    {ns : List Node} (hm : Models Γ a.sema)
    (h : declaratorsBuild fresh base isConst ds a = some (ns, a')) :
    declaratorsResolved base isConst ds Γ ns ∧
      Models (declaratorsAfter base isConst ds Γ) a'.sema := by
  induction ds generalizing Γ a ns with
  | nil =>
      cases h
      exact ⟨rfl, hm⟩
  | cons d ds ih =>
      obtain ⟨n, a₁, ns', hd, hds, rfl⟩ := declaratorsBuild_cons h
      obtain ⟨hres, hm₁⟩ := Declarator.resolved_build hm hd
      obtain ⟨hress, hm₂⟩ := ih hm₁ hds
      exact ⟨⟨n, ns', rfl, hres, hress⟩, hm₂⟩

/-- A declaration that is built is resolved. -/
theorem Decl.resolved_build {d : Decl} (hm : Models Γ a.sema)
    (h : d.build fresh a = some (n, a')) : d.Resolved Γ n ∧ Models (d.after Γ) a'.sema := by
  obtain ⟨ns, hds, rfl⟩ := Decl.build_cases h
  obtain ⟨hres, hm'⟩ := declarators_resolved hm hds
  exact ⟨⟨ns, rfl, hres⟩, hm'⟩

mutual

/-- The nodes of a statement hold the symbols that its names mean, and the analysis knows
the declarations after it. -/
theorem Stmt.resolved_build : ∀ {s : Stmt} {Γ : Scoping} {a a' : Analysis} {n : Node},
    Models Γ a.sema → s.build fresh a = some (n, a') →
      s.Resolved Γ n ∧ Models (s.after Γ) a'.sema
  | .ifThen cond body, Γ, a, a', n, hm, h => by
      obtain ⟨c, b, hc, hbody, rfl⟩ := Stmt.build_ifThen h
      obtain ⟨hb, hm₁⟩ := Stmt.resolved_build (a := ⟨a.sema, a.allocs + 1⟩) hm hbody
      exact ⟨⟨c, b, _, rfl, Expr.resolved_node hm hc, hb⟩, hm₁⟩
  | .ifElse cond body alt, Γ, a, a', n, hm, h => by
      obtain ⟨c, b, a₁, e, hc, hbody, halt, rfl⟩ := Stmt.build_ifElse h
      obtain ⟨hb, hm₁⟩ := Stmt.resolved_build (a := ⟨a.sema, a.allocs + 1⟩) hm hbody
      obtain ⟨he, hm₂⟩ := Stmt.resolved_build hm₁ halt
      exact ⟨⟨c, b, e, rfl, Expr.resolved_node hm hc, hb, he⟩, hm₂⟩
  | .while cond body, Γ, a, a', n, hm, h => by
      obtain ⟨c, b, hc, hbody, rfl⟩ := Stmt.build_while h
      obtain ⟨hb, hm₁⟩ := Stmt.resolved_build hm hbody
      exact ⟨⟨c, b, rfl, Expr.resolved_node hm hc, hb⟩, hm₁⟩
  | .ret none, Γ, a, a', n, hm, h => by
      obtain ⟨hv, rfl⟩ := Stmt.build_ret_none h
      exact ⟨⟨_, returnNode_eq hv⟩, hm⟩
  | .ret (some e), Γ, a, a', n, hm, h => by
      obtain ⟨v, hv, hr, rfl⟩ := Stmt.build_ret_some h
      exact ⟨⟨v, returnNode_eq hr, Expr.resolved_node hm hv⟩, hm⟩
  | .break, Γ, a, a', n, hm, h => by
      cases h
      exact ⟨rfl, hm⟩
  | .continue, Γ, a, a', n, hm, h => by
      cases h
      exact ⟨rfl, hm⟩
  | .block items, Γ, a, a', n, hm, h => by
      obtain ⟨ns, a₁, hitems, rfl, rfl⟩ := Stmt.build_block h
      obtain ⟨hres, hm₁⟩ := block_resolved (Γ := Γ.enter) hm.enter hitems
      exact ⟨⟨ns, rfl, hres⟩, hm₁.leave⟩
  | .expr e, Γ, a, a', n, hm, h => by
      obtain ⟨v, hv, rfl, rfl⟩ := Stmt.build_expr h
      exact ⟨⟨v, rfl, Expr.resolved_node hm hv⟩, hm⟩
  | .assign lhs rhs, Γ, a, a', n, hm, h => by
      obtain ⟨v, hassign, rfl, rfl⟩ := Stmt.build_assign h
      obtain ⟨l, r, hl, hr, hv⟩ := Expr.node_assign hassign
      rw [assignNode_eq hv]
      exact ⟨⟨_, l, r, rfl, Expr.resolved_node hm hl, Expr.resolved_node hm hr⟩, hm⟩

/-- An item that is built is resolved, and leaves the two in step. -/
theorem BlockItem.resolved_build : ∀ {item : BlockItem} {Γ : Scoping} {a a' : Analysis}
    {n : Node}, Models Γ a.sema → item.build fresh a = some (n, a') →
      item.Resolved Γ n ∧ Models (item.after Γ) a'.sema
  | .decl _, _, _, _, _, hm, h => Decl.resolved_build hm h
  | .stmt s, _, _, _, _, hm, h => Stmt.resolved_build (s := s) hm h

/-- So does a whole block. -/
theorem block_resolved : ∀ {items : List BlockItem} {Γ : Scoping} {a a' : Analysis}
    {ns : List Node}, Models Γ a.sema → blockBuild fresh items a = some (ns, a') →
      blockResolved items Γ ns ∧ Models (blockAfter items Γ) a'.sema
  | [], Γ, a, a', ns, hm, h => by
      cases h
      exact ⟨rfl, hm⟩
  | item :: items, Γ, a, a', ns, hm, h => by
      obtain ⟨n, a₁, ns', hitem, hitems, rfl⟩ := blockBuild_cons h
      obtain ⟨hres, hm₁⟩ := BlockItem.resolved_build hm hitem
      obtain ⟨hress, hm₂⟩ := block_resolved hm₁ hitems
      exact ⟨⟨n, ns', rfl, hres, hress⟩, hm₂⟩

end

/-! ## Functions and files -/

/-- A parameter is recorded in the function type that was made last. -/
theorem pushParam_append {σ : Sema} {fs : List FuncTy} {f : FuncTy}
    (hfuncs : σ.funcs = fs ++ [f]) (ty : Option ObjTy) :
    (σ.pushParam fs.length ty).funcs = fs ++ [{ f with params := f.params ++ [ty] }] := by
  unfold Sema.pushParam
  rw [hfuncs, List.modify_eq_take_cons_drop (by simp)]
  simp

/-- The parameters are declared one after the other, and the function type is filled in
with them. -/
theorem params_resolved {fs : List FuncTy} {f : FuncTy} {ps : List Param} {Γ : Scoping}
    {σ σ' : Sema} (ht : Tracks Γ.history σ) (hfuncs : σ.funcs = fs ++ [f])
    (h : paramsBuild fs.length ps σ = some σ') :
    Tracks (paramsAfter ps Γ).history σ' ∧
      σ'.funcs = fs ++ [{ f with params := f.params ++ ps.map fun p => some p.obj }] := by
  induction ps generalizing Γ σ f with
  | nil =>
      cases h
      exact ⟨ht, by simpa using hfuncs⟩
  | cons p ps ih =>
      obtain ⟨sym, σ₁, hdef, hps⟩ := paramsBuild_cons h
      obtain ⟨_, ht₁⟩ := ht.defineSym hdef
      have hfuncs₁ : σ₁.funcs = fs ++ [f] := (local_defineSym hdef).funcs.trans hfuncs
      have ht₂ : Tracks _ (σ₁.pushParam fs.length (some p.obj)) :=
        ht₁.of_scopes rfl rfl rfl
      obtain ⟨ht', hfuncs'⟩ := ih ht₂ (pushParam_append hfuncs₁ (some p.obj)) hps
      refine ⟨ht', ?_⟩
      rw [hfuncs']
      simp

/-- Parameters make no function types. -/
theorem funcs_paramsAfter (ps : List Param) (Γ : Scoping) :
    (paramsAfter ps Γ).funcs = Γ.funcs := by
  induction ps generalizing Γ with
  | nil => rfl
  | cons p ps ih => exact ih _

/-- In front of the body of a function the analysis has seen the function and its
parameters. -/
theorem Func.models_inside {f : Func} {σ₁ σ₂ : Sema} {sym : SemaSymbol}
    (hm : Models Γ σ) (hdef : defineSym (σ.newFunc f.ty.obj) f.name
      (.func σ.funcs.length) false = some (sym, σ₁))
    (hparams : paramsBuild σ.funcs.length f.params
      { σ₁ with currFuncRet := some f.ty.obj }.enter = some σ₂) :
    Models (f.inside Γ) σ₂ := by
  have ht₀ : Tracks (Γ.addFunc f.signature).history (σ.newFunc f.ty.obj) :=
    hm.tracks.of_scopes rfl rfl rfl
  obtain ⟨_, ht₁⟩ := ht₀.defineSym hdef
  have hfuncs₁ : σ₁.funcs = Γ.funcs ++ [⟨f.ty.obj, []⟩] := by
    rw [(local_defineSym hdef).funcs, ← hm.funcs]
    rfl
  have ht₂ : Tracks _ { σ₁ with currFuncRet := some f.ty.obj } :=
    ht₁.of_scopes rfl rfl rfl
  rw [hm.funcs] at hparams ht₂
  obtain ⟨ht₃, hfuncs₃⟩ := params_resolved (Γ := ((Γ.addFunc f.signature).declare f.name
    (.func Γ.funcs.length) false).enter) ht₂.enter hfuncs₁ hparams
  refine ⟨ht₃, ?_⟩
  rw [hfuncs₃, Func.inside, funcs_paramsAfter]
  simp [Scoping.enter, Scoping.declare, Scoping.addFunc, Func.signature]

/-- A function that is built is resolved inside its own scope. -/
theorem Func.resolved_build {f : Func} (hm : Models Γ a.sema)
    (h : f.build fresh a = some (n, a')) :
    (Item.func f).Resolved Γ n ∧ Models (f.after Γ) a'.sema := by
  obtain ⟨sym, σ₁, σ₂, ns, a₁, hdef, hparams, hbody, rfl, rfl⟩ := Func.build_cases h
  have hm₃ : Models (f.inside Γ) σ₂ := Func.models_inside hm hdef hparams
  obtain ⟨hres, hm₄⟩ := block_resolved (a := ⟨σ₂, a.allocs⟩) hm₃ hbody
  refine ⟨⟨ns, rfl, hres⟩, ?_, hm₄.funcs⟩
  exact hm₄.leave.tracks.of_scopes rfl rfl rfl

/-- A top-level item that is built is resolved. -/
theorem Item.resolved_build {item : Item} (hm : Models Γ a.sema)
    (h : item.build fresh a = some (n, a')) :
    item.Resolved Γ n ∧ Models (item.after Γ) a'.sema := by
  cases item with
  | func f => exact Func.resolved_build hm h
  | decl d => exact Decl.resolved_build hm h

/-- So is a whole file. -/
theorem items_resolved {items : List Item} {ns : List Node} (hm : Models Γ a.sema)
    (h : itemsBuild fresh items a = some (ns, a')) :
    itemsResolved items Γ ns ∧ Models (itemsAfter items Γ) a'.sema := by
  induction items generalizing Γ a ns with
  | nil =>
      cases h
      exact ⟨rfl, hm⟩
  | cons item items ih =>
      obtain ⟨n, a₁, ns', hitem, hitems, rfl⟩ := itemsBuild_cons h
      obtain ⟨hres, hm₁⟩ := Item.resolved_build hm hitem
      obtain ⟨hress, hm₂⟩ := ih hm₁ hitems
      exact ⟨⟨n, ns', rfl, hres, hress⟩, hm₂⟩

/-- A built-in function gets its type at once. -/
theorem Models.builtin (hm : Models Γ σ) (ret : ObjTy) (arg1Ty : Option ObjTy) :
    Models (Γ.addFunc ⟨ret, arg1Ty.toList.map some⟩)
      (builtinParams (σ.newFunc ret) σ.funcs.length arg1Ty) := by
  cases arg1Ty with
  | none =>
      refine ⟨hm.tracks.of_scopes rfl rfl rfl, ?_⟩
      simp [builtinParams, Sema.newFunc, Scoping.addFunc, hm.funcs]
  | some ty =>
      refine ⟨hm.tracks.of_scopes rfl rfl rfl, ?_⟩
      have hpush := pushParam_append (σ := σ.newFunc ret) rfl (some ty)
      rw [builtinParams, hpush, hm.funcs]
      rfl

/-- The built-in functions are installed as the scoping declares them. -/
theorem builtins_resolved {intern : List UInt8 → Symbol}
    {bs : List (List Char × ObjTy × Option ObjTy)} (hm : Models Γ σ)
    (h : builtinsBuild intern bs σ = some σ') : Models (builtinsAfter intern bs Γ) σ' := by
  induction bs generalizing Γ σ with
  | nil =>
      cases h
      exact hm
  | cons entry bs ih =>
      rcases entry with ⟨name, ret, arg1Ty⟩
      obtain ⟨sym, σ₁, hdef, hbs⟩ := builtinsBuild_cons h
      have hdeclare := ((hm.builtin ret arg1Ty).defineSym hdef).2
      rw [hm.funcs] at hdeclare
      exact ih hdeclare hbs

/-- Before anything is declared, the two are in step. -/
theorem models_init : Models (Scoping.enter ⟨History.empty, []⟩) Sema.init.enter where
  tracks := Tracks.enter ⟨represents_empty, History.unique_empty, rfl, rfl⟩
  funcs := rfl

/-- What the analysis of a compilation unit builds is resolved, and the analysis has seen
exactly its declarations. -/
theorem CompUnit.resolved_build {intern : List UInt8 → Symbol} {u : CompUnit} {ns : List Node}
    (h : u.build intern fresh = some (ns, a')) :
    u.Resolved intern ns ∧ Models (u.after intern) a'.sema := by
  obtain ⟨σ, hσ, hitems⟩ := CompUnit.build_cases h
  exact items_resolved (builtins_resolved models_init hσ) hitems

end

/-! ## What symbols say -/

/-- The symbol of a declaration carries its number and its name, and is global exactly if
the declaration stands in the global scope, which is scope 0 and the outermost one.  It has
a type, and a function type is one of those declared. -/
structure Tidy (Γ : Scoping) : Prop where
  symbols : ∀ i (d : Declaration Symbol SemaSymbol), Γ.history.decls[i]? = some d →
    d.content.addr = i ∧ d.content.name = d.name ∧ (d.content.isGlobal = true ↔ d.scope = 0)
  types : ∀ d ∈ Γ.history.decls, ∃ ty, d.content.ty = some ty ∧
    ∀ id, ty = .func id → id < Γ.funcs.length
  bottom : Γ.history.path.getLast? = some 0

section

variable {Γ : Scoping}

/-- A declaration stays tidy if the function type that it mentions is there. -/
theorem Tidy.declare (h : Tidy Γ) (name : Symbol) {ty : Ty}
    (hty : ∀ id, ty = .func id → id < Γ.funcs.length) (isConst : Bool) :
    Tidy (Γ.declare name ty isConst) := by
  have hbottom := h.bottom
  have hnodup := Γ.history.path_nodup
  cases hpath : Γ.history.path with
  | nil => simp [hpath] at hbottom
  | cons s rest =>
      have hdecls : (Γ.declare name ty isConst).history.decls =
          Γ.history.decls ++ [⟨s, name, Γ.symbol name ty isConst⟩] :=
        History.decls_declare hpath _ _
      refine ⟨?_, ?_, h.bottom⟩
      · intro i d hd
        rw [hdecls, List.getElem?_append] at hd
        split at hd
        · exact h.symbols i d hd
        · rename_i hlast
          rw [List.getElem?_singleton] at hd
          split at hd
          · rename_i hzero
            cases hd
            refine ⟨?_, rfl, ?_⟩
            · have hi : i = Γ.history.decls.length := by omega
              exact hi.symm
            · rw [hpath] at hbottom hnodup
              simp only [Scoping.symbol, hpath, List.tail_cons]
              cases rest with
              | nil => simpa using hbottom
              | cons s' rest =>
                  -- The outermost scope is another one.
                  have hmem : 0 ∈ s' :: rest := by
                    rw [List.getLast?_cons_cons] at hbottom
                    exact List.mem_of_getLast? hbottom
                  have hne : s ≠ 0 := by
                    rintro rfl
                    exact (List.nodup_cons.mp hnodup).1 hmem
                  simp [hne]
          · cases hd
      · intro d hd
        rw [hdecls] at hd
        rcases List.mem_append.mp hd with hd | hd
        · exact h.types d hd
        · rw [List.mem_singleton.mp hd]
          exact ⟨ty, rfl, hty⟩

/-- What a name means has a type, and a function type is one of those declared. -/
theorem Tidy.resolve (h : Tidy Γ) {name : Symbol} {sym : SemaSymbol}
    (hsym : Γ.resolve name = some sym) :
    ∃ ty, sym.ty = some ty ∧ ∀ id, ty = .func id → id < Γ.funcs.length := by
  obtain ⟨s, _, hfind⟩ := List.exists_of_findSome?_eq_some hsym
  unfold History.find at hfind
  obtain ⟨d, hd, rfl⟩ := Option.map_eq_some_iff.mp hfind
  exact h.types d (List.mem_of_find?_eq_some hd)

/-- Entering a scope stays tidy. -/
theorem Tidy.enter (h : Tidy Γ) : Tidy Γ.enter := by
  refine ⟨h.symbols, h.types, ?_⟩
  have hbottom := h.bottom
  unfold Scoping.enter
  cases hpath : Γ.history.path with
  | nil => simp [hpath] at hbottom
  | cons s rest =>
      rw [hpath] at hbottom
      simpa [hpath] using hbottom

/-- A scope that was entered is left again. -/
theorem Tidy.leave {Γ' : Scoping} (h : Tidy Γ) (h' : Tidy Γ')
    (hpath : Γ'.history.path = Γ.enter.history.path) :
    Tidy Γ'.leave ∧ Γ'.leave.history.path = Γ.history.path := by
  have htail : Γ'.leave.history.path = Γ.history.path := by
    simp [Scoping.leave, hpath, Scoping.enter]
  exact ⟨⟨h'.symbols, h'.types, htail ▸ h.bottom⟩, htail⟩

/-- The symbols stay tidy, the same scopes are open afterwards, and functions are only
added. -/
structure Onwards (Γ Γ' : Scoping) : Prop where
  tidy : Tidy Γ'
  path : Γ'.history.path = Γ.history.path
  funcs : Γ.funcs <+: Γ'.funcs

/-- A piece of text that closes the scopes it opens, and forgets no function types. -/
def Balanced (f : Scoping → Scoping) : Prop := ∀ Γ, Tidy Γ → Onwards Γ (f Γ)

/-- A piece that declares nothing is balanced. -/
theorem balanced_id : Balanced fun Γ => Γ := fun _ h => ⟨h, rfl, List.prefix_rfl⟩

/-- Two pieces in a row are balanced if each one is. -/
theorem Balanced.comp {f g : Scoping → Scoping} (hf : Balanced f) (hg : Balanced g) :
    Balanced fun Γ => g (f Γ) := by
  intro Γ h
  have h₁ := hf Γ h
  have h₂ := hg _ h₁.tidy
  exact ⟨h₂.tidy, h₂.path.trans h₁.path, h₁.funcs.trans h₂.funcs⟩

/-- A piece with a scope around it is balanced. -/
theorem Balanced.scoped {f : Scoping → Scoping} (hf : Balanced f) :
    Balanced fun Γ => (f Γ.enter).leave := by
  intro Γ h
  have h₁ := hf _ h.enter
  obtain ⟨hleave, hpath⟩ := h.leave h₁.tidy h₁.path
  exact ⟨hleave, hpath, h₁.funcs⟩

/-- A declaration is balanced. -/
theorem balanced_declare (name : Symbol) (t : ObjTy) (isConst : Bool) :
    Balanced fun Γ => Γ.declare name (.obj t) isConst :=
  fun _ h => ⟨h.declare _ (by simp) _, rfl, List.prefix_rfl⟩

/-- A function is declared with the next function type. -/
theorem balanced_function (name : Symbol) (f : FuncTy) :
    Balanced fun Γ => (Γ.addFunc f).declare name (.func Γ.funcs.length) false := by
  intro Γ h
  have hadd : Tidy (Γ.addFunc f) := by
    refine ⟨h.symbols, ?_, h.bottom⟩
    intro d hd
    obtain ⟨ty, hty, hlt⟩ := h.types d hd
    refine ⟨ty, hty, fun id hid => ?_⟩
    have hold := hlt id hid
    simp only [Scoping.addFunc, List.length_append, List.length_singleton]
    omega
  refine ⟨hadd.declare name ?_ false, rfl, List.prefix_append _ _⟩
  intro id hid
  cases hid
  simp [Scoping.addFunc]

/-- The declarators of a declaration are. -/
theorem Decl.balanced_after (d : Decl) : Balanced d.after := by
  unfold Decl.after
  generalize d.declarators = ds
  induction ds with
  | nil => exact balanced_id
  | cons d' ds ih =>
      exact (balanced_declare d'.name (arrayTy d.ty.obj d'.dims) d.isConst).comp ih

mutual

/-- A statement is, by induction: blocks are scoped, and the rest declares nothing. -/
theorem Stmt.balanced_after : ∀ s : Stmt, Balanced s.after
  | .ifThen _ body => body.balanced_after
  | .ifElse _ body alt => body.balanced_after.comp alt.balanced_after
  | .while _ body => body.balanced_after
  | .ret _ => balanced_id
  | .break => balanced_id
  | .continue => balanced_id
  | .block items => (block_balanced_after items).scoped
  | .expr _ => balanced_id
  | .assign _ _ => balanced_id

/-- An item of a block is. -/
theorem BlockItem.balanced_after : ∀ item : BlockItem, Balanced item.after
  | .decl d => d.balanced_after
  | .stmt s => s.balanced_after

/-- So is what is inside a block. -/
theorem block_balanced_after : ∀ items : List BlockItem, Balanced (blockAfter items)
  | [] => balanced_id
  | item :: items => item.balanced_after.comp (block_balanced_after items)

end

/-- Parameters are. -/
theorem params_balanced (ps : List Param) : Balanced (paramsAfter ps) := by
  induction ps with
  | nil => exact balanced_id
  | cons p ps ih => exact (balanced_declare p.name p.obj false).comp ih

/-- The declarations in front of a body are tidy. -/
theorem Func.tidy_inside (f : Func) (h : Tidy Γ) : Tidy (f.inside Γ) :=
  (params_balanced f.params _ (balanced_function f.name f.signature Γ h).tidy.enter).tidy

/-- A function is: its body is scoped. -/
theorem Func.balanced_after (f : Func) : Balanced f.after :=
  (balanced_function f.name f.signature).comp
    ((params_balanced f.params).comp (block_balanced_after f.body)).scoped

/-- A top-level item is. -/
theorem Item.balanced_after (item : Item) : Balanced item.after := by
  cases item with
  | func f => exact f.balanced_after
  | decl d => exact d.balanced_after

/-- So is a whole file. -/
theorem items_balanced (items : List Item) : Balanced (itemsAfter items) := by
  induction items with
  | nil => exact balanced_id
  | cons item items ih => exact item.balanced_after.comp ih

/-- The built-in functions are. -/
theorem builtins_balanced (intern : List UInt8 → Symbol)
    (bs : List (List Char × ObjTy × Option ObjTy)) : Balanced (builtinsAfter intern bs) := by
  induction bs with
  | nil => exact balanced_id
  | cons entry bs ih =>
      rcases entry with ⟨name, ret, arg1Ty⟩
      exact (balanced_function (intern (name.map byte)) ⟨ret, arg1Ty.toList.map some⟩).comp ih

/-- The scoping in which a file begins is tidy. -/
theorem tidy_start (intern : List UInt8 → Symbol) : Tidy (Scoping.start intern) := by
  have hempty : Tidy (Scoping.enter ⟨History.empty, []⟩) := by
    refine ⟨?_, ?_, rfl⟩
    · intro i d hd
      simp [Scoping.enter, History.enter, History.empty] at hd
    · intro d hd
      simp [Scoping.enter, History.enter, History.empty] at hd
  exact (builtins_balanced intern Parser.builtins _ hempty).tidy

/-- The symbols of a compilation unit are tidy. -/
theorem CompUnit.tidy_after (intern : List UInt8 → Symbol) (u : CompUnit) :
    Tidy (u.after intern) :=
  (items_balanced u _ (tidy_start intern)).tidy

end

end Grammar

end Cact
