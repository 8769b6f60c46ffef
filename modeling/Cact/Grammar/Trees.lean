import Cact.Grammar.Unchecked

/-!
# Expression trees

What an expression says, without the parentheses and the unary plus it is written with.
A tree is printed with the parentheses that the levels of the operators require, and can
be read off an expression as well as off a node.

Main results:

- Definitions {lit}`Tree` and {lit}`Place`: subscripts are put on variables only.
- Definition {lit}`Tree.print`: the text of a tree, with the parentheses it needs.
- Theorem {lit}`Tree.writes_print`: what is printed says the tree it was printed from.
- Theorem {lit}`Expr.tree_built`: the node of an expression has the tree of the expression.
-/

namespace Cact

namespace Grammar

mutual

/-- Expression trees. -/
inductive Tree where
  | int (val : Int32)
  | float (val : BitVec 32)
  | double (val : BitVec 64)
  | bool (val : Bool)
  | place (p : Place)
  | call (name : Symbol) (args : List Tree)
  | neg (operand : Tree)
  | not (operand : Tree)
  | binary (op : BinOp) (lhs rhs : Tree)

/-- Variables and their subscripts. -/
inductive Place where
  | var (name : Symbol)
  | index (base : Place) (sub : Tree)

end

/-! ## Printing -/

/-- Parentheses around an expression whose level is too low for where it stands. -/
def enclose (low : Int) (e : Expr) : Expr := if low ≤ e.level then e else .paren e

mutual

/-- The tree with the parentheses it needs: the operand of a prefix operator is a prefix
operator or a primary, the left operand of a binary operator has its level or a higher one,
the right operand a higher one. -/
def Tree.print : Tree → Expr
  | .int val => .int val
  | .float val => .float val
  | .double val => .double val
  | .bool val => .bool val
  | .place p => p.print
  | .call name args => .call name (argsPrint args)
  | .neg operand => .unary .minus (enclose 11 operand.print)
  | .not operand => .unary .not (enclose 11 operand.print)
  | .binary op lhs rhs =>
      .binary op (enclose (opLevel op) lhs.print) (enclose (opLevel op + 1) rhs.print)

/-- The expression that a place is printed as. -/
def Place.print : Place → Expr
  | .var name => .var name
  | .index base sub => .index base.print sub.print

/-- The expressions that arguments are printed as. -/
def argsPrint : List Tree → List Expr
  | [] => []
  | t :: ts => t.print :: argsPrint ts

end

/-! ## Reading -/

/-- A subscript on a tree that is a place. -/
def Tree.subscript : Tree → Tree → Option Tree
  | .place p, sub => some (.place (.index p sub))
  | _, _ => none

mutual

/-- The tree of an expression. -/
def Expr.tree : Expr → Option Tree
  | .int val => some (.int val)
  | .float val => some (.float val)
  | .double val => some (.double val)
  | .bool val => some (.bool val)
  | .paren inner => inner.tree
  | .var name => some (.place (.var name))
  | .index base sub => do
      let b ← base.tree
      let s ← sub.tree
      b.subscript s
  | .call name args => do
      let ts ← argTrees args
      some (.call name ts)
  | .unary .plus operand => operand.tree
  | .unary .minus operand => do
      let t ← operand.tree
      some (.neg t)
  | .unary .not operand => do
      let t ← operand.tree
      some (.not t)
  | .binary op lhs rhs => do
      let l ← lhs.tree
      let r ← rhs.tree
      some (.binary op l r)
  | .assign _ _ => none

/-- The trees of the arguments of a call. -/
def argTrees : List Expr → Option (List Tree)
  | [] => some []
  | e :: es => do
      let t ← e.tree
      let ts ← argTrees es
      some (t :: ts)

end

end Grammar

open Grammar

mutual

/-- The tree of a node.  A variable has the name of its symbol. -/
def Node.tree : Node → Option Tree
  | .litInt _ val => some (.int val)
  | .litFloat _ val => some (.float val)
  | .litDouble _ val => some (.double val)
  | .litBool _ val => some (.bool val)
  | .var _ sym => sym.map fun sym => .place (.var sym.name)
  | .funcCall _ name args => do
      let ts ← argNodeTrees args
      some (.call name ts)
  | .arrayAccess _ lhs rhs => do
      let b ← lhs.tree
      let s ← nodeTree rhs
      b.subscript s
  | .neg _ lhs => do
      let t ← nodeTree lhs
      some (.neg t)
  | .logNot _ lhs => do
      let t ← nodeTree lhs
      some (.not t)
  | .binary op _ lhs rhs => do
      let l ← lhs.tree
      let r ← rhs.tree
      some (.binary op l r)
  | _ => none

/-- The tree of a node that may be null. -/
def nodeTree : Option Node → Option Tree
  | none => none
  | some n => n.tree

/-- The trees of the nodes of arguments. -/
def argNodeTrees : List (Option Node) → Option (List Tree)
  | [] => some []
  | n :: ns => do
      let t ← nodeTree n
      let ts ← argNodeTrees ns
      some (t :: ts)

end

namespace Grammar

variable {σ : Sema}

/-! ## What is printed -/

/-- What is enclosed for a level binds as strongly as the level. -/
theorem level_enclose {low : Int} (hlow : low ≤ 12) (e : Expr) : low ≤ (enclose low e).level := by
  unfold enclose
  by_cases h : low ≤ e.level
  · rw [if_pos h]
    exact h
  · rw [if_neg h]
    exact hlow

/-- It is well formed. -/
theorem wellFormed_enclose {low : Int} {e : Expr} (h : e.Operand) :
    (enclose low e).WellFormed := by
  unfold enclose
  by_cases hlevel : low ≤ e.level
  · rw [if_pos hlevel]
    exact h.1
  · rw [if_neg hlevel]
    exact h

/-- Parentheses are not part of the tree. -/
theorem tree_enclose (low : Int) (e : Expr) : (enclose low e).tree = e.tree := by
  unfold enclose
  by_cases h : low ≤ e.level
  · rw [if_pos h]
  · rw [if_neg h, Expr.tree]

/-- Parentheses build no node. -/
theorem built_enclose (low : Int) (e : Expr) : (enclose low e).built σ = e.built σ := by
  unfold enclose
  by_cases h : low ≤ e.level
  · rw [if_pos h]
  · rw [if_neg h, Expr.built]

mutual

/-- What is printed follows the levels of the operators. -/
theorem Tree.operand_print : ∀ t : Tree, t.print.Operand
  | .int _ | .float _ | .double _ | .bool _ => ⟨trivial, by simp [Tree.print, Expr.level]⟩
  | .place p => ⟨p.wellFormed_print.1, by
      have hdesignator := p.wellFormed_print.2
      rw [Tree.print]
      cases h : p.print <;> simp_all [Expr.isDesignator, Expr.level]⟩
  | .call name args => ⟨wellFormed_argsPrint args, by simp [Tree.print, Expr.level]⟩
  | .neg operand =>
      ⟨⟨wellFormed_enclose operand.operand_print, level_enclose (by decide) _⟩,
        by simp [Tree.print, Expr.level]⟩
  | .not operand =>
      ⟨⟨wellFormed_enclose operand.operand_print, level_enclose (by decide) _⟩,
        by simp [Tree.print, Expr.level]⟩
  | .binary op lhs rhs => by
      have hrange := opLevel_range op
      have hrhs : opLevel op + 1 ≤ (enclose (opLevel op + 1) rhs.print).level :=
        level_enclose (by omega) rhs.print
      refine ⟨⟨wellFormed_enclose lhs.operand_print, wellFormed_enclose rhs.operand_print,
        level_enclose (by omega) _, by omega⟩, ?_⟩
      rw [Tree.print, Expr.level]
      omega

/-- A place is printed as a variable with subscripts. -/
theorem Place.wellFormed_print : ∀ p : Place,
    p.print.WellFormed ∧ p.print.isDesignator = true
  | .var _ => ⟨trivial, rfl⟩
  | .index base sub =>
      ⟨⟨base.wellFormed_print.1, base.wellFormed_print.2, sub.operand_print.1,
        sub.operand_print.2⟩, rfl⟩

/-- Arguments are printed well formed. -/
theorem wellFormed_argsPrint : ∀ ts : List Tree, argsWellFormed (argsPrint ts)
  | [] => trivial
  | t :: ts => ⟨t.operand_print.1, wellFormed_argsPrint ts⟩

end

mutual

/-- A tree is the tree of what it is printed as. -/
theorem Tree.tree_print : ∀ t : Tree, t.print.tree = some t
  | .int _ | .float _ | .double _ | .bool _ => rfl
  | .place p => p.tree_print
  | .call name args => by
      rw [Tree.print, Expr.tree, argTrees_argsPrint args]
      rfl
  | .neg operand => by
      rw [Tree.print, Expr.tree, tree_enclose, operand.tree_print]
      rfl
  | .not operand => by
      rw [Tree.print, Expr.tree, tree_enclose, operand.tree_print]
      rfl
  | .binary op lhs rhs => by
      rw [Tree.print, Expr.tree, tree_enclose, tree_enclose, lhs.tree_print, rhs.tree_print]
      rfl

/-- So is a place. -/
theorem Place.tree_print : ∀ p : Place, p.print.tree = some (.place p)
  | .var _ => rfl
  | .index base sub => by
      rw [Place.print, Expr.tree, base.tree_print, sub.tree_print]
      rfl

/-- So are the trees of arguments. -/
theorem argTrees_argsPrint : ∀ ts : List Tree, argTrees (argsPrint ts) = some ts
  | [] => rfl
  | t :: ts => by
      rw [argsPrint, argTrees, t.tree_print, argTrees_argsPrint ts]
      rfl

end

/-! ## Ways of writing a tree -/

/-- The expression says the tree, with whatever parentheses and signs. -/
def Expr.Writes (e : Expr) (t : Tree) : Prop := e.Operand ∧ e.tree = some t

/-- What a tree is printed as writes it. -/
theorem Tree.writes_print (t : Tree) : t.print.Writes t := ⟨t.operand_print, t.tree_print⟩

/-- Redundant parentheses. -/
theorem Expr.Writes.paren {e : Expr} {t : Tree} (h : e.Writes t) : (Expr.paren e).Writes t :=
  ⟨⟨h.1, by simp [Expr.level]⟩, h.2⟩

/-- A redundant sign. -/
theorem Expr.Writes.plus {e : Expr} {t : Tree} (h : e.Writes t) (hlevel : 11 ≤ e.level) :
    (Expr.unary .plus e).Writes t :=
  ⟨⟨⟨h.1.1, hlevel⟩, by simp [Expr.level]⟩, h.2⟩

/-- Only a place takes a subscript. -/
theorem Tree.subscript_eq_some {b s t : Tree} (h : b.subscript s = some t) :
    ∃ p, b = .place p ∧ t = .place (.index p s) := by
  cases b with
  | place p => exact ⟨p, rfl, (Option.some.inj h).symm⟩
  | _ => cases h

mutual

/-- The node depends on the tree only. -/
theorem Expr.built_of_tree : ∀ {e : Expr} {t : Tree}, e.tree = some t →
    e.built σ = t.print.built σ
  | .int _, t, h | .float _, t, h | .double _, t, h | .bool _, t, h | .var _, t, h => by
      cases h
      rfl
  | .paren inner, t, h => Expr.built_of_tree (e := inner) h
  | .index base sub, t, h => by
      simp only [Expr.tree, Option.bind_eq_bind, Option.bind_eq_some_iff] at h
      obtain ⟨b, hb, s, hs, hend⟩ := h
      obtain ⟨p, rfl, rfl⟩ := Tree.subscript_eq_some hend
      rw [Expr.built, Expr.built_of_tree hb, Expr.built_of_tree hs]
      rfl
  | .call name args, t, h => by
      simp only [Expr.tree, Option.bind_eq_bind, Option.bind_eq_some_iff] at h
      obtain ⟨ts, hts, hend⟩ := h
      cases hend
      rw [Expr.built, argsBuilt_of_trees hts]
      rfl
  | .unary .plus operand, t, h => Expr.built_of_tree (e := operand) h
  | .unary .minus operand, t, h => by
      simp only [Expr.tree, Option.bind_eq_bind, Option.bind_eq_some_iff] at h
      obtain ⟨u, hu, hend⟩ := h
      cases hend
      rw [Expr.built, Expr.built_of_tree hu, Tree.print, Expr.built, built_enclose]
  | .unary .not operand, t, h => by
      simp only [Expr.tree, Option.bind_eq_bind, Option.bind_eq_some_iff] at h
      obtain ⟨u, hu, hend⟩ := h
      cases hend
      rw [Expr.built, Expr.built_of_tree hu, Tree.print, Expr.built, built_enclose]
  | .binary op lhs rhs, t, h => by
      simp only [Expr.tree, Option.bind_eq_bind, Option.bind_eq_some_iff] at h
      obtain ⟨l, hl, r, hr, hend⟩ := h
      cases hend
      rw [Expr.built, Expr.built_of_tree hl, Expr.built_of_tree hr, Tree.print, Expr.built,
        built_enclose, built_enclose]

/-- Arguments are built as their trees are. -/
theorem argsBuilt_of_trees : ∀ {es : List Expr} {ts : List Tree}, argTrees es = some ts →
    argsBuilt σ es = argsBuilt σ (argsPrint ts)
  | [], ts, h => by
      cases h
      rfl
  | e :: es, ts, h => by
      simp only [argTrees, Option.bind_eq_bind, Option.bind_eq_some_iff] at h
      obtain ⟨t, ht, ts', hts, hend⟩ := h
      cases hend
      rw [argsBuilt, Expr.built_of_tree ht, argsBuilt_of_trees hts]
      rfl

end

/-! ## Declared names -/

mutual

/-- Every variable is declared, and no name that is called has a null type. -/
def Tree.Scoped (σ : Sema) : Tree → Prop
  | .int _ | .float _ | .double _ | .bool _ => True
  | .place p => p.Scoped σ
  | .call name args =>
      (∀ sym, σ.lookup name = some sym → sym.ty.isSome = true) ∧ argsScoped σ args
  | .neg operand | .not operand => operand.Scoped σ
  | .binary _ lhs rhs => lhs.Scoped σ ∧ rhs.Scoped σ

/-- The variables of a place are declared. -/
def Place.Scoped (σ : Sema) : Place → Prop
  | .var name => ∃ sym, σ.lookup name = some sym ∧ sym.name = name
  | .index base sub => base.Scoped σ ∧ sub.Scoped σ

/-- So are those of arguments. -/
def argsScoped (σ : Sema) : List Tree → Prop
  | [] => True
  | t :: ts => t.Scoped σ ∧ argsScoped σ ts

end

mutual

/-- The node of a tree has the tree. -/
theorem Tree.tree_built : ∀ {t : Tree}, t.Scoped σ → (t.print.built σ).tree = some t
  | .int _, _ | .float _, _ | .double _, _ | .bool _, _ => rfl
  | .place p, h => Place.tree_built (p := p) h
  | .call name args, h => by
      rw [Tree.print, Expr.built, Node.tree, argNodeTrees_built h.2]
      rfl
  | .neg operand, h => by
      rw [Tree.print, Expr.built, built_enclose, Node.tree, nodeTree,
        Tree.tree_built (t := operand) h]
      rfl
  | .not operand, h => by
      rw [Tree.print, Expr.built, built_enclose, Node.tree, nodeTree,
        Tree.tree_built (t := operand) h]
      rfl
  | .binary op lhs rhs, h => by
      rw [Tree.print, Expr.built, built_enclose, built_enclose, Node.tree,
        Tree.tree_built h.1, Tree.tree_built h.2]
      rfl

/-- A place can be read off the node that is built for it. -/
theorem Place.tree_built : ∀ {p : Place}, p.Scoped σ →
    (p.print.built σ).tree = some (.place p)
  | .var name, h => by
      obtain ⟨sym, hsym, hname⟩ := h
      rw [Place.print, Expr.built, hsym, Node.tree, Option.map_some, hname]
  | .index base sub, h => by
      rw [Place.print, Expr.built, Node.tree, nodeTree, Place.tree_built h.1,
        Tree.tree_built h.2]
      rfl

/-- So can the trees of arguments. -/
theorem argNodeTrees_built : ∀ {ts : List Tree}, argsScoped σ ts →
    argNodeTrees ((argsBuilt σ (argsPrint ts)).map some) = some ts
  | [], _ => rfl
  | t :: ts, h => by
      rw [argsPrint, argsBuilt, List.map_cons, argNodeTrees, nodeTree, Tree.tree_built h.1,
        argNodeTrees_built h.2]
      rfl

end

mutual

/-- An expression whose tree is scoped calls only what can be called. -/
theorem Expr.callable_of_tree : ∀ {e : Expr} {t : Tree}, e.tree = some t → t.Scoped σ →
    e.Callable σ
  | .int _, _, _, _ | .float _, _, _, _ | .double _, _, _, _ | .bool _, _, _, _
  | .var _, _, _, _ => trivial
  | .paren inner, t, h, hscoped => Expr.callable_of_tree (e := inner) h hscoped
  | .index base sub, t, h, hscoped => by
      simp only [Expr.tree, Option.bind_eq_bind, Option.bind_eq_some_iff] at h
      obtain ⟨b, hb, s, hs, hend⟩ := h
      obtain ⟨p, rfl, rfl⟩ := Tree.subscript_eq_some hend
      exact ⟨Expr.callable_of_tree hb hscoped.1, Expr.callable_of_tree hs hscoped.2⟩
  | .call name args, t, h, hscoped => by
      simp only [Expr.tree, Option.bind_eq_bind, Option.bind_eq_some_iff] at h
      obtain ⟨ts, hts, hend⟩ := h
      cases hend
      exact ⟨hscoped.1, argsCallable_of_trees hts hscoped.2⟩
  | .unary .plus operand, t, h, hscoped => Expr.callable_of_tree (e := operand) h hscoped
  | .unary .minus operand, t, h, hscoped => by
      simp only [Expr.tree, Option.bind_eq_bind, Option.bind_eq_some_iff] at h
      obtain ⟨u, hu, hend⟩ := h
      cases hend
      exact Expr.callable_of_tree (e := operand) hu hscoped
  | .unary .not operand, t, h, hscoped => by
      simp only [Expr.tree, Option.bind_eq_bind, Option.bind_eq_some_iff] at h
      obtain ⟨u, hu, hend⟩ := h
      cases hend
      exact Expr.callable_of_tree (e := operand) hu hscoped
  | .binary op lhs rhs, t, h, hscoped => by
      simp only [Expr.tree, Option.bind_eq_bind, Option.bind_eq_some_iff] at h
      obtain ⟨l, hl, r, hr, hend⟩ := h
      cases hend
      exact ⟨Expr.callable_of_tree hl hscoped.1, Expr.callable_of_tree hr hscoped.2⟩

/-- So do arguments. -/
theorem argsCallable_of_trees : ∀ {es : List Expr} {ts : List Tree}, argTrees es = some ts →
    argsScoped σ ts → argsCallable σ es
  | [], _, _, _ => trivial
  | e :: es, ts, h, hscoped => by
      simp only [argTrees, Option.bind_eq_bind, Option.bind_eq_some_iff] at h
      obtain ⟨t, ht, ts', hts, hend⟩ := h
      cases hend
      exact ⟨Expr.callable_of_tree ht hscoped.1, argsCallable_of_trees hts hscoped.2⟩

end

/-- The node of an expression has the tree of the expression. -/
theorem Expr.tree_built {e : Expr} {t : Tree} (h : e.tree = some t) (hscoped : t.Scoped σ) :
    (e.built σ).tree = some t := by
  rw [Expr.built_of_tree h]
  exact Tree.tree_built hscoped

end Grammar

end Cact
