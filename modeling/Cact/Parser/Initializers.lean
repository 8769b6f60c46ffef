import Cact.Parser.Rules
import Mathlib.Algebra.Ring.Int.Defs

/-!
# Initializers

What the initializers of an accepted program may look like.  A scalar initializer is
compared with the declared type and otherwise not looked at; a brace list is not looked at
at all.

Main results:

- Definitions {lit}`Node.leaves` and {lit}`Node.depth`: the values in a brace list and how
  deep it is nested.
- Theorem {lit}`Elem.leaves_node`: they are those of the source.
- Theorem {lit}`constant_initializers_iff`: when every initializer is made of literals.
- Theorem {lit}`brace_lists_fit_iff`: when every brace list fits its variable.
-/

open Traced

namespace Cact

open Grammar

/-! ## Brace lists -/

mutual

/-- The values in a brace list, at every depth; anything else is its own only one. -/
def Node.leaves : Node → List Node
  | .initList _ inits => initsLeaves inits
  | n => [n]

/-- The values at the leaves of a list of fields, left to right. -/
def initsLeaves : List (Option Node) → List Node
  | [] => []
  | init :: inits => initLeaves init ++ initsLeaves inits

/-- The values at the leaves of one field; an unwritten field has none. -/
def initLeaves : Option Node → List Node
  | none => []
  | some n => Node.leaves n

end

mutual

/-- How deep brace lists are nested. -/
def Node.depth : Node → Nat
  | .initList _ inits => initsDepth inits + 1
  | _ => 0

/-- The greatest depth among a list of fields. -/
def initsDepth : List (Option Node) → Nat
  | [] => 0
  | init :: inits => max (initDepth init) (initsDepth inits)

/-- The depth of one field; an unwritten field counts as flat. -/
def initDepth : Option Node → Nat
  | none => 0
  | some n => Node.depth n

end

namespace Grammar

mutual

/-- The values in an element of a brace list. -/
def Elem.leaves : Elem → List Expr
  | .value e => [e]
  | .list es => elemsLeaves es

/-- The expressions at the leaves of a list, left to right. -/
def elemsLeaves : List Elem → List Expr
  | [] => []
  | e :: es => e.leaves ++ elemsLeaves es

end

mutual

/-- How deep the braces of an element nest. -/
def Elem.depth : Elem → Nat
  | .value _ => 0
  | .list es => elemsDepth es + 1

/-- The greatest depth among the elements of a list. -/
def elemsDepth : List Elem → Nat
  | [] => 0
  | e :: es => max e.depth (elemsDepth es)

end

/-- The values in an initializer. -/
def Init.leaves : Init → List Expr
  | .expr e => [e]
  | .list es => elemsLeaves es

section

variable {Γ : Scoping} {σ : Sema}

/-- The node of an expression is no brace list. -/
theorem Expr.leaves_node {e : Expr} {n : Node} (h : e.node σ = some n) :
    n.leaves = [n] ∧ n.depth = 0 := by
  have hmakes := Expr.makes_of_node h
  generalize e.stripped = e' at hmakes
  cases hmakes <;> simp [Node.leaves, Node.depth]

/-- The nodes of these values. -/
def ValuesOf (σ : Sema) : List Expr → List Node → Prop :=
  List.Forall₂ fun e n => e.node σ = some n

mutual

/-- A brace list has the values of the source and is nested as deep. -/
theorem Elem.leaves_node : ∀ {e : Elem} {n : Node}, e.node σ = some n →
    ValuesOf σ e.leaves n.leaves ∧ n.depth = e.depth
  | .value e, n, h => by
      obtain ⟨hleaves, hdepth⟩ := Expr.leaves_node h
      rw [hleaves]
      exact ⟨.cons h .nil, hdepth⟩
  | .list es, n, h => by
      obtain ⟨ns, hns, rfl⟩ := Elem.node_list h
      obtain ⟨hleaves, hdepth⟩ := elems_leaves hns
      exact ⟨hleaves, by rw [Node.depth, Elem.depth, hdepth]⟩

/-- The leaves and the depth of the nodes are those of the elements they were built from. -/
theorem elems_leaves : ∀ {es : List Elem} {ns : List Node}, elemNodes σ es = some ns →
    ValuesOf σ (elemsLeaves es) (initsLeaves (ns.map some)) ∧
      initsDepth (ns.map some) = elemsDepth es
  | [], ns, h => by
      cases h
      exact ⟨.nil, rfl⟩
  | e :: es, ns, h => by
      obtain ⟨n, ns', hn, hns', rfl⟩ := elemNodes_cons h
      obtain ⟨hleaf, hdepth⟩ := Elem.leaves_node hn
      obtain ⟨hleaves, hdepths⟩ := elems_leaves hns'
      refine ⟨List.rel_append hleaf hleaves, ?_⟩
      rw [List.map_cons, initsDepth, initDepth, elemsDepth, hdepth, hdepths]

end

/-- The leaves of an initialiser's node are the values of its leaves. -/
theorem Init.leaves_node {init : Init} {n : Node} (h : init.node σ = some n) :
    ValuesOf σ init.leaves n.leaves := by
  cases init with
  | expr e =>
      rw [(Expr.leaves_node h).1]
      exact .cons h .nil
  | list es => exact (Elem.leaves_node (e := .list es) h).1

end

end Grammar

/-! ## Constants -/

/-- A literal. -/
def Node.isLiteral : Node → Bool
  | .litInt _ _ | .litFloat _ _ | .litDouble _ _ | .litBool _ _ => true
  | _ => false

/-- A literal, or a minus sign in front of one; plus signs leave no node. -/
def Node.isConstant : Node → Bool
  | .neg _ lhs => lhs.any Node.isLiteral
  | n => n.isLiteral

/-- The rule for the initializer of a declaration node: all its values are constants. -/
def Node.initConstant : Node → Bool
  | .varDecl _ _ init => init.any fun n => n.leaves.all Node.isConstant
  | _ => false

namespace Grammar

/-- Whether a declarator has an initializer. -/
def Phrase.hasInit : Phrase → Bool
  | .decl _ _ d => d.init.isSome
  | _ => false

/-- A literal of one of the four kinds the lexer makes. -/
def Expr.isLiteral : Expr → Bool
  | .int _ | .float _ | .double _ | .bool _ => true
  | _ => false

/-- A literal with at most one minus sign, parentheses and plus signs apart. -/
def Expr.isConstant (e : Expr) : Bool :=
  match e.stripped with
  | .unary .minus operand => operand.stripped.isLiteral
  | e => e.isLiteral

/-- All values in the initializer of a declarator are such literals. -/
def Phrase.initConstant : Phrase → Bool
  | .decl _ _ d => d.init.all fun init => init.leaves.all Expr.isConstant
  | _ => true

section

variable {Γ : Scoping} {σ : Sema}

/-- A node is a literal iff the expression is one under its redundant signs and parentheses. -/
theorem Expr.isLiteral_node {e : Expr} {n : Node} (h : e.node σ = some n) :
    n.isLiteral = e.stripped.isLiteral := by
  have hmakes := Expr.makes_of_node h
  generalize e.stripped = e' at hmakes
  cases hmakes <;> rfl

/-- A node is constant iff its expression is. -/
theorem Expr.isConstant_node {e : Expr} {n : Node} (h : e.node σ = some n) :
    n.isConstant = e.isConstant := by
  have hmakes := Expr.makes_of_node h
  unfold Expr.isConstant
  generalize e.stripped = e' at hmakes
  cases hmakes with
  | minus ho => exact Expr.isLiteral_node ho
  | _ => rfl

/-- A test of the values on both sides. -/
theorem ValuesOf.all_eq {es : List Expr} {ns : List Node} (h : ValuesOf σ es ns)
    {f : Node → Bool} {g : Expr → Bool} (hfg : ∀ e n, e.node σ = some n → f n = g e) :
    ns.all f = es.all g := by
  induction h with
  | nil => rfl
  | cons hn _ ih => rw [List.all_cons, List.all_cons, hfg _ _ hn, ih]

/-- The rule for one declarator. -/
theorem Site.initConstant_iff {s : Site} {n : Node} (h : s.Built n) :
    (s.phrase.hasInit = true → n.initConstant = true) ↔ s.phrase.initConstant = true := by
  obtain ⟨σ, _, _, hbuilt⟩ := h
  cases hs : s.phrase with
  | decl base isConst d =>
      rw [hs] at hbuilt
      obtain ⟨sym, field, rfl, hfield⟩ := hbuilt
      cases hd : d.init with
      | none => simp [Phrase.hasInit, Phrase.initConstant, hd]
      | some init =>
          obtain ⟨m, rfl, hm⟩ := hfield init hd
          have hall := (Init.leaves_node hm).all_eq fun _ _ => Expr.isConstant_node
          simp [Phrase.hasInit, Phrase.initConstant, hd, Node.initConstant, ← hall]
  | _ => simp [Phrase.hasInit, Phrase.initConstant]

end

end Grammar

section

variable {intern : List UInt8 → Symbol} {mem : Memory} {ts : TokenStream}
  {globals : List Node} {p : Parser}

/-- In an accepted program the initializers of all variables are made of literals exactly
if they are so in the source. -/
theorem constant_initializers_iff
    (h : (Parser.parserRun intern mem ts).outcome = .done globals p)
    (herror : p.ctx.hadError = false) : ∃ u, Reads intern ts u globals ∧
      ((∀ q ∈ u.pairs intern globals, q.1.phrase.hasInit = true → q.2.initConstant = true) ↔
        ∀ s ∈ u.sites intern, s.phrase.initConstant = true) := by
  obtain ⟨u, hu⟩ := reads_of_accepted h herror
  exact ⟨u, hu, hu.covers.forall_iff fun _ _ => Site.initConstant_iff⟩

/-- The text {lit}`int a = 2; const int b[1] = {a * 3};`. -/
def computedInit : CompUnit :=
  [.decl ⟨false, .int, ⟨⟨0⟩, [], some (.expr (.int 2))⟩, []⟩,
   .decl ⟨true, .int,
    ⟨⟨1⟩, [1], some (.list [.value (.binary .mul (.var ⟨0⟩) (.int 3))])⟩, []⟩]

/-- An element of a constant is a product with a variable. -/
theorem computed_initializer :
    Parser.AcceptsWith Fluf.ascii.intern zeroed (stream computedInit.toks) fun globals =>
      ¬ ∀ q ∈ computedInit.pairs Fluf.ascii.intern globals,
        q.1.phrase.hasInit = true → q.2.initConstant = true := by
  decide +kernel

/-- The text is accepted, so the equivalence speaks of an initialiser that computes. -/
theorem constant_initializers_iff_computed : ∃ globals u,
    Reads Fluf.ascii.intern (stream computedInit.toks) u globals ∧
      ((∀ q ∈ u.pairs Fluf.ascii.intern globals,
          q.1.phrase.hasInit = true → q.2.initConstant = true) ↔
        ∀ s ∈ u.sites Fluf.ascii.intern, s.phrase.initConstant = true) := by
  have haccepts : Parser.Accepts Fluf.ascii.intern zeroed (stream computedInit.toks) := by
    decide +kernel
  obtain ⟨globals, p, h, herror⟩ := haccepts
  exact ⟨globals, constant_initializers_iff h herror⟩

end

/-! ## Fitting the variable -/

/-- The dimensions of an array type, the outermost first. -/
def ObjTy.dims : ObjTy → List Int32
  | .array base len => len :: base.dims
  | _ => []

/-- The type that is left without the dimensions. -/
def ObjTy.elem : ObjTy → ObjTy
  | .array base _ => base.elem
  | ty => ty

/-- Whether a brace list of this depth, with values of these types, fits a variable: an
array at least as deep, with room for the values, whose elements have their type. -/
def ObjTy.admits (ty : ObjTy) (depth : Nat) (values : List (Option Ty)) : Bool :=
  !ty.dims.isEmpty && values.all (· == some (.obj ty.elem)) && depth ≤ ty.dims.length &&
    (values.length : Int) ≤ (ty.dims.map Int32.toInt).prod

/-- The rule for the brace list in a declaration node. -/
def Node.listFits : Node → Bool
  | .varDecl (some (.obj ty)) _ (some n) => ty.admits n.depth (n.leaves.map Node.ty)
  | _ => false

namespace Grammar

/-- Whether a declarator has a brace list. -/
def Phrase.hasList : Phrase → Bool
  | .decl _ _ ⟨_, _, some (.list _)⟩ => true
  | _ => false

/-- The rule for the brace list of a declarator, by the declarations of its names. -/
def Site.listFits (s : Site) : Bool :=
  match s.phrase with
  | .decl base _ ⟨_, dims, some (.list es)⟩ =>
      (arrayTy base dims).admits (Elem.list es).depth
        ((elemsLeaves es).map (Expr.ty s.scoping))
  | _ => true

section

variable {Γ : Scoping} {σ : Sema}

/-- The types of the nodes are the types of the expressions. -/
theorem ValuesOf.ty_eq (hm : Models Γ σ) {es : List Expr} {ns : List Node}
    (h : ValuesOf σ es ns) : ns.map Node.ty = es.map (Expr.ty Γ) := by
  induction h with
  | nil => rfl
  | cons hn _ ih => rw [List.map_cons, List.map_cons, Expr.ty_node hm hn, ih]

/-- The list of a node fits its declarator iff the list at the site does. -/
theorem Site.listFits_iff {s : Site} {n : Node} (h : s.Built n) :
    (s.phrase.hasList = true → n.listFits = true) ↔ s.listFits = true := by
  rcases s with ⟨Γ, phrase⟩
  obtain ⟨σ, hm, _, hbuilt⟩ := h
  cases phrase with
  | decl base isConst d =>
      obtain ⟨sym, field, rfl, hfield⟩ := hbuilt
      rcases d with ⟨name, dims, init⟩
      cases init with
      | none => simp [Phrase.hasList, Site.listFits]
      | some init =>
          cases init with
          | expr e => simp [Phrase.hasList, Site.listFits]
          | list es =>
              obtain ⟨m, rfl, hnode⟩ := hfield _ rfl
              obtain ⟨hleaves, hdepth⟩ := Elem.leaves_node (e := .list es) hnode
              have htys : m.leaves.map Node.ty = (elemsLeaves es).map (Expr.ty Γ) :=
                ValuesOf.ty_eq hm hleaves
              simp [Phrase.hasList, Site.listFits, Node.listFits, htys, hdepth]
  | _ => simp [Phrase.hasList, Site.listFits]

end

end Grammar

section

variable {intern : List UInt8 → Symbol} {mem : Memory} {ts : TokenStream}
  {globals : List Node} {p : Parser}

/-- In an accepted program every brace list fits its variable exactly if it does so by
the declarations in the source. -/
theorem brace_lists_fit_iff
    (h : (Parser.parserRun intern mem ts).outcome = .done globals p)
    (herror : p.ctx.hadError = false) : ∃ u, Reads intern ts u globals ∧
      ((∀ q ∈ u.pairs intern globals, q.1.phrase.hasList = true → q.2.listFits = true) ↔
        ∀ s ∈ u.sites intern, s.listFits = true) := by
  obtain ⟨u, hu⟩ := reads_of_accepted h herror
  exact ⟨u, hu, hu.covers.forall_iff fun _ _ => Site.listFits_iff⟩

/-- The text {lit}`int x = {true, {2}};`. -/
def scalarList : CompUnit :=
  [.decl ⟨false, .int,
    ⟨⟨0⟩, [], some (.list [.value (.bool true), .list [.value (.int 2)]])⟩, []⟩]

/-- A number is initialized with a nested brace list. -/
theorem brace_list_of_scalar :
    Parser.AcceptsWith Fluf.ascii.intern zeroed (stream scalarList.toks) fun globals =>
      ¬ ∀ q ∈ scalarList.pairs Fluf.ascii.intern globals,
        q.1.phrase.hasList = true → q.2.listFits = true := by
  decide +kernel

/-- The text is accepted, so the equivalence speaks of a list for a number. -/
theorem brace_lists_fit_iff_scalar : ∃ globals u,
    Reads Fluf.ascii.intern (stream scalarList.toks) u globals ∧
      ((∀ q ∈ u.pairs Fluf.ascii.intern globals,
          q.1.phrase.hasList = true → q.2.listFits = true) ↔
        ∀ s ∈ u.sites Fluf.ascii.intern, s.listFits = true) := by
  have haccepts : Parser.Accepts Fluf.ascii.intern zeroed (stream scalarList.toks) := by
    decide +kernel
  obtain ⟨globals, p, h, herror⟩ := haccepts
  exact ⟨globals, brace_lists_fit_iff h herror⟩

end

end Cact
