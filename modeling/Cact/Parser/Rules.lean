import Cact.Grammar.Sites
import Cact.Parser.Language

/-!
# Rules that are not checked

Rules of the language about assignments, operands and calls.  The checks of the analysis
cover a part of each, and no check at all stands between a call and the parameters of the
function.  Whether the nodes of an accepted program follow such a rule is decided by the
declarations of its source alone.

Main results:

- Theorem {lit}`reads_of_accepted`: the source behind the nodes of an accepted program.
- Theorem {lit}`assigned_lvalues_iff`: when every assignment changes a variable.
- Theorem {lit}`strict_operands_iff`: when subscripts, conditions and operands are typed.
- Theorem {lit}`calls_match_iff`: when every call has the arguments its function takes.
-/

open Traced

namespace Cact

namespace Grammar

/-- The nodes are those of the program {lit}`u`, which has the given text, with every
{lit}`else` at the nearest {lit}`if`.  Names mean what their declarations say, and every
place of the program has the node built for it. -/
structure Reads (intern : List UInt8 → Symbol) (ts : TokenStream) (u : CompUnit)
    (globals : List Node) : Prop where
  wellFormed : u.WellFormed
  greedy : u.Greedy
  toks : u.toks = terminals ts.tokens
  resolved : u.Resolved intern globals
  covers : Covers (u.sites intern) (u.pairs intern globals)

/-- The nodes of an accepted program are those of a tree with its text. -/
theorem reads_of_accepted {intern : List UInt8 → Symbol} {mem : Memory} {ts : TokenStream}
    {globals : List Node} {p : Parser}
    (h : (Parser.parserRun intern mem ts).outcome = .done globals p)
    (herror : p.ctx.hadError = false) : ∃ u, Reads intern ts u globals := by
  obtain ⟨u, hu, hgreedy, htoks, a, ha, _⟩ := Parser.build_of_accepted h herror
  exact ⟨u, hu, hgreedy, htoks, (CompUnit.resolved_build ha).1, CompUnit.built_pairs ha⟩

end Grammar

open Grammar

namespace Parser

/-- The parser accepts the token stream, with nodes that satisfy {lit}`Q`. -/
def AcceptsWith (intern : List UInt8 → Symbol) (mem : Memory) (ts : TokenStream)
    (Q : List Node → Prop) : Prop :=
  ∃ globals p, (parserRun intern mem ts).outcome = .done globals p ∧ p.ctx.hadError = false ∧
    Q globals

instance (intern : List UInt8 → Symbol) (mem : Memory) (ts : TokenStream)
    (Q : List Node → Prop) [DecidablePred Q] : Decidable (AcceptsWith intern mem ts Q) :=
  match h : (parserRun intern mem ts).outcome with
  | .done globals p =>
      decidable_of_iff (p.ctx.hadError = false ∧ Q globals) (by simp [AcceptsWith, h])
  | .fault _ => isFalse (by simp [AcceptsWith, h])
  | .timeout => isFalse (by simp [AcceptsWith, h])

end Parser

/-! ## Assignments -/

/-- A symbol of a function. -/
def SemaSymbol.isFunction (sym : SemaSymbol) : Bool :=
  match sym.ty with
  | some (.func _) => true
  | _ => false

/-- A variable, or a chain of subscripts of one, that is neither a constant nor a
function. -/
def Node.isTarget : Node → Bool
  | var _ (some sym) => !sym.isConst && !sym.isFunction
  | arrayAccess _ lhs _ => lhs.isTarget
  | _ => false

/-- The rule for assignment nodes. -/
def Node.assignsTarget : Node → Bool
  | assign _ lhs _ => lhs.isTarget
  | _ => true

namespace Grammar

/-- Whether an expression has a subscript at its end. -/
def Expr.subscripted (e : Expr) : Bool :=
  match e.stripped with
  | .index _ _ => true
  | _ => false

/-- A name of a variable, or a chain of subscripts of a name of a variable that is not
declared {lit}`const`. -/
def Expr.Assignable (Γ : Scoping) (e : Expr) : Prop :=
  ∃ name sym, e.root = some name ∧ Γ.resolve name = some sym ∧ sym.isFunction = false ∧
    (e.subscripted = true → sym.isConst = false)

/-- The left side of an assignment can be assigned. -/
def Site.Assigns (s : Site) : Prop :=
  match s.phrase with
  | .expr e | .cond e => ∀ lhs rhs, e.stripped = .assign lhs rhs → lhs.Assignable s.scoping
  | .decl _ _ _ => True

section

variable {Γ : Scoping} {σ : Sema}

/-- The node of an expression is a target exactly if its root is a variable that is not
declared {lit}`const`. -/
theorem Expr.isTarget_node (hm : Models Γ σ) {e : Expr} {n : Node} (h : e.node σ = some n) :
    n.isTarget = true ↔ ∃ name sym, e.root = some name ∧ Γ.resolve name = some sym ∧
      sym.isFunction = false ∧ sym.isConst = false := by
  cases e with
  | int val | float val | double val | bool val =>
      cases h
      simp [Node.isTarget, Expr.root]
  | paren inner => exact Expr.isTarget_node hm (e := inner) h
  | var name =>
      obtain ⟨sym, hsym, rfl⟩ := Expr.node_var h
      rw [hm.lookup] at hsym
      simp [Node.isTarget, Expr.root, hsym, and_comm]
  | index base sub =>
      obtain ⟨l, r, hl, _, hend⟩ := Expr.node_index h
      have htarget := Expr.isTarget_node hm hl
      rw [indexNode_eq hend]
      exact htarget
  | call name args =>
      obtain ⟨_, _, _, _, _, _, rfl⟩ := Expr.node_call h
      simp [Node.isTarget, Expr.root]
  | unary op operand =>
      cases op with
      | plus => exact Expr.isTarget_node hm (e := operand) h
      | minus =>
          obtain ⟨o, _, rfl⟩ := Expr.node_minus h
          simp [Node.isTarget, Expr.root]
      | not =>
          obtain ⟨o, _, rfl⟩ := Expr.node_not h
          simp [Node.isTarget, Expr.root]
  | binary op lhs rhs =>
      obtain ⟨l, r, _, _, hend⟩ := Expr.node_binary h
      rw [binaryNode_eq hend]
      simp [Node.isTarget, Expr.root]
  | assign lhs rhs =>
      obtain ⟨l, r, _, _, hend⟩ := Expr.node_assign h
      rw [assignNode_eq hend]
      simp [Node.isTarget, Expr.root]

/-- The check for constants covers variables without subscripts. -/
theorem Expr.isConst_of_isConstVar (hm : Models Γ σ) {name : Symbol} {sym : SemaSymbol}
    (hsym : Γ.resolve name = some sym) : ∀ {e : Expr} {n : Node}, e.node σ = some n →
      n.isConstVar = false → e.subscripted = false → e.root = some name → sym.isConst = false
  | .paren inner, n, h, hconst, hplain, hroot =>
      Expr.isConst_of_isConstVar hm hsym (e := inner) h hconst hplain hroot
  | .unary .plus operand, n, h, hconst, hplain, hroot =>
      Expr.isConst_of_isConstVar hm hsym (e := operand) h hconst hplain hroot
  | .var _, n, h, hconst, _, hroot => by
      cases hroot
      obtain ⟨_, hlookup, rfl⟩ := Expr.node_var h
      rw [hm.lookup, hsym] at hlookup
      cases hlookup
      exact hconst
  | .index _ _, _, _, _, hplain, _ => by
      cases hplain
  | .int _, _, _, _, _, hroot | .float _, _, _, _, _, hroot | .double _, _, _, _, _, hroot
  | .bool _, _, _, _, _, hroot | .call _ _, _, _, _, _, hroot
  | .unary .minus _, _, _, _, _, hroot | .unary .not _, _, _, _, _, hroot
  | .binary _ _ _, _, _, _, _, hroot | .assign _ _, _, _, _, _, hroot => by
      cases hroot

/-- A checked assignment changes a variable exactly if its left side can be assigned. -/
theorem Expr.isTarget_iff_assignable (hm : Models Γ σ) {e : Expr} {l r n : Node}
    (h : e.node σ = some l) (hassign : assignNode σ.funcs l r = some n) :
    l.isTarget = true ↔ e.Assignable Γ := by
  rw [Expr.isTarget_node hm h]
  constructor
  · rintro ⟨name, sym, hroot, hsym, hobj, hconst⟩
    exact ⟨name, sym, hroot, hsym, hobj, fun _ => hconst⟩
  · rintro ⟨name, sym, hroot, hsym, hobj, hsub⟩
    refine ⟨name, sym, hroot, hsym, hobj, ?_⟩
    by_cases hplain : e.subscripted = true
    · exact hsub hplain
    · have hvar : l.isConstVar = false := by
        unfold assignNode at hassign
        split at hassign
        · cases hassign
        · rename_i hconst
          simpa using hconst
      exact Expr.isConst_of_isConstVar hm hsym h hvar (by simpa using hplain) hroot

/-- The rule for one node. -/
theorem Expr.Makes.assignsTarget_iff (hm : Models Γ σ) {e : Expr} {n : Node}
    (h : Expr.Makes σ e n) : n.assignsTarget = true ↔
      ∀ lhs rhs, e = .assign lhs rhs → lhs.Assignable Γ := by
  cases h with
  | assign hl hr hcheck =>
      have htarget := Expr.isTarget_iff_assignable hm hl hcheck
      simpa [Node.assignsTarget] using htarget
  | _ => simp [Node.assignsTarget]

/-- A node assigns to a target iff the assignment at its site does. -/
theorem Site.assignsTarget_iff {s : Site} {n : Node} (h : s.Built n) :
    n.assignsTarget = true ↔ s.Assigns := by
  rcases s with ⟨Γ, phrase⟩
  obtain ⟨σ, hm, _, hbuilt⟩ := h
  cases phrase with
  | expr e => exact (Expr.makes_of_node hbuilt).assignsTarget_iff hm
  | cond e => exact (Expr.makes_of_node hbuilt).assignsTarget_iff hm
  | decl base isConst d =>
      obtain ⟨sym, field, rfl, _⟩ := hbuilt
      simp [Node.assignsTarget, Site.Assigns]

end

end Grammar

section

variable {intern : List UInt8 → Symbol} {mem : Memory} {ts : TokenStream}
  {globals : List Node} {p : Parser}

/-- In an accepted program every assignment changes a variable or an element of one, which
is no constant and no function, exactly if this is so for all assignments in the source to
names of functions, to elements of a named array and to anything that is not a name. -/
theorem assigned_lvalues_iff (h : (Parser.parserRun intern mem ts).outcome = .done globals p)
    (herror : p.ctx.hadError = false) : ∃ u, Reads intern ts u globals ∧
      ((∀ q ∈ u.pairs intern globals, q.2.assignsTarget = true) ↔
        ∀ s ∈ u.sites intern, s.Assigns) := by
  obtain ⟨u, hu⟩ := reads_of_accepted h herror
  exact ⟨u, hu, hu.covers.forall_iff fun _ _ => Site.assignsTarget_iff⟩

/-- The text {lit}`const int a[1] = {5}; void f() { a[0] = 7; }`. -/
def constElement : CompUnit :=
  [.decl ⟨true, .int, ⟨⟨0⟩, [1], some (.list [.value (.int 5)])⟩, []⟩,
   .func ⟨false, .void, ⟨1⟩, [], [.stmt (.assign (.index (.var ⟨0⟩) (.int 0)) (.int 7))]⟩]

/-- An element of a constant is assigned. -/
theorem assigned_const_element :
    Parser.AcceptsWith Fluf.ascii.intern zeroed (stream constElement.toks) fun globals =>
      ¬ ∀ q ∈ constElement.pairs Fluf.ascii.intern globals, q.2.assignsTarget = true := by
  decide +kernel

/-- The text is accepted, so the equivalence speaks of an element of a constant array. -/
theorem assigned_lvalues_iff_element : ∃ globals u,
    Reads Fluf.ascii.intern (stream constElement.toks) u globals ∧
      ((∀ q ∈ u.pairs Fluf.ascii.intern globals, q.2.assignsTarget = true) ↔
        ∀ s ∈ u.sites Fluf.ascii.intern, s.Assigns) := by
  have haccepts : Parser.Accepts Fluf.ascii.intern zeroed (stream constElement.toks) := by
    decide +kernel
  obtain ⟨globals, p, h, herror⟩ := haccepts
  exact ⟨globals, assigned_lvalues_iff h herror⟩

end

/-! ## Operands -/

/-- The operands a comparison takes: numbers, and truth values for equality. -/
def BinOp.compares (op : BinOp) (ty : Option Ty) : Bool :=
  match op with
  | .lt | .le | .gt | .ge => typeIsArithmetic ty
  | .eq | .ne => typeIsArithmetic ty || ty == tyBool
  | _ => true

/-- The rule for subscripts and for the operands of signs, negations and comparisons. -/
def Node.operandsTyped : Node → Bool
  | arrayAccess _ _ rhs => rhs.any fun n => n.ty == tyInt
  | logNot _ lhs => lhs.any fun n => n.ty == tyBool
  | neg _ lhs => lhs.any fun n => typeIsArithmetic n.ty
  | binary op _ lhs rhs => op.compares lhs.ty && op.compares rhs.ty
  | _ => true

namespace Grammar

/-- What a condition may be, and what may stand behind a unary plus. -/
def Phrase.allows (phrase : Phrase) (ty : Option Ty) : Bool :=
  match phrase with
  | .cond _ => ty == tyBool
  | .expr (.unary .plus _) => typeIsArithmetic ty
  | _ => true

/-- The rule for the operands of an expression, by the declarations of its names. -/
def Expr.operandsTyped (Γ : Scoping) : Expr → Bool
  | .index _ sub => sub.ty Γ == tyInt
  | .unary .not operand => operand.ty Γ == tyBool
  | .unary _ operand => typeIsArithmetic (operand.ty Γ)
  | .binary op lhs _ => op.compares (lhs.ty Γ)
  | _ => true

/-- The rule for a place of the source.  The right operand of a comparison is left to the
check for equal types. -/
def Site.operandsTyped (s : Site) : Bool :=
  match s.phrase with
  | .expr e | .cond e =>
      e.stripped.operandsTyped s.scoping && s.phrase.allows (e.ty s.scoping)
  | .decl _ _ _ => true

section

variable {Γ : Scoping} {σ : Sema}

/-- An operator that compares one type compares every equal one. -/
theorem compares_of_typeEq {funcs : List FuncTy} {op : BinOp} {a b : Option Ty}
    (h : typeEq funcs a b = true) (hop : op.compares a = true) : op.compares b = true := by
  cases a with
  | none => cases op <;> first | rfl | cases hop
  | some a =>
      cases a with
      | obj t => exact obj_of_typeEq h ▸ hop
      | func id => cases op <;> first | rfl | cases hop

/-- The rule for one node. -/
theorem Expr.Makes.operandsTyped_eq (hm : Models Γ σ) {e : Expr} {n : Node}
    (h : Expr.Makes σ e n) : n.operandsTyped = e.operandsTyped Γ := by
  cases h with
  | index hl hr => simp [Node.operandsTyped, Expr.operandsTyped, Expr.ty_node hm hr]
  | minus ho => simp [Node.operandsTyped, Expr.operandsTyped, Expr.ty_node hm ho]
  | not ho => simp [Node.operandsTyped, Expr.operandsTyped, Expr.ty_node hm ho]
  | binary hl hr hcheck =>
      rename_i op lhs rhs l r
      have hty : typeEq σ.funcs l.ty r.ty = true := by
        unfold binaryNode at hcheck
        split at hcheck
        · assumption
        · cases hcheck
      rw [Node.operandsTyped, Expr.operandsTyped, Expr.ty_node hm hl] at *
      cases hop : op.compares (lhs.ty Γ) with
      | true => simp [compares_of_typeEq hty hop]
      | false => rfl
  | _ => rfl

/-- The operands of a node are typed as those at its site. -/
theorem Site.operandsTyped_eq {s : Site} {n : Node} (h : s.Built n) :
    (n.operandsTyped && s.phrase.allows n.ty) = s.operandsTyped := by
  rcases s with ⟨Γ, phrase⟩
  obtain ⟨σ, hm, _, hbuilt⟩ := h
  cases phrase with
  | expr e =>
      rw [(Expr.makes_of_node hbuilt).operandsTyped_eq hm, Expr.ty_node hm hbuilt]
      rfl
  | cond e =>
      rw [(Expr.makes_of_node hbuilt).operandsTyped_eq hm, Expr.ty_node hm hbuilt]
      rfl
  | decl base isConst d =>
      obtain ⟨sym, field, rfl, _⟩ := hbuilt
      rfl

end

end Grammar

section

variable {intern : List UInt8 → Symbol} {mem : Memory} {ts : TokenStream}
  {globals : List Node} {p : Parser}

/-- In an accepted program subscripts are {lit}`int`, conditions and negated operands are
{lit}`bool`, and the operands of signs and comparisons are numbers or, for equality,
truth values, exactly if the declarations in the source give them such types. -/
theorem strict_operands_iff (h : (Parser.parserRun intern mem ts).outcome = .done globals p)
    (herror : p.ctx.hadError = false) : ∃ u, Reads intern ts u globals ∧
      ((∀ q ∈ u.pairs intern globals,
          (q.2.operandsTyped && q.1.phrase.allows q.2.ty) = true) ↔
        ∀ s ∈ u.sites intern, s.operandsTyped = true) := by
  obtain ⟨u, hu⟩ := reads_of_accepted h herror
  have hlocal (s : Site) (n : Node) (hbuilt : s.Built n) :
      (n.operandsTyped && s.phrase.allows n.ty) = true ↔ s.operandsTyped = true := by
    rw [Site.operandsTyped_eq hbuilt]
  exact ⟨u, hu, hu.covers.forall_iff hlocal⟩

/-- The text {lit}`int a[2]; void f() { while (-a) { } }`. -/
def arrayCondition : CompUnit :=
  [.decl ⟨false, .int, ⟨⟨0⟩, [2], none⟩, []⟩,
   .func ⟨false, .void, ⟨1⟩, [], [.stmt (.while (.unary .minus (.var ⟨0⟩)) (.block []))]⟩]

/-- An array is negated and tested. -/
theorem strict_operands_array :
    Parser.AcceptsWith Fluf.ascii.intern zeroed (stream arrayCondition.toks) fun globals =>
      ¬ ∀ q ∈ arrayCondition.pairs Fluf.ascii.intern globals,
        (q.2.operandsTyped && q.1.phrase.allows q.2.ty) = true := by
  decide +kernel

/-- The text is accepted, so the equivalence speaks of an array in a condition. -/
theorem strict_operands_iff_array : ∃ globals u,
    Reads Fluf.ascii.intern (stream arrayCondition.toks) u globals ∧
      ((∀ q ∈ u.pairs Fluf.ascii.intern globals,
          (q.2.operandsTyped && q.1.phrase.allows q.2.ty) = true) ↔
        ∀ s ∈ u.sites Fluf.ascii.intern, s.operandsTyped = true) := by
  have haccepts : Parser.Accepts Fluf.ascii.intern zeroed (stream arrayCondition.toks) := by
    decide +kernel
  obtain ⟨globals, p, h, herror⟩ := haccepts
  exact ⟨globals, strict_operands_iff h herror⟩

end

/-! ## Calls -/

/-- Whether a parameter takes an argument: the types are the same, or are arrays that
differ in the leading dimension only, where the parameter has none. -/
def ObjTy.takes : ObjTy → ObjTy → Bool
  | .array (.array base len₁) len₂, .array arg len =>
      len₂ == len && (ObjTy.array base len₁).takes arg
  | .array base len₁, .array arg len => base == arg && (len₁ == 0 || len₁ == len)
  | param, arg => param == arg

/-- Whether a parameter takes an argument, both with the types they were given. -/
def paramTakes : Option ObjTy → Option Ty → Bool
  | some param, some (.obj arg) => param.takes arg
  | _, _ => false

/-- One argument for every parameter. -/
def paramsTake : List (Option ObjTy) → List (Option Ty) → Bool
  | [], [] => true
  | param :: params, arg :: args => paramTakes param arg && paramsTake params args
  | _, _ => false

namespace Grammar

/-- The name is visible as a function that takes arguments of these types. -/
def Scoping.takes (Γ : Scoping) (name : Symbol) (args : List (Option Ty)) : Bool :=
  match (Γ.resolve name).bind SemaSymbol.ty with
  | some (.func id) => Γ.funcs[id]?.any fun f => paramsTake f.params args
  | _ => false

end Grammar

/-- The rule for call nodes. -/
def Node.callMatches (Γ : Scoping) : Node → Bool
  | funcCall _ name args => Γ.takes name (args.map fun arg => arg.bind Node.ty)
  | _ => true

namespace Grammar

/-- The rule for calls, by the declarations of the names in their arguments. -/
def Expr.callMatches (Γ : Scoping) : Expr → Bool
  | .call name args => Γ.takes name (args.map (Expr.ty Γ))
  | _ => true

/-- The call at a site passes what the function it names takes. -/
def Site.callMatches (s : Site) : Bool :=
  match s.phrase with
  | .expr e | .cond e => e.stripped.callMatches s.scoping
  | .decl _ _ _ => true

section

variable {Γ : Scoping} {σ : Sema}

/-- The arguments have the types that the declarations give them. -/
theorem ty_argNodes (hm : Models Γ σ) {es : List Expr} {ns : List Node}
    (h : argNodes σ es = some ns) : ns.map Node.ty = es.map (Expr.ty Γ) := by
  induction es generalizing ns with
  | nil =>
      cases h
      rfl
  | cons e es ih =>
      obtain ⟨n, ns', hn, hns', rfl⟩ := argNodes_cons h
      rw [List.map_cons, List.map_cons, Expr.ty_node hm hn, ih hns']

/-- A call's node matches iff the call does. -/
theorem Expr.Makes.callMatches_eq (hm : Models Γ σ) {e : Expr} {n : Node}
    (h : Expr.Makes σ e n) : n.callMatches Γ = e.callMatches Γ := by
  cases h with
  | call hsym hargs hty =>
      rw [Expr.callMatches, ← ty_argNodes hm hargs]
      simp [Node.callMatches, Function.comp_def]
  | _ => rfl

/-- The same at a site. -/
theorem Site.callMatches_eq {s : Site} {n : Node} (h : s.Built n) :
    n.callMatches s.scoping = s.callMatches := by
  rcases s with ⟨Γ, phrase⟩
  obtain ⟨σ, hm, _, hbuilt⟩ := h
  cases phrase with
  | expr e => exact (Expr.makes_of_node hbuilt).callMatches_eq hm
  | cond e => exact (Expr.makes_of_node hbuilt).callMatches_eq hm
  | decl base isConst d =>
      obtain ⟨sym, field, rfl, _⟩ := hbuilt
      rfl

end

end Grammar

section

variable {intern : List UInt8 → Symbol} {mem : Memory} {ts : TokenStream}
  {globals : List Node} {p : Parser}

/-- In an accepted program every call node is of a visible function and has an argument of
the right type for each of its parameters, exactly if the declarations in the source say
so of every call. -/
theorem calls_match_iff (h : (Parser.parserRun intern mem ts).outcome = .done globals p)
    (herror : p.ctx.hadError = false) : ∃ u, Reads intern ts u globals ∧
      ((∀ q ∈ u.pairs intern globals, q.2.callMatches q.1.scoping = true) ↔
        ∀ s ∈ u.sites intern, s.callMatches = true) := by
  obtain ⟨u, hu⟩ := reads_of_accepted h herror
  have hlocal (s : Site) (n : Node) (hbuilt : s.Built n) :
      n.callMatches s.scoping = true ↔ s.callMatches = true := by
    rw [Site.callMatches_eq hbuilt]
  exact ⟨u, hu, hu.covers.forall_iff hlocal⟩

/-- The text {lit}`void f(int a) { f(true, 2); }`. -/
def mismatchedCall : CompUnit :=
  [.func ⟨false, .void, ⟨0⟩, [⟨.int, ⟨1⟩, none⟩],
    [.stmt (.expr (.call ⟨0⟩ [.bool true, .int 2]))]⟩]

/-- A call has arguments of the wrong number and type. -/
theorem calls_mismatched :
    Parser.AcceptsWith Fluf.ascii.intern zeroed (stream mismatchedCall.toks) fun globals =>
      ¬ ∀ q ∈ mismatchedCall.pairs Fluf.ascii.intern globals,
        q.2.callMatches q.1.scoping = true := by
  decide +kernel

/-- The text is accepted, so the equivalence speaks of a call with the wrong arguments. -/
theorem calls_match_iff_mismatched : ∃ globals u,
    Reads Fluf.ascii.intern (stream mismatchedCall.toks) u globals ∧
      ((∀ q ∈ u.pairs Fluf.ascii.intern globals, q.2.callMatches q.1.scoping = true) ↔
        ∀ s ∈ u.sites Fluf.ascii.intern, s.callMatches = true) := by
  have haccepts : Parser.Accepts Fluf.ascii.intern zeroed (stream mismatchedCall.toks) := by
    decide +kernel
  obtain ⟨globals, p, h, herror⟩ := haccepts
  exact ⟨globals, calls_match_iff h herror⟩

end

end Cact
