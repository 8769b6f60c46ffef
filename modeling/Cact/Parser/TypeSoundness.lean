import Cact.Grammar.Statics
import Cact.Parser.Resolution

/-!
# Type soundness of acceptance

Every node of an accepted program follows its typing rule: nothing is converted
implicitly.  In the other direction, every program that follows the static rules is
accepted.

Main results:

- Theorem {lit}`type_soundness`: the rule holds at every node, at any depth.
- Theorem {lit}`typed_accepted`: no typed program is refused.
-/

open Traced

namespace Cact

open Grammar

/-- The nodes are those of a program with the given text.  Every node below them follows
the typing rule of its kind, with the return type of the function it stands in, every
expression node has a type, and every call and every variable has the type that the
declaration of its name gives it. -/
def TypedProgram (intern : List UInt8 → Symbol) (ts : TokenStream) (funcs : List FuncTy)
    (globals : List Node) : Prop :=
  ∃ u : CompUnit, u.WellFormed ∧ u.toks = terminals ts.tokens ∧
    List.Forall₂ (fun item n => n.All fun m =>
      m.Sound funcs item.funcRet ∧ (m.isExpr = true → m.ty.isSome = true)) u globals ∧
    u.Resolved intern globals

/-- The nodes of every accepted program are typed, if the fresh memory of the arena is
zeroed. -/
theorem type_soundness {intern : List UInt8 → Symbol} {mem : Memory} {ts : TokenStream}
    {globals : List Node} {p : Parser} (hzeroed : ∀ i, mem.field i = none)
    (h : (Parser.parserRun intern mem ts).outcome = .done globals p)
    (herror : p.ctx.hadError = false) : TypedProgram intern ts p.sema.funcs globals := by
  obtain ⟨u, hu, _, htoks, a, ha, hsema⟩ := Parser.build_of_accepted h herror
  have hfield : mem.field = noFields := funext hzeroed
  rw [hfield] at ha
  have hfuncs : p.sema.funcs = a.sema.funcs := by rw [hsema]; rfl
  have hsound := CompUnit.sound_build ha
  rw [hfuncs]
  refine ⟨u, hu, htoks, ?_, (CompUnit.resolved_build ha).1⟩
  refine hsound.imp fun item n hn m hm => ?_
  exact ⟨hn m hm, (hn m hm).ty_isSome⟩

/-- The text {lit}`int f(int a) { return a + f(1); }`. -/
def recursion : CompUnit :=
  [.func ⟨false, .int, ⟨0⟩, [⟨.int, ⟨1⟩, none⟩],
    [.stmt (.ret (some (.binary .add (.var ⟨1⟩) (.call ⟨0⟩ [.int 1]))))]⟩]

theorem type_soundness_recursion :
    ∃ globals funcs, TypedProgram Fluf.ascii.intern (stream recursion.toks) funcs globals := by
  have haccepts : Parser.Accepts Fluf.ascii.intern zeroed (stream recursion.toks) := by
    decide +kernel
  obtain ⟨globals, p, h, herror⟩ := haccepts
  exact ⟨globals, p.sema.funcs, type_soundness (fun _ => rfl) h herror⟩

/-- A program that follows the grammar and the static rules is accepted, if the fresh
memory of the arena is zeroed. -/
theorem typed_accepted {intern : List UInt8 → Symbol} {mem : Memory} {ts : TokenStream}
    {u : CompUnit} (hzeroed : ∀ i, mem.field i = none) (hu : u.WellFormed)
    (htyped : u.Typed intern) (htoks : u.toks = terminals ts.tokens) :
    Parser.Accepts intern mem ts := by
  have hfield : mem.field = noFields := funext hzeroed
  obtain ⟨ns, a', hns⟩ := htyped.rearranged.build
  apply Parser.accepted_of_build hu.rearranged u.greedy_rearranged
  · rw [u.toks_rearranged, htoks]
  · rw [hfield, hns]
    rfl

/-- The text {lit}`int g(int a[][2]) { if (a[1][0] < 2) return g(a); return 0; }`. -/
def matrixParam : CompUnit :=
  [.func ⟨false, .int, ⟨0⟩, [⟨.int, ⟨1⟩, some ⟨none, [2]⟩⟩],
    [.stmt (.ifThen (.binary .lt (.index (.index (.var ⟨1⟩) (.int 1)) (.int 0)) (.int 2))
      (.ret (some (.call ⟨0⟩ [.var ⟨1⟩])))),
     .stmt (.ret (some (.int 0)))]⟩]

theorem typed_accepted_matrix :
    Parser.Accepts Fluf.ascii.intern zeroed (stream matrixParam.toks) := by
  have hwf : matrixParam.WellFormed := by
    simp [matrixParam, CompUnit.WellFormed, Item.WellFormed, blockWellFormed,
      BlockItem.WellFormed, Stmt.WellFormed, Expr.Operand, Expr.WellFormed, argsWellFormed,
      Expr.level, Expr.isDesignator, opLevel]
  have hvar {Γ : Scoping} (h : (Γ.resolve ⟨1⟩).bind SemaSymbol.ty =
      some (.obj (.array (.array .int 0) 2))) :
      (Expr.var ⟨1⟩).HasTy Γ (.array (.array .int 0) 2) := by
    obtain ⟨sym, hsym, hty⟩ := Option.bind_eq_some_iff.mp h
    exact .var hsym hty
  have htyped : matrixParam.Typed Fluf.ascii.intern := by
    refine ⟨?_, ⟨rfl, ⟨rfl, trivial⟩, ?_⟩, trivial⟩
    · simp only [Parser.builtins, builtinsDistinct]
      decide
    · refine ⟨⟨?_, ?_⟩, .int 0, trivial⟩
      · exact .binary (.index (.index (hvar rfl) (.int 1)) (.int 0)) (.int 2) ⟨rfl, rfl⟩
      · refine Expr.HasTy.call (f := ⟨.int, [some (.array (.array .int 0) 2)]⟩) rfl rfl rfl
          (.cons (hvar ?_) .nil)
        rfl
  exact typed_accepted (fun _ => rfl) hwf htyped rfl

end Cact
