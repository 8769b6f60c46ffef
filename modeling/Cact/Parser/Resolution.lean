import Cact.Grammar.Scoping
import Cact.Parser.Language

/-!
# Symbols

The symbols in the nodes of an accepted program are those that lexical scoping selects.

Main results:

- Theorem {lit}`lexical_scoping`: the scope stack of the parser, which is taken down scope
  by scope, resolves every name as the declarations of the whole program do.
-/

open Traced

namespace Cact

open Grammar

/-- The nodes are those of a program with the given text.  Every variable in them holds the
symbol of the declaration that its name means there, every call has the type that the
declaration of its name gives it, every declarator holds its own symbol, and no scope
declares a name twice.  Symbols are numbered in textual order, carry the name, the type and
the constness of their declarators, and are global exactly in the global scope. -/
def LexicallyScoped (intern : List UInt8 → Symbol) (ts : TokenStream) (globals : List Node) :
    Prop :=
  ∃ u : CompUnit, u.WellFormed ∧ u.toks = terminals ts.tokens ∧ u.Resolved intern globals ∧
    (u.after intern).history.Unique ∧
    ∀ i (d : LexicalScope.Declaration Symbol SemaSymbol),
      (u.after intern).history.decls[i]? = some d →
        d.content.addr = i ∧ d.content.name = d.name ∧
          (d.content.isGlobal = true ↔ d.scope = 0)

/-- The nodes of every accepted program are lexically scoped. -/
theorem lexical_scoping {intern : List UInt8 → Symbol} {mem : Memory} {ts : TokenStream}
    {globals : List Node} {p : Parser}
    (h : (Parser.parserRun intern mem ts).outcome = .done globals p)
    (herror : p.ctx.hadError = false) : LexicallyScoped intern ts globals := by
  obtain ⟨u, hu, _, htoks, a, ha, _⟩ := Parser.build_of_accepted h herror
  obtain ⟨hres, hm⟩ := CompUnit.resolved_build ha
  exact ⟨u, hu, htoks, hres, hm.tracks.unique, (u.tidy_after intern).symbols⟩

/-- A function whose local variable hides a global one:
{lit}`int x; void f(int y) { float x; x; y; }`. -/
def shadowing : CompUnit :=
  [.decl ⟨false, .int, ⟨⟨0⟩, [], none⟩, []⟩,
   .func ⟨false, .void, ⟨1⟩, [⟨.int, ⟨2⟩, none⟩],
    [.decl ⟨false, .float, ⟨⟨0⟩, [], none⟩, []⟩, .stmt (.expr (.var ⟨0⟩)),
     .stmt (.expr (.var ⟨2⟩))]⟩]

theorem lexical_scoping_shadowing :
    ∃ globals, LexicallyScoped Fluf.ascii.intern (stream shadowing.toks) globals := by
  have haccepts : Parser.Accepts Fluf.ascii.intern zeroed (stream shadowing.toks) := by
    decide +kernel
  obtain ⟨globals, p, h, herror⟩ := haccepts
  exact ⟨globals, lexical_scoping h herror⟩

end Cact
