import Cact.Grammar.Unambiguity.Unit
import Cact.Parser.Translation

/-!
# The derivations of an accepted text

A text of the language can have many derivations: the grammar leaves it open which {lit}`if`
an {lit}`else` belongs to.  It leaves nothing else open, and the parser settles this, so what an
accepted parse returns is what is built for the one derivation that is left.

Main results:

- Theorem {lit}`parse_iff_derivations`: a parse is accepted exactly if all derivations of the
  text are rearrangements of one, for which its nodes are built.
-/

open Traced

namespace Cact

open Grammar

namespace Grammar

/-- A derivation that gives each {lit}`else` to the nearest {lit}`if` is not rearranged. -/
theorem CompUnit.rearranged_of_greedy {u : CompUnit} (hu : u.WellFormed) (hgreedy : u.Greedy) :
    u.rearranged = u :=
  CompUnit.toks_inj hu.rearranged u.greedy_rearranged hu hgreedy u.toks_rearranged

/-- The derivations of the text of a derivation. -/
theorem CompUnit.toks_iff_rearranged {u u' : CompUnit} (hu : u.WellFormed) (hgreedy : u.Greedy)
    (hu' : u'.WellFormed) : u'.toks = u.toks ↔ u'.rearranged = u := by
  rw [CompUnit.toks_eq_iff hu' hu, CompUnit.rearranged_of_greedy hu hgreedy]

end Grammar

/-- A parse ends without an error, with these nodes and this state of the analysis, exactly if
the text has a derivation for which they are built, and every other derivation of the text
becomes this one when each {lit}`else` is given to the nearest {lit}`if`. -/
theorem parse_iff_derivations (intern : List UInt8 → Symbol) (mem : Memory) (ts : TokenStream)
    (globals : List Node) (σ : Sema) :
    (∃ p, (Parser.parserRun intern mem ts).outcome = .done globals p ∧
        p.ctx.hadError = false ∧ p.sema = σ) ↔
      ∃ u : CompUnit, (u.WellFormed ∧ u.Greedy) ∧
        (∀ u' : CompUnit, u'.WellFormed →
          (u'.toks = terminals ts.tokens ↔ u'.rearranged = u)) ∧
        ∃ a, u.build intern mem.field = some (globals, a) ∧ a.sema.leave = σ := by
  constructor
  · rintro ⟨p, hout, herror, rfl⟩
    obtain ⟨u, hu, hgreedy, htoks, a, ha, hsema⟩ := Parser.build_of_accepted hout herror
    refine ⟨u, ⟨hu, hgreedy⟩, fun u' hu' => ?_, a, ha, hsema.symm⟩
    rw [← htoks]
    exact CompUnit.toks_iff_rearranged hu hgreedy hu'
  · rintro ⟨u, ⟨hu, hgreedy⟩, hderivations, a, ha, rfl⟩
    have htoks : u.toks = terminals ts.tokens :=
      (hderivations u hu).mpr (CompUnit.rearranged_of_greedy hu hgreedy)
    exact Parser.parse_of_build hu hgreedy htoks ha

end Cact
