import Cact.Parser.Completeness.Unit

/-!
# The parser as a translation

One pass over the tokens checks the syntax, resolves the names, assigns the types and
builds the nodes, all at once.  What comes of it can be said in two steps: a syntax tree of
the text, and what is built for the tree.

Main results:

- Theorem {lit}`parse_iff_build`: an accepted parse returns what is built for a tree of its
  text, and whatever is built for a tree of a text is returned by an accepted parse.
- Theorem {lit}`blocks_of_build`: every item of a file becomes one block.
-/

open Traced

namespace Cact

open Grammar

/-! ## The nodes of a file -/

/-- A node that holds statements, with no type. -/
def Node.isBlock : Node → Bool
  | block none _ => true
  | _ => false

namespace Grammar

variable {fresh : Nat → Option Node} {a a' : Analysis} {n : Node}

theorem Decl.isBlock_of_build {d : Decl} (h : d.build fresh a = some (n, a')) :
    n.isBlock = true := by
  obtain ⟨ns, _, rfl⟩ := Decl.build_cases h
  rfl

theorem Item.isBlock_of_build {item : Item} (h : item.build fresh a = some (n, a')) :
    n.isBlock = true := by
  cases item with
  | func f =>
      obtain ⟨_, _, _, ns, _, _, _, _, rfl, _⟩ := Func.build_cases h
      rfl
  | decl d => exact d.isBlock_of_build h

/-- Every item of a file becomes one block. -/
theorem blocks_of_build {items : List Item} {ns : List Node}
    (h : itemsBuild fresh items a = some (ns, a')) :
    ns.length = items.length ∧ ∀ n ∈ ns, n.isBlock = true := by
  induction items generalizing a ns with
  | nil =>
      cases h
      simp
  | cons item items ih =>
      obtain ⟨n, a₁, ns', hitem, hitems, rfl⟩ := itemsBuild_cons h
      obtain ⟨hlength, hblocks⟩ := ih hitems
      refine ⟨by simp [hlength], ?_⟩
      intro m hm
      rcases List.mem_cons.mp hm with rfl | hm
      · exact Item.isBlock_of_build hitem
      · exact hblocks m hm

end Grammar

/-! ## Accepted texts -/

/-- The parse of a text of the grammar is accepted, or no nodes are built for its tree. -/
theorem Parser.parse_of_build {intern : List UInt8 → Symbol} {mem : Memory} {ts : TokenStream}
    {u : CompUnit} {globals : List Node} {a : Analysis} (hu : u.WellFormed)
    (hgreedy : u.Greedy) (htoks : u.toks = terminals ts.tokens)
    (h : u.build intern mem.field = some (globals, a)) :
    ∃ p, (parserRun intern mem ts).outcome = .done globals p ∧ p.ctx.hadError = false ∧
      p.sema = a.sema.leave := by
  have haccepts : Accepts intern mem ts := accepted_of_build hu hgreedy htoks (by simp [h])
  obtain ⟨returned, p, hout, herror⟩ := haccepts
  have hbuilds := builds_parserProgram (B := False) (n := budget ts.tokens.length) intern mem hu
    hgreedy htoks fun hnone => by simp [h] at hnone
  obtain ⟨_, a', hbuild, hsema⟩ := hbuilds.of_done (fun _ _ hescape => hescape.1.1) hout
  rw [h] at hbuild
  cases hbuild
  exact ⟨p, hout, herror, hsema⟩

/-- The parser in two steps.  A parse ends without an error, with these nodes and this state
of the analysis, exactly if the text has a syntax tree that keeps every {lit}`else` with the
nearest {lit}`if`, and these are the nodes built for the tree and the state they leave. -/
theorem parse_iff_build (intern : List UInt8 → Symbol) (mem : Memory) (ts : TokenStream)
    (globals : List Node) (σ : Sema) :
    (∃ p, (Parser.parserRun intern mem ts).outcome = .done globals p ∧
        p.ctx.hadError = false ∧ p.sema = σ) ↔
      ∃ u : CompUnit, u.WellFormed ∧ u.Greedy ∧ u.toks = terminals ts.tokens ∧
        ∃ a, u.build intern mem.field = some (globals, a) ∧ a.sema.leave = σ := by
  constructor
  · rintro ⟨p, hout, herror, rfl⟩
    obtain ⟨u, hu, hgreedy, htoks, a, ha, hsema⟩ := Parser.build_of_accepted hout herror
    exact ⟨u, hu, hgreedy, htoks, a, ha, hsema.symm⟩
  · rintro ⟨u, hu, hgreedy, htoks, a, ha, rfl⟩
    exact Parser.parse_of_build hu hgreedy htoks ha

end Cact
