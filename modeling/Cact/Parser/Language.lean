import Cact.Lexer.Progress
import Cact.Parser.Completeness.Unit

/-!
# The language of the parser

Where no semantic check fires, the parser accepts exactly the texts of the grammar.

Main results:

- Theorem {lit}`accepts_iff_derives`: the language of the parser.
- Definition {lit}`stream`: a token stream with a given text.
-/

open Traced

namespace Cact

namespace Grammar

/-- A token for a terminal symbol. -/
def Terminal.token : Terminal → Token
  | .ident name => ⟨.ident, ⟨0, 0⟩, .ofName name⟩
  | .litInt val => ⟨.litInt, ⟨0, 0⟩, .ofInt val⟩
  | .litFloat val => ⟨.litFloat, ⟨0, 0⟩, .ofFloat val⟩
  | .litDouble val => ⟨.litDouble, ⟨0, 0⟩, .ofDouble val⟩
  | .fixed kind => ⟨kind, ⟨0, 0⟩, .unset⟩

/-- A token stream for a text, up to the first end-of-file token in it. -/
def stream (ts : List Terminal) : TokenStream where
  tokens := ts.filterMap fun t =>
    if h : t.token.kind = .eof then none else some ⟨t.token, h⟩
  endSpan := ⟨0, 0⟩

/-- The memory of a process that starts with zeroed pages. -/
def zeroed : Memory := ⟨fun _ => none, Token.eof ⟨0, 0⟩⟩

end Grammar

open Grammar

namespace Parser

/-- Whether the parser accepts a token stream, by running it. -/
def accepts (intern : List UInt8 → Symbol) (mem : Memory) (ts : TokenStream) : Bool :=
  match (parserRun intern mem ts).outcome with
  | .done _ p => !p.ctx.hadError
  | _ => false

theorem accepts_iff {intern : List UInt8 → Symbol} {mem : Memory} {ts : TokenStream} :
    accepts intern mem ts = true ↔ Accepts intern mem ts := by
  unfold accepts Accepts
  cases (parserRun intern mem ts).outcome with
  | done globals p => simp
  | fault p => simp
  | timeout => simp

instance (intern : List UInt8 → Symbol) (mem : Memory) (ts : TokenStream) :
    Decidable (Accepts intern mem ts) :=
  decidable_of_iff _ accepts_iff

end Parser

/-- If no semantic check fires in the parse of a token stream, the parser accepts it
exactly if it is a text of the grammar. -/
theorem accepts_iff_derives (intern : List UInt8 → Symbol) (mem : Memory) (ts : TokenStream)
    (hquiet : ∀ st ∈ (Parser.parserRun intern mem ts).steps, st.label.isSemantic = false) :
    Parser.Accepts intern mem ts ↔ Derives (terminals ts.tokens) := by
  constructor
  · exact Parser.derives_of_accepted
  · intro hderives
    obtain ⟨u, hu, hgreedy, htoks⟩ := exists_greedy hderives
    have hbuilds := Parser.builds_parserProgram (B := True) (n := Parser.budget ts.tokens.length)
      intern mem hu hgreedy htoks fun _ => trivial
    have hescape : ∀ st ∈ (Parser.parserRun intern mem ts).steps,
        ¬ (Parser.semanticOnly True).escape st := by
      rintro st hst ⟨_, hsemantic⟩
      rw [hquiet st hst] at hsemantic
      cases hsemantic
    cases hout : (Parser.parserRun intern mem ts).outcome with
    | done globals p => exact ⟨globals, p, hout, (hbuilds.of_done hescape hout).1⟩
    | fault p => exact absurd (hbuilds.of_fault hescape hout) id
    | timeout => exact absurd hout (Parser.parserRun_ne_timeout intern mem ts)

/-- The text {lit}`int x ;`. -/
theorem accepts_iff_derives_declaration :
    Parser.Accepts Fluf.ascii.intern zeroed
        (stream [.fixed .kwInt, .ident ⟨0⟩, .fixed .semicolon]) ↔
      Derives [.fixed .kwInt, .ident ⟨0⟩, .fixed .semicolon] :=
  accepts_iff_derives Fluf.ascii.intern zeroed
    (stream [.fixed .kwInt, .ident ⟨0⟩, .fixed .semicolon]) (by
      have hall : (Parser.parserRun Fluf.ascii.intern zeroed
          (stream [.fixed .kwInt, .ident ⟨0⟩, .fixed .semicolon])).steps.all
            (fun st => !st.label.isSemantic) = true := by
        decide +kernel
      intro st hst
      simpa using List.all_eq_true.mp hall st hst)

end Cact
