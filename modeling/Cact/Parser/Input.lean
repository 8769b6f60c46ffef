import Cact.Grammar.Syntax
import Cact.Parser.EndOfFile
import Cact.Parser.ErrorFlag

/-!
# The input of the parser

The terminal symbols the parser has still to read, and what its primitive operations do
to them.  Two contracts are used: one for runs up to their first error, and one for runs
that report nothing but semantic errors.

Main results:

- Definition {lit}`Parser.input`: the terminal symbols that are left.
- Definition {lit}`untilError`: obligations that end with the first error.
-/

open Traced

namespace Cact

open Grammar

/-- The terminal symbol of a token. -/
def Token.terminal (t : Token) : Terminal :=
  match t.kind with
  | .ident => .ident t.value.name
  | .litInt => .litInt t.value.asInt
  | .litFloat => .litFloat t.value.asFloat
  | .litDouble => .litDouble t.value.asDouble
  | kind => .fixed kind

/-- A terminal remembers the kind of its token. -/
@[simp]
theorem Token.kind_terminal (t : Token) : t.terminal.kind = t.kind := by
  unfold terminal
  split <;> simp_all

/-- The terminal symbols of a list of tokens. -/
def terminals (ts : Tokens) : List Terminal := ts.map fun t => t.val.terminal

/-- An identifier's terminal is its name. -/
theorem Token.name_of_terminal {t : Token} {name : Symbol} (h : t.terminal = .ident name) :
    t.value.name = name := by
  unfold terminal at h
  split at h <;> simp_all

/-- An integer's terminal is its value. -/
theorem Token.asInt_of_terminal {t : Token} {val : Int32} (h : t.terminal = .litInt val) :
    t.value.asInt = val := by
  unfold terminal at h
  split at h <;> simp_all

/-- A float's terminal is its bits. -/
theorem Token.asFloat_of_terminal {t : Token} {val : BitVec 32}
    (h : t.terminal = .litFloat val) : t.value.asFloat = val := by
  unfold terminal at h
  split at h <;> simp_all

/-- A double's terminal is its bits. -/
theorem Token.asDouble_of_terminal {t : Token} {val : BitVec 64}
    (h : t.terminal = .litDouble val) : t.value.asDouble = val := by
  unfold terminal at h
  split at h <;> simp_all

namespace Parser

/-- The terminal symbols from the current token on. -/
def input (p : Parser) : List Terminal :=
  if p.curr.kind = .eof then [] else p.curr.terminal :: terminals p.rest

/-- Before the end of the file the input is the current token and what is behind it. -/
theorem input_of_ne {p : Parser} (h : p.curr.kind ≠ .eof) :
    p.input = p.curr.terminal :: terminals p.rest := by
  simp [input, h]

/-- The current kind is the first one of the input. -/
theorem curr_of_input {p : Parser} {t : Terminal} {ts : List Terminal}
    (h : p.input = t :: ts) : p.curr.kind = t.kind := by
  by_cases hkind : p.curr.kind = .eof
  · simp [input, hkind] at h
  · rw [input_of_ne hkind] at h
    rw [← (List.cons.inj h).1, Token.kind_terminal]

/-- The kinds whose tokens carry no value. -/
def isPlain : TokenKind → Bool
  | .ident | .litInt | .litFloat | .litDouble => false
  | _ => true

/-- A token without a value is determined by its kind. -/
theorem terminal_of_kind {t : Token} {kind : TokenKind} (h : t.kind = kind)
    (hplain : isPlain kind = true) : t.terminal = .fixed kind := by
  unfold Token.terminal
  rw [h]
  cases kind <;> simp_all [isPlain]

/-! ## Runs up to their first error -/

/-- No error has been reported, and the end of the file is not passed. -/
structure Clear (p : Parser) : Prop where
  atEnd : AtEnd p
  panicMode : p.panicMode = false
  hadError : p.ctx.hadError = false

/-- Obligations that end with the first error. -/
def untilError : Contract Parser Event :=
  ⟨fun st => st.label.isError = true, fun _ => True, fun _ => True, True⟩

/-- The terminal {lit}`t` was read, without an error. -/
structure Took (p : Parser) (t : Terminal) (p' : Parser) : Prop where
  clear : Clear p'
  input : p.input = t :: p'.input
  prev : p'.prev.terminal = t

/-- Nothing was read, without an error. -/
structure Stayed (p p' : Parser) : Prop where
  clear : Clear p'
  input : p'.input = p.input
  curr : p'.curr = p.curr
  prev : p'.prev = p.prev

section UntilError

variable {α β γ : Type} {p : Parser} {Q : α → Parser → Prop}

/-- A parser that does nothing stays. -/
theorem Stayed.refl (h : Clear p) : Stayed p p := ⟨h, rfl, rfl, rfl⟩

/-- Staying composes. -/
theorem Stayed.trans {p₁ p₂ p₃ : Parser} (h : Stayed p₁ p₂) (h' : Stayed p₂ p₃) :
    Stayed p₁ p₃ :=
  ⟨h'.clear, h'.input.trans h.input, h'.curr.trans h.curr, h'.prev.trans h.prev⟩

/-- A step that leaves the tokens and the flags alone. -/
theorem stayed_step {l : Event} {f : Parser → Parser} (h : Clear p)
    (hcurr : (f p).curr = p.curr) (hrest : (f p).rest = p.rest)
    (hprev : (f p).prev = p.prev) (hpanic : (f p).panicMode = p.panicMode)
    (hctx : (f p).ctx = p.ctx) :
    ((Prog.step l f : Parse Unit).run p).Meets untilError fun _ p' => Stayed p p' := by
  apply Prog.meets_step trivial
  constructor
  · constructor
    · intro hkind
      rw [hcurr] at hkind
      rw [hrest]
      exact h.atEnd hkind
    · rw [hpanic]
      exact h.panicMode
    · rw [hctx]
      exact h.hadError
  · simp [Parser.input, hcurr, hrest]
  · exact hcurr
  · exact hprev

/-- A mark of the trace moves no token. -/
theorem stayed_mark (l : Event) (h : Clear p) :
    ((Prog.mark l : Parse Unit).run p).Meets untilError fun _ p' => Stayed p p' :=
  stayed_step h rfl rfl rfl rfl rfl

/-- What is reported ends all obligations. -/
theorem stops_parserError {Q : Unit → Parser → Prop} (m : Msg) :
    ((parserError m).run p).Meets untilError Q := by
  unfold parserError
  rw [Prog.run_read_bind]
  exact Prog.meets_step_escape rfl

/-- A report ends what a run until the first error has to say. -/
theorem stops_ctxError {Q : Unit → Parser → Prop} (tok : Option Token) (m : Msg) :
    ((ctxError tok m).run p).Meets untilError Q :=
  Prog.meets_step_escape rfl

/-- On clear flags the loop of {lit}`advance` takes one token, or stops at an error token. -/
theorem took_advanceLoop {ts : Tokens} (hpanic : p.panicMode = false)
    (herror : p.ctx.hadError = false) :
    ((advanceLoop ts).run p).Meets untilError fun _ p' =>
      Clear p' ∧ p'.input = terminals ts ∧ p'.prev = p.prev := by
  cases ts with
  | nil =>
      apply Prog.meets_step trivial
      refine ⟨⟨fun _ => rfl, hpanic, herror⟩, ?_, rfl⟩
      simp [Parser.input, take, Token.eof, terminals]
  | cons t ts =>
      have ht : t.val.kind ≠ .eof := t.property
      rw [advanceLoop]
      split
      · exact Prog.meets_bind_escape (Prog.meets_step_escape rfl)
      · apply Prog.meets_step trivial
        refine ⟨⟨fun hkind => absurd hkind ht, hpanic, herror⟩, ?_, rfl⟩
        simp [Parser.input, take, ht, terminals]

/-- {lit}`advance` reads the current token. -/
theorem took_advance (h : Clear p) (hkind : p.curr.kind ≠ .eof) :
    (advance.run p).Meets untilError fun _ p' => Took p p.curr.terminal p' := by
  unfold advance
  apply Prog.meets_bind (R := fun _ q => q.rest = p.rest ∧ q.prev = p.curr ∧
    q.panicMode = false ∧ q.ctx.hadError = false)
  · exact Prog.meets_step trivial ⟨rfl, rfl, h.panicMode, h.hadError⟩
  · rintro _ q ⟨hrest, hprev, hpanic, herror⟩
    rw [Prog.run_read_bind, hrest]
    refine (took_advanceLoop hpanic herror).mono fun _ p' hp' => ?_
    constructor
    · exact hp'.1
    · rw [input_of_ne hkind, hp'.2.1]
    · rw [hp'.2.2, hprev]

/-- A test for a token that reads it. -/
theorem match_cases {kind : TokenKind} {m m' : Parse α} (hne : kind ≠ .eof) (h : Clear p)
    (hyes : ∀ p', Took p p.curr.terminal p' → p.curr.kind = kind →
      (m.run p').Meets untilError Q)
    (hno : p.curr.kind ≠ kind → (m'.run p).Meets untilError Q) :
    ((do if ← matchKind kind then m else m').run p).Meets untilError Q := by
  unfold matchKind checkKind
  by_cases hkind : p.curr.kind = kind
  · apply Prog.meets_bind (R := fun b p' => b = true ∧ Took p p.curr.terminal p')
    · rw [Prog.run_read_bind, if_pos (by simp [hkind])]
      refine Prog.meets_bind (took_advance h (hkind ▸ hne)) fun _ p' hp' => ?_
      exact Prog.meets_pure ⟨rfl, hp'⟩
    · rintro _ p' ⟨rfl, hp'⟩
      exact hyes p' hp' hkind
  · apply Prog.meets_bind (R := fun b p' => b = false ∧ p' = p)
    · rw [Prog.run_read_bind, if_neg (by simp [hkind])]
      exact Prog.meets_pure ⟨rfl, rfl⟩
    · rintro _ _ ⟨rfl, rfl⟩
      exact hno hkind

/-- The same, for a token without a value. -/
theorem match_fixed {kind : TokenKind} {m m' : Parse α} (hplain : isPlain kind = true)
    (hne : kind ≠ .eof) (h : Clear p)
    (hyes : ∀ p', Took p (.fixed kind) p' → (m.run p').Meets untilError Q)
    (hno : p.curr.kind ≠ kind → (m'.run p).Meets untilError Q) :
    ((do if ← matchKind kind then m else m').run p).Meets untilError Q := by
  apply match_cases hne h
  · intro p' hp' hkind
    rw [terminal_of_kind hkind hplain] at hp'
    exact hyes p' hp'
  · exact hno

/-- Checking the current kind splits the run in two. -/
theorem check_cases {kind : TokenKind} {m m' : Parse α} {c : Contract Parser Event}
    (hyes : p.curr.kind = kind → (m.run p).Meets c Q)
    (hno : p.curr.kind ≠ kind → (m'.run p).Meets c Q) :
    ((do if ← checkKind kind then m else m').run p).Meets c Q := by
  unfold checkKind
  rw [Prog.run_read_bind]
  by_cases hkind : p.curr.kind = kind
  · rw [if_pos (by simp [hkind])]
    exact hyes hkind
  · rw [if_neg (by simp [hkind])]
    exact hno hkind

/-- A token that must be there is read. -/
theorem took_consume {kind : TokenKind} {m : Msg} (hne : kind ≠ .eof) (h : Clear p) :
    ((consume kind m).run p).Meets untilError fun _ p' =>
      Took p p.curr.terminal p' ∧ p.curr.kind = kind := by
  apply check_cases
  · intro hkind
    exact (took_advance h (hkind ▸ hne)).mono fun _ _ hp' => ⟨hp', hkind⟩
  · exact fun _ => stops_parserError m

/-- {lit}`consume` of a kind without a value takes that terminal or reports. -/
theorem took_fixed {kind : TokenKind} {m : Msg} (hplain : isPlain kind = true)
    (hne : kind ≠ .eof) (h : Clear p) :
    ((consume kind m).run p).Meets untilError fun _ p' => Took p (.fixed kind) p' := by
  refine (took_consume hne h).mono fun _ p' hp' => ?_
  rw [terminal_of_kind hp'.2 hplain] at hp'
  exact hp'.1

/-- An identifier token reads as its name. -/
theorem terminal_ident {t : Token} (h : t.kind = .ident) : t.terminal = .ident t.value.name := by
  simp [Token.terminal, h]

/-- An integer token reads as its value. -/
theorem terminal_litInt {t : Token} (h : t.kind = .litInt) :
    t.terminal = .litInt t.value.asInt := by
  simp [Token.terminal, h]

end UntilError

end Parser

end Cact
