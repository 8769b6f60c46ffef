import Cact.Presentation
import Cact.Parser.Derivations

/-!
# Printed programs

A tree can be printed: its tokens are spelt, and blanks and comments are put around them.
Compiling the file gives the nodes that are built for the tree, once each {lit}`else` is given
to the nearest {lit}`if`.

Main results:

- Definition {lit}`printed`: spellings in a layout, as a file.
- Theorem {lit}`spells_iff`: which trees can be printed.
- Theorem {lit}`terminals_printed`: the tokens of a printed file.
- Theorem {lit}`compile_printed`: what becomes of a tree that is printed and compiled.
-/

namespace Cact

open Grammar Language

/-! ## Spellings of terminals -/

/-- What a spelling stands for in a tree. -/
def Spelling.terminal (f : Fluf) (s : Spelling) : Terminal :=
  match s.kind with
  | .ident => .ident (f.intern s.text)
  | .litInt => .litInt (Int32.ofNat (Lexer.strtoll s.text))
  | .litFloat => .litFloat (f.strtof s.text)
  | .litDouble => .litDouble (f.strtod s.text)
  | kind => .fixed kind

/-- Names must be interned, and {lit}`float` and {lit}`double` values must come from a literal.
Everything else has a text anyway. -/
def Spellable (f : Fluf) : Terminal → Prop
  | .ident name => ∃ text ∈ TokenKind.ident.language, f.intern text = name
  | .litFloat val =>
      ∃ text ∈ TokenKind.litFloat.language, text.length < 128 ∧ f.strtof text = val
  | .litDouble val =>
      ∃ text ∈ TokenKind.litDouble.language, text.length < 128 ∧ f.strtod text = val
  | .litInt _ | .fixed _ => True

section

variable {f : Fluf}

theorem Spelling.spellable (s : Spelling) : Spellable f (s.terminal f) := by
  obtain ⟨kind, text, hmem, hshort⟩ := s
  cases kind with
  | ident => exact ⟨text, hmem, rfl⟩
  | litFloat => exact ⟨text, hmem, hshort rfl, rfl⟩
  | litDouble => exact ⟨text, hmem, hshort rfl, rfl⟩
  | _ => trivial

theorem mem_language_of_isFixed {kind : TokenKind} (h : isFixed kind = true) :
    ∃ text, text ∈ kind.language := by
  cases kind <;> first | cases h; done | exact ⟨_, rfl⟩

theorem isNumber_of_isFixed {kind : TokenKind} (h : isFixed kind = true) :
    kind.isNumber = false := by
  cases kind <;> first | cases h; done | rfl

/-- The text is the decimal one, of the number that has the same bits. -/
theorem exists_spelling_int (val : Int32) :
    ∃ s : Spelling, s.terminal f = .litInt val := by
  have hlt : val.toBitVec.toNat < 10000000000 :=
    Nat.lt_trans val.toBitVec.isLt (by decide)
  refine ⟨⟨.litInt, (Nat.toDigits 10 val.toBitVec.toNat).map byte, Or.inl ?_,
    fun _ => Lexer.length_decimal hlt⟩, ?_⟩
  · exact mem_letters.mpr ⟨by simp, Lexer.isDigit_decimal⟩
  · have hval : Int32.ofNat val.toBitVec.toNat = val := by
      apply Int32.toBitVec_inj.mp
      simp [Int32.ofNat]
    simp only [Spelling.terminal]
    rw [Lexer.strtoll_toDigits (by omega), hval]

theorem exists_spelling_terminal {t : Terminal} (hwritten : t.Written) (h : Spellable f t) :
    ∃ s : Spelling, s.terminal f = t := by
  cases t with
  | ident name =>
      obtain ⟨text, hmem, rfl⟩ := h
      exact ⟨⟨.ident, text, hmem, fun hnumber => by cases hnumber⟩, rfl⟩
  | litInt val => exact exists_spelling_int val
  | litFloat val =>
      obtain ⟨text, hmem, hshort, rfl⟩ := h
      exact ⟨⟨.litFloat, text, hmem, fun _ => hshort⟩, rfl⟩
  | litDouble val =>
      obtain ⟨text, hmem, hshort, rfl⟩ := h
      exact ⟨⟨.litDouble, text, hmem, fun _ => hshort⟩, rfl⟩
  | fixed kind =>
      obtain ⟨text, hmem⟩ := mem_language_of_isFixed hwritten
      refine ⟨⟨kind, text, hmem, fun hnumber => ?_⟩, ?_⟩
      · rw [isNumber_of_isFixed hwritten] at hnumber
        cases hnumber
      · cases kind <;> first | rfl | cases hwritten

/-- The trees that can be printed. -/
theorem spells_iff (u : CompUnit) :
    (∃ ss : List Spelling, ss.map (Spelling.terminal f) = u.toks) ↔
      ∀ t ∈ u.toks, Spellable f t := by
  constructor
  · rintro ⟨ss, hss⟩ t ht
    rw [← hss] at ht
    obtain ⟨s, _, rfl⟩ := List.mem_map.mp ht
    exact s.spellable
  · intro h
    have hspellings : u.toks ∈ Set.range (List.map (Spelling.terminal f)) := by
      rw [Set.range_list_map]
      exact fun t ht => exists_spelling_terminal (u.written t ht) (h t ht)
    exact hspellings

end

/-! ## Files -/

/-- A file: some blanks and comments, and then spellings, each with a separator behind it. -/
def printed (lead : List Trivia) (ss : List Spelling) (sep : Nat → Separator) : List UInt8 :=
  lead.flatMap Trivia.text ++ layOut (ss.map Spelling.text) sep

theorem terminal_of_meaning {f : Fluf} {s : Spelling} {t : Token}
    (h : t.meaning = s.meaning f) : t.terminal = s.terminal f := by
  have hkind : t.kind = s.kind := congrArg Prod.fst h
  have hvalue : t.value = s.kind.value f s.text := congrArg Prod.snd h
  unfold Token.terminal Spelling.terminal
  rw [hkind, hvalue]
  cases s.kind <;> rfl

theorem terminals_of_meanings {f : Fluf} {ss : List Spelling} {ts : Tokens}
    (h : List.Forall₂ (fun s t => t.val.meaning = s.meaning f) ss ts) :
    terminals ts = ss.map (Spelling.terminal f) := by
  rw [terminals]
  induction h with
  | nil => rfl
  | cons hst _ ih => rw [List.map_cons, List.map_cons, terminal_of_meaning hst, ih]

/-- The tokens of a printed file are those that were spelt. -/
theorem terminals_printed {f : Fluf} (hf : f.Standard) (baseOffset : Nat) (lead : List Trivia)
    (ss : List Spelling) (sep : Nat → Separator) :
    terminals (Lexer.lexTokens f (Lexer.init baseOffset (printed lead ss sep))).tokens =
      ss.map (Spelling.terminal f) := by
  have hahead : (Lexer.init baseOffset (printed lead ss sep)).ahead =
      lead.flatMap Trivia.text ++ layOut (ss.map Spelling.text) sep := rfl
  obtain ⟨l', hlead, hskip⟩ := Lexer.skipWhitespace_trivias hahead
  have hspelt := Lexer.lexTokens_layOut hf ss sep hskip (hlead.rest hahead)
  exact terminals_of_meanings (hspelt.imp fun _ _ h => h.1)

/-! ## Trees -/

/-- Compiling undoes printing.  A tree can be printed exactly if its names are interned and its
literals have texts.  Whatever the spellings and the layout, the file is compiled exactly if
nodes can be built for the tree, with each {lit}`else` at the nearest {lit}`if`; and then these
are the nodes of the file. -/
theorem compile_printed (f : Fluf) (hf : f.Standard) (mem : Memory) (u : CompUnit)
    (hu : u.WellFormed) :
    ((∃ ss : List Spelling, ss.map (Spelling.terminal f) = u.toks) ↔
      ∀ t ∈ u.toks, Spellable f t) ∧
    ∀ ss : List Spelling, ss.map (Spelling.terminal f) = u.toks → ∀ baseOffset lead sep,
      (∀ globals σ, (∃ p, (compileRun f mem baseOffset (printed lead ss sep)).outcome =
          .done globals p ∧ p.ctx.hadError = false ∧ p.sema = σ) ↔
        ∃ a, u.rearranged.build f.intern mem.field = some (globals, a) ∧ a.sema.leave = σ) ∧
      ((∃ ctx, runCompile f mem baseOffset (some (printed lead ss sep)) = .done true ctx) ↔
        (u.rearranged.build f.intern mem.field).isSome = true) := by
  refine ⟨spells_iff u, fun ss hss baseOffset lead sep => ?_⟩
  have htext : u.toks = terminals
      (Lexer.lexTokens f (Lexer.init baseOffset (printed lead ss sep))).tokens := by
    rw [terminals_printed hf, hss]
  have hnodes : ∀ globals σ, (∃ p, (compileRun f mem baseOffset (printed lead ss sep)).outcome =
        .done globals p ∧ p.ctx.hadError = false ∧ p.sema = σ) ↔
      ∃ a, u.rearranged.build f.intern mem.field = some (globals, a) ∧ a.sema.leave = σ := by
    intro globals σ
    constructor
    · rintro ⟨p, hout, herror, rfl⟩
      obtain ⟨v, hv, hgreedy, htoks, a, ha, hsema⟩ := Parser.build_of_accepted hout herror
      have htree : u.rearranged = v :=
        (CompUnit.toks_iff_rearranged hv hgreedy hu).mp (htext.trans htoks.symm)
      exact ⟨a, by rw [htree, ha], hsema.symm⟩
    · rintro ⟨a, ha, rfl⟩
      exact Parser.parse_of_build hu.rearranged u.greedy_rearranged
        (u.toks_rearranged.trans htext) ha
  refine ⟨hnodes, ?_⟩
  rw [runCompile_iff, Option.isSome_iff_exists]
  constructor
  · rintro ⟨globals, p, hout, herror⟩
    obtain ⟨a, ha, _⟩ := (hnodes globals p.sema).mp ⟨p, hout, herror, rfl⟩
    exact ⟨_, ha⟩
  · rintro ⟨⟨globals, a⟩, ha⟩
    obtain ⟨p, hout, herror, _⟩ := (hnodes globals a.sema.leave).mpr ⟨a, ha, rfl⟩
    exact ⟨globals, p, hout, herror⟩

/-- The text {lit}`void f(){if(true)if(true)return;else return;}`, read in such a way that the
{lit}`else` belongs to the outer {lit}`if`. -/
def outerElse : CompUnit :=
  [.func ⟨false, .void, Fluf.ascii.intern [byte 'f'], [],
    [.stmt (.ifElse (.bool true) (.ifThen (.bool true) (.ret none)) (.ret none))]⟩]

/-- It is compiled, with each token on a line of its own. -/
theorem compile_printed_outerElse :
    ∃ ss : List Spelling, ss.map (Spelling.terminal Fluf.ascii) = outerElse.toks ∧
      ∃ ctx, runCompile Fluf.ascii zeroed 0
        (some (printed [] ss fun _ => ⟨byte '\n', [], by decide⟩)) = .done true ctx := by
  have hwf : outerElse.WellFormed := by
    simp [outerElse, CompUnit.WellFormed, Item.WellFormed, blockWellFormed,
      BlockItem.WellFormed, Stmt.WellFormed, Expr.Operand, Expr.WellFormed, Expr.level]
  have hname : Spellable Fluf.ascii (.ident (Fluf.ascii.intern [byte 'f'])) :=
    ⟨[byte 'f'], letter_mem_ident (by decide), rfl⟩
  have hspellable : ∀ t ∈ outerElse.toks, Spellable Fluf.ascii t := by
    simpa [outerElse, CompUnit.toks, Item.toks, Func.toks, constToks, Grammar.separated,
      blockToks, BlockItem.toks, Stmt.toks, condToks, Expr.toks, Spellable] using hname
  obtain ⟨hspells, hcompiles⟩ :=
    compile_printed Fluf.ascii Fluf.ascii_standard zeroed outerElse hwf
  obtain ⟨ss, hss⟩ := hspells.mpr hspellable
  exact ⟨ss, hss, (hcompiles ss hss 0 [] _).2.mpr (by decide +kernel)⟩

end Cact
