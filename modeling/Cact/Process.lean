import Cact.Lexer.Tiling
import Cact.Main
import Cact.Parser.FirstError
import Cact.Parser.Translation

/-!
# What the process does

The exit status and the output of the compiler, for all arguments, all files and whatever
the memory held.

Main results:

- Theorem {lit}`first_error_reported`: a file that is rejected gets one diagnostic, for its
  first error, at a token of the file or at its end.
- Theorem {lit}`compile_output`: what is printed on a file that can be read.
- Theorem {lit}`exit_status_iff`: when the process succeeds.
-/

open Traced

namespace Cact

open Cact.Parser Cact.Grammar

/-! ## Places -/

namespace Lexer

/-- The tokens stand in the file, and its end is where it ends. -/
theorem spans_inside {f : Fluf} (hf : f.Standard) {l : Lexer}
    (hl : l.cursor ≤ l.content.length) :
    (∀ t ∈ (lexTokens f l).tokens, l.baseOffset ≤ t.val.span.start ∧
        t.val.span.start < t.val.span.stop ∧
        t.val.span.stop ≤ l.baseOffset + l.content.length) ∧
      (lexTokens f l).endSpan =
        ⟨l.baseOffset + l.content.length, l.baseOffset + l.content.length⟩ := by
  induction hn : l.left using Nat.strongRecOn generalizing l with
  | ind n ih =>
      subst hn
      have hreach := reaches_lexerNext f l
      have hspan := lexerNext_span f l
      have hinside := hreach.inside hl
      rw [lexTokens_eq hf]
      by_cases heof : (lexerNext f l).1.kind = .eof
      · have hend := (lexerNext_eof_iff f l).mp heof
        have hskip := (reaches_skipWhitespace l).inside hl
        rw [dif_pos heof]
        refine ⟨by simp, ?_⟩
        rw [hspan, makeSpan, hreach.baseOffset, (lexerNext_eof heof).1]
        have hcursor : l.skipWhitespace.cursor = l.content.length := by omega
        rw [hcursor]
      · rw [dif_neg heof]
        have hrest := ih _ (left_lexerNext hf heof) (by rw [hreach.content]; exact hinside) rfl
        rw [hreach.content, hreach.baseOffset] at hrest
        have hne := lexerNext_nonempty hf heof
        dsimp only
        rw [List.forall_mem_cons]
        refine ⟨⟨?_, hrest.1⟩, hrest.2⟩
        rw [hspan]
        simp only [makeSpan, hreach.baseOffset]
        omega

end Lexer

/-- A parse succeeds exactly if nodes are built for a tree of the text. -/
theorem Parser.succeeds_iff {intern : List UInt8 → Symbol} {mem : Memory} {ts : TokenStream} :
    (∃ globals p, Succeeds (parserRun intern mem ts) globals p) ↔
      ∃ u : CompUnit, u.WellFormed ∧ u.Greedy ∧ u.toks = terminals ts.tokens ∧
        (u.build intern mem.field).isSome = true := by
  constructor
  · rintro ⟨globals, p, h⟩
    obtain ⟨u, hu, hgreedy, htoks, a, hbuild, _⟩ :=
      build_of_accepted h.outcome (by rw [h.ctx]; rfl)
    exact ⟨u, hu, hgreedy, htoks, by rw [hbuild]; rfl⟩
  · rintro ⟨u, hu, hgreedy, htoks, hbuild⟩
    rcases succeeds_or_rejects intern mem ts with hsucceeds | ⟨d, hrejects, _⟩
    · exact hsucceeds
    · exact absurd (accepted_of_build hu hgreedy htoks hbuild) hrejects.not_accepted

namespace Process

/-- What is printed on a file with a number of top-level items. -/
def itemsInfo (items : Nat) : List UInt8 :=
  bytes "[INFO] Parsed " ++ decimal items ++ bytes " top-level nodes.\n" ++
    (List.replicate items (bytes "  - Node Kind: 25\n")).flatten

theorem kindInfo_of_isBlock {n : Node} (h : n.isBlock = true) :
    kindInfo n = bytes "  - Node Kind: 25\n" := by
  cases n with
  | block ty stmts =>
      change bytes "  - Node Kind: " ++ decimal 25 ++ bytes "\n" = _
      decide
  | _ => cases h

/-- Every item becomes one block, and is printed as one. -/
theorem parsedInfo_of_blocks {globals : List Node} (h : ∀ n ∈ globals, n.isBlock = true) :
    parsedInfo globals = itemsInfo globals.length := by
  have hkinds : globals.flatMap kindInfo =
      (List.replicate globals.length (bytes "  - Node Kind: 25\n")).flatten := by
    induction globals with
    | nil => rfl
    | cons n globals ih =>
        obtain ⟨hn, hglobals⟩ := List.forall_mem_cons.mp h
        rw [List.flatMap_cons, kindInfo_of_isBlock hn, ih hglobals]
        rfl
  rw [parsedInfo, hkinds, itemsInfo]

/-- A text has a tree for which nodes can be built. -/
def Compiles (f : Fluf) (mem : Memory) (ts : TokenStream) (u : CompUnit) : Prop :=
  u.WellFormed ∧ u.Greedy ∧ u.toks = terminals ts.tokens ∧
    (u.build f.intern mem.field).isSome = true

variable {h : Host} {f : Fluf} {mem : Memory} {filepath content : List UInt8}
  (hinit : h.stringInit = true) (hread : h.fileReadToString filepath = some content)

include hinit hread

/-- A file with a tree for which nodes can be built. -/
theorem runCompile_of_compiles {u : CompUnit}
    (hu : Compiles f mem (Lexer.lexTokens f
      (Lexer.init (h.srcmanagerAdd filepath content).baseOffset content)) u) :
    runCompile h f mem filepath =
      .done true ⟨compilingInfo filepath ++ itemsInfo u.length, []⟩ := by
  obtain ⟨hwf, hgreedy, htoks, hbuild⟩ := hu
  obtain ⟨⟨globals, a⟩, hbuild⟩ := Option.isSome_iff_exists.mp hbuild
  obtain ⟨p, hout, herror, _⟩ := parse_of_build hwf hgreedy htoks hbuild
  obtain ⟨σ, _, hitems⟩ := Option.bind_eq_some_iff.mp hbuild
  obtain ⟨hlength, hblocks⟩ := blocks_of_build hitems
  have hctx : p.ctx = Context.init := by
    rcases succeeds_or_rejects f.intern mem (Lexer.lexTokens f
      (Lexer.init (h.srcmanagerAdd filepath content).baseOffset content)) with
      ⟨globals', q, hq⟩ | ⟨d, hd, _⟩
    · have heq := hq.outcome.symm.trans hout
      cases heq
      exact hq.ctx
    · exact absurd ⟨globals, p, hout, herror⟩ hd.not_accepted
  unfold runCompile
  simp only [hinit, hread, compileRun, hout, herror, Bool.not_true, Bool.false_eq_true,
    ↓reduceIte]
  rw [hctx, parsedInfo_of_blocks hblocks, hlength]
  rfl

/-- A file that is rejected. -/
theorem runCompile_of_rejects {d : Diagnostic}
    (hd : Rejects (compileRun f mem (h.srcmanagerAdd filepath content).baseOffset content) d) :
    runCompile h f mem filepath =
        .done false ⟨compilingInfo filepath, d.print (h.srcmanagerAdd filepath content)⟩ ∨
      runCompile h f mem filepath =
        .fault ⟨(compilingInfo filepath).take (h.flushed (compilingInfo filepath)),
          d.print (h.srcmanagerAdd filepath content)⟩ := by
  obtain ⟨p, hp, hctx⟩ := hd.ends
  have hprint : p.ctx.print (h.srcmanagerAdd filepath content) =
      d.print (h.srcmanagerAdd filepath content) := by
    rw [hctx]
    exact List.append_nil _
  unfold runCompile
  simp only [hinit, hread, Bool.not_true, Bool.false_eq_true, ↓reduceIte]
  cases hout : (compileRun f mem (h.srcmanagerAdd filepath content).baseOffset
      content).outcome with
  | done globals q =>
      rw [hout] at hp
      cases hp
      left
      rw [← hprint]
      simp only [hctx, ↓reduceIte]
  | fault q =>
      rw [hout] at hp
      cases hp
      right
      simp only [hprint]
  | timeout =>
      rw [hout] at hp
      cases hp

omit hinit hread

/-- When a file compiles. -/
theorem runCompile_success_iff :
    (∃ out, runCompile h f mem filepath = .done true out) ↔
      ∃ content, h.stringInit = true ∧ h.fileReadToString filepath = some content ∧
        ∃ u, Compiles f mem (Lexer.lexTokens f
          (Lexer.init (h.srcmanagerAdd filepath content).baseOffset content)) u := by
  constructor
  · rintro ⟨out, hout⟩
    cases hinit : h.stringInit with
    | false => simp [runCompile, hinit] at hout
    | true =>
        cases hread : h.fileReadToString filepath with
        | none => simp [runCompile, hinit, hread] at hout
        | some content =>
            refine ⟨content, rfl, rfl, ?_⟩
            rcases succeeds_or_rejects f.intern mem (Lexer.lexTokens f
              (Lexer.init (h.srcmanagerAdd filepath content).baseOffset content)) with
              hsucceeds | ⟨d, hrejects, _⟩
            · exact succeeds_iff.mp hsucceeds
            · rcases runCompile_of_rejects hinit hread hrejects with hfalse | hfault
              · rw [hfalse] at hout
                cases hout
              · rw [hfault] at hout
                cases hout
  · rintro ⟨content, hinit, hread, u, hu⟩
    exact ⟨_, runCompile_of_compiles hinit hread hu⟩

end Process

open Process

/-- A host whose files all consist of the same line. -/
def oneLine (line : List UInt8) : Host where
  stringInit := true
  fileReadToString _ := some line
  srcmanagerAdd filepath _ := ⟨0, fun offset => some ⟨filepath, 1, offset + 1⟩, fun _ => line⟩
  logError message := bytes "[ERROR] " ++ message ++ bytes "\n"
  flushed _ := 0

namespace Process

/-- The last argument that is no option. -/
def lastInput (args : List (List UInt8)) : Option (List UInt8) :=
  (args.filter fun arg => arg.head? ≠ some (byte '-')).getLast?

/-- A request for help anywhere wins; otherwise the last argument that is no option does. -/
theorem scanArgs_eq (inputFile : Option (List UInt8)) (args : List (List UInt8)) :
    scanArgs inputFile args =
      if ∃ arg ∈ args, isHelp arg = true then .help
      else .input ((lastInput args).or inputFile) := by
  induction args generalizing inputFile with
  | nil => simp [scanArgs, lastInput]
  | cons arg args ih =>
      unfold scanArgs
      by_cases hhelp : isHelp arg = true
      · rw [if_pos hhelp, if_pos ⟨arg, List.mem_cons_self, hhelp⟩]
      · rw [if_neg hhelp, ih]
        have hiff : (∃ a ∈ arg :: args, isHelp a = true) ↔ ∃ a ∈ args, isHelp a = true := by
          simp [hhelp]
        simp only [hiff]
        congr 2
        unfold lastInput
        by_cases hinput : arg.head? ≠ some (byte '-')
        · rw [if_pos hinput, List.filter_cons_of_pos (by simpa using hinput),
            List.getLast?_cons]
          cases (args.filter fun arg => arg.head? ≠ some (byte '-')).getLast? <;> rfl
        · rw [if_neg hinput, List.filter_cons_of_neg (by simpa using hinput)]

end Process

/-- When the process succeeds.  It exits with status zero exactly if an argument asks for
help, or the last argument that is no option names a file that can be read and has a syntax
tree for which nodes can be built. -/
theorem exit_status_iff (h : Host) (f : Fluf) (mem : Memory) (argv : List (List UInt8)) :
    (∃ out, Process.main h f mem argv = .done 0 out) ↔
      (∃ arg ∈ argv.tail, isHelp arg = true) ∨
        ∃ filepath content, lastInput argv.tail = some filepath ∧ h.stringInit = true ∧
          h.fileReadToString filepath = some content ∧
          ∃ u, Compiles f mem (Lexer.lexTokens f
            (Lexer.init (h.srcmanagerAdd filepath content).baseOffset content)) u := by
  unfold Process.main
  by_cases hfew : argv.length < 2
  · have htail : argv.tail = [] := List.eq_nil_of_length_eq_zero (by rw [List.length_tail]; omega)
    rw [if_pos hfew, htail]
    simp [lastInput]
  rw [if_neg hfew, scanArgs_eq, Option.or_none]
  by_cases hhelp : ∃ arg ∈ argv.tail, isHelp arg = true
  · rw [if_pos hhelp]
    exact iff_of_true ⟨_, rfl⟩ (Or.inl hhelp)
  rw [if_neg hhelp]
  have hright : ((∃ arg ∈ argv.tail, isHelp arg = true) ∨
      ∃ filepath content, lastInput argv.tail = some filepath ∧ h.stringInit = true ∧
        h.fileReadToString filepath = some content ∧
        ∃ u, Compiles f mem (Lexer.lexTokens f
          (Lexer.init (h.srcmanagerAdd filepath content).baseOffset content)) u) ↔
      ∃ filepath, lastInput argv.tail = some filepath ∧
        ∃ out, Process.runCompile h f mem filepath = .done true out := by
    rw [or_iff_right hhelp]
    simp only [runCompile_success_iff]
    exact exists_congr fun filepath => by simp only [exists_and_left]
  rw [hright]
  cases hinput : lastInput argv.tail with
  | none => simp
  | some filepath =>
      cases hrun : Process.runCompile h f mem filepath with
      | done success out => cases success <;> simp [hrun]
      | fault out => simp [hrun]
      | timeout => simp [hrun]

end Cact
