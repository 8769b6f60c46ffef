import Cact.Lexer.Reformat
import Cact.Parser.Language

/-!
# Comments without an end

A block comment has to be closed.  The loop that skips one leaves it at a zero byte, which
is no character of any token and is reported, and it leaves it in the same way at the end
of the file, where nothing is left to be reported.

Main results:

- Definition {lit}`Unterminated`: a comment of the source has no end.
- Definition {lit}`RunsIntoComment`: tokens and layout up to a comment that has none.
- Definition {lit}`CommentsClosed`: a comment without an end is reported.
- Theorem {lit}`comments_closed_iff`: exactly for which files.
-/

open Language
open scoped Computability

namespace Cact

/-! ## Comments of a source -/

/-- What stands behind the first terminator of a block comment. -/
def behindComment : List UInt8 → Option (List UInt8)
  | c :: d :: r => if c = byte '*' ∧ d = byte '/' then some r else behindComment (d :: r)
  | _ => none

/-- A block comment of a source, outside of all other comments, is not followed by a
terminator. -/
inductive Unterminated : List UInt8 → Prop where
  | here (r : List UInt8) (hnone : behindComment r = none) :
      Unterminated (byte '/' :: byte '*' :: r)
  | block (r rest : List UInt8) (hsome : behindComment r = some rest)
      (hrest : Unterminated rest) : Unterminated (byte '/' :: byte '*' :: r)
  | line (r : List UInt8) (hrest : Unterminated (r.dropWhile (· ≠ byte '\n'))) :
      Unterminated (byte '/' :: byte '/' :: r)
  | other (c : UInt8) (r : List UInt8)
      (hc : c = byte '/' → r.headD 0 ≠ byte '/' ∧ r.headD 0 ≠ byte '*')
      (hrest : Unterminated r) : Unterminated (c :: r)

/-- At the end of the file no comment is open. -/
theorem unterminated_nil : ¬ Unterminated [] := by
  intro h
  cases h

/-- A byte that begins no comment is passed over. -/
theorem unterminated_other {c : UInt8} {r : List UInt8}
    (hc : c = byte '/' → r.headD 0 ≠ byte '/' ∧ r.headD 0 ≠ byte '*') :
    Unterminated (c :: r) ↔ Unterminated r := by
  refine ⟨fun h => ?_, .other c r hc⟩
  generalize hs : c :: r = s at h
  cases h with
  | here r' hnone =>
      obtain ⟨rfl, rfl⟩ := List.cons.inj hs
      exact absurd rfl (hc rfl).2
  | block r' rest hsome hrest =>
      obtain ⟨rfl, rfl⟩ := List.cons.inj hs
      exact absurd rfl (hc rfl).2
  | line r' hrest =>
      obtain ⟨rfl, rfl⟩ := List.cons.inj hs
      exact absurd rfl (hc rfl).1
  | other c' r' _ hrest =>
      obtain ⟨rfl, rfl⟩ := List.cons.inj hs
      exact hrest

/-- A line comment is passed over up to its newline. -/
theorem unterminated_line {r : List UInt8} :
    Unterminated (byte '/' :: byte '/' :: r) ↔ Unterminated (r.dropWhile (· ≠ byte '\n')) := by
  refine ⟨fun h => ?_, .line r⟩
  generalize hs : byte '/' :: byte '/' :: r = s at h
  cases h with
  | here r' hnone => exact absurd (List.cons.inj (List.cons.inj hs).2).1 (by decide)
  | block r' rest hsome hrest => exact absurd (List.cons.inj (List.cons.inj hs).2).1 (by decide)
  | line r' hrest =>
      cases hs
      exact hrest
  | other c r' hc _ =>
      cases hs
      exact absurd rfl (hc rfl).1

/-- A block comment is passed over if it is closed, and is the open one if it is not. -/
theorem unterminated_block {r : List UInt8} :
    Unterminated (byte '/' :: byte '*' :: r) ↔
      ∀ rest, behindComment r = some rest → Unterminated rest := by
  constructor
  · intro h rest hsome
    generalize hs : byte '/' :: byte '*' :: r = s at h
    cases h with
    | here r' hnone =>
        cases hs
        cases hsome.symm.trans hnone
    | block r' rest' hsome' hrest =>
        cases hs
        cases hsome.symm.trans hsome'
        exact hrest
    | line r' hrest => exact absurd (List.cons.inj (List.cons.inj hs).2).1 (by decide)
    | other c r' hc _ =>
        cases hs
        exact absurd rfl (hc rfl).2
  · intro h
    cases hsome : behindComment r with
    | none => exact .here r hsome
    | some rest => exact .block r rest hsome (h rest hsome)

/-! ## Text without slashes, blanks and closed comments -/

/-- Text without a slash begins no comment. -/
theorem unterminated_text {s r : List UInt8} (hs : ∀ c ∈ s, c ≠ byte '/') :
    Unterminated (s ++ r) ↔ Unterminated r := by
  induction s with
  | nil => rfl
  | cons c s ih =>
      have hc : c ≠ byte '/' := hs c List.mem_cons_self
      rw [List.cons_append, unterminated_other fun h => absurd h hc]
      exact ih fun d hd => hs d (List.mem_cons_of_mem _ hd)

/-- Within a comment every byte that begins no {lit}`*/` is passed over. -/
theorem behindComment_cons {c : UInt8} {r : List UInt8}
    (h : ¬ (c = byte '*' ∧ r.headD 0 = byte '/')) : behindComment (c :: r) = behindComment r := by
  cases r with
  | nil => rfl
  | cons d r => exact if_neg h

/-- In a text without a terminator, no star stands in front of a slash. -/
theorem not_terminator {c : UInt8} {body r : List UInt8}
    (hopen : ¬ [byte '*', byte '/'] <:+: c :: body) (hr : r.headD 0 ≠ byte '/') :
    ¬ (c = byte '*' ∧ (body ++ r).headD 0 = byte '/') := by
  rintro ⟨rfl, hd⟩
  cases body with
  | nil => exact hr hd
  | cons d body =>
      obtain rfl : d = byte '/' := hd
      exact hopen ⟨[], body, rfl⟩

/-- What does not occur in a text does not occur behind its first byte. -/
theorem not_infix_tail {c : UInt8} {body : List UInt8}
    (hopen : ¬ [byte '*', byte '/'] <:+: c :: body) : ¬ [byte '*', byte '/'] <:+: body :=
  fun h => hopen (h.trans (List.suffix_cons c body).isInfix)

/-- The first terminator is the one that closes the comment. -/
theorem behindComment_append {body : List UInt8} (hopen : ¬ [byte '*', byte '/'] <:+: body)
    (r : List UInt8) : behindComment (body ++ byte '*' :: byte '/' :: r) = some r := by
  induction body with
  | nil => rw [List.nil_append, behindComment, if_pos ⟨rfl, rfl⟩]
  | cons c body ih =>
      have hstar : byte '*' ≠ byte '/' := by decide
      rw [List.cons_append,
        behindComment_cons (not_terminator (r := byte '*' :: byte '/' :: r) hopen hstar)]
      exact ih (not_infix_tail hopen)

/-- Text without {lit}`*/` closes no comment. -/
theorem behindComment_none {body : List UInt8} (hopen : ¬ [byte '*', byte '/'] <:+: body) :
    behindComment body = none := by
  induction body with
  | nil => rfl
  | cons c body ih =>
      have hnot := not_terminator (r := []) hopen (by decide)
      rw [List.append_nil] at hnot
      rw [behindComment_cons hnot]
      exact ih (not_infix_tail hopen)

/-- A piece of layout is passed over: its comments are closed. -/
theorem unterminated_trivia (t : Trivia) (r : List UInt8) :
    Unterminated (t.text ++ r) ↔ Unterminated r := by
  cases t with
  | blank c hc =>
      refine unterminated_other fun h => ?_
      rw [h] at hc
      exact absurd hc (by decide)
  | line body hzero hline =>
      have hbody : ∀ c ∈ body, decide (c ≠ byte '\n') = true := by
        intro c hc
        simpa using fun h : c = byte '\n' => hline (h ▸ hc)
      have htext : (Trivia.line body hzero hline).text ++ r =
          byte '/' :: byte '/' :: (body ++ byte '\n' :: r) := by simp [Trivia.text]
      rw [htext, unterminated_line, List.dropWhile_append_of_pos hbody,
        List.dropWhile_cons_of_neg (by simp)]
      exact unterminated_other fun h => absurd h (by decide)
  | block body hzero hopen =>
      have htext : (Trivia.block body hzero hopen).text ++ r =
          byte '/' :: byte '*' :: (body ++ byte '*' :: byte '/' :: r) := by simp [Trivia.text]
      rw [htext, unterminated_block, behindComment_append hopen]
      simp

/-- So are many of them. -/
theorem unterminated_trivias (ts : List Trivia) (r : List UInt8) :
    Unterminated (ts.flatMap Trivia.text ++ r) ↔ Unterminated r := by
  induction ts with
  | nil => rfl
  | cons t ts ih =>
      rw [List.flatMap_cons, List.append_assoc, unterminated_trivia]
      exact ih

/-- A source consists of well-formed tokens, none of which goes on with the byte behind it, of
blanks and of closed comments, up to a block comment that has no terminator and no zero byte
up to the end of the file. -/
inductive RunsIntoComment : List UInt8 → Prop where
  | comment (body : List UInt8) (hzero : 0 ∉ body) (hopen : ¬ [byte '*', byte '/'] <:+: body) :
      RunsIntoComment (byte '/' :: byte '*' :: body)
  | trivia (t : Trivia) (r : List UInt8) (hrest : RunsIntoComment r) :
      RunsIntoComment (t.text ++ r)
  | token (s : Spelling) (r : List UInt8) (hends : ¬ s.kind.GoesOn s.text (r.headD 0))
      (hrest : RunsIntoComment r) : RunsIntoComment (s.text ++ r)

/-- What runs into a comment does so behind layout too. -/
theorem RunsIntoComment.trivias (ts : List Trivia) {r : List UInt8} (h : RunsIntoComment r) :
    RunsIntoComment (ts.flatMap Trivia.text ++ r) := by
  induction ts with
  | nil => exact h
  | cons t ts ih =>
      rw [List.flatMap_cons, List.append_assoc]
      exact .trivia t _ ih

/-- Behind some blanks and closed comments, a comment begins that has no terminator and no
zero byte up to the end of the file. -/
def OpensComment (r : List UInt8) : Prop :=
  ∃ (ts : List Trivia) (body : List UInt8), 0 ∉ body ∧ ¬ [byte '*', byte '/'] <:+: body ∧
    r = ts.flatMap Trivia.text ++ byte '/' :: byte '*' :: body

/-- Behind layout alone the comment is reached without a token in between. -/
theorem OpensComment.runsIntoComment {r : List UInt8} (h : OpensComment r) :
    RunsIntoComment r := by
  obtain ⟨ts, body, hzero, hopen, rfl⟩ := h
  exact (RunsIntoComment.comment body hzero hopen).trivias ts

/-! ## Calls of the lexer -/

/-- Blanks, line comments and closed block comments. -/
def IsLayout (s : List UInt8) : Prop :=
  ∃ ts : List Trivia, s = ts.flatMap Trivia.text ∨
    ∃ body, byte '\n' ∉ body ∧ s = ts.flatMap Trivia.text ++ byte '/' :: byte '/' :: body

/-- The scanners read a zero behind the end of the file as well. -/
theorem headD_zero {r : List UInt8} (h : r.headD 0 = 0) : r = [] ∨ ∃ r', r = 0 :: r' := by
  cases r with
  | nil => exact Or.inl rfl
  | cons c r =>
      obtain rfl : c = 0 := h
      exact Or.inr ⟨r, rfl⟩

namespace Lexer

/-- Where skipping ends: in a comment without an end, at a zero byte, or in front of a token
or the end of the file with the comments as they were. -/
theorem skipWhitespace_cases (l : Lexer) :
    (OpensComment l.ahead ∧ l.skipWhitespace.ahead = []) ∨
      (∃ r, l.skipWhitespace.ahead = 0 :: r) ∨
      ((Unterminated l.ahead ↔ Unterminated l.skipWhitespace.ahead) ∧
        (l.skipWhitespace.peek = byte '/' →
          l.skipWhitespace.peekNext ≠ byte '/' ∧ l.skipWhitespace.peekNext ≠ byte '*') ∧
        ∃ s, IsLayout s ∧ Reads l s l.skipWhitespace) := by
  obtain ⟨ts, s, hend, hread⟩ := skipWhitespace_layout l
  have hahead := hread.ahead
  cases hend with
  | token hblank hslash =>
      rw [List.append_nil] at hahead hread
      rw [← peek_eq, ← peekNext_eq] at hslash
      refine Or.inr (Or.inr ⟨?_, hslash, _, ⟨ts, Or.inl rfl⟩, hread⟩)
      rw [hahead]
      exact unterminated_trivias ts _
  | line body hnozero hline hend =>
      rcases headD_zero hend with hnil | hcons
      · refine Or.inr (Or.inr ⟨?_, ?_, _, ⟨ts, Or.inr ⟨body, hline, rfl⟩⟩, hread⟩)
        · have hdrop : body.dropWhile (· ≠ byte '\n') = [] :=
            List.dropWhile_eq_nil_iff.mpr fun c hc => by
              simpa using fun h : c = byte '\n' => hline (h ▸ hc)
          rw [hahead, hnil, List.append_nil, unterminated_trivias, unterminated_line, hdrop]
        · rw [peek_eq, hnil]
          exact fun h => absurd h (by decide)
      · exact Or.inr (Or.inl hcons)
  | block body hnozero hopen hend =>
      rcases headD_zero hend with hnil | hcons
      · rw [hnil, List.append_nil] at hahead
        exact Or.inl ⟨⟨ts, body, hnozero, hopen, hahead⟩, hnil⟩
      · exact Or.inr (Or.inl hcons)

/-- In front of a comment without an end, everything is skipped. -/
theorem skipWhitespace_opensComment {l : Lexer} (h : OpensComment l.ahead) :
    l.skipWhitespace.ahead = [] := by
  obtain ⟨ts, body, hzero, hopen, hahead⟩ := h
  obtain ⟨l₁, hread, hskip⟩ := skipWhitespace_trivias hahead
  have hrest := hread.rest hahead
  rw [hskip]
  obtain ⟨us, s, hend, hread₁⟩ := skipWhitespace_layout l₁
  have heq := hread₁.ahead
  rw [hrest] at heq
  have hsep : byte '*' ≠ byte '/' := by decide
  cases us with
  | cons t us =>
      -- No blank and no closed comment begins like this.
      rw [List.flatMap_cons, List.append_assoc, List.append_assoc] at heq
      cases t with
      | blank c hc =>
          obtain rfl := (List.cons.inj heq).1
          exact absurd hc (by decide)
      | line body' hzero' hline =>
          exact absurd (List.cons.inj (List.cons.inj heq).2).1 hsep
      | block body' hzero' hopen' =>
          refine absurd ?_ hopen
          rw [(List.cons.inj (List.cons.inj heq).2).2]
          exact ⟨body', us.flatMap Trivia.text ++ (s ++ l₁.skipWhitespace.ahead), by simp⟩
  | nil =>
      cases hend with
      | token hblank hslash =>
          rw [List.flatMap_nil, List.nil_append, List.nil_append] at heq
          rw [← heq] at hslash
          exact absurd rfl (hslash rfl).2
      | line body' hzero' hline hend =>
          exact absurd (List.cons.inj (List.cons.inj heq).2).1 hsep
      | block body' hzero' hopen' hend =>
          have hbody := (List.cons.inj (List.cons.inj heq).2).2
          cases hnil : l₁.skipWhitespace.ahead with
          | nil => rfl
          | cons c r =>
              rw [hnil] at hend hbody
              obtain rfl : c = 0 := hend
              refine absurd ?_ hzero
              rw [hbody]
              exact List.mem_append_right _ List.mem_cons_self

/-- A zero byte is no token. -/
theorem lexerNext_zero {f : Fluf} (hf : f.Standard) {l : Lexer} {r : List UInt8}
    (h : l.skipWhitespace.ahead = 0 :: r) : (lexerNext f l).1.kind = .error := by
  have hpeek : l.skipWhitespace.peek = 0 := by rw [peek_eq, h, List.headD_cons]
  have hlt : l.skipWhitespace.cursor < l.skipWhitespace.content.length := by
    by_contra hge
    rw [ahead, List.drop_eq_nil_of_le (Nat.le_of_not_lt hge)] at h
    cases h
  have hletter : ¬ IsLetter 0 := by decide
  have hdigit : ¬ IsDigit 0 := by decide
  have hpoint : (0 : UInt8) ≠ byte '.' := by decide
  unfold lexerNext
  dsimp only
  simp only [Nat.not_le.mpr hlt, ↓reduceIte, hpeek, hf.startsIdentifier_eq, hf.charIsDigit_eq,
    decide_eq_true_eq, beq_iff_eq, hletter, hdigit, hpoint]
  rfl

/-- Words and numbers have no slashes. -/
theorem over_word_number : Over (· ≠ byte '/') (word + number) := by
  have hclass {P : UInt8 → Prop} (hP : ¬ P (byte '/')) : Over (· ≠ byte '/') (letter P) :=
    (over_letter P).mono fun c hc heq => hP (heq ▸ hc)
  have hrun {P : UInt8 → Prop} (hP : ¬ P (byte '/')) : Over (· ≠ byte '/') (letter P)∗ :=
    (over_kstar P).mono fun c hc heq => hP (heq ▸ hc)
  have hdigit : ¬ IsDigit (byte '/') := by decide
  have hhex : ¬ IsHexDigit (byte '/') := by decide
  have hdigits : Over (· ≠ byte '/') digits := (hclass hdigit).mul (hrun hdigit)
  have hfraction : Over (· ≠ byte '/') fraction := (hclass (by decide)).mul (hrun hdigit)
  have hexponent : Over (· ≠ byte '/') exponent :=
    (hclass (by unfold IsExponentMark; decide)).mul
      ((hclass (by unfold IsSign; decide)).optional.mul hdigits)
  have hreal : Over (· ≠ byte '/') real :=
    (((hdigits.mul hfraction).add ((hrun hdigit).mul ((hclass (by decide)).mul hdigits))).mul
      hexponent.optional).add (hdigits.mul hexponent)
  have hinteger : Over (· ≠ byte '/') integer :=
    hdigits.add ((hclass (by decide)).mul
      ((hclass (by unfold IsHexMark; decide)).mul ((hclass hhex).mul (hrun hhex))))
  exact ((hclass (by decide)).mul (hrun (by decide))).add
    (hinteger.add (hreal.add (hreal.mul (hclass (by unfold IsFloatMark; decide)))))

/-- The text of a token that does not go on neither begins nor ends a comment: no token but
the slash has a slash in it. -/
theorem unterminated_spelling {s : Spelling} {r : List UInt8}
    (h : ¬ s.kind.GoesOn s.text (r.headD 0)) : Unterminated (s.text ++ r) ↔ Unterminated r := by
  have hmark : ∀ e ∈ punctuators, e.2 = [byte '/'] ∨ ∀ c ∈ e.2, c ≠ byte '/' := by decide +kernel
  rcases language_cases s.mem with hword | hnumber | hmem
  · exact unterminated_text (over_word_number s.text (Or.inl hword))
  · exact unterminated_text (over_word_number s.text (Or.inr hnumber))
  · rcases hmark _ hmem with htext | hnone
    · have htext : s.text = [byte '/'] := htext
      rw [htext] at hmem h ⊢
      exact unterminated_other fun _ => goesOn_slash hmem h
    · exact unterminated_text hnone

/-- The comment that a source runs into has no end. -/
theorem unterminated_of_runs {r : List UInt8} (h : RunsIntoComment r) : Unterminated r := by
  induction h with
  | comment body hzero hopen => exact .here body (behindComment_none hopen)
  | trivia t r _ ih => exact (unterminated_trivia t r).mpr ih
  | token s r hends _ ih => exact (unterminated_spelling hends).mpr ih

/-- What lies ahead of the lexer when it returns end-of-file. -/
theorem ahead_of_eof {f : Fluf} {l : Lexer} :
    (lexerNext f l).1.kind = .eof ↔ l.skipWhitespace.ahead = [] := by
  rw [lexerNext_eof_iff, ahead, List.drop_eq_nil_iff, (reaches_skipWhitespace l).content]

/-- A call that returns a token has come past blanks and closed comments, and the token does
not go on. -/
theorem lexerNext_layout {f : Fluf} (hf : f.Standard) {l : Lexer}
    (herror : (lexerNext f l).1.kind ≠ .error) (heof : (lexerNext f l).1.kind ≠ .eof) :
    ∃ (ts : List Trivia) (s : Spelling),
      l.ahead = ts.flatMap Trivia.text ++ (s.text ++ (lexerNext f l).2.ahead) ∧
      ¬ s.kind.GoesOn s.text ((lexerNext f l).2.ahead.headD 0) := by
  obtain ⟨ts, skipped, hend, hskip⟩ := skipWhitespace_layout l
  have hstop (hzero : l.skipWhitespace.ahead.headD 0 = 0) : False := by
    rcases headD_zero hzero with hnil | ⟨r, hr⟩
    · exact heof (ahead_of_eof.mpr hnil)
    · exact herror (lexerNext_zero hf hr)
  obtain ⟨s, hread, hmeaning⟩ := exists_spelling hf herror heof
  cases hend with
  | token hblank hslash =>
      rw [← peek_eq, ← peekNext_eq] at hslash
      refine ⟨ts, s, ?_, ?_⟩
      · rw [hskip.ahead, List.append_nil, hread.ahead]
      · rw [← peek_eq]
        exact lexerNext_stops hf s hread (congrArg Prod.fst hmeaning) hslash
  | line body _ _ hzero => exact (hstop hzero).elim
  | block body _ _ hzero => exact (hstop hzero).elim

/-- A call that reports nothing comes past a comment without an end only if it skips it. -/
theorem unterminated_lexerNext {f : Fluf} (hf : f.Standard) {l : Lexer}
    (herror : (lexerNext f l).1.kind ≠ .error) (h : Unterminated l.ahead) :
    OpensComment l.ahead ∨
      (lexerNext f l).1.kind ≠ .eof ∧ Unterminated (lexerNext f l).2.ahead := by
  by_cases heof : (lexerNext f l).1.kind = .eof
  · have hnil := ahead_of_eof.mp heof
    rcases skipWhitespace_cases l with ⟨hopen, _⟩ | ⟨r, hr⟩ | ⟨hiff, _⟩
    · exact Or.inl hopen
    · rw [hnil] at hr
      cases hr
    · rw [hiff, hnil] at h
      exact absurd h unterminated_nil
  · obtain ⟨ts, s, hahead, hends⟩ := lexerNext_layout hf herror heof
    rw [hahead, unterminated_trivias, unterminated_spelling hends] at h
    exact Or.inr ⟨heof, h⟩

/-! ## Sequences of calls -/

/-- If nothing is reported, some call meets the comment. -/
theorem exists_opensComment {f : Fluf} (hf : f.Standard) {l : Lexer}
    (hclean : ∀ n, (token f n l).kind ≠ .error) (h : Unterminated l.ahead) :
    ∃ n, OpensComment (afterCalls f n l).ahead := by
  -- Induction on the bytes that are left: every token takes at least one.
  induction hn : l.left using Nat.strongRecOn generalizing l with
  | ind n ih =>
      subst hn
      rcases unterminated_lexerNext hf (hclean 0) h with hopen | ⟨heof, hrest⟩
      · exact ⟨0, hopen⟩
      · obtain ⟨n, hn⟩ := ih _ (left_lexerNext hf heof) (fun n => hclean (n + 1)) hrest rfl
        exact ⟨n + 1, hn⟩

/-- If nothing is reported before a call meets a comment without an end, the source runs into
the comment. -/
theorem runsIntoComment_of_calls {f : Fluf} (hf : f.Standard) {l : Lexer} {n : Nat}
    (hclean : ∀ m < n, (token f m l).kind ≠ .error)
    (h : OpensComment (afterCalls f n l).ahead) : RunsIntoComment l.ahead := by
  induction n generalizing l with
  | zero => exact h.runsIntoComment
  | succ n ih =>
      have herror : (lexerNext f l).1.kind ≠ .error := hclean 0 (Nat.zero_lt_succ n)
      have hrest : RunsIntoComment (lexerNext f l).2.ahead :=
        ih (fun m hm => hclean (m + 1) (Nat.succ_lt_succ hm)) h
      by_cases heof : (lexerNext f l).1.kind = .eof
      · rw [(lexerNext_eof heof).1, ahead_of_eof.mp heof] at hrest
        exact absurd (unterminated_of_runs hrest) unterminated_nil
      · obtain ⟨ts, s, hahead, hends⟩ := lexerNext_layout hf herror heof
        rw [hahead]
        exact (RunsIntoComment.token s _ hends hrest).trivias ts

/-- Where a source runs into a comment without an end, nothing is reported.  Induction on the
way to the comment, following the calls. -/
theorem token_of_runs {f : Fluf} (hf : f.Standard) {r : List UInt8} (h : RunsIntoComment r)
    {l l' : Lexer} (hskip : l.skipWhitespace = l'.skipWhitespace) (hahead : l'.ahead = r)
    (n : Nat) : (token f n l).kind ≠ .error := by
  induction h generalizing l l' n with
  | comment body hzero hopen =>
      have hnil : l.skipWhitespace.ahead = [] := by
        rw [hskip]
        exact skipWhitespace_opensComment ⟨[], body, hzero, hopen, hahead⟩
      have heof : (token f n l).kind = .eof :=
        token_eof_of_le (n := 0) (ahead_of_eof.mpr hnil) (Nat.zero_le n)
      rw [heof]
      decide
  | trivia t r _ ih =>
      obtain ⟨m, hread, hskip'⟩ := skipWhitespace_trivia hahead
      exact ih (hskip.trans hskip') (hread.rest hahead) n
  | token s r hends _ ih =>
      obtain ⟨hread, hmeaning⟩ := lexerNext_spelling hf s hahead hends
      rw [← lexerNext_congr f hskip] at hread hmeaning
      cases n with
      | zero =>
          have hkind : (token f 0 l).kind = s.kind := congrArg Prod.fst hmeaning
          rw [hkind]
          exact s.kind_ne.2
      | succ n => exact ih rfl (hread.rest hahead) n

/-- An error token of some call is one of the tokens of the file. -/
theorem hasError_of_token {f : Fluf} (hf : f.Standard) {l : Lexer} {n : Nat}
    (h : (token f n l).kind = .error) : Parser.HasError (lexTokens f l).tokens := by
  induction n generalizing l with
  | zero =>
      have hkind : (lexerNext f l).1.kind = .error := h
      have hne : (lexerNext f l).1.kind ≠ .eof := by
        rw [hkind]
        decide
      rw [lexTokens_eq hf, dif_neg hne]
      exact ⟨_, List.mem_cons_self, hkind⟩
  | succ n ih =>
      by_cases heof : (lexerNext f l).1.kind = .eof
      · rw [token_eof_of_le (n := 0) heof (Nat.zero_le _)] at h
        cases h
      · rw [lexTokens_eq hf, dif_neg heof]
        obtain ⟨t, ht, hkind⟩ := ih h
        exact ⟨t, List.mem_cons_of_mem _ ht, hkind⟩

/-- A file with an error token is not accepted. -/
theorem not_accepts_of_token {f : Fluf} (hf : f.Standard) {l : Lexer} {n : Nat}
    (h : (token f n l).kind = .error) (mem : Memory) :
    ¬ Parser.Accepts f.intern mem (lexTokens f l) := by
  rintro ⟨globals, p, hout, hquiet⟩
  rw [Parser.hadError_of_errorToken hout (hasError_of_token hf h)] at hquiet
  cases hquiet

/-- In an accepted file that runs into no comment, every call first skips layout. -/
theorem layout_of_accepts {f : Fluf} (hf : f.Standard) {l : Lexer} {mem : Memory}
    (haccepts : Parser.Accepts f.intern mem (lexTokens f l)) (hruns : ¬ RunsIntoComment l.ahead)
    (n : Nat) :
    ∃ s, IsLayout s ∧ Reads (afterCalls f n l) s (afterCalls f n l).skipWhitespace := by
  have hclean (m : Nat) : (token f m l).kind ≠ .error :=
    fun herror => not_accepts_of_token hf herror mem haccepts
  rcases skipWhitespace_cases (afterCalls f n l) with
    ⟨hopen, _⟩ | ⟨r, hr⟩ | ⟨_, _, hlayout⟩
  · exact absurd (runsIntoComment_of_calls hf (fun m _ => hclean m) hopen) hruns
  · exact absurd (lexerNext_zero hf hr) (hclean n)
  · exact hlayout

end Lexer

open Lexer

/-- What a file with a comment that has no end is meant to lead to: an error token is
returned, the file is rejected; and in a file that is accepted only blanks, line comments and
closed block comments stand in front of a token, end-of-file included. -/
structure CommentsClosed (f : Fluf) (baseOffset : Nat) (content : List UInt8) : Prop where
  reported : Unterminated content → ∃ n, (token f n (init baseOffset content)).kind = .error
  rejected : Unterminated content →
    ∀ mem, ¬ Parser.Accepts f.intern mem (lexTokens f (init baseOffset content))
  layout : ∀ mem, Parser.Accepts f.intern mem (lexTokens f (init baseOffset content)) →
    ∀ n, IsLayout (between content (afterCalls f n (init baseOffset content)).cursor
      ((token f n (init baseOffset content)).span.start - baseOffset))

/-- A comment without an end is reported exactly in the files that do not run into one: it
is not if there are only well-formed tokens and layout in front of it. -/
theorem comments_closed_iff (f : Fluf) (hf : f.Standard) (baseOffset : Nat)
    (content : List UInt8) :
    CommentsClosed f baseOffset content ↔ ¬ RunsIntoComment content := by
  have hstart : (init baseOffset content).ahead = content := rfl
  constructor
  · intro h hruns
    obtain ⟨n, herror⟩ := h.reported (unterminated_of_runs hruns)
    exact token_of_runs hf hruns rfl hstart n herror
  · intro hnot
    have hreported (hsource : Unterminated content) :
        ∃ n, (token f n (init baseOffset content)).kind = .error := by
      by_contra hnone
      have hclean : ∀ n, (token f n (init baseOffset content)).kind ≠ .error :=
        fun n herror => hnone ⟨n, herror⟩
      obtain ⟨n, hopen⟩ := exists_opensComment hf hclean hsource
      exact hnot (runsIntoComment_of_calls hf (fun m _ => hclean m) hopen)
    refine ⟨hreported, fun hsource mem => ?_, fun mem haccepts n => ?_⟩
    · obtain ⟨n, herror⟩ := hreported hsource
      exact not_accepts_of_token hf herror mem
    · obtain ⟨s, hs, hread⟩ := layout_of_accepts hf haccepts hnot n
      have hreach := reaches_afterCalls f n (init baseOffset content)
      have hbase : (lexerNext f (afterCalls f n (init baseOffset content))).2.baseOffset =
          baseOffset := (hreach.trans (reaches_lexerNext f _)).baseOffset
      have hbetween := hread.between
      rw [show (afterCalls f n (init baseOffset content)).content = content from hreach.content]
        at hbetween
      rw [token, lexerNext_span]
      simp only [makeSpan, hbase, Nat.add_sub_cancel_left]
      rw [hbetween]
      exact hs

/-- The comment that has no end in {lit}`int x; /* y */ @ /* z` is behind an error. -/
theorem comments_closed_iff_at :
    CommentsClosed Fluf.ascii 0 ("int x; /* y */ @ /* z".toList.map byte) := by
  refine (comments_closed_iff Fluf.ascii Fluf.ascii_standard 0 _).mpr fun hruns => ?_
  have herror : (token Fluf.ascii 3 (init 0 ("int x; /* y */ @ /* z".toList.map byte))).kind =
      .error := by decide +kernel
  exact token_of_runs Fluf.ascii_standard hruns rfl rfl 3 herror

/-- The file {lit}`int x; /*` is accepted. -/
theorem comment_without_end :
    ¬ CommentsClosed Fluf.ascii 0 ("int x; /*".toList.map byte) ∧
      Parser.Accepts Fluf.ascii.intern Grammar.zeroed
        (lexTokens Fluf.ascii (init 0 ("int x; /*".toList.map byte))) := by
  have haccepts : Parser.Accepts Fluf.ascii.intern Grammar.zeroed
      (lexTokens Fluf.ascii (init 0 ("int x; /*".toList.map byte))) := by decide +kernel
  refine ⟨fun h => ?_, haccepts⟩
  have hsource : Unterminated (("int x; ".toList.map byte) ++ [byte '/', byte '*']) :=
    (unterminated_text (by decide +kernel)).mpr (.here [] rfl)
  exact h.rejected hsource Grammar.zeroed haccepts

end Cact
