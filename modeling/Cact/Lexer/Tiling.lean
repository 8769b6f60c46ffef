import Cact.Lexer.Layout
import Cact.Lexer.Machine
import Mathlib.Data.List.TakeWhile

/-!
# Tokens tile the source

Successive calls of {lit}`lexer_next` cut a file into pieces: what is skipped, then the
bytes of a token, and so on up to the end.

Main results:

- Definition {lit}`Filler`: what the lexer skips, blanks and comments.
- Theorem {lit}`Lexer.skipWhitespace_layout`: nothing else is skipped.
- Theorem {lit}`Lexer.lexerNext_span`: a token spans the bytes from what is skipped up
  to the cursor.
- Theorem {lit}`spans_tile_source`: the spans of all tokens of a file, and when
  end-of-file is returned.
-/

open Traced

namespace Cact

/-- A blank or a comment as the lexer skips it.  A line comment stops in front of the
byte that ends it.  A block comment may have no end: a zero byte or the end of the file
cuts it short. -/
inductive Filler where
  | blank (c : UInt8) (h : c ∈ whitespace)
  | line (body : List UInt8) (hzero : 0 ∉ body) (hline : byte '\n' ∉ body)
  | block (body : List UInt8) (hzero : 0 ∉ body)
      (hopen : ¬ [byte '*', byte '/'] <:+: body)
  | unclosed (body : List UInt8) (hzero : 0 ∉ body)
      (hopen : ¬ [byte '*', byte '/'] <:+: body)

/-- The text of a blank or a comment. -/
def Filler.text : Filler → List UInt8
  | blank c _ => [c]
  | line body _ _ => byte '/' :: byte '/' :: body
  | block body _ _ => byte '/' :: byte '*' :: (body ++ [byte '*', byte '/'])
  | unclosed body _ _ => byte '/' :: byte '*' :: body

/-- A text that consists of blanks and comments. -/
def IsSkipped (s : List UInt8) : Prop := ∃ fs : List Filler, s = fs.flatMap Filler.text

/-- Nothing is skipped where the next token follows at once. -/
theorem isSkipped_nil : IsSkipped [] := ⟨[], rfl⟩

/-- A piece of layout in front of skipped text is skipped too. -/
theorem IsSkipped.cons (g : Filler) {s : List UInt8} (h : IsSkipped s) :
    IsSkipped (g.text ++ s) := by
  obtain ⟨fs, rfl⟩ := h
  exact ⟨g :: fs, rfl⟩

/-- A trivia as a filler: the newline of a line comment is a blank of its own. -/
theorem IsSkipped.trivia (t : Trivia) {s : List UInt8} (h : IsSkipped s) :
    IsSkipped (t.text ++ s) := by
  cases t with
  | blank c hc => exact h.cons (.blank c hc)
  | line body hzero hline =>
      have hnewline : byte '\n' ∈ whitespace := by decide
      have hboth := (h.cons (.blank _ hnewline)).cons (.line body hzero hline)
      simpa [Filler.text, Trivia.text] using hboth
  | block body hzero hopen => exact h.cons (.block body hzero hopen)

namespace Lexer

/-! ## What is skipped -/

/-- The blanks that {lit}`lexer_skip_whitespace` tests for are the whitespace of the layout. -/
theorem mem_whitespace {c : UInt8} (h : isBlank c = true) : c ∈ whitespace := by
  simpa [isBlank, whitespace, or_assoc] using h

/-- Before the end, the current character lies ahead. -/
theorem ahead_eq {l : Lexer} (h : l.cursor < l.content.length) :
    l.ahead = l.peek :: l.advance.ahead := by
  have hmove : l.advance = { l with cursor := l.cursor + 1 } := by
    rw [advance, if_neg (by omega)]
  rw [hmove, ahead, peek, List.getD_eq_getElem _ _ h]
  exact List.drop_eq_getElem_cons h

/-- Before the end of the content {lit}`lexer_peek_next` is what {lit}`lexer_peek` sees a byte
later. -/
theorem peekNext_advance (l : Lexer) (h : l.cursor < l.content.length) :
    l.peekNext = l.advance.peek := by
  rw [peekNext_eq, peek_eq, ahead_eq h]
  rfl

/-- What lies behind a run of characters of a class is outside it. -/
theorem headD_dropWhile {test : UInt8 → Bool} (htest : test 0 = false) (r : List UInt8) :
    test ((r.dropWhile test).headD 0) = false := by
  cases hrest : r.dropWhile test with
  | nil => exact htest
  | cons c r' =>
      have hne : r.dropWhile test ≠ [] := by simp [hrest]
      have hc := List.head_dropWhile_not test hne
      simpa [hrest] using hc

/-- The loops over a class of characters read characters of the class. -/
theorem exists_reads_advanceWhile {test : UInt8 → Bool} (htest : test 0 = false) (l : Lexer) :
    Reads l (l.ahead.takeWhile test) (l.advanceWhile test) := by
  refine reads_advanceWhile (r := l.ahead.dropWhile test)
    (List.takeWhile_append_dropWhile).symm ?_ (headD_dropWhile htest _)
  intro c hc
  exact List.mem_takeWhile_imp hc

/-- The loop of {lit}`advanceWhile` ends where its test fails, at the end of the content at the
latest. -/
theorem test_advanceWhile {test : UInt8 → Bool} (htest : test 0 = false) (l : Lexer) :
    test (l.advanceWhile test).peek = false := by
  rw [peek_eq, (exists_reads_advanceWhile htest l).rest List.takeWhile_append_dropWhile.symm]
  exact headD_dropWhile htest _

/-- The text of a block comment: up to its first terminator, or up to a zero byte. -/
theorem blockComment_reads {l : Lexer} {n : Nat} (hn : l.left < n) :
    ∃ body, 0 ∉ body ∧ ¬ [byte '*', byte '/'] <:+: body ∧
      (((blockCommentLoop n l).2 = true ∧
          Reads l (body ++ [byte '*', byte '/']) (blockCommentLoop n l).1) ∨
        ((blockCommentLoop n l).2 = false ∧ Reads l body (blockCommentLoop n l).1 ∧
          (blockCommentLoop n l).1.peek = 0)) := by
  have hnil : ¬ [byte '*', byte '/'] <:+: [] := by simp
  induction n generalizing l with
  | zero => omega
  | succ n ih =>
      rw [blockCommentLoop]
      by_cases hzero : (l.peek == 0) = true
      · rw [if_pos hzero]
        exact ⟨[], by simp, hnil, Or.inr ⟨rfl, Reads.refl l, by simpa using hzero⟩⟩
      · rw [if_neg hzero]
        have hne : l.peek ≠ 0 := by simpa using hzero
        have hlt := lt_of_peek hne
        have hread := reads_advance (ahead_eq hlt)
        by_cases hclose : (l.peek == byte '*' && l.peekNext == byte '/') = true
        · rw [if_pos hclose]
          obtain ⟨hstar, hslash⟩ : l.peek = byte '*' ∧ l.peekNext = byte '/' := by
            simpa using hclose
          have hnext : l.advance.peek = byte '/' := by rw [← peekNext_advance l hlt, hslash]
          have hlt' : l.advance.cursor < l.advance.content.length := by
            apply lt_of_peek
            rw [hnext]
            decide
          have hread' := reads_advance (ahead_eq hlt')
          rw [hnext] at hread'
          rw [hstar] at hread
          exact ⟨[], by simp, hnil, Or.inl ⟨rfl, hread.trans hread'⟩⟩
        · rw [if_neg hclose]
          have hleft := left_advance hlt
          obtain ⟨body, hbody, hopen, hrest⟩ := ih (l := l.advance) (by omega)
          -- The terminator would have been found if it stood at the cursor.
          have hfirst : ¬ [byte '*', byte '/'] <:+: l.peek :: body := by
            intro hin
            rcases List.infix_cons_iff.mp hin with hpre | hinfix
            · obtain ⟨r, hr⟩ := hpre
              simp only [List.cons_append, List.nil_append, List.cons.injEq] at hr
              obtain ⟨hstar, hslash⟩ := hr
              have hahead : l.advance.ahead.headD 0 = byte '/' := by
                rcases hrest with ⟨_, hread'⟩ | ⟨_, hread', _⟩
                · rw [hread'.ahead, ← hslash]
                  rfl
                · rw [hread'.ahead, ← hslash]
                  rfl
              refine hclose ?_
              rw [peekNext_advance l hlt, peek_eq l.advance, hahead, ← hstar]
              rfl
            · exact hopen hinfix
          refine ⟨l.peek :: body, ?_, hfirst, ?_⟩
          · rw [List.mem_cons, not_or]
            exact ⟨hne.symm, hbody⟩
          · rcases hrest with ⟨hclosed, hread'⟩ | ⟨hclosed, hread', hend⟩
            · exact Or.inl ⟨hclosed, hread.trans hread'⟩
            · exact Or.inr ⟨hclosed, hread.trans hread', hend⟩

/-- How skipping ends, in front of the text {lit}`r`: at a token or at the end of the file,
or with a comment that has no end and is cut short by a zero byte or by the end of the
file. -/
inductive SkipEnd (r : List UInt8) : List UInt8 → Prop where
  | token (hblank : isBlank (r.headD 0) = false)
      (hslash : r.headD 0 = byte '/' → r.tail.headD 0 ≠ byte '/' ∧ r.tail.headD 0 ≠ byte '*') :
      SkipEnd r []
  | line (body : List UInt8) (hzero : 0 ∉ body) (hline : byte '\n' ∉ body)
      (hend : r.headD 0 = 0) : SkipEnd r (byte '/' :: byte '/' :: body)
  | block (body : List UInt8) (hzero : 0 ∉ body) (hopen : ¬ [byte '*', byte '/'] <:+: body)
      (hend : r.headD 0 = 0) : SkipEnd r (byte '/' :: byte '*' :: body)

/-- The lexer skips blanks and comments, up to a token or into a comment without end. -/
theorem skipWhitespace_layout (l : Lexer) :
    ∃ (ts : List Trivia) (s : List UInt8), SkipEnd l.skipWhitespace.ahead s ∧
      Reads l (ts.flatMap Trivia.text ++ s) l.skipWhitespace := by
  -- Induction on the bytes that are left: every round takes at least one.
  induction hn : l.left using Nat.strongRecOn generalizing l with
  | ind n ih =>
      subst hn
      -- One blank or comment is read, and the rest is skipped from there.
      have hround {l' : Lexer} (t : Trivia) (hread : Reads l t.text l')
          (hleft : l'.left < l.left) (hskip : l.skipWhitespace = l'.skipWhitespace) :
          ∃ (ts : List Trivia) (s : List UInt8), SkipEnd l.skipWhitespace.ahead s ∧
            Reads l (ts.flatMap Trivia.text ++ s) l.skipWhitespace := by
        obtain ⟨ts, s, hend, hrest⟩ := ih _ hleft l' rfl
        refine ⟨t :: ts, s, ?_, ?_⟩
        · rw [hskip]
          exact hend
        · rw [hskip, List.flatMap_cons, List.append_assoc]
          exact hread.trans hrest
      by_cases hblank : isBlank l.peek = true
      · have hlt : l.cursor < l.content.length := by
          apply lt_of_peek
          intro hzero
          rw [hzero] at hblank
          exact absurd hblank (by decide)
        exact hround (.blank l.peek (mem_whitespace hblank)) (reads_advance (ahead_eq hlt))
          (left_advance hlt) (skipWhitespace_blank hblank)
      · have hnot : isBlank l.peek = false := by simpa using hblank
        have hstop (hslash : l.peek = byte '/' → l.peekNext ≠ byte '/' ∧ l.peekNext ≠ byte '*') :
            ∃ (ts : List Trivia) (s : List UInt8), SkipEnd l.skipWhitespace.ahead s ∧
              Reads l (ts.flatMap Trivia.text ++ s) l.skipWhitespace := by
          rw [skipWhitespace_stop hnot hslash]
          rw [peek_eq] at hnot
          rw [peek_eq, peekNext_eq] at hslash
          exact ⟨[], [], .token hnot hslash, Reads.refl l⟩
        by_cases hslash : l.peek = byte '/'
        · have hlt : l.cursor < l.content.length := by
            apply lt_of_peek
            rw [hslash]
            decide
          have hread := reads_advance (ahead_eq hlt)
          have hleft := left_advance hlt
          -- Two characters open a comment.
          have hopened {c : UInt8} (hc : c ≠ 0) (hnext : l.peekNext = c) :
              Reads l [byte '/', c] l.advance.advance := by
            rw [peekNext_advance l hlt] at hnext
            have hlt' : l.advance.cursor < l.advance.content.length := by
              apply lt_of_peek
              rw [hnext]
              exact hc
            have hread' := reads_advance (ahead_eq hlt')
            rw [hnext] at hread'
            rw [hslash] at hread
            exact hread.trans hread'
          by_cases hline : l.peekNext = byte '/'
          · have hahead := (hopened (by decide) hline).ahead
            have htaken : Reads l (l.ahead.takeWhile fun c => c != byte '\n' && c != 0)
                (l.advanceWhile fun c => c != byte '\n' && c != 0) :=
              exists_reads_advanceWhile rfl l
            have hslashes (r : List UInt8) :
                (byte '/' :: byte '/' :: r).takeWhile (fun c => c != byte '\n' && c != 0) =
                  byte '/' :: byte '/' :: r.takeWhile fun c => c != byte '\n' && c != 0 := by
              rw [List.takeWhile_cons_of_pos (by decide), List.takeWhile_cons_of_pos (by decide)]
            have hstopped := @test_advanceWhile (fun c => c != byte '\n' && c != 0) rfl l
            rw [hahead, List.cons_append, List.cons_append, List.nil_append, hslashes] at htaken
            have hbody : ∀ c ∈ l.advance.advance.ahead.takeWhile
                fun c => c != byte '\n' && c != 0, c ≠ byte '\n' ∧ c ≠ 0 := by
              intro c hc
              simpa using List.mem_takeWhile_imp hc
            have hskip := skipWhitespace_line hslash hline
            generalize l.advance.advance.ahead.takeWhile (fun c => c != byte '\n' && c != 0) = body
              at htaken hbody
            generalize l.advanceWhile (fun c => c != byte '\n' && c != 0) = l₁
              at htaken hskip hstopped
            have hzero : 0 ∉ body := fun h => (hbody 0 h).2 rfl
            have hnewline : byte '\n' ∉ body := fun h => (hbody _ h).1 rfl
            by_cases hend : l₁.peek = 0
            · rw [hskip, skipWhitespace_stop (by rw [hend]; decide)
                fun h => absurd (hend.symm.trans h) (by decide)]
              rw [peek_eq] at hend
              exact ⟨[], _, .line body hzero hnewline hend, htaken⟩
            · have hnext : l₁.peek = byte '\n' := by simpa [hend] using hstopped
              have hlt₁ := lt_of_peek hend
              have hlast := reads_advance (ahead_eq hlt₁)
              rw [hnext] at hlast
              have htext : Reads l (Trivia.line body hzero hnewline).text l₁.advance :=
                htaken.trans hlast
              refine hround _ htext ?_ (hskip.trans (skipWhitespace_blank (by rw [hnext]; decide)))
              rw [left_eq, left_eq, htext.ahead]
              simp only [Trivia.text, List.length_append, List.length_cons]
              omega
          · by_cases hstar : l.peekNext = byte '*'
            · have hinner : l.advance.advance.left < l.left + 1 := by
                have := (reaches_advance l.advance).left
                omega
              obtain ⟨body, hzero, hopen, hend⟩ := blockComment_reads hinner
              have hboth := hopened (by decide) hstar
              rcases hout : blockCommentLoop (l.left + 1) l.advance.advance with ⟨l', closed⟩
              rw [hout] at hend
              rcases hend with ⟨rfl, hread'⟩ | ⟨rfl, hread', hzero'⟩
              · have htext : Reads l (Trivia.block body hzero hopen).text l' :=
                  hboth.trans hread'
                have hless : l'.left < l.left := by
                  rw [left_eq, left_eq, htext.ahead]
                  simp only [Trivia.text, List.length_append, List.length_cons]
                  omega
                exact hround _ htext hless (skipWhitespace_block hslash hstar hout)
              · have hstop : l.skipWhitespace = l' := by
                  have hne : (byte '*' == byte '/') = false := by decide
                  simp [skipWhitespace, skipWhitespaceLoop, hslash, hstar, slash_not_blank,
                    hne, hout]
                rw [hstop]
                rw [peek_eq] at hzero'
                exact ⟨[], _, .block body hzero hopen hzero', hboth.trans hread'⟩
            · exact hstop fun _ => ⟨hline, hstar⟩
        · exact hstop fun h => absurd h hslash

/-- The lexer skips blanks and comments, and nothing else. -/
theorem skipWhitespace_fillers (l : Lexer) :
    ∃ s, IsSkipped s ∧ Reads l s l.skipWhitespace := by
  obtain ⟨ts, s, hend, hread⟩ := skipWhitespace_layout l
  refine ⟨_, ?_, hread⟩
  clear hread
  induction ts with
  | nil =>
      rw [← List.append_nil (_ ++ s)]
      cases hend with
      | token => exact isSkipped_nil
      | line body hzero hline _ => exact isSkipped_nil.cons (.line body hzero hline)
      | block body hzero hopen _ => exact isSkipped_nil.cons (.unclosed body hzero hopen)
  | cons t ts ih =>
      rw [List.flatMap_cons, List.append_assoc]
      exact ih.trivia t

/-! ## Spans -/

/-- An identifier spans what was read for it. -/
theorem scanIdentifier_span (f : Fluf) (l : Lexer) :
    (scanIdentifier f l).1.span = (scanIdentifier f l).2.makeSpan l.cursor := by
  unfold scanIdentifier
  dsimp only
  split
  · rfl
  · rfl

/-- A number spans what was read since its start. -/
theorem numberToken_span (f : Fluf) (l : Lexer) (start : Nat) (isFraction isFloat32 : Bool) :
    (numberToken f l start isFraction isFloat32).span = l.makeSpan start := by
  unfold numberToken
  dsimp only
  split_ifs
  · rfl
  · rfl
  · rfl
  · rfl

/-- The suffix is part of the number's span. -/
theorem scanSuffix_span (f : Fluf) (l : Lexer) (start : Nat) (isFraction : Bool) :
    (scanSuffix f l start isFraction).1.span =
      (scanSuffix f l start isFraction).2.makeSpan start := by
  unfold scanSuffix
  split_ifs
  · exact numberToken_span _ _ _ _ _
  · rfl
  · exact numberToken_span _ _ _ _ _

/-- A number spans what {lit}`scan_number` read. -/
theorem scanNumber_span (f : Fluf) (l : Lexer) :
    (scanNumber f l).1.span = (scanNumber f l).2.makeSpan l.cursor := by
  unfold scanNumber
  split
  · unfold scanHex
    dsimp only
    split
    · exact numberToken_span _ _ _ _ _
    · rfl
  · unfold scanDecimal
    dsimp only
    split
    · exact scanSuffix_span _ _ _ _
    · exact scanSuffix_span _ _ _ _
    · rfl

/-- A punctuator spans what was read since its start. -/
theorem scanPunctuator_span (l : Lexer) (c : UInt8) (start : Nat) :
    (scanPunctuator l c start).1.span = (scanPunctuator l c start).2.makeSpan start := by
  unfold scanPunctuator
  split
  · rfl
  · split
    · rfl
    · rfl
  · split
    · rfl
    · rfl
  · rfl

/-- A token spans the bytes from what is skipped up to the new cursor. -/
theorem lexerNext_span (f : Fluf) (l : Lexer) :
    (lexerNext f l).1.span = (lexerNext f l).2.makeSpan l.skipWhitespace.cursor := by
  unfold lexerNext
  dsimp only
  split_ifs
  · rfl
  · exact scanIdentifier_span f _
  · exact scanNumber_span f _
  · exact scanNumber_span f _
  · rfl
  · exact scanPunctuator_span _ _ _

/-! ## Sequences of calls -/

/-- The state after one more call is the state after a call on the last one. -/
theorem afterCalls_succ (f : Fluf) (n : Nat) (l : Lexer) :
    afterCalls f (n + 1) l = (lexerNext f (afterCalls f n l)).2 := by
  induction n generalizing l with
  | zero => rfl
  | succ n ih => exact ih (lexerNext f l).2

/-- Any number of calls only moves the cursor forward. -/
theorem reaches_afterCalls (f : Fluf) (n : Nat) (l : Lexer) : Reaches l (afterCalls f n l) := by
  induction n generalizing l with
  | zero => exact Reaches.refl l
  | succ n ih => exact (reaches_lexerNext f l).trans (ih _)

/-- The token that the call with the given number returns, the first call being number
zero. -/
def token (f : Fluf) (n : Nat) (l : Lexer) : Token := (lexerNext f (afterCalls f n l)).1

/-- End-of-file is returned again. -/
theorem lexerNext_eof_again {f : Fluf} {l : Lexer} (h : (lexerNext f l).1.kind = .eof) :
    (lexerNext f (lexerNext f l).2).1.kind = .eof := by
  rw [lexerNext_eof_iff, (reaches_lexerNext f l).content]
  have hend := (lexerNext_eof_iff f l).mp h
  rw [(lexerNext_eof h).1]
  exact hend.trans (reaches_skipWhitespace _).forward

/-- Once the end of the file is returned, every later call returns it again. -/
theorem token_eof_of_le {f : Fluf} {l : Lexer} {n m : Nat} (h : (token f n l).kind = .eof)
    (hm : n ≤ m) : (token f m l).kind = .eof := by
  obtain ⟨k, rfl⟩ := Nat.exists_eq_add_of_le hm
  induction k with
  | zero => exact h
  | succ k ih =>
      rw [token, ← Nat.add_assoc, afterCalls_succ]
      exact lexerNext_eof_again (ih (Nat.le_add_right n k))

/-- From some call on, no later than there are bytes left, end-of-file is returned, and
not before. -/
theorem exists_token_eof {f : Fluf} (hf : f.Standard) (l : Lexer) :
    ∃ n ≤ l.left, ∀ m, (token f m l).kind = .eof ↔ n ≤ m := by
  induction hn : l.left using Nat.strongRecOn generalizing l with
  | ind n ih =>
      subst hn
      by_cases h : (lexerNext f l).1.kind = .eof
      · exact ⟨0, Nat.zero_le _, fun m =>
          ⟨fun _ => Nat.zero_le m, fun hm => token_eof_of_le (n := 0) h hm⟩⟩
      · have hleft := left_lexerNext hf h
        obtain ⟨n, hn, hall⟩ := ih _ hleft (lexerNext f l).2 rfl
        refine ⟨n + 1, by omega, fun m => ?_⟩
        cases m with
        | zero => simpa [token, afterCalls] using h
        | succ m =>
            rw [Nat.add_le_add_iff_right]
            exact hall m

end Lexer

open Lexer Machine

/-- The bytes of a text between two offsets. -/
def between (content : List UInt8) (start stop : Nat) : List UInt8 :=
  (content.drop start).take (stop - start)

/-- What is read is the content between the two cursors. -/
theorem Lexer.Reads.between {l l' : Lexer} {s : List UInt8} (h : Lexer.Reads l s l') :
    between l.content l.cursor l'.cursor = s := by
  have hlexeme := h.lexeme
  rw [h.moved] at hlexeme ⊢
  exact hlexeme

/-- What a call of {lit}`lexer_next` does to the file: it ends with a token, no byte
outside the file is read, the cursor moves forwards and stays inside the file; and a
token that is not end-of-file spans at least one byte, lies behind some blanks and
comments, and ends at the cursor. -/
structure TakesToken (f : Fluf) (l : Lexer) (t : Token) (l' : Lexer) : Prop where
  ends : ((Machine.lexerNext f).run l).outcome = .done t l'
  inside : ∀ st ∈ ((Machine.lexerNext f).run l).steps, StaysInside st
  forward : l.cursor ≤ l'.cursor
  bounded : l'.cursor ≤ l.content.length
  span : t.kind ≠ .eof → ∃ start, l.cursor ≤ start ∧ start < l'.cursor ∧
    t.span = ⟨l.baseOffset + start, l.baseOffset + l'.cursor⟩ ∧
    IsSkipped (between l.content l.cursor start)

/-- Every call of {lit}`lexer_next` skips layout and takes one token behind it. -/
theorem takesToken {f : Fluf} (hf : f.Standard) {l : Lexer}
    (hl : l.cursor ≤ l.content.length) :
    TakesToken f l (Lexer.lexerNext f l).1 (Lexer.lexerNext f l).2 := by
  have hmeets := refines_lexerNext hf l hl
  have hreach := reaches_lexerNext f l
  constructor
  · rcases hmeets with ⟨_, _, hfalse⟩ | ⟨_, hend⟩
    · exact hfalse.elim
    · cases hout : ((Machine.lexerNext f).run l).outcome with
      | done t l' =>
          rw [hout] at hend
          rw [← hend.1]
      | fault s =>
          rw [hout] at hend
          exact hend.elim
      | timeout =>
          rw [hout] at hend
          exact hend.elim
  · intro st hst
    exact hmeets.emits (fun _ => id) hst
  · exact hreach.forward
  · exact hreach.inside hl
  · intro hkind
    obtain ⟨s, hs, hread⟩ := skipWhitespace_fillers l
    refine ⟨l.skipWhitespace.cursor, (reaches_skipWhitespace l).forward,
      lexerNext_nonempty hf hkind, ?_, ?_⟩
    · rw [lexerNext_span, makeSpan, hreach.baseOffset]
    · rw [hread.between]
      exact hs

end Cact
