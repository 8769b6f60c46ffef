import Cact.Lexer.Progress
import Mathlib.Data.List.Infix

/-!
# What the scanners read

The lexer is followed through the bytes it has not read yet.  Each scanner gets one
lemma that says which bytes it reads when a certain text lies ahead, followed by
something that cannot continue it.

Main results:

- Definition {lit}`Lexer.Reads`: the cursor moved over a given text.
- Theorem {lit}`Lexer.reads_advanceWhile`: the loops over a class of characters.
- Theorem {lit}`Lexer.reads_blockComment`: a block comment is read up to its first
  terminator.
-/

namespace Cact

namespace Lexer

/-! ## The bytes ahead -/

/-- The bytes that have not been read. -/
def ahead (l : Lexer) : List UInt8 := l.content.drop l.cursor

/-- The cursor moved over the text {lit}`s`. -/
structure Reads (l : Lexer) (s : List UInt8) (l' : Lexer) : Prop where
  moved : l' = { l with cursor := l.cursor + s.length }
  ahead : l.ahead = s ++ l'.ahead

/-- {lit}`lexer_peek` is the first byte ahead, or zero. -/
theorem peek_eq (l : Lexer) : l.peek = l.ahead.headD 0 := by
  simp [peek, ahead, List.headD_eq_head?_getD, List.head?_drop, List.getD_eq_getElem?_getD]

/-- {lit}`lexer_peek_next` is the second byte ahead, or zero. -/
theorem peekNext_eq (l : Lexer) : l.peekNext = l.ahead.tail.headD 0 := by
  simp [peekNext, ahead, List.headD_eq_head?_getD, List.getD_eq_getElem?_getD]

/-- What is left is as long as what is ahead. -/
theorem left_eq (l : Lexer) : l.left = l.ahead.length := by
  simp [left, ahead]

/-- Standing still reads nothing. -/
theorem Reads.refl (l : Lexer) : Reads l [] l := ⟨rfl, rfl⟩

/-- What is read in two goes is read in one. -/
theorem Reads.trans {l₁ l₂ l₃ : Lexer} {s t : List UInt8} (h : Reads l₁ s l₂)
    (h' : Reads l₂ t l₃) : Reads l₁ (s ++ t) l₃ where
  moved := by
    rw [h'.moved, h.moved]
    simp [Nat.add_assoc]
  ahead := by rw [h.ahead, h'.ahead, List.append_assoc]

/-- What lies ahead after a text has been read. -/
theorem Reads.rest {l l' : Lexer} {s r : List UInt8} (h : Reads l s l')
    (hahead : l.ahead = s ++ r) : l'.ahead = r := by
  have := h.ahead
  rw [hahead] at this
  exact (List.append_cancel_left this).symm

/-- The bytes between two positions of the cursor are the text that was read. -/
theorem Reads.lexeme {l l' : Lexer} {s : List UInt8} (h : Reads l s l') :
    l'.lexeme l.cursor = s := by
  have hahead := h.ahead
  rw [h.moved] at hahead ⊢
  simp only [Lexer.ahead] at hahead
  simp [Lexer.lexeme, hahead]

/-- The cursor moves by the length of what is read. -/
theorem Reads.length {l l' : Lexer} {s : List UInt8} (h : Reads l s l') :
    l'.cursor - l.cursor = s.length := by
  simp [h.moved]

/-- Before the end, advancing reads one byte. -/
theorem reads_advance {l : Lexer} {c : UInt8} {r : List UInt8} (h : l.ahead = c :: r) :
    Reads l [c] l.advance := by
  have hlt : l.cursor < l.content.length := by
    by_contra hge
    simp [ahead, List.drop_eq_nil_of_le (Nat.le_of_not_lt hge)] at h
  have hmoved : l.advance = { l with cursor := l.cursor + 1 } := by
    simp [advance, Nat.not_le.mpr hlt]
  constructor
  · simpa using hmoved
  · have htail : l.advance.ahead = l.ahead.tail := by simp [hmoved, ahead]
    simp [htail, h]

/-! ## Loops over a class of characters -/

/-- The loops read all of a text that passes the test, and stop after it. -/
theorem reads_advanceWhile {test : UInt8 → Bool} {l : Lexer} {s r : List UInt8}
    (h : l.ahead = s ++ r) (hs : ∀ c ∈ s, test c = true) (hr : test (r.headD 0) = false) :
    Reads l s (l.advanceWhile test) := by
  have hloop : ∀ n, s.length ≤ n → Reads l s (advanceWhileLoop test n l) := by
    induction s generalizing l with
    | nil =>
        intro n _
        have hpeek : test l.peek = false := by simpa [peek_eq, h] using hr
        cases n with
        | zero => exact Reads.refl l
        | succ n =>
            simp only [advanceWhileLoop, hpeek, Bool.false_eq_true, ↓reduceIte]
            exact Reads.refl l
    | cons c s ih =>
        intro n hn
        obtain ⟨m, rfl⟩ : ∃ m, n = m + 1 := ⟨n - 1, by simp at hn; omega⟩
        have hpeek : l.peek = c := by simp [peek_eq, h]
        have hc : test c = true := hs c (by simp)
        have hstep := reads_advance (by simpa using h)
        have hrest := ih (hstep.rest (by simpa using h)) (fun d hd => hs d (by simp [hd])) m
          (by simpa using hn)
        simp only [advanceWhileLoop, hpeek, hc, ↓reduceIte]
        exact hstep.trans hrest
  apply hloop
  simp [left_eq, h]

/-! ## Blanks and comments -/

/-- A blank is skipped first. -/
theorem skipWhitespace_blank {l : Lexer} (h : isBlank l.peek = true) :
    l.skipWhitespace = l.advance.skipWhitespace := by
  have hlt : l.cursor < l.content.length := by
    apply lt_of_peek
    intro hzero
    rw [hzero] at h
    exact absurd h (by decide)
  have hleft := left_advance hlt
  have hstep : l.skipWhitespace = skipWhitespaceLoop l.left l.advance := by
    simp [skipWhitespace, skipWhitespaceLoop, h]
  rw [hstep]
  exact skipWhitespaceLoop_budget hleft (Nat.lt_succ_self _)

/-- A slash is no blank. -/
theorem slash_not_blank : isBlank (byte '/') = false := by decide

/-- A line comment is skipped up to its newline. -/
theorem skipWhitespace_line {l : Lexer} (h : l.peek = byte '/') (h' : l.peekNext = byte '/') :
    l.skipWhitespace = (l.advanceWhile fun c => c != byte '\n' && c != 0).skipWhitespace := by
  have hlt : l.cursor < l.content.length := by
    apply lt_of_peek
    rw [h]
    decide
  have hmove : l.cursor < (l.advanceWhile fun c => c != byte '\n' && c != 0).cursor := by
    apply advanceWhile_progress hlt
    rw [h]
    decide
  have hreach := reaches_advanceWhile (fun c => c != byte '\n' && c != 0) l
  have hleft : (l.advanceWhile fun c => c != byte '\n' && c != 0).left < l.left := by
    simp only [left, hreach.content]
    omega
  have hstep : l.skipWhitespace =
      skipWhitespaceLoop l.left (l.advanceWhile fun c => c != byte '\n' && c != 0) := by
    simp [skipWhitespace, skipWhitespaceLoop, h, h', slash_not_blank]
  rw [hstep]
  exact skipWhitespaceLoop_budget hleft (Nat.lt_succ_self _)

/-- A closed block comment is skipped first. -/
theorem skipWhitespace_block {l l' : Lexer} (h : l.peek = byte '/') (h' : l.peekNext = byte '*')
    (hclosed : blockCommentLoop (l.left + 1) l.advance.advance = (l', true)) :
    l.skipWhitespace = l'.skipWhitespace := by
  have hlt : l.cursor < l.content.length := by
    apply lt_of_peek
    rw [h]
    decide
  have hleft : l'.left < l.left := by
    have hreach := (reaches_advance l.advance).trans
      (reaches_blockCommentLoop (l.left + 1) l.advance.advance)
    rw [hclosed] at hreach
    exact Nat.lt_of_le_of_lt hreach.left (left_advance hlt)
  have hne : (byte '*' == byte '/') = false := by decide
  have hstep : l.skipWhitespace = skipWhitespaceLoop l.left l' := by
    simp [skipWhitespace, skipWhitespaceLoop, h, h', slash_not_blank, hne, hclosed]
  rw [hstep]
  exact skipWhitespaceLoop_budget hleft (Nat.lt_succ_self _)

/-- Nothing is skipped before a character that is no blank, unless it begins a comment. -/
theorem skipWhitespace_stop {l : Lexer} (h : isBlank l.peek = false)
    (h' : l.peek = byte '/' → l.peekNext ≠ byte '/' ∧ l.peekNext ≠ byte '*') :
    l.skipWhitespace = l := by
  by_cases hslash : l.peek = byte '/'
  · simp [skipWhitespace, skipWhitespaceLoop, hslash, slash_not_blank, h' hslash]
  · simp [skipWhitespace, skipWhitespaceLoop, h, hslash]

/-- A block comment is read up to its first terminator. -/
theorem reads_blockComment {l : Lexer} {body r : List UInt8} {n : Nat}
    (h : l.ahead = body ++ byte '*' :: byte '/' :: r) (hzero : 0 ∉ body)
    (hfirst : ¬ [byte '*', byte '/'] <:+: body) (hn : body.length < n) :
    ∃ l', blockCommentLoop n l = (l', true) ∧ Reads l (body ++ [byte '*', byte '/']) l' := by
  have hstar : byte '*' ≠ 0 := by decide
  induction body generalizing l n with
  | nil =>
      obtain ⟨m, rfl⟩ : ∃ m, n = m + 1 := ⟨n - 1, by simp at hn; omega⟩
      have hpeek : l.peek = byte '*' := by simp [peek_eq, h]
      have hnext : l.peekNext = byte '/' := by simp [peekNext_eq, h]
      have hfst := reads_advance (by simpa using h)
      have hsnd := reads_advance (hfst.rest (by simpa using h))
      refine ⟨l.advance.advance, ?_, hfst.trans hsnd⟩
      simp [blockCommentLoop, hpeek, hnext, hstar]
  | cons c body ih =>
      obtain ⟨m, rfl⟩ : ∃ m, n = m + 1 := ⟨n - 1, by simp at hn; omega⟩
      simp only [List.mem_cons, not_or] at hzero
      have hpeek : l.peek = c := by simp [peek_eq, h]
      -- The comment is not closed here: a slash after this star would be an earlier end.
      have hopen : ¬ (c = byte '*' ∧ l.peekNext = byte '/') := by
        rintro ⟨rfl, hnext⟩
        cases body with
        | nil =>
            have hsep : byte '*' ≠ byte '/' := by decide
            simp [peekNext_eq, h, hsep] at hnext
        | cons d body =>
            have hd : d = byte '/' := by simpa [peekNext_eq, h] using hnext
            apply hfirst
            rw [hd]
            exact ⟨[], body, by simp⟩
      have hstep := reads_advance (by simpa using h)
      have hinner : ¬ [byte '*', byte '/'] <:+: body := by
        intro hin
        exact hfirst (hin.trans (List.suffix_cons c body).isInfix)
      obtain ⟨l', hloop, hreads⟩ := ih (hstep.rest (by simpa using h)) hzero.2 hinner
        (n := m) (by simpa using hn)
      refine ⟨l', ?_, hstep.trans hreads⟩
      have hc : c ≠ 0 := fun h => hzero.1 h.symm
      simp [blockCommentLoop, hpeek, hc, hopen, hloop]

/-- The scanners start behind what the loop of {lit}`skip_whitespace` skips. -/
theorem lexerNext_congr (f : Fluf) {l l' : Lexer} (h : l.skipWhitespace = l'.skipWhitespace) :
    lexerNext f l = lexerNext f l' := by
  unfold lexerNext
  rw [h]

end Lexer

end Cact
