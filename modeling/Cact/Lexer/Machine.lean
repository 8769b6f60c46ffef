import Cact.Library.Contract
import Cact.Lexer.Reading

/-!
# The lexer as a program

The functions of {lit}`lexer.c` once more, statement by statement: a cursor that is
moved forwards, moved back before a scanner starts over, and bumped without a test once
a character has matched, and a trace of the ranges of bytes that are read.  The
functions of {lit}`Lexer` are what these programs compute.

Main results:

- Definition {lit}`Machine.lexerNext`: the program of {lit}`lexer_next`.
- Theorem {lit}`Machine.refines_lexerNext`: it ends, with the token and the cursor of
  {lit}`Lexer.lexerNext`, and stays inside the file at every step.
-/

open Traced

namespace Cact

/-- What a step of the lexer does to its file: read a range of bytes, or move the
cursor. -/
inductive Touch where
  | read (start stop : Nat)
  | move
deriving DecidableEq, Repr

/-- A piece of the lexer. -/
abbrev Scan (α : Type) : Type := Prog Lexer Touch α

namespace Machine

/-! ## Helpers -/

/-- Read the byte at an offset. -/
def readByte (offset : Nat) : Scan UInt8 := do
  Prog.mark (.read offset (offset + 1))
  Prog.read fun l => l.content.getD offset 0

/-- Move the cursor by one. -/
def bump : Scan Unit := Prog.step .move fun l => { l with cursor := l.cursor + 1 }

/-- Move the cursor back by one. -/
def back : Scan Unit := Prog.step .move fun l => { l with cursor := l.cursor - 1 }

/-- {lit}`peek`. -/
def peek : Scan UInt8 := do
  let l ← Prog.read id
  if l.content.length ≤ l.cursor then
    return 0
  else
    readByte l.cursor

/-- {lit}`peek_next`. -/
def peekNext : Scan UInt8 := do
  let l ← Prog.read id
  if l.content.length ≤ l.cursor + 1 then
    return 0
  else
    readByte (l.cursor + 1)

/-- {lit}`advance`. -/
def advance : Scan UInt8 := do
  let l ← Prog.read id
  if l.content.length ≤ l.cursor then
    return 0
  else
    let c ← readByte l.cursor
    bump
    return c

/-- {lit}`match`: the cursor is moved without a test of its own. -/
def matchChar (expected : UInt8) : Scan Bool := do
  if (← peek) == expected then
    bump
    return true
  else
    return false

/-- The bytes from a start up to the cursor, copied out of the file. -/
def lexeme (start : Nat) : Scan (List UInt8) := do
  let l ← Prog.read id
  Prog.mark (.read start l.cursor)
  return l.lexeme start

/-- {lit}`lexer_error_token`. -/
def lexerErrorToken (m : LexMsg) (start : Nat) : Scan Token :=
  Prog.read fun l => l.lexerErrorToken m start

/-- A token without a value. -/
def retTok (kind : TokenKind) (start : Nat) : Scan Token :=
  Prog.read fun l => l.retTok kind start

/-- A test of the current character. -/
def peekIs (test : UInt8 → Bool) : Scan Bool := do
  return test (← peek)

/-- Two tests with {lit}`||` between them: the second looks at the character again. -/
def peekOr (test test' : UInt8 → Bool) : Scan Bool := do
  if test (← peek) then
    return true
  else
    return test' (← peek)

/-- Two tests with {lit}`&&` between them. -/
def peekAnd (test test' : UInt8 → Bool) : Scan Bool := do
  if test (← peek) then
    return test' (← peek)
  else
    return false

/-- One iteration of the loops that advance while a test of the current character holds. -/
def advanceWhileIter (cond : Scan Bool) (_ : Unit) : Scan (Iter Unit Unit) := do
  if ← cond then
    let _ ← advance
    return .again ()
  else
    return .leave ()

/-- Advance while a test of the current character holds. -/
def advanceWhile (cond : Scan Bool) : Scan Unit := do
  let l ← Prog.read id
  loop (advanceWhileIter cond) (l.left + 1) ()

/-! ## Blanks and comments -/

/-- The test for the end of a block comment.  The byte behind is looked at only behind a star. -/
def closesComment : Scan Bool := do
  if (← peek) == byte '*' then
    return (← peekNext) == byte '/'
  else
    return false

/-- One iteration over the text of a block comment: whether the comment was closed. -/
def blockCommentIter (_ : Unit) : Scan (Iter Unit Bool) := do
  if (← peek) == 0 then
    return .leave false
  else if ← closesComment then
    let _ ← advance
    let _ ← advance
    return .leave true
  else
    let _ ← advance
    return .again ()

/-- The loop over the text of a block comment. -/
def blockComment : Scan Bool := do
  let l ← Prog.read id
  loop blockCommentIter (l.left + 1) ()

/-- One iteration of the loop of {lit}`skip_whitespace`. -/
def skipWhitespaceIter (_ : Unit) : Scan (Iter Unit Unit) := do
  let c ← peek
  if Lexer.isBlank c then
    let _ ← advance
    return .again ()
  else if c == byte '/' then
    if (← peekNext) == byte '/' then
      advanceWhile (peekAnd (· != byte '\n') (· != 0))
      return .again ()
    else if (← peekNext) == byte '*' then
      let _ ← advance
      let _ ← advance
      if ← blockComment then
        return .again ()
      else
        return .leave ()
    else
      return .leave ()
  else
    return .leave ()

/-- {lit}`skip_whitespace`. -/
def skipWhitespace : Scan Unit := do
  let l ← Prog.read id
  loop skipWhitespaceIter (l.left + 1) ()

/-! ## Scanners -/

/-- {lit}`scan_identifier`. -/
def scanIdentifier (f : Fluf) : Scan Token := do
  let start ← Prog.read Lexer.cursor
  advanceWhile (peekOr f.charIsAlphanum (· == byte '_'))
  let sp ← Prog.read fun l => l.makeSpan start
  let s ← lexeme start
  match (Lexer.kwMap f).lookup (f.intern s) with
  | some kind => return ⟨kind, sp, .unset⟩
  | none => return ⟨.ident, sp, .ofName (f.intern s)⟩

/-- The end of {lit}`scan_number`: the text is copied if it fits the buffer. -/
def numberToken (f : Fluf) (start : Nat) (isFraction isFloat32 : Bool) : Scan Token := do
  let l ← Prog.read id
  if 128 ≤ l.cursor - start then
    lexerErrorToken .numberTooLong start
  else
    let buf ← lexeme start
    if isFraction then
      if isFloat32 then
        return ⟨.litFloat, l.makeSpan start, .ofFloat (f.strtof buf)⟩
      else
        return ⟨.litDouble, l.makeSpan start, .ofDouble (f.strtod buf)⟩
    else
      return ⟨.litInt, l.makeSpan start, .ofInt (Int32.ofNat (Lexer.strtoll buf))⟩

/-- The hexadecimal branch of {lit}`scan_number`. -/
def scanHex (f : Fluf) (start : Nat) : Scan Token := do
  let _ ← advance
  let _ ← advance
  if f.charIsHex (← peek) then
    advanceWhile (peekIs f.charIsHex)
    numberToken f start false false
  else
    lexerErrorToken .hexDigits start

/-- The fraction of a decimal literal: the flag {lit}`has_dot`. -/
def scanFraction (f : Fluf) : Scan Bool := do
  if (← peek) == byte '.' then
    let _ ← advance
    advanceWhile (peekIs f.charIsDigit)
    return true
  else
    return false

/-- The sign of an exponent. -/
def scanSign : Scan Unit := do
  if ← peekOr (· == byte '+') (· == byte '-') then
    let _ ← advance
    return ()
  else
    return ()

/-- The exponent of a decimal literal: the flag {lit}`has_exponent`, or nothing if the
exponent has no digits. -/
def scanExponent (f : Fluf) : Scan (Option Bool) := do
  if ← peekOr (· == byte 'e') (· == byte 'E') then
    let _ ← advance
    scanSign
    if f.charIsDigit (← peek) then
      advanceWhile (peekIs f.charIsDigit)
      return some true
    else
      return none
  else
    return some false

/-- The suffix of a decimal literal. -/
def scanSuffix (f : Fluf) (start : Nat) (isFraction : Bool) : Scan Token := do
  if ← peekOr (· == byte 'f') (· == byte 'F') then
    if isFraction then
      let _ ← advance
      numberToken f start isFraction true
    else
      lexerErrorToken .suffixOnInteger start
  else
    numberToken f start isFraction false

/-- The decimal branch of {lit}`scan_number`. -/
def scanDecimal (f : Fluf) (start : Nat) : Scan Token := do
  advanceWhile (peekIs f.charIsDigit)
  let hasDot ← scanFraction f
  match ← scanExponent f with
  | some hasExponent => scanSuffix f start (hasDot || hasExponent)
  | none => lexerErrorToken .exponentDigits start

/-- The test for a hexadecimal literal. -/
def beginsHex : Scan Bool := do
  if (← peek) == byte '0' then
    if (← peekNext) == byte 'x' then
      return true
    else
      return (← peekNext) == byte 'X'
  else
    return false

/-- {lit}`scan_number`. -/
def scanNumber (f : Fluf) : Scan Token := do
  let start ← Prog.read Lexer.cursor
  if ← beginsHex then
    scanHex f start
  else
    scanDecimal f start

/-! ## Tokens -/

/-- The switch of {lit}`lexer_next`. -/
def scanPunctuator (c : UInt8) (start : Nat) : Scan Token := do
  match Lexer.singleKind c, Lexer.withEqual c, Lexer.doubled c with
  | some kind, _, _ => retTok kind start
  | none, some (long, short), _ =>
      if ← matchChar (byte '=') then
        retTok long start
      else
        retTok short start
  | none, none, some (kind, complaint) =>
      if ← matchChar c then
        retTok kind start
      else
        lexerErrorToken complaint start
  | none, none, none => lexerErrorToken (.unexpectedChar c) start

/-- {lit}`lexer_next`. -/
def lexerNext (f : Fluf) : Scan Token := do
  skipWhitespace
  let start ← Prog.read Lexer.cursor
  let l ← Prog.read id
  if l.content.length ≤ l.cursor then
    retTok .eof start
  else
    let c ← advance
    if f.charIsAlpha c || c == byte '_' then
      back
      scanIdentifier f
    else if f.charIsDigit c then
      back
      scanNumber f
    else if c == byte '.' then
      if f.charIsDigit (← peek) then
        back
        scanNumber f
      else
        lexerErrorToken .unexpectedDot start
    else
      scanPunctuator c start

/-! ## What the programs compute -/

/-- A step that stays inside the file: no byte at or past its end is read, and the
cursor does not pass the end. -/
structure StaysInside (st : Step Lexer Touch) : Prop where
  read : ∀ start stop, st.label = .read start stop → stop ≤ st.before.content.length
  content : st.after.content = st.before.content
  cursor : st.after.cursor ≤ st.before.content.length

/-- Every step stays inside the file, and the program ends. -/
def inside : Contract Lexer Touch where
  escape _ := False
  emit := StaysInside
  fault _ := False
  timeout := False

/-- From a cursor inside the file, a program computes the given value and lexer. -/
def Computes {α : Type} (m : Scan α) (l : Lexer) (r : α × Lexer) : Prop :=
  l.cursor ≤ l.content.length → (m.run l).Meets inside fun a l' =>
    (a, l') = r ∧ l'.cursor ≤ l'.content.length

variable {α β : Type} {l l' : Lexer} {f : Fluf}

/-- Returning a value moves nothing. -/
theorem computes_pure (a : α) (l : Lexer) : Computes (pure a) l (a, l) :=
  fun hl => Prog.meets_pure ⟨rfl, hl⟩

/-- Neither does looking at the lexer. -/
theorem computes_read (g : Lexer → α) (l : Lexer) : Computes (Prog.read g) l (g l, l) :=
  fun hl => Prog.meets_read ⟨rfl, hl⟩

/-- Two programs in a row compute one after the other. -/
theorem Computes.bind {m : Scan α} {k : α → Scan β} {a : α} {r : β × Lexer}
    (hm : Computes m l (a, l')) (hk : Computes (k a) l' r) : Computes (m >>= k) l r := by
  intro hl
  refine Prog.meets_bind (hm hl) ?_
  rintro a' l'' ⟨hr, hl''⟩
  obtain ⟨rfl, rfl⟩ := Prod.mk.inj hr
  exact hk hl''

/-- A choice computes what its branch does. -/
theorem Computes.ite {c : Prop} [Decidable c] {m m' : Scan α} {r r' : α × Lexer}
    (h : c → Computes m l r) (h' : ¬ c → Computes m' l r') :
    Computes (if c then m else m') l (if c then r else r') := by
  by_cases hc : c
  · simpa only [if_pos hc] using h hc
  · simpa only [if_neg hc] using h' hc

/-- A byte inside the file is read. -/
theorem computes_readByte {offset : Nat} (h : offset < l.content.length) :
    Computes (readByte offset) l (l.content.getD offset 0, l) := by
  intro hl
  refine Prog.meets_mark_bind ⟨?_, rfl, hl⟩ (Prog.meets_read ⟨rfl, hl⟩)
  intro start stop hread
  cases hread
  exact h

/-- {lit}`peek` shows the next character, or zero. -/
theorem computes_peek (l : Lexer) : Computes peek l (l.peek, l) := by
  refine (computes_read id l).bind ?_
  dsimp only [id]
  by_cases hend : l.content.length ≤ l.cursor
  · rw [if_pos hend, Lexer.peek, List.getD_eq_default _ _ hend]
    exact computes_pure 0 l
  · rw [if_neg hend]
    exact computes_readByte (by omega)

/-- {lit}`peek_next` shows the character behind it, or zero. -/
theorem computes_peekNext (l : Lexer) : Computes peekNext l (l.peekNext, l) := by
  refine (computes_read id l).bind ?_
  dsimp only [id]
  by_cases hend : l.content.length ≤ l.cursor + 1
  · rw [if_pos hend, Lexer.peekNext, List.getD_eq_default _ _ hend]
    exact computes_pure 0 l
  · rw [if_neg hend]
    exact computes_readByte (by omega)

/-! ## Tests of characters -/

/-- A program that tests the current character, and moves nothing. -/
def Tests (cond : Scan Bool) (test : UInt8 → Bool) : Prop :=
  ∀ l, Computes cond l (test l.peek, l)

/-- One test. -/
theorem tests_peekIs (test : UInt8 → Bool) : Tests (peekIs test) test :=
  fun l => (computes_peek l).bind (computes_pure _ l)

/-- The second test is made where the first fails. -/
theorem tests_peekOr (test test' : UInt8 → Bool) :
    Tests (peekOr test test') fun c => test c || test' c := by
  intro l
  dsimp only
  refine (computes_peek l).bind ?_
  cases hfirst : test l.peek with
  | true => exact computes_pure true l
  | false => exact (computes_peek l).bind (computes_pure _ l)

/-- The second test is made where the first holds. -/
theorem tests_peekAnd (test test' : UInt8 → Bool) :
    Tests (peekAnd test test') fun c => test c && test' c := by
  intro l
  dsimp only
  refine (computes_peek l).bind ?_
  cases hfirst : test l.peek with
  | true => exact (computes_peek l).bind (computes_pure _ l)
  | false => exact computes_pure false l

/-- Whether the next two characters close a comment. -/
theorem computes_closesComment (l : Lexer) :
    Computes closesComment l (l.peek == byte '*' && l.peekNext == byte '/', l) := by
  refine (computes_peek l).bind ?_
  cases hstar : l.peek == byte '*' with
  | true => exact (computes_peekNext l).bind (computes_pure _ l)
  | false => exact computes_pure false l

/-- Whether the next two characters begin a hexadecimal literal. -/
theorem computes_beginsHex (l : Lexer) : Computes beginsHex l
    (l.peek == byte '0' && (l.peekNext == byte 'x' || l.peekNext == byte 'X'), l) := by
  refine (computes_peek l).bind ?_
  cases hzero : l.peek == byte '0' with
  | false => exact computes_pure false l
  | true =>
      refine (computes_peekNext l).bind ?_
      cases hlower : l.peekNext == byte 'x' with
      | true => exact computes_pure true l
      | false => exact (computes_peekNext l).bind (computes_pure _ l)

/-- The cursor may be moved to any place inside the file. -/
theorem computes_move {g : Lexer → Lexer} (hcontent : (g l).content = l.content)
    (hcursor : (g l).cursor ≤ l.content.length) :
    Computes (Prog.step .move g) l ((), g l) := by
  intro _
  refine Prog.meets_step ⟨?_, hcontent, hcursor⟩ ⟨rfl, ?_⟩
  · intro start stop hread
    cases hread
  · rw [hcontent]
    exact hcursor

/-- Before the end of the file a move is a move by one. -/
theorem advance_inside (h : l.cursor < l.content.length) :
    l.advance = { l with cursor := l.cursor + 1 } := by
  rw [Lexer.advance, if_neg (by omega)]

/-- Before the end of the file the cursor may be moved. -/
theorem computes_bump (h : l.cursor < l.content.length) :
    Computes bump l ((), l.advance) := by
  rw [advance_inside h]
  exact computes_move rfl h

/-- A character that was taken can be put back. -/
theorem computes_back (h : l.cursor < l.content.length) :
    Computes back l.advance ((), l) := by
  rw [advance_inside h]
  exact computes_move rfl (Nat.le_of_lt h)

/-- {lit}`advance` returns the next character and moves over it. -/
theorem computes_advance (l : Lexer) : Computes advance l (l.peek, l.advance) := by
  refine (computes_read id l).bind ?_
  dsimp only [id]
  by_cases hend : l.content.length ≤ l.cursor
  · rw [if_pos hend, Lexer.peek, List.getD_eq_default _ _ hend, Lexer.advance, if_pos hend]
    exact computes_pure 0 l
  · rw [if_neg hend]
    have hlt : l.cursor < l.content.length := by omega
    exact (computes_readByte hlt).bind ((computes_bump hlt).bind (computes_pure _ _))

/-- A character that matches is no end of input, so the cursor is moved inside the
file. -/
theorem computes_matchChar {c : UInt8} (hc : c ≠ 0) (l : Lexer) :
    Computes (matchChar c) l (if l.peek == c then (true, l.advance) else (false, l)) := by
  refine (computes_peek l).bind (Computes.ite ?_ ?_)
  · intro hpeek
    have hne : l.peek ≠ 0 := by
      rw [beq_iff_eq.mp hpeek]
      exact hc
    exact (computes_bump (Lexer.lt_of_peek hne)).bind (computes_pure true _)
  · intro _
    exact computes_pure false l

/-- A choice by the next character. -/
theorem computes_ifMatch {c : UInt8} (hc : c ≠ 0) {m m' : Scan α} {a a' : α}
    (h : Computes m l.advance (a, l.advance)) (h' : Computes m' l (a', l)) :
    Computes (do if ← matchChar c then m else m') l
      (if l.peek == c then (a, l.advance) else (a', l)) := by
  have hmatch := computes_matchChar hc l
  by_cases hpeek : (l.peek == c) = true
  · rw [if_pos hpeek] at hmatch
    rw [if_pos hpeek]
    exact hmatch.bind h
  · rw [if_neg hpeek] at hmatch
    rw [if_neg hpeek]
    exact hmatch.bind h'

/-- The text of a token is copied from inside the file. -/
theorem computes_lexeme (start : Nat) (l : Lexer) :
    Computes (lexeme start) l (l.lexeme start, l) := by
  refine (computes_read id l).bind ?_
  intro hl
  refine Prog.meets_mark_bind ⟨?_, rfl, hl⟩ (Prog.meets_pure ⟨rfl, hl⟩)
  intro first stop hread
  cases hread
  exact hl

/-! ## Loops -/

/-- With the rounds {lit}`g` a loop comes to {lit}`r`: to what the next round comes to, or to what
the round leaves. -/
def ComesTo (g : β → Lexer → Iter β α × Lexer) (r : β → Lexer → α × Lexer) : Prop :=
  ∀ b l, r b l = match g b l with
    | (.again b', l') => r b' l'
    | (.leave a, l') => (a, l')

/-- A loop whose rounds are known: each one that is repeated moves the cursor, so the count is not
used up. -/
theorem computes_loop {body : β → Scan (Iter β α)} {g : β → Lexer → Iter β α × Lexer}
    {r : β → Lexer → α × Lexer} (hbody : ∀ b l, Computes (body b) l (g b l))
    (hmoves : ∀ b l b', (g b l).1 = .again b' → (g b l).2.left < l.left)
    (hresult : ComesTo g r) {n : Nat} (hn : l.left < n) (b : β) :
    Computes (loop body n b) l (r b l) := by
  induction n generalizing b l with
  | zero => omega
  | succ n ih =>
      have hround := hbody b l
      have hless := hmoves b l
      rw [hresult b l]
      rcases hnext : g b l with ⟨i, l'⟩
      rw [hnext] at hround hless
      cases i with
      | again b' =>
          have hl' : l'.left < l.left := hless b' rfl
          exact Computes.bind hround (ih (by omega) b')
      | leave a => exact Computes.bind hround (computes_pure a l')

/-- What one round over the characters of a class does. -/
def advanceNext (test : UInt8 → Bool) (_ : Unit) (l : Lexer) : Iter Unit Unit × Lexer :=
  if test l.peek then (.again (), l.advance) else (.leave (), l)

/-- One round does what {lit}`advanceNext` says. -/
theorem computes_advanceNext {cond : Scan Bool} {test : UInt8 → Bool} (hcond : Tests cond test)
    (u : Unit) (l : Lexer) : Computes (advanceWhileIter cond u) l (advanceNext test u l) := by
  refine (hcond l).bind (Computes.ite (fun _ => ?_) fun _ => computes_pure _ l)
  exact (computes_advance l).bind (computes_pure _ _)

/-- A round that is repeated has moved over a character of the class. -/
theorem advanceNext_moves {test : UInt8 → Bool} (htest : test 0 = false) (u : Unit) (l : Lexer)
    (u' : Unit) (h : (advanceNext test u l).1 = .again u') :
    (advanceNext test u l).2.left < l.left := by
  unfold advanceNext at h ⊢
  by_cases hpeek : test l.peek = true
  · rw [if_pos hpeek]
    refine Lexer.left_advance (Lexer.lt_of_peek fun hzero => ?_)
    rw [hzero, htest] at hpeek
    cases hpeek
  · rw [if_neg hpeek] at h
    cases h

/-- The functional loop goes round by round as well. -/
theorem advanceWhile_next {test : UInt8 → Bool} (htest : test 0 = false) :
    ComesTo (advanceNext test) fun _ l => ((), l.advanceWhile test) := by
  intro u l
  dsimp only
  have hunfold : l.advanceWhile test =
      if test l.peek then l.advance.advanceWhile test else l := by
    rw [← Lexer.loopsEnd.advanceWhile test l (l.left + 1) htest (by omega),
      Lexer.advanceWhileLoop]
    rw [Lexer.loopsEnd.advanceWhile test l.advance l.left htest
      (Lexer.reaches_advance l).left]
  unfold advanceNext
  by_cases hpeek : test l.peek = true
  · rw [hunfold, if_pos hpeek, if_pos hpeek]
  · rw [hunfold, if_neg hpeek, if_neg hpeek]

/-- The loop moves over the longest run of characters that pass the test. -/
theorem computes_advanceWhile {cond : Scan Bool} {test : UInt8 → Bool} (hcond : Tests cond test)
    (htest : test 0 = false) (l : Lexer) :
    Computes (advanceWhile cond) l ((), l.advanceWhile test) :=
  (computes_read id l).bind (computes_loop (computes_advanceNext hcond) (advanceNext_moves htest)
    (advanceWhile_next htest) (Nat.lt_succ_self _) ())

/-- The rest of a line. -/
theorem tests_lineComment : Tests (peekAnd (· != byte '\n') (· != 0)) fun c =>
    c != byte '\n' && c != 0 :=
  tests_peekAnd _ _

/-- The characters of a name. -/
theorem tests_word (f : Fluf) : Tests (peekOr f.charIsAlphanum (· == byte '_')) fun c =>
    f.charIsAlphanum c || c == byte '_' :=
  tests_peekOr _ _

/-! ## Block comments -/

/-- What one round in a block comment does. -/
def blockCommentNext (_ : Unit) (l : Lexer) : Iter Unit Bool × Lexer :=
  if l.peek == 0 then (.leave false, l)
  else if l.peek == byte '*' && l.peekNext == byte '/' then (.leave true, l.advance.advance)
  else (.again (), l.advance)

/-- One round does what {lit}`blockCommentNext` says. -/
theorem computes_blockCommentNext (u : Unit) (l : Lexer) :
    Computes (blockCommentIter u) l (blockCommentNext u l) := by
  refine (computes_peek l).bind (Computes.ite (fun _ => computes_pure _ l) fun _ => ?_)
  refine (computes_closesComment l).bind (Computes.ite (fun _ => ?_) fun _ => ?_)
  · exact (computes_advance l).bind ((computes_advance _).bind (computes_pure _ _))
  · exact (computes_advance l).bind (computes_pure _ _)

/-- A round that is repeated has moved over a character of the comment. -/
theorem blockCommentNext_moves (u : Unit) (l : Lexer) (u' : Unit)
    (h : (blockCommentNext u l).1 = .again u') : (blockCommentNext u l).2.left < l.left := by
  unfold blockCommentNext at h ⊢
  by_cases hzero : (l.peek == 0) = true
  · rw [if_pos hzero] at h
    cases h
  rw [if_neg hzero] at h ⊢
  by_cases hclose : (l.peek == byte '*' && l.peekNext == byte '/') = true
  · rw [if_pos hclose] at h
    cases h
  · rw [if_neg hclose]
    exact Lexer.left_advance (Lexer.lt_of_peek (by simpa using hzero))

/-- The functional loop goes round by round as well. -/
theorem blockCommentLoop_next : ComesTo blockCommentNext fun _ l =>
    ((Lexer.blockCommentLoop (l.left + 1) l).2, (Lexer.blockCommentLoop (l.left + 1) l).1) := by
  intro u l
  dsimp only
  have hmoves := blockCommentNext_moves u l ()
  rw [Lexer.blockCommentLoop]
  unfold blockCommentNext at hmoves ⊢
  by_cases hzero : (l.peek == 0) = true
  · rw [if_pos hzero, if_pos hzero]
  rw [if_neg hzero] at hmoves
  rw [if_neg hzero, if_neg hzero]
  by_cases hclose : (l.peek == byte '*' && l.peekNext == byte '/') = true
  · rw [if_pos hclose, if_pos hclose]
  · rw [if_neg hclose] at hmoves
    rw [if_neg hclose, if_neg hclose,
      Lexer.blockCommentLoop_budget (hmoves rfl) (Nat.lt_succ_self _)]

/-- The comment is scanned from where the cursor stands; the loop says whether it was closed. -/
theorem computes_blockComment {n : Nat} (hn : l.left < n) :
    Computes blockComment l
      ((Lexer.blockCommentLoop n l).2, (Lexer.blockCommentLoop n l).1) := by
  rw [Lexer.blockCommentLoop_budget hn (Nat.lt_succ_self _)]
  exact (computes_read id l).bind (computes_loop computes_blockCommentNext blockCommentNext_moves
    blockCommentLoop_next (Nat.lt_succ_self _) ())

/-! ## Rounds of {lit}`skip_whitespace` -/

/-- What one round of {lit}`skip_whitespace` does. -/
def skipNext (_ : Unit) (l : Lexer) : Iter Unit Unit × Lexer :=
  if Lexer.isBlank l.peek then (.again (), l.advance)
  else if l.peek == byte '/' then
    if l.peekNext == byte '/' then (.again (), l.advanceWhile fun c => c != byte '\n' && c != 0)
    else if l.peekNext == byte '*' then
      (if (Lexer.blockCommentLoop (l.left + 1) l.advance.advance).2 then .again () else .leave (),
        (Lexer.blockCommentLoop (l.left + 1) l.advance.advance).1)
    else (.leave (), l)
  else (.leave (), l)

/-- Moving twice leaves no more than there was. -/
theorem left_advance_advance (l : Lexer) : l.advance.advance.left < l.left + 1 := by
  have hleft := ((Lexer.reaches_advance l).trans (Lexer.reaches_advance _)).left
  omega

/-- One round does what {lit}`skipNext` says. -/
theorem computes_skipNext (u : Unit) (l : Lexer) :
    Computes (skipWhitespaceIter u) l (skipNext u l) := by
  refine (computes_peek l).bind (Computes.ite (fun _ => ?_) fun _ => ?_)
  · exact (computes_advance l).bind (computes_pure _ _)
  refine Computes.ite (fun _ => (computes_peekNext l).bind ?_) fun _ => computes_pure _ l
  refine Computes.ite (fun _ => ?_) fun _ => (computes_peekNext l).bind ?_
  · exact (computes_advanceWhile tests_lineComment rfl l).bind (computes_pure _ _)
  refine Computes.ite (fun _ => ?_) fun _ => computes_pure _ l
  · refine (computes_advance l).bind ((computes_advance _).bind ?_)
    refine (computes_blockComment (left_advance_advance l)).bind ?_
    cases (Lexer.blockCommentLoop (l.left + 1) l.advance.advance).2 with
    | true => exact computes_pure _ _
    | false => exact computes_pure _ _

/-- A round that is repeated has moved on: over a blank, over the slash of a line comment, or
over the mark that opens a block comment. -/
theorem skipNext_moves (u : Unit) (l : Lexer) (u' : Unit) (h : (skipNext u l).1 = .again u') :
    (skipNext u l).2.left < l.left := by
  unfold skipNext at h ⊢
  by_cases hblank : Lexer.isBlank l.peek = true
  · rw [if_pos hblank]
    refine Lexer.left_advance (Lexer.lt_of_peek fun hzero => ?_)
    rw [hzero] at hblank
    exact absurd hblank (by decide)
  rw [if_neg hblank] at h ⊢
  by_cases hslash : (l.peek == byte '/') = true
  · have hpeek : l.peek = byte '/' := by simpa using hslash
    have hlt : l.cursor < l.content.length := Lexer.lt_of_peek (by rw [hpeek]; decide)
    have hleft := Lexer.left_advance hlt
    rw [if_pos hslash] at h ⊢
    by_cases hline : (l.peekNext == byte '/') = true
    · have hmove : l.cursor < (l.advanceWhile fun c => c != byte '\n' && c != 0).cursor :=
        Lexer.advanceWhile_progress hlt (by rw [hpeek]; decide)
      rw [if_pos hline]
      dsimp only [Lexer.left]
      rw [(Lexer.reaches_advanceWhile _ l).content]
      omega
    rw [if_neg hline] at h ⊢
    by_cases hstar : (l.peekNext == byte '*') = true
    · rw [if_pos hstar]
      have hcomment := ((Lexer.reaches_advance l.advance).trans
        (Lexer.reaches_blockCommentLoop (l.left + 1) l.advance.advance)).left
      exact Nat.lt_of_le_of_lt hcomment hleft
    · rw [if_neg hstar] at h
      cases h
  · rw [if_neg hslash] at h
    cases h

/-- The functional loop goes round by round as well. -/
theorem skipWhitespace_next : ComesTo skipNext fun _ l => ((), l.skipWhitespace) := by
  intro u l
  dsimp only
  unfold skipNext
  by_cases hblank : Lexer.isBlank l.peek = true
  · rw [if_pos hblank]
    rw [Lexer.skipWhitespace_blank hblank]
  have hnoblank : Lexer.isBlank l.peek = false := by simpa using hblank
  rw [if_neg hblank]
  by_cases hslash : (l.peek == byte '/') = true
  · have hpeek : l.peek = byte '/' := by simpa using hslash
    rw [if_pos hslash]
    by_cases hline : (l.peekNext == byte '/') = true
    · rw [if_pos hline]
      rw [Lexer.skipWhitespace_line hpeek (by simpa using hline)]
    rw [if_neg hline]
    by_cases hstar : (l.peekNext == byte '*') = true
    · have hnext : l.peekNext = byte '*' := by simpa using hstar
      rw [if_pos hstar]
      rcases hout : Lexer.blockCommentLoop (l.left + 1) l.advance.advance with ⟨l', closed⟩
      cases closed with
      | true => rw [Lexer.skipWhitespace_block hpeek hnext hout]; rfl
      | false =>
          have hne : (byte '*' == byte '/') = false := by decide
          simp [Lexer.skipWhitespace, Lexer.skipWhitespaceLoop, hpeek, hnext,
            Lexer.slash_not_blank, hne, hout]
    · rw [if_neg hstar]
      rw [Lexer.skipWhitespace_stop hnoblank fun _ =>
        ⟨by simpa using hline, by simpa using hstar⟩]
  · rw [if_neg hslash]
    rw [Lexer.skipWhitespace_stop hnoblank fun h => absurd h (by simpa using hslash)]

/-- All that is skipped in front of a token. -/
theorem computes_skipWhitespace (l : Lexer) :
    Computes skipWhitespace l ((), l.skipWhitespace) :=
  (computes_read id l).bind (computes_loop computes_skipNext skipNext_moves skipWhitespace_next
    (Nat.lt_succ_self _) ())

/-! ## Scanners -/

/-- None of the character classes holds of a zero byte, which is what the helpers show
at the end of the file. -/
structure ClassesStop (f : Fluf) : Prop where
  digit : f.charIsDigit 0 = false
  hex : f.charIsHex 0 = false
  word : (f.charIsAlphanum 0 || (0 : UInt8) == byte '_') = false

/-- The classes of the character functions stop at the end of the file. -/
theorem classesStop (hf : f.Standard) : ClassesStop f where
  digit := by
    rw [Bool.eq_false_iff, ne_eq, hf.digit]
    decide
  hex := by
    rw [Bool.eq_false_iff, ne_eq, hf.hex]
    decide
  word := by
    have halpha : f.charIsAlpha 0 = false := by
      rw [Bool.eq_false_iff, ne_eq, hf.alpha]
      decide
    have hdigit : f.charIsDigit 0 = false := by
      rw [Bool.eq_false_iff, ne_eq, hf.digit]
      decide
    rw [hf.alphanum, halpha, hdigit]
    decide

/-- A name or a keyword. -/
theorem computes_scanIdentifier (hf : f.Standard) (l : Lexer) :
    Computes (scanIdentifier f) l (Lexer.scanIdentifier f l) := by
  refine (computes_read _ l).bind ?_
  refine (computes_advanceWhile (tests_word f) (classesStop hf).word l).bind ?_
  refine (computes_read _ _).bind ((computes_lexeme _ _).bind ?_)
  unfold Lexer.scanIdentifier
  dsimp only
  cases (Lexer.kwMap f).lookup _ with
  | some kind => exact computes_pure _ _
  | none => exact computes_pure _ _

/-- The token of a number, from its text. -/
theorem computes_numberToken (l : Lexer) (start : Nat) (isFraction isFloat32 : Bool) :
    Computes (numberToken f start isFraction isFloat32) l
      (Lexer.numberToken f l start isFraction isFloat32, l) := by
  refine (computes_read id l).bind ?_
  unfold Lexer.numberToken
  dsimp only [id]
  by_cases hlong : 128 ≤ l.cursor - start
  · rw [if_pos hlong, if_pos hlong]
    exact computes_read _ l
  · rw [if_neg hlong, if_neg hlong]
    refine (computes_lexeme start l).bind ?_
    cases isFraction with
    | true =>
        cases isFloat32 with
        | true => exact computes_pure _ l
        | false => exact computes_pure _ l
    | false => exact computes_pure _ l

/-- A hexadecimal literal. -/
theorem computes_scanHex (hf : f.Standard) (l : Lexer) :
    Computes (scanHex f l.cursor) l (Lexer.scanHex f l) := by
  refine (computes_advance l).bind ((computes_advance _).bind ((computes_peek _).bind ?_))
  refine Computes.ite ?_ ?_
  · intro _
    exact (computes_advanceWhile (tests_peekIs _) (classesStop hf).hex _).bind
      (computes_numberToken _ _ _ _)
  · intro _
    exact computes_read _ _

/-- A fraction, and whether there is one. -/
theorem computes_scanFraction (hf : f.Standard) (l : Lexer) :
    Computes (scanFraction f) l (Lexer.scanFraction f l) := by
  refine (computes_peek l).bind (Computes.ite ?_ ?_)
  · intro _
    exact (computes_advance l).bind
      ((computes_advanceWhile (tests_peekIs _) (classesStop hf).digit _).bind (computes_pure _ _))
  · intro _
    exact computes_pure _ _

/-- The sign of an exponent. -/
theorem computes_scanSign (l : Lexer) : Computes scanSign l ((), l.scanSign) := by
  refine (tests_peekOr _ _ l).bind ?_
  unfold Lexer.scanSign
  by_cases hsign : (l.peek == byte '+' || l.peek == byte '-') = true
  · rw [if_pos hsign, if_pos hsign]
    exact (computes_advance l).bind (computes_pure _ _)
  · rw [if_neg hsign, if_neg hsign]
    exact computes_pure _ _

/-- A suffix, and the token in front of it. -/
theorem computes_scanSuffix (l : Lexer) (start : Nat) (isFraction : Bool) :
    Computes (scanSuffix f start isFraction) l (Lexer.scanSuffix f l start isFraction) := by
  refine (tests_peekOr _ _ l).bind (Computes.ite ?_ ?_)
  · intro _
    cases isFraction with
    | true => exact (computes_advance l).bind (computes_numberToken _ _ _ _)
    | false => exact computes_read _ _
  · intro _
    exact computes_numberToken _ _ _ _

/-- Both flags of the source only ever count as one: a fraction or an exponent makes a
floating literal. -/
theorem computes_scanDecimal (hf : f.Standard) (l : Lexer) :
    Computes (scanDecimal f l.cursor) l (Lexer.scanDecimal f l) := by
  refine (computes_advanceWhile (tests_peekIs _) (classesStop hf).digit l).bind ?_
  unfold Lexer.scanDecimal
  have hfraction := computes_scanFraction hf (l.advanceWhile f.charIsDigit)
  generalize Lexer.scanFraction f (l.advanceWhile f.charIsDigit) = fraction at hfraction ⊢
  rcases fraction with ⟨hasDot, l₁⟩
  refine hfraction.bind ?_
  dsimp only
  unfold Lexer.scanExponent
  by_cases he : (l₁.peek == byte 'e' || l₁.peek == byte 'E') = true
  · by_cases hd : f.charIsDigit l₁.advance.scanSign.peek = true
    · have hexponent : Computes (scanExponent f) l₁
          (some true, l₁.advance.scanSign.advanceWhile f.charIsDigit) := by
        refine (tests_peekOr _ _ l₁).bind ?_
        rw [if_pos he]
        refine (computes_advance l₁).bind ((computes_scanSign _).bind ((computes_peek _).bind ?_))
        rw [if_pos hd]
        exact (computes_advanceWhile (tests_peekIs _) (classesStop hf).digit _).bind
          (computes_pure _ _)
      rw [if_pos he, if_pos hd]
      refine hexponent.bind ?_
      dsimp only
      rw [Bool.or_true]
      exact computes_scanSuffix _ _ _
    · have hexponent : Computes (scanExponent f) l₁ (none, l₁.advance.scanSign) := by
        refine (tests_peekOr _ _ l₁).bind ?_
        rw [if_pos he]
        refine (computes_advance l₁).bind ((computes_scanSign _).bind ((computes_peek _).bind ?_))
        rw [if_neg hd]
        exact computes_pure _ _
      rw [if_pos he, if_neg hd]
      exact hexponent.bind (computes_read _ _)
  · have hexponent : Computes (scanExponent f) l₁ (some false, l₁) := by
      refine (tests_peekOr _ _ l₁).bind ?_
      rw [if_neg he]
      exact computes_pure _ _
    rw [if_neg he]
    refine hexponent.bind ?_
    dsimp only
    rw [Bool.or_false]
    exact computes_scanSuffix _ _ _

/-- A number, of either kind. -/
theorem computes_scanNumber (hf : f.Standard) (l : Lexer) :
    Computes (scanNumber f) l (Lexer.scanNumber f l) := by
  refine (computes_read _ l).bind ((computes_beginsHex l).bind ?_)
  exact Computes.ite (fun _ => computes_scanHex hf l) fun _ => computes_scanDecimal hf l

/-! ## Tokens -/

/-- A punctuator behind its first character. -/
theorem computes_scanPunctuator (c : UInt8) (start : Nat) (l : Lexer) :
    Computes (scanPunctuator c start) l (Lexer.scanPunctuator l c start) := by
  have hequal : byte '=' ≠ 0 := by decide
  unfold scanPunctuator Lexer.scanPunctuator
  cases Lexer.singleKind c with
  | some kind => exact computes_read _ l
  | none =>
      cases Lexer.withEqual c with
      | some kinds => exact computes_ifMatch hequal (computes_read _ _) (computes_read _ l)
      | none =>
          cases hdoubled : Lexer.doubled c with
          | some entry =>
              have hc : c ≠ 0 := by
                intro hzero
                have hnone : Lexer.doubled 0 = none := by decide
                rw [hzero, hnone] at hdoubled
                cases hdoubled
              exact computes_ifMatch hc (computes_read _ _) (computes_read _ l)
          | none => exact computes_read _ l

/-- The program of {lit}`lexer_next` computes the token and the cursor of its functional
form. -/
theorem refines_lexerNext (hf : f.Standard) (l : Lexer) :
    Computes (lexerNext f) l (Lexer.lexerNext f l) := by
  refine (computes_skipWhitespace l).bind ?_
  refine (computes_read _ _).bind ((computes_read id _).bind ?_)
  unfold Lexer.lexerNext
  dsimp only [id]
  generalize l.skipWhitespace = l
  by_cases hend : l.content.length ≤ l.cursor
  · rw [if_pos hend, if_pos hend]
    exact computes_read _ l
  · rw [if_neg hend, if_neg hend]
    have hlt : l.cursor < l.content.length := by omega
    refine (computes_advance l).bind (Computes.ite ?_ ?_)
    · intro _
      exact (computes_back hlt).bind (computes_scanIdentifier hf l)
    · intro _
      refine Computes.ite ?_ ?_
      · intro _
        exact (computes_back hlt).bind (computes_scanNumber hf l)
      · intro _
        refine Computes.ite ?_ ?_
        · intro _
          refine (computes_peek _).bind (Computes.ite ?_ ?_)
          · intro _
            exact (computes_back hlt).bind (computes_scanNumber hf l)
          · intro _
            exact computes_read _ _
        · intro _
          exact computes_scanPunctuator _ _ _

end Machine

end Cact
