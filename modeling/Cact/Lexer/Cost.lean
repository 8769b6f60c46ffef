import Cact.Library.Amortized
import Cact.Lexer.Machine

/-!
# What the lexer costs

The bytes the lexer reads and the moves of its cursor.  A byte may be read several times: by the
test that looks at it, by the move over it, and once more when the text of a token is copied.
The cursor is put back by one byte at most, before a scanner starts, so a call costs in
proportion to the bytes it takes.

Main results:

- Theorem {lit}`Machine.cost_lexerNext`: what one call of {lit}`lexer_next` costs.
- Theorem {lit}`Machine.cost_lexerCalls`: what all calls on a file cost, any number of calls at
  its end included.
-/

open Traced

namespace Cact

/-- The bytes a step reads; a move of the cursor counts as one. -/
def Touch.price : Touch → Nat
  | .read start stop => stop - start
  | .move => 1

namespace Machine

/-- A byte of the file pays for a number of steps, and 9 of these are put aside. -/
def tariff (rate : Nat) : Tariff Lexer Touch where
  price := Touch.price
  size := Lexer.left
  Valid l := l.cursor ≤ l.content.length
  rate := rate
  reserve := 9

/-- From a cursor inside the file, a program costs at most {lit}`k` steps unless it moves on, and
the bytes it moves over pay for the others. -/
def Costs {α : Type} (rate k : Nat) (m : Scan α) (l : Lexer) : Prop :=
  l.cursor ≤ l.content.length → (tariff rate).Affords k l (m.run l)

variable {α β : Type} {rate k k' : Nat} {l l' : Lexer} {f : Fluf} {m : Scan α}

/-! ## Rules -/

/-- A program ends as it computes. -/
theorem Computes.outcome {r : α × Lexer} (h : Computes m l r) (hl : l.cursor ≤ l.content.length) :
    (m.run l).outcome = .done r.1 r.2 := by
  rcases h hl with ⟨_, _, hfalse⟩ | ⟨_, hend⟩
  · exact hfalse.elim
  · cases hout : (m.run l).outcome with
    | done a l' =>
        rw [hout] at hend
        rw [← hend.1]
    | fault l' =>
        rw [hout] at hend
        exact hend.elim
    | timeout =>
        rw [hout] at hend
        exact hend.elim

/-- More credit does no harm. -/
theorem Costs.mono (h : Costs rate k m l) (hk : k ≤ k') : Costs rate k' m l :=
  fun hl => (h hl).mono hk

/-- Returning a value reads nothing. -/
theorem costs_pure (a : α) (l : Lexer) : Costs rate k (pure a) l :=
  fun hl => Tariff.affords_pure a hl

/-- Neither does looking at the cursor. -/
theorem costs_read (g : Lexer → α) (l : Lexer) : Costs rate k (Prog.read g) l :=
  fun hl => Tariff.affords_read g hl

/-- What the first part leaves of the credit is left for the second. -/
theorem Costs.bind {g : α → Scan β} {r : α × Lexer} (hm : Costs rate k m l)
    (hc : Computes m l r) (hk : k ≤ k') (hg : Costs rate (k' - k) (g r.1) r.2) :
    Costs rate k' (m >>= g) l := by
  intro hl
  refine Tariff.affords_bind hk (hm hl) fun a l' hout hl' => ?_
  rw [hc.outcome hl] at hout
  cases hout
  exact hg hl'

theorem Costs.read_bind {g : Lexer → α} {h : α → Scan β} (hh : Costs rate k (h (g l)) l) :
    Costs rate k (Prog.read g >>= h) l :=
  hh

/-- Both branches of a choice may cost what the choice may. -/
theorem Costs.ite {c : Prop} [Decidable c] {m' : Scan α} (h : c → Costs rate k m l)
    (h' : ¬ c → Costs rate k m' l) : Costs rate k (if c then m else m') l := by
  by_cases hc : c
  · simpa only [if_pos hc] using h hc
  · simpa only [if_neg hc] using h' hc

/-! ## Helpers -/

/-- A byte costs one. -/
theorem costs_readByte (offset : Nat) (l : Lexer) : Costs rate 1 (readByte offset) l := by
  intro hl
  refine ⟨hl, Or.inl ⟨rfl, ?_⟩⟩
  show Touch.price (.read offset (offset + 1)) + 0 ≤ 1
  simp [Touch.price]

/-- The next character costs at most one. -/
theorem costs_peek (l : Lexer) : Costs rate 1 peek l :=
  Costs.read_bind (Costs.ite (fun _ => costs_pure _ l) fun _ => costs_readByte _ l)

/-- So does the one behind it. -/
theorem costs_peekNext (l : Lexer) : Costs rate 1 peekNext l :=
  Costs.read_bind (Costs.ite (fun _ => costs_pure _ l) fun _ => costs_readByte _ l)

/-- A look at the next character. -/
theorem costs_peek_bind {g : UInt8 → Scan β} (hk : 1 ≤ k) (hg : Costs rate (k - 1) (g l.peek) l) :
    Costs rate k (peek >>= g) l :=
  (costs_peek l).bind (computes_peek l) hk hg

/-- A look at the character behind the next one. -/
theorem costs_peekNext_bind {g : UInt8 → Scan β} (hk : 1 ≤ k)
    (hg : Costs rate (k - 1) (g l.peekNext) l) : Costs rate k (peekNext >>= g) l :=
  (costs_peekNext l).bind (computes_peekNext l) hk hg

/-- A test looks once. -/
theorem costs_peekIs (test : UInt8 → Bool) (l : Lexer) : Costs rate 1 (peekIs test) l :=
  costs_peek_bind (le_refl 1) (costs_pure _ l)

/-- A choice between two tests looks twice at most. -/
theorem costs_peekOr (test test' : UInt8 → Bool) (l : Lexer) : Costs rate 2 (peekOr test test') l :=
  costs_peek_bind (by decide) (Costs.ite (fun _ => costs_pure _ l) fun _ =>
    costs_peek_bind (le_refl 1) (costs_pure _ l))

/-- So do two tests together. -/
theorem costs_peekAnd (test test' : UInt8 → Bool) (l : Lexer) :
    Costs rate 2 (peekAnd test test') l :=
  costs_peek_bind (by decide) (Costs.ite (fun _ =>
    costs_peek_bind (le_refl 1) (costs_pure _ l)) fun _ => costs_pure _ l)

/-- A choice between two characters. -/
theorem costs_peekOr_bind {test test' : UInt8 → Bool} {g : Bool → Scan β} (hk : 2 ≤ k)
    (hg : Costs rate (k - 2) (g (test l.peek || test' l.peek)) l) :
    Costs rate k (peekOr test test' >>= g) l :=
  (costs_peekOr test test' l).bind (tests_peekOr test test' l) hk hg

/-- The end of a comment is two characters. -/
theorem costs_closesComment (l : Lexer) : Costs rate 2 closesComment l :=
  costs_peek_bind (by decide) (Costs.ite (fun _ =>
    costs_peekNext_bind (le_refl 1) (costs_pure _ l)) fun _ => costs_pure _ l)

/-- The mark of a hexadecimal literal is looked at twice. -/
theorem costs_beginsHex (l : Lexer) : Costs rate 3 beginsHex l := by
  refine costs_peek_bind (by decide) (Costs.ite (fun _ => ?_) fun _ => costs_pure _ l)
  exact costs_peekNext_bind (by decide) (Costs.ite (fun _ => costs_pure _ l) fun _ =>
    costs_peekNext_bind (le_refl 1) (costs_pure _ l))

/-- What {lit}`advance` does before the end of the file. -/
theorem advance_run (h : l.cursor < l.content.length) :
    (advance.run l).outcome = .done l.peek l.advance ∧
      (tariff rate).cost (advance.run l).steps = 2 := by
  have hrun : advance.run l = (do
      let c ← readByte l.cursor
      bump
      return c : Scan UInt8).run l := by
    unfold advance
    rw [Prog.run_read_bind, if_neg (by simp only [id]; omega)]
    rfl
  constructor
  · exact (computes_advance l).outcome (Nat.le_of_lt h)
  · rw [hrun]
    show Touch.price (.read l.cursor (l.cursor + 1)) + (Touch.price .move + 0) = 2
    simp [Touch.price]

/-- A move over a byte reads it and costs one more. -/
theorem consumes_advance (h : l.cursor < l.content.length) :
    (tariff rate).Consumes 1 l (advance.run l) := by
  obtain ⟨hout, hcost⟩ : (advance.run l).outcome = .done l.peek l.advance ∧
      (tariff rate).cost (advance.run l).steps = 2 := advance_run h
  have hleft : l.advance.left + 1 = l.left := by
    unfold Lexer.left
    rw [(Lexer.reaches_advance l).content, Lexer.advance_cursor h]
    omega
  refine ⟨l.peek, l.advance, hout, ?_, ?_, ?_⟩
  · show l.advance.cursor ≤ l.advance.content.length
    rw [(Lexer.reaches_advance l).content, Lexer.advance_cursor h]
    omega
  · show l.advance.left < l.left
    omega
  · rw [hcost]
    show 2 + l.advance.left ≤ l.left + 1
    omega

/-- Moving over a byte is paid for by the byte. -/
theorem costs_advance (hrate : 11 ≤ rate) (l : Lexer) : Costs rate 0 advance l := by
  intro hl
  by_cases hend : l.content.length ≤ l.cursor
  · have hrun : advance.run l = (pure 0 : Scan UInt8).run l := by
      unfold advance
      rw [Prog.run_read_bind, if_pos (by simpa only [id] using hend)]
    rw [hrun]
    exact Tariff.affords_pure 0 hl
  · exact (consumes_advance (by omega)).affords hrate

/-- What comes behind a move keeps its credit. -/
theorem costs_advance_bind (hrate : 11 ≤ rate) {g : UInt8 → Scan β}
    (hg : Costs rate k (g l.peek) l.advance) : Costs rate k (advance >>= g) l :=
  (costs_advance hrate l).bind (computes_advance l) (Nat.zero_le k) hg

/-! ## Loops -/

/-- A loop whose iterations are known: each one that goes round again moves on. -/
theorem costs_loop {γ : Type} {body : β → Scan (Iter β γ)} (next : β → Lexer → Iter β γ × Lexer)
    (hk : k ≤ 9) (hbody : ∀ b l, Costs rate k (body b) l)
    (hnext : ∀ b l, Computes (body b) l (next b l))
    (hmove : ∀ b l b', (next b l).1 = .again b' → (next b l).2.left < l.left) (n : Nat) (b : β)
    (l : Lexer) : Costs rate (2 * k) (loop body n b) l := by
  refine Tariff.affords_loop hk (fun b l hl => hbody b l hl) (fun b l b' l' hl hout => ?_) n b
  rw [(hnext b l).outcome hl] at hout
  injection hout with hagain hl'
  rw [← hl']
  exact hmove b l b' hagain

/-- A loop over the characters of a class, whose test costs {lit}`k`. -/
theorem costs_advanceWhile (hrate : 11 ≤ rate) {cond : Scan Bool} {test : UInt8 → Bool}
    (hcond : Tests cond test) (hcost : ∀ l, Costs rate k cond l) (hk : k ≤ 9)
    (htest : test 0 = false) (l : Lexer) : Costs rate (2 * k) (advanceWhile cond) l := by
  refine Costs.read_bind (costs_loop (advanceNext test) hk (fun _ l => ?_)
    (computes_advanceNext hcond) (advanceNext_moves htest) _ () l)
  refine (hcost l).bind (hcond l) (le_refl k) (Costs.ite (fun _ => ?_) fun _ => costs_pure _ l)
  exact costs_advance_bind hrate (costs_pure _ _)

/-- A class with one test. -/
theorem costs_advanceWhile_peekIs (hrate : 11 ≤ rate) {test : UInt8 → Bool}
    (htest : test 0 = false) (l : Lexer) : Costs rate 2 (advanceWhile (peekIs test)) l :=
  costs_advanceWhile hrate (tests_peekIs test) (costs_peekIs test) (by decide) htest l

/-- A line comment. -/
theorem costs_lineComment (hrate : 11 ≤ rate) (l : Lexer) :
    Costs rate 4 (advanceWhile (peekAnd (· != byte '\n') (· != 0))) l :=
  costs_advanceWhile hrate tests_lineComment (costs_peekAnd _ _) (by decide) rfl l

/-- A block comment, behind the mark that opens it. -/
theorem costs_blockComment (hrate : 11 ≤ rate) (l : Lexer) : Costs rate 6 blockComment l := by
  refine Costs.read_bind (costs_loop (k := 3) blockCommentNext (by decide) (fun _ l => ?_)
    computes_blockCommentNext blockCommentNext_moves _ () l)
  refine costs_peek_bind (by decide) (Costs.ite (fun _ => costs_pure _ l) fun _ => ?_)
  refine (costs_closesComment l).bind (computes_closesComment l) (by decide) ?_
  refine Costs.ite (fun _ => ?_) fun _ => ?_
  · exact costs_advance_bind hrate (costs_advance_bind hrate (costs_pure _ _))
  · exact costs_advance_bind hrate (costs_pure _ _)

/-- All that is skipped in front of a token. -/
theorem costs_skipWhitespace (hrate : 11 ≤ rate) (l : Lexer) : Costs rate 18 skipWhitespace l := by
  refine Costs.read_bind (costs_loop (k := 9) skipNext (le_refl 9) (fun u l => ?_)
    computes_skipNext skipNext_moves _ () l)
  refine costs_peek_bind (by decide) (Costs.ite (fun _ => ?_) fun _ => ?_)
  · exact costs_advance_bind hrate (costs_pure _ _)
  refine Costs.ite (fun _ => costs_peekNext_bind (by decide) ?_) fun _ => costs_pure _ l
  refine Costs.ite (fun _ => ?_) fun _ => costs_peekNext_bind (by decide) ?_
  · exact (costs_lineComment hrate l).bind (computes_advanceWhile tests_lineComment rfl l)
      (by decide) (costs_pure _ _)
  refine Costs.ite (fun _ => ?_) fun _ => costs_pure _ l
  · refine costs_advance_bind hrate (costs_advance_bind hrate ?_)
    refine (costs_blockComment hrate _).bind (computes_blockComment (left_advance_advance l))
      (by decide) ?_
    cases (Lexer.blockCommentLoop (l.left + 1) l.advance.advance).2 with
    | true => exact costs_pure _ _
    | false => exact costs_pure _ _

/-! ## Scanners -/

/-- A text is copied if it is shorter than the buffer. -/
theorem costs_numberToken (start : Nat) (isFraction isFloat32 : Bool) (l : Lexer) :
    Costs rate 127 (numberToken f start isFraction isFloat32) l := by
  refine Costs.read_bind (Costs.ite (fun _ => costs_read _ l) fun hshort => ?_)
  have hcopy : Costs rate 127 (lexeme start) l := by
    intro hl
    refine ⟨hl, Or.inl ⟨rfl, ?_⟩⟩
    show Touch.price (.read start l.cursor) + 0 ≤ 127
    simp only [id, Touch.price] at hshort ⊢
    omega
  refine hcopy.bind (computes_lexeme start l) (le_refl 127) (Costs.ite (fun _ => ?_) fun _ => ?_)
  · exact Costs.ite (fun _ => costs_pure _ l) fun _ => costs_pure _ l
  · exact costs_pure _ l

/-- A hexadecimal literal, with the copy of its text. -/
theorem costs_scanHex (hf : f.Standard) (hrate : 11 ≤ rate) (start : Nat) (l : Lexer) :
    Costs rate 130 (scanHex f start) l := by
  have hhex := (classesStop hf).hex
  refine costs_advance_bind hrate (costs_advance_bind hrate (costs_peek_bind (by decide) ?_))
  refine Costs.ite (fun _ => ?_) fun _ => costs_read _ _
  exact (costs_advanceWhile_peekIs hrate hhex _).bind
    (computes_advanceWhile (tests_peekIs _) hhex _) (by decide) (costs_numberToken _ _ _ _)

/-- The point and the digits behind it pay for themselves. -/
theorem costs_scanFraction (hf : f.Standard) (hrate : 11 ≤ rate) (l : Lexer) :
    Costs rate 3 (scanFraction f) l := by
  have hdigit := (classesStop hf).digit
  refine costs_peek_bind (by decide) (Costs.ite (fun _ => ?_) fun _ => costs_pure _ l)
  refine costs_advance_bind hrate ?_
  exact (costs_advanceWhile_peekIs hrate hdigit _).bind
    (computes_advanceWhile (tests_peekIs _) hdigit _) (by decide) (costs_pure _ _)

/-- The sign of an exponent is tested twice. -/
theorem costs_scanSign (hrate : 11 ≤ rate) (l : Lexer) : Costs rate 2 scanSign l := by
  refine costs_peekOr_bind (by decide) (Costs.ite (fun _ => ?_) fun _ => costs_pure _ l)
  exact costs_advance_bind hrate (costs_pure _ _)

/-- What {lit}`scan_number` makes of the exponent, with the flag of the source. -/
def exponentNext (f : Fluf) (l : Lexer) : Option Bool × Lexer :=
  match Lexer.scanExponent f l with
  | .absent => (some false, l)
  | .present l' => (some true, l')
  | .noDigits l' => (none, l')

/-- The exponent, with the flag of the source. -/
theorem computes_scanExponent (hf : f.Standard) (l : Lexer) :
    Computes (scanExponent f) l (exponentNext f l) := by
  have hdigit := (classesStop hf).digit
  unfold exponentNext Lexer.scanExponent
  refine (tests_peekOr _ _ l).bind ?_
  by_cases hmark : (l.peek == byte 'e' || l.peek == byte 'E') = true
  · rw [if_pos hmark, if_pos hmark]
    refine (computes_advance l).bind ((computes_scanSign _).bind ((computes_peek _).bind ?_))
    by_cases hstart : f.charIsDigit l.advance.scanSign.peek = true
    · rw [if_pos hstart, if_pos hstart]
      exact (computes_advanceWhile (tests_peekIs _) hdigit _).bind (computes_pure _ _)
    · rw [if_neg hstart, if_neg hstart]
      exact computes_pure _ _
  · rw [if_neg hmark, if_neg hmark]
    exact computes_pure _ l

/-- What the exponent costs. -/
theorem costs_scanExponent (hf : f.Standard) (hrate : 11 ≤ rate) (l : Lexer) :
    Costs rate 7 (scanExponent f) l := by
  have hdigit := (classesStop hf).digit
  refine costs_peekOr_bind (by decide) (Costs.ite (fun _ => ?_) fun _ => costs_pure _ l)
  refine costs_advance_bind hrate ?_
  refine (costs_scanSign hrate _).bind (computes_scanSign _) (by decide) ?_
  refine costs_peek_bind (by decide) (Costs.ite (fun _ => ?_) fun _ => costs_pure _ _)
  exact (costs_advanceWhile_peekIs hrate hdigit _).bind
    (computes_advanceWhile (tests_peekIs _) hdigit _) (by decide) (costs_pure _ _)

/-- A suffix, with the copy of the text. -/
theorem costs_scanSuffix (hrate : 11 ≤ rate) (start : Nat) (isFraction : Bool) (l : Lexer) :
    Costs rate 129 (scanSuffix f start isFraction) l := by
  refine costs_peekOr_bind (by decide) (Costs.ite (fun _ => Costs.ite (fun _ => ?_) fun _ => ?_)
    fun _ => costs_numberToken _ _ _ l)
  · exact costs_advance_bind hrate (costs_numberToken _ _ _ _)
  · exact costs_read _ l

/-- A decimal literal, with the copy of its text. -/
theorem costs_scanDecimal (hf : f.Standard) (hrate : 11 ≤ rate) (start : Nat) (l : Lexer) :
    Costs rate 141 (scanDecimal f start) l := by
  have hdigit := (classesStop hf).digit
  refine (costs_advanceWhile_peekIs hrate hdigit l).bind
    (computes_advanceWhile (tests_peekIs _) hdigit l) (by decide) ?_
  refine (costs_scanFraction hf hrate _).bind (computes_scanFraction hf _) (by decide) ?_
  refine (costs_scanExponent hf hrate _).bind (computes_scanExponent hf _) (by decide) ?_
  cases (exponentNext f (Lexer.scanFraction f (l.advanceWhile f.charIsDigit)).2).1 with
  | some hasExponent => exact costs_scanSuffix hrate _ _ _
  | none => exact costs_read _ _

/-- A number, of either kind. -/
theorem costs_scanNumber (hf : f.Standard) (hrate : 11 ≤ rate) (l : Lexer) :
    Costs rate 144 (scanNumber f) l := by
  refine Costs.read_bind ((costs_beginsHex l).bind (computes_beginsHex l) (by decide) ?_)
  refine Costs.ite (fun _ => ?_) fun _ => costs_scanDecimal hf hrate _ l
  exact (costs_scanHex hf hrate _ l).mono (by decide)

/-- The name is scanned, and then copied: one more step for each of its bytes. -/
theorem costs_scanIdentifier (hf : f.Standard) (l : Lexer) : Costs 12 4 (scanIdentifier f) l := by
  intro hl
  have hword : (fun c => f.charIsAlphanum c || c == byte '_') 0 = false := (classesStop hf).word
  have hreach := Lexer.reaches_advanceWhile (fun c => f.charIsAlphanum c || c == byte '_') l
  have hscan : (tariff 11).Affords 4 l
      ((advanceWhile (peekOr f.charIsAlphanum (· == byte '_'))).run l) :=
    costs_advanceWhile (le_refl 11) (tests_word f) (costs_peekOr _ _) (by decide) hword l hl
  have hout : ((advanceWhile (peekOr f.charIsAlphanum (· == byte '_'))).run l).outcome =
      .done () (l.advanceWhile fun c => f.charIsAlphanum c || c == byte '_') :=
    (computes_advanceWhile (tests_word f) hword l).outcome hl
  generalize (l.advanceWhile fun c => f.charIsAlphanum c || c == byte '_') = l' at hreach hout
  obtain ⟨tok, hrun⟩ : ∃ tok, (scanIdentifier f).run l =
      ⟨((advanceWhile (peekOr f.charIsAlphanum (· == byte '_'))).run l).steps ++
        [⟨.read l.cursor l'.cursor, l', l'⟩], .done tok l'⟩ := by
    unfold scanIdentifier
    rw [Prog.run_read_bind, Prog.bind_done hout]
    cases hkw : (Lexer.kwMap f).lookup (f.intern (l'.lexeme l.cursor)) with
    | some kind =>
        refine ⟨⟨kind, l'.makeSpan l.cursor, .unset⟩, ?_⟩
        simp [lexeme, Prog.mark, hkw, Prog.run_bind, Run.andThen]
    | none =>
        refine ⟨⟨.ident, l'.makeSpan l.cursor, .ofName (f.intern (l'.lexeme l.cursor))⟩, ?_⟩
        simp [lexeme, Prog.mark, hkw, Prog.run_bind, Run.andThen]
  unfold Tariff.Affords at hscan ⊢
  rw [hout] at hscan
  rw [hrun]
  obtain ⟨hl', hpays⟩ := hscan
  refine ⟨hl', ?_⟩
  -- The copy is as long as the name.
  have hcopy : l'.cursor - l.cursor + l'.left = l.left := by
    have hforward := hreach.forward
    have hinside := hreach.inside hl
    unfold Lexer.left
    rw [hreach.content]
    omega
  rw [Tariff.cost_append]
  show (tariff 12).Pays 4 l l' (_ + (l'.cursor - l.cursor + 0))
  rcases hpays with ⟨hleft, hn⟩ | ⟨hleft, hn⟩
  · have hsame : l'.left = l.left := hleft
    exact Or.inl ⟨hleft, by rw [show l'.cursor - l.cursor = 0 by omega]; exact hn⟩
  · have hpaid : (tariff 11).cost _ + 9 + 11 * l'.left ≤ 11 * l.left + 4 := hn
    refine Or.inr ⟨hleft, ?_⟩
    show (tariff 11).cost _ + (l'.cursor - l.cursor + 0) + 9 + 12 * l'.left ≤ 12 * l.left + 4
    omega

/-! ## Tokens -/

/-- The cursor is moved over a byte that was looked at. -/
theorem costs_bump (hrate : 11 ≤ rate) (h : l.cursor < l.content.length) :
    Costs rate 0 bump l := by
  intro _
  have hout := (computes_bump h).outcome (Nat.le_of_lt h)
  refine Tariff.Consumes.affords ⟨(), l.advance, hout, ?_⟩
    (hrate.trans' (by decide : 0 + 1 + 9 ≤ 11))
  have hleft : l.advance.left + 1 = l.left := by
    unfold Lexer.left
    rw [(Lexer.reaches_advance l).content, Lexer.advance_cursor h]
    omega
  refine ⟨?_, ?_, ?_⟩
  · show l.advance.cursor ≤ l.advance.content.length
    rw [(Lexer.reaches_advance l).content, Lexer.advance_cursor h]
    omega
  · show l.advance.left < l.left
    omega
  · show 1 + 0 + l.advance.left ≤ l.left + 0
    omega

/-- A character that may be there. -/
theorem costs_matchChar (hrate : 11 ≤ rate) {c : UInt8} (hc : c ≠ 0) (l : Lexer) :
    Costs rate 1 (matchChar c) l := by
  refine costs_peek_bind (le_refl 1) (Costs.ite (fun hpeek => ?_) fun _ => costs_pure _ l)
  have hlt : l.cursor < l.content.length := by
    apply Lexer.lt_of_peek
    rw [beq_iff_eq.mp hpeek]
    exact hc
  exact (costs_bump hrate hlt).bind (computes_bump hlt) (Nat.zero_le _) (costs_pure _ _)

/-- A choice by such a character. -/
theorem costs_ifMatch (hrate : 11 ≤ rate) {c : UInt8} (hc : c ≠ 0) (g g' : Lexer → α) (l : Lexer) :
    Costs rate 1 (do if ← matchChar c then Prog.read g else Prog.read g') l := by
  refine (costs_matchChar hrate hc l).bind (computes_matchChar hc l) (le_refl 1) ?_
  exact Costs.ite (fun _ => costs_read _ _) fun _ => costs_read _ _

/-- A punctuator behind its first character. -/
theorem costs_scanPunctuator (hrate : 11 ≤ rate) (c : UInt8) (start : Nat) (l : Lexer) :
    Costs rate 1 (scanPunctuator c start) l := by
  have hequal : byte '=' ≠ 0 := by decide
  unfold scanPunctuator
  cases Lexer.singleKind c with
  | some kind => exact costs_read _ l
  | none =>
      cases Lexer.withEqual c with
      | some kinds => exact costs_ifMatch hrate hequal _ _ l
      | none =>
          cases hdoubled : Lexer.doubled c with
          | some entry =>
              have hc : c ≠ 0 := by
                intro hzero
                have hnone : Lexer.doubled 0 = none := by decide
                rw [hzero, hnone] at hdoubled
                cases hdoubled
              exact costs_ifMatch hrate hc _ _ l
          | none => exact costs_read _ l

/-- Putting the character back. -/
theorem back_run (h : l.cursor < l.content.length) :
    (do back; m).run l.advance =
      ⟨[⟨.move, l.advance, l⟩] ++ (m.run l).steps, (m.run l).outcome⟩ := by
  have hback : ({ l.advance with cursor := l.advance.cursor - 1 } : Lexer) = l := by
    rw [advance_inside h]
    simp
  rw [back, Prog.bind_done rfl]
  simp only [Prog.run_step, hback]

/-- A scanner that starts over at the character that chose it. -/
theorem costs_startOver {g : UInt8 → Scan α} (h : l.cursor < l.content.length)
    (sts : List (Step Lexer Touch))
    (hg : (g l.peek).run l.advance = ⟨sts ++ (m.run l).steps, (m.run l).outcome⟩)
    (hm : Costs rate k m l) (hk : k + 2 + (tariff rate).cost sts ≤ k') :
    Costs rate k' (advance >>= g) l := by
  intro hl
  obtain ⟨hout, hcost⟩ : (advance.run l).outcome = .done l.peek l.advance ∧
      (tariff rate).cost (advance.run l).steps = 2 := advance_run h
  rw [Prog.bind_done hout, hg]
  dsimp only
  rw [← List.append_assoc]
  exact (hm hl).prepend (by rw [Tariff.cost_append]; omega)

/-- A token, from its first character on. -/
theorem costs_token (hf : f.Standard) (h : l.cursor < l.content.length) :
    Costs 12 148 (do
      let c ← advance
      if f.charIsAlpha c || c == byte '_' then
        back
        scanIdentifier f
      else if f.charIsDigit c then
        back
        scanNumber f
      else if c == byte '.' then
        if f.charIsDigit (← peek) then
          back
          scanNumber f
        else
          lexerErrorToken .unexpectedDot l.cursor
      else
        scanPunctuator c l.cursor) l := by
  have hnumber : Costs 12 144 (scanNumber f) l := costs_scanNumber hf (by decide) l
  by_cases hname : (f.charIsAlpha l.peek || l.peek == byte '_') = true
  · refine costs_startOver h [⟨.move, l.advance, l⟩] ?_ (costs_scanIdentifier hf l) ?_
    · rw [if_pos hname]
      exact back_run h
    · show 4 + 2 + (1 + 0) ≤ 148
      decide
  by_cases hdigit : f.charIsDigit l.peek = true
  · refine costs_startOver h [⟨.move, l.advance, l⟩] ?_ hnumber ?_
    · rw [if_neg hname, if_pos hdigit]
      exact back_run h
    · show 144 + 2 + (1 + 0) ≤ 148
      decide
  by_cases hdot : (l.peek == byte '.') = true ∧ f.charIsDigit l.advance.peek = true
  · -- The character behind the dot is looked at before the dot is put back.
    have hinside : l.advance.cursor ≤ l.advance.content.length := by
      rw [(Lexer.reaches_advance l).content, Lexer.advance_cursor h]
      omega
    have hout := (computes_peek l.advance).outcome hinside
    have hcost : (tariff 12).cost (peek.run l.advance).steps ≤ 1 := by
      have hpeek : (tariff 12).Affords 1 l.advance (peek.run l.advance) :=
        costs_peek l.advance hinside
      unfold Tariff.Affords at hpeek
      rw [hout] at hpeek
      rcases hpeek.2 with ⟨_, hn⟩ | ⟨hlt, _⟩
      · exact hn
      · exact absurd hlt (Nat.lt_irrefl _)
    refine costs_startOver h ((peek.run l.advance).steps ++ [⟨.move, l.advance, l⟩]) ?_ hnumber ?_
    · rw [if_neg hname, if_neg hdigit, if_pos hdot.1, Prog.bind_done hout, if_pos hdot.2,
        back_run h, List.append_assoc]
    · rw [Tariff.cost_append]
      show 144 + 2 + (_ + (1 + 0)) ≤ 148
      omega
  · refine costs_advance_bind (by decide) ?_
    rw [if_neg hname, if_neg hdigit]
    refine Costs.ite (fun hpoint => costs_peek_bind (by decide) ?_) fun _ => ?_
    · exact Costs.ite (fun hnext => absurd ⟨hpoint, hnext⟩ hdot) fun _ => costs_read _ _
    · exact (costs_scanPunctuator (by decide) _ _ _).mono (by decide)

/-- What one call of {lit}`lexer_next` costs. -/
theorem costs_lexerNext (hf : f.Standard) (l : Lexer) : Costs 12 166 (lexerNext f) l := by
  refine (costs_skipWhitespace (by decide) l).bind (computes_skipWhitespace l) (by decide) ?_
  refine Costs.read_bind (Costs.read_bind (Costs.ite (fun _ => costs_read _ _) fun hlt => ?_))
  exact costs_token hf (by simpa only [id, Nat.not_le] using hlt)

/-- What one call costs is paid for by the bytes that it takes, up to a constant. -/
theorem cost_lexerNext (hf : f.Standard) (hl : l.cursor ≤ l.content.length) :
    (tariff 12).cost ((lexerNext f).run l).steps + 12 * (Lexer.lexerNext f l).2.left ≤
      12 * l.left + 166 := by
  have hout := (refines_lexerNext hf l).outcome hl
  have hcosts := costs_lexerNext hf l hl
  unfold Tariff.Affords at hcosts
  rw [hout] at hcosts
  exact hcosts.2.le

/-! ## All calls -/

/-- Successive calls of {lit}`lexer_next`. -/
def lexerCalls (f : Fluf) : Nat → Scan Unit
  | 0 => return ()
  | n + 1 => do
      let _ ← lexerNext f
      lexerCalls f n

/-- At the end of the file a call reads nothing. -/
theorem lexerNext_run_end (hl : l.cursor = l.content.length) :
    (lexerNext f).run l = ⟨[], .done (l.retTok .eof l.cursor) l⟩ := by
  have hend : l.content.length ≤ l.cursor := Nat.le_of_eq hl.symm
  have hpeek : peek.run l = ⟨[], .done 0 l⟩ := by
    unfold peek
    rw [Prog.run_read_bind, if_pos (by simpa only [id] using hend)]
    rfl
  have hiter : (skipWhitespaceIter ()).run l = ⟨[], .done (.leave ()) l⟩ := by
    have hblank : Lexer.isBlank 0 = false := by decide
    have hslash : ((0 : UInt8) == byte '/') = false := by decide
    unfold skipWhitespaceIter
    rw [Prog.bind_done (by rw [hpeek]), hpeek, hblank, hslash]
    rfl
  have hskip : skipWhitespace.run l = ⟨[], .done () l⟩ := by
    unfold skipWhitespace
    rw [Prog.run_read_bind, loop, Prog.bind_done (by rw [hiter]), hiter]
    rfl
  unfold lexerNext
  rw [Prog.bind_done (by rw [hskip]), hskip, Prog.run_read_bind, Prog.run_read_bind,
    if_pos (by simpa only [id] using hend)]
  rfl

/-- Calls at the end of the file cost nothing. -/
theorem cost_lexerCalls_end (n : Nat) (hl : l.cursor = l.content.length) :
    (tariff 12).cost ((lexerCalls f n).run l).steps = 0 := by
  induction n with
  | zero => rfl
  | succ n ih =>
      rw [lexerCalls, Prog.bind_done (by rw [lexerNext_run_end hl]), lexerNext_run_end hl]
      exact ih

/-- What the calls on a file cost, however many there are at its end. -/
theorem cost_lexerCalls (hf : f.Standard) (n : Nat) (hl : l.cursor ≤ l.content.length) :
    (tariff 12).cost ((lexerCalls f n).run l).steps ≤
      12 * l.left + 166 * ((Lexer.lexTokens f l).tokens.length + 1) := by
  induction n generalizing l with
  | zero => exact Nat.zero_le _
  | succ n ih =>
      have hfirst := cost_lexerNext hf hl
      have hreach := Lexer.reaches_lexerNext f l
      have hinside := hreach.inside hl
      rw [lexerCalls, Prog.bind_done ((refines_lexerNext hf l).outcome hl), Tariff.cost_append,
        Lexer.lexTokens_eq hf]
      by_cases heof : (Lexer.lexerNext f l).1.kind = .eof
      · -- The call has come to the end, and the others read nothing.
        have hend : (Lexer.lexerNext f l).2.cursor = (Lexer.lexerNext f l).2.content.length := by
          have hskip := (Lexer.lexerNext_eof_iff f l).mp heof
          rw [hreach.content]
          rw [(Lexer.lexerNext_eof heof).1] at hinside ⊢
          omega
        rw [dif_pos heof, cost_lexerCalls_end n hend, List.length_nil]
        omega
      · have hrest := ih (l := (Lexer.lexerNext f l).2) (by rw [hreach.content]; exact hinside)
        rw [dif_neg heof, List.length_cons]
        omega

end Machine

/-- A file has at most as many tokens as bytes. -/
theorem Lexer.length_lexTokens {f : Fluf} (hf : f.Standard) (l : Lexer) :
    (lexTokens f l).tokens.length ≤ l.left := by
  induction hn : l.left using Nat.strongRecOn generalizing l with
  | ind n ih =>
      subst hn
      rw [lexTokens_eq hf]
      by_cases heof : (lexerNext f l).1.kind = .eof
      · rw [dif_pos heof]
        exact Nat.zero_le _
      · have hleft := left_lexerNext hf heof
        have hrest := ih _ hleft (lexerNext f l).2 rfl
        rw [dif_neg heof, List.length_cons]
        omega

end Cact
