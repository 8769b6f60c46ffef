import Cact.Lexer
import Mathlib.Data.List.GetD
import Mathlib.Data.Nat.Basic
import Mathlib.Order.Basic

/-!
# Progress of the lexer

The cursor never moves backwards or past the end of the file, every token but the last
one moves it, and the end-of-file token is returned at the end only.  So the sequence of
tokens is finite, and the budgets of the model never cut it short.

Main results:

- Theorem {lit}`Lexer.lexerNext_progress`: a token that is not end-of-file takes at
  least one byte.
- Theorem {lit}`Lexer.lexTokens_eq`: the equation of the unbounded sequence of calls.
- Theorem {lit}`Lexer.cursor_at_end`: when end-of-file is returned, the whole file has
  been read.
-/

namespace Cact

/-- The library functions behave as documented: the character classes are the ASCII
ones, and the interner tells different names apart. -/
structure Fluf.Standard (f : Fluf) : Prop where
  alpha : ∀ c, f.charIsAlpha c = true ↔
    (byte 'a' ≤ c ∧ c ≤ byte 'z') ∨ (byte 'A' ≤ c ∧ c ≤ byte 'Z')
  digit : ∀ c, f.charIsDigit c = true ↔ byte '0' ≤ c ∧ c ≤ byte '9'
  alphanum : ∀ c, f.charIsAlphanum c = (f.charIsAlpha c || f.charIsDigit c)
  hex : ∀ c, f.charIsHex c = true ↔ (byte '0' ≤ c ∧ c ≤ byte '9') ∨
    (byte 'a' ≤ c ∧ c ≤ byte 'f') ∨ (byte 'A' ≤ c ∧ c ≤ byte 'F')
  intern : Function.Injective f.intern

/-- A number that tells byte strings apart. -/
def spelling : List UInt8 → Nat
  | [] => 0
  | c :: cs => 256 * spelling cs + c.toNat + 1

/-- Tokens with one spelling are one token. -/
theorem spelling_injective : Function.Injective spelling := by
  intro s
  induction s with
  | nil =>
      intro t h
      cases t with
      | nil => rfl
      | cons c cs =>
          simp only [spelling] at h
          omega
  | cons c cs ih =>
      intro t h
      cases t with
      | nil =>
          simp only [spelling] at h
          omega
      | cons d ds =>
          simp only [spelling] at h
          have hc : c.toNat < 256 := c.toNat_lt
          have hd : d.toNat < 256 := d.toNat_lt
          have hcd : c = d := UInt8.toNat_inj.mp (by omega)
          have hcs : spelling cs = spelling ds := by omega
          rw [hcd, ih hcs]

/-- The ASCII character classes, and an interner that spells names out.  The
floating-point conversions are not meant to be used. -/
def Fluf.ascii : Fluf where
  charIsAlpha c := (byte 'a' ≤ c && c ≤ byte 'z') || (byte 'A' ≤ c && c ≤ byte 'Z')
  charIsAlphanum c := (byte 'a' ≤ c && c ≤ byte 'z') || (byte 'A' ≤ c && c ≤ byte 'Z') ||
    (byte '0' ≤ c && c ≤ byte '9')
  charIsDigit c := byte '0' ≤ c && c ≤ byte '9'
  charIsHex c := (byte '0' ≤ c && c ≤ byte '9') || (byte 'a' ≤ c && c ≤ byte 'f') ||
    (byte 'A' ≤ c && c ≤ byte 'F')
  intern s := ⟨spelling s⟩
  strtof _ := 0
  strtod _ := 0

/-- The character classes of ASCII are those that the lexer relies on. -/
theorem Fluf.ascii_standard : Fluf.ascii.Standard where
  alpha c := by simp [Fluf.ascii]
  digit c := by simp [Fluf.ascii]
  alphanum c := by simp [Fluf.ascii]
  hex c := by simp [Fluf.ascii, or_assoc]
  intern s t h := spelling_injective (Symbol.mk.inj h)

namespace Lexer

/-! ## Moving the cursor -/

/-- The cursor moved from one lexer to another over the same file, and not past its
end. -/
structure Reaches (l l' : Lexer) : Prop where
  content : l'.content = l.content
  baseOffset : l'.baseOffset = l.baseOffset
  forward : l.cursor ≤ l'.cursor
  inside : l.cursor ≤ l.content.length → l'.cursor ≤ l.content.length

/-- A lexer reaches itself. -/
theorem Reaches.refl (l : Lexer) : Reaches l l := ⟨rfl, rfl, le_rfl, id⟩

/-- It reaches what it reaches by way of another. -/
theorem Reaches.trans {l₁ l₂ l₃ : Lexer} (h : Reaches l₁ l₂) (h' : Reaches l₂ l₃) :
    Reaches l₁ l₃ where
  content := h'.content.trans h.content
  baseOffset := h'.baseOffset.trans h.baseOffset
  forward := h.forward.trans h'.forward
  inside := by
    intro hl
    have hl₂ := h'.inside
    rw [h.content] at hl₂
    exact hl₂ (h.inside hl)

/-- A move reaches the lexer behind it. -/
theorem reaches_advance (l : Lexer) : Reaches l l.advance := by
  unfold advance
  split
  · exact Reaches.refl l
  · exact ⟨rfl, rfl, by simp, fun _ => by dsimp only; omega⟩

/-- Before the end, advancing moves the cursor by one. -/
theorem advance_cursor {l : Lexer} (h : l.cursor < l.content.length) :
    l.advance.cursor = l.cursor + 1 := by
  unfold advance
  rw [if_neg (by omega)]

/-- A non-zero current character shows that the cursor is before the end. -/
theorem lt_of_peek {l : Lexer} (h : l.peek ≠ 0) : l.cursor < l.content.length := by
  by_contra hl
  refine h ?_
  unfold peek
  rw [List.getD_eq_default _ _ (by omega)]

/-- A move inside the file leaves less. -/
theorem left_advance {l : Lexer} (h : l.cursor < l.content.length) :
    l.advance.left < l.left := by
  unfold left
  rw [(reaches_advance l).content, advance_cursor h]
  omega

/-- There is never more left than before. -/
theorem Reaches.left {l l' : Lexer} (h : Reaches l l') : l'.left ≤ l.left := by
  unfold Lexer.left
  rw [h.content]
  have := h.forward
  omega

/-- The loops over a class move forwards. -/
theorem reaches_advanceWhileLoop (test : UInt8 → Bool) (n : Nat) (l : Lexer) :
    Reaches l (advanceWhileLoop test n l) := by
  induction n generalizing l with
  | zero => exact Reaches.refl l
  | succ n ih =>
      rw [advanceWhileLoop]
      split
      · exact (reaches_advance l).trans (ih _)
      · exact Reaches.refl l

/-- So they do with their own count. -/
theorem reaches_advanceWhile (test : UInt8 → Bool) (l : Lexer) :
    Reaches l (l.advanceWhile test) :=
  reaches_advanceWhileLoop test _ l

/-- The loop takes at least the first character that passes the test. -/
theorem advanceWhile_progress {test : UInt8 → Bool} {l : Lexer}
    (hl : l.cursor < l.content.length) (h : test l.peek = true) :
    l.cursor < (l.advanceWhile test).cursor := by
  obtain ⟨n, hn⟩ : ∃ n, l.left = n + 1 := ⟨l.left - 1, by unfold Lexer.left; omega⟩
  have hmove := (reaches_advanceWhileLoop test n l.advance).forward
  rw [advance_cursor hl] at hmove
  unfold advanceWhile
  rw [hn, advanceWhileLoop, if_pos h]
  omega

/-- The loop over a comment moves forwards. -/
theorem reaches_blockCommentLoop (n : Nat) (l : Lexer) :
    Reaches l (blockCommentLoop n l).1 := by
  induction n generalizing l with
  | zero => exact Reaches.refl l
  | succ n ih =>
      rw [blockCommentLoop]
      split_ifs
      · exact Reaches.refl l
      · exact (reaches_advance l).trans (reaches_advance _)
      · exact (reaches_advance l).trans (ih _)

/-- So does the loop over all that is skipped. -/
theorem reaches_skipWhitespaceLoop (n : Nat) (l : Lexer) :
    Reaches l (skipWhitespaceLoop n l) := by
  induction n generalizing l with
  | zero => exact Reaches.refl l
  | succ n ih =>
      rw [skipWhitespaceLoop]
      split_ifs
      · exact (reaches_advance l).trans (ih _)
      · exact (reaches_advanceWhile _ l).trans (ih _)
      · have hcomment : Reaches l (blockCommentLoop (l.left + 1) l.advance.advance).1 :=
          ((reaches_advance l).trans (reaches_advance _)).trans
            (reaches_blockCommentLoop _ _)
        rcases hout : blockCommentLoop (l.left + 1) l.advance.advance with ⟨l', closed⟩
        rw [hout] at hcomment
        cases closed with
        | true => exact hcomment.trans (ih _)
        | false => exact hcomment
      · exact Reaches.refl l
      · exact Reaches.refl l

/-- So it does with its own count. -/
theorem reaches_skipWhitespace (l : Lexer) : Reaches l l.skipWhitespace :=
  reaches_skipWhitespaceLoop _ l

/-! ## The counts of the loops -/

/-- A loop that stops at a zero byte takes at most the bytes that are left. -/
theorem advanceWhileLoop_budget {test : UInt8 → Bool} (htest : test 0 = false) {l : Lexer}
    {n m : Nat} (hn : l.left ≤ n) (hm : l.left ≤ m) :
    advanceWhileLoop test n l = advanceWhileLoop test m l := by
  have hstop {k : Nat} {l : Lexer} (h : test l.peek = false) :
      advanceWhileLoop test k l = l := by
    cases k with
    | zero => rfl
    | succ k => rw [advanceWhileLoop, if_neg (by simp [h])]
  induction n generalizing l m with
  | zero =>
      have hpeek : l.peek = 0 := by
        by_contra hne
        have := lt_of_peek hne
        unfold Lexer.left at hn
        omega
      rw [hstop (by rw [hpeek, htest]), hstop (by rw [hpeek, htest])]
  | succ n ih =>
      by_cases h : test l.peek = true
      · have hlt : l.cursor < l.content.length := by
          apply lt_of_peek
          intro hzero
          rw [hzero, htest] at h
          cases h
        have hleft := left_advance hlt
        obtain ⟨k, rfl⟩ : ∃ k, m = k + 1 := ⟨m - 1, by omega⟩
        rw [advanceWhileLoop, advanceWhileLoop, if_pos h, if_pos h]
        exact ih (by omega) (by omega)
      · rw [hstop (by simpa using h), hstop (by simpa using h)]

/-- A count above what is left makes no difference inside a comment. -/
theorem blockCommentLoop_budget {l : Lexer} {n m : Nat} (hn : l.left < n) (hm : l.left < m) :
    blockCommentLoop n l = blockCommentLoop m l := by
  induction n generalizing l m with
  | zero => omega
  | succ n ih =>
      obtain ⟨k, rfl⟩ : ∃ k, m = k + 1 := ⟨m - 1, by omega⟩
      rw [blockCommentLoop, blockCommentLoop]
      by_cases hzero : l.peek = 0
      · simp only [hzero, beq_self_eq_true, ↓reduceIte]
      · have hleft := left_advance (lt_of_peek hzero)
        rw [ih (m := k) (by omega) (by omega)]

/-- Nor between tokens. -/
theorem skipWhitespaceLoop_budget {l : Lexer} {n m : Nat} (hn : l.left < n)
    (hm : l.left < m) : skipWhitespaceLoop n l = skipWhitespaceLoop m l := by
  induction n generalizing l m with
  | zero => omega
  | succ n ih =>
      obtain ⟨k, rfl⟩ : ∃ k, m = k + 1 := ⟨m - 1, by omega⟩
      rw [skipWhitespaceLoop, skipWhitespaceLoop]
      by_cases hzero : l.peek = 0
      · have hblank : isBlank 0 = false := by decide
        have hslash : ((0 : UInt8) == byte '/') = false := by decide
        simp only [hzero, hblank, hslash, Bool.false_eq_true, ↓reduceIte]
      · have hlt := lt_of_peek hzero
        have hleft := left_advance hlt
        -- A line comment takes at least its first slash.
        have hline (hslash : (l.peek == byte '/') = true) :
            (l.advanceWhile fun c => c != byte '\n' && c != 0).left < l.left := by
          have hpeek : l.peek = byte '/' := by simpa using hslash
          have htest : (l.peek != byte '\n' && l.peek != 0) = true := by
            rw [hpeek]
            decide
          have hmove : l.cursor < (l.advanceWhile fun c => c != byte '\n' && c != 0).cursor :=
            advanceWhile_progress hlt htest
          unfold Lexer.left
          rw [(reaches_advanceWhile _ l).content]
          omega
        have hblock {l' : Lexer} {b : Bool}
            (h : blockCommentLoop (l.left + 1) l.advance.advance = (l', b)) :
            l'.left < l.left := by
          have hreach := (reaches_advance l.advance).trans
            (reaches_blockCommentLoop (l.left + 1) l.advance.advance)
          rw [h] at hreach
          exact Nat.lt_of_le_of_lt hreach.left hleft
        split_ifs with hblank hslash hnext hstar
        · exact ih (by omega) (by omega)
        · have := hline hslash
          exact ih (by omega) (by omega)
        · rcases hout : blockCommentLoop (l.left + 1) l.advance.advance with ⟨l', b⟩
          have := hblock hout
          cases b with
          | true => exact ih (by omega) (by omega)
          | false => rfl
        · rfl
        · rfl

/-- The loops of the lexer end by themselves: their counts never run out. -/
structure LoopsEnd : Prop where
  advanceWhile : ∀ (test : UInt8 → Bool) (l : Lexer) (n : Nat), test 0 = false → l.left ≤ n →
    advanceWhileLoop test n l = l.advanceWhile test
  blockComment : ∀ (l : Lexer) (n : Nat), l.left < n →
    blockCommentLoop n l.advance.advance = blockCommentLoop (l.left + 1) l.advance.advance
  skipWhitespace : ∀ (l : Lexer) (n : Nat), l.left < n →
    skipWhitespaceLoop n l = l.skipWhitespace

/-- None of the loops uses up its count. -/
theorem loopsEnd : LoopsEnd where
  advanceWhile _ _ _ htest hn := advanceWhileLoop_budget htest hn le_rfl
  blockComment l n hn := by
    have hleft : l.advance.advance.left ≤ l.left :=
      ((reaches_advance l).trans (reaches_advance _)).left
    exact blockCommentLoop_budget (by omega) (by omega)
  skipWhitespace _ _ hn := skipWhitespaceLoop_budget hn (Nat.lt_succ_self _)

/-! ## The scanners -/

/-- Scanning a name moves forwards. -/
theorem reaches_scanIdentifier (f : Fluf) (l : Lexer) :
    Reaches l (scanIdentifier f l).2 := by
  unfold scanIdentifier
  dsimp only
  split
  · exact reaches_advanceWhile _ l
  · exact reaches_advanceWhile _ l

/-- So does the fraction of a number. -/
theorem reaches_scanFraction (f : Fluf) (l : Lexer) : Reaches l (scanFraction f l).2 := by
  unfold scanFraction
  split
  · exact (reaches_advance l).trans (reaches_advanceWhile _ _)
  · exact Reaches.refl l

/-- So does the sign of its exponent. -/
theorem reaches_scanSign (l : Lexer) : Reaches l l.scanSign := by
  unfold scanSign
  split
  · exact reaches_advance l
  · exact Reaches.refl l

/-- So does its suffix. -/
theorem reaches_scanSuffix (f : Fluf) (l : Lexer) (start : Nat) (isFraction : Bool) :
    Reaches l (scanSuffix f l start isFraction).2 := by
  unfold scanSuffix
  split_ifs
  · exact reaches_advance l
  · exact Reaches.refl l
  · exact Reaches.refl l

/-- Whatever follows the digits and the fraction, the cursor does not go back. -/
theorem reaches_scanDecimal (f : Fluf) (l : Lexer) :
    Reaches (scanFraction f (l.advanceWhile f.charIsDigit)).2 (scanDecimal f l).2 := by
  unfold scanDecimal
  rcases scanFraction f (l.advanceWhile f.charIsDigit) with ⟨hasDot, l₁⟩
  dsimp only
  unfold scanExponent
  have hsign : Reaches l₁ l₁.advance.scanSign :=
    (reaches_advance l₁).trans (reaches_scanSign _)
  by_cases he : (l₁.peek == byte 'e' || l₁.peek == byte 'E') = true
  · rw [if_pos he]
    by_cases hd : f.charIsDigit l₁.advance.scanSign.peek = true
    · rw [if_pos hd]
      exact (hsign.trans (reaches_advanceWhile _ _)).trans (reaches_scanSuffix _ _ _ _)
    · rw [if_neg hd]
      exact hsign
  · rw [if_neg he]
    exact reaches_scanSuffix _ _ _ _

/-- So does a hexadecimal literal, once its zero is taken. -/
theorem reaches_scanHex (f : Fluf) (l : Lexer) : Reaches l.advance (scanHex f l).2 := by
  unfold scanHex
  dsimp only
  split
  · exact (reaches_advance _).trans (reaches_advanceWhile _ _)
  · exact reaches_advance _

/-- So does a number. -/
theorem reaches_scanNumber (f : Fluf) (l : Lexer) : Reaches l (scanNumber f l).2 := by
  unfold scanNumber
  split
  · exact (reaches_advance l).trans (reaches_scanHex f l)
  · exact ((reaches_advanceWhile _ l).trans (reaches_scanFraction f _)).trans
      (reaches_scanDecimal f l)

/-- A number that begins with a digit, or with a point before a digit, takes at least
one byte. -/
theorem scanNumber_progress {f : Fluf} {l : Lexer} (hl : l.cursor < l.content.length)
    (h : f.charIsDigit l.peek = true ∨ l.peek = byte '.') :
    l.cursor < (scanNumber f l).2.cursor := by
  have hadvance : l.cursor < l.advance.cursor := by
    rw [advance_cursor hl]
    omega
  unfold scanNumber
  split
  · exact hadvance.trans_le (reaches_scanHex f l).forward
  · refine Nat.lt_of_lt_of_le ?_ (reaches_scanDecimal f l).forward
    by_cases hdigit : f.charIsDigit l.peek = true
    · exact (advanceWhile_progress hl hdigit).trans_le (reaches_scanFraction f _).forward
    · -- No digit comes before the point, so the fraction starts at the cursor.
      have hdot : l.peek = byte '.' := h.resolve_left hdigit
      have hstay : l.advanceWhile f.charIsDigit = l := by
        unfold advanceWhile
        cases l.left with
        | zero => rfl
        | succ n => rw [advanceWhileLoop, if_neg hdigit]
      rw [hstay]
      unfold scanFraction
      rw [if_pos (by simp [hdot])]
      exact hadvance.trans_le (reaches_advanceWhile _ _).forward

/-- So does a punctuator. -/
theorem reaches_scanPunctuator (l : Lexer) (c : UInt8) (start : Nat) :
    Reaches l (scanPunctuator l c start).2 := by
  unfold scanPunctuator
  split
  · exact Reaches.refl l
  · split
    · exact reaches_advance l
    · exact Reaches.refl l
  · split
    · exact reaches_advance l
    · exact Reaches.refl l
  · exact Reaches.refl l

/-- So does a call of {lit}`lexer_next`. -/
theorem reaches_lexerNext (f : Fluf) (l : Lexer) : Reaches l (lexerNext f l).2 := by
  refine (reaches_skipWhitespace l).trans ?_
  unfold lexerNext
  dsimp only
  split_ifs
  · exact Reaches.refl _
  · exact reaches_scanIdentifier f _
  · exact reaches_scanNumber f _
  · exact reaches_scanNumber f _
  · exact reaches_advance _
  · exact (reaches_advance _).trans (reaches_scanPunctuator _ _ _)

/-! ## Kinds -/

/-- What a table yields has every property of its entries. -/
theorem forall_of_lookup {α β : Type} [BEq α] [LawfulBEq α] {table : List (α × β)} {a : α}
    {b : β} (P : β → Prop) (htable : ∀ entry ∈ table, P entry.2)
    (h : table.lookup a = some b) : P b := by
  obtain ⟨l₁, l₂, hl, _⟩ := List.lookup_eq_some_iff.mp h
  exact htable (a, b) (by rw [hl]; simp)

/-- A name or a keyword. -/
theorem scanIdentifier_kind (f : Fluf) (l : Lexer) :
    (scanIdentifier f l).1.kind = .ident ∨
      (scanIdentifier f l).1.kind ∈ keywords.map Prod.fst := by
  unfold scanIdentifier
  dsimp only
  split <;> rename_i hlookup
  · right
    exact forall_of_lookup (· ∈ keywords.map Prod.fst) (by simp [kwMap, keywords]) hlookup
  · exact Or.inl rfl

/-- A name is not the end of the file. -/
theorem scanIdentifier_ne_eof (f : Fluf) (l : Lexer) :
    (scanIdentifier f l).1.kind ≠ .eof := by
  intro heof
  have hkind := scanIdentifier_kind f l
  rw [heof] at hkind
  revert hkind
  decide

/-- Neither is a number. -/
theorem numberToken_ne_eof (f : Fluf) (l : Lexer) (start : Nat) (isFraction isFloat : Bool) :
    (numberToken f l start isFraction isFloat).kind ≠ .eof := by
  unfold numberToken
  dsimp only
  split_ifs <;> simp [lexerErrorToken]

/-- Neither is one with a suffix. -/
theorem scanSuffix_ne_eof (f : Fluf) (l : Lexer) (start : Nat) (isFraction : Bool) :
    (scanSuffix f l start isFraction).1.kind ≠ .eof := by
  unfold scanSuffix
  split_ifs
  · exact numberToken_ne_eof _ _ _ _ _
  · simp [lexerErrorToken]
  · exact numberToken_ne_eof _ _ _ _ _

/-- Neither is whatever is scanned as a number. -/
theorem scanNumber_ne_eof (f : Fluf) (l : Lexer) : (scanNumber f l).1.kind ≠ .eof := by
  unfold scanNumber
  split
  · unfold scanHex
    dsimp only
    split
    · exact numberToken_ne_eof _ _ _ _ _
    · simp [lexerErrorToken]
  · unfold scanDecimal
    dsimp only
    split
    · exact scanSuffix_ne_eof _ _ _ _
    · exact scanSuffix_ne_eof _ _ _ _
    · simp [lexerErrorToken]

/-- The kinds of the tokens that are no words, names or numbers. -/
def punctuatorKinds : List TokenKind :=
  [.plus, .minus, .star, .percent, .lParen, .rParen, .lBrace, .rBrace, .lBracket, .rBracket,
   .semicolon, .comma, .slash, .eq, .assign, .neq, .logNot, .le, .lt, .ge, .gt, .logAnd, .logOr]

/-- A punctuator is one of the switch, or an error. -/
theorem scanPunctuator_kind (l : Lexer) (c : UInt8) (start : Nat) :
    (scanPunctuator l c start).1.kind = .error ∨
      (scanPunctuator l c start).1.kind ∈ punctuatorKinds := by
  have hsingle : ∀ kind, singleKind c = some kind → kind ∈ punctuatorKinds := by
    intro kind h
    exact forall_of_lookup (· ∈ punctuatorKinds) (by decide) h
  have hequal : ∀ kinds, withEqual c = some kinds →
      kinds.1 ∈ punctuatorKinds ∧ kinds.2 ∈ punctuatorKinds := by
    intro kinds h
    exact forall_of_lookup (fun kinds => kinds.1 ∈ punctuatorKinds ∧ kinds.2 ∈ punctuatorKinds)
      (by decide) h
  have hdoubled : ∀ entry, doubled c = some entry → entry.1 ∈ punctuatorKinds := by
    intro entry h
    exact forall_of_lookup (fun entry => entry.1 ∈ punctuatorKinds) (by decide) h
  unfold scanPunctuator
  split <;> rename_i h
  · exact Or.inr (hsingle _ h)
  · rename_i h
    split
    · exact Or.inr (hequal _ h).1
    · exact Or.inr (hequal _ h).2
  · rename_i h
    split
    · exact Or.inr (hdoubled _ h)
    · exact Or.inl rfl
  · exact Or.inl rfl

/-- It is not the end of the file. -/
theorem scanPunctuator_ne_eof (l : Lexer) (c : UInt8) (start : Nat) :
    (scanPunctuator l c start).1.kind ≠ .eof := by
  intro heof
  have hkind := scanPunctuator_kind l c start
  rw [heof] at hkind
  revert hkind
  decide

/-- End-of-file is returned exactly at the end, once blanks are skipped. -/
theorem lexerNext_eof_iff (f : Fluf) (l : Lexer) : (lexerNext f l).1.kind = .eof ↔
    l.content.length ≤ l.skipWhitespace.cursor := by
  have hcontent := (reaches_skipWhitespace l).content
  unfold lexerNext
  dsimp only
  rw [hcontent]
  split_ifs with hend
  · simp [hend, retTok]
  · simp [hend, scanIdentifier_ne_eof]
  · simp [hend, scanNumber_ne_eof]
  · simp [hend, scanNumber_ne_eof]
  · simp [hend, lexerErrorToken]
  · simp [hend, scanPunctuator_ne_eof]

/-! ## Progress -/

/-- A token that is not end-of-file takes at least one byte behind the blanks. -/
theorem lexerNext_nonempty {f : Fluf} (hf : f.Standard) {l : Lexer}
    (h : (lexerNext f l).1.kind ≠ .eof) :
    l.skipWhitespace.cursor < (lexerNext f l).2.cursor := by
  rw [Ne, lexerNext_eof_iff] at h
  have hreach := reaches_skipWhitespace l
  have hl : l.skipWhitespace.cursor < l.skipWhitespace.content.length := by
    rw [hreach.content]
    omega
  have hadvance : l.skipWhitespace.cursor < l.skipWhitespace.advance.cursor := by
    rw [advance_cursor hl]
    omega
  unfold lexerNext
  dsimp only
  rw [if_neg (by omega)]
  split_ifs with halpha hdigit hdot hpoint
  · have htest : (f.charIsAlphanum l.skipWhitespace.peek ||
        l.skipWhitespace.peek == byte '_') = true := by
      grind [hf.alphanum]
    have hreach : l.skipWhitespace.cursor < (l.skipWhitespace.advanceWhile fun c =>
        f.charIsAlphanum c || c == byte '_').cursor :=
      advanceWhile_progress hl htest
    unfold scanIdentifier
    dsimp only
    split
    · exact hreach
    · exact hreach
  · exact scanNumber_progress hl (Or.inl hdigit)
  · exact scanNumber_progress hl (Or.inr (by simpa using hdot))
  · exact hadvance
  · exact hadvance.trans_le (reaches_scanPunctuator _ _ _).forward

/-- A token that is not end-of-file takes at least one byte. -/
theorem lexerNext_progress {f : Fluf} (hf : f.Standard) {l : Lexer}
    (h : (lexerNext f l).1.kind ≠ .eof) : l.cursor < (lexerNext f l).2.cursor :=
  (reaches_skipWhitespace l).forward.trans_lt (lexerNext_nonempty hf h)

/-- At the end, the lexer stays where it is. -/
theorem lexerNext_eof {f : Fluf} {l : Lexer} (h : (lexerNext f l).1.kind = .eof) :
    (lexerNext f l).2 = l.skipWhitespace ∧
      (lexerNext f l).1 = l.skipWhitespace.retTok .eof l.skipWhitespace.cursor := by
  rw [lexerNext_eof_iff, ← (reaches_skipWhitespace l).content] at h
  unfold lexerNext
  dsimp only
  rw [if_pos h]
  exact ⟨rfl, rfl⟩

/-- A call that is not at the end of the file leaves less. -/
theorem left_lexerNext {f : Fluf} (hf : f.Standard) {l : Lexer}
    (h : (lexerNext f l).1.kind ≠ .eof) : (lexerNext f l).2.left < l.left := by
  have hmove := lexerNext_progress hf h
  have hreach := reaches_lexerNext f l
  have hcontent := hreach.content
  have hlt : l.cursor < l.content.length := by
    by_contra hge
    refine h ((lexerNext_eof_iff f l).mpr ?_)
    have := (reaches_skipWhitespace l).forward
    omega
  unfold left
  rw [hcontent]
  omega

/-- The budget of the token loop is irrelevant once it exceeds the bytes left. -/
theorem lexTokensLoop_budget {f : Fluf} (hf : f.Standard) {l : Lexer} {n m : Nat}
    (hn : l.left < n) (hm : l.left < m) : lexTokensLoop f n l = lexTokensLoop f m l := by
  induction n generalizing l m with
  | zero => omega
  | succ n ih =>
      obtain ⟨k, rfl⟩ : ∃ k, m = k + 1 := ⟨m - 1, by omega⟩
      by_cases h : (lexerNext f l).1.kind = .eof
      · rw [lexTokensLoop, lexTokensLoop]
        simp only [h, ↓reduceDIte]
      · have hleft := left_lexerNext hf h
        rw [lexTokensLoop, lexTokensLoop]
        simp only [h, ↓reduceDIte]
        rw [ih (m := k) (by omega) (by omega)]

/-- What the lexer returns for a file is its next token, followed by what it returns
from there, up to the end-of-file token. -/
theorem lexTokens_eq {f : Fluf} (hf : f.Standard) (l : Lexer) :
    lexTokens f l =
      if h : (lexerNext f l).1.kind = .eof then ⟨[], (lexerNext f l).1.span⟩
      else ⟨⟨(lexerNext f l).1, h⟩ :: (lexTokens f (lexerNext f l).2).tokens,
        (lexTokens f (lexerNext f l).2).endSpan⟩ := by
  unfold lexTokens
  by_cases h : (lexerNext f l).1.kind = .eof
  · rw [lexTokensLoop]
    simp only [h, ↓reduceDIte]
  · have hleft := left_lexerNext hf h
    rw [lexTokensLoop]
    simp only [h, ↓reduceDIte]
    rw [lexTokensLoop_budget hf (m := (lexerNext f l).2.left + 1) hleft (by omega)]

/-- The lexer after a number of calls. -/
def afterCalls (f : Fluf) : Nat → Lexer → Lexer
  | 0, l => l
  | n + 1, l => afterCalls f n (lexerNext f l).2

/-- Once all tokens and the end-of-file token have been returned, the cursor stands at
the end of the file. -/
theorem cursor_at_end {f : Fluf} (hf : f.Standard) {l : Lexer}
    (hl : l.cursor ≤ l.content.length) :
    (afterCalls f ((lexTokens f l).tokens.length + 1) l).cursor = l.content.length := by
  -- Induction on the bytes that are left, following the calls.
  induction hn : l.left using Nat.strongRecOn generalizing l with
  | ind n ih =>
      subst hn
      have hreach := reaches_lexerNext f l
      by_cases h : (lexerNext f l).1.kind = .eof
      · have hend := (lexerNext_eof_iff f l).mp h
        have hinside := (reaches_skipWhitespace l).inside hl
        rw [lexTokens_eq hf, dif_pos h]
        simp only [List.length_nil, afterCalls, (lexerNext_eof h).1]
        omega
      · have hinside : (lexerNext f l).2.cursor ≤ (lexerNext f l).2.content.length := by
          rw [hreach.content]
          exact hreach.inside hl
        have hnext := ih _ (left_lexerNext hf h) hinside rfl
        rw [lexTokens_eq hf, dif_neg h, ← hreach.content, List.length_cons, afterCalls]
        exact hnext

end Lexer

end Cact
