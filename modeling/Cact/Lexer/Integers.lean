import Cact.Lexer.RoundTrip
import Cact.Lexer.Tiling
import Mathlib.Data.Nat.Digits.Lemmas

/-!
# Integer literals

The scanner takes the longest run of digits and leaves its meaning to {lit}`strtoll`,
which stops at a digit that the base does not have, and to a conversion to
{lit}`int`, which drops the upper bits.  So a literal means what the C standard says
when no digit stops the conversion and the value fits.

Main results:

- Definitions {lit}`IsIntConstant` and {lit}`constantValue`: integer constants of C.
- Definition {lit}`Lexer.MeansWhatItSays`: a call of {lit}`lexer_next` gives an integer
  literal its meaning, and rejects what is no constant or does not fit.
- Theorem {lit}`integer_literal_iff`: exactly when it does.
-/

open Traced

namespace Cact

/-! ## Integer constants -/

/-- Whether a text begins like a hexadecimal constant. -/
def isHexText (s : List UInt8) : Bool :=
  s.headD 0 == byte '0' && (s.tail.headD 0 == byte 'x' || s.tail.headD 0 == byte 'X')

/-- The base of an integer constant. -/
def constantBase (s : List UInt8) : Nat :=
  if isHexText s then 16 else if s.headD 0 == byte '0' then 8 else 10

/-- The digits of an integer constant; the leading zero of an octal one is a digit. -/
def constantDigits (s : List UInt8) : List UInt8 :=
  if isHexText s then s.drop 2 else s

/-- The integer constants of C without a suffix: at least one digit, and only digits of
the base. -/
def IsIntConstant (s : List UInt8) : Prop :=
  constantDigits s ≠ [] ∧ ∀ c ∈ constantDigits s, Lexer.digitValue c < constantBase s

instance : DecidablePred IsIntConstant := fun _ => inferInstanceAs (Decidable (_ ∧ _))

/-- The number that an integer constant denotes. -/
def constantValue (s : List UInt8) : Nat :=
  Nat.ofDigits (constantBase s) ((constantDigits s).map Lexer.digitValue).reverse

namespace Lexer

/-! ## The conversion -/

/-- Horner's rule, from the first digit on. -/
theorem foldl_digits (base acc : Nat) (s : List UInt8) :
    s.foldl (fun acc c => acc * base + digitValue c) acc =
      acc * base ^ s.length + Nat.ofDigits base (s.map digitValue).reverse := by
  induction s generalizing acc with
  | nil => simp
  | cons c s ih =>
      rw [List.foldl_cons, ih, List.map_cons, List.reverse_cons, Nat.ofDigits_append,
        Nat.ofDigits_singleton, List.length_reverse, List.length_map, List.length_cons, pow_succ]
      ring

/-- If all digits belong to the base, all of them count. -/
theorem digitsValue_eq {base : Nat} {s : List UInt8} (h : ∀ c ∈ s, digitValue c < base) :
    digitsValue base s = Nat.ofDigits base (s.map digitValue).reverse := by
  have hall : s.takeWhile (fun c => decide (digitValue c < base)) = s :=
    List.takeWhile_eq_self_iff.mpr fun c hc => decide_eq_true (h c hc)
  rw [digitsValue, hall, foldl_digits]
  simp

/-- {lit}`strtoll` reads the digits of the base that the text begins with. -/
theorem strtoll_eq {s : List UInt8} (hs : s ≠ []) :
    strtoll s = min (digitsValue (constantBase s) (constantDigits s)) 9223372036854775807 := by
  match s, hs with
  | [c], _ =>
      by_cases hzero : c = byte '0'
      · rw [hzero]
        decide
      · have hx : ((0 : UInt8) == byte 'x' || (0 : UInt8) == byte 'X') = false := by decide
        simp [strtoll, constantBase, constantDigits, isHexText, hzero, hx]
  | c :: x :: ds, _ =>
      have htext : isHexText (c :: x :: ds) =
          (c == byte '0' && (x == byte 'x' || x == byte 'X')) := rfl
      rw [strtoll, constantBase, constantDigits, htext, List.headD_cons]
      by_cases hhex : (c == byte '0' && (x == byte 'x' || x == byte 'X')) = true
      · rw [if_pos hhex, if_pos hhex, if_pos hhex]
        rfl
      · rw [if_neg hhex, if_neg hhex, if_neg hhex]
        by_cases hzero : (c == byte '0') = true
        · rw [if_pos hzero, if_pos hzero]
        · rw [if_neg hzero, if_neg hzero]

/-- A constant is converted to its value, up to the largest {lit}`long long`. -/
theorem strtoll_constant {s : List UInt8} (h : IsIntConstant s) :
    strtoll s = min (constantValue s) 9223372036854775807 := by
  have hs : s ≠ [] := by
    rintro rfl
    exact h.1 rfl
  rw [strtoll_eq hs, digitsValue_eq h.2, constantValue]

/-- The conversion to {lit}`int` keeps a value exactly if it fits. -/
theorem toInt_ofNat_strtoll {s : List UInt8} (h : IsIntConstant s) :
    (Int32.ofNat (strtoll s)).toInt = constantValue s ↔ constantValue s < 2147483648 := by
  rw [strtoll_constant h]
  constructor
  · intro heq
    have hlt := (Int32.ofNat (min (constantValue s) 9223372036854775807)).toInt_lt
    rw [heq] at hlt
    omega
  · intro hlt
    rw [Nat.min_eq_left (by omega)]
    exact Int32.toInt_ofNat_of_lt hlt

/-! ## Characters -/

/-- The values of the digits, as a table over the bytes. -/
theorem digitValue_lt_ten (c : UInt8) :
    digitValue c < 10 ↔ byte '0' ≤ c ∧ c ≤ byte '9' := by
  have h₀ : (byte '0').toNat = 48 := rfl
  have h₉ : (byte '9').toNat = 57 := rfl
  unfold digitValue
  simp only [UInt8.le_iff_toNat_le]
  split_ifs <;> omega

theorem digitValue_lt_sixteen (c : UInt8) :
    digitValue c < 16 ↔ (byte '0' ≤ c ∧ c ≤ byte '9') ∨ (byte 'a' ≤ c ∧ c ≤ byte 'f') ∨
      (byte 'A' ≤ c ∧ c ≤ byte 'F') := by
  have h₀ : (byte '0').toNat = 48 := rfl
  have h₉ : (byte '9').toNat = 57 := rfl
  have ha : (byte 'a').toNat = 97 := rfl
  have hf : (byte 'f').toNat = 102 := rfl
  have hA : (byte 'A').toNat = 65 := rfl
  have hF : (byte 'F').toNat = 70 := rfl
  unfold digitValue
  simp only [UInt8.le_iff_toNat_le]
  split_ifs <;> omega

theorem charIsDigit_digitValue {f : Fluf} (hf : f.Standard) (c : UInt8) :
    f.charIsDigit c = decide (digitValue c < 10) := by
  rw [Bool.eq_iff_iff, decide_eq_true_iff, digitValue_lt_ten]
  exact hf.digit c

theorem charIsHex_digitValue {f : Fluf} (hf : f.Standard) (c : UInt8) :
    f.charIsHex c = decide (digitValue c < 16) := by
  rw [Bool.eq_iff_iff, decide_eq_true_iff, digitValue_lt_sixteen]
  exact hf.hex c

/-! ## The text of a literal -/

/-- The digits that the scanner takes from a text, with the prefix of a hexadecimal
literal. -/
def integerText (r : List UInt8) : List UInt8 :=
  if isHexText r then r.take 2 ++ (r.drop 2).takeWhile fun c => decide (digitValue c < 16)
  else r.takeWhile fun c => decide (digitValue c < 10)

/-- The byte behind the digits. -/
def behindInteger (r : List UInt8) : UInt8 := (r.drop (integerText r).length).headD 0

/-- A text begins with digits that are not the beginning of a floating literal. -/
structure BeginsInteger (r : List UInt8) : Prop where
  digit : digitValue (r.headD 0) < 10
  whole : isHexText r = false →
    behindInteger r ≠ byte '.' ∧ behindInteger r ≠ byte 'e' ∧ behindInteger r ≠ byte 'E'

/-- Whether the scanner rejects the digits at the beginning of a text itself: a
hexadecimal prefix without digits, a suffix on an integer, more digits than its buffer
holds. -/
def isRejected (r : List UInt8) : Bool :=
  (isHexText r && (constantDigits (integerText r)).isEmpty) ||
    (!isHexText r && (behindInteger r == byte 'f' || behindInteger r == byte 'F')) ||
    decide (128 ≤ (integerText r).length)

theorem exists_of_isHexText {r : List UInt8} (h : isHexText r = true) :
    ∃ x ds, r = byte '0' :: x :: ds ∧ (x = byte 'x' ∨ x = byte 'X') := by
  have hzero : (0 : UInt8) ≠ byte '0' ∧ (0 : UInt8) ≠ byte 'x' ∧ (0 : UInt8) ≠ byte 'X' := by
    decide
  match r with
  | [] => simp [isHexText, hzero] at h
  | [c] => simp [isHexText, hzero] at h
  | c :: x :: ds =>
      simp only [isHexText, List.headD_cons, List.tail_cons, Bool.and_eq_true, beq_iff_eq,
        Bool.or_eq_true] at h
      obtain ⟨rfl, hx⟩ := h
      exact ⟨x, ds, rfl, hx⟩

/-- The text of a literal has the prefix of what it was cut from. -/
theorem isHexText_integerText (r : List UInt8) : isHexText (integerText r) = isHexText r := by
  unfold integerText
  by_cases h : isHexText r = true
  · rw [if_pos h]
    obtain ⟨x, ds, rfl, hx⟩ := exists_of_isHexText h
    rw [h]
    exact h
  · rw [if_neg h, Bool.eq_false_iff.mpr h, Bool.eq_false_iff]
    intro htext
    -- An x is no digit, so the run of digits does not reach it.
    obtain ⟨x, ds, hr, hx⟩ := exists_of_isHexText htext
    have hmem : x ∈ r.takeWhile fun c => decide (digitValue c < 10) := by
      rw [hr]
      simp
    have hdigit : digitValue x < 10 := by simpa using List.mem_takeWhile_imp hmem
    rcases hx with rfl | rfl
    · exact absurd hdigit (by decide)
    · exact absurd hdigit (by decide)

/-! ## Scanning -/

theorem isHexText_ahead (l : Lexer) :
    (l.peek == byte '0' && (l.peekNext == byte 'x' || l.peekNext == byte 'X')) =
      isHexText l.ahead := by
  rw [peek_eq, peekNext_eq, isHexText]

section

variable {f : Fluf} (hf : f.Standard) {l : Lexer}
include hf

/-- The digits of a decimal literal. -/
theorem reads_digits :
    Reads l (l.ahead.takeWhile fun c => decide (digitValue c < 10))
      (l.advanceWhile f.charIsDigit) := by
  have htest : f.charIsDigit = fun c => decide (digitValue c < 10) :=
    funext (charIsDigit_digitValue hf)
  rw [htest]
  exact exists_reads_advanceWhile (by decide) l

/-- The digits of a hexadecimal literal. -/
theorem reads_hexDigits :
    Reads l (l.ahead.takeWhile fun c => decide (digitValue c < 16))
      (l.advanceWhile f.charIsHex) := by
  have htest : f.charIsHex = fun c => decide (digitValue c < 16) :=
    funext (charIsHex_digitValue hf)
  rw [htest]
  exact exists_reads_advanceWhile (by decide) l

/-- Hexadecimal literals. -/
theorem scanHex_integer (hhex : isHexText l.ahead = true) :
    ((constantDigits (integerText l.ahead)).isEmpty = true →
        (scanHex f l).1.kind = .error) ∧
      ((constantDigits (integerText l.ahead)).isEmpty = false →
        ∃ l', Reads l (integerText l.ahead) l' ∧
          scanHex f l = (numberToken f l' l.cursor false false, l')) := by
  obtain ⟨x, ds, hahead, hx⟩ := exists_of_isHexText hhex
  have hread := reads_advance hahead
  have hread' := reads_advance (hread.rest (s := [byte '0']) hahead)
  have hboth : Reads l [byte '0', x] l.advance.advance := hread.trans hread'
  have hrest : l.advance.advance.ahead = ds := hboth.rest hahead
  have hdigits := reads_hexDigits hf (l := l.advance.advance)
  have htext : integerText l.ahead =
      [byte '0', x] ++ ds.takeWhile fun c => decide (digitValue c < 16) := by
    rw [integerText, if_pos hhex, hahead]
    rfl
  have hempty : constantDigits (integerText l.ahead) =
      ds.takeWhile fun c => decide (digitValue c < 16) := by
    rw [constantDigits, isHexText_integerText, if_pos hhex, htext]
    rfl
  rw [hrest] at hdigits
  rw [hempty]
  unfold scanHex
  dsimp only
  have hpeek : l.advance.advance.peek = ds.headD 0 := by rw [peek_eq, hrest]
  rw [charIsHex_digitValue hf, hpeek]
  by_cases hdigit : digitValue (ds.headD 0) < 16
  · rw [if_pos (by simpa using hdigit)]
    constructor
    · intro hnone
      cases ds with
      | nil => exact absurd hdigit (by decide)
      | cons d ds =>
          rw [List.takeWhile_cons_of_pos (by simpa using hdigit)] at hnone
          cases hnone
    · intro _
      refine ⟨_, ?_, rfl⟩
      rw [htext]
      exact hboth.trans hdigits
  · rw [if_neg (by simpa using hdigit)]
    constructor
    · intro _
      rfl
    · intro hsome
      cases ds with
      | nil => cases hsome
      | cons d ds =>
          rw [List.takeWhile_cons_of_neg (by simpa using hdigit)] at hsome
          cases hsome

/-- The cursor behind the digits of a decimal literal. -/
theorem reads_integerText (hhex : isHexText l.ahead = false) :
    Reads l (integerText l.ahead) (l.advanceWhile f.charIsDigit) ∧
      (l.advanceWhile f.charIsDigit).peek = behindInteger l.ahead := by
  have hread := reads_digits hf (l := l)
  have htext : integerText l.ahead = l.ahead.takeWhile fun c => decide (digitValue c < 10) := by
    rw [integerText, if_neg (by simp [hhex])]
  rw [htext]
  refine ⟨hread, ?_⟩
  have hahead := hread.ahead
  rw [peek_eq, behindInteger, htext]
  congr 1
  nth_rewrite 2 [hahead]
  rw [List.drop_left]

/-- Digits without a point or an exponent, with or without a suffix. -/
theorem scanDecimal_integer (hhex : isHexText l.ahead = false) (h : BeginsInteger l.ahead) :
    scanDecimal f l = scanSuffix f (l.advanceWhile f.charIsDigit) l.cursor false := by
  obtain ⟨hread, hpeek⟩ := reads_integerText hf hhex
  obtain ⟨hdot, he, hE⟩ := h.whole hhex
  unfold scanDecimal scanFraction scanExponent
  rw [if_neg (by simpa [hpeek] using hdot)]
  dsimp only
  rw [if_neg (by simp [hpeek, he, hE])]

/-- What the scanner makes of digits that do not begin a floating literal. -/
theorem scanNumber_integer (h : BeginsInteger l.ahead) :
    (isRejected l.ahead = true → (scanNumber f l).1.kind = .error) ∧
      (isRejected l.ahead = false →
        ∃ l', Reads l (integerText l.ahead) l' ∧
          scanNumber f l =
            (⟨.litInt, l'.makeSpan l.cursor,
              .ofInt (Int32.ofNat (strtoll (integerText l.ahead)))⟩, l')) := by
  -- The text is read; what is left to see is whether it fits the buffer.
  have hfinish {l' : Lexer} (hread : Reads l (integerText l.ahead) l') :
      numberToken f l' l.cursor false false =
        if 128 ≤ (integerText l.ahead).length then l'.lexerErrorToken .numberTooLong l.cursor
        else ⟨.litInt, l'.makeSpan l.cursor,
          .ofInt (Int32.ofNat (strtoll (integerText l.ahead)))⟩ := by
    unfold numberToken
    rw [hread.length, hread.lexeme]
    rfl
  unfold scanNumber
  rw [isHexText_ahead]
  by_cases hhex : isHexText l.ahead = true
  · rw [if_pos hhex]
    obtain ⟨hnone, hsome⟩ := scanHex_integer hf hhex
    cases hempty : (constantDigits (integerText l.ahead)).isEmpty with
    | true =>
        refine ⟨fun _ => hnone hempty, fun hno => ?_⟩
        simp [isRejected, hhex, hempty] at hno
    | false =>
        obtain ⟨l', hread, hscan⟩ := hsome hempty
        rw [hscan, hfinish hread]
        constructor
        · intro hyes
          have hlong : 128 ≤ (integerText l.ahead).length := by
            simpa [isRejected, hhex, hempty] using hyes
          rw [if_pos hlong]
          rfl
        · intro hno
          have hshort : ¬ 128 ≤ (integerText l.ahead).length := by
            simpa [isRejected, hhex, hempty] using hno
          rw [if_neg hshort]
          exact ⟨l', hread, rfl⟩
  · have hdecimal : isHexText l.ahead = false := by simpa using hhex
    rw [if_neg hhex, scanDecimal_integer hf hdecimal h]
    obtain ⟨hread, hpeek⟩ := reads_integerText hf hdecimal
    unfold scanSuffix
    rw [hpeek]
    by_cases hsuffix : (behindInteger l.ahead == byte 'f' ||
        behindInteger l.ahead == byte 'F') = true
    · rw [if_pos hsuffix, if_neg (by simp)]
      refine ⟨fun _ => rfl, fun hno => ?_⟩
      rw [isRejected, hdecimal, hsuffix] at hno
      simp at hno
    · rw [if_neg hsuffix]
      dsimp only
      rw [hfinish hread]
      have hfalse : (behindInteger l.ahead == byte 'f' ||
        behindInteger l.ahead == byte 'F') = false := by simpa using hsuffix
      constructor
      · intro hyes
        rw [isRejected, hdecimal, hfalse] at hyes
        have hlong : 128 ≤ (integerText l.ahead).length := by simpa using hyes
        rw [if_pos hlong]
        rfl
      · intro hno
        rw [isRejected, hdecimal, hfalse] at hno
        have hshort : ¬ 128 ≤ (integerText l.ahead).length := by simpa using hno
        rw [if_neg hshort]
        exact ⟨_, hread, rfl⟩

/-- Integer literals only come from digits that the scanner takes whole. -/
theorem beginsInteger_of_litInt (hfirst : digitValue l.peek < 10 ∨ l.peek = byte '.')
    (h : (scanNumber f l).1.kind = .litInt) : BeginsInteger l.ahead := by
  have hfraction (l : Lexer) (start : Nat) (isFloat32 : Bool) :
      (numberToken f l start true isFloat32).kind ≠ .litInt := by
    unfold numberToken
    dsimp only
    rw [if_pos rfl]
    split_ifs
    · simp [lexerErrorToken]
    · simp
    · simp
  have hsuffix (l : Lexer) (start : Nat) :
      (scanSuffix f l start true).1.kind ≠ .litInt := by
    unfold scanSuffix
    rw [if_pos rfl]
    split
    · exact hfraction _ _ _
    · exact hfraction _ _ _
  unfold scanNumber at h
  rw [isHexText_ahead] at h
  by_cases hhex : isHexText l.ahead = true
  · obtain ⟨x, ds, hahead, _⟩ := exists_of_isHexText hhex
    refine ⟨?_, fun hno => ?_⟩
    · rw [hahead, List.headD_cons]
      decide
    · rw [hhex] at hno
      cases hno
  · have hdecimal : isHexText l.ahead = false := by simpa using hhex
    obtain ⟨hread, hpeek⟩ := reads_integerText hf hdecimal
    rw [if_neg hhex] at h
    unfold scanDecimal scanFraction scanExponent at h
    rw [hpeek] at h
    -- Neither a point nor an exponent comes next: the token would not be an integer.
    by_cases hdot : (behindInteger l.ahead == byte '.') = true
    · rw [if_pos hdot] at h
      dsimp only at h
      split at h
      · exact absurd h (hsuffix _ _)
      · exact absurd h (hsuffix _ _)
      · cases h
    · rw [if_neg hdot] at h
      dsimp only at h
      rw [hpeek] at h
      by_cases he : (behindInteger l.ahead == byte 'e' ||
          behindInteger l.ahead == byte 'E') = true
      · rw [if_pos he] at h
        split at h
        · rename_i habsent
          split at habsent
          · cases habsent
          · cases habsent
        · exact absurd h (hsuffix _ _)
        · cases h
      · have hletters : behindInteger l.ahead ≠ byte 'e' ∧ behindInteger l.ahead ≠ byte 'E' := by
          simpa using he
        refine ⟨?_, fun _ => ⟨by simpa using hdot, hletters⟩⟩
        rw [← peek_eq]
        refine hfirst.resolve_right fun hpoint => hdot ?_
        -- At a point no digit is taken.
        have hnone : integerText l.ahead = [] := by
          rw [integerText, if_neg hhex]
          cases hahead : l.ahead with
          | nil => rfl
          | cons c r =>
              obtain rfl : c = byte '.' := by simpa [peek_eq, hahead] using hpoint
              exact List.takeWhile_cons_of_neg (by decide)
        rw [behindInteger, hnone, List.length_nil, List.drop_zero, ← peek_eq, hpoint]
        rfl

end

/-- Identifiers, keywords and punctuators are no integer literals. -/
theorem scanIdentifier_ne_litInt (f : Fluf) (l : Lexer) :
    (scanIdentifier f l).1.kind ≠ .litInt := by
  intro hint
  have hkind := scanIdentifier_kind f l
  rw [hint] at hkind
  revert hkind
  decide

theorem scanPunctuator_ne_litInt (l : Lexer) (c : UInt8) (start : Nat) :
    (scanPunctuator l c start).1.kind ≠ .litInt := by
  intro hint
  have hkind := scanPunctuator_kind l c start
  rw [hint] at hkind
  revert hkind
  decide

/-- An integer literal comes from the number scanner. -/
theorem lexerNext_litInt {f : Fluf} (hf : f.Standard) {l : Lexer}
    (h : (lexerNext f l).1.kind = .litInt) : BeginsInteger l.skipWhitespace.ahead := by
  unfold lexerNext at h
  dsimp only at h
  split_ifs at h with hend halpha hdigit hdot hpoint
  · exact absurd h (by simp [retTok])
  · exact absurd h (scanIdentifier_ne_litInt f _)
  · rw [charIsDigit_digitValue hf] at hdigit
    exact beginsInteger_of_litInt hf (Or.inl (by simpa using hdigit)) h
  · exact beginsInteger_of_litInt hf (Or.inr (by simpa using hdot)) h
  · exact absurd h (by simp [lexerErrorToken])
  · exact absurd h (scanPunctuator_ne_litInt _ _ _)

/-- Behind the blanks, digits are left to the number scanner. -/
theorem lexerNext_integer {f : Fluf} (hf : f.Standard) {l : Lexer}
    (h : BeginsInteger l.skipWhitespace.ahead) :
    lexerNext f l = scanNumber f l.skipWhitespace := by
  have hpeek : digitValue l.skipWhitespace.peek < 10 := by
    rw [peek_eq]
    exact h.digit
  have hlt : l.skipWhitespace.cursor < l.skipWhitespace.content.length := by
    apply lt_of_peek
    intro hzero
    rw [hzero] at hpeek
    exact absurd hpeek (by decide)
  have hletter : (f.charIsAlpha l.skipWhitespace.peek || l.skipWhitespace.peek == byte '_') =
      false := by
    rw [hf.startsIdentifier_eq, decide_eq_false_iff_not]
    exact IsDigit.not_letter ((digitValue_lt_ten _).mp hpeek)
  unfold lexerNext
  dsimp only
  rw [if_neg (by omega), hletter, charIsDigit_digitValue hf]
  simp [hpeek]

/-! ## The meaning of a literal -/

/-- The bytes that a token spans. -/
def tokenText (l : Lexer) (t : Token) : List UInt8 :=
  between l.content (t.span.start - l.baseOffset) (t.span.stop - l.baseOffset)

/-- What a call of {lit}`lexer_next` makes of integer literals: the text of a literal is
an integer constant and its value is what the constant denotes; and digits that are no
constant or denote too large a number are an error. -/
structure MeansWhatItSays (f : Fluf) (l : Lexer) : Prop where
  value : (lexerNext f l).1.kind = .litInt →
    IsIntConstant (l.tokenText (lexerNext f l).1) ∧
      (lexerNext f l).1.value.asInt.toInt = constantValue (l.tokenText (lexerNext f l).1)
  rejected : BeginsInteger l.skipWhitespace.ahead →
    ¬ (IsIntConstant (integerText l.skipWhitespace.ahead) ∧
      constantValue (integerText l.skipWhitespace.ahead) < 2147483648) →
    (lexerNext f l).1.kind = .error

/-- The digits at the beginning of a text may be converted: unless the scanner rejects
them, no 8 or 9 follows a leading zero, and the number is below the bound. -/
def Convertible (r : List UInt8) : Prop :=
  BeginsInteger r → isRejected r = false →
    (constantBase (integerText r) = 8 →
      ∀ c ∈ integerText r, c ≠ byte '8' ∧ c ≠ byte '9') ∧
    constantValue (integerText r) < 2147483648

/-- The digits the scanner takes are a constant, unless an 8 or a 9 follows a leading
zero. -/
theorem isIntConstant_iff {r : List UInt8} (h : BeginsInteger r)
    (hrejected : isRejected r = false) :
    IsIntConstant (integerText r) ↔
      (constantBase (integerText r) = 8 →
        ∀ c ∈ integerText r, c ≠ byte '8' ∧ c ≠ byte '9') := by
  by_cases hhex : isHexText r = true
  · have htext : isHexText (integerText r) = true := by rw [isHexText_integerText, hhex]
    have hbase : constantBase (integerText r) = 16 := by rw [constantBase, if_pos htext]
    refine ⟨fun _ hoctal => ?_, fun _ => ⟨?_, ?_⟩⟩
    · rw [hbase] at hoctal
      cases hoctal
    · simp only [isRejected, hhex, Bool.true_and, Bool.not_true, Bool.false_and,
        Bool.or_false, Bool.or_eq_false_iff] at hrejected
      intro hnil
      rw [hnil] at hrejected
      exact absurd hrejected.1 (by decide)
    · intro c hc
      obtain ⟨x, ds, rfl, _⟩ := exists_of_isHexText hhex
      rw [constantDigits, if_pos htext, integerText, if_pos hhex] at hc
      rw [hbase]
      simpa using List.mem_takeWhile_imp (show c ∈ ds.takeWhile
        fun c => decide (digitValue c < 16) from hc)
  · have htext : isHexText (integerText r) = false := by
      rw [isHexText_integerText]
      simpa using hhex
    have hdigits : constantDigits (integerText r) = integerText r := by
      rw [constantDigits, if_neg (by simp [htext])]
    have hten : ∀ c ∈ integerText r, digitValue c < 10 := by
      intro c hc
      rw [integerText, if_neg hhex] at hc
      simpa using List.mem_takeWhile_imp hc
    have hne : integerText r ≠ [] := by
      rw [integerText, if_neg hhex]
      cases r with
      | nil => exact absurd h.digit (by decide)
      | cons c r =>
          rw [List.takeWhile_cons_of_pos (by simpa using h.digit)]
          simp
    unfold IsIntConstant
    rw [hdigits]
    by_cases hzero : ((integerText r).headD 0 == byte '0') = true
    · have hbase : constantBase (integerText r) = 8 := by
        rw [constantBase, if_neg (by simp [htext]), if_pos hzero]
      rw [hbase]
      constructor
      · intro hconstant _ c hc
        have height := hconstant.2 c hc
        constructor
        · rintro rfl
          exact absurd height (by decide)
        · rintro rfl
          exact absurd height (by decide)
      · intro hoctal
        refine ⟨hne, fun c hc => ?_⟩
        obtain ⟨h8, h9⟩ := hoctal rfl c hc
        have hdigit := (digitValue_lt_ten c).mp (hten c hc)
        have hvalue : digitValue c = c.toNat - 48 := by
          rw [digitValue, if_pos hdigit]
          rfl
        have h₀ : (byte '0').toNat = 48 := rfl
        have h₈ : (byte '8').toNat = 56 := rfl
        have h₉ : (byte '9').toNat = 57 := rfl
        simp only [ne_eq, UInt8.ext_iff, UInt8.le_iff_toNat_le] at h8 h9 hdigit
        omega
    · have hbase : constantBase (integerText r) = 10 := by
        rw [constantBase, if_neg (by simp [htext]), if_neg hzero]
      rw [hbase]
      refine ⟨fun _ hoctal => ?_, fun _ => ⟨hne, hten⟩⟩
      cases hoctal

end Lexer

open Lexer

/-- Integer literals mean what they say exactly where they can be converted.  For every
source and every call of {lit}`lexer_next` on it, an integer literal that the call returns
is a constant of C with its value, and digits that are no constant or do not fit are an
error, if and only if the digits behind the blanks, should the scanner take them for an
integer, have no 8 or 9 behind a leading zero and stand for a number below the bound. -/
theorem integer_literal_iff (f : Fluf) (hf : f.Standard) (baseOffset : Nat)
    (content : List UInt8) (n : Nat) :
    MeansWhatItSays f (afterCalls f n (init baseOffset content)) ↔
      Convertible (afterCalls f n (init baseOffset content)).skipWhitespace.ahead := by
  generalize afterCalls f n (init baseOffset content) = l
  have hcontent := (reaches_skipWhitespace l).content
  have hbase := (reaches_skipWhitespace l).baseOffset
  -- What is returned for digits that are not rejected.
  have htoken (h : BeginsInteger l.skipWhitespace.ahead)
      (hrejected : isRejected l.skipWhitespace.ahead = false) :
      (lexerNext f l).1.kind = .litInt ∧
        (lexerNext f l).1.value.asInt =
          Int32.ofNat (strtoll (integerText l.skipWhitespace.ahead)) ∧
        l.tokenText (lexerNext f l).1 = integerText l.skipWhitespace.ahead := by
    obtain ⟨l', hread, hscan⟩ := (scanNumber_integer hf h).2 hrejected
    have hbase' : l'.baseOffset = l.baseOffset := by rw [hread.moved, ← hbase]
    rw [lexerNext_integer hf h, hscan]
    refine ⟨rfl, rfl, ?_⟩
    simp only [tokenText, makeSpan, hbase', Nat.add_sub_cancel_left]
    rw [← hcontent]
    exact hread.between
  constructor
  · intro hmeans h hrejected
    obtain ⟨hkind, hvalue, htext⟩ := htoken h hrejected
    have hsays := hmeans.value hkind
    rw [hvalue, htext] at hsays
    exact ⟨(isIntConstant_iff h hrejected).mp hsays.1,
      (toInt_ofNat_strtoll hsays.1).mp hsays.2⟩
  · intro hconvertible
    constructor
    · intro hkind
      have h := lexerNext_litInt hf hkind
      have hrejected : isRejected l.skipWhitespace.ahead = false := by
        rw [Bool.eq_false_iff]
        intro hyes
        have herror := (scanNumber_integer hf h).1 hyes
        rw [← lexerNext_integer hf h, hkind] at herror
        cases herror
      obtain ⟨_, hvalue, htext⟩ := htoken h hrejected
      obtain ⟨hoctal, hfits⟩ := hconvertible h hrejected
      have hconstant := (isIntConstant_iff h hrejected).mpr hoctal
      rw [hvalue, htext]
      exact ⟨hconstant, (toInt_ofNat_strtoll hconstant).mpr hfits⟩
    · intro h hbad
      by_cases hrejected : isRejected l.skipWhitespace.ahead = true
      · rw [lexerNext_integer hf h]
        exact (scanNumber_integer hf h).1 hrejected
      · have hno : isRejected l.skipWhitespace.ahead = false := by simpa using hrejected
        obtain ⟨hoctal, hfits⟩ := hconvertible h hno
        exact absurd ⟨(isIntConstant_iff h hno).mpr hoctal, hfits⟩ hbad

/-- A literal that fits: the octal number of two digits that denotes seven. -/
theorem integer_literal_iff_octal :
    MeansWhatItSays Fluf.ascii (afterCalls Fluf.ascii 0 (init 0 [byte '0', byte '7'])) :=
  (integer_literal_iff Fluf.ascii Fluf.ascii_standard 0 [byte '0', byte '7'] 0).mpr
    fun _ _ => by decide +kernel

/-- The text {lit}`09` is no constant, and {lit}`4294967296` is too large, but the lexer
returns integer literals with the value zero for both. -/
theorem integer_literal_zero :
    ¬ MeansWhatItSays Fluf.ascii (init 0 [byte '0', byte '9']) ∧
      (lexerNext Fluf.ascii (init 0 [byte '0', byte '9'])).1 =
        ⟨.litInt, ⟨0, 2⟩, .ofInt 0⟩ ∧
      ¬ MeansWhatItSays Fluf.ascii (init 0 ("4294967296".toList.map byte)) ∧
      (lexerNext Fluf.ascii (init 0 ("4294967296".toList.map byte))).1 =
        ⟨.litInt, ⟨0, 10⟩, .ofInt 0⟩ := by
  refine ⟨?_, by decide, ?_, by decide⟩
  · intro h
    have hconstant := (h.value (by decide)).1
    exact absurd hconstant (by decide)
  · intro h
    have hvalue := (h.value (by decide)).2
    exact absurd hvalue (by decide)

end Cact
