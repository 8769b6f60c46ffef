import Cact.Library.LongestPrefix
import Cact.Lexer.Integers

/-!
# Longest match

Every kind of token has a regular definition.  A token that the lexer returns belongs to
the one of its kind, and is the longest prefix of what lies ahead that belongs to any:
numbers because every part of a numeral is taken as far as it goes and none can go on
where the next one begins, names because all their characters are taken, and punctuators
because the second character is looked at where it matters.

Main results:

- Definition {lit}`TokenKind.language`: the regular definitions.
- Theorem {lit}`Lexer.scanNumber_longest`: numbers.
- Theorem {lit}`longest_match`: all tokens.
-/

open Language
open scoped Computability

namespace Cact

/-! ## Regular definitions -/

/-- The signs of an exponent. -/
def IsSign (c : UInt8) : Prop := c = byte '+' ∨ c = byte '-'

/-- A sign is no digit: {lit}`scanSign` cannot eat into the digits of an exponent. -/
theorem IsSign.not_digit {c : UInt8} (h : IsSign c) : ¬ IsDigit c := by
  rcases h with rfl | rfl <;> decide

/-- {lit}`e` and {lit}`E` are no digits, so the digits in front of an exponent end at its mark. -/
theorem IsExponentMark.not_digit {c : UInt8} (h : IsExponentMark c) : ¬ IsDigit c := by
  rcases h with rfl | rfl <;> decide

/-- The suffixes {lit}`f` and {lit}`F` are no digits. -/
theorem IsFloatMark.not_digit {c : UInt8} (h : IsFloatMark c) : ¬ IsDigit c := by
  rcases h with rfl | rfl <;> decide

/-- Names, keywords among them. -/
def word : Language UInt8 := letter IsLetter * (letter fun c => IsLetter c ∨ IsDigit c)∗

/-- One or more digits. -/
def digits : Language UInt8 := letter IsDigit * (letter IsDigit)∗

/-- A point and the digits behind it. -/
def fraction : Language UInt8 := letter (· = byte '.') * (letter IsDigit)∗

/-- An exponent. -/
def exponent : Language UInt8 := letter IsExponentMark * ((1 + letter IsSign) * digits)

/-- Integers in decimal and hexadecimal. -/
def integer : Language UInt8 :=
  digits +
    letter (· = byte '0') * (letter IsHexMark * (letter IsHexDigit * (letter IsHexDigit)∗))

/-- Numbers with a point, with a digit at least on one side of it, and with an exponent or
without; and numbers without a point, with an exponent. -/
def real : Language UInt8 :=
  (digits * fraction + (letter IsDigit)∗ * (letter (· = byte '.') * digits)) * (1 + exponent) +
    digits * exponent

/-- The texts of keywords. -/
def keyword : Language UInt8 := {s | ∃ e ∈ keywords, e.2 = s}

/-- The texts of punctuators. -/
def mark : Language UInt8 := {s | ∃ e ∈ punctuators, e.2 = s}

/-- The regular definition of a kind of token. -/
def TokenKind.language : TokenKind → Language UInt8
  | .eof | .error => 0
  | .ident => word - keyword
  | .litInt => integer
  | .litDouble => real
  | .litFloat => real * letter IsFloatMark
  | kind => {s | kind.text = some s}

/-- The texts of all tokens. -/
def anyToken : Language UInt8 := {s | ∃ kind : TokenKind, s ∈ kind.language}

/-- Integers and reals, with too many parts or too few: any run of digits, then a fraction,
an exponent and a mark, all of which may be missing. -/
def numeral : Language UInt8 :=
  (letter IsDigit)∗ * ((1 + fraction) * ((1 + exponent) * (1 + letter IsFloatMark)))

/-- A run of at least one digit is a run of digits. -/
theorem digits_le {s : List UInt8} (h : s ∈ digits) : s ∈ (letter IsDigit)∗ :=
  mem_letter_kstar.mpr (mem_letters.mp h).2

/-- A real is a run of digits, a fraction and an exponent. -/
theorem real_le {s : List UInt8} (h : s ∈ real) :
    s ∈ (letter IsDigit)∗ * ((1 + fraction) * (1 + exponent)) := by
  rcases (mem_add _ _ s).mp h with hpoint | hexp
  · obtain ⟨_, hsides, e, he, rfl⟩ := mem_mul.mp hpoint
    rcases (mem_add _ _ _).mp hsides with hleft | hright
    · obtain ⟨w, hw, fr, hfr, rfl⟩ := mem_mul.mp hleft
      rw [List.append_assoc]
      exact append_mem_mul (digits_le hw) (append_mem_mul (Or.inr hfr) he)
    · obtain ⟨w, hw, fr, hfr, rfl⟩ := mem_mul.mp hright
      obtain ⟨c, ds, hc, hds, rfl⟩ := mem_letter_mul.mp hfr
      rw [List.append_assoc]
      refine append_mem_mul hw (append_mem_mul (Or.inr ?_) he)
      exact mem_letter_mul.mpr ⟨c, ds, hc, digits_le hds, rfl⟩
  · obtain ⟨w, hw, e, he, rfl⟩ := mem_mul.mp hexp
    refine append_mem_mul (digits_le hw) ?_
    rw [← List.nil_append e]
    exact append_mem_mul (Or.inl rfl) (Or.inr he)

/-- A real number with or without the suffix is a decimal numeral. -/
theorem real_numeral {s t : List UInt8} (h : s ∈ real) (ht : t ∈ 1 + letter IsFloatMark) :
    s ++ t ∈ numeral := by
  have hmul := append_mem_mul (real_le h) ht
  rw [mul_assoc, mul_assoc] at hmul
  exact hmul

/-- A plain run of digits is a decimal numeral. -/
theorem digits_numeral {s : List UInt8} (h : s ∈ digits) : s ∈ numeral := by
  rw [← List.append_nil s]
  exact append_mem_mul (digits_le h)
    ⟨[], Or.inl rfl, [], ⟨[], Or.inl rfl, [], Or.inl rfl, rfl⟩, rfl⟩

/-! ## First characters -/

/-- Words with a first character of a class. -/
def StartsWith (P : UInt8 → Prop) (s : List UInt8) : Prop := ∃ c t, s = c :: t ∧ P c

/-- Every word starts with a letter or an underscore. -/
theorem word_starts {s : List UInt8} (h : s ∈ word) : StartsWith IsLetter s := by
  obtain ⟨c, t, hc, _, rfl⟩ := mem_letter_mul.mp h
  exact ⟨c, t, rfl, hc⟩

/-- Whatever follows them, digits start with a digit. -/
theorem digits_starts {s t : List UInt8} (h : s ∈ digits) : StartsWith IsDigit (s ++ t) := by
  obtain ⟨c, u, hc, _, rfl⟩ := mem_letter_mul.mp h
  exact ⟨c, u ++ t, rfl, hc⟩

/-- A real number starts with a digit or, as {lit}`.5` does, with the point. -/
theorem real_starts {s t : List UInt8} (h : s ∈ real) :
    StartsWith (fun c => IsDigit c ∨ c = byte '.') (s ++ t) := by
  have hdigits {s t : List UInt8} (h : s ∈ digits) :
      StartsWith (fun c => IsDigit c ∨ c = byte '.') (s ++ t) := by
    obtain ⟨c, u, hs, hc⟩ := digits_starts (t := t) h
    exact ⟨c, u, hs, Or.inl hc⟩
  rcases (mem_add _ _ s).mp h with hpoint | hexp
  · obtain ⟨_, hsides, e, he, rfl⟩ := mem_mul.mp hpoint
    rcases (mem_add _ _ _).mp hsides with hleft | hright
    · obtain ⟨w, hw, fr, hfr, rfl⟩ := mem_mul.mp hleft
      rw [List.append_assoc, List.append_assoc]
      exact hdigits hw
    · obtain ⟨w, hw, fr, hfr, rfl⟩ := mem_mul.mp hright
      obtain ⟨c, ds, rfl, hds, rfl⟩ := mem_letter_mul.mp hfr
      cases w with
      | nil => exact ⟨_, _, rfl, Or.inr rfl⟩
      | cons d w => exact ⟨d, _, rfl, Or.inl (mem_letter_kstar.mp hw d List.mem_cons_self)⟩
  · obtain ⟨w, hw, e, he, rfl⟩ := mem_mul.mp hexp
    rw [List.append_assoc]
    exact hdigits hw

/-- What may stand behind the digits of a numeral and its fraction. -/
theorem tail_begins : Begins (fun c => IsExponentMark c ∨ IsFloatMark c)
    ((1 + exponent) * (1 + letter IsFloatMark)) :=
  ((begins_letter_mul _ _).optional.mono fun _ => Or.inl).mul
    ((begins_letter _).optional.mono fun _ => Or.inr)

/-! ## Numbers -/

namespace Lexer

/-- A character that is not zero lies ahead. -/
theorem ahead_of_peek {l : Lexer} (h : l.peek ≠ 0) : l.ahead = l.peek :: l.advance.ahead :=
  ahead_eq (lt_of_peek h)

/-- {lit}`lexer_peek` is the first byte ahead where there is one. -/
theorem peek_of_head {l : Lexer} {c : UInt8} (h : l.ahead.head? = some c) : l.peek = c := by
  rw [peek_eq, List.headD_eq_head?_getD, h]
  rfl

section

variable {f : Fluf} (hf : f.Standard) {l : Lexer}
include hf

/-- A run of digits. -/
theorem advanceWhile_longest :
    ∃ s, Reads l s (l.advanceWhile f.charIsDigit) ∧ Longest (letter IsDigit)∗ l.ahead s := by
  have htest : f.charIsDigit = fun c => decide (IsDigit c) := funext hf.charIsDigit_eq
  rw [htest]
  exact ⟨_, exists_reads_advanceWhile (by decide) l, longest_takeWhile IsDigit l.ahead⟩

/-- A run of digits where there is one. -/
theorem advanceWhile_digits_longest (hdigit : IsDigit l.peek) :
    ∃ s, Reads l s (l.advanceWhile f.charIsDigit) ∧ Longest digits l.ahead s := by
  obtain ⟨s, hread, hlongest⟩ := advanceWhile_longest hf (l := l)
  refine ⟨s, hread, hlongest.restrict ?_ fun t ht _ => digits_le ht⟩
  refine mem_letters.mpr ⟨?_, mem_letter_kstar.mp hlongest.mem⟩
  rintro rfl
  have hne : l.peek ≠ 0 := by
    intro hzero
    rw [hzero] at hdigit
    exact absurd hdigit (by decide)
  have hone := hlongest.longest [l.peek] (mem_letter_kstar.mpr (by simpa using hdigit))
    ⟨_, (ahead_of_peek hne).symm⟩
  exact absurd hone (by simp)

/-- {lit}`scanFraction` reads the longest fraction ahead, or nothing where none is there. -/
theorem scanFraction_longest :
    ∃ s, Reads l s (scanFraction f l).2 ∧ Longest (1 + fraction) l.ahead s ∧
      (if (scanFraction f l).1 then s ∈ fraction else s = []) := by
  unfold scanFraction
  by_cases hdot : l.peek = byte '.'
  · rw [if_pos (by simpa using hdot)]
    have hahead := ahead_of_peek (l := l) (by rw [hdot]; decide)
    obtain ⟨s, hread, hlongest⟩ := advanceWhile_longest hf (l := l.advance)
    have hpoint := hlongest.letter_mul (P := (· = byte '.')) hdot
    rw [← hahead] at hpoint
    exact ⟨l.peek :: s, (reads_advance hahead).trans hread, hpoint.optional, hpoint.mem⟩
  · rw [if_neg (by simpa using hdot)]
    refine ⟨[], Reads.refl l, longest_absent (begins_letter_mul _ _) ?_, rfl⟩
    rintro c hhead rfl
    exact hdot (peek_of_head hhead)

omit hf in
/-- {lit}`scanSign` reads a sign where one is ahead. -/
theorem scanSign_longest :
    ∃ s, Reads l s l.scanSign ∧ Longest (1 + letter IsSign) l.ahead s := by
  unfold scanSign
  by_cases hsign : IsSign l.peek
  · rw [if_pos (by simpa [IsSign] using hsign)]
    have hne : l.peek ≠ 0 := by
      intro hzero
      rw [hzero] at hsign
      exact absurd hsign (by unfold IsSign; decide)
    have hahead := ahead_of_peek hne
    refine ⟨[l.peek], reads_advance hahead, ?_⟩
    rw [hahead]
    exact (longest_letter hsign _).optional
  · rw [if_neg (by simpa [IsSign] using hsign)]
    refine ⟨[], Reads.refl l, longest_absent (begins_letter _) fun c hhead hc => ?_⟩
    exact hsign (peek_of_head hhead ▸ hc)

/-- What the scanner does where an exponent may stand. -/
theorem scanExponent_longest :
    match scanExponent f l with
    | .absent => Longest (1 + exponent) l.ahead []
    | .present l' => ∃ s ∈ exponent, Reads l s l' ∧ Longest (1 + exponent) l.ahead s
    | .noDigits _ => True := by
  unfold scanExponent
  by_cases hmark : IsExponentMark l.peek
  · rw [if_pos (by simpa [IsExponentMark] using hmark)]
    dsimp only
    by_cases hdigit : IsDigit l.advance.scanSign.peek
    · rw [hf.charIsDigit_eq, if_pos (by simpa using hdigit)]
      have hne : l.peek ≠ 0 := by
        intro hzero
        rw [hzero] at hmark
        exact absurd hmark (by unfold IsExponentMark; decide)
      have hahead := ahead_of_peek hne
      obtain ⟨s, hsign, hslongest⟩ := scanSign_longest (l := l.advance)
      obtain ⟨ds, hdigits, hdlongest⟩ := advanceWhile_digits_longest hf hdigit
      have hsigned : Longest ((1 + letter IsSign) * digits) l.advance.ahead (s ++ ds) := by
        rw [hsign.ahead] at hslongest ⊢
        exact hslongest.mul hdlongest (over_letter IsSign).optional (begins_letter_mul _ _)
          fun c hc => hc.not_digit
      have hexp := hsigned.letter_mul hmark
      rw [← hahead] at hexp
      exact ⟨_, hexp.mem, (reads_advance hahead).trans (hsign.trans hdigits), hexp.optional⟩
    · rw [hf.charIsDigit_eq, if_neg (by simpa using hdigit)]
      trivial
  · rw [if_neg (by simpa [IsExponentMark] using hmark)]
    refine longest_absent (begins_letter_mul _ _) fun c hhead hc => ?_
    exact hmark (peek_of_head hhead ▸ hc)

omit hf in
/-- The kind of a number that is not rejected. -/
theorem numberToken_kind {start : Nat} {isFraction isFloat32 : Bool}
    (h : (numberToken f l start isFraction isFloat32).kind ≠ .error) :
    (numberToken f l start isFraction isFloat32).kind =
      if isFraction then if isFloat32 then .litFloat else .litDouble else .litInt := by
  unfold numberToken at h ⊢
  dsimp only at h ⊢
  by_cases hlong : 128 ≤ l.cursor - start
  · rw [if_pos hlong] at h
    exact absurd rfl h
  · rw [if_neg hlong]
    cases isFraction <;> cases isFloat32 <;> rfl

omit hf in
/-- {lit}`scanSuffix` reads the suffix where one is ahead; an error token leaves nothing to say. -/
theorem scanSuffix_longest {start : Nat} {isFraction : Bool}
    (h : (scanSuffix f l start isFraction).1.kind ≠ .error) :
    ∃ s, Reads l s (scanSuffix f l start isFraction).2 ∧
      Longest (1 + letter IsFloatMark) l.ahead s ∧
      (scanSuffix f l start isFraction).1.kind =
        (if isFraction then if s = [] then .litDouble else .litFloat else .litInt) ∧
      (isFraction = false → s = []) := by
  unfold scanSuffix at h ⊢
  by_cases hmark : IsFloatMark l.peek
  · have htest : (l.peek == byte 'f' || l.peek == byte 'F') = true := by
      simpa [IsFloatMark] using hmark
    rw [if_pos htest] at h ⊢
    cases isFraction with
    | false => exact absurd rfl h
    | true =>
        have hne : l.peek ≠ 0 := by
          intro hzero
          rw [hzero] at hmark
          exact absurd hmark (by unfold IsFloatMark; decide)
        have hahead := ahead_of_peek hne
        refine ⟨[l.peek], reads_advance hahead, ?_, ?_, by simp⟩
        · rw [hahead]
          exact (longest_letter hmark _).optional
        · rw [if_pos rfl] at h
          simpa using numberToken_kind h
  · have htest : ¬ (l.peek == byte 'f' || l.peek == byte 'F') = true := by
      simpa [IsFloatMark] using hmark
    rw [if_neg htest] at h ⊢
    refine ⟨[], Reads.refl l, longest_absent (begins_letter _) fun c hhead hc => ?_, ?_,
      fun _ => rfl⟩
    · exact hmark (peek_of_head hhead ▸ hc)
    · simpa using numberToken_kind h

/-- The parts of a decimal number. -/
structure IsParts (w fr ex sf : List UInt8) : Prop where
  whole : w ∈ (letter IsDigit)∗
  fraction : fr ∈ 1 + fraction
  exponent : ex ∈ 1 + exponent
  suffix : sf ∈ 1 + letter IsFloatMark
  isInteger : fr = [] → ex = [] → sf = []

/-- The kind of a decimal number, by its parts. -/
def partsKind (fr ex sf : List UInt8) : TokenKind :=
  if fr = [] ∧ ex = [] then .litInt else if sf = [] then .litDouble else .litFloat

/-- How a number begins: with a digit, or with a point and a digit. -/
def StartsNumber (s : List UInt8) : Prop :=
  StartsWith IsDigit s ∨ ∃ d t, s = byte '.' :: d :: t ∧ IsDigit d

omit hf in
/-- A number has a digit in front of its exponent. -/
theorem IsParts.has_digit {w fr ex sf : List UInt8} (h : IsParts w fr ex sf)
    (hstart : StartsNumber (w ++ (fr ++ (ex ++ sf)))) :
    w ∈ digits ∨ fr ∈ letter (· = byte '.') * digits := by
  have htail {c : UInt8} {t : List UInt8} (heq : ex ++ sf = c :: t) :
      IsExponentMark c ∨ IsFloatMark c := by
    refine tail_begins c t ?_
    rw [← heq]
    exact append_mem_mul h.exponent h.suffix
  have hnot {c : UInt8} (hc : IsExponentMark c ∨ IsFloatMark c) : ¬ IsDigit c :=
    hc.elim IsExponentMark.not_digit IsFloatMark.not_digit
  cases w with
  | cons c w => exact Or.inl (mem_letters.mpr ⟨by simp, mem_letter_kstar.mp h.whole⟩)
  | nil =>
      rw [List.nil_append] at hstart
      rcases h.fraction with rfl | hfr
      · rcases hstart with ⟨c, t, heq, hc⟩ | ⟨d, t, heq, hd⟩
        · exact absurd hc (hnot (htail heq))
        · have hpoint : ¬ (IsExponentMark (byte '.') ∨ IsFloatMark (byte '.')) := by
            unfold IsExponentMark IsFloatMark
            decide
          exact absurd (htail heq) hpoint
      · obtain ⟨c, ds, rfl, hds, rfl⟩ := mem_letter_mul.mp hfr
        refine Or.inr (mem_letter_mul.mpr ⟨_, ds, rfl, mem_letters.mpr ⟨?_, ?_⟩, rfl⟩)
        · rintro rfl
          rcases hstart with ⟨c, t, heq, hc⟩ | ⟨d, t, heq, hd⟩
          · cases heq
            exact absurd hc (by decide)
          · exact absurd hd (hnot (htail (List.cons.inj heq).2))
        · exact mem_letter_kstar.mp hds

omit hf in
/-- The parts make a text of their kind. -/
theorem IsParts.language {w fr ex sf : List UInt8} (h : IsParts w fr ex sf)
    (hstart : StartsNumber (w ++ (fr ++ (ex ++ sf)))) :
    w ++ (fr ++ (ex ++ sf)) ∈ (partsKind fr ex sf).language := by
  have hdigit := h.has_digit hstart
  by_cases hint : fr = [] ∧ ex = []
  · obtain ⟨rfl, rfl⟩ := hint
    obtain rfl := h.isInteger rfl rfl
    rw [partsKind, if_pos ⟨rfl, rfl⟩, List.append_nil, List.append_nil, List.append_nil]
    refine Or.inl (hdigit.resolve_right fun hfr => ?_)
    obtain ⟨_, _, _, _, heq⟩ := mem_letter_mul.mp hfr
    cases heq
  · have hreal : w ++ (fr ++ ex) ∈ real := by
      rcases h.fraction with rfl | hfr
      · have hw : w ∈ digits := by
          refine hdigit.resolve_right fun hfr => ?_
          obtain ⟨_, _, _, _, heq⟩ := mem_letter_mul.mp hfr
          cases heq
        rcases h.exponent with rfl | hex
        · exact absurd ⟨rfl, rfl⟩ hint
        · exact Or.inr (append_mem_mul hw hex)
      · rw [← List.append_assoc]
        refine Or.inl (append_mem_mul ?_ h.exponent)
        rcases hdigit with hw | hds
        · exact Or.inl (append_mem_mul hw hfr)
        · exact Or.inr (append_mem_mul h.whole hds)
    have hassoc : w ++ (fr ++ (ex ++ sf)) = (w ++ (fr ++ ex)) ++ sf := by simp
    rw [hassoc, partsKind, if_neg hint]
    rcases h.suffix with rfl | hsf
    · rw [if_pos rfl, List.append_nil]
      exact hreal
    · obtain ⟨c, hc, rfl⟩ := hsf
      rw [if_neg (by simp)]
      exact append_mem_mul hreal ⟨c, hc, rfl⟩

omit hf in
/-- The parts are longest together if each is where it stands: none of them goes on with a
character that begins a later one. -/
theorem longest_parts {w fr ex sf r : List UInt8}
    (hw : Longest (letter IsDigit)∗ (w ++ (fr ++ (ex ++ r))) w)
    (hfr : Longest (1 + Cact.fraction) (fr ++ (ex ++ r)) fr)
    (hex : Longest (1 + Cact.exponent) (ex ++ r) ex)
    (hsf : Longest (1 + letter IsFloatMark) r sf) :
    Longest numeral (w ++ (fr ++ (ex ++ r))) (w ++ (fr ++ (ex ++ sf))) := by
  have hfraction : Over (fun c => c = byte '.' ∨ IsDigit c) Cact.fraction :=
    ((over_letter _).mono fun _ => Or.inl).mul ((over_kstar _).mono fun _ => Or.inr)
  have hexponent : Over (fun c => IsExponentMark c ∨ IsSign c ∨ IsDigit c) Cact.exponent :=
    ((over_letter _).mono fun _ => Or.inl).mul
      (((over_letter _).optional.mono fun _ hc => Or.inr (Or.inl hc)).mul
        (((over_letter _).mul (over_kstar _)).mono fun _ hc => Or.inr (Or.inr hc)))
  have hsuffix : Begins IsFloatMark (1 + letter IsFloatMark) := (begins_letter _).optional
  have hbehind : Begins (fun c => c = byte '.' ∨ IsExponentMark c ∨ IsFloatMark c)
      ((1 + Cact.fraction) * ((1 + Cact.exponent) * (1 + letter IsFloatMark))) :=
    ((begins_letter_mul _ _).optional.mono fun _ => Or.inl).mul (tail_begins.mono fun _ => Or.inr)
  refine hw.mul
    (hfr.mul (hex.mul hsf hexponent.optional hsuffix ?_) hfraction.optional tail_begins ?_)
    (over_kstar _) hbehind ?_
  · rintro c (hc | hc | hc) hf
    · rcases hc with rfl | rfl <;> revert hf <;> unfold IsFloatMark <;> decide
    · rcases hc with rfl | rfl <;> revert hf <;> unfold IsFloatMark <;> decide
    · exact hf.not_digit hc
  · rintro c (rfl | hc) (he | hf)
    · revert he
      unfold IsExponentMark
      decide
    · revert hf
      unfold IsFloatMark
      decide
    · exact he.not_digit hc
    · exact hf.not_digit hc
  · rintro c hc (rfl | he | hf)
    · exact absurd hc (by decide)
    · exact he.not_digit hc
    · exact hf.not_digit hc

/-- Decimal numbers are read part by part. -/
theorem scanDecimal_parts (h : (scanDecimal f l).1.kind ≠ .error) :
    ∃ w fr ex sf, Reads l (w ++ (fr ++ (ex ++ sf))) (scanDecimal f l).2 ∧
      Longest numeral l.ahead (w ++ (fr ++ (ex ++ sf))) ∧ IsParts w fr ex sf ∧
      (scanDecimal f l).1.kind = partsKind fr ex sf := by
  obtain ⟨w, hw, hwlongest⟩ := advanceWhile_longest hf (l := l)
  obtain ⟨fr, hfr, hfrlongest, hdot⟩ := scanFraction_longest hf (l := l.advanceWhile f.charIsDigit)
  unfold scanDecimal at h ⊢
  rcases hscan : scanFraction f (l.advanceWhile f.charIsDigit) with ⟨hasDot, l₁⟩
  rw [hscan] at hfr hdot h
  dsimp only at hfr hdot h ⊢
  -- The exponent and the suffix, whichever way the exponent went.
  have hrest {l₂ : Lexer} {ex : List UInt8} {isFraction : Bool} (hex : Reads l₁ ex l₂)
      (hexlongest : Longest (1 + exponent) l₁.ahead ex)
      (hflag : isFraction = false ↔ fr = [] ∧ ex = [])
      (hkind : (scanSuffix f l₂ l.cursor isFraction).1.kind ≠ .error) :
      ∃ w fr ex sf, Reads l (w ++ (fr ++ (ex ++ sf))) (scanSuffix f l₂ l.cursor isFraction).2 ∧
        Longest numeral l.ahead (w ++ (fr ++ (ex ++ sf))) ∧ IsParts w fr ex sf ∧
        (scanSuffix f l₂ l.cursor isFraction).1.kind = partsKind fr ex sf := by
    obtain ⟨sf, hsf, hsflongest, heq, hnone⟩ := scanSuffix_longest hkind
    refine ⟨w, fr, ex, sf, hw.trans (hfr.trans (hex.trans hsf)), ?_, ⟨hwlongest.mem,
      hfrlongest.mem, hexlongest.mem, hsflongest.mem, fun hf he => hnone (hflag.mpr ⟨hf, he⟩)⟩, ?_⟩
    · rw [hw.ahead, hfr.ahead, hex.ahead] at hwlongest ⊢
      rw [hfr.ahead, hex.ahead] at hfrlongest
      rw [hex.ahead] at hexlongest
      exact longest_parts hwlongest hfrlongest hexlongest hsflongest
    · rw [heq, partsKind]
      cases isFraction with
      | false => simp [hflag.mp rfl]
      | true =>
          have hne : ¬ (fr = [] ∧ ex = []) := fun hboth => by
            cases hflag.mpr hboth
          simp [hne]
  have hexponent := scanExponent_longest hf (l := l₁)
  cases hex : scanExponent f l₁ with
  | absent =>
      rw [hex] at hexponent h
      refine hrest (Reads.refl l₁) hexponent ?_ h
      cases hasDot with
      | false => exact ⟨fun _ => ⟨hdot, rfl⟩, fun _ => rfl⟩
      | true =>
          obtain ⟨c, t, _, _, rfl⟩ := mem_letter_mul.mp hdot
          simp
  | present l₂ =>
      rw [hex] at hexponent h
      obtain ⟨ex, hmem, hread, hlongest⟩ := hexponent
      refine hrest hread hlongest ?_ h
      obtain ⟨c, t, _, _, rfl⟩ := mem_letter_mul.mp hmem
      simp
  | noDigits l₂ =>
      rw [hex] at h
      exact absurd rfl h

omit hf in
/-- The hexadecimal digits are the bytes whose value is below sixteen. -/
theorem isHexDigit_iff (c : UInt8) : IsHexDigit c ↔ digitValue c < 16 :=
  (digitValue_lt_sixteen c).symm

/-- The numbers. -/
def number : Language UInt8 := integer + (real + real * letter IsFloatMark)

omit hf in
/-- Numbers that do not begin like hexadecimal ones are numerals. -/
theorem number_le {t r : List UInt8} (ht : t ∈ number) (hpre : t <+: r)
    (hhex : isHexText r = false) : t ∈ numeral := by
  rcases ht with (hdigits | hhexint) | (hreal | hfloat)
  · exact digits_numeral hdigits
  · obtain ⟨_, _, rfl, hmark, rfl⟩ := mem_letter_mul.mp hhexint
    obtain ⟨x, _, hx, _, rfl⟩ := mem_letter_mul.mp hmark
    obtain ⟨u, rfl⟩ := hpre
    rcases hx with rfl | rfl
    · cases hhex
    · cases hhex
  · rw [← List.append_nil t]
    exact real_numeral hreal (Or.inl rfl)
  · obtain ⟨u, hu, v, hv, rfl⟩ := mem_mul.mp hfloat
    exact real_numeral hu (Or.inr hv)

omit hf in
/-- The letter behind the zero of a hexadecimal number ends every other numeral. -/
theorem longest_zero {x : UInt8} (hx : IsHexMark x) (r : List UInt8) :
    Longest numeral (byte '0' :: x :: r) [byte '0'] := by
  have hhead {P : UInt8 → Prop} (hP : ¬ P (byte 'x') ∧ ¬ P (byte 'X')) (c : UInt8)
      (hc : (x :: r).head? = some c) : ¬ P c := by
    cases hc
    rcases hx with rfl | rfl
    · exact hP.1
    · exact hP.2
  have hzero : Longest (letter IsDigit)∗ ([byte '0'] ++ ([] ++ ([] ++ x :: r))) [byte '0'] := by
    have hrun := longest_takeWhile IsDigit (byte '0' :: x :: r)
    have htake : (byte '0' :: x :: r).takeWhile (fun c => decide (IsDigit c)) = [byte '0'] := by
      rw [List.takeWhile_cons_of_pos (by decide)]
      rcases hx with rfl | rfl
      · rw [List.takeWhile_cons_of_neg (by decide)]
      · rw [List.takeWhile_cons_of_neg (by decide)]
    rw [htake] at hrun
    exact hrun
  exact longest_parts hzero
    (longest_absent (begins_letter_mul _ _) (hhead (by decide)))
    (longest_absent (begins_letter_mul _ _) (hhead (by unfold IsExponentMark; decide)))
    (longest_absent (begins_letter _) (hhead (by unfold IsFloatMark; decide)))

/-- Hexadecimal numbers. -/
theorem scanHex_longest (hhex : isHexText l.ahead = true)
    (h : (scanHex f l).1.kind ≠ .error) :
    ∃ s, Reads l s (scanHex f l).2 ∧ s ∈ (scanHex f l).1.kind.language ∧
      Longest number l.ahead s := by
  obtain ⟨hnone, hsome⟩ := scanHex_integer hf hhex
  obtain ⟨l', hread, hscan⟩ := hsome (by
    rw [Bool.eq_false_iff]
    exact fun hempty => h (hnone hempty))
  obtain ⟨x, ds, hahead, hx⟩ := exists_of_isHexText hhex
  have htext : integerText l.ahead =
      byte '0' :: x :: ds.takeWhile fun c => decide (IsHexDigit c) := by
    have htest : (fun c => decide (digitValue c < 16)) = fun c => decide (IsHexDigit c) :=
      funext fun c => decide_eq_decide.mpr (isHexDigit_iff c).symm
    rw [integerText, if_pos hhex, hahead, htest]
    rfl
  have hrun := longest_takeWhile IsHexDigit ds
  have hdigits : Longest (letter IsHexDigit * (letter IsHexDigit)∗) ds
      (ds.takeWhile fun c => decide (IsHexDigit c)) := by
    refine hrun.restrict (mem_letters.mpr ⟨?_, mem_letter_kstar.mp hrun.mem⟩) ?_
    · intro hnil
      refine h (hnone ?_)
      rw [constantDigits, isHexText_integerText, if_pos hhex, htext, hnil]
      rfl
    · exact fun t ht _ => mem_letter_kstar.mpr (mem_letters.mp ht).2
  have hlongest := (hdigits.letter_mul (P := IsHexMark) hx).letter_mul (P := (· = byte '0')) rfl
  rw [← htext, ← hahead] at hlongest
  have hkind : (scanHex f l).1.kind = .litInt := by
    rw [hscan] at h ⊢
    exact numberToken_kind h
  rw [hkind, hscan]
  refine ⟨integerText l.ahead, hread, Or.inr hlongest.mem, Or.inl (Or.inr hlongest.mem),
    hlongest.isPrefix, fun t ht hpre => ?_⟩
  have hshort (ht : t ∈ numeral) : t.length ≤ (integerText l.ahead).length := by
    rw [hahead] at hpre
    have hone := (longest_zero hx ds).longest t ht hpre
    rw [htext]
    simp only [List.length_cons, List.length_nil] at hone ⊢
    omega
  rcases ht with (ht | ht) | ht | ht
  · exact hshort (digits_numeral ht)
  · exact hlongest.longest t ht hpre
  · exact hshort (List.append_nil t ▸ real_numeral ht (Or.inl rfl))
  · obtain ⟨u, hu, v, hv, rfl⟩ := mem_mul.mp ht
    exact hshort (real_numeral hu (Or.inr hv))

/-- Numbers. -/
theorem scanNumber_longest (hstart : StartsNumber l.ahead)
    (h : (scanNumber f l).1.kind ≠ .error) :
    ∃ s, Reads l s (scanNumber f l).2 ∧ s ∈ (scanNumber f l).1.kind.language ∧
      Longest number l.ahead s := by
  unfold scanNumber at h ⊢
  rw [isHexText_ahead] at h ⊢
  by_cases hhex : isHexText l.ahead = true
  · rw [if_pos hhex] at h ⊢
    exact scanHex_longest hf hhex h
  · rw [if_neg hhex] at h ⊢
    obtain ⟨w, fr, ex, sf, hread, hlongest, hparts, hkind⟩ := scanDecimal_parts hf h
    have hmem : w ++ (fr ++ (ex ++ sf)) ∈ (partsKind fr ex sf).language := by
      refine hparts.language ?_
      rcases hstart with ⟨c, t, heq, hc⟩ | ⟨d, t, heq, hd⟩
      · have hone : [c] ∈ numeral := digits_numeral (mem_letters.mpr (by simpa using hc))
        obtain ⟨u, hu⟩ := hlongest.prefix_of_mem hone ⟨t, heq.symm⟩
        exact Or.inl ⟨c, u, hu.symm, hc⟩
      · have hdigit : [d] ∈ digits := mem_letters.mpr (by simpa using hd)
        have hsides : [byte '.', d] ∈ (letter IsDigit)∗ * (letter (· = byte '.') * digits) :=
          append_mem_mul (nil_mem_kstar _) (mem_letter_mul.mpr ⟨_, _, rfl, hdigit, rfl⟩)
        have htwo : [byte '.', d] ∈ real := by
          rw [← List.append_nil [byte '.', d]]
          exact Or.inl (append_mem_mul (Or.inr hsides) (Or.inl rfl))
        obtain ⟨u, hu⟩ := hlongest.prefix_of_mem (real_numeral htwo (Or.inl rfl)) ⟨t, heq.symm⟩
        exact Or.inr ⟨d, u, hu.symm, hd⟩
    refine ⟨_, hread, by rw [hkind]; exact hmem, hlongest.restrict ?_ ?_⟩
    · unfold partsKind at hmem
      split_ifs at hmem
      · exact Or.inl hmem
      · exact Or.inr (Or.inl hmem)
      · exact Or.inr (Or.inr hmem)
    · exact fun t ht hpre => number_le ht hpre (by simpa using hhex)

/-! ## Names and punctuators -/

omit hf in
/-- What a table yields for a key has every property of its entries. -/
theorem forall_mem_of_lookup {α β : Type} [BEq α] [LawfulBEq α] {table : List (α × β)} {a : α}
    {b : β} (P : α → β → Prop) (htable : ∀ entry ∈ table, P entry.1 entry.2)
    (h : table.lookup a = some b) : P a b := by
  obtain ⟨l₁, l₂, rfl, _⟩ := List.lookup_eq_some_iff.mp h
  exact htable (a, b) (List.mem_append_right _ List.mem_cons_self)

omit hf in
/-- Keywords and punctuators belong to their kinds. -/
theorem language_of_text {kind : TokenKind} {s : List UInt8} (h : kind.text = some s) :
    s ∈ kind.language := by
  cases kind with
  | eof | error | ident | litInt | litFloat | litDouble =>
      exact absurd h (by simp [TokenKind.text, keywords, punctuators])
  | _ => exact h

/-- Names and keywords. -/
theorem scanIdentifier_longest (hletter : IsLetter l.peek) :
    ∃ s, Reads l s (scanIdentifier f l).2 ∧ s ∈ (scanIdentifier f l).1.kind.language ∧
      Longest word l.ahead s := by
  have hne : l.peek ≠ 0 := by
    intro hzero
    rw [hzero] at hletter
    exact absurd hletter (by decide)
  have hahead := ahead_of_peek hne
  have htest : (fun c => f.charIsAlphanum c || c == byte '_') =
      fun c => decide (IsLetter c ∨ IsDigit c) := funext hf.continuesIdentifier_eq
  have hread := @exists_reads_advanceWhile (fun c => decide (IsLetter c ∨ IsDigit c)) (by decide) l
  have hlongest := (longest_takeWhile (fun c => IsLetter c ∨ IsDigit c)
    l.advance.ahead).letter_mul (P := IsLetter) hletter
  have htake : l.ahead.takeWhile (fun c => decide (IsLetter c ∨ IsDigit c)) =
      l.peek :: l.advance.ahead.takeWhile fun c => decide (IsLetter c ∨ IsDigit c) := by
    rw [hahead, List.takeWhile_cons_of_pos (by simpa using Or.inl hletter)]
  rw [← htake, ← hahead] at hlongest
  generalize l.ahead.takeWhile (fun c => decide (IsLetter c ∨ IsDigit c)) = s at hread hlongest
  unfold scanIdentifier
  rw [htest]
  simp only [hread.lexeme, lookup_kwMap hf]
  refine ⟨s, ?_, ?_, hlongest⟩
  · cases (keywords.reverse.map Prod.swap).lookup s with
    | none => exact hread
    | some kind => exact hread
  · cases hlookup : (keywords.reverse.map Prod.swap).lookup s with
    | none =>
        refine ⟨hlongest.mem, ?_⟩
        rintro ⟨e, he, rfl⟩
        rw [lookup_keyword e he] at hlookup
        cases hlookup
    | some kind =>
        exact language_of_text (forall_mem_of_lookup
          (fun s (kind : TokenKind) => kind.text = some s) (by decide) hlookup)

end

/-- Punctuators have one character or two. -/
theorem mark_cases {t : List UInt8} (h : t ∈ mark) :
    (∃ c, t = [c]) ∨ ∃ c d, t = [c, d] ∧ singleKind c = none ∧
      (d = byte '=' ∨ d = c ∧ withEqual c = none) := by
  obtain ⟨e, he, rfl⟩ := h
  have htext := punctuatorText e he
  rcases hs : e.2 with _ | ⟨c, _ | ⟨d, _ | ⟨_, _⟩⟩⟩
  · rw [hs] at htext
    exact htext.elim
  · exact Or.inl ⟨c, rfl⟩
  · rw [hs] at htext
    obtain ⟨hsingle, ⟨hd, _⟩ | ⟨hd, hequal, _⟩⟩ := htext
    · exact Or.inr ⟨c, d, rfl, hsingle, Or.inl hd⟩
    · exact Or.inr ⟨c, d, rfl, hsingle, Or.inr ⟨hd, hequal⟩⟩
  · rw [hs] at htext
    exact htext.elim

/-- The table of punctuators agrees with the fixed texts of the token kinds. -/
theorem text_of_punctuator : ∀ e ∈ punctuators, e.1.text = some e.2 := by decide

/-- A longest punctuator, if no second character would make it longer. -/
theorem longest_mark {kind : TokenKind} {c : UInt8} {r s : List UInt8}
    (hmem : (kind, c :: s) ∈ punctuators) (hpre : s <+: r)
    (hlong : s = [] → ∀ d, r.head? = some d → singleKind c = none →
      ¬ (d = byte '=' ∨ d = c ∧ withEqual c = none)) : Longest mark (c :: r) (c :: s) where
  mem := ⟨_, hmem, rfl⟩
  isPrefix := (List.prefix_cons_inj c).mpr hpre
  longest t ht htr := by
    rcases mark_cases ht with ⟨d, rfl⟩ | ⟨c', d, rfl, hsingle, hd⟩
    · simp
    · cases s with
      | cons a s => simp
      | nil =>
          obtain ⟨rfl, u, rfl⟩ := List.cons_prefix_cons.mp htr
          exact absurd hd (hlong rfl d rfl hsingle)

/-- Punctuators. -/
theorem scanPunctuator_longest {l : Lexer} {c : UInt8} {start : Nat}
    (h : (scanPunctuator l c start).1.kind ≠ .error) :
    ∃ s, Reads l s (scanPunctuator l c start).2 ∧
      ((scanPunctuator l c start).1.kind, c :: s) ∈ punctuators ∧
      Longest mark (c :: l.ahead) (c :: s) := by
  unfold scanPunctuator at h ⊢
  cases hsingle : singleKind c with
  | some kind =>
      have hmem : (kind, [c]) ∈ punctuators :=
        forall_mem_of_lookup (fun c kind => (kind, [c]) ∈ punctuators) (by decide) hsingle
      refine ⟨[], Reads.refl l, hmem, longest_mark hmem List.nil_prefix ?_⟩
      intro _ d _ hnone
      rw [hsingle] at hnone
      cases hnone
  | none =>
      rw [hsingle] at h
      cases hequal : withEqual c with
      | some kinds =>
          obtain ⟨long, short⟩ := kinds
          obtain ⟨hlong, hshort⟩ := forall_mem_of_lookup (fun c (kinds : TokenKind × TokenKind) =>
            (kinds.1, [c, byte '=']) ∈ punctuators ∧ (kinds.2, [c]) ∈ punctuators)
            (by decide) hequal
          by_cases hpeek : l.peek = byte '='
          · have hahead := ahead_of_peek (l := l) (by rw [hpeek]; decide)
            rw [hpeek] at hahead
            simp only [hpeek, beq_self_eq_true, ↓reduceIte]
            refine ⟨[byte '='], reads_advance hahead, hlong, longest_mark hlong ?_ ?_⟩
            · exact ⟨_, hahead.symm⟩
            · intro hnil
              cases hnil
          · simp only [hpeek, beq_iff_eq, ↓reduceIte]
            refine ⟨[], Reads.refl l, hshort, longest_mark hshort List.nil_prefix ?_⟩
            rintro _ d hd _ (rfl | ⟨_, hnone⟩)
            · exact hpeek (peek_of_head hd)
            · rw [hequal] at hnone
              cases hnone
      | none =>
          rw [hequal] at h
          cases hdoubled : doubled c with
          | some entry =>
              obtain ⟨kind, complaint⟩ := entry
              have hmem := forall_mem_of_lookup (fun c (entry : TokenKind × LexMsg) =>
                c ≠ 0 ∧ (entry.1, [c, c]) ∈ punctuators) (by decide) hdoubled
              rw [hdoubled] at h
              dsimp only at h ⊢
              by_cases hpeek : l.peek = c
              · have hahead := ahead_of_peek (l := l) (by rw [hpeek]; exact hmem.1)
                rw [hpeek] at hahead
                simp only [hpeek, beq_self_eq_true, ↓reduceIte]
                refine ⟨[c], reads_advance hahead, hmem.2, longest_mark hmem.2 ?_ ?_⟩
                · exact ⟨_, hahead.symm⟩
                · intro hnil
                  cases hnil
              · rw [if_neg (by simpa using hpeek)] at h
                exact absurd rfl h
          | none =>
              rw [hdoubled] at h
              exact absurd rfl h

end Lexer

open Lexer

/-! ## All tokens -/

/-- Every keyword is spelled like an identifier. -/
theorem keyword_le {s : List UInt8} (h : s ∈ keyword) : s ∈ word := by
  obtain ⟨e, he, rfl⟩ := h
  obtain ⟨hne, hletters⟩ := keyword_letters e he
  cases hs : e.2 with
  | nil => exact absurd hs hne
  | cons c s =>
      rw [hs] at hletters
      exact mem_letter_mul.mpr ⟨c, s, hletters c List.mem_cons_self,
        mem_letter_kstar.mpr fun d hd => Or.inl (hletters d (List.mem_cons_of_mem _ hd)), rfl⟩

/-- Every token is a word, a number or a punctuator. -/
theorem language_cases {kind : TokenKind} {s : List UInt8} (h : s ∈ kind.language) :
    s ∈ word ∨ s ∈ number ∨ (kind, s) ∈ punctuators := by
  have htext (h : kind.text = some s) : s ∈ word ∨ s ∈ number ∨ (kind, s) ∈ punctuators := by
    rcases text_keywords_punctuators h with hkeyword | hmark
    · exact Or.inl (keyword_le ⟨_, hkeyword, rfl⟩)
    · exact Or.inr (Or.inr hmark)
  cases kind with
  | eof | error => exact h.elim
  | ident => exact Or.inl h.1
  | litInt => exact Or.inr (Or.inl (Or.inl h))
  | litDouble => exact Or.inr (Or.inl (Or.inr (Or.inl h)))
  | litFloat => exact Or.inr (Or.inl (Or.inr (Or.inr h)))
  | _ => exact htext h

/-- The first byte of a text is the first byte of every nonempty prefix of it. -/
theorem StartsWith.of_begin {P : UInt8 → Prop} {c : UInt8} {r t : List UInt8}
    (h : StartsWith P t) (hpre : t <+: c :: r) : P c := by
  obtain ⟨d, u, rfl, hd⟩ := h
  obtain ⟨rfl, _⟩ := List.cons_prefix_cons.mp hpre
  exact hd

/-- A number starts with a digit or with the point. -/
theorem number_starts {s : List UInt8} (h : s ∈ number) :
    StartsWith (fun c => IsDigit c ∨ c = byte '.') s := by
  rcases h with (hdigits | hhex) | (hreal | hfloat)
  · obtain ⟨c, t, hs, hc⟩ := digits_starts (t := []) hdigits
    exact ⟨c, t, by rwa [List.append_nil] at hs, Or.inl hc⟩
  · obtain ⟨_, t, rfl, _, rfl⟩ := mem_letter_mul.mp hhex
    exact ⟨_, t, rfl, Or.inl (by decide)⟩
  · obtain ⟨c, t, hs, hc⟩ := real_starts (t := []) hreal
    exact ⟨c, t, by rwa [List.append_nil] at hs, hc⟩
  · obtain ⟨u, hu, v, _, rfl⟩ := mem_mul.mp hfloat
    exact real_starts hu

/-- A punctuator starts with no letter, no digit and no point. -/
theorem mark_starts {s : List UInt8} (h : s ∈ mark) :
    StartsWith (fun c => ¬ IsLetter c ∧ ¬ IsDigit c ∧ c ≠ byte '.') s := by
  obtain ⟨e, he, hs⟩ := h
  have hfirst {c : UInt8} {t : List UInt8} (hct : s = c :: t) :
      ¬ IsLetter c ∧ ¬ IsDigit c ∧ c ≠ byte '.' := by
    obtain ⟨hletter, hdigit, hpoint, _⟩ := punctuator_first e he c (by rw [hs, hct]; rfl)
    exact ⟨hletter, hdigit, hpoint⟩
  rcases mark_cases ⟨e, he, hs⟩ with ⟨c, hct⟩ | ⟨c, d, hct, _⟩
  · exact ⟨c, [], hct, hfirst hct⟩
  · exact ⟨c, [d], hct, hfirst hct⟩

/-- The first character tells words, numbers and punctuators apart, so a longest one of its
sort is a longest token. -/
theorem longest_anyToken {L : Language UInt8} {kind : TokenKind} {c : UInt8} {r s : List UInt8}
    (h : Longest L (c :: r) s) (hmem : s ∈ kind.language)
    (hword : IsLetter c → ∀ t ∈ word, t ∈ L)
    (hnumber : IsDigit c ∨ c = byte '.' → ∀ t ∈ number, t ∈ L)
    (hmark : ¬ IsLetter c ∧ ¬ IsDigit c ∧ c ≠ byte '.' → ∀ t ∈ mark, t ∈ L) :
    Longest anyToken (c :: r) s := by
  refine h.restrict ⟨kind, hmem⟩ ?_
  rintro t ⟨k, ht⟩ hpre
  rcases language_cases ht with ht | ht | ht
  · exact hword ((word_starts ht).of_begin hpre) t ht
  · exact hnumber ((number_starts ht).of_begin hpre) t ht
  · exact hmark ((mark_starts ⟨_, ht, rfl⟩).of_begin hpre) t ⟨_, ht, rfl⟩

/-- What {lit}`lexer_next` reads behind blanks and comments. -/
theorem lexerNext_longest {f : Fluf} (hf : f.Standard) {l : Lexer}
    (herror : (lexerNext f l).1.kind ≠ .error) (heof : (lexerNext f l).1.kind ≠ .eof) :
    ∃ s, Reads l.skipWhitespace s (lexerNext f l).2 ∧ s ∈ (lexerNext f l).1.kind.language ∧
      Longest anyToken l.skipWhitespace.ahead s := by
  have hlt : l.skipWhitespace.cursor < l.skipWhitespace.content.length := by
    rw [(reaches_skipWhitespace l).content]
    exact Nat.lt_of_not_le fun hend => heof ((lexerNext_eof_iff f l).mpr hend)
  have hahead := ahead_eq hlt
  -- The two ways to a number.
  have hnumber (hletter : ¬ IsLetter l.skipWhitespace.peek)
      (hstart : StartsNumber l.skipWhitespace.ahead)
      (hfirst : IsDigit l.skipWhitespace.peek ∨ l.skipWhitespace.peek = byte '.')
      (herror : (scanNumber f l.skipWhitespace).1.kind ≠ .error) :
      ∃ s, Reads l.skipWhitespace s (scanNumber f l.skipWhitespace).2 ∧
        s ∈ (scanNumber f l.skipWhitespace).1.kind.language ∧
        Longest anyToken l.skipWhitespace.ahead s := by
    obtain ⟨s, hread, hmem, hlongest⟩ := scanNumber_longest hf hstart herror
    rw [hahead] at hlongest ⊢
    refine ⟨s, hread, hmem, longest_anyToken hlongest hmem (fun h => absurd h hletter)
      (fun _ _ ht => ht) fun h => ?_⟩
    rcases hfirst with hdigit | hpoint
    · exact absurd hdigit h.2.1
    · exact absurd hpoint h.2.2
  unfold lexerNext at herror ⊢
  dsimp only at herror ⊢
  simp only [Nat.not_le.mpr hlt, ↓reduceIte, hf.startsIdentifier_eq, hf.charIsDigit_eq,
    decide_eq_true_eq, beq_iff_eq] at herror ⊢
  by_cases hletter : IsLetter l.skipWhitespace.peek
  · rw [if_pos hletter]
    obtain ⟨s, hread, hmem, hlongest⟩ := scanIdentifier_longest hf hletter
    rw [hahead] at hlongest ⊢
    refine ⟨s, hread, hmem, longest_anyToken hlongest hmem (fun _ _ ht => ht) (fun h => ?_)
      fun h => absurd hletter h.1⟩
    rcases h with hdigit | hpoint
    · exact absurd hletter hdigit.not_letter
    · rw [hpoint] at hletter
      exact absurd hletter (by decide)
  rw [if_neg hletter] at herror ⊢
  by_cases hdigit : IsDigit l.skipWhitespace.peek
  · rw [if_pos hdigit] at herror ⊢
    exact hnumber hletter (Or.inl ⟨_, _, hahead, hdigit⟩) (Or.inl hdigit) herror
  rw [if_neg hdigit] at herror ⊢
  by_cases hpoint : l.skipWhitespace.peek = byte '.'
  · rw [if_pos hpoint] at herror ⊢
    by_cases hnext : IsDigit l.skipWhitespace.advance.peek
    · rw [if_pos hnext] at herror ⊢
      have hne : l.skipWhitespace.advance.peek ≠ 0 := by
        intro hzero
        rw [hzero] at hnext
        exact absurd hnext (by decide)
      have hboth := ahead_of_peek hne
      rw [hpoint, hboth] at hahead
      exact hnumber hletter (Or.inr ⟨_, _, hahead, hnext⟩) (Or.inr hpoint) herror
    · rw [if_neg hnext] at herror
      exact absurd rfl herror
  rw [if_neg hpoint] at herror ⊢
  obtain ⟨s, hread, hmem, hlongest⟩ := scanPunctuator_longest herror
  have htext := text_of_punctuator _ hmem
  rw [← hahead] at hlongest
  refine ⟨_, (reads_advance hahead).trans hread, language_of_text htext, ?_⟩
  rw [hahead] at hlongest ⊢
  exact longest_anyToken hlongest (language_of_text htext) (fun h => absurd h hletter)
    (fun h => absurd h (not_or.mpr ⟨hdigit, hpoint⟩)) fun _ _ ht => ht

/-- Longest match.  Wherever the cursor stands, a token that {lit}`lexer_next` returns is an
error, end-of-file, or a text from the regular definition of its kind, and no longer prefix of
the source from there on belongs to the regular definition of any kind. -/
theorem longest_match (f : Fluf) (hf : f.Standard) (l : Lexer)
    (herror : (lexerNext f l).1.kind ≠ .error) (heof : (lexerNext f l).1.kind ≠ .eof) :
    l.tokenText (lexerNext f l).1 ∈ (lexerNext f l).1.kind.language ∧
      Longest anyToken (l.content.drop ((lexerNext f l).1.span.start - l.baseOffset))
        (l.tokenText (lexerNext f l).1) := by
  obtain ⟨s, hread, hmem, hlongest⟩ := lexerNext_longest hf herror heof
  have hbase := (reaches_lexerNext f l).baseOffset
  have hcontent := (reaches_skipWhitespace l).content
  have htext : l.tokenText (lexerNext f l).1 = s := by
    rw [tokenText, lexerNext_span]
    simp only [makeSpan, hbase, Nat.add_sub_cancel_left]
    rw [← hcontent]
    exact hread.between
  have hdrop : l.content.drop ((lexerNext f l).1.span.start - l.baseOffset) =
      l.skipWhitespace.ahead := by
    rw [lexerNext_span]
    simp only [makeSpan, hbase, Nat.add_sub_cancel_left]
    rw [← hcontent]
    rfl
  rw [htext, hdrop]
  exact ⟨hmem, hlongest⟩

/-- The text {lit}`1.5e3f` is taken whole, and the semicolon behind it is left. -/
theorem longest_match_float :
    "1.5e3f".toList.map byte ∈ TokenKind.litFloat.language ∧
      Longest anyToken ("1.5e3f;".toList.map byte) ("1.5e3f".toList.map byte) := by
  have htoken : (lexerNext Fluf.ascii (init 0 ("1.5e3f;".toList.map byte))).1 =
      ⟨.litFloat, ⟨0, 6⟩, .ofFloat 0⟩ := by decide +kernel
  have h := longest_match Fluf.ascii Fluf.ascii_standard (init 0 ("1.5e3f;".toList.map byte))
    (by rw [htoken]; decide) (by rw [htoken]; decide)
  rw [htoken] at h
  exact h

end Cact
