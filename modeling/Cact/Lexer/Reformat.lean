import Cact.Lexer.LongestMatch

/-!
# Reformatting

A token is a text from the regular definition of its kind, and its value depends on nothing
else.  Wherever such a text stands in front of what does not go on with it, a gap for one, it
is read as that token again.  So the tokens of a file survive every change of its layout.

Main results:

- Definition {lit}`Spelling`: a token without its place.
- Theorem {lit}`Lexer.exists_spelling`: every token that is returned has a spelling.
- Theorem {lit}`Lexer.lexerNext_spelling`: it is read wherever its spelling stands.
- Theorem {lit}`reformat_keeps_tokens`: the tokens of a file in another layout.
-/

open Language
open scoped Computability

namespace Cact

/-! ## Spellings -/

/-- The kinds of the number literals, the only tokens with more than one spelling. -/
def TokenKind.isNumber : TokenKind → Bool
  | .litInt | .litFloat | .litDouble => true
  | _ => false

/-- A token without its place: its kind and its text. -/
structure Spelling where
  kind : TokenKind
  text : List UInt8
  mem : text ∈ kind.language
  short : kind.isNumber = true → text.length < 128

/-- The value of a token of some kind with some text. -/
def TokenKind.value (f : Fluf) (kind : TokenKind) (text : List UInt8) : TokenValue :=
  match kind with
  | .ident => .ofName (f.intern text)
  | .litInt => .ofInt (Int32.ofNat (Lexer.strtoll text))
  | .litFloat => .ofFloat (f.strtof text)
  | .litDouble => .ofDouble (f.strtod text)
  | _ => .unset

/-- The kind and the value of a token. -/
def Token.meaning (t : Token) : TokenKind × TokenValue := (t.kind, t.value)

/-- The kind and the value of the token that a spelling is read as. -/
def Spelling.meaning (f : Fluf) (s : Spelling) : TokenKind × TokenValue :=
  (s.kind, s.kind.value f s.text)

/-- No spelling is read as the end of the file or as an error. -/
theorem Spelling.kind_ne (s : Spelling) : s.kind ≠ .eof ∧ s.kind ≠ .error := by
  constructor
  · intro hkind
    have hmem := s.mem
    rw [hkind] at hmem
    exact hmem.elim
  · intro hkind
    have hmem := s.mem
    rw [hkind] at hmem
    exact hmem.elim

/-! ## Numerals -/

/-- A text of digits is the text of some {lit}`Digits`. -/
theorem exists_digits {s : List UInt8} (h : s ∈ digits) : ∃ ds : Digits, ds.text = s := by
  obtain ⟨hne, hdigits⟩ := mem_letters.mp h
  exact ⟨⟨s, hne, hdigits⟩, rfl⟩

/-- A text in the language of exponents is the text of some {lit}`Exponent`. -/
theorem exists_exponent {s : List UInt8} (h : s ∈ exponent) : ∃ e : Exponent, e.text = s := by
  obtain ⟨c, t, hc, ht, rfl⟩ := mem_letter_mul.mp h
  obtain ⟨sign, hsign, ds, hds, rfl⟩ := mem_mul.mp ht
  obtain ⟨ds, rfl⟩ := exists_digits hds
  refine ⟨⟨c, sign, ds, hc, ?_⟩, rfl⟩
  rcases hsign with rfl | ⟨d, rfl | rfl, rfl⟩
  · exact Or.inl rfl
  · exact Or.inr (Or.inl rfl)
  · exact Or.inr (Or.inr rfl)

/-- The same for an exponent that may be missing. -/
theorem exists_optional_exponent {s : List UInt8} (h : s ∈ 1 + exponent) :
    ∃ e : Option Exponent, (e.map Exponent.text).getD [] = s := by
  rcases h with rfl | h
  · exact ⟨none, rfl⟩
  · obtain ⟨e, rfl⟩ := exists_exponent h
    exact ⟨some e, rfl⟩

/-- Digits that may be missing. -/
theorem exists_digits_or_nil {s : List UInt8} (h : s ∈ (letter IsDigit)∗) :
    s = [] ∨ ∃ ds : Digits, ds.text = s := by
  cases s with
  | nil => exact Or.inl rfl
  | cons c s =>
      exact Or.inr (exists_digits (mem_letters.mpr ⟨by simp, mem_letter_kstar.mp h⟩))

/-- A real number is the text of a numeral. -/
theorem exists_numeral {s : List UInt8} (h : s ∈ real) : ∃ n : Numeral, n.text = s := by
  rcases (mem_add _ _ s).mp h with hpoint | hexp
  · obtain ⟨_, hsides, ex, hex, rfl⟩ := mem_mul.mp hpoint
    obtain ⟨e, rfl⟩ := exists_optional_exponent hex
    rcases (mem_add _ _ _).mp hsides with hleft | hright
    · obtain ⟨w, hw, fr, hfr, rfl⟩ := mem_mul.mp hleft
      obtain ⟨w, rfl⟩ := exists_digits hw
      obtain ⟨_, ds, rfl, hds, rfl⟩ := mem_letter_mul.mp hfr
      rcases exists_digits_or_nil hds with rfl | ⟨ds, rfl⟩
      · exact ⟨.noFraction w e, by simp [Numeral.text, Numeral.whole, Numeral.fraction,
          Numeral.tail, Numeral.exponent]⟩
      · exact ⟨.point w ds e, by simp [Numeral.text, Numeral.whole, Numeral.fraction,
          Numeral.tail, Numeral.exponent]⟩
    · obtain ⟨w, hw, fr, hfr, rfl⟩ := mem_mul.mp hright
      obtain ⟨_, ds, rfl, hds, rfl⟩ := mem_letter_mul.mp hfr
      obtain ⟨ds, rfl⟩ := exists_digits hds
      rcases exists_digits_or_nil hw with rfl | ⟨w, rfl⟩
      · exact ⟨.noWhole ds e, by simp [Numeral.text, Numeral.whole, Numeral.fraction,
          Numeral.tail, Numeral.exponent]⟩
      · exact ⟨.point w ds e, by simp [Numeral.text, Numeral.whole, Numeral.fraction,
          Numeral.tail, Numeral.exponent]⟩
  · obtain ⟨w, hw, ex, hex, rfl⟩ := mem_mul.mp hexp
    obtain ⟨w, rfl⟩ := exists_digits hw
    obtain ⟨e, rfl⟩ := exists_exponent hex
    exact ⟨.noPoint w e, by simp [Numeral.text, Numeral.whole, Numeral.fraction,
      Numeral.tail, Numeral.exponent]⟩

namespace Lexer

/-! ## Integers -/

/-- A run of characters of a class ends in front of another character. -/
theorem takeWhile_append_stop {test : UInt8 → Bool} {s r : List UInt8}
    (hs : ∀ c ∈ s, test c = true) (hr : test (r.headD 0) = false) :
    (s ++ r).takeWhile test = s := by
  rw [List.takeWhile_append_of_pos hs]
  cases r with
  | nil => simp
  | cons c r =>
      have hc : test c = false := hr
      rw [List.takeWhile_cons_of_neg (by simp [hc]), List.append_nil]

/-- The byte behind an integer is the first one of what its text leaves. -/
theorem behindInteger_eq {r rest : List UInt8} (h : r = integerText r ++ rest) :
    behindInteger r = rest.headD 0 := by
  have hdrop := congrArg (List.drop (integerText r).length) h
  rw [List.drop_left] at hdrop
  rw [behindInteger, hdrop]

/-- Digits in front of what does not go on with them are what the scanner takes for an
integer. -/
theorem integerText_append_digits {s r : List UInt8} (h : s ∈ digits)
    (hr : ¬ TokenKind.litInt.GoesOn s (r.headD 0)) :
    integerText (s ++ r) = s ∧ BeginsInteger (s ++ r) ∧
      (isRejected (s ++ r) = true ↔ 128 ≤ s.length) := by
  obtain ⟨hne, hall⟩ := mem_letters.mp h
  rw [TokenKind.goesOn_digits hne hall] at hr
  simp only [not_or] at hr
  obtain ⟨hdigit, hdot, hexp, hfloat, hmark⟩ := hr
  obtain ⟨c, cs, rfl⟩ := List.exists_cons_of_ne_nil hne
  have hc : IsDigit c := hall c List.mem_cons_self
  have hnothex : isHexText (c :: cs ++ r) = false := by
    simp only [isHexText, List.cons_append, List.headD_cons, List.tail_cons,
      Bool.and_eq_false_iff, Bool.or_eq_false_iff, beq_eq_false_iff_ne]
    cases cs with
    | nil =>
        refine or_iff_not_imp_left.mpr fun hzero => ?_
        have hzero : c = byte '0' := not_not.mp hzero
        exact not_or.mp fun hx => hmark ⟨by rw [hzero], hx⟩
    | cons e cs =>
        have he : IsDigit e := hall e (by simp)
        exact Or.inr he.not_hex
  have htext : integerText (c :: cs ++ r) = c :: cs := by
    rw [integerText, if_neg (Bool.eq_false_iff.mp hnothex)]
    refine takeWhile_append_stop (fun d hd => ?_) (decide_eq_false ?_)
    · simpa using (digitValue_lt_ten d).mpr (hall d hd)
    · exact fun hvalue => hdigit ((digitValue_lt_ten _).mp hvalue)
  have hbehind : behindInteger (c :: cs ++ r) = r.headD 0 := behindInteger_eq (by rw [htext])
  refine ⟨htext, ⟨(digitValue_lt_ten c).mpr hc, fun _ => ?_⟩, ?_⟩
  · rw [hbehind]
    exact ⟨hdot, not_or.mp hexp⟩
  · obtain ⟨hlower, hupper⟩ := not_or.mp hfloat
    rw [isRejected, hnothex, hbehind, htext, beq_eq_false_iff_ne.mpr hlower,
      beq_eq_false_iff_ne.mpr hupper]
    simp

/-- The same for hexadecimal digits behind their prefix. -/
theorem integerText_append_hex {x : UInt8} {ds r : List UInt8} (hx : IsHexMark x) (hne : ds ≠ [])
    (hall : ∀ d ∈ ds, IsHexDigit d)
    (hr : ¬ TokenKind.litInt.GoesOn (byte '0' :: x :: ds) (r.headD 0)) :
    integerText (byte '0' :: x :: ds ++ r) = byte '0' :: x :: ds ∧
      BeginsInteger (byte '0' :: x :: ds ++ r) ∧
      (isRejected (byte '0' :: x :: ds ++ r) = true ↔
        128 ≤ (byte '0' :: x :: ds).length) := by
  rw [TokenKind.goesOn_hex hx] at hr
  have hhex : isHexText (byte '0' :: x :: ds ++ r) = true := by
    simp only [isHexText, List.cons_append, List.headD_cons, List.tail_cons, beq_self_eq_true,
      Bool.true_and, Bool.or_eq_true, beq_iff_eq]
    exact hx
  have htext : integerText (byte '0' :: x :: ds ++ r) = byte '0' :: x :: ds := by
    rw [integerText, if_pos hhex]
    have hrun : (ds ++ r).takeWhile (fun c => decide (digitValue c < 16)) = ds := by
      refine takeWhile_append_stop (fun d hd => ?_) (decide_eq_false ?_)
      · simpa using (isHexDigit_iff d).mp (hall d hd)
      · exact fun hvalue => hr ((isHexDigit_iff _).mpr hvalue)
    simpa using hrun
  refine ⟨htext, ⟨by simp only [List.cons_append, List.headD_cons]; decide, fun hno => ?_⟩, ?_⟩
  · rw [hhex] at hno
    cases hno
  · have hdigits : constantDigits (byte '0' :: x :: ds) = ds := by
      rw [constantDigits, if_pos (by rw [← htext, isHexText_integerText, hhex])]
      rfl
    rw [isRejected, hhex, htext, hdigits]
    simp [hne]

/-- An integer in front of what does not go on with it is what the scanner takes for one. -/
theorem integerText_append {s r : List UInt8} (h : s ∈ integer)
    (hr : ¬ TokenKind.litInt.GoesOn s (r.headD 0)) :
    integerText (s ++ r) = s ∧ BeginsInteger (s ++ r) ∧
      (isRejected (s ++ r) = true ↔ 128 ≤ s.length) := by
  rcases (mem_add _ _ s).mp h with hdigits | hhex
  · exact integerText_append_digits hdigits hr
  · obtain ⟨_, s', rfl, hs', rfl⟩ := mem_letter_mul.mp hhex
    obtain ⟨x, ds, hx, hds, rfl⟩ := mem_letter_mul.mp hs'
    obtain ⟨hne, hall⟩ := mem_letters.mp hds
    exact integerText_append_hex hx hne hall hr

/-- An integer is read to its end. -/
theorem lexerNext_integerText {f : Fluf} (hf : f.Standard) {l : Lexer} {s r : List UInt8}
    (h : l.ahead = s ++ r) (hs : s ∈ integer) (hshort : s.length < 128)
    (hr : ¬ TokenKind.litInt.GoesOn s (r.headD 0)) :
    Reads l s (lexerNext f l).2 ∧
      (lexerNext f l).1.meaning = (.litInt, .ofInt (Int32.ofNat (strtoll s))) := by
  obtain ⟨htext, hbegins, hrejected⟩ := integerText_append hs hr
  have hskip : l.skipWhitespace = l := by
    have hhead : IsDigit ((s ++ r).headD 0) := (digitValue_lt_ten _).mp hbegins.digit
    cases hahead : l.ahead with
    | nil =>
        rw [← h, hahead] at hhead
        exact absurd hhead (by decide)
    | cons c t =>
        rw [← h, hahead] at hhead
        exact skipWhitespace_of_class hahead (Or.inr (Or.inl hhead))
  rw [← h] at htext hbegins hrejected
  rw [lexerNext_integer hf (by rwa [hskip]), hskip]
  obtain ⟨l', hread, hscan⟩ := (scanNumber_integer hf hbegins).2
    (Bool.eq_false_iff.mpr fun htrue => by have := hrejected.mp htrue; omega)
  rw [hscan, htext] at *
  exact ⟨hread, rfl⟩

/-! ## Reading a spelling -/

/-- A spelling in front of what does not go on with it is read as its token. -/
theorem lexerNext_spelling {f : Fluf} (hf : f.Standard) (s : Spelling) {l : Lexer}
    {r : List UInt8} (h : l.ahead = s.text ++ r) (hr : ¬ s.kind.GoesOn s.text (r.headD 0)) :
    Reads l s.text (lexerNext f l).2 ∧ (lexerNext f l).1.meaning = s.meaning f := by
  obtain ⟨kind, text, hmem, hshort⟩ := s
  have hlexeme (t : Lexeme) (htext : t.text = text) (hmeaning : (t.kind, t.value f) =
      (kind, kind.value f text)) : Reads l text (lexerNext f l).2 ∧
        (lexerNext f l).1.meaning = (kind, kind.value f text) := by
    subst htext
    have hkind : t.kind = kind := congrArg Prod.fst hmeaning
    have hread := lexerNext_lexeme hf t h (hkind ▸ hr)
    refine ⟨hread.reads, ?_⟩
    rw [← hmeaning, Token.meaning, hread.kind, hread.value]
  cases kind with
  | eof => exact hmem.elim
  | error => exact hmem.elim
  | ident =>
      obtain ⟨hword, hkeyword⟩ := hmem
      obtain ⟨c, cs, hc, hcs, rfl⟩ := mem_letter_mul.mp hword
      refine hlexeme (.ident c cs hc (mem_letter_kstar.mp hcs) fun e he heq => ?_) rfl rfl
      exact hkeyword ⟨e, he, heq⟩
  | litInt => exact lexerNext_integerText hf h hmem (hshort rfl) hr
  | litDouble =>
      obtain ⟨n, rfl⟩ := exists_numeral hmem
      exact hlexeme (.double n (hshort rfl)) rfl rfl
  | litFloat =>
      obtain ⟨u, hu, _, ⟨c, hc, rfl⟩, rfl⟩ := mem_mul.mp hmem
      obtain ⟨n, rfl⟩ := exists_numeral hu
      exact hlexeme (.float n c hc (hshort rfl)) rfl rfl
  | _ => exact hlexeme (.fixed _ text hmem) rfl rfl

/-- A spelling in front of what does not go on with it begins no comment. -/
theorem skipWhitespace_spelling (s : Spelling) {l : Lexer} {r : List UInt8}
    (h : l.ahead = s.text ++ r) (hr : ¬ s.kind.GoesOn s.text (r.headD 0)) :
    l.skipWhitespace = l := by
  rcases language_cases s.mem with hword | hnumber | hmem
  · obtain ⟨c, t, htext, hc⟩ := word_starts hword
    exact skipWhitespace_of_class (c := c) (s := t ++ r) (by rw [h, htext]; rfl) (Or.inl hc)
  · obtain ⟨c, t, htext, hc⟩ := number_starts hnumber
    exact skipWhitespace_of_class (c := c) (s := t ++ r) (by rw [h, htext]; rfl) (Or.inr hc)
  · obtain ⟨c, t, htext, _⟩ := mark_starts (s := s.text) ⟨_, hmem, rfl⟩
    obtain ⟨_, _, _, hblank, hslash⟩ := punctuator_first _ hmem c (by rw [htext]; rfl)
    have hahead : l.ahead = c :: (t ++ r) := by rw [h, htext, List.cons_append]
    have hpeek : l.peek = c := by simp [peek_eq, hahead]
    apply skipWhitespace_stop
    · rw [hpeek]
      exact hblank
    · intro hc
      rw [hpeek] at hc
      obtain rfl : t = [] := by simpa [htext] using hslash hc
      rw [htext, hc] at hmem hr
      rw [peekNext_eq, hahead]
      exact goesOn_slash hmem hr

/-! ## The spelling of a token -/

/-- The text of a token is what {lit}`lexer_next` read behind the layout. -/
theorem tokenText_lexerNext {f : Fluf} {l : Lexer} {s : List UInt8}
    (h : Reads l.skipWhitespace s (lexerNext f l).2) : l.tokenText (lexerNext f l).1 = s := by
  rw [tokenText, lexerNext_span]
  simp only [makeSpan, (reaches_lexerNext f l).baseOffset, Nat.add_sub_cancel_left]
  rw [← (reaches_skipWhitespace l).content]
  exact h.between

/-- The texts of later tokens stand in the same file. -/
theorem tokenText_next (f : Fluf) (l : Lexer) : (lexerNext f l).2.tokenText = l.tokenText := by
  funext t
  rw [tokenText, tokenText, (reaches_lexerNext f l).content, (reaches_lexerNext f l).baseOffset]

section

variable {f : Fluf}

/-- What a scanner returns that started at some place: the value of the text it took, and
not too much text for a number. -/
structure Spelt (f : Fluf) (start : Nat) (t : Token) (l' : Lexer) : Prop where
  value : t.value = t.kind.value f (l'.lexeme start)
  short : t.kind.isNumber = true → l'.cursor - start < 128

/-- A number token that is no error is spelled by the text behind it. -/
theorem spelt_numberToken {l : Lexer} {start : Nat} {isFraction isFloat32 : Bool}
    (h : (numberToken f l start isFraction isFloat32).kind ≠ .error) :
    Spelt f start (numberToken f l start isFraction isFloat32) l := by
  unfold numberToken at h ⊢
  dsimp only at h ⊢
  by_cases hlong : 128 ≤ l.cursor - start
  · rw [if_pos hlong] at h
    exact absurd rfl h
  · rw [if_neg hlong]
    refine ⟨?_, fun _ => by omega⟩
    cases isFraction <;> cases isFloat32 <;> rfl

/-- {lit}`scanSuffix` closes a number that is spelled by its text. -/
theorem spelt_scanSuffix {l : Lexer} {start : Nat} {isFraction : Bool}
    (h : (scanSuffix f l start isFraction).1.kind ≠ .error) :
    Spelt f start (scanSuffix f l start isFraction).1 (scanSuffix f l start isFraction).2 := by
  unfold scanSuffix at h ⊢
  split_ifs at h ⊢
  · exact spelt_numberToken h
  · exact absurd rfl h
  · exact spelt_numberToken h

/-- {lit}`scan_number` returns a spelled token or an error. -/
theorem spelt_scanNumber {l : Lexer} (h : (scanNumber f l).1.kind ≠ .error) :
    Spelt f l.cursor (scanNumber f l).1 (scanNumber f l).2 := by
  unfold scanNumber at h ⊢
  split_ifs at h ⊢
  · unfold scanHex at h ⊢
    dsimp only at h ⊢
    split_ifs at h ⊢
    · exact spelt_numberToken h
    · exact absurd rfl h
  · unfold scanDecimal at h ⊢
    dsimp only at h ⊢
    cases hscan : scanExponent f (scanFraction f (l.advanceWhile f.charIsDigit)).2 with
    | absent =>
        rw [hscan] at h
        exact spelt_scanSuffix h
    | present l₂ =>
        rw [hscan] at h
        exact spelt_scanSuffix h
    | noDigits l₂ =>
        rw [hscan] at h
        exact absurd rfl h

/-- {lit}`scan_identifier` returns a spelled token. -/
theorem spelt_scanIdentifier (l : Lexer) :
    Spelt f l.cursor (scanIdentifier f l).1 (scanIdentifier f l).2 := by
  unfold scanIdentifier
  dsimp only
  split <;> rename_i hlookup
  · have hkind := forall_of_lookup
      (fun kind : TokenKind => ∀ w, kind.value f w = .unset ∧ kind.isNumber = false)
      (by simp [kwMap, keywords, TokenKind.value, TokenKind.isNumber]) hlookup
    exact ⟨(hkind _).1.symm, fun hnumber => by rw [(hkind []).2] at hnumber; cases hnumber⟩
  · exact ⟨rfl, fun hnumber => by cases hnumber⟩

/-- A punctuator that is no error is spelled by its text. -/
theorem spelt_scanPunctuator {l : Lexer} {c : UInt8} {start : Nat}
    (h : (scanPunctuator l c start).1.kind ≠ .error) :
    Spelt f start (scanPunctuator l c start).1 (scanPunctuator l c start).2 := by
  have hkind : ∀ kind ∈ punctuatorKinds, ∀ w, kind.value f w = .unset ∧ kind.isNumber = false := by
    simp [punctuatorKinds, TokenKind.value, TokenKind.isNumber]
  have hvalue : (scanPunctuator l c start).1.value = .unset := by
    unfold scanPunctuator at h ⊢
    split at h
    · rfl
    · split <;> rfl
    · split at h
      · rename_i hdouble
        rw [if_pos hdouble]
        rfl
      · exact absurd rfl h
    · exact absurd rfl h
  have hmem := (scanPunctuator_kind l c start).resolve_left h
  refine ⟨by rw [hvalue, (hkind _ hmem _).1], fun hnumber => ?_⟩
  rw [(hkind _ hmem []).2] at hnumber
  cases hnumber

/-- Every token of {lit}`lexer_next` but the error and the end of the file is spelled by its text.
-/
theorem spelt_lexerNext {l : Lexer} (herror : (lexerNext f l).1.kind ≠ .error)
    (heof : (lexerNext f l).1.kind ≠ .eof) :
    Spelt f l.skipWhitespace.cursor (lexerNext f l).1 (lexerNext f l).2 := by
  unfold lexerNext at herror heof ⊢
  dsimp only at herror heof ⊢
  split_ifs at herror heof ⊢
  · exact absurd rfl heof
  · exact spelt_scanIdentifier _
  · exact spelt_scanNumber herror
  · exact spelt_scanNumber herror
  · exact absurd rfl herror
  · exact spelt_scanPunctuator herror

/-- Every token that is returned has a spelling. -/
theorem exists_spelling (hf : f.Standard) {l : Lexer}
    (herror : (lexerNext f l).1.kind ≠ .error) (heof : (lexerNext f l).1.kind ≠ .eof) :
    ∃ s : Spelling, Reads l.skipWhitespace s.text (lexerNext f l).2 ∧
      (lexerNext f l).1.meaning = s.meaning f := by
  obtain ⟨text, hread, hmem, _⟩ := lexerNext_longest hf herror heof
  have hspelt := spelt_lexerNext herror heof
  refine ⟨⟨(lexerNext f l).1.kind, text, hmem, fun hnumber => ?_⟩, hread, ?_⟩
  · rw [← hread.length]
    exact hspelt.short hnumber
  · rw [Token.meaning, hspelt.value, hread.lexeme]
    rfl

/-- The text that the lexer reads between two states is known. -/
theorem Reads.unique {l l' : Lexer} {s t : List UInt8} (h : Reads l s l') (h' : Reads l t l') :
    s = t :=
  h.lexeme.symm.trans h'.lexeme

/-- {lit}`scan_identifier` moves over letters, digits and underscores and over nothing else. -/
theorem scanIdentifier_snd (f : Fluf) (l : Lexer) : (scanIdentifier f l).2 =
    l.advanceWhile fun c => f.charIsAlphanum c || c == byte '_' := by
  unfold scanIdentifier
  dsimp only
  split <;> rfl

/-- A suffix is taken if there is one; the token of an integer or a {lit}`double` has none. -/
theorem scanSuffix_stops {l : Lexer} {start : Nat} {isFraction : Bool}
    (h : (scanSuffix f l start isFraction).1.kind = .litDouble) :
    isFraction = true ∧ (scanSuffix f l start isFraction).2 = l ∧ ¬ IsFloatMark l.peek := by
  have hkind {l : Lexer} {isFloat32 : Bool}
      (h : (numberToken f l start isFraction isFloat32).kind = .litDouble) :
      isFraction = true ∧ isFloat32 = false := by
    have heq := numberToken_kind (by rw [h]; decide)
    rw [h] at heq
    revert heq
    cases isFraction <;> cases isFloat32 <;> simp
  unfold scanSuffix at h ⊢
  by_cases hmark : (l.peek == byte 'f' || l.peek == byte 'F') = true
  · rw [if_pos hmark] at h
    cases isFraction with
    | false => cases h
    | true => exact absurd (hkind h).2 (by decide)
  · rw [if_neg hmark] at h ⊢
    exact ⟨(hkind h).1, rfl, by simpa [IsFloatMark] using hmark⟩

/-- A {lit}`double` literal ends where nothing goes on with it. -/
theorem scanDecimal_stops (hf : f.Standard) {l : Lexer} {s : List UInt8}
    (h : (scanDecimal f l).1.kind = .litDouble) (hread : Reads l s (scanDecimal f l).2) :
    ¬ IsDigit (scanDecimal f l).2.peek ∧ ¬ IsFloatMark (scanDecimal f l).2.peek ∧
      (IsExponentMark (scanDecimal f l).2.peek → ∃ d ∈ s, IsExponentMark d) := by
  have hdigits (l : Lexer) : ¬ IsDigit (l.advanceWhile f.charIsDigit).peek := by
    have htest : f.charIsDigit 0 = false := by
      rw [hf.charIsDigit_eq]
      decide
    have hstop := test_advanceWhile htest l
    rwa [hf.charIsDigit_eq, decide_eq_false_iff_not] at hstop
  obtain ⟨w, hw, _⟩ := advanceWhile_longest hf (l := l)
  obtain ⟨fr, hfr, _, _⟩ := scanFraction_longest hf (l := l.advanceWhile f.charIsDigit)
  have hexponent := scanExponent_longest hf (l := (scanFraction f (l.advanceWhile f.charIsDigit)).2)
  unfold scanDecimal at h hread ⊢
  dsimp only at h hread ⊢
  cases hscan : scanExponent f (scanFraction f (l.advanceWhile f.charIsDigit)).2 with
  | absent =>
      rw [hscan] at h hread
      obtain ⟨hdot, hsame, hfloat⟩ := scanSuffix_stops h
      rw [hsame]
      refine ⟨?_, hfloat, fun hmark => ?_⟩
      · unfold scanFraction at hdot ⊢
        split at hdot
        · rename_i hpeek
          rw [if_pos hpeek]
          exact hdigits _
        · cases hdot
      · -- An exponent would have been read.
        unfold scanExponent at hscan
        rw [if_pos (by simpa [IsExponentMark] using hmark)] at hscan
        dsimp only at hscan
        split at hscan <;> cases hscan
  | present l₂ =>
      rw [hscan] at h hread hexponent
      obtain ⟨ex, hex, hread₂, _⟩ := hexponent
      obtain ⟨_, hsame, hfloat⟩ := scanSuffix_stops h
      rw [hsame] at hread ⊢
      refine ⟨?_, hfloat, fun _ => ?_⟩
      · unfold scanExponent at hscan
        dsimp only at hscan
        split_ifs at hscan
        cases hscan
        exact hdigits _
      · obtain ⟨c, t, hc, _, rfl⟩ := mem_letter_mul.mp hex
        rw [hread.unique (hw.trans (hfr.trans hread₂))]
        exact ⟨c, by simp, hc⟩
  | noDigits l₂ =>
      rw [hscan] at h
      cases h

/-- Behind hexadecimal digits stands no other one. -/
theorem integerText_hex_ends {r : List UInt8} (hhex : isHexText r = true) :
    ¬ TokenKind.litInt.GoesOn (integerText r) (behindInteger r) := by
  obtain ⟨x, ds, hds, hx⟩ := exists_of_isHexText hhex
  have htext : integerText r = byte '0' :: x :: ds.takeWhile fun c => decide (digitValue c < 16) := by
    rw [integerText, if_pos hhex, hds]
    rfl
  have hrest : r = integerText r ++ ds.dropWhile fun c => decide (digitValue c < 16) := by
    rw [htext, hds, List.cons_append, List.cons_append, List.takeWhile_append_dropWhile]
  rw [behindInteger_eq hrest, htext, TokenKind.goesOn_hex hx, isHexDigit_iff]
  simpa using @headD_dropWhile (fun c => decide (digitValue c < 16)) (by decide) ds

/-- Behind decimal digits that the scanner takes for an integer stands nothing that goes on with
them. -/
theorem integerText_digits_ends {r : List UInt8} (hbegins : BeginsInteger r)
    (hdecimal : isHexText r = false) (hfine : isRejected r = false) :
    ¬ TokenKind.litInt.GoesOn (integerText r) (behindInteger r) := by
  have htext : integerText r = r.takeWhile fun c => decide (digitValue c < 10) := by
    rw [integerText, if_neg (Bool.eq_false_iff.mp hdecimal)]
  have hrest : r = integerText r ++ r.dropWhile fun c => decide (digitValue c < 10) := by
    rw [htext, List.takeWhile_append_dropWhile]
  have hall : ∀ d ∈ integerText r, IsDigit d := by
    intro d hd
    rw [htext] at hd
    exact (digitValue_lt_ten d).mp (by simpa using List.mem_takeWhile_imp hd)
  have hne : integerText r ≠ [] := by
    intro hnil
    rw [htext, List.takeWhile_eq_nil_iff] at hnil
    have hdigit := hbegins.digit
    cases r with
    | nil => exact absurd hdigit (by decide)
    | cons d ds => exact hnil (by simp) (by simpa using hdigit)
  obtain ⟨hdot, hlower, hupper⟩ := hbegins.whole hdecimal
  rw [TokenKind.goesOn_digits hne hall]
  simp only [not_or]
  refine ⟨?_, hdot, not_or.mpr ⟨hlower, hupper⟩, ?_, ?_⟩
  · intro hdigit
    rw [behindInteger_eq hrest] at hdigit
    have hstop := @headD_dropWhile (fun c => decide (digitValue c < 10)) (by decide) r
    exact absurd ((digitValue_lt_ten _).mpr hdigit) (by simpa using hstop)
  · intro hfloat
    have htrue : (behindInteger r == byte 'f' || behindInteger r == byte 'F') = true := by
      simpa [IsFloatMark] using hfloat
    rw [isRejected, hdecimal, htrue] at hfine
    simp at hfine
  · rintro ⟨hzero, hmark⟩
    -- The zero and the letter would have been the beginning of a hexadecimal literal.
    have hhex : isHexText r = true := by
      rw [behindInteger_eq hrest] at hmark
      rw [hrest, hzero]
      simpa [isHexText, IsHexMark] using hmark
    rw [hdecimal] at hhex
    cases hhex

/-- An integer literal ends where nothing goes on with it. -/
theorem scanNumber_stops_integer (hf : f.Standard) {l : Lexer} {s : List UInt8}
    (hfirst : IsDigit l.peek ∨ l.peek = byte '.') (h : (scanNumber f l).1.kind = .litInt)
    (hread : Reads l s (scanNumber f l).2) :
    ¬ TokenKind.litInt.GoesOn s (scanNumber f l).2.peek := by
  have hbegins := beginsInteger_of_litInt hf (hfirst.imp (digitValue_lt_ten _).mpr id) h
  obtain ⟨hbad, hgood⟩ := scanNumber_integer hf hbegins
  have hfine : isRejected l.ahead = false := by
    rw [Bool.eq_false_iff]
    intro hrejected
    rw [hbad hrejected] at h
    cases h
  obtain ⟨l', hread', hscan⟩ := hgood hfine
  rw [hscan] at hread ⊢
  obtain rfl := hread.unique hread'
  have hbehind : l'.peek = behindInteger l.ahead := by
    rw [peek_eq, behindInteger_eq hread.ahead]
  rw [hbehind]
  cases hhex : isHexText l.ahead with
  | true => exact integerText_hex_ends hhex
  | false => exact integerText_digits_ends hbegins hhex hfine

/-- A number is an integer, or {lit}`scan_number` took its decimal branch and read a real. -/
theorem scanNumber_kind {l : Lexer} (hf : f.Standard) (h : (scanNumber f l).1.kind ≠ .error) :
    (scanNumber f l).1.kind = .litInt ∨
      scanNumber f l = scanDecimal f l ∧
        ((scanDecimal f l).1.kind = .litDouble ∨ (scanDecimal f l).1.kind = .litFloat) := by
  unfold scanNumber at h ⊢
  split_ifs at h ⊢
  · left
    unfold scanHex at h ⊢
    dsimp only at h ⊢
    split_ifs at h ⊢
    · exact numberToken_kind h
    · exact absurd rfl h
  · obtain ⟨w, fr, ex, sf, _, _, _, hkind⟩ := scanDecimal_parts hf h
    rw [hkind, partsKind]
    split_ifs
    · exact Or.inl rfl
    · exact Or.inr ⟨rfl, Or.inl rfl⟩
    · exact Or.inr ⟨rfl, Or.inr rfl⟩

/-- A number ends where nothing goes on with it. -/
theorem scanNumber_stops (hf : f.Standard) {l : Lexer} {s : List UInt8}
    (hfirst : IsDigit l.peek ∨ l.peek = byte '.') (hs : ¬ IsLetter (s.headD 0))
    (h : (scanNumber f l).1.kind ≠ .error) (hread : Reads l s (scanNumber f l).2) :
    ¬ (scanNumber f l).1.kind.GoesOn s (scanNumber f l).2.peek := by
  rcases scanNumber_kind hf h with hint | ⟨heq, hdouble | hfloat⟩
  · rw [hint]
    exact scanNumber_stops_integer hf hfirst hint hread
  · rw [heq] at hread ⊢
    obtain ⟨hdigit, hfloat, hmark⟩ := scanDecimal_stops hf hdouble hread
    rw [hdouble, TokenKind.GoesOn, if_neg hs, not_or, not_or]
    refine ⟨hdigit, hfloat, fun hexp => ?_⟩
    obtain ⟨d, hd, hdmark⟩ := hmark hexp.1
    exact hexp.2 d hd hdmark
  · rw [heq, hfloat]
    unfold TokenKind.GoesOn
    rw [if_neg hs]
    exact id

/-- What goes on with a punctuator makes it a longer one, or a slash the beginning of a
comment. -/
theorem goesOn_punctuator {kind : TokenKind} {text : List UInt8} {d : UInt8}
    (hmem : (kind, text) ∈ punctuators) (hhead : ¬ IsLetter (text.headD 0))
    (hd : kind.GoesOn text d) :
    text ++ [d] ∈ mark ∨ text = [byte '/'] ∧ (d = byte '/' ∨ d = byte '*') := by
  have hnumber : ∀ e ∈ punctuators, e.1 ≠ .litInt ∧ e.1 ≠ .litDouble := by decide
  have hequal : ∀ e ∈ punctuators, e.1 ∈ [TokenKind.assign, .logNot, .lt, .gt] →
      ∃ e' ∈ punctuators, e'.2 = e.2 ++ [byte '='] := by decide
  have hslash : ∀ e ∈ punctuators, e.1 = .slash → e.2 = [byte '/'] := by decide
  unfold TokenKind.GoesOn at hd
  rw [if_neg hhead] at hd
  split at hd
  · exact absurd rfl (hnumber _ hmem).1
  · exact absurd rfl (hnumber _ hmem).2
  iterate 4
    · obtain rfl := hd
      exact Or.inl (hequal _ hmem (by simp))
  · exact Or.inr ⟨hslash _ hmem rfl, hd⟩
  · exact hd.elim

/-- A punctuator ends where nothing goes on with it, unless it is the beginning of a comment. -/
theorem scanPunctuator_stops {l : Lexer} {c : UInt8} {s : List UInt8} {start : Nat}
    (hc : ¬ IsLetter c) (hslash : c = byte '/' → l.peek ≠ byte '/' ∧ l.peek ≠ byte '*')
    (h : (scanPunctuator l c start).1.kind ≠ .error)
    (hread : Reads l s (scanPunctuator l c start).2) :
    ¬ (scanPunctuator l c start).1.kind.GoesOn (c :: s) (scanPunctuator l c start).2.peek := by
  intro hgoes
  obtain ⟨s', hread', hmem, hlongest⟩ := scanPunctuator_longest h
  obtain rfl := hread.unique hread'
  have hahead := hread.ahead
  generalize (scanPunctuator l c start).2 = l' at hread hgoes hahead
  have hpeek := peek_eq l'
  cases hrest : l'.ahead with
  | nil =>
      -- At the end of the file nothing goes on.
      rw [hrest] at hpeek
      rw [show l'.peek = 0 from hpeek] at hgoes
      exact (gap_nil.not_goesOn _ _) hgoes
  | cons d r =>
      rw [hrest] at hpeek hahead
      rw [show l'.peek = d from hpeek] at hgoes
      rcases goesOn_punctuator hmem hc hgoes with hmark | ⟨htext, hd⟩
      · have hlong := hlongest.longest _ hmark ⟨r, by simp [hahead]⟩
        simp at hlong
      · obtain ⟨rfl, rfl⟩ := List.cons.inj htext
        have hfirst : l.peek = d := by rw [peek_eq, hahead]; rfl
        rw [hfirst] at hslash
        exact hd.elim (hslash rfl).1 (hslash rfl).2

/-- A token ends where nothing goes on with it. -/
theorem lexerNext_stops (hf : f.Standard) {l : Lexer} (s : Spelling)
    (hread : Reads l.skipWhitespace s.text (lexerNext f l).2)
    (hkind : (lexerNext f l).1.kind = s.kind)
    (hslash : l.skipWhitespace.peek = byte '/' →
      l.skipWhitespace.peekNext ≠ byte '/' ∧ l.skipWhitespace.peekNext ≠ byte '*') :
    ¬ s.kind.GoesOn s.text (lexerNext f l).2.peek := by
  have herror : (lexerNext f l).1.kind ≠ .error := by
    rw [hkind]
    exact s.kind_ne.2
  have hstarts : ∃ c t, s.text = c :: t := by
    rcases language_cases s.mem with hword | hnumber | hmem
    · obtain ⟨c, t, htext, _⟩ := word_starts hword
      exact ⟨c, t, htext⟩
    · obtain ⟨c, t, htext, _⟩ := number_starts hnumber
      exact ⟨c, t, htext⟩
    · obtain ⟨c, t, htext, _⟩ := mark_starts (s := s.text) ⟨_, hmem, rfl⟩
      exact ⟨c, t, htext⟩
  obtain ⟨c, t, htext⟩ := hstarts
  have hahead : l.skipWhitespace.ahead = c :: (t ++ (lexerNext f l).2.ahead) := by
    rw [hread.ahead, htext, List.cons_append]
  have hpeek : l.skipWhitespace.peek = c := by rw [peek_eq, hahead, List.headD_cons]
  have hend : ¬ l.skipWhitespace.content.length ≤ l.skipWhitespace.cursor := by
    intro hge
    rw [Lexer.ahead, List.drop_eq_nil_of_le hge] at hahead
    cases hahead
  rw [← hkind]
  rw [htext] at hread ⊢
  unfold lexerNext at hread herror ⊢
  dsimp only at hread herror ⊢
  simp only [hend, ↓reduceIte, hpeek, hf.startsIdentifier_eq, hf.charIsDigit_eq,
    decide_eq_true_eq, beq_iff_eq] at hread herror ⊢
  by_cases hletter : IsLetter c
  · simp only [hletter, ↓reduceIte] at hread ⊢
    have htest : (fun c => f.charIsAlphanum c || c == byte '_') =
        fun c => decide (IsLetter c ∨ IsDigit c) := funext hf.continuesIdentifier_eq
    have hstop := @test_advanceWhile (fun c => decide (IsLetter c ∨ IsDigit c)) (by decide)
      l.skipWhitespace
    rw [TokenKind.goesOn_word (show IsLetter ((c :: t).headD 0) from hletter),
      scanIdentifier_snd, htest]
    exact of_decide_eq_false hstop
  · simp only [hletter, ↓reduceIte] at hread herror ⊢
    by_cases hdigit : IsDigit c
    · simp only [hdigit, ↓reduceIte] at hread herror ⊢
      exact scanNumber_stops hf (Or.inl (hpeek ▸ hdigit)) hletter herror hread
    · simp only [hdigit, ↓reduceIte] at hread herror ⊢
      by_cases hdot : c = byte '.'
      · rw [if_pos hdot] at hread herror ⊢
        split_ifs at hread herror ⊢
        · exact scanNumber_stops hf (Or.inr (hpeek.trans hdot)) hletter herror hread
        · exact absurd rfl herror
      · rw [if_neg hdot] at hread herror ⊢
        have hstep := reads_advance hahead
        have hnext : l.skipWhitespace.advance.peek = l.skipWhitespace.peekNext := by
          rw [peek_eq, hstep.rest hahead, peekNext_eq, hahead]
          rfl
        obtain ⟨u, hread', _⟩ := scanPunctuator_longest herror
        obtain rfl : t = u := (List.cons.inj (hread.unique (hstep.trans hread'))).2
        rw [hpeek, ← hnext] at hslash
        exact scanPunctuator_stops hletter hslash herror hread'

/-- The tokens of a file without lexical errors are spelt. -/
theorem exists_spellings (hf : f.Standard) {l : Lexer}
    (hok : ∀ t ∈ (lexTokens f l).tokens, t.val.kind ≠ .error) :
    ∃ ss : List Spelling, List.Forall₂
      (fun s t => t.val.meaning = s.meaning f ∧ l.tokenText t.val = s.text) ss
      (lexTokens f l).tokens := by
  induction hn : l.left using Nat.strongRecOn generalizing l with
  | ind n ih =>
      subst hn
      rw [lexTokens_eq hf] at hok ⊢
      by_cases heof : (lexerNext f l).1.kind = .eof
      · rw [dif_pos heof]
        exact ⟨[], .nil⟩
      · rw [dif_neg heof] at hok ⊢
        obtain ⟨herror, hrest⟩ := List.forall_mem_cons.mp hok
        obtain ⟨s, hread, hmeaning⟩ := exists_spelling hf herror heof
        obtain ⟨ss, hss⟩ := ih _ (left_lexerNext hf heof) hrest rfl
        rw [tokenText_next] at hss
        exact ⟨s :: ss, .cons ⟨hmeaning, tokenText_lexerNext hread⟩ hss⟩

end

end Lexer

/-! ## Layouts -/

/-- Texts in a row, each with a separator behind it. -/
def layOut : List (List UInt8) → (Nat → Separator) → List UInt8
  | [], _ => []
  | text :: texts, sep => text ++ ((sep 0).text ++ layOut texts fun i => sep (i + 1))

/-- A text under other names: names are replaced, everything else is kept. -/
def reword (word : List UInt8 → List UInt8) (kind : TokenKind) (text : List UInt8) :
    List UInt8 :=
  if kind = .ident then word text else text

/-- A file in another layout and under other names: some blanks and comments, and then the
texts of its tokens, each with a separator behind it. -/
def reformat (f : Fluf) (word : List UInt8 → List UInt8) (lead : List Trivia)
    (sep : Nat → Separator) (l : Lexer) : List UInt8 :=
  lead.flatMap Trivia.text ++
    layOut ((Lexer.lexTokens f l).tokens.map fun t =>
      reword word t.val.kind (l.tokenText t.val)) sep

namespace Lexer

/-- What lies ahead is some spellings in a layout, possibly behind blanks: the lexer returns
their tokens.  Induction on the spellings. -/
theorem lexTokens_layOut {f : Fluf} (hf : f.Standard) (ss : List Spelling)
    (sep : Nat → Separator) {l l' : Lexer} (hskip : l.skipWhitespace = l'.skipWhitespace)
    (h : l'.ahead = layOut (ss.map Spelling.text) sep) :
    List.Forall₂ (fun s t => t.val.meaning = s.meaning f ∧ l.tokenText t.val = s.text) ss
      (lexTokens f l).tokens := by
  induction ss generalizing sep l l' with
  | nil =>
      rw [lexTokens_eq hf, dif_pos (lexerNext_end hskip h).1]
      exact .nil
  | cons s ss ih =>
      have hend := (gap_separator (sep 0) (layOut (ss.map Spelling.text) fun i =>
        sep (i + 1))).not_goesOn s.kind s.text
      obtain ⟨hread, hmeaning⟩ := lexerNext_spelling hf s h hend
      have hstart : l'.skipWhitespace = l' := skipWhitespace_spelling s h hend
      rw [← lexerNext_congr f hskip] at hread hmeaning
      have hrest := hread.rest h
      obtain ⟨m, hsep, hskip'⟩ := skipWhitespace_separator hrest
      have hkind : (lexerNext f l).1.kind ≠ .eof := by
        have heq : (lexerNext f l).1.kind = s.kind := congrArg Prod.fst hmeaning
        rw [heq]
        exact s.kind_ne.1
      rw [lexTokens_eq hf, dif_neg hkind]
      have htext : Reads l.skipWhitespace s.text (lexerNext f l).2 := by
        rw [hskip, hstart]
        exact hread
      have hmore := ih _ hskip' (hsep.rest hrest)
      rw [tokenText_next] at hmore
      exact .cons ⟨hmeaning, tokenText_lexerNext htext⟩ hmore

end Lexer

/-! ## Names -/

/-- A consistent change of the names in a file. -/
structure Rewording where
  word : List UInt8 → List UInt8
  mapsTo : Set.MapsTo word TokenKind.ident.language TokenKind.ident.language
  injOn : Set.InjOn word TokenKind.ident.language

namespace Rewording

variable (w : Rewording)

/-- A spelling under other names. -/
def spelling (s : Spelling) : Spelling where
  kind := s.kind
  text := reword w.word s.kind s.text
  mem := by
    unfold reword
    split <;> rename_i hkind
    · have hmem := s.mem
      rw [hkind] at hmem ⊢
      exact w.mapsTo hmem
    · exact s.mem
  short hnumber := by
    have hne : s.kind ≠ .ident := by
      intro hkind
      rw [hkind] at hnumber
      cases hnumber
    rw [reword, if_neg hne]
    exact s.short hnumber

/-- What a token means under other names: the token of a name becomes that of the other
name, and every other token stays. -/
structure Renames (f : Fluf) (t t' : Token) : Prop where
  kind : t'.kind = t.kind
  name : t.kind = .ident → ∃ text ∈ TokenKind.ident.language,
    t.value = .ofName (f.intern text) ∧ t'.value = .ofName (f.intern (w.word text))
  value : t.kind ≠ .ident → t'.value = t.value

/-- Tokens read from a spelling and from its renaming are renamings of each other. -/
theorem renames_of_spelling {f : Fluf} {s : Spelling} {t t' : Token}
    (h : t.meaning = s.meaning f) (h' : t'.meaning = (w.spelling s).meaning f) :
    w.Renames f t t' := by
  have hkind : t.kind = s.kind := congrArg Prod.fst h
  have hkind' : t'.kind = s.kind := congrArg Prod.fst h'
  have hvalue : t.value = s.kind.value f s.text := congrArg Prod.snd h
  have hvalue' : t'.value = s.kind.value f (reword w.word s.kind s.text) := congrArg Prod.snd h'
  refine ⟨hkind'.trans hkind.symm, fun hident => ?_, fun hident => ?_⟩
  · rw [hkind] at hident
    have hmem := s.mem
    rw [hident] at hmem hvalue hvalue'
    exact ⟨s.text, hmem, hvalue, hvalue'⟩
  · rw [hkind] at hident
    rw [hvalue', hvalue, reword, if_neg hident]

/-- The texts of some tokens under other names. -/
theorem texts_of_spellings {f : Fluf} {l : Lexer} {ss : List Spelling} {ts : Tokens}
    (h : List.Forall₂ (fun s t => t.val.meaning = s.meaning f ∧ l.tokenText t.val = s.text)
      ss ts) :
    ts.map (fun t => reword w.word t.val.kind (l.tokenText t.val)) =
      (ss.map w.spelling).map Spelling.text := by
  induction h with
  | nil => rfl
  | @cons s t _ _ hst _ ih =>
      have hkind : t.val.kind = s.kind := congrArg Prod.fst hst.1
      rw [List.map_cons, List.map_cons, List.map_cons, ih, hkind, hst.2]
      rfl

/-- The same for whole lists of tokens. -/
theorem renames_of_spellings {f : Fluf} {ss : List Spelling} {ts ts' : Tokens}
    (h : List.Forall₂ (fun s t => t.val.meaning = s.meaning f) ss ts)
    (h' : List.Forall₂ (fun s t => t.val.meaning = (w.spelling s).meaning f) ss ts') :
    List.Forall₂ (fun t t' => w.Renames f t.val t'.val) ts ts' := by
  induction h generalizing ts' with
  | nil =>
      cases h'
      exact .nil
  | cons hst _ ih =>
      cases h' with
      | cons hst' hrest' => exact .cons (w.renames_of_spelling hst hst') (ih hrest')

end Rewording

open Lexer

/-- A file without lexical errors and its reformatted version have the same spellings, but
for the names. -/
theorem exists_spellings_reformat {f : Fluf} (hf : f.Standard) {l : Lexer}
    (hok : ∀ t ∈ (lexTokens f l).tokens, t.val.kind ≠ .error) (w : Rewording)
    (lead : List Trivia) (sep : Nat → Separator) (baseOffset : Nat) :
    ∃ ss : List Spelling,
      List.Forall₂ (fun s t => t.val.meaning = s.meaning f ∧ l.tokenText t.val = s.text) ss
        (lexTokens f l).tokens ∧
      List.Forall₂ (fun s t => t.val.meaning = s.meaning f ∧
          (init baseOffset (reformat f w.word lead sep l)).tokenText t.val = s.text)
        (ss.map w.spelling)
        (lexTokens f (init baseOffset (reformat f w.word lead sep l))).tokens := by
  obtain ⟨ss, hss⟩ := exists_spellings hf hok
  refine ⟨ss, hss, ?_⟩
  have hahead : (init baseOffset (reformat f w.word lead sep l)).ahead =
      lead.flatMap Trivia.text ++ layOut ((ss.map w.spelling).map Spelling.text) sep := by
    rw [← w.texts_of_spellings hss]
    rfl
  obtain ⟨l', hlead, hskip⟩ := skipWhitespace_trivias hahead
  have hnew := lexTokens_layOut hf (ss.map w.spelling) sep hskip (hlead.rest hahead)
  exact hnew

/-- The tokens of the reformatted file are those of the file, under the new names. -/
theorem renames_reformat {f : Fluf} (hf : f.Standard) {l : Lexer}
    (hok : ∀ t ∈ (lexTokens f l).tokens, t.val.kind ≠ .error) (w : Rewording)
    (lead : List Trivia) (sep : Nat → Separator) (baseOffset : Nat) :
    List.Forall₂ (fun t t' => w.Renames f t.val t'.val) (lexTokens f l).tokens
      (lexTokens f (init baseOffset (reformat f w.word lead sep l))).tokens := by
  obtain ⟨ss, hss, hss'⟩ := exists_spellings_reformat hf hok w lead sep baseOffset
  rw [List.forall₂_map_left_iff] at hss'
  exact w.renames_of_spellings (hss.imp fun _ _ h => h.1) (hss'.imp fun _ _ h => h.1)

/-- Layout carries no meaning.  Take any file without lexical errors, replace its names
consistently, and put any blanks and comments in front of its tokens and between them.  The
tokens of the new file are those of the old one, under the new names; and whoever lays out
the new file gets what comes of laying out the old one. -/
theorem reformat_keeps_tokens (f : Fluf) (hf : f.Standard) (baseOffset baseOffset' : Nat)
    (content : List UInt8)
    (hok : ∀ t ∈ (lexTokens f (init baseOffset content)).tokens, t.val.kind ≠ .error)
    (w : Rewording) (lead : List Trivia) (sep : Nat → Separator) :
    let l := init baseOffset content
    let l' := init baseOffset' (reformat f w.word lead sep l)
    List.Forall₂ (fun t t' => w.Renames f t.val t'.val) (lexTokens f l).tokens
        (lexTokens f l').tokens ∧
      ∀ lead' sep', reformat f id lead' sep' l' = reformat f w.word lead' sep' l := by
  refine ⟨renames_reformat hf hok w lead sep baseOffset', fun lead' sep' => ?_⟩
  obtain ⟨ss, hss, hss'⟩ := exists_spellings_reformat hf hok w lead sep baseOffset'
  have hid := (Rewording.mk id (fun _ => id) fun _ _ _ _ => id).texts_of_spellings hss'
  have htexts : ((ss.map w.spelling).map
      (Rewording.mk id (fun _ => id) fun _ _ _ _ => id).spelling).map Spelling.text =
        (ss.map w.spelling).map Spelling.text := by
    rw [List.map_map]
    refine List.map_congr_left fun s _ => ?_
    simp [Rewording.spelling, reword]
  rw [htexts, ← w.texts_of_spellings hss] at hid
  exact congrArg (fun texts => lead'.flatMap Trivia.text ++ layOut texts sep') hid

/-- The text {lit}`a+b`, once each token has a line of its own, is laid out with blanks. -/
theorem reformat_keeps_tokens_sum :
    reformat Fluf.ascii id [] (fun _ => ⟨byte ' ', [], by decide⟩)
        (init 5 (reformat Fluf.ascii id [] (fun _ => ⟨byte '\n', [], by decide⟩)
          (init 0 ("a+b".toList.map byte)))) =
      "a + b ".toList.map byte := by
  have h := (reformat_keeps_tokens Fluf.ascii Fluf.ascii_standard 0 5 ("a+b".toList.map byte)
    (by decide +kernel) ⟨id, fun _ => id, fun _ _ _ _ => id⟩ []
    fun _ => ⟨byte '\n', [], by decide⟩).2 [] fun _ => ⟨byte ' ', [], by decide⟩
  exact h.trans (by decide +kernel)

end Cact
