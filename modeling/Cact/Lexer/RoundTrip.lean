import Cact.Lexer.Layout
import Cact.Lexer.Reading
import Mathlib.Data.List.TakeWhile
import Mathlib.Tactic.IntervalCases

/-!
# Lexing undoes printing

Whatever stands between the tokens of a file, the lexer returns the tokens that were
printed.  A token is read up to the gap behind it, and the gap up to the next token.

Main results:

- Theorem {lit}`Lexer.skipWhitespace_separator`: separators are skipped.
- Theorem {lit}`Lexer.lexerNext_lexeme`: printed tokens are read back.
- Theorem {lit}`lexing_undoes_printing`: the same for a whole file.
-/

namespace Cact

instance : DecidablePred IsDigit := fun _ => inferInstanceAs (Decidable (_ ∧ _))

instance : DecidablePred IsLetter := fun _ => inferInstanceAs (Decidable (_ ∨ _ ∨ _))

instance : DecidablePred IsHexDigit := fun _ => inferInstanceAs (Decidable (_ ∨ _ ∨ _))

instance : DecidablePred IsHexMark := fun _ => inferInstanceAs (Decidable (_ ∨ _))

instance : DecidablePred IsExponentMark := fun _ => inferInstanceAs (Decidable (_ ∨ _))

instance : DecidablePred IsFloatMark := fun _ => inferInstanceAs (Decidable (_ ∨ _))

/-- A digit is no hexadecimal mark. -/
theorem IsDigit.not_hex {c : UInt8} (h : IsDigit c) : c ≠ byte 'x' ∧ c ≠ byte 'X' := by
  constructor
  · rintro rfl
    exact absurd h (by decide)
  · rintro rfl
    exact absurd h (by decide)

/-- The classes of digits and letters are disjoint. -/
theorem IsDigit.not_letter {c : UInt8} (h : IsDigit c) : ¬ IsLetter c := by
  unfold IsDigit at h
  unfold IsLetter
  simp only [UInt8.le_iff_toNat_le, UInt8.ext_iff] at h ⊢
  have h₀ : (byte '0').toNat = 48 := rfl
  have h₉ : (byte '9').toNat = 57 := rfl
  have ha : (byte 'a').toNat = 97 := rfl
  have hA : (byte 'A').toNat = 65 := rfl
  have hunderscore : (byte '_').toNat = 95 := rfl
  omega

namespace Fluf.Standard

variable {f : Fluf} (hf : f.Standard)
include hf

/-- {lit}`char_is_digit` is the class of digits. -/
theorem charIsDigit_eq (c : UInt8) : f.charIsDigit c = decide (IsDigit c) := by
  rw [Bool.eq_iff_iff, decide_eq_true_iff]
  exact hf.digit c

/-- The test at the beginning of a name is the class of letters. -/
theorem startsIdentifier_eq (c : UInt8) :
    (f.charIsAlpha c || c == byte '_') = decide (IsLetter c) := by
  rw [Bool.eq_iff_iff, decide_eq_true_iff]
  simp [hf.alpha, IsLetter, or_assoc]

/-- The test inside a name is the class of letters and digits. -/
theorem continuesIdentifier_eq (c : UInt8) :
    (f.charIsAlphanum c || c == byte '_') = decide (IsLetter c ∨ IsDigit c) := by
  simp only [hf.alphanum, Bool.decide_or, ← hf.startsIdentifier_eq, ← hf.charIsDigit_eq]
  cases f.charIsAlpha c <;> cases f.charIsDigit c <;> simp

end Fluf.Standard

namespace Numeral

/-- In front of the point stand digits. -/
theorem whole_digits (n : Numeral) : ∀ c ∈ n.whole, IsDigit c := by
  cases n with
  | point whole fraction e => exact whole.digits
  | noWhole fraction e => simp [whole]
  | noFraction whole e => exact whole.digits
  | noPoint whole e => exact whole.digits

/-- The fraction of a numeral: the point and the digits behind it. -/
theorem fraction_chars (n : Numeral) : ∀ c ∈ n.fraction, c = byte '.' ∨ IsDigit c := by
  intro c hc
  cases n with
  | point whole fraction e | noWhole fraction e =>
      rcases List.mem_cons.mp hc with rfl | hc
      · exact Or.inl rfl
      · exact Or.inr (fraction.digits c hc)
  | noFraction whole e => exact Or.inl (List.mem_singleton.mp hc)
  | noPoint whole e => cases hc

end Numeral

/-- The characters that make a leading zero hexadecimal do not occur in an exponent. -/
theorem Exponent.not_hex (e : Exponent) : ∀ c ∈ e.text, c ≠ byte 'x' ∧ c ≠ byte 'X' := by
  intro c hc
  simp only [Exponent.text, List.mem_cons, List.mem_append] at hc
  rcases hc with rfl | hc | hc
  · rcases e.letter_eq with h | h <;> rw [h] <;> decide
  · rcases e.sign_eq with h | h | h
    · simp [h] at hc
    · obtain rfl : c = byte '+' := by simpa [h] using hc
      decide
    · obtain rfl : c = byte '-' := by simpa [h] using hc
      decide
  · exact IsDigit.not_hex (e.digits.digits c hc)

/-- No numeral has a hexadecimal mark in it. -/
theorem Numeral.not_hex (n : Numeral) : ∀ c ∈ n.text, c ≠ byte 'x' ∧ c ≠ byte 'X' := by
  intro c hc
  simp only [Numeral.text, List.mem_append] at hc
  rcases hc with hc | hc | hc
  · exact (n.whole_digits c hc).not_hex
  · rcases n.fraction_chars c hc with rfl | hc
    · decide
    · exact hc.not_hex
  · cases he : n.exponent with
    | none => simp [Numeral.tail, he] at hc
    | some e => exact e.not_hex c (by simpa [Numeral.tail, he] using hc)

/-- There is at least one digit. -/
theorem Digits.length_pos (ds : Digits) : 0 < ds.text.length :=
  List.length_pos_iff.mpr ds.ne_nil

/-- A numeral has a digit and a point or the letter of an exponent. -/
theorem Numeral.two_le_length (n : Numeral) : 2 ≤ n.text.length := by
  cases n with
  | point whole fraction e | noFraction whole e =>
      have hwhole := whole.length_pos
      simp only [Numeral.text, Numeral.whole, Numeral.fraction, List.length_append,
        List.length_cons]
      omega
  | noWhole fraction e =>
      have hfraction := fraction.length_pos
      simp only [Numeral.text, Numeral.fraction, List.length_append, List.length_cons]
      omega
  | noPoint whole e =>
      have hwhole := whole.length_pos
      have htail : 0 < (Numeral.noPoint whole e).tail.length := by
        simp [Numeral.tail, Numeral.exponent, Exponent.text]
      simp only [Numeral.text, Numeral.whole, List.length_append]
      omega

/-- The letters of exponents only occur in exponents. -/
theorem Numeral.no_exponentMark {n : Numeral} (h : n.exponent = none) :
    ∀ c ∈ n.text, ¬ IsExponentMark c := by
  have hnot {c : UInt8} (hc : IsDigit c) : ¬ IsExponentMark c := by
    rintro (rfl | rfl)
    · exact absurd hc (by decide)
    · exact absurd hc (by decide)
  intro c hc
  simp only [Numeral.text, Numeral.tail, h, Option.map_none, Option.getD_none, List.append_nil,
    List.mem_append] at hc
  rcases hc with hc | hc
  · exact hnot (n.whole_digits c hc)
  · rcases n.fraction_chars c hc with rfl | hc
    · decide
    · exact hnot hc

/-- A numeral begins with no letter. -/
theorem Numeral.headD_text (n : Numeral) : ¬ IsLetter (n.text.headD 0) := by
  have hwhole {ds : Digits} {s : List UInt8} : ¬ IsLetter ((ds.text ++ s).headD 0) := by
    obtain ⟨d, more, hds⟩ := List.exists_cons_of_ne_nil ds.ne_nil
    have hd : IsDigit d := ds.digits d (by simp [hds])
    rw [hds]
    exact hd.not_letter
  cases n with
  | point whole fraction e | noFraction whole e | noPoint whole e => exact hwhole
  | noWhole fraction e =>
      simp only [Numeral.text, Numeral.whole, Numeral.fraction, List.nil_append,
        List.cons_append, List.headD_cons]
      decide

/-! ## Where tokens end -/

/-- Whether a token goes on, behind its text, with the byte {lit}`c`: the byte belongs to a
longer token, to a number that is not well formed, or makes a slash begin a comment. -/
def TokenKind.GoesOn (kind : TokenKind) (text : List UInt8) (c : UInt8) : Prop :=
  if IsLetter (text.headD 0) then IsLetter c ∨ IsDigit c
  else match kind with
    | .litInt =>
        if IsHexMark (text.tail.headD 0) then IsHexDigit c
        else IsDigit c ∨ c = byte '.' ∨ IsExponentMark c ∨ IsFloatMark c ∨
          (text = [byte '0'] ∧ IsHexMark c)
    | .litDouble =>
        IsDigit c ∨ IsFloatMark c ∨ (IsExponentMark c ∧ ∀ d ∈ text, ¬ IsExponentMark d)
    | .assign | .logNot | .lt | .gt => c = byte '='
    | .slash => c = byte '/' ∨ c = byte '*'
    | _ => False

namespace TokenKind

/-- A word goes on with letters and digits. -/
theorem goesOn_word {kind : TokenKind} {text : List UInt8} {c : UInt8}
    (h : IsLetter (text.headD 0)) : kind.GoesOn text c ↔ IsLetter c ∨ IsDigit c := by
  unfold GoesOn
  rw [if_pos h]

/-- An integer of digits goes on with what makes it longer, or a real number, or a hexadecimal one.
-/
theorem goesOn_digits {text : List UInt8} {c : UInt8} (hne : text ≠ [])
    (htext : ∀ d ∈ text, IsDigit d) :
    TokenKind.litInt.GoesOn text c ↔ IsDigit c ∨ c = byte '.' ∨ IsExponentMark c ∨
      IsFloatMark c ∨ (text = [byte '0'] ∧ IsHexMark c) := by
  obtain ⟨d, ds, rfl⟩ := List.exists_cons_of_ne_nil hne
  have hd : IsDigit d := htext d List.mem_cons_self
  have hsecond : ¬ IsHexMark (ds.headD 0) := by
    cases ds with
    | nil => decide
    | cons e ds =>
        have he : IsDigit e := htext e (by simp)
        exact not_or.mpr he.not_hex
  rw [GoesOn, List.headD_cons, if_neg hd.not_letter]
  exact iff_of_eq (if_neg hsecond)

/-- A hexadecimal integer goes on with its own digits. -/
theorem goesOn_hex {x c : UInt8} {ds : List UInt8} (hx : IsHexMark x) :
    TokenKind.litInt.GoesOn (byte '0' :: x :: ds) c ↔ IsHexDigit c := by
  have hzero : ¬ IsLetter (byte '0') := by decide
  rw [GoesOn, List.headD_cons, if_neg hzero]
  exact iff_of_eq (if_pos hx)

/-- A numeral goes on with digits, a suffix and its first exponent. -/
theorem goesOn_numeral {n : Numeral} {c : UInt8} :
    TokenKind.litDouble.GoesOn n.text c ↔
      IsDigit c ∨ IsFloatMark c ∨ (IsExponentMark c ∧ ∀ d ∈ n.text, ¬ IsExponentMark d) := by
  rw [GoesOn, if_neg n.headD_text]

end TokenKind

namespace Lexer

/-! ## Gaps -/

/-- What may stand behind a token: white space or the end of the file. -/
def Gap (r : List UInt8) : Prop := r.headD 0 ∈ 0 :: whitespace

/-- What fails on white space and on the zero byte fails behind a token. -/
theorem Gap.forall {r : List UInt8} (h : Gap r) {P : UInt8 → Prop} [DecidablePred P]
    (hP : ((0 :: whitespace).all fun c => decide (P c)) = true) : P (r.headD 0) :=
  of_decide_eq_true (List.all_eq_true.mp hP _ h)

/-- The blanks of {lit}`skip_whitespace` are the whitespace of the token table. -/
theorem isBlank_iff (c : UInt8) : isBlank c = true ↔ c ∈ whitespace := by
  simp [isBlank, whitespace, or_assoc]

/-- A gap ends every token. -/
theorem Gap.not_goesOn {r : List UInt8} (h : Gap r) (kind : TokenKind) (text : List UInt8) :
    ¬ kind.GoesOn text (r.headD 0) := by
  have hword := h.forall (P := fun c => ¬ (IsLetter c ∨ IsDigit c)) (by decide)
  have hhex := h.forall (P := fun c => ¬ IsHexDigit c ∧ ¬ IsHexMark c) (by decide)
  have hnumber := h.forall (P := fun c => c ≠ byte '.' ∧ ¬ IsExponentMark c ∧ ¬ IsFloatMark c)
    (by decide)
  have hmark := h.forall (P := fun c => c ≠ byte '=' ∧ c ≠ byte '/' ∧ c ≠ byte '*') (by decide)
  have hdigit := (not_or.mp hword).2
  unfold TokenKind.GoesOn
  split
  · exact hword
  · split
    · split
      · exact hhex.1
      · simp only [hdigit, hnumber, hhex, and_false, or_self, not_false_eq_true]
    · simp only [hdigit, hnumber, false_and, or_self, not_false_eq_true]
    · exact hmark.1
    · exact hmark.1
    · exact hmark.1
    · exact hmark.1
    · exact not_or.mpr hmark.2
    · exact id

/-- The second byte of a longer text. -/
theorem peekNext_mem {l : Lexer} {s r : List UInt8} (h : l.ahead = s ++ r)
    (hs : 2 ≤ s.length) : l.peekNext ∈ s := by
  rw [peekNext_eq, h]
  match s, hs with
  | c :: d :: s, _ => simp

/-! ## Separators -/

/-- A blank or a comment is skipped. -/
theorem skipWhitespace_trivia {l : Lexer} {t : Trivia} {r : List UInt8}
    (h : l.ahead = t.text ++ r) :
    ∃ l', Reads l t.text l' ∧ l.skipWhitespace = l'.skipWhitespace := by
  cases t with
  | blank c hc =>
      have hpeek : l.peek = c := by simp [peek_eq, h, Trivia.text]
      refine ⟨l.advance, reads_advance (by simpa [Trivia.text] using h), ?_⟩
      apply skipWhitespace_blank
      rw [hpeek, isBlank_iff]
      exact hc
  | line body hzero hline =>
      have hpeek : l.peek = byte '/' := by simp [peek_eq, h, Trivia.text]
      have hnext : l.peekNext = byte '/' := by simp [peekNext_eq, h, Trivia.text]
      -- The loop stops at the newline, which is then skipped as a blank.
      have hbody : Reads l (byte '/' :: byte '/' :: body)
          (l.advanceWhile fun c => c != byte '\n' && c != 0) := by
        apply reads_advanceWhile (r := byte '\n' :: r)
        · simp [h, Trivia.text]
        · intro c hc
          simp only [List.mem_cons] at hc
          rcases hc with rfl | rfl | hc
          · decide
          · decide
          · have hc₁ : c ≠ byte '\n' := fun heq => hline (heq ▸ hc)
            have hc₂ : c ≠ 0 := fun heq => hzero (heq ▸ hc)
            simp [hc₁, hc₂]
        · rfl
      have hahead := hbody.rest (r := byte '\n' :: r) (by simp [h, Trivia.text])
      refine ⟨_, ?_, (skipWhitespace_line hpeek hnext).trans (skipWhitespace_blank ?_)⟩
      · have hreads := hbody.trans (reads_advance hahead)
        simpa [Trivia.text] using hreads
      · simp only [peek_eq, hahead, List.headD_cons]
        decide
  | block body hzero hopen =>
      have hpeek : l.peek = byte '/' := by simp [peek_eq, h, Trivia.text]
      have hnext : l.peekNext = byte '*' := by simp [peekNext_eq, h, Trivia.text]
      have hinner : l.ahead = byte '/' :: byte '*' :: (body ++ byte '*' :: byte '/' :: r) := by
        simp [h, Trivia.text]
      have hfst := reads_advance hinner
      have hsnd := reads_advance (hfst.rest hinner)
      have hahead : l.advance.advance.ahead = body ++ byte '*' :: byte '/' :: r :=
        (hfst.trans hsnd).rest hinner
      obtain ⟨l', hloop, hreads⟩ := reads_blockComment (n := l.left + 1) hahead hzero hopen
        (by simp [left_eq, h, Trivia.text]; omega)
      refine ⟨l', ?_, skipWhitespace_block hpeek hnext hloop⟩
      simpa [Trivia.text] using (hfst.trans hsnd).trans hreads

/-- A sequence of blanks and comments is skipped. -/
theorem skipWhitespace_trivias {l : Lexer} {ts : List Trivia} {r : List UInt8}
    (h : l.ahead = ts.flatMap Trivia.text ++ r) :
    ∃ l', Reads l (ts.flatMap Trivia.text) l' ∧ l.skipWhitespace = l'.skipWhitespace := by
  induction ts generalizing l with
  | nil => exact ⟨l, Reads.refl l, rfl⟩
  | cons t ts ih =>
      simp only [List.flatMap_cons, List.append_assoc] at h
      obtain ⟨l₁, hreads₁, heq₁⟩ := skipWhitespace_trivia h
      obtain ⟨l₂, hreads₂, heq₂⟩ := ih (hreads₁.rest h)
      exact ⟨l₂, hreads₁.trans hreads₂, heq₁.trans heq₂⟩

/-- A separator is skipped. -/
theorem skipWhitespace_separator {l : Lexer} {sep : Separator} {r : List UInt8}
    (h : l.ahead = sep.text ++ r) :
    ∃ l', Reads l sep.text l' ∧ l.skipWhitespace = l'.skipWhitespace := by
  have hflat : sep.text = (Trivia.blank sep.first sep.first_mem :: sep.more).flatMap
      Trivia.text := by
    simp [Separator.text, Trivia.text]
  rw [hflat] at h ⊢
  exact skipWhitespace_trivias h

/-! ## Names -/

/-- The keyword map holds the keywords under their interned names. -/
theorem lookup_kwMap {f : Fluf} (hf : f.Standard) (s : List UInt8) :
    (kwMap f).lookup (f.intern s) = (keywords.reverse.map Prod.swap).lookup s := by
  have hmap : kwMap f = (keywords.reverse.map Prod.swap).map fun e => (f.intern e.1, e.2) := by
    simp [kwMap, keywords]
  have hlookup : ∀ table : List (List UInt8 × TokenKind),
      (table.map fun e => (f.intern e.1, e.2)).lookup (f.intern s) = table.lookup s := by
    intro table
    induction table with
    | nil => rfl
    | cons e table ih =>
        rcases e with ⟨text, kind⟩
        have heq : (f.intern s == f.intern text) = (s == text) := by
          rw [Bool.eq_iff_iff, beq_iff_eq, beq_iff_eq, hf.intern.eq_iff]
        simp only [List.map_cons, List.lookup_cons, heq, ih]
  rw [hmap, hlookup]

/-- Every keyword is found in the map of keywords. -/
theorem lookup_keyword : ∀ e ∈ keywords,
    (keywords.reverse.map Prod.swap).lookup e.2 = some e.1 := by
  decide

/-- Nothing else is. -/
theorem lookup_not_keyword {s : List UInt8} (h : ∀ e ∈ keywords, e.2 ≠ s) :
    (keywords.reverse.map Prod.swap).lookup s = none := by
  rw [List.lookup_eq_none_iff]
  intro e he
  simp only [List.mem_map, List.mem_reverse] at he
  obtain ⟨entry, hmem, rfl⟩ := he
  simpa using (h entry hmem).symm

/-- A name is read to its end, and told apart from the keywords. -/
theorem scanIdentifier_reads {f : Fluf} (hf : f.Standard) {l : Lexer} {s r : List UInt8}
    (h : l.ahead = s ++ r) (hs : ∀ c ∈ s, IsLetter c ∨ IsDigit c)
    (hr : ¬ (IsLetter (r.headD 0) ∨ IsDigit (r.headD 0))) :
    Reads l s (scanIdentifier f l).2 ∧
      (scanIdentifier f l).1.kind =
        ((keywords.reverse.map Prod.swap).lookup s).getD .ident ∧
      (scanIdentifier f l).1.value =
        if ((keywords.reverse.map Prod.swap).lookup s).isSome then .unset
        else .ofName (f.intern s) := by
  have hreads : Reads l s (l.advanceWhile fun c => f.charIsAlphanum c || c == byte '_') := by
    apply reads_advanceWhile h
    · intro c hc
      simpa [hf.continuesIdentifier_eq] using hs c hc
    · rw [hf.continuesIdentifier_eq]
      exact decide_eq_false hr
  unfold scanIdentifier
  simp only [hreads.lexeme, lookup_kwMap hf]
  cases (keywords.reverse.map Prod.swap).lookup s with
  | none => exact ⟨hreads, rfl, rfl⟩
  | some kind => exact ⟨hreads, rfl, rfl⟩

/-! ## Numbers -/

/-- A run of digits is read up to what is no digit. -/
theorem advanceWhile_digits {f : Fluf} (hf : f.Standard) {l : Lexer} {s r : List UInt8}
    (h : l.ahead = s ++ r) (hs : ∀ c ∈ s, IsDigit c) (hr : ¬ IsDigit (r.headD 0)) :
    Reads l s (l.advanceWhile f.charIsDigit) := by
  apply reads_advanceWhile h
  · intro c hc
    simpa [hf.charIsDigit_eq] using hs c hc
  · simpa [hf.charIsDigit_eq] using hr

/-- The fraction of a numeral is read. -/
theorem scanFraction_reads {f : Fluf} (hf : f.Standard) (n : Numeral) {l : Lexer}
    {s : List UInt8} (h : l.ahead = n.fraction ++ s)
    (hdot : n.fraction = [] → s.headD 0 ≠ byte '.') (hdigit : ¬ IsDigit (s.headD 0)) :
    ∃ l', scanFraction f l = (!n.fraction.isEmpty, l') ∧ Reads l n.fraction l' := by
  have hpoint (ds : List UInt8) (hds : ∀ c ∈ ds, IsDigit c)
      (h : l.ahead = byte '.' :: (ds ++ s)) :
      ∃ l', scanFraction f l = (true, l') ∧ Reads l (byte '.' :: ds) l' := by
    have hpeek : l.peek = byte '.' := by simp [peek_eq, h]
    have hadvance := reads_advance h
    have hdigits := advanceWhile_digits hf (hadvance.rest h) hds hdigit
    exact ⟨_, by simp [scanFraction, hpeek], hadvance.trans hdigits⟩
  cases n with
  | point whole fraction e => exact hpoint _ fraction.digits (by simpa [Numeral.fraction] using h)
  | noWhole fraction e => exact hpoint _ fraction.digits (by simpa [Numeral.fraction] using h)
  | noFraction whole e =>
      exact hpoint [] (by simp) (by simpa [Numeral.fraction] using h)
  | noPoint whole e =>
      have hpeek : (l.peek == byte '.') = false := by
        simpa [peek_eq, h, Numeral.fraction] using hdot rfl
      exact ⟨l, by simp [scanFraction, hpeek, Numeral.fraction], Reads.refl l⟩

/-- The exponent of a numeral is read. -/
theorem scanExponent_reads {f : Fluf} (hf : f.Standard) (e : Exponent) {l : Lexer}
    {s : List UInt8} (h : l.ahead = e.text ++ s) (hdigit : ¬ IsDigit (s.headD 0)) :
    ∃ l', scanExponent f l = .present l' ∧ Reads l e.text l' := by
  have hahead : l.ahead = e.letter :: (e.sign ++ (e.digits.text ++ s)) := by
    simp [h, Exponent.text]
  have hletter : (l.peek == byte 'e' || l.peek == byte 'E') = true := by
    have hpeek : l.peek = e.letter := by simp [peek_eq, hahead]
    simpa [hpeek] using e.letter_eq
  have hadvance := reads_advance hahead
  have hrest := hadvance.rest hahead
  -- Digits follow the sign, or the letter when there is no sign.
  obtain ⟨d, ds, hds⟩ := List.exists_cons_of_ne_nil e.digits.ne_nil
  have hd : IsDigit d := e.digits.digits d (by simp [hds])
  have hsign : Reads l.advance e.sign l.advance.scanSign := by
    have hnot : ∀ c, IsDigit c → c ≠ byte '+' ∧ c ≠ byte '-' := by
      rintro c hc
      constructor
      · rintro rfl
        exact absurd hc (by decide)
      · rintro rfl
        exact absurd hc (by decide)
    rcases e.sign_eq with hs | hs | hs
    · have hpeek : l.advance.peek = d := by simp [peek_eq, hrest, hs, hds]
      simpa [scanSign, hpeek, hnot d hd, hs] using Reads.refl l.advance
    · have hpeek : l.advance.peek = byte '+' := by simp [peek_eq, hrest, hs]
      simpa [scanSign, hpeek, hs] using reads_advance (by simpa [hs] using hrest)
    · have hpeek : l.advance.peek = byte '-' := by simp [peek_eq, hrest, hs]
      simpa [scanSign, hpeek, hs] using reads_advance (by simpa [hs] using hrest)
  have hdigits := hsign.rest hrest
  have hpeek : f.charIsDigit l.advance.scanSign.peek = true := by
    simpa [hf.charIsDigit_eq, peek_eq, hdigits, hds] using hd
  have hloop := advanceWhile_digits hf hdigits e.digits.digits hdigit
  refine ⟨l.advance.scanSign.advanceWhile f.charIsDigit,
    by simp [scanExponent, hletter, hpeek], ?_⟩
  simpa [Exponent.text] using (hadvance.trans hsign).trans hloop

/-- A numeral is read up to its suffix. -/
theorem scanDecimal_reads {f : Fluf} (hf : f.Standard) (n : Numeral) {l : Lexer}
    {s : List UInt8} (h : l.ahead = n.text ++ s) (hdigit : ¬ IsDigit (s.headD 0))
    (hmark : n.exponent = none → ¬ IsExponentMark (s.headD 0)) :
    ∃ l', scanDecimal f l = scanSuffix f l' l.cursor true ∧ Reads l n.text l' := by
  have hahead : l.ahead = n.whole ++ (n.fraction ++ (n.tail ++ s)) := by
    simp [h, Numeral.text]
  -- An exponent begins with a letter, and behind the numeral no digit follows.
  have hexponent {e : Exponent} (he : n.exponent = some e) :
      ¬ IsDigit ((n.tail ++ s).headD 0) ∧ (n.tail ++ s).headD 0 ≠ byte '.' := by
    have hhead : (n.tail ++ s).headD 0 = e.letter := by
      simp [Numeral.tail, he, Exponent.text]
    rw [hhead]
    rcases e.letter_eq with hletter | hletter <;> rw [hletter] <;> decide
  have htail : ¬ IsDigit ((n.tail ++ s).headD 0) := by
    cases he : n.exponent with
    | none => simpa [Numeral.tail, he] using hdigit
    | some e => exact (hexponent he).1
  have hdot : n.fraction = [] → (n.tail ++ s).headD 0 ≠ byte '.' := by
    intro hnone
    cases n with
    | noPoint whole e => exact (hexponent rfl).2
    | _ => cases hnone
  have hfraction : ¬ IsDigit ((n.fraction ++ (n.tail ++ s)).headD 0) := by
    cases n with
    | noPoint whole e => exact htail
    | _ =>
        simp only [Numeral.fraction, List.cons_append, List.headD_cons]
        decide
  have hwhole := advanceWhile_digits hf (s := n.whole) hahead
    n.whole_digits hfraction
  obtain ⟨l₁, hscan₁, hreads₁⟩ := scanFraction_reads hf n (hwhole.rest hahead) hdot htail
  have hrest := hreads₁.rest (hwhole.rest hahead)
  unfold scanDecimal
  rw [hscan₁]
  dsimp only
  cases he : n.exponent with
  | none =>
      have hpeek : l₁.peek = s.headD 0 := by simp [peek_eq, hrest, Numeral.tail, he]
      have hletter : l₁.peek ≠ byte 'e' ∧ l₁.peek ≠ byte 'E' := by
        rw [hpeek]
        exact not_or.mp (hmark he)
      have habsent : scanExponent f l₁ = .absent := by simp [scanExponent, hletter]
      have hfrac : n.fraction.isEmpty = false := by
        cases n with
        | noPoint whole e => simp [Numeral.exponent] at he
        | _ => rfl
      refine ⟨l₁, by simp [habsent, hfrac], ?_⟩
      simpa [Numeral.text, Numeral.tail, he] using hwhole.trans hreads₁
  | some e =>
      obtain ⟨l₂, hscan₂, hreads₂⟩ := scanExponent_reads hf e
        (by simpa [Numeral.tail, he] using hrest) hdigit
      refine ⟨l₂, by simp [hscan₂], ?_⟩
      simpa [Numeral.text, Numeral.tail, he] using hwhole.trans (hreads₁.trans hreads₂)

/-- A number that is not hexadecimal is read as a decimal one. -/
theorem scanNumber_decimal (f : Fluf) {l : Lexer}
    (h : l.peek = byte '0' → l.peekNext ≠ byte 'x' ∧ l.peekNext ≠ byte 'X') :
    scanNumber f l = scanDecimal f l := by
  unfold scanNumber
  by_cases hzero : l.peek = byte '0'
  · simp [h hzero]
  · simp [hzero]

/-- A numeral with a suffix is a {lit}`float` literal. -/
theorem scanNumber_float {f : Fluf} (hf : f.Standard) (n : Numeral) {suffix : UInt8}
    (hsuffix : suffix = byte 'f' ∨ suffix = byte 'F') {l : Lexer} {r : List UInt8}
    (h : l.ahead = (n.text ++ [suffix]) ++ r)
    (hlength : (n.text ++ [suffix]).length < 128) :
    Reads l (n.text ++ [suffix]) (scanNumber f l).2 ∧
      (scanNumber f l).1.kind = .litFloat ∧
      (scanNumber f l).1.value = .ofFloat (f.strtof (n.text ++ [suffix])) := by
  have hsuffix' : suffix ≠ byte 'x' ∧ suffix ≠ byte 'X' := by
    rcases hsuffix with rfl | rfl <;> decide
  have hhex : l.peekNext ≠ byte 'x' ∧ l.peekNext ≠ byte 'X' := by
    have hlong := n.two_le_length
    rcases List.mem_append.mp (peekNext_mem h (by simp; omega)) with hc | hc
    · exact n.not_hex _ hc
    · exact List.mem_singleton.mp hc ▸ hsuffix'
  have hahead : l.ahead = n.text ++ suffix :: r := by simp [h]
  have hstop : ¬ IsDigit suffix ∧ ¬ IsExponentMark suffix := by
    rcases hsuffix with rfl | rfl <;> decide
  obtain ⟨l', hscan, hreads⟩ := scanDecimal_reads hf n hahead hstop.1 fun _ => hstop.2
  have hrest := hreads.rest hahead
  have hpeek : (l'.peek == byte 'f' || l'.peek == byte 'F') = true := by
    simpa [peek_eq, hrest] using hsuffix
  have hall := hreads.trans (reads_advance hrest)
  have htoken : numberToken f l'.advance l.cursor true true =
      ⟨.litFloat, l'.advance.makeSpan l.cursor, .ofFloat (f.strtof (n.text ++ [suffix]))⟩ := by
    simp only [numberToken, hall.length, hall.lexeme, Nat.not_le.mpr hlength, ↓reduceIte]
  rw [scanNumber_decimal f fun _ => hhex, hscan]
  simp only [scanSuffix, hpeek, ↓reduceIte, htoken]
  exact ⟨hall, trivial, trivial⟩

/-- Without one it is a {lit}`double` literal. -/
theorem scanNumber_double {f : Fluf} (hf : f.Standard) (n : Numeral) {l : Lexer}
    {r : List UInt8} (h : l.ahead = n.text ++ r)
    (hr : ¬ TokenKind.litDouble.GoesOn n.text (r.headD 0)) (hlength : n.text.length < 128) :
    Reads l n.text (scanNumber f l).2 ∧ (scanNumber f l).1.kind = .litDouble ∧
      (scanNumber f l).1.value = .ofDouble (f.strtod n.text) := by
  have hhex : l.peekNext ≠ byte 'x' ∧ l.peekNext ≠ byte 'X' :=
    n.not_hex _ (peekNext_mem h n.two_le_length)
  rw [TokenKind.goesOn_numeral, not_or, not_or] at hr
  obtain ⟨hdigit, hfloat, hmark⟩ := hr
  obtain ⟨l', hscan, hreads⟩ := scanDecimal_reads hf n h hdigit
    fun hnone hexp => hmark ⟨hexp, n.no_exponentMark hnone⟩
  have hpeek : (l'.peek == byte 'f' || l'.peek == byte 'F') = false := by
    rw [peek_eq, hreads.rest h]
    simpa [IsFloatMark] using hfloat
  have htoken : numberToken f l' l.cursor true false =
      ⟨.litDouble, l'.makeSpan l.cursor, .ofDouble (f.strtod n.text)⟩ := by
    simp only [numberToken, hreads.length, hreads.lexeme, Nat.not_le.mpr hlength, ↓reduceIte,
      Bool.false_eq_true]
  rw [scanNumber_decimal f fun _ => hhex, hscan]
  simp only [scanSuffix, hpeek, Bool.false_eq_true, ↓reduceIte, htoken]
  exact ⟨hreads, trivial, trivial⟩

/-- A digit of a numeral has the value that it stands for. -/
theorem isDigit_byte {c : Char} (h : c.isDigit = true) :
    IsDigit (byte c) ∧ digitValue (byte c) = c.toNat - '0'.toNat := by
  have hrange : 48 ≤ c.toNat ∧ c.toNat ≤ 57 := by
    simpa [Char.isDigit, UInt32.le_iff_toNat_le] using h
  rw [← Char.ofNat_toNat c]
  generalize c.toNat = n at hrange
  obtain ⟨hlow, hhigh⟩ := hrange
  interval_cases n <;> decide

/-- The digits of a number stand for it. -/
theorem digitsValue_map {cs : List Char} (h : ∀ c ∈ cs, c.isDigit = true) :
    digitsValue 10 (cs.map byte) = Nat.ofDigitChars 10 cs 0 := by
  have hall : ∀ b ∈ cs.map byte, decide (digitValue b < 10) = true := by
    intro b hb
    obtain ⟨c, hc, rfl⟩ := List.mem_map.mp hb
    have hdigit := isDigit_byte (h c hc)
    have hrange : c.toNat ≤ 57 := by
      have := h c hc
      simp only [Char.isDigit, UInt32.le_iff_toNat_le, Bool.and_eq_true, decide_eq_true_eq] at this
      exact this.2
    simp only [hdigit.2, decide_eq_true_eq]
    have : '0'.toNat = 48 := rfl
    omega
  have hfold : ∀ acc, (cs.map byte).foldl (fun acc c => acc * 10 + digitValue c) acc =
      Nat.ofDigitChars 10 cs acc := by
    clear hall
    induction cs with
    | nil => simp
    | cons c cs ih =>
        intro acc
        have hc := (isDigit_byte (h c (by simp))).2
        rw [List.map_cons, List.foldl_cons, ih (fun d hd => h d (by simp [hd])),
          Nat.ofDigitChars_cons, hc, Nat.mul_comm]
  rw [digitsValue, List.takeWhile_eq_self_iff.mpr hall]
  exact hfold 0

/-- A number does not begin with a zero, unless it is zero. -/
theorem toDigits_head {n : Nat} (hn : 0 < n) :
    ∃ c cs, Nat.toDigits 10 n = c :: cs ∧ byte c ≠ byte '0' := by
  induction n using Nat.strongRecOn with
  | ind n ih =>
      by_cases hlt : n < 10
      · refine ⟨n.digitChar, [], Nat.toDigits_of_lt_base hlt, ?_⟩
        interval_cases n <;> decide
      · obtain ⟨c, cs, hcs, hc⟩ := ih (n / 10) (by omega) (by omega)
        refine ⟨c, cs ++ [(n % 10).digitChar], ?_, hc⟩
        rw [Nat.toDigits_of_base_le (by decide) (by omega), hcs, List.cons_append]

/-- Decimal notation consists of digits. -/
theorem isDigit_toDigits {n : Nat} : ∀ c ∈ Nat.toDigits 10 n, c.isDigit = true := by
  intro c hc
  exact Nat.isDigit_of_mem_toDigits (by decide) (by decide) hc

/-- So it does as bytes. -/
theorem isDigit_decimal {n : Nat} : ∀ b ∈ (Nat.toDigits 10 n).map byte, IsDigit b := by
  intro b hb
  obtain ⟨c, hc, rfl⟩ := List.mem_map.mp hb
  exact (isDigit_byte (isDigit_toDigits c hc)).1

/-- It fits the buffer. -/
theorem length_decimal {n : Nat} (hn : n < 10000000000) :
    ((Nat.toDigits 10 n).map byte).length < 128 := by
  have hle := (Nat.length_toDigits_le_iff (b := 10) (n := n) (k := 10) (by decide)
    (by decide)).mpr (by omega)
  simp only [List.length_map]
  omega

/-- {lit}`strtoll` undoes decimal notation. -/
theorem strtoll_toDigits {n : Nat} (hn : n ≤ 9223372036854775807) :
    strtoll ((Nat.toDigits 10 n).map byte) = n := by
  have hvalue : digitsValue 10 ((Nat.toDigits 10 n).map byte) = n := by
    rw [digitsValue_map isDigit_toDigits, Nat.ofDigitChars_ten_toDigits]
  rcases Nat.eq_zero_or_pos n with rfl | hpos
  · decide
  · obtain ⟨c, cs, hcs, hc⟩ := toDigits_head hpos
    have hzero : (byte c == byte '0') = false := by simpa using hc
    rw [hcs] at hvalue ⊢
    unfold strtoll
    cases cs with
    | nil =>
        simp only [List.map_cons, List.map_nil] at hvalue ⊢
        rw [hvalue]
        exact Nat.min_eq_left hn
    | cons d cs =>
        simp only [List.map_cons, hzero, Bool.false_and, Bool.false_eq_true, ↓reduceIte] at hvalue ⊢
        rw [hvalue]
        exact Nat.min_eq_left hn

/-- Digits alone are an {lit}`int` literal. -/
theorem scanNumber_int {f : Fluf} (hf : f.Standard) {n : Nat} (hn : n < 2147483648)
    {l : Lexer} {r : List UInt8} (h : l.ahead = (Nat.toDigits 10 n).map byte ++ r)
    (hr : ¬ TokenKind.litInt.GoesOn ((Nat.toDigits 10 n).map byte) (r.headD 0)) :
    Reads l ((Nat.toDigits 10 n).map byte) (scanNumber f l).2 ∧
      (scanNumber f l).1.kind = .litInt ∧
      (scanNumber f l).1.value = .ofInt (Int32.ofNat n) := by
  rw [TokenKind.goesOn_digits (by simp) isDigit_decimal] at hr
  simp only [not_or] at hr
  obtain ⟨hdigit, hdot, hexp, hfloat, hmark⟩ := hr
  have hhex : l.peek = byte '0' → l.peekNext ≠ byte 'x' ∧ l.peekNext ≠ byte 'X' := by
    intro hzero
    have hall := isDigit_decimal (n := n)
    generalize (Nat.toDigits 10 n).map byte = s at h hall hmark
    rw [peek_eq, h] at hzero
    rw [peekNext_eq, h]
    match s with
    | [] => exact absurd (hzero ▸ hdigit : ¬ IsDigit (byte '0')) (by decide)
    | [c] =>
        obtain rfl : c = byte '0' := hzero
        exact not_or.mp fun hx => hmark ⟨rfl, hx⟩
    | c :: d :: s => exact (hall d (by simp)).not_hex
  have hreads := advanceWhile_digits hf h isDigit_decimal hdigit
  have hrest := hreads.rest h
  generalize hl' : l.advanceWhile f.charIsDigit = l' at hreads hrest
  have hstops : (l'.peek ≠ byte '.' ∧ l'.peek ≠ byte 'e' ∧ l'.peek ≠ byte 'E') ∧
      l'.peek ≠ byte 'f' ∧ l'.peek ≠ byte 'F' := by
    rw [peek_eq, hrest]
    exact ⟨⟨hdot, not_or.mp hexp⟩, not_or.mp hfloat⟩
  have hlength := length_decimal (n := n) (by omega)
  have htoken : numberToken f l' l.cursor false false =
      ⟨.litInt, l'.makeSpan l.cursor, .ofInt (Int32.ofNat n)⟩ := by
    simp only [numberToken, hreads.length, hreads.lexeme, Nat.not_le.mpr hlength, ↓reduceIte,
      Bool.false_eq_true, strtoll_toDigits (n := n) (by omega)]
  have hscan : scanNumber f l = (numberToken f l' l.cursor false false, l') := by
    rw [scanNumber_decimal f hhex]
    simp [scanDecimal, hl', scanFraction, scanExponent, scanSuffix, hstops.1, hstops.2]
  rw [hscan, htoken]
  exact ⟨hreads, rfl, rfl⟩

/-! ## Punctuators -/

/-- How the switch of {lit}`lexer_next` comes to a punctuator: by a character of its own,
by one that no {lit}`=` follows, or by two characters. -/
def PunctuatorText (kind : TokenKind) : List UInt8 → Prop
  | [c] => singleKind c = some kind ∨
      (singleKind c = none ∧ (withEqual c).map Prod.snd = some kind)
  | [c, d] => singleKind c = none ∧
      ((d = byte '=' ∧ (withEqual c).map Prod.fst = some kind) ∨
        (d = c ∧ withEqual c = none ∧ (doubled c).map Prod.fst = some kind))
  | _ => False

instance (kind : TokenKind) : DecidablePred (PunctuatorText kind)
  | [] => inferInstanceAs (Decidable False)
  | [_] => inferInstanceAs (Decidable (_ ∨ _))
  | [_, _] => inferInstanceAs (Decidable (_ ∧ _))
  | _ :: _ :: _ :: _ => inferInstanceAs (Decidable False)

/-- The texts of punctuators are of the form that {lit}`lexer_next` switches on. -/
theorem punctuatorText : ∀ e ∈ punctuators, PunctuatorText e.1 e.2 := by decide

/-- A character that an {lit}`=` would make part of another punctuator. -/
theorem punctuator_equal : ∀ e ∈ punctuators, (withEqual (e.2.headD 0)).isSome →
    e.2.tail = [] → e.1 = .assign ∨ e.1 = .logNot ∨ e.1 = .lt ∨ e.1 = .gt := by
  decide

/-- The slash is the only punctuator with its text. -/
theorem punctuator_slash : ∀ e ∈ punctuators, e.2 = [byte '/'] → e.1 = .slash := by decide

/-- A punctuator that an equals sign would make longer does not stand in front of one. -/
theorem goesOn_equal {kind : TokenKind} {c d : UInt8} (hmem : (kind, [c]) ∈ punctuators)
    (hc : ¬ IsLetter c) (hequal : (withEqual c).isSome) (hd : ¬ kind.GoesOn [c] d) :
    d ≠ byte '=' := by
  unfold TokenKind.GoesOn at hd
  rw [List.headD_cons, if_neg hc] at hd
  rcases punctuator_equal _ hmem hequal rfl with heq | heq | heq | heq <;>
    · obtain rfl : kind = _ := heq
      exact hd

/-- A slash does not stand where it would begin a comment. -/
theorem goesOn_slash {kind : TokenKind} {d : UInt8} (hmem : (kind, [byte '/']) ∈ punctuators)
    (hd : ¬ kind.GoesOn [byte '/'] d) : d ≠ byte '/' ∧ d ≠ byte '*' := by
  obtain rfl : kind = .slash := punctuator_slash _ hmem rfl
  have hslash : ¬ IsLetter (byte '/') := by decide
  unfold TokenKind.GoesOn at hd
  rw [List.headD_cons, if_neg hslash] at hd
  exact not_or.mp hd

/-- A punctuator is read to its end, and no further. -/
theorem scanPunctuator_reads {kind : TokenKind} {c : UInt8} {s r : List UInt8} {l : Lexer}
    (htext : PunctuatorText kind (c :: s)) (h : l.ahead = s ++ r)
    (hr : s = [] → (withEqual c).isSome → r.headD 0 ≠ byte '=') (start : Nat) :
    Reads l s (scanPunctuator l c start).2 ∧
      (scanPunctuator l c start).1.kind = kind ∧
      (scanPunctuator l c start).1.value = .unset := by
  unfold scanPunctuator
  match s, htext with
  | [], .inl hsingle =>
      simp only [hsingle]
      exact ⟨Reads.refl l, rfl, rfl⟩
  | [], .inr ⟨hsingle, hequal⟩ =>
      obtain ⟨⟨long, short⟩, hkinds, rfl⟩ := Option.map_eq_some_iff.mp hequal
      have hpeek : (l.peek == byte '=') = false := by
        rw [peek_eq, h]
        simpa using hr rfl (by rw [hkinds]; rfl)
      simp only [hsingle, hkinds, hpeek, Bool.false_eq_true, ↓reduceIte]
      exact ⟨Reads.refl l, rfl, rfl⟩
  | [d], ⟨hsingle, .inl ⟨hd, hequal⟩⟩ =>
      obtain ⟨⟨long, short⟩, hkinds, rfl⟩ := Option.map_eq_some_iff.mp hequal
      have hpeek : (l.peek == byte '=') = true := by simp [peek_eq, h, hd]
      simp only [hsingle, hkinds, hpeek, ↓reduceIte]
      exact ⟨reads_advance h, rfl, rfl⟩
  | [d], ⟨hsingle, .inr ⟨hd, hequal, hdouble⟩⟩ =>
      obtain ⟨⟨kind, complaint⟩, hkinds, rfl⟩ := Option.map_eq_some_iff.mp hdouble
      have hpeek : (l.peek == c) = true := by simp [peek_eq, h, hd]
      simp only [hsingle, hequal, hkinds, hpeek, ↓reduceIte]
      exact ⟨reads_advance h, rfl, rfl⟩

/-! ## Tokens -/

/-- Which scanner a token is left to, by its first character. -/
theorem lexerNext_cons {f : Fluf} (hf : f.Standard) {l : Lexer} {c : UInt8} {s : List UInt8}
    (h : l.ahead = c :: s) (hskip : l.skipWhitespace = l) :
    lexerNext f l =
      if IsLetter c then scanIdentifier f l
      else if IsDigit c then scanNumber f l
      else if c = byte '.' then
        if IsDigit (s.headD 0) then scanNumber f l
        else (l.advance.lexerErrorToken .unexpectedDot l.cursor, l.advance)
      else scanPunctuator l.advance c l.cursor := by
  have hlt : ¬ l.content.length ≤ l.cursor := by
    intro hge
    simp [ahead, List.drop_eq_nil_of_le hge] at h
  have hpeek : l.peek = c := by simp [peek_eq, h]
  have hnext : l.advance.peek = s.headD 0 := by rw [peek_eq, (reads_advance h).rest h]
  unfold lexerNext
  simp only [hskip, hlt, ↓reduceIte, hpeek, hnext, hf.startsIdentifier_eq, hf.charIsDigit_eq,
    decide_eq_true_eq, beq_iff_eq]

/-- What the lexer does at the beginning of a printed token. -/
structure ReadsToken (f : Fluf) (l : Lexer) (t : Lexeme) : Prop where
  reads : Reads l t.text (lexerNext f l).2
  kind : (lexerNext f l).1.kind = t.kind
  value : (lexerNext f l).1.value = t.value f

/-- The tokens with a fixed text are the keywords and the punctuators. -/
theorem text_keywords_punctuators {kind : TokenKind} {s : List UInt8}
    (h : kind.text = some s) : (kind, s) ∈ keywords ∨ (kind, s) ∈ punctuators := by
  unfold TokenKind.text at h
  obtain ⟨e, he, rfl⟩ := Option.map_eq_some_iff.mp h
  have hkind : e.1 = kind := by simpa using List.find?_some he
  have hmem := List.mem_of_find?_eq_some he
  rw [← hkind]
  exact List.mem_append.mp hmem

/-- The first characters of keywords and punctuators. -/
theorem keyword_letters : ∀ e ∈ keywords, e.2 ≠ [] ∧ ∀ c ∈ e.2, IsLetter c := by
  have hall : ∀ e ∈ keywords, e.2 ≠ [] ∧ e.2.all IsLetter = true := by decide
  intro e he
  simpa using hall e he

/-- No punctuator begins like a word, a number or a blank. -/
theorem punctuator_first : ∀ e ∈ punctuators, ∀ c, e.2.head? = some c →
    ¬ IsLetter c ∧ ¬ IsDigit c ∧ c ≠ byte '.' ∧ isBlank c = false ∧
      (c = byte '/' → e.2 = [c]) := by
  intro e he c hc
  have hall : ∀ e ∈ punctuators, e.2.head?.all (fun c =>
      ¬ IsLetter c ∧ ¬ IsDigit c ∧ c ≠ byte '.' ∧ isBlank c = false ∧
        (c = byte '/' → e.2 = [c])) = true := by
    decide
  simpa [hc, imp_iff_not_or] using hall e he

/-- In front of a word or a number nothing is skipped. -/
theorem skipWhitespace_of_class {l : Lexer} {c : UInt8} {s : List UInt8}
    (h : l.ahead = c :: s) (hc : IsLetter c ∨ IsDigit c ∨ c = byte '.') :
    l.skipWhitespace = l := by
  have hpeek : l.peek = c := by simp [peek_eq, h]
  have hslash : c ≠ byte '/' := by
    rintro rfl
    exact absurd hc (by decide)
  apply skipWhitespace_stop
  · rw [hpeek, Bool.eq_false_iff, ne_eq, isBlank_iff]
    intro hmem
    revert hc
    revert c
    simp only [whitespace, List.mem_cons, List.not_mem_nil, or_false]
    rintro c - - - (rfl | rfl | rfl | rfl | rfl | rfl) <;> decide
  · rw [hpeek]
    exact fun h => absurd h hslash

/-- A numeral begins with a digit, or with a point and a digit. -/
theorem lexerNext_numeral {f : Fluf} (hf : f.Standard) {n : Numeral} {l : Lexer}
    {r : List UInt8} (h : l.ahead = n.text ++ r) : lexerNext f l = scanNumber f l := by
  have hwhole {ds : Digits} {s : List UInt8} (h : l.ahead = ds.text ++ s) :
      lexerNext f l = scanNumber f l := by
    obtain ⟨d, more, hds⟩ := List.exists_cons_of_ne_nil ds.ne_nil
    have hd : IsDigit d := ds.digits d (by simp [hds])
    rw [hds] at h
    rw [lexerNext_cons hf h (skipWhitespace_of_class h (Or.inr (Or.inl hd))),
      if_neg hd.not_letter, if_pos hd]
  cases n with
  | point whole fraction e => exact hwhole (by simpa [Numeral.text, Numeral.whole] using h)
  | noFraction whole e => exact hwhole (by simpa [Numeral.text, Numeral.whole] using h)
  | noPoint whole e => exact hwhole (by simpa [Numeral.text, Numeral.whole] using h)
  | noWhole fraction e =>
      obtain ⟨d, more, hds⟩ := List.exists_cons_of_ne_nil fraction.ne_nil
      have hd : IsDigit d := fraction.digits d (by simp [hds])
      have hahead : l.ahead =
          byte '.' :: (d :: (more ++ (Numeral.noWhole fraction e).tail ++ r)) := by
        simpa [Numeral.text, Numeral.whole, Numeral.fraction, hds] using h
      rw [lexerNext_cons hf hahead (skipWhitespace_of_class hahead (Or.inr (Or.inr rfl))),
        if_neg (by decide), if_neg (by decide), if_pos rfl]
      exact if_pos hd

/-- Printed tokens are read back, in front of what does not go on with them. -/
theorem lexerNext_lexeme {f : Fluf} (hf : f.Standard) (t : Lexeme) {l : Lexer}
    {r : List UInt8} (h : l.ahead = t.text ++ r) (hr : ¬ t.kind.GoesOn t.text (r.headD 0)) :
    ReadsToken f l t := by
  cases t with
  | fixed kind s htext =>
      rcases text_keywords_punctuators htext with hmem | hmem
      · obtain ⟨hne, hletters⟩ : s ≠ [] ∧ ∀ c ∈ s, IsLetter c := keyword_letters _ hmem
        have hlookup : (keywords.reverse.map Prod.swap).lookup s = some kind :=
          lookup_keyword _ hmem
        obtain ⟨c, cs, hcs⟩ := List.exists_cons_of_ne_nil hne
        have hc : IsLetter c := hletters c (by simp [hcs])
        have hahead : l.ahead = c :: (cs ++ r) := by simpa [Lexeme.text, hcs] using h
        have hnext : lexerNext f l = scanIdentifier f l := by
          rw [lexerNext_cons hf hahead (skipWhitespace_of_class hahead (Or.inl hc)), if_pos hc]
        have hend := (TokenKind.goesOn_word (by rw [Lexeme.text, hcs]; exact hc)).not.mp hr
        have hscan := scanIdentifier_reads hf (s := s) h (fun c hc => Or.inl (hletters c hc)) hend
        rw [hlookup] at hscan
        constructor
        · simpa [hnext] using hscan.1
        · simpa [hnext] using hscan.2.1
        · simpa [hnext] using hscan.2.2
      · have hform := punctuatorText _ hmem
        cases s with
        | nil => exact absurd hform (by simp [PunctuatorText])
        | cons c cs =>
            obtain ⟨hletter, hdigit, hdot, hblank, hslash⟩ :=
              punctuator_first _ hmem c rfl
            have hahead : l.ahead = c :: (cs ++ r) := h
            have hpeek : l.peek = c := by simp [peek_eq, hahead]
            have hskip : l.skipWhitespace = l := by
              apply skipWhitespace_stop
              · rw [hpeek]
                exact hblank
              -- A slash is a token by itself, and what follows begins no comment.
              · intro hc
                rw [hpeek] at hc
                obtain rfl : cs = [] := by simpa using hslash hc
                subst hc
                rw [peekNext_eq, hahead]
                exact goesOn_slash hmem hr
            have hnext : lexerNext f l = scanPunctuator l.advance c l.cursor := by
              rw [lexerNext_cons hf hahead hskip, if_neg hletter, if_neg hdigit, if_neg hdot]
            have hadvance := reads_advance hahead
            have hequal : cs = [] → (withEqual c).isSome → r.headD 0 ≠ byte '=' := by
              rintro rfl hsome
              exact goesOn_equal hmem hletter hsome hr
            have hscan := scanPunctuator_reads hform (hadvance.rest hahead) hequal l.cursor
            constructor
            · rw [hnext]
              exact hadvance.trans hscan.1
            · rw [hnext]
              exact hscan.2.1
            · rw [hnext]
              exact hscan.2.2
  | ident c cs hc hcs hkeyword =>
      have hahead : l.ahead = c :: (cs ++ r) := h
      have hnext : lexerNext f l = scanIdentifier f l := by
        rw [lexerNext_cons hf hahead (skipWhitespace_of_class hahead (Or.inl hc)), if_pos hc]
      have hword : IsLetter ((c :: cs).headD 0) := hc
      have hend := (TokenKind.goesOn_word hword).not.mp hr
      have hscan := scanIdentifier_reads hf (s := c :: cs) h
        (by simpa using ⟨Or.inl hc, hcs⟩) hend
      rw [lookup_not_keyword hkeyword] at hscan
      constructor
      · simpa [hnext] using hscan.1
      · simpa [hnext] using hscan.2.1
      · simpa [hnext] using hscan.2.2
  | int n hn =>
      have hnext : lexerNext f l = scanNumber f l := by
        have hdigits := isDigit_toDigits (n := n)
        obtain ⟨c, cs, hcs⟩ := List.exists_cons_of_ne_nil (Nat.toDigits_ne_nil (n := n) (b := 10))
        have hc : IsDigit (byte c) := (isDigit_byte (hdigits c (by simp [hcs]))).1
        have hahead : l.ahead = byte c :: (cs.map byte ++ r) := by
          simpa [Lexeme.text, hcs] using h
        rw [lexerNext_cons hf hahead (skipWhitespace_of_class hahead (Or.inr (Or.inl hc))),
          if_neg hc.not_letter, if_pos hc]
      have hscan := scanNumber_int hf hn h hr
      constructor
      · simpa [hnext] using hscan.1
      · simpa [hnext] using hscan.2.1
      · simpa [hnext] using hscan.2.2
  | float n suffix hsuffix hlength =>
      have hahead : l.ahead = n.text ++ (suffix :: r) := by simpa [Lexeme.text] using h
      have hnext := lexerNext_numeral hf hahead
      have hscan := scanNumber_float hf n hsuffix h hlength
      constructor
      · simpa [hnext] using hscan.1
      · simpa [hnext] using hscan.2.1
      · simpa [hnext] using hscan.2.2
  | double n hlength =>
      have hnext := lexerNext_numeral hf h
      have hscan := scanNumber_double hf n h hr hlength
      constructor
      · simpa [hnext] using hscan.1
      · simpa [hnext] using hscan.2.1
      · simpa [hnext] using hscan.2.2

/-! ## Files -/

/-- The end of the file is a gap. -/
theorem gap_nil : Gap [] := by simp [Gap]

/-- So is a separator. -/
theorem gap_separator (sep : Separator) (r : List UInt8) : Gap (sep.text ++ r) := by
  simp [Gap, Separator.text, sep.first_mem]

/-- At the end of the file the lexer returns end-of-file for ever. -/
theorem lexerNext_end {f : Fluf} {l l' : Lexer} (hskip : l.skipWhitespace = l'.skipWhitespace)
    (h : l'.ahead = []) : (lexerNext f l).1.kind = .eof ∧ (lexerNext f l).2 = l' := by
  have hend : l'.content.length ≤ l'.cursor := by simpa [ahead] using h
  have hstop : l'.skipWhitespace = l' := by
    have hpeek : l'.peek = 0 := by simp [peek_eq, h]
    apply skipWhitespace_stop
    · rw [hpeek]
      decide
    · rw [hpeek]
      exact fun hzero => absurd hzero (by decide)
  have heof : (lexerNext f l').1.kind = .eof := by
    rw [lexerNext_eof_iff, hstop]
    exact hend
  rw [lexerNext_congr f hskip]
  exact ⟨heof, (lexerNext_eof heof).1.trans hstop⟩

/-- What lies ahead is some printed tokens, possibly behind a separator: the lexer returns
them, and then end-of-file.  Induction on the tokens, following the calls. -/
theorem calls_concatenate {f : Fluf} (hf : f.Standard) (ts : List Lexeme)
    (sep : Nat → Separator) {l l' : Lexer} (hskip : l.skipWhitespace = l'.skipWhitespace)
    (h : l'.ahead = concatenate ts sep) (i : Nat) :
    (lexerNext f (afterCalls f i l)).1.kind = (ts[i]?.map Lexeme.kind).getD .eof ∧
      ∀ t, ts[i]? = some t → (lexerNext f (afterCalls f i l)).1.value = t.value f := by
  induction ts generalizing sep l l' i with
  | nil =>
      have hall : ∀ l, l.skipWhitespace = l'.skipWhitespace →
          (lexerNext f (afterCalls f i l)).1.kind = .eof := by
        induction i with
        | zero => exact fun l hl => (lexerNext_end hl h).1
        | succ i ih =>
            intro l hl
            rw [afterCalls, (lexerNext_end hl h).2]
            exact ih l' rfl
      simp [hall l hskip]
  | cons t ts ih =>
      -- Behind the token there is nothing, or a separator and the other tokens.
      obtain ⟨r, hr, hahead, hnext⟩ : ∃ r, Gap r ∧ l'.ahead = t.text ++ r ∧
          ∀ m : Lexer, m.ahead = r → ∃ (m' : Lexer) (sep' : Nat → Separator),
            m.skipWhitespace = m'.skipWhitespace ∧ m'.ahead = concatenate ts sep' := by
        cases ts with
        | nil => exact ⟨[], gap_nil, by simpa [concatenate] using h, fun m hm => ⟨m, sep, rfl, hm⟩⟩
        | cons u ts =>
            refine ⟨_, gap_separator _ _, h, fun m hm => ?_⟩
            obtain ⟨m', hreads, hskip⟩ := skipWhitespace_separator hm
            exact ⟨m', _, hskip, hreads.rest hm⟩
      have hread := lexerNext_lexeme hf t hahead (hr.not_goesOn _ _)
      have heq := lexerNext_congr f hskip
      cases i with
      | zero =>
          constructor
          · simpa [afterCalls, heq] using hread.kind
          · simpa [afterCalls, heq] using hread.value
      | succ i =>
          obtain ⟨m', sep', hskip', hahead'⟩ := hnext _ (hread.reads.rest hahead)
          simpa [afterCalls, heq] using ih sep' hskip' hahead' i

end Lexer

/-- A lexeme is no error. -/
theorem Lexeme.kind_ne_error (t : Lexeme) : t.kind ≠ .error := by
  cases t with
  | fixed kind s h =>
      rintro rfl
      exact absurd h (by simp [TokenKind.text, keywords, punctuators])
  | _ => simp

/-- Lexing undoes printing.  However the tokens of a file are separated, successive calls
of {lit}`lexer_next` return their kinds and their values in order, and then end-of-file;
no call reports an error. -/
theorem lexing_undoes_printing (f : Fluf) (hf : f.Standard) (baseOffset : Nat)
    (ts : List Lexeme) (sep : Nat → Separator) (i : Nat) :
    let t := (Lexer.lexerNext f
      (Lexer.afterCalls f i (Lexer.init baseOffset (concatenate ts sep)))).1
    t.kind = (ts[i]?.map Lexeme.kind).getD .eof ∧
      (∀ u, ts[i]? = some u → t.value = u.value f) ∧
      (∀ n hn, ts[i]? = some (.int n hn) → t.value.asInt.toInt = n) ∧
      t.kind ≠ .error := by
  have hahead : (Lexer.init baseOffset (concatenate ts sep)).ahead = concatenate ts sep := by
    simp [Lexer.init, Lexer.ahead]
  obtain ⟨hkind, hvalue⟩ := Lexer.calls_concatenate hf ts sep rfl hahead i
  refine ⟨hkind, hvalue, ?_, ?_⟩
  · intro n hn hget
    have hn' : n < 2 ^ 31 := hn
    rw [hvalue _ hget]
    simp only [Lexeme.value, TokenValue.asInt]
    exact Int32.toInt_ofNat_of_lt hn'
  · rw [hkind]
    cases ts[i]? with
    | none => simp
    | some t => simpa using t.kind_ne_error

/-- The tokens of {lit}`int x;`, with a comment behind the first one. -/
theorem lexing_undoes_printing_declaration :
    (Lexer.lexerNext Fluf.ascii (Lexer.afterCalls Fluf.ascii 1 (Lexer.init 0
      (concatenate
        [.fixed .kwInt (['i', 'n', 't'].map byte) (by decide),
          .ident (byte 'x') [] (by decide) (by simp) (by decide),
          .fixed .semicolon [byte ';'] (by decide)]
        fun _ => ⟨byte ' ', [.block [byte '*'] (by decide) (by decide)], by decide⟩)))).1.kind =
      .ident :=
  (lexing_undoes_printing Fluf.ascii Fluf.ascii_standard 0 _ _ 1).1

end Cact
