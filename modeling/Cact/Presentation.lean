import Cact.Driver
import Cact.Lexer.Reformat
import Cact.Parser.FirstError

/-!
# Names and layout

What the compiler makes of a file depends neither on its layout nor on the names in it.
Lexing takes two presentations of a program to corresponding token streams, and parses of
these end alike.

Main results:

- Definition {lit}`Rewording.likeness`: how a file and its reformatted version correspond.
- Theorem {lit}`compile_reformatted`: the compiler accepts both or rejects both, with trees
  that differ in the names only, or with the same error at the same token.
-/

open Traced Language

namespace Cact

open Cact.Parser

/-! ## Symbols -/

namespace Rewording

variable (w : Rewording)

open Classical in
/-- The text that replaces a text: names are replaced, and nothing else is. -/
noncomputable def onText (text : List UInt8) : List UInt8 :=
  if text ∈ TokenKind.ident.language then w.word text else text

theorem onText_injective : Function.Injective w.onText := by
  intro s t h
  unfold onText at h
  split_ifs at h with hs ht ht
  · exact w.injOn hs ht h
  · exact absurd (h ▸ w.mapsTo hs) ht
  · exact absurd (h ▸ w.mapsTo ht) hs
  · exact h

/-- The symbol that replaces a symbol.  Symbols of no name are kept. -/
noncomputable def name (f : Fluf) : Symbol → Symbol :=
  Function.extend f.intern (fun text => f.intern (w.onText text)) id

variable {f : Fluf} (hf : f.Standard)

include hf

theorem name_intern (text : List UInt8) :
    w.name f (f.intern text) = f.intern (w.onText text) :=
  hf.intern.extend_apply _ _ _

theorem name_injective : Function.Injective (w.name f) := by
  have hother {s : Symbol} (hs : ¬ ∃ text, f.intern text = s) : w.name f s = s :=
    Function.extend_apply' _ _ _ hs
  intro s t h
  by_cases hs : ∃ text, f.intern text = s
  · obtain ⟨text, rfl⟩ := hs
    rw [w.name_intern hf] at h
    by_cases ht : ∃ text, f.intern text = t
    · obtain ⟨text', rfl⟩ := ht
      rw [w.name_intern hf] at h
      rw [w.onText_injective (hf.intern h)]
    · rw [hother ht] at h
      exact absurd ⟨_, h⟩ ht
  · rw [hother hs] at h
    by_cases ht : ∃ text, f.intern text = t
    · obtain ⟨text', rfl⟩ := ht
      rw [w.name_intern hf] at h
      exact absurd ⟨_, h.symm⟩ hs
    · rwa [hother ht] at h

end Rewording

/-! ## Places -/

/-- The places of a token and of the one that corresponds to it. -/
def SamePlace (ts ts' : TokenStream) (s s' : Span) : Prop :=
  (s = ts.endSpan ∧ s' = ts'.endSpan) ∨
    ∃ e ∈ ts.tokens.zip ts'.tokens, s = e.1.val.span ∧ s' = e.2.val.span

/-- How a file and its reformatted version correspond: the names are replaced, and the
tokens of the one stand where those of the other do. -/
noncomputable def Rewording.likeness (w : Rewording) {f : Fluf} (hf : f.Standard)
    (ts ts' : TokenStream) : Likeness where
  name := w.name f
  injective := w.name_injective hf
  span := SamePlace ts ts'
  beyond _ _ := False

/-- A token under another name corresponds to the token. -/
theorem Rewording.tok_of_renames (w : Rewording) {f : Fluf} (hf : f.Standard)
    {ts ts' : TokenStream} {t t' : Token} (h : w.Renames f t t') (herror : t.kind ≠ .error)
    (hspan : SamePlace ts ts' t.span t'.span) : (w.likeness hf ts ts').Tok t t' where
  kind := h.kind
  span := hspan
  name hkind := by
    obtain ⟨text, htext, hvalue, hvalue'⟩ := h.name hkind
    have honText : w.onText text = w.word text := if_pos htext
    rw [hvalue, hvalue', ← honText]
    exact (w.name_intern hf text).symm
  asInt hkind := by rw [h.value (by rw [hkind]; decide)]
  asFloat hkind := by rw [h.value (by rw [hkind]; decide)]
  asDouble hkind := by rw [h.value (by rw [hkind]; decide)]
  lexMsg hkind := absurd hkind herror

theorem Rewording.toks_of_renames (w : Rewording) {f : Fluf} (hf : f.Standard)
    {ts ts' : TokenStream} {us us' : Tokens}
    (h : List.Forall₂ (fun t t' => w.Renames f t.val t'.val) us us')
    (herror : ∀ t ∈ us, t.val.kind ≠ .error)
    (hplace : ∀ e ∈ us.zip us', e ∈ ts.tokens.zip ts'.tokens) :
    (w.likeness hf ts ts').Toks ts.endSpan ts'.endSpan us us' := by
  induction h with
  | nil => exact .nil (Or.inl ⟨rfl, rfl⟩)
  | cons htok _ ih =>
      rw [List.zip_cons_cons, List.forall_mem_cons] at hplace
      obtain ⟨herror, herrors⟩ := List.forall_mem_cons.mp herror
      refine .cons (w.tok_of_renames hf htok herror ?_) (ih herrors hplace.2)
      exact Or.inr ⟨_, hplace.1, rfl, rfl⟩

/-! ## Presentations -/

/-- The verdict on a file is that of its parse. -/
theorem runCompile_iff {f : Fluf} {mem : Memory} {baseOffset : Nat} {content : List UInt8} :
    (∃ ctx, runCompile f mem baseOffset (some content) = .done true ctx) ↔
      ∃ globals p, (compileRun f mem baseOffset content).outcome = .done globals p ∧
        p.ctx.hadError = false := by
  unfold runCompile
  cases hout : (compileRun f mem baseOffset content).outcome with
  | done globals p => simp [hout]
  | fault p => simp [hout]
  | timeout => simp [hout]

/-- Neither names nor layout change what the compiler says.  Take any file without lexical
errors, replace its names consistently, except those of the built-in functions, and change
the blanks and comments around its tokens at will.  The compiler accepts both files or
rejects both: it builds trees that differ in the names only, or it reports the same error
first, at the token that corresponds. -/
theorem compile_reformatted (f : Fluf) (hf : f.Standard) (w : Rewording)
    (hbuiltin : ∀ b ∈ builtins, w.word (b.1.map byte) = b.1.map byte) (mem mem' : Memory)
    (hmem : ∀ i, mem'.field i = (mem.field i).map (Node.rename (w.name f)))
    (baseOffset baseOffset' : Nat) (content : List UInt8)
    (hok : ∀ t ∈ (Lexer.lexTokens f (Lexer.init baseOffset content)).tokens,
      t.val.kind ≠ .error)
    (lead : List Trivia) (sep : Nat → Separator) :
    let content' := reformat f w.word lead sep (Lexer.init baseOffset content)
    Alike
        (w.likeness hf (Lexer.lexTokens f (Lexer.init baseOffset content))
          (Lexer.lexTokens f (Lexer.init baseOffset' content')))
        (compileRun f mem baseOffset content) (compileRun f mem' baseOffset' content') ∧
      ((∃ ctx, runCompile f mem baseOffset (some content) = .done true ctx) ↔
        ∃ ctx, runCompile f mem' baseOffset' (some content') = .done true ctx) := by
  intro content'
  have hrenames : List.Forall₂ (fun t t' => w.Renames f t.val t'.val)
      (Lexer.lexTokens f (Lexer.init baseOffset content)).tokens
      (Lexer.lexTokens f (Lexer.init baseOffset' content')).tokens :=
    renames_reformat hf hok w lead sep baseOffset'
  have hnames : ∀ b ∈ builtins, f.intern (b.1.map byte) = w.name f (f.intern (b.1.map byte)) := by
    intro b hb
    rw [w.name_intern hf, Rewording.onText]
    split
    · rw [hbuiltin b hb]
    · rfl
  have halike : Alike
      (w.likeness hf (Lexer.lexTokens f (Lexer.init baseOffset content))
        (Lexer.lexTokens f (Lexer.init baseOffset' content')))
      (compileRun f mem baseOffset content) (compileRun f mem' baseOffset' content') :=
    alike_parserRun (fun _ _ => id) hnames hmem
      (w.toks_of_renames hf hrenames hok fun _ => id)
  refine ⟨halike, ?_⟩
  rw [runCompile_iff, runCompile_iff]
  exact halike.verdict

/-- One-letter names may be swapped. -/
def swapNames (c d : UInt8) (hc : [c] ∈ TokenKind.ident.language)
    (hd : [d] ∈ TokenKind.ident.language) : Rewording where
  word := Equiv.swap [c] [d]
  mapsTo text htext := by
    rw [Equiv.swap_apply_def]
    split_ifs
    · exact hd
    · exact hc
    · exact htext
  injOn := (Equiv.swap [c] [d]).injective.injOn

theorem letter_mem_ident {c : UInt8} (hc : IsLetter c) : [c] ∈ TokenKind.ident.language := by
  refine ⟨mem_letter_mul.mpr ⟨c, [], hc, Language.nil_mem_kstar _, rfl⟩, ?_⟩
  rintro ⟨e, he, heq⟩
  have hlong : ∀ e ∈ keywords, 1 < e.2.length := by decide
  have hlength := hlong e he
  rw [heq] at hlength
  exact absurd hlength (by simp)

/-- The files {lit}`int a;int b=0;` and {lit}`int b; int a = 0;`, the second with each token on
a line of its own. -/
theorem compile_reformatted_swap :
    (∃ ctx, runCompile Fluf.ascii Grammar.zeroed 0
        (some ("int a;int b=0;".toList.map byte)) = .done true ctx) ↔
      ∃ ctx, runCompile Fluf.ascii Grammar.zeroed 3
        (some ("int\nb\n;\nint\na\n=\n0\n;\n".toList.map byte)) = .done true ctx := by
  have h := (compile_reformatted Fluf.ascii Fluf.ascii_standard
    (swapNames (byte 'a') (byte 'b') (letter_mem_ident (by decide)) (letter_mem_ident (by decide)))
    (by decide) Grammar.zeroed Grammar.zeroed (fun _ => rfl) 0 3
    ("int a;int b=0;".toList.map byte) (by decide +kernel) []
    fun _ => ⟨byte '\n', [], by decide⟩).2
  have hcontent : reformat Fluf.ascii (Equiv.swap [byte 'a'] [byte 'b']) []
      (fun _ => ⟨byte '\n', [], by decide⟩) (Lexer.init 0 ("int a;int b=0;".toList.map byte)) =
        "int\nb\n;\nint\na\n=\n0\n;\n".toList.map byte := by
    decide +kernel
  rw [← hcontent]
  exact h

end Cact
