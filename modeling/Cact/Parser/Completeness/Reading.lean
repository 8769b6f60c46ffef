import Cact.Grammar.Unchecked
import Cact.Grammar.First
import Cact.Parser.Soundness

/-!
# Completeness - reading tokens

The primitive operations of the parser in front of a text that it knows how to read.  A
run may *heed* the semantic checks: then it has reported nothing so far, and a report
ends its obligations.  A run that does not heed them goes on, with whatever error flags,
and builds what the parser builds in spite of the report.

Main results:

- Definition {lit}`reporting`: runs that report nothing but semantic errors.
- Definition {lit}`Parser.Facing`: the parser is in front of a text.
- Theorems {lit}`Parser.facing_advance`, {lit}`Parser.facing_match` and
  {lit}`Parser.facing_consume`: reading a token that is there.
- Theorem {lit}`Parser.facing_ctxError`: what a semantic report leaves alone.
-/

open Traced

namespace Cact

open Grammar

/-- The reports of the semantic checks. -/
def Event.isSemantic : Event → Bool
  | .parserErrorAt m | .ctxError m => m.isSemantic
  | _ => false

namespace Parser

/-- Runs that report nothing but semantic errors.  A run that heeds them reports its first one
only if {lit}`B` holds, and owes nothing afterwards. -/
def reporting (heed B : Prop) : Contract Parser Event :=
  ⟨fun st => heed ∧ (B ∧ st.before.ctx.hadError = false) ∧ st.label.isSemantic = true,
    fun st => st.label.isError = true → ¬ heed ∧ st.label.isSemantic = true,
    fun _ => False, True⟩

/-- A text comes to its end at the end of the file only. -/
def Ends (beyond ts : List Terminal) : Prop := ts = [] → beyond = []

theorem Ends.cons {beyond ts : List Terminal} (t : Terminal) : Ends beyond (t :: ts) :=
  fun h => absurd h (List.cons_ne_nil t ts)

theorem Ends.append {beyond ts : List Terminal} (h : Ends beyond ts) (us : List Terminal) :
    Ends beyond (us ++ ts) :=
  fun hnil => h (List.append_eq_nil_iff.mp hnil).2

/-- The parser is in front of the text {lit}`ts`, after which anything may follow, with the
analysis at {lit}`a`; if it heeds the checks, it has reported nothing. -/
structure Facing (heed : Prop) (fresh : Nat → Option Node) (beyond : List Terminal)
    (a : Analysis) (ts : List Terminal) (p : Parser) : Prop where
  atEnd : AtEnd p
  quiet : heed → p.panicMode = false ∧ p.ctx.hadError = false
  input : p.input = ts ++ beyond
  ends : Ends beyond ts
  clean : Clean ts
  sema : p.sema = a.sema
  allocs : p.allocs = a.allocs
  fresh : p.fresh = fresh

section

variable {heed B : Prop} {fresh : Nat → Option Node} {a : Analysis} {t : Terminal}
  {ts us beyond : List Terminal} {p : Parser} {α : Type} {Q : α → Parser → Prop}

theorem emit_reporting {l : Event} {q q' : Parser} (hl : l.isError = false) :
    (reporting heed B).emit ⟨l, q, q'⟩ := by
  intro herror
  rw [hl] at herror
  cases herror

/-- A mark leaves the parser where it is. -/
theorem reporting_mark {l : Event} {m : Parse α} (hl : l.isError = false)
    (h : (m.run p).Meets (reporting heed B) Q) :
    ((do Prog.mark l; m).run p).Meets (reporting heed B) Q :=
  Prog.meets_mark_bind (emit_reporting hl) h

/-- A test for another token, under any contract. -/
theorem match_other {c : Contract Parser Event} {kind : TokenKind} {m m' : Parse α}
    (hkind : p.curr.kind ≠ kind) (hno : (m'.run p).Meets c Q) :
    ((do if ← matchKind kind then m else m').run p).Meets c Q := by
  unfold matchKind checkKind
  apply Prog.meets_bind (R := fun b p' => b = false ∧ p' = p)
  · rw [Prog.run_read_bind, if_neg (by simp [hkind])]
    exact Prog.meets_pure ⟨rfl, rfl⟩
  · rintro _ _ ⟨rfl, rfl⟩
    exact hno

/-! ## Reading tokens -/

/-- The kind of the current token. -/
theorem Facing.curr (h : Facing heed fresh beyond a ts p) : p.curr.kind = follow ts := by
  cases ts with
  | nil =>
      by_contra hkind
      have hinput := h.input
      rw [input_of_ne hkind, h.ends rfl] at hinput
      cases hinput
  | cons t ts => exact curr_of_input h.input

/-- A change of the state that the text does not depend on. -/
theorem Facing.of_eq {a' : Analysis} {p' : Parser} (h : Facing heed fresh beyond a ts p)
    (hcurr : p'.curr = p.curr) (hrest : p'.rest = p.rest)
    (hquiet : heed → p'.panicMode = false ∧ p'.ctx.hadError = false)
    (hsema : p'.sema = a'.sema) (hallocs : p'.allocs = a'.allocs) (hfresh : p'.fresh = p.fresh) :
    Facing heed fresh beyond a' ts p' where
  atEnd := by
    intro hkind
    rw [hcurr] at hkind
    rw [hrest]
    exact h.atEnd hkind
  quiet := hquiet
  input := by
    rw [← h.input]
    simp [Parser.input, hcurr, hrest]
  ends := h.ends
  clean := h.clean
  sema := hsema
  allocs := hallocs
  fresh := hfresh.trans h.fresh

theorem reads_advanceLoop {rest : Tokens}
    (hfirst : ∀ t, rest.head? = some t → t.val.kind ≠ .error) :
    ((advanceLoop rest).run p).Meets (reporting heed B) fun _ p' =>
      AtEnd p' ∧ p'.input = terminals rest ∧ p'.prev = p.prev ∧
        p'.panicMode = p.panicMode ∧ p'.ctx = p.ctx ∧ p'.sema = p.sema ∧
        p'.allocs = p.allocs ∧ p'.fresh = p.fresh := by
  cases rest with
  | nil =>
      apply Prog.meets_step (emit_reporting rfl)
      refine ⟨fun _ => rfl, ?_, rfl, rfl, rfl, rfl, rfl, rfl⟩
      simp [Parser.input, take, Token.eof, terminals]
  | cons t rest =>
      have ht : t.val.kind ≠ .eof := t.property
      rw [advanceLoop, if_neg (hfirst t rfl)]
      apply Prog.meets_step (emit_reporting rfl)
      refine ⟨fun hkind => absurd hkind ht, ?_, rfl, rfl, rfl, rfl, rfl, rfl⟩
      simp [Parser.input, take, ht, terminals]

/-- A clean text begins with no error token. -/
theorem Ends.first {rest : Tokens} (h : Ends beyond ts) (hclean : Clean ts)
    (hrest : terminals rest = ts ++ beyond) :
    ∀ t, rest.head? = some t → t.val.kind ≠ .error := by
  intro t ht
  cases rest with
  | nil => cases ht
  | cons t' rest =>
      cases ht
      cases ts with
      | nil =>
          rw [h rfl] at hrest
          cases hrest
      | cons u us =>
          have hu : t.val.terminal = u := (List.cons.inj hrest).1
          rw [← Token.kind_terminal, hu]
          exact hclean u List.mem_cons_self

/-- {lit}`advance` reads one terminal symbol. -/
theorem facing_advance (h : Facing heed fresh beyond a (t :: ts) p) (hends : Ends beyond ts) :
    (advance.run p).Meets (reporting heed B) fun _ p' =>
      Facing heed fresh beyond a ts p' ∧ p'.prev = p.curr ∧ p.curr.terminal = t := by
  have hkind : p.curr.kind ≠ .eof := by
    intro hkind
    have hinput := h.input
    simp [Parser.input, hkind] at hinput
  have hinput := h.input
  rw [input_of_ne hkind] at hinput
  obtain ⟨hhead, hrest⟩ := List.cons.inj hinput
  have hclean : Clean ts := (clean_cons.mp h.clean).2
  unfold advance
  apply Prog.meets_bind (R := fun _ q => q = { p with prev := p.curr })
  · exact Prog.meets_step (emit_reporting rfl) rfl
  · rintro _ q rfl
    rw [Prog.run_read_bind]
    refine (reads_advanceLoop (hends.first hclean hrest)).mono ?_
    rintro _ p' ⟨hend, hinput', hprev, hpanic, hctx, hsema, hallocs, hfresh⟩
    refine ⟨⟨hend, ?_, hinput'.trans hrest, hends, hclean, ?_, ?_, ?_⟩, hprev, hhead⟩
    · intro hheed
      rw [hpanic, hctx]
      exact h.quiet hheed
    · exact hsema.trans h.sema
    · exact hallocs.trans h.allocs
    · exact hfresh.trans h.fresh

/-- A test for the token that is there. -/
theorem facing_match {kind : TokenKind} {m m' : Parse α}
    (h : Facing heed fresh beyond a (t :: ts) p) (hends : Ends beyond ts)
    (hkind : t.kind = kind)
    (hyes : ∀ p', Facing heed fresh beyond a ts p' → p'.prev.terminal = t →
      (m.run p').Meets (reporting heed B) Q) :
    ((do if ← matchKind kind then m else m').run p).Meets (reporting heed B) Q := by
  have hcurr : p.curr.kind = kind := h.curr.trans hkind
  unfold matchKind checkKind
  apply Prog.meets_bind (R := fun b p' => b = true ∧ Facing heed fresh beyond a ts p' ∧
    p'.prev.terminal = t)
  · rw [Prog.run_read_bind, if_pos (by simp [hcurr])]
    apply Prog.meets_bind (facing_advance h hends)
    rintro _ p' ⟨hp', hprev, hhead⟩
    exact Prog.meets_pure ⟨rfl, hp', by rw [hprev, hhead]⟩
  · rintro _ p' ⟨rfl, hp', hprev⟩
    exact hyes p' hp' hprev

/-- A test for another token. -/
theorem facing_other {kind : TokenKind} {m m' : Parse α} (h : Facing heed fresh beyond a ts p)
    (hkind : follow ts ≠ kind) (hno : (m'.run p).Meets (reporting heed B) Q) :
    ((do if ← matchKind kind then m else m').run p).Meets (reporting heed B) Q :=
  match_other (fun heq => hkind (h.curr.symm.trans heq)) hno

theorem facing_check {kind : TokenKind} {m m' : Parse α} (h : Facing heed fresh beyond a ts p)
    (hkind : follow ts = kind) (hyes : (m.run p).Meets (reporting heed B) Q) :
    ((do if ← checkKind kind then m else m').run p).Meets (reporting heed B) Q :=
  check_cases (fun _ => hyes) fun hcurr => absurd (h.curr.trans hkind) hcurr

theorem facing_check_other {kind : TokenKind} {m m' : Parse α}
    (h : Facing heed fresh beyond a ts p) (hkind : follow ts ≠ kind)
    (hno : (m'.run p).Meets (reporting heed B) Q) :
    ((do if ← checkKind kind then m else m').run p).Meets (reporting heed B) Q :=
  check_cases (fun hcurr => absurd (h.curr.symm.trans hcurr) hkind) fun _ => hno

/-- A token that must be there is read. -/
theorem facing_consume {kind : TokenKind} {msg : Msg}
    (h : Facing heed fresh beyond a (t :: ts) p) (hends : Ends beyond ts)
    (hkind : t.kind = kind) :
    ((consume kind msg).run p).Meets (reporting heed B) fun _ p' =>
      Facing heed fresh beyond a ts p' ∧ p'.prev.terminal = t := by
  apply facing_check h hkind
  refine (facing_advance h hends).mono ?_
  rintro _ p' ⟨hp', hprev, hhead⟩
  exact ⟨hp', by rw [hprev, hhead]⟩

/-! ## Semantic reports -/

/-- A semantic report is made only where it is allowed, and only the error flags change. -/
theorem facing_ctxError {msg : Msg} (h : Facing heed fresh beyond a ts p)
    (hmsg : msg.isSemantic = true) (hB : heed → B) (tok : Option Token) :
    ((ctxError tok msg).run p).Meets (reporting heed B) fun _ p' =>
      ¬ heed ∧ Facing heed fresh beyond a ts p' := by
  by_cases hheed : heed
  · exact Prog.meets_step_escape ⟨hheed, ⟨hB hheed, (h.quiet hheed).2⟩, hmsg⟩
  · refine Prog.meets_step (fun _ => ⟨hheed, hmsg⟩) ⟨hheed, ?_⟩
    exact h.of_eq rfl rfl (fun heq => absurd heq hheed) h.sema h.allocs rfl

theorem facing_parserError {msg : Msg} (h : Facing heed fresh beyond a ts p)
    (hmsg : msg.isSemantic = true) (hB : heed → B) :
    ((parserError msg).run p).Meets (reporting heed B) fun _ p' =>
      ¬ heed ∧ Facing heed fresh beyond a ts p' := by
  unfold parserError parserErrorAt
  rw [Prog.run_read_bind]
  by_cases hheed : heed
  · exact Prog.meets_step_escape ⟨hheed, ⟨hB hheed, (h.quiet hheed).2⟩, hmsg⟩
  · refine Prog.meets_step (fun _ => ⟨hheed, hmsg⟩) ⟨hheed, ?_⟩
    unfold errorAt
    by_cases hpanic : p.panicMode = true
    · rw [if_pos hpanic]
      exact h
    · rw [if_neg hpanic]
      exact h.of_eq rfl rfl (fun heq => absurd heq hheed) h.sema h.allocs rfl

end

end Parser

end Cact
