import Cact.Library.Contract
import Cact.Parser.Closure

/-!
# The end of the file

When the current token is the end-of-file token, the lexer has returned everything
there is, and the parse ends only there.

Main results:

- Theorem {lit}`Parser.whole_atEnd`: every piece of the parser keeps this invariant.
- Theorem {lit}`Parser.parserProgram_reads_all`: a parse that returns has read the whole
  file.
-/

open Traced

namespace Cact

namespace Parser

/-- If the current token is the end-of-file token, nothing comes after it. -/
def AtEnd (p : Parser) : Prop := p.curr.kind = .eof → p.rest = []

/-- The loop of {lit}`advance` stops at a token of the file, or at its end. -/
theorem advanceLoop_atEnd (ts : Tokens) (p : Parser) :
    ((advanceLoop ts).run p).Meets (Contract.keeps AtEnd fun _ => True) fun _ => AtEnd := by
  induction ts generalizing p with
  | nil => exact Prog.meets_step trivial fun _ => rfl
  | cons t ts ih =>
      rw [advanceLoop]
      split
      · refine Prog.meets_bind (R := fun _ _ => True) ?_ fun _ p' _ => ih p'
        exact Prog.meets_step trivial trivial
      · exact Prog.meets_step trivial fun h => absurd h t.property

/-- Wherever it starts, {lit}`advance` ends at a token of the file, or at its end. -/
theorem advance_atEnd {p p' : Parser} {a : Unit} (h : (advance.run p).outcome = .done a p') :
    AtEnd p' := by
  have hloop := advanceLoop_atEnd p.rest { p with prev := p.curr }
  exact hloop.of_done (fun _ _ => id) h

/-- At the end of the file, {lit}`advance` stays there. -/
theorem advance_end {p p' : Parser} {a : Unit} (hrest : p.rest = [])
    (h : (advance.run p).outcome = .done a p') : p'.rest = [] ∧ p'.curr.kind = .eof := by
  have hrun : (advance.run p).outcome =
      .done () (({ p with prev := p.curr } : Parser).take (Token.eof p.endSpan) []) := by
    unfold advance
    rw [Prog.bind_done (by rfl), Prog.run_read_bind]
    simp only [hrest]
    rfl
  rw [hrun] at h
  cases h
  exact ⟨rfl, rfl⟩

theorem keeps_advance_atEnd : Keeps AtEnd (fun _ => True) advance := by
  intro p hp
  refine Prog.meets_bind (R := fun _ _ => True) ?_ fun _ _ _ => advanceLoop_atEnd _ _
  exact Prog.meets_step trivial trivial

/-- Only {lit}`advance` moves to another token, so what it keeps of the tokens is kept by
every primitive operation. -/
theorem primitives_of_tokens {I : Parser → Prop} {P : Step Parser Event → Prop}
    (htokens : ∀ {p p' : Parser}, p'.rest = p.rest → p'.curr = p.curr → I p → I p')
    (hstep : ∀ {l : Event} {p p' : Parser}, I p' → P ⟨l, p, p'⟩)
    (hadvance : Keeps I P advance) : Primitives fun {_} m _ => Keeps I P m := by
  have hC := keeps_congruence (ℓ := Event) (I := I) (P := P)
  have hquiet {l : Event} {f : Parser → Parser} (hrest : ∀ p, (f p).rest = p.rest)
      (hcurr : ∀ p, (f p).curr = p.curr) : Keeps I P (Prog.step l f) := by
    intro p hp
    have hafter : I (f p) := htokens (hrest p) (hcurr p) hp
    exact Prog.meets_step (hstep hafter) hafter
  have hreport (tok : Option Token) (m : Msg) : Keeps I P (ctxError tok m) :=
    hquiet (fun _ => rfl) fun _ => rfl
  have henter : Keeps I P semaScopeEnter := hquiet (fun _ => rfl) fun _ => rfl
  have hleave : Keeps I P semaScopeLeave := hquiet (fun _ => rfl) fun _ => rfl
  exact
    { hC with
      read := fun f _ => hC.read f
      advance := hadvance
      exprMark := fun _ => hquiet (fun _ => rfl) fun _ => rfl
      bodyMark := fun _ => hquiet (fun _ => rfl) fun _ => rfl
      paramMark := hquiet (fun _ => rfl) fun _ => rfl
      topMark := fun _ => hquiet (fun _ => rfl) fun _ => rfl
      parserErrorAt := fun tok m => hquiet
        (fun p => errorAt_rest p tok m) fun p => errorAt_curr p tok m
      ctxError := hreport
      newNodeField := fun {_ k k'} =>
        congr_newNodeField hC (hquiet (fun _ => rfl) fun _ => rfl) k k'
      keepField := fun {a b} => congr_keepField hC (hquiet (fun _ => rfl) fun _ => rfl) a b
      define := fun _ _ _ =>
        congr_semaDefineVar hC.reading hreport (hquiet (fun _ => rfl) fun _ => rfl)
      recover := fun {_ n n' m m' k k'} hn => congr_recover hC.reading n n' m m' k k'
        (congr_synchronize hC.reading n n' hn (hquiet (fun _ => rfl) fun _ => rfl)
          (fun _ => hquiet (fun _ => rfl) fun _ => rfl) hadvance)
      scope := fun {_ _ m m' k k'} => congr_scope hC.reading m m' k k' henter hleave
      semaScopeEnter := henter
      semaScopeLeave := hleave
      setFuncRet := fun _ => hquiet (fun _ => rfl) fun _ => rfl
      typeFuncNew := fun _ => congr_typeFuncNew hC.reading (hquiet (fun _ => rfl) fun _ => rfl)
      pushParam := fun _ _ => hquiet (fun _ => rfl) fun _ => rfl }

/-- Every piece of the parser keeps to the end of the file. -/
theorem whole_atEnd : Whole fun {_} m _ => Keeps AtEnd (fun _ => True) m := by
  refine (primitives_of_tokens ?_ (fun _ => trivial) keeps_advance_atEnd).whole
  intro p p' hrest hcurr hp
  unfold AtEnd
  rw [hrest, hcurr]
  exact hp

/-- The loop of {lit}`parser_parse` is left only after the end-of-file token. -/
theorem topIter_leave {n : Nat} {globals result : List Node} {p p' : Parser}
    (hp : AtEnd p) (h : ((topIter n globals).run p).outcome = .done (.leave result) p') :
    p'.rest = [] ∧ p'.curr.kind = .eof := by
  have hpost : ((topIter n globals).run p).Meets Contract.lax fun i q =>
      match i with
      | .again _ => True
      | .leave _ => q.rest = [] ∧ q.curr.kind = .eof := by
    refine Prog.meets_bind (R := fun b q => b = true → q.rest = [] ∧ q.curr.kind = .eof) ?_ ?_
    · refine Run.meets_lax_iff.mpr ?_
      intro b q hout
      unfold matchKind checkKind at hout
      rw [Prog.run_read_bind] at hout
      split at hout <;> rename_i hkind
      · have hrest : p.rest = [] := hp (by simpa using hkind)
        cases hadv : (advance.run p).outcome with
        | done a q' =>
            rw [Prog.bind_done hadv] at hout
            cases hout
            exact fun _ => advance_end hrest hadv
        | fault q' =>
            rw [Prog.bind_fault hadv] at hout
            cases hout
        | timeout =>
            rw [Prog.bind_timeout hadv] at hout
            cases hout
      · cases hout
        exact fun hfalse => by cases hfalse
    · intro b q hb
      split
      · exact Prog.meets_pure (hb ‹_›)
      · refine Prog.meets_bind (Run.meets_lax_true _) fun node q _ => ?_
        cases node with
        | some node => exact Prog.meets_pure trivial
        | none =>
            refine Prog.meets_bind (Run.meets_lax_true _) fun _ q _ => ?_
            refine Prog.meets_bind (Run.meets_lax_true _) fun _ q _ => ?_
            exact Prog.meets_bind (Run.meets_lax_true _) fun _ q _ => Prog.meets_pure trivial
  exact Run.meets_lax_iff.mp hpost _ _ h

/-- A parse that returns has read the whole file. -/
theorem parserProgram_reads_all {intern : List UInt8 → Symbol} {n : Nat} {p p' : Parser}
    {globals : List Node} (h : ((parserProgram intern n).run p).outcome = .done globals p') :
    p'.rest = [] ∧ p'.curr.kind = .eof := by
  have hkeep {α : Type} {m : Parse α} (hm : Keeps AtEnd (fun _ => True) m) {q : Parser}
      (hq : AtEnd q) : (m.run q).Meets Contract.lax fun _ q' => AtEnd q' :=
    Run.meets_lax_iff.mpr fun _ _ hout => hm.ends hq hout
  have hrun : ((parserProgram intern n).run p).Meets Contract.lax fun _ q =>
      q.rest = [] ∧ q.curr.kind = .eof := by
    refine Prog.meets_bind (R := fun _ q => AtEnd q) ?_ fun _ q hq => ?_
    · exact Run.meets_lax_iff.mpr fun _ _ hout => advance_atEnd hout
    refine Prog.meets_bind (hkeep whole_atEnd.semaScopeEnter hq) fun _ q hq => ?_
    refine Prog.meets_bind (hkeep (whole_atEnd.installBuiltins _ _) hq) fun _ q hq => ?_
    refine Prog.meets_bind (R := fun _ q => q.rest = [] ∧ q.curr.kind = .eof) ?_ ?_
    · refine meets_loop (fun _ q => AtEnd q) trivial ?_ n hq
      intro globals q hq
      refine Run.meets_lax_iff.mpr ?_
      intro i q' hout
      cases i with
      | again globals' =>
          exact (whole_atEnd.topIter (Nat.le_refl n) globals).ends hq hout
      | leave result => exact topIter_leave hq hout
    · intro globals q hq
      refine Prog.meets_bind (R := fun _ q => q.rest = [] ∧ q.curr.kind = .eof) ?_ ?_
      · exact Prog.meets_step trivial hq
      · exact fun _ q hq => Prog.meets_pure hq
  exact Run.meets_lax_iff.mp hrun _ _ h

end Parser

end Cact
