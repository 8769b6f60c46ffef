import Cact.Driver
import Cact.Lexer.Progress
import Cact.Parser.Closure
import Cact.Parser.EndOfFile

/-!
# No error is lost

Two panic flags silence reports, one in the parser and one in the context; the first is
cleared whenever the parser recovers.  Neither can hide an error from the result, since
a set panic flag always means that the error flag is set already.

Main results:

- Theorem {lit}`Parser.onward_parserProgram`: along every run the flags keep telling the
  truth, the error flag is never cleared, and every error token read sets it.
- Theorem {lit}`Parser.told_parserProgram`: every reported error and every recovery finds
  or leaves the error flag set.
- Theorem {lit}`no_error_lost`: what this means for the result of a compilation.
-/

open Traced

namespace Cact

/-- The events that stand for the discovery of an error. -/
def Event.isError : Event → Bool
  | .lexError _ | .parserErrorAt _ | .ctxError _ => true
  | _ => false

/-- The events that stand for a token being passed over: in {lit}`synchronize`, or in
the loop of {lit}`advance` over error tokens. -/
def Event.isSkip : Event → Bool
  | .skip _ | .lexError _ => true
  | _ => false

/-- A mark reports no error. -/
theorem Event.isError_of_isMark {e : Event} (h : e.isMark = true) : e.isError = false := by
  cases e <;> first | rfl | cases h

/-- A mark skips no token. -/
theorem Event.isSkip_of_isMark {e : Event} (h : e.isMark = true) : e.isSkip = false := by
  cases e <;> first | rfl | cases h

namespace Parser

/-- A set panic flag tells of an error. -/
def FlagsTold (p : Parser) : Prop :=
  p.panicMode = true ∨ p.ctx.panicMode = true → p.ctx.hadError = true

/-- Whether some of the tokens are error tokens. -/
def HasError (ts : Tokens) : Prop := ∃ t ∈ ts, t.val.kind = .error

instance (ts : Tokens) : Decidable (HasError ts) :=
  inferInstanceAs (Decidable (∃ t ∈ ts, t.val.kind = .error))

/-- How the state may move on: some tokens are read, the panic flags still tell of an
error, the error flag is not cleared, and it is set by the error tokens read. -/
structure Onward (p p' : Parser) : Prop where
  flags : FlagsTold p → FlagsTold p'
  hadError : p.ctx.hadError = true → p'.ctx.hadError = true
  reads : ∃ ts, p.rest = ts ++ p'.rest ∧
    (FlagsTold p → HasError ts → p'.ctx.hadError = true)

/-- A parser that does nothing is onward of itself. -/
theorem Onward.refl (p : Parser) : Onward p p :=
  ⟨id, id, [], rfl, fun _ ⟨_, h, _⟩ => absurd h (List.not_mem_nil)⟩

/-- Onward steps compose: a flag that is set stays set. -/
theorem Onward.trans (p₁ p₂ p₃ : Parser) (h : Onward p₁ p₂) (h' : Onward p₂ p₃) :
    Onward p₁ p₃ := by
  refine ⟨fun hp => h'.flags (h.flags hp), fun hp => h'.hadError (h.hadError hp), ?_⟩
  rcases h.reads with ⟨ts, hts, herr⟩
  rcases h'.reads with ⟨ts', hts', herr'⟩
  refine ⟨ts ++ ts', by rw [hts, hts', List.append_assoc], ?_⟩
  rintro hp ⟨t, ht, hkind⟩
  rcases List.mem_append.mp ht with ht | ht
  · exact h'.hadError (herr hp ⟨t, ht, hkind⟩)
  · exact herr' (h.flags hp) ⟨t, ht, hkind⟩

/-! ## The steps -/

/-- A step that leaves the tokens and the context alone and sets no panic flag. -/
theorem onward_of_quiet {p p' : Parser} (hrest : p'.rest = p.rest) (hctx : p'.ctx = p.ctx)
    (hpanic : p'.panicMode = true → p.panicMode = true) : Onward p p' := by
  refine ⟨?_, by rw [hctx]; exact id, [], by simp [hrest], ?_⟩
  · intro hp hflag
    rw [hctx] at hflag ⊢
    exact hp (hflag.imp_left hpanic)
  · rintro _ ⟨t, ht, _⟩
    exact absurd ht List.not_mem_nil

/-- A report leaves the error flag set, also in panic mode, where it is set already. -/
theorem report_hadError {p : Parser} (hp : FlagsTold p) (tok : Option Token) (m : Msg) :
    (p.report tok m).ctx.hadError = true :=
  Context.error_hadError (fun h => hp (Or.inr h)) _ _

/-- {lit}`parser_error_at` leaves the error flag set. -/
theorem errorAt_hadError {p : Parser} (hp : FlagsTold p) (tok : Token) (m : Msg) :
    (p.errorAt tok m).ctx.hadError = true := by
  unfold errorAt
  split <;> rename_i hpanic
  · exact hp (Or.inl hpanic)
  · exact Context.error_hadError (fun h => hp (Or.inr h)) _ _

/-- Taking an error token leaves the error flag set: {lit}`advance` reports it. -/
theorem takeError_hadError {p : Parser} (hp : FlagsTold p) (t : Token) (ts : Tokens) :
    (p.takeError t ts).ctx.hadError = true :=
  Context.error_hadError (fun h => hp (Or.inr h)) _ _

/-- A report clears no flag. -/
theorem onward_report (p : Parser) (tok : Option Token) (m : Msg) :
    Onward p (p.report tok m) := by
  refine ⟨fun hp _ => report_hadError hp tok m, fun hp => Context.error_mono hp _ _, [], rfl, ?_⟩
  rintro _ ⟨t, ht, _⟩
  exact absurd ht List.not_mem_nil

/-- {lit}`parser_error_at` clears no flag. -/
theorem onward_errorAt (p : Parser) (tok : Token) (m : Msg) :
    Onward p (p.errorAt tok m) := by
  refine ⟨fun hp _ => errorAt_hadError hp tok m, ?_, [], by simp, ?_⟩
  · intro hp
    unfold errorAt
    split
    · exact hp
    · exact Context.error_mono hp _ _
  · rintro _ ⟨t, ht, _⟩
    exact absurd ht List.not_mem_nil

/-- Taking an error token clears no flag. -/
theorem onward_takeError {p : Parser} {t : { t : Token // t.kind ≠ .eof }} {ts : Tokens}
    (hrest : p.rest = t :: ts) : Onward p (p.takeError t.val ts) :=
  ⟨fun hp _ => takeError_hadError hp t.val ts, fun hp => Context.error_mono hp _ _, [t],
    hrest, fun hp _ => takeError_hadError hp t.val ts⟩

/-- Taking any other token changes no flag. -/
theorem onward_take {p : Parser} {t : { t : Token // t.kind ≠ .eof }} {ts : Tokens}
    (hrest : p.rest = t :: ts) (hkind : t.val.kind ≠ .error) :
    Onward p (p.take t.val ts) := by
  refine ⟨id, id, [t], hrest, ?_⟩
  rintro _ ⟨t', ht', hkind'⟩
  rw [List.mem_singleton.mp ht'] at hkind'
  exact absurd hkind' hkind

/-- The loop of {lit}`advance` reads the tokens it was started on. -/
theorem along_advanceLoop {ts : Tokens} {p : Parser} (hrest : p.rest = ts) :
    ((advanceLoop ts).run p).Along Onward p := by
  induction ts generalizing p with
  | nil => exact Prog.along_step Onward.refl (onward_of_quiet hrest.symm rfl id)
  | cons t ts ih =>
      rw [advanceLoop]
      split <;> rename_i hkind
      · refine Prog.along_bind Onward.trans ?_ ?_
        · exact Prog.along_step Onward.refl (onward_takeError hrest)
        · intro _ p' hout
          cases hout
          exact ih rfl
      · exact Prog.along_step Onward.refl (onward_take hrest hkind)

/-- Every step of {lit}`advance` is onward. -/
theorem along_advance : Along Onward advance := by
  intro p
  refine Prog.along_bind Onward.trans ?_ ?_
  · exact Prog.along_step Onward.refl (onward_of_quiet rfl rfl id)
  · intro _ p' hout
    cases hout
    exact Prog.along_bind Onward.trans
      (Run.along_of_stay Onward.refl rfl fun _ h => by cases h; rfl) fun _ p' hout => by
        cases hout
        exact along_advanceLoop rfl

/-- A step that is onward from every state is onward along a run. -/
theorem along_step {l : Event} {f : Parser → Parser} (hf : ∀ p, Onward p (f p)) :
    Along Onward (Prog.step l f) :=
  fun p => Prog.along_step Onward.refl (hf p)

/-- Every piece of the parser only moves the state onward. -/
theorem whole_onward : Whole fun {_} m _ => Along Onward m := by
  have hC := along_congruence (ℓ := Event) Onward.refl Onward.trans
  have hquiet {l : Event} {f : Parser → Parser} (hrest : ∀ p, (f p).rest = p.rest)
      (hctx : ∀ p, (f p).ctx = p.ctx)
      (hpanic : ∀ p, (f p).panicMode = true → p.panicMode = true) :
      Along Onward (Prog.step l f) :=
    along_step fun p => onward_of_quiet (hrest p) (hctx p) (hpanic p)
  have hreport (tok : Option Token) (m : Msg) : Along Onward (ctxError tok m) :=
    along_step fun p => onward_report p tok m
  have henter : Along Onward semaScopeEnter :=
    hquiet (fun _ => rfl) (fun _ => rfl) fun _ => id
  have hleave : Along Onward semaScopeLeave :=
    hquiet (fun _ => rfl) (fun _ => rfl) fun _ => id
  exact Primitives.whole
    { hC with
      read := fun f _ => hC.read f
      advance := along_advance
      exprMark := fun _ => hquiet (fun _ => rfl) (fun _ => rfl) fun _ => id
      bodyMark := fun _ => hquiet (fun _ => rfl) (fun _ => rfl) fun _ => id
      paramMark := hquiet (fun _ => rfl) (fun _ => rfl) fun _ => id
      topMark := fun _ => hquiet (fun _ => rfl) (fun _ => rfl) fun _ => id
      parserErrorAt := fun tok m => along_step fun p => onward_errorAt p tok m
      ctxError := hreport
      newNodeField := fun {_ k k'} => congr_newNodeField hC
        (hquiet (fun _ => rfl) (fun _ => rfl) fun _ => id) k k'
      keepField := fun {a b} =>
        congr_keepField hC (hquiet (fun _ => rfl) (fun _ => rfl) fun _ => id) a b
      define := fun _ _ _ =>
        congr_semaDefineVar hC.reading hreport (hquiet (fun _ => rfl) (fun _ => rfl) fun _ => id)
      recover := fun {_ n n' m m' k k'} hn => congr_recover hC.reading n n' m m' k k'
        (congr_synchronize hC.reading n n' hn
          (hquiet (fun _ => rfl) (fun _ => rfl) fun _ h => by cases h)
          (fun _ => hquiet (fun _ => rfl) (fun _ => rfl) fun _ => id) along_advance)
      scope := fun {_ _ m m' k k'} => congr_scope hC.reading m m' k k' henter hleave
      semaScopeEnter := henter
      semaScopeLeave := hleave
      setFuncRet := fun _ => hquiet (fun _ => rfl) (fun _ => rfl) fun _ => id
      typeFuncNew := fun _ =>
        congr_typeFuncNew hC.reading (hquiet (fun _ => rfl) (fun _ => rfl) fun _ => id)
      pushParam := fun _ _ => hquiet (fun _ => rfl) (fun _ => rfl) fun _ => id }

/-- Along every run of the parser the state moves onward. -/
theorem onward_parserProgram (intern : List UInt8 → Symbol) (n : Nat) :
    Along Onward (parserProgram intern n) :=
  whole_onward.parserProgram intern (le_refl n)

/-! ## Reports and recoveries -/

/-- A step that stands for an error, or passes over a token, leaves the error flag
set. -/
def Told (st : Step Parser Event) : Prop :=
  st.label.isError = true ∨ st.label.isSkip = true → st.after.ctx.hadError = true

section Told

variable {I : Parser → Prop} (hflags : ∀ p, I p → FlagsTold p)
  (honward : ∀ p p', Onward p p' → I p → I p')

include hflags honward

/-- {lit}`advance` keeps the invariant and tells of every error token it takes. -/
theorem keeps_advance : Keeps I Told advance := by
  have hloop : ∀ (ts : Tokens) (p : Parser), p.rest = ts → I p →
      ((advanceLoop ts).run p).Meets (Contract.keeps I Told) fun _ => I := by
    intro ts
    induction ts with
    | nil =>
        intro p hrest hp
        refine Prog.meets_step ?_ (honward _ _ (onward_of_quiet hrest.symm rfl id) hp)
        exact fun h => by simp [Event.isError, Event.isSkip] at h
    | cons t ts ih =>
        intro p hrest hp
        rw [advanceLoop]
        split <;> rename_i hkind
        · refine Prog.meets_bind (R := fun _ q => q.rest = ts ∧ I q) ?_ fun _ q hq =>
            ih q hq.1 hq.2
          exact Prog.meets_step (fun _ => takeError_hadError (hflags p hp) t.val ts)
            ⟨rfl, honward _ _ (onward_takeError hrest) hp⟩
        · refine Prog.meets_step ?_ (honward _ _ (onward_take hrest hkind) hp)
          exact fun h => by simp [Event.isError, Event.isSkip] at h
  intro p hp
  refine Prog.meets_bind ?_ fun _ q hq => hloop _ q rfl hq
  refine Prog.meets_step ?_ (honward p _ (onward_of_quiet rfl rfl id) hp)
  exact fun h => by simp [Event.isError, Event.isSkip] at h

omit hflags in
/-- An onward step whose errors and skips set the flag tells of them. -/
theorem keeps_told_step {l : Event} {f : Parser → Parser} (hf : ∀ p, Onward p (f p))
    (hl : ∀ p, I p → l.isError = true ∨ l.isSkip = true → (f p).ctx.hadError = true) :
    Keeps I Told (Prog.step l f) :=
  fun p hp => Prog.meets_step (hl p hp) (honward p _ (hf p) hp)

end Told

/-- Once an error was recorded, recovery breaks no promise. -/
theorem told_synchronize (n : Nat) :
    Keeps (fun p => FlagsTold p ∧ p.ctx.hadError = true) Told (synchronize n) := by
  have hflags : ∀ p : Parser, FlagsTold p ∧ p.ctx.hadError = true → FlagsTold p :=
    fun _ h => h.1
  have honward : ∀ p p' : Parser, Onward p p' → FlagsTold p ∧ p.ctx.hadError = true →
      FlagsTold p' ∧ p'.ctx.hadError = true :=
    fun _ _ h hp => ⟨h.flags hp.1, h.hadError hp.2⟩
  refine congr_synchronize keeps_congruence.reading n n (le_refl n) ?_ ?_
    (keeps_advance hflags honward)
  · exact keeps_told_step honward
      (fun p => onward_of_quiet rfl rfl fun h => by cases h) fun _ hp _ => hp.2
  · exact fun t => keeps_told_step honward
      (fun p => onward_of_quiet rfl rfl id) fun _ hp _ => hp.2

/-- Every piece of the parser keeps the promise: recovery is entered in panic mode only,
which tells of an error. -/
theorem whole_told : Whole fun {_} m _ => Keeps FlagsTold Told m := by
  have hC := keeps_congruence (ℓ := Event) (I := FlagsTold) (P := Told)
  have honward : ∀ p p' : Parser, Onward p p' → FlagsTold p → FlagsTold p' :=
    fun _ _ h => h.flags
  have hquiet {l : Event} {f : Parser → Parser} (hrest : ∀ p, (f p).rest = p.rest)
      (hctx : ∀ p, (f p).ctx = p.ctx)
      (hpanic : ∀ p, (f p).panicMode = true → p.panicMode = true)
      (hl : ¬ (l.isError = true ∨ l.isSkip = true)) : Keeps FlagsTold Told (Prog.step l f) :=
    keeps_told_step honward
      (fun p => onward_of_quiet (hrest p) (hctx p) (hpanic p)) fun _ _ h => absurd h hl
  have hreport (tok : Option Token) (m : Msg) : Keeps FlagsTold Told (ctxError tok m) :=
    keeps_told_step honward (fun p => onward_report p tok m)
      fun p hp _ => report_hadError hp tok m
  have henter : Keeps FlagsTold Told semaScopeEnter :=
    hquiet (fun _ => rfl) (fun _ => rfl) (fun _ => id) (by decide)
  have hleave : Keeps FlagsTold Told semaScopeLeave :=
    hquiet (fun _ => rfl) (fun _ => rfl) (fun _ => id) (by decide)
  have hmark {e : Event} (he : e.isMark = true) : Keeps FlagsTold Told (Prog.mark e) := by
    refine hquiet (fun _ => rfl) (fun _ => rfl) (fun _ => id) ?_
    simp [Event.isError_of_isMark he, Event.isSkip_of_isMark he]
  exact Primitives.whole
    { hC with
      read := fun f _ => hC.read f
      advance := keeps_advance (fun _ => id) honward
      exprMark := fun he => hmark (by simp [Event.isMark, he])
      bodyMark := fun he => hmark (by simp [Event.isMark, he])
      paramMark := hmark rfl
      topMark := fun he => hmark (by simp [Event.isMark, he])
      parserErrorAt := fun tok m => keeps_told_step honward
        (fun p => onward_errorAt p tok m) fun p hp _ => errorAt_hadError hp tok m
      ctxError := hreport
      newNodeField := fun {_ k k'} => congr_newNodeField hC
        (hquiet (fun _ => rfl) (fun _ => rfl) (fun _ => id) (by decide)) k k'
      keepField := fun {a b} => congr_keepField hC
        (hquiet (fun _ => rfl) (fun _ => rfl) (fun _ => id) (by decide)) a b
      define := fun _ _ _ => congr_semaDefineVar hC.reading hreport
        (hquiet (fun _ => rfl) (fun _ => rfl) (fun _ => id) (by decide))
      recover := by
        intro α n n' m m' k k' hn hm hk p hp
        rw [Prog.run_read_bind]
        split <;> rename_i hpanic
        · refine Prog.meets_bind (R := fun _ q => FlagsTold q ∧ q.ctx.hadError = true) ?_
            fun _ q hq => hm q hq.1
          exact (told_synchronize n p ⟨hp, hp (Or.inl hpanic)⟩).weaken (fun _ => id)
            (fun _ => id) (fun _ hq => hq.1) id
        · exact hk p hp
      scope := fun {_ _ m m' k k'} => congr_scope hC.reading m m' k k' henter hleave
      semaScopeEnter := henter
      semaScopeLeave := hleave
      setFuncRet := fun _ => hquiet (fun _ => rfl) (fun _ => rfl) (fun _ => id) (by decide)
      typeFuncNew := fun _ => congr_typeFuncNew hC.reading
        (hquiet (fun _ => rfl) (fun _ => rfl) (fun _ => id) (by decide))
      pushParam := fun _ _ =>
        hquiet (fun _ => rfl) (fun _ => rfl) (fun _ => id) (by decide) }

/-- Every reported error and every recovery finds or leaves the error flag set. -/
theorem told_parserProgram (intern : List UInt8 → Symbol) (n : Nat) :
    Keeps FlagsTold Told (parserProgram intern n) :=
  whole_told.parserProgram intern (le_refl n)

/-- The invariant holds before the first token is taken: nothing has been reported yet. -/
theorem flagsTold_start (mem : Memory) (ts : TokenStream) :
    FlagsTold (start mem Context.init ts) := by
  intro h
  simp [start, Context.init] at h

/-- Everything the lexer returned has been read by a parse that returns, so none of its
error tokens went unnoticed. -/
theorem hadError_of_errorToken {intern : List UInt8 → Symbol} {mem : Memory}
    {ts : TokenStream} {globals : List Node} {p : Parser}
    (h : (parserRun intern mem ts).outcome = .done globals p) (herror : HasError ts.tokens) :
    p.ctx.hadError = true := by
  have honward := (onward_parserProgram intern (budget ts.tokens.length)
    (start mem Context.init ts)).ends (congrArg Outcome.state h)
  rcases honward.reads with ⟨read, hread, htold⟩
  rw [(parserProgram_reads_all h).1, List.append_nil] at hread
  refine htold (flagsTold_start mem ts) ?_
  rw [← hread]
  exact herror

end Parser

/-- No error is lost.  At every point of the parse of a file a set panic flag tells of
an error, and the error flag is never cleared.  Hence an error token anywhere in the
file, and any call that reports an error, leave the error flag set when the parser
returns, and the compilation fails.  Conversely a compilation that succeeds passed over
no token and read the file to its end. -/
theorem no_error_lost (f : Fluf) (hf : f.Standard) (mem : Memory) (baseOffset : Nat)
    (content : List UInt8) :
    (∀ st ∈ (compileRun f mem baseOffset content).steps,
      st.before.FlagsTold ∧ st.after.FlagsTold ∧
      (st.before.ctx.hadError = true → st.after.ctx.hadError = true)) ∧
    ((compileRun f mem baseOffset content).steps.Pairwise fun st₁ st₂ =>
      st₁.after.ctx.hadError = true → st₂.before.ctx.hadError = true) ∧
    (∀ st ∈ (compileRun f mem baseOffset content).steps, ∀ p,
      (compileRun f mem baseOffset content).outcome.state = some p →
      st.after.ctx.hadError = true → p.ctx.hadError = true) ∧
    ((Parser.HasError (Lexer.lexTokens f (Lexer.init baseOffset content)).tokens ∨
        ∃ st ∈ (compileRun f mem baseOffset content).steps, st.label.isError = true) →
      (∀ globals p, (compileRun f mem baseOffset content).outcome = .done globals p →
        p.ctx.hadError = true) ∧
      ∀ success ctx, runCompile f mem baseOffset (some content) = .done success ctx →
        success = false) ∧
    (∀ ctx, runCompile f mem baseOffset (some content) = .done true ctx →
      (∀ st ∈ (compileRun f mem baseOffset content).steps, st.label.isSkip = false) ∧
      (∃ globals p, (compileRun f mem baseOffset content).outcome = .done globals p ∧
        p.rest = [] ∧ p.curr.kind = .eof) ∧
      (Lexer.afterCalls f
        ((Lexer.lexTokens f (Lexer.init baseOffset content)).tokens.length + 1)
        (Lexer.init baseOffset content)).cursor = content.length) := by
  have hstart := Parser.flagsTold_start mem (Lexer.lexTokens f (Lexer.init baseOffset content))
  have honward : (compileRun f mem baseOffset content).Along Parser.Onward _ :=
    Parser.onward_parserProgram _ _ _
  have htold : ∀ st ∈ (compileRun f mem baseOffset content).steps, Parser.Told st :=
    fun st hst => (Parser.told_parserProgram _ _).emits hstart hst
  have hlater : ∀ st ∈ (compileRun f mem baseOffset content).steps, ∀ p,
      (compileRun f mem baseOffset content).outcome.state = some p →
      st.after.ctx.hadError = true → p.ctx.hadError = true :=
    fun st hst p hp => (honward.later hst hp).hadError
  have hresult : (Parser.HasError (Lexer.lexTokens f (Lexer.init baseOffset content)).tokens ∨
        ∃ st ∈ (compileRun f mem baseOffset content).steps, st.label.isError = true) →
      ∀ globals p, (compileRun f mem baseOffset content).outcome = .done globals p →
        p.ctx.hadError = true := by
    rintro (herror | ⟨st, hst, hlabel⟩) globals p hout
    · exact Parser.hadError_of_errorToken hout herror
    · exact hlater st hst p (by rw [hout]; rfl) (htold st hst (Or.inl hlabel))
  -- The result of the compilation is read off the error flag.
  have hcompile : ∀ success ctx,
      runCompile f mem baseOffset (some content) = .done success ctx →
      ∃ globals p, (compileRun f mem baseOffset content).outcome = .done globals p ∧
        success = !p.ctx.hadError := by
    intro success ctx h
    unfold runCompile at h
    cases hout : (compileRun f mem baseOffset content).outcome with
    | done globals p =>
        simp only [hout, Outcome.done.injEq] at h
        exact ⟨globals, p, rfl, h.1.symm⟩
    | fault p => simp [hout] at h
    | timeout => simp [hout] at h
  refine ⟨?_, honward.between.imp fun h => h.hadError, hlater, ?_, ?_⟩
  · intro st hst
    have hbefore := (honward.before hst).flags hstart
    exact ⟨hbefore, (honward.across hst).flags hbefore, (honward.across hst).hadError⟩
  · intro herror
    refine ⟨hresult herror, ?_⟩
    intro success ctx h
    rcases hcompile success ctx h with ⟨globals, p, hout, rfl⟩
    simp [hresult herror globals p hout]
  · intro ctx h
    rcases hcompile true ctx h with ⟨globals, p, hout, hsuccess⟩
    refine ⟨?_, ⟨globals, p, hout, Parser.parserProgram_reads_all hout⟩,
      Lexer.cursor_at_end hf (Nat.zero_le _)⟩
    intro st hst
    by_contra hskip
    have hmark : st.after.ctx.hadError = true :=
      htold st hst (Or.inr (by simpa using hskip))
    have hp : p.ctx.hadError = true := hlater st hst p (by rw [hout]; rfl) hmark
    simp [hp] at hsuccess

/-- A file that consists of a character the lexer rejects does not compile. -/
theorem no_error_lost_stray_character :
    Parser.HasError (Lexer.lexTokens Fluf.ascii (Lexer.init 0 [byte '@'])).tokens ∧
    ∀ success ctx, runCompile Fluf.ascii ⟨fun _ => none, Token.eof ⟨0, 0⟩⟩ 0
      (some [byte '@']) = .done success ctx → success = false :=
  ⟨by decide, ((no_error_lost Fluf.ascii Fluf.ascii_standard
    ⟨fun _ => none, Token.eof ⟨0, 0⟩⟩ 0 [byte '@']).2.2.2.1 (Or.inl (by decide))).2⟩

end Cact
