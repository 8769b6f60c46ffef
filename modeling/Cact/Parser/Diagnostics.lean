import Cact.Library.Monitor
import Cact.Parser.ErrorFlag
import Cact.Parser.Language

/-!
# Which errors are reported

Two flags silence {lit}`parser_error_at`.  The parser's own flag is cleared when the
parser recovers; the flag of the context is set by the first report of a run, whoever
makes it, and is never cleared.

Main results:

- Theorem {lit}`Parser.counts_parserProgram`: what the context shows at every point of
  a run, from the steps before it.
- Theorem {lit}`panics_reported_iff`: every panic of a run is reported exactly if none
  comes after an earlier report.
-/

open Traced

namespace Cact

namespace Parser

/-! ## Steps that reach the context -/

/-- The steps in which the parser starts to panic: a call of {lit}`parser_error_at`
outside panic mode. -/
def startsPanic (st : Step Parser Event) : Bool :=
  match st.label with
  | .parserErrorAt _ => !st.before.panicMode
  | _ => false

/-- The steps that call {lit}`ctx_error`. -/
def callsCtxError (st : Step Parser Event) : Bool :=
  match st.label with
  | .lexError _ | .ctxError _ => true
  | _ => startsPanic st

/-- What is known of a context: its panic flag, and how many diagnostics it printed. -/
def printed (p : Parser) : Bool × Nat := (p.ctx.panicMode, p.ctx.diags.length)

/-- Only the first call of {lit}`ctx_error` prints. -/
def count (a : Bool × Nat) (st : Step Parser Event) : Bool × Nat :=
  if callsCtxError st then (true, if a.1 then a.2 else a.2 + 1) else a

theorem printed_error (p : Parser) (loc : Option Span) (m : Msg) :
    printed { p with ctx := p.ctx.error loc m } =
      (true, if (printed p).1 then (printed p).2 else (printed p).2 + 1) := by
  unfold printed Context.error
  cases hpanic : p.ctx.panicMode with
  | true => simp [hpanic]
  | false => simp

/-- A step that leaves the context alone. -/
theorem follows_quiet {l : Event} {f : Parser → Parser} (hl : l.isError = false)
    (hctx : ∀ p, (f p).ctx = p.ctx) : Follows printed count (Prog.step l f) := by
  refine follows_step fun p => ?_
  have hquiet : callsCtxError ⟨l, p, f p⟩ = false := by
    cases l <;> first | rfl | cases hl
  rw [count, hquiet, printed, hctx]
  rfl

theorem follows_ctxError (tok : Option Token) (m : Msg) :
    Follows printed count (ctxError tok m) :=
  follows_step fun p => printed_error p (tok.map Token.span) m

theorem follows_parserErrorAt (tok : Token) (m : Msg) :
    Follows printed count (parserErrorAt tok m) := by
  refine follows_step fun p => ?_
  by_cases hpanic : p.panicMode = true
  · have hquiet : callsCtxError ⟨.parserErrorAt m, p, p.errorAt tok m⟩ = false := by
      simp [callsCtxError, startsPanic, hpanic]
    rw [count, hquiet, errorAt, if_pos hpanic]
    rfl
  · have hloud : callsCtxError ⟨.parserErrorAt m, p, p.errorAt tok m⟩ = true := by
      simp [callsCtxError, startsPanic, hpanic]
    rw [count, hloud, errorAt, if_neg hpanic]
    exact printed_error p (some tok.span) m

theorem follows_advance : Follows printed count advance := by
  have hloop : ∀ ts : Tokens, Follows printed count (advanceLoop ts) := by
    intro ts
    induction ts with
    | nil => exact follows_quiet rfl fun _ => rfl
    | cons t ts ih =>
        rw [advanceLoop]
        split
        · refine Follows.bind ?_ fun _ => ih
          exact follows_step fun p => printed_error p (some t.val.span) _
        · exact follows_quiet rfl fun _ => rfl
  refine Follows.bind ?_ fun _ => (follows_read _).bind hloop
  exact follows_quiet rfl fun _ => rfl

/-- Every piece of the parser leaves the context to these steps. -/
theorem whole_counts : Whole fun {_} m _ => Follows printed count m := by
  have hC : Congruence fun {_} (m _ : Parse _) => Follows printed count m :=
    follows_congruence
  have hmark {e : Event} (he : e.isMark = true) : Follows printed count (Prog.mark e) :=
    follows_quiet (Event.isError_of_isMark he) fun _ => rfl
  have henter : Follows printed count semaScopeEnter := follows_quiet rfl fun _ => rfl
  have hleave : Follows printed count semaScopeLeave := follows_quiet rfl fun _ => rfl
  exact Primitives.whole
    { hC with
      read := fun f _ => hC.read f
      advance := follows_advance
      exprMark := fun he => hmark (by simp [Event.isMark, he])
      bodyMark := fun he => hmark (by simp [Event.isMark, he])
      paramMark := hmark rfl
      topMark := fun he => hmark (by simp [Event.isMark, he])
      parserErrorAt := follows_parserErrorAt
      ctxError := follows_ctxError
      newNodeField := fun {_ k k'} => congr_newNodeField hC (follows_quiet rfl fun _ => rfl) k k'
      keepField := fun {a b} => congr_keepField hC (follows_quiet rfl fun _ => rfl) a b
      define := fun _ _ _ =>
        congr_semaDefineVar hC.reading follows_ctxError (follows_quiet rfl fun _ => rfl)
      recover := fun {_ n n' m m' k k'} hn => congr_recover hC.reading n n' m m' k k'
        (congr_synchronize hC.reading n n' hn (follows_quiet rfl fun _ => rfl)
          (fun _ => follows_quiet rfl fun _ => rfl) follows_advance)
      scope := fun {_ _ m m' k k'} => congr_scope hC.reading m m' k k' henter hleave
      semaScopeEnter := henter
      semaScopeLeave := hleave
      setFuncRet := fun _ => follows_quiet rfl fun _ => rfl
      typeFuncNew := fun _ => congr_typeFuncNew hC.reading (follows_quiet rfl fun _ => rfl)
      pushParam := fun _ _ => follows_quiet rfl fun _ => rfl }

/-- At every point of a run the context has printed what the steps before tell. -/
theorem counts_parserProgram (intern : List UInt8 → Symbol) (n : Nat) :
    Follows printed count (parserProgram intern n) :=
  whole_counts.parserProgram intern (le_refl n)

/-! ## Panics -/

/-- A step that prints the diagnostic it stands for. -/
def Prints (st : Step Parser Event) : Prop :=
  st.after.ctx.diags.length = st.before.ctx.diags.length + 1

/-- Every panic is reported when it starts, so that a run prints at least one diagnostic
for each of them. -/
structure PanicsReported (r : Run Parser Event (List Node)) : Prop where
  each : ∀ st ∈ r.steps, startsPanic st = true → Prints st
  all : ∀ p, r.outcome.state = some p → r.steps.countP startsPanic ≤ p.ctx.diags.length

/-- No panic starts after a call of {lit}`ctx_error`. -/
def PanicsFirst (sts : List (Step Parser Event)) : Prop :=
  sts.Pairwise fun st st' => callsCtxError st = true → startsPanic st' = false

theorem callsCtxError_of_startsPanic {st : Step Parser Event} (h : startsPanic st = true) :
    callsCtxError st = true := by
  unfold callsCtxError
  split
  · rfl
  · rfl
  · exact h

/-- Among steps that follow the monitor, all panics are reported exactly if they come
before everything else that is reported.  Induction on the steps, for any flag. -/
theorem prints_iff {silent : Bool} {k : Nat} {sts : List (Step Parser Event)}
    (h : Watched printed count (silent, k) sts) :
    (∀ st ∈ sts, startsPanic st = true → Prints st) ↔
      (silent = true → ∀ st ∈ sts, startsPanic st = false) ∧ PanicsFirst sts := by
  induction sts generalizing silent k with
  | nil => simp [PanicsFirst]
  | cons st sts ih =>
      obtain ⟨hbefore, hafter, hrest⟩ := h
      obtain ⟨hpanic, hlength⟩ := Prod.mk.inj hbefore
      -- A panic is printed exactly where the context is not silent yet.
      have hprints (hstart : startsPanic st = true) : Prints st ↔ silent = false := by
        rw [count, if_pos (callsCtxError_of_startsPanic hstart)] at hafter
        have hdiags : st.after.ctx.diags.length = if silent then k else k + 1 :=
          (Prod.mk.inj hafter).2
        unfold Prints
        rw [hdiags, hlength]
        cases silent <;> simp
      unfold PanicsFirst
      rw [List.forall_mem_cons, List.pairwise_cons]
      by_cases hcalls : callsCtxError st = true
      · rw [count, if_pos hcalls] at hrest
        rw [ih hrest]
        constructor
        · rintro ⟨hst, hlater, hpairs⟩
          refine ⟨?_, ⟨fun st' hst' _ => hlater rfl st' hst', hpairs⟩⟩
          intro hsilent
          rw [List.forall_mem_cons]
          refine ⟨?_, hlater rfl⟩
          by_contra hstart
          have hstart' : startsPanic st = true := by simpa using hstart
          have hloud := (hprints hstart').mp (hst hstart')
          rw [hsilent] at hloud
          cases hloud
        · rintro ⟨hsilent, hlater, hpairs⟩
          refine ⟨?_, fun _ st' hst' => hlater st' hst' hcalls, hpairs⟩
          intro hstart
          refine (hprints hstart).mpr ?_
          by_contra hne
          have hnone := hsilent (by simpa using hne) st (List.mem_cons_self ..)
          rw [hstart] at hnone
          cases hnone
      · have hno : startsPanic st = false := by
          rw [Bool.eq_false_iff]
          exact fun hstart => hcalls (callsCtxError_of_startsPanic hstart)
        rw [count, if_neg hcalls] at hrest
        rw [ih hrest]
        constructor
        · rintro ⟨_, hlater, hpairs⟩
          refine ⟨fun hsilent => ?_, fun _ _ h => absurd h hcalls, hpairs⟩
          rw [List.forall_mem_cons]
          exact ⟨hno, hlater hsilent⟩
        · rintro ⟨hlater, _, hpairs⟩
          refine ⟨fun hstart => ?_, fun hsilent => ?_, hpairs⟩
          · rw [hno] at hstart
            cases hstart
          · exact (List.forall_mem_cons.mp (hlater hsilent)).2

/-- The number of diagnostics never goes down, and a call of {lit}`ctx_error` leaves at
least one. -/
theorem foldl_count_le (sts : List (Step Parser Event)) (silent : Bool) (k : Nat) :
    k ≤ (sts.foldl count (silent, k)).2 := by
  induction sts generalizing silent k with
  | nil => exact le_refl k
  | cons st sts ih =>
      rw [List.foldl_cons, count]
      split
      · refine le_trans ?_ (ih true _)
        split
        · exact le_refl k
        · exact Nat.le_succ k
      · exact ih silent k

/-- If the panics come first, there is at most one, and it is among the diagnostics. -/
theorem countP_le {sts : List (Step Parser Event)} (h : PanicsFirst sts) (k : Nat) :
    k + sts.countP startsPanic ≤ (sts.foldl count (false, k)).2 := by
  induction sts generalizing k with
  | nil => exact le_refl k
  | cons st sts ih =>
      unfold PanicsFirst at h
      rw [List.pairwise_cons] at h
      rw [List.foldl_cons, count]
      by_cases hcalls : callsCtxError st = true
      · have hnone : sts.countP startsPanic = 0 := by
          rw [List.countP_eq_zero]
          intro st' hst'
          simp [h.1 st' hst' hcalls]
        rw [if_pos hcalls, List.countP_cons, hnone]
        refine le_trans ?_ (foldl_count_le sts true _)
        split <;> simp
      · have hno : startsPanic st = false := by
          rw [Bool.eq_false_iff]
          exact fun hstart => hcalls (callsCtxError_of_startsPanic hstart)
        rw [if_neg hcalls, List.countP_cons, hno]
        exact ih h.2 k

end Parser

open Cact.Parser

/-- For every token stream, all panics of the parse are reported, each where it starts,
if and only if no panic starts after a call of {lit}`ctx_error`: what the source prints
is the first report of a run and nothing else. -/
theorem panics_reported_iff (intern : List UInt8 → Symbol) (mem : Memory)
    (ts : TokenStream) :
    PanicsReported (parserRun intern mem ts) ↔
      PanicsFirst (parserRun intern mem ts).steps := by
  have hfollows : (parserRun intern mem ts).Follows printed count (start mem Context.init ts) :=
    counts_parserProgram intern _ _
  have hiff := prints_iff hfollows.steps
  constructor
  · intro h
    exact (hiff.mp h.each).2
  · intro h
    refine ⟨hiff.mpr ⟨fun hfalse => (by cases hfalse), h⟩, ?_⟩
    intro p hp
    have hends := congrArg Prod.snd (hfollows.ends p hp)
    have hcount := countP_le h 0
    rw [Nat.zero_add] at hcount
    exact hcount.trans_eq hends.symm

/-- In {lit}`int ; int ;` the name is missing twice.  The parser recovers between the two
declarations and panics again, but prints one diagnostic only. -/
theorem panics_unreported :
    ¬ PanicsReported (parserRun Fluf.ascii.intern Grammar.zeroed
      (Grammar.stream [.fixed .kwInt, .fixed .semicolon, .fixed .kwInt, .fixed .semicolon])) := by
  intro h
  have hpanics : (parserRun Fluf.ascii.intern Grammar.zeroed
      (Grammar.stream [.fixed .kwInt, .fixed .semicolon, .fixed .kwInt,
        .fixed .semicolon])).steps.countP startsPanic = 2 := by
    decide +kernel
  have hdiags : (parserRun Fluf.ascii.intern Grammar.zeroed
      (Grammar.stream [.fixed .kwInt, .fixed .semicolon, .fixed .kwInt,
        .fixed .semicolon])).outcome.state.map (fun p => p.ctx.diags.length) = some 1 := by
    decide +kernel
  obtain ⟨p, hp, hlength⟩ := Option.map_eq_some_iff.mp hdiags
  have hall := h.all p hp
  omega

end Cact
