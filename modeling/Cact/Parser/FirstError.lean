import Cact.Parser.Correspondence.Unit
import Cact.Parser.Diagnostics
import Cact.Parser.Termination

/-!
# The first error

What a run prints is decided by its first error: the context panics there, and does not
change any more.  A run without one returns.  So two parses of corresponding token streams
end alike, and a parse compared with itself tells what a single run does.

Main results:

- Definitions {lit}`Parser.Succeeds` and {lit}`Parser.Rejects`: the two ways a parse ends.
- Theorem {lit}`Parser.alike_parserRun`: parses of corresponding token streams.
- Theorem {lit}`Parser.succeeds_or_rejects`: every parse ends in one of these ways, and reports
  a place in the file.
-/

open Traced

namespace Cact

namespace Parser

/-! ## Steps other than reading -/

/-- What the steps of the parser have in common, apart from those of {lit}`advance`: they leave
the tokens alone, and change the context by a report only. -/
structure Unread (l : Event) (f : Parser → Parser) : Prop where
  reads : l.reads = false
  rest : ∀ p, (f p).rest = p.rest
  endSpan : ∀ p, (f p).endSpan = p.endSpan
  curr : ∀ p, (f p).curr = p.curr
  ctx : ∀ p, (f p).ctx = p.ctx ∨ ∃ loc m, (f p).ctx = p.ctx.error loc m

theorem unread_mark {l : Event} (h : l.reads = false) : Unread l id :=
  ⟨h, fun _ => rfl, fun _ => rfl, fun _ => rfl, fun _ => Or.inl rfl⟩

theorem unread_errorAt (tok : Token) (m : Msg) :
    Unread (.parserErrorAt m) fun p => p.errorAt tok m where
  reads := rfl
  rest p := errorAt_rest p tok m
  endSpan p := by
    unfold errorAt
    split <;> rfl
  curr p := errorAt_curr p tok m
  ctx p := by
    unfold errorAt
    split
    · exact Or.inl rfl
    · exact Or.inr ⟨_, _, rfl⟩

theorem reads_of_isMark {e : Event} (h : e.isMark = true) : e.reads = false := by
  cases e <;> first | rfl | cases h

/-- What {lit}`advance` and every other step has, the whole parser has. -/
theorem whole_of_unread {G : ∀ {α : Type}, Parse α → Prop}
    (hC : Congruence fun {_} (m _ : Parse _) => G m) (hadvance : G advance)
    (hstep : ∀ {l : Event} {f : Parser → Parser}, Unread l f → G (Prog.step l f)) :
    Whole fun {_} m _ => G m := by
  have hmark {e : Event} (he : e.isMark = true) : G (Prog.mark e) :=
    hstep (unread_mark (reads_of_isMark he))
  have hquiet {l : Event} {f : Parser → Parser} (hreads : l.reads = false)
      (hrest : ∀ p, (f p).rest = p.rest) (hspan : ∀ p, (f p).endSpan = p.endSpan)
      (hcurr : ∀ p, (f p).curr = p.curr) (hctx : ∀ p, (f p).ctx = p.ctx) :
      G (Prog.step l f) :=
    hstep ⟨hreads, hrest, hspan, hcurr, fun p => Or.inl (hctx p)⟩
  have hreport (tok : Option Token) (m : Msg) : G (ctxError tok m) :=
    hstep ⟨rfl, fun _ => rfl, fun _ => rfl, fun _ => rfl, fun _ => Or.inr ⟨_, _, rfl⟩⟩
  have hsema {l : Event} {g : Parser → Sema} (hreads : l.reads = false) :
      G (Prog.step l fun p => { p with sema := g p }) :=
    hquiet hreads (fun _ => rfl) (fun _ => rfl) (fun _ => rfl) fun _ => rfl
  have hfresh : G (Prog.step .freshField fun p => { p with allocs := p.allocs + 1 }) :=
    hquiet rfl (fun _ => rfl) (fun _ => rfl) (fun _ => rfl) fun _ => rfl
  have hcalm : G (Prog.step .synchronize fun p => { p with panicMode := false }) :=
    hquiet rfl (fun _ => rfl) (fun _ => rfl) (fun _ => rfl) fun _ => rfl
  exact Primitives.whole
    { hC with
      read := fun f _ => hC.read f
      advance := hadvance
      exprMark := fun he => hmark (by simp [Event.isMark, he])
      bodyMark := fun he => hmark (by simp [Event.isMark, he])
      paramMark := hmark rfl
      topMark := fun he => hmark (by simp [Event.isMark, he])
      parserErrorAt := fun tok m => hstep (unread_errorAt tok m)
      ctxError := hreport
      newNodeField := fun {_ k k'} => congr_newNodeField hC hfresh k k'
      keepField := fun {a b} => congr_keepField hC (hstep (unread_mark rfl)) a b
      define := fun _ _ _ => congr_semaDefineVar hC.reading hreport (hsema rfl)
      recover := fun {_ n n' m m' k k'} hn => congr_recover hC.reading n n' m m' k k'
        (congr_synchronize hC.reading n n' hn hcalm (fun _ => hstep (unread_mark rfl)) hadvance)
      scope := fun {_ _ m m' k k'} => congr_scope hC.reading m m' k k' (hsema rfl) (hsema rfl)
      semaScopeEnter := hsema rfl
      semaScopeLeave := hsema rfl
      setFuncRet := fun _ => hsema rfl
      typeFuncNew := fun _ => congr_typeFuncNew hC.reading (hsema rfl)
      pushParam := fun _ _ => hsema rfl }

/-! ## The context in panic -/

/-- A context in panic is kept. -/
def keepPanic (ctx : Context) (st : Step Parser Event) : Context :=
  if ctx.panicMode then ctx else st.after.ctx

/-- A step that leaves the context alone or reports an error. -/
theorem follows_ctx {l : Event} {f : Parser → Parser}
    (hf : ∀ p, (f p).ctx = p.ctx ∨ ∃ loc m, (f p).ctx = p.ctx.error loc m) :
    Follows Parser.ctx keepPanic (Prog.step l f) := by
  refine follows_step fun p => ?_
  unfold keepPanic
  split <;> rename_i hpanic
  · rcases hf p with hkept | ⟨loc, m, herror⟩
    · exact hkept
    · rw [herror, Context.error, if_pos hpanic]
  · rfl

theorem follows_ctx_quiet {l : Event} {f : Parser → Parser} (hf : ∀ p, (f p).ctx = p.ctx) :
    Follows Parser.ctx keepPanic (Prog.step l f) :=
  follows_ctx fun p => Or.inl (hf p)

theorem follows_ctx_advance : Follows Parser.ctx keepPanic advance := by
  have hloop : ∀ ts : Tokens, Follows Parser.ctx keepPanic (advanceLoop ts) := by
    intro ts
    induction ts with
    | nil => exact follows_ctx_quiet fun _ => rfl
    | cons t ts ih =>
        rw [advanceLoop]
        split
        · exact Follows.bind (follows_ctx fun _ => Or.inr ⟨_, _, rfl⟩) fun _ => ih
        · exact follows_ctx_quiet fun _ => rfl
  refine Follows.bind ?_ fun _ => (follows_read _).bind hloop
  exact follows_ctx_quiet fun _ => rfl

theorem whole_keepPanic : Whole fun {_} m _ => Follows Parser.ctx keepPanic m :=
  whole_of_unread (G := Follows Parser.ctx keepPanic) follows_congruence follows_ctx_advance
    fun h => follows_ctx h.ctx

/-! ## Ends -/

/-- The parse returns, and there was no error. -/
structure Succeeds (r : Run Parser Event (List Node)) (globals : List Node) (p : Parser) :
    Prop where
  outcome : r.outcome = .done globals p
  ctx : p.ctx = Context.init
  quiet : r.steps.filterMap (fun st => st.label.message) = []

/-- The parse prints its first error, and nothing else. -/
structure Rejects (r : Run Parser Event (List Node)) (d : Diagnostic) : Prop where
  first : (r.steps.filterMap fun st => st.label.message).head? = some d.msg
  ends : ∃ p, r.outcome.state = some p ∧ p.ctx = ⟨true, true, [d]⟩

/-- Two parses that end in the same way. -/
inductive Alike (k : Likeness) (r r' : Run Parser Event (List Node)) : Prop where
  | succeeds {globals globals' : List Node} {p p' : Parser} (h : Succeeds r globals p)
      (h' : Succeeds r' globals' p') (hnodes : k.Nodes globals globals')
      (hsema : p'.sema = p.sema.rename k.name)
  | rejects {d d' : Diagnostic} (h : Rejects r d) (h' : Rejects r' d') (hdiag : k.Diag d d')

theorem filterMap_message {sts : List (Step Parser Event)}
    (h : ∀ st ∈ sts, st.label.message = none) :
    sts.filterMap (fun st => st.label.message) = [] :=
  List.filterMap_eq_nil_iff.mpr h

/-- A run whose first error is found at a step. -/
theorem rejects_of_steps {intern : List UInt8 → Symbol} {mem : Memory} {ts : TokenStream}
    {pre post : List (Step Parser Event)} {st : Step Parser Event} {d : Diagnostic}
    (hsteps : (parserRun intern mem ts).steps = pre ++ st :: post)
    (hpre : ∀ st ∈ pre, st.label.message = none) (hmessage : st.label.message = some d.msg)
    (hctx : st.after.ctx = ⟨true, true, [d]⟩) : Rejects (parserRun intern mem ts) d := by
  constructor
  · rw [hsteps, List.filterMap_append, filterMap_message hpre, List.nil_append,
      List.filterMap_cons_some (f := fun st : Step Parser Event => st.label.message) hmessage]
    rfl
  · have hend : (parserRun intern mem ts).outcome.state ≠ none := by
      have htimeout := parserRun_ne_timeout intern mem ts
      cases hout : (parserRun intern mem ts).outcome with
      | done globals p => simp [Outcome.state]
      | fault p => simp [Outcome.state]
      | timeout => exact absurd hout htimeout
    obtain ⟨p, hp⟩ := Option.ne_none_iff_exists'.mp hend
    refine ⟨p, hp, ?_⟩
    have hfollows : (parserRun intern mem ts).Follows Parser.ctx keepPanic
        (start mem Context.init ts) := whole_keepPanic.parserProgram intern (le_refl _) _
    rw [← hctx]
    refine hfollows.ends_at hsteps (fun st' => ?_) hp
    rw [hctx]
    rfl

/-- Steps that are taken together report nothing. -/
theorem quiet_of_go {k : Likeness} {sts sts' : List (Step Parser Event)}
    (h : List.Forall₂ k.comparison.go sts sts') :
    (∀ st ∈ sts, st.label.message = none) ∧ ∀ st ∈ sts', st.label.message = none := by
  induction h with
  | nil => simp
  | @cons st st' _ _ hgo _ ih =>
      have hlabel' : st'.label.message = none := by
        rw [hgo.2]
        cases hlabel : st.label <;> simp_all [Event.message, Event.rename, Likeness.comparison]
      exact ⟨List.forall_mem_cons.mpr ⟨hgo.1, ih.1⟩, List.forall_mem_cons.mpr ⟨hlabel', ih.2⟩⟩

/-- Parses of corresponding token streams end alike. -/
theorem alike_parserRun {k : Likeness} (hbeyond : ∀ ts ts', ¬ k.beyond ts ts')
    {intern intern' : List UInt8 → Symbol}
    (hintern : ∀ b ∈ builtins, intern' (b.1.map byte) = k.name (intern (b.1.map byte)))
    {mem mem' : Memory} (hmem : ∀ i, mem'.field i = (mem.field i).map (Node.rename k.name))
    {ts ts' : TokenStream} (hts : k.Toks ts.endSpan ts'.endSpan ts.tokens ts'.tokens) :
    Alike k (parserRun intern mem ts) (parserRun intern' mem' ts') := by
  have hlength : ts'.tokens.length = ts.tokens.length := by
    have hlengths : ∀ {us us' : Tokens}, k.Toks ts.endSpan ts'.endSpan us us' →
        us'.length = us.length := by
      intro us us' hus
      induction hus with
      | nil _ => rfl
      | cons _ _ ih => rw [List.length_cons, List.length_cons, ih]
      | beyond h => exact absurd h (hbeyond _ _)
    exact hlengths hts
  have hlockstep := lockstep_parserProgram (k := k) hintern (budget ts.tokens.length) hmem hts
  have hrun' : (parserProgram intern' (budget ts.tokens.length)).run
      (start mem' Context.init ts') = parserRun intern' mem' ts' := by
    rw [parserRun, hlength]
  rw [hrun'] at hlockstep
  rcases hlockstep with hparted | ⟨hsteps, hend⟩
  · obtain ⟨pre, st, post, pre', st', post', hst, hst', hpre, hstop⟩ := hparted.split
    rcases hstop with ⟨d, d', hfails⟩ | ⟨_, _, hfalse⟩
    · exact .rejects
        (rejects_of_steps hst (quiet_of_go hpre).1 hfails.message hfails.ctx)
        (rejects_of_steps hst' (quiet_of_go hpre).2 hfails.message' hfails.ctx') hfails.diag
    · exact absurd hfalse (hbeyond _ _)
  · have htimeout : (parserRun intern mem ts).outcome ≠ .timeout :=
      parserRun_ne_timeout intern mem ts
    change ((parserRun intern mem ts).outcome).Together _ _ _ at hend
    generalize hout : (parserRun intern mem ts).outcome = o at hend htimeout
    generalize hout' : (parserRun intern' mem' ts').outcome = o' at hend
    cases hend with
    | done hpost =>
        exact .succeeds ⟨hout, hpost.2.ctx, filterMap_message (quiet_of_go hsteps).1⟩
          ⟨hout', hpost.2.ctx', filterMap_message (quiet_of_go hsteps).2⟩ hpost.1 hpost.2.sema
    | fault hfalse => exact hfalse.elim
    | timeout => exact absurd rfl htimeout

/-! ## A single parse -/

/-- A file corresponds to itself.  {lit}`S` tells where its tokens stand. -/
def within (S : Span → Prop) : Likeness where
  name := id
  injective := Function.injective_id
  span s s' := s' = s ∧ S s
  beyond _ _ := False

theorem toks_within {S : Span → Prop} {e : Span} (he : S e) {ts : Tokens}
    (h : ∀ t ∈ ts, S t.val.span) : (within S).Toks e e ts ts := by
  induction ts with
  | nil => exact .nil ⟨rfl, he⟩
  | cons t ts ih =>
      have ht : (within S).Tok t.val t.val :=
        ⟨rfl, ⟨rfl, h t List.mem_cons_self⟩, fun _ => rfl, fun _ => rfl, fun _ => rfl,
          fun _ => rfl, fun _ => rfl⟩
      exact .cons ht (ih fun u hu => h u (List.mem_cons_of_mem _ hu))

/-- Every parse ends in one of two ways.  Either it returns, and no error was reported.  Or it
prints exactly one diagnostic: the first error of the run, at the place of a token of the file
or of its end, or at no place, which a redefinition is reported with.  In particular nothing
goes wrong before an error is reported, whatever the memory held. -/
theorem succeeds_or_rejects (intern : List UInt8 → Symbol) (mem : Memory) (ts : TokenStream) :
    (∃ globals p, Succeeds (parserRun intern mem ts) globals p) ∨
      ∃ d, Rejects (parserRun intern mem ts) d ∧
        ((d.loc = none ∧ d.msg = .redefinition) ∨
          ∃ s ∈ ts.endSpan :: ts.tokens.map fun t => t.val.span, d.loc = some s) := by
  have halike : Alike (within fun s => s ∈ ts.endSpan :: ts.tokens.map fun t => t.val.span)
      (parserRun intern mem ts) (parserRun intern mem ts) :=
    alike_parserRun (fun _ _ => id) (fun _ _ => rfl)
      (fun i => (Node.map_rename_id (mem.field i)).symm)
      (toks_within List.mem_cons_self fun t ht => List.mem_cons_of_mem _ (List.mem_map_of_mem ht))
  cases halike with
  | succeeds h _ _ _ => exact Or.inl ⟨_, _, h⟩
  | rejects h _ hdiag =>
      refine Or.inr ⟨_, h, ?_⟩
      rcases hdiag.loc with ⟨hnone, _, hmsg⟩ | ⟨s, s', hloc, _, _, hs⟩
      · exact Or.inl ⟨hnone, hmsg⟩
      · exact Or.inr ⟨s, hs, hloc⟩

theorem Rejects.not_accepted {r : Run Parser Event (List Node)} {d : Diagnostic}
    (h : Rejects r d) :
    ¬ ∃ globals p, r.outcome = .done globals p ∧ p.ctx.hadError = false := by
  rintro ⟨globals, p, hout, herror⟩
  obtain ⟨q, hq, hctx⟩ := h.ends
  rw [hout] at hq
  cases hq
  rw [hctx] at herror
  cases herror

/-- Where two parses end alike, the verdicts agree. -/
theorem Alike.verdict {k : Likeness} {r r' : Run Parser Event (List Node)}
    (h : Alike k r r') :
    (∃ globals p, r.outcome = .done globals p ∧ p.ctx.hadError = false) ↔
      ∃ globals p, r'.outcome = .done globals p ∧ p.ctx.hadError = false := by
  cases h with
  | succeeds h h' _ _ =>
      refine ⟨fun _ => ⟨_, _, h'.outcome, ?_⟩, fun _ => ⟨_, _, h.outcome, ?_⟩⟩
      · rw [h'.ctx]
        rfl
      · rw [h.ctx]
        rfl
  | rejects h h' _ => exact iff_of_false h.not_accepted h'.not_accepted

end Parser

end Cact
