import Cact.Lexer.Tiling
import Cact.Parser.FirstError

/-!
# Looking ahead

The parser takes its tokens from successive calls of {lit}`lexer_next`, one at a time, and
nothing that it has not read yet has a part in what it does.  So the first error of a file
is there as soon as its token is read, and no text behind that token can mend it.

Main results:

- Definition {lit}`TokenStream.token`: a file as an infinite sequence of tokens.
- Theorem {lit}`tokens_pulled`: how the parser calls the lexer.
- Theorem {lit}`first_error_online`: the first error depends on the tokens read so far.
- Theorem {lit}`syntax_error_final`: no file of the language begins with these tokens, unless
  the error is a semantic one.
-/

open Traced

namespace Cact

/-! ## Sequences of tokens -/

namespace TokenStream

variable (ts : TokenStream)

/-- What is left behind a number of tokens. -/
def drop (n : Nat) : TokenStream := ⟨ts.tokens.drop n, ts.endSpan⟩

/-- The token with a number, the first one being number zero.  Behind the others end-of-file
is found again and again. -/
def token (n : Nat) : Token := (ts.tokens[n]?).elim (Token.eof ts.endSpan) Subtype.val

/-- Dropping twice is dropping the sum. -/
theorem drop_drop (n m : Nat) : (ts.drop n).drop m = ts.drop (n + m) := by
  simp [drop, List.drop_drop]

/-- The tokens behind the first ones are the later tokens. -/
theorem token_drop (n m : Nat) : (ts.drop n).token m = ts.token (n + m) := by
  simp [drop, token]

/-- Behind the last token the lexer returns the end of the file. -/
theorem token_of_le {n : Nat} (h : ts.tokens.length ≤ n) : ts.token n = Token.eof ts.endSpan := by
  simp [token, List.getElem?_eq_none h]

/-- Behind the first token the stream is the rest. -/
theorem token_cons (t : { t : Token // t.kind ≠ .eof }) (us : Tokens) (e : Span) (n : Nat) :
    (⟨t :: us, e⟩ : TokenStream).token (n + 1) = (⟨us, e⟩ : TokenStream).token n := by
  simp [token]

/-- The end of the file is what comes behind the last token and nothing else. -/
theorem token_eof_iff (n : Nat) : (ts.token n).kind = .eof ↔ ts.tokens.length ≤ n := by
  rw [← List.getElem?_eq_none_iff, token]
  cases ts.tokens[n]? with
  | none => simp [Token.eof]
  | some t => simpa using t.property

variable {ts}

/-- Two streams with the same token at a place have the same entry in their lists there. -/
theorem getElem?_of_token {ts' : TokenStream} {n : Nat} (h : ts'.token n = ts.token n) :
    ts'.tokens[n]? = ts.tokens[n]? := by
  have hkind : (ts'.token n).kind = .eof ↔ (ts.token n).kind = .eof := by rw [h]
  rw [token_eof_iff, token_eof_iff, ← List.getElem?_eq_none_iff,
    ← List.getElem?_eq_none_iff] at hkind
  unfold token at h
  cases hts : ts.tokens[n]? with
  | none => exact hkind.mpr hts
  | some t =>
      cases hts' : ts'.tokens[n]? with
      | none => exact absurd (hkind.mp hts') (by simp [hts])
      | some t' =>
          rw [hts, hts'] at h
          exact congrArg some (Subtype.ext h)

/-- Files with the same tokens up to a number below their lengths. -/
theorem take_of_token {ts' : TokenStream} {n : Nat} (h : ∀ i < n, ts'.token i = ts.token i) :
    ts'.tokens.take n = ts.tokens.take n := by
  refine List.ext_getElem? fun i => ?_
  rw [List.getElem?_take, List.getElem?_take]
  split
  · exact getElem?_of_token (h i ‹_›)
  · rfl

/-- Files with the same tokens, end-of-file included. -/
theorem eq_of_token {ts' : TokenStream} {n : Nat} (hn : ts.tokens.length < n)
    (h : ∀ i < n, ts'.token i = ts.token i) : ts' = ts := by
  have heof : (ts'.token ts.tokens.length).kind = .eof := by
    rw [h _ hn, token_eof_iff]
  have hlength : ts'.tokens.length ≤ ts.tokens.length := (ts'.token_eof_iff _).mp heof
  have htokens : ts'.tokens = ts.tokens := by
    have htake := take_of_token h
    rwa [List.take_of_length_le (hlength.trans hn.le), List.take_of_length_le hn.le] at htake
  have hspan : ts'.endSpan = ts.endSpan := by
    have hlast := h _ hn
    rw [token_of_le ts' hlength, token_of_le ts (le_refl _)] at hlast
    exact congrArg Token.span hlast
  cases ts
  cases ts'
  simp_all

end TokenStream

namespace Lexer

/-- At the end of the file the lexer does not move any more. -/
theorem lexerNext_again {f : Fluf} {l : Lexer} (h : (lexerNext f l).1.kind = .eof) :
    lexerNext f (lexerNext f l).2 = lexerNext f l := by
  have hstate := (lexerNext_eof h).1
  have hskip : l.skipWhitespace.skipWhitespace = l.skipWhitespace := by
    have hpeek : l.skipWhitespace.peek = 0 := by
      have hend := (lexerNext_eof_iff f l).mp h
      rw [← (reaches_skipWhitespace l).content] at hend
      simp [peek, hend]
    refine skipWhitespace_stop ?_ fun hslash => ?_
    · rw [hpeek]
      decide
    · rw [hpeek] at hslash
      exact absurd hslash (by decide)
  rw [hstate]
  exact lexerNext_congr f hskip

/-- A call that returns the end of the file returns it ever after. -/
theorem token_of_eof {f : Fluf} {l : Lexer} (h : (lexerNext f l).1.kind = .eof) (n : Nat) :
    token f n l = Token.eof (lexerNext f l).1.span := by
  induction n generalizing l with
  | zero =>
      rw [token, afterCalls, (lexerNext_eof h).2]
      rfl
  | succ n ih =>
      have hagain := lexerNext_again h
      have hnext : token f n (lexerNext f l).2 = Token.eof (lexerNext f (lexerNext f l).2).1.span :=
        ih (by rw [hagain, h])
      rw [hagain] at hnext
      exact hnext

/-- The tokens of a file are those that the calls of the lexer return. -/
theorem token_lexTokens {f : Fluf} (hf : f.Standard) (l : Lexer) (n : Nat) :
    (lexTokens f l).token n = token f n l := by
  induction n generalizing l with
  | zero =>
      rw [lexTokens_eq hf]
      split <;> rename_i h
      · rw [token_of_eof h, TokenStream.token_of_le _ (Nat.zero_le _)]
      · simp only [TokenStream.token, List.getElem?_cons_zero, Option.elim_some, token, afterCalls]
  | succ n ih =>
      have hnext : token f (n + 1) l = token f n (lexerNext f l).2 := by
        simp only [token, afterCalls]
      rw [lexTokens_eq hf]
      split <;> rename_i h
      · rw [token_of_eof h, TokenStream.token_of_le _ (Nat.zero_le _)]
      · rw [hnext, ← ih, TokenStream.token_cons]

end Lexer

namespace Parser

/-! ## Calls of the lexer -/

/-- How often a list of steps calls {lit}`lexer_next`. -/
def calls (sts : List (Step Parser Event)) : Nat := sts.countP fun st => st.label.reads

/-- The tokens in front of the parser, and the current one. -/
def facing (p : Parser) : TokenStream × Token := (⟨p.rest, p.endSpan⟩, p.curr)

/-- A call of {lit}`lexer_next` takes one token. -/
def pull (a : TokenStream × Token) (st : Step Parser Event) : TokenStream × Token :=
  if st.label.reads then (a.1.drop 1, a.1.token 0) else a

/-- The loop of {lit}`advance` takes the tokens it is given. -/
theorem follows_advanceLoop {ts : Tokens} {p : Parser} (hrest : p.rest = ts) :
    ((advanceLoop ts).run p).Follows facing pull p := by
  have hstep {l : Event} {f : Parser → Parser} {q : Parser} (hl : l.reads = true)
      (hf : facing (f q) = ((facing q).1.drop 1, (facing q).1.token 0)) :
      ((Prog.step l f : Parse Unit).run q).Follows facing pull q := by
    have hpull : facing (f q) = pull (facing q) ⟨l, q, f q⟩ := by rw [hf, pull, if_pos hl]
    refine ⟨⟨rfl, hpull, trivial⟩, fun q' hq' => ?_⟩
    cases hq'
    exact hpull
  induction ts generalizing p with
  | nil =>
      refine hstep rfl ?_
      simp [facing, take, TokenStream.drop, TokenStream.token, hrest]
  | cons t ts ih =>
      rw [advanceLoop]
      split
      · refine Run.Follows.bind (hstep rfl ?_) ?_
        · simp [facing, takeError, TokenStream.drop, TokenStream.token, hrest]
        · intro _ q hq
          cases hq
          exact ih rfl
      · refine hstep rfl ?_
        simp [facing, take, TokenStream.drop, TokenStream.token, hrest]

/-- Every piece of the parser takes its tokens from the lexer one at a time. -/
theorem whole_pull : Whole fun {_} m _ => Follows facing pull m := by
  refine whole_of_unread (G := Follows facing pull) follows_congruence ?_ fun h => ?_
  · intro p
    unfold advance
    refine Run.Follows.bind (follows_step (fun _ => rfl) p) ?_
    intro _ q hq
    cases hq
    exact follows_advanceLoop rfl
  · refine follows_step fun p => ?_
    rw [pull, if_neg (by simp [h.reads])]
    simp [facing, h.rest, h.endSpan, h.curr]

/-- What lies ahead behind some steps. -/
theorem foldl_pull (sts : List (Step Parser Event)) (a : TokenStream × Token) :
    (sts.foldl pull a).1 = a.1.drop (calls sts) := by
  induction sts generalizing a with
  | nil => rfl
  | cons st sts ih =>
      rw [List.foldl_cons, ih, calls, calls, List.countP_cons, pull]
      by_cases hreads : st.label.reads = true
      · rw [if_pos hreads, if_pos hreads, TokenStream.drop_drop, Nat.add_comm]
      · rw [if_neg hreads, if_neg hreads, Nat.add_zero]

/-- The current token behind some steps is the last one read. -/
theorem foldl_pull_curr {sts : List (Step Parser Event)} (a : TokenStream × Token)
    (h : calls sts ≠ 0) : (sts.foldl pull a).2 = a.1.token (calls sts - 1) := by
  induction sts using List.reverseRecOn with
  | nil => exact absurd rfl h
  | append_singleton sts st ih =>
      have hcalls : calls (sts ++ [st]) = calls sts + if st.label.reads then 1 else 0 := by
        simp [calls, List.countP_append, List.countP_cons]
      rw [List.foldl_append, List.foldl_cons, List.foldl_nil, pull]
      by_cases hreads : st.label.reads = true
      · rw [if_pos hreads, hcalls, if_pos hreads, foldl_pull, TokenStream.token_drop]
        rfl
      · rw [hcalls, if_neg hreads, Nat.add_zero] at h
        rw [if_neg hreads, hcalls, if_neg hreads]
        exact ih h

section

variable {intern : List UInt8 → Symbol} {mem : Memory} {ts : TokenStream}

/-- Along a whole parse the tokens and the current one change by the calls of {lit}`lexer_next`
only. -/
theorem follows_parserRun :
    (parserRun intern mem ts).Follows facing pull (start mem Context.init ts) :=
  whole_pull.parserProgram intern (le_refl _) _

variable {pre post : List (Step Parser Event)} {st : Step Parser Event}
  (hsteps : (parserRun intern mem ts).steps = pre ++ st :: post)

include hsteps

/-- What lies ahead of a step. -/
theorem rest_before : st.before.rest = ts.tokens.drop (calls pre) := by
  have hwatched := (@follows_parserRun intern mem ts).steps
  rw [hsteps] at hwatched
  have hview := congrArg Prod.fst hwatched.view_before
  rw [foldl_pull] at hview
  exact congrArg TokenStream.tokens hview

/-- A call of the lexer makes the next token the current one, and nothing else does. -/
theorem curr_after : st.after.curr =
    if st.label.reads = true then ts.token (calls pre) else st.before.curr := by
  have hwatched := (@follows_parserRun intern mem ts).steps
  rw [hsteps] at hwatched
  have hview := congrArg Prod.snd hwatched.view_after
  rw [← hwatched.view_before, pull] at hview
  split <;> rename_i hreads
  · rw [if_pos hreads, hwatched.view_before, foldl_pull, TokenStream.token_drop] at hview
    exact hview
  · rw [if_neg hreads] at hview
    exact hview

end

/-- The steps that call the lexer are named after the token it returns. -/
def NamesToken (st : Step Parser Event) : Prop :=
  st.label.reads = true →
    st.label = if st.after.curr.kind = .error then .lexError st.after.curr else .next

/-- The label of every call of {lit}`lexer_next` tells whether the token pulled is an error. -/
theorem whole_namesToken : Whole fun {_} m _ => Keeps (fun _ => True) NamesToken m := by
  refine whole_of_unread (G := Keeps (fun _ => True) NamesToken) keeps_congruence ?_ fun h => ?_
  · intro p _
    refine Prog.meets_bind (R := fun _ _ => True) ?_ fun _ q _ => ?_
    · exact Prog.meets_step nofun trivial
    rw [Prog.run_read_bind]
    generalize q.rest = ts
    induction ts generalizing q with
    | nil => exact Prog.meets_step (fun _ => rfl) trivial
    | cons t ts ih =>
        rw [advanceLoop]
        split <;> rename_i hkind
        · refine Prog.meets_bind (R := fun _ _ => True) ?_ fun _ q _ => ih q
          exact Prog.meets_step (fun _ => (if_pos hkind).symm) trivial
        · exact Prog.meets_step (fun _ => (if_neg hkind).symm) trivial
  · intro p _
    refine Prog.meets_step (fun hreads => ?_) trivial
    rw [h.reads] at hreads
    cases hreads

/-- The first thing a parse does is to call the lexer. -/
theorem calls_ne_zero (intern : List UInt8 → Symbol) (n : Nat) (s : Parser) :
    calls ((parserProgram intern n).run s).steps ≠ 0 := by
  obtain ⟨more, hmore⟩ := Prog.exists_steps_bind advance (fun _ => parserParse intern n) s
  obtain ⟨st, sts, hloop, _, hreads⟩ := advanceLoop_reads s.rest { s with prev := s.curr }
  have hadvance : (advance.run s).steps =
      ⟨.advance, s, { s with prev := s.curr }⟩ :: st :: sts := by
    unfold advance
    rw [Prog.bind_done (by rfl), Prog.run_read_bind, hloop]
    rfl
  have hsteps : ((parserProgram intern n).run s).steps =
      ⟨.advance, s, { s with prev := s.curr }⟩ :: st :: (sts ++ more) := by
    rw [parserProgram, hmore, hadvance]
    rfl
  rw [hsteps, calls, List.countP_cons, List.countP_cons, if_pos hreads]
  omega

end Parser

open Cact.Parser

/-- The parser calls the lexer on demand.  Each call makes the next token of the file the
current one, and is reported if this is an error token; nothing else changes the current
token.  A parse that returns has read the tokens of the file to the end, each of them once. -/
theorem tokens_pulled (f : Fluf) (hf : f.Standard) (mem : Memory) (baseOffset : Nat)
    (content : List UInt8) :
    let l := Lexer.init baseOffset content
    let r := compileRun f mem baseOffset content
    (∀ pre st post, r.steps = pre ++ st :: post → st.label.reads = true →
      st.after.curr = Lexer.token f (calls pre) l ∧
        st.label = if st.after.curr.kind = .error then .lexError st.after.curr else .next) ∧
    (∀ st ∈ r.steps, st.label.reads = false → st.after.curr = st.before.curr) ∧
    ∀ globals p, r.outcome = .done globals p → (Lexer.lexTokens f l).tokens.length < calls r.steps := by
  intro l r
  have hnames {st : Step Parser Event} (hst : st ∈ r.steps) : NamesToken st :=
    (whole_namesToken.parserProgram f.intern (le_refl _)).emits trivial hst
  refine ⟨fun pre st post hsteps hreads => ⟨?_, ?_⟩, fun st hst hreads => ?_, ?_⟩
  · rw [← Lexer.token_lexTokens hf, curr_after hsteps, if_pos hreads]
  · exact hnames (by simp [hsteps]) hreads
  · obtain ⟨pre, post, hsteps⟩ := List.append_of_mem hst
    rw [curr_after hsteps, if_neg (by simp [hreads])]
  · intro globals p hout
    have hcurr : p.curr.kind = .eof := (parserProgram_reads_all hout).2
    have hfollows : r.Follows facing pull (start mem Context.init (Lexer.lexTokens f l)) :=
      follows_parserRun
    have hsome : calls r.steps ≠ 0 := calls_ne_zero _ _ _
    have hlast : p.curr = (Lexer.lexTokens f l).token (calls r.steps - 1) :=
      (congrArg Prod.snd (hfollows.ends p (by rw [hout]; rfl))).trans (foldl_pull_curr _ hsome)
    rw [hlast, TokenStream.token_eof_iff] at hcurr
    omega

/-- In {lit}`int x;` the lexer is called for three tokens and for the end of the file. -/
theorem tokens_pulled_declaration :
    3 < calls (compileRun Fluf.ascii Grammar.zeroed 0 ("int x;".toList.map byte)).steps := by
  have haccepts : Accepts Fluf.ascii.intern Grammar.zeroed
      (Lexer.lexTokens Fluf.ascii (Lexer.init 0 ("int x;".toList.map byte))) := by
    decide +kernel
  obtain ⟨globals, p, hout, _⟩ := haccepts
  have hlength : (Lexer.lexTokens Fluf.ascii
      (Lexer.init 0 ("int x;".toList.map byte))).tokens.length = 3 := by
    decide +kernel
  have hcalls := (tokens_pulled Fluf.ascii Fluf.ascii_standard Grammar.zeroed 0
    ("int x;".toList.map byte)).2.2 globals p hout
  rwa [hlength] at hcalls

namespace Parser

/-! ## The place of the first error -/

/-- The parse finds its first error, {lit}`d`, when it has called the lexer {lit}`n` times. -/
structure RejectsAfter (r : Run Parser Event (List Node)) (n : Nat) (d : Diagnostic) : Prop where
  place : ∃ pre st post, r.steps = pre ++ st :: post ∧ (∀ st ∈ pre, st.label.message = none) ∧
    st.label.message = some d.msg ∧ st.after.ctx = ⟨true, true, [d]⟩ ∧ calls (pre ++ [st]) = n
  rejects : Rejects r d

section

variable {intern : List UInt8 → Symbol} {mem : Memory} {ts ts' : TokenStream}

/-- Two parses that fail together at corresponding steps. -/
theorem rejectsAfter_of_steps {pre post : List (Step Parser Event)} {st : Step Parser Event}
    {d : Diagnostic} (hsteps : (parserRun intern mem ts).steps = pre ++ st :: post)
    (hpre : ∀ st ∈ pre, st.label.message = none) (hmessage : st.label.message = some d.msg)
    (hctx : st.after.ctx = ⟨true, true, [d]⟩) :
    RejectsAfter (parserRun intern mem ts) (calls (pre ++ [st])) d :=
  ⟨⟨pre, st, post, hsteps, hpre, hmessage, hctx, rfl⟩,
    rejects_of_steps hsteps hpre hmessage hctx⟩

/-- The number of calls up to the first report can be counted. -/
theorem RejectsAfter.calls_eq {r : Run Parser Event (List Node)} {n : Nat} {d : Diagnostic}
    (h : RejectsAfter r n d) :
    n = calls (r.steps.take (r.steps.findIdx (fun st => st.label.message.isSome) + 1)) := by
  obtain ⟨pre, st, post, hsteps, hpre, hmessage, _, rfl⟩ := h.place
  have hnone : ¬ ∃ st ∈ pre, st.label.message.isSome = true := by
    rintro ⟨st', hst', hsome⟩
    rw [hpre st' hst'] at hsome
    cases hsome
  have hfirst : r.steps.findIdx (fun st => st.label.message.isSome) = pre.length := by
    rw [hsteps, List.findIdx_append, if_neg (by simpa using hnone), List.findIdx_cons, hmessage]
    exact Nat.zero_add _
  have hlength : (pre ++ [st]).length = pre.length + 1 := List.length_append
  have hsplit : r.steps = (pre ++ [st]) ++ post := by
    rw [hsteps, List.append_assoc, List.singleton_append]
  rw [hfirst, hsplit, List.take_left' hlength]

/-- A run has one first error. -/
theorem Rejects.unique {r : Run Parser Event (List Node)} {d d' : Diagnostic} (h : Rejects r d)
    (h' : Rejects r d') : d = d' := by
  obtain ⟨p, hp, hctx⟩ := h.ends
  obtain ⟨p', hp', hctx'⟩ := h'.ends
  rw [hp] at hp'
  cases hp'
  rw [hctx] at hctx'
  simpa using hctx'

/-! ## Files that begin alike -/

/-- Files that are the same until the tokens {lit}`us` are all that is left. -/
def upTo (us : Tokens) : Likeness where
  name := id
  injective := Function.injective_id
  span s s' := s' = s
  beyond ts _ := ts = us

/-- Two streams that agree on their first tokens correspond up to there. -/
theorem toks_upTo {e e' : Span} {n : Nat} {us us' : Tokens} (hn : n ≤ us.length)
    (h : us'.take n = us.take n) : (upTo (us.drop n)).Toks e e' us us' := by
  generalize hleft : us.drop n = left
  induction n generalizing us us' with
  | zero => exact .beyond hleft
  | succ n ih =>
      cases us with
      | nil => simp at hn
      | cons t us =>
          cases us' with
          | nil => simp at h
          | cons t' us' =>
              obtain ⟨rfl, htake⟩ := List.cons.inj h
              refine .cons ⟨rfl, rfl, fun _ => rfl, fun _ => rfl, fun _ => rfl, fun _ => rfl,
                fun _ => rfl⟩ (ih ?_ htake hleft)
              simpa using hn

/-- Corresponding diagnostics are equal. -/
theorem diag_upTo {us : Tokens} {d d' : Diagnostic} (h : (upTo us).Diag d d') :
    d' = d := by
  have hloc : d'.loc = d.loc := by
    rcases h.loc with ⟨hnone, hnone', _⟩ | ⟨s, s', hs, hs', rfl⟩
    · rw [hnone, hnone']
    · rw [hs, hs']
  cases d
  cases d'
  cases hloc
  cases h.msg
  rfl

/-- Corresponding steps pull equally often. -/
theorem calls_of_go {us : Tokens} {sts sts' : List (Step Parser Event)}
    (h : List.Forall₂ (upTo us).comparison.go sts sts') : calls sts' = calls sts := by
  induction h with
  | nil => rfl
  | cons hgo _ ih =>
      rw [calls, calls, List.countP_cons, List.countP_cons, hgo.2, Event.reads_rename]
      exact congrArg (· + _) ih

/-- The calls of two parts of a run add up. -/
theorem calls_append (pre post : List (Step Parser Event)) :
    calls (pre ++ post) = calls pre + calls post := List.countP_append

/-- Parses of files that begin alike are in lockstep as long as they read what the files have
in common. -/
theorem lockstep_upTo {n : Nat} (hn : n ≤ ts.tokens.length)
    (hsame : ∀ i < n, ts'.token i = ts.token i) :
    (parserRun intern mem ts).Lockstep (upTo (ts.tokens.drop n)).comparison
      (fun _ p _ p' => (upTo (ts.tokens.drop n)).Facing p p') (parserRun intern mem ts') := by
  -- Both parses are run within the same budget.
  have hrun (us : TokenStream) {N : Nat} (hN : budget us.tokens.length ≤ N) :
      (parserProgram intern N).run (start mem Context.init us) = parserRun intern mem us :=
    settles_parserProgram intern hN _ (parserRun_ne_timeout intern mem us)
  rw [← hrun ts (le_max_left _ (budget ts'.tokens.length)),
    ← hrun ts' (le_max_right (budget ts.tokens.length) _)]
  refine (lockstep_parserProgram (fun _ _ => rfl) _ ?_ ?_).mono fun _ _ _ _ h => h.2
  · exact fun i => (Node.map_rename_id (mem.field i)).symm
  · exact toks_upTo hn (TokenStream.take_of_token hsame)

/-- The first error depends on the tokens read so far. -/
theorem RejectsAfter.of_agree {n : Nat} {d : Diagnostic}
    (h : RejectsAfter (parserRun intern mem ts) n d)
    (hsame : ∀ i < n, ts'.token i = ts.token i) :
    RejectsAfter (parserRun intern mem ts') n d := by
  by_cases hn : ts.tokens.length < n
  · rwa [TokenStream.eq_of_token hn hsame]
  have hle : n ≤ ts.tokens.length := by omega
  obtain ⟨pre, st, post, hsteps, hpre, hmessage, hctx, hcalls⟩ := h.place
  have hloud : st.label.message ≠ none := by simp [hmessage]
  rcases @lockstep_upTo intern mem _ _ _ hle hsame with hparted | ⟨hgo, _⟩
  · obtain ⟨pre₁, st₁, post₁, pre', st', post', hsteps₁, hsteps', hpre₁, hstop⟩ := hparted.split
    have hsplit : pre ++ st :: post = pre₁ ++ st₁ :: post₁ := hsteps.symm.trans hsteps₁
    have hfirst : pre₁ ++ [st₁] <+: pre ++ [st] :=
      prefix_of_first hsplit hloud fun x hx => not_not.mpr ((quiet_of_go hpre₁).1 x hx)
    rcases hstop with ⟨d₁, d', hfails⟩ | ⟨hreads, _, hbeyond⟩
    · -- The parses fail together.
      have hrejects := rejectsAfter_of_steps hsteps₁ (quiet_of_go hpre₁).1 hfails.message hfails.ctx
      obtain rfl : d₁ = d := hrejects.rejects.unique h.rejects
      obtain rfl : d' = d₁ := diag_upTo hfails.diag
      have hrejects' :=
        rejectsAfter_of_steps hsteps' (quiet_of_go hpre₁).2 hfails.message' hfails.ctx'
      have hback : pre ++ [st] <+: pre₁ ++ [st₁] :=
        prefix_of_first hsplit.symm (by simp [hfails.message]) fun x hx =>
          not_not.mpr (hpre x hx)
      have hsame₁ : calls (pre₁ ++ [st₁]) = n := by
        rw [← hcalls, hfirst.eq_of_length (hfirst.length_le.antisymm hback.length_le)]
      have hlast : calls [st'] = calls [st₁] := by
        simp [calls, List.countP_cons, hfails.reads]
      rw [calls_append] at hsame₁
      rwa [calls_append, calls_of_go hpre₁, hlast, hsame₁] at hrejects'
    · -- The first parse has read more than the files have in common before it fails.
      have hrest : ts.tokens.drop (calls pre₁) = ts.tokens.drop n :=
        (rest_before hsteps₁).symm.trans hbeyond
      have hlength := congrArg List.length hrest
      rw [List.length_drop, List.length_drop] at hlength
      have hcount : calls (pre₁ ++ [st₁]) ≤ n := hcalls ▸ hfirst.sublist.countP_le
      have hone : calls [st₁] = 1 := by simp [calls, hreads]
      rw [calls_append, hone] at hcount
      omega
  · exact absurd ((quiet_of_go hgo).1 st (by simp [hsteps])) hloud

/-- Every parse succeeds, or finds its first error somewhere. -/
theorem succeeds_or_rejectsAfter (intern : List UInt8 → Symbol) (mem : Memory)
    (ts : TokenStream) :
    (∃ globals p, Succeeds (parserRun intern mem ts) globals p) ∨
      ∃ n d, RejectsAfter (parserRun intern mem ts) n d := by
  rcases succeeds_or_rejects intern mem ts with hsucceeds | ⟨d, hrejects, _⟩
  · exact Or.inl hsucceeds
  · refine Or.inr ?_
    have hlockstep : (parserRun intern mem ts).Lockstep (within fun _ => True).comparison
        (fun _ p _ p' => (within fun _ => True).Facing p p') (parserRun intern mem ts) := by
      refine (lockstep_parserProgram (fun _ _ => rfl) _ ?_ ?_).mono fun _ _ _ _ h => h.2
      · exact fun i => (Node.map_rename_id (mem.field i)).symm
      · exact toks_within trivial fun _ _ => trivial
    rcases hlockstep with hparted | ⟨hgo, _⟩
    · obtain ⟨pre, st, post, _, _, _, hsteps, _, hpre, hstop⟩ := hparted.split
      rcases hstop with ⟨_, _, hfails⟩ | ⟨_, _, hfalse⟩
      · exact ⟨_, _, rejectsAfter_of_steps hsteps (quiet_of_go hpre).1 hfails.message hfails.ctx⟩
      · exact hfalse.elim
    · have hfirst := hrejects.first
      rw [filterMap_message (quiet_of_go hgo).1] at hfirst
      cases hfirst

/-- The first error in a text of the grammar is a semantic one. -/
theorem RejectsAfter.not_derives {n : Nat} {d : Diagnostic}
    (h : RejectsAfter (parserRun intern mem ts) n d) (hgrammar : d.msg.isSemantic = false) :
    ¬ Grammar.Derives (terminals ts.tokens) := by
  intro hderives
  obtain ⟨u, hu, hgreedy, htoks⟩ := Grammar.exists_greedy hderives
  obtain ⟨pre, st, post, hsteps, hpre, hmessage, hctx, _⟩ := h.place
  have hbuilds := builds_parserProgram (B := True) (n := budget ts.tokens.length) intern mem hu
    hgreedy htoks fun _ => trivial
  rcases hbuilds with ⟨st', hst', ⟨_, hquiet⟩, hsemantic⟩ | ⟨hnone, _⟩
  · -- A semantic error without an error before it is the first one.
    have hloud : ∃ m, st'.label.message = some m ∧ m.isSemantic = true := by
      cases hlabel : st'.label <;> simp_all [Event.isSemantic, Event.message]
    obtain ⟨m, hm, hmsemantic⟩ := hloud
    change st' ∈ (parserRun intern mem ts).steps at hst'
    rw [hsteps, List.mem_append, List.mem_cons] at hst'
    rcases hst' with hst' | rfl | hst'
    · rw [hpre st' hst'] at hm
      cases hm
    · rw [hmessage] at hm
      cases hm
      rw [hgrammar] at hmsemantic
      cases hmsemantic
    · obtain ⟨mid, post', rfl⟩ := List.append_of_mem hst'
      have hfollows : (parserRun intern mem ts).Follows Parser.ctx keepPanic
          (start mem Context.init ts) := whole_keepPanic.parserProgram intern (le_refl _) _
      have hwatched := hfollows.steps
      rw [hsteps] at hwatched
      have hbefore : st'.before.ctx = st.after.ctx :=
        hwatched.view_stays fun st₁ => by simp [keepPanic, hctx]
      rw [hbefore, hctx] at hquiet
      cases hquiet
  · have herror := hnone st (by
      change st ∈ (parserRun intern mem ts).steps
      simp [hsteps])
    cases hlabel : st.label <;> simp_all [Event.isError, Event.message, semanticOnly]

end

end Parser

/-- A syntax error is final.  If the first error of a file is not a semantic one, no file that
begins with the tokens read up to it belongs to the language. -/
theorem syntax_error_final (f : Fluf) (hf : f.Standard) (mem : Memory) (baseOffset : Nat)
    (content content' : List UInt8) (n : Nat) (d : Diagnostic)
    (h : RejectsAfter (compileRun f mem baseOffset content) n d)
    (hgrammar : d.msg.isSemantic = false)
    (hsame : ∀ i < n, Lexer.token f i (Lexer.init baseOffset content') =
      Lexer.token f i (Lexer.init baseOffset content)) :
    ¬ Grammar.Derives
      (terminals (Lexer.lexTokens f (Lexer.init baseOffset content')).tokens) := by
  refine (h.of_agree fun i hi => ?_).not_derives hgrammar
  rw [Lexer.token_lexTokens hf, Lexer.token_lexTokens hf]
  exact hsame i hi

/-- The error in {lit}`int ;` is found at its second token: {lit}`int ; int x;` is not in the
language. -/
theorem syntax_error_final_unnamed :
    ¬ Grammar.Derives (terminals
      (Lexer.lexTokens Fluf.ascii (Lexer.init 0 ("int ; int x;".toList.map byte))).tokens) := by
  have hdiags : (compileRun Fluf.ascii Grammar.zeroed 0
      ("int ;".toList.map byte)).outcome.state.map (fun p => p.ctx.diags.map Diagnostic.msg) =
        some [.expectName] := by
    decide +kernel
  rcases succeeds_or_rejectsAfter Fluf.ascii.intern Grammar.zeroed
    (Lexer.lexTokens Fluf.ascii (Lexer.init 0 ("int ;".toList.map byte)))
    with ⟨globals, p, hp⟩ | ⟨n, d, hd⟩
  · have hout : (compileRun Fluf.ascii Grammar.zeroed 0 ("int ;".toList.map byte)).outcome =
        .done globals p := hp.outcome
    rw [hout] at hdiags
    simp [Outcome.state, hp.ctx, Context.init] at hdiags
  · obtain ⟨p, hp, hctx⟩ := hd.rejects.ends
    have hout : (compileRun Fluf.ascii Grammar.zeroed 0
        ("int ;".toList.map byte)).outcome.state = some p := hp
    have hmsg : d.msg = .expectName := by
      rw [hout] at hdiags
      simpa [hctx] using hdiags
    obtain rfl : n = 2 := hd.calls_eq.trans (by decide +kernel)
    have hsame : ∀ i < 2, Lexer.token Fluf.ascii i (Lexer.init 0 ("int ; int x;".toList.map byte)) =
        Lexer.token Fluf.ascii i (Lexer.init 0 ("int ;".toList.map byte)) := by
      decide +kernel
    exact syntax_error_final Fluf.ascii Fluf.ascii_standard Grammar.zeroed 0
      ("int ;".toList.map byte) ("int ; int x;".toList.map byte) 2 d hd (by rw [hmsg]; rfl) hsame

end Cact
