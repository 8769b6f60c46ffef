import Cact.Parser.EndOfFile
import Mathlib.Data.Nat.Basic
import Mathlib.Order.Basic

/-!
# Consuming tokens

The measure that makes the parser terminate is the number of tokens still to be
consumed; for calls that have consumed nothing the functions are ranked.  A call
*descends* if all calls inside it come with fewer tokens, or with as many and a smaller
rank.

Main results:

- Definition {lit}`Parser.descends`: the contract of a descending run.
- Theorem {lit}`Parser.meets_call`: calls inside calls.
- Theorem {lit}`Parser.meets_iterate`: loops whose iterations consume a token when they
  go round again.
-/

open Traced

namespace Cact

/-- The order of the parsing functions in calls that have consumed nothing. -/
def Fn.rank : Fn → Nat
  | .primary | .arrayDims => 1
  | .unary => 2
  | .binary _ => 3
  | .assign | .expr => 4
  | .initializerList | .block => 5
  | .varDeclList | .stmt => 6
  | .decl | .param => 7
  | .func => 8
  | .topLevel => 9

/-- Every function has a rank above that of the tokens. -/
theorem Fn.rank_pos (f : Fn) : 0 < f.rank := by
  cases f <;> simp [Fn.rank]

/-- There are nine ranks. -/
theorem Fn.rank_le (f : Fn) : f.rank ≤ 9 := by
  cases f <;> simp [Fn.rank]

namespace Parser

/-- The number of tokens still to be consumed, the current one included. -/
def remaining (p : Parser) : Nat :=
  p.rest.length + if p.curr.kind = .eof then 0 else 1

/-- Where a parsing function is called: blocks and brace lists at their opening brace,
functions at their opening parenthesis, operators with a precedence that is not
negative. -/
def Ready (f : Fn) (p : Parser) : Prop :=
  AtEnd p ∧
    match f with
    | .block | .initializerList => p.curr.kind = .lBrace
    | .func => p.curr.kind = .lParen
    | .binary prec => 0 ≤ prec
    | _ => True

/-- Every call has fewer tokens left than {lit}`p`, or as many and a rank below
{lit}`r`. -/
def Descends (p : Parser) (r : Nat) (st : Step Parser Event) : Prop :=
  ∀ f, st.label = .enter f → Ready f st.before ∧
    (st.before.remaining < p.remaining ∨
      st.before.remaining = p.remaining ∧ f.rank < r)

/-- The contract of a descending run: a budget is used up only if it was too small. -/
def descends (p : Parser) (r n : Nat) : Contract Parser Event :=
  ⟨fun _ => False, Descends p r, fun _ => True, n < 10 * p.remaining + r⟩

/-- The state after a piece of the parser that may consume tokens. -/
def Later (p p' : Parser) : Prop := AtEnd p' ∧ p'.remaining ≤ p.remaining

/-- The state after an iteration, which consumes a token if it goes round again. -/
def Consumed {β γ : Type} (p : Parser) (i : Iter β γ) (p' : Parser) : Prop :=
  AtEnd p' ∧
    match i with
    | .again _ => p'.remaining < p.remaining
    | .leave _ => p'.remaining ≤ p.remaining

/-- The calls inside a run that starts with the call of {lit}`f` itself. -/
def Run.Nested (f : Fn) (p : Parser) {α : Type} (r : Run Parser Event α) : Prop :=
  (∀ st, r.steps.head? = some st → st = ⟨.enter f, p, p⟩) ∧
    ∀ st ∈ r.steps.tail, Descends p f.rank st

/-- A call of {lit}`f` with budget {lit}`n`: it descends, and consumes a token if the
current one is among {lit}`starts`. -/
structure Calls (f : Fn) (n : Nat) (starts : TokenKind → Bool) {α : Type} (m : Parse α) :
    Prop where
  meets : ∀ p, Ready f p → (m.run p).Meets (descends p (f.rank + 1) n) fun _ p' =>
    Later p p' ∧ (starts p.curr.kind = true → p'.remaining < p.remaining)
  nested : ∀ p, Ready f p → Run.Nested f p (m.run p)

/-! ## Rules -/

section Rules

variable {α β γ : Type} {p q : Parser} {r n : Nat} {Q : α → Parser → Prop}

/-- Nothing is taken, nothing is lost. -/
theorem Later.refl (hq : AtEnd q) : Later q q := ⟨hq, le_rfl⟩

/-- What is later than the later is later. -/
theorem Later.trans {q₁ q₂ q₃ : Parser} (h : Later q₁ q₂) (h' : Later q₂ q₃) :
    Later q₁ q₃ :=
  ⟨h'.1, h'.2.trans h.2⟩

/-- A step that enters no function descends. -/
theorem descends_of_not_enter {st : Step Parser Event} (h : ∀ f, st.label ≠ .enter f) :
    Descends p r st :=
  fun f hf => absurd hf (h f)

/-- A call inside another: with fewer tokens, or with a smaller rank. -/
theorem meets_call {f : Fn} {m : Parse α}
    (hlex : q.remaining < p.remaining ∨ q.remaining = p.remaining ∧ f.rank < r)
    (h : (m.run q).Meets (descends q (f.rank + 1) n) Q) :
    (m.run q).Meets (descends p r n) Q := by
  refine h.weaken (fun _ => id) ?_ (fun _ => id) ?_
  · intro st hst g hg
    rcases hst g hg with ⟨hready, hrem | ⟨hrem, hrank⟩⟩
    · exact ⟨hready, by omega⟩
    · exact ⟨hready, by omega⟩
  · intro (htimeout : n < 10 * q.remaining + (f.rank + 1))
    show n < 10 * p.remaining + r
    have := f.rank_le
    omega

/-- The mark with which every parsing function begins. -/
theorem meets_enter {f : Fn} {m : Parse α} (hready : Ready f p)
    (h : (m.run p).Meets (descends p f.rank n) Q) :
    ((do Prog.mark (Event.enter f); m).run p).Meets (descends p (f.rank + 1) (n + 1)) Q := by
  refine Prog.meets_bind (R := fun _ q => q = p) (Prog.meets_step ?_ rfl) ?_
  · intro g hg
    cases hg
    exact ⟨hready, Or.inr ⟨rfl, by omega⟩⟩
  · rintro _ _ rfl
    refine h.weaken (fun _ => id) ?_ (fun _ => id) ?_
    · intro st hst g hg
      rcases hst g hg with ⟨hg', hrem | ⟨hrem, hrank⟩⟩
      · exact ⟨hg', Or.inl hrem⟩
      · exact ⟨hg', Or.inr ⟨hrem, by omega⟩⟩
    · intro (htimeout : n < _)
      show n + 1 < _
      omega

/-- What a body meets below its own rank, the call of the function meets. -/
theorem calls_enter {f : Fn} {starts : TokenKind → Bool} {m : Parse α}
    (h : ∀ p, Ready f p → (m.run p).Meets (descends p f.rank n) fun _ p' =>
      Later p p' ∧ (starts p.curr.kind = true → p'.remaining < p.remaining)) :
    Calls f (n + 1) starts (do Prog.mark (Event.enter f); m) where
  meets p hp := meets_enter hp (h p hp)
  nested p hp := by
    have hsteps : ((do Prog.mark (Event.enter f); m).run p).steps =
        ⟨.enter f, p, p⟩ :: (m.run p).steps := by
      rw [Prog.bind_done (by rfl)]
      rfl
    constructor
    · intro st hst
      rw [hsteps] at hst
      exact (Option.some.inj hst).symm
    · intro st hst
      rw [hsteps] at hst
      exact (h p hp).emits (fun _ => id) hst

/-- A step that marks no call and leaves the tokens alone. -/
theorem meets_quiet {l : Event} {f : Parser → Parser} (hl : ∀ g, l ≠ .enter g)
    (hrest : (f q).rest = q.rest) (hcurr : (f q).curr = q.curr) (hq : AtEnd q) :
    ((Prog.step l f : Parse Unit).run q).Meets (descends p r n) fun _ q' => Later q q' := by
  refine Prog.meets_step (descends_of_not_enter hl) ⟨?_, ?_⟩
  · unfold AtEnd
    rw [hrest, hcurr]
    exact hq
  · unfold remaining
    rw [hrest, hcurr]

/-- The loop of {lit}`advance` leaves at most the tokens it is given. -/
theorem advanceLoop_later (ts : Tokens) (q : Parser) :
    ((advanceLoop ts).run q).Meets (descends p r n) fun _ q' =>
      AtEnd q' ∧ q'.remaining ≤ ts.length := by
  induction ts generalizing q with
  | nil =>
      apply Prog.meets_step (descends_of_not_enter (by simp))
      simp [AtEnd, remaining, take, Token.eof]
  | cons t ts ih =>
      have ht : t.val.kind ≠ .eof := t.property
      rw [advanceLoop]
      split
      · refine Prog.meets_bind (R := fun _ _ => True) ?_ fun _ q' _ => ?_
        · exact Prog.meets_step (descends_of_not_enter (by simp)) trivial
        · exact (ih q').mono fun _ _ h => ⟨h.1, by simp only [List.length_cons]; omega⟩
      · apply Prog.meets_step (descends_of_not_enter (by simp))
        simp [AtEnd, remaining, take, ht]

/-- {lit}`advance` consumes a token, unless there is none left. -/
theorem meets_advance (hq : AtEnd q) :
    (advance.run q).Meets (descends p r n) fun _ q' =>
      Later q q' ∧ (q.curr.kind ≠ .eof → q'.remaining < q.remaining) := by
  refine Prog.meets_bind (R := fun _ q' => q'.rest = q.rest) ?_ fun _ q₁ hq₁ => ?_
  · exact Prog.meets_step (descends_of_not_enter (by simp)) rfl
  rw [Prog.run_read_bind, hq₁]
  refine (advanceLoop_later q.rest q₁).mono fun _ q' hq' => ?_
  by_cases hkind : q.curr.kind = .eof
  · have hrest : q.rest = [] := hq hkind
    simp only [hrest, List.length_nil] at hq'
    exact ⟨⟨hq'.1, by omega⟩, fun h => absurd hkind h⟩
  · have hrem : q.remaining = q.rest.length + 1 := by simp [remaining, hkind]
    exact ⟨⟨hq'.1, by omega⟩, fun _ => by omega⟩

/-- Checking the current kind splits the run in two. -/
theorem meets_if_check {kind : TokenKind} {m m' : Parse α} {c : Contract Parser Event}
    (hyes : q.curr.kind = kind → (m.run q).Meets c Q)
    (hno : q.curr.kind ≠ kind → (m'.run q).Meets c Q) :
    ((do if ← checkKind kind then m else m').run q).Meets c Q := by
  unfold checkKind
  rw [Prog.run_read_bind]
  split <;> rename_i hkind
  · exact hyes (by simpa using hkind)
  · exact hno (by simpa using hkind)

/-- A test for a token that consumes it. -/
theorem meets_if_match {kind : TokenKind} {m m' : Parse α} (hkind : kind ≠ .eof)
    (hq : AtEnd q)
    (hyes : ∀ q', q.curr.kind = kind → AtEnd q' → q'.remaining < q.remaining →
      (m.run q').Meets (descends p r n) Q)
    (hno : q.curr.kind ≠ kind → (m'.run q).Meets (descends p r n) Q) :
    ((do if ← matchKind kind then m else m').run q).Meets (descends p r n) Q := by
  have hmatch : ((matchKind kind).run q).Meets (descends p r n) fun b q' =>
      (b = true ∧ q.curr.kind = kind ∧ AtEnd q' ∧ q'.remaining < q.remaining) ∨
      (b = false ∧ q.curr.kind ≠ kind ∧ q' = q) := by
    apply meets_if_check
    · intro hcurr
      refine Prog.meets_bind (meets_advance hq) fun _ q' hq' => Prog.meets_pure ?_
      exact Or.inl ⟨rfl, hcurr, hq'.1.1, hq'.2 (hcurr ▸ hkind)⟩
    · exact fun hcurr => Prog.meets_pure (Or.inr ⟨rfl, hcurr, rfl⟩)
  refine Prog.meets_bind hmatch fun b q' hb => ?_
  rcases hb with ⟨rfl, hcurr, hq', hrem⟩ | ⟨rfl, hcurr, rfl⟩
  · exact hyes q' hcurr hq' hrem
  · exact hno hcurr

/-- A report takes no token. -/
theorem meets_parserError (m : Msg) (hq : AtEnd q) :
    ((parserError m).run q).Meets (descends p r n) fun _ q' => Later q q' := by
  unfold parserError
  rw [Prog.run_read_bind]
  exact meets_quiet (by simp) (errorAt_rest _ _ _) (errorAt_curr _ _ _) hq

/-- Nor does {lit}`ctx_error`. -/
theorem meets_ctxError (tok : Option Token) (m : Msg) (hq : AtEnd q) :
    ((ctxError tok m).run q).Meets (descends p r n) fun _ q' => Later q q' :=
  meets_quiet (by simp) rfl rfl hq

/-- {lit}`consume` takes a token if the kind is the current one. -/
theorem meets_consume {kind : TokenKind} {m : Msg} (hkind : kind ≠ .eof) (hq : AtEnd q) :
    ((consume kind m).run q).Meets (descends p r n) fun _ q' =>
      Later q q' ∧ (q.curr.kind = kind → q'.remaining < q.remaining) := by
  apply meets_if_check
  · intro hcurr
    exact (meets_advance hq).mono fun _ q' hq' => ⟨hq'.1, fun _ => hq'.2 (hcurr ▸ hkind)⟩
  · intro hcurr
    exact (meets_parserError m hq).mono fun _ q' hq' => ⟨hq', fun h => absurd h hcurr⟩

/-- A loop whose iterations consume a token when they go round again. -/
theorem meets_iterate {body : β → Parse (Iter β γ)} (hr : 0 < r) (hq : AtEnd q)
    (hqp : q.remaining ≤ p.remaining)
    (hbody : ∀ b s, AtEnd s → s.remaining ≤ q.remaining →
      ((body b).run s).Meets (descends p r n) fun i s' => Consumed s i s') (b : β) :
    ((loop body n b).run q).Meets (descends p r n) fun _ q' => Later q q' := by
  refine meets_loop_variant (fun _ s => Later q s) remaining ?_ (Later.refl hq) ?_
  · intro b s hs
    refine (hbody b s hs.1 hs.2).mono fun i s' hi => ?_
    cases i with
    | again b' => exact ⟨⟨hi.1, by have := hi.2; have := hs.2; omega⟩, hi.2⟩
    | leave c => exact ⟨hi.1, by have := hi.2; have := hs.2; omega⟩
  · by_cases hn : q.remaining < n
    · exact Or.inl hn
    · exact Or.inr (show n < 10 * p.remaining + r by omega)

end Rules

end Parser

end Cact
