import Cact.Library.Blame
import Cact.Parser.Rules

/-!
# Missing operands and missing types

After an error the parser goes on with what it has, and that may be a null pointer: an
operand that is not there, the type of a parameter that has none.  The pointer is followed
where an operator is analysed, an array type is built or a symbol is called.  Whether this
happens can be told beforehand, from the tokens that come next and from the scopes.

Main results:

- Definition {lit}`Event.Provided`: what a step of the parser needs is there.
- Theorem {lit}`Parser.exact_parserProgram`: a parse faults only after a step whose needs
  are not met, and returns only if there was none.
- Theorem {lit}`returns_iff_provided`: which parses end with a result.
-/

open Traced

namespace Cact

/-! ## What comes next -/

namespace Parser

/-- The kind of the next token, which is the end of the file when there is none. -/
def next (ks : List TokenKind) : TokenKind := ks.head?.getD .eof

/-- The tokens that follow, without the first one if it is of the given kind. -/
def skip (kind : TokenKind) (ks : List TokenKind) : List TokenKind :=
  if next ks = kind then ks.tail else ks

/-- The kinds of the tokens that can be read, error tokens left out. -/
def kinds (ts : Tokens) : List TokenKind :=
  (ts.map fun t => t.val.kind).filter fun kind => kind != .error

/-- The kinds of the current token and of those after it. -/
def ahead (p : Parser) : List TokenKind :=
  if p.curr.kind = .eof then [] else p.curr.kind :: kinds p.rest

/-- The token kinds that begin an operand, besides parentheses and plus signs. -/
def beginsOperand : TokenKind → Bool
  | .litInt | .litFloat | .litDouble | .kwTrue | .kwFalse | .ident | .minus | .logNot => true
  | _ => false

/-- If no operand comes next, the place where the parser finds none to stop at: behind the
opening parentheses and plus signs, and those closing parentheses that come at once. -/
def missing : List TokenKind → Option (List TokenKind)
  | [] => some []
  | .plus :: ks => missing ks
  | .lParen :: ks => (missing ks).map (skip .rParen)
  | kind :: ks => if beginsOperand kind then none else some (kind :: ks)

/-- Whether {lit}`parse_array_dims` reads a dimension. -/
def sized : List TokenKind → Bool
  | .lBracket :: .litInt :: _ => true
  | .lBracket :: .rBracket :: ks => sized ks
  | .lBracket :: ks => sized ks
  | _ => false

/-- Whether the brackets of a parameter make it an array. -/
def suffixSized : List TokenKind → Bool
  | .lBracket :: ks => next ks == .rBracket || next ks == .litInt || sized ks
  | _ => false

/-- Whether a parameter without a type comes next that has the brackets of an array. -/
def untypedArray (ks : List TokenKind) : Bool :=
  (tokenToType (next ks)).isNone && suffixSized (skip .ident ks.tail)

end Parser

/-- What a step needs is there: an operand behind an operator; an operand in front of an
operator or an assignment; a type for the elements of an array; and a type of the symbol
that is called. -/
def Event.Provided (e : Event) (p : Parser) : Prop :=
  match e with
  | .operand => Parser.missing p.ahead = none
  | .enter (.binary prec) =>
      ∀ rest, Parser.missing p.ahead = some rest → Parser.getPrec (Parser.next rest) < prec
  | .enter .assign => ∀ rest, Parser.missing p.ahead = some rest → Parser.next rest ≠ .assign
  | .enter .param => Parser.untypedArray p.ahead = false
  | .callee name => ∀ sym, p.sema.lookup name = some sym → sym.ty ≠ none
  | _ => True

namespace Parser

/-- A step at which what it needs is there. -/
def Sound (st : Step Parser Event) : Prop := st.label.Provided st.before

/-- Brackets are sized by a literal behind the first of them, or by the next ones. -/
theorem sized_cons (ks : List TokenKind) :
    sized (.lBracket :: ks) = (next ks == .litInt || sized (skip .rBracket ks)) := by
  cases ks with
  | nil => rfl
  | cons kind ks => cases kind <;> rfl

/-- Without brackets there is no size. -/
theorem sized_of_ne {ks : List TokenKind} (h : next ks ≠ .lBracket) : sized ks = false := by
  cases ks with
  | nil => rfl
  | cons kind ks => cases kind <;> first | rfl | exact absurd rfl h

/-- Where an operand begins, none is missing. -/
theorem missing_of_begins {kind : TokenKind} {ks : List TokenKind}
    (h : beginsOperand kind = true) : missing (kind :: ks) = none := by
  cases kind <;> first | rfl | cases h

/-- A token that begins no operand is where the parser stops. -/
theorem missing_of_not_begins {ks : List TokenKind} (hplus : next ks ≠ .plus)
    (hparen : next ks ≠ .lParen) (h : beginsOperand (next ks) = false) :
    missing ks = some ks := by
  cases ks with
  | nil => rfl
  | cons kind ks =>
      cases kind <;> first | rfl | exact absurd rfl hplus | exact absurd rfl hparen | cases h

/-! ## Reading tokens -/

section Rules

variable {p : Parser}

/-- The current token is the next one. -/
theorem curr_ahead (p : Parser) : next p.ahead = p.curr.kind := by
  unfold ahead next
  by_cases h : p.curr.kind = .eof
  · rw [if_pos h, h]
    rfl
  · rw [if_neg h]
    rfl

/-- A token that is not the end of the file lies ahead. -/
theorem ahead_cons {kind : TokenKind} (hkind : p.curr.kind = kind) (h : kind ≠ .eof) :
    p.ahead = kind :: p.ahead.tail := by
  unfold ahead
  rw [hkind, if_neg h]
  rfl

/-- The state is at a token of the file or at its end, and no name was declared. -/
structure Calm (p p' : Parser) : Prop where
  atEnd : AtEnd p'
  sema : p'.sema = p.sema

/-- Standing still is calm. -/
theorem Calm.refl (h : AtEnd p) : Calm p p := ⟨h, rfl⟩

/-- Two calm pieces are calm together. -/
theorem Calm.trans {p' p'' : Parser} (h : Calm p p') (h' : Calm p' p'') : Calm p p'' :=
  ⟨h'.atEnd, h'.sema.trans h.sema⟩

/-- A step that reads no token and declares nothing. -/
theorem judged_still {l : Event} {f : Parser → Parser} (hp : AtEnd p)
    (hl : l.Provided p) (hrest : (f p).rest = p.rest) (hcurr : (f p).curr = p.curr)
    (hsema : (f p).sema = p.sema) :
    ((Prog.step l f : Parse Unit).run p).Judged Sound fun _ p' =>
      Calm p p' ∧ p'.ahead = p.ahead := by
  refine judged_step hl ⟨⟨?_, hsema⟩, ?_⟩
  · unfold AtEnd
    rw [hrest, hcurr]
    exact hp
  · unfold ahead
    rw [hrest, hcurr]

/-- The loop of {lit}`advance` stops at the first token that is no error token. -/
theorem judged_advanceLoop (ts : Tokens) (p : Parser) :
    ((advanceLoop ts).run p).Judged Sound fun _ p' => Calm p p' ∧ p'.ahead = kinds ts := by
  induction ts generalizing p with
  | nil => exact judged_step trivial ⟨⟨fun _ => rfl, rfl⟩, rfl⟩
  | cons t ts ih =>
      rw [advanceLoop]
      by_cases herror : t.val.kind = .error
      · rw [if_pos herror]
        have hkinds : kinds (t :: ts) = kinds ts := by simp [kinds, herror]
        refine judged_bind (Q := fun _ p' => p'.sema = p.sema) (judged_step trivial rfl) ?_
        intro _ p' hp'
        refine (ih p').mono ?_
        intro _ p'' hp''
        rw [hkinds]
        exact ⟨⟨hp''.1.atEnd, hp''.1.sema.trans hp'⟩, hp''.2⟩
      · rw [if_neg herror]
        refine judged_step trivial ⟨⟨fun h => absurd h t.property, rfl⟩, ?_⟩
        simp [ahead, take, kinds, t.property, herror]

/-- {lit}`advance` is calm, and leaves what lies behind the token. -/
theorem judged_advance (hp : AtEnd p) :
    (advance.run p).Judged Sound fun _ p' => Calm p p' ∧ p'.ahead = p.ahead.tail := by
  refine judged_bind (Q := fun _ q => q = { p with prev := p.curr }) (judged_step trivial rfl) ?_
  intro _ q hq
  rw [hq, Prog.run_read_bind]
  refine (judged_advanceLoop _ _).mono ?_
  intro _ p' hp'
  refine ⟨⟨hp'.1.atEnd, hp'.1.sema⟩, hp'.2.trans ?_⟩
  unfold ahead
  by_cases hkind : p.curr.kind = .eof
  · rw [if_pos hkind, hp hkind]
    rfl
  · rw [if_neg hkind]
    rfl

/-- A report is calm, and stays at the token. -/
theorem judged_parserError (hp : AtEnd p) (m : Msg) :
    ((parserError m).run p).Judged Sound fun _ p' => Calm p p' ∧ p'.ahead = p.ahead := by
  unfold parserError
  rw [Prog.run_read_bind]
  exact judged_still hp trivial (errorAt_rest _ _ _) (errorAt_curr _ _ _) (errorAt_sema _ _ _)

/-- Whether {lit}`match` finds the kind it looks for, and what it leaves. -/
theorem judged_matchKind (hp : AtEnd p) (kind : TokenKind) :
    ((matchKind kind).run p).Judged Sound fun b p' =>
      Calm p p' ∧ (b = true → p.curr.kind = kind ∧ p'.ahead = p.ahead.tail) ∧
        (b = false → p.curr.kind ≠ kind ∧ p' = p) := by
  unfold matchKind checkKind
  rw [Prog.run_read_bind]
  by_cases hkind : p.curr.kind = kind
  · have htrue : (p.curr.kind == kind) = true := by simpa using hkind
    rw [if_pos htrue]
    refine judged_bind (judged_advance hp) ?_
    intro _ p' hp'
    exact judged_pure ⟨hp'.1, fun _ => ⟨hkind, hp'.2⟩, nofun⟩
  · have hfalse : ¬ (p.curr.kind == kind) = true := by simpa using hkind
    rw [if_neg hfalse]
    exact judged_pure ⟨.refl hp, nofun, fun _ => ⟨hkind, rfl⟩⟩

/-- Whatever {lit}`match` answers, the token it looks for has been read. -/
theorem judged_skip (hp : AtEnd p) (kind : TokenKind) :
    ((matchKind kind).run p).Judged Sound fun _ p' =>
      Calm p p' ∧ p'.ahead = skip kind p.ahead := by
  refine (judged_matchKind hp kind).mono ?_
  rintro b p' ⟨hcalm, htrue, hfalse⟩
  refine ⟨hcalm, ?_⟩
  rw [skip, curr_ahead]
  cases b with
  | true => rw [if_pos (htrue rfl).1, (htrue rfl).2]
  | false => rw [if_neg (hfalse rfl).1, (hfalse rfl).2]

/-- So is a token that is demanded, found or not. -/
theorem judged_consume (hp : AtEnd p) (kind : TokenKind) (m : Msg) :
    ((consume kind m).run p).Judged Sound fun _ p' =>
      Calm p p' ∧ p'.ahead = skip kind p.ahead := by
  unfold consume checkKind skip
  rw [Prog.run_read_bind, curr_ahead]
  by_cases hkind : p.curr.kind = kind
  · have htrue : (p.curr.kind == kind) = true := by simpa using hkind
    rw [if_pos htrue, if_pos hkind]
    exact judged_advance hp
  · have hfalse : ¬ (p.curr.kind == kind) = true := by simpa using hkind
    rw [if_neg hfalse, if_neg hkind]
    exact judged_parserError hp m

/-- One branch of the program for each answer of {lit}`match`. -/
theorem judged_if_match {α : Type} {m k : Parse α} {kind : TokenKind}
    {Q : α → Parser → Prop} (hp : AtEnd p)
    (hm : p.curr.kind = kind → ∀ p', Calm p p' → p'.ahead = p.ahead.tail →
      (m.run p').Judged Sound Q)
    (hk : p.curr.kind ≠ kind → (k.run p).Judged Sound Q) :
    ((do if ← matchKind kind then m else k).run p).Judged Sound Q := by
  refine judged_bind (judged_matchKind hp kind) ?_
  rintro b p' ⟨hcalm, htrue, hfalse⟩
  cases b with
  | true => exact hm (htrue rfl).1 p' hcalm (htrue rfl).2
  | false =>
      obtain ⟨hkind, hsame⟩ := hfalse rfl
      rw [hsame]
      exact hk hkind

/-- One branch of the program for each answer of {lit}`check_kind`. -/
theorem judged_if_check {α : Type} {m k : Parse α} {kind : TokenKind}
    {Q : α → Parser → Prop} (hm : p.curr.kind = kind → (m.run p).Judged Sound Q)
    (hk : p.curr.kind ≠ kind → (k.run p).Judged Sound Q) :
    ((do if ← checkKind kind then m else k).run p).Judged Sound Q := by
  unfold checkKind
  rw [Prog.run_read_bind]
  by_cases hkind : p.curr.kind = kind
  · rw [if_pos (by simpa using hkind)]
    exact hm hkind
  · rw [if_neg (by simpa using hkind)]
    exact hk hkind

/-- A mark that needs nothing is passed over. -/
theorem judged_mark {α : Type} {l : Event} {m : Parse α} {Q : α → Parser → Prop}
    (hl : l.Provided p) (hm : (m.run p).Judged Sound Q) :
    ((do Prog.mark l; m).run p).Judged Sound Q :=
  judged_mark_bind (fun _ => hm) fun hbad => absurd hl hbad

end Rules

/-! ## Operators and calls -/

/-- A piece of the parser that reads no token and declares nothing. -/
def Still {α : Type} (m : Parse α) : Prop :=
  ∀ p, AtEnd p → (m.run p).Judged Sound fun _ p' => Calm p p' ∧ p'.ahead = p.ahead

/-- Staying calm at a token is a congruence that may look at the state. -/
theorem still_reading : Reading withFresh fun {_} m _ => Still m where
  pure _ _ hp := judged_pure ⟨.refl hp, rfl⟩
  bind hm hf p hp := by
    refine judged_bind (hm p hp) ?_
    rintro a q ⟨hq, hahead⟩
    refine (hf a q hq.atEnd).mono ?_
    rintro _ q' ⟨hq', hahead'⟩
    exact ⟨hq.trans hq', hahead'.trans hahead⟩
  timeout _ _ _ := judged_timeout
  read _ _ _ hp := judged_read ⟨.refl hp, rfl⟩

/-- A step that reads no pointer and leaves the tokens alone. -/
theorem still_step {l : Event} {f : Parser → Parser} (hl : ∀ p, l.Provided p)
    (hrest : ∀ p, (f p).rest = p.rest) (hcurr : ∀ p, (f p).curr = p.curr)
    (hsema : ∀ p, (f p).sema = p.sema) : Still (Prog.step l f) :=
  fun p hp => judged_still hp (hl p) (hrest p) (hcurr p) (hsema p)

/-- A report of the analysis is one. -/
theorem still_ctxError (tok : Option Token) (m : Msg) : Still (ctxError tok m) :=
  still_step (fun _ => trivial) (fun _ => rfl) (fun _ => rfl) fun _ => rfl

/-- With both operands the check of an operator follows no null pointer. -/
theorem still_analyzeBinary (op : BinOp) (tok : Token) (l r : Node) :
    Still (semaAnalyzeBinary op tok (some l) (some r)) :=
  congr_semaAnalyzeBinary still_reading
    (still_step (fun _ => trivial) (fun _ => rfl) (fun _ => rfl) fun _ => rfl) still_ctxError
    op tok l r

/-- An assignment with both sides there is analysed without a crash. -/
theorem still_analyzeAssign (tok : Token) (l r : Node) :
    Still (semaAnalyzeAssign tok (some l) (some r)) :=
  congr_semaAnalyzeAssign still_reading
    (still_step (fun _ => trivial) (fun _ => rfl) (fun _ => rfl) fun _ => rfl) still_ctxError
    tok l r

/-- Without one of its operands the check of an operator does not return. -/
theorem never_analyzeBinary {p : Parser} {op : BinOp} {tok : Token} {lhs rhs : Option Node}
    (h : lhs = none ∨ rhs = none) :
    ((semaAnalyzeBinary op tok lhs rhs).run p).Meets Contract.lax fun _ _ => False := by
  refine Prog.meets_bind (Run.meets_lax_true _) fun _ q _ => ?_
  rcases h with rfl | rfl
  · exact Prog.meets_fault trivial
  · cases lhs with
    | none => exact Prog.meets_fault trivial
    | some l => exact Prog.meets_fault trivial

/-- With one of them missing, the analysis crashes. -/
theorem never_analyzeAssign {p : Parser} {tok : Token} {lhs rhs : Option Node}
    (h : lhs = none ∨ rhs = none) :
    ((semaAnalyzeAssign tok lhs rhs).run p).Meets Contract.lax fun _ _ => False := by
  refine Prog.meets_bind (Run.meets_lax_true _) fun _ q _ => ?_
  rcases h with rfl | rfl
  · exact Prog.meets_fault trivial
  · cases lhs with
    | none => exact Prog.meets_fault trivial
    | some l => exact Prog.meets_fault trivial

/-- A name is reported or not, and neither is a crash. -/
theorem judged_ifNull {p : Parser} (hp : AtEnd p) (sym : Option SemaSymbol) (m : Msg) :
    ((parserErrorIfNull sym m).run p).Judged Sound fun _ p' => Calm p p' := by
  cases sym with
  | none => exact (judged_parserError hp m).mono fun _ _ h => h.1
  | some _ => exact judged_pure (.refl hp)

/-- The type of a call is read through the pointer of the symbol, which was found before
the arguments were read. -/
theorem judged_callTy {p : Parser} (hp : AtEnd p) (name : Symbol) :
    ((callTy name (p.sema.lookup name)).run p).Judged Sound fun _ p' => Calm p p' := by
  cases hsym : p.sema.lookup name with
  | none => exact judged_pure (.refl hp)
  | some sym =>
      refine judged_mark_bind ?_ ?_
      · intro hsound
        cases hty : sym.ty with
        | none => exact absurd hty (hsound sym hsym)
        | some ty => exact judged_read (.refl hp)
      · intro hbad
        cases hty : sym.ty with
        | none => exact Prog.meets_fault trivial
        | some ty =>
            refine absurd ?_ hbad
            intro sym' hsym'
            have hsame : sym = sym' := Option.some.inj (hsym.symm.trans hsym')
            rw [← hsame, hty]
            exact Option.some_ne_none ty

/-! ## Expressions -/

/-- What an expression function returns: a node if an operand came next, and a null
pointer, having stopped at the place foreseen, if none did. -/
structure Answer (p : Parser) (r : Option Node) (p' : Parser) : Prop where
  calm : Calm p p'
  found : r ≠ none → missing p.ahead = none
  absent : r = none → missing p.ahead = some p'.ahead

/-- Where what stands behind a missing operand is not as it should be, the operand is
missing, and the parser has stopped there. -/
theorem Answer.missing_of_not {p p' : Parser} {r : Option Node} (h : Answer p r p')
    {P : TokenKind → Prop} (hbad : ¬ ∀ rest, missing p.ahead = some rest → P (next rest)) :
    r = none ∧ ¬ P p'.curr.kind := by
  have hnone : r = none := by
    by_contra hne
    refine hbad ?_
    intro rest hrest
    rw [h.found hne] at hrest
    cases hrest
  constructor
  · exact hnone
  · intro hgood
    refine hbad ?_
    intro rest hrest
    rw [h.absent hnone] at hrest
    cases hrest
    rw [curr_ahead]
    exact hgood

/-- An expression function answers wherever it starts. -/
def Answers (m : Parse (Option Node)) : Prop :=
  ∀ p, AtEnd p → (m.run p).Judged Sound (Answer p)

/-- The same, where no sign comes next. -/
def AnswersPrimary (m : Parse (Option Node)) : Prop :=
  ∀ p, AtEnd p → p.curr.kind ≠ .plus → p.curr.kind ≠ .minus → p.curr.kind ≠ .logNot →
    (m.run p).Judged Sound (Answer p)

/-- A piece that answers to what lies ahead is calm where it returns. -/
theorem Answers.calm {m : Parse (Option Node)} (h : Answers m) {p : Parser} (hp : AtEnd p) :
    (m.run p).Judged Sound fun _ p' => Calm p p' :=
  (h p hp).mono fun _ _ hanswer => hanswer.calm

/-- The next token begins an operand, and a node is returned. -/
theorem answer_node {p p' : Parser} {nd : Node} {kind : TokenKind} (hcalm : Calm p p')
    (hkind : p.curr.kind = kind) (hbegins : beginsOperand kind = true) :
    Answer p (some nd) p' := by
  refine ⟨hcalm, fun _ => ?_, nofun⟩
  have hne : kind ≠ .eof := by
    intro heof
    rw [heof] at hbegins
    cases hbegins
  rw [ahead_cons hkind hne]
  exact missing_of_begins hbegins

section Expressions

variable {p : Parser}

/-- Arguments may be missing without a crash. -/
theorem judged_args {m : Parse (Option Node)} (hm : Answers m) (n : Nat) (hp : AtEnd p) :
    ((parseArgs m n).run p).Judged Sound fun _ p' => Calm p p' := by
  refine judged_if_check (fun _ => judged_pure (.refl hp)) fun _ => ?_
  refine judged_loop (fun _ q => Calm p q) ?_ n (.refl hp)
  intro args q hq
  refine judged_bind (hm.calm hq.atEnd) fun arg q₁ hq₁ => ?_
  refine judged_if_match hq₁.atEnd (fun _ q₂ hq₂ _ => ?_) fun _ => ?_
  · exact judged_pure ((hq.trans hq₁).trans hq₂)
  · exact judged_pure (hq.trans hq₁)

/-- A call crashes exactly on a symbol that was entered without a type. -/
theorem judged_call {m : Parse (Option Node)} (hm : Answers m) (n : Nat) (name : Symbol)
    (hp : AtEnd p) : ((parseCall m n name).run p).Judged Sound fun r p' =>
      Calm p p' ∧ ∃ nd, r = some nd := by
  unfold parseCall semaLookup
  refine judged_bind (judged_consume hp _ _) ?_
  rintro _ q ⟨hq, _⟩
  rw [Prog.run_read_bind]
  refine judged_bind (judged_ifNull hq.atEnd _ _) fun _ q₁ hq₁ => ?_
  refine judged_bind (judged_args hm n hq₁.atEnd) fun args q₂ hq₂ => ?_
  refine judged_bind (judged_consume hq₂.atEnd _ _) ?_
  rintro _ q₃ ⟨hq₃, _⟩
  -- No declaration stands between the lookup and the call.
  have hcalm : Calm q q₃ := (hq₁.trans hq₂).trans hq₃
  rw [← hcalm.sema]
  refine judged_bind (judged_callTy hq₃.atEnd name) fun ty q₄ hq₄ => ?_
  exact judged_pure ⟨(hq.trans hcalm).trans hq₄, _, rfl⟩

/-- A variable does not crash: its subscripts test the type first. -/
theorem judged_variable {m : Parse (Option Node)} (hm : Answers m) (n : Nat) (name : Symbol)
    (hp : AtEnd p) : ((parseVariable m n name).run p).Judged Sound fun r p' =>
      Calm p p' ∧ ∃ nd, r = some nd := by
  unfold parseVariable semaLookup
  rw [Prog.run_read_bind]
  refine judged_bind (judged_ifNull hp _ _) fun _ q hq => ?_
  refine judged_loop (fun _ q => Calm p q) ?_ n hq
  intro curr q hq
  refine judged_if_match hq.atEnd (fun _ q₁ hq₁ _ => ?_) fun _ => ?_
  · refine judged_bind (hm.calm hq₁.atEnd) fun index q₂ hq₂ => ?_
    refine judged_bind (judged_consume hq₂.atEnd _ _) ?_
    rintro _ q₃ ⟨hq₃, _⟩
    have hcalm : Calm p q₃ := ((hq.trans hq₁).trans hq₂).trans hq₃
    have hbad : ((do
        parserError .notAnArray
        return (Iter.again (.arrayAccess tyInt curr index) : Iter Node (Option Node))).run
          q₃).Judged Sound fun i q =>
            i.Satisfies (fun _ => Calm p q) fun r => Calm p q ∧ ∃ nd, r = some nd := by
      refine judged_bind (judged_parserError hq₃.atEnd _) ?_
      rintro _ q₄ ⟨hq₄, _⟩
      exact judged_pure (hcalm.trans hq₄)
    split
    · exact judged_pure hcalm
    · exact hbad
  · exact judged_pure ⟨hq, curr, rfl⟩

/-- A primary expression is missing exactly where no operand begins. -/
theorem answers_primary {e a : Parse (Option Node)} (he : Answers e) (ha : Answers a)
    (n : Nat) : AnswersPrimary (parsePrimaryBody e a n) := by
  intro p hp hplus hminus hnot
  have hlit {q : Parser} {kind : TokenKind} (f : Token → Node) (hcalm : Calm p q)
      (hkind : p.curr.kind = kind) (hbegins : beginsOperand kind = true) :
      ((do let prev ← Prog.read Parser.prev; return some (f prev) : Parse _).run q).Judged
        Sound (Answer p) := by
    rw [Prog.run_read_bind]
    exact judged_pure (answer_node hcalm hkind hbegins)
  refine judged_mark trivial ?_
  refine judged_if_match hp (fun hkind q hq _ => ?_) fun hint => ?_
  · exact hlit (fun prev => .litInt tyInt prev.value.asInt) hq hkind rfl
  refine judged_if_match hp (fun hkind q hq _ => ?_) fun hfloat => ?_
  · exact hlit (fun prev => .litFloat tyFloat prev.value.asFloat) hq hkind rfl
  refine judged_if_match hp (fun hkind q hq _ => ?_) fun hdouble => ?_
  · exact hlit (fun prev => .litDouble tyDouble prev.value.asDouble) hq hkind rfl
  refine judged_if_match hp (fun hkind q hq _ => ?_) fun htrue => ?_
  · exact judged_pure (answer_node hq hkind rfl)
  refine judged_if_match hp (fun hkind q hq _ => ?_) fun hfalse => ?_
  · exact judged_pure (answer_node hq hkind rfl)
  refine judged_if_match hp (fun hkind q hq hahead => ?_) fun hparen => ?_
  · -- The answer of the expression inside, stepped over a closing parenthesis.
    refine judged_bind (he q hq.atEnd) fun r q₁ hr => ?_
    refine judged_bind (judged_consume hr.calm.atEnd _ _) ?_
    rintro _ q₂ ⟨hq₂, hskip⟩
    have hmissing : missing p.ahead = (missing q.ahead).map (skip .rParen) := by
      rw [ahead_cons hkind (by simp), hahead]
      rfl
    refine judged_pure ⟨(hq.trans hr.calm).trans hq₂, fun hne => ?_, fun hnone => ?_⟩
    · rw [hmissing, hr.found hne]
      rfl
    · rw [hmissing, hr.absent hnone, hskip]
      rfl
  refine judged_if_match hp (fun hkind q hq _ => ?_) fun hident => ?_
  · rw [Prog.run_read_bind]
    have hnode {m : Parse (Option Node)} (hm : (m.run q).Judged Sound fun r q' =>
        Calm q q' ∧ ∃ nd, r = some nd) : (m.run q).Judged Sound (Answer p) := by
      refine hm.mono ?_
      rintro _ q' ⟨hq', nd, rfl⟩
      exact answer_node (hq.trans hq') hkind rfl
    refine judged_if_check (fun _ => ?_) fun _ => ?_
    · exact hnode (judged_call ha n _ hq.atEnd)
    · exact hnode (judged_variable he n _ hq.atEnd)
  · refine judged_bind (judged_parserError hp _) ?_
    rintro _ q ⟨hq, hahead⟩
    have hbegins : beginsOperand p.curr.kind = false := by
      cases hkind : p.curr.kind <;> first | rfl | simp_all
    refine judged_pure ⟨hq, fun hne => absurd rfl hne, fun _ => ?_⟩
    rw [hahead]
    apply missing_of_not_begins <;> rw [curr_ahead]
    · exact hplus
    · exact hparen
    · exact hbegins

/-- A unary expression answers: a plus sign passes its operand on, and the other signs make a node
of what they get. -/
theorem answers_unary {u k : Parse (Option Node)} (hu : Answers u) (hk : AnswersPrimary k) :
    Answers (parseUnaryBody u k) := by
  intro p hp
  refine judged_mark trivial ?_
  refine judged_if_match hp (fun hkind q hq hahead => ?_) fun hplus => ?_
  · have hmissing : missing p.ahead = missing q.ahead := by
      rw [ahead_cons hkind (by simp), hahead]
      rfl
    refine (hu q hq.atEnd).mono fun r q' hr => ⟨hq.trans hr.calm, ?_, ?_⟩
    · rw [hmissing]
      exact hr.found
    · rw [hmissing]
      exact hr.absent
  refine judged_if_match hp (fun hkind q hq _ => ?_) fun hminus => ?_
  · refine judged_bind (hu.calm hq.atEnd) fun r q' hq' => ?_
    exact judged_pure (answer_node (hq.trans hq') hkind rfl)
  refine judged_if_match hp (fun hkind q hq _ => ?_) fun hnot => ?_
  · refine judged_bind (hu.calm hq.atEnd) fun r q' hq' => ?_
    exact judged_pure (answer_node (hq.trans hq') hkind rfl)
  · exact hk p hp hplus hminus hnot

/-- The right operand of an operator: if it is not there, the check of the operator does
not return. -/
theorem judged_operand {α : Type} {m : Parse (Option Node)} (hm : Answers m)
    {check : Token → Option Node → Parse Node} {k : Node → Parse α} {Q : α → Parser → Prop}
    (hp : AtEnd p) (hcheck : ∀ tok nd, Still (check tok (some nd)))
    (hnever : ∀ tok q, ((check tok none).run q).Meets Contract.lax fun _ _ => False)
    (hk : ∀ nd q, Calm p q → ((k nd).run q).Judged Sound Q) :
    ((do
        Prog.mark Event.operand
        let rhs ← m
        let tok ← newNode
        let node ← check tok rhs
        k node).run p).Judged Sound Q := by
  refine judged_mark_bind ?_ ?_
  · intro hthere
    refine judged_bind (hm p hp) fun rhs q hrhs => ?_
    unfold newNode
    rw [Prog.run_read_bind]
    cases rhs with
    | none =>
        have hmissing : missing p.ahead = none := hthere
        rw [hrhs.absent rfl] at hmissing
        cases hmissing
    | some nd =>
        refine judged_bind (hcheck _ nd q hrhs.calm.atEnd) ?_
        rintro node q' ⟨hq', _⟩
        exact hk node q' (hrhs.calm.trans hq')
  · intro hgone
    refine Prog.meets_bind (hm p hp).lax fun rhs q hrhs => ?_
    unfold newNode
    rw [Prog.run_read_bind]
    cases rhs with
    | none => exact Prog.meets_bind_escape (hnever _ q)
    | some nd => exact absurd (hrhs.found (by simp)) hgone

/-- Without a left operand an operator is not analysed either. -/
theorem never_operand {α : Type} {m : Parse (Option Node)}
    {check : Token → Option Node → Parse Node} {k : Node → Parse α}
    (hnever : ∀ tok rhs q, ((check tok rhs).run q).Meets Contract.lax fun _ _ => False) :
    ((do
        Prog.mark Event.operand
        let rhs ← m
        let tok ← newNode
        let node ← check tok rhs
        k node).run p).Meets Contract.lax fun _ _ => False := by
  refine Prog.meets_bind (Run.meets_lax_true _) fun _ q _ => ?_
  refine Prog.meets_bind (Run.meets_lax_true _) fun rhs q _ => ?_
  unfold newNode
  rw [Prog.run_read_bind]
  exact Prog.meets_bind_escape (hnever _ rhs q)

/-- What the loop of {lit}`parse_binary` knows of the operand it holds: without one, no
operator follows. -/
structure Held (p : Parser) (prec : Int) (lhs : Option Node) (q : Parser) : Prop where
  answer : Answer p lhs q
  stops : lhs = none → getPrec q.curr.kind < prec

/-- An operator whose left operand is there needs the right one. -/
theorem judged_binaryIter {b : Int → Parse (Option Node)} (hb : ∀ prec, Answers (b prec))
    {prec : Int} {lhs : Option Node} {q : Parser} (h : Held p prec lhs q) :
    ((binaryIter b prec lhs).run q).Judged Sound fun i q' =>
      i.Satisfies (Held p prec · q') (Answer p · q') := by
  unfold binaryIter
  rw [Prog.run_read_bind]
  by_cases hprec : getPrec q.curr.kind < prec
  · rw [if_pos hprec]
    exact judged_pure h.answer
  · rw [if_neg hprec]
    cases lhs with
    | none => exact absurd (h.stops rfl) hprec
    | some l =>
        refine judged_bind (judged_advance h.answer.calm.atEnd) ?_
        rintro _ q₁ ⟨hq₁, _⟩
        refine judged_operand (hb _) hq₁.atEnd (still_analyzeBinary _ · l ·)
          (fun _ _ => never_analyzeBinary (Or.inr rfl)) fun nd q₂ hq₂ => ?_
        have hcalm : Calm p q₂ := (h.answer.calm.trans hq₁).trans hq₂
        exact judged_pure ⟨⟨hcalm, fun _ => h.answer.found (by simp), nofun⟩, nofun⟩

/-- A binary expression answers, and returns only if no operand of an operator was missing. -/
theorem answers_binary {u : Parse (Option Node)} {b : Int → Parse (Option Node)}
    (hu : Answers u) (hb : ∀ prec, Answers (b prec)) (n : Nat) (prec : Int) :
    Answers (parseBinaryBody u b n prec) := by
  intro p hp
  refine judged_mark_bind ?_ ?_
  · intro hsound
    refine judged_bind (hu p hp) fun lhs q hlhs => ?_
    refine judged_loop (Held p prec) (fun _ _ h => judged_binaryIter hb h) n ⟨hlhs, ?_⟩
    intro hnone
    rw [← curr_ahead]
    exact hsound _ (hlhs.absent hnone)
  · intro hbad
    -- Where no operand comes next but an operator follows, the operator is analysed.
    refine Prog.meets_bind (hu p hp).lax fun lhs q hlhs => ?_
    obtain ⟨rfl, hprec⟩ := hlhs.missing_of_not (P := fun kind => getPrec kind < prec) hbad
    cases n with
    | zero => exact Prog.meets_timeout trivial
    | succ n =>
        refine Prog.meets_bind_escape ?_
        unfold binaryIter
        rw [Prog.run_read_bind, if_neg hprec]
        refine Prog.meets_bind (Run.meets_lax_true _) fun _ q₁ _ => ?_
        exact never_operand fun _ _ _ => never_analyzeBinary (Or.inl rfl)

/-- So does an assignment. -/
theorem answers_assign {b : Int → Parse (Option Node)} {a : Parse (Option Node)}
    (hb : ∀ prec, Answers (b prec)) (ha : Answers a) : Answers (parseAssignBody b a) := by
  intro p hp
  refine judged_mark_bind ?_ ?_
  · intro hsound
    refine judged_bind (hb 0 p hp) fun lhs q hlhs => ?_
    refine judged_if_match hlhs.calm.atEnd (fun hkind q₁ hq₁ _ => ?_) fun _ => judged_pure hlhs
    cases lhs with
    | none =>
        have hnext := hsound _ (hlhs.absent rfl)
        rw [curr_ahead] at hnext
        exact absurd hkind hnext
    | some l =>
        refine judged_operand ha hq₁.atEnd (still_analyzeAssign · l ·)
          (fun _ _ => never_analyzeAssign (Or.inr rfl)) fun nd q₂ hq₂ => ?_
        have hcalm : Calm p q₂ := (hlhs.calm.trans hq₁).trans hq₂
        exact judged_pure ⟨hcalm, fun _ => hlhs.found (by simp), nofun⟩
  · intro hbad
    refine Prog.meets_bind (hb 0 p hp).lax fun lhs q hlhs => ?_
    obtain ⟨rfl, hkind⟩ := hlhs.missing_of_not (P := fun kind => kind ≠ .assign) hbad
    refine Prog.meets_bind (judged_matchKind hlhs.calm.atEnd .assign).lax ?_
    rintro b q₁ ⟨_, _, hfalse⟩
    cases b with
    | true => exact never_operand fun _ _ _ => never_analyzeAssign (Or.inl rfl)
    | false => exact absurd (hfalse rfl).1 hkind

/-- A mark changes nothing. -/
theorem answers_mark {m : Parse (Option Node)} {l : Event} (hl : ∀ p, l.Provided p)
    (hm : Answers m) : Answers (do Prog.mark l; m) :=
  fun p hp => judged_mark (hl p) (hm p hp)

/-- All expression functions at once, by induction on the budget. -/
theorem answers_expressions (n : Nat) :
    AnswersPrimary (parsePrimary n) ∧ Answers (parseUnary n) ∧
      (∀ prec, Answers (parseBinary n prec)) ∧ Answers (parseAssign n) ∧
      Answers (parseExpr n) := by
  induction n with
  | zero =>
      exact ⟨fun _ _ _ _ _ => judged_timeout, fun _ _ => judged_timeout,
        fun _ _ _ => judged_timeout, fun _ _ => judged_timeout, fun _ _ => judged_timeout⟩
  | succ n ih =>
      rcases ih with ⟨hprimary, hunary, hbinary, hassign, hexpr⟩
      refine ⟨answers_primary hexpr hassign n, answers_unary hunary hprimary,
        answers_binary hunary hbinary n, answers_assign hbinary hassign, ?_⟩
      exact answers_mark (fun _ => trivial) (hbinary 0)

end Expressions

/-! ## Array types -/

/-- An array type of something that has no type is never built. -/
theorem never_arrayOf {p : Parser} (len : Int32) :
    ((typeArrayOf none len).run p).Meets Contract.lax fun _ _ => False :=
  Prog.meets_bind (Run.meets_lax_true _) fun _ _ _ => Prog.meets_fault trivial

/-- A new array type of a type that is there. -/
theorem judged_arrayOf {p : Parser} (hp : AtEnd p) {base : Option ObjTy} (hbase : base ≠ none)
    (len : Int32) : ((typeArrayOf base len).run p).Judged Sound fun ty p' =>
      AtEnd p' ∧ ty ≠ none := by
  refine judged_mark trivial ?_
  cases base with
  | none => exact absurd rfl hbase
  | some base => exact judged_pure ⟨hp, by simp⟩

/-- A dimension with a size has a base type. -/
theorem judged_dimsIter {base : Option ObjTy} {q : Parser} (hq : AtEnd q)
    (hbase : base = none → sized q.ahead = false) :
    ((dimsIter base).run q).Judged Sound fun i q' =>
      i.Satisfies (fun base' => AtEnd q' ∧ (base' = none → sized q'.ahead = false))
        fun _ => AtEnd q' := by
  refine judged_if_match hq (fun hkind q₁ hq₁ hahead => ?_) fun _ => judged_pure hq
  have hsized : base = none → (next q₁.ahead == .litInt || sized (skip .rBracket q₁.ahead)) =
      false := by
    intro hnone
    rw [← sized_cons, hahead, ← ahead_cons hkind (by simp)]
    exact hbase hnone
  refine judged_if_match hq₁.atEnd (fun hint q₂ hq₂ _ => ?_) fun hint => ?_
  · have hsome : base ≠ none := by
      intro hnone
      have hfalse := hsized hnone
      rw [curr_ahead, hint] at hfalse
      cases hfalse
    rw [Prog.run_read_bind]
    refine judged_bind (judged_consume hq₂.atEnd _ _) ?_
    rintro _ q₃ ⟨hq₃, _⟩
    refine judged_bind (judged_arrayOf hq₃.atEnd hsome _) ?_
    rintro ty q₄ ⟨hq₄, hty⟩
    exact judged_pure ⟨hq₄, fun hnone => absurd hnone hty⟩
  · refine judged_bind (judged_parserError hq₁.atEnd _) ?_
    rintro _ q₂ ⟨hq₂, hahead₂⟩
    refine judged_bind (judged_skip hq₂.atEnd .rBracket) ?_
    rintro _ q₃ ⟨hq₃, hahead₃⟩
    refine judged_pure ⟨hq₃.atEnd, fun hnone => ?_⟩
    rw [hahead₃, hahead₂]
    exact (Bool.or_eq_false_iff.mp (hsized hnone)).2

/-- So have all dimensions. -/
theorem judged_arrayDims {base : Option ObjTy} {p : Parser} (n : Nat) (hp : AtEnd p)
    (hbase : base = none → sized p.ahead = false) :
    ((parseArrayDims n base).run p).Judged Sound fun _ p' => AtEnd p' := by
  refine judged_mark trivial ?_
  exact judged_loop (fun base q => AtEnd q ∧ (base = none → sized q.ahead = false))
    (fun _ _ h => judged_dimsIter h.1 h.2) n ⟨hp, hbase⟩

/-- Where a dimension follows something that has no type, the dimensions are not read to
their end. -/
theorem never_arrayDims {p : Parser} (n : Nat) (hp : AtEnd p) (hsized : sized p.ahead = true) :
    ((parseArrayDims n none).run p).Meets Contract.lax fun _ _ => False := by
  refine Prog.meets_bind (R := fun _ q => q = p) (Run.meets_lax_iff.mpr ?_) ?_
  · intro _ q hq
    cases hq
    rfl
  rintro _ q rfl
  refine meets_loop (fun base q => AtEnd q ∧ base = none ∧ sized q.ahead = true) trivial ?_ n
    ⟨hp, rfl, hsized⟩
  rintro base q ⟨hq, rfl, hsized⟩
  refine Prog.meets_bind (judged_matchKind hq .lBracket).lax ?_
  rintro b q₁ ⟨hq₁, htrue, hfalse⟩
  cases b with
  | false =>
      rw [sized_of_ne (by rw [curr_ahead]; exact (hfalse rfl).1)] at hsized
      cases hsized
  | true =>
      rw [ahead_cons (htrue rfl).1 (by simp), ← (htrue rfl).2, sized_cons] at hsized
      refine Prog.meets_bind (judged_matchKind hq₁.atEnd .litInt).lax ?_
      rintro b q₂ ⟨hq₂, htrue₂, hfalse₂⟩
      cases b with
      | true =>
          refine Prog.meets_bind (Run.meets_lax_true _) fun _ q₃ _ => ?_
          refine Prog.meets_bind (Run.meets_lax_true _) fun _ q₃ _ => ?_
          exact Prog.meets_bind_escape (never_arrayOf _)
      | false =>
          obtain ⟨hint, hsame⟩ := hfalse₂ rfl
          rw [curr_ahead] at hsized
          have hrest : sized (skip .rBracket q₁.ahead) = true := by
            simpa [hint] using hsized
          rw [hsame]
          refine Prog.meets_bind (judged_parserError hq₁.atEnd _).lax ?_
          rintro _ q₃ ⟨hq₃, hahead⟩
          refine Prog.meets_bind (judged_skip hq₃.atEnd .rBracket).lax ?_
          rintro _ q₄ ⟨hq₄, hahead₄⟩
          refine Prog.meets_pure ⟨hq₄.atEnd, rfl, ?_⟩
          rw [hahead₄, hahead]
          exact hrest

/-! ## Parameters -/

/-- The first dimension of a parameter makes an array even when it is open, so it needs a type. -/
theorem judged_paramLen {base : Option ObjTy} {p : Parser} (hp : AtEnd p)
    (hbase : base = none → suffixSized (.lBracket :: p.ahead) = false) :
    ((parseParamLen base).run p).Judged Sound fun ty p' =>
      AtEnd p' ∧ (ty = none → sized p'.ahead = false) := by
  have hparts (hnone : base = none) : p.curr.kind ≠ .rBracket ∧ p.curr.kind ≠ .litInt ∧
      sized p.ahead = false := by
    have hfalse := hbase hnone
    simp only [suffixSized, curr_ahead, Bool.or_eq_false_iff, beq_eq_false_iff_ne] at hfalse
    exact ⟨hfalse.1.1, hfalse.1.2, hfalse.2⟩
  have harray {q : Parser} (hq : AtEnd q) (hsome : base ≠ none) (len : Int32) :
      ((typeArrayOf base len).run q).Judged Sound fun ty q' =>
        AtEnd q' ∧ (ty = none → sized q'.ahead = false) := by
    refine (judged_arrayOf hq hsome len).mono ?_
    rintro ty q' ⟨hq', hty⟩
    exact ⟨hq', fun hnone => absurd hnone hty⟩
  refine judged_if_match hp (fun hkind q hq _ => ?_) fun hkind => ?_
  · exact harray hq.atEnd (fun hnone => (hparts hnone).1 hkind) 0
  refine judged_if_match hp (fun hint q hq _ => ?_) fun hint => ?_
  · rw [Prog.run_read_bind]
    refine judged_bind (judged_consume hq.atEnd _ _) ?_
    rintro _ q₁ ⟨hq₁, _⟩
    exact harray hq₁.atEnd (fun hnone => (hparts hnone).2.1 hint) _
  · refine judged_bind (judged_parserError hp _) ?_
    rintro _ q ⟨hq, hahead⟩
    refine judged_pure ⟨hq.atEnd, fun hnone => ?_⟩
    rw [hahead]
    exact (hparts hnone).2.2

/-- So do the brackets of a parameter. -/
theorem judged_paramSuffix {base : Option ObjTy} {p : Parser} (n : Nat) (hp : AtEnd p)
    (hbase : base = none → suffixSized p.ahead = false) :
    ((parseParamSuffix n base).run p).Judged Sound fun _ p' => AtEnd p' := by
  refine judged_if_match hp (fun hkind q hq hahead => ?_) fun _ => judged_pure hp
  refine judged_bind (judged_paramLen hq.atEnd fun hnone => ?_) ?_
  · rw [hahead, ← ahead_cons hkind (by simp)]
    exact hbase hnone
  · rintro ty q₁ ⟨hq₁, hty⟩
    exact judged_arrayDims n hq₁ hty

/-- A first dimension of a parameter without a type is passed over at best. -/
theorem lax_paramLen {p : Parser} (hp : AtEnd p)
    (hsized : suffixSized (.lBracket :: p.ahead) = true) :
    ((parseParamLen none).run p).Meets Contract.lax fun ty p' =>
      AtEnd p' ∧ ty = none ∧ sized p'.ahead = true := by
  simp only [suffixSized, curr_ahead, Bool.or_eq_true, beq_iff_eq] at hsized
  refine Prog.meets_bind (judged_matchKind hp .rBracket).lax ?_
  rintro b q ⟨_, _, hfalse⟩
  cases b with
  | true => exact (never_arrayOf 0).mono fun _ _ => False.elim
  | false =>
      obtain ⟨hbracket, hsame⟩ := hfalse rfl
      rw [hsame]
      refine Prog.meets_bind (judged_matchKind hp .litInt).lax ?_
      rintro b q ⟨_, _, hfalse⟩
      cases b with
      | true =>
          refine Prog.meets_bind (Run.meets_lax_true _) fun prev q _ => ?_
          refine Prog.meets_bind (Run.meets_lax_true _) fun _ q _ => ?_
          exact (never_arrayOf prev.value.asInt).mono fun _ _ => False.elim
      | false =>
          obtain ⟨hint, hsame⟩ := hfalse rfl
          rw [hsame]
          refine Prog.meets_bind (judged_parserError hp _).lax ?_
          rintro _ q ⟨hq, hahead⟩
          refine Prog.meets_pure ⟨hq.atEnd, rfl, ?_⟩
          rw [hahead]
          rcases hsized with (hbad | hbad) | hrest
          · exact absurd hbad hbracket
          · exact absurd hbad hint
          · exact hrest

/-- The brackets of an array behind a parameter without a type are not read to their
end. -/
theorem never_paramSuffix {p : Parser} (n : Nat) (hp : AtEnd p)
    (hsized : suffixSized p.ahead = true) :
    ((parseParamSuffix n none).run p).Meets Contract.lax fun _ _ => False := by
  have hkind : p.curr.kind = .lBracket := by
    rw [← curr_ahead]
    cases hahead : p.ahead with
    | nil =>
        rw [hahead] at hsized
        cases hsized
    | cons kind ks =>
        rw [hahead] at hsized
        cases kind <;> first | rfl | cases hsized
  refine Prog.meets_bind (judged_matchKind hp .lBracket).lax ?_
  rintro b q ⟨hq, htrue, hfalse⟩
  cases b with
  | false => exact absurd hkind (hfalse rfl).1
  | true =>
      rw [ahead_cons hkind (by simp), ← (htrue rfl).2] at hsized
      refine Prog.meets_bind (lax_paramLen hq.atEnd hsized) ?_
      rintro ty q₁ ⟨hq₁, rfl, hrest⟩
      exact never_arrayDims n hq₁ hrest

/-! ## Whole parses -/

/-- A crash exactly where one is foreseen is a congruence that may look at the state. -/
theorem exact_reading : Reading withFresh fun {_} m _ => Exact AtEnd Sound m where
  pure _ _ hp := judged_pure hp
  bind hm hf p hp := judged_bind (hm p hp) hf
  timeout _ _ _ := judged_timeout
  read _ _ _ hp := judged_read hp

/-- A step that reads no pointer. -/
theorem exact_step {l : Event} {f : Parser → Parser} (hl : ∀ p, l.Provided p)
    (hrest : ∀ p, (f p).rest = p.rest) (hcurr : ∀ p, (f p).curr = p.curr) :
    Exact AtEnd Sound (Prog.step l f) := by
  intro p hp
  refine judged_step (hl p) ?_
  unfold AtEnd
  rw [hrest, hcurr]
  exact hp

/-- What stays calm never crashes. -/
theorem Still.exact {α : Type} {m : Parse α} (h : Still m) : Exact AtEnd Sound m :=
  fun p hp => (h p hp).mono fun _ _ hq => hq.1.atEnd

/-- What answers to the tokens ahead crashes where it is foreseen. -/
theorem Answers.exact {m : Parse (Option Node)} (h : Answers m) : Exact AtEnd Sound m :=
  fun p hp => (h p hp).mono fun _ _ hanswer => hanswer.calm.atEnd

/-- {lit}`advance` never crashes. -/
theorem exact_advance : Exact AtEnd Sound advance :=
  fun _ hp => (judged_advance hp).mono fun _ _ hq => hq.1.atEnd

/-- Neither do the operations on tokens and diagnostics. -/
theorem exact_base : Base fun {_} m _ => Exact AtEnd Sound m :=
  { exact_reading with
    advance := exact_advance
    parserErrorAt := fun _ _ => exact_step (fun _ => trivial)
      (fun _ => errorAt_rest _ _ _) fun _ => errorAt_curr _ _ _
    ctxError := fun _ _ => (still_ctxError _ _).exact
    define := fun _ _ _ => congr_semaDefineVar exact_reading
      (fun _ _ => (still_ctxError _ _).exact)
      (exact_step (l := .define) (fun _ => trivial) (fun _ => rfl) fun _ => rfl) }

/-- A parameter crashes exactly if it has brackets and no type. -/
theorem exact_paramIter (n : Nat) (id : Nat) (u : Unit) :
    Exact AtEnd Sound (paramIter n id u) := by
  have hbase := exact_base
  intro p hp
  have hnext : next p.ahead = p.curr.kind := curr_ahead p
  have hnotype {q : Parser} (hq : AtEnd q) (ty : Option ObjTy) :
      ((parserErrorIfNoType ty).run q).Judged Sound fun _ q' =>
        Calm q q' ∧ q'.ahead = q.ahead := by
    cases ty with
    | none => exact judged_parserError hq _
    | some _ => exact judged_pure ⟨.refl hq, rfl⟩
  have hrest {q : Parser} (hq : AtEnd q) (name : Symbol) (ty : Option ObjTy) :
      ((do
        let _ ← semaDefineVar name (ty.map Ty.obj) false
        pushParam id ty
        if ← matchKind .comma then
          return .again ()
        else
          return .leave () : Parse (Iter Unit Unit)).run q).Judged Sound fun _ => AtEnd := by
    refine judged_bind (hbase.define _ _ _ q hq) fun _ q₁ hq₁ => ?_
    have hpush : Exact AtEnd Sound (pushParam id ty) :=
      exact_step (fun _ => trivial) (fun _ => rfl) fun _ => rfl
    refine judged_bind (hpush q₁ hq₁) ?_
    intro _ q₂ hq₂
    refine judged_if_match hq₂ (fun _ q₃ hq₃ _ => ?_) fun _ => ?_
    · exact judged_pure hq₃.atEnd
    · exact judged_pure hq₂
  refine judged_mark_bind ?_ ?_
  · intro hsound
    rw [Prog.run_read_bind]
    refine judged_bind (hnotype hp _) ?_
    rintro _ q₁ ⟨hq₁, hahead₁⟩
    refine judged_bind (judged_advance hq₁.atEnd) ?_
    rintro _ q₂ ⟨hq₂, hahead₂⟩
    refine judged_bind (judged_consume hq₂.atEnd _ _) ?_
    rintro _ q₃ ⟨hq₃, hahead₃⟩
    rw [Prog.run_read_bind]
    refine judged_bind (judged_paramSuffix n hq₃.atEnd fun hnone => ?_) fun ty q₄ hq₄ =>
      hrest hq₄ _ ty
    have hfalse : untypedArray p.ahead = false := hsound
    rw [untypedArray, hnext, hnone] at hfalse
    rw [hahead₃, hahead₂, hahead₁]
    simpa using hfalse
  · intro hbad
    have htrue : untypedArray p.ahead = true := by
      by_contra hfalse
      exact hbad (Bool.eq_false_iff.mpr hfalse)
    rw [untypedArray, hnext, Bool.and_eq_true] at htrue
    rw [Prog.run_read_bind]
    refine Prog.meets_bind (hnotype hp _).lax ?_
    rintro _ q₁ ⟨hq₁, hahead₁⟩
    refine Prog.meets_bind (judged_advance hq₁.atEnd).lax ?_
    rintro _ q₂ ⟨hq₂, hahead₂⟩
    refine Prog.meets_bind (judged_consume hq₂.atEnd _ _).lax ?_
    rintro _ q₃ ⟨hq₃, hahead₃⟩
    rw [Prog.run_read_bind, Option.isNone_iff_eq_none.mp htrue.1]
    refine Prog.meets_bind_escape (never_paramSuffix n hq₃.atEnd ?_)
    rw [hahead₃, hahead₂, hahead₁]
    exact htrue.2

/-- Statements and items need nothing themselves. -/
theorem provided_of_mark {e : Event} (he : e.isBodyMark = true ∨ e.isTopMark = true)
    (p : Parser) : e.Provided p := by
  cases e with
  | enter f =>
      cases f with
      | binary _ | assign | param => simp [Event.isBodyMark, Event.isTopMark] at he
      | _ => trivial
  | operand => simp [Event.isBodyMark, Event.isTopMark] at he
  | callee name => simp [Event.isBodyMark, Event.isTopMark] at he
  | _ => trivial

/-- Every piece of the parser faults only after a step whose needs are not met, and
returns only if there was none. -/
theorem exact_whole : Whole fun {_} m _ => Exact AtEnd Sound m := by
  have hbase := exact_base
  have hstep {l : Event} {f : Parser → Parser} (hl : ∀ p, l.Provided p)
      (hrest : ∀ p, (f p).rest = p.rest) (hcurr : ∀ p, (f p).curr = p.curr) :
      Exact AtEnd Sound (Prog.step l f) := exact_step hl hrest hcurr
  have henter : Exact AtEnd Sound semaScopeEnter :=
    exact_step (fun _ => trivial) (fun _ => rfl) fun _ => rfl
  have hleave : Exact AtEnd Sound semaScopeLeave :=
    exact_step (fun _ => trivial) (fun _ => rfl) fun _ => rfl
  have hkeep (a : Option Node) : Exact AtEnd Sound (keepField a) := by
    intro p hp
    exact judged_mark trivial (judged_pure hp)
  exact
    { hbase with
      declMark := hstep (fun _ => trivial) (fun _ => rfl) fun _ => rfl
      parseExpr := fun {n _} _ => (answers_expressions n).2.2.2.2.exact
      parseInitializerList := fun hn => hbase.parseInitializerList
        (hstep (fun _ => trivial) (fun _ => rfl) fun _ => rfl)
        (fun {n _} _ => (answers_expressions n).2.2.2.1.exact) hn
      parseArrayDims := fun {n _} _ ty p hp => judged_arrayDims n hp nofun
      semaAnalyzeAssign := fun tok l r => (still_analyzeAssign tok l r).exact
      newNodeField := by
        intro α k k' hk p hp
        refine judged_bind (Q := fun _ => AtEnd) ?_ fun a q hq => hk a a rfl q hq
        unfold newNodeField
        rw [Prog.run_read_bind]
        refine judged_bind (Q := fun _ => AtEnd) (judged_step trivial hp) fun _ q hq => ?_
        exact judged_pure hq
      keepField := fun {a _} _ => hkeep a
      bodyMark := fun he => hstep (provided_of_mark (Or.inl he)) (fun _ => rfl) fun _ => rfl
      recover := fun {_ n n' m m' k k'} hn => congr_recover exact_reading n n' m m' k k'
        (congr_synchronize exact_reading n n' hn
          (hstep (fun _ => trivial) (fun _ => rfl) fun _ => rfl)
          (fun _ => hstep (fun _ => trivial) (fun _ => rfl) fun _ => rfl) exact_advance)
      scope := fun {_ _ m m' k k'} => congr_scope exact_reading m m' k k' henter hleave
      typeFuncNew := fun _ => congr_typeFuncNew exact_reading
        (hstep (fun _ => trivial) (fun _ => rfl) fun _ => rfl)
      pushParam := fun _ _ => hstep (fun _ => trivial) (fun _ => rfl) fun _ => rfl
      parseParams := by
        intro n n' _ id p hp
        refine judged_if_check (fun _ => judged_pure hp) fun _ => ?_
        refine judged_loop (fun _ q => AtEnd q) (fun u q hq => ?_) n hp
        refine (exact_paramIter n id u q hq).mono fun i q' hq' => ?_
        cases i with
        | again u => exact hq'
        | leave u => exact hq'
      topMark := fun he => hstep (provided_of_mark (Or.inr he)) (fun _ => rfl) fun _ => rfl
      semaScopeEnter := henter
      semaScopeLeave := hleave
      setFuncRet := fun _ => hstep (fun _ => trivial) (fun _ => rfl) fun _ => rfl }

/-- A whole parse crashes exactly where it is foreseen. -/
theorem judged_parserProgram (intern : List UInt8 → Symbol) (n : Nat) (p : Parser) :
    ((parserProgram intern n).run p).Judged Sound fun _ => AtEnd := by
  refine judged_bind (Q := fun _ => AtEnd) ?_ fun _ q hq =>
    exact_whole.parserParse intern (Nat.le_refl n) q hq
  refine judged_bind (Q := fun _ _ => True) (judged_step trivial trivial) fun _ q _ => ?_
  rw [Prog.run_read_bind]
  exact (judged_advanceLoop _ _).mono fun _ _ hq => hq.1.atEnd

end Parser

/-- A parse ends with a result exactly if at each of its steps what it needs is there; and
then it has recorded an error, or the file is a program. -/
theorem returns_iff_provided (intern : List UInt8 → Symbol) (mem : Memory) (ts : TokenStream) :
    (∃ globals p, (Parser.parserRun intern mem ts).outcome = .done globals p ∧
      (p.ctx.hadError = true ∨ ∃ u, Grammar.Reads intern ts u globals)) ↔
    ∀ st ∈ (Parser.parserRun intern mem ts).steps, st.label.Provided st.before := by
  have hjudged := Parser.judged_parserProgram intern (Parser.budget ts.tokens.length)
    (Parser.start mem Context.init ts)
  refine Iff.trans ?_ (hjudged.returns_iff (Parser.parserRun_ne_timeout intern mem ts))
  constructor
  · rintro ⟨globals, p, hout, _⟩
    exact ⟨globals, p, hout, (Run.meets_lax_iff.mp hjudged.lax) globals p hout⟩
  · rintro ⟨globals, p, hout, _⟩
    refine ⟨globals, p, hout, ?_⟩
    by_cases herror : p.ctx.hadError = true
    · exact Or.inl herror
    · exact Or.inr (Grammar.reads_of_accepted hout (by simpa using herror))

/-- The tokens of {lit}`int main() { 1 + ; }`. -/
def halfSum : TokenStream :=
  Grammar.stream [.fixed .kwInt, .ident ⟨0⟩, .fixed .lParen, .fixed .rParen, .fixed .lBrace,
    .litInt 1, .fixed .plus, .fixed .semicolon, .fixed .rBrace]

/-- The type of an operand that is not there is read. -/
theorem missing_operand_read :
    (∃ p, (Parser.parserRun Fluf.ascii.intern Grammar.zeroed halfSum).outcome = .fault p) ∧
      ¬ ∃ globals p, (Parser.parserRun Fluf.ascii.intern Grammar.zeroed halfSum).outcome =
          .done globals p ∧
        (p.ctx.hadError = true ∨ ∃ u, Grammar.Reads Fluf.ascii.intern halfSum u globals) := by
  have hfault : (match (Parser.parserRun Fluf.ascii.intern Grammar.zeroed halfSum).outcome with
      | .fault _ => true
      | _ => false) = true := by decide +kernel
  cases hout : (Parser.parserRun Fluf.ascii.intern Grammar.zeroed halfSum).outcome with
  | done globals p =>
      rw [hout] at hfault
      cases hfault
  | timeout =>
      rw [hout] at hfault
      cases hfault
  | fault p =>
      refine ⟨⟨p, rfl⟩, ?_⟩
      rintro ⟨globals, q, hdone, _⟩
      cases hdone

end Cact
