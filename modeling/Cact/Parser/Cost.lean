import Cact.Lexer.Cost
import Cact.Parser.Lookahead

/-!
# What a parse costs

The parser takes a bounded number of steps for each token of a file, also on files that are full
of errors.  It never goes back to a token; but a token may be looked at again and again, by all
the functions that are left without having found what they look for.  Each of them has consumed
a token before, and that token has paid.

Steps are what is counted, and not time: a search through the open scopes and a comparison of
types are part of the step behind them, and they take longer the deeper the scopes and the types
are nested.

Main results:

- Theorem {lit}`Parser.costs_expressions` and its companions: what each parsing function costs
  before it consumes a token.
- Theorem {lit}`Parser.length_parserRun`: what a parse costs.
- Theorem {lit}`front_end_steps`: what a parse costs together with the calls of the lexer.
-/

open Traced

namespace Cact

namespace Parser

/-- All steps cost the same.  A token pays for 76 of them, and 24 of these are put aside. -/
def tariff : Tariff Parser Event where
  price _ := 1
  size := remaining
  Valid := AtEnd
  rate := 76
  reserve := 24

/-- What a piece of the parser may cost once a token is consumed. -/
def spare : Nat := 50

/-- Wherever it is called, a piece of the parser costs at most {lit}`k` steps before it consumes
a token, and what it consumes pays for the others. -/
def Costs {α : Type} (k : Nat) (m : Parse α) : Prop :=
  ∀ p, AtEnd p → tariff.Affords k p (m.run p)

section Rules

variable {α β : Type} {p q : Parser} {k k' : Nat} {m m' : Parse α}

/-- With a price of one, the cost of a run is the number of its steps. -/
@[simp]
theorem cost_eq (sts : List (Step Parser Event)) : tariff.cost sts = sts.length := by
  induction sts with
  | nil => rfl
  | cons st sts ih =>
      rw [Tariff.cost_cons, ih, List.length_cons, Nat.add_comm]
      rfl

/-- More credit does no harm. -/
theorem Costs.mono (h : Costs k m) (hk : k ≤ k') : Costs k' m := fun p hp => (h p hp).mono hk

/-- Returning a value takes no step. -/
theorem costs_pure (a : α) : Costs k (pure a : Parse α) := fun _ hp => Tariff.affords_pure a hp

/-- Neither does looking at the state. -/
theorem costs_read (g : Parser → α) : Costs k (Prog.read g : Parse α) :=
  fun _ hp => Tariff.affords_read g hp

/-- A crash is no step of its own. -/
theorem costs_fault : Costs k (Prog.fault : Parse α) := fun _ _ => Tariff.affords_fault

theorem costs_timeout : Costs k (Prog.timeout : Parse α) := fun _ _ => Tariff.affords_timeout

/-- What the first part leaves of the credit is left for the second. -/
theorem Costs.bind {f : α → Parse β} (hm : Costs k m) (hk : k ≤ k')
    (hf : ∀ a, Costs (k' - k) (f a)) : Costs k' (m >>= f) :=
  fun p hp => Tariff.affords_bind hk (hm p hp) fun a q _ hq => hf a q hq

theorem Costs.read_bind {g : Parser → α} {f : α → Parse β} (hf : ∀ a, Costs k (f a)) :
    Costs k (Prog.read g >>= f) :=
  fun p hp => hf (g p) p hp

/-- Both branches of a choice may cost what the choice may. -/
theorem Costs.ite {c : Prop} [Decidable c] (hm : Costs k m) (hm' : Costs k m') :
    Costs k (if c then m else m') := by
  split
  · exact hm
  · exact hm'

/-- A step that leaves the tokens alone costs one. -/
theorem costs_step {l : Event} {f : Parser → Parser} (hrest : ∀ p, (f p).rest = p.rest)
    (hcurr : ∀ p, (f p).curr = p.curr) : Costs 1 (Prog.step l f : Parse Unit) := by
  intro p hp
  apply Tariff.affords_step
  · show AtEnd (f p)
    unfold AtEnd
    rw [hrest, hcurr]
    exact hp
  · show (f p).remaining = p.remaining
    unfold remaining
    rw [hrest, hcurr]
  · exact Nat.le_refl 1

/-- Entering a function is one step. -/
theorem costs_mark (l : Event) : Costs 1 (Prog.mark l : Parse Unit) :=
  costs_step (fun _ => rfl) fun _ => rfl

theorem costs_mark_bind {l : Event} {f : Unit → Parse β} (hk : 1 ≤ k)
    (hf : Costs (k - 1) (f ())) : Costs k (Prog.mark l >>= f) :=
  (costs_mark l).bind hk fun _ => hf

/-- The mark with which every parsing function begins. -/
theorem affords_mark_bind {l : Event} {f : Unit → Parse β} (hk : 1 ≤ k) (hp : AtEnd p)
    (hf : tariff.Affords (k - 1) p ((f ()).run p)) :
    tariff.Affords k p ((Prog.mark l >>= f).run p) := by
  refine Tariff.affords_bind hk (costs_mark l p hp) fun _ q hout _ => ?_
  cases hout
  exact hf

/-- A report of the parser is one step, also where panic mode keeps it silent. -/
theorem costs_parserError (msg : Msg) : Costs 1 (parserError msg) :=
  Costs.read_bind fun tok =>
    costs_step (fun p => errorAt_rest p tok msg) fun p => errorAt_curr p tok msg

/-- So is a report of the analysis. -/
theorem costs_ctxError (tok : Option Token) (msg : Msg) : Costs 1 (ctxError tok msg) :=
  costs_step (fun _ => rfl) fun _ => rfl

/-! ## Tokens -/

/-- Reading up to the next token that is no error token. -/
theorem advanceLoop_cost (ts : Tokens) (q : Parser) :
    ∃ q', ((advanceLoop ts).run q).outcome = .done () q' ∧ AtEnd q' ∧
      q'.remaining ≤ ts.length ∧
      ((advanceLoop ts).run q).steps.length + q'.remaining ≤ ts.length + 1 := by
  induction ts generalizing q with
  | nil =>
      refine ⟨_, rfl, ?_⟩
      simp [AtEnd, remaining, take, Token.eof, advanceLoop]
  | cons t ts ih =>
      have ht : t.val.kind ≠ .eof := t.property
      rw [advanceLoop]
      by_cases herror : t.val.kind = .error
      · rw [if_pos herror]
        obtain ⟨q', hout, hend, hrem, hcost⟩ := ih (q.takeError t.val ts)
        rw [Prog.bind_done rfl]
        refine ⟨q', hout, hend, ?_, ?_⟩
        · rw [List.length_cons]
          omega
        · simp only [Prog.run_step, List.cons_append, List.nil_append, List.length_cons]
          omega
      · rw [if_neg herror]
        refine ⟨_, rfl, ?_⟩
        simp [AtEnd, remaining, take, ht]
        omega

/-- {lit}`advance` takes one step of its own, and one for each token that it reads. -/
theorem advance_cost (q : Parser) :
    ∃ q', (advance.run q).outcome = .done () q' ∧ AtEnd q' ∧ q'.remaining ≤ q.rest.length ∧
      (advance.run q).steps.length + q'.remaining ≤ q.rest.length + 2 := by
  obtain ⟨q', hout, hend, hrem, hcost⟩ := advanceLoop_cost q.rest { q with prev := q.curr }
  have hrun : advance.run q = ⟨⟨.advance, q, { q with prev := q.curr }⟩ ::
      ((advanceLoop q.rest).run { q with prev := q.curr }).steps,
      ((advanceLoop q.rest).run { q with prev := q.curr }).outcome⟩ := rfl
  rw [hrun]
  refine ⟨q', hout, hend, hrem, ?_⟩
  rw [List.length_cons]
  omega

/-- At a token {lit}`advance` reads it. -/
theorem consumes_advance (hkind : q.curr.kind ≠ .eof) : tariff.Consumes 1 q (advance.run q) := by
  obtain ⟨q', hout, hend, hrem, hcost⟩ := advance_cost q
  have hq : q.remaining = q.rest.length + 1 := by simp [remaining, hkind]
  refine ⟨(), q', hout, hend, ?_, ?_⟩
  · show q'.remaining < q.remaining
    omega
  · show tariff.cost (advance.run q).steps + q'.remaining ≤ q.remaining + 1
    rw [cost_eq]
    omega

/-- At the end of the file, where {lit}`advance` consumes nothing, it takes two steps. -/
theorem costs_advance : Costs 2 advance := by
  intro q hq
  by_cases hkind : q.curr.kind = .eof
  · obtain ⟨q', hout, hend, hrem, hcost⟩ := advance_cost q
    have hrest : q.rest.length = 0 := by rw [hq hkind, List.length_nil]
    have hq' : q.remaining = 0 := by simp [remaining, hkind, hrest]
    unfold Tariff.Affords
    rw [hout]
    refine ⟨hend, Or.inl ⟨?_, ?_⟩⟩
    · show q'.remaining = q.remaining
      omega
    · rw [cost_eq]
      omega
  · exact (consumes_advance hkind).affords (by decide)

/-- What comes behind a token that was read is paid for. -/
theorem affords_advance {f : Unit → Parse β} (hkind : q.curr.kind ≠ .eof)
    (hf : Costs spare (f ())) : tariff.Affords k q ((advance >>= f).run q) :=
  Tariff.affords_consume (consumes_advance hkind) (by decide) fun _ q _ => hf q

/-- A test for a token costs nothing, and each branch knows how it came out. -/
theorem affords_if_check {kind : TokenKind}
    (hyes : q.curr.kind = kind → tariff.Affords k q (m.run q))
    (hno : q.curr.kind ≠ kind → tariff.Affords k q (m'.run q)) :
    tariff.Affords k q ((do if ← checkKind kind then m else m').run q) := by
  unfold checkKind
  rw [Prog.run_read_bind]
  by_cases hkind : q.curr.kind = kind
  · rw [if_pos (by simpa using hkind)]
    exact hyes hkind
  · rw [if_neg (by simpa using hkind)]
    exact hno hkind

/-- A test for a token: if it is there, it pays. -/
theorem costs_if_match {kind : TokenKind} (hkind : kind ≠ .eof) (hyes : Costs spare m)
    (hno : Costs k m') : Costs k (do if ← matchKind kind then m else m') := by
  intro q hq
  have hassoc : ((do if ← matchKind kind then m else m').run q) =
      (do if ← checkKind kind then (do advance; m) else m' : Parse α).run q := by
    unfold matchKind checkKind
    rw [Prog.bind_assoc, Prog.run_read_bind, Prog.run_read_bind]
    split
    · rw [Prog.bind_assoc]
      rfl
    · rfl
  rw [hassoc]
  apply affords_if_check
  · intro hcurr
    exact affords_advance (hcurr ▸ hkind) hyes
  · exact fun _ => hno q hq

/-- A token that {lit}`match` takes pays for the call. -/
theorem costs_matchKind {kind : TokenKind} (hkind : kind ≠ .eof) : Costs 0 (matchKind kind) := by
  intro q hq
  apply affords_if_check
  · intro hcurr
    exact affords_advance (hcurr ▸ hkind) (costs_pure true)
  · exact fun _ => costs_pure false q hq

/-- If the token is missing, {lit}`consume` costs the report. -/
theorem costs_consume {kind : TokenKind} (msg : Msg) (hkind : kind ≠ .eof) :
    Costs 1 (consume kind msg) := by
  intro q hq
  apply affords_if_check
  · intro hcurr
    exact (consumes_advance (hcurr ▸ hkind)).affords (by decide)
  · exact fun _ => costs_parserError msg q hq

/-- A token that is known to be there pays for what comes behind. -/
theorem affords_consume {kind : TokenKind} {msg : Msg} {f : Unit → Parse β}
    (hcurr : q.curr.kind = kind) (hkind : kind ≠ .eof) (hf : Costs spare (f ())) :
    tariff.Affords k q ((consume kind msg >>= f).run q) := by
  have hrun : (consume kind msg >>= f).run q = (advance >>= f).run q := by
    unfold consume checkKind
    rw [Prog.bind_assoc, Prog.run_read_bind, if_pos (by simpa using hcurr)]
  rw [hrun]
  exact affords_advance (hcurr ▸ hkind) hf

/-- A loop on twice the credit of an iteration. -/
theorem costs_loop {γ : Type} {body : β → Parse (Iter β γ)} (hk : k ≤ tariff.reserve)
    (hbody : ∀ b, Costs k (body b)) (hprogress : Progresses body) (n : Nat) (b : β) :
    Costs (2 * k) (loop body n b) :=
  fun _ hp => Tariff.affords_loop hk (fun b s hs => hbody b s hs)
    (fun b s b' s' hs hout => hprogress b s b' s' hs hout) n b hp

end Rules

/-! ## Semantic checks -/

/-- A report in front of a result. -/
theorem costs_report {α : Type} (tok : Option Token) (msg : Msg) (a : α) :
    Costs 1 (do ctxError tok msg; return a) :=
  (costs_ctxError tok msg).bind (by decide) fun _ => costs_pure a

/-- An operator is analysed in one step, with at most one report. -/
theorem costs_semaAnalyzeBinary (op : BinOp) (tok : Token) (lhs rhs : Option Node) :
    Costs 2 (semaAnalyzeBinary op tok lhs rhs) := by
  refine costs_mark_bind (by decide) ?_
  cases lhs with
  | none => exact costs_fault
  | some l =>
      cases rhs with
      | none => exact costs_fault
      | some r =>
          refine Costs.read_bind fun mismatch => Costs.ite (costs_report _ _ _) ?_
          cases op <;> first
            | exact costs_pure _
            | exact Costs.ite (costs_report _ _ _) (costs_pure _)

/-- An assignment may be reported twice, for its target and for its type. -/
theorem costs_semaAnalyzeAssign (tok : Token) (lhs rhs : Option Node) :
    Costs 3 (semaAnalyzeAssign tok lhs rhs) := by
  refine costs_mark_bind (by decide) ?_
  cases lhs with
  | none => exact costs_fault
  | some l =>
      cases rhs with
      | none => exact costs_fault
      | some r =>
          have htarget : Costs 1 (checkAssignTarget tok l) :=
            Costs.ite (costs_ctxError _ _) (costs_pure _)
          refine htarget.bind (by decide) fun _ => Costs.read_bind fun mismatch => ?_
          exact Costs.ite (costs_report _ _ _) (costs_pure _)

/-- A return statement is reported at most once. -/
theorem costs_semaAnalyzeReturn (tok : Token) (lhs : Option Node) :
    Costs 2 (semaAnalyzeReturn tok lhs) := by
  refine costs_mark_bind (by decide) (Costs.read_bind fun ret => ?_)
  refine Costs.ite (Costs.ite (costs_report _ _ _) (costs_pure _)) ?_
  refine Costs.ite (costs_report _ _ _) (Costs.read_bind fun mismatch => ?_)
  exact Costs.ite (costs_report _ _ _) (costs_pure _)

/-- So is an initializer. -/
theorem costs_checkInit (ty : Option ObjTy) (tok : Token) (init : Option Node) :
    Costs 1 (checkInit ty tok init) := by
  cases init with
  | none => exact costs_pure _
  | some e => exact Costs.read_bind fun mismatch => Costs.ite (costs_ctxError _ _) (costs_pure _)

/-- A declaration either defines its name or reports it. -/
theorem costs_semaDefineVar (name : Symbol) (ty : Option Ty) (isConst : Bool) :
    Costs 1 (semaDefineVar name ty isConst) := by
  refine Costs.read_bind fun noScope => Costs.ite (costs_pure _) ?_
  refine Costs.read_bind fun declared => Costs.ite (costs_report _ _ _) ?_
  refine Costs.read_bind fun sym => Costs.bind (k := 1) ?_ (by decide) fun _ => costs_pure _
  exact costs_step (fun _ => rfl) fun _ => rfl

/-- Reading the field that a node leaves unwritten. -/
theorem costs_newNodeField : Costs 1 newNodeField :=
  Costs.read_bind fun field =>
    (costs_step (fun _ => rfl) fun _ => rfl).bind (by decide) fun _ => costs_pure field

/-- Keeping it. -/
theorem costs_keepField (field : Option Node) : Costs 1 (keepField field) :=
  costs_mark_bind (by decide) (costs_pure field)

/-- A new array type, or the crash of {lit}`type_array_of` on a null pointer. -/
theorem costs_typeArrayOf (base : Option ObjTy) (len : Int32) : Costs 1 (typeArrayOf base len) := by
  refine costs_mark_bind (by decide) ?_
  cases base with
  | none => exact costs_fault
  | some base => exact costs_pure _

/-- A name that was not found is reported. -/
theorem costs_parserErrorIfNull (sym : Option SemaSymbol) (msg : Msg) :
    Costs 1 (parserErrorIfNull sym msg) := by
  cases sym with
  | none => exact costs_parserError msg
  | some sym => exact costs_pure _

/-- The type of a call, or the crash on a symbol without a type. -/
theorem costs_callTy (name : Symbol) (sym : Option SemaSymbol) : Costs 1 (callTy name sym) := by
  cases sym with
  | none => exact costs_pure _
  | some sym =>
      refine costs_mark_bind (by decide) ?_
      cases sym.ty with
      | none => exact costs_fault
      | some ty => exact costs_read _

/-! ## Expressions -/

section

variable {n : Nat} {e a u m : Parse (Option Node)} {b : Int → Parse (Option Node)}

/-- The end of an iteration that goes round again after a comma. -/
theorem costs_comma {β γ : Type} {k : Nat} (x : β) (y : γ) :
    Costs k (do if ← matchKind .comma then return Iter.again x else return Iter.leave y) :=
  costs_if_match (by decide) (costs_pure _) (costs_pure _)

/-- Arguments are a loop with no credit of its own beyond two of its iterations. -/
theorem costs_parseArgs (ha : Costs 5 a) (hprogress : Progresses (argIter a)) :
    Costs 10 (parseArgs a n) := by
  refine Costs.read_bind fun empty => Costs.ite (costs_pure _) ?_
  refine costs_loop (k := 5) (by decide) (fun args => ?_) hprogress n _
  exact ha.bind (by decide) fun arg => costs_comma _ _

/-- What a call costs behind its name. -/
theorem costs_parseCall (ha : Costs 5 a) (hprogress : Progresses (argIter a)) (name : Symbol) :
    Costs 14 (parseCall a n name) := by
  refine (costs_consume _ (by decide)).bind (by decide) fun _ => Costs.read_bind fun sym => ?_
  refine (costs_parserErrorIfNull _ _).bind (by decide) fun _ => ?_
  refine (costs_parseArgs ha hprogress).bind (by decide) fun args => ?_
  refine (costs_consume _ (by decide)).bind (by decide) fun _ => ?_
  exact (costs_callTy _ _).bind (by decide) fun _ => costs_pure _

/-- A subscript is paid for by its bracket. -/
theorem costs_subscriptIter (he : Costs 5 e) (curr : Node) : Costs 0 (subscriptIter e curr) := by
  refine costs_if_match (by decide) ?_ (costs_pure _)
  refine he.bind (by decide) fun index => (costs_consume _ (by decide)).bind (by decide) fun _ => ?_
  split
  · exact costs_pure _
  · exact (costs_parserError _).bind (by decide) fun _ => costs_pure _

/-- A variable is reported if it is unknown, and its subscripts pay for themselves. -/
theorem costs_parseVariable (he : Costs 5 e) (hprogress : Progresses (subscriptIter e))
    (name : Symbol) : Costs 1 (parseVariable e n name) := by
  refine Costs.read_bind fun sym => (costs_parserErrorIfNull _ _).bind (by decide) fun _ => ?_
  exact costs_loop (by decide) (costs_subscriptIter he) hprogress n _

/-- A primary expression costs its mark and its report, unless it consumes a token. -/
theorem costs_primaryBody (he : Costs 5 e) (ha : Costs 5 a)
    (hargs : Progresses (argIter a)) (hsubscripts : Progresses (subscriptIter e)) :
    Costs 2 (parsePrimaryBody e a n) := by
  have hlit (f : Token → Node) : Costs spare (do
      let prev ← Prog.read Parser.prev
      return some (f prev)) := Costs.read_bind fun prev => costs_pure _
  refine costs_mark_bind (by decide) ?_
  refine costs_if_match (by decide) (hlit _) ?_
  refine costs_if_match (by decide) (hlit _) ?_
  refine costs_if_match (by decide) (hlit _) ?_
  refine costs_if_match (by decide) (costs_pure _) ?_
  refine costs_if_match (by decide) (costs_pure _) ?_
  refine costs_if_match (by decide) ?_ ?_
  · refine he.bind (by decide) fun expr => ?_
    exact (costs_consume _ (by decide)).bind (by decide) fun _ => costs_pure _
  refine costs_if_match (by decide) ?_ ?_
  · refine Costs.read_bind fun prev => Costs.read_bind fun call => Costs.ite ?_ ?_
    · exact (costs_parseCall ha hargs _).mono (by decide)
    · exact (costs_parseVariable he hsubscripts _).mono (by decide)
  · exact (costs_parserError _).bind (by decide) fun _ => costs_pure _

/-- An operator pays for its operand. -/
theorem costs_unaryBody (hu : Costs 3 u) (hm : Costs 2 m) : Costs 3 (parseUnaryBody u m) := by
  refine costs_mark_bind (by decide) ?_
  refine costs_if_match (by decide) (hu.mono (by decide)) ?_
  refine costs_if_match (by decide) (hu.bind (by decide) fun lhs => costs_pure _) ?_
  exact costs_if_match (by decide) (hu.bind (by decide) fun lhs => costs_pure _) hm

/-- An operator that binds tightly enough is no end of file, and pays for its operand. -/
theorem costs_binaryIter {prec : Int} (hprec : 0 ≤ prec) (hb : ∀ prec, 0 ≤ prec → Costs 4 (b prec))
    (lhs : Option Node) : Costs 0 (binaryIter b prec lhs) := by
  intro q hq
  unfold binaryIter
  rw [Prog.run_read_bind]
  by_cases hlt : getPrec q.curr.kind < prec
  · rw [if_pos hlt]
    exact costs_pure _ q hq
  · have hkind : q.curr.kind ≠ .eof := by
      intro heof
      rw [heof] at hlt
      simp only [getPrec] at hlt
      omega
    rw [if_neg hlt]
    refine affords_advance hkind (costs_mark_bind (by decide) ?_)
    refine (hb _ (by omega)).bind (by decide) fun rhs => Costs.read_bind fun tok => ?_
    exact (costs_semaAnalyzeBinary _ _ _ _).bind (by decide) fun node => costs_pure _

/-- The operand in front costs what a unary expression does, and each operator pays for what is
behind it. -/
theorem costs_binaryBody {prec : Int} (hprec : 0 ≤ prec) (hu : Costs 3 u)
    (hb : ∀ prec, 0 ≤ prec → Costs 4 (b prec)) (hprogress : Progresses (binaryIter b prec)) :
    Costs 4 (parseBinaryBody u b n prec) := by
  refine costs_mark_bind (by decide) (hu.bind (by decide) fun lhs => ?_)
  exact costs_loop (by decide) (costs_binaryIter hprec hb) hprogress n lhs

/-- An assignment sign pays for the right side. -/
theorem costs_assignBody (hb : ∀ prec, 0 ≤ prec → Costs 4 (b prec)) (ha : Costs 5 a) :
    Costs 5 (parseAssignBody b a) := by
  refine costs_mark_bind (by decide) ((hb 0 (by decide)).bind (by decide) fun lhs => ?_)
  refine costs_if_match (by decide) (costs_mark_bind (by decide) ?_) (costs_pure _)
  refine ha.bind (by decide) fun rhs => Costs.read_bind fun tok => ?_
  exact (costs_semaAnalyzeAssign _ _ _).bind (by decide) fun node => costs_pure _

end

/-- What the five expression functions cost, by induction on the budget that they share. -/
theorem costs_expressions (n : Nat) :
    Costs 2 (parsePrimary n) ∧ Costs 3 (parseUnary n) ∧
      (∀ prec, 0 ≤ prec → Costs 4 (parseBinary n prec)) ∧ Costs 5 (parseAssign n) ∧
        Costs 5 (parseExpr n) := by
  induction n with
  | zero =>
      exact ⟨costs_timeout, costs_timeout, fun _ _ => costs_timeout, costs_timeout, costs_timeout⟩
  | succ n ih =>
      obtain ⟨hprimary, hunary, hbinary, hassign, hexpr⟩ := ih
      have hloops := loopsProgress n
      refine ⟨?_, costs_unaryBody hunary hprimary, fun prec hprec => ?_,
        costs_assignBody hbinary hassign, ?_⟩
      · exact costs_primaryBody hexpr hassign hloops.arguments hloops.subscripts
      · exact costs_binaryBody hprec hunary hbinary (hloops.operators prec hprec)
      · exact costs_mark_bind (by decide) (hbinary 0 (by decide))

theorem costs_assign (n : Nat) : Costs 5 (parseAssign n) := (costs_expressions n).2.2.2.1

theorem costs_expr (n : Nat) : Costs 5 (parseExpr n) := (costs_expressions n).2.2.2.2

/-! ## Declarations -/

section

variable {n : Nat} {e a i : Parse (Option Node)}

/-- A dimension is paid for by its bracket. -/
theorem costs_dimsIter (base : Option ObjTy) : Costs 0 (dimsIter base) := by
  refine costs_if_match (by decide) (costs_if_match (by decide) ?_ ?_) (costs_pure _)
  · refine Costs.read_bind fun prev => (costs_consume _ (by decide)).bind (by decide) fun _ => ?_
    exact (costs_typeArrayOf _ _).bind (by decide) fun ty => costs_pure _
  · refine (costs_parserError _).bind (by decide) fun _ => ?_
    exact (costs_matchKind (by decide)).bind (by decide) fun _ => costs_pure _

/-- Dimensions cost the mark in front of them. -/
theorem costs_parseArrayDims (n : Nat) (base : Option ObjTy) : Costs 1 (parseArrayDims n base) :=
  costs_mark_bind (by decide)
    (costs_loop (by decide) costs_dimsIter (loopsProgress n).dims n base)

/-- A brace list is read where it opens. -/
def CostsAtBrace (m : Parse (Option Node)) : Prop :=
  ∀ p, AtEnd p → p.curr.kind = .lBrace → tariff.Affords 1 p (m.run p)

/-- A choice between a brace list and something else, by the brace. -/
theorem costs_if_brace {k : Nat} {m : Parse (Option Node)} (hi : CostsAtBrace i) (hk : 1 ≤ k)
    (hm : Costs k m) : Costs k (do if ← checkKind .lBrace then i else m) := by
  intro q hq
  apply affords_if_check
  · exact fun hcurr => (hi q hq hcurr).mono hk
  · exact fun _ => hm q hq

/-- The elements of a brace list. -/
theorem costs_parseElements (hi : CostsAtBrace i) (ha : Costs 5 a)
    (hprogress : Progresses (elementIter i a)) : Costs 10 (parseElements i a n) := by
  refine Costs.read_bind fun empty => Costs.ite (costs_pure _) ?_
  refine costs_loop (k := 5) (by decide) (fun inits => ?_) hprogress n _
  exact (costs_if_brace hi (by decide) ha).bind (by decide) fun val => costs_comma _ _

/-- A brace list is paid for by its opening brace. -/
theorem costs_initializerListBody (hi : CostsAtBrace i) (ha : Costs 5 a)
    (hprogress : Progresses (elementIter i a)) :
    CostsAtBrace (parseInitializerListBody i a n) := by
  intro p hp hcurr
  refine affords_mark_bind (by decide) hp (affords_consume hcurr (by decide) ?_)
  refine (costs_parseElements hi ha hprogress).bind (by decide) fun inits => ?_
  exact (costs_consume _ (by decide)).bind (by decide) fun _ => costs_pure _

/-- For every budget. -/
theorem costs_initializerList (n : Nat) : CostsAtBrace (parseInitializerList n) := by
  induction n with
  | zero => exact fun _ _ _ => Tariff.affords_timeout
  | succ n ih => exact costs_initializerListBody ih (costs_assign n) (loopsProgress n).elements

/-- An initializer is paid for by its equals sign. -/
theorem costs_parseInit (hi : CostsAtBrace i) (he : Costs 5 e) (ty : Option ObjTy)
    (isConst : Bool) (tok : Token) (field : Option Node) :
    Costs 2 (parseInit i e ty isConst tok field) := by
  refine costs_if_match (by decide) (costs_if_brace hi (by decide) ?_) (Costs.ite ?_ ?_)
  · refine he.bind (by decide) fun init => ?_
    exact (costs_checkInit _ _ _).bind (by decide) fun _ => costs_pure _
  · exact (costs_parserError _).bind (by decide) fun _ => costs_keepField _
  · exact (costs_keepField _).mono (by decide)

/-- The dimensions, the definition and the node of a declarator. -/
theorem costs_parseDeclarator (hi : CostsAtBrace i) (he : Costs 5 e) (baseTy : ObjTy)
    (isConst : Bool) (name : Symbol) : Costs 5 (parseDeclarator i e n baseTy isConst name) := by
  refine (costs_parseArrayDims _ _).bind (by decide) fun ty => ?_
  refine (costs_semaDefineVar _ _ _).bind (by decide) fun sym => Costs.read_bind fun tok => ?_
  refine costs_newNodeField.bind (by decide) fun field => ?_
  exact (costs_parseInit hi he _ _ _ _).bind (by decide) fun init => costs_pure _

/-- The first name was read by the caller; the others are read here. -/
theorem costs_parseDeclaratorName (first : Option Symbol) :
    Costs 1 (parseDeclaratorName first) := by
  cases first with
  | some name => exact costs_pure _
  | none =>
      refine costs_if_match (by decide) (Costs.read_bind fun prev => costs_pure _) ?_
      exact (costs_parserError _).bind (by decide) fun _ => costs_pure _

/-- A declarator, and the comma behind it. -/
theorem costs_declaratorIter (hi : CostsAtBrace i) (he : Costs 5 e) (baseTy : ObjTy)
    (isConst : Bool) (st : Option Symbol × List Node) :
    Costs 6 (declaratorIter i e n baseTy isConst st) := by
  refine (costs_parseDeclaratorName _).bind (by decide) fun name => ?_
  cases name with
  | none => exact costs_pure _
  | some name =>
      exact (costs_parseDeclarator hi he _ _ _).bind (by decide) fun decl => costs_comma _ _

end

/-- A declaration, from the name on. -/
theorem costs_parseVarDeclList (n : Nat) (baseTy : ObjTy) (firstName : Symbol)
    (isConst isGlobal : Bool) :
    Costs 14 (parseVarDeclList n baseTy firstName isConst isGlobal) := by
  have hloop := costs_loop (by decide)
    (costs_declaratorIter (n := n) (costs_initializerList n) (costs_expr n) baseTy isConst)
    ((loopsProgress n).declarators baseTy isConst) n (some firstName, [])
  refine costs_mark_bind (by decide) (hloop.bind (by decide) fun stmts => ?_)
  exact (costs_consume _ (by decide)).bind (by decide) fun _ => costs_pure _

/-- The declaration inside a function, which begins with its type. -/
theorem costs_parseDecl (n : Nat) : Costs 4 (parseDecl n) := by
  refine costs_mark_bind (by decide)
    ((costs_matchKind (by decide)).bind (by decide) fun isConst => ?_)
  refine Costs.read_bind fun curr => ?_
  cases tokenToType curr.kind with
  | none => exact ((costs_parserError _).bind (by decide) fun _ => costs_pure _)
  | some baseTy =>
      refine costs_advance.bind (by decide) fun _ => costs_if_match (by decide) ?_ ?_
      · exact Costs.read_bind fun prev => (costs_parseVarDeclList _ _ _ _ _).mono (by decide)
      · exact (costs_parserError _).bind (by decide) fun _ => costs_pure _

/-! ## Recovery -/

/-- A token that is skipped pays for the next one to be looked at. -/
theorem costs_synchronizeIter (u : Unit) : Costs 1 (synchronizeIter u) := by
  intro q hq
  apply affords_if_check
  · exact fun _ => costs_pure _ q hq
  intro hkind
  rw [Prog.run_read_bind]
  by_cases hprev : (q.prev.kind == .semicolon) = true
  · rw [if_pos hprev]
    exact costs_pure _ q hq
  rw [if_neg hprev, Prog.run_read_bind]
  by_cases hcurr : isSyncKind q.curr.kind = true
  · rw [if_pos hcurr]
    exact costs_pure _ q hq
  rw [if_neg hcurr, Prog.run_read_bind]
  exact affords_mark_bind (by decide) hq (affords_advance hkind (costs_pure _))

/-- Recovery costs three steps, however many tokens it skips. -/
theorem costs_synchronize (n : Nat) : Costs 3 (synchronize n) := by
  refine Costs.bind (k := 1) (costs_step (fun _ => rfl) fun _ => rfl) (by decide) fun _ => ?_
  exact costs_loop (by decide) costs_synchronizeIter (loopsProgress n).synchronize n ()

/-- Recovery in a body is left out unless there was an error. -/
theorem costs_recoverInBody (n : Nat) : Costs 3 (recoverInBody n) :=
  Costs.read_bind fun panic =>
    Costs.ite ((costs_synchronize n).bind (by decide) fun _ => costs_read _) (costs_pure _)

/-! ## Statements -/

section

variable {n : Nat} {e d s b : Parse (Option Node)}

/-- A declaration or a statement of a body. -/
theorem costs_bodyItem (hd : Costs 4 d) (hs : Costs 7 s) (unexpected : Msg) (stmts : List Node) :
    Costs 7 (bodyItem d s unexpected stmts) := by
  refine Costs.read_bind fun kind => Costs.ite ?_ (Costs.ite ?_ ?_)
  · refine (costs_parserError _).bind (by decide) fun _ => ?_
    exact costs_advance.bind (by decide) fun _ => costs_pure _
  · exact hd.bind (by decide) fun decl => costs_pure _
  · exact hs.bind (by decide) fun stmt => costs_pure _

/-- A body costs two iterations of its loop. -/
theorem costs_body (hd : Costs 4 d) (hs : Costs 7 s) (unexpected : Msg)
    (hprogress : Progresses (bodyIter d s unexpected n)) (stmts : List Node) :
    Costs 20 (loop (bodyIter d s unexpected n) n stmts) := by
  refine costs_loop (k := 10) (by decide) (fun stmts => ?_) hprogress n stmts
  refine Costs.read_bind fun ends => Costs.ite (costs_pure _) ?_
  refine (costs_recoverInBody n).bind (by decide) fun ends => Costs.ite (costs_pure _) ?_
  exact costs_bodyItem hd hs unexpected stmts

/-- Entering a scope is one step. -/
theorem costs_semaScopeEnter : Costs 1 semaScopeEnter := costs_step (fun _ => rfl) fun _ => rfl

/-- Leaving it is one. -/
theorem costs_semaScopeLeave : Costs 1 semaScopeLeave := costs_step (fun _ => rfl) fun _ => rfl

/-- A block is paid for by its opening brace. -/
theorem costs_blockBody (hd : Costs 4 d) (hs : Costs 7 s)
    (hprogress : Progresses (bodyIter d s .unexpectedInBlock n)) :
    CostsAtBrace (parseBlockBody d s n) := by
  intro p hp hcurr
  refine affords_mark_bind (by decide) hp (affords_consume hcurr (by decide) ?_)
  refine costs_semaScopeEnter.bind (by decide) fun _ => ?_
  refine (costs_body hd hs _ hprogress _).bind (by decide) fun stmts => ?_
  refine costs_semaScopeLeave.bind (by decide) fun _ => ?_
  exact (costs_consume _ (by decide)).bind (by decide) fun _ => costs_pure _

/-- An {lit}`if` statement behind its keyword. -/
theorem costs_parseIf (he : Costs 5 e) (hs : Costs 7 s) : Costs 16 (parseIf e s) := by
  refine costs_newNodeField.bind (by decide) fun field => ?_
  refine (costs_consume _ (by decide)).bind (by decide) fun _ => he.bind (by decide) fun cond => ?_
  refine (costs_consume _ (by decide)).bind (by decide) fun _ => hs.bind (by decide) fun body => ?_
  have helse : Costs 1 (parseElse s field) :=
    costs_if_match (by decide) (hs.mono (by decide)) (costs_keepField _)
  exact helse.bind (by decide) fun alt => costs_pure _

/-- A {lit}`while` statement behind its keyword. -/
theorem costs_parseWhile (he : Costs 5 e) (hs : Costs 7 s) : Costs 14 (parseWhile e s) := by
  refine (costs_consume _ (by decide)).bind (by decide) fun _ => he.bind (by decide) fun cond => ?_
  refine (costs_consume _ (by decide)).bind (by decide) fun _ => ?_
  exact hs.bind (by decide) fun body => costs_pure _

/-- A {lit}`return` statement behind its keyword. -/
theorem costs_parseReturn (he : Costs 5 e) : Costs 9 (parseReturn e) := by
  refine Costs.read_bind fun tok => costs_newNodeField.bind (by decide) fun field => ?_
  have hvalue : Costs 5 (parseReturnValue e field) :=
    Costs.read_bind fun empty => Costs.ite ((costs_keepField _).mono (by decide)) he
  refine hvalue.bind (by decide) fun lhs => ?_
  refine (costs_consume _ (by decide)).bind (by decide) fun _ => ?_
  exact (costs_semaAnalyzeReturn _ _).bind (by decide) fun node => costs_pure _

/-- The right side of an assignment is paid for by the sign. -/
theorem costs_parseStmtAssign (he : Costs 5 e) (lhs : Node) : Costs 0 (parseStmtAssign e lhs) := by
  refine costs_if_match (by decide) (he.bind (by decide) fun rhs => ?_) (costs_pure _)
  cases rhs with
  | none => exact (costs_parserError _).bind (by decide) fun _ => costs_pure _
  | some rhs => exact Costs.read_bind fun tok => (costs_semaAnalyzeAssign _ _ _).mono (by decide)

/-- A statement that begins with an expression. -/
theorem costs_parseExprStmt (he : Costs 5 e) : Costs 6 (parseExprStmt e) := by
  refine he.bind (by decide) fun expr => ?_
  cases expr with
  | none => exact costs_pure _
  | some expr =>
      refine (costs_parseStmtAssign he expr).bind (by decide) fun lhs => ?_
      exact (costs_consume _ (by decide)).bind (by decide) fun _ => costs_pure _

/-- The keyword of a statement pays for it; without one it costs what an expression does. -/
theorem costs_stmtBody (he : Costs 5 e) (hs : Costs 7 s) (hb : CostsAtBrace b) :
    Costs 7 (parseStmtBody e s b) := by
  have hjump (node : Node) : Costs spare (do
      consume .semicolon .expectSemicolon
      return some node) := (costs_consume _ (by decide)).bind (by decide) fun _ => costs_pure _
  refine costs_mark_bind (by decide) ?_
  refine costs_if_match (by decide) ((costs_parseIf he hs).mono (by decide)) ?_
  refine costs_if_match (by decide) ((costs_parseWhile he hs).mono (by decide)) ?_
  refine costs_if_match (by decide) ((costs_parseReturn he).mono (by decide)) ?_
  refine costs_if_match (by decide) (hjump _) ?_
  refine costs_if_match (by decide) (hjump _) ?_
  exact costs_if_brace hb (by decide) (costs_parseExprStmt he)

end

/-- Blocks and statements together, by induction on the budget that they share. -/
theorem costs_statements (n : Nat) : CostsAtBrace (parseBlock n) ∧ Costs 7 (parseStmt n) := by
  induction n with
  | zero => exact ⟨fun _ _ _ => Tariff.affords_timeout, costs_timeout⟩
  | succ n ih =>
      obtain ⟨hblock, hstmt⟩ := ih
      refine ⟨?_, costs_stmtBody (costs_expr n) hstmt hblock⟩
      exact costs_blockBody (costs_parseDecl n) hstmt ((loopsProgress n).body _)

/-! ## Functions -/

/-- The first dimension of a parameter, which may be left open. -/
theorem costs_parseParamLen (argTy : Option ObjTy) : Costs 1 (parseParamLen argTy) := by
  refine costs_if_match (by decide) ((costs_typeArrayOf _ _).mono (by decide)) ?_
  refine costs_if_match (by decide) (Costs.read_bind fun prev => ?_) ?_
  · refine (costs_consume _ (by decide)).bind (by decide) fun _ => ?_
    exact (costs_typeArrayOf _ _).mono (by decide)
  · exact (costs_parserError _).bind (by decide) fun _ => costs_pure _

/-- Its brackets pay for all dimensions. -/
theorem costs_parseParamSuffix (n : Nat) (argTy : Option ObjTy) :
    Costs 0 (parseParamSuffix n argTy) := by
  refine costs_if_match (by decide) ?_ (costs_pure _)
  refine (costs_parseParamLen _).bind (by decide) fun ty => ?_
  exact (costs_parseArrayDims _ _).mono (by decide)

/-- The type of a parameter is recorded in one step. -/
theorem costs_pushParam (id : Nat) (ty : Option ObjTy) : Costs 1 (pushParam id ty) :=
  costs_step (fun _ => rfl) fun _ => rfl

/-- A parameter, and the comma behind it. -/
theorem costs_paramIter (n funcTy : Nat) (u : Unit) : Costs 7 (paramIter n funcTy u) := by
  refine costs_mark_bind (by decide) (Costs.read_bind fun curr => ?_)
  have hty : Costs 1 (parserErrorIfNoType (tokenToType curr.kind)) := by
    cases tokenToType curr.kind with
    | none => exact costs_parserError _
    | some ty => exact costs_pure _
  refine hty.bind (by decide) fun _ => costs_advance.bind (by decide) fun _ => ?_
  refine (costs_consume _ (by decide)).bind (by decide) fun _ => Costs.read_bind fun prev => ?_
  refine (costs_parseParamSuffix _ _).bind (by decide) fun argTy => ?_
  refine (costs_semaDefineVar _ _ _).bind (by decide) fun _ => ?_
  exact (costs_pushParam _ _).bind (by decide) fun _ => costs_comma _ _

/-- The parameters of a function. -/
theorem costs_parseParams (n funcTy : Nat) : Costs 14 (parseParams n funcTy) :=
  Costs.read_bind fun empty => Costs.ite (costs_pure _)
    (costs_loop (by decide) (costs_paramIter n funcTy) ((loopsProgress n).params funcTy) n ())

/-- A new function type is one step. -/
theorem costs_typeFuncNew (ret : ObjTy) : Costs 1 (typeFuncNew ret) := by
  refine Costs.read_bind fun id => Costs.bind (k := 1) ?_ (by decide) fun _ => costs_pure _
  exact costs_step (fun _ => rfl) fun _ => rfl

/-- So is the return type that the body is checked against. -/
theorem costs_setFuncRet (ret : Option ObjTy) : Costs 1 (setFuncRet ret) :=
  costs_step (fun _ => rfl) fun _ => rfl

/-- A function is read from its opening parenthesis on. -/
theorem affords_parseFunc (n : Nat) (retTy : ObjTy) (name : Symbol) {p : Parser} (hp : AtEnd p)
    (hcurr : p.curr.kind = .lParen) : tariff.Affords 1 p ((parseFunc n retTy name).run p) := by
  have hbody := costs_body (costs_parseDecl n) (costs_statements n).2 .unexpectedInBody
    ((loopsProgress n).body _) []
  refine affords_mark_bind (by decide) hp (affords_consume hcurr (by decide) ?_)
  refine (costs_typeFuncNew _).bind (by decide) fun funcTy => ?_
  refine (costs_semaDefineVar _ _ _).bind (by decide) fun _ => ?_
  refine (costs_setFuncRet _).bind (by decide) fun _ => ?_
  refine costs_semaScopeEnter.bind (by decide) fun _ => ?_
  refine (costs_parseParams n funcTy).bind (by decide) fun _ => ?_
  refine (costs_consume _ (by decide)).bind (by decide) fun _ => ?_
  refine (costs_consume _ (by decide)).bind (by decide) fun _ => ?_
  refine hbody.bind (by decide) fun stmts => ?_
  refine (costs_consume _ (by decide)).bind (by decide) fun _ => ?_
  refine costs_semaScopeLeave.bind (by decide) fun _ => ?_
  exact (costs_setFuncRet _).bind (by decide) fun _ => costs_pure _

/-! ## The compilation unit -/

/-- A declaration or a function, or the report that there is none. -/
theorem costs_parseTopLevel (n : Nat) : Costs 4 (parseTopLevel n) := by
  refine costs_mark_bind (by decide)
    ((costs_matchKind (by decide)).bind (by decide) fun isConst => ?_)
  refine Costs.read_bind fun curr => ?_
  cases tokenToType curr.kind with
  | none =>
      refine Costs.ite ?_ (costs_pure _)
      refine (costs_parserError _).bind (by decide) fun _ => ?_
      exact costs_advance.bind (by decide) fun _ => costs_pure _
  | some ty =>
      refine costs_advance.bind (by decide) fun _ q hq => ?_
      apply affords_if_check
      · intro hcurr
        refine affords_consume hcurr (by decide) (Costs.read_bind fun prev q' hq' => ?_)
        apply affords_if_check
        · exact fun hparen => (affords_parseFunc n ty _ hq' hparen).mono (by decide)
        · exact fun _ => (costs_parseVarDeclList n ty _ isConst true q' hq').mono (by decide)
      · exact fun _ => (costs_parserError _).bind (by decide) (fun _ => costs_pure _) q hq

/-- One round of the loop of {lit}`parser_parse`, recovery included. -/
theorem costs_topIter (n : Nat) (globals : List Node) : Costs 12 (topIter n globals) := by
  have heof : Costs 2 (matchKind .eof) := fun q hq => by
    apply affords_if_check
    · exact fun _ => (costs_advance.bind (by decide) fun _ => costs_pure _) q hq
    · exact fun _ => costs_pure _ q hq
  refine heof.bind (by decide) fun ends => Costs.ite (costs_pure _) ?_
  refine (costs_parseTopLevel n).bind (by decide) fun node => ?_
  cases node with
  | some node => exact costs_pure _
  | none =>
      have hreport : Costs 1 reportTopLevel :=
        Costs.read_bind fun quiet => Costs.ite (costs_parserError _) (costs_pure _)
      have hsync : Costs 3 (synchronizeIfPanic n) :=
        Costs.read_bind fun panic =>
          Costs.ite ((costs_synchronize n).bind (by decide) fun _ => costs_pure _) (costs_pure _)
      have hskip : Costs 2 skipIfStuck :=
        Costs.read_bind fun stuck => Costs.ite costs_advance (costs_pure _)
      refine hreport.bind (by decide) fun _ => hsync.bind (by decide) fun _ => ?_
      exact hskip.bind (by decide) fun _ => costs_pure _

/-- A built-in function: its type, its parameter and its name. -/
theorem costs_installBuiltin (intern : List UInt8 → Symbol) (name : List Char) (ret : ObjTy)
    (arg1Ty : Option ObjTy) : Costs 3 (installBuiltin intern name ret arg1Ty) := by
  have hparam (funcTy : Nat) : Costs 1 (pushBuiltinParam funcTy arg1Ty) := by
    cases arg1Ty with
    | none => exact costs_pure _
    | some ty => exact costs_pushParam _ _
  refine (costs_typeFuncNew _).bind (by decide) fun funcTy => ?_
  refine (hparam funcTy).bind (by decide) fun _ => ?_
  exact (costs_semaDefineVar _ _ _).bind (by decide) fun _ => costs_pure _

/-- There are as many as there are. -/
theorem costs_installBuiltins (intern : List UInt8 → Symbol)
    (bs : List (List Char × ObjTy × Option ObjTy)) :
    Costs (3 * bs.length) (installBuiltins intern bs) := by
  induction bs with
  | nil => exact costs_pure _
  | cons entry bs ih =>
      obtain ⟨name, ret, arg1Ty⟩ := entry
      refine (costs_installBuiltin intern name ret arg1Ty).bind ?_ fun _ => ih.mono ?_
      · rw [List.length_cons]
        omega
      · rw [List.length_cons]
        omega

/-- A whole parse behind the first call of {lit}`advance`. -/
theorem costs_parserParse (intern : List UInt8 → Symbol) (n : Nat) :
    Costs spare (parserParse intern n) := by
  have hloop := costs_loop (by decide) (costs_topIter n) (loopsProgress n).parserParse n []
  refine costs_semaScopeEnter.bind (by decide) fun _ => ?_
  refine (costs_installBuiltins intern builtins).bind (by decide) fun _ => ?_
  refine hloop.bind (by decide) fun globals => ?_
  exact costs_semaScopeLeave.bind (by decide) fun _ => costs_pure _

/-- What a parse costs. -/
theorem length_parserRun (intern : List UInt8 → Symbol) (mem : Memory) (ts : TokenStream) :
    (parserRun intern mem ts).steps.length ≤ 76 * ts.tokens.length + 52 := by
  have htimeout := parserRun_ne_timeout intern mem ts
  obtain ⟨q, hout, hq, hrem, hcost⟩ := advance_cost (start mem Context.init ts)
  unfold parserRun parserProgram at htimeout ⊢
  rw [Prog.bind_done hout] at htimeout ⊢
  have hparse := (costs_parserParse intern (budget ts.tokens.length) q hq).cost_le htimeout
  rw [cost_eq] at hparse
  have hle : ((parserParse intern (budget ts.tokens.length)).run q).steps.length ≤
      76 * q.remaining + 50 := hparse
  have hrest : (start mem Context.init ts).rest.length = ts.tokens.length := rfl
  rw [List.length_append]
  omega

end Parser

end Cact
