import Cact.Lexer.Progress
import Cact.Driver
import Cact.Parser.Progress

/-!
# Termination

Every parse ends: each iteration of a loop that goes round again has consumed a token,
and so has every cycle of recursive calls.

Main results:

- Theorem {lit}`Parser.calls_expressions` and its companions: every parsing function
  descends.
- Theorem {lit}`Parser.descends_parserProgram`: a budget proportional to the number of
  tokens is never used up.
- Theorem {lit}`front_end_terminates`: what this means for the lexer and the parser
  together.
-/

open Traced

namespace Cact

namespace Parser

/-- The tokens that begin a primary expression. -/
def isPrimaryStart : TokenKind → Bool
  | .litInt | .litFloat | .litDouble | .kwTrue | .kwFalse | .lParen | .ident => true
  | _ => false

/-- The tokens that begin an expression. -/
def isExprStart : TokenKind → Bool
  | .plus | .minus | .logNot => true
  | kind => isPrimaryStart kind

section

variable {n r : Nat} {p q : Parser}

/-! ## Semantic checks -/

/-- A report, and the node it is about. -/
theorem meets_report {α : Type} (tok : Option Token) (m : Msg) (a : α) {s : Parser}
    (hs : Later q s) :
    ((do ctxError tok m; return a).run s).Meets (descends p r n) fun _ q' => Later q q' := by
  refine Prog.meets_bind (meets_ctxError _ _ hs.1) fun _ s' hs' => ?_
  exact Prog.meets_pure (hs.trans hs')

/-- A mark that enters no function. -/
theorem meets_mark {e : Event} (he : ∀ g, e ≠ .enter g) (hq : AtEnd q) :
    ((Prog.mark e : Parse Unit).run q).Meets (descends p r n) fun _ q' => Later q q' :=
  meets_quiet he rfl rfl hq

/-- The analysis of an operator consumes nothing and calls nothing. -/
theorem meets_analyzeBinary (op : BinOp) (tok : Token) (lhs rhs : Option Node)
    (hq : AtEnd q) :
    ((semaAnalyzeBinary op tok lhs rhs).run q).Meets (descends p r n) fun _ q' =>
      Later q q' := by
  refine Prog.meets_bind (meets_mark (by simp) hq) fun _ q' hq' => ?_
  cases lhs with
  | none => exact Prog.meets_fault trivial
  | some l =>
      cases rhs with
      | none => exact Prog.meets_fault trivial
      | some rhs =>
          dsimp only
          rw [Prog.run_read_bind]
          by_cases hty : (!typeEq q'.sema.funcs l.ty rhs.ty) = true
          · rw [if_pos hty]
            exact meets_report _ _ _ hq'
          · rw [if_neg hty]
            cases op <;> dsimp only <;>
              first
              | exact Prog.meets_pure hq'
              | (split
                 · exact meets_report _ _ _ hq'
                 · exact Prog.meets_pure hq')

/-- Neither does that of an assignment. -/
theorem meets_analyzeAssign (tok : Token) (lhs rhs : Option Node) (hq : AtEnd q) :
    ((semaAnalyzeAssign tok lhs rhs).run q).Meets (descends p r n) fun _ q' =>
      Later q q' := by
  refine Prog.meets_bind (meets_mark (by simp) hq) fun _ q₁ hq₁ => ?_
  cases lhs with
  | none => exact Prog.meets_fault trivial
  | some l =>
      cases rhs with
      | none => exact Prog.meets_fault trivial
      | some rhs =>
          refine Prog.meets_bind (R := fun _ q' => Later q q') ?_ fun _ q₂ hq₂ => ?_
          · unfold checkAssignTarget
            split
            · exact (meets_ctxError _ _ hq₁.1).mono fun _ _ h => hq₁.trans h
            · exact Prog.meets_pure hq₁
          · rw [Prog.run_read_bind]
            split
            · exact meets_report _ _ _ hq₂
            · exact Prog.meets_pure hq₂

/-- Neither does that of a return statement. -/
theorem meets_analyzeReturn (tok : Token) (lhs : Option Node) (hq : AtEnd q) :
    ((semaAnalyzeReturn tok lhs).run q).Meets (descends p r n) fun _ q' => Later q q' := by
  refine Prog.meets_bind (meets_mark (by simp) hq) fun _ q' hq' => ?_
  rw [Prog.run_read_bind]
  split
  · split
    · exact meets_report _ _ _ hq'
    · exact Prog.meets_pure hq'
  · split
    · exact meets_report _ _ _ hq'
    · rw [Prog.run_read_bind]
      split
      · exact meets_report _ _ _ hq'
      · exact Prog.meets_pure hq'

/-- Neither does the check of an initializer. -/
theorem meets_checkInit (ty : Option ObjTy) (tok : Token) (init : Option Node)
    (hq : AtEnd q) :
    ((checkInit ty tok init).run q).Meets (descends p r n) fun _ q' => Later q q' := by
  cases init with
  | none => exact Prog.meets_pure (Later.refl hq)
  | some e =>
      unfold checkInit
      rw [Prog.run_read_bind]
      split
      · exact meets_ctxError _ _ hq
      · exact Prog.meets_pure (Later.refl hq)

/-- Neither does a definition. -/
theorem meets_defineVar (name : Symbol) (ty : Option Ty) (isConst : Bool) (hq : AtEnd q) :
    ((semaDefineVar name ty isConst).run q).Meets (descends p r n) fun _ q' =>
      Later q q' := by
  unfold semaDefineVar
  rw [Prog.run_read_bind]
  split
  · exact Prog.meets_pure (Later.refl hq)
  rw [Prog.run_read_bind]
  split
  · exact meets_report _ _ _ (Later.refl hq)
  · rw [Prog.run_read_bind]
    refine Prog.meets_bind (meets_quiet (by simp) rfl rfl hq) fun _ q' hq' => ?_
    exact Prog.meets_pure hq'

/-- Neither does the field of a new node. -/
theorem meets_nodeField (hq : AtEnd q) :
    (newNodeField.run q).Meets (descends p r n) fun _ q' => Later q q' := by
  unfold newNodeField
  rw [Prog.run_read_bind]
  refine Prog.meets_bind (meets_quiet (by simp) rfl rfl hq) fun _ q' hq' => ?_
  exact Prog.meets_pure hq'

/-- Neither does keeping it. -/
theorem meets_keepField (field : Option Node) (hq : AtEnd q) :
    ((keepField field).run q).Meets (descends p r n) fun _ q' => Later q q' :=
  Prog.meets_bind (meets_mark (by simp) hq) fun _ _ hq' => Prog.meets_pure hq'

/-- Neither does a new array type. -/
theorem meets_arrayOf (base : Option ObjTy) (len : Int32) (hq : AtEnd q) :
    ((typeArrayOf base len).run q).Meets (descends p r n) fun _ q' => Later q q' := by
  refine Prog.meets_bind (meets_mark (by simp) hq) fun _ q' hq' => ?_
  cases base with
  | none => exact Prog.meets_fault trivial
  | some base => exact Prog.meets_pure hq'

/-! ## Expressions -/

/-- A call after a consumed token. -/
theorem meets_nested {α : Type} {f : Fn} {m : Parse α} {starts : TokenKind → Bool}
    (hm : Calls f n starts m) (hq : Ready f q) (hqp : q.remaining < p.remaining) :
    (m.run q).Meets (descends p r n) fun _ q' => Later q q' :=
  (meets_call (Or.inl hqp) (hm.meets q hq)).mono fun _ _ h => h.1

/-- The end of an iteration that goes round again after a comma. -/
theorem meets_comma {β γ : Type} {b : β} {c : γ} {s : Parser} (hs : Later q s) :
    ((do if ← matchKind .comma then return Iter.again b else return Iter.leave c).run s).Meets
      (descends p r n) fun i q' => Consumed q i q' := by
  apply meets_if_match (by decide) hs.1
  · intro s' _ hs' hrem
    exact Prog.meets_pure ⟨hs', Nat.lt_of_lt_of_le hrem hs.2⟩
  · exact fun _ => Prog.meets_pure hs

/-- A round of the arguments that is repeated has consumed a comma. -/
theorem meets_argIter {a : Parse (Option Node)} (ha : Calls .assign n isExprStart a)
    (args : List (Option Node)) (hq : AtEnd q) (hqp : q.remaining < p.remaining) :
    ((argIter a args).run q).Meets (descends p r n) fun i q' => Consumed q i q' := by
  refine Prog.meets_bind (meets_nested ha ⟨hq, trivial⟩ hqp) fun arg q' hq' => ?_
  exact meets_comma hq'

/-- A call, once its name is consumed. -/
theorem meets_parseCall {a : Parse (Option Node)} (ha : Calls .assign n isExprStart a)
    (name : Symbol) (hr : 0 < r) (hq : AtEnd q) (hqp : q.remaining < p.remaining) :
    ((parseCall a n name).run q).Meets (descends p r n) fun _ q' => Later q q' := by
  refine Prog.meets_bind (meets_consume (by decide) hq) fun _ q₁ hq₁ => ?_
  unfold semaLookup
  rw [Prog.run_read_bind]
  refine Prog.meets_bind (R := fun _ q' => Later q q') ?_ fun _ q₂ hq₂ => ?_
  · unfold parserErrorIfNull
    split
    · exact (meets_parserError _ hq₁.1.1).mono fun _ _ h => hq₁.1.trans h
    · exact Prog.meets_pure hq₁.1
  have hq₂p : q₂.remaining < p.remaining := Nat.lt_of_le_of_lt hq₂.2 hqp
  refine Prog.meets_bind (R := fun _ q' => Later q q') ?_ fun args q₃ hq₃ => ?_
  · apply meets_if_check
    · exact fun _ => Prog.meets_pure hq₂
    · intro _
      refine (meets_iterate hr hq₂.1 hq₂p.le ?_ _).mono fun _ _ h => hq₂.trans h
      exact fun args s hs hrem => meets_argIter ha args hs (Nat.lt_of_le_of_lt hrem hq₂p)
  refine Prog.meets_bind (meets_consume (by decide) hq₃.1) fun _ q₄ hq₄ => ?_
  refine Prog.meets_bind (R := fun _ q' => Later q q') ?_ fun ty q₅ hq₅ => ?_
  · have hq' : Later q q₄ := hq₃.trans hq₄.1
    unfold callTy
    split
    · exact Prog.meets_pure hq'
    · refine Prog.meets_bind (meets_mark (by simp) hq'.1) fun _ q₅ hq₅ => ?_
      split
      · exact Prog.meets_fault trivial
      · exact Prog.meets_read (hq'.trans hq₅)
  · exact Prog.meets_pure hq₅

/-- A round of the subscripts that is repeated has consumed a bracket. -/
theorem meets_subscriptIter {e : Parse (Option Node)} (he : Calls .expr n isExprStart e)
    (curr : Node) (hq : AtEnd q) (hqp : q.remaining ≤ p.remaining) :
    ((subscriptIter e curr).run q).Meets (descends p r n) fun i q' => Consumed q i q' := by
  apply meets_if_match (by decide) hq
  · intro q₁ _ hq₁ hrem
    have hq₁p : q₁.remaining < p.remaining := Nat.lt_of_lt_of_le hrem hqp
    refine Prog.meets_bind (meets_nested he ⟨hq₁, trivial⟩ hq₁p) fun index q₂ hq₂ => ?_
    refine Prog.meets_bind (meets_consume (by decide) hq₂.1) fun _ q₃ hq₃ => ?_
    have hq₃' : Later q₁ q₃ := hq₂.trans hq₃.1
    split
    · exact Prog.meets_pure ⟨hq₃'.1, Nat.lt_of_le_of_lt hq₃'.2 hrem⟩
    · refine Prog.meets_bind (meets_parserError _ hq₃'.1) fun _ q₄ hq₄ => ?_
      exact Prog.meets_pure ⟨hq₄.1, Nat.lt_of_le_of_lt (hq₃'.trans hq₄).2 hrem⟩
  · exact fun _ => Prog.meets_pure (Later.refl hq)

/-- A variable, once its name is consumed. -/
theorem meets_parseVariable {e : Parse (Option Node)} (he : Calls .expr n isExprStart e)
    (name : Symbol) (hr : 0 < r) (hq : AtEnd q) (hqp : q.remaining < p.remaining) :
    ((parseVariable e n name).run q).Meets (descends p r n) fun _ q' => Later q q' := by
  unfold parseVariable semaLookup
  rw [Prog.run_read_bind]
  refine Prog.meets_bind (R := fun _ q' => Later q q') ?_ fun _ q₁ hq₁ => ?_
  · unfold parserErrorIfNull
    split
    · exact meets_parserError _ hq
    · exact Prog.meets_pure (Later.refl hq)
  · have hq₁p : q₁.remaining ≤ p.remaining := hq₁.2.trans hqp.le
    refine (meets_iterate hr hq₁.1 hq₁p ?_ _).mono fun _ _ h => hq₁.trans h
    exact fun curr s hs hrem => meets_subscriptIter he curr hs (hrem.trans hq₁p)

/-- A primary expression calls the expression functions only behind a token that it has consumed.
-/
theorem calls_primaryBody {e a : Parse (Option Node)} (he : Calls .expr n isExprStart e)
    (ha : Calls .assign n isExprStart a) :
    Calls .primary (n + 1) isPrimaryStart (parsePrimaryBody e a n) := by
  refine calls_enter fun p hp => ?_
  have hlit (f : Token → Node) (q : Parser) (hq : AtEnd q)
      (hrem : q.remaining < p.remaining) :
      ((do let prev ← Prog.read Parser.prev; return some (f prev)).run q).Meets
        (descends p Fn.primary.rank n) fun _ p' =>
          Later p p' ∧ (isPrimaryStart p.curr.kind = true → p'.remaining < p.remaining) := by
    rw [Prog.run_read_bind]
    exact Prog.meets_pure ⟨⟨hq, hrem.le⟩, fun _ => hrem⟩
  refine meets_if_match (by decide) hp.1 (fun q _ => hlit _ q) fun h₁ => ?_
  refine meets_if_match (by decide) hp.1 (fun q _ => hlit _ q) fun h₂ => ?_
  refine meets_if_match (by decide) hp.1 (fun q _ => hlit _ q) fun h₃ => ?_
  refine meets_if_match (by decide) hp.1 (fun q _ hq hrem => ?_) fun h₄ => ?_
  · exact Prog.meets_pure ⟨⟨hq, hrem.le⟩, fun _ => hrem⟩
  refine meets_if_match (by decide) hp.1 (fun q _ hq hrem => ?_) fun h₅ => ?_
  · exact Prog.meets_pure ⟨⟨hq, hrem.le⟩, fun _ => hrem⟩
  have hlater {q q' : Parser} (hrem : q.remaining < p.remaining) (hq' : Later q q') :
      Later p q' ∧ (isPrimaryStart p.curr.kind = true → q'.remaining < p.remaining) := by
    have hlt : q'.remaining < p.remaining := Nat.lt_of_le_of_lt hq'.2 hrem
    exact ⟨⟨hq'.1, hlt.le⟩, fun _ => hlt⟩
  refine meets_if_match (by decide) hp.1 (fun q _ hq hrem => ?_) fun h₆ => ?_
  · refine Prog.meets_bind (meets_nested he ⟨hq, trivial⟩ hrem) fun expr q₁ hq₁ => ?_
    refine Prog.meets_bind (meets_consume (by decide) hq₁.1) fun _ q₂ hq₂ => ?_
    exact Prog.meets_pure (hlater hrem (hq₁.trans hq₂.1))
  refine meets_if_match (by decide) hp.1 (fun q _ hq hrem => ?_) fun h₇ => ?_
  · rw [Prog.run_read_bind]
    apply meets_if_check
    · intro _
      exact (meets_parseCall ha _ (Fn.rank_pos _) hq hrem).mono fun _ _ => hlater hrem
    · intro _
      exact (meets_parseVariable he _ (Fn.rank_pos _) hq hrem).mono fun _ _ => hlater hrem
  -- None of the tokens that begin a primary expression is left.
  · refine Prog.meets_bind (meets_parserError _ hp.1) fun _ q hq => Prog.meets_pure ⟨hq, ?_⟩
    intro hstart
    cases hkind : p.curr.kind <;> simp_all [isPrimaryStart]

/-- A unary expression calls itself behind an operator, and a primary expression without one. -/
theorem calls_unaryBody {u m : Parse (Option Node)} (hu : Calls .unary n isExprStart u)
    (hm : Calls .primary n isPrimaryStart m) :
    Calls .unary (n + 1) isExprStart (parseUnaryBody u m) := by
  refine calls_enter fun p hp => ?_
  have hlater {q q' : Parser} (hrem : q.remaining < p.remaining) (hq' : Later q q') :
      Later p q' ∧ (isExprStart p.curr.kind = true → q'.remaining < p.remaining) := by
    have hlt : q'.remaining < p.remaining := Nat.lt_of_le_of_lt hq'.2 hrem
    exact ⟨⟨hq'.1, hlt.le⟩, fun _ => hlt⟩
  refine meets_if_match (by decide) hp.1 (fun q _ hq hrem => ?_) fun h₁ => ?_
  · exact (meets_nested hu ⟨hq, trivial⟩ hrem).mono fun _ _ => hlater hrem
  refine meets_if_match (by decide) hp.1 (fun q _ hq hrem => ?_) fun h₂ => ?_
  · refine Prog.meets_bind (meets_nested hu ⟨hq, trivial⟩ hrem) fun lhs q₁ hq₁ => ?_
    exact Prog.meets_pure (hlater hrem hq₁)
  refine meets_if_match (by decide) hp.1 (fun q _ hq hrem => ?_) fun h₃ => ?_
  · refine Prog.meets_bind (meets_nested hu ⟨hq, trivial⟩ hrem) fun lhs q₁ hq₁ => ?_
    exact Prog.meets_pure (hlater hrem hq₁)
  · refine (meets_call (Or.inr ⟨rfl, by decide⟩) (hm.meets p ⟨hp.1, trivial⟩)).mono fun _ q hq => ?_
    refine ⟨hq.1, fun hstart => hq.2 ?_⟩
    cases hkind : p.curr.kind <;> simp_all [isExprStart]

/-- A round of the operators that is repeated has consumed an operator. -/
theorem meets_binaryIter {b : Int → Parse (Option Node)}
    (hb : ∀ prec, Calls (.binary prec) n isExprStart (b prec)) {prec : Int} (hprec : 0 ≤ prec)
    (lhs : Option Node) (hq : AtEnd q) (hqp : q.remaining ≤ p.remaining) :
    ((binaryIter b prec lhs).run q).Meets (descends p r n) fun i q' => Consumed q i q' := by
  unfold binaryIter
  rw [Prog.run_read_bind]
  by_cases hlt : getPrec q.curr.kind < prec
  · rw [if_pos hlt]
    exact Prog.meets_pure (Later.refl hq)
  -- An operator is not the end of the file, so advancing consumes it.
  have hne : q.curr.kind ≠ .eof := by
    intro hkind
    rw [hkind] at hlt
    simp only [getPrec] at hlt
    omega
  rw [if_neg hlt]
  refine Prog.meets_bind (meets_advance hq) fun _ q₁ hq₁ => ?_
  have hrem : q₁.remaining < q.remaining := hq₁.2 hne
  refine Prog.meets_bind (meets_mark (by simp) hq₁.1.1) fun _ q₂ hq₂ => ?_
  have hq₂p : q₂.remaining < p.remaining :=
    Nat.lt_of_lt_of_le (Nat.lt_of_le_of_lt hq₂.2 hrem) hqp
  refine Prog.meets_bind (meets_nested (hb _) ⟨hq₂.1, by omega⟩ hq₂p) fun rhs q₃ hq₃ => ?_
  unfold newNode
  rw [Prog.run_read_bind]
  refine Prog.meets_bind (meets_analyzeBinary _ _ _ _ hq₃.1) fun node q₄ hq₄ => ?_
  exact Prog.meets_pure ⟨hq₄.1, Nat.lt_of_le_of_lt ((hq₂.trans hq₃).trans hq₄).2 hrem⟩

/-- A binary expression begins with a unary one, and calls itself behind an operator. -/
theorem calls_binaryBody {u : Parse (Option Node)} {b : Int → Parse (Option Node)}
    (hu : Calls .unary n isExprStart u)
    (hb : ∀ prec, Calls (.binary prec) n isExprStart (b prec)) (prec : Int) :
    Calls (.binary prec) (n + 1) isExprStart (parseBinaryBody u b n prec) := by
  refine calls_enter fun p hp => ?_
  refine Prog.meets_bind (meets_call (Or.inr ⟨rfl, by simp [Fn.rank]⟩) (hu.meets p ⟨hp.1, trivial⟩))
    fun lhs q hq => ?_
  refine (meets_iterate (Fn.rank_pos _) hq.1.1 hq.1.2 ?_ _).mono fun _ q' hq' => ?_
  · exact fun lhs s hs hrem => meets_binaryIter hb hp.2 lhs hs (hrem.trans hq.1.2)
  · exact ⟨hq.1.trans hq', fun hstart => Nat.lt_of_le_of_lt hq'.2 (hq.2 hstart)⟩

/-- An assignment begins with a binary expression, and calls itself behind a sign. -/
theorem calls_assignBody {b : Int → Parse (Option Node)} {a : Parse (Option Node)}
    (hb : ∀ prec, Calls (.binary prec) n isExprStart (b prec))
    (ha : Calls .assign n isExprStart a) :
    Calls .assign (n + 1) isExprStart (parseAssignBody b a) := by
  refine calls_enter fun p hp => ?_
  refine Prog.meets_bind (meets_call (Or.inr ⟨rfl, by simp [Fn.rank]⟩)
    ((hb 0).meets p ⟨hp.1, Int.le_refl 0⟩))
    fun lhs q hq => ?_
  refine meets_if_match (by decide) hq.1.1 (fun q₁ _ hq₁ hrem => ?_) fun _ => Prog.meets_pure hq
  have hq₁p : q₁.remaining < p.remaining := Nat.lt_of_lt_of_le hrem hq.1.2
  refine Prog.meets_bind (meets_mark (by simp) hq₁) fun _ q₂ hq₂ => ?_
  refine Prog.meets_bind (meets_nested ha ⟨hq₂.1, trivial⟩ (Nat.lt_of_le_of_lt hq₂.2 hq₁p))
    fun rhs q₃ hq₃ => ?_
  unfold newNode
  rw [Prog.run_read_bind]
  refine Prog.meets_bind (meets_analyzeAssign _ _ _ hq₃.1) fun node q₄ hq₄ => ?_
  have hlt : q₄.remaining < p.remaining :=
    Nat.lt_of_le_of_lt ((hq₂.trans hq₃).trans hq₄).2 hq₁p
  exact Prog.meets_pure ⟨⟨hq₄.1, hlt.le⟩, fun _ => hlt⟩

/-- An expression begins with a binary one. -/
theorem calls_exprBody {b : Int → Parse (Option Node)}
    (hb : ∀ prec, Calls (.binary prec) n isExprStart (b prec)) :
    Calls .expr (n + 1) isExprStart (parseExprBody b) := by
  refine calls_enter fun p hp => ?_
  exact meets_call (Or.inr ⟨rfl, by simp [Fn.rank]⟩) ((hb 0).meets p ⟨hp.1, Int.le_refl 0⟩)

/-- A call with an empty budget. -/
theorem calls_timeout {α : Type} {f : Fn} {starts : TokenKind → Bool} :
    Calls f 0 starts (Prog.timeout : Parse α) where
  meets p _ := by
    apply Prog.meets_timeout
    show 0 < 10 * p.remaining + (f.rank + 1)
    omega
  nested p _ := by
    constructor
    · intro st hst
      cases hst
    · intro st hst
      cases hst

/-- All expression functions descend, by induction on the budget. -/
theorem calls_expressions (n : Nat) :
    Calls .primary n isPrimaryStart (parsePrimary n) ∧
    Calls .unary n isExprStart (parseUnary n) ∧
    (∀ prec, Calls (.binary prec) n isExprStart (parseBinary n prec)) ∧
    Calls .assign n isExprStart (parseAssign n) ∧
    Calls .expr n isExprStart (parseExpr n) := by
  induction n with
  | zero =>
      exact ⟨calls_timeout, calls_timeout, fun _ => calls_timeout, calls_timeout, calls_timeout⟩
  | succ n ih =>
      rcases ih with ⟨hprimary, hunary, hbinary, hassign, hexpr⟩
      exact ⟨calls_primaryBody hexpr hassign, calls_unaryBody hunary hprimary,
        calls_binaryBody hunary hbinary, calls_assignBody hbinary hassign,
        calls_exprBody hbinary⟩

/-- An expression descends, for every budget. -/
theorem calls_expr (n : Nat) : Calls .expr n isExprStart (parseExpr n) :=
  (calls_expressions n).2.2.2.2

/-- So does an assignment. -/
theorem calls_assign (n : Nat) : Calls .assign n isExprStart (parseAssign n) :=
  (calls_expressions n).2.2.2.1

/-! ## Declarations -/

/-- A round of the dimensions that is repeated has consumed a bracket. -/
theorem meets_dimsIter (base : Option ObjTy) (hq : AtEnd q) :
    ((dimsIter base).run q).Meets (descends p r n) fun i q' => Consumed q i q' := by
  apply meets_if_match (by decide) hq
  · intro q₁ _ hq₁ hrem
    have hagain {q₂ : Parser} (hq₂ : Later q₁ q₂) : q₂.remaining < q.remaining :=
      Nat.lt_of_le_of_lt hq₂.2 hrem
    apply meets_if_match (by decide) hq₁
    · intro q₂ _ hq₂ hrem₂
      rw [Prog.run_read_bind]
      refine Prog.meets_bind (meets_consume (by decide) hq₂) fun _ q₃ hq₃ => ?_
      refine Prog.meets_bind (meets_arrayOf _ _ hq₃.1.1) fun ty q₄ hq₄ => ?_
      have hq₄' : Later q₂ q₄ := hq₃.1.trans hq₄
      exact Prog.meets_pure ⟨hq₄'.1, hagain ⟨hq₄'.1, hq₄'.2.trans hrem₂.le⟩⟩
    · intro _
      refine Prog.meets_bind (meets_parserError _ hq₁) fun _ q₂ hq₂ => ?_
      refine Prog.meets_bind (R := fun _ q' => Later q₁ q') ?_ fun _ q₃ hq₃ => ?_
      · apply meets_if_check
        · intro _
          refine Prog.meets_bind (meets_advance hq₂.1) fun _ q₃ hq₃ => ?_
          exact Prog.meets_pure (hq₂.trans hq₃.1)
        · exact fun _ => Prog.meets_pure hq₂
      · exact Prog.meets_pure ⟨hq₃.1, hagain hq₃⟩
  · exact fun _ => Prog.meets_pure (Later.refl hq)

/-- Dimensions call no other function. -/
theorem calls_arrayDims (n : Nat) (base : Option ObjTy) :
    ∀ p, Ready .arrayDims p → ((parseArrayDims n base).run p).Meets
      (descends p (Fn.arrayDims.rank + 1) (n + 1)) fun _ p' => Later p p' := by
  intro p hp
  refine meets_enter hp ?_
  exact meets_iterate (Fn.rank_pos _) hp.1 le_rfl (fun base s hs _ => meets_dimsIter base hs) _

/-- Dimensions anywhere in a call of higher rank. -/
theorem meets_arrayDims (base : Option ObjTy) (hr : 1 < r) (hq : AtEnd q)
    (hqp : q.remaining ≤ p.remaining) :
    ((parseArrayDims n base).run q).Meets (descends p r n) fun _ q' => Later q q' := by
  refine (calls_arrayDims n base q ⟨hq, trivial⟩).weaken (fun _ => id) ?_ (fun _ => id) ?_
  · intro st hst g hg
    rcases hst g hg with ⟨hready, hrem | ⟨hrem, hrank⟩⟩
    · exact ⟨hready, Or.inl (Nat.lt_of_lt_of_le hrem hqp)⟩
    · have hrank' : g.rank < 2 := hrank
      exact ⟨hready, by omega⟩
  · intro (htimeout : n + 1 < 10 * q.remaining + (1 + 1))
    show n < 10 * p.remaining + r
    omega

/-- A round of the elements that is repeated has consumed a comma. -/
theorem meets_elementIter {i a : Parse (Option Node)}
    (hi : Calls .initializerList n (· == .lBrace) i) (ha : Calls .assign n isExprStart a)
    (inits : List (Option Node)) (hq : AtEnd q) (hqp : q.remaining < p.remaining) :
    ((elementIter i a inits).run q).Meets (descends p r n) fun i q' => Consumed q i q' := by
  refine Prog.meets_bind (R := fun _ q' => Later q q') ?_ fun val q' hq' => meets_comma hq'
  apply meets_if_check
  · exact fun hkind => meets_nested hi ⟨hq, hkind⟩ hqp
  · exact fun _ => meets_nested ha ⟨hq, trivial⟩ hqp

/-- A brace list calls itself behind its brace. -/
theorem calls_initializerListBody {i a : Parse (Option Node)}
    (hi : Calls .initializerList n (· == .lBrace) i) (ha : Calls .assign n isExprStart a) :
    Calls .initializerList (n + 1) (· == .lBrace) (parseInitializerListBody i a n) := by
  refine calls_enter fun p hp => ?_
  -- The list is entered at its brace, so everything in it comes after a consumed token.
  refine Prog.meets_bind (meets_consume (by decide) hp.1) fun _ q₁ hq₁ => ?_
  have hrem : q₁.remaining < p.remaining := hq₁.2 hp.2
  refine Prog.meets_bind (R := fun _ q' => Later q₁ q') ?_ fun inits q₂ hq₂ => ?_
  · apply meets_if_check
    · exact fun _ => Prog.meets_pure (Later.refl hq₁.1.1)
    · intro _
      refine meets_iterate (Fn.rank_pos _) hq₁.1.1 hrem.le ?_ _
      exact fun inits s hs hle =>
        meets_elementIter hi ha inits hs (Nat.lt_of_le_of_lt hle hrem)
  refine Prog.meets_bind (meets_consume (by decide) hq₂.1) fun _ q₃ hq₃ => ?_
  have hlt : q₃.remaining < p.remaining := Nat.lt_of_le_of_lt (hq₂.trans hq₃.1).2 hrem
  exact Prog.meets_pure ⟨⟨hq₃.1.1, hlt.le⟩, fun _ => hlt⟩

/-- A brace list descends, for every budget. -/
theorem calls_initializerList (n : Nat) :
    Calls .initializerList n (· == .lBrace) (parseInitializerList n) := by
  induction n with
  | zero => exact calls_timeout
  | succ n ih => exact calls_initializerListBody ih (calls_assign n)

/-- An initializer calls behind its equals sign. -/
theorem meets_parseInit {i e : Parse (Option Node)}
    (hi : Calls .initializerList n (· == .lBrace) i) (he : Calls .expr n isExprStart e)
    (ty : Option ObjTy) (isConst : Bool) (tok : Token) (field : Option Node) (hq : AtEnd q)
    (hqp : q.remaining ≤ p.remaining) :
    ((parseInit i e ty isConst tok field).run q).Meets (descends p r n) fun _ q' =>
      Later q q' := by
  apply meets_if_match (by decide) hq
  · intro q₁ _ hq₁ hrem
    have hq₁p : q₁.remaining < p.remaining := Nat.lt_of_lt_of_le hrem hqp
    have hlater {q' : Parser} (hq' : Later q₁ q') : Later q q' :=
      ⟨hq'.1, hq'.2.trans hrem.le⟩
    apply meets_if_check
    · exact fun hkind => (meets_nested hi ⟨hq₁, hkind⟩ hq₁p).mono fun _ _ => hlater
    · intro _
      refine Prog.meets_bind (meets_nested he ⟨hq₁, trivial⟩ hq₁p) fun init q₂ hq₂ => ?_
      refine Prog.meets_bind (meets_checkInit _ _ _ hq₂.1) fun _ q₃ hq₃ => ?_
      exact Prog.meets_pure (hlater (hq₂.trans hq₃))
  · intro _
    split
    · refine Prog.meets_bind (meets_parserError _ hq) fun _ q₁ hq₁ => ?_
      exact (meets_keepField field hq₁.1).mono fun _ _ hq₂ => hq₁.trans hq₂
    · exact meets_keepField field hq

/-- A declarator, from the dimensions on. -/
theorem meets_parseDeclarator {i e : Parse (Option Node)}
    (hi : Calls .initializerList n (· == .lBrace) i) (he : Calls .expr n isExprStart e)
    (baseTy : ObjTy) (isConst : Bool) (name : Symbol) (hr : 1 < r) (hq : AtEnd q)
    (hqp : q.remaining ≤ p.remaining) :
    ((parseDeclarator i e n baseTy isConst name).run q).Meets (descends p r n) fun _ q' =>
      Later q q' := by
  refine Prog.meets_bind (meets_arrayDims _ hr hq hqp) fun ty q₁ hq₁ => ?_
  refine Prog.meets_bind (meets_defineVar _ _ _ hq₁.1) fun sym q₂ hq₂ => ?_
  unfold newNode
  rw [Prog.run_read_bind]
  refine Prog.meets_bind (meets_nodeField hq₂.1) fun field q₃ hq₃ => ?_
  have hq₃' : Later q q₃ := (hq₁.trans hq₂).trans hq₃
  refine Prog.meets_bind (meets_parseInit hi he _ _ _ _ hq₃.1 (hq₃'.2.trans hqp))
    fun init q₄ hq₄ => ?_
  exact Prog.meets_pure (hq₃'.trans hq₄)

/-- A round of the declarators that is repeated has consumed a comma. -/
theorem meets_declaratorIter {i e : Parse (Option Node)}
    (hi : Calls .initializerList n (· == .lBrace) i) (he : Calls .expr n isExprStart e)
    (baseTy : ObjTy) (isConst : Bool) (st : Option Symbol × List Node) (hr : 1 < r)
    (hq : AtEnd q) (hqp : q.remaining ≤ p.remaining) :
    ((declaratorIter i e n baseTy isConst st).run q).Meets (descends p r n) fun i q' =>
      Consumed q i q' := by
  refine Prog.meets_bind (R := fun _ q' => Later q q') ?_ fun name q₁ hq₁ => ?_
  · unfold parseDeclaratorName
    split
    · exact Prog.meets_pure (Later.refl hq)
    · apply meets_if_match (by decide) hq
      · intro q₁ _ hq₁ hrem
        rw [Prog.run_read_bind]
        exact Prog.meets_pure ⟨hq₁, hrem.le⟩
      · intro _
        exact Prog.meets_bind (meets_parserError _ hq) fun _ q₁ hq₁ => Prog.meets_pure hq₁
  · cases name with
    | none => exact Prog.meets_pure hq₁
    | some name =>
        refine Prog.meets_bind (meets_parseDeclarator hi he _ _ _ hr hq₁.1
          (hq₁.2.trans hqp)) fun decl q₂ hq₂ => ?_
        exact meets_comma (hq₁.trans hq₂)

/-- A list of declarators, anywhere in a call of higher rank. -/
theorem meets_varDeclList (n : Nat) (baseTy : ObjTy) (name : Symbol)
    (isConst isGlobal : Bool) (hr : Fn.varDeclList.rank < r) (hq : AtEnd q)
    (hqp : q.remaining ≤ p.remaining) :
    ((parseVarDeclList n baseTy name isConst isGlobal).run q).Meets (descends p r n)
      fun _ q' => Later q q' := by
  have hr' : 1 < r := by
    simp only [Fn.rank] at hr
    omega
  refine Prog.meets_bind (R := fun _ q' => Later q q') ?_ fun _ q₁ hq₁ => ?_
  · refine Prog.meets_step ?_ (Later.refl hq)
    intro g hg
    cases hg
    refine ⟨⟨hq, trivial⟩, ?_⟩
    show q.remaining < p.remaining ∨ q.remaining = p.remaining ∧ Fn.varDeclList.rank < r
    omega
  have hq₁p : q₁.remaining ≤ p.remaining := hq₁.2.trans hqp
  refine Prog.meets_bind (meets_iterate (by omega) hq₁.1 hq₁p ?_ _) fun stmts q₂ hq₂ => ?_
  · exact fun st s hs hle => meets_declaratorIter (calls_initializerList n) (calls_expr n) _ _
      st hr' hs (hle.trans hq₁p)
  refine Prog.meets_bind (meets_consume (by decide) hq₂.1) fun _ q₃ hq₃ => ?_
  exact Prog.meets_pure ((hq₁.trans hq₂).trans hq₃.1)

/-- The end of the file is no type. -/
theorem tokenToType_eof : tokenToType .eof = none := rfl

/-- A declaration inside a function consumes its type before it calls. -/
theorem calls_decl (n : Nat) : Calls .decl (n + 1) isDecl (parseDecl n) := by
  refine calls_enter fun p hp => ?_
  have hconst : ((matchKind .kwConst).run p).Meets (descends p Fn.decl.rank n) fun b q =>
      Later p q ∧ (p.curr.kind = .kwConst → q.remaining < p.remaining) ∧
        (p.curr.kind ≠ .kwConst → q = p) := by
    apply meets_if_check
    · intro hkind
      refine Prog.meets_bind (meets_advance hp.1) fun _ q hq => Prog.meets_pure ?_
      exact ⟨hq.1, fun _ => hq.2 (by simp [hkind]), fun h => absurd hkind h⟩
    · exact fun hkind => Prog.meets_pure ⟨Later.refl hp.1, fun h => absurd h hkind, fun _ => rfl⟩
  refine Prog.meets_bind hconst fun isConst q₁ hq₁ => ?_
  rw [Prog.run_read_bind]
  cases hty : tokenToType q₁.curr.kind with
  | none =>
      refine Prog.meets_bind (meets_parserError _ hq₁.1.1) fun _ q₂ hq₂ => ?_
      refine Prog.meets_pure ⟨hq₁.1.trans hq₂, fun hdecl => ?_⟩
      -- Without a type, only the keyword const can have begun the declaration.
      by_cases hkind : p.curr.kind = .kwConst
      · exact Nat.lt_of_le_of_lt hq₂.2 (hq₁.2.1 hkind)
      · rw [hq₁.2.2 hkind] at hty
        simp [isDecl, hty, hkind] at hdecl
  | some baseTy =>
      have hne : q₁.curr.kind ≠ .eof := by
        intro hkind
        simp [hkind, tokenToType_eof] at hty
      refine Prog.meets_bind (meets_advance hq₁.1.1) fun _ q₂ hq₂ => ?_
      have hrem : q₂.remaining < p.remaining := Nat.lt_of_lt_of_le (hq₂.2 hne) hq₁.1.2
      have hlater {q' : Parser} (hq' : Later q₂ q') :
          Later p q' ∧ (isDecl p.curr.kind = true → q'.remaining < p.remaining) := by
        have hlt : q'.remaining < p.remaining := Nat.lt_of_le_of_lt hq'.2 hrem
        exact ⟨⟨hq'.1, hlt.le⟩, fun _ => hlt⟩
      apply meets_if_match (by decide) hq₂.1.1
      · intro q₃ _ hq₃ hrem₃
        rw [Prog.run_read_bind]
        refine (meets_varDeclList n _ _ _ _ (by decide) hq₃ ?_).mono fun _ q' hq' => ?_
        · exact (hrem₃.trans hrem).le
        · exact hlater ⟨hq'.1, hq'.2.trans hrem₃.le⟩
      · intro _
        refine Prog.meets_bind (meets_parserError _ hq₂.1.1) fun _ q₃ hq₃ => ?_
        exact Prog.meets_pure (hlater hq₃)

/-! ## Statements -/

/-- An iteration of {lit}`synchronize` skips a token or changes nothing. -/
theorem meets_synchronizeIter (u : Unit) (hq : AtEnd q) :
    ((synchronizeIter u).run q).Meets (descends p r n) fun i q' =>
      match i with
      | .again _ => AtEnd q' ∧ q'.remaining < q.remaining
      | .leave _ => q' = q := by
  apply meets_if_check
  · exact fun _ => Prog.meets_pure rfl
  · intro hkind
    rw [Prog.run_read_bind]
    split
    · exact Prog.meets_pure rfl
    rw [Prog.run_read_bind]
    split
    · exact Prog.meets_pure rfl
    · rw [Prog.run_read_bind]
      have hmark : ((Prog.mark (.skip q.curr) : Parse Unit).run q).Meets (descends p r n)
          fun _ q' => q' = q :=
        Prog.meets_step (descends_of_not_enter (by simp)) rfl
      refine Prog.meets_bind hmark ?_
      rintro _ _ rfl
      refine Prog.meets_bind (meets_advance hq) fun _ q₁ hq₁ => ?_
      exact Prog.meets_pure ⟨hq₁.1.1, hq₁.2 hkind⟩

/-- Either a token was consumed or the current token is still the same. -/
def Moved (p p' : Parser) : Prop :=
  Later p p' ∧ (p'.remaining < p.remaining ∨ p'.curr = p.curr)

/-- Standing still is a move by nothing. -/
theorem Moved.refl (hq : AtEnd q) : Moved q q := ⟨Later.refl hq, Or.inr rfl⟩

/-- Moves add up. -/
theorem Moved.trans {q₁ q₂ q₃ : Parser} (h : Moved q₁ q₂) (h' : Moved q₂ q₃) :
    Moved q₁ q₃ := by
  refine ⟨h.1.trans h'.1, ?_⟩
  rcases h.2 with hlt | heq
  · exact Or.inl (Nat.lt_of_le_of_lt h'.1.2 hlt)
  · rcases h'.2 with hlt' | heq'
    · exact Or.inl (Nat.lt_of_lt_of_le hlt' h.1.2)
    · exact Or.inr (heq'.trans heq)

/-- Recovery never goes back, and says whether it has moved. -/
theorem meets_synchronize (hr : 0 < r) (hq : AtEnd q) (hqp : q.remaining ≤ p.remaining) :
    ((synchronize n).run q).Meets (descends p r n) fun _ q' => Moved q q' := by
  refine Prog.meets_bind (R := fun _ q' => Moved q q') ?_ fun _ q₁ hq₁ => ?_
  · exact Prog.meets_step (descends_of_not_enter (by simp)) (Moved.refl hq)
  refine meets_loop_variant (fun _ s => Moved q s) remaining ?_ hq₁ ?_
  · intro u s hs
    refine (meets_synchronizeIter u hs.1.1).mono fun i s' hi => ?_
    cases i with
    | again _ => exact ⟨hs.trans ⟨⟨hi.1, hi.2.le⟩, Or.inl hi.2⟩, hi.2⟩
    | leave _ => exact hi.symm ▸ hs
  · by_cases hn : q₁.remaining < n
    · exact Or.inl hn
    · have hle := hq₁.1.2
      exact Or.inr (show n < 10 * p.remaining + r by omega)

/-- A round of a body that is repeated has consumed a token, recovery included. -/
theorem meets_bodyIter {d s : Parse (Option Node)} (hd : Calls .decl (n + 1) isDecl d)
    (hs : Calls .stmt n isStmtStart s) (m : Msg) (stmts : List Node) (hr : 0 < r)
    (hq : AtEnd q) (hqp : q.remaining < p.remaining) :
    ((bodyIter d s m n stmts).run q).Meets (descends p r n) fun i q' => Consumed q i q' := by
  unfold bodyIter bodyEnds
  rw [Prog.run_read_bind]
  by_cases hend : (q.curr.kind == .rBrace || q.curr.kind == .eof) = true
  · rw [if_pos hend]
    exact Prog.meets_pure (Later.refl hq)
  rw [if_neg hend]
  -- After recovery the body goes on only at a token that does not end it.
  have hrecover : ((recoverInBody n).run q).Meets (descends p r n) fun b q₁ =>
      Later q q₁ ∧ (b = false → q₁.curr.kind ≠ .eof) := by
    unfold recoverInBody
    rw [Prog.run_read_bind]
    split
    · refine Prog.meets_bind (meets_synchronize hr hq hqp.le) fun _ q₁ hq₁ => ?_
      refine Prog.meets_read ⟨hq₁.1, fun hfalse hkind => ?_⟩
      simp [hkind] at hfalse
    · refine Prog.meets_pure ⟨Later.refl hq, fun _ hkind => ?_⟩
      simp [hkind] at hend
  refine Prog.meets_bind hrecover fun b q₁ hq₁ => ?_
  cases b with
  | true => exact Prog.meets_pure hq₁.1
  | false =>
      have hq₁p : q₁.remaining < p.remaining := Nat.lt_of_le_of_lt hq₁.1.2 hqp
      have hagain {q' : Parser} (hq' : Later q₁ q' ∧ q'.remaining < q₁.remaining) :
          AtEnd q' ∧ q'.remaining < q.remaining :=
        ⟨hq'.1.1, Nat.lt_of_lt_of_le hq'.2 hq₁.1.2⟩
      rw [if_neg (by simp)]
      unfold bodyItem
      rw [Prog.run_read_bind]
      by_cases hdecl : isDecl q₁.curr.kind = true
      · rw [if_neg (by simp [hdecl]), if_pos hdecl]
        refine Prog.meets_bind (R := fun _ q' => Later q₁ q' ∧ q'.remaining < q₁.remaining)
          ?_ fun decl q₂ hq₂ => Prog.meets_pure (hagain hq₂)
        refine ((hd.meets q₁ ⟨hq₁.1.1, trivial⟩).mono fun _ _ h => ⟨h.1, h.2 hdecl⟩).weaken
          (fun _ => id) ?_ (fun _ => id) ?_
        · intro st hst g hg
          rcases hst g hg with ⟨hready, hrem⟩
          exact ⟨hready, by omega⟩
        · intro (htimeout : n + 1 < 10 * q₁.remaining + (7 + 1))
          show n < 10 * p.remaining + r
          omega
      · by_cases hstart : isStmtStart q₁.curr.kind = true
        · rw [if_neg (by simp [hstart]), if_neg hdecl]
          refine Prog.meets_bind (meets_call (Or.inl hq₁p) (hs.meets q₁ ⟨hq₁.1.1, trivial⟩))
            fun stmt q₂ hq₂ => ?_
          exact Prog.meets_pure (hagain ⟨hq₂.1, hq₂.2 hstart⟩)
        · rw [if_pos (by simp [hdecl, hstart])]
          refine Prog.meets_bind (R := fun _ q' => Later q₁ q' ∧ q'.curr = q₁.curr) ?_
            fun _ q₂ hq₂ => ?_
          · unfold parserError
            rw [Prog.run_read_bind]
            refine Prog.meets_step (descends_of_not_enter (by simp)) ?_
            unfold errorAt
            split <;> exact ⟨Later.refl hq₁.1.1, rfl⟩
          refine Prog.meets_bind (meets_advance hq₂.1.1) fun _ q₃ hq₃ => ?_
          have hlt : q₃.remaining < q₂.remaining := hq₃.2 (hq₂.2 ▸ hq₁.2 rfl)
          exact Prog.meets_pure (hagain ⟨hq₂.1.trans hq₃.1, Nat.lt_of_lt_of_le hlt hq₂.1.2⟩)

/-- A block calls behind its brace. -/
theorem calls_blockBody {d s : Parse (Option Node)} (hd : Calls .decl (n + 1) isDecl d)
    (hs : Calls .stmt n isStmtStart s) :
    Calls .block (n + 1) (· == .lBrace) (parseBlockBody d s n) := by
  refine calls_enter fun p hp => ?_
  -- The block is entered at its brace, so everything in it comes after a consumed token.
  refine Prog.meets_bind (meets_consume (by decide) hp.1) fun _ q₁ hq₁ => ?_
  have hrem : q₁.remaining < p.remaining := hq₁.2 hp.2
  refine Prog.meets_bind (meets_quiet (by simp) rfl rfl hq₁.1.1) fun _ q₂ hq₂ => ?_
  have hq₂p : q₂.remaining < p.remaining := Nat.lt_of_le_of_lt hq₂.2 hrem
  refine Prog.meets_bind (meets_iterate (Fn.rank_pos _) hq₂.1 hq₂p.le ?_ _)
    fun stmts q₃ hq₃ => ?_
  · exact fun stmts s' hs' hle => meets_bodyIter hd hs _ stmts (Fn.rank_pos _) hs'
      (Nat.lt_of_le_of_lt hle hq₂p)
  refine Prog.meets_bind (meets_quiet (by simp) rfl rfl hq₃.1) fun _ q₄ hq₄ => ?_
  refine Prog.meets_bind (meets_consume (by decide) hq₄.1) fun _ q₅ hq₅ => ?_
  have hlt : q₅.remaining < p.remaining :=
    Nat.lt_of_le_of_lt ((hq₃.trans hq₄).trans hq₅.1).2 hq₂p
  exact Prog.meets_pure ⟨⟨hq₅.1.1, hlt.le⟩, fun _ => hlt⟩

/-- The condition of an {lit}`if` or {lit}`while`, after the keyword. -/
theorem meets_condition {α : Type} {e : Parse (Option Node)}
    {k : Option Node → Parse α} {Q : α → Parser → Prop} (he : Calls .expr n isExprStart e)
    (hq : AtEnd q) (hqp : q.remaining < p.remaining)
    (hk : ∀ cond q', AtEnd q' → q'.remaining < p.remaining →
      ((k cond).run q').Meets (descends p r n) Q) :
    ((do
      consume .lParen .expectLParen
      let cond ← e
      consume .rParen .expectRParen
      k cond).run q).Meets (descends p r n) Q := by
  refine Prog.meets_bind (meets_consume (by decide) hq) fun _ q₁ hq₁ => ?_
  have hq₁p : q₁.remaining < p.remaining := Nat.lt_of_le_of_lt hq₁.1.2 hqp
  refine Prog.meets_bind (meets_nested he ⟨hq₁.1.1, trivial⟩ hq₁p) fun cond q₂ hq₂ => ?_
  refine Prog.meets_bind (meets_consume (by decide) hq₂.1) fun _ q₃ hq₃ => ?_
  exact hk cond q₃ hq₃.1.1 (Nat.lt_of_le_of_lt (hq₂.trans hq₃.1).2 hq₁p)

/-- A statement calls behind its keyword, or begins with a block or an expression. -/
theorem calls_stmtBody {e s b : Parse (Option Node)} (he : Calls .expr n isExprStart e)
    (hs : Calls .stmt n isStmtStart s) (hb : Calls .block n (· == .lBrace) b) :
    Calls .stmt (n + 1) isStmtStart (parseStmtBody e s b) := by
  refine calls_enter fun p hp => ?_
  have hdone {q : Parser} (hq : AtEnd q) (hrem : q.remaining < p.remaining) :
      Later p q ∧ (isStmtStart p.curr.kind = true → q.remaining < p.remaining) :=
    ⟨⟨hq, hrem.le⟩, fun _ => hrem⟩
  have hnested {q : Parser} (hq : AtEnd q) (hrem : q.remaining < p.remaining) :
      (s.run q).Meets (descends p Fn.stmt.rank n) fun _ q' =>
        AtEnd q' ∧ q'.remaining < p.remaining :=
    (meets_nested hs ⟨hq, trivial⟩ hrem).mono fun _ _ h =>
      ⟨h.1, Nat.lt_of_le_of_lt h.2 hrem⟩
  have hsemicolon {q : Parser} (hq : AtEnd q) (hrem : q.remaining < p.remaining) :
      ((consume .semicolon .expectSemicolon).run q).Meets (descends p Fn.stmt.rank n)
        fun _ q' => AtEnd q' ∧ q'.remaining < p.remaining :=
    (meets_consume (by decide) hq).mono fun _ _ h =>
      ⟨h.1.1, Nat.lt_of_le_of_lt h.1.2 hrem⟩
  have hkeep {q : Parser} (field : Option Node) (hq : AtEnd q)
      (hrem : q.remaining < p.remaining) :
      ((keepField field).run q).Meets (descends p Fn.stmt.rank n)
        fun _ q' => AtEnd q' ∧ q'.remaining < p.remaining :=
    (meets_keepField field hq).mono fun _ _ h => ⟨h.1, Nat.lt_of_le_of_lt h.2 hrem⟩
  refine meets_if_match (by decide) hp.1 (fun q _ hq hrem => ?_) fun h₁ => ?_
  · refine Prog.meets_bind (meets_nodeField hq) fun field q₁ hq₁ => ?_
    refine meets_condition he hq₁.1 (Nat.lt_of_le_of_lt hq₁.2 hrem) fun cond q₂ hq₂ hrem₂ => ?_
    refine Prog.meets_bind (hnested hq₂ hrem₂) fun thenBranch q₃ hq₃ => ?_
    refine Prog.meets_bind (R := fun _ q' => AtEnd q' ∧ q'.remaining < p.remaining) ?_
      fun elseBranch q₄ hq₄ => Prog.meets_pure (hdone hq₄.1 hq₄.2)
    apply meets_if_match (by decide) hq₃.1
    · exact fun q₄ _ hq₄ hrem₄ => hnested hq₄ (hrem₄.trans hq₃.2)
    · exact fun _ => hkeep field hq₃.1 hq₃.2
  refine meets_if_match (by decide) hp.1 (fun q _ hq hrem => ?_) fun h₂ => ?_
  · refine meets_condition he hq hrem fun cond q₂ hq₂ hrem₂ => ?_
    refine Prog.meets_bind (hnested hq₂ hrem₂) fun body q₃ hq₃ => ?_
    exact Prog.meets_pure (hdone hq₃.1 hq₃.2)
  refine meets_if_match (by decide) hp.1 (fun q _ hq hrem => ?_) fun h₃ => ?_
  · unfold parseReturn newNode
    rw [Prog.run_read_bind]
    refine Prog.meets_bind (meets_nodeField hq) fun field q₁ hq₁ => ?_
    have hrem₁ : q₁.remaining < p.remaining := Nat.lt_of_le_of_lt hq₁.2 hrem
    refine Prog.meets_bind (R := fun _ q' => AtEnd q' ∧ q'.remaining < p.remaining) ?_
      fun lhs q₂ hq₂ => ?_
    · apply meets_if_check
      · exact fun _ => hkeep field hq₁.1 hrem₁
      · exact fun _ => (meets_nested he ⟨hq₁.1, trivial⟩ hrem₁).mono fun _ _ h =>
          ⟨h.1, Nat.lt_of_le_of_lt h.2 hrem₁⟩
    refine Prog.meets_bind (hsemicolon hq₂.1 hq₂.2) fun _ q₃ hq₃ => ?_
    refine Prog.meets_bind (meets_analyzeReturn _ _ hq₃.1) fun node q₄ hq₄ => ?_
    exact Prog.meets_pure (hdone hq₄.1 (Nat.lt_of_le_of_lt hq₄.2 hq₃.2))
  refine meets_if_match (by decide) hp.1 (fun q _ hq hrem => ?_) fun h₄ => ?_
  · refine Prog.meets_bind (hsemicolon hq hrem) fun _ q₁ hq₁ => ?_
    exact Prog.meets_pure (hdone hq₁.1 hq₁.2)
  refine meets_if_match (by decide) hp.1 (fun q _ hq hrem => ?_) fun h₅ => ?_
  · refine Prog.meets_bind (hsemicolon hq hrem) fun _ q₁ hq₁ => ?_
    exact Prog.meets_pure (hdone hq₁.1 hq₁.2)
  apply meets_if_check
  · intro hkind
    refine (meets_call (Or.inr ⟨rfl, by decide⟩) (hb.meets p ⟨hp.1, hkind⟩)).mono fun _ q hq => ?_
    exact ⟨hq.1, fun _ => hq.2 (by simp [hkind])⟩
  · intro h₆
    -- What begins a statement here begins an expression.
    have hstart : isStmtStart p.curr.kind = true → isExprStart p.curr.kind = true := by
      cases hkind : p.curr.kind <;> simp_all [isStmtStart, isExprStart, isPrimaryStart]
    refine Prog.meets_bind (meets_call (Or.inr ⟨rfl, by decide⟩) (he.meets p ⟨hp.1, trivial⟩))
      fun expr q₁ hq₁ => ?_
    have hlater {q' : Parser} (hq' : Later q₁ q') :
        Later p q' ∧ (isStmtStart p.curr.kind = true → q'.remaining < p.remaining) :=
      ⟨hq₁.1.trans hq', fun h => Nat.lt_of_le_of_lt hq'.2 (hq₁.2 (hstart h))⟩
    cases expr with
    | none => exact Prog.meets_pure (hlater (Later.refl hq₁.1.1))
    | some expr =>
        refine Prog.meets_bind (R := fun _ q' => Later q₁ q') ?_ fun lhs q₂ hq₂ => ?_
        · refine meets_if_match (by decide) hq₁.1.1 (fun q₂ _ hq₂ hrem₂ => ?_) fun _ => ?_
          · have hq₂p : q₂.remaining < p.remaining := Nat.lt_of_lt_of_le hrem₂ hq₁.1.2
            have hq₂' : Later q₁ q₂ := ⟨hq₂, hrem₂.le⟩
            refine Prog.meets_bind (meets_nested he ⟨hq₂, trivial⟩ hq₂p) fun rhs q₃ hq₃ => ?_
            cases rhs with
            | none =>
                refine Prog.meets_bind (meets_parserError _ hq₃.1) fun _ q₄ hq₄ => ?_
                exact Prog.meets_pure ((hq₂'.trans hq₃).trans hq₄)
            | some rhs =>
                unfold newNode
                dsimp only
                rw [Prog.run_read_bind]
                exact (meets_analyzeAssign _ _ _ hq₃.1).mono fun _ _ h =>
                  (hq₂'.trans hq₃).trans h
          · exact Prog.meets_pure (Later.refl hq₁.1.1)
        refine Prog.meets_bind (meets_consume (by decide) hq₂.1) fun _ q₃ hq₃ => ?_
        exact Prog.meets_pure (hlater (hq₂.trans hq₃.1))

/-- Both statement functions descend, by induction on the budget. -/
theorem calls_statements (n : Nat) :
    Calls .block n (· == .lBrace) (parseBlock n) ∧ Calls .stmt n isStmtStart (parseStmt n) := by
  induction n with
  | zero => exact ⟨calls_timeout, calls_timeout⟩
  | succ n ih =>
      exact ⟨calls_blockBody (calls_decl n) ih.2, calls_stmtBody (calls_expr n) ih.2 ih.1⟩

/-- A statement descends, for every budget. -/
theorem calls_stmt (n : Nat) : Calls .stmt n isStmtStart (parseStmt n) :=
  (calls_statements n).2

/-! ## Functions -/

/-- The brackets of a parameter. -/
theorem meets_paramSuffix (n : Nat) (argTy : Option ObjTy) (hr : 1 < r) (hq : AtEnd q)
    (hqp : q.remaining ≤ p.remaining) :
    ((parseParamSuffix n argTy).run q).Meets (descends p r n) fun _ q' => Later q q' := by
  apply meets_if_match (by decide) hq
  · intro q₁ _ hq₁ hrem
    refine Prog.meets_bind (R := fun _ q' => Later q₁ q') ?_ fun ty q₂ hq₂ => ?_
    · refine meets_if_match (by decide) hq₁ (fun q₂ _ hq₂ hrem₂ => ?_) fun _ => ?_
      · exact (meets_arrayOf _ _ hq₂).mono fun _ _ h => ⟨h.1, h.2.trans hrem₂.le⟩
      refine meets_if_match (by decide) hq₁ (fun q₂ _ hq₂ hrem₂ => ?_) fun _ => ?_
      · rw [Prog.run_read_bind]
        refine Prog.meets_bind (meets_consume (by decide) hq₂) fun _ q₃ hq₃ => ?_
        refine (meets_arrayOf _ _ hq₃.1.1).mono fun _ _ h => ?_
        exact ⟨h.1, ((hq₃.1.trans h).2).trans hrem₂.le⟩
      · exact Prog.meets_bind (meets_parserError _ hq₁) fun _ q₂ hq₂ => Prog.meets_pure hq₂
    · have hq₂p : q₂.remaining ≤ p.remaining := (hq₂.2.trans hrem.le).trans hqp
      refine (meets_arrayDims _ hr hq₂.1 hq₂p).mono fun _ _ h => ?_
      exact ⟨h.1, ((hq₂.trans h).2).trans hrem.le⟩
  · exact fun _ => Prog.meets_pure (Later.refl hq)

/-- A round of the parameters that is repeated has consumed a comma. -/
theorem meets_paramIter (n funcTy : Nat) (u : Unit) (hr : Fn.param.rank < r) (hq : AtEnd q)
    (hqp : q.remaining ≤ p.remaining) :
    ((paramIter n funcTy u).run q).Meets (descends p r n) fun i q' => Consumed q i q' := by
  have hr' : 1 < r := Nat.lt_trans (by decide) hr
  refine Prog.meets_bind (R := fun _ q' => Later q q') ?_ fun _ q₁ hq₁ => ?_
  · refine Prog.meets_step ?_ (Later.refl hq)
    intro g hg
    cases hg
    refine ⟨⟨hq, trivial⟩, ?_⟩
    show q.remaining < p.remaining ∨ q.remaining = p.remaining ∧ Fn.param.rank < r
    omega
  rw [Prog.run_read_bind]
  refine Prog.meets_bind (R := fun _ q' => Later q q') ?_ fun _ q₂ hq₂ => ?_
  · unfold parserErrorIfNoType
    split
    · exact (meets_parserError _ hq₁.1).mono fun _ _ h => hq₁.trans h
    · exact Prog.meets_pure hq₁
  refine Prog.meets_bind (meets_advance hq₂.1) fun _ q₃ hq₃ => ?_
  refine Prog.meets_bind (meets_consume (by decide) hq₃.1.1) fun _ q₄ hq₄ => ?_
  have hq₄' : Later q q₄ := (hq₂.trans hq₃.1).trans hq₄.1
  rw [Prog.run_read_bind]
  refine Prog.meets_bind (meets_paramSuffix n _ hr' hq₄.1.1 (hq₄'.2.trans hqp))
    fun argTy q₅ hq₅ => ?_
  refine Prog.meets_bind (meets_defineVar _ _ _ hq₅.1) fun _ q₆ hq₆ => ?_
  refine Prog.meets_bind (meets_quiet (by simp) rfl rfl hq₆.1) fun _ q₇ hq₇ => ?_
  exact meets_comma (((hq₄'.trans hq₅).trans hq₆).trans hq₇)

/-- A function definition, called at its opening parenthesis. -/
theorem calls_func (n : Nat) (retTy : ObjTy) (name : Symbol) :
    Calls .func (n + 1) (fun _ => true) (parseFunc n retTy name) := by
  refine calls_enter fun p hp => ?_
  refine Prog.meets_bind (meets_consume (by decide) hp.1) fun _ q₁ hq₁ => ?_
  have hrem : q₁.remaining < p.remaining := hq₁.2 hp.2
  refine Prog.meets_bind (R := fun _ q' => Later q₁ q') ?_ fun funcTy q₂ hq₂ => ?_
  · unfold typeFuncNew
    rw [Prog.run_read_bind]
    refine Prog.meets_bind (meets_quiet (by simp) rfl rfl hq₁.1.1) fun _ q₂ hq₂ => ?_
    exact Prog.meets_pure hq₂
  refine Prog.meets_bind (meets_defineVar _ _ _ hq₂.1) fun _ q₃ hq₃ => ?_
  refine Prog.meets_bind (meets_quiet (by simp) rfl rfl hq₃.1) fun _ q₄ hq₄ => ?_
  refine Prog.meets_bind (meets_quiet (by simp) rfl rfl hq₄.1) fun _ q₅ hq₅ => ?_
  have hq₅' : Later q₁ q₅ := ((hq₂.trans hq₃).trans hq₄).trans hq₅
  have hq₅p : q₅.remaining < p.remaining := Nat.lt_of_le_of_lt hq₅'.2 hrem
  refine Prog.meets_bind (R := fun _ q' => Later q₅ q') ?_ fun _ q₆ hq₆ => ?_
  · apply meets_if_check
    · exact fun _ => Prog.meets_pure (Later.refl hq₅.1)
    · intro _
      refine meets_iterate (Fn.rank_pos _) hq₅.1 hq₅p.le ?_ _
      exact fun u s hs hle => meets_paramIter n funcTy u (by decide) hs (hle.trans hq₅p.le)
  refine Prog.meets_bind (meets_consume (by decide) hq₆.1) fun _ q₇ hq₇ => ?_
  refine Prog.meets_bind (meets_consume (by decide) hq₇.1.1) fun _ q₈ hq₈ => ?_
  have hq₈p : q₈.remaining < p.remaining :=
    Nat.lt_of_le_of_lt ((hq₆.trans hq₇.1).trans hq₈.1).2 hq₅p
  refine Prog.meets_bind (meets_iterate (Fn.rank_pos _) hq₈.1.1 hq₈p.le ?_ _)
    fun stmts q₉ hq₉ => ?_
  · exact fun stmts s hs hle => meets_bodyIter (calls_decl n) (calls_stmt n) _ stmts
      (Fn.rank_pos _) hs (Nat.lt_of_le_of_lt hle hq₈p)
  refine Prog.meets_bind (meets_consume (by decide) hq₉.1) fun _ q₁₀ hq₁₀ => ?_
  refine Prog.meets_bind (meets_quiet (by simp) rfl rfl hq₁₀.1.1) fun _ q₁₁ hq₁₁ => ?_
  refine Prog.meets_bind (meets_quiet (by simp) rfl rfl hq₁₁.1) fun _ q₁₂ hq₁₂ => ?_
  have hlt : q₁₂.remaining < p.remaining :=
    Nat.lt_of_le_of_lt (((hq₉.trans hq₁₀.1).trans hq₁₁).trans hq₁₂).2 hq₈p
  exact Prog.meets_pure ⟨⟨hq₁₂.1, hlt.le⟩, fun _ => hlt⟩

/-! ## Top-level items -/

/-- A top-level item consumes a token if one can begin it; otherwise it does nothing. -/
theorem meets_topLevel (n : Nat) {p : Parser} (hp : AtEnd p) :
    ((parseTopLevel n).run p).Meets (descends p (Fn.topLevel.rank + 1) (n + 1))
      fun node q => Later p q ∧ (isDecl p.curr.kind = true → q.remaining < p.remaining) ∧
        (isDecl p.curr.kind = false → node = none ∧ q.curr = p.curr) := by
  refine meets_enter ⟨hp, trivial⟩ ?_
  have hconst : ((matchKind .kwConst).run p).Meets (descends p Fn.topLevel.rank n)
      fun b q => (b = true ∧ p.curr.kind = .kwConst ∧ AtEnd q ∧ q.remaining < p.remaining) ∨
        (b = false ∧ p.curr.kind ≠ .kwConst ∧ q = p) := by
    apply meets_if_check
    · intro hkind
      refine Prog.meets_bind (meets_advance hp) fun _ q hq => Prog.meets_pure ?_
      exact Or.inl ⟨rfl, hkind, hq.1.1, hq.2 (by simp [hkind])⟩
    · exact fun hkind => Prog.meets_pure (Or.inr ⟨rfl, hkind, rfl⟩)
  refine Prog.meets_bind hconst fun isConst q₁ hq₁ => ?_
  rw [Prog.run_read_bind]
  have hlater₁ : Later p q₁ := by
    rcases hq₁ with ⟨_, _, hq₁, hrem⟩ | ⟨_, _, rfl⟩
    · exact ⟨hq₁, hrem.le⟩
    · exact Later.refl hp
  cases hty : tokenToType q₁.curr.kind with
  | none =>
      rcases hq₁ with ⟨rfl, hkind, hq₁, hrem⟩ | ⟨rfl, hkind, rfl⟩
      · refine Prog.meets_bind (meets_parserError _ hq₁) fun _ q₂ hq₂ => ?_
        refine Prog.meets_bind (meets_advance hq₂.1) fun _ q₃ hq₃ => ?_
        have hlt : q₃.remaining < p.remaining :=
          Nat.lt_of_le_of_lt (hq₂.trans hq₃.1).2 hrem
        refine Prog.meets_pure ⟨⟨hq₃.1.1, hlt.le⟩, fun _ => hlt, fun h => ?_⟩
        simp [isDecl, hkind] at h
      · refine Prog.meets_pure ⟨Later.refl hp, fun h => ?_, fun _ => ⟨rfl, rfl⟩⟩
        simp [isDecl, hty, hkind] at h
  | some ty =>
      have hne : q₁.curr.kind ≠ .eof := by
        intro hkind
        simp [hkind, tokenToType_eof] at hty
      have hdecl : isDecl p.curr.kind = true := by
        rcases hq₁ with ⟨_, hkind, _, _⟩ | ⟨_, _, rfl⟩
        · simp [isDecl, hkind]
        · simp [isDecl, hty]
      refine Prog.meets_bind (meets_advance hlater₁.1) fun _ q₂ hq₂ => ?_
      have hrem : q₂.remaining < p.remaining := Nat.lt_of_lt_of_le (hq₂.2 hne) hlater₁.2
      have hdone {α : Type} {a : Option α} {q' : Parser} (hq' : Later q₂ q') :
          Later p q' ∧ (isDecl p.curr.kind = true → q'.remaining < p.remaining) ∧
            (isDecl p.curr.kind = false → a = none ∧ q'.curr = p.curr) := by
        have hlt : q'.remaining < p.remaining := Nat.lt_of_le_of_lt hq'.2 hrem
        exact ⟨⟨hq'.1, hlt.le⟩, fun _ => hlt, fun h => by simp [hdecl] at h⟩
      apply meets_if_check
      · intro _
        refine Prog.meets_bind (meets_consume (by decide) hq₂.1.1) fun _ q₃ hq₃ => ?_
        have hq₃p : q₃.remaining < p.remaining := Nat.lt_of_le_of_lt hq₃.1.2 hrem
        rw [Prog.run_read_bind]
        apply meets_if_check
        · intro hkind
          have hfunc := (calls_func n ty q₃.prev.value.name).meets q₃ ⟨hq₃.1.1, hkind⟩
          refine (hfunc.mono fun _ q' hq' => hdone (hq₃.1.trans hq'.1)).weaken
            (fun _ => id) ?_ (fun _ => id) ?_
          · intro st hst g hg
            rcases hst g hg with ⟨hready, hrem⟩
            exact ⟨hready, by omega⟩
          · intro (htimeout : n + 1 < 10 * q₃.remaining + (8 + 1))
            show n < 10 * p.remaining + 9
            omega
        · intro _
          refine (meets_varDeclList n _ _ _ _ (by decide) hq₃.1.1 hq₃p.le).mono ?_
          exact fun _ q' hq' => hdone (hq₃.1.trans hq')
      · intro _
        refine Prog.meets_bind (meets_parserError _ hq₂.1.1) fun _ q₃ hq₃ => ?_
        exact Prog.meets_pure (hdone hq₃)

/-- An iteration of the loop of {lit}`parser_parse`: what a top-level item leaves over is
skipped. -/
theorem consumes_topIter (globals : List Node) (hr : Fn.topLevel.rank < r) (hq : AtEnd q)
    (hqp : q.remaining ≤ p.remaining) :
    ((topIter n globals).run q).Meets (descends p r n) fun i q' => Consumed q i q' := by
  have hr₀ : 0 < r := Nat.lt_trans (by decide) hr
  have hend : ((matchKind .eof).run q).Meets (descends p r n) fun b q' =>
      (b = true ∧ Later q q') ∨ (b = false ∧ q.curr.kind ≠ .eof ∧ q' = q) := by
    apply meets_if_check
    · intro _
      refine Prog.meets_bind (meets_advance hq) fun _ q₁ hq₁ => Prog.meets_pure ?_
      exact Or.inl ⟨rfl, hq₁.1⟩
    · exact fun hkind => Prog.meets_pure (Or.inr ⟨rfl, hkind, rfl⟩)
  refine Prog.meets_bind hend fun b q₁ hq₁ => ?_
  rcases hq₁ with ⟨rfl, hq₁⟩ | ⟨rfl, hkind, rfl⟩
  · exact Prog.meets_pure hq₁
  rw [if_neg (by simp)]
  have hitem : ((parseTopLevel n).run q₁).Meets (descends p r n) fun node q₂ =>
      Later q₁ q₂ ∧ (isDecl q₁.curr.kind = true → q₂.remaining < q₁.remaining) ∧
        (isDecl q₁.curr.kind = false → node = none ∧ q₂.curr = q₁.curr) := by
    refine (meets_topLevel n hq).weaken (fun _ => id) ?_ (fun _ => id) ?_
    · intro st hst g hg
      rcases hst g hg with ⟨hready, hrem | ⟨hrem, hrank⟩⟩
      · exact ⟨hready, by omega⟩
      · exact ⟨hready, by omega⟩
    · intro (htimeout : n + 1 < 10 * q₁.remaining + (9 + 1))
      show n < 10 * p.remaining + r
      have hrank : 9 < r := hr
      omega
  refine Prog.meets_bind hitem fun node q₂ hq₂ => ?_
  cases node with
  | some node =>
      refine Prog.meets_pure ⟨hq₂.1.1, hq₂.2.1 ?_⟩
      by_contra hdecl
      simpa using (hq₂.2.2 (by simpa using hdecl)).1
  | none =>
      -- Either the item consumed a token, or the token it found can begin no item.
      have hitem' : Moved q₁ q₂ ∧ (q₂.remaining < q₁.remaining ∨
          (q₂.curr = q₁.curr ∧ isDecl q₁.curr.kind = false)) := by
        by_cases hdecl : isDecl q₁.curr.kind = true
        · exact ⟨⟨hq₂.1, Or.inl (hq₂.2.1 hdecl)⟩, Or.inl (hq₂.2.1 hdecl)⟩
        · have hstuck := hq₂.2.2 (by simpa using hdecl)
          exact ⟨⟨hq₂.1, Or.inr hstuck.2⟩, Or.inr ⟨hstuck.2, by simpa using hdecl⟩⟩
      refine Prog.meets_bind (R := fun _ q' => Moved q₂ q') ?_ fun _ q₃ hq₃ => ?_
      · unfold reportTopLevel parserError
        rw [Prog.run_read_bind]
        split
        · rw [Prog.run_read_bind]
          refine Prog.meets_step (descends_of_not_enter (by simp)) ?_
          unfold errorAt
          split <;> exact ⟨Later.refl hq₂.1.1, Or.inr rfl⟩
        · exact Prog.meets_pure (Moved.refl hq₂.1.1)
      have hq₃p : q₃.remaining ≤ p.remaining := (hq₂.1.trans hq₃.1).2.trans hqp
      refine Prog.meets_bind (R := fun _ q' => Moved q₃ q') ?_ fun _ q₄ hq₄ => ?_
      · unfold synchronizeIfPanic
        rw [Prog.run_read_bind]
        split
        · exact Prog.meets_bind (meets_synchronize hr₀ hq₃.1.1 hq₃p) fun _ q₄ hq₄ =>
            Prog.meets_pure hq₄
        · exact Prog.meets_pure (Moved.refl hq₃.1.1)
      have hmoved : Moved q₁ q₄ := (hitem'.1.trans hq₃).trans hq₄
      refine Prog.meets_bind (R := fun _ q' => AtEnd q' ∧ q'.remaining < q₁.remaining) ?_
        fun _ q₅ hq₅ => Prog.meets_pure hq₅
      unfold skipIfStuck
      rw [Prog.run_read_bind]
      split <;> rename_i hskip
      · simp only [Bool.and_eq_true, bne_iff_ne] at hskip
        refine (meets_advance hq₄.1.1).mono fun _ q₅ hq₅ => ?_
        exact ⟨hq₅.1.1, Nat.lt_of_lt_of_le (hq₅.2 hskip.2) hmoved.1.2⟩
      · refine Prog.meets_pure ⟨hq₄.1.1, ?_⟩
        rcases hmoved.2 with hlt | hcurr
        · exact hlt
        -- The token is the one the item found, so the item consumed one after all.
        · rcases hitem'.2 with hlt | ⟨_, hdecl⟩
          · exact Nat.lt_of_le_of_lt (hq₃.1.trans hq₄.1).2 hlt
          · simp [hcurr, hdecl, hkind] at hskip

end

/-- The contract of a whole parse: every call is made where it should be, and a budget
above ten times the number of tokens is not used up. -/
def readyCalls (n tokens : Nat) : Contract Parser Event :=
  ⟨fun _ => False, fun st => ∀ f, st.label = .enter f → Ready f st.before, fun _ => True,
    n < 10 * tokens + 10⟩

/-- A run that descends from inside a file makes its calls where it should. -/
theorem Descends.readyCalls {α : Type} {run : Run Parser Event α} {q : Parser} {r n tokens : Nat}
    {Q : α → Parser → Prop} (hq : 10 * q.remaining + r ≤ 10 * tokens + 10)
    (h : run.Meets (descends q r n) Q) : run.Meets (readyCalls n tokens) Q := by
  refine h.weaken (fun _ => id) (fun st hst f hf => (hst f hf).1) (fun _ => id) ?_
  intro (htimeout : n < 10 * q.remaining + r)
  show n < 10 * tokens + 10
  omega

/-- The built-in functions consume nothing. -/
theorem meets_installBuiltins (intern : List UInt8 → Symbol)
    (bs : List (List Char × ObjTy × Option ObjTy)) {p q : Parser} {r n : Nat} (hq : AtEnd q) :
    ((installBuiltins intern bs).run q).Meets (descends p r n) fun _ q' => Later q q' := by
  induction bs generalizing q with
  | nil => exact Prog.meets_pure (Later.refl hq)
  | cons b bs ih =>
      rcases b with ⟨name, ret, arg1Ty⟩
      refine Prog.meets_bind (R := fun _ q' => Later q q') ?_ fun _ q₁ hq₁ => ?_
      · unfold installBuiltin typeFuncNew
        refine Prog.meets_bind (R := fun _ q' => Later q q') ?_ fun funcTy q₁ hq₁ => ?_
        · rw [Prog.run_read_bind]
          refine Prog.meets_bind (meets_quiet (by simp) rfl rfl hq) fun _ q₁ hq₁ => ?_
          exact Prog.meets_pure hq₁
        refine Prog.meets_bind (R := fun _ q' => Later q q') ?_ fun _ q₂ hq₂ => ?_
        · cases arg1Ty with
          | none => exact Prog.meets_pure hq₁
          | some ty =>
              exact (meets_quiet (by simp) rfl rfl hq₁.1).mono fun _ _ h => hq₁.trans h
        refine Prog.meets_bind (meets_defineVar _ _ _ hq₂.1) fun _ q₃ hq₃ => ?_
        exact Prog.meets_pure (hq₂.trans hq₃)
      · exact (ih hq₁.1).mono fun _ _ h => hq₁.trans h

/-- A whole parse descends from the first token. -/
theorem descends_parserProgram (intern : List UInt8 → Symbol) (n : Nat) (p : Parser) :
    ((parserProgram intern n).run p).Meets (readyCalls n p.rest.length) fun _ q => AtEnd q := by
  refine Prog.meets_bind (R := fun _ q => AtEnd q ∧ q.remaining ≤ p.rest.length) ?_ ?_
  · refine Prog.meets_bind (R := fun _ q => q.rest = p.rest) ?_ fun _ q hq => ?_
    · exact Prog.meets_step (fun f hf => by cases hf) rfl
    rw [Prog.run_read_bind, hq]
    have hp : p.remaining ≤ p.rest.length + 1 := by
      unfold remaining
      split <;> omega
    exact Descends.readyCalls (by omega) (advanceLoop_later (p := p) (r := 0) p.rest q)
  · intro _ q hq
    refine Descends.readyCalls (q := q) (r := 10) (by omega) ?_
    refine Prog.meets_bind (meets_quiet (by simp) rfl rfl hq.1) fun _ q₁ hq₁ => ?_
    refine Prog.meets_bind (meets_installBuiltins _ _ hq₁.1) fun _ q₂ hq₂ => ?_
    have hq₂q : q₂.remaining ≤ q.remaining := (hq₁.trans hq₂).2
    refine Prog.meets_bind (meets_iterate (by decide) hq₂.1 hq₂q ?_ _) fun globals q₃ hq₃ => ?_
    · exact fun globals s hs hle => consumes_topIter globals (by decide) hs (hle.trans hq₂q)
    refine Prog.meets_bind (meets_quiet (by simp) rfl rfl hq₃.1) fun _ q₄ hq₄ => ?_
    exact Prog.meets_pure hq₄.1

/-- The run of a whole parse does not depend on its budget, once it is large enough. -/
theorem settles_parserProgram (intern : List UInt8 → Symbol) {n n' : Nat} (hn : n ≤ n') :
    Settles (parserProgram intern n) (parserProgram intern n') := by
  have hC : Congruence fun {_} (m m' : Parse _) => Settles m m' := settles_congruence
  have hrefl {α : Type} (m : Parse α) : Settles m m := fun _ _ => rfl
  have hprimitives : Primitives fun {_} m m' => Settles m m' :=
    { hC with
      read := fun f _ => hC.read f
      advance := hrefl _
      exprMark := fun _ => hrefl _
      bodyMark := fun _ => hrefl _
      topMark := fun _ => hrefl _
      paramMark := hrefl _
      parserErrorAt := fun _ _ => hrefl _
      ctxError := fun _ _ => hrefl _
      newNodeField := fun {_ k k'} => congr_newNodeField hC (hrefl _) k k'
      keepField := fun {a b} => congr_keepField hC (hrefl _) a b
      define := fun _ _ _ => hrefl _
      recover := fun {_ n n' m m' k k'} hn => congr_recover hC.reading n n' m m' k k'
        (congr_synchronize hC.reading n n' hn (hrefl _) (fun _ => hrefl _) (hrefl _))
      scope := fun {_ _ m m' k k'} => congr_scope hC.reading m m' k k' (hrefl _) (hrefl _)
      semaScopeEnter := hrefl _
      semaScopeLeave := hrefl _
      setFuncRet := fun _ => hrefl _
      typeFuncNew := fun _ => hrefl _
      pushParam := fun _ _ => hrefl _ }
  exact hprimitives.whole.parserProgram intern hn

/-- The parse of a token stream does not run out of its budget. -/
theorem parserRun_ne_timeout (intern : List UInt8 → Symbol) (mem : Memory)
    (ts : TokenStream) : (parserRun intern mem ts).outcome ≠ .timeout := by
  intro htimeout
  have hmeets := descends_parserProgram intern (budget ts.tokens.length)
    (start mem Context.init ts)
  rcases hmeets with ⟨_, _, hfalse⟩ | ⟨_, hend⟩
  · exact hfalse
  · unfold parserRun at htimeout
    rw [htimeout] at hend
    have hlt : budget ts.tokens.length < 10 * ts.tokens.length + 10 := hend
    unfold budget at hlt
    omega

/-! ## Iterations and cycles -/

/-- An iteration that goes round again has consumed a token. -/
def Progresses {β γ : Type} (body : β → Parse (Iter β γ)) : Prop :=
  ∀ b p b' p', AtEnd p → ((body b).run p).outcome = .done (.again b') p' →
    p'.remaining < p.remaining

/-- There is always a parser with more tokens left. -/
theorem exists_remaining_gt (q : Parser) : ∃ p : Parser, q.remaining < p.remaining := by
  refine ⟨{ q with rest := ⟨⟨.semicolon, ⟨0, 0⟩, .unset⟩, by decide⟩ :: q.rest }, ?_⟩
  simp only [remaining, List.length_cons]
  omega

/-- An iteration that consumes a token whenever it is repeated makes progress. -/
theorem progresses_of_meets {β γ : Type} {body : β → Parse (Iter β γ)} (n : Nat)
    (h : ∀ b p q, AtEnd q → q.remaining < p.remaining →
      ((body b).run q).Meets (descends p 11 n) fun i q' => Consumed q i q') :
    Progresses body := by
  intro b q b' q' hq hout
  obtain ⟨p, hp⟩ := exists_remaining_gt q
  exact ((h b p q hq hp).of_done (fun _ _ => id) hout).2

/-- Whether two calls are calls of the same function. -/
def sameFunction : Fn → Fn → Bool
  | .binary _, .binary _ => true
  | f, g => f == g

/-- Calls of one function have one rank. -/
theorem rank_of_sameFunction {f g : Fn} (h : sameFunction f g = true) : f.rank = g.rank := by
  unfold sameFunction at h
  split at h
  · rfl
  · rw [beq_iff_eq] at h
    rw [h]

/-- A function, called where it should be, consumes a token before it is called again
from within. -/
def Cycles (f : Fn) {α : Type} (m : Parse α) : Prop :=
  ∀ p, Ready f p → (∀ st, (m.run p).steps.head? = some st → st = ⟨.enter f, p, p⟩) ∧
    ∀ st ∈ (m.run p).steps.tail, ∀ g, st.label = .enter g → sameFunction f g = true →
      st.before.remaining < p.remaining

/-- What descends comes back to itself only behind a token. -/
theorem cycles_of_calls {f : Fn} {n : Nat} {starts : TokenKind → Bool} {α : Type}
    {m : Parse α} (h : Calls f n starts m) : Cycles f m := by
  intro p hp
  refine ⟨(h.nested p hp).1, ?_⟩
  intro st hst g hg hsame
  rcases ((h.nested p hp).2 st hst g hg).2 with hrem | ⟨_, hrank⟩
  · exact hrem
  · have := rank_of_sameFunction hsame
    omega

/-- The loops of the parser, within any budget. -/
structure LoopsProgress (n : Nat) : Prop where
  parserParse : Progresses (topIter n)
  body : ∀ m, Progresses (bodyIter (parseDecl n) (parseStmt n) m n)
  params : ∀ funcTy, Progresses (paramIter n funcTy)
  declarators : ∀ baseTy isConst, Progresses
    (declaratorIter (parseInitializerList n) (parseExpr n) n baseTy isConst)
  arguments : Progresses (argIter (parseAssign n))
  elements : Progresses (elementIter (parseInitializerList n) (parseAssign n))
  dims : Progresses dimsIter
  subscripts : Progresses (subscriptIter (parseExpr n))
  operators : ∀ prec, 0 ≤ prec → Progresses (binaryIter (parseBinary n) prec)
  synchronize : Progresses synchronizeIter

/-- Every loop of the parser makes progress. -/
theorem loopsProgress (n : Nat) : LoopsProgress n where
  parserParse := progresses_of_meets n fun globals _ _ hq h =>
    consumes_topIter globals (by decide) hq h.le
  body m := progresses_of_meets n fun stmts _ _ hq h =>
    meets_bodyIter (calls_decl n) (calls_stmt n) m stmts (by decide) hq h
  params funcTy := progresses_of_meets n fun u _ _ hq h =>
    meets_paramIter n funcTy u (by decide) hq h.le
  declarators baseTy isConst := progresses_of_meets n fun st _ _ hq h =>
    meets_declaratorIter (calls_initializerList n) (calls_expr n) baseTy isConst st
      (by decide) hq h.le
  arguments := progresses_of_meets n fun args _ _ hq h =>
    meets_argIter (calls_assign n) args hq h
  elements := progresses_of_meets n fun inits _ _ hq h =>
    meets_elementIter (calls_initializerList n) (calls_assign n) inits hq h
  dims := progresses_of_meets n fun base _ _ hq _ => meets_dimsIter base hq
  subscripts := progresses_of_meets n fun curr _ _ hq h =>
    meets_subscriptIter (calls_expr n) curr hq h.le
  operators prec hprec := progresses_of_meets n fun lhs _ _ hq h =>
    meets_binaryIter (calls_expressions n).2.2.1 hprec lhs hq h.le
  synchronize := by
    apply progresses_of_meets n
    intro u p q hq _
    refine (meets_synchronizeIter u hq).mono fun i q' hi => ?_
    cases i with
    | again _ => exact hi
    | leave _ => exact hi.symm ▸ Later.refl hq

/-- The parsing functions that take part in recursion, within any budget. -/
structure CallsProgress (n : Nat) : Prop where
  primary : Cycles .primary (parsePrimary n)
  unary : Cycles .unary (parseUnary n)
  binary : ∀ prec, Cycles (.binary prec) (parseBinary n prec)
  assign : Cycles .assign (parseAssign n)
  expr : Cycles .expr (parseExpr n)
  initializerList : Cycles .initializerList (parseInitializerList n)
  decl : Cycles .decl (parseDecl n)
  block : Cycles .block (parseBlock n)
  stmt : Cycles .stmt (parseStmt n)
  func : ∀ retTy name, Cycles .func (parseFunc n retTy name)

/-- Every cycle of calls does. -/
theorem callsProgress (n : Nat) : CallsProgress n where
  primary := cycles_of_calls (calls_expressions n).1
  unary := cycles_of_calls (calls_expressions n).2.1
  binary prec := cycles_of_calls ((calls_expressions n).2.2.1 prec)
  assign := cycles_of_calls (calls_assign n)
  expr := cycles_of_calls (calls_expr n)
  initializerList := cycles_of_calls (calls_initializerList n)
  decl := cycles_of_calls (calls_decl n)
  block := cycles_of_calls (calls_statements n).1
  stmt := cycles_of_calls (calls_stmt n)
  func retTy name := cycles_of_calls (calls_func n retTy name)

end Parser

/-- The front end ends on every file.  The loops of the lexer end by themselves, each
token takes a byte, and the whole file is read; the parse never uses up its budget, so it
is the parse under any larger budget; when it returns it has reached the end of the file;
every call finds the parser where it may be called; and neither an iteration of a loop nor a
cycle of calls goes round without consuming a token. -/
theorem front_end_terminates (f : Fluf) (hf : f.Standard) (mem : Memory)
    (baseOffset : Nat) (content : List UInt8) :
    Lexer.LoopsEnd ∧
    (∀ l, (Lexer.lexerNext f l).1.kind ≠ .eof → l.cursor < (Lexer.lexerNext f l).2.cursor) ∧
    (Lexer.afterCalls f
      ((Lexer.lexTokens f (Lexer.init baseOffset content)).tokens.length + 1)
      (Lexer.init baseOffset content)).cursor = content.length ∧
    (compileRun f mem baseOffset content).outcome ≠ .timeout ∧
    (∀ n, Parser.budget (Lexer.lexTokens f (Lexer.init baseOffset content)).tokens.length ≤ n →
      (Parser.parserProgram f.intern n).run
        (Parser.start mem Context.init (Lexer.lexTokens f (Lexer.init baseOffset content))) =
      compileRun f mem baseOffset content) ∧
    (∀ globals p, (compileRun f mem baseOffset content).outcome = .done globals p →
      p.rest = [] ∧ p.curr.kind = .eof) ∧
    (∀ st ∈ (compileRun f mem baseOffset content).steps, ∀ fn, st.label = .enter fn →
      Parser.Ready fn st.before) ∧
    (∀ n, Parser.LoopsProgress n) ∧
    ∀ n, Parser.CallsProgress n := by
  have hbudget := Parser.parserRun_ne_timeout f.intern mem
    (Lexer.lexTokens f (Lexer.init baseOffset content))
  refine ⟨Lexer.loopsEnd, fun _ => Lexer.lexerNext_progress hf,
    Lexer.cursor_at_end hf (Nat.zero_le _), hbudget, ?_, ?_, ?_, Parser.loopsProgress,
    Parser.callsProgress⟩
  · intro n hn
    exact Parser.settles_parserProgram f.intern hn _ hbudget
  · intro globals p hout
    exact Parser.parserProgram_reads_all hout
  · intro st hst fn hfn
    exact (Parser.descends_parserProgram f.intern _ _).emits (fun _ => id) hst fn hfn

/-- An unfinished function: {lit}`int f(){`. -/
theorem front_end_terminates_unfinished :
    (compileRun Fluf.ascii ⟨fun _ => none, Token.eof ⟨0, 0⟩⟩ 0
      (['i', 'n', 't', ' ', 'f', '(', ')', '\x7b'].map byte)).outcome ≠ .timeout :=
  (front_end_terminates Fluf.ascii Fluf.ascii_standard ⟨fun _ => none, Token.eof ⟨0, 0⟩⟩ 0
    (['i', 'n', 't', ' ', 'f', '(', ')', '\x7b'].map byte)).2.2.2.1

end Cact
