import Cact.Parser.Input
import Cact.Parser.Termination

/-!
# What the parser accepts is derivable

Up to its first error, every parsing function reads a derivation of its part of the
grammar.

Main results:

- Theorem {lit}`Parser.sound_expressions`: the expression functions.
- Theorem {lit}`Parser.sound_stmt`: statements and blocks.
- Theorem {lit}`Parser.derives_of_accepted`: whole files.
-/

open Traced

namespace Cact

open Grammar

namespace Parser

/-- The terminals {lit}`ts` were read, without an error. -/
structure Reads (p : Parser) (ts : List Terminal) (p' : Parser) : Prop where
  clear : Clear p'
  input : p.input = ts ++ p'.input

/-- Taking a token reads its text. -/
theorem Took.reads {p p' : Parser} {t : Terminal} (h : Took p t p') : Reads p [t] p' :=
  ⟨h.clear, h.input⟩

/-- Staying at a token reads nothing. -/
theorem Stayed.reads {p p' : Parser} (h : Stayed p p') : Reads p [] p' :=
  ⟨h.clear, h.input.symm⟩

/-- Nothing is read by standing still. -/
theorem Reads.refl {p : Parser} (h : Clear p) : Reads p [] p := ⟨h, rfl⟩

/-- What is read in two pieces is read in one. -/
theorem Reads.trans {p₁ p₂ p₃ : Parser} {ts ts' : List Terminal} (h : Reads p₁ ts p₂)
    (h' : Reads p₂ ts' p₃) : Reads p₁ (ts ++ ts') p₃ where
  clear := h'.clear
  input := by rw [h.input, h'.input, List.append_assoc]

section

variable {n : Nat} {p : Parser}

/-! ## Semantic checks -/

/-- The analysis of an operator stays at its token. -/
theorem stayed_analyzeBinary (op : BinOp) (tok : Token) (lhs rhs : Option Node) (h : Clear p) :
    ((semaAnalyzeBinary op tok lhs rhs).run p).Meets untilError fun _ p' => Stayed p p' := by
  apply Prog.meets_bind (stayed_mark _ h)
  intro _ q hq
  cases lhs with
  | none => exact Prog.meets_fault trivial
  | some l =>
      cases rhs with
      | none => exact Prog.meets_fault trivial
      | some r =>
          dsimp only
          rw [Prog.run_read_bind]
          split
          · exact Prog.meets_bind_escape (stops_ctxError _ _)
          · cases op <;> dsimp only <;>
              first
              | exact Prog.meets_pure hq
              | (split
                 · exact Prog.meets_bind_escape (stops_ctxError _ _)
                 · exact Prog.meets_pure hq)

/-- So does that of an assignment. -/
theorem stayed_analyzeAssign (tok : Token) (lhs rhs : Option Node) (h : Clear p) :
    ((semaAnalyzeAssign tok lhs rhs).run p).Meets untilError fun _ p' => Stayed p p' := by
  apply Prog.meets_bind (stayed_mark _ h)
  intro _ q hq
  cases lhs with
  | none => exact Prog.meets_fault trivial
  | some l =>
      cases rhs with
      | none => exact Prog.meets_fault trivial
      | some r =>
          apply Prog.meets_bind (R := fun _ p' => Stayed p p')
          · unfold checkAssignTarget
            split
            · exact stops_ctxError _ _
            · exact Prog.meets_pure hq
          · intro _ q' hq'
            rw [Prog.run_read_bind]
            split
            · exact Prog.meets_bind_escape (stops_ctxError _ _)
            · exact Prog.meets_pure hq'

/-- So does that of a return statement. -/
theorem stayed_analyzeReturn (tok : Token) (lhs : Option Node) (h : Clear p) :
    ((semaAnalyzeReturn tok lhs).run p).Meets untilError fun _ p' => Stayed p p' := by
  apply Prog.meets_bind (stayed_mark _ h)
  intro _ q hq
  rw [Prog.run_read_bind]
  split
  · split
    · exact Prog.meets_bind_escape (stops_ctxError _ _)
    · exact Prog.meets_pure hq
  · split
    · exact Prog.meets_bind_escape (stops_ctxError _ _)
    · rw [Prog.run_read_bind]
      split
      · exact Prog.meets_bind_escape (stops_ctxError _ _)
      · exact Prog.meets_pure hq

/-- So does the check of an initializer. -/
theorem stayed_checkInit (ty : Option ObjTy) (tok : Token) (init : Option Node) (h : Clear p) :
    ((checkInit ty tok init).run p).Meets untilError fun _ p' => Stayed p p' := by
  cases init with
  | none => exact Prog.meets_pure (Stayed.refl h)
  | some e =>
      unfold checkInit
      rw [Prog.run_read_bind]
      split
      · exact stops_ctxError _ _
      · exact Prog.meets_pure (Stayed.refl h)

/-- So does a definition. -/
theorem stayed_defineVar (name : Symbol) (ty : Option Ty) (isConst : Bool) (h : Clear p) :
    ((semaDefineVar name ty isConst).run p).Meets untilError fun _ p' => Stayed p p' := by
  unfold semaDefineVar
  rw [Prog.run_read_bind]
  split
  · exact Prog.meets_pure (Stayed.refl h)
  · rw [Prog.run_read_bind]
    split
    · exact Prog.meets_bind_escape (stops_ctxError _ _)
    · rw [Prog.run_read_bind]
      apply Prog.meets_bind (stayed_step h rfl rfl rfl rfl rfl)
      exact fun _ q hq => Prog.meets_pure hq

/-- So does the field of a new node. -/
theorem stayed_nodeField (h : Clear p) :
    (newNodeField.run p).Meets untilError fun _ p' => Stayed p p' := by
  unfold newNodeField
  rw [Prog.run_read_bind]
  apply Prog.meets_bind (stayed_step h rfl rfl rfl rfl rfl)
  exact fun _ q hq => Prog.meets_pure hq

/-- So does keeping it. -/
theorem stayed_keepField (field : Option Node) (h : Clear p) :
    ((keepField field).run p).Meets untilError fun _ p' => Stayed p p' :=
  Prog.meets_bind (stayed_mark _ h) fun _ _ hq => Prog.meets_pure hq

/-- So does a new array type. -/
theorem stayed_arrayOf (base : Option ObjTy) (len : Int32) (h : Clear p) :
    ((typeArrayOf base len).run p).Meets untilError fun _ p' => Stayed p p' := by
  apply Prog.meets_bind (stayed_mark _ h)
  intro _ q hq
  cases base with
  | none => exact Prog.meets_fault trivial
  | some base => exact Prog.meets_pure hq

/-- A name that was found is not reported. -/
theorem stayed_parserErrorIfNull (sym : Option SemaSymbol) (m : Msg) :
    ((parserErrorIfNull sym m).run p).Meets untilError fun _ p' => p' = p := by
  cases sym with
  | none => exact stops_parserError m
  | some sym => exact Prog.meets_pure rfl

/-! ## Expressions -/

/-- {lit}`m` reads an expression that satisfies {lit}`P` in the state it ends in. -/
def Recognizes (m : Parse (Option Node)) (P : Expr → Parser → Prop) : Prop :=
  ∀ p, Clear p → (m.run p).Meets untilError fun r p' =>
    r.isSome = true ∧ ∃ e : Expr, e.WellFormed ∧ P e p' ∧ Reads p e.toks p'

/-- What a piece recognizes, behind what was read in front of it. -/
theorem Recognizes.meets {m : Parse (Option Node)} {P : Expr → Parser → Prop}
    (h : Recognizes m P) {q : Parser} {ts : List Terminal} (hq : Reads p ts q) :
    (m.run q).Meets untilError fun r p' =>
      r.isSome = true ∧ ∃ e : Expr, e.WellFormed ∧ P e p' ∧ Reads p (ts ++ e.toks) p' := by
  refine (h q hq.clear).mono fun r p' hr => ?_
  obtain ⟨hsome, e, he, hP, hreads⟩ := hr
  exact ⟨hsome, e, he, hP, hq.trans hreads⟩

/-- The binary operators are the tokens with a precedence. -/
theorem getPrec_opKind (op : BinOp) : getPrec (opKind op) = opLevel op := by
  cases op <;> rfl

/-- Every kind with a precedence is an operator. -/
theorem exists_opKind {kind : TokenKind} (h : 0 ≤ getPrec kind) :
    ∃ op, opKind op = kind ∧ getBinaryKind kind = op := by
  cases kind <;> first | exact ⟨_, rfl, rfl⟩ | simp [getPrec] at h

/-- No operator binds more strongly than by ten. -/
theorem getPrec_le (kind : TokenKind) : getPrec kind ≤ 10 := by
  cases kind <;> simp [getPrec]

/-- A loop over parts with commas between them.  Before an iteration the parts read so far
are all followed by a comma. -/
theorem reads_separated {α β γ : Type} {body : β → Parse (Iter β γ)} (part : α → List Terminal)
    (P : α → Prop) (h : Clear p)
    (hbody : ∀ b q, Clear q → ((body b).run q).Meets untilError fun i q' =>
      ∃ a, P a ∧ match i with
        | .again _ => Reads q (part a ++ [.fixed .comma]) q'
        | .leave _ => Reads q (part a) q') (b : β) :
    ((loop body n b).run p).Meets untilError fun _ p' =>
      ∃ as : List α, as ≠ [] ∧ (∀ a ∈ as, P a) ∧ Reads p (separated (as.map part)) p' := by
  apply meets_loop (fun _ q => ∃ as : List α, (∀ a ∈ as, P a) ∧
    Reads p (as.flatMap fun a => part a ++ [.fixed .comma]) q) trivial
  · rintro b q ⟨as, has, hq⟩
    refine (hbody b q hq.clear).mono fun i q' hi => ?_
    obtain ⟨a, ha, hi⟩ := hi
    have hall : ∀ a' ∈ as ++ [a], P a' := by
      intro a' ha'
      rcases List.mem_append.mp ha' with ha' | ha'
      · exact has a' ha'
      · exact List.mem_singleton.mp ha' ▸ ha
    cases i with
    | again b' =>
        refine ⟨as ++ [a], hall, ?_⟩
        simpa using hq.trans hi
    | leave c =>
        refine ⟨as ++ [a], by simp, hall, ?_⟩
        rw [List.map_append, List.map_singleton, separated_concat, List.flatMap_map]
        exact hq.trans hi
  · exact ⟨[], by simp, Reads.refl h⟩

/-- A mark changes nothing in what is recognized. -/
theorem recognizes_mark {l : Event} {m : Parse (Option Node)} {P : Expr → Parser → Prop}
    (h : Recognizes m P) : Recognizes (do Prog.mark l; m) P :=
  fun p hp => Prog.meets_mark_bind trivial (h p hp)

/-- A budget that is used up recognizes nothing. -/
theorem recognizes_timeout {P : Expr → Parser → Prop} : Recognizes Prog.timeout P :=
  fun _ _ => Prog.meets_timeout trivial

/-- The arguments of a call, and the parenthesis behind them. -/
theorem reads_args {a : Parse (Option Node)} (ha : Recognizes a fun _ _ => True)
    (h : Clear p) :
    ((parseArgs a n).run p).Meets untilError fun _ p' =>
      ∃ es : List Expr, argsWellFormed es ∧ Reads p (separated (argToks es)) p' := by
  apply check_cases
  · exact fun _ => Prog.meets_pure ⟨[], trivial, by simpa [argToks, separated] using Reads.refl h⟩
  · intro _
    refine (reads_separated Expr.toks Expr.WellFormed h ?_ _).mono ?_
    · intro args q hq
      apply Prog.meets_bind (ha q hq)
      rintro arg q₁ ⟨_, e, he, _, hq₁⟩
      apply match_fixed rfl (by decide) hq₁.clear
      · exact fun q₂ hq₂ => Prog.meets_pure ⟨e, he, hq₁.trans hq₂.reads⟩
      · exact fun _ => Prog.meets_pure ⟨e, he, hq₁⟩
    · rintro _ p' ⟨es, _, hes, hp'⟩
      exact ⟨es, (argsWellFormed_iff es).mpr hes, by rwa [argToks_eq]⟩

/-- The type of a call is looked up without moving. -/
theorem stayed_callTy (name : Symbol) (sym : Option SemaSymbol) :
    ((callTy name sym).run p).Meets untilError fun _ p' => p' = p := by
  unfold callTy
  cases sym with
  | none => exact Prog.meets_pure rfl
  | some sym =>
      apply Prog.meets_mark_bind trivial
      cases sym.ty with
      | none => exact Prog.meets_fault trivial
      | some ty => exact Prog.meets_read rfl

/-- A call, when its name has been read and its parenthesis is the current token. -/
theorem reads_call {a : Parse (Option Node)} (ha : Recognizes a fun _ _ => True)
    (name : Symbol) {q : Parser} (hq : Reads p [.ident name] q) :
    ((parseCall a n name).run q).Meets untilError fun r p' =>
      r.isSome = true ∧ ∃ e : Expr, e.WellFormed ∧ e.level = 12 ∧ Reads p e.toks p' := by
  unfold parseCall semaLookup
  apply Prog.meets_bind (took_fixed rfl (by decide) hq.clear)
  intro _ q₁ hq₁
  rw [Prog.run_read_bind]
  apply Prog.meets_bind (stayed_parserErrorIfNull _ _)
  rintro _ _ rfl
  apply Prog.meets_bind (reads_args ha hq₁.clear)
  rintro args q₂ ⟨es, hes, hq₂⟩
  apply Prog.meets_bind (took_fixed rfl (by decide) hq₂.clear)
  intro _ q₃ hq₃
  apply Prog.meets_bind (stayed_callTy _ _)
  rintro ty _ rfl
  apply Prog.meets_pure
  refine ⟨rfl, .call name es, hes, rfl, ?_⟩
  simpa [Expr.toks] using ((hq.trans hq₁.reads).trans hq₂).trans hq₃.reads

/-- A variable and its subscripts, when its name has been read. -/
theorem reads_variable {x : Parse (Option Node)} (hx : Recognizes x fun e _ => 0 ≤ e.level)
    (name : Symbol) {q : Parser} (hq : Reads p [.ident name] q) :
    ((parseVariable x n name).run q).Meets untilError fun r p' =>
      r.isSome = true ∧ ∃ e : Expr, e.WellFormed ∧ e.level = 12 ∧ Reads p e.toks p' := by
  unfold parseVariable semaLookup
  rw [Prog.run_read_bind]
  apply Prog.meets_bind (stayed_parserErrorIfNull _ _)
  rintro _ _ rfl
  -- The loop has read a designator, which every subscript extends.
  apply meets_loop (fun _ q => ∃ e : Expr, e.WellFormed ∧ e.isDesignator = true ∧ e.level = 12 ∧
    Reads p e.toks q) trivial
  · rintro curr q ⟨e, he, hdesignator, hlevel, hq⟩
    apply match_fixed rfl (by decide) hq.clear
    · intro q₁ hq₁
      apply Prog.meets_bind (hx.meets (hq.trans hq₁.reads))
      rintro index q₂ ⟨_, i, hi, hi₀, hq₂⟩
      apply Prog.meets_bind (took_fixed rfl (by decide) hq₂.clear)
      intro _ q₃ hq₃
      split
      · refine Prog.meets_pure ⟨.index e i, ⟨he, hdesignator, hi, hi₀⟩, rfl, rfl, ?_⟩
        simpa [Expr.toks] using hq₂.trans hq₃.reads
      · exact Prog.meets_bind_escape (stops_parserError _)
    · exact fun _ => Prog.meets_pure ⟨rfl, e, he, hlevel, hq⟩
  · exact ⟨.var name, trivial, rfl, rfl, hq⟩

/-- A primary expression, from what stands in its parentheses and in its arguments. -/
theorem recognizes_primary {x a : Parse (Option Node)}
    (hx : Recognizes x fun e _ => 0 ≤ e.level) (ha : Recognizes a fun _ _ => True) :
    Recognizes (parsePrimaryBody x a n) fun e _ => e.level = 12 := by
  apply recognizes_mark
  intro p hp
  have hliteral {q : Parser} {node : Node} (e : Expr) (he : e.WellFormed) (hlevel : e.level = 12)
      (hq : Reads p e.toks q) :
      ((pure (some node) : Parse (Option Node)).run q).Meets untilError fun r p' =>
        r.isSome = true ∧ ∃ e : Expr, e.WellFormed ∧ e.level = 12 ∧ Reads p e.toks p' :=
    Prog.meets_pure ⟨rfl, e, he, hlevel, hq⟩
  apply match_cases (by decide) hp
  · intro q hq hkind
    rw [Prog.run_read_bind]
    exact hliteral (.int _) trivial rfl (by simpa [Expr.toks, terminal_litInt hkind] using hq.reads)
  intro _
  apply match_cases (by decide) hp
  · intro q hq hkind
    rw [Prog.run_read_bind]
    exact hliteral (.float p.curr.value.asFloat) trivial rfl
      (by simpa [Expr.toks, Token.terminal, hkind] using hq.reads)
  intro _
  apply match_cases (by decide) hp
  · intro q hq hkind
    rw [Prog.run_read_bind]
    exact hliteral (.double p.curr.value.asDouble) trivial rfl
      (by simpa [Expr.toks, Token.terminal, hkind] using hq.reads)
  intro _
  apply match_fixed rfl (by decide) hp
  · exact fun q hq => hliteral (.bool true) trivial rfl hq.reads
  intro _
  apply match_fixed rfl (by decide) hp
  · exact fun q hq => hliteral (.bool false) trivial rfl hq.reads
  intro _
  apply match_fixed rfl (by decide) hp
  · intro q hq
    apply Prog.meets_bind (hx.meets hq.reads)
    rintro inner q₁ ⟨hsome, e, he, he₀, hq₁⟩
    apply Prog.meets_bind (took_fixed rfl (by decide) hq₁.clear)
    intro _ q₂ hq₂
    refine Prog.meets_pure ⟨hsome, .paren e, ⟨he, he₀⟩, rfl, ?_⟩
    simpa [Expr.toks] using hq₁.trans hq₂.reads
  intro _
  apply match_cases (by decide) hp
  · intro q hq hkind
    rw [terminal_ident hkind] at hq
    have hprev : q.prev.value.name = p.curr.value.name := Token.name_of_terminal hq.prev
    rw [Prog.run_read_bind]
    apply check_cases
    · intro _
      rw [hprev]
      exact reads_call ha _ hq.reads
    · intro _
      rw [hprev]
      exact reads_variable hx _ hq.reads
  · exact fun _ => Prog.meets_bind_escape (stops_parserError _)

/-- A unary expression, from its operand. -/
theorem recognizes_unary {u m : Parse (Option Node)}
    (hu : Recognizes u fun e _ => 11 ≤ e.level) (hm : Recognizes m fun e _ => e.level = 12) :
    Recognizes (parseUnaryBody u m) fun e _ => 11 ≤ e.level := by
  apply recognizes_mark
  intro p hp
  have hoperand {q q' : Parser} (op : UnOp) {e : Expr} (hq : Took p (.fixed op.kind) q)
      (he : e.WellFormed) (hlevel : 11 ≤ e.level) (hq' : Reads q e.toks q') :
      ∃ e : Expr, e.WellFormed ∧ 11 ≤ e.level ∧ Reads p e.toks q' :=
    ⟨.unary op e, ⟨he, hlevel⟩, Int.le_refl _, by simpa [Expr.toks] using hq.reads.trans hq'⟩
  apply match_fixed rfl (by decide) hp
  · intro q hq
    refine (hu q hq.clear).mono ?_
    rintro r q' ⟨hsome, e, he, hlevel, hq'⟩
    exact ⟨hsome, hoperand .plus hq he hlevel hq'⟩
  intro _
  apply match_fixed rfl (by decide) hp
  · intro q hq
    apply Prog.meets_bind (hu q hq.clear)
    rintro r q' ⟨_, e, he, hlevel, hq'⟩
    exact Prog.meets_pure ⟨rfl, hoperand .minus hq he hlevel hq'⟩
  intro _
  apply match_fixed rfl (by decide) hp
  · intro q hq
    apply Prog.meets_bind (hu q hq.clear)
    rintro r q' ⟨_, e, he, hlevel, hq'⟩
    exact Prog.meets_pure ⟨rfl, hoperand .not hq he hlevel hq'⟩
  · intro _
    refine (hm p hp).mono ?_
    rintro r q' ⟨hsome, e, he, hlevel, hq'⟩
    exact ⟨hsome, e, he, by omega, hq'⟩

/-- Whatever operator follows, {lit}`parse_binary` has left it for its caller. -/
theorem recognizes_binary {u : Parse (Option Node)} {b : Int → Parse (Option Node)}
    (hu : Recognizes u fun e _ => 11 ≤ e.level)
    (hb : ∀ prec, 0 ≤ prec → prec ≤ 11 → Recognizes (b prec) fun e q =>
      prec ≤ e.level ∧ getPrec q.curr.kind < prec) {prec : Int} (hprec₀ : 0 ≤ prec)
    (hprec : prec ≤ 11) :
    Recognizes (parseBinaryBody u b n prec) fun e q =>
      prec ≤ e.level ∧ getPrec q.curr.kind < prec := by
  apply recognizes_mark
  intro p hp
  apply Prog.meets_bind (hu p hp)
  rintro lhs q ⟨hsome, e, he, hlevel, hq⟩
  -- What was read is an operand of its level, and no operator of a higher level follows.
  apply meets_loop (fun (lhs : Option Node) q => lhs.isSome = true ∧ ∃ e : Expr, e.WellFormed ∧
    prec ≤ e.level ∧ getPrec q.curr.kind ≤ e.level ∧ Reads p e.toks q) trivial
  · rintro lhs q ⟨hsome, e, he, hlevel, hnext, hq⟩
    unfold binaryIter newNode
    rw [Prog.run_read_bind]
    by_cases hop : getPrec q.curr.kind < prec
    · rw [if_pos hop]
      exact Prog.meets_pure ⟨hsome, e, he, ⟨hlevel, hop⟩, hq⟩
    · rw [if_neg hop]
      obtain ⟨op, hkind, _⟩ := exists_opKind (show 0 ≤ getPrec q.curr.kind by omega)
      have hopLevel : getPrec q.curr.kind = opLevel op := by rw [← hkind, getPrec_opKind]
      have hplain : isPlain q.curr.kind = true := by
        rw [← hkind]
        cases op <;> rfl
      have hne : q.curr.kind ≠ .eof := by
        rw [← hkind]
        cases op <;> simp [opKind]
      apply Prog.meets_bind (took_advance hq.clear hne)
      intro _ q₁ hq₁
      rw [terminal_of_kind rfl hplain, ← hkind] at hq₁
      apply Prog.meets_mark_bind trivial
      have hrange := getPrec_le q.curr.kind
      apply Prog.meets_bind (hb _ (by omega) (by omega) q₁ hq₁.clear)
      rintro rhs q₂ ⟨_, r, hr, ⟨hrLevel, hrNext⟩, hq₂⟩
      rw [Prog.run_read_bind]
      apply Prog.meets_bind (stayed_analyzeBinary _ _ _ _ hq₂.clear)
      intro node q₃ hq₃
      refine Prog.meets_pure ⟨rfl, .binary op e r, ⟨he, hr, by omega, by omega⟩, ?_, ?_, ?_⟩
      · simp only [Expr.level]
        omega
      · simp only [Expr.level, hq₃.curr]
        omega
      · simpa [Expr.toks] using ((hq.trans hq₁.reads).trans hq₂).trans hq₃.reads
  · have := getPrec_le q.curr.kind
    exact ⟨hsome, e, he, by omega, by omega, hq⟩

/-- An assignment, from its two sides. -/
theorem recognizes_assign {b : Int → Parse (Option Node)} {a : Parse (Option Node)}
    (hb : Recognizes (b 0) fun e _ => 0 ≤ e.level) (ha : Recognizes a fun _ _ => True) :
    Recognizes (parseAssignBody b a) fun _ _ => True := by
  apply recognizes_mark
  intro p hp
  apply Prog.meets_bind (hb p hp)
  rintro lhs q ⟨hsome, e, he, hlevel, hq⟩
  apply match_fixed rfl (by decide) hq.clear
  · intro q₁ hq₁
    apply Prog.meets_mark_bind trivial
    apply Prog.meets_bind (ha q₁ hq₁.clear)
    rintro rhs q₂ ⟨_, r, hr, _, hq₂⟩
    unfold newNode
    rw [Prog.run_read_bind]
    apply Prog.meets_bind (stayed_analyzeAssign _ _ _ hq₂.clear)
    intro node q₃ hq₃
    refine Prog.meets_pure ⟨rfl, .assign e r, ⟨he, hr, hlevel⟩, trivial, ?_⟩
    simpa [Expr.toks] using ((hq.trans hq₁.reads).trans hq₂).trans hq₃.reads
  · exact fun _ => Prog.meets_pure ⟨hsome, e, he, trivial, hq⟩

/-- All expression functions, by induction on the budget. -/
theorem sound_expressions (n : Nat) :
    (Recognizes (parsePrimary n) fun e _ => e.level = 12) ∧
    (Recognizes (parseUnary n) fun e _ => 11 ≤ e.level) ∧
    (∀ prec, 0 ≤ prec → prec ≤ 11 → Recognizes (parseBinary n prec) fun e q =>
      prec ≤ e.level ∧ getPrec q.curr.kind < prec) ∧
    (Recognizes (parseAssign n) fun _ _ => True) ∧
    Recognizes (parseExpr n) fun e _ => 0 ≤ e.level := by
  induction n with
  | zero =>
      exact ⟨recognizes_timeout, recognizes_timeout, fun _ _ _ => recognizes_timeout,
        recognizes_timeout, recognizes_timeout⟩
  | succ n ih =>
      rcases ih with ⟨hprimary, hunary, hbinary, hassign, hexpr⟩
      have hoperand : Recognizes (parseBinary n 0) fun e _ => 0 ≤ e.level := by
        intro p hp
        refine (hbinary 0 (Int.le_refl _) (by omega) p hp).mono ?_
        rintro r q ⟨hsome, e, he, ⟨hlevel, _⟩, hq⟩
        exact ⟨hsome, e, he, hlevel, hq⟩
      refine ⟨recognizes_primary hexpr hassign, recognizes_unary hunary hprimary, ?_,
        recognizes_assign hoperand hassign, recognizes_mark hoperand⟩
      exact fun prec h₀ h => recognizes_binary hunary hbinary h₀ h

/-- What {lit}`parse_expr` accepts is an expression. -/
theorem sound_expr (n : Nat) : Recognizes (parseExpr n) fun e _ => 0 ≤ e.level :=
  (sound_expressions n).2.2.2.2

/-- What {lit}`parse_assign` accepts is one as well. -/
theorem sound_assign (n : Nat) : Recognizes (parseAssign n) fun _ _ => True :=
  (sound_expressions n).2.2.2.1

/-! ## Declarations -/

/-- What is read as dimensions is the text of dimensions. -/
theorem reads_dims (base : Option ObjTy) (h : Clear p) :
    ((parseArrayDims n base).run p).Meets untilError fun _ p' =>
      ∃ dims : List Int32, Reads p (dims.flatMap dimToks) p' := by
  apply Prog.meets_mark_bind trivial
  apply meets_loop (fun _ q => ∃ dims : List Int32, Reads p (dims.flatMap dimToks) q) trivial
  · rintro base q ⟨dims, hq⟩
    apply match_fixed rfl (by decide) hq.clear
    · intro q₁ hq₁
      apply match_cases (by decide) hq₁.clear
      · intro q₂ hq₂ hkind
        rw [terminal_litInt hkind] at hq₂
        rw [Prog.run_read_bind]
        apply Prog.meets_bind (took_fixed rfl (by decide) hq₂.clear)
        intro _ q₃ hq₃
        apply Prog.meets_bind (stayed_arrayOf _ _ hq₃.clear)
        intro ty q₄ hq₄
        refine Prog.meets_pure ⟨dims ++ [q₁.curr.value.asInt], ?_⟩
        simpa [dimToks] using
          (((hq.trans hq₁.reads).trans hq₂.reads).trans hq₃.reads).trans hq₄.reads
      · exact fun _ => Prog.meets_bind_escape (stops_parserError _)
    · exact fun _ => Prog.meets_pure ⟨dims, hq⟩
  · exact ⟨[], by simpa using Reads.refl h⟩

/-- {lit}`m` reads a brace list. -/
def RecognizesList (m : Parse (Option Node)) : Prop :=
  ∀ p, Clear p → (m.run p).Meets untilError fun _ p' =>
    ∃ es : List Elem, elemsWellFormed es ∧ Reads p (Elem.list es).toks p'

/-- A brace list, from its elements. -/
theorem recognizes_initializerList {i a : Parse (Option Node)} (hi : RecognizesList i)
    (ha : Recognizes a fun _ _ => True) : RecognizesList (parseInitializerListBody i a n) := by
  intro p hp
  apply Prog.meets_mark_bind trivial
  apply Prog.meets_bind (took_fixed rfl (by decide) hp)
  intro _ q hq
  apply Prog.meets_bind (R := fun _ q' => ∃ es : List Elem, elemsWellFormed es ∧
    Reads q (separated (elemToks es)) q')
  · apply check_cases
    · intro _
      exact Prog.meets_pure ⟨[], trivial, by simpa [elemToks, separated] using Reads.refl hq.clear⟩
    · intro _
      refine (reads_separated Elem.toks Elem.WellFormed hq.clear ?_ _).mono ?_
      · intro inits s hs
        apply Prog.meets_bind (R := fun _ s' => ∃ e : Elem, e.WellFormed ∧ Reads s e.toks s')
        · apply check_cases
          · intro _
            refine (hi s hs).mono ?_
            rintro _ s' ⟨es, hes, hs'⟩
            exact ⟨.list es, hes, hs'⟩
          · intro _
            refine (ha s hs).mono ?_
            rintro _ s' ⟨_, e, he, _, hs'⟩
            exact ⟨.value e, he, by simpa [Elem.toks] using hs'⟩
        · rintro val s₁ ⟨e, he, hs₁⟩
          apply match_fixed rfl (by decide) hs₁.clear
          · exact fun s₂ hs₂ => Prog.meets_pure ⟨e, he, hs₁.trans hs₂.reads⟩
          · exact fun _ => Prog.meets_pure ⟨e, he, hs₁⟩
      · rintro _ q' ⟨es, _, hes, hq'⟩
        exact ⟨es, (elemsWellFormed_iff es).mpr hes, by rwa [elemToks_eq]⟩
  · rintro inits q₁ ⟨es, hes, hq₁⟩
    apply Prog.meets_bind (took_fixed rfl (by decide) hq₁.clear)
    intro _ q₂ hq₂
    refine Prog.meets_pure ⟨es, hes, ?_⟩
    simpa [Elem.toks] using (hq.reads.trans hq₁).trans hq₂.reads

/-- What {lit}`parse_initializer_list` accepts is a brace list. -/
theorem sound_initializerList (n : Nat) : RecognizesList (parseInitializerList n) := by
  induction n with
  | zero => exact fun _ _ => Prog.meets_timeout trivial
  | succ n ih => exact recognizes_initializerList ih (sound_assign n)

/-- What is read as an initializer is the text of one, or nothing. -/
theorem reads_init {i x : Parse (Option Node)} (hi : RecognizesList i)
    (hx : Recognizes x fun e _ => 0 ≤ e.level) (ty : Option ObjTy) (isConst : Bool)
    (tok : Token) (field : Option Node) (h : Clear p) :
    ((parseInit i x ty isConst tok field).run p).Meets untilError fun _ p' =>
      ∃ init : Option Init, (∀ i, init = some i → i.WellFormed) ∧
        (isConst = true → init.isSome = true) ∧ Reads p (initToks init) p' := by
  apply match_fixed rfl (by decide) h
  · intro q hq
    apply check_cases
    · intro _
      refine (hi q hq.clear).mono ?_
      rintro _ q' ⟨es, hes, hq'⟩
      refine ⟨some (.list es), by simpa [Init.WellFormed] using hes, by simp, ?_⟩
      simpa [initToks, Init.toks] using hq.reads.trans hq'
    · intro _
      apply Prog.meets_bind (hx q hq.clear)
      rintro init q₁ ⟨_, e, he, he₀, hq₁⟩
      apply Prog.meets_bind (stayed_checkInit _ _ _ hq₁.clear)
      intro _ q₂ hq₂
      refine Prog.meets_pure ⟨some (.expr e), by simpa using ⟨he, he₀⟩, by simp, ?_⟩
      simpa [initToks, Init.toks] using (hq.reads.trans hq₁).trans hq₂.reads
  · intro _
    cases isConst with
    | true => exact Prog.meets_bind_escape (stops_parserError _)
    | false =>
        refine (stayed_keepField field h).mono fun _ q hq => ?_
        exact ⟨none, by simp, by simp, by simpa [initToks] using hq.reads⟩

/-- A declarator, when its name has been read. -/
theorem reads_declarator {i x : Parse (Option Node)} (hi : RecognizesList i)
    (hx : Recognizes x fun e _ => 0 ≤ e.level) (baseTy : ObjTy) (isConst : Bool)
    (name : Symbol) (h : Clear p) :
    ((parseDeclarator i x n baseTy isConst name).run p).Meets untilError fun _ p' =>
      ∃ d : Declarator, d.name = name ∧ d.WellFormed isConst ∧ Reads p d.tailToks p' := by
  apply Prog.meets_bind (reads_dims _ h)
  rintro ty q ⟨dims, hq⟩
  apply Prog.meets_bind (stayed_defineVar _ _ _ hq.clear)
  intro sym q₁ hq₁
  unfold newNode
  rw [Prog.run_read_bind]
  apply Prog.meets_bind (stayed_nodeField hq₁.clear)
  intro field q₂ hq₂
  apply Prog.meets_bind (reads_init hi hx _ _ _ _ hq₂.clear)
  rintro node q₃ ⟨init, hinit, hconst, hq₃⟩
  refine Prog.meets_pure ⟨⟨name, dims, init⟩, rfl, ⟨hinit, hconst⟩, ?_⟩
  simpa [Declarator.tailToks] using ((hq.trans hq₁.reads).trans hq₂.reads).trans hq₃

/-- The name of the previous token is the name that was taken. -/
theorem name_of_took {q : Parser} {name : Symbol} (h : Took p (.ident name) q) :
    q.prev.value.name = name :=
  Token.name_of_terminal h.prev

/-- A list of declarators, when the first name has been read. -/
theorem reads_varDeclList (baseTy : ObjTy) (name : Symbol) (isConst isGlobal : Bool)
    {q : Parser} (hq : Reads p [.ident name] q) :
    ((parseVarDeclList n baseTy name isConst isGlobal).run q).Meets untilError fun r p' =>
      r.isSome = true ∧ ∃ ds : List Declarator, ds ≠ [] ∧ (∀ d ∈ ds, d.WellFormed isConst) ∧
        Reads p (separated (ds.map Declarator.toks) ++ [.fixed .semicolon]) p' := by
  apply Prog.meets_mark_bind trivial
  apply Prog.meets_bind (R := fun _ q' => ∃ ds : List Declarator, ds ≠ [] ∧
    (∀ d ∈ ds, d.WellFormed isConst) ∧ Reads p (separated (ds.map Declarator.toks)) q')
  · -- Each declarator so far is followed by a comma; the next name may have been read.
    apply meets_loop (fun (st : Option Symbol × List Node) q => ∃ ds : List Declarator,
      (∀ d ∈ ds, d.WellFormed isConst) ∧
      Reads p ((ds.flatMap fun d => d.toks ++ [.fixed .comma]) ++
        (st.1.map Terminal.ident).toList) q) trivial
    · rintro ⟨first, nodes⟩ q ⟨ds, hds, hq⟩
      apply Prog.meets_bind (R := fun (r : Option Symbol) q' => ∃ name, r = some name ∧
        Reads p ((ds.flatMap fun d => d.toks ++ [.fixed .comma]) ++ [.ident name]) q')
      · cases first with
        | some name => exact Prog.meets_pure ⟨name, rfl, by simpa using hq⟩
        | none =>
            apply match_cases (by decide) hq.clear
            · intro q₁ hq₁ hkind
              rw [terminal_ident hkind] at hq₁
              rw [Prog.run_read_bind]
              refine Prog.meets_pure ⟨_, rfl, ?_⟩
              rw [name_of_took hq₁]
              simpa using hq.trans hq₁.reads
            · exact fun _ => Prog.meets_bind_escape (stops_parserError _)
      · rintro _ q₁ ⟨name, rfl, hq₁⟩
        apply Prog.meets_bind (reads_declarator (sound_initializerList n) (sound_expr n) _ _ _
          hq₁.clear)
        rintro decl q₂ ⟨d, rfl, hd, hq₂⟩
        have hall : ∀ d' ∈ ds ++ [d], d'.WellFormed isConst := by
          intro d' hd'
          rcases List.mem_append.mp hd' with hd' | hd'
          · exact hds d' hd'
          · exact List.mem_singleton.mp hd' ▸ hd
        apply match_fixed rfl (by decide) hq₂.clear
        · intro q₃ hq₃
          refine Prog.meets_pure ⟨ds ++ [d], hall, ?_⟩
          simpa [Declarator.toks] using (hq₁.trans hq₂).trans hq₃.reads
        · intro _
          refine Prog.meets_pure ⟨ds ++ [d], by simp, hall, ?_⟩
          rw [List.map_append, List.map_singleton, separated_concat, List.flatMap_map]
          simpa [Declarator.toks] using hq₁.trans hq₂
    · exact ⟨[], by simp, by simpa using hq⟩
  · rintro nodes q₁ ⟨ds, hne, hds, hq₁⟩
    apply Prog.meets_bind (took_fixed rfl (by decide) hq₁.clear)
    intro _ q₂ hq₂
    exact Prog.meets_pure ⟨rfl, ds, hne, hds, hq₁.trans hq₂.reads⟩

/-- Every kind with a type is the word of a base type. -/
theorem exists_baseTy {kind : TokenKind} {ty : ObjTy} (h : tokenToType kind = some ty) :
    ∃ b : BaseTy, b.kind = kind ∧ b.obj = ty := by
  cases kind <;> simp only [tokenToType, Option.some.injEq, reduceCtorEq] at h
  · exact ⟨.int, rfl, h⟩
  · exact ⟨.bool, rfl, h⟩
  · exact ⟨.float, rfl, h⟩
  · exact ⟨.double, rfl, h⟩
  · exact ⟨.void, rfl, h⟩

/-- The word of a base type carries no value. -/
theorem BaseTy.isPlain (b : BaseTy) : isPlain b.kind = true := by cases b <;> rfl

/-- It is not the end of the file. -/
theorem BaseTy.kind_ne_eof (b : BaseTy) : b.kind ≠ .eof := by cases b <;> simp [BaseTy.kind]

/-- The keyword for constants, if it is there. -/
theorem reads_const (h : Clear p) :
    ((matchKind .kwConst).run p).Meets untilError fun b q => Reads p (constToks b) q := by
  apply check_cases
  · intro hkind
    apply Prog.meets_bind (took_advance h (by simp [hkind]))
    intro _ q hq
    rw [terminal_of_kind hkind rfl] at hq
    exact Prog.meets_pure hq.reads
  · exact fun _ => Prog.meets_pure (Reads.refl h)

/-- Declarators are those of a declaration. -/
theorem exists_decl (isConst : Bool) (b : BaseTy) {ds : List Declarator} (hne : ds ≠ [])
    (hds : ∀ d ∈ ds, d.WellFormed isConst) :
    ∃ d : Decl, d.WellFormed ∧ d.toks = constToks isConst ++ .fixed b.kind ::
      (separated (ds.map Declarator.toks) ++ [.fixed .semicolon]) := by
  obtain ⟨first, more, rfl⟩ := List.exists_cons_of_ne_nil hne
  exact ⟨⟨isConst, b, first, more⟩, hds, rfl⟩

/-- {lit}`m` reads what satisfies {lit}`L`. -/
def RecognizesText (m : Parse (Option Node)) (L : List Terminal → Prop) : Prop :=
  ∀ p, Clear p → (m.run p).Meets untilError fun r p' =>
    r.isSome = true ∧ ∃ ts, L ts ∧ Reads p ts p'

/-- What {lit}`parse_decl` accepts is a declaration. -/
theorem sound_decl (n : Nat) :
    RecognizesText (parseDecl n) fun ts => ∃ d : Decl, d.WellFormed ∧ d.toks = ts := by
  intro p hp
  apply Prog.meets_mark_bind trivial
  apply Prog.meets_bind (reads_const hp)
  intro isConst q hq
  rw [Prog.run_read_bind]
  cases hty : tokenToType q.curr.kind with
  | none => exact Prog.meets_bind_escape (stops_parserError _)
  | some ty =>
      obtain ⟨b, hkind, rfl⟩ := exists_baseTy hty
      apply Prog.meets_bind (took_advance hq.clear (hkind ▸ BaseTy.kind_ne_eof b))
      intro _ q₁ hq₁
      rw [terminal_of_kind hkind.symm (BaseTy.isPlain b)] at hq₁
      apply match_cases (by decide) hq₁.clear
      · intro q₂ hq₂ hident
        rw [terminal_ident hident] at hq₂
        rw [Prog.run_read_bind, name_of_took hq₂]
        refine (reads_varDeclList _ _ _ _ hq₂.reads).mono ?_
        rintro r q₃ ⟨hsome, ds, hne, hds, hq₃⟩
        obtain ⟨d, hd, htoks⟩ := exists_decl isConst b hne hds
        refine ⟨hsome, d.toks, ⟨d, hd, rfl⟩, ?_⟩
        rw [htoks]
        simpa using (hq.trans hq₁.reads).trans hq₃
      · exact fun _ => Prog.meets_bind_escape (stops_parserError _)

/-! ## Statements -/

/-- The items of a block, from declarations and statements. -/
theorem recognizes_block {d s : Parse (Option Node)} (unexpected : Msg)
    (hd : RecognizesText d fun ts => ∃ d : Decl, d.WellFormed ∧ d.toks = ts)
    (hs : RecognizesText s fun ts => ∃ s : Stmt, s.WellFormed ∧ s.toks = ts) (h : Clear p)
    (stmts : List Node) :
    ((loop (bodyIter d s unexpected n) n stmts).run p).Meets untilError fun _ p' =>
      ∃ items, blockWellFormed items ∧ Reads p (blockToks items) p' := by
  apply meets_loop (fun _ q => ∃ items, blockWellFormed items ∧ Reads p (blockToks items) q)
    trivial
  · rintro stmts q ⟨items, hitems, hq⟩
    have hagain (item : BlockItem) {q' : Parser} (hitem : item.WellFormed)
        (hq' : Reads q item.toks q') :
        ∃ items, blockWellFormed items ∧ Reads p (blockToks items) q' := by
      refine ⟨items ++ [item], ?_, ?_⟩
      · rw [blockWellFormed_iff] at hitems ⊢
        intro item' hmem
        rcases List.mem_append.mp hmem with hmem | hmem
        · exact hitems item' hmem
        · exact List.mem_singleton.mp hmem ▸ hitem
      · rw [blockToks_eq] at hq ⊢
        simpa using hq.trans hq'
    unfold bodyIter bodyEnds recoverInBody
    rw [Prog.run_read_bind]
    split
    · exact Prog.meets_pure ⟨items, hitems, hq⟩
    -- There is no panic before the first error.
    apply Prog.meets_bind (R := fun b q' => b = false ∧ q' = q)
    · rw [Prog.run_read_bind, if_neg (by simp [hq.clear.panicMode])]
      exact Prog.meets_pure ⟨rfl, rfl⟩
    rintro _ q ⟨rfl, rfl⟩
    rw [if_neg (by simp)]
    unfold bodyItem
    rw [Prog.run_read_bind]
    split
    · exact Prog.meets_bind_escape (stops_parserError _)
    · split
      · apply Prog.meets_bind (hd q hq.clear)
        rintro r q' ⟨_, _, ⟨d, hd, rfl⟩, hq'⟩
        exact Prog.meets_pure (hagain (.decl d) hd hq')
      · apply Prog.meets_bind (hs q hq.clear)
        rintro r q' ⟨_, _, ⟨s, hs, rfl⟩, hq'⟩
        exact Prog.meets_pure (hagain (.stmt s) hs hq')
  · exact ⟨[], trivial, Reads.refl h⟩

/-- {lit}`m` reads a statement. -/
def RecognizesStmt (m : Parse (Option Node)) : Prop :=
  RecognizesText m fun ts => ∃ s : Stmt, s.WellFormed ∧ s.toks = ts

/-- A block, from declarations and statements. -/
theorem recognizes_parseBlock {d s : Parse (Option Node)}
    (hd : RecognizesText d fun ts => ∃ d : Decl, d.WellFormed ∧ d.toks = ts)
    (hs : RecognizesStmt s) : RecognizesStmt (parseBlockBody d s n) := by
  intro p hp
  apply Prog.meets_mark_bind trivial
  apply Prog.meets_bind (took_fixed rfl (by decide) hp)
  intro _ q hq
  apply Prog.meets_bind (stayed_step hq.clear rfl rfl rfl rfl rfl)
  intro _ q₁ hq₁
  apply Prog.meets_bind (recognizes_block _ hd hs hq₁.clear [])
  rintro stmts q₂ ⟨items, hitems, hq₂⟩
  apply Prog.meets_bind (stayed_step hq₂.clear rfl rfl rfl rfl rfl)
  intro _ q₃ hq₃
  apply Prog.meets_bind (took_fixed rfl (by decide) hq₃.clear)
  intro _ q₄ hq₄
  refine Prog.meets_pure ⟨rfl, _, ⟨.block items, hitems, rfl⟩, ?_⟩
  simpa [Stmt.toks] using
    (((hq.reads.trans hq₁.reads).trans hq₂).trans hq₃.reads).trans hq₄.reads

/-- A condition in its parentheses, and what follows. -/
theorem reads_cond {α : Type} {x : Parse (Option Node)} {k : Option Node → Parse α}
    {Q : α → Parser → Prop} (hx : Recognizes x fun e _ => 0 ≤ e.level) {q : Parser}
    {ts : List Terminal} (hq : Reads p ts q)
    (hk : ∀ node q' (cond : Expr), cond.Operand → Reads p (ts ++ condToks cond) q' →
      ((k node).run q').Meets untilError Q) :
    ((do
      consume .lParen .expectLParen
      let cond ← x
      consume .rParen .expectRParen
      k cond).run q).Meets untilError Q := by
  apply Prog.meets_bind (took_fixed rfl (by decide) hq.clear)
  intro _ q₁ hq₁
  apply Prog.meets_bind (hx q₁ hq₁.clear)
  rintro cond q₂ ⟨_, e, he, he₀, hq₂⟩
  apply Prog.meets_bind (took_fixed rfl (by decide) hq₂.clear)
  intro _ q₃ hq₃
  apply hk cond q₃ e ⟨he, he₀⟩
  simpa [condToks] using ((hq.trans hq₁.reads).trans hq₂).trans hq₃.reads

/-- A statement, from its parts. -/
theorem recognizes_stmt {x s b : Parse (Option Node)}
    (hx : Recognizes x fun e _ => 0 ≤ e.level) (hs : RecognizesStmt s)
    (hb : RecognizesStmt b) : RecognizesStmt (parseStmtBody x s b) := by
  intro p hp
  apply Prog.meets_mark_bind trivial
  have hdone {node : Node} {q : Parser} (st : Stmt) (hst : st.WellFormed)
      (hq : Reads p st.toks q) :
      ((pure (some node) : Parse (Option Node)).run q).Meets untilError fun r p' =>
        r.isSome = true ∧ ∃ ts, (∃ s : Stmt, s.WellFormed ∧ s.toks = ts) ∧ Reads p ts p' :=
    Prog.meets_pure ⟨rfl, _, ⟨st, hst, rfl⟩, hq⟩
  apply match_fixed rfl (by decide) hp
  · intro q hq
    apply Prog.meets_bind (stayed_nodeField hq.clear)
    intro field q₁ hq₁
    apply reads_cond hx (hq.reads.trans hq₁.reads)
    intro node q₂ cond hcond hq₂
    apply Prog.meets_bind (hs q₂ hq₂.clear)
    rintro thenBranch q₃ ⟨_, _, ⟨body, hbody, rfl⟩, hq₃⟩
    have hthen : Reads p (Stmt.ifThen cond body).toks q₃ := by
      simpa [Stmt.toks] using hq₂.trans hq₃
    apply Prog.meets_bind (R := fun _ q => ∃ st : Stmt, st.WellFormed ∧ Reads p st.toks q)
    · apply match_fixed rfl (by decide) hq₃.clear
      · intro q₄ hq₄
        refine (hs q₄ hq₄.clear).mono ?_
        rintro r q₅ ⟨_, _, ⟨alt, halt, rfl⟩, hq₅⟩
        refine ⟨.ifElse cond body alt, ⟨hcond, hbody, halt⟩, ?_⟩
        simpa [Stmt.toks] using (hthen.trans hq₄.reads).trans hq₅
      · intro _
        refine (stayed_keepField field hq₃.clear).mono fun _ q hq => ?_
        exact ⟨.ifThen cond body, ⟨hcond, hbody⟩, by simpa using hthen.trans hq.reads⟩
    · rintro elseBranch q₄ ⟨st, hst, hq₄⟩
      exact hdone st hst hq₄
  intro _
  apply match_fixed rfl (by decide) hp
  · intro q hq
    apply reads_cond hx hq.reads
    intro node q₂ cond hcond hq₂
    apply Prog.meets_bind (hs q₂ hq₂.clear)
    rintro body q₃ ⟨_, _, ⟨body, hbody, rfl⟩, hq₃⟩
    exact hdone (.while cond body) ⟨hcond, hbody⟩ (by simpa [Stmt.toks] using hq₂.trans hq₃)
  intro _
  apply match_fixed rfl (by decide) hp
  · intro q hq
    unfold parseReturn newNode
    rw [Prog.run_read_bind]
    apply Prog.meets_bind (stayed_nodeField hq.clear)
    intro field q₁ hq₁
    apply Prog.meets_bind (R := fun _ q' => ∃ value : Option Expr,
      (∀ e, value = some e → e.Operand) ∧ Reads q₁ ((value.map Expr.toks).getD []) q')
    · apply check_cases
      · intro _
        exact (stayed_keepField field hq₁.clear).mono fun _ q hq => ⟨none, by simp, hq.reads⟩
      · intro _
        refine (hx q₁ hq₁.clear).mono ?_
        rintro r q' ⟨_, e, he, he₀, hq'⟩
        exact ⟨some e, by simpa using ⟨he, he₀⟩, hq'⟩
    rintro lhs q₂ ⟨value, hvalue, hq₂⟩
    apply Prog.meets_bind (took_fixed rfl (by decide) hq₂.clear)
    intro _ q₃ hq₃
    apply Prog.meets_bind (stayed_analyzeReturn _ _ hq₃.clear)
    intro node q₄ hq₄
    apply hdone (.ret value) hvalue
    simpa [Stmt.toks] using
      (((hq.reads.trans hq₁.reads).trans hq₂).trans hq₃.reads).trans hq₄.reads
  intro _
  apply match_fixed rfl (by decide) hp
  · intro q hq
    apply Prog.meets_bind (took_fixed rfl (by decide) hq.clear)
    intro _ q₁ hq₁
    exact hdone .break trivial (by simpa [Stmt.toks] using hq.reads.trans hq₁.reads)
  intro _
  apply match_fixed rfl (by decide) hp
  · intro q hq
    apply Prog.meets_bind (took_fixed rfl (by decide) hq.clear)
    intro _ q₁ hq₁
    exact hdone .continue trivial (by simpa [Stmt.toks] using hq.reads.trans hq₁.reads)
  intro _
  apply check_cases
  · exact fun _ => hb p hp
  · intro _
    apply Prog.meets_bind (hx p hp)
    rintro expr q ⟨hsome, e, he, he₀, hq⟩
    obtain ⟨expr, rfl⟩ := Option.isSome_iff_exists.mp hsome
    apply Prog.meets_bind (R := fun _ q' => ∃ st : Stmt, st.WellFormed ∧
      ∃ ts, st.toks = ts ++ [.fixed .semicolon] ∧ Reads p ts q')
    · apply match_fixed rfl (by decide) hq.clear
      · intro q₁ hq₁
        apply Prog.meets_bind (hx q₁ hq₁.clear)
        rintro rhs q₂ ⟨hsome, r, hr, hr₀, hq₂⟩
        obtain ⟨rhs, rfl⟩ := Option.isSome_iff_exists.mp hsome
        unfold newNode
        dsimp only
        rw [Prog.run_read_bind]
        refine (stayed_analyzeAssign _ _ _ hq₂.clear).mono fun node q₃ hq₃ => ?_
        refine ⟨.assign e r, ⟨⟨he, he₀⟩, hr, hr₀⟩, e.toks ++ .fixed .assign :: r.toks, ?_, ?_⟩
        · simp [Stmt.toks]
        · simpa using ((hq.trans hq₁.reads).trans hq₂).trans hq₃.reads
      · exact fun _ => Prog.meets_pure ⟨.expr e, ⟨he, he₀⟩, e.toks, by simp [Stmt.toks], hq⟩
    · rintro lhs q₁ ⟨st, hst, ts, htoks, hq₁⟩
      apply Prog.meets_bind (took_fixed rfl (by decide) hq₁.clear)
      intro _ q₂ hq₂
      apply hdone st hst
      rw [htoks]
      exact hq₁.trans hq₂.reads

/-- Both statement functions, by induction on the budget. -/
theorem sound_statements (n : Nat) :
    RecognizesStmt (parseBlock n) ∧ RecognizesStmt (parseStmt n) := by
  induction n with
  | zero =>
      exact ⟨fun _ _ => Prog.meets_timeout trivial, fun _ _ => Prog.meets_timeout trivial⟩
  | succ n ih =>
      exact ⟨recognizes_parseBlock (sound_decl n) ih.2, recognizes_stmt (sound_expr n) ih.2 ih.1⟩

/-- What {lit}`parse_stmt` accepts is a statement. -/
theorem sound_stmt (n : Nat) : RecognizesStmt (parseStmt n) := (sound_statements n).2

/-! ## Functions and files -/

/-- What is read behind a parameter is the text of its dimensions. -/
theorem reads_paramDims (argTy : Option ObjTy) (h : Clear p) :
    ((parseParamSuffix n argTy).run p).Meets untilError fun _ p' =>
      ∃ dims : Option ParamDims, Reads p ((dims.map ParamDims.toks).getD []) p' := by
  apply match_fixed rfl (by decide) h
  · intro q hq
    apply Prog.meets_bind (R := fun _ q' => ∃ len : Option Int32,
      Reads q ((len.map Terminal.litInt).toList ++ [.fixed .rBracket]) q')
    · apply match_fixed rfl (by decide) hq.clear
      · intro q₁ hq₁
        refine (stayed_arrayOf _ _ hq₁.clear).mono fun _ q₂ hq₂ => ?_
        exact ⟨none, by simpa using hq₁.reads.trans hq₂.reads⟩
      intro _
      apply match_cases (by decide) hq.clear
      · intro q₁ hq₁ hkind
        rw [terminal_litInt hkind] at hq₁
        rw [Prog.run_read_bind]
        apply Prog.meets_bind (took_fixed rfl (by decide) hq₁.clear)
        intro _ q₂ hq₂
        refine (stayed_arrayOf _ _ hq₂.clear).mono fun _ q₃ hq₃ => ?_
        refine ⟨some q.curr.value.asInt, ?_⟩
        simpa using (hq₁.reads.trans hq₂.reads).trans hq₃.reads
      · exact fun _ => Prog.meets_bind_escape (stops_parserError _)
    · rintro ty q₁ ⟨len, hq₁⟩
      refine (reads_dims _ hq₁.clear).mono ?_
      rintro _ q₂ ⟨more, hq₂⟩
      refine ⟨some ⟨len, more⟩, ?_⟩
      simpa [ParamDims.toks] using (hq.reads.trans hq₁).trans hq₂
  · exact fun _ => Prog.meets_pure ⟨none, Reads.refl h⟩

/-- What is read between the parentheses is the text of parameters. -/
theorem reads_params (funcTy : Nat) (h : Clear p) :
    ((parseParams n funcTy).run p).Meets untilError fun _ p' =>
      ∃ params : List Param, Reads p (separated (params.map Param.toks)) p' := by
  apply check_cases
  · exact fun _ => Prog.meets_pure ⟨[], by simpa [separated] using Reads.refl h⟩
  · intro _
    refine (reads_separated Param.toks (fun _ => True) h ?_ _).mono ?_
    · intro u q hq
      apply Prog.meets_mark_bind trivial
      rw [Prog.run_read_bind]
      apply Prog.meets_bind (R := fun _ q' => q' = q ∧ ∃ b : BaseTy, b.kind = q.curr.kind)
      · unfold parserErrorIfNoType
        cases hty : tokenToType q.curr.kind with
        | none => exact stops_parserError _
        | some ty =>
            obtain ⟨b, hkind, _⟩ := exists_baseTy hty
            exact Prog.meets_pure ⟨rfl, b, hkind⟩
      rintro _ q ⟨rfl, b, hkind⟩
      apply Prog.meets_bind (took_advance hq (hkind ▸ BaseTy.kind_ne_eof b))
      intro _ q₁ hq₁
      rw [terminal_of_kind hkind.symm (BaseTy.isPlain b)] at hq₁
      apply Prog.meets_bind (took_consume (by decide) hq₁.clear)
      rintro _ q₂ ⟨hq₂, hident⟩
      rw [terminal_ident hident] at hq₂
      rw [Prog.run_read_bind, name_of_took hq₂]
      apply Prog.meets_bind (reads_paramDims _ hq₂.clear)
      rintro argTy q₃ ⟨dims, hq₃⟩
      apply Prog.meets_bind (stayed_defineVar _ _ _ hq₃.clear)
      intro _ q₄ hq₄
      apply Prog.meets_bind (stayed_step hq₄.clear rfl rfl rfl rfl rfl)
      intro _ q₅ hq₅
      have hparam : Reads q (Param.toks ⟨b, q₁.curr.value.name, dims⟩) q₅ := by
        simpa [Param.toks] using
          (((hq₁.reads.trans hq₂.reads).trans hq₃).trans hq₄.reads).trans hq₅.reads
      apply match_fixed rfl (by decide) hq₅.clear
      · exact fun q₆ hq₆ => Prog.meets_pure ⟨_, trivial, hparam.trans hq₆.reads⟩
      · exact fun _ => Prog.meets_pure ⟨_, trivial, hparam⟩
    · rintro _ p' ⟨params, _, _, hp'⟩
      exact ⟨params, hp'⟩

/-- A function, when its name has been read. -/
theorem reads_func (retTy : ObjTy) (name : Symbol) (h : Clear p) :
    ((parseFunc n retTy name).run p).Meets untilError fun r p' =>
      r.isSome = true ∧ ∃ (params : List Param) (body : List BlockItem), blockWellFormed body ∧
        Reads p (.fixed .lParen :: (separated (params.map Param.toks) ++ .fixed .rParen ::
          .fixed .lBrace :: (blockToks body ++ [.fixed .rBrace]))) p' := by
  apply Prog.meets_mark_bind trivial
  apply Prog.meets_bind (took_fixed rfl (by decide) h)
  intro _ q₁ hq₁
  apply Prog.meets_bind (R := fun _ q => Stayed q₁ q)
  · unfold typeFuncNew
    rw [Prog.run_read_bind]
    apply Prog.meets_bind (stayed_step hq₁.clear rfl rfl rfl rfl rfl)
    exact fun _ q hq => Prog.meets_pure hq
  intro funcTy q₂ hq₂
  apply Prog.meets_bind (stayed_defineVar _ _ _ hq₂.clear)
  intro _ q₃ hq₃
  apply Prog.meets_bind (stayed_step hq₃.clear rfl rfl rfl rfl rfl)
  intro _ q₄ hq₄
  apply Prog.meets_bind (stayed_step hq₄.clear rfl rfl rfl rfl rfl)
  intro _ q₅ hq₅
  apply Prog.meets_bind (reads_params funcTy hq₅.clear)
  rintro _ q₆ ⟨params, hq₆⟩
  apply Prog.meets_bind (took_fixed rfl (by decide) hq₆.clear)
  intro _ q₇ hq₇
  apply Prog.meets_bind (took_fixed rfl (by decide) hq₇.clear)
  intro _ q₈ hq₈
  apply Prog.meets_bind (recognizes_block _ (sound_decl n) (sound_stmt n) hq₈.clear [])
  rintro stmts q₉ ⟨body, hbody, hq₉⟩
  apply Prog.meets_bind (took_fixed rfl (by decide) hq₉.clear)
  intro _ q₁₀ hq₁₀
  apply Prog.meets_bind (stayed_step hq₁₀.clear rfl rfl rfl rfl rfl)
  intro _ q₁₁ hq₁₁
  apply Prog.meets_bind (stayed_step hq₁₁.clear rfl rfl rfl rfl rfl)
  intro _ q₁₂ hq₁₂
  refine Prog.meets_pure ⟨rfl, params, body, hbody, ?_⟩
  have hstart := (((hq₁.reads.trans hq₂.reads).trans hq₃.reads).trans hq₄.reads).trans hq₅.reads
  have hhead := ((hstart.trans hq₆).trans hq₇.reads).trans hq₈.reads
  have hend := ((hhead.trans hq₉).trans hq₁₀.reads).trans (hq₁₁.trans hq₁₂).reads
  simpa using hend

/-- A top-level item, if the current token can begin one. -/
theorem sound_topLevel (h : Clear p) :
    ((parseTopLevel n).run p).Meets untilError fun r p' =>
      (r = none ∧ p' = p) ∨
        (r.isSome = true ∧ ∃ item : Item, item.WellFormed ∧ Reads p item.toks p') := by
  apply Prog.meets_mark_bind trivial
  apply Prog.meets_bind (R := fun b q => Reads p (constToks b) q ∧ (b = false → q = p))
  · apply check_cases
    · intro hkind
      apply Prog.meets_bind (took_advance h (by simp [hkind]))
      intro _ q hq
      rw [terminal_of_kind hkind rfl] at hq
      exact Prog.meets_pure ⟨hq.reads, by simp⟩
    · exact fun _ => Prog.meets_pure ⟨Reads.refl h, fun _ => rfl⟩
  rintro isConst q ⟨hq, hsame⟩
  rw [Prog.run_read_bind]
  cases hty : tokenToType q.curr.kind with
  | none =>
      cases isConst with
      | true => exact Prog.meets_bind_escape (stops_parserError _)
      | false => exact Prog.meets_pure (Or.inl ⟨rfl, hsame rfl⟩)
  | some ty =>
      obtain ⟨b, hkind, rfl⟩ := exists_baseTy hty
      apply Prog.meets_bind (took_advance hq.clear (hkind ▸ BaseTy.kind_ne_eof b))
      intro _ q₁ hq₁
      rw [terminal_of_kind hkind.symm (BaseTy.isPlain b)] at hq₁
      apply check_cases
      · intro hident
        apply Prog.meets_bind (took_consume (by decide) hq₁.clear)
        rintro _ q₂ ⟨hq₂, _⟩
        rw [terminal_ident hident] at hq₂
        have hhead := (hq.trans hq₁.reads).trans hq₂.reads
        rw [Prog.run_read_bind, name_of_took hq₂]
        apply check_cases
        · intro _
          refine (reads_func _ _ hq₂.clear).mono ?_
          rintro r q₃ ⟨hsome, params, body, hbody, hq₃⟩
          refine Or.inr ⟨hsome, .func ⟨isConst, b, q₁.curr.value.name, params, body⟩, hbody, ?_⟩
          simpa [Item.toks, Func.toks] using hhead.trans hq₃
        · intro _
          refine (reads_varDeclList _ _ _ _ hq₂.reads).mono ?_
          rintro r q₃ ⟨hsome, ds, hne, hds, hq₃⟩
          obtain ⟨d, hd, htoks⟩ := exists_decl isConst b hne hds
          refine Or.inr ⟨hsome, .decl d, hd, ?_⟩
          simp only [Item.toks, htoks]
          simpa using (hq.trans hq₁.reads).trans hq₃
      · exact fun _ => Prog.meets_bind_escape (stops_parserError _)

/-- The built-in functions are installed in front of the first token. -/
theorem stayed_installBuiltins (intern : List UInt8 → Symbol)
    (bs : List (List Char × ObjTy × Option ObjTy)) (h : Clear p) :
    ((installBuiltins intern bs).run p).Meets untilError fun _ p' => Stayed p p' := by
  induction bs generalizing p with
  | nil => exact Prog.meets_pure (Stayed.refl h)
  | cons entry bs ih =>
      rcases entry with ⟨name, ret, arg1Ty⟩
      apply Prog.meets_bind (R := fun _ q => Stayed p q)
      · unfold installBuiltin typeFuncNew
        apply Prog.meets_bind (R := fun _ q => Stayed p q)
        · rw [Prog.run_read_bind]
          apply Prog.meets_bind (stayed_step h rfl rfl rfl rfl rfl)
          exact fun _ q hq => Prog.meets_pure hq
        intro funcTy q hq
        apply Prog.meets_bind (R := fun _ q => Stayed p q)
        · cases arg1Ty with
          | none => exact Prog.meets_pure hq
          | some ty =>
              exact (stayed_step hq.clear rfl rfl rfl rfl rfl).mono fun _ _ h => hq.trans h
        intro _ q₁ hq₁
        apply Prog.meets_bind (stayed_defineVar _ _ _ hq₁.clear)
        exact fun _ q₂ hq₂ => Prog.meets_pure (hq₁.trans hq₂)
      · exact fun _ q hq => (ih hq.clear).mono fun _ _ h => hq.trans h

/-- The loop of {lit}`parser_parse` reads items up to the end of the file. -/
theorem reads_units (globals : List Node) (h : Clear p) :
    ((loop (topIter n) n globals).run p).Meets untilError fun _ p' =>
      ∃ u : CompUnit, u.WellFormed ∧ p.input = u.toks ∧ Clear p' := by
  apply meets_loop (fun _ q => ∃ u : CompUnit, u.WellFormed ∧ Reads p u.toks q) trivial
  · rintro globals q ⟨u, hu, hq⟩
    apply Prog.meets_bind (R := fun b q' => (b = true ∧ q.curr.kind = .eof ∧ Clear q') ∨
      (b = false ∧ q' = q))
    · apply check_cases
      · intro hkind
        apply Prog.meets_bind (R := fun _ q' => Clear q')
        · unfold advance
          apply Prog.meets_bind (R := fun _ q' => q'.panicMode = false ∧ q'.ctx.hadError = false)
          · exact Prog.meets_step trivial ⟨hq.clear.panicMode, hq.clear.hadError⟩
          · rintro _ q' ⟨hpanic, herror⟩
            rw [Prog.run_read_bind]
            exact (took_advanceLoop hpanic herror).mono fun _ _ h => h.1
        · exact fun _ q' hq' => Prog.meets_pure (Or.inl ⟨rfl, hkind, hq'⟩)
      · exact fun _ => Prog.meets_pure (Or.inr ⟨rfl, rfl⟩)
    rintro b q' (⟨rfl, hkind, hq'⟩ | ⟨rfl, rfl⟩)
    · refine Prog.meets_pure ⟨u, hu, ?_, hq'⟩
      have hinput := hq.input
      simpa [Parser.input, hkind] using hinput
    rw [if_neg (by simp)]
    apply Prog.meets_bind (sound_topLevel hq.clear)
    rintro node q₁ (⟨rfl, rfl⟩ | ⟨hsome, item, hitem, hq₁⟩)
    -- A token that begins no item is reported: no other error came before.
    · apply Prog.meets_bind_escape
      unfold reportTopLevel
      rw [Prog.run_read_bind, if_pos (by simp [hq.clear.hadError, hq.clear.panicMode])]
      exact stops_parserError _
    · obtain ⟨node, rfl⟩ := Option.isSome_iff_exists.mp hsome
      refine Prog.meets_pure ⟨u ++ [item], ?_, ?_⟩
      · intro item' hmem
        rcases List.mem_append.mp hmem with hmem | hmem
        · exact hu item' hmem
        · exact List.mem_singleton.mp hmem ▸ hitem
      · simpa [CompUnit.toks] using hq.trans hq₁
  · exact ⟨[], by simp [CompUnit.WellFormed], Reads.refl h⟩

/-- Up to its first error, the parser reads a compilation unit. -/
theorem sound_parserProgram (intern : List UInt8 → Symbol) (hpanic : p.panicMode = false)
    (herror : p.ctx.hadError = false) :
    ((parserProgram intern n).run p).Meets untilError fun _ _ => Derives (terminals p.rest) := by
  apply Prog.meets_bind (R := fun _ q => Clear q ∧ q.input = terminals p.rest)
  · unfold advance
    apply Prog.meets_bind (R := fun _ q => q.rest = p.rest ∧ q.panicMode = false ∧
      q.ctx.hadError = false)
    · exact Prog.meets_step trivial ⟨rfl, hpanic, herror⟩
    · rintro _ q ⟨hrest, hpanic, herror⟩
      rw [Prog.run_read_bind, hrest]
      exact (took_advanceLoop hpanic herror).mono fun _ _ h => ⟨h.1, h.2.1⟩
  rintro _ q ⟨hq, hinput⟩
  apply Prog.meets_bind (stayed_step hq rfl rfl rfl rfl rfl)
  intro _ q₁ hq₁
  apply Prog.meets_bind (stayed_installBuiltins _ _ hq₁.clear)
  intro _ q₂ hq₂
  apply Prog.meets_bind (reads_units [] hq₂.clear)
  rintro globals q₃ ⟨u, hu, htoks, hq₃⟩
  apply Prog.meets_bind (stayed_step hq₃ rfl rfl rfl rfl rfl)
  intro _ q₄ _
  refine Prog.meets_pure ⟨u, hu, ?_⟩
  rw [← hinput, ← (hq₁.trans hq₂).input, htoks]

end

/-- The parser accepts a token stream: it returns, and no error was recorded. -/
def Accepts (intern : List UInt8 → Symbol) (mem : Memory) (ts : TokenStream) : Prop :=
  ∃ globals p, (parserRun intern mem ts).outcome = .done globals p ∧ p.ctx.hadError = false

/-- No error event occurs in the parse of a token stream that is accepted. -/
theorem not_isError_of_accepted {intern : List UInt8 → Symbol} {mem : Memory}
    {ts : TokenStream} {globals : List Node} {p : Parser}
    (h : (parserRun intern mem ts).outcome = .done globals p) (herror : p.ctx.hadError = false)
    {st : Step Parser Event} (hst : st ∈ (parserRun intern mem ts).steps) :
    st.label.isError = false := by
  by_contra hlabel
  have htold := (told_parserProgram intern _).emits (flagsTold_start mem ts) hst
    (Or.inl (by simpa using hlabel))
  have hend : (parserRun intern mem ts).outcome.state = some p := by rw [h]; rfl
  have hlater := (onward_parserProgram intern _ _).later hst hend
  simp [hlater.hadError htold] at herror

/-- What is accepted is derivable. -/
theorem derives_of_accepted {intern : List UInt8 → Symbol} {mem : Memory} {ts : TokenStream}
    (h : Accepts intern mem ts) : Derives (terminals ts.tokens) := by
  obtain ⟨globals, p, hout, herror⟩ := h
  have hsound := sound_parserProgram (n := budget ts.tokens.length)
    (p := start mem Context.init ts) intern rfl rfl
  apply hsound.of_done ?_ hout
  intro st hst (hlabel : st.label.isError = true)
  rw [not_isError_of_accepted hout herror hst] at hlabel
  cases hlabel

end Parser

end Cact
