import Cact.Parser.Completeness.Reading

/-!
# Completeness - expressions

On the text of a syntax tree every parsing function reads exactly that tree and builds
its nodes, whatever the semantic checks say.  If it heeds them, it builds the nodes or
reports an error.  No other error is reported.

Main results:

- Definition {lit}`semanticOnly`: runs that report nothing but semantic errors.
- Definition {lit}`Parser.At`: the parser is in front of a text, without an error so far.
- Theorem {lit}`Parser.parses_separated`: lists with commas between their parts.
- Theorem {lit}`Parser.parses_expressions`: the expression functions.
-/

open Traced

namespace Cact

open Grammar

namespace Parser

/-- Runs whose first error, if there is any, is a semantic one, and these only if {lit}`B`
holds. -/
def semanticOnly (B : Prop) : Contract Parser Event :=
  ⟨fun st => (B ∧ st.before.ctx.hadError = false) ∧ st.label.isSemantic = true,
    fun st => st.label.isError = false, fun _ => False, True⟩

/-- The parser is in front of the text {lit}`ts` with the analysis at {lit}`a`, and has
reported nothing. -/
structure At (fresh : Nat → Option Node) (a : Analysis) (ts : List Terminal) (p : Parser) :
    Prop where
  clear : Clear p
  input : p.input = ts
  clean : Clean ts
  regular : Regular a.sema
  sema : p.sema = a.sema
  allocs : p.allocs = a.allocs
  fresh : p.fresh = fresh

section

variable {heed B : Prop} {fresh : Nat → Option Node} {a : Analysis} {t : Terminal}
  {ts us beyond : List Terminal} {p : Parser} {n : Nat} {α : Type} {Q : α → Parser → Prop}

/-! ## In front of a text without an error -/

/-- Runs that report semantic errors at most are the runs that heed the checks. -/
theorem semanticOnly_eq (B : Prop) : semanticOnly B = reporting True B := by
  unfold semanticOnly reporting
  congr 1
  · funext st
    simp
  · funext st
    simp

/-- Being at a place is facing what stands there. -/
theorem At.facing (h : At fresh a ts p) : Facing True fresh [] a ts p :=
  ⟨h.clear.atEnd, fun _ => ⟨h.clear.panicMode, h.clear.hadError⟩,
    h.input.trans (List.append_nil ts).symm, fun _ => rfl, h.clean, h.sema, h.allocs, h.fresh⟩

/-- Facing it in a regular analysis is being there. -/
theorem Facing.at (h : Facing True fresh [] a ts p) (hregular : Regular a.sema) :
    At fresh a ts p :=
  ⟨⟨h.atEnd, (h.quiet trivial).1, (h.quiet trivial).2⟩,
    h.input.trans (List.append_nil ts), h.clean, hregular, h.sema, h.allocs, h.fresh⟩

/-- The kind of the current token. -/
theorem At.curr (h : At fresh a ts p) : p.curr.kind = follow ts := h.facing.curr

/-- The first token is read without an error. -/
theorem clear_advanceLoop {rest : Tokens} (hclean : Clean (terminals rest))
    (hpanic : p.panicMode = false) (herror : p.ctx.hadError = false) :
    ((advanceLoop rest).run p).Meets (semanticOnly B) fun _ p' =>
      Clear p' ∧ p'.input = terminals rest ∧ p'.sema = p.sema ∧
        p'.allocs = p.allocs ∧ p'.fresh = p.fresh := by
  rw [semanticOnly_eq]
  have hfirst : ∀ t, rest.head? = some t → t.val.kind ≠ .error := by
    apply Ends.first (fun _ => rfl) hclean
    simp
  refine (reads_advanceLoop hfirst).mono ?_
  rintro _ p' ⟨hend, hinput, _, hpanic', hctx, hrest⟩
  exact ⟨⟨hend, hpanic'.trans hpanic, hctx ▸ herror⟩, hinput, hrest⟩

/-- {lit}`advance` reads one terminal symbol. -/
theorem at_advance (h : At fresh a (t :: ts) p) :
    (advance.run p).Meets (semanticOnly B) fun _ p' =>
      At fresh a ts p' ∧ p'.prev = p.curr ∧ p.curr.terminal = t := by
  rw [semanticOnly_eq]
  refine (facing_advance h.facing fun _ => rfl).mono ?_
  rintro _ p' ⟨hp', hrest⟩
  exact ⟨hp'.at h.regular, hrest⟩

/-- A test for the token that is there. -/
theorem at_match {kind : TokenKind} {m m' : Parse α} (h : At fresh a (t :: ts) p)
    (hkind : t.kind = kind)
    (hyes : ∀ p', At fresh a ts p' → p'.prev.terminal = t →
      (m.run p').Meets (semanticOnly B) Q) :
    ((do if ← matchKind kind then m else m').run p).Meets (semanticOnly B) Q := by
  simp only [semanticOnly_eq] at hyes ⊢
  exact facing_match h.facing (fun _ => rfl) hkind fun p' hp' hprev =>
    hyes p' (hp'.at h.regular) hprev

/-- A test for another token. -/
theorem at_other {kind : TokenKind} {m m' : Parse α} (h : At fresh a ts p)
    (hkind : follow ts ≠ kind) (hno : (m'.run p).Meets (semanticOnly B) Q) :
    ((do if ← matchKind kind then m else m').run p).Meets (semanticOnly B) Q :=
  match_other (fun heq => hkind (h.curr.symm.trans heq)) hno

/-- A test for the token that comes next. -/
theorem at_check {kind : TokenKind} {m m' : Parse α} (h : At fresh a ts p)
    (hkind : follow ts = kind) (hyes : (m.run p).Meets (semanticOnly B) Q) :
    ((do if ← checkKind kind then m else m').run p).Meets (semanticOnly B) Q :=
  check_cases (fun _ => hyes) fun hcurr => absurd (h.curr.trans hkind) hcurr

/-- A test for another token. -/
theorem at_check_other {kind : TokenKind} {m m' : Parse α} (h : At fresh a ts p)
    (hkind : follow ts ≠ kind) (hno : (m'.run p).Meets (semanticOnly B) Q) :
    ((do if ← checkKind kind then m else m').run p).Meets (semanticOnly B) Q :=
  check_cases (fun hcurr => absurd (h.curr.symm.trans hcurr) hkind) fun _ => hno

/-- A token that must be there is read. -/
theorem at_consume {kind : TokenKind} {msg : Msg} (h : At fresh a (t :: ts) p)
    (hkind : t.kind = kind) :
    ((consume kind msg).run p).Meets (semanticOnly B) fun _ p' =>
      At fresh a ts p' ∧ p'.prev.terminal = t := by
  rw [semanticOnly_eq]
  refine (facing_consume h.facing (fun _ => rfl) hkind).mono ?_
  rintro _ p' ⟨hp', hprev⟩
  exact ⟨hp'.at h.regular, hprev⟩

/-- A mark leaves the parser where it is. -/
theorem at_mark {l : Event} {m : Parse α} (hl : l.isError = false)
    (h : (m.run p).Meets (semanticOnly B) Q) :
    ((do Prog.mark l; m).run p).Meets (semanticOnly B) Q :=
  Prog.meets_mark_bind hl h

/-- A change of the analysis. -/
theorem at_step {l : Event} {f : Parser → Parser} (a' : Analysis) (hl : l.isError = false)
    (h : At fresh a ts p) (hcurr : (f p).curr = p.curr) (hrest : (f p).rest = p.rest)
    (hpanic : (f p).panicMode = p.panicMode) (hctx : (f p).ctx = p.ctx)
    (hfresh : (f p).fresh = p.fresh) (hregular : Regular a'.sema) (hsema : (f p).sema = a'.sema)
    (hallocs : (f p).allocs = a'.allocs) :
    ((Prog.step l f : Parse Unit).run p).Meets (semanticOnly B) fun _ p' =>
      At fresh a' ts p' ∧ p'.prev = (f p).prev := by
  refine Prog.meets_step hl ⟨Facing.at ?_ hregular, rfl⟩
  refine h.facing.of_eq hcurr hrest ?_ hsema hallocs hfresh
  intro _
  rw [hpanic, hctx]
  exact ⟨h.clear.panicMode, h.clear.hadError⟩

/-- A semantic report ends all obligations. -/
theorem ends_ctxError {Q : Unit → Parser → Prop} {msg : Msg} (hB : B)
    (hquiet : p.ctx.hadError = false) (hmsg : msg.isSemantic = true) (tok : Option Token) :
    ((ctxError tok msg).run p).Meets (semanticOnly B) Q :=
  Prog.meets_step_escape ⟨⟨hB, hquiet⟩, hmsg⟩

/-! ## Semantic checks -/

/-- A check that fails reports; what it was made for is returned all the same. -/
theorem facing_report {msg : Msg} {tok : Option Token} {x : α}
    (h : Facing heed fresh beyond a ts p) (hmsg : msg.isSemantic = true) (hB : heed → B)
    (hQ : ∀ p', ¬ heed → Facing heed fresh beyond a ts p' → Q x p') :
    ((do ctxError tok msg; return x).run p).Meets (reporting heed B) Q := by
  apply Prog.meets_bind (facing_ctxError h hmsg hB tok)
  rintro _ p' ⟨hheed, hp'⟩
  exact Prog.meets_pure (hQ p' hheed hp')

/-- The analysis of an operator builds its node, or reports. -/
theorem parses_analyzeBinary {op : BinOp} {tok : Token} {l r : Node}
    (hp : Facing heed fresh beyond a ts p)
    (hB : heed → binaryNode a.sema.funcs op l r = none → B) :
    ((semaAnalyzeBinary op tok (some l) (some r)).run p).Meets (reporting heed B)
      fun node p' => node = .binary op (binaryTy a.sema.funcs op l r) l r ∧
        (heed → binaryNode a.sema.funcs op l r = some node) ∧ Facing heed fresh beyond a ts p' := by
  apply reporting_mark rfl
  dsimp only
  rw [Prog.run_read_bind, hp.sema]
  unfold binaryNode at hB ⊢
  by_cases hty : typeEq a.sema.funcs l.ty r.ty = true
  · have hbuilt (ty : Option Ty) (hop : binaryTy a.sema.funcs op l r = ty) :
        Node.binary op ty l r = .binary op (binaryTy a.sema.funcs op l r) l r := by
      rw [hop]
    rw [if_neg (by simp [hty])]
    rw [if_pos hty] at hB ⊢
    cases op <;> dsimp only at hB ⊢ <;>
      first
      | exact Prog.meets_pure ⟨hbuilt _ (if_pos hty), fun _ => rfl, hp⟩
      | (split
         · -- The operands are of one type, but not of the one the operator needs.
           rename_i hcheck
           refine facing_report hp (by rfl) (fun hheed => hB hheed ?_) fun p' hheed hp' => ?_
           · simp_all
           · exact ⟨hbuilt _ (if_pos hty), fun heq => absurd heq hheed, hp'⟩
         · rename_i hcheck
           refine Prog.meets_pure ⟨hbuilt _ (if_pos hty), fun _ => ?_, hp⟩
           simp_all)
  · rw [if_pos (by simp [hty])]
    rw [if_neg hty] at hB ⊢
    refine facing_report hp rfl (fun hheed => hB hheed rfl) fun p' hheed hp' => ?_
    exact ⟨by simp [binaryTy, hty], fun heq => absurd heq hheed, hp'⟩

/-- So does that of an assignment. -/
theorem parses_analyzeAssign {tok : Token} {l r : Node} (hp : Facing heed fresh beyond a ts p)
    (hB : heed → assignNode a.sema.funcs l r = none → B) :
    ((semaAnalyzeAssign tok (some l) (some r)).run p).Meets (reporting heed B)
      fun node p' => node = .assign l.ty l r ∧
        (heed → assignNode a.sema.funcs l r = some node) ∧ Facing heed fresh beyond a ts p' := by
  apply reporting_mark rfl
  dsimp only
  unfold assignNode at hB ⊢
  apply Prog.meets_bind (R := fun _ p' => (heed → l.isConstVar = false) ∧
    Facing heed fresh beyond a ts p')
  · unfold checkAssignTarget
    by_cases hconst : l.isConstVar = true
    · rw [if_pos hconst]
      refine (facing_ctxError hp rfl (fun hheed => hB hheed (by simp [hconst])) _).mono ?_
      rintro _ p' ⟨hheed, hp'⟩
      exact ⟨fun heq => absurd heq hheed, hp'⟩
    · rw [if_neg hconst]
      exact Prog.meets_pure ⟨fun _ => by simpa using hconst, hp⟩
  · rintro _ q ⟨hconst, hq⟩
    rw [Prog.run_read_bind, hq.sema]
    by_cases hty : typeEq a.sema.funcs l.ty r.ty = true
    · rw [if_neg (by simp [hty])]
      exact Prog.meets_pure ⟨rfl, fun hheed => by simp [hconst hheed, hty], hq⟩
    · rw [if_pos (by simp [hty])]
      refine facing_report hq rfl (fun hheed => hB hheed (by simp [hty])) ?_
      exact fun p' hheed hp' => ⟨rfl, fun heq => absurd heq hheed, hp'⟩

/-- The same where a report is an escape. -/
theorem builds_analyzeAssign {tok : Token} {l r : Node} (hp : At fresh a ts p)
    (hB : assignNode a.sema.funcs l r = none → B) :
    ((semaAnalyzeAssign tok (some l) (some r)).run p).Meets (semanticOnly B) fun node p' =>
      assignNode a.sema.funcs l r = some node ∧ At fresh a ts p' := by
  rw [semanticOnly_eq]
  refine (parses_analyzeAssign hp.facing fun _ => hB).mono ?_
  rintro node p' ⟨_, hnode, hp'⟩
  exact ⟨hnode trivial, hp'.at hp.regular⟩

/-! ## Primaries -/

/-- On the text {lit}`us`, followed by {lit}`ts`, the piece {lit}`m` builds the node
{lit}`nd`; if it heeds the checks, it builds the checked node or a check reports an
error. -/
def Parses (heed B : Prop) (fresh : Nat → Option Node) (beyond : List Terminal)
    (m : Parse (Option Node)) (us : List Terminal) (nd : Node) (checked : Option Node)
    (a : Analysis)
    (ts : List Terminal) : Prop :=
  ∀ p, Facing heed fresh beyond a (us ++ ts) p → (heed → checked = none → B) →
    (m.run p).Meets (reporting heed B) fun r p' =>
      r = some nd ∧ (heed → checked = some nd) ∧ Facing heed fresh beyond a ts p'

/-- On the text {lit}`us`, followed by {lit}`ts`, the piece {lit}`m` builds the node, or a
semantic check reports an error. -/
def Builds (fresh : Nat → Option Node) (B : Prop) (m : Parse (Option Node))
    (us : List Terminal) (node : Option Node) (a : Analysis) (ts : List Terminal) : Prop :=
  ∀ p, At fresh a (us ++ ts) p → (node = none → B) →
    (m.run p).Meets (semanticOnly B) fun r p' =>
      ∃ nd, node = some nd ∧ r = some nd ∧ At fresh a ts p'

/-- What heeds the checks builds the node or reports an error. -/
theorem Parses.builds {m : Parse (Option Node)} {nd : Node} {checked : Option Node}
    (h : Parses True B fresh [] m us nd checked a ts) : Builds fresh B m us checked a ts := by
  intro p hp hB
  rw [semanticOnly_eq]
  refine (h p hp.facing fun _ => hB).mono ?_
  rintro r p' ⟨hr, hchecked, hp'⟩
  exact ⟨nd, hchecked trivial, hr, hp'.at hp.regular⟩

/-- What can follow an operand in front of operators of level {lit}`prec`. -/
def Stops (prec : Int) (kind : TokenKind) : Prop :=
  kind ≠ .lParen ∧ kind ≠ .lBracket ∧ getPrec kind < prec

/-- The tokens that can come after an expression. -/
def isClose : TokenKind → Bool
  | .rParen | .rBracket | .rBrace | .comma | .semicolon | .assign => true
  | _ => false

/-- A closing bracket stops every operator. -/
theorem stops_close {kind : TokenKind} (h : isClose kind = true) : Stops 0 kind := by
  cases kind <;> simp_all [isClose, Stops, getPrec]

/-- {lit}`m` builds all expressions of level {lit}`low` and higher, if what follows is no
operator of level {lit}`prec`. -/
def BuildsExpr (fresh : Nat → Option Node) (B : Prop) (m : Parse (Option Node))
    (low prec : Int) : Prop :=
  ∀ e : Expr, e.WellFormed → low ≤ e.level → ∀ (a : Analysis) (ts : List Terminal),
    Stops prec (follow ts) → Builds fresh B m e.toks (e.node a.sema) a ts

/-- The same, whether or not the checks are heeded. -/
def ParsesExpr (heed B : Prop) (fresh : Nat → Option Node) (beyond : List Terminal)
    (m : Parse (Option Node)) (low prec : Int) : Prop :=
  ∀ e : Expr, e.WellFormed → low ≤ e.level → ∀ (a : Analysis) (ts : List Terminal),
    e.Callable a.sema → Ends beyond ts → Stops prec (follow ts) →
      Parses heed B fresh beyond m e.toks (e.built a.sema) (e.node a.sema) a ts

/-- A piece that parses assignments, behind which an expression stops. -/
def ParsesAssign (heed B : Prop) (fresh : Nat → Option Node) (beyond : List Terminal)
    (m : Parse (Option Node)) : Prop :=
  ∀ e : Expr, e.WellFormed → ∀ (a : Analysis) (ts : List Terminal),
    e.Callable a.sema → Ends beyond ts → Stops 0 (follow ts) → follow ts ≠ .assign →
      Parses heed B fresh beyond m e.toks (e.built a.sema) (e.node a.sema) a ts

/-- A mark changes nothing in what is parsed. -/
theorem parses_mark {m : Parse (Option Node)} {nd : Node} {checked : Option Node} {l : Event}
    (hl : l.isError = false) (h : Parses heed B fresh beyond m us nd checked a ts) :
    Parses heed B fresh beyond (do Prog.mark l; m) us nd checked a ts :=
  fun p hp hB => reporting_mark hl (h p hp hB)

/-- A budget that is used up parses nothing else. -/
theorem parses_timeout {nd : Node} {checked : Option Node} :
    Parses heed B fresh beyond Prog.timeout us nd checked a ts :=
  fun _ _ _ => Prog.meets_timeout trivial

/-- A loop over parts with commas between them, in front of what closes the list. -/
theorem parses_separated {β : Type} {item : Parse (Option Node)} {text : β → List Terminal}
    {built : β → Node} {node : β → Option Node} {close : Terminal}
    (hclose : close.kind ≠ .comma) (xs : List β)
    (hitem : ∀ x ∈ xs, ∀ ts', Ends beyond ts' → follow ts' = .comma ∨ follow ts' = close.kind →
      Parses heed B fresh beyond item (text x) (built x) (node x) a ts')
    (hxs : xs ≠ []) (acc : List (Option Node)) (k : Nat)
    (hp : Facing heed fresh beyond a (separated (xs.map text) ++ close :: ts) p)
    (hB : heed → xs.mapM node = none → B) :
    ((loop (argIter item) k acc).run p).Meets (reporting heed B) fun r p' =>
      r = acc ++ (xs.map built).map some ∧ (heed → xs.mapM node = some (xs.map built)) ∧
        Facing heed fresh beyond a (close :: ts) p' := by
  induction xs generalizing acc k p with
  | nil => exact absurd rfl hxs
  | cons x xs ih =>
      cases k with
      | zero => exact Prog.meets_timeout trivial
      | succ k =>
          have hx := hitem x List.mem_cons_self
          have hBx : heed → node x = none → B :=
            fun hheed hnone => hB hheed (by simp [hnone])
          rw [loop, argIter]
          cases xs with
          | nil =>
              -- The last part.
              apply Prog.meets_bind (R := fun i p' =>
                i = Iter.leave (acc ++ [some (built x)]) ∧ (heed → node x = some (built x)) ∧
                Facing heed fresh beyond a (close :: ts) p')
              · apply Prog.meets_bind (hx (close :: ts) (Ends.cons _) (Or.inr rfl) p hp hBx)
                rintro _ q ⟨rfl, hnd, hq⟩
                apply facing_other hq hclose
                exact Prog.meets_pure ⟨rfl, hnd, hq⟩
              · rintro _ q ⟨rfl, hnd, hq⟩
                exact Prog.meets_pure ⟨rfl, fun hheed => by simp [hnd hheed], hq⟩
          | cons y ys =>
              have htext : separated ((x :: y :: ys).map text) ++ close :: ts = text x ++
                  .fixed .comma :: (separated ((y :: ys).map text) ++ close :: ts) := by
                simp [separated]
              rw [htext] at hp
              apply Prog.meets_bind (R := fun i p' =>
                i = Iter.again (acc ++ [some (built x)]) ∧ (heed → node x = some (built x)) ∧
                Facing heed fresh beyond a (separated ((y :: ys).map text) ++ close :: ts) p')
              · apply Prog.meets_bind (hx _ (Ends.cons _) (Or.inl rfl) p hp hBx)
                rintro _ q ⟨rfl, hnd, hq⟩
                apply facing_match hq ((Ends.cons _).append _) rfl
                intro q₁ hq₁ _
                exact Prog.meets_pure ⟨rfl, hnd, hq₁⟩
              · rintro _ q ⟨rfl, hnd, hq⟩
                have hBxs : heed → (y :: ys).mapM node = none → B := by
                  intro hheed hnone
                  apply hB hheed
                  rw [List.mapM_cons, hnone]
                  simp [hnd hheed]
                have hrest := ih (fun z hz => hitem z (List.mem_cons_of_mem _ hz))
                  (List.cons_ne_nil _ _) (acc ++ [some (built x)]) k hq hBxs
                refine hrest.mono ?_
                rintro _ p' ⟨rfl, hns, hp'⟩
                refine ⟨by simp, fun hheed => ?_, hp'⟩
                rw [List.mapM_cons, hns hheed]
                simp [hnd hheed]

/-- The arguments of a call. -/
theorem parses_args {asg : Parse (Option Node)} (hasg : ParsesAssign heed B fresh beyond asg)
    {es : List Expr} (hes : argsWellFormed es) (hcall : argsCallable a.sema es)
    (hp : Facing heed fresh beyond a (separated (argToks es) ++ .fixed .rParen :: ts) p)
    (hB : heed → argNodes a.sema es = none → B) :
    ((parseArgs asg n).run p).Meets (reporting heed B) fun r p' =>
      r = (argsBuilt a.sema es).map some ∧
        (heed → argNodes a.sema es = some (argsBuilt a.sema es)) ∧
        Facing heed fresh beyond a (.fixed .rParen :: ts) p' := by
  rw [argToks_eq] at hp
  rw [argNodes_eq] at hB ⊢
  rw [argsBuilt_eq]
  cases es with
  | nil =>
      apply facing_check hp rfl
      exact Prog.meets_pure ⟨rfl, fun _ => rfl, hp⟩
  | cons e es =>
      apply facing_check_other hp
      · have hstart : Starts isExprStart (separated ((e :: es).map Expr.toks)) := by
          cases es with
          | nil => exact e.starts
          | cons e' es => exact e.starts.append _
        exact ne_of_class (hstart.follow _) rfl
      · refine parses_separated (by decide) (e :: es) ?_ (List.cons_ne_nil _ _) [] n hp hB
        intro x hx ts' hends hts'
        apply hasg x ((argsWellFormed_iff _).mp hes x hx) a ts'
          ((argsCallable_iff _ _).mp hcall x hx) hends
        · rcases hts' with h | h <;> rw [h] <;> exact stops_close rfl
        · rcases hts' with h | h <;> rw [h] <;> simp

/-- A lookup that may find nothing. -/
theorem facing_ifNull {sym : Option SemaSymbol} {msg : Msg} (hp : Facing heed fresh beyond a ts p)
    (hmsg : msg.isSemantic = true) (hB : heed → sym = none → B) :
    ((parserErrorIfNull sym msg).run p).Meets (reporting heed B) fun _ p' =>
      (heed → sym.isSome = true) ∧ Facing heed fresh beyond a ts p' := by
  cases sym with
  | none =>
      refine (facing_parserError hp hmsg fun hheed => hB hheed rfl).mono ?_
      rintro _ p' ⟨hheed, hp'⟩
      exact ⟨fun heq => absurd heq hheed, hp'⟩
  | some sym => exact Prog.meets_pure ⟨fun _ => rfl, hp⟩

/-- The type of a call. -/
theorem facing_callTy {sym : Option SemaSymbol} {name : Symbol}
    (hp : Facing heed fresh beyond a ts p) (hcall : ∀ s, sym = some s → s.ty.isSome = true) :
    ((callTy name sym).run p).Meets (reporting heed B) fun r p' =>
      r = calledTy a.sema sym ∧ Facing heed fresh beyond a ts p' := by
  unfold callTy
  cases sym with
  | none => exact Prog.meets_pure ⟨rfl, hp⟩
  | some sym =>
      obtain ⟨ty, hty⟩ := Option.isSome_iff_exists.mp (hcall sym rfl)
      apply reporting_mark rfl
      rw [hty]
      exact Prog.meets_read ⟨by simp [calledTy, hty, hp.sema], hp⟩

/-- A call, when its name has been read. -/
theorem parses_call {asg : Parse (Option Node)} (hasg : ParsesAssign heed B fresh beyond asg)
    {es : List Expr} (hes : argsWellFormed es) (name : Symbol)
    (hcall : (Expr.call name es).Callable a.sema) (hends : Ends beyond ts)
    (hp : Facing heed fresh beyond a (.fixed .lParen :: (separated (argToks es) ++
      .fixed .rParen :: ts)) p)
    (hB : heed → (Expr.call name es).node a.sema = none → B) :
    ((parseCall asg n name).run p).Meets (reporting heed B) fun r p' =>
      r = some ((Expr.call name es).built a.sema) ∧
        (heed → (Expr.call name es).node a.sema = some ((Expr.call name es).built a.sema)) ∧
        Facing heed fresh beyond a ts p' := by
  have hchecked : heed → (∃ sym, a.sema.lookup name = some sym) →
      argNodes a.sema es = some (argsBuilt a.sema es) →
      (Expr.call name es).node a.sema = some ((Expr.call name es).built a.sema) := by
    rintro _ ⟨sym, hsym⟩ hargs
    obtain ⟨ty, hty⟩ := Option.isSome_iff_exists.mp (hcall.1 sym hsym)
    simp [Expr.node, Expr.built, hsym, hargs, hty, calledTy]
  unfold Expr.node at hB
  unfold parseCall semaLookup
  apply Prog.meets_bind (facing_consume hp ((Ends.cons _).append _) rfl)
  rintro _ q ⟨hq, _⟩
  rw [Prog.run_read_bind, hq.sema]
  refine Prog.meets_bind (facing_ifNull hq rfl ?_) ?_
  · intro hheed hnone
    apply hB hheed
    simp [hnone]
  rintro _ q₁ ⟨hsym, hq₁⟩
  refine Prog.meets_bind (parses_args hasg hes hcall.2 hq₁ ?_) ?_
  · intro hheed hnone
    apply hB hheed
    simp [hnone]
  rintro _ q₂ ⟨rfl, hargs, hq₂⟩
  apply Prog.meets_bind (facing_consume hq₂ hends rfl)
  rintro _ q₃ ⟨hq₃, _⟩
  apply Prog.meets_bind (facing_callTy hq₃ hcall.1)
  rintro _ q₄ ⟨rfl, hq₄⟩
  refine Prog.meets_pure ⟨rfl, fun hheed => ?_, hq₄⟩
  exact hchecked hheed (Option.isSome_iff_exists.mp (hsym hheed)) (hargs hheed)

/-- Induction along the subscripts of an expression, from the innermost base on. -/
theorem Expr.index_induction {motive : Expr → Prop}
    (base : ∀ e, (∀ b s, e ≠ .index b s) → motive e)
    (index : ∀ b s, motive b → motive (.index b s)) : ∀ e, motive e
  | .index b s => index b s (Expr.index_induction base index b)
  | .int _ | .float _ | .double _ | .bool _ | .paren _ | .var _ | .call _ _ | .unary _ _
  | .binary _ _ _ | .assign _ _ => base _ (by simp)

/-- One round of the subscript loop. -/
theorem parses_subscript {x : Parse (Option Node)} (hx : ParsesExpr heed B fresh beyond x 0 0)
    {sub : Expr} (hsub : sub.WellFormed) (hlevel : 0 ≤ sub.level)
    (hcall : sub.Callable a.sema) (hends : Ends beyond ts) (l : Node)
    (hp : Facing heed fresh beyond a (.fixed .lBracket :: (sub.toks ++ .fixed .rBracket :: ts)) p)
    (hB : heed → sub.node a.sema = none → B)
    (hB' : heed → sub.node a.sema = some (sub.built a.sema) →
      indexNode l (sub.built a.sema) = none → B) :
    ((subscriptIter x l).run p).Meets (reporting heed B) fun i p' =>
      i = Iter.again (.arrayAccess (elementTy l.ty) l (some (sub.built a.sema))) ∧
        (heed → sub.node a.sema = some (sub.built a.sema) ∧
          indexNode l (sub.built a.sema) =
            some (.arrayAccess (elementTy l.ty) l (some (sub.built a.sema)))) ∧
        Facing heed fresh beyond a ts p' := by
  apply facing_match hp ((Ends.cons _).append _) rfl
  intro q hq _
  apply Prog.meets_bind (hx sub hsub hlevel a _ hcall (Ends.cons _) (stops_close rfl) q hq hB)
  rintro _ q₁ ⟨rfl, hr, hq₁⟩
  apply Prog.meets_bind (facing_consume hq₁ hends rfl)
  rintro _ q₂ ⟨hq₂, _⟩
  split
  · rename_i base len hty
    refine Prog.meets_pure ⟨by rw [hty, elementTy], fun hheed => ⟨hr hheed, ?_⟩, hq₂⟩
    rw [indexNode, hty, elementTy]
  · rename_i hne
    have hnone : indexNode l (sub.built a.sema) = none := by
      unfold indexNode
      split
      · rename_i base len hty
        exact absurd hty (hne base len)
      · rfl
    have hint : elementTy l.ty = tyInt := by
      unfold elementTy
      split
      · rename_i base len hty
        exact absurd hty (hne base len)
      · rfl
    refine Prog.meets_bind (facing_parserError hq₂ rfl fun hheed =>
      hB' hheed (hr hheed) hnone) ?_
    rintro _ q₃ ⟨hheed, hq₃⟩
    exact Prog.meets_pure ⟨by rw [hint], fun heq => absurd heq hheed, hq₃⟩

/-- A variable and its subscripts: what the subscript loop makes of them, it makes of the
whole. -/
theorem parses_designator {x asg : Parse (Option Node)} (hx : ParsesExpr heed B fresh beyond x 0 0)
    (e : Expr) (hdesignator : e.isDesignator = true) (he : e.WellFormed)
    (hcall : e.Callable a.sema) {Q : Option Node → Parser → Prop}
    (hends : Ends beyond ts) (hts : follow ts ≠ .lParen)
    (hp : Facing heed fresh beyond a (e.toks ++ ts) p)
    (hB : heed → e.node a.sema = none → B)
    (hloop : ∀ k q, (heed → e.node a.sema = some (e.built a.sema)) →
      Facing heed fresh beyond a ts q →
      ((loop (subscriptIter x) k (e.built a.sema)).run q).Meets (reporting heed B) Q) :
    ((parsePrimaryBody x asg n).run p).Meets (reporting heed B) Q := by
  induction e using Expr.index_induction generalizing ts with
  | base e hbase =>
      cases e with
      | var name =>
          apply reporting_mark rfl
          iterate 6 apply facing_other hp (by simp [Expr.toks])
          apply facing_match hp hends rfl
          intro q hq hprev
          rw [Prog.run_read_bind]
          apply facing_check_other hq hts
          have hname : q.prev.value.name = name := Token.name_of_terminal hprev
          unfold Expr.node Expr.built at hloop
          unfold Expr.node at hB
          unfold parseVariable semaLookup
          rw [Prog.run_read_bind, hq.sema, hname]
          refine Prog.meets_bind (facing_ifNull hq rfl ?_) ?_
          · intro hheed hnone
            apply hB hheed
            simp [hnone]
          · rintro _ q₁ ⟨hsym, hq₁⟩
            refine hloop n q₁ (fun hheed => ?_) hq₁
            obtain ⟨sym, hsym'⟩ := Option.isSome_iff_exists.mp (hsym hheed)
            simp [hsym', symbolTy]
      | index b s => exact absurd rfl (hbase b s)
      | _ => cases hdesignator
  | index b s ih =>
      obtain ⟨hb, hdes, hs, hlevel⟩ := he
      simp only [Expr.toks] at hp
      unfold Expr.node Expr.built at hloop
      unfold Expr.node at hB
      have hp' : Facing heed fresh beyond a
          (b.toks ++ .fixed .lBracket :: (s.toks ++ .fixed .rBracket :: ts)) p := by
        simpa using hp
      refine ih hdes hb hcall.1 (Ends.cons _) (by simp) hp' ?_ ?_
      · intro hheed hnone
        apply hB hheed
        simp [hnone]
      · -- The loop goes round once for the subscript.
        intro k q hnd hq
        cases k with
        | zero => exact Prog.meets_timeout trivial
        | succ k =>
            rw [loop]
            refine Prog.meets_bind (parses_subscript hx hs hlevel hcall.2 hends _ hq ?_ ?_) ?_
            · intro hheed hnone
              apply hB hheed
              simp [hnd hheed, hnone]
            · intro hheed hr hnone
              apply hB hheed
              simp [hnd hheed, hr, hnone]
            · rintro _ q₁ ⟨rfl, hchecked, hq₁⟩
              refine hloop k q₁ (fun hheed => ?_) hq₁
              obtain ⟨hr, hnd'⟩ := hchecked hheed
              simp [hnd hheed, hr, hnd']

/-- A primary expression, from what stands in its parentheses and in its arguments. -/
theorem parses_primary {x asg : Parse (Option Node)} (hx : ParsesExpr heed B fresh beyond x 0 0)
    (hasg : ParsesAssign heed B fresh beyond asg) :
    ParsesExpr heed B fresh beyond (parsePrimaryBody x asg n) 12 11 := by
  intro e he hlevel a ts hcall hends hts p hp hB
  have hdesignator (hdes : e.isDesignator = true) :
      ((parsePrimaryBody x asg n).run p).Meets (reporting heed B) fun r p' =>
        r = some (e.built a.sema) ∧ (heed → e.node a.sema = some (e.built a.sema)) ∧
          Facing heed fresh beyond a ts p' := by
    apply parses_designator hx e hdes he hcall hends hts.1 hp hB
    intro k q hnd hq
    cases k with
    | zero => exact Prog.meets_timeout trivial
    | succ k =>
        rw [loop]
        apply Prog.meets_bind
          (R := fun i q' => i = Iter.leave (some (e.built a.sema)) ∧ q' = q)
        · apply facing_other hq hts.2.1
          exact Prog.meets_pure ⟨rfl, rfl⟩
        · rintro _ q ⟨rfl, rfl⟩
          exact Prog.meets_pure ⟨rfl, hnd, hq⟩
  cases e with
  | var name => exact hdesignator rfl
  | index base sub => exact hdesignator rfl
  | int val =>
      apply reporting_mark rfl
      apply facing_match hp hends rfl
      intro q hq hprev
      rw [Prog.run_read_bind]
      have hval : q.prev.value.asInt = val := Token.asInt_of_terminal hprev
      exact Prog.meets_pure ⟨by rw [hval, Expr.built], fun _ => rfl, hq⟩
  | float val =>
      apply reporting_mark rfl
      apply facing_other hp (by simp [Expr.toks])
      apply facing_match hp hends rfl
      intro q hq hprev
      rw [Prog.run_read_bind]
      have hval : q.prev.value.asFloat = val := Token.asFloat_of_terminal hprev
      exact Prog.meets_pure ⟨by rw [hval, Expr.built], fun _ => rfl, hq⟩
  | double val =>
      apply reporting_mark rfl
      iterate 2 apply facing_other hp (by simp [Expr.toks])
      apply facing_match hp hends rfl
      intro q hq hprev
      rw [Prog.run_read_bind]
      have hval : q.prev.value.asDouble = val := Token.asDouble_of_terminal hprev
      exact Prog.meets_pure ⟨by rw [hval, Expr.built], fun _ => rfl, hq⟩
  | bool val =>
      apply reporting_mark rfl
      cases val with
      | true =>
          iterate 3 apply facing_other hp (by simp [Expr.toks])
          apply facing_match hp hends rfl
          exact fun q hq _ => Prog.meets_pure ⟨by rw [Expr.built], fun _ => rfl, hq⟩
      | false =>
          iterate 4 apply facing_other hp (by simp [Expr.toks])
          apply facing_match hp hends rfl
          exact fun q hq _ => Prog.meets_pure ⟨by rw [Expr.built], fun _ => rfl, hq⟩
  | paren inner =>
      apply reporting_mark rfl
      simp only [Expr.toks, List.cons_append, List.append_assoc, List.nil_append] at hp
      unfold Expr.node at hB ⊢
      unfold Expr.built
      iterate 5 apply facing_other hp (by simp)
      apply facing_match hp ((Ends.cons _).append _) rfl
      intro q hq _
      apply Prog.meets_bind (hx inner he.1 he.2 a _ hcall (Ends.cons _) (stops_close rfl) q hq hB)
      rintro _ q₁ ⟨rfl, hnd, hq₁⟩
      apply Prog.meets_bind (facing_consume hq₁ hends rfl)
      rintro _ q₂ ⟨hq₂, _⟩
      exact Prog.meets_pure ⟨rfl, hnd, hq₂⟩
  | call name es =>
      apply reporting_mark rfl
      simp only [Expr.toks, List.cons_append, List.append_assoc, List.nil_append] at hp
      iterate 6 apply facing_other hp (by simp)
      apply facing_match hp (Ends.cons _) rfl
      intro q hq hprev
      rw [Prog.run_read_bind]
      have hname : q.prev.value.name = name := Token.name_of_terminal hprev
      apply facing_check hq rfl
      rw [hname]
      exact parses_call hasg he name hcall hends hq hB
  | unary op operand => simp [Expr.level] at hlevel
  | binary op lhs rhs =>
      have hrange := opLevel_range op
      simp only [Expr.level] at hlevel
      omega
  | assign lhs rhs => simp [Expr.level] at hlevel

/-! ## Operators -/

/-- A node around one that is parsed. -/
theorem parses_map {m : Parse (Option Node)} {nd : Node} {checked : Option Node}
    {k : Node → Node} {g : Option Node → Option Node}
    (h : Parses heed B fresh beyond m us nd checked a ts) (hg : g (some nd) = some (k nd)) :
    Parses heed B fresh beyond (do let r ← m; return g r) us (k nd)
      (do let n ← checked; some (k n)) a ts := by
  intro p hp hB
  apply Prog.meets_bind (h p hp ?_)
  · rintro _ q ⟨rfl, hnd, hq⟩
    exact Prog.meets_pure ⟨hg, fun hheed => by simp [hnd hheed], hq⟩
  · intro hheed hnone
    apply hB hheed
    simp [hnone]

/-- A unary expression, from its operand. -/
theorem parses_unary {u m : Parse (Option Node)} (hu : ParsesExpr heed B fresh beyond u 11 11)
    (hm : ParsesExpr heed B fresh beyond m 12 11) :
    ParsesExpr heed B fresh beyond (parseUnaryBody u m) 11 11 := by
  intro e he hlevel a ts hcall hends hts p hp hB
  apply reporting_mark rfl
  by_cases hprimary : 12 ≤ e.level
  · have hstart := (Expr.starts_primary he hprimary).follow ts
    iterate 3 apply facing_other hp (ne_of_class hstart rfl)
    exact hm e he hprimary a ts hcall hends hts p hp hB
  · cases e with
    | unary op operand =>
        obtain ⟨hoperand, hlevel'⟩ := he
        cases op with
        | plus =>
            apply facing_match hp (hends.append _) rfl
            intro q hq _
            exact hu operand hoperand hlevel' a ts hcall hends hts q hq hB
        | minus =>
            apply facing_other hp (by simp [Expr.toks, UnOp.kind])
            apply facing_match hp (hends.append _) rfl
            intro q hq _
            unfold Expr.node at hB ⊢
            unfold Expr.built
            exact parses_map (k := fun n => .neg n.ty (some n))
              (g := fun lhs => some (.neg (lhs.bind Node.ty) lhs))
              (hu operand hoperand hlevel' a ts hcall hends hts) rfl q hq hB
        | not =>
            iterate 2 apply facing_other hp (by simp [Expr.toks, UnOp.kind])
            apply facing_match hp (hends.append _) rfl
            intro q hq _
            unfold Expr.node at hB ⊢
            unfold Expr.built
            exact parses_map (k := fun n => .logNot tyBool (some n))
              (g := fun lhs => some (.logNot tyBool lhs))
              (hu operand hoperand hlevel' a ts hcall hends hts) rfl q hq hB
    | binary op lhs rhs =>
        have hrange := opLevel_range op
        simp only [Expr.level] at hlevel
        omega
    | assign lhs rhs => simp [Expr.level] at hlevel
    | _ => simp [Expr.level] at hprimary

/-- Induction along the left operands of an expression. -/
theorem Expr.binary_induction {motive : Expr → Prop}
    (base : ∀ e, (∀ op l r, e ≠ .binary op l r) → motive e)
    (binary : ∀ op l r, motive l → motive (.binary op l r)) : ∀ e, motive e
  | .binary op l r => binary op l r (Expr.binary_induction base binary l)
  | .int _ | .float _ | .double _ | .bool _ | .paren _ | .var _ | .call _ _ | .unary _ _
  | .index _ _ | .assign _ _ => base _ (by simp)

/-- An expression that is no operator expression and no assignment is an operand. -/
theorem Expr.level_of_ne_binary {e : Expr} (h : ∀ op l r, e ≠ .binary op l r)
    (hlevel : 0 ≤ e.level) : 11 ≤ e.level := by
  cases e with
  | binary op l r => exact absurd rfl (h op l r)
  | assign l r => simp [Expr.level] at hlevel
  | _ => simp [Expr.level]

/-- The kind of an operator is read off its token. -/
theorem getBinaryKind_opKind (op : BinOp) : getBinaryKind (opKind op) = op := by
  cases op <;> rfl

/-- One round of the operator loop. -/
theorem parses_operator {b : Int → Parse (Option Node)} {op : BinOp}
    (hb : ParsesExpr heed B fresh beyond (b (opLevel op + 1)) (opLevel op + 1) (opLevel op + 1))
    {prec : Int} (hprec : prec ≤ opLevel op) {r : Expr} (hr : r.WellFormed)
    (hlevel : opLevel op < r.level) (hcall : r.Callable a.sema) (l : Node)
    (hends : Ends beyond ts) (hts : Stops (opLevel op + 1) (follow ts))
    (hp : Facing heed fresh beyond a (.fixed (opKind op) :: (r.toks ++ ts)) p)
    (hB : heed → r.node a.sema = none → B)
    (hB' : heed → r.node a.sema = some (r.built a.sema) →
      binaryNode a.sema.funcs op l (r.built a.sema) = none → B) :
    ((binaryIter b prec (some l)).run p).Meets (reporting heed B) fun i p' => ∃ nd,
      nd = .binary op (binaryTy a.sema.funcs op l (r.built a.sema)) l (r.built a.sema) ∧
        i = Iter.again (some nd) ∧
        (heed → r.node a.sema = some (r.built a.sema) ∧
          binaryNode a.sema.funcs op l (r.built a.sema) = some nd) ∧
        Facing heed fresh beyond a ts p' := by
  have hcurr : p.curr.kind = opKind op := hp.curr
  unfold binaryIter
  rw [Prog.run_read_bind, hcurr, getPrec_opKind, getBinaryKind_opKind, if_neg (by omega)]
  apply Prog.meets_bind (facing_advance hp (hends.append _))
  rintro _ q ⟨hq, _⟩
  apply reporting_mark rfl
  apply Prog.meets_bind (hb r hr (by omega) a ts hcall hends hts q hq hB)
  rintro _ q₁ ⟨rfl, hnr, hq₁⟩
  unfold newNode
  rw [Prog.run_read_bind]
  apply Prog.meets_bind (parses_analyzeBinary hq₁ fun hheed => hB' hheed (hnr hheed))
  rintro node q₂ ⟨hnode, hnd, hq₂⟩
  exact Prog.meets_pure ⟨node, hnode, rfl, fun hheed => ⟨hnr hheed, hnd hheed⟩, hq₂⟩

/-- The left operands of an expression: what the operator loop makes of them, it makes of
the whole. -/
theorem parses_operands {u : Parse (Option Node)} {b : Int → Parse (Option Node)} {prec : Int}
    (hu : ParsesExpr heed B fresh beyond u 11 11)
    (hb : ∀ op, ParsesExpr heed B fresh beyond (b (opLevel op + 1)) (opLevel op + 1)
      (opLevel op + 1))
    (hprec : 0 ≤ prec) (e : Expr) (he : e.WellFormed) (hlevel : prec ≤ e.level)
    (hcall : e.Callable a.sema) {Q : Option Node → Parser → Prop}
    (hends : Ends beyond ts) (hts : Stops (e.level + 1) (follow ts))
    (hp : Facing heed fresh beyond a (e.toks ++ ts) p)
    (hB : heed → e.node a.sema = none → B)
    (hloop : ∀ k q, (heed → e.node a.sema = some (e.built a.sema)) →
      Facing heed fresh beyond a ts q →
      ((loop (binaryIter b prec) k (some (e.built a.sema))).run q).Meets (reporting heed B) Q) :
    ((do let lhs ← u; loop (binaryIter b prec) n lhs).run p).Meets (reporting heed B) Q := by
  induction e using Expr.binary_induction generalizing ts with
  | base e hbase =>
      have hoperand : 11 ≤ e.level := Expr.level_of_ne_binary hbase (by omega)
      have hstops : Stops 11 (follow ts) := by
        refine ⟨hts.1, hts.2.1, ?_⟩
        have hmax := getPrec_le (follow ts)
        omega
      apply Prog.meets_bind (hu e he hoperand a ts hcall hends hstops p hp hB)
      rintro _ q ⟨rfl, hnd, hq⟩
      exact hloop n q hnd hq
  | binary op l r ih =>
      obtain ⟨hl, hr, hlevell, hlevelr⟩ := he
      simp only [Expr.level] at hlevel hts
      simp only [Expr.toks, List.append_assoc, List.cons_append] at hp
      unfold Expr.node at hB hloop
      unfold Expr.built at hloop
      refine ih hl (by omega) hcall.1 (Ends.cons _) ?_ hp ?_ ?_
      · have hkind : Stops 11 (opKind op) := by cases op <;> simp [opKind, Stops, getPrec]
        refine ⟨hkind.1, hkind.2.1, ?_⟩
        simp only [follow_cons, Terminal.kind, getPrec_opKind]
        omega
      · intro hheed hnone
        apply hB hheed
        simp [hnone]
      · -- The loop goes round once for the operator and its right operand.
        intro k q hnl hq
        cases k with
        | zero => exact Prog.meets_timeout trivial
        | succ k =>
            rw [loop]
            refine Prog.meets_bind
              (parses_operator (hb op) hlevel hr hlevelr hcall.2 _ hends hts hq ?_ ?_) ?_
            · intro hheed hnone
              apply hB hheed
              simp [hnl hheed, hnone]
            · intro hheed hnr hnone
              apply hB hheed
              simp [hnl hheed, hnr, hnone]
            · rintro _ q₁ ⟨_, rfl, rfl, hchecked, hq₁⟩
              refine hloop k q₁ (fun hheed => ?_) hq₁
              obtain ⟨hnr, hnd⟩ := hchecked hheed
              simp [hnl hheed, hnr, hnd]

/-- A binary expression, from its operands. -/
theorem parses_binary {u : Parse (Option Node)} {b : Int → Parse (Option Node)} {prec : Int}
    (hu : ParsesExpr heed B fresh beyond u 11 11)
    (hb : ∀ op, ParsesExpr heed B fresh beyond (b (opLevel op + 1)) (opLevel op + 1)
      (opLevel op + 1))
    (hprec : 0 ≤ prec) : ParsesExpr heed B fresh beyond (parseBinaryBody u b n prec) prec prec := by
  intro e he hlevel a ts hcall hends hts p hp hB
  apply reporting_mark rfl
  apply parses_operands hu hb hprec e he hlevel hcall hends _ hp hB
  · intro k q hnd hq
    cases k with
    | zero => exact Prog.meets_timeout trivial
    | succ k =>
        rw [loop]
        apply Prog.meets_bind
          (R := fun i q' => i = Iter.leave (some (e.built a.sema)) ∧ q' = q)
        · unfold binaryIter
          rw [Prog.run_read_bind, hq.curr, if_pos hts.2.2]
          exact Prog.meets_pure ⟨rfl, rfl⟩
        · rintro _ q ⟨rfl, rfl⟩
          exact Prog.meets_pure ⟨rfl, hnd, hq⟩
  · refine ⟨hts.1, hts.2.1, ?_⟩
    have hlt := hts.2.2
    omega

/-- An assignment, from its two sides. -/
theorem parses_assign {b : Int → Parse (Option Node)} {asg : Parse (Option Node)}
    (hb : ParsesExpr heed B fresh beyond (b 0) 0 0) (hasg : ParsesAssign heed B fresh beyond asg) :
    ParsesAssign heed B fresh beyond (parseAssignBody b asg) := by
  intro e he a ts hcall hends hts hne p hp hB
  apply reporting_mark rfl
  by_cases hoperand : 0 ≤ e.level
  · apply Prog.meets_bind (hb e he hoperand a ts hcall hends hts p hp hB)
    rintro _ q ⟨rfl, hnd, hq⟩
    apply facing_other hq hne
    exact Prog.meets_pure ⟨rfl, hnd, hq⟩
  · cases e with
    | assign lhs rhs =>
        obtain ⟨hl, hr, hlevel⟩ := he
        simp only [Expr.toks, List.append_assoc, List.cons_append] at hp
        unfold Expr.node at hB ⊢
        unfold Expr.built
        have hBl : heed → lhs.node a.sema = none → B := by
          intro hheed hnone
          apply hB hheed
          simp [hnone]
        apply Prog.meets_bind
          (hb lhs hl hlevel a _ hcall.1 (Ends.cons _) (stops_close rfl) p hp hBl)
        rintro _ q ⟨rfl, hnl, hq⟩
        have hBr : heed → rhs.node a.sema = none → B := by
          intro hheed hnone
          apply hB hheed
          simp [hnl hheed, hnone]
        apply facing_match hq (hends.append _) rfl
        intro q₁ hq₁ _
        apply reporting_mark rfl
        apply Prog.meets_bind (hasg rhs hr a ts hcall.2 hends hts hne q₁ hq₁ hBr)
        rintro _ q₂ ⟨rfl, hnr, hq₂⟩
        have hcheck : heed →
            assignNode a.sema.funcs (lhs.built a.sema) (rhs.built a.sema) = none → B := by
          intro hheed hnone
          apply hB hheed
          simp [hnl hheed, hnr hheed, hnone]
        unfold newNode
        rw [Prog.run_read_bind]
        apply Prog.meets_bind (parses_analyzeAssign hq₂ hcheck)
        rintro _ q₃ ⟨rfl, hnd, hq₃⟩
        exact Prog.meets_pure
          ⟨rfl, fun hheed => by simp [hnl hheed, hnr hheed, hnd hheed], hq₃⟩
    | binary op l r =>
        have hrange := opLevel_range op
        simp only [Expr.level] at hoperand
        omega
    | _ => simp [Expr.level] at hoperand

/-! ## All expression functions -/

/-- What all five expression functions do, by induction on the budget. -/
theorem parses_expressions (heed B : Prop) (fresh : Nat → Option Node)
    (beyond : List Terminal) (n : Nat) :
    ParsesExpr heed B fresh beyond (parsePrimary n) 12 11 ∧
      ParsesExpr heed B fresh beyond (parseUnary n) 11 11 ∧
      (∀ prec, 0 ≤ prec → ParsesExpr heed B fresh beyond (parseBinary n prec) prec prec) ∧
      ParsesAssign heed B fresh beyond (parseAssign n) ∧
      ParsesExpr heed B fresh beyond (parseExpr n) 0 0 := by
  induction n with
  | zero =>
      refine ⟨?_, ?_, ?_, ?_, ?_⟩
      · exact fun _ _ _ _ _ _ _ _ => parses_timeout
      · exact fun _ _ _ _ _ _ _ _ => parses_timeout
      · exact fun _ _ _ _ _ _ _ _ _ _ => parses_timeout
      · exact fun _ _ _ _ _ _ _ _ => parses_timeout
      · exact fun _ _ _ _ _ _ _ _ => parses_timeout
  | succ n ih =>
      obtain ⟨hprimary, hunary, hbinary, hassign, hexpr⟩ := ih
      refine ⟨?_, ?_, ?_, ?_, ?_⟩
      · exact parses_primary hexpr hassign
      · exact parses_unary hunary hprimary
      · intro prec hprec
        apply parses_binary hunary _ hprec
        intro op
        apply hbinary
        have hrange := opLevel_range op
        omega
      · exact parses_assign (hbinary 0 (by decide)) hassign
      · intro e he hlevel a ts hcall hends hts
        exact parses_mark rfl (hbinary 0 (by decide) e he hlevel a ts hcall hends hts)

/-- An expression, for every budget. -/
theorem parses_parseExpr (n : Nat) : ParsesExpr heed B fresh beyond (parseExpr n) 0 0 :=
  (parses_expressions heed B fresh beyond n).2.2.2.2

/-- An assignment, for every budget. -/
theorem parses_parseAssign (n : Nat) : ParsesAssign heed B fresh beyond (parseAssign n) :=
  (parses_expressions heed B fresh beyond n).2.2.2.1

/-- An expression builds the node of its tree. -/
theorem builds_parseExpr (n : Nat) : BuildsExpr fresh B (parseExpr n) 0 0 := by
  intro e he hlevel a ts hts p hp
  exact (parses_parseExpr n e he hlevel a ts (hp.regular.callable e) (fun _ => rfl) hts).builds p hp

end

end Parser

end Cact
