import Cact.Grammar.Trees
import Cact.Parser.Language

/-!
# Precedence and associativity

Whatever state the parser is in, {lit}`parse_expr` reads from the text of an expression
the tree that the levels of the operators give it, and stops at the token after it.

Main results:

- Definition {lit}`Parser.upcoming`: the tokens that are left.
- Theorem {lit}`Parser.keeps_upcoming`: tokens are read in order.
- Theorem {lit}`Parser.reads_text`: how the expression functions end on an expression.
- Theorem {lit}`parseExpr_reads_tree`: what this means for expression trees.
-/

open Traced

namespace Cact

open Grammar

namespace Parser

/-- The tokens from the current one on. -/
def upcoming (p : Parser) : List Token :=
  if p.curr.kind = .eof then [] else p.curr :: p.rest.map Subtype.val

theorem input_eq_upcoming (p : Parser) : p.input = p.upcoming.map Token.terminal := by
  unfold input upcoming
  split
  · rfl
  · simp [terminals]

/-! ## Tokens are read in order -/

/-- What is left is the end of {lit}`ts`. -/
def Within (ts : List Token) (p : Parser) : Prop := AtEnd p ∧ p.upcoming <:+ ts

theorem within_advanceLoop {ts : List Token} (rest : Tokens) (p : Parser)
    (h : rest.map Subtype.val <:+ ts) :
    ((advanceLoop rest).run p).Meets (Contract.keeps (Within ts) fun _ => True)
      fun _ => Within ts := by
  induction rest generalizing p with
  | nil =>
      refine Prog.meets_step trivial ⟨fun _ => rfl, ?_⟩
      simp [upcoming, take, Token.eof]
  | cons t rest ih =>
      have ht : t.val.kind ≠ .eof := t.property
      have hrest : rest.map Subtype.val <:+ ts := (List.suffix_cons _ _).trans h
      rw [advanceLoop]
      split
      · refine Prog.meets_bind (R := fun _ _ => True) ?_ fun _ p' _ => ih p' hrest
        exact Prog.meets_step trivial trivial
      · refine Prog.meets_step trivial ⟨fun hkind => absurd hkind ht, ?_⟩
        simpa [upcoming, take, ht] using h

theorem keeps_advance_upcoming (ts : List Token) : Keeps (Within ts) (fun _ => True) advance := by
  intro p hp
  refine Prog.meets_bind (R := fun _ q => q.rest.map Subtype.val <:+ ts) ?_ ?_
  · refine Prog.meets_step trivial ?_
    by_cases hkind : p.curr.kind = .eof
    · simp [hp.1 hkind]
    · have hupcoming := hp.2
      simp only [upcoming, if_neg hkind] at hupcoming
      exact (List.suffix_cons _ _).trans hupcoming
  · intro _ q hq
    rw [Prog.run_read_bind]
    exact within_advanceLoop q.rest q hq

/-- Expressions read tokens from the front only. -/
theorem keeps_upcoming (ts : List Token) :
    Exprs fun {_} m _ => Keeps (Within ts) (fun _ => True) m := by
  refine (primitives_of_tokens ?_ (fun _ => trivial) (keeps_advance_upcoming ts)).toExprs
  intro p p' hrest hcurr hp
  unfold Within AtEnd upcoming
  rw [hrest, hcurr]
  exact hp

/-! ## The end of an expression -/

theorem facing_ends (rest : List Token) :
    Ends ((rest.drop 1).map Token.terminal) ((rest.take 1).map Token.terminal) := by
  intro hnil
  cases rest with
  | nil => rfl
  | cons next rest => simp at hnil

theorem follow_rest {rest : List Token} {kind : TokenKind} (hkind : kind ≠ .eof)
    (h : ∀ next ∈ rest.head?, next.kind ≠ kind) :
    follow ((rest.take 1).map Token.terminal) ≠ kind := by
  cases rest with
  | nil => exact hkind.symm
  | cons next rest =>
      show next.terminal.kind ≠ kind
      rw [Token.kind_terminal]
      exact h next rfl

/-- In front of a text that no error token follows. -/
theorem facing_text {p : Parser} {text : List Terminal} {us rest : List Token}
    (hclean : Clean text) (hend : AtEnd p) (htext : us.map Token.terminal = text)
    (hp : p.upcoming = us ++ rest) (hrest : ∀ next ∈ rest.head?, next.kind ≠ .error) :
    Facing False p.fresh ((rest.drop 1).map Token.terminal) ⟨p.sema, p.allocs⟩
      (text ++ (rest.take 1).map Token.terminal) p where
  atEnd := hend
  quiet := False.elim
  input := by
    rw [input_eq_upcoming, hp, List.map_append, htext, List.append_assoc, ← List.map_append,
      List.take_append_drop]
  ends := (facing_ends rest).append text
  clean := by
    refine clean_append.mpr ⟨hclean, ?_⟩
    cases rest with
    | nil => exact clean_nil
    | cons next rest =>
        refine clean_cons.mpr ⟨?_, clean_nil⟩
        rw [Token.kind_terminal]
        exact hrest next rfl
  sema := rfl
  allocs := rfl
  fresh := rfl

/-- On the text of an expression, a function that builds expressions returns its node,
whatever the checks say, and stops at the token that follows.  Only semantic errors are
reported. -/
theorem reads_text {f : Fn} {starts : TokenKind → Bool} {m : Parse (Option Node)}
    {low prec : Int} {n : Nat}
    (hparses : ∀ fresh beyond, ParsesExpr False False fresh beyond m low prec)
    (hcalls : Calls f n starts m) (hkeeps : ∀ ts, Keeps (Within ts) (fun _ => True) m)
    {p : Parser} (hready : AtEnd p → Ready f p) {e : Expr} (he : e.WellFormed)
    (hlevel : low ≤ e.level) {us rest : List Token} {next : Token}
    (hcall : e.Callable p.sema) (htext : us.map Token.terminal = e.toks)
    (hp : p.upcoming = us ++ next :: rest) (hnext : Stops prec next.kind)
    (herror : next.kind ≠ .error) (hn : 10 * p.remaining + (f.rank + 1) ≤ n) :
    ∃ p', (m.run p).outcome = .done (some (e.built p.sema)) p' ∧
      p'.upcoming = next :: rest ∧
      ∀ st ∈ (m.run p).steps, st.label.isError = true → st.label.isSemantic = true := by
  have hend : AtEnd p := by
    intro hkind
    simp [upcoming, hkind] at hp
  have hfacing := facing_text e.clean hend htext hp (by
    rintro t ⟨⟩
    exact herror)
  have hstops : Stops prec (follow [next.terminal]) := by
    rw [follow_cons, Token.kind_terminal]
    exact hnext
  have hrun := hparses _ _ e he hlevel ⟨p.sema, p.allocs⟩ _ hcall (Ends.cons _) hstops p
    hfacing False.elim
  have hwithin := hkeeps p.upcoming p ⟨hend, List.suffix_refl _⟩
  have htime := hcalls.meets p (hready hend)
  cases hout : (m.run p).outcome with
  | done r p' =>
      obtain ⟨rfl, _, hp'⟩ := hrun.of_done (fun _ _ h => h.1) hout
      refine ⟨p', rfl, ?_, fun st hst herror => (hrun.emits (fun _ h => h.1) hst herror).2⟩
      have hsuffix : p'.upcoming <:+ us ++ next :: rest := by
        rw [← hp]
        exact (hwithin.of_done (fun _ _ => id) hout).2
      have hlength : p'.upcoming.length = (next :: rest).length := by
        have hmap := congrArg List.length (p'.input_eq_upcoming.symm.trans hp'.input)
        simpa using hmap
      exact (List.suffix_of_suffix_length_le hsuffix (List.suffix_append us _)
        hlength.le).eq_of_length hlength
  | fault q => exact (hrun.of_fault (fun _ _ h => h.1) hout).elim
  | timeout =>
      have hsmall : n < 10 * p.remaining + (f.rank + 1) := by
        rcases htime with ⟨st, _, hst⟩ | ⟨_, hmeets⟩
        · exact hst.elim
        · rw [hout] at hmeets
          exact hmeets
      omega

/-- {lit}`parse_expr` on an expression that is followed by a token that can come after
one. -/
theorem reads_operand {e : Expr} (he : e.Operand) {p : Parser} {us rest : List Token}
    {next : Token} {n : Nat} (hcall : e.Callable p.sema)
    (htext : us.map Token.terminal = e.toks) (hp : p.upcoming = us ++ next :: rest)
    (hnext : isClose next.kind = true) (hn : 10 * p.remaining + 5 ≤ n) :
    ∃ p', ((parseExpr n).run p).outcome = .done (some (e.built p.sema)) p' ∧
      p'.upcoming = next :: rest ∧
      ∀ st ∈ ((parseExpr n).run p).steps,
        st.label.isError = true → st.label.isSemantic = true :=
  reads_text (fun _ _ => parses_parseExpr n) (calls_expr n)
    (fun ts => (keeps_upcoming ts).parseExpr (le_refl n)) (fun hend => ⟨hend, trivial⟩)
    he.1 he.2 hcall htext hp (stops_close hnext) (ne_of_class hnext rfl) hn

/-- {lit}`parse_primary` on a primary that is followed by anything but a parenthesis or a
bracket that would continue it. -/
theorem reads_primary {e : Expr} (he : e.WellFormed) (hlevel : 12 ≤ e.level) {p : Parser}
    {us rest : List Token} {next : Token} {n : Nat} (hcall : e.Callable p.sema)
    (htext : us.map Token.terminal = e.toks) (hp : p.upcoming = us ++ next :: rest)
    (hnext : Stops 11 next.kind) (herror : next.kind ≠ .error)
    (hn : 10 * p.remaining + 2 ≤ n) :
    ∃ p', ((parsePrimary n).run p).outcome = .done (some (e.built p.sema)) p' ∧
      p'.upcoming = next :: rest ∧
      ∀ st ∈ ((parsePrimary n).run p).steps,
        st.label.isError = true → st.label.isSemantic = true :=
  reads_text (fun fresh beyond => (parses_expressions False False fresh beyond n).1)
    (calls_expressions n).1
    (fun ts => ((keeps_upcoming ts).braceless.expressions (le_refl n)).1)
    (fun hend => ⟨hend, trivial⟩) he hlevel hcall htext hp hnext herror hn

end Parser

/-- The tree of an expression is the one that the levels of its operators say: wherever
the parser is, {lit}`parse_expr` reads it off every way of writing it, the one with the
fewest parentheses included, and leaves the token that follows. -/
theorem parseExpr_reads_tree (t : Tree) (σ : Sema) (hscoped : t.Scoped σ) :
    t.print.Writes t ∧ ∃ node : Node, node.tree = some t ∧
      ∀ e : Expr, e.Writes t → ∀ (p : Parser) (us rest : List Token) (next : Token) (n : Nat),
        p.sema = σ → us.map Token.terminal = e.toks → p.upcoming = us ++ next :: rest →
        Parser.isClose next.kind = true → 10 * p.remaining + 5 ≤ n →
          ∃ p', ((Parser.parseExpr n).run p).outcome = .done (some node) p' ∧
            p'.upcoming = next :: rest ∧
            ∀ st ∈ ((Parser.parseExpr n).run p).steps,
              st.label.isError = true → st.label.isSemantic = true := by
  refine ⟨t.writes_print, t.print.built σ, Tree.tree_built hscoped, ?_⟩
  rintro e ⟨he, htree⟩ p us rest next n rfl htext hp hnext hn
  have hcall : e.Callable p.sema := Expr.callable_of_tree htree hscoped
  rw [← Expr.built_of_tree htree]
  exact Parser.reads_operand he hcall htext hp hnext hn

/-- A parser in front of a text, with a variable {lit}`x` declared. -/
def Parser.inFront (t : Terminal) (ts : List Terminal) : Parser :=
  { Parser.start zeroed Context.init (stream ts) with
    curr := t.token
    sema := Sema.init.enter.define (Sema.init.enter.newSymbol ⟨0⟩ tyInt false) }

/-- The text {lit}`1 - x * - 2 - + (true) )`. -/
theorem parseExpr_reads_tree_minus :
    ∃ node p', node.tree = some (.binary .sub
        (.binary .sub (.int 1) (.binary .mul (.place (.var ⟨0⟩)) (.neg (.int 2)))) (.bool true)) ∧
      ((Parser.parseExpr 200).run (Parser.inFront (.litInt 1)
        [.fixed .minus, .ident ⟨0⟩, .fixed .star, .fixed .minus, .litInt 2, .fixed .minus,
          .fixed .plus, .fixed .lParen, .fixed .kwTrue, .fixed .rParen,
          .fixed .rParen])).outcome = .done (some node) p' ∧
      p'.upcoming = [(Terminal.fixed .rParen).token] := by
  obtain ⟨_, node, htree, hreads⟩ := parseExpr_reads_tree
    (.binary .sub (.binary .sub (.int 1) (.binary .mul (.place (.var ⟨0⟩)) (.neg (.int 2))))
      (.bool true))
    (Parser.inFront (.litInt 1) []).sema
    ⟨⟨trivial, ⟨⟨_, rfl, rfl⟩, trivial⟩⟩, trivial⟩
  obtain ⟨p', hout, hrest, _⟩ := hreads
    (.binary .sub (.binary .sub (.int 1)
      (.binary .mul (.var ⟨0⟩) (.unary .minus (.int 2)))) (.unary .plus (.paren (.bool true))))
    ⟨by simp [Expr.Operand, Expr.WellFormed, Expr.level, opLevel], rfl⟩
    (Parser.inFront (.litInt 1) [.fixed .minus, .ident ⟨0⟩, .fixed .star, .fixed .minus,
      .litInt 2, .fixed .minus, .fixed .plus, .fixed .lParen, .fixed .kwTrue, .fixed .rParen,
      .fixed .rParen])
    ([.litInt 1, .fixed .minus, .ident ⟨0⟩, .fixed .star, .fixed .minus, .litInt 2, .fixed .minus,
          .fixed .plus, .fixed .lParen, .fixed .kwTrue, .fixed .rParen].map Terminal.token)
    [] (Terminal.fixed .rParen).token 200 rfl rfl rfl rfl (by decide)
  exact ⟨node, p', htree, hout, hrest⟩

end Cact
