import Cact.Parser.Correspondence.Reading

/-!
# Corresponding token streams - expressions

The expression functions are in lockstep on corresponding states.

Main results:

- Theorems {lit}`Parser.same_parseExpr` and {lit}`Parser.same_parseAssign`: expressions.
-/

open Traced

namespace Cact

namespace Parser

variable {k : Likeness} {α β : Type} {R : α → β → Prop}

/-! ## Expressions -/

/-- The report on an unknown name depends on nothing but the name being unknown. -/
theorem same_parserErrorIfNull {sym sym' : Option SemaSymbol} (hsym : k.Sym sym sym') (m : Msg) :
    Same k Eq (parserErrorIfNull sym m) (parserErrorIfNull sym' m) := by
  subst hsym
  cases sym with
  | none => exact same_parserError m
  | some sym => exact locked_pure rfl

/-- The type of a call is that of corresponding functions. -/
theorem same_callTy (name : Symbol) {sym sym' : Option SemaSymbol} (hsym : k.Sym sym sym')
    (hty : ∀ found, sym = some found → found.ty ≠ none) :
    Same k Eq (callTy name sym) (callTy (k.name name) sym') := by
  subst hsym
  cases sym with
  | none => exact locked_pure rfl
  | some sym =>
      have hmark : Same k Eq (Prog.mark (.callee name)) (Prog.mark (.callee (k.name name))) :=
        locked_step (fun _ _ => ⟨rfl, rfl⟩) fun _ _ hp => hp
      refine hmark.bind fun _ _ _ => ?_
      rw [SemaSymbol.ty_rename]
      cases hsome : sym.ty with
      | none => exact absurd hsome (hty sym rfl)
      | some ty => exact locked_read fun _ _ hp => by rw [hp.sema, Sema.callTy_rename]

/-- An item of a list, and whether another one follows. -/
theorem same_commaIter {m m' : Parse (Option Node)} (hm : Same k k.Field m m')
    {ns ns' : List (Option Node)} (hns : k.Fields ns ns') :
    Same k (Iter.Alike k.Fields k.Fields)
      (do let n ← m
          if ← matchKind .comma then return .again (ns ++ [n]) else return .leave (ns ++ [n]))
      (do let n ← m'
          if ← matchKind .comma then return .again (ns' ++ [n])
          else return .leave (ns' ++ [n])) := by
  refine hm.bind fun n n' hn => ?_
  have happend : k.Fields (ns ++ [n]) (ns' ++ [n']) := by
    rw [hns, hn]
    simp [Likeness.Fields]
  exact (same_matchKind _).branch (locked_pure (.again happend)) (locked_pure (.leave happend))

/-- The arguments of a call correspond if each does. -/
theorem same_parseArgs {m m' : Parse (Option Node)} (hm : Same k k.Expr m m') (n : Nat) :
    Same k k.Fields (parseArgs m n) (parseArgs m' n) :=
  (same_checkKind _).branch (locked_pure rfl)
    (Locked.loop (J := k.Fields)
      (fun _ _ hargs => same_commaIter (hm.mono fun _ _ h => h.field) hargs) n rfl)

/-- Calls of corresponding names correspond. -/
theorem same_parseCall {m m' : Parse (Option Node)} (hm : Same k k.Expr m m') (n : Nat)
    (name : Symbol) : Same k k.Expr (parseCall m n name) (parseCall m' n (k.name name)) := by
  refine (same_consume _ _).bind fun _ _ _ => (same_semaLookup name).bind fun sym sym' hsym => ?_
  refine (same_parserErrorIfNull hsym.1 _).bind fun _ _ _ => ?_
  refine (same_parseArgs hm n).bind fun args args' hargs => ?_
  refine (same_consume _ _).bind fun _ _ _ => (same_callTy name hsym.1 hsym.2).bind ?_
  rintro ty _ rfl
  refine locked_pure ⟨_, rfl, ?_⟩
  rw [hargs]
  simp [Node.rename]

/-- One more subscript keeps the correspondence. -/
theorem same_subscriptIter {m m' : Parse (Option Node)} (hm : Same k k.Expr m m')
    {curr curr' : Node} (hcurr : k.One curr curr') :
    Same k (Iter.Alike k.One k.Expr) (subscriptIter m curr) (subscriptIter m' curr') := by
  subst hcurr
  refine (same_matchKind _).branch ?_ (locked_pure (.leave ⟨_, rfl, rfl⟩))
  refine hm.bind fun index index' hindex => (same_consume _ _).bind fun _ _ _ => ?_
  obtain ⟨index, rfl, rfl⟩ := hindex
  rw [Node.ty_rename]
  split
  · exact locked_pure (.again (by simp [Likeness.One, Node.rename]))
  · exact Same.error (same_parserError _)

/-- A variable and its subscripts correspond. -/
theorem same_parseVariable {m m' : Parse (Option Node)} (hm : Same k k.Expr m m') (n : Nat)
    (name : Symbol) :
    Same k k.Expr (parseVariable m n name) (parseVariable m' n (k.name name)) := by
  refine (same_semaLookup name).bind fun sym sym' hsym => ?_
  refine (same_parserErrorIfNull hsym.1 _).bind fun _ _ _ => ?_
  refine Locked.loop (fun _ _ hcurr => same_subscriptIter hm hcurr) n ?_
  rw [hsym.1]
  cases sym <;> rfl

/-- Primary expressions correspond if their parts do. -/
theorem same_parsePrimaryBody {e e' a a' : Parse (Option Node)} (he : Same k k.Expr e e')
    (ha : Same k k.Expr a a') (n : Nat) :
    Same k k.Expr (parsePrimaryBody e a n) (parsePrimaryBody e' a' n) := by
  refine (same_mark rfl rfl).bind fun _ _ _ => ?_
  refine same_match_prev (fun t t' ht hkind => ?_) ?_
  · exact locked_pure ⟨_, rfl, by simp [Node.rename, ht.asInt hkind]⟩
  refine same_match_prev (fun t t' ht hkind => ?_) ?_
  · exact locked_pure ⟨_, rfl, by simp [Node.rename, ht.asFloat hkind]⟩
  refine same_match_prev (fun t t' ht hkind => ?_) ?_
  · exact locked_pure ⟨_, rfl, by simp [Node.rename, ht.asDouble hkind]⟩
  refine (same_matchKind _).branch (locked_pure ⟨_, rfl, rfl⟩) ?_
  refine (same_matchKind _).branch (locked_pure ⟨_, rfl, rfl⟩) ?_
  refine (same_matchKind _).branch ?_ ?_
  · exact he.bind fun n n' hn => (same_consume _ _).bind fun _ _ _ => locked_pure hn
  refine same_match_prev (fun t t' ht hkind => ?_) ?_
  · rw [ht.name hkind]
    exact (same_checkKind _).branch (same_parseCall ha n _) (same_parseVariable he n _)
  · exact Same.error (same_parserError _)

/-- Unary expressions correspond if their operands do. -/
theorem same_parseUnaryBody {u u' p p' : Parse (Option Node)} (hu : Same k k.Expr u u')
    (hp : Same k k.Expr p p') : Same k k.Expr (parseUnaryBody u p) (parseUnaryBody u' p') := by
  refine (same_mark rfl rfl).bind fun _ _ _ => (same_matchKind _).branch hu ?_
  refine (same_matchKind _).branch (hu.bind fun lhs lhs' hlhs => ?_) ?_
  · obtain ⟨e, rfl, rfl⟩ := hlhs
    exact locked_pure ⟨_, rfl, by simp [Node.rename]⟩
  refine (same_matchKind _).branch (hu.bind fun lhs lhs' hlhs => ?_) hp
  obtain ⟨e, rfl, rfl⟩ := hlhs
  exact locked_pure ⟨_, rfl, by simp [Node.rename]⟩

/-- One pass of the climbing loop keeps the correspondence. -/
theorem same_binaryIter {b b' : Int → Parse (Option Node)}
    (hb : ∀ prec, Same k k.Expr (b prec) (b' prec)) (prec : Int) {lhs lhs' : Option Node}
    (hlhs : k.Expr lhs lhs') :
    Same k (Iter.Alike k.Expr k.Expr) (binaryIter b prec lhs) (binaryIter b' prec lhs') := by
  refine (locked_read (R := Eq) fun _ _ hp => hp.curr.kind.symm).bind ?_
  rintro kind _ rfl
  refine Locked.ite Iff.rfl (locked_pure (.leave hlhs)) ?_
  refine same_advance.bind fun _ _ _ => (same_mark rfl rfl).bind fun _ _ _ => ?_
  refine (hb _).bind fun rhs rhs' hrhs => same_newNode.bind fun tok tok' htok => ?_
  refine (same_semaAnalyzeBinary _ htok hlhs hrhs).bind fun n n' hn => ?_
  exact locked_pure (.again ⟨n, rfl, by rw [hn]⟩)

/-- Binary expressions correspond at every precedence. -/
theorem same_parseBinaryBody {u u' : Parse (Option Node)} {b b' : Int → Parse (Option Node)}
    (hu : Same k k.Expr u u') (hb : ∀ prec, Same k k.Expr (b prec) (b' prec)) (n : Nat)
    (prec : Int) : Same k k.Expr (parseBinaryBody u b n prec) (parseBinaryBody u' b' n prec) :=
  (same_mark rfl rfl).bind fun _ _ _ => hu.bind fun _ _ hlhs =>
    Locked.loop (fun _ _ h => same_binaryIter hb prec h) n hlhs

/-- Assignments correspond if both sides do. -/
theorem same_parseAssignBody {b b' : Int → Parse (Option Node)} {a a' : Parse (Option Node)}
    (hb : ∀ prec, Same k k.Expr (b prec) (b' prec)) (ha : Same k k.Expr a a') :
    Same k k.Expr (parseAssignBody b a) (parseAssignBody b' a') := by
  refine (same_mark rfl rfl).bind fun _ _ _ => (hb 0).bind fun lhs lhs' hlhs => ?_
  refine (same_matchKind _).branch ?_ (locked_pure hlhs)
  refine (same_mark rfl rfl).bind fun _ _ _ => ha.bind fun rhs rhs' hrhs => ?_
  refine same_newNode.bind fun tok tok' htok => ?_
  refine (same_semaAnalyzeAssign htok hlhs hrhs).bind fun n n' hn => ?_
  exact locked_pure ⟨n, rfl, by rw [hn]⟩

/-- All expression functions at once, by induction on the budget. -/
theorem same_expressions (n : Nat) :
    Same k k.Expr (parsePrimary n) (parsePrimary n) ∧
      Same k k.Expr (parseUnary n) (parseUnary n) ∧
      (∀ prec, Same k k.Expr (parseBinary n prec) (parseBinary n prec)) ∧
      Same k k.Expr (parseAssign n) (parseAssign n) ∧
      Same k k.Expr (parseExpr n) (parseExpr n) := by
  induction n with
  | zero =>
      exact ⟨locked_timeout, locked_timeout, fun _ => locked_timeout, locked_timeout,
        locked_timeout⟩
  | succ n ih =>
      obtain ⟨hprimary, hunary, hbinary, hassign, hexpr⟩ := ih
      exact ⟨same_parsePrimaryBody hexpr hassign n, same_parseUnaryBody hunary hprimary,
        same_parseBinaryBody hunary hbinary n, same_parseAssignBody hbinary hassign,
        (same_mark rfl rfl).bind fun _ _ _ => hbinary 0⟩

/-- Two parses of corresponding input read corresponding expressions. -/
theorem same_parseExpr (n : Nat) : Same k k.Expr (parseExpr n) (parseExpr n) :=
  (same_expressions n).2.2.2.2

/-- The same from the level of assignments. -/
theorem same_parseAssign (n : Nat) : Same k k.Expr (parseAssign n) (parseAssign n) :=
  (same_expressions n).2.2.2.1

end Parser

end Cact
