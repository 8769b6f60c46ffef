import Cact.Library.Congruence
import Cact.Parser.TopLevel

/-!
# From the primitive operations to the whole parser

One pass over the text of the parser: a congruence that holds of its primitive
operations holds of every parsing function.  Invariants of whole runs are proved by
checking the primitive operations only.

Main results:

- Theorem {lit}`Braceless.expressions`: for the expression functions, which read no braces.
- Theorems {lit}`Exprs.parseExpr` and {lit}`Core.parseVarDeclList`: for expressions and
  declarators.
- Theorems {lit}`Body.parseDecl` and {lit}`Body.parseStmt`: for everything that can
  stand inside a function.
- Theorem {lit}`Whole.parserProgram`: for the whole parse.
-/

open Traced

namespace Cact

/-- The events that only mark a place, in expressions and declarators. -/
def Event.isExprMark : Event → Bool
  | .enter .primary | .enter .unary | .enter (.binary _) | .enter .assign | .enter .expr
  | .enter .arrayDims | .enter .initializerList | .enter .varDeclList
  | .operand | .callee _ | .analyzeBinary | .analyzeAssign | .typeArrayOf => true
  | _ => false

/-- The events that only mark a place, in the body of a function. -/
def Event.isBodyMark : Event → Bool
  | .enter .stmt | .enter .block | .enter .decl | .analyzeReturn => true
  | _ => false

/-- The events that only mark a place, at top level. -/
def Event.isTopMark : Event → Bool
  | .enter .topLevel | .enter .func => true
  | _ => false

/-- The events that only mark a place in the program. -/
def Event.isMark (e : Event) : Bool :=
  e.isExprMark || e.isBodyMark || e.isTopMark || e == .enter .param

namespace Parser

/-! ## Primitive operations, from the steps they are made of -/

/-- The same parser, with other contents of fresh memory. -/
def withFresh (fresh : Nat → Option Node) (p : Parser) : Parser := { p with fresh := fresh }

section Fields

variable {C : ∀ {α : Type}, Parse α → Parse α → Prop} (h : Congruence C)

include h

/-- Reading the unwritten field of a node, from the step that counts the node. -/
theorem congr_newNodeField
    (hstep : C (Prog.step .freshField fun p => { p with allocs := p.allocs + 1 })
      (Prog.step .freshField fun p => { p with allocs := p.allocs + 1 }))
    {α : Type} (k k' : Option Node → Parse α) (hk : ∀ a b, a = b → C (k a) (k' b)) :
    C (newNodeField >>= k) (newNodeField >>= k') :=
  h.bind (h.bind (h.read _) fun _ => h.bind hstep fun _ => h.pure _) fun a => hk a a rfl

/-- Keeping a field, from its mark. -/
theorem congr_keepField (hmark : C (Prog.mark .keepField) (Prog.mark .keepField))
    (a b : Option Node) (hab : a = b) : C (keepField a) (keepField b) := by
  subst hab
  exact h.bind hmark fun _ => h.pure _

end Fields

section Primitive

variable {C : ∀ {α : Type}, Parse α → Parse α → Prop} (h : Reading withFresh C)

include h

/-- A report of the parser, from {lit}`parser_error_at`. -/
theorem congr_parserError
    (herror : ∀ (tok : Token) (m : Msg), C (parserErrorAt tok m) (parserErrorAt tok m))
    (m : Msg) : C (parserError m) (parserError m) :=
  h.bind (h.read _ fun _ _ => rfl) fun _ => herror _ _

/-- A definition, from its step and the report of a redefinition. -/
theorem congr_semaDefineVar {name : Symbol} {ty : Option Ty} {isConst : Bool}
    (herror : ∀ (tok : Option Token) (m : Msg), C (ctxError tok m) (ctxError tok m))
    (hstep : C (Prog.step .define fun p =>
        { p with sema := p.sema.define (p.sema.newSymbol name ty isConst) })
      (Prog.step .define fun p =>
        { p with sema := p.sema.define (p.sema.newSymbol name ty isConst) })) :
    C (semaDefineVar name ty isConst) (semaDefineVar name ty isConst) := by
  refine h.bind (h.read _ fun _ _ => rfl) fun _ => h.ite (h.pure _) ?_
  refine h.bind (h.read _ fun _ _ => rfl) fun _ => h.ite ?_ ?_
  · exact h.bind (herror _ _) fun _ => h.pure _
  · exact h.bind (h.read _ fun _ _ => rfl) fun _ => h.bind hstep fun _ => h.pure _

/-- The analysis of an operator, from its mark and its report. -/
theorem congr_semaAnalyzeBinary
    (hmark : C (Prog.mark .analyzeBinary) (Prog.mark .analyzeBinary))
    (herror : ∀ (tok : Option Token) (m : Msg), C (ctxError tok m) (ctxError tok m))
    (op : BinOp) (tok : Token) (l r : Node) :
    C (semaAnalyzeBinary op tok (some l) (some r))
      (semaAnalyzeBinary op tok (some l) (some r)) := by
  have hreport (m : Msg) (node : Node) :
      C (do Parser.ctxError tok m; return node) (do Parser.ctxError tok m; return node) :=
    h.bind (herror _ _) fun _ => h.pure _
  refine h.bind hmark fun _ => ?_
  refine h.bind (h.read _ fun _ _ => rfl) fun _ => h.ite (hreport _ _) ?_
  cases op <;>
    first
    | exact h.pure _
    | exact h.ite (hreport _ _) (h.pure _)

/-- The analysis of an assignment, from its mark and its report. -/
theorem congr_semaAnalyzeAssign
    (hmark : C (Prog.mark .analyzeAssign) (Prog.mark .analyzeAssign))
    (herror : ∀ (tok : Option Token) (m : Msg), C (ctxError tok m) (ctxError tok m))
    (tok : Token) (l r : Node) :
    C (semaAnalyzeAssign tok (some l) (some r)) (semaAnalyzeAssign tok (some l) (some r)) := by
  refine h.bind hmark fun _ => h.bind (h.ite (herror _ _) (h.pure _)) fun _ => ?_
  exact h.bind (h.read _ fun _ _ => rfl) fun _ =>
    h.ite (h.bind (herror _ _) fun _ => h.pure _) (h.pure _)

/-- The analysis of a return statement, from its mark and its report. -/
theorem congr_semaAnalyzeReturn
    (hmark : C (Prog.mark .analyzeReturn) (Prog.mark .analyzeReturn))
    (herror : ∀ (tok : Option Token) (m : Msg), C (ctxError tok m) (ctxError tok m))
    (tok : Token) (lhs : Option Node) :
    C (semaAnalyzeReturn tok lhs) (semaAnalyzeReturn tok lhs) := by
  have hreport (m : Msg) (node : Node) :
      C (do Parser.ctxError tok m; return node) (do Parser.ctxError tok m; return node) :=
    h.bind (herror _ _) fun _ => h.pure _
  refine h.bind hmark fun _ => h.bind (h.read _ fun _ _ => rfl) fun _ => ?_
  refine h.ite (h.ite (hreport _ _) (h.pure _)) (h.ite (hreport _ _) ?_)
  exact h.bind (h.read _ fun _ _ => rfl) fun _ => h.ite (hreport _ _) (h.pure _)

/-- The check of an initializer, from its report. -/
theorem congr_checkInit
    (herror : ∀ (tok : Option Token) (m : Msg), C (ctxError tok m) (ctxError tok m))
    (ty : Option ObjTy) (tok : Token) (init : Option Node) :
    C (checkInit ty tok init) (checkInit ty tok init) := by
  cases init with
  | none => exact h.pure _
  | some e => exact h.bind (h.read _ fun _ _ => rfl) fun _ => h.ite (herror _ _) (h.pure _)

/-- The name of a declarator. -/
theorem congr_parseDeclaratorName (hident : C (matchKind .ident) (matchKind .ident))
    (herror : ∀ m : Msg, C (parserError m) (parserError m)) (first : Option Symbol) :
    C (parseDeclaratorName first) (parseDeclaratorName first) := by
  cases first with
  | some name => exact h.pure _
  | none =>
      refine h.bind hident fun _ => h.ite ?_ ?_
      · exact h.bind (h.read _ fun _ _ => rfl) fun _ => h.pure _
      · exact h.bind (herror _) fun _ => h.pure _

/-- The assignment that a statement may turn out to be. -/
theorem congr_parseStmtAssign (hassign : C (matchKind .assign) (matchKind .assign))
    (herror : ∀ m : Msg, C (parserError m) (parserError m))
    (hanalyze : ∀ (tok : Token) (l r : Node),
      C (semaAnalyzeAssign tok (some l) (some r)) (semaAnalyzeAssign tok (some l) (some r)))
    (e e' : Parse (Option Node)) (he : C e e') (expr : Node) :
    C (parseStmtAssign e expr) (parseStmtAssign e' expr) := by
  refine h.bind hassign fun _ => h.ite (h.bind he fun rhs => ?_) (h.pure _)
  cases rhs with
  | none => exact h.bind (herror _) fun _ => h.pure _
  | some rhs => exact h.bind (h.read _ fun _ _ => rfl) fun _ => hanalyze _ _ _

/-- A new function type, from its step. -/
theorem congr_typeFuncNew {ret : ObjTy}
    (hstep : C (Prog.step .newFunc fun p => { p with sema := p.sema.newFunc ret })
      (Prog.step .newFunc fun p => { p with sema := p.sema.newFunc ret })) :
    C (typeFuncNew ret) (typeFuncNew ret) :=
  h.bind (h.read _ fun _ _ => rfl) fun _ => h.bind hstep fun _ => h.pure _

/-- Recovery, from the steps that clear panic mode and skip a token. -/
theorem congr_synchronize (n n' : Nat) (hn : n ≤ n')
    (hclear : C (Prog.step .synchronize fun p => { p with panicMode := false })
      (Prog.step .synchronize fun p => { p with panicMode := false }))
    (hskip : ∀ t, C (Prog.mark (.skip t)) (Prog.mark (.skip t)))
    (hadvance : C advance advance) : C (synchronize n) (synchronize n') := by
  refine h.bind hclear fun _ => h.loop (fun _ => ?_) hn _
  refine h.bind (h.read _ fun _ _ => rfl) fun _ => h.ite (h.pure _) ?_
  refine h.bind (h.read _ fun _ _ => rfl) fun _ => h.ite (h.pure _) ?_
  refine h.bind (h.read _ fun _ _ => rfl) fun _ => h.ite (h.pure _) ?_
  refine h.bind (h.read _ fun _ _ => rfl) fun _ => h.bind (hskip _) fun _ => ?_
  exact h.bind hadvance fun _ => h.pure _

/-- A test for panic mode with recovery behind it. -/
theorem congr_recover {α : Type} (n n' : Nat) (m m' k k' : Parse α)
    (hsync : C (synchronize n) (synchronize n')) (hm : C m m') (hk : C k k') :
    C (do if ← Prog.read Parser.panicMode then synchronize n; m else k)
      (do if ← Prog.read Parser.panicMode then synchronize n'; m' else k') :=
  h.bind (h.read _ fun _ _ => rfl) fun _ => h.ite (h.bind hsync fun _ => hm) hk

/-- Recovery at top level. -/
theorem congr_synchronizeIfPanic (n n' : Nat)
    (hsync : C (synchronize n) (synchronize n')) :
    C (synchronizeIfPanic n) (synchronizeIfPanic n') :=
  congr_recover h n n' _ _ _ _ hsync (h.pure ()) (h.pure ())

/-- A piece with a scope around it. -/
theorem congr_scope {α β : Type} (m m' : Parse α) (k k' : α → Parse β)
    (henter : C semaScopeEnter semaScopeEnter) (hleave : C semaScopeLeave semaScopeLeave)
    (hm : C m m') (hk : ∀ a, C (k a) (k' a)) :
    C (do semaScopeEnter; let a ← m; semaScopeLeave; k a)
      (do semaScopeEnter; let a ← m'; semaScopeLeave; k' a) :=
  h.bind henter fun _ => h.bind hm fun a => h.bind hleave fun _ => hk a

end Primitive

/-! ## Tokens, diagnostics and names -/

/-- A congruence that the primitive operations on tokens, diagnostics and names
satisfy. -/
structure Base (C : ∀ {α : Type}, Parse α → Parse α → Prop) : Prop
    extends Reading withFresh C where
  advance : C Parser.advance Parser.advance
  parserErrorAt : ∀ (tok : Token) (m : Msg), C (parserErrorAt tok m) (parserErrorAt tok m)
  ctxError : ∀ (tok : Option Token) (m : Msg), C (ctxError tok m) (ctxError tok m)
  define : ∀ (name : Symbol) (ty : Option Ty) (isConst : Bool),
    C (semaDefineVar name ty isConst) (semaDefineVar name ty isConst)

namespace Base

variable {C : ∀ {α : Type}, Parse α → Parse α → Prop} (h : Base C)

include h

/-- A report of the parser. -/
theorem parserError (m : Msg) : C (parserError m) (parserError m) :=
  congr_parserError h.toReading h.parserErrorAt m

/-- A token that may be there. -/
theorem matchKind (kind : TokenKind) : C (matchKind kind) (matchKind kind) :=
  h.bind (h.read _ fun _ _ => rfl) fun _ => h.ite (h.bind h.advance fun _ => h.pure _) (h.pure _)

/-- A token that has to be there. -/
theorem consume (kind : TokenKind) (m : Msg) : C (consume kind m) (consume kind m) :=
  h.bind (h.read _ fun _ _ => rfl) fun _ => h.ite h.advance (h.parserError _)

/-- The check of an initializer. -/
theorem checkInit (ty : Option ObjTy) (tok : Token) (init : Option Node) :
    C (checkInit ty tok init) (checkInit ty tok init) :=
  congr_checkInit h.toReading h.ctxError ty tok init

/-- The name of a declarator. -/
theorem parseDeclaratorName (first : Option Symbol) :
    C (parseDeclaratorName first) (parseDeclaratorName first) :=
  congr_parseDeclaratorName h.toReading (h.matchKind _) h.parserError first

/-- The report of what is neither a declaration nor a function. -/
theorem reportTopLevel : C reportTopLevel reportTopLevel :=
  h.bind (h.read _ fun _ _ => rfl) fun _ => h.ite (h.parserError _) (h.pure _)

/-- The token that is skipped if recovery has not moved. -/
theorem skipIfStuck : C skipIfStuck skipIfStuck :=
  h.bind (h.read _ fun _ _ => rfl) fun _ => h.ite h.advance (h.pure _)

/-- A brace list, from its elements. -/
theorem parseInitializerListBody
    (hmark : C (Prog.mark (.enter .initializerList)) (Prog.mark (.enter .initializerList)))
    {i i' a a' : Parse (Option Node)} {n n' : Nat} (hi : C i i') (ha : C a a') (hn : n ≤ n') :
    C (parseInitializerListBody i a n) (parseInitializerListBody i' a' n') := by
  refine h.bind hmark fun _ => h.bind (h.consume _ _) fun _ => h.bind ?_ fun _ =>
    h.bind (h.consume _ _) fun _ => h.pure _
  refine h.bind (h.read _ fun _ _ => rfl) fun _ => ?_
  refine h.ite (h.pure _) (h.loop (fun _ => ?_) hn _)
  refine h.bind (h.bind (h.read _ fun _ _ => rfl) fun _ => h.ite hi ha) fun _ => ?_
  exact h.bind (h.matchKind _) fun _ => h.ite (h.pure _) (h.pure _)

/-- Brace lists, by induction on the smaller budget. -/
theorem parseInitializerList
    (hmark : C (Prog.mark (.enter .initializerList)) (Prog.mark (.enter .initializerList)))
    (ha : ∀ {n n' : Nat}, n ≤ n' → C (parseAssign n) (parseAssign n')) {n n' : Nat} (hn : n ≤ n') :
    C (parseInitializerList n) (parseInitializerList n') := by
  induction n generalizing n' with
  | zero => exact h.timeout _
  | succ n ih =>
      obtain ⟨k, rfl⟩ : ∃ k, n' = k + 1 := ⟨n' - 1, by omega⟩
      have hnk : n ≤ k := by omega
      exact h.parseInitializerListBody hmark (ih hnk) (ha hnk) hnk

end Base

/-! ## Expressions -/

/-- Whether a token is a brace. -/
def isBrace : TokenKind → Bool
  | .lBrace | .rBrace => true
  | _ => false

/-- A congruence that the parts of an expression satisfy.  No brace is read in it, and
operators are looked for with the precedences {lit}`precs` only. -/
structure Braceless (C : ∀ {α : Type}, Parse α → Parse α → Prop)
    (precs : Int → Prop) : Prop extends Reading withFresh C where
  lowest : precs 0
  above : ∀ kind : TokenKind, precs (getPrec kind + 1)
  matchKind : ∀ kind : TokenKind, isBrace kind = false → C (matchKind kind) (matchKind kind)
  consume : ∀ (kind : TokenKind) (m : Msg), isBrace kind = false →
    C (consume kind m) (consume kind m)
  operator : ∀ {α : Type} {prec : Int} {m m' : Parse α} {k k' : TokenKind → Parse α},
    precs prec → C m m' → (∀ kind, C (k kind) (k' kind)) →
    C (do let kind ← Prog.read fun p => p.curr.kind
          if getPrec kind < prec then m else advance; k kind)
      (do let kind ← Prog.read fun p => p.curr.kind
          if getPrec kind < prec then m' else advance; k' kind)
  parserErrorAt : ∀ (tok : Token) (m : Msg), C (parserErrorAt tok m) (parserErrorAt tok m)
  ctxError : ∀ (tok : Option Token) (m : Msg), C (ctxError tok m) (ctxError tok m)
  fault : ∀ {α : Type}, C (Prog.fault : Parse α) Prog.fault
  exprMark : ∀ {e : Event}, e.isExprMark = true → C (Prog.mark e) (Prog.mark e)

namespace Braceless

variable {C : ∀ {α : Type}, Parse α → Parse α → Prop} {precs : Int → Prop}
  (h : Braceless C precs)

include h

/-- A report of the parser. -/
theorem parserError (m : Msg) : C (parserError m) (parserError m) :=
  congr_parserError h.toReading h.parserErrorAt m

/-- A report of an unknown name. -/
theorem parserErrorIfNull (sym : Option SemaSymbol) (m : Msg) :
    C (parserErrorIfNull sym m) (parserErrorIfNull sym m) := by
  cases sym with
  | none => exact h.parserError _
  | some _ => exact h.pure _

/-- A new array type. -/
theorem typeArrayOf (base : Option ObjTy) (len : Int32) :
    C (typeArrayOf base len) (typeArrayOf base len) := by
  refine h.bind (h.exprMark rfl) fun _ => ?_
  cases base with
  | none => exact h.fault
  | some base => exact h.pure _

/-- The analysis of an operator. -/
theorem semaAnalyzeBinary (op : BinOp) (tok : Token) (lhs rhs : Option Node) :
    C (semaAnalyzeBinary op tok lhs rhs) (semaAnalyzeBinary op tok lhs rhs) := by
  cases lhs with
  | none => exact h.bind (h.exprMark rfl) fun _ => h.fault
  | some l =>
      cases rhs with
      | none => exact h.bind (h.exprMark rfl) fun _ => h.fault
      | some r =>
          exact congr_semaAnalyzeBinary h.toReading (h.exprMark rfl) h.ctxError op tok l r

/-- The analysis of an assignment. -/
theorem semaAnalyzeAssign (tok : Token) (lhs rhs : Option Node) :
    C (semaAnalyzeAssign tok lhs rhs) (semaAnalyzeAssign tok lhs rhs) := by
  cases lhs with
  | none => exact h.bind (h.exprMark rfl) fun _ => h.fault
  | some l =>
      cases rhs with
      | none => exact h.bind (h.exprMark rfl) fun _ => h.fault
      | some r => exact congr_semaAnalyzeAssign h.toReading (h.exprMark rfl) h.ctxError tok l r

/-- The type of a call. -/
theorem callTy (name : Symbol) (sym : Option SemaSymbol) :
    C (callTy name sym) (callTy name sym) := by
  cases sym with
  | none => exact h.pure _
  | some sym =>
      refine h.bind (h.exprMark rfl) fun _ => ?_
      cases sym.ty with
      | none => exact h.fault
      | some ty => exact h.read _ fun _ _ => rfl

/-- The arguments of a call. -/
theorem parseArgs {m m' : Parse (Option Node)} {n n' : Nat} (hm : C m m') (hn : n ≤ n') :
    C (parseArgs m n) (parseArgs m' n') := by
  refine h.bind (h.read _ fun _ _ => rfl) fun _ => ?_
  refine h.ite (h.pure _) (h.loop (fun _ => ?_) hn _)
  exact h.bind hm fun _ => h.bind (h.matchKind _ rfl) fun _ => h.ite (h.pure _) (h.pure _)

/-- A call behind its name. -/
theorem parseCall {m m' : Parse (Option Node)} {n n' : Nat} (hm : C m m') (hn : n ≤ n')
    (name : Symbol) : C (parseCall m n name) (parseCall m' n' name) := by
  refine h.bind (h.consume _ _ rfl) fun _ => h.bind (h.read _ fun _ _ => rfl) fun _ => ?_
  refine h.bind (h.parserErrorIfNull _ _) fun _ => h.bind (h.parseArgs hm hn) fun _ => ?_
  exact h.bind (h.consume _ _ rfl) fun _ => h.bind (h.callTy _ _) fun _ => h.pure _

/-- One subscript. -/
theorem subscriptIter {m m' : Parse (Option Node)} (hm : C m m') (curr : Node) :
    C (subscriptIter m curr) (subscriptIter m' curr) := by
  refine h.bind (h.matchKind _ rfl) fun _ => h.ite ?_ (h.pure _)
  refine h.bind hm fun index => h.bind (h.consume _ _ rfl) fun _ => ?_
  have hbad : C (do
      Parser.parserError .notAnArray
      return (Iter.again (.arrayAccess tyInt curr index) : Iter Node (Option Node))) (do
      Parser.parserError .notAnArray
      return Iter.again (.arrayAccess tyInt curr index)) :=
    h.bind (h.parserError _) fun _ => h.pure _
  -- The switch is on the type of the subscripted node; only an array type is accepted.
  split
  · exact h.pure _
  · exact hbad

/-- A variable and its subscripts. -/
theorem parseVariable {m m' : Parse (Option Node)} {n n' : Nat} (hm : C m m')
    (hn : n ≤ n') (name : Symbol) : C (parseVariable m n name) (parseVariable m' n' name) :=
  h.bind (h.read _ fun _ _ => rfl) fun _ => h.bind (h.parserErrorIfNull _ _) fun _ =>
    h.loop (h.subscriptIter hm) hn _

/-- A primary expression, from what stands in its parentheses. -/
theorem parsePrimaryBody {e e' a a' : Parse (Option Node)} {n n' : Nat} (he : C e e')
    (ha : C a a') (hn : n ≤ n') : C (parsePrimaryBody e a n) (parsePrimaryBody e' a' n') := by
  have hlit (f : Token → Node) : C
      (do let prev ← Prog.read Parser.prev; return some (f prev))
      (do let prev ← Prog.read Parser.prev; return some (f prev)) :=
    h.bind (h.read _ fun _ _ => rfl) fun _ => h.pure _
  refine h.bind (h.exprMark rfl) fun _ => ?_
  refine h.bind (h.matchKind _ rfl) fun _ => h.ite (hlit _) ?_
  refine h.bind (h.matchKind _ rfl) fun _ => h.ite (hlit _) ?_
  refine h.bind (h.matchKind _ rfl) fun _ => h.ite (hlit _) ?_
  refine h.bind (h.matchKind _ rfl) fun _ => h.ite (h.pure _) ?_
  refine h.bind (h.matchKind _ rfl) fun _ => h.ite (h.pure _) ?_
  refine h.bind (h.matchKind _ rfl) fun _ => h.ite ?_ ?_
  · exact h.bind he fun _ => h.bind (h.consume _ _ rfl) fun _ => h.pure _
  refine h.bind (h.matchKind _ rfl) fun _ => h.ite ?_ ?_
  · refine h.bind (h.read _ fun _ _ => rfl) fun _ => ?_
    refine h.bind (h.read _ fun _ _ => rfl) fun _ => h.ite ?_ ?_
    · exact h.parseCall ha hn _
    · exact h.parseVariable he hn _
  · exact h.bind (h.parserError _) fun _ => h.pure _

/-- A unary expression, from its operand. -/
theorem parseUnaryBody {u u' p p' : Parse (Option Node)} (hu : C u u') (hp : C p p') :
    C (parseUnaryBody u p) (parseUnaryBody u' p') := by
  refine h.bind (h.exprMark rfl) fun _ => h.bind (h.matchKind _ rfl) fun _ => h.ite hu ?_
  refine h.bind (h.matchKind _ rfl) fun _ => h.ite (h.bind hu fun _ => h.pure _) ?_
  exact h.bind (h.matchKind _ rfl) fun _ => h.ite (h.bind hu fun _ => h.pure _) hp

/-- One operator and what stands behind it. -/
theorem binaryIter {b b' : Int → Parse (Option Node)}
    (hb : ∀ prec, precs prec → C (b prec) (b' prec)) {prec : Int} (hprec : precs prec)
    (lhs : Option Node) : C (binaryIter b prec lhs) (binaryIter b' prec lhs) := by
  refine h.operator hprec (h.pure _) fun kind => ?_
  refine h.bind (h.exprMark rfl) fun _ => h.bind (hb _ (h.above kind)) fun _ => ?_
  refine h.bind (h.read _ fun _ _ => rfl) fun _ => ?_
  exact h.bind (h.semaAnalyzeBinary _ _ _ _) fun _ => h.pure _

/-- A binary expression, from its operands. -/
theorem parseBinaryBody {u u' : Parse (Option Node)} {b b' : Int → Parse (Option Node)}
    {n n' : Nat} (hu : C u u') (hb : ∀ prec, precs prec → C (b prec) (b' prec))
    (hn : n ≤ n') {prec : Int} (hprec : precs prec) :
    C (parseBinaryBody u b n prec) (parseBinaryBody u' b' n' prec) :=
  h.bind (h.exprMark rfl) fun _ => h.bind hu fun _ => h.loop (h.binaryIter hb hprec) hn _

/-- An assignment, from its two sides. -/
theorem parseAssignBody {b b' : Int → Parse (Option Node)} {a a' : Parse (Option Node)}
    (hb : ∀ prec, precs prec → C (b prec) (b' prec)) (ha : C a a') :
    C (parseAssignBody b a) (parseAssignBody b' a') := by
  refine h.bind (h.exprMark rfl) fun _ => h.bind (hb _ h.lowest) fun _ => ?_
  refine h.bind (h.matchKind _ rfl) fun _ => h.ite ?_ (h.pure _)
  refine h.bind (h.exprMark rfl) fun _ => h.bind ha fun _ => ?_
  refine h.bind (h.read _ fun _ _ => rfl) fun _ => ?_
  exact h.bind (h.semaAnalyzeAssign _ _ _) fun _ => h.pure _

/-- An expression is a binary expression of the lowest strength. -/
theorem parseExprBody {b b' : Int → Parse (Option Node)}
    (hb : ∀ prec, precs prec → C (b prec) (b' prec)) :
    C (parseExprBody b) (parseExprBody b') :=
  h.bind (h.exprMark rfl) fun _ => hb _ h.lowest

/-- All expression functions at once, by induction on the smaller budget. -/
theorem expressions {n n' : Nat} (hn : n ≤ n') :
    C (parsePrimary n) (parsePrimary n') ∧ C (parseUnary n) (parseUnary n') ∧
      (∀ prec, precs prec → C (parseBinary n prec) (parseBinary n' prec)) ∧
      C (parseAssign n) (parseAssign n') ∧ C (parseExpr n) (parseExpr n') := by
  induction n generalizing n' with
  | zero =>
      exact ⟨h.timeout _, h.timeout _, fun _ _ => h.timeout _, h.timeout _, h.timeout _⟩
  | succ n ih =>
      obtain ⟨k, rfl⟩ : ∃ k, n' = k + 1 := ⟨n' - 1, by omega⟩
      have hnk : n ≤ k := by omega
      rcases ih hnk with ⟨hprimary, hunary, hbinary, hassign, hexpr⟩
      exact ⟨h.parsePrimaryBody hexpr hassign hnk, h.parseUnaryBody hunary hprimary,
        fun _ => h.parseBinaryBody hunary hbinary hnk, h.parseAssignBody hbinary hassign,
        h.parseExprBody hbinary⟩

/-- An expression. -/
theorem parseExpr {n n' : Nat} (hn : n ≤ n') : C (parseExpr n) (parseExpr n') :=
  (h.expressions hn).2.2.2.2

/-- An assignment. -/
theorem parseAssign {n n' : Nat} (hn : n ≤ n') : C (parseAssign n) (parseAssign n') :=
  (h.expressions hn).2.2.2.1

/-! ## Array types and initializers -/

/-- One dimension. -/
theorem dimsIter (base : Option ObjTy) : C (dimsIter base) (dimsIter base) := by
  refine h.bind (h.matchKind _ rfl) fun _ => h.ite ?_ (h.pure _)
  refine h.bind (h.matchKind _ rfl) fun _ => h.ite ?_ ?_
  · refine h.bind (h.read _ fun _ _ => rfl) fun _ => h.bind (h.consume _ _ rfl) fun _ => ?_
    exact h.bind (h.typeArrayOf _ _) fun _ => h.pure _
  · exact h.bind (h.parserError _) fun _ => h.bind (h.matchKind _ rfl) fun _ => h.pure _

/-- All dimensions. -/
theorem parseArrayDims {n n' : Nat} (hn : n ≤ n') (base : Option ObjTy) :
    C (parseArrayDims n base) (parseArrayDims n' base) :=
  h.bind (h.exprMark rfl) fun _ => h.loop h.dimsIter hn _

end Braceless

/-- A congruence that also the marks and the faults of expressions satisfy. -/
structure Exprs (C : ∀ {α : Type}, Parse α → Parse α → Prop) : Prop extends Base C where
  fault : ∀ {α : Type}, C (Prog.fault : Parse α) Prog.fault
  exprMark : ∀ {e : Event}, e.isExprMark = true → C (Prog.mark e) (Prog.mark e)

namespace Exprs

variable {C : ∀ {α : Type}, Parse α → Parse α → Prop} (h : Exprs C)

include h

/-- What reads any token reads those of expressions. -/
theorem braceless : Braceless C fun _ => True :=
  { h with
    lowest := trivial
    above := fun _ => trivial
    matchKind := fun kind _ => h.matchKind kind
    consume := fun kind m _ => h.consume kind m
    operator := fun _ hm hk => h.bind (h.read _ fun _ _ => rfl) fun kind =>
      h.ite hm (h.bind h.advance fun _ => hk kind) }

/-- A new array type. -/
theorem typeArrayOf (base : Option ObjTy) (len : Int32) :
    C (typeArrayOf base len) (typeArrayOf base len) :=
  h.braceless.typeArrayOf base len

/-- The analysis of an assignment. -/
theorem semaAnalyzeAssign (tok : Token) (lhs rhs : Option Node) :
    C (semaAnalyzeAssign tok lhs rhs) (semaAnalyzeAssign tok lhs rhs) :=
  h.braceless.semaAnalyzeAssign tok lhs rhs

/-- An expression. -/
theorem parseExpr {n n' : Nat} (hn : n ≤ n') : C (parseExpr n) (parseExpr n') :=
  h.braceless.parseExpr hn

/-- An assignment. -/
theorem parseAssign {n n' : Nat} (hn : n ≤ n') : C (parseAssign n) (parseAssign n') :=
  h.braceless.parseAssign hn

/-- The dimensions of an array. -/
theorem parseArrayDims {n n' : Nat} (hn : n ≤ n') (base : Option ObjTy) :
    C (parseArrayDims n base) (parseArrayDims n' base) :=
  h.braceless.parseArrayDims hn base

/-- A brace list. -/
theorem parseInitializerList {n n' : Nat} (hn : n ≤ n') :
    C (parseInitializerList n) (parseInitializerList n') :=
  h.toBase.parseInitializerList (h.exprMark rfl) h.parseAssign hn

/-! ## Parameters -/

/-- One parameter. -/
theorem paramIter (hmark : C (Prog.mark (.enter .param)) (Prog.mark (.enter .param)))
    (hpush : ∀ (id : Nat) (ty : Option ObjTy), C (pushParam id ty) (pushParam id ty))
    {n n' : Nat} (hn : n ≤ n') (funcTy : Nat) (u : Unit) :
    C (paramIter n funcTy u) (paramIter n' funcTy u) := by
  refine h.bind hmark fun _ => h.bind (h.read _ fun _ _ => rfl) fun curr => h.bind ?_ fun _ => ?_
  · cases tokenToType curr.kind with
    | none => exact h.parserError _
    | some _ => exact h.pure _
  refine h.bind h.advance fun _ => h.bind (h.consume _ _) fun _ => ?_
  refine h.bind (h.read _ fun _ _ => rfl) fun _ => h.bind ?_ fun _ => ?_
  · refine h.bind (h.matchKind _) fun _ => h.ite (h.bind ?_ fun _ => ?_) (h.pure _)
    · refine h.bind (h.matchKind _) fun _ => h.ite (h.typeArrayOf _ _) ?_
      refine h.bind (h.matchKind _) fun _ => h.ite ?_ ?_
      · refine h.bind (h.read _ fun _ _ => rfl) fun _ => h.bind (h.consume _ _) fun _ => ?_
        exact h.typeArrayOf _ _
      · exact h.bind (h.parserError _) fun _ => h.pure _
    · exact h.parseArrayDims hn _
  refine h.bind (h.define _ _ _) fun _ => h.bind (hpush _ _) fun _ => ?_
  exact h.bind (h.matchKind _) fun _ => h.ite (h.pure _) (h.pure _)

/-- All parameters. -/
theorem parseParams (hmark : C (Prog.mark (.enter .param)) (Prog.mark (.enter .param)))
    (hpush : ∀ (id : Nat) (ty : Option ObjTy), C (pushParam id ty) (pushParam id ty))
    {n n' : Nat} (hn : n ≤ n') (funcTy : Nat) :
    C (parseParams n funcTy) (parseParams n' funcTy) :=
  h.bind (h.read _ fun _ _ => rfl) fun _ =>
    h.ite (h.pure _) (h.loop (h.paramIter hmark hpush hn _) hn _)

end Exprs

/-! ## Declarations -/

/-- A congruence that expressions, and the other parts of declarators and statements,
satisfy.  The two versions may find contents of fresh memory that {lit}`F` relates. -/
structure Core (C : ∀ {α : Type}, Parse α → Parse α → Prop)
    (F : Option Node → Option Node → Prop := Eq) : Prop extends Base C where
  declMark : C (Prog.mark (.enter .varDeclList)) (Prog.mark (.enter .varDeclList))
  parseExpr : ∀ {n n' : Nat}, n ≤ n' → C (parseExpr n) (parseExpr n')
  parseInitializerList : ∀ {n n' : Nat}, n ≤ n' →
    C (parseInitializerList n) (parseInitializerList n')
  parseArrayDims : ∀ {n n' : Nat}, n ≤ n' → ∀ ty : ObjTy,
    C (parseArrayDims n (some ty)) (parseArrayDims n' (some ty))
  semaAnalyzeAssign : ∀ (tok : Token) (l r : Node),
    C (semaAnalyzeAssign tok (some l) (some r)) (semaAnalyzeAssign tok (some l) (some r))
  newNodeField : ∀ {α : Type} {k k' : Option Node → Parse α},
    (∀ a b, F a b → C (k a) (k' b)) →
    C (Parser.newNodeField >>= k) (Parser.newNodeField >>= k')
  keepField : ∀ {a b : Option Node}, F a b → C (keepField a) (keepField b)

namespace Core

variable {C : ∀ {α : Type}, Parse α → Parse α → Prop} {F : Option Node → Option Node → Prop}

/-- A congruence of the primitive operations is one of the expressions made of them. -/
theorem of_exprs (h : Exprs C)
    (hnew : ∀ {α : Type} {k k' : Option Node → Parse α}, (∀ a b, F a b → C (k a) (k' b)) →
      C (Parser.newNodeField >>= k) (Parser.newNodeField >>= k'))
    (hkeep : ∀ {a b : Option Node}, F a b → C (Parser.keepField a) (Parser.keepField b)) :
    Core C F :=
  { h with
    declMark := h.exprMark rfl
    parseExpr := h.parseExpr
    parseInitializerList := h.parseInitializerList
    parseArrayDims := fun hn _ => h.parseArrayDims hn _
    semaAnalyzeAssign := fun _ _ _ => h.semaAnalyzeAssign _ _ _
    newNodeField := hnew
    keepField := hkeep }

variable (h : Core C F)

include h

/-- An initializer. -/
theorem parseInit {i i' e e' : Parse (Option Node)} (hi : C i i') (he : C e e')
    (ty : Option ObjTy) (isConst : Bool) (tok : Token) {a b : Option Node} (hab : F a b) :
    C (parseInit i e ty isConst tok a) (parseInit i' e' ty isConst tok b) := by
  refine h.bind (h.matchKind _) fun _ => h.ite ?_ (h.ite ?_ (h.keepField hab))
  · refine h.bind (h.read _ fun _ _ => rfl) fun _ => h.ite hi (h.bind he fun _ => ?_)
    exact h.bind (h.checkInit _ _ _) fun _ => h.pure _
  · exact h.bind (h.parserError _) fun _ => h.keepField hab

/-- A declarator behind its name. -/
theorem parseDeclarator {i i' e e' : Parse (Option Node)} {n n' : Nat} (hi : C i i')
    (he : C e e') (hn : n ≤ n') (baseTy : ObjTy) (isConst : Bool) (name : Symbol) :
    C (parseDeclarator i e n baseTy isConst name)
      (parseDeclarator i' e' n' baseTy isConst name) := by
  refine h.bind (h.parseArrayDims hn _) fun _ => h.bind (h.define _ _ _) fun _ => ?_
  refine h.bind (h.read _ fun _ _ => rfl) fun _ => h.newNodeField fun a b hab => ?_
  exact h.bind (h.parseInit hi he _ _ _ hab) fun _ => h.pure _

/-- A declarator and the comma behind it. -/
theorem declaratorIter {i i' e e' : Parse (Option Node)} {n n' : Nat} (hi : C i i')
    (he : C e e') (hn : n ≤ n') (baseTy : ObjTy) (isConst : Bool)
    (st : Option Symbol × List Node) :
    C (declaratorIter i e n baseTy isConst st)
      (declaratorIter i' e' n' baseTy isConst st) := by
  refine h.bind (h.parseDeclaratorName _) fun name => ?_
  cases name with
  | none => exact h.pure _
  | some name =>
      refine h.bind (h.parseDeclarator hi he hn _ _ _) fun _ => ?_
      exact h.bind (h.matchKind _) fun _ => h.ite (h.pure _) (h.pure _)

/-- The declarators of a declaration. -/
theorem parseVarDeclList {n n' : Nat} (hn : n ≤ n') (baseTy : ObjTy) (name : Symbol)
    (isConst isGlobal : Bool) :
    C (parseVarDeclList n baseTy name isConst isGlobal)
      (parseVarDeclList n' baseTy name isConst isGlobal) := by
  refine h.bind h.declMark fun _ => h.bind ?_ fun _ => ?_
  · exact h.loop (h.declaratorIter (h.parseInitializerList hn) (h.parseExpr hn) hn _ _) hn _
  · exact h.bind (h.consume _ _) fun _ => h.pure _

end Core

/-! ## Inside functions -/

/-- A congruence that the primitive operations inside functions satisfy.  Recovery is
entered only in panic mode, and a scope is left by the program that entered it. -/
structure Body (C : ∀ {α : Type}, Parse α → Parse α → Prop)
    (F : Option Node → Option Node → Prop := Eq) : Prop extends Core C F where
  bodyMark : ∀ {e : Event}, e.isBodyMark = true → C (Prog.mark e) (Prog.mark e)
  recover : ∀ {α : Type} {n n' : Nat} {m m' k k' : Parse α}, n ≤ n' → C m m' → C k k' →
    C (do if ← Prog.read Parser.panicMode then synchronize n; m else k)
      (do if ← Prog.read Parser.panicMode then synchronize n'; m' else k')
  scope : ∀ {α β : Type} {m m' : Parse α} {k k' : α → Parse β}, C m m' →
    (∀ a, C (k a) (k' a)) →
    C (do semaScopeEnter; let a ← m; semaScopeLeave; k a)
      (do semaScopeEnter; let a ← m'; semaScopeLeave; k' a)

namespace Body

variable {C : ∀ {α : Type}, Parse α → Parse α → Prop} {F : Option Node → Option Node → Prop}
  (h : Body C F)

include h

/-- A declaration inside a function. -/
theorem parseDecl {n n' : Nat} (hn : n ≤ n') : C (parseDecl n) (parseDecl n') := by
  refine h.bind (h.bodyMark rfl) fun _ => h.bind (h.matchKind _) fun _ => ?_
  refine h.bind (h.read _ fun _ _ => rfl) fun curr => ?_
  cases tokenToType curr.kind with
  | none => exact h.bind (h.parserError _) fun _ => h.pure _
  | some baseTy =>
      refine h.bind h.advance fun _ => h.bind (h.matchKind _) fun _ => h.ite ?_ ?_
      · exact h.bind (h.read _ fun _ _ => rfl) fun _ => h.parseVarDeclList hn _ _ _ _
      · exact h.bind (h.parserError _) fun _ => h.pure _

/-- The analysis of a return statement. -/
theorem semaAnalyzeReturn (tok : Token) (lhs : Option Node) :
    C (semaAnalyzeReturn tok lhs) (semaAnalyzeReturn tok lhs) :=
  congr_semaAnalyzeReturn h.toReading (h.bodyMark rfl) h.ctxError tok lhs

/-- A declaration or a statement. -/
theorem bodyItem {d d' s s' : Parse (Option Node)} (hd : C d d') (hs : C s s') (m : Msg)
    (stmts : List Node) : C (bodyItem d s m stmts) (bodyItem d' s' m stmts) := by
  refine h.bind (h.read _ fun _ _ => rfl) fun _ => h.ite ?_ (h.ite ?_ ?_)
  · exact h.bind (h.parserError _) fun _ => h.bind h.advance fun _ => h.pure _
  · exact h.bind hd fun _ => h.pure _
  · exact h.bind hs fun _ => h.pure _

/-- One round of the loop over a body, recovery included. -/
theorem bodyIter {d d' s s' : Parse (Option Node)} {n n' : Nat} (hd : C d d')
    (hs : C s s') (hn : n ≤ n') (m : Msg) (stmts : List Node) :
    C (bodyIter d s m n stmts) (bodyIter d' s' m n' stmts) := by
  refine h.bind (h.read _ fun _ _ => rfl) fun _ => h.ite (h.pure _) ?_
  refine h.bind (h.recover hn (h.read _ fun _ _ => rfl) (h.pure _)) fun _ => h.ite (h.pure _) ?_
  exact h.bodyItem hd hs _ _

/-- A block, from what stands in it. -/
theorem parseBlockBody {d d' s s' : Parse (Option Node)} {n n' : Nat} (hd : C d d')
    (hs : C s s') (hn : n ≤ n') : C (parseBlockBody d s n) (parseBlockBody d' s' n') := by
  refine h.bind (h.bodyMark rfl) fun _ => h.bind (h.consume _ _) fun _ => ?_
  refine h.scope (h.loop (h.bodyIter hd hs hn _) hn _) fun _ => ?_
  exact h.bind (h.consume _ _) fun _ => h.pure _

/-- The assignment that a statement may turn out to be. -/
theorem parseStmtAssign {e e' : Parse (Option Node)} (he : C e e') (expr : Node) :
    C (parseStmtAssign e expr) (parseStmtAssign e' expr) :=
  congr_parseStmtAssign h.toReading (h.matchKind _) h.parserError h.semaAnalyzeAssign e e' he expr

/-- A statement, from its parts. -/
theorem parseStmtBody {e e' s s' b b' : Parse (Option Node)} (he : C e e') (hs : C s s')
    (hb : C b b') : C (parseStmtBody e s b) (parseStmtBody e' s' b') := by
  refine h.bind (h.bodyMark rfl) fun _ => h.bind (h.matchKind _) fun _ => h.ite ?_ ?_
  · refine h.newNodeField fun a b hab => h.bind (h.consume _ _) fun _ => ?_
    refine h.bind he fun _ => h.bind (h.consume _ _) fun _ => h.bind hs fun _ => ?_
    refine h.bind ?_ fun _ => h.pure _
    exact h.bind (h.matchKind _) fun _ => h.ite hs (h.keepField hab)
  refine h.bind (h.matchKind _) fun _ => h.ite ?_ ?_
  · refine h.bind (h.consume _ _) fun _ => h.bind he fun _ => ?_
    exact h.bind (h.consume _ _) fun _ => h.bind hs fun _ => h.pure _
  refine h.bind (h.matchKind _) fun _ => h.ite ?_ ?_
  · refine h.bind (h.read _ fun _ _ => rfl) fun _ => h.newNodeField fun a b hab => ?_
    refine h.bind ?_ fun _ => ?_
    · exact h.bind (h.read _ fun _ _ => rfl) fun _ => h.ite (h.keepField hab) he
    exact h.bind (h.consume _ _) fun _ => h.bind (h.semaAnalyzeReturn _ _) fun _ =>
      h.pure _
  refine h.bind (h.matchKind _) fun _ => h.ite (h.bind (h.consume _ _) fun _ => h.pure _) ?_
  refine h.bind (h.matchKind _) fun _ => h.ite (h.bind (h.consume _ _) fun _ => h.pure _) ?_
  refine h.bind (h.read _ fun _ _ => rfl) fun _ => h.ite hb ?_
  refine h.bind he fun expr => ?_
  cases expr with
  | none => exact h.pure _
  | some expr =>
      exact h.bind (h.parseStmtAssign he _) fun _ =>
        h.bind (h.consume _ _) fun _ => h.pure _

/-- Recovery at top level. -/
theorem synchronizeIfPanic {n n' : Nat} (hn : n ≤ n') :
    C (synchronizeIfPanic n) (synchronizeIfPanic n') :=
  h.recover hn (h.pure ()) (h.pure ())

/-- Both statement functions at once, by induction on the smaller budget. -/
theorem statements {n n' : Nat} (hn : n ≤ n') :
    C (parseBlock n) (parseBlock n') ∧ C (parseStmt n) (parseStmt n') := by
  induction n generalizing n' with
  | zero => exact ⟨h.timeout _, h.timeout _⟩
  | succ n ih =>
      obtain ⟨k, rfl⟩ : ∃ k, n' = k + 1 := ⟨n' - 1, by omega⟩
      have hnk : n ≤ k := by omega
      rcases ih hnk with ⟨hblock, hstmt⟩
      exact ⟨h.parseBlockBody (h.parseDecl hnk) hstmt hnk,
        h.parseStmtBody (h.parseExpr hnk) hstmt hblock⟩

/-- A block. -/
theorem parseBlock {n n' : Nat} (hn : n ≤ n') : C (parseBlock n) (parseBlock n') :=
  (h.statements hn).1

/-- A statement. -/
theorem parseStmt {n n' : Nat} (hn : n ≤ n') : C (parseStmt n) (parseStmt n') :=
  (h.statements hn).2

/-- An item of the body of a function. -/
theorem bodyStep {n n' : Nat} (hn : n ≤ n') (m : Msg) (stmts : List Node) :
    C (Parser.bodyIter (Parser.parseDecl n) (Parser.parseStmt n) m n stmts)
      (Parser.bodyIter (Parser.parseDecl n') (Parser.parseStmt n') m n' stmts) :=
  h.bodyIter (h.parseDecl hn) (h.parseStmt hn) hn _ _

/-- The body of a function. -/
theorem bodyLoop {n n' : Nat} (hn : n ≤ n') (m : Msg) (stmts : List Node) :
    C (loop (Parser.bodyIter (Parser.parseDecl n) (Parser.parseStmt n) m n) n stmts)
      (loop (Parser.bodyIter (Parser.parseDecl n') (Parser.parseStmt n') m n') n' stmts) :=
  h.loop (h.bodyStep hn _) hn _

end Body

/-! ## Function types -/

/-- A congruence that parameter lists and the operations on function types satisfy. -/
structure Signature (C : ∀ {α : Type}, Parse α → Parse α → Prop) : Prop extends Base C where
  typeFuncNew : ∀ ret : ObjTy, C (typeFuncNew ret) (typeFuncNew ret)
  pushParam : ∀ (id : Nat) (ty : Option ObjTy), C (pushParam id ty) (pushParam id ty)
  parseParams : ∀ {n n' : Nat}, n ≤ n' → ∀ id : Nat, C (parseParams n id) (parseParams n' id)

namespace Signature

variable {C : ∀ {α : Type}, Parse α → Parse α → Prop}

/-- A congruence of the primitive operations is one of the parameter lists made of
them. -/
theorem of_exprs (h : Exprs C)
    (hmark : C (Prog.mark (.enter .param)) (Prog.mark (.enter .param)))
    (htype : ∀ ret : ObjTy, C (Parser.typeFuncNew ret) (Parser.typeFuncNew ret))
    (hpush : ∀ (id : Nat) (ty : Option ObjTy),
      C (Parser.pushParam id ty) (Parser.pushParam id ty)) : Signature C :=
  { h with
    typeFuncNew := htype
    pushParam := hpush
    parseParams := fun hn id => h.parseParams hmark hpush hn id }

variable (h : Signature C)

include h

/-- The built-in functions. -/
theorem installBuiltins (intern : List UInt8 → Symbol)
    (bs : List (List Char × ObjTy × Option ObjTy)) :
    C (installBuiltins intern bs) (installBuiltins intern bs) := by
  induction bs with
  | nil => exact h.pure _
  | cons b bs ih =>
      rcases b with ⟨name, ret, arg1Ty⟩
      refine h.bind ?_ fun _ => ih
      refine h.bind (h.typeFuncNew _) fun _ => h.bind ?_ fun _ => ?_
      · cases arg1Ty with
        | none => exact h.pure _
        | some _ => exact h.pushParam _ _
      · exact h.bind (h.define _ _ _) fun _ => h.pure _

end Signature

/-! ## The whole parser -/

/-- A congruence that everything at top level satisfies as well. -/
structure Whole (C : ∀ {α : Type}, Parse α → Parse α → Prop)
    (F : Option Node → Option Node → Prop := Eq) : Prop extends Body C F, Signature C where
  topMark : ∀ {e : Event}, e.isTopMark = true → C (Prog.mark e) (Prog.mark e)
  semaScopeEnter : C Parser.semaScopeEnter Parser.semaScopeEnter
  semaScopeLeave : C Parser.semaScopeLeave Parser.semaScopeLeave
  setFuncRet : ∀ ret : Option ObjTy, C (setFuncRet ret) (setFuncRet ret)

namespace Whole

variable {C : ∀ {α : Type}, Parse α → Parse α → Prop} {F : Option Node → Option Node → Prop}
  (h : Whole C F)

include h

/-- A function behind its name. -/
theorem parseFunc {n n' : Nat} (hn : n ≤ n') (retTy : ObjTy) (name : Symbol) :
    C (parseFunc n retTy name) (parseFunc n' retTy name) := by
  refine h.bind (h.topMark rfl) fun _ => h.bind (h.consume _ _) fun _ => ?_
  refine h.bind (h.typeFuncNew _) fun _ => h.bind (h.define _ _ _) fun _ => ?_
  refine h.bind (h.setFuncRet _) fun _ => h.bind h.semaScopeEnter fun _ => ?_
  refine h.bind (h.parseParams hn _) fun _ => ?_
  refine h.bind (h.consume _ _) fun _ => h.bind (h.consume _ _) fun _ => ?_
  refine h.bind (h.bodyLoop hn _ _) fun _ => ?_
  refine h.bind (h.consume _ _) fun _ => h.bind h.semaScopeLeave fun _ => ?_
  exact h.bind (h.setFuncRet _) fun _ => h.pure _

/-- A declaration or a function. -/
theorem parseTopLevel {n n' : Nat} (hn : n ≤ n') :
    C (parseTopLevel n) (parseTopLevel n') := by
  refine h.bind (h.topMark rfl) fun _ => h.bind (h.matchKind _) fun _ => ?_
  refine h.bind (h.read _ fun _ _ => rfl) fun curr => ?_
  cases tokenToType curr.kind with
  | none =>
      refine h.ite ?_ (h.pure _)
      exact h.bind (h.parserError _) fun _ => h.bind h.advance fun _ => h.pure _
  | some ty =>
      refine h.bind h.advance fun _ => h.bind (h.read _ fun _ _ => rfl) fun _ => h.ite ?_ ?_
      · refine h.bind (h.consume _ _) fun _ => h.bind (h.read _ fun _ _ => rfl) fun _ => ?_
        exact h.bind (h.read _ fun _ _ => rfl) fun _ =>
          h.ite (h.parseFunc hn _ _) (h.parseVarDeclList hn _ _ _ _)
      · exact h.bind (h.parserError _) fun _ => h.pure _

/-- One round of the loop over the file, recovery included. -/
theorem topIter {n n' : Nat} (hn : n ≤ n') (globals : List Node) :
    C (topIter n globals) (topIter n' globals) := by
  refine h.bind (h.matchKind _) fun _ => h.ite (h.pure _) ?_
  refine h.bind (h.parseTopLevel hn) fun node => ?_
  cases node with
  | some node => exact h.pure _
  | none =>
      refine h.bind h.reportTopLevel fun _ => ?_
      refine h.bind (h.synchronizeIfPanic hn) fun _ => ?_
      exact h.bind h.skipIfStuck fun _ => h.pure _

/-- The whole parse behind the first token. -/
theorem parserParse (intern : List UInt8 → Symbol) {n n' : Nat} (hn : n ≤ n') :
    C (parserParse intern n) (parserParse intern n') := by
  refine h.bind h.semaScopeEnter fun _ => h.bind (h.installBuiltins _ _) fun _ => ?_
  refine h.bind (h.loop (h.topIter hn) hn _) fun _ => ?_
  exact h.bind h.semaScopeLeave fun _ => h.pure _

/-- The whole parse. -/
theorem parserProgram (intern : List UInt8 → Symbol) {n n' : Nat} (hn : n ≤ n') :
    C (parserProgram intern n) (parserProgram intern n') :=
  h.bind h.advance fun _ => h.parserParse intern hn

end Whole

/-- A congruence that the primitive operations of the whole parser satisfy. -/
structure Primitives (C : ∀ {α : Type}, Parse α → Parse α → Prop)
    (F : Option Node → Option Node → Prop := Eq) : Prop extends Exprs C where
  newNodeField : ∀ {α : Type} {k k' : Option Node → Parse α},
    (∀ a b, F a b → C (k a) (k' b)) →
    C (Parser.newNodeField >>= k) (Parser.newNodeField >>= k')
  keepField : ∀ {a b : Option Node}, F a b → C (keepField a) (keepField b)
  bodyMark : ∀ {e : Event}, e.isBodyMark = true → C (Prog.mark e) (Prog.mark e)
  recover : ∀ {α : Type} {n n' : Nat} {m m' k k' : Parse α}, n ≤ n' → C m m' → C k k' →
    C (do if ← Prog.read Parser.panicMode then synchronize n; m else k)
      (do if ← Prog.read Parser.panicMode then synchronize n'; m' else k')
  scope : ∀ {α β : Type} {m m' : Parse α} {k k' : α → Parse β}, C m m' →
    (∀ a, C (k a) (k' a)) →
    C (do semaScopeEnter; let a ← m; semaScopeLeave; k a)
      (do semaScopeEnter; let a ← m'; semaScopeLeave; k' a)
  paramMark : C (Prog.mark (.enter .param)) (Prog.mark (.enter .param))
  typeFuncNew : ∀ ret : ObjTy, C (typeFuncNew ret) (typeFuncNew ret)
  pushParam : ∀ (id : Nat) (ty : Option ObjTy), C (pushParam id ty) (pushParam id ty)
  topMark : ∀ {e : Event}, e.isTopMark = true → C (Prog.mark e) (Prog.mark e)
  semaScopeEnter : C Parser.semaScopeEnter Parser.semaScopeEnter
  semaScopeLeave : C Parser.semaScopeLeave Parser.semaScopeLeave
  setFuncRet : ∀ ret : Option ObjTy, C (setFuncRet ret) (setFuncRet ret)

/-- A congruence of the primitive operations is one of the whole parser. -/
theorem Primitives.whole {C : ∀ {α : Type}, Parse α → Parse α → Prop}
    {F : Option Node → Option Node → Prop} (h : Primitives C F) : Whole C F :=
  { Core.of_exprs h.toExprs h.newNodeField h.keepField,
    Signature.of_exprs h.toExprs h.paramMark h.typeFuncNew h.pushParam with
    bodyMark := h.bodyMark
    recover := h.recover
    scope := h.scope
    topMark := h.topMark
    semaScopeEnter := h.semaScopeEnter
    semaScopeLeave := h.semaScopeLeave
    setFuncRet := h.setFuncRet }

end Parser

end Cact

