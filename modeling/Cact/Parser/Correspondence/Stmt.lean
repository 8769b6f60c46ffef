import Cact.Parser.Correspondence.Expr

/-!
# Corresponding token streams - statements

The declaration and statement functions are in lockstep on corresponding states.

Main results:

- Theorem {lit}`Parser.same_parseVarDeclList`: declarations.
- Theorem {lit}`Parser.same_parseStmt`: statements.
-/

open Traced

namespace Cact

namespace Parser

variable {k : Likeness} {α β : Type} {R : α → β → Prop}

/-! ## Declarations -/

/-- Fresh memory holds corresponding nodes in the two parses. -/
theorem same_newNodeField : Same k k.Field newNodeField newNodeField := by
  refine Locked.bind (R := k.Field) ?_ fun field field' hfield => ?_
  · refine locked_read fun _ _ hp => ?_
    rw [hp.allocs]
    exact hp.fresh _
  · refine Locked.bind (R := Eq) ?_ fun _ _ _ => locked_pure hfield
    exact locked_step (fun _ _ => ⟨rfl, rfl⟩) fun _ _ hp =>
      { hp with allocs := congrArg (· + 1) hp.allocs }

/-- A field that is kept corresponds to the field that the other parse keeps. -/
theorem same_keepField {field field' : Option Node} (hfield : k.Field field field') :
    Same k k.Field (keepField field) (keepField field') :=
  (same_mark rfl rfl).bind fun _ _ _ => locked_pure hfield

/-- One dimension: the types are the same, whatever the names. -/
theorem same_dimsIter {base base' : Option ObjTy} (hbase : Known base base') :
    Same k (Iter.Alike Known Known) (dimsIter base) (dimsIter base') := by
  refine (same_matchKind _).branch ?_ (locked_pure (.leave hbase))
  refine same_match_prev (fun t t' ht hkind => ?_) (Same.error (same_parserError _))
  rw [ht.asInt hkind]
  refine (same_consume _ _).bind fun _ _ _ => ?_
  exact (same_typeArrayOf hbase _).bind fun ty ty' hty => locked_pure (.again hty)

/-- All dimensions. -/
theorem same_parseArrayDims (n : Nat) {base base' : Option ObjTy} (hbase : Known base base') :
    Same k Known (parseArrayDims n base) (parseArrayDims n base') :=
  (same_mark rfl rfl).bind fun _ _ _ => Locked.loop (fun _ _ h => same_dimsIter h) n hbase

/-- An element of a brace list. -/
theorem same_parseElement {l l' a a' : Parse (Option Node)} (hl : Same k k.Field l l')
    (ha : Same k k.Field a a') : Same k k.Field (parseElement l a) (parseElement l' a') :=
  (same_checkKind _).branch hl ha

/-- All elements, from lists and expressions that correspond. -/
theorem same_parseElements {l l' a a' : Parse (Option Node)} (hl : Same k k.Field l l')
    (ha : Same k k.Field a a') (n : Nat) :
    Same k k.Fields (parseElements l a n) (parseElements l' a' n) :=
  (same_checkKind _).branch (locked_pure rfl)
    (Locked.loop (J := k.Fields)
      (fun _ _ hinits => same_commaIter (same_parseElement hl ha) hinits) n rfl)

/-- A brace list, by induction on the budget. -/
theorem same_parseInitializerList (n : Nat) :
    Same k k.Field (parseInitializerList n) (parseInitializerList n) := by
  induction n with
  | zero => exact locked_timeout
  | succ n ih =>
      refine (same_mark rfl rfl).bind fun _ _ _ => (same_consume _ _).bind fun _ _ _ => ?_
      refine (same_parseElements ih ((same_parseAssign n).mono fun _ _ h => h.field) n).bind
        fun inits inits' hinits => ?_
      refine (same_consume _ _).bind fun _ _ _ => locked_pure ?_
      rw [hinits]
      simp [Likeness.Field, Node.rename]

/-- The check of an initializer sees the types only. -/
theorem same_checkInit (ty : Option ObjTy) {tok tok' : Token} (htok : k.Tok tok tok')
    {init init' : Option Node} (hinit : k.Field init init') :
    Same k Eq (checkInit ty tok init) (checkInit ty tok' init') := by
  subst hinit
  cases init with
  | none => exact locked_pure rfl
  | some e =>
      unfold checkInit
      simp only [Option.map_some, Node.ty_rename]
      exact (same_typeEq _ e.ty).branch (same_ctxError htok _) (locked_pure rfl)

/-- An initializer, or the field that stays unwritten. -/
theorem same_parseInit (n : Nat) (ty : Option ObjTy) (isConst : Bool) {tok tok' : Token}
    (htok : k.Tok tok tok') {field field' : Option Node} (hfield : k.Field field field') :
    Same k k.Field (parseInit (parseInitializerList n) (parseExpr n) ty isConst tok field)
      (parseInit (parseInitializerList n) (parseExpr n) ty isConst tok' field') := by
  refine (same_matchKind _).branch ?_ ?_
  · refine (same_checkKind _).branch (same_parseInitializerList n) ?_
    refine (same_parseExpr n).bind fun init init' hinit => ?_
    exact (same_checkInit ty htok hinit.field).bind fun _ _ _ => locked_pure hinit.field
  · refine Locked.ite Iff.rfl (Same.error (same_parserError _)) (same_keepField hfield)

/-- A declarator behind its name; the two parses define symbols under corresponding names. -/
theorem same_parseDeclarator (n : Nat) (baseTy : ObjTy) (isConst : Bool) (name : Symbol) :
    Same k k.One
      (parseDeclarator (parseInitializerList n) (parseExpr n) n baseTy isConst name)
      (parseDeclarator (parseInitializerList n) (parseExpr n) n baseTy isConst
        (k.name name)) := by
  refine (same_parseArrayDims n ⟨baseTy, rfl, rfl⟩).bind ?_
  rintro _ _ ⟨ty, rfl, rfl⟩
  refine (locked_semaDefineVar stable_state name _ isConst).bind fun sym sym' hsym => ?_
  refine same_newNode.bind fun tok tok' htok => same_newNodeField.bind fun _ _ hfield => ?_
  refine (same_parseInit n _ isConst htok hfield).bind fun init init' hinit => locked_pure ?_
  rw [hsym, hinit]
  simp [Likeness.One, Node.rename]

/-- The first name was read by the caller; the others are read here. -/
theorem same_parseDeclaratorName {first first' : Option Symbol} (hfirst : k.Name first first') :
    Same k k.Name (parseDeclaratorName first) (parseDeclaratorName first') := by
  subst hfirst
  cases first with
  | some name => exact locked_pure rfl
  | none =>
      refine same_match_prev (fun t t' ht hkind => ?_) (Same.error (same_parserError _))
      exact locked_pure (by simp [Likeness.Name, ht.name hkind])

/-- A declarator and the comma behind it. -/
theorem same_declaratorIter (n : Nat) (baseTy : ObjTy) (isConst : Bool)
    {st st' : Option Symbol × List Node} (hst : k.Name st.1 st'.1 ∧ k.Nodes st.2 st'.2) :
    Same k (Iter.Alike (fun st st' => k.Name st.1 st'.1 ∧ k.Nodes st.2 st'.2) k.Nodes)
      (declaratorIter (parseInitializerList n) (parseExpr n) n baseTy isConst st)
      (declaratorIter (parseInitializerList n) (parseExpr n) n baseTy isConst st') := by
  obtain ⟨hname, hstmts⟩ := hst
  refine (same_parseDeclaratorName hname).bind fun name name' hname' => ?_
  subst hname'
  cases name with
  | none => exact locked_pure (.leave hstmts)
  | some name =>
      refine (same_parseDeclarator n baseTy isConst name).bind fun decl decl' hdecl => ?_
      have happend : k.Nodes (st.2 ++ [decl]) (st'.2 ++ [decl']) := by
        rw [hstmts, hdecl]
        simp [Likeness.Nodes]
      exact (same_matchKind _).branch (locked_pure (.again ⟨rfl, happend⟩))
        (locked_pure (.leave happend))

/-- The declarators of a declaration. -/
theorem same_parseVarDeclList (n : Nat) (baseTy : ObjTy) (name : Symbol)
    (isConst isGlobal : Bool) :
    Same k k.Field (parseVarDeclList n baseTy name isConst isGlobal)
      (parseVarDeclList n baseTy (k.name name) isConst isGlobal) := by
  refine (same_mark rfl rfl).bind fun _ _ _ => ?_
  refine Locked.bind (R := k.Nodes) ?_ fun stmts stmts' hstmts => ?_
  · exact Locked.loop (fun _ _ hst => same_declaratorIter n baseTy isConst hst) n ⟨rfl, rfl⟩
  · refine (same_consume _ _).bind fun _ _ _ => locked_pure ?_
    rw [hstmts]
    simp [Likeness.Field, Node.rename]

/-- The two parses see tokens of one kind. -/
theorem same_currKind :
    Same k Eq (Prog.read fun p : Parser => p.curr.kind) (Prog.read fun p : Parser => p.curr.kind) :=
  locked_read fun _ _ hp => hp.curr.kind.symm

/-- The two parses see corresponding tokens. -/
theorem same_curr : Same k k.Tok (Prog.read Parser.curr) (Prog.read Parser.curr) :=
  locked_read fun _ _ hp => hp.curr

/-- A declaration inside a function. -/
theorem same_parseDecl (n : Nat) : Same k k.Field (parseDecl n) (parseDecl n) := by
  refine (same_mark rfl rfl).bind fun _ _ _ => (same_matchKind _).bind ?_
  rintro isConst _ rfl
  refine same_curr.bind fun curr curr' hcurr => ?_
  rw [hcurr.kind]
  cases tokenToType curr.kind with
  | none => exact Same.error (same_parserError _)
  | some baseTy =>
      refine same_advance.bind fun _ _ _ => ?_
      refine same_match_prev (fun t t' ht hkind => ?_) (Same.error (same_parserError _))
      rw [ht.name hkind]
      exact same_parseVarDeclList n baseTy _ isConst false

/-! ## Statements -/

/-- The analysis of a return statement sees the types only. -/
theorem same_semaAnalyzeReturn {tok tok' : Token} (htok : k.Tok tok tok')
    {lhs lhs' : Option Node} (hlhs : k.Field lhs lhs') :
    Same k k.One (semaAnalyzeReturn tok lhs) (semaAnalyzeReturn tok' lhs') := by
  subst hlhs
  refine (same_mark rfl rfl).bind fun _ _ _ => ?_
  refine Locked.bind (R := Eq) (locked_read fun _ _ hp => by rw [hp.sema]; rfl) ?_
  rintro ret _ rfl
  have hactual : actualTy (lhs.map (Node.rename k.name)) = actualTy lhs := by
    cases lhs <;> simp [actualTy]
  have hnode : k.One (.retStmt tyVoid lhs) (.retStmt tyVoid (lhs.map (Node.rename k.name))) := by
    simp [Likeness.One, Node.rename]
  rw [hactual]
  refine Locked.ite Iff.rfl ?_ ?_
  · exact Locked.ite Iff.rfl (Same.error (same_ctxError htok _)) (locked_pure hnode)
  · refine Locked.ite Iff.rfl (Same.error (same_ctxError htok _)) ?_
    exact (same_typeEq _ _).branch (Same.error (same_ctxError htok _)) (locked_pure hnode)

/-- A body ends in both parses or in neither. -/
theorem same_bodyEnds : Same k Eq bodyEnds bodyEnds :=
  locked_read fun _ _ hp => by rw [hp.curr.kind]

/-- There is nothing to recover from before the first error. -/
theorem same_recoverInBody (n : Nat) : Same k Eq (recoverInBody n) (recoverInBody n) := by
  intro p p' hp
  unfold recoverInBody
  rw [Prog.run_read_bind, Prog.run_read_bind, hp.calm, hp.calm']
  exact lockstep_pure ⟨rfl, hp⟩

/-- A node is added to both lists or to neither. -/
theorem same_pushNonNull {stmts stmts' : List Node} (hstmts : k.Nodes stmts stmts')
    {node node' : Option Node} (hnode : k.Field node node') :
    k.Nodes (pushNonNull stmts node) (pushNonNull stmts' node') := by
  subst hnode
  cases node with
  | none => exact hstmts
  | some node =>
      rw [hstmts]
      simp [Likeness.Nodes, pushNonNull]

/-- A declaration or a statement of a body. -/
theorem same_bodyItem {d d' s s' : Parse (Option Node)} (hd : Same k k.Field d d')
    (hs : Same k k.Field s s') (unexpected : Msg) {stmts stmts' : List Node}
    (hstmts : k.Nodes stmts stmts') :
    Same k (Iter.Alike k.Nodes k.Nodes) (bodyItem d s unexpected stmts)
      (bodyItem d' s' unexpected stmts') := by
  refine same_currKind.bind ?_
  rintro kind _ rfl
  refine Locked.ite Iff.rfl (Same.error (same_parserError _)) (Locked.ite Iff.rfl ?_ ?_)
  · exact hd.bind fun _ _ hnode => locked_pure (.again (same_pushNonNull hstmts hnode))
  · exact hs.bind fun _ _ hnode => locked_pure (.again (same_pushNonNull hstmts hnode))

/-- The loop over a body; there is no recovery before the first error. -/
theorem same_body {d d' s s' : Parse (Option Node)} (hd : Same k k.Field d d')
    (hs : Same k k.Field s s') (unexpected : Msg) (n : Nat) :
    Same k k.Nodes (loop (bodyIter d s unexpected n) n [])
      (loop (bodyIter d' s' unexpected n) n []) := by
  refine Locked.loop (J := k.Nodes) (fun stmts stmts' hstmts => ?_) n rfl
  refine same_bodyEnds.branch (locked_pure (.leave hstmts)) ?_
  exact (same_recoverInBody n).branch (locked_pure (.leave hstmts))
    (same_bodyItem hd hs unexpected hstmts)

/-- A block, from declarations and statements that correspond. -/
theorem same_parseBlockBody {d d' s s' : Parse (Option Node)} (hd : Same k k.Field d d')
    (hs : Same k k.Field s s') (n : Nat) :
    Same k k.Field (parseBlockBody d s n) (parseBlockBody d' s' n) := by
  refine (same_mark rfl rfl).bind fun _ _ _ => (same_consume _ _).bind fun _ _ _ => ?_
  refine (locked_semaScopeEnter stable_state).bind fun _ _ _ => ?_
  refine (same_body hd hs _ n).bind fun stmts stmts' hstmts => ?_
  refine (locked_semaScopeLeave stable_state).bind fun _ _ _ => ?_
  refine (same_consume _ _).bind fun _ _ _ => ?_
  refine locked_pure ?_
  rw [hstmts]
  simp [Likeness.Field, Node.rename]

section

variable {e e' s s' b b' : Parse (Option Node)} (he : Same k k.Expr e e')
  (hs : Same k k.Field s s')

include hs in
/-- An {lit}`else` branch, or the field that stays unwritten. -/
theorem same_parseElse {field field' : Option Node} (hfield : k.Field field field') :
    Same k k.Field (parseElse s field) (parseElse s' field') :=
  (same_matchKind _).branch hs (same_keepField hfield)

include he

include hs in
/-- An {lit}`if` statement behind its keyword. -/
theorem same_parseIf : Same k k.Field (parseIf e s) (parseIf e' s') := by
  refine same_newNodeField.bind fun field field' hfield => (same_consume _ _).bind fun _ _ _ => ?_
  refine he.bind fun cond cond' hcond => (same_consume _ _).bind fun _ _ _ => ?_
  refine hs.bind fun thenBranch thenBranch' hthen => ?_
  refine (same_parseElse hs hfield).bind fun elseBranch elseBranch' helse => locked_pure ?_
  rw [hcond.field, hthen, helse]
  simp [Likeness.Field, Node.rename]

include hs in
/-- A {lit}`while` statement behind its keyword. -/
theorem same_parseWhile : Same k k.Field (parseWhile e s) (parseWhile e' s') := by
  refine (same_consume _ _).bind fun _ _ _ => he.bind fun cond cond' hcond => ?_
  refine (same_consume _ _).bind fun _ _ _ => hs.bind fun body body' hbody => locked_pure ?_
  rw [hcond.field, hbody]
  simp [Likeness.Field, Node.rename]

/-- A {lit}`return` statement behind its keyword. -/
theorem same_parseReturn : Same k k.Field (parseReturn e) (parseReturn e') := by
  refine same_newNode.bind fun tok tok' htok => same_newNodeField.bind fun _ _ hfield => ?_
  refine Locked.bind (R := k.Field) ?_ fun lhs lhs' hlhs => ?_
  · exact (same_checkKind _).branch (same_keepField hfield) (he.mono fun _ _ h => h.field)
  · refine (same_consume _ _).bind fun _ _ _ => ?_
    refine (same_semaAnalyzeReturn htok hlhs).bind fun node node' hnode => locked_pure ?_
    rw [hnode]
    rfl

/-- The assignment that a statement may turn out to be. -/
theorem same_parseStmtAssign {expr expr' : Node} (hexpr : k.One expr expr') :
    Same k k.One (parseStmtAssign e expr) (parseStmtAssign e' expr') := by
  refine (same_matchKind _).branch ?_ (locked_pure hexpr)
  refine he.bind fun rhs rhs' hrhs => ?_
  obtain ⟨rhs, rfl, rfl⟩ := hrhs
  refine same_newNode.bind fun tok tok' htok => ?_
  exact same_semaAnalyzeAssign htok ⟨expr, rfl, by rw [hexpr]⟩ ⟨rhs, rfl, rfl⟩

/-- A statement that begins with an expression. -/
theorem same_parseExprStmt : Same k k.Field (parseExprStmt e) (parseExprStmt e') := by
  refine he.bind fun expr expr' hexpr => ?_
  obtain ⟨expr, rfl, rfl⟩ := hexpr
  refine (same_parseStmtAssign he rfl).bind fun lhs lhs' hlhs => ?_
  refine (same_consume _ _).bind fun _ _ _ => locked_pure ?_
  rw [hlhs]
  simp [Likeness.Field, Node.rename]

include hs in
/-- A statement, chosen by its first token in both parses. -/
theorem same_parseStmtBody (hb : Same k k.Field b b') :
    Same k k.Field (parseStmtBody e s b) (parseStmtBody e' s' b') := by
  refine (same_mark rfl rfl).bind fun _ _ _ => ?_
  refine (same_matchKind _).branch (same_parseIf he hs) ?_
  refine (same_matchKind _).branch (same_parseWhile he hs) ?_
  refine (same_matchKind _).branch (same_parseReturn he) ?_
  have hjump (n : Node) (hn : k.Field (some n) (some n)) : Same k k.Field
      (do consume .semicolon .expectSemicolon; return some n)
      (do consume .semicolon .expectSemicolon; return some n) :=
    (same_consume _ _).bind fun _ _ _ => locked_pure hn
  refine (same_matchKind _).branch (hjump _ ?_) ?_
  · simp [Likeness.Field, Node.rename]
  refine (same_matchKind _).branch (hjump _ ?_) ?_
  · simp [Likeness.Field, Node.rename]
  exact (same_checkKind _).branch hb (same_parseExprStmt he)

end

/-- Blocks and statements at once, by induction on the budget. -/
theorem same_statements (n : Nat) : Same k k.Field (parseBlock n) (parseBlock n) ∧
    Same k k.Field (parseStmt n) (parseStmt n) := by
  induction n with
  | zero => exact ⟨locked_timeout, locked_timeout⟩
  | succ n ih =>
      exact ⟨same_parseBlockBody (same_parseDecl n) ih.2 n,
        same_parseStmtBody (same_parseExpr n) ih.2 ih.1⟩

/-- A statement, by induction on the budget. -/
theorem same_parseStmt (n : Nat) : Same k k.Field (parseStmt n) (parseStmt n) :=
  (same_statements n).2

end Parser

end Cact
