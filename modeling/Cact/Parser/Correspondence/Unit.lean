import Cact.Parser.Correspondence.Stmt

/-!
# Corresponding token streams - compilation units

Parses of corresponding token streams are in lockstep.  In front of the first token the
previous token is what the memory held, and the parser does not look at it before an error.

Main results:

- Definition {lit}`Begins`: lockstep in front of the first token.
- Theorem {lit}`Parser.lockstep_parserProgram`: the whole parse.
-/

open Traced

namespace Cact

namespace Parser

variable {k : Likeness} {α β : Type} {R : α → β → Prop}

/-! ## Functions -/

/-- The length of a parameter's first dimension is read alike. -/
theorem same_parseParamLen {argTy argTy' : Option ObjTy} (hty : Known argTy argTy') :
    Same k Known (parseParamLen argTy) (parseParamLen argTy') := by
  refine (same_matchKind _).branch (same_typeArrayOf hty 0) ?_
  refine same_match_prev (fun t t' ht hkind => ?_) (Same.error (same_parserError _))
  rw [ht.asInt hkind]
  exact (same_consume _ _).bind fun _ _ _ => same_typeArrayOf hty _

/-- So are all its brackets. -/
theorem same_parseParamSuffix (n : Nat) {argTy argTy' : Option ObjTy}
    (hty : Known argTy argTy') :
    Same k Known (parseParamSuffix n argTy) (parseParamSuffix n argTy') :=
  (same_matchKind _).branch
    ((same_parseParamLen hty).bind fun _ _ hty => same_parseArrayDims n hty) (locked_pure hty)

/-- One parameter of corresponding inputs. -/
theorem same_paramIter (n funcTy : Nat) (u : Unit) :
    Same k (Iter.Alike Eq Eq) (paramIter n funcTy u) (paramIter n funcTy u) := by
  refine (same_mark rfl rfl).bind fun _ _ _ => same_curr.bind fun curr curr' hcurr => ?_
  rw [hcurr.kind]
  cases tokenToType curr.kind with
  | none => exact Same.error (same_parserError _)
  | some ty =>
      refine same_advance.bind fun _ _ _ => same_consume_prev fun t t' ht hkind => ?_
      rw [ht.name hkind]
      refine (same_parseParamSuffix n ⟨ty, rfl, rfl⟩).bind ?_
      rintro _ _ ⟨argTy, rfl, rfl⟩
      refine (locked_semaDefineVar stable_state _ _ _).bind fun _ _ _ => ?_
      refine (locked_pushParam stable_state _ _).bind fun _ _ _ => ?_
      exact (same_matchKind _).branch (locked_pure (.again rfl)) (locked_pure (.leave rfl))

/-- The parameter lists of corresponding inputs have the same types. -/
theorem same_parseParams (n funcTy : Nat) :
    Same k Eq (parseParams n funcTy) (parseParams n funcTy) :=
  (same_checkKind _).branch (locked_pure rfl)
    (Locked.loop (J := Eq) (fun u _ _ => same_paramIter n funcTy u) n rfl)

/-- Functions of corresponding inputs correspond. -/
theorem same_parseFunc (n : Nat) (retTy : ObjTy) (name : Symbol) :
    Same k k.Field (parseFunc n retTy name) (parseFunc n retTy (k.name name)) := by
  refine (same_mark rfl rfl).bind fun _ _ _ => (same_consume _ _).bind fun _ _ _ => ?_
  refine (locked_typeFuncNew stable_state retTy).bind ?_
  rintro funcTy _ rfl
  refine (locked_semaDefineVar stable_state name _ _).bind fun _ _ _ => ?_
  refine (locked_setFuncRet stable_state _).bind fun _ _ _ => ?_
  refine (locked_semaScopeEnter stable_state).bind fun _ _ _ => ?_
  refine (same_parseParams n funcTy).bind fun _ _ _ => ?_
  refine (same_consume _ _).bind fun _ _ _ => (same_consume _ _).bind fun _ _ _ => ?_
  refine (same_body (same_parseDecl n) (same_parseStmt n) _ n).bind fun stmts stmts' hstmts => ?_
  refine (same_consume _ _).bind fun _ _ _ => ?_
  refine (locked_semaScopeLeave stable_state).bind fun _ _ _ => ?_
  refine (locked_setFuncRet stable_state _).bind fun _ _ _ => locked_pure ?_
  rw [hstmts]
  simp [Likeness.Field, Node.rename]

/-! ## The compilation unit -/

/-- Programs in lockstep on states whose previous tokens need not correspond.  The first
token of a file follows on what the memory held. -/
abbrev Begins (k : Likeness) {α β : Type} (R : α → β → Prop) (m : Parse α) (m' : Parse β) :
    Prop :=
  Locked k.comparison k.Facing R m m'

/-- A read token takes the states to corresponding ones. -/
theorem begins_advance {f : Unit → Parse α} {f' : Unit → Parse β}
    (hf : Same k R (f ()) (f' ())) : Begins k R (advance >>= f) (advance >>= f') := by
  intro p p' hp
  refine (lockstep_took hp).bind fun _ q _ q' hq => ?_
  exact (hf q q' hq.1).mono fun _ _ _ _ h => ⟨h.1, h.2.toFacing⟩

/-- Whether the next token has a kind is answered alike as far as the inputs agree. -/
theorem begins_matchKind (kind : TokenKind) : Begins k Eq (matchKind kind) (matchKind kind) := by
  refine Locked.branch (locked_read fun _ _ hp => ?_) ?_ (locked_pure rfl)
  · rw [hp.curr.kind]
  · exact begins_advance (locked_pure rfl)

/-- A report ends what two runs have in common; nothing is asked of what follows. -/
theorem begins_parserError {R : Unit → Unit → Prop} (m : Msg) :
    Begins k R (parserError m) (parserError m) := by
  refine Locked.bind (R := k.Tok) (locked_read fun _ _ hp => hp.curr) fun tok tok' htok => ?_
  intro p p' hp
  refine lockstep_report rfl rfl rfl ?_ ?_ (Or.inr ⟨_, _, rfl, rfl, htok.span⟩)
  · simp [errorAt, hp.calm, hp.ctx]
  · simp [errorAt, hp.calm', hp.ctx']

/-- So what comes behind a report may differ. -/
theorem begins_error {m : Msg} {f : Unit → Parse α} {f' : Unit → Parse β} :
    Begins k R (parserError m >>= f) (parserError m >>= f') :=
  Locked.bind (R := fun _ _ => False) (begins_parserError m) fun _ _ hfalse => hfalse.elim

/-- Two top-level parses of inputs with a common beginning. -/
theorem begins_parseTopLevel (n : Nat) : Begins k k.Field (parseTopLevel n) (parseTopLevel n) := by
  refine Locked.bind (R := Eq) ?_ fun _ _ _ => (begins_matchKind _).bind ?_
  · exact locked_step (fun _ _ => ⟨rfl, rfl⟩) fun _ _ hp => hp
  rintro isConst _ rfl
  refine Locked.bind (R := k.Tok) (locked_read fun _ _ hp => hp.curr) fun curr curr' hcurr => ?_
  rw [hcurr.kind]
  cases tokenToType curr.kind with
  | none => exact Locked.ite Iff.rfl begins_error (locked_pure rfl)
  | some ty =>
      refine begins_advance ((same_checkKind _).branch ?_ (Same.error (same_parserError _)))
      refine same_consume_prev fun t t' ht hkind => ?_
      rw [ht.name hkind]
      exact (same_checkKind _).branch (same_parseFunc n ty _)
        (same_parseVarDeclList n ty _ isConst true)

/-- Where there was no error yet, no item is the first one. -/
theorem begins_reportTopLevel {R : Unit → Unit → Prop} :
    Begins k R reportTopLevel reportTopLevel := by
  intro p p' hp
  unfold reportTopLevel
  rw [Prog.run_read_bind, Prog.run_read_bind, hp.calm, hp.calm', hp.ctx, hp.ctx']
  exact begins_parserError _ p p' hp

/-- One pass of the loop of {lit}`parser_parse` on such inputs. -/
theorem begins_topIter (n : Nat) {globals globals' : List Node}
    (hglobals : k.Nodes globals globals') :
    Begins k (Iter.Alike k.Nodes k.Nodes) (topIter n globals) (topIter n globals') := by
  refine (begins_matchKind _).branch (locked_pure (.leave hglobals)) ?_
  refine (begins_parseTopLevel n).bind fun node node' hnode => ?_
  subst hnode
  cases node with
  | none =>
      exact Locked.bind (R := fun _ _ => False) begins_reportTopLevel fun _ _ h => h.elim
  | some node =>
      refine locked_pure (.again ?_)
      rw [hglobals]
      simp [Likeness.Nodes]

section

variable {intern intern' : List UInt8 → Symbol}

/-- The library functions are declared under corresponding names. -/
theorem begins_installBuiltins {bs : List (List Char × ObjTy × Option ObjTy)}
    (hintern : ∀ b ∈ bs, intern' (b.1.map byte) = k.name (intern (b.1.map byte))) :
    Begins k Eq (installBuiltins intern bs) (installBuiltins intern' bs) := by
  induction bs with
  | nil => exact locked_pure rfl
  | cons b bs ih =>
      obtain ⟨name, ret, arg1Ty⟩ := b
      obtain ⟨hname, hnames⟩ := List.forall_mem_cons.mp hintern
      refine Locked.bind (R := Eq) ?_ fun _ _ _ => ih hnames
      refine (locked_typeFuncNew stable_facing ret).bind ?_
      rintro funcTy _ rfl
      refine Locked.bind (R := Eq) ?_ fun _ _ _ => ?_
      · cases arg1Ty with
        | none => exact locked_pure rfl
        | some ty => exact locked_pushParam stable_facing funcTy _
      · rw [hname]
        exact (locked_semaDefineVar stable_facing _ _ _).bind fun _ _ _ => locked_pure rfl

variable (hintern : ∀ b ∈ builtins, intern' (b.1.map byte) = k.name (intern (b.1.map byte)))

include hintern

/-- Two whole parses agree as far as their inputs do. -/
theorem begins_parserParse (n : Nat) :
    Begins k k.Nodes (parserParse intern n) (parserParse intern' n) := by
  refine (locked_semaScopeEnter stable_facing).bind fun _ _ _ => ?_
  refine (begins_installBuiltins hintern).bind fun _ _ _ => ?_
  refine Locked.bind (R := k.Nodes) ?_ fun globals globals' hglobals => ?_
  · exact Locked.loop (fun _ _ h => begins_topIter n h) n rfl
  · exact (locked_semaScopeLeave stable_facing).bind fun _ _ _ => locked_pure hglobals

/-- Parses of corresponding token streams are in lockstep. -/
theorem lockstep_parserProgram (n : Nat) {mem mem' : Memory} {ts ts' : TokenStream}
    (hmem : ∀ i, mem'.field i = (mem.field i).map (Node.rename k.name))
    (hts : k.Toks ts.endSpan ts'.endSpan ts.tokens ts'.tokens) :
    ((parserProgram intern n).run (start mem Context.init ts)).Lockstep k.comparison
      (fun globals p globals' p' => k.Nodes globals globals' ∧ k.Facing p p')
      ((parserProgram intern' n).run (start mem' Context.init ts')) := by
  have hstart : k.Base (start mem Context.init ts) (start mem' Context.init ts') :=
    ⟨hts, rfl, rfl, rfl, rfl, rfl, by simp [Sema.Typed, start, Sema.init], hmem, rfl⟩
  exact (lockstep_advance hstart).bind fun _ q _ q' hq => begins_parserParse hintern n q q' hq.1

end

end Parser

end Cact
