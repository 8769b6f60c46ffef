import Cact.Library.Observation
import Cact.Parser.Language

/-!
# What the parser takes from fresh memory

{lit}`new_node` leaves the fields of a node as the arena hands them out, and the parser
writes the initializer of a declarator, the {lit}`else` branch of an {lit}`if` and the
value of a {lit}`return` only if the source has them.

Main results:

- Theorem {lit}`Parser.whole_mirrors`: a parse that leaves no such field unwritten does
  not depend on the contents of fresh memory.
- Theorem {lit}`Parser.leaves_parserProgram`: a parse that leaves one unwritten returns
  trees in which the contents of fresh memory stand.
- Theorem {lit}`outcome_of_source_iff`: which outcomes depend on the source alone.
-/

open Traced

namespace Cact

namespace Event

/-- A field stays unwritten. -/
def isKept (e : Event) : Prop := e = .keepField

instance : DecidablePred isKept := fun e => inferInstanceAs (Decidable (e = .keepField))

end Event

namespace Parser

/-! ## Parses that write every field -/

section Mirrors

variable (fresh : Nat → Option Node)

/-- {lit}`advance` does not look at fresh memory. -/
theorem mirrors_advance : Mirrors (withFresh fresh) Event.isKept advance advance := by
  have hC := mirrors_sequencing (ι := withFresh fresh) (P := Event.isKept)
  refine hC.bind (mirrors_step fun _ => rfl) fun _ => ?_
  refine hC.bind (mirrors_read fun _ => rfl) fun ts => ?_
  induction ts with
  | nil => exact mirrors_step fun _ => rfl
  | cons t ts ih =>
      rw [advanceLoop]
      refine hC.ite ?_ (mirrors_step fun _ => rfl)
      exact hC.bind (mirrors_step fun _ => rfl) fun _ => ih

/-- Only what follows an unwritten field depends on the contents of fresh memory. -/
theorem whole_mirrors : Whole (fun {_} m m' => Mirrors (withFresh fresh) Event.isKept m m')
    fun _ _ => True := by
  have hC := mirrors_sequencing (ι := withFresh fresh) (P := Event.isKept)
  have hread : Reading withFresh fun {_} m m' =>
      Mirrors (withFresh fresh) Event.isKept m m' :=
    { hC with read := fun f hf => mirrors_read (hf fresh) }
  have hstep {l : Event} {f : Parser → Parser}
      (hf : ∀ p, f (withFresh fresh p) = withFresh fresh (f p)) :
      Mirrors (withFresh fresh) Event.isKept (Prog.step l f) (Prog.step l f) :=
    mirrors_step hf
  have hadvance := mirrors_advance fresh
  exact Primitives.whole
    { hread with
      fault := mirrors_fault
      advance := hadvance
      exprMark := fun _ => hstep fun _ => rfl
      bodyMark := fun _ => hstep fun _ => rfl
      paramMark := hstep fun _ => rfl
      topMark := fun _ => hstep fun _ => rfl
      parserErrorAt := fun tok m => hstep fun p => by
        unfold errorAt
        split <;> simp_all [withFresh]
      ctxError := fun _ _ => hstep fun _ => rfl
      newNodeField := by
        intro α k k' hk p havoids hend
        exact (hC.bind (m := Prog.step .freshField fun p => { p with allocs := p.allocs + 1 })
          (hstep fun _ => rfl) fun _ => hk _ _ trivial) p havoids hend
      keepField := fun _ => mirrors_mark_bind (l := .keepField) (P := Event.isKept) rfl
      define := fun _ _ _ => congr_semaDefineVar hread (fun _ _ => hstep fun _ => rfl)
        (hstep fun _ => rfl)
      recover := fun {_ n n' m m' k k'} hn => congr_recover hread n n' m m' k k'
        (congr_synchronize hread n n' hn (hstep fun _ => rfl) (fun _ => hstep fun _ => rfl)
          hadvance)
      scope := fun {_ _ m m' k k'} => congr_scope hread m m' k k' (hstep fun _ => rfl)
        (hstep fun _ => rfl)
      semaScopeEnter := hstep fun _ => rfl
      semaScopeLeave := hstep fun _ => rfl
      setFuncRet := fun _ => hstep fun _ => rfl
      typeFuncNew := fun _ => congr_typeFuncNew hread (hstep fun _ => rfl)
      pushParam := fun _ _ => hstep fun _ => rfl }

end Mirrors

/-! ## Parses that leave a field unwritten -/

/-- {lit}`x` is the second node, or stands inside it. -/
inductive StandsIn (x : Node) : Node → Prop where
  | self : StandsIn x x
  | init {ty : Option Ty} {sym : Option SemaSymbol} {nd : Node} :
      StandsIn x nd → StandsIn x (.varDecl ty sym (some nd))
  | thenBranch {ty : Option Ty} {c e : Option Node} {nd : Node} :
      StandsIn x nd → StandsIn x (.ifStmt ty c (some nd) e)
  | elseBranch {ty : Option Ty} {c t : Option Node} {nd : Node} :
      StandsIn x nd → StandsIn x (.ifStmt ty c t (some nd))
  | body {ty : Option Ty} {c : Option Node} {nd : Node} :
      StandsIn x nd → StandsIn x (.whileStmt ty c (some nd))
  | value {ty : Option Ty} {nd : Node} : StandsIn x nd → StandsIn x (.retStmt ty (some nd))
  | stmt {ty : Option Ty} {stmts : List Node} {nd : Node} :
      nd ∈ stmts → StandsIn x nd → StandsIn x (.block ty stmts)

/-- A node is no larger than one it stands in. -/
theorem StandsIn.size {x nd : Node} (h : StandsIn x nd) : sizeOf x ≤ sizeOf nd := by
  induction h with
  | self => exact Nat.le_refl _
  | stmt hmem _ ih =>
      have := List.sizeOf_lt_of_mem hmem
      simp only [Node.block.sizeOf_spec]
      omega
  | _ =>
      simp only [Node.varDecl.sizeOf_spec, Node.ifStmt.sizeOf_spec, Node.whileStmt.sizeOf_spec,
        Node.retStmt.sizeOf_spec, Option.some.sizeOf_spec]
      omega

/-- {lit}`x` stands in a node that may be null. -/
def HeldBy (x : Node) (nd : Option Node) : Prop := ∃ n, nd = some n ∧ StandsIn x n

/-- {lit}`x` stands in one of several nodes. -/
def HeldIn (x : Node) (stmts : List Node) : Prop := ∃ n ∈ stmts, StandsIn x n

/-- A node stands in a list to which one that holds it is added. -/
theorem heldIn_append {x nd : Node} {stmts : List Node} (h : HeldIn x stmts ∨ StandsIn x nd) :
    HeldIn x (stmts ++ [nd]) := by
  rcases h with ⟨n, hn, hx⟩ | hx
  · exact ⟨n, List.mem_append_left _ hn, hx⟩
  · exact ⟨nd, by simp, hx⟩

/-- The same where a missing node is left out. -/
theorem heldIn_pushNonNull {x : Node} {nd : Option Node} {stmts : List Node}
    (h : HeldIn x stmts ∨ HeldBy x nd) : HeldIn x (pushNonNull stmts nd) := by
  cases nd with
  | none =>
      rcases h with h | ⟨n, hn, _⟩
      · exact h
      · cases hn
  | some nd =>
      refine heldIn_append (h.imp_right ?_)
      rintro ⟨n, hn, hx⟩
      cases hn
      exact hx

section Shows

variable (x : Node)

/-- Fresh memory holds {lit}`x` everywhere. -/
def FilledWith (p : Parser) : Prop := p.fresh = fun _ => some x

/-- Whether a piece of the parser left a field unwritten can be seen in its result. -/
abbrev Leaves (b : Prop) {α : Type} (m : Parse α) (Q : α → Prop) : Prop :=
  Shows (FilledWith x) Event.isKept b m Q

/-- A piece of the parser that leaves no field unwritten. -/
abbrev WritesAll {α : Type} (m : Parse α) : Prop :=
  Keeps (FilledWith x) (fun st => ¬ Event.isKept st.label) m

variable {x}

/-- A step that keeps no field, and touches no fresh memory. -/
theorem writesAll_step {l : Event} {f : Parser → Parser} (hl : l ≠ .keepField)
    (hf : ∀ p, (f p).fresh = p.fresh) : WritesAll x (Prog.step l f) := by
  intro p hp
  refine Prog.meets_step hl ?_
  unfold FilledWith
  rw [hf]
  exact hp

/-- Two pieces in a row write all fields if each one does. -/
theorem writesAll_bind {α β : Type} {m : Parse α} {k : α → Parse β} (hm : WritesAll x m)
    (hk : ∀ a, WritesAll x (k a)) : WritesAll x (m >>= k) :=
  fun p hp => Prog.meets_bind (hm p hp) fun a q hq => hk a q hq

/-- Looking at the state writes all that it has to, which is nothing. -/
theorem writesAll_read {α : Type} (f : Parser → α) : WritesAll x (Prog.read f) :=
  fun _ hp => Prog.meets_read hp

/-- So does returning a value. -/
theorem writesAll_pure {α : Type} (a : α) : WritesAll x (pure a) :=
  fun _ hp => Prog.meets_pure hp

/-- So does a choice, if both branches do. -/
theorem writesAll_ite {α : Type} {c : Prop} [Decidable c] {m k : Parse α} (hm : WritesAll x m)
    (hk : WritesAll x k) : WritesAll x (if c then m else k) := by
  split
  · exact hm
  · exact hk

/-- So does {lit}`advance`. -/
theorem writesAll_advance : WritesAll x advance := by
  refine writesAll_bind (writesAll_step (by simp) fun _ => rfl) fun _ => ?_
  refine writesAll_bind (writesAll_read _) fun ts => ?_
  induction ts with
  | nil => exact writesAll_step (by simp) fun _ => rfl
  | cons t ts ih =>
      rw [advanceLoop]
      split
      · exact writesAll_bind (writesAll_step (by simp) fun _ => rfl) fun _ => ih
      · exact writesAll_step (by simp) fun _ => rfl

/-- Expressions leave no field unwritten. -/
theorem writesAll_exprs : Exprs fun {_} m _ => WritesAll x m := by
  have hC := keeps_congruence (I := FilledWith x) (P := fun st => ¬ Event.isKept st.label)
  exact
    { hC with
      read := fun f _ => hC.read f
      advance := writesAll_advance
      exprMark := fun he => writesAll_step (by rintro rfl; cases he) fun _ => rfl
      parserErrorAt := fun _ _ => writesAll_step (by simp) fun p => by
        unfold errorAt
        split <;> rfl
      ctxError := fun _ _ => writesAll_step (by simp) fun _ => rfl
      define := fun _ _ _ => congr_semaDefineVar hC.reading
        (fun _ _ => writesAll_step (by simp) fun _ => rfl) (writesAll_step (by simp) fun _ => rfl) }

/-- So do parameters. -/
theorem writesAll_signature : Signature fun {_} m _ => WritesAll x m := by
  have hC := keeps_congruence (I := FilledWith x) (P := fun st => ¬ Event.isKept st.label)
  exact Signature.of_exprs writesAll_exprs (writesAll_step (by simp) fun _ => rfl)
    (fun _ => congr_typeFuncNew hC.reading (writesAll_step (by simp) fun _ => rfl))
    fun _ _ => writesAll_step (by simp) fun _ => rfl

/-- So does recovery. -/
theorem writesAll_synchronize (n : Nat) : WritesAll x (synchronize n) := by
  have hC := keeps_congruence (I := FilledWith x) (P := fun st => ¬ Event.isKept st.label)
  exact congr_synchronize hC.reading n n (Nat.le_refl n)
    (writesAll_step (by simp) fun _ => rfl) (fun _ => writesAll_step (by simp) fun _ => rfl)
    writesAll_advance

/-- So does entering a scope. -/
theorem writesAll_semaScopeEnter : WritesAll x semaScopeEnter :=
  writesAll_step (by simp) fun _ => rfl

/-- So does leaving it. -/
theorem writesAll_semaScopeLeave : WritesAll x semaScopeLeave :=
  writesAll_step (by simp) fun _ => rfl

/-- So does setting the return type. -/
theorem writesAll_setFuncRet (ret : Option ObjTy) : WritesAll x (setFuncRet ret) :=
  writesAll_step (by simp) fun _ => rfl

variable {b : Prop}

/-- What stands before a piece that leaves no field unwritten still stands after it. -/
theorem leaves_of_writesAll {α : Type} {m : Parse α} (h : WritesAll x m) :
    Leaves x b m fun _ => b :=
  shows_of_keeps h

/-- The field of a new node holds what fresh memory holds. -/
theorem leaves_newNodeField {α : Type} {k : Option Node → Parse α} {Q : α → Prop}
    (hk : Leaves x b (k (some x)) Q) : Leaves x b (newNodeField >>= k) Q := by
  have hstep : Leaves x b (Prog.step .freshField fun p => { p with allocs := p.allocs + 1 })
      fun _ => b :=
    leaves_of_writesAll (writesAll_step (by simp) fun _ => rfl)
  intro p hp
  have hfield : p.fresh p.allocs = some x := by rw [hp]
  have hrun : (newNodeField >>= k).run p =
      (Prog.step .freshField (fun p => { p with allocs := p.allocs + 1 }) >>=
        fun _ => k (some x)).run p := by
    rw [← hfield]
    rfl
  rw [hrun]
  exact (hstep.bind fun _ => hk) p hp

/-- A field that is kept is in the node that is returned. -/
theorem leaves_keepField : Leaves x b (keepField (some x)) (HeldBy x) := by
  intro p hp a p' hout
  cases hout
  exact ⟨hp, fun _ => ⟨x, rfl, .self⟩⟩

/-! ### Declarators -/

/-- A declarator without an initializer keeps its field. -/
theorem leaves_parseInit {i e : Parse (Option Node)} (hi : WritesAll x i) (he : WritesAll x e)
    (ty : Option ObjTy) (isConst : Bool) (tok : Token) :
    Leaves x False (parseInit i e ty isConst tok (some x)) (HeldBy x) := by
  have hbase := writesAll_exprs (x := x)
  refine (leaves_of_writesAll (hbase.matchKind _)).bind fun _ => shows_ite ?_ (shows_ite ?_ ?_)
  · refine (leaves_of_writesAll ?_).mono fun _ => False.elim
    refine writesAll_bind (writesAll_read _) fun _ => writesAll_ite hi ?_
    refine writesAll_bind he fun _ => writesAll_bind (hbase.checkInit _ _ _) fun _ => ?_
    exact writesAll_pure _
  · exact (leaves_of_writesAll (hbase.parserError _)).bind fun _ => leaves_keepField
  · exact leaves_keepField

/-- The field ends up in the node of the declarator. -/
theorem leaves_parseDeclarator {i e : Parse (Option Node)} (hi : WritesAll x i)
    (he : WritesAll x e) (n : Nat) (baseTy : ObjTy) (isConst : Bool) (name : Symbol) :
    Leaves x False (parseDeclarator i e n baseTy isConst name) (StandsIn x) := by
  have hbase := writesAll_exprs (x := x)
  refine (leaves_of_writesAll (hbase.parseArrayDims (Nat.le_refl n) _)).bind fun ty => ?_
  refine (leaves_of_writesAll (hbase.define _ _ _)).bind fun sym => ?_
  refine (leaves_of_writesAll (writesAll_read _)).bind fun tok => leaves_newNodeField ?_
  refine (leaves_parseInit hi he ty isConst tok).bind fun init => shows_pure ?_
  rintro ⟨nd, rfl, hx⟩
  exact .init hx

/-- That node ends up in the list of the declaration. -/
theorem leaves_declaratorIter {i e : Parse (Option Node)} (hi : WritesAll x i)
    (he : WritesAll x e) (n : Nat) (baseTy : ObjTy) (isConst : Bool)
    (st : Option Symbol × List Node) :
    Leaves x (HeldIn x st.2) (declaratorIter i e n baseTy isConst st)
      (Iter.Satisfies (fun st' => HeldIn x st'.2) (HeldIn x)) := by
  have hbase := writesAll_exprs (x := x)
  refine (leaves_of_writesAll (hbase.parseDeclaratorName _)).bind fun name => ?_
  cases name with
  | none => exact shows_pure id
  | some name =>
      refine (leaves_parseDeclarator hi he n baseTy isConst name).frame.bind fun nd => ?_
      refine (leaves_of_writesAll (hbase.matchKind _)).bind fun _ => shows_ite ?_ ?_
      · exact shows_pure heldIn_append
      · exact shows_pure heldIn_append

/-- The list ends up in the block that stands for the declaration. -/
theorem leaves_parseVarDeclList (n : Nat) (baseTy : ObjTy) (name : Symbol)
    (isConst isGlobal : Bool) :
    Leaves x False (parseVarDeclList n baseTy name isConst isGlobal) (HeldBy x) := by
  have hbase := writesAll_exprs (x := x)
  refine (leaves_of_writesAll (writesAll_step (by simp) fun _ => rfl)).bind fun _ => ?_
  have hloop := shows_loop (leaves_declaratorIter (hbase.parseInitializerList (Nat.le_refl n))
    (hbase.parseExpr (Nat.le_refl n)) n baseTy isConst) n (some name, [])
  refine (hloop.of_imp False.elim).bind fun stmts => ?_
  refine (leaves_of_writesAll (hbase.consume _ _)).bind fun _ => shows_pure ?_
  rintro ⟨nd, hnd, hx⟩
  exact ⟨_, rfl, .stmt hnd hx⟩

/-- So it is for a declaration inside a function. -/
theorem leaves_parseDecl (n : Nat) : Leaves x False (parseDecl n) (HeldBy x) := by
  have hbase := writesAll_exprs (x := x)
  refine (leaves_of_writesAll (writesAll_step (by simp) fun _ => rfl)).bind fun _ => ?_
  refine (leaves_of_writesAll (hbase.matchKind _)).bind fun _ => ?_
  refine (leaves_of_writesAll (writesAll_read _)).bind fun curr => ?_
  cases tokenToType curr.kind with
  | none =>
      refine (leaves_of_writesAll (hbase.parserError _)).bind fun _ => ?_
      exact shows_pure False.elim
  | some baseTy =>
      refine (leaves_of_writesAll hbase.advance).bind fun _ => ?_
      refine (leaves_of_writesAll (hbase.matchKind _)).bind fun _ => shows_ite ?_ ?_
      · refine (leaves_of_writesAll (writesAll_read _)).bind fun _ => ?_
        exact leaves_parseVarDeclList n _ _ _ _
      · refine (leaves_of_writesAll (hbase.parserError _)).bind fun _ => ?_
        exact shows_pure False.elim

/-! ### Bodies -/

/-- Recovery in a body keeps no field. -/
theorem writesAll_recoverInBody (n : Nat) : WritesAll x (recoverInBody n) := by
  refine writesAll_bind (writesAll_read _) fun _ => writesAll_ite ?_ (writesAll_pure _)
  exact writesAll_bind (writesAll_synchronize n) fun _ => writesAll_read _

/-- What an item of a body keeps is in the list of the body. -/
theorem leaves_bodyIter {d s : Parse (Option Node)} (hd : Leaves x False d (HeldBy x))
    (hs : Leaves x False s (HeldBy x)) (m : Msg) (n : Nat) (stmts : List Node) :
    Leaves x (HeldIn x stmts) (bodyIter d s m n stmts)
      (Iter.Satisfies (HeldIn x) (HeldIn x)) := by
  have hbase := writesAll_exprs (x := x)
  refine (leaves_of_writesAll (writesAll_read _)).bind fun _ => shows_ite (shows_pure id) ?_
  refine (leaves_of_writesAll (writesAll_recoverInBody n)).bind fun _ =>
    shows_ite (shows_pure id) ?_
  refine (leaves_of_writesAll (writesAll_read _)).bind fun _ => shows_ite ?_ (shows_ite ?_ ?_)
  · refine (leaves_of_writesAll (hbase.parserError _)).bind fun _ => ?_
    exact (leaves_of_writesAll hbase.advance).bind fun _ => shows_pure id
  · exact hd.frame.bind fun _ => shows_pure heldIn_pushNonNull
  · exact hs.frame.bind fun _ => shows_pure heldIn_pushNonNull

/-- The items of a body, up to its end. -/
theorem leaves_body {d s : Parse (Option Node)} (hd : Leaves x False d (HeldBy x))
    (hs : Leaves x False s (HeldBy x)) (m : Msg) (n : Nat) :
    Leaves x False (loop (bodyIter d s m n) n []) (HeldIn x) :=
  (shows_loop (leaves_bodyIter hd hs m n) n []).of_imp False.elim

/-- The list ends up in the node of the block. -/
theorem leaves_parseBlockBody {d s : Parse (Option Node)} (hd : Leaves x False d (HeldBy x))
    (hs : Leaves x False s (HeldBy x)) (n : Nat) :
    Leaves x False (parseBlockBody d s n) (HeldBy x) := by
  have hbase := writesAll_exprs (x := x)
  refine (leaves_of_writesAll (writesAll_step (by simp) fun _ => rfl)).bind fun _ => ?_
  refine (leaves_of_writesAll (hbase.consume _ _)).bind fun _ => ?_
  refine (leaves_of_writesAll writesAll_semaScopeEnter).bind fun _ => ?_
  refine (leaves_body hd hs _ n).bind fun stmts => ?_
  refine (leaves_of_writesAll writesAll_semaScopeLeave).bind fun _ => ?_
  refine (leaves_of_writesAll (hbase.consume _ _)).bind fun _ => shows_pure ?_
  rintro ⟨nd, hnd, hx⟩
  exact ⟨_, rfl, .stmt hnd hx⟩

/-! ### Statements -/

/-- An {lit}`if` without an {lit}`else` keeps its field. -/
theorem leaves_parseIf {e s : Parse (Option Node)} (he : WritesAll x e)
    (hs : Leaves x False s (HeldBy x)) : Leaves x False (parseIf e s) (HeldBy x) := by
  have hbase := writesAll_exprs (x := x)
  have helse : Leaves x False (parseElse s (some x)) (HeldBy x) :=
    (leaves_of_writesAll (hbase.matchKind _)).bind fun _ => shows_ite hs leaves_keepField
  refine leaves_newNodeField ?_
  refine (leaves_of_writesAll (hbase.consume _ _)).bind fun _ => ?_
  refine (leaves_of_writesAll he).bind fun cond => ?_
  refine (leaves_of_writesAll (hbase.consume _ _)).bind fun _ => ?_
  refine hs.bind fun thenBranch => helse.frame.bind fun elseBranch => shows_pure ?_
  rintro (⟨nd, rfl, hx⟩ | ⟨nd, rfl, hx⟩)
  · exact ⟨_, rfl, .thenBranch hx⟩
  · exact ⟨_, rfl, .elseBranch hx⟩

/-- A loop holds what its body holds. -/
theorem leaves_parseWhile {e s : Parse (Option Node)} (he : WritesAll x e)
    (hs : Leaves x False s (HeldBy x)) : Leaves x False (parseWhile e s) (HeldBy x) := by
  have hbase := writesAll_exprs (x := x)
  refine (leaves_of_writesAll (hbase.consume _ _)).bind fun _ => ?_
  refine (leaves_of_writesAll he).bind fun cond => ?_
  refine (leaves_of_writesAll (hbase.consume _ _)).bind fun _ => ?_
  refine hs.bind fun body => shows_pure ?_
  rintro ⟨nd, rfl, hx⟩
  exact ⟨_, rfl, .body hx⟩

/-- However the check of a {lit}`return` ends, its node keeps the value. -/
theorem leaves_semaAnalyzeReturn (tok : Token) (lhs : Option Node) :
    Leaves x (HeldBy x lhs) (semaAnalyzeReturn tok lhs) (StandsIn x) := by
  have hbase := writesAll_exprs (x := x)
  have hret : HeldBy x lhs → StandsIn x (.retStmt tyVoid lhs) := by
    rintro ⟨nd, rfl, hx⟩
    exact .value hx
  have hreport (m : Msg) : Leaves x (HeldBy x lhs)
      (do ctxError tok m; return .retStmt tyVoid lhs) (StandsIn x) :=
    (leaves_of_writesAll (hbase.ctxError _ _)).bind fun _ => shows_pure hret
  refine (leaves_of_writesAll (writesAll_step (by simp) fun _ => rfl)).bind fun _ => ?_
  refine (leaves_of_writesAll (writesAll_read _)).bind fun ret => ?_
  refine shows_ite (shows_ite (hreport _) (shows_pure hret)) (shows_ite (hreport _) ?_)
  refine (leaves_of_writesAll (writesAll_read _)).bind fun _ => ?_
  exact shows_ite (hreport _) (shows_pure hret)

/-- A {lit}`return` without a value keeps its field. -/
theorem leaves_parseReturn {e : Parse (Option Node)} (he : WritesAll x e) :
    Leaves x False (parseReturn e) (HeldBy x) := by
  have hbase := writesAll_exprs (x := x)
  have hvalue : Leaves x False (parseReturnValue e (some x)) (HeldBy x) := by
    refine (leaves_of_writesAll (writesAll_read _)).bind fun _ => shows_ite leaves_keepField ?_
    exact (leaves_of_writesAll he).mono fun _ => False.elim
  refine (leaves_of_writesAll (writesAll_read _)).bind fun tok => leaves_newNodeField ?_
  refine hvalue.bind fun lhs => (leaves_of_writesAll (hbase.consume _ _)).bind fun _ => ?_
  exact (leaves_semaAnalyzeReturn tok lhs).bind fun nd => shows_pure fun hx => ⟨nd, rfl, hx⟩

/-- A statement that begins with an expression writes all fields. -/
theorem writesAll_parseExprStmt {e : Parse (Option Node)} (he : WritesAll x e) :
    WritesAll x (parseExprStmt e) := by
  have hbase := writesAll_exprs (x := x)
  refine writesAll_bind he fun expr => ?_
  cases expr with
  | none => exact writesAll_pure _
  | some expr =>
      refine writesAll_bind ?_ fun lhs => ?_
      · refine writesAll_bind (hbase.matchKind _) fun _ => writesAll_ite ?_ (writesAll_pure _)
        refine writesAll_bind he fun rhs => ?_
        cases rhs with
        | none => exact writesAll_bind (hbase.parserError _) fun _ => writesAll_pure _
        | some rhs =>
            exact writesAll_bind (writesAll_read _) fun _ => hbase.semaAnalyzeAssign _ _ _
      · exact writesAll_bind (hbase.consume _ _) fun _ => writesAll_pure _

/-- A statement holds what its parts keep. -/
theorem leaves_parseStmtBody {e s k : Parse (Option Node)} (he : WritesAll x e)
    (hs : Leaves x False s (HeldBy x)) (hk : Leaves x False k (HeldBy x)) :
    Leaves x False (parseStmtBody e s k) (HeldBy x) := by
  have hbase := writesAll_exprs (x := x)
  have hplain {m : Parse (Option Node)} (hm : WritesAll x m) : Leaves x False m (HeldBy x) :=
    (leaves_of_writesAll hm).mono fun _ => False.elim
  refine (leaves_of_writesAll (writesAll_step (by simp) fun _ => rfl)).bind fun _ => ?_
  refine (leaves_of_writesAll (hbase.matchKind _)).bind fun _ =>
    shows_ite (leaves_parseIf he hs) ?_
  refine (leaves_of_writesAll (hbase.matchKind _)).bind fun _ =>
    shows_ite (leaves_parseWhile he hs) ?_
  refine (leaves_of_writesAll (hbase.matchKind _)).bind fun _ =>
    shows_ite (leaves_parseReturn he) ?_
  refine (leaves_of_writesAll (hbase.matchKind _)).bind fun _ => shows_ite ?_ ?_
  · exact hplain (writesAll_bind (hbase.consume _ _) fun _ => writesAll_pure _)
  refine (leaves_of_writesAll (hbase.matchKind _)).bind fun _ => shows_ite ?_ ?_
  · exact hplain (writesAll_bind (hbase.consume _ _) fun _ => writesAll_pure _)
  refine (leaves_of_writesAll (writesAll_read _)).bind fun _ => shows_ite hk ?_
  exact hplain (writesAll_parseExprStmt he)

/-- Statements and blocks, by induction on the budget. -/
theorem leaves_statements (n : Nat) :
    Leaves x False (parseBlock n) (HeldBy x) ∧ Leaves x False (parseStmt n) (HeldBy x) := by
  have hbase := writesAll_exprs (x := x)
  induction n with
  | zero => exact ⟨shows_timeout, shows_timeout⟩
  | succ n ih =>
      constructor
      · exact leaves_parseBlockBody (leaves_parseDecl n) ih.2 n
      · exact leaves_parseStmtBody (hbase.parseExpr (Nat.le_refl n)) ih.2 ih.1

/-! ### Top level -/

/-- A function holds what its body keeps. -/
theorem leaves_parseFunc (n : Nat) (retTy : ObjTy) (name : Symbol) :
    Leaves x False (parseFunc n retTy name) (HeldBy x) := by
  have hsig := writesAll_signature (x := x)
  have hbase := hsig.toBase
  refine (leaves_of_writesAll (writesAll_step (by simp) fun _ => rfl)).bind fun _ => ?_
  refine (leaves_of_writesAll (hbase.consume _ _)).bind fun _ => ?_
  refine (leaves_of_writesAll (hsig.typeFuncNew _)).bind fun funcTy => ?_
  refine (leaves_of_writesAll (hbase.define _ _ _)).bind fun _ => ?_
  refine (leaves_of_writesAll (writesAll_setFuncRet _)).bind fun _ => ?_
  refine (leaves_of_writesAll writesAll_semaScopeEnter).bind fun _ => ?_
  refine (leaves_of_writesAll (hsig.parseParams (Nat.le_refl n) _)).bind fun _ => ?_
  refine (leaves_of_writesAll (hbase.consume _ _)).bind fun _ => ?_
  refine (leaves_of_writesAll (hbase.consume _ _)).bind fun _ => ?_
  refine (leaves_body (leaves_parseDecl n) (leaves_statements n).2 _ n).bind fun stmts => ?_
  refine (leaves_of_writesAll (hbase.consume _ _)).bind fun _ => ?_
  refine (leaves_of_writesAll writesAll_semaScopeLeave).bind fun _ => ?_
  refine (leaves_of_writesAll (writesAll_setFuncRet _)).bind fun _ => ?_
  refine shows_pure ?_
  rintro ⟨nd, hnd, hx⟩
  exact ⟨_, rfl, .stmt hnd hx⟩

/-- A top-level item holds what it keeps. -/
theorem leaves_parseTopLevel (n : Nat) : Leaves x False (parseTopLevel n) (HeldBy x) := by
  have hbase := writesAll_exprs (x := x)
  refine (leaves_of_writesAll (writesAll_step (by simp) fun _ => rfl)).bind fun _ => ?_
  refine (leaves_of_writesAll (hbase.matchKind _)).bind fun _ => ?_
  refine (leaves_of_writesAll (writesAll_read _)).bind fun curr => ?_
  cases tokenToType curr.kind with
  | none =>
      refine shows_ite ?_ (shows_pure False.elim)
      refine (leaves_of_writesAll (hbase.parserError _)).bind fun _ => ?_
      exact (leaves_of_writesAll hbase.advance).bind fun _ => shows_pure False.elim
  | some ty =>
      refine (leaves_of_writesAll hbase.advance).bind fun _ => ?_
      refine (leaves_of_writesAll (writesAll_read _)).bind fun _ => shows_ite ?_ ?_
      · refine (leaves_of_writesAll (hbase.consume _ _)).bind fun _ => ?_
        refine (leaves_of_writesAll (writesAll_read _)).bind fun _ => ?_
        refine (leaves_of_writesAll (writesAll_read _)).bind fun _ => shows_ite ?_ ?_
        · exact leaves_parseFunc n _ _
        · exact leaves_parseVarDeclList n _ _ _ _
      · refine (leaves_of_writesAll (hbase.parserError _)).bind fun _ => ?_
        exact shows_pure False.elim

/-- The file holds what its items keep. -/
theorem leaves_topIter (n : Nat) (globals : List Node) :
    Leaves x (HeldIn x globals) (topIter n globals)
      (Iter.Satisfies (HeldIn x) (HeldIn x)) := by
  have hbase := writesAll_exprs (x := x)
  refine (leaves_of_writesAll (hbase.matchKind _)).bind fun _ => shows_ite (shows_pure id) ?_
  refine (leaves_parseTopLevel n).frame.bind fun node => ?_
  cases node with
  | some node =>
      refine shows_pure fun h => heldIn_append (h.imp_right ?_)
      rintro ⟨nd, hnd, hx⟩
      cases hnd
      exact hx
  | none =>
      refine (leaves_of_writesAll hbase.reportTopLevel).bind fun _ => ?_
      refine (leaves_of_writesAll ?_).bind fun _ => ?_
      · refine writesAll_bind (writesAll_read _) fun _ => writesAll_ite ?_ (writesAll_pure _)
        exact writesAll_bind (writesAll_synchronize n) fun _ => writesAll_pure _
      refine (leaves_of_writesAll hbase.skipIfStuck).bind fun _ => shows_pure fun h => ?_
      rcases h with h | ⟨nd, hnd, _⟩
      · exact h
      · cases hnd

/-- A parse that leaves a field unwritten returns trees in which the contents of fresh
memory stand. -/
theorem leaves_parserProgram (intern : List UInt8 → Symbol) (n : Nat) :
    Leaves x False (parserProgram intern n) (HeldIn x) := by
  have hsig := writesAll_signature (x := x)
  have hbase := hsig.toBase
  refine (leaves_of_writesAll hbase.advance).bind fun _ => ?_
  refine (leaves_of_writesAll writesAll_semaScopeEnter).bind fun _ => ?_
  refine (leaves_of_writesAll (hsig.installBuiltins intern builtins)).bind fun _ => ?_
  refine ((shows_loop (leaves_topIter n) n []).of_imp False.elim).bind fun globals => ?_
  refine (leaves_of_writesAll writesAll_semaScopeLeave).bind fun _ => ?_
  exact shows_pure id

end Shows

/-! ## What a parse shows -/

/-- What can be seen of a parse that returns: the trees, and whether an error was
recorded. -/
def observe (r : Run Parser Event (List Node)) : Option (List Node × Bool) :=
  match r.outcome with
  | .done globals p => some (globals, p.ctx.hadError)
  | .fault _ | .timeout => none

/-- Runs that differ in fresh memory only show the same. -/
theorem observe_mirrored {fresh : Nat → Option Node} {r r' : Run Parser Event (List Node)}
    (h : r.MirroredBy (withFresh fresh) r') : observe r' = observe r := by
  unfold observe
  rw [h.outcome]
  cases r.outcome <;> rfl

/-- A parse that writes every field is mirrored under any other contents of fresh
memory. -/
theorem parserRun_mirrored {intern : List UInt8 → Symbol} {mem : Memory} {ts : TokenStream}
    (h : (parserRun intern mem ts).Avoids Event.isKept) (fresh : Nat → Option Node) :
    (parserRun intern mem ts).MirroredBy (withFresh fresh)
      (parserRun intern { mem with field := fresh } ts) :=
  (whole_mirrors fresh).parserProgram intern (Nat.le_refl _) (start mem Context.init ts) h
    (parserRun_ne_timeout intern mem ts)

/-- If a parse returns the same trees whatever fresh memory holds, it wrote every field. -/
theorem avoids_of_observe {intern : List UInt8 → Symbol} {mem : Memory} {ts : TokenStream}
    {globals : List Node} {b : Bool}
    (hreturns : observe (parserRun intern mem ts) = some (globals, b))
    (hsame : ∀ fresh, observe (parserRun intern { mem with field := fresh } ts) =
      observe (parserRun intern mem ts)) :
    (parserRun intern mem ts).Avoids Event.isKept := by
  -- A node too large to stand in one of the trees.
  let x : Node := .block none globals
  let mem' : Memory := { mem with field := fun _ => some x }
  have hseen : observe (parserRun intern mem' ts) = some (globals, b) :=
    (hsame _).trans hreturns
  have havoids : (parserRun intern mem' ts).Avoids Event.isKept := by
    intro st hst hkept
    cases hout : (parserRun intern mem' ts).outcome with
    | done globals' p =>
        have hleaves := leaves_parserProgram (x := x) intern (budget ts.tokens.length)
          (start mem' Context.init ts) rfl globals' p hout
        obtain ⟨nd, hnd, hx⟩ := hleaves.2 (Or.inr ⟨st, hst, hkept⟩)
        have hglobals : globals' = globals := by
          simp only [observe, hout, Option.some.injEq, Prod.mk.injEq] at hseen
          exact hseen.1
        subst hglobals
        have hsize := hx.size
        have hlt := List.sizeOf_lt_of_mem hnd
        simp only [x, Node.block.sizeOf_spec] at hsize
        omega
    | fault p =>
        simp [observe, hout] at hseen
    | timeout =>
        simp [observe, hout] at hseen
  exact (parserRun_mirrored havoids mem.field).avoids havoids

end Parser

/-- **The outcome depends on the source alone** in every parse that leaves no optional
field of a node unwritten, and among the parses that return in no other one. -/
theorem outcome_of_source_iff (intern : List UInt8 → Symbol) (mem : Memory) (ts : TokenStream) :
    ((∀ st ∈ (Parser.parserRun intern mem ts).steps, st.label ≠ .keepField) →
      ∀ fresh : Nat → Option Node,
        Parser.observe (Parser.parserRun intern { mem with field := fresh } ts) =
          Parser.observe (Parser.parserRun intern mem ts)) ∧
    (Parser.observe (Parser.parserRun intern mem ts) ≠ none →
      (∀ fresh : Nat → Option Node,
        Parser.observe (Parser.parserRun intern { mem with field := fresh } ts) =
          Parser.observe (Parser.parserRun intern mem ts)) →
      ∀ st ∈ (Parser.parserRun intern mem ts).steps, st.label ≠ .keepField) := by
  constructor
  · intro h fresh
    exact Parser.observe_mirrored (Parser.parserRun_mirrored h fresh)
  · intro hreturns hsame
    cases hseen : Parser.observe (Parser.parserRun intern mem ts) with
    | none => exact absurd hseen hreturns
    | some seen => exact Parser.avoids_of_observe hseen hsame

/-- {lit}`void f() { return; }`. -/
def voidReturn : Grammar.CompUnit := [.func ⟨false, .void, ⟨0⟩, [], [.stmt (.ret none)]⟩]

/-- The parse of a correct program records an error if the memory of the node for
{lit}`return` held something. -/
theorem outcome_of_memory :
    ¬ ∀ fresh : Nat → Option Node,
      Parser.observe (Parser.parserRun Fluf.ascii.intern
          { Grammar.zeroed with field := fresh } (Grammar.stream voidReturn.toks)) =
        Parser.observe (Parser.parserRun Fluf.ascii.intern Grammar.zeroed
          (Grammar.stream voidReturn.toks)) := by
  intro h
  have herrors := congrArg (Option.map Prod.snd) (h fun _ => some (.litInt tyInt 0))
  revert herrors
  decide +kernel

end Cact
