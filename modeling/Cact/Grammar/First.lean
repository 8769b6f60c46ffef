import Cact.Grammar.Syntax
import Cact.Parser.Termination

/-!
# First terminals

The parser decides what to read by looking at one token.  Here is what the first terminal
symbol of each part of the grammar can be, and that each part is made of names, literals,
keywords and punctuators.

Main results:

- Theorem {lit}`Expr.starts`: an expression begins with a token that can begin one.
- Theorem {lit}`Stmt.starts` and {lit}`Decl.starts`: the same for statements and
  declarations.
- Theorem {lit}`CompUnit.written`: what a compilation unit is made of.
- Theorem {lit}`CompUnit.clean`: a compilation unit has no error token.
-/

namespace Cact

namespace Grammar

open Cact.Parser (isExprStart isPrimaryStart isStmtStart isDecl)

/-- The kind of the next token: the end of the file, if nothing is left. -/
def follow : List Terminal → TokenKind
  | [] => .eof
  | t :: _ => t.kind

/-- What follows is the kind of the first token. -/
@[simp]
theorem follow_cons (t : Terminal) (ts : List Terminal) : follow (t :: ts) = t.kind := rfl

/-- The text begins with a token of the given class. -/
def Starts (first : TokenKind → Bool) (ts : List Terminal) : Prop :=
  ∃ t rest, ts = t :: rest ∧ first t.kind = true

/-- A text starts as it did, whatever comes behind it. -/
theorem Starts.append {first : TokenKind → Bool} {ts : List Terminal} (h : Starts first ts)
    (us : List Terminal) : Starts first (ts ++ us) := by
  obtain ⟨t, rest, rfl, ht⟩ := h
  exact ⟨t, rest ++ us, rfl, ht⟩

/-- What follows in front of such a text is one of its first tokens. -/
theorem Starts.follow {first : TokenKind → Bool} {ts : List Terminal} (h : Starts first ts)
    (us : List Terminal) : first (follow (ts ++ us)) = true := by
  obtain ⟨t, rest, rfl, ht⟩ := h
  exact ht

/-- A larger set of first tokens serves as well. -/
theorem Starts.mono {first first' : TokenKind → Bool} {ts : List Terminal} (h : Starts first ts)
    (hmono : ∀ kind, first kind = true → first' kind = true) : Starts first' ts := by
  obtain ⟨t, rest, rfl, ht⟩ := h
  exact ⟨t, rest, rfl, hmono _ ht⟩

/-- A class of tokens keeps out what does not belong to it. -/
theorem ne_of_class {first : TokenKind → Bool} {k kind : TokenKind} (h : first k = true)
    (hkind : first kind = false) : k ≠ kind := by
  rintro rfl
  rw [h] at hkind
  cases hkind

/-! ## First terminals -/

/-- An expression begins with a literal, a name, a parenthesis or a prefix operator. -/
theorem Expr.starts : ∀ e : Expr, Starts isExprStart e.toks
  | .int _ => ⟨_, _, rfl, rfl⟩
  | .float _ => ⟨_, _, rfl, rfl⟩
  | .double _ => ⟨_, _, rfl, rfl⟩
  | .bool true => ⟨_, _, rfl, rfl⟩
  | .bool false => ⟨_, _, rfl, rfl⟩
  | .paren _ => ⟨_, _, rfl, rfl⟩
  | .var _ => ⟨_, _, rfl, rfl⟩
  | .index base _ => base.starts.append _
  | .call _ _ => ⟨_, _, rfl, rfl⟩
  | .unary op _ => ⟨_, _, rfl, by cases op <;> rfl⟩
  | .binary _ lhs _ => lhs.starts.append _
  | .assign lhs _ => lhs.starts.append _

/-- A variable with its subscripts starts with its name. -/
theorem Expr.starts_designator : ∀ e : Expr, e.isDesignator = true → e.WellFormed →
    Starts isPrimaryStart e.toks
  | .var _, _, _ => ⟨_, _, rfl, rfl⟩
  | .index base _, _, h => (base.starts_designator h.2.1 h.1).append _

/-- A primary does not begin with a prefix operator. -/
theorem Expr.starts_primary {e : Expr} (h : e.WellFormed) (hlevel : 12 ≤ e.level) :
    Starts isPrimaryStart e.toks := by
  cases e with
  | var name => exact Expr.starts_designator _ rfl h
  | index base sub => exact Expr.starts_designator _ rfl h
  | bool val => cases val <;> exact ⟨_, _, rfl, rfl⟩
  | unary op operand => simp [Expr.level] at hlevel
  | binary op lhs rhs => cases op <;> simp [Expr.level, opLevel] at hlevel
  | assign lhs rhs => simp [Expr.level] at hlevel
  | _ => exact ⟨_, _, rfl, rfl⟩

/-- A statement may begin with an expression. -/
theorem isStmtStart_of_isExprStart (kind : TokenKind) (h : isExprStart kind = true) :
    isStmtStart kind = true := by
  cases kind <;> first | rfl | cases h

/-- A statement starts with one of its first tokens. -/
theorem Stmt.starts (s : Stmt) : Starts isStmtStart s.toks := by
  cases s with
  | expr e => exact (e.starts.append _).mono isStmtStart_of_isExprStart
  | assign lhs rhs => exact (lhs.starts.append _).mono isStmtStart_of_isExprStart
  | _ => exact ⟨_, _, rfl, rfl⟩

/-- A declaration begins with a type, or with the keyword for constants. -/
theorem starts_const (isConst : Bool) (ty : BaseTy) (ts : List Terminal) :
    Starts isDecl (constToks isConst ++ .fixed ty.kind :: ts) := by
  cases isConst with
  | true => exact ⟨_, _, rfl, rfl⟩
  | false => exact ⟨_, _, rfl, by cases ty <;> rfl⟩

/-- A declaration starts with {lit}`const` or a type. -/
theorem Decl.starts (d : Decl) : Starts isDecl d.toks := starts_const _ _ _

/-- A class that holds declarations and statements does not hold what ends a block or
continues a statement. -/
theorem BlockItem.starts (item : BlockItem) :
    Starts (fun kind => isDecl kind || isStmtStart kind) item.toks := by
  cases item with
  | decl d => exact d.starts.mono fun _ h => by simp [h]
  | stmt s => exact s.starts.mono fun _ h => by simp [h]

/-- So does a top-level item. -/
theorem Item.starts (item : Item) : Starts isDecl item.toks := by
  cases item with
  | decl d => exact d.starts
  | func f => exact starts_const _ _ _

/-! ## What a text is made of -/

/-- The kinds of tokens that are written in one way only. -/
@[simp]
def isFixed : TokenKind → Bool
  | .eof | .error | .ident | .litInt | .litFloat | .litDouble => false
  | _ => true

/-- A name, a literal, a keyword or a punctuator. -/
@[simp]
def Terminal.Written : Terminal → Prop
  | .fixed kind => isFixed kind = true
  | _ => True

/-- The text is made of such symbols. -/
def Written (ts : List Terminal) : Prop := ∀ t ∈ ts, t.Written

/-- Nothing is written. -/
@[simp]
theorem written_nil : Written [] := by simp [Written]

/-- A text is written if each of its tokens is. -/
@[simp]
theorem written_cons {t : Terminal} {ts : List Terminal} :
    Written (t :: ts) ↔ t.Written ∧ Written ts := by
  simp [Written]

/-- Two texts in a row are written if each one is. -/
@[simp]
theorem written_append {ts us : List Terminal} :
    Written (ts ++ us) ↔ Written ts ∧ Written us := by
  simp only [Written, List.mem_append, or_imp, forall_and]

/-- So are texts with commas between them. -/
theorem written_separated {ts : List (List Terminal)} (h : ∀ t ∈ ts, Written t) :
    Written (separated ts) := by
  induction ts with
  | nil => exact written_nil
  | cons t ts ih =>
      cases ts with
      | nil => exact h t List.mem_cons_self
      | cons u us =>
          simp only [separated, written_append, written_cons]
          refine ⟨h t List.mem_cons_self, by simp, ih fun v hv => h v ?_⟩
          exact List.mem_cons_of_mem _ hv

/-- So are the texts of a list. -/
theorem written_flatMap {α : Type} {f : α → List Terminal} {xs : List α}
    (h : ∀ x ∈ xs, Written (f x)) : Written (xs.flatMap f) := by
  intro t ht
  obtain ⟨x, hx, ht⟩ := List.mem_flatMap.mp ht
  exact h x hx t ht

/-- A unary operator is spelled in one way only. -/
theorem UnOp.isFixed_kind (op : UnOp) : isFixed op.kind = true := by cases op <;> rfl

/-- So is a binary operator. -/
theorem isFixed_opKind (op : BinOp) : isFixed (opKind op) = true := by cases op <;> rfl

/-- So is the word of a base type. -/
theorem BaseTy.isFixed_kind (b : BaseTy) : isFixed b.kind = true := by cases b <;> rfl

mutual

/-- The text of an expression is written. -/
theorem Expr.written : ∀ e : Expr, Written e.toks
  | .int _ | .float _ | .double _ | .var _ => by simp [Expr.toks]
  | .bool true | .bool false => by simp [Expr.toks]
  | .paren inner => by simp [Expr.toks, inner.written]
  | .index base sub => by simp [Expr.toks, base.written, sub.written]
  | .call _ args => by simp [Expr.toks, written_separated (args_written args)]
  | .unary op operand => by simpa [Expr.toks, operand.written] using op.isFixed_kind
  | .binary op lhs rhs => by
      simpa [Expr.toks, lhs.written, rhs.written] using isFixed_opKind op
  | .assign lhs rhs => by simp [Expr.toks, lhs.written, rhs.written]

/-- So are the texts of arguments. -/
theorem args_written : ∀ es : List Expr, ∀ t ∈ argToks es, Written t
  | [] => by simp [argToks]
  | e :: es => by
      intro t ht
      rcases List.mem_cons.mp ht with rfl | ht
      · exact e.written
      · exact args_written es t ht

end

mutual

/-- So is the text of an element. -/
theorem Elem.written : ∀ e : Elem, Written e.toks
  | .value e => e.written
  | .list es => by simp [Elem.toks, written_separated (elems_written es)]

/-- So are the texts of elements. -/
theorem elems_written : ∀ es : List Elem, ∀ t ∈ elemToks es, Written t
  | [] => by simp [elemToks]
  | e :: es => by
      intro t ht
      rcases List.mem_cons.mp ht with rfl | ht
      · exact e.written
      · exact elems_written es t ht

end

/-- So is the word {lit}`const`, if it is there. -/
theorem written_constToks (b : Bool) : Written (constToks b) := by cases b <;> simp [constToks]

/-- So are dimensions. -/
theorem written_dims (dims : List Int32) : Written (dims.flatMap dimToks) :=
  written_flatMap fun _ _ => by simp [dimToks]

/-- So is a declarator. -/
theorem Declarator.written (d : Declarator) : Written d.toks := by
  unfold Declarator.toks Declarator.tailToks
  rw [written_cons, written_append]
  refine ⟨by simp, written_dims _, ?_⟩
  cases d.init with
  | none => exact written_nil
  | some init =>
      cases init with
      | expr e => simpa [initToks, Init.toks] using e.written
      | list es => simpa [initToks, Init.toks] using (Elem.list es).written

/-- So is a declaration. -/
theorem Decl.written (d : Decl) : Written d.toks := by
  unfold Decl.toks
  simp only [written_append, written_cons]
  refine ⟨written_constToks _, d.ty.isFixed_kind, written_separated ?_, by simp⟩
  intro t ht
  obtain ⟨declarator, _, rfl⟩ := List.mem_map.mp ht
  exact declarator.written

/-- So is a parameter. -/
theorem Param.written (p : Param) : Written p.toks := by
  unfold Param.toks
  simp only [written_cons]
  refine ⟨p.ty.isFixed_kind, by simp, ?_⟩
  rcases p.dims with _ | ⟨_ | len, more⟩
  · exact written_nil
  · simpa [ParamDims.toks] using written_dims more
  · simpa [ParamDims.toks] using written_dims more

/-- So is a condition. -/
theorem written_cond (cond : Expr) : Written (condToks cond) := by simp [condToks, cond.written]

mutual

/-- So is a statement. -/
theorem Stmt.written : ∀ s : Stmt, Written s.toks
  | .ifThen cond body => by simp [Stmt.toks, written_cond, body.written]
  | .ifElse cond body alt => by simp [Stmt.toks, written_cond, body.written, alt.written]
  | .while cond body => by simp [Stmt.toks, written_cond, body.written]
  | .ret none => by simp [Stmt.toks]
  | .ret (some e) => by simp [Stmt.toks, e.written]
  | .break => by simp [Stmt.toks]
  | .continue => by simp [Stmt.toks]
  | .block items => by simp [Stmt.toks, block_written items]
  | .expr e => by simp [Stmt.toks, e.written]
  | .assign lhs rhs => by simp [Stmt.toks, lhs.written, rhs.written]

/-- So is an item of a block. -/
theorem BlockItem.written : ∀ item : BlockItem, Written item.toks
  | .decl d => d.written
  | .stmt s => s.written

/-- So is what is inside a block. -/
theorem block_written : ∀ items : List BlockItem, Written (blockToks items)
  | [] => written_nil
  | item :: items => by simp [blockToks, item.written, block_written items]

end

/-- So is a top-level item. -/
theorem Item.written (item : Item) : Written item.toks := by
  cases item with
  | decl d => exact d.written
  | func f =>
      have hparams : Written (separated (f.params.map Param.toks)) := by
        apply written_separated
        intro t ht
        obtain ⟨p, _, rfl⟩ := List.mem_map.mp ht
        exact p.written
      simpa [Item.toks, Func.toks, written_constToks, hparams, block_written f.body] using
        f.ty.isFixed_kind

/-- So is a whole file. -/
theorem CompUnit.written (u : CompUnit) : Written u.toks :=
  written_flatMap fun item _ => item.written

/-! ## No error tokens -/

/-- The text holds no error token. -/
def Clean (ts : List Terminal) : Prop := ∀ t ∈ ts, t.kind ≠ .error

/-- A text without tokens has no errors in it. -/
@[simp]
theorem clean_nil : Clean [] := by simp [Clean]

/-- A text is clean if each of its tokens is. -/
@[simp]
theorem clean_cons {t : Terminal} {ts : List Terminal} :
    Clean (t :: ts) ↔ t.kind ≠ .error ∧ Clean ts := by
  simp [Clean]

/-- Two texts in a row are clean if each one is. -/
theorem clean_append {ts us : List Terminal} : Clean (ts ++ us) ↔ Clean ts ∧ Clean us := by
  simp only [Clean, List.mem_append, or_imp, forall_and]

/-- A text that is written has no errors in it. -/
theorem clean_of_written {ts : List Terminal} (h : Written ts) : Clean ts := by
  intro t ht herror
  have hwritten := h t ht
  cases t with
  | fixed kind =>
      cases herror
      cases hwritten
  | _ => cases herror

/-- The text of an expression has no errors in it. -/
theorem Expr.clean (e : Expr) : Clean e.toks := clean_of_written e.written

/-- No compilation unit contains an error token. -/
theorem CompUnit.clean (u : CompUnit) : Clean u.toks := clean_of_written u.written

end Grammar

end Cact
