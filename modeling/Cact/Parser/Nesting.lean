import Cact.Parser.Labels
import Cact.Parser.Recovery

/-!
# Bodies inside bodies

Whatever is read in a body, blocks and brace lists included, closes the braces that it
opened, and not those of the bodies around it.  This is so even after errors, as long as
{lit}`synchronize` reads no closing brace; so a function ends no later than it should.

Main results:

- Definition {lit}`Parser.Nests`: the pieces of the parser that keep a place among the braces.
- Theorems {lit}`Parser.nests_exprs`, {lit}`Parser.nests_parseDecl` and
  {lit}`Parser.nests_statements`: these are everything that is read in a body.
- Theorem {lit}`Parser.meets_bodyItems`: the loop of a body stops inside, also if it began in
  front of the body because of an error in the signature.
- Theorem {lit}`recovery_stays_iff`: when recoveries stay inside the bodies they belong to,
  and functions end with their bodies.
-/

open Traced Brackets

namespace Cact

namespace Parser

/-! ## Around a body -/

/-- A body has not ended yet: the brace that closes it, with {lit}`rest` behind, is ahead. -/
def Enclosed (rest : List TokenKind) (p : Parser) : Prop :=
  AtEnd p ∧ Open .lBrace .rBrace rest p.ahead

/-- A body has not begun yet: the brace that opens it, with {lit}`ks` behind, is the first one
ahead. -/
def Outside (ks : List TokenKind) (p : Parser) : Prop :=
  AtEnd p ∧ ∃ inner, Plain inner ∧ p.ahead = inner ++ .lBrace :: ks

/-- In the loop of a body that begins in the state {lit}`p`, a recovery reads the closing
brace. -/
def Swallows (n : Nat) (m : Msg) (rest : List TokenKind) (p : Parser) : Prop :=
  ∃ stmts q q', LoopHead n m p stmts q ∧ q.curr.kind ≠ .rBrace ∧ q.curr.kind ≠ .eof ∧
    q.panicMode = true ∧ ((synchronize n).run q).outcome = .done () q' ∧
    ¬ KeepsBrace rest q q'

/-- With the step a block begins in which a recovery reads the closing brace. -/
def Lossy (st : Step Parser Event) : Prop :=
  st.label = .enter .block ∧ st.after.curr.kind = .lBrace ∧ ∃ n p rest,
    (openBlock.run st.after).outcome = .done () p ∧
    behind .lBrace .rBrace 0 p.ahead = some rest ∧ Swallows n .unexpectedInBlock rest p

/-- With the step a block or a brace list begins in front of {lit}`ks`. -/
def BeginsAt (ks : List TokenKind) (st : Step Parser Event) : Prop :=
  (st.label = .enter .block ∨ st.label = .enter .initializerList) ∧ st.after.ahead = ks

/-- With the step a block begins that loses its closing brace, or a block or a brace list
begins at a brace that belongs to a function: one of those with what is in {lit}`bodies`
behind. -/
def Spoils (bodies : List TokenKind → Prop) (st : Step Parser Event) : Prop :=
  Lossy st ∨ ∃ ks, bodies ks ∧ BeginsAt (.lBrace :: ks) st

/-- A place among the braces that is kept by all that reads other tokens only. -/
structure Place (bodies : List TokenKind → Prop) (here : Parser → Prop) : Prop where
  of_tokens : ∀ {p p' : Parser}, p'.rest = p.rest → p'.curr = p.curr → here p → here p'
  advance : ∀ {p : Parser}, here p → isBrace p.curr.kind = false →
    (advance.run p).Meets (Contract.unless (Spoils bodies)) fun _ => here

/-- If no step spoils it, the program keeps the place. -/
def Nests (bodies : List TokenKind → Prop) (here : Parser → Prop) {α : Type} (m : Parse α) :
    Prop :=
  ∀ p, here p → (m.run p).Meets (Contract.unless (Spoils bodies)) fun _ => here

/-- The same of a program that begins at an opening brace. -/
def Braced (bodies : List TokenKind → Prop) (here : Parser → Prop) {α : Type} (m : Parse α) :
    Prop :=
  ∀ p, here p → p.curr.kind = .lBrace →
    (m.run p).Meets (Contract.unless (Spoils bodies)) fun _ => here

variable {bodies : List TokenKind → Prop} {here : Parser → Prop}

/-- Keeping a place is a congruence. -/
theorem nests_congruence : Congruence fun {_} m _ => Nests bodies here m where
  pure _ _ hp := Prog.meets_pure hp
  bind hm hf p hp := Prog.meets_bind (hm p hp) fun a q => hf a q
  timeout _ _ _ := Prog.meets_timeout trivial
  fault _ _ := Prog.meets_fault trivial
  read _ _ hp := Prog.meets_read hp

section

variable {α β γ : Type} {m k : Parse α}

/-- Returning a value keeps every place. -/
theorem nests_pure (a : α) : Nests bodies here (pure a) := nests_congruence.pure a

/-- So does looking at the state. -/
theorem nests_read (f : Parser → α) : Nests bodies here (Prog.read f) :=
  nests_congruence.read f

/-- Two pieces in a row keep a place if each one does. -/
theorem nests_bind {f : α → Parse β} (hm : Nests bodies here m)
    (hf : ∀ a, Nests bodies here (f a)) : Nests bodies here (do let a ← m; f a) :=
  fun p hp => Prog.meets_bind (hm p hp) fun a q => hf a q

/-- So does a choice, if both branches do. -/
theorem nests_ite {b : Prop} [Decidable b] (hm : Nests bodies here m)
    (hk : Nests bodies here k) : Nests bodies here (if b then m else k) := by
  split
  · exact hm
  · exact hk

/-- So does a loop, if each round does. -/
theorem nests_loop {body : β → Parse (Iter β γ)} (hbody : ∀ b, Nests bodies here (body b))
    (n : Nat) (b : β) : Nests bodies here (loop body n b) := by
  intro p hp
  refine meets_loop (fun _ => here) trivial ?_ n hp
  intro b q hq
  refine (hbody b q hq).mono fun i _ hi => ?_
  cases i with
  | again _ => exact hi
  | leave _ => exact hi

end

/-! ## The places -/

section

variable {ks rest rest' : List TokenKind} {p p' : Parser}

/-- What lies ahead is a matter of the tokens. -/
theorem ahead_of_tokens (hrest : p'.rest = p.rest) (hcurr : p'.curr = p.curr) (hp : AtEnd p) :
    AtEnd p' ∧ p'.ahead = p.ahead := by
  unfold AtEnd ahead at *
  rw [hrest, hcurr]
  exact ⟨hp, rfl⟩

/-- Inside a body there is a token, its closing brace at the latest. -/
theorem Enclosed.ahead_ne_nil (hp : Enclosed rest p) : p.curr.kind ≠ .eof := by
  intro heof
  have hsuffix := hp.2.suffix
  unfold ahead at hsuffix
  rw [if_pos heof] at hsuffix
  exact absurd hsuffix.length_le (by simp)

/-- Being inside is a matter of the tokens. -/
theorem Enclosed.of_tokens (hrest : p'.rest = p.rest) (hcurr : p'.curr = p.curr)
    (hp : Enclosed rest p) : Enclosed rest p' := by
  obtain ⟨hp', hahead⟩ := ahead_of_tokens hrest hcurr hp.1
  exact ⟨hp', hahead ▸ hp.2⟩

/-- So is being in front of a body. -/
theorem Outside.of_tokens (hrest : p'.rest = p.rest) (hcurr : p'.curr = p.curr)
    (hp : Outside ks p) : Outside ks p' := by
  obtain ⟨hp', hahead⟩ := ahead_of_tokens hrest hcurr hp.1
  exact ⟨hp', hahead ▸ hp.2⟩

/-- A token that is no brace ends no body. -/
theorem place_enclosed (rest : List TokenKind) : Place bodies (Enclosed rest) where
  of_tokens := Enclosed.of_tokens
  advance {p} hp hkind := by
    refine (meets_advance_tokens hp.1).unless.mono ?_
    rintro _ q ⟨hq, hahead, -⟩
    refine ⟨hq, ?_⟩
    have hopen := hp.2
    rw [ahead_cons rfl hp.ahead_ne_nil] at hopen
    rw [hahead]
    refine hopen.tail ?_ ?_ <;>
      · intro hbrace
        rw [hbrace] at hkind
        cases hkind

/-- In front of a body there is an opening brace or another token. -/
theorem Outside.cases (hp : Outside ks p) : p.curr.kind ≠ .eof ∧
    (p.ahead = .lBrace :: ks ∧ p.curr.kind = .lBrace ∨
      isBrace p.curr.kind = false ∧ ∃ inner, Plain inner ∧
        p.ahead.tail = inner ++ .lBrace :: ks) := by
  obtain ⟨-, inner, hinner, hahead⟩ := hp
  have heof : p.curr.kind ≠ .eof := by
    intro heof
    unfold ahead at hahead
    rw [if_pos heof] at hahead
    cases inner <;> cases hahead
  refine ⟨heof, ?_⟩
  have hcons := ahead_cons rfl heof
  cases inner with
  | nil =>
      rw [hahead] at hcons
      exact Or.inl ⟨hahead, (List.cons.inj hcons).1.symm⟩
  | cons kind inner =>
      rw [hahead] at hcons ⊢
      obtain ⟨hkind, hinner⟩ := List.forall_mem_cons.mp hinner
      exact Or.inr ⟨(List.cons.inj hcons).1 ▸ hkind, inner, hinner, rfl⟩

/-- A token that is no brace begins no body. -/
theorem place_outside (ks : List TokenKind) : Place bodies (Outside ks) where
  of_tokens := Outside.of_tokens
  advance {p} hp hkind := by
    refine (meets_advance_tokens hp.1).unless.mono ?_
    rintro _ q ⟨hq, hahead, -⟩
    rcases hp.cases.2 with ⟨-, hbrace⟩ | ⟨-, inner, hinner, htail⟩
    · rw [hbrace] at hkind
      cases hkind
    · exact ⟨hq, inner, hinner, hahead.trans htail⟩

end

section

variable {rest rest' : List TokenKind} {p : Parser}

/-- A step that leaves the tokens alone keeps every place. -/
theorem nests_step (hhere : Place bodies here) {l : Event} {f : Parser → Parser}
    (hrest : ∀ p, (f p).rest = p.rest) (hcurr : ∀ p, (f p).curr = p.curr) :
    Nests bodies here (Prog.step l f) :=
  fun p hp => Prog.meets_step trivial (hhere.of_tokens (hrest p) (hcurr p) hp)

/-- A report keeps every place. -/
theorem nests_parserErrorAt (hhere : Place bodies here) (tok : Token) (m : Msg) :
    Nests bodies here (parserErrorAt tok m) :=
  nests_step hhere (fun p => errorAt_rest p tok m) fun p => errorAt_curr p tok m

/-- So does a report at the current token. -/
theorem nests_parserError (hhere : Place bodies here) (m : Msg) :
    Nests bodies here (parserError m) :=
  congr_parserError nests_congruence.reading (nests_parserErrorAt hhere) m

/-- A token that is not there changes no place. -/
theorem meets_consume_other (hhere : Place bodies here) {kind : TokenKind} (hp : here p)
    (hkind : p.curr.kind ≠ kind) (m : Msg) :
    ((consume kind m).run p).Meets (Contract.unless (Spoils bodies)) fun _ => here := by
  unfold consume checkKind
  rw [Prog.run_read_bind, if_neg (by simpa using hkind)]
  exact nests_parserError hhere m p hp

/-- An opening brace opens another body, which is closed before those around it. -/
theorem meets_open (hp : Enclosed rest p) (hkind : p.curr.kind = .lBrace) (m : Msg) :
    ((consume .lBrace m).run p).Meets (Contract.unless (Spoils bodies)) fun _ q =>
      AtEnd q ∧ ∃ rest', behind .lBrace .rBrace 0 q.ahead = some rest' ∧
        Open .lBrace .rBrace rest rest' := by
  refine Run.Meets.unless (Run.meets_lax_iff.mpr fun _ q hout => ?_)
  obtain ⟨hq, hahead⟩ := ahead_of_consume hp.1 hkind (by decide) hout
  have hopen := hp.2
  rw [hahead] at hopen
  exact ⟨hq, hopen.opened⟩

/-- A closing brace ends the inner body at most. -/
theorem meets_close (hp : Enclosed rest' p) (hrest : Open .lBrace .rBrace rest rest') (m : Msg) :
    ((consume .rBrace m).run p).Meets (Contract.unless (Spoils bodies)) fun _ =>
      Enclosed rest := by
  by_cases hkind : p.curr.kind = .rBrace
  · refine Run.Meets.unless (Run.meets_lax_iff.mpr fun _ q hout => ?_)
    obtain ⟨hq, hahead⟩ := ahead_of_consume hp.1 hkind (by decide) hout
    have hopen := hp.2
    rw [hahead] at hopen
    exact ⟨hq, hopen.closed (by decide) hrest⟩
  · exact meets_consume_other (place_enclosed rest) ⟨hp.1, hp.2.trans hrest⟩ hkind m

/-- What begins with the step of a block or of a brace list spoils the brace of a function. -/
theorem braced_outside {α : Type} {ks : List TokenKind} (hks : bodies ks) {l : Event}
    (hl : l = .enter .block ∨ l = .enter .initializerList) (m : Parse α) :
    Braced bodies (Outside ks) (do Prog.mark l; m) := by
  intro p hp hkind
  rcases hp.cases.2 with ⟨hahead, -⟩ | ⟨hbrace, -⟩
  · exact Prog.meets_bind_escape (Prog.meets_step_escape (Or.inr ⟨ks, hks, hl, hahead⟩))
  · rw [hkind] at hbrace
    cases hbrace

end

/-! ## Expressions -/

section

variable (hhere : Place bodies here)

include hhere

/-- A token that is no brace may be taken. -/
theorem nests_matchKind (kind : TokenKind) (h : isBrace kind = false) :
    Nests bodies here (matchKind kind) := by
  intro p hp
  unfold matchKind
  refine meets_if_check ?_ ?_
  · intro hkind
    refine Prog.meets_bind (hhere.advance hp (hkind ▸ h)) ?_
    exact fun _ _ hq => Prog.meets_pure hq
  · exact fun _ => Prog.meets_pure hp

/-- Such a token may also be demanded. -/
theorem nests_consume (kind : TokenKind) (m : Msg) (h : isBrace kind = false) :
    Nests bodies here (consume kind m) := by
  intro p hp
  by_cases hkind : p.curr.kind = kind
  · unfold consume checkKind
    rw [Prog.run_read_bind, if_pos (by simpa using hkind)]
    exact hhere.advance hp (hkind ▸ h)
  · exact meets_consume_other hhere hp hkind m

omit hhere in
/-- No operator is a brace. -/
theorem isBrace_of_getPrec {kind : TokenKind} (h : 0 ≤ getPrec kind) : isBrace kind = false := by
  cases kind <;> first | rfl | exact absurd h (by decide)

/-- Expressions read no braces. -/
theorem nests_exprs :
    Braceless (fun {_} m _ => Nests bodies here m) fun prec => 0 ≤ prec where
  toReading := nests_congruence.reading
  lowest := Int.le_refl 0
  above kind := by
    cases kind <;> decide
  matchKind := nests_matchKind hhere
  consume := nests_consume hhere
  operator := by
    intro _ prec m _ k _ hprec hm hk p hp
    rw [Prog.run_read_bind]
    split
    · exact hm p hp
    · rename_i hop
      have hbrace : isBrace p.curr.kind = false := isBrace_of_getPrec (by omega)
      exact Prog.meets_bind (hhere.advance hp hbrace) fun _ q hq => hk _ q hq
  parserErrorAt := nests_parserErrorAt hhere
  ctxError _ _ := nests_step hhere (fun _ => rfl) fun _ => rfl
  fault _ _ := Prog.meets_fault trivial
  exprMark _ := nests_step hhere (fun _ => rfl) fun _ => rfl

end

/-! ## Declarations -/

/-- At a brace the braced piece is taken, and elsewhere the other one. -/
theorem nests_if_brace {α : Type} {m k : Parse α} (hm : Braced bodies here m)
    (hk : Nests bodies here k) :
    Nests bodies here (do if ← checkKind .lBrace then m else k) := by
  intro p hp
  refine meets_if_check ?_ ?_
  · exact fun hkind => hm p hp hkind
  · exact fun _ => hk p hp

section

variable {i e a : Parse (Option Node)} {n : Nat}

section

variable (hhere : Place bodies here)

include hhere

/-- The elements of a brace list, from their parts. -/
theorem nests_parseElements (hi : Braced bodies here i) (ha : Nests bodies here a) :
    Nests bodies here (parseElements i a n) := by
  refine nests_bind (nests_read _) fun _ => nests_ite (nests_pure _) ?_
  refine nests_loop (fun inits => ?_) n []
  refine nests_bind (nests_if_brace hi ha) fun _ => ?_
  exact nests_bind (nests_matchKind hhere _ rfl) fun _ => nests_ite (nests_pure _) (nests_pure _)

/-- A definition keeps every place. -/
theorem nests_define (name : Symbol) (ty : Option Ty) (isConst : Bool) :
    Nests bodies here (semaDefineVar name ty isConst) :=
  congr_semaDefineVar nests_congruence.reading (nests_exprs hhere).ctxError
    (nests_step hhere (fun _ => rfl) fun _ => rfl)

/-- So does keeping a field. -/
theorem nests_keepField (field : Option Node) : Nests bodies here (keepField field) :=
  congr_keepField nests_congruence (nests_step hhere (fun _ => rfl) fun _ => rfl) field field rfl

/-- So does reading the field of a new node. -/
theorem nests_newNodeField {α : Type} {k : Option Node → Parse α}
    (hk : ∀ a, Nests bodies here (k a)) : Nests bodies here (newNodeField >>= k) :=
  congr_newNodeField nests_congruence (nests_step hhere (fun _ => rfl) fun _ => rfl) k k
    fun a _ _ => hk a

/-- An initializer, from its parts. -/
theorem nests_parseInit (hi : Braced bodies here i) (he : Nests bodies here e)
    (ty : Option ObjTy) (isConst : Bool) (tok : Token) (field : Option Node) :
    Nests bodies here (parseInit i e ty isConst tok field) := by
  have hkeep := nests_keepField hhere field
  refine nests_bind (nests_matchKind hhere _ rfl) fun _ => nests_ite ?_ (nests_ite ?_ hkeep)
  · refine nests_if_brace hi (nests_bind he fun init => nests_bind ?_ fun _ => nests_pure _)
    exact congr_checkInit nests_congruence.reading (nests_exprs hhere).ctxError _ _ _
  · exact nests_bind (nests_parserError hhere _) fun _ => hkeep

/-- A declarator, from its parts. -/
theorem nests_parseDeclarator (hi : Braced bodies here i) (he : Nests bodies here e)
    (baseTy : ObjTy) (isConst : Bool) (name : Symbol) :
    Nests bodies here (parseDeclarator i e n baseTy isConst name) := by
  refine nests_bind ((nests_exprs hhere).parseArrayDims le_rfl _) fun _ => ?_
  refine nests_bind (nests_define hhere _ _ _) fun _ => nests_bind (nests_read _) fun _ => ?_
  refine nests_newNodeField hhere fun _ => ?_
  exact nests_bind (nests_parseInit hhere hi he _ _ _ _) fun _ => nests_pure _

/-- A declarator and the comma behind it. -/
theorem nests_declaratorIter (hi : Braced bodies here i) (he : Nests bodies here e)
    (baseTy : ObjTy) (isConst : Bool) (st : Option Symbol × List Node) :
    Nests bodies here (declaratorIter i e n baseTy isConst st) := by
  refine nests_bind ?_ fun name => ?_
  · exact congr_parseDeclaratorName nests_congruence.reading (nests_matchKind hhere _ rfl)
      (nests_parserError hhere) st.1
  cases name with
  | none => exact nests_pure _
  | some name =>
      refine nests_bind (nests_parseDeclarator hhere hi he _ _ _) fun _ => ?_
      refine nests_bind (nests_matchKind hhere _ rfl) fun _ => ?_
      exact nests_ite (nests_pure _) (nests_pure _)

variable (hi : ∀ n, Braced bodies here (parseInitializerList n))

include hi

/-- The declarators of a declaration. -/
theorem nests_parseVarDeclList (baseTy : ObjTy) (name : Symbol) (isConst isGlobal : Bool) :
    Nests bodies here (parseVarDeclList n baseTy name isConst isGlobal) := by
  refine nests_bind ((nests_exprs hhere).exprMark rfl) fun _ => nests_bind ?_ fun _ => ?_
  · have he := (nests_exprs hhere).parseExpr (le_refl n)
    exact nests_loop (nests_declaratorIter hhere (hi n) he _ _) _ _
  · exact nests_bind (nests_consume hhere _ _ rfl) fun _ => nests_pure _

/-- Declarations read no braces but those of brace lists. -/
theorem nests_parseDecl (n : Nat) : Nests bodies here (parseDecl n) := by
  refine nests_bind (nests_step hhere (fun _ => rfl) fun _ => rfl) fun _ => ?_
  refine nests_bind (nests_matchKind hhere _ rfl) fun isConst => ?_
  intro p hp
  rw [Prog.run_read_bind]
  cases hty : tokenToType p.curr.kind with
  | none => exact nests_bind (nests_parserError hhere _) (fun _ => nests_pure _) p hp
  | some baseTy =>
      have hbrace : isBrace p.curr.kind = false := by
        revert hty
        cases p.curr.kind <;> simp [isBrace, tokenToType]
      refine Prog.meets_bind (hhere.advance hp hbrace) fun _ q hq => ?_
      refine nests_bind (nests_matchKind hhere _ rfl) (fun _ => nests_ite ?_ ?_) q hq
      · exact nests_bind (nests_read _) fun _ => nests_parseVarDeclList hhere hi _ _ _ _
      · exact nests_bind (nests_parserError hhere _) fun _ => nests_pure _

end

/-- A brace list reads its own braces. -/
theorem braced_initializerListBody (hi : ∀ rest, Braced bodies (Enclosed rest) i)
    (ha : ∀ rest, Nests bodies (Enclosed rest) a) (rest : List TokenKind) :
    Braced bodies (Enclosed rest) (parseInitializerListBody i a n) := by
  intro p hp hkind
  refine Prog.meets_mark_bind trivial ?_
  refine Prog.meets_bind (meets_open hp hkind _) ?_
  rintro _ q ⟨hq, rest', hbehind, hrest⟩
  have helements := nests_parseElements (place_enclosed rest') (hi rest') (ha rest') (n := n)
  refine Prog.meets_bind (helements q ⟨hq, 0, hbehind⟩) ?_
  intro _ q hq
  exact Prog.meets_bind (meets_close hq hrest _) fun _ _ hq => Prog.meets_pure hq

/-- Inside a body, a brace list ends at its own closing brace. -/
theorem braced_initializerList (n : Nat) (rest : List TokenKind) :
    Braced bodies (Enclosed rest) (parseInitializerList n) := by
  induction n generalizing rest with
  | zero => exact fun _ _ _ => Prog.meets_timeout trivial
  | succ n ih =>
      refine braced_initializerListBody ih (fun rest => ?_) rest
      exact (nests_exprs (place_enclosed rest)).parseAssign le_rfl

/-- In front of a body, a brace list does not take the brace of the body for its own, unless the
run is spoilt. -/
theorem braced_initializerList_outside {ks : List TokenKind} (hks : bodies ks) (n : Nat) :
    Braced bodies (Outside ks) (parseInitializerList n) := by
  cases n with
  | zero => exact fun _ _ _ => Prog.meets_timeout trivial
  | succ n => exact braced_outside hks (Or.inr rfl) _

end

/-! ## Statements -/

section

variable (hhere : Place bodies here) {e s b : Parse (Option Node)}

include hhere

/-- The analysis of a return statement keeps every place. -/
theorem nests_semaAnalyzeReturn (tok : Token) (lhs : Option Node) :
    Nests bodies here (semaAnalyzeReturn tok lhs) :=
  congr_semaAnalyzeReturn nests_congruence.reading
    (nests_step hhere (fun _ => rfl) fun _ => rfl) (nests_exprs hhere).ctxError tok lhs

/-- The assignment that a statement may turn out to be. -/
theorem nests_parseStmtAssign (he : Nests bodies here e) (expr : Node) :
    Nests bodies here (parseStmtAssign e expr) :=
  congr_parseStmtAssign nests_congruence.reading (nests_matchKind hhere _ rfl)
    (nests_parserError hhere) (fun _ _ _ => (nests_exprs hhere).semaAnalyzeAssign _ _ _)
    e e he expr

/-- A statement, from its parts. -/
theorem nests_parseStmtBody (he : Nests bodies here e) (hs : Nests bodies here s)
    (hb : Braced bodies here b) : Nests bodies here (parseStmtBody e s b) := by
  have hcond {α : Type} {k : Option Node → Parse α} (hk : ∀ cond, Nests bodies here (k cond)) :
      Nests bodies here (do
        consume .lParen .expectLParen; let cond ← e; consume .rParen .expectRParen; k cond) :=
    nests_bind (nests_consume hhere _ _ rfl) fun _ => nests_bind he fun _ =>
      nests_bind (nests_consume hhere _ _ rfl) fun _ => hk _
  have hjump (node : Node) : Nests bodies here (do
      consume .semicolon .expectSemicolon; return (some node : Option Node)) :=
    nests_bind (nests_consume hhere _ _ rfl) fun _ => nests_pure _
  refine nests_bind (nests_step hhere (fun _ => rfl) fun _ => rfl) fun _ => ?_
  refine nests_bind (nests_matchKind hhere _ rfl) fun _ => nests_ite ?_ ?_
  · refine nests_newNodeField hhere fun field => hcond fun _ => nests_bind hs fun _ => ?_
    refine nests_bind ?_ fun _ => nests_pure _
    exact nests_bind (nests_matchKind hhere _ rfl) fun _ => nests_ite hs (nests_keepField hhere _)
  refine nests_bind (nests_matchKind hhere _ rfl) fun _ => nests_ite ?_ ?_
  · exact hcond fun _ => nests_bind hs fun _ => nests_pure _
  refine nests_bind (nests_matchKind hhere _ rfl) fun _ => nests_ite ?_ ?_
  · refine nests_bind (nests_read _) fun _ => nests_newNodeField hhere fun field => ?_
    refine nests_bind ?_ fun _ => nests_bind (nests_consume hhere _ _ rfl) fun _ => ?_
    · exact nests_bind (nests_read _) fun _ => nests_ite (nests_keepField hhere _) he
    · exact nests_bind (nests_semaAnalyzeReturn hhere _ _) fun _ => nests_pure _
  refine nests_bind (nests_matchKind hhere _ rfl) fun _ => nests_ite (hjump _) ?_
  refine nests_bind (nests_matchKind hhere _ rfl) fun _ => nests_ite (hjump _) ?_
  refine nests_if_brace hb (nests_bind he fun expr => ?_)
  cases expr with
  | none => exact nests_pure _
  | some expr => exact nests_bind (nests_parseStmtAssign hhere he _) fun _ => hjump _

/-- Statements read no braces but those of blocks. -/
theorem nests_parseStmt (hb : ∀ n, Braced bodies here (parseBlock n)) (n : Nat) :
    Nests bodies here (parseStmt n) := by
  induction n with
  | zero => exact fun _ _ => Prog.meets_timeout trivial
  | succ n ih =>
      exact nests_parseStmtBody hhere ((nests_exprs hhere).parseExpr le_rfl) ih (hb n)

end

/-! ## Bodies -/

/-- A body has not ended yet.  It need not have begun, if its opening brace is known. -/
def Pending (bodies : List TokenKind → Prop) (rest : List TokenKind) (p : Parser) : Prop :=
  Enclosed rest p ∨
    ∃ ks, bodies ks ∧ behind .lBrace .rBrace 0 ks = some rest ∧ Outside ks p

section

variable {rest ks : List TokenKind} {n : Nat} {m : Msg} {p q : Parser}

/-- The loop of a body does not stop in front of it. -/
theorem Pending.enclosed (h : Pending bodies rest q)
    (hends : q.curr.kind = .rBrace ∨ q.curr.kind = .eof) : Enclosed rest q := by
  rcases h with h | ⟨ks, -, -, h⟩
  · exact h
  · obtain ⟨heof, hcases⟩ := h.cases
    rcases hends with hends | hends
    · rcases hcases with ⟨-, hkind⟩ | ⟨hkind, -⟩
      · exact absurd (hends.symm.trans hkind) (by decide)
      · rw [hends] at hkind
        cases hkind
    · exact absurd hends heof

/-- An item of a body changes no place: the brace at which the loop stops is never taken for
one. -/
theorem meets_bodyItem_here {d s : Parse (Option Node)} (hhere : Place bodies here)
    (hd : Nests bodies here d) (hs : Nests bodies here s) (hq : here q)
    (hbrace : q.curr.kind ≠ .rBrace) (stmts : List Node) :
    ((bodyItem d s m stmts).run q).Meets (Contract.unless (Spoils bodies)) fun i q' =>
      (∃ stmts', i = .again stmts') ∧ here q' := by
  rw [bodyItem, Prog.run_read_bind]
  split
  · rename_i hunexpected
    have hkind : isBrace q.curr.kind = false := by
      revert hunexpected hbrace
      cases q.curr.kind <;> simp [isBrace, isStmtStart]
    refine Prog.meets_bind (nests_parserError hhere m q hq).and_outcome ?_
    rintro _ q' ⟨hout, hq'⟩
    have hcurr : q'.curr = q.curr := by
      cases hout
      exact errorAt_curr _ _ _
    refine Prog.meets_bind (hhere.advance hq' (hcurr ▸ hkind)) ?_
    exact fun _ _ h => Prog.meets_pure ⟨⟨_, rfl⟩, h⟩
  · split
    · exact Prog.meets_bind (hd q hq) fun _ _ h => Prog.meets_pure ⟨⟨_, rfl⟩, h⟩
    · exact Prog.meets_bind (hs q hq) fun _ _ h => Prog.meets_pure ⟨⟨_, rfl⟩, h⟩

/-- A recovery that leaves the closing brace does not end the body. -/
theorem meets_synchronize_enclosed (hq : Enclosed rest q)
    (hkeeps : ∀ q', ((synchronize n).run q).outcome = .done () q' → KeepsBrace rest q q') :
    ((synchronize n).run q).Meets (Contract.unless (Spoils bodies)) fun _ => Enclosed rest := by
  refine Run.Meets.unless (Run.meets_lax_iff.mpr fun _ q' hout => ?_)
  obtain ⟨hq', hahead⟩ := Run.meets_lax_iff.mp (meets_resume n hq.1) () q' hout
  have hsuffix : q'.ahead <:+ q.ahead := by
    rw [hahead]
    exact resume_suffix _ _
  exact ⟨hq', hq.2.of_suffix (hkeeps q' hout hq.2.suffix) hsuffix⟩

/-- From in front of a body a recovery that leaves the closing brace stays there, or it gets
inside. -/
theorem meets_synchronize_outside (hq : Outside ks q)
    (hrest : behind .lBrace .rBrace 0 ks = some rest)
    (hkeeps : ∀ q', ((synchronize n).run q).outcome = .done () q' → KeepsBrace rest q q') :
    ((synchronize n).run q).Meets (Contract.unless (Spoils bodies)) fun _ q' =>
      Outside ks q' ∨ Enclosed rest q' := by
  refine Run.Meets.unless (Run.meets_lax_iff.mpr fun _ q' hout => ?_)
  obtain ⟨hend, inner, hinner, hahead⟩ := hq
  obtain ⟨hq', hresume⟩ := Run.meets_lax_iff.mp (meets_resume n hend) () q' hout
  have hsuffix : q'.ahead <:+ inner ++ .lBrace :: ks := by
    rw [hresume, hahead]
    exact resume_suffix _ _
  have hclose : .rBrace :: rest <:+ q'.ahead := by
    refine hkeeps q' hout ?_
    rw [hahead]
    exact (suffix_of_behind hrest).trans
      ((List.suffix_cons _ _).trans (List.suffix_append inner _))
  -- What is left begins in front of the opening brace or behind it.
  rcases List.suffix_or_suffix_of_suffix hsuffix (List.suffix_append inner _) with h | h
  · rcases List.suffix_cons_iff.mp h with heq | h
    · exact Or.inl ⟨hq', [], fun _ hkind => absurd hkind List.not_mem_nil, heq⟩
    · exact Or.inr ⟨hq', Open.of_suffix ⟨0, hrest⟩ hclose h⟩
  · obtain ⟨inner', heq⟩ := h
    rw [← heq] at hsuffix
    obtain ⟨skipped, hskipped⟩ := hsuffix
    rw [← List.append_assoc] at hskipped
    have hinner' : skipped ++ inner' = inner := List.append_cancel_right hskipped
    refine Or.inl ⟨hq', inner', fun kind hkind => hinner kind ?_, heq.symm⟩
    exact hinner' ▸ List.mem_append_right skipped hkind

/-- A recovery that keeps the closing brace stays with the body. -/
theorem meets_synchronize_pending (hq : Pending bodies rest q)
    (hkeeps : ∀ q', ((synchronize n).run q).outcome = .done () q' → KeepsBrace rest q q') :
    ((synchronize n).run q).Meets (Contract.unless (Spoils bodies)) fun _ =>
      Pending bodies rest := by
  rcases hq with hq | ⟨ks, hks, hrest, hq⟩
  · exact (meets_synchronize_enclosed hq hkeeps).mono fun _ _ => Or.inl
  · refine (meets_synchronize_outside hq hrest hkeeps).mono fun _ _ h => ?_
    exact h.elim (fun h => Or.inr ⟨ks, hks, hrest, h⟩) Or.inl

/-- What is read in front of a body and inside keeps the body pending. -/
theorem nests_pending {α : Type} {k : Parse α} (hk : Nests bodies (Enclosed rest) k)
    (hk' : ∀ ks, bodies ks → Nests bodies (Outside ks) k) :
    Nests bodies (Pending bodies rest) k := by
  rintro q (hq | ⟨ks, hks, hrest, hq⟩)
  · exact (hk q hq).mono fun _ _ => Or.inl
  · exact (hk' ks hks q hq).mono fun _ _ hq => Or.inr ⟨ks, hks, hrest, hq⟩

/-- Being inside a body or in front of it is a place. -/
theorem place_pending (rest : List TokenKind) : Place bodies (Pending bodies rest) where
  of_tokens hrest hcurr := Or.imp (Enclosed.of_tokens hrest hcurr)
    fun ⟨ks, hks, hbehind, hp⟩ => ⟨ks, hks, hbehind, hp.of_tokens hrest hcurr⟩
  advance := by
    rintro p (hp | ⟨ks, hks, hrest, hp⟩) hkind
    · exact ((place_enclosed rest).advance hp hkind).mono fun _ _ => Or.inl
    · refine ((place_outside ks).advance hp hkind).mono fun _ _ hq => ?_
      exact Or.inr ⟨ks, hks, hrest, hq⟩

/-- A step of the loop of a body keeps the body pending, if its recovery leaves the closing
brace; and the loop stops inside. -/
theorem meets_bodyIter_pending {d s : Parse (Option Node)} (hd : Nests bodies (Pending bodies rest) d)
    (hs : Nests bodies (Pending bodies rest) s) (hq : Pending bodies rest q) (stmts : List Node)
    (hkeeps : q.curr.kind ≠ .rBrace → q.curr.kind ≠ .eof → q.panicMode = true → ∀ q',
      ((synchronize n).run q).outcome = .done () q' → KeepsBrace rest q q') :
    ((bodyIter d s m n stmts).run q).Meets (Contract.unless (Spoils bodies)) fun i q' =>
      match i with
      | .again _ => Pending bodies rest q'
      | .leave _ => Enclosed rest q' := by
  unfold bodyIter bodyEnds
  rw [Prog.run_read_bind]
  split
  · rename_i hends
    exact Prog.meets_pure (hq.enclosed (by simpa using hends))
  rename_i hends
  obtain ⟨hbrace, heof⟩ : q.curr.kind ≠ .rBrace ∧ q.curr.kind ≠ .eof := by simpa using hends
  refine Prog.meets_bind (R := fun b q => Pending bodies rest q ∧
    (b = true → Enclosed rest q) ∧ (b = false → q.curr.kind ≠ .rBrace)) ?_ ?_
  · unfold recoverInBody
    rw [Prog.run_read_bind]
    split
    · rename_i hpanic
      refine Prog.meets_bind (meets_synchronize_pending hq (hkeeps hbrace heof hpanic)) ?_
      intro _ q' hq'
      refine Prog.meets_read ⟨hq', fun hends' => hq'.enclosed (by simpa using hends'), ?_⟩
      intro hends' hkind
      simp [hkind] at hends'
    · exact Prog.meets_pure ⟨hq, fun h => Bool.noConfusion h, fun _ => hbrace⟩
  · rintro b q' ⟨hq', hinside, hbrace'⟩
    cases b with
    | true => exact Prog.meets_pure (hinside rfl)
    | false =>
        have hitem := meets_bodyItem_here (m := m) (place_pending rest) hd hs hq' (hbrace' rfl)
        refine (hitem stmts).mono ?_
        rintro _ q'' ⟨⟨_, rfl⟩, hq''⟩
        exact hq''

/-- The loop of a body stops inside, if none of its recoveries reads the closing brace. -/
theorem meets_bodyItems (hs : Nests bodies (Pending bodies rest) (parseStmt n))
    (hd : Nests bodies (Pending bodies rest) (parseDecl n)) (hp : Pending bodies rest p)
    (hkeeps : ¬ Swallows n m rest p) :
    ((bodyItems n m).run p).Meets (Contract.unless (Spoils bodies)) fun _ => Enclosed rest := by
  refine meets_loop (fun stmts q => LoopHead n m p stmts q ∧ Pending bodies rest q) trivial ?_ n
    ⟨LoopHead.start, hp⟩
  rintro stmts q ⟨hhead, hq⟩
  refine (meets_bodyIter_pending hd hs hq stmts ?_).and_outcome.mono ?_
  · intro hbrace heof hpanic q' hsync
    by_contra hbad
    exact hkeeps ⟨stmts, q, q', hhead, hbrace, heof, hpanic, hsync, hbad⟩
  · rintro i q' ⟨hout, hq'⟩
    cases i with
    | again stmts' => exact ⟨hhead.again hout, hq'⟩
    | leave stmts' => exact hq'

end

/-! ## Everything that is read in a body -/

section

variable {n : Nat}

/-- A declaration in front of a body stays in front of it. -/
theorem nests_decl_outside {ks : List TokenKind} (hks : bodies ks) :
    Nests bodies (Outside ks) (parseDecl n) :=
  nests_parseDecl (place_outside ks) (braced_initializerList_outside hks) n

/-- So does a statement. -/
theorem nests_stmt_outside {ks : List TokenKind} (hks : bodies ks) :
    Nests bodies (Outside ks) (parseStmt n) := by
  refine nests_parseStmt (place_outside ks) (fun n => ?_) n
  cases n with
  | zero => exact fun _ _ _ => Prog.meets_timeout trivial
  | succ n => exact parseBlock_eq n ▸ braced_outside hks (Or.inl rfl) _

/-- A declaration stays with the body. -/
theorem nests_decl (rest : List TokenKind) : Nests bodies (Pending bodies rest) (parseDecl n) :=
  nests_pending (nests_parseDecl (place_enclosed rest) (fun n => braced_initializerList n rest) n)
    fun _ => nests_decl_outside

/-- A block reads its own braces. -/
theorem braced_parseBlock (hs : ∀ rest, Nests bodies (Enclosed rest) (parseStmt n))
    (rest : List TokenKind) : Braced bodies (Enclosed rest) (parseBlock (n + 1)) := by
  intro p hp hkind
  rw [parseBlock_eq]
  by_cases hlossy : Lossy ⟨.enter .block, p, p⟩
  · exact Prog.meets_bind_escape (Prog.meets_step_escape (Or.inl hlossy))
  refine Prog.meets_mark_bind trivial ?_
  have hopen : (openBlock.run p).Meets (Contract.unless (Spoils bodies)) fun _ q => AtEnd q ∧
      ∃ rest', behind .lBrace .rBrace 0 q.ahead = some rest' ∧
        Open .lBrace .rBrace rest rest' := by
    refine Prog.meets_bind (meets_open hp hkind _) fun _ q hq => ?_
    exact Prog.meets_step trivial hq
  refine Prog.meets_bind hopen.and_outcome ?_
  rintro _ q ⟨hout, hq, rest', hbehind, hrest⟩
  have hstmt := nests_pending (hs rest') fun _ => nests_stmt_outside
  refine Prog.meets_bind (meets_bodyItems hstmt (nests_decl rest') (Or.inl ⟨hq, 0, hbehind⟩) ?_) ?_
  · exact fun hswallows => hlossy ⟨rfl, hkind, n, q, rest', hout, hbehind, hswallows⟩
  intro stmts q hq
  have hleave : Nests bodies (Enclosed rest') semaScopeLeave :=
    nests_step (place_enclosed rest') (fun _ => rfl) fun _ => rfl
  refine Prog.meets_bind (hleave q hq) fun _ q hq => ?_
  exact Prog.meets_bind (meets_close hq hrest _) fun _ _ hq => Prog.meets_pure hq

/-- Both statement functions at once, by induction on the budget. -/
theorem nests_statements (n : Nat) :
    (∀ rest, Braced bodies (Enclosed rest) (parseBlock n)) ∧
      ∀ rest, Nests bodies (Enclosed rest) (parseStmt n) := by
  induction n with
  | zero =>
      exact ⟨fun _ _ _ _ => Prog.meets_timeout trivial, fun _ _ _ => Prog.meets_timeout trivial⟩
  | succ n ih =>
      obtain ⟨hblock, hstmt⟩ := ih
      refine ⟨braced_parseBlock hstmt, fun rest => ?_⟩
      refine nests_parseStmtBody (place_enclosed rest) ?_ (hstmt rest) (hblock rest)
      exact (nests_exprs (place_enclosed rest)).parseExpr le_rfl

/-- So does a statement. -/
theorem nests_stmt (rest : List TokenKind) : Nests bodies (Pending bodies rest) (parseStmt n) :=
  nests_pending ((nests_statements n).2 rest) fun _ => nests_stmt_outside

end

/-! ## Functions -/

section

variable {n : Nat}

/-- A function ends no later than with the brace that closes its body. -/
theorem meets_funcBody {rest : List TokenKind} {p : Parser} (hp : Pending bodies rest p)
    (hkeeps : ¬ Swallows n .unexpectedInBody rest p) :
    ((funcBody n).run p).Meets (Contract.unless (Spoils bodies)) fun _ q =>
      rest <:+ q.ahead := by
  have hitems := meets_bodyItems (nests_stmt rest) (nests_decl rest) hp hkeeps
  refine Prog.meets_bind hitems fun stmts q hq => ?_
  refine Prog.meets_bind (R := fun _ q => rest <:+ q.ahead) ?_ fun _ q hq => ?_
  · by_cases hkind : q.curr.kind = .rBrace
    · refine Run.Meets.unless (Run.meets_lax_iff.mpr fun _ q' hout => ?_)
      have hsuffix := hq.2.suffix
      rw [(ahead_of_consume hq.1 hkind (by decide) hout).2, List.suffix_cons_iff] at hsuffix
      rcases hsuffix with heq | hsuffix
      · rw [List.tail_eq_of_cons_eq heq]
      · exact (List.suffix_cons _ _).trans hsuffix
    · refine (meets_consume_other (place_enclosed rest) hq hkind _).mono fun _ q' hq' => ?_
      exact (List.suffix_cons _ _).trans hq'.2.suffix
  · refine Prog.meets_bind (R := fun _ q => rest <:+ q.ahead) (Prog.meets_step trivial hq) ?_
    intro _ q hq
    refine Prog.meets_bind (R := fun _ q => rest <:+ q.ahead) (Prog.meets_step trivial hq) ?_
    exact fun _ q hq => Prog.meets_pure hq

/-- The function that sets its return type with the step ends no later than with the brace
that closes its body. -/
def EndsInside (n : Nat) (bodies : List TokenKind → Prop) (st : Step Parser Event) : Prop :=
  st.label = .setFuncRet → st.after.sema.currFuncRet ≠ none → ∀ p q rest node q',
    ((paramList n (st.after.sema.funcs.length - 1)).run st.after).outcome = .done () p →
    ((consume .lBrace .expectLBrace).run p).outcome = .done () q → Pending bodies rest q →
    ¬ Swallows n .unexpectedInBody rest q →
    ((funcBody n).run q).outcome = .done node q' → rest <:+ q'.ahead

/-- All functions end so, unless a block spoils it. -/
def endsInside (n : Nat) (bodies : List TokenKind → Prop) : Contract Parser Event :=
  ⟨Spoils bodies, EndsInside n bodies, fun _ => True, True⟩

/-- What never sets a return type begins no function. -/
theorem meets_endsInside {α : Type} {m : Parse α} (hm : Emits (fun e => e ≠ .setFuncRet) m)
    (p : Parser) : (m.run p).Meets (endsInside n bodies) fun _ _ => True := by
  refine (Run.meets_lax_true _).of_lax ?_ (fun _ => trivial) trivial
  exact fun st hst hlabel => absurd hlabel (hm.emits trivial hst)

/-- Nothing inside a body sets the return type. -/
theorem emits_bodies : Body fun {_} m _ => Emits (fun e => e ≠ .setFuncRet) m :=
  emits_body fun e he => by
    rintro rfl
    cases he

/-- Neither do the parameters. -/
theorem emits_signatures : Signature fun {_} m _ => Emits (fun e => e ≠ .setFuncRet) m :=
  emits_signature fun e he => by
    rintro rfl
    cases he

/-- The body of a function. -/
theorem endsInside_funcBody (p : Parser) :
    ((funcBody n).run p).Meets (endsInside n bodies) fun _ _ => True := by
  refine Prog.meets_bind (meets_endsInside (emits_bodies.bodyLoop le_rfl _ _) p) ?_
  intro stmts q _
  refine Prog.meets_bind (meets_endsInside (emits_bodies.consume _ _) q) fun _ q _ => ?_
  refine Prog.meets_bind (meets_endsInside (emits_step (by decide)) q) fun _ q _ => ?_
  -- The step that ends a function sets no return type.
  refine Prog.meets_bind (R := fun _ _ => True) (Prog.meets_step ?_ trivial) ?_
  · exact fun _ hret => absurd rfl hret
  · exact fun _ _ _ => Prog.meets_pure trivial

/-- A function, from its opening parenthesis. -/
theorem endsInside_parseFunc (retTy : ObjTy) (name : Symbol) (p : Parser) :
    ((parseFunc n retTy name).run p).Meets (endsInside n bodies) fun _ _ => True := by
  rw [parseFunc_eq]
  have hsignature : Emits (fun e => e ≠ .setFuncRet) (signature retTy name) := by
    refine emits_bind (emits_step (by decide)) fun _ => ?_
    refine emits_bind (emits_signatures.consume _ _) fun _ => ?_
    refine emits_bind (emits_signatures.typeFuncNew _) fun _ => ?_
    exact emits_bind (emits_signatures.define _ _ _) fun _ => emits_signatures.pure _
  have hlast := (meets_signature retTy name p).of_lax (c := endsInside n bodies)
    (fun st hst hlabel => absurd hlabel (hsignature.emits trivial hst)) (fun _ => trivial) trivial
  refine Prog.meets_bind hlast fun funcTy q hfunc => ?_
  by_cases hlossy : ∃ st ∈ ((do
      setFuncRet (some retTy)
      paramList n funcTy
      consume .lBrace .expectLBrace
      funcBody n : Parse (Option Node)).run q).steps, Spoils bodies st
  · exact Or.inl hlossy
  refine Prog.meets_bind (R := fun _ _ => True) (Prog.meets_step ?_ trivial) fun _ q _ => ?_
  · -- The rest of this run is the body that the step speaks of.
    intro _ _ p₁ q₁ rest node q' hparams hopen hq₁ hkeeps hbody
    rw [← show funcTy = _ from hfunc] at hparams
    refine (meets_funcBody hq₁ hkeeps).of_done (fun st hst hst' => hlossy ⟨st, ?_, hst'⟩) hbody
    rw [Prog.bind_done rfl, Prog.bind_done hparams, Prog.bind_done hopen]
    exact List.mem_append_right _ (List.mem_append_right _ (List.mem_append_right _ hst))
  · have hparams : Emits (fun e => e ≠ .setFuncRet) (paramList n funcTy) := by
      refine emits_bind (emits_step (by decide)) fun _ => ?_
      exact emits_bind (emits_signatures.parseParams le_rfl _) fun _ =>
        emits_signatures.consume _ _
    refine Prog.meets_bind (meets_endsInside hparams q) fun _ q _ => ?_
    refine Prog.meets_bind (meets_endsInside (emits_bodies.consume _ _) q) fun _ q _ => ?_
    exact endsInside_funcBody q

/-- A declaration or a function. -/
theorem endsInside_parseTopLevel (p : Parser) :
    ((parseTopLevel n).run p).Meets (endsInside n bodies) fun _ _ => True := by
  refine Prog.meets_bind (meets_endsInside (emits_step (by decide)) p) fun _ q _ => ?_
  refine Prog.meets_bind (meets_endsInside (emits_bodies.matchKind _) q) fun isConst q _ => ?_
  rw [Prog.run_read_bind]
  cases tokenToType q.curr.kind with
  | none =>
      cases isConst with
      | true =>
          exact meets_endsInside (emits_bind (emits_bodies.parserError _) fun _ =>
            emits_bind emits_bodies.advance fun _ => emits_bodies.pure _) q
      | false => exact Prog.meets_pure trivial
  | some ty =>
      refine Prog.meets_bind (meets_endsInside emits_bodies.advance q) fun _ q _ => ?_
      refine meets_if_check ?_ ?_
      · intro _
        refine Prog.meets_bind (meets_endsInside (emits_bodies.consume _ _) q) fun _ q _ => ?_
        rw [Prog.run_read_bind]
        refine meets_if_check ?_ ?_
        · exact fun _ => endsInside_parseFunc _ _ _
        · exact fun _ => meets_endsInside (emits_bodies.parseVarDeclList le_rfl _ _ _ _) _
      · intro _
        exact meets_endsInside (emits_bind (emits_bodies.parserError _) fun _ =>
          emits_bodies.pure _) q

/-- One round of the loop over the file. -/
theorem endsInside_topIter (globals : List Node) (p : Parser) :
    ((topIter n globals).run p).Meets (endsInside n bodies) fun _ _ => True := by
  refine Prog.meets_bind (meets_endsInside (emits_bodies.matchKind _) p) fun done q _ => ?_
  split
  · exact Prog.meets_pure trivial
  refine Prog.meets_bind (endsInside_parseTopLevel q) fun node q _ => ?_
  cases node with
  | some node => exact Prog.meets_pure trivial
  | none =>
      refine meets_endsInside (emits_bind emits_bodies.reportTopLevel fun _ => ?_) q
      refine emits_bind (emits_bodies.synchronizeIfPanic le_rfl) fun _ => ?_
      exact emits_bind emits_bodies.skipIfStuck fun _ => emits_bodies.pure _

/-- If no block spoils it, the functions of a parse end inside. -/
theorem endsInside_parserRun (intern : List UInt8 → Symbol) (mem : Memory) (ts : TokenStream) :
    (parserRun intern mem ts).Meets (endsInside (budget ts.tokens.length) bodies)
      fun _ _ => True := by
  refine Prog.meets_bind (meets_endsInside emits_bodies.advance _) fun _ q _ => ?_
  refine Prog.meets_bind (meets_endsInside (emits_step (by decide)) q) fun _ q _ => ?_
  refine Prog.meets_bind (meets_endsInside (emits_signatures.installBuiltins _ _) q) ?_
  intro _ q _
  refine Prog.meets_bind (R := fun _ _ => True) ?_ fun globals q _ => ?_
  · refine meets_loop (fun _ _ => True) trivial (fun globals q _ => ?_) _ trivial
    refine (endsInside_topIter globals q).mono fun i _ _ => ?_
    cases i with
    | again _ => exact trivial
    | leave _ => exact trivial
  · exact meets_endsInside (emits_bind (emits_step (by decide)) fun _ => emits_bodies.pure _) q

end

end Parser

section

variable {r : Run Parser Event (List Node)} {n : Nat} {m : Msg} {rest : List TokenKind}
  {p p' : Parser}

/-- In the run a function ends in the state {lit}`q`.  Its body is followed by {lit}`rest`. -/
def Returns (r : Run Parser Event (List Node)) (n : Nat) (rest : List TokenKind)
    (q : Parser) : Prop :=
  ∃ p p' node, Parser.Opens r n .unexpectedInBody p p' ∧ Parser.follow p.ahead = some rest ∧
    ((Parser.funcBody n).run p').outcome = .done node q

/-- The first brace ahead is the one of the body that is about to begin: no other function
begins in front of it, and in the run no block and no brace list begins with it. -/
def OwnsBrace (r : Run Parser Event (List Node)) (p : Parser) : Prop :=
  ∀ inner ks, Parser.Plain inner → p.ahead = inner ++ ks →
    Parser.beginsFunction ks = false ∧
      ∀ ks', ks = .lBrace :: ks' → ∀ st ∈ r.steps, ¬ Parser.BeginsAt ks st

/-- The recoveries in the bodies of a run leave the closing braces. -/
def RecoveriesStay (r : Run Parser Event (List Node)) : Prop :=
  ∀ rest q q', Recovery r rest q q' → KeepsBrace rest q q'

/-- The recoveries in the bodies of a run find a place to stop. -/
def RecoveriesStop (r : Run Parser Event (List Node)) : Prop :=
  ∀ rest q q', Recovery r rest q q' → StopsInside rest q

/-- The functions of a run leave what follows their bodies. -/
def FunctionsStay (r : Run Parser Event (List Node)) (n : Nat) : Prop :=
  ∀ rest q, Returns r n rest q → rest <:+ q.ahead

/-- Every function of the run whose signature ends in front of something else than the brace
of its body gets this brace all the same. -/
def BodiesOwned (r : Run Parser Event (List Node)) (n : Nat) : Prop :=
  ∀ p p', Parser.Opens r n .unexpectedInBody p p' → p.curr.kind ≠ .lBrace → OwnsBrace r p

/-- The tokens behind the brace of such a function. -/
def Misplaced (r : Run Parser Event (List Node)) (n : Nat) (ks : List TokenKind) : Prop :=
  ∃ p p' inner, Parser.Opens r n .unexpectedInBody p p' ∧ p.curr.kind ≠ .lBrace ∧
    Parser.Plain inner ∧ p.ahead = inner ++ .lBrace :: ks

/-- The loop of a body begins with the body pending. -/
theorem Parser.Opens.pending (h : Opens r n .unexpectedInBody p p') (hp : AtEnd p)
    (hfollow : follow p.ahead = some rest) (howns : p.curr.kind ≠ .lBrace → OwnsBrace r p) :
    Pending (Misplaced r n) rest p' := by
  obtain ⟨hp', ⟨-, hahead⟩ | ⟨hkind, hahead⟩⟩ := h.behind_brace hp
  · rw [hahead, follow_lBrace] at hfollow
    exact Or.inl ⟨hp', 0, hfollow⟩
  · rcases follow_cases hfollow with ⟨inner, hinner, heq, hbegins⟩ |
      ⟨inner, ks, hinner, heq, hrest⟩ | hrest
    · rw [(howns hkind inner rest hinner heq).1] at hbegins
      cases hbegins
    · have hks : Misplaced r n ks := ⟨p, p', inner, h, hkind, hinner, heq⟩
      exact Or.inr ⟨ks, hks, hrest, hp', inner, hinner, hahead.trans heq⟩
    · exact Or.inl ⟨hp', 0, hahead ▸ hrest⟩

/-- Where recoveries leave the closing braces, no body loses its own. -/
theorem Parser.Opens.not_swallows (h : Opens r n m p p')
    (hfollow : follow p.ahead = some rest) (hkeeps : RecoveriesStay r) :
    ¬ Swallows n m rest p' := by
  rintro ⟨stmts, q, q', hhead, hbrace, heof, hpanic, hsync, hbad⟩
  exact hbad (hkeeps rest q q'
    ⟨n, m, p, p', stmts, h, hfollow, hhead, hbrace, heof, hpanic, hsync⟩)

end

section

variable {intern : List UInt8 → Symbol} {mem : Memory} {ts : TokenStream}

/-- Where recoveries leave the closing braces and functions get theirs, no step spoils a
body. -/
theorem not_spoils {n : Nat} (hkeeps : RecoveriesStay (Parser.parserRun intern mem ts))
    (howns : BodiesOwned (Parser.parserRun intern mem ts) n) {st : Step Parser Event}
    (hst : st ∈ (Parser.parserRun intern mem ts).steps) :
    ¬ Parser.Spoils (Misplaced (Parser.parserRun intern mem ts) n) st := by
  rintro (⟨hlabel, hkind, n', q, rest, hopen, hbehind, hswallows⟩ |
    ⟨ks, ⟨p, p', inner, hopens, hkind, hinner, hahead⟩, hbegins⟩)
  · have hopens := Parser.Opens.block (n := n') hst hlabel hopen
    obtain ⟨-, ⟨-, hahead⟩ | ⟨hother, -⟩⟩ := hopens.behind_brace hopens.left.1
    · refine hopens.not_swallows ?_ hkeeps hswallows
      rw [hahead, Parser.follow_lBrace, hbehind]
    · exact hother hkind
  · exact (howns p p' hopens hkind inner _ hinner hahead).2 ks rfl st hst hbegins

/-- A function leaves what follows its body. -/
theorem Returns.suffix {rest : List TokenKind} {q : Parser}
    (h : Returns (Parser.parserRun intern mem ts) (Parser.budget ts.tokens.length) rest q)
    (hkeeps : RecoveriesStay (Parser.parserRun intern mem ts))
    (howns : BodiesOwned (Parser.parserRun intern mem ts) (Parser.budget ts.tokens.length)) :
    rest <:+ q.ahead := by
  obtain ⟨p, p', node, hopens, hfollow, hbody⟩ := h
  have hswallows := hopens.not_swallows hfollow hkeeps
  have hpending := hopens.pending hopens.left.1 hfollow (howns p p' hopens)
  rcases Parser.endsInside_parserRun intern mem ts with ⟨st, hst, hspoils⟩ | ⟨hends, -⟩
  · exact absurd hspoils (not_spoils hkeeps howns hst)
  · cases hopens with
    | func hst hlabel hret hparams hopen =>
        exact hends _ hst hlabel hret p p' rest node q hparams hopen hpending hswallows hbody

end

/-- The text {lit}`void f() { a b } void g() { }`. -/
def missingSemicolon : List Grammar.Terminal :=
  [.fixed .kwVoid, .ident ⟨0⟩, .fixed .lParen, .fixed .rParen,
   .fixed .lBrace, .ident ⟨1⟩, .ident ⟨2⟩, .fixed .rBrace,
   .fixed .kwVoid, .ident ⟨3⟩, .fixed .lParen, .fixed .rParen,
   .fixed .lBrace, .fixed .rBrace]

/-- The loop of a body that begins in the state {lit}`p` comes round once, and a recovery
then reads the closing brace. -/
def SwallowsFirst (n : Nat) (m : Msg) (rest : List TokenKind) (p : Parser) : Prop :=
  ((Parser.bodyIter (Parser.parseDecl n) (Parser.parseStmt n) m n []).run p).outcome.Ends
    fun i q => i.Satisfies (fun _ =>
      q.curr.kind ≠ .rBrace ∧ q.curr.kind ≠ .eof ∧ q.panicMode = true ∧
      ((Parser.synchronize n).run q).outcome.Ends fun _ q' => ¬ KeepsBrace rest q q')
        fun _ => False

instance (n : Nat) (m : Msg) (rest : List TokenKind) (p : Parser) :
    Decidable (SwallowsFirst n m rest p) :=
  inferInstanceAs (Decidable (Outcome.Ends _ _))

/-- The text {lit}`void f(int a int b) { int c; } void g() { }`. -/
def brokenSignature : List Grammar.Terminal :=
  [.fixed .kwVoid, .ident ⟨0⟩, .fixed .lParen, .fixed .kwInt, .ident ⟨1⟩, .fixed .kwInt,
   .ident ⟨2⟩, .fixed .rParen, .fixed .lBrace, .fixed .kwInt, .ident ⟨3⟩, .fixed .semicolon,
   .fixed .rBrace, .fixed .kwVoid, .ident ⟨4⟩, .fixed .lParen, .fixed .rParen,
   .fixed .lBrace, .fixed .rBrace]

end Cact
