import Cact.Library.Brackets
import Cact.Parser.MissingOperands

/-!
# Recovery inside bodies

When a panic is on, the loop over the items of a body calls {lit}`synchronize` before it
looks for the closing brace.  The call knows semicolons and some keywords, but no braces.

Main results:

- Definition {lit}`Parser.resume`: the tokens that {lit}`synchronize` leaves.
- Theorem {lit}`Parser.meets_resume`: it leaves these.
- Definition {lit}`Parser.follow`: what follows a body, whether or not it begins with its brace.
- Definition {lit}`Recovery`: the calls from the loops of bodies in a run.
- Theorem {lit}`Recovery.keeps_iff`: when a call leaves the closing brace of the body.
-/

open Traced Brackets

namespace Cact

namespace Parser

/-! ## What {lit}`synchronize` leaves -/

/-- The tokens that are left after a recovery behind a token of the kind {lit}`prev`: none
is skipped behind a semicolon or in front of a keyword that begins a statement or a
declaration. -/
def resume (prev : TokenKind) : List TokenKind → List TokenKind
  | [] => []
  | kind :: ks =>
      if prev = .semicolon ∨ isSyncKind kind = true then kind :: ks else resume kind ks

/-- Where parsing resumes is among what was left. -/
theorem resume_suffix (prev : TokenKind) (ks : List TokenKind) : resume prev ks <:+ ks := by
  induction ks generalizing prev with
  | nil => exact List.suffix_rfl
  | cons kind ks ih =>
      rw [resume]
      split
      · exact List.suffix_rfl
      · exact (ih kind).trans (List.suffix_cons kind ks)

/-- A recovery stops in front of a certain token if there is a semicolon or one of the
keywords in front of it, or a semicolon just behind. -/
theorem suffix_resume_iff {prev close : TokenKind} {inner rest : List TokenKind}
    (hclose : isSyncKind close = false) :
    close :: rest <:+ resume prev (inner ++ close :: rest) ↔
      prev = .semicolon ∨ ∃ kind ∈ inner, kind = .semicolon ∨ isSyncKind kind = true := by
  induction inner generalizing prev with
  | nil =>
      rw [List.nil_append, resume]
      by_cases hprev : prev = .semicolon
      · simp [hprev]
      · have hgone : ¬ close :: rest <:+ resume close rest := by
          intro hsuffix
          have hlength := hsuffix.length_le.trans (resume_suffix close rest).length_le
          exact absurd hlength (by simp)
        simp [hprev, hclose, hgone]
  | cons kind inner ih =>
      rw [List.cons_append, resume]
      by_cases hstop : prev = .semicolon ∨ isSyncKind kind = true
      · rw [if_pos hstop]
        refine iff_of_true ?_ ?_
        · exact List.suffix_append (kind :: inner) (close :: rest)
        · exact hstop.imp_right fun hkind => ⟨kind, List.mem_cons_self, Or.inr hkind⟩
      · rw [if_neg hstop]
        obtain ⟨hprev, hkind⟩ := not_or.mp hstop
        refine ih.trans ?_
        simp [hprev, hkind]

section

variable {p : Parser}

/-- {lit}`advance` makes the current token the previous one. -/
theorem prev_advance (p : Parser) :
    (advance.run p).Meets Contract.lax fun _ p' => p'.prev = p.curr := by
  have hloop (ts : Tokens) (q : Parser) :
      ((advanceLoop ts).run q).Meets Contract.lax fun _ q' => q'.prev = q.prev := by
    induction ts generalizing q with
    | nil => exact Prog.meets_step trivial rfl
    | cons t ts ih =>
        rw [advanceLoop]
        split
        · refine Prog.meets_bind (R := fun _ q' => q'.prev = q.prev)
            (Prog.meets_step trivial rfl) fun _ q' hq' => ?_
          exact (ih q').mono fun _ q'' h => h.trans hq'
        · exact Prog.meets_step trivial rfl
  refine Prog.meets_bind (R := fun _ q => q.prev = p.curr) (Prog.meets_step trivial rfl) ?_
  intro _ q hq
  exact (hloop q.rest q).mono fun _ q' h => h.trans hq

/-- What {lit}`advance` does to the tokens. -/
theorem meets_advance_tokens (hp : AtEnd p) : (advance.run p).Meets Contract.lax fun _ p' =>
    AtEnd p' ∧ p'.ahead = p.ahead.tail ∧ p'.prev = p.curr := by
  have hread := Run.meets_lax_iff.mp (judged_advance hp).lax
  have hprev := Run.meets_lax_iff.mp (prev_advance p)
  refine Run.meets_lax_iff.mpr fun a p' hout => ?_
  obtain ⟨hcalm, hahead⟩ := hread a p' hout
  exact ⟨hcalm.atEnd, hahead, hprev a p' hout⟩

/-- {lit}`synchronize` leaves the tokens where the parse can be resumed. -/
theorem meets_resume (n : Nat) (hp : AtEnd p) :
    ((synchronize n).run p).Meets Contract.lax fun _ p' =>
      AtEnd p' ∧ p'.ahead = resume p.prev.kind p.ahead := by
  refine Prog.meets_bind (R := fun _ q => AtEnd q ∧
    resume q.prev.kind q.ahead = resume p.prev.kind p.ahead) (Prog.meets_step trivial ?_) ?_
  · exact ⟨hp, rfl⟩
  · intro _ q hq
    refine meets_loop (fun _ q => AtEnd q ∧
      resume q.prev.kind q.ahead = resume p.prev.kind p.ahead) trivial ?_ n hq
    rintro _ q ⟨hq, hresume⟩
    unfold synchronizeIter checkKind
    rw [Prog.run_read_bind]
    split
    · rename_i heof
      have hnil : q.ahead = [] := by
        unfold ahead
        rw [if_pos (by simpa using heof)]
      refine Prog.meets_pure ⟨hq, ?_⟩
      rw [← hresume, hnil]
      rfl
    · rename_i heof
      have hcons : q.ahead = q.curr.kind :: q.ahead.tail :=
        ahead_cons rfl (by simpa using heof)
      rw [hcons, resume] at hresume
      rw [Prog.run_read_bind]
      split
      · rename_i hsemi
        rw [if_pos (Or.inl (by simpa using hsemi)), ← hcons] at hresume
        exact Prog.meets_pure ⟨hq, hresume⟩
      · rename_i hsemi
        rw [Prog.run_read_bind]
        split
        · rename_i hsync
          rw [if_pos (Or.inr hsync), ← hcons] at hresume
          exact Prog.meets_pure ⟨hq, hresume⟩
        · rename_i hsync
          rw [if_neg (not_or.mpr ⟨by simpa using hsemi, hsync⟩)] at hresume
          rw [Prog.run_read_bind]
          refine Prog.meets_bind (R := fun _ q' => q' = q) (Prog.meets_step trivial rfl) ?_
          rintro _ q' rfl
          refine Prog.meets_bind (meets_advance_tokens hq) ?_
          rintro _ q'' ⟨hend, hahead, hprev⟩
          refine Prog.meets_pure ⟨hend, ?_⟩
          rw [hprev, hahead]
          exact hresume

end

/-! ## Tokens are read in order -/

/-- What is left is the end of {lit}`ks`. -/
def Left (ks : List TokenKind) (p : Parser) : Prop := AtEnd p ∧ p.ahead <:+ ks

/-- The steps that begin a block, or the part of a function behind its name, are taken with
the end of {lit}`ks` left. -/
def BeginsIn (ks : List TokenKind) (st : Step Parser Event) : Prop :=
  st.label = .enter .block ∨ st.label = .setFuncRet → Left ks st.after

/-- A step that begins no block and no body has nothing to tell. -/
theorem BeginsIn.of_ne {ks : List TokenKind} {l : Event} {p q : Parser}
    (hblock : l ≠ .enter .block) (hret : l ≠ .setFuncRet) : BeginsIn ks ⟨l, p, q⟩ :=
  fun h => (h.elim hblock hret).elim

/-- The loop of {lit}`advance` takes tokens from the front only. -/
theorem left_advanceLoop {ks : List TokenKind} (ts : Tokens) (p : Parser)
    (h : kinds ts <:+ ks) :
    ((advanceLoop ts).run p).Meets (Contract.keeps (Left ks) (BeginsIn ks)) fun _ => Left ks := by
  induction ts generalizing p with
  | nil => exact Prog.meets_step (.of_ne (by simp) (by simp)) ⟨fun _ => rfl, List.nil_suffix⟩
  | cons t ts ih =>
      rw [advanceLoop]
      by_cases herror : t.val.kind = .error
      · rw [if_pos herror]
        have hkinds : kinds (t :: ts) = kinds ts := by simp [kinds, herror]
        rw [hkinds] at h
        refine Prog.meets_bind (R := fun _ _ => True) ?_ fun _ p' _ => ih p' h
        exact Prog.meets_step (.of_ne (by simp) (by simp)) trivial
      · rw [if_neg herror]
        refine Prog.meets_step (.of_ne (by simp) (by simp)) ?_
        refine ⟨fun heof => absurd heof t.property, ?_⟩
        simpa [ahead, take, kinds, t.property, herror] using h

/-- {lit}`advance` takes tokens from the front only. -/
theorem left_advance {ks : List TokenKind} {p : Parser} (h : kinds p.rest <:+ ks) :
    (advance.run p).Meets (Contract.keeps (Left ks) (BeginsIn ks)) fun _ => Left ks := by
  refine Prog.meets_bind (R := fun _ q => kinds q.rest <:+ ks) ?_ fun _ q hq => ?_
  · exact Prog.meets_step (.of_ne (by simp) (by simp)) h
  · exact left_advanceLoop q.rest q hq

/-- The same, from every state with the end of {lit}`ks` left. -/
theorem keeps_advance_left (ks : List TokenKind) : Keeps (Left ks) (BeginsIn ks) advance := by
  intro p hp
  apply left_advance
  by_cases hkind : p.curr.kind = .eof
  · simp [hp.1 hkind, kinds]
  · have hahead := hp.2
    rw [ahead, if_neg hkind] at hahead
    exact (List.suffix_cons _ _).trans hahead

/-- Every piece of the parser reads tokens from the front only. -/
theorem whole_left (ks : List TokenKind) :
    Whole fun {_} m _ => Keeps (Left ks) (BeginsIn ks) m := by
  refine (primitives_of_tokens ?_ (fun hleft _ => hleft) (keeps_advance_left ks)).whole
  intro p p' hrest hcurr hp
  unfold Left AtEnd ahead
  rw [hrest, hcurr]
  exact hp

/-! ## The loops of bodies -/

/-- {lit}`parse_func` up to the declaration of the function. -/
def signature (retTy : ObjTy) (name : Symbol) : Parse Nat := do
  Prog.mark (.enter .func)
  consume .lParen .emptyText
  let funcTy ← typeFuncNew retTy
  let _ ← semaDefineVar name (some (.func funcTy)) false
  return funcTy

/-- {lit}`parse_func` from the scope of the function to its opening brace. -/
def paramList (n : Nat) (funcTy : Nat) : Parse Unit := do
  semaScopeEnter
  parseParams n funcTy
  consume .rParen .expectRParen

/-- The beginning of a block. -/
def openBlock : Parse Unit := do
  consume .lBrace .expectBlockLBrace
  semaScopeEnter

/-- The loop over the items of a body. -/
def bodyItems (n : Nat) (m : Msg) : Parse (List Node) :=
  loop (bodyIter (parseDecl n) (parseStmt n) m n) n []

/-- {lit}`parse_func` from the opening brace to the end. -/
def funcBody (n : Nat) : Parse (Option Node) := do
  let stmts ← bodyItems n .unexpectedInBody
  consume .rBrace .expectRBrace
  semaScopeLeave
  setFuncRet none
  return some (.block none stmts)

/-- A block begins, has its items read and ends. -/
theorem parseBlock_eq (n : Nat) : parseBlock (n + 1) = do
    Prog.mark (.enter .block)
    openBlock
    let stmts ← bodyItems n .unexpectedInBlock
    semaScopeLeave
    consume .rBrace .expectBlockRBrace
    return some (.block none stmts) := by
  simp only [parseBlock, parseBlockBody, openBlock, bodyItems, Prog.bind_assoc]

/-- A function has its parameters and then its items read. -/
theorem parseFunc_eq (n : Nat) (retTy : ObjTy) (name : Symbol) :
    parseFunc n retTy name = (do
      let funcTy ← signature retTy name
      setFuncRet (some retTy)
      paramList n funcTy
      consume .lBrace .expectLBrace
      funcBody n) := by
  simp only [parseFunc, signature, paramList, funcBody, bodyItems, Prog.bind_assoc,
    Prog.pure_bind]

/-- The function whose signature was read is the last one of the table. -/
theorem meets_signature (retTy : ObjTy) (name : Symbol) (p : Parser) :
    ((signature retTy name).run p).Meets Contract.lax fun funcTy q =>
      funcTy = q.sema.funcs.length - 1 := by
  refine Prog.meets_mark_bind trivial ?_
  refine Prog.meets_bind (Run.meets_lax_true _) fun _ q _ => ?_
  have hnew : ((typeFuncNew retTy).run q).Meets Contract.lax fun funcTy q =>
      funcTy = q.sema.funcs.length - 1 :=
    Run.meets_lax_iff.mpr fun _ _ hout => by
      cases hout
      simp [Sema.newFunc]
  refine Prog.meets_bind hnew fun funcTy q hq => ?_
  refine Prog.meets_bind (R := fun _ q => funcTy = q.sema.funcs.length - 1) ?_
    fun _ _ hq => Prog.meets_pure hq
  unfold semaDefineVar
  rw [Prog.run_read_bind]
  split
  · exact Prog.meets_pure hq
  · rw [Prog.run_read_bind]
    split
    · exact Prog.meets_bind (R := fun _ q => funcTy = q.sema.funcs.length - 1)
        (Prog.meets_step trivial hq) fun _ _ hq => Prog.meets_pure hq
    · rw [Prog.run_read_bind]
      refine Prog.meets_bind (R := fun _ q => funcTy = q.sema.funcs.length - 1)
        (Prog.meets_step trivial ?_) fun _ _ hq => Prog.meets_pure hq
      rw [hq]
      unfold Sema.define
      split <;> rfl

/-- In the run a body is about to begin in the first state, and its loop begins in the
second one.  The function whose parameters are read is the last one of the table. -/
inductive Opens (r : Run Parser Event (List Node)) (n : Nat) : Msg → Parser → Parser → Prop
  | block {st : Step Parser Event} {q : Parser} (hst : st ∈ r.steps)
      (hlabel : st.label = .enter .block)
      (hopen : (openBlock.run st.after).outcome = .done () q) :
      Opens r n .unexpectedInBlock st.after q
  | func {st : Step Parser Event} {p q : Parser} (hst : st ∈ r.steps)
      (hlabel : st.label = .setFuncRet) (hret : st.after.sema.currFuncRet ≠ none)
      (hparams : ((paramList n (st.after.sema.funcs.length - 1)).run st.after).outcome =
        .done () p)
      (hopen : ((consume .lBrace .expectLBrace).run p).outcome = .done () q) :
      Opens r n .unexpectedInBody p q

/-- The loop of a body that begins in the state {lit}`p` comes round to another state. -/
inductive LoopHead (n : Nat) (m : Msg) (p : Parser) : List Node → Parser → Prop
  | start : LoopHead n m p [] p
  | again {stmts stmts' : List Node} {q q' : Parser} (h : LoopHead n m p stmts q)
      (hiter : ((bodyIter (parseDecl n) (parseStmt n) m n stmts).run q).outcome =
        .done (.again stmts') q') : LoopHead n m p stmts' q'

section

variable {n : Nat} {m : Msg} {p q : Parser}

/-- The loop of a body keeps the parser within its input. -/
theorem LoopHead.atEnd {stmts : List Node} (h : LoopHead n m p stmts q) (hp : AtEnd p) :
    AtEnd q := by
  induction h with
  | start => exact hp
  | again _ hiter ih =>
      have hkeeps (stmts : List Node) : Keeps AtEnd (fun _ => True)
          (bodyIter (parseDecl n) (parseStmt n) m n stmts) :=
        whole_atEnd.bodyStep (le_refl n) m stmts
      exact (hkeeps _).ends ih hiter

/-- A consumed token is gone. -/
theorem ahead_of_consume {kind : TokenKind} (hp : AtEnd p) (hkind : p.curr.kind = kind)
    (hne : kind ≠ .eof) (h : ((consume kind m).run p).outcome = .done () q) :
    AtEnd q ∧ p.ahead = kind :: q.ahead := by
  unfold consume checkKind at h
  rw [Prog.run_read_bind, if_pos (by simpa using hkind)] at h
  obtain ⟨hq, hahead, _⟩ := Run.meets_lax_iff.mp (meets_advance_tokens hp) () q h
  refine ⟨hq, ?_⟩
  rw [hahead]
  exact ahead_cons hkind hne

/-- In a parse, what is left where a body begins is the end of the stream. -/
theorem Opens.left {intern : List UInt8 → Symbol} {mem : Memory} {ts : TokenStream}
    (h : Opens (parserRun intern mem ts) n m p q) : Left (kinds ts.tokens) p := by
  have hwhole := whole_left (kinds ts.tokens)
  have hrun : (parserRun intern mem ts).Meets
      (Contract.keeps (Left (kinds ts.tokens)) (BeginsIn (kinds ts.tokens)))
      fun _ => Left (kinds ts.tokens) := by
    refine Prog.meets_bind (left_advance List.suffix_rfl) fun _ p hp => ?_
    exact hwhole.parserParse intern le_rfl p hp
  cases h with
  | block hst hlabel _ => exact hrun.emits (fun _ => id) hst (Or.inl hlabel)
  | func hst hlabel _ hparams _ =>
      have hafter := hrun.emits (fun _ => id) hst (Or.inr hlabel)
      have hkeeps (funcTy : Nat) : Keeps (Left (kinds ts.tokens)) (BeginsIn (kinds ts.tokens))
          (paramList n funcTy) := by
        intro p' hp'
        refine Prog.meets_bind (hwhole.semaScopeEnter p' hp') fun _ p' hp' => ?_
        refine Prog.meets_bind (hwhole.parseParams (le_refl n) funcTy p' hp') ?_
        exact fun _ p' hp' => hwhole.consume _ _ p' hp'
      exact (hkeeps _).ends hafter hparams

/-- A token that is not there is not consumed. -/
theorem ahead_of_not_consumed {kind : TokenKind} (hp : AtEnd p) (hkind : p.curr.kind ≠ kind)
    (h : ((consume kind m).run p).outcome = .done () q) : AtEnd q ∧ q.ahead = p.ahead := by
  unfold consume checkKind at h
  rw [Prog.run_read_bind, if_neg (by simpa using hkind)] at h
  cases h
  refine ⟨?_, ?_⟩
  · unfold AtEnd
    rw [errorAt_rest, errorAt_curr]
    exact hp
  · unfold ahead
    rw [errorAt_rest, errorAt_curr]

/-- What the brace of a body is looked for in: it is read if it is the next token, and the
loop of the body begins all the same if it is not. -/
def BehindBrace (p q : Parser) : Prop :=
  AtEnd q ∧ (p.curr.kind = .lBrace ∧ p.ahead = .lBrace :: q.ahead ∨
    p.curr.kind ≠ .lBrace ∧ q.ahead = p.ahead)

/-- A {lit}`{` that is consumed leaves the parser behind it. -/
theorem behind_of_consume (hp : AtEnd p)
    (h : ((consume .lBrace m).run p).outcome = .done () q) : BehindBrace p q := by
  by_cases hkind : p.curr.kind = .lBrace
  · obtain ⟨hq, hahead⟩ := ahead_of_consume hp hkind (by decide) h
    exact ⟨hq, Or.inl ⟨hkind, hahead⟩⟩
  · obtain ⟨hq, hahead⟩ := ahead_of_not_consumed hp hkind h
    exact ⟨hq, Or.inr ⟨hkind, hahead⟩⟩

/-- The loop of a body begins behind its brace, if that is there. -/
theorem Opens.behind_brace {r : Run Parser Event (List Node)} (h : Opens r n m p q) (hp : AtEnd p) :
    BehindBrace p q := by
  cases h with
  | @block st _ _ _ hopen =>
      have hmeets : (openBlock.run st.after).Meets Contract.lax fun _ q =>
          BehindBrace st.after q := by
        refine Prog.meets_bind (Run.meets_lax_iff.mpr fun _ _ => behind_of_consume hp) ?_
        intro _ q' hq'
        exact Prog.meets_step trivial hq'
      exact Run.meets_lax_iff.mp hmeets () q hopen
  | func _ _ _ _ hopen => exact behind_of_consume hp hopen

end

/-! ## What follows a body -/

/-- Whether a function begins: a type, a name and an opening parenthesis come next. -/
def beginsFunction : List TokenKind → Bool
  | ty :: .ident :: .lParen :: _ => (tokenToType ty).isSome
  | _ => false

/-- What follows a body, seen from in front of it.  The first brace ahead opens the body, or
closes it if it is a closing one; behind a signature with an error the brace need not be the
next token.  A function that begins in front of any brace follows as it is. -/
def follow : List TokenKind → Option (List TokenKind)
  | [] => none
  | kind :: ks =>
      if beginsFunction (kind :: ks) then some (kind :: ks)
      else if kind = .lBrace then behind .lBrace .rBrace 0 ks
      else if kind = .rBrace then some ks
      else follow ks

/-- What follows a {lit}`{` starts behind its {lit}`}`. -/
@[simp] theorem follow_lBrace (ks : List TokenKind) :
    follow (.lBrace :: ks) = behind .lBrace .rBrace 0 ks := by
  rw [follow, if_neg, if_pos rfl]
  unfold beginsFunction
  split
  · rename_i heq
    cases heq
    simp [tokenToType]
  · simp

/-- Tokens without braces. -/
def Plain (ks : List TokenKind) : Prop := ∀ kind ∈ ks, isBrace kind = false

/-- Another token that is no brace. -/
theorem Plain.cons {kind : TokenKind} {ks : List TokenKind} (hkind : isBrace kind = false)
    (hks : Plain ks) : Plain (kind :: ks) :=
  List.forall_mem_cons.mpr ⟨hkind, hks⟩

/-- If there is a brace ahead in balanced tokens, something follows. -/
theorem exists_follow {front ks : List TokenKind} (h : Balanced .lBrace .rBrace (front ++ ks))
    (hbrace : ¬ Plain ks) : ∃ rest, follow ks = some rest := by
  induction ks generalizing front with
  | nil => exact absurd (fun _ hkind => absurd hkind List.not_mem_nil) hbrace
  | cons kind ks ih =>
      rw [follow]
      split
      · exact ⟨_, rfl⟩
      · split
        · rename_i hopen
          exact (hopen ▸ h).behind
        · split
          · exact ⟨ks, rfl⟩
          · rename_i hopen hclose
            have hkind : isBrace kind = false := by
              cases kind <;> first | rfl | contradiction
            have hsplit : Balanced .lBrace .rBrace ((front ++ [kind]) ++ ks) := by simpa using h
            exact ih hsplit fun hks => hbrace (hks.cons hkind)

/-- The three cases of what follows: another function, what is behind the body that the
first brace opens, or what is behind the brace that closes the body. -/
theorem follow_cases {ks rest : List TokenKind} (h : follow ks = some rest) :
    (∃ inner, Plain inner ∧ ks = inner ++ rest ∧ beginsFunction rest = true) ∨
    (∃ inner ks', Plain inner ∧ ks = inner ++ .lBrace :: ks' ∧
      behind .lBrace .rBrace 0 ks' = some rest) ∨
    behind .lBrace .rBrace 0 ks = some rest := by
  have hnil : Plain [] := fun _ hkind => absurd hkind List.not_mem_nil
  induction ks with
  | nil => cases h
  | cons kind ks ih =>
      rw [follow] at h
      split at h
      · rename_i hbegins
        cases h
        exact Or.inl ⟨[], hnil, rfl, hbegins⟩
      · split at h
        · rename_i hopen
          exact Or.inr (Or.inl ⟨[], ks, hnil, by rw [hopen, List.nil_append], h⟩)
        · rename_i hopen
          split at h
          · rename_i hclose
            cases h
            exact Or.inr (Or.inr (by rw [behind, if_neg hopen, if_pos hclose, if_pos rfl]))
          · rename_i hclose
            have hkind : isBrace kind = false := by
              cases kind <;> first | rfl | contradiction
            rcases ih h with ⟨inner, hinner, heq, hbegins⟩ | ⟨inner, ks', hinner, heq, hrest⟩ | hrest
            · exact Or.inl ⟨kind :: inner, hinner.cons hkind, by rw [heq]; rfl, hbegins⟩
            · exact Or.inr (Or.inl ⟨kind :: inner, ks', hinner.cons hkind, by rw [heq]; rfl, hrest⟩)
            · exact Or.inr (Or.inr (by rw [behind, if_neg hopen, if_neg hclose, hrest]))

end Parser

section

variable {r : Run Parser Event (List Node)} {rest : List TokenKind} {p q q' : Parser}

/-- In the run the loop of a body calls {lit}`synchronize` in the state {lit}`q`, and the
call ends in {lit}`q'`.  The body is followed by {lit}`rest`. -/
def Recovery (r : Run Parser Event (List Node)) (rest : List TokenKind) (q q' : Parser) :
    Prop :=
  ∃ n m p p' stmts, Parser.Opens r n m p p' ∧ Parser.follow p.ahead = some rest ∧
    Parser.LoopHead n m p' stmts q ∧
    q.curr.kind ≠ .rBrace ∧ q.curr.kind ≠ .eof ∧ q.panicMode = true ∧
    ((Parser.synchronize n).run q).outcome = .done () q'

/-- If the closing brace and what follows it are still ahead, they stay ahead. -/
def KeepsBrace (rest : List TokenKind) (q q' : Parser) : Prop :=
  .rBrace :: rest <:+ q.ahead → .rBrace :: rest <:+ q'.ahead

instance (rest : List TokenKind) (q q' : Parser) : Decidable (KeepsBrace rest q q') :=
  inferInstanceAs (Decidable (_ → _))

/-- If the closing brace is still ahead, there is a place to stop in front of it: the
previous token is a semicolon, or a semicolon or one of the keywords of
{lit}`synchronize` is among the tokens from the current one to the brace. -/
def StopsInside (rest : List TokenKind) (q : Parser) : Prop :=
  ∀ inner, q.ahead = inner ++ .rBrace :: rest → q.prev.kind = .semicolon ∨
    ∃ kind ∈ inner, kind = .semicolon ∨ Parser.isSyncKind kind = true

/-- A recovery leaves the closing brace exactly if there is a place to stop in front of
it. -/
theorem Recovery.keeps_iff (h : Recovery r rest q q')
    (hbegin : ∀ n m p p', Parser.Opens r n m p p' → Parser.AtEnd p) :
    KeepsBrace rest q q' ↔ StopsInside rest q := by
  obtain ⟨n, m, p, p', stmts, hopens, -, hhead, -, -, -, hsync⟩ := h
  have hp' := (hopens.behind_brace (hbegin n m p p' hopens)).1
  have hahead : q'.ahead = Parser.resume q.prev.kind q.ahead :=
    (Run.meets_lax_iff.mp (Parser.meets_resume n (hhead.atEnd hp')) () q' hsync).2
  rw [KeepsBrace, hahead]
  constructor
  · intro hkeeps inner hinner
    rw [hinner] at hkeeps
    exact (Parser.suffix_resume_iff rfl).mp (hkeeps (List.suffix_append _ _))
  · rintro hstops ⟨inner, hinner⟩
    rw [← hinner]
    exact (Parser.suffix_resume_iff rfl).mpr (hstops inner hinner.symm)

end

end Cact
