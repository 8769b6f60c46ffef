import Cact.Library.Lockstep
import Cact.Parser.TopLevel
import Cact.Renaming

/-!
# Corresponding token streams - reading

Two token streams correspond if they have tokens of the same kinds and values, wherever
these stand in their files, with names that an injective renaming relates.  Up to its first
error the parser does the same on both: its runs are in lockstep, what it builds differs in
the names only, and the first error is the same one, at corresponding places.

A {lit}`Likeness` may also say where the streams part.  Then the runs are in lockstep up to
the first error or the first token read beyond that point.

Main results:

- Definition {lit}`Likeness.comparison`: what the two runs have in common.
- Theorem {lit}`Parser.lockstep_advance`: reading a token.
- Theorem {lit}`Parser.locked_semaDefineVar`: definitions.
- Theorems {lit}`Parser.same_semaAnalyzeBinary` and {lit}`Parser.same_semaAnalyzeAssign`:
  checks.
-/

open Traced

namespace Cact

/-! ## Correspondence -/

/-- The message of an event that stands for an error. -/
def Event.message : Event → Option Msg
  | .lexError t => some (.lexer t.value.lexMsg)
  | .parserErrorAt m | .ctxError m => some m
  | _ => none

/-- The events in which the lexer returns a token. -/
def Event.reads : Event → Bool
  | .next | .lexError _ => true
  | _ => false

/-- An event under other names. -/
def Event.rename (ρ : Symbol → Symbol) : Event → Event
  | .callee name => .callee (ρ name)
  | e => e

/-- A token that is read is read under other names. -/
@[simp]
theorem Event.reads_rename (ρ : Symbol → Symbol) (e : Event) : (e.rename ρ).reads = e.reads := by
  cases e <;> rfl

/-- How two files correspond: which names and places do, and where the files part. -/
structure Likeness where
  name : Symbol → Symbol
  injective : Function.Injective name
  span : Span → Span → Prop
  beyond : Tokens → Tokens → Prop

namespace Likeness

variable (k : Likeness)

/-- Tokens of the same kind and value. -/
structure Tok (t t' : Token) : Prop where
  kind : t'.kind = t.kind
  span : k.span t.span t'.span
  name : t.kind = .ident → t'.value.name = k.name t.value.name
  asInt : t.kind = .litInt → t'.value.asInt = t.value.asInt
  asFloat : t.kind = .litFloat → t'.value.asFloat = t.value.asFloat
  asDouble : t.kind = .litDouble → t'.value.asDouble = t.value.asDouble
  lexMsg : t.kind = .error → t'.value.lexMsg = t.value.lexMsg

/-- Lists of such tokens in files that end at {lit}`e` and {lit}`e'`, up to where they part. -/
inductive Toks (e e' : Span) : Tokens → Tokens → Prop where
  | nil (h : k.span e e') : Toks e e' [] []
  | cons {t t' : { t : Token // t.kind ≠ .eof }} {ts ts' : Tokens} (h : k.Tok t.val t'.val)
      (hts : Toks e e' ts ts') : Toks e e' (t :: ts) (t' :: ts')
  | beyond {ts ts' : Tokens} (h : k.beyond ts ts') : Toks e e' ts ts'

/-- The same message, at corresponding places.  Only a redefinition has no place. -/
structure Diag (d d' : Diagnostic) : Prop where
  msg : d'.msg = d.msg
  loc : (d.loc = none ∧ d'.loc = none ∧ d.msg = .redefinition) ∨
    ∃ s s', d.loc = some s ∧ d'.loc = some s' ∧ k.span s s'

/-- Two steps that report the first error of their runs. -/
structure Fails (st st' : Step Parser Event) (d d' : Diagnostic) : Prop where
  reads : st'.label.reads = st.label.reads
  message : st.label.message = some d.msg
  message' : st'.label.message = some d'.msg
  diag : k.Diag d d'
  ctx : st.after.ctx = ⟨true, true, [d]⟩
  ctx' : st'.after.ctx = ⟨true, true, [d']⟩

/-- Runs take the same steps up to their first errors, or to where the files part.  Before
that, nothing goes wrong in them. -/
def comparison : Comparison Parser Parser Event Event where
  go st st' := st.label.message = none ∧ st'.label = st.label.rename k.name
  stop st st' := (∃ d d', k.Fails st st' d d') ∨
    (st.label.reads = true ∧ st'.label.reads = true ∧
      k.beyond st.before.rest st'.before.rest)
  fault _ _ := False

/-- Corresponding states, apart from the last two tokens.  There was no error. -/
structure Base (p p' : Parser) : Prop where
  rest : k.Toks p.endSpan p'.endSpan p.rest p'.rest
  calm : p.panicMode = false
  calm' : p'.panicMode = false
  ctx : p.ctx = Context.init
  ctx' : p'.ctx = Context.init
  sema : p'.sema = p.sema.rename k.name
  typed : p.sema.Typed
  fresh : ∀ i, p'.fresh i = (p.fresh i).map (Node.rename k.name)
  allocs : p'.allocs = p.allocs

/-- Corresponding states whose previous token may be anything. -/
structure Facing (p p' : Parser) : Prop extends k.Base p p' where
  curr : k.Tok p.curr p'.curr

/-- Corresponding states. -/
structure State (p p' : Parser) : Prop extends k.Facing p p' where
  prev : k.Tok p.prev p'.prev

/-- Names, symbols, nodes and lists of nodes that differ in the names only. -/
def Name (name name' : Option Symbol) : Prop := name' = name.map k.name

/-- Symbols correspond under the renaming. -/
def Sym (sym sym' : Option SemaSymbol) : Prop := sym' = sym.map (SemaSymbol.rename k.name)

/-- Nodes correspond under the renaming. -/
def One (n n' : Node) : Prop := n' = n.rename k.name

/-- Nodes that may be null correspond. -/
def Field (n n' : Option Node) : Prop := n' = n.map (Node.rename k.name)

/-- An expression is there. -/
def Expr (n n' : Option Node) : Prop := ∃ e : Node, n = some e ∧ n' = some (e.rename k.name)

/-- So do lists of them. -/
def Fields (ns ns' : List (Option Node)) : Prop :=
  ns' = ns.map (Option.map (Node.rename k.name))

/-- Lists of nodes correspond. -/
def Nodes (ns ns' : List Node) : Prop := ns' = ns.map (Node.rename k.name)

variable {k}

/-- An operand that is there corresponds as a field does. -/
theorem Expr.field {n n' : Option Node} (h : k.Expr n n') : k.Field n n' := by
  obtain ⟨e, rfl, rfl⟩ := h
  rfl

end Likeness

/-- Programs in lockstep on corresponding states. -/
abbrev Same (k : Likeness) {α β : Type} (R : α → β → Prop) (m : Parse α) (m' : Parse β) : Prop :=
  Locked k.comparison k.State R m m'

namespace Parser

variable {k : Likeness} {α β : Type} {R : α → β → Prop}

/-! ## Errors -/

/-- A first report at corresponding places. -/
theorem lockstep_report {P : Unit → Parser → Unit → Parser → Prop} {l l' : Event} {m : Msg}
    {f f' : Parser → Parser} {loc loc' : Option Span} {p p' : Parser}
    (hreads : l'.reads = l.reads) (hl : l.message = some m) (hl' : l'.message = some m)
    (hf : (f p).ctx = Context.init.error loc m) (hf' : (f' p').ctx = Context.init.error loc' m)
    (hloc : (loc = none ∧ loc' = none ∧ m = .redefinition) ∨
      ∃ s s', loc = some s ∧ loc' = some s' ∧ k.span s s') :
    ((Prog.step l f).run p).Lockstep k.comparison P ((Prog.step l' f').run p') :=
  lockstep_stop (Or.inl ⟨⟨loc, m⟩, ⟨loc', m⟩, hreads, hl, hl', ⟨rfl, hloc⟩, hf, hf'⟩)

/-- The two parses fail together at corresponding tokens. -/
theorem same_parserErrorAt {R : Unit → Unit → Prop} {tok tok' : Token} (htok : k.Tok tok tok')
    (m : Msg) : Same k R (parserErrorAt tok m) (parserErrorAt tok' m) := by
  intro p p' hp
  refine lockstep_report rfl rfl rfl ?_ ?_ (Or.inr ⟨_, _, rfl, rfl, htok.span⟩)
  · simp [errorAt, hp.calm, hp.ctx]
  · simp [errorAt, hp.calm', hp.ctx']

/-- They fail together at the current tokens. -/
theorem same_parserError {R : Unit → Unit → Prop} (m : Msg) :
    Same k R (parserError m) (parserError m) :=
  (locked_read fun _ _ hp => hp.curr).bind fun _ _ h => same_parserErrorAt h m

/-- They fail together in the analysis. -/
theorem same_ctxError {R : Unit → Unit → Prop} {tok tok' : Token} (htok : k.Tok tok tok')
    (m : Msg) : Same k R (ctxError (some tok) m) (ctxError (some tok') m) := by
  intro p p' hp
  refine lockstep_report rfl rfl rfl ?_ ?_ (Or.inr ⟨_, _, rfl, rfl, htok.span⟩)
  · simp [report, hp.ctx]
  · simp [report, hp.ctx']

/-- An error ends the comparison, whatever comes after it. -/
theorem Same.error {m m' : Parse Unit} {f : Unit → Parse α} {f' : Unit → Parse β}
    (h : Same k (fun _ _ => False) m m') : Same k R (m >>= f) (m' >>= f') :=
  Locked.bind h fun _ _ hfalse => hfalse.elim

/-! ## Tokens -/

/-- A mark without a name in it. -/
theorem same_mark {l : Event} (hl : l.message = none) (hname : l.rename k.name = l) :
    Same k Eq (Prog.mark l) (Prog.mark l) :=
  locked_step (fun _ _ => ⟨hl, hname.symm⟩) fun _ _ hp => hp

/-- The loop of {lit}`advance` begins by reading a token. -/
theorem advanceLoop_reads (ts : Tokens) (p : Parser) :
    ∃ st sts, ((advanceLoop ts).run p).steps = st :: sts ∧ st.before = p ∧
      st.label.reads = true := by
  cases ts with
  | nil => exact ⟨_, [], rfl, rfl, rfl⟩
  | cons t ts =>
      rw [advanceLoop]
      split
      · exact ⟨⟨.lexError t.val, p, p.takeError t.val ts⟩,
          ((advanceLoop ts).run (p.takeError t.val ts)).steps, rfl, rfl, rfl⟩
      · exact ⟨_, [], rfl, rfl, rfl⟩

/-- The two parses read past the same error tokens. -/
theorem lockstep_advanceLoop {ts ts' : Tokens} {p p' : Parser}
    (hts : k.Toks p.endSpan p'.endSpan ts ts') (hp : k.Base p p') (hrest : p.rest = ts)
    (hrest' : p'.rest = ts') :
    ((advanceLoop ts).run p).Lockstep k.comparison
      (fun _ q _ q' => k.Facing q q' ∧ q.prev = p.prev ∧ q'.prev = p'.prev)
      ((advanceLoop ts').run p') := by
  cases hts with
  | nil hspan =>
      refine lockstep_step ⟨rfl, rfl⟩ ⟨⟨{ hp with rest := .nil hspan }, ?_⟩, rfl, rfl⟩
      exact ⟨rfl, hspan, nofun, nofun, nofun, nofun, nofun⟩
  | @cons t t' ts ts' ht hts =>
      rw [advanceLoop, advanceLoop]
      by_cases herror : t.val.kind = .error
      · rw [if_pos herror, if_pos (ht.kind.trans herror)]
        refine Run.Lockstep.bind (Q := fun _ _ _ _ => False) ?_ fun _ _ _ _ h => h.elim
        refine lockstep_report (m := .lexer t.val.value.lexMsg) rfl rfl ?_ ?_ ?_
          (Or.inr ⟨_, _, rfl, rfl, ht.span⟩)
        · simp [Event.message, ht.lexMsg herror]
        · simp [takeError, hp.ctx]
        · simp [takeError, hp.ctx', ht.lexMsg herror]
      · rw [if_neg herror, if_neg fun h => herror (ht.kind.symm.trans h)]
        exact lockstep_step ⟨rfl, rfl⟩ ⟨⟨{ hp with rest := hts }, ht⟩, rfl, rfl⟩
  | beyond hbeyond =>
      obtain ⟨st, sts, hsteps, hbefore, hreads⟩ := advanceLoop_reads ts p
      obtain ⟨st', sts', hsteps', hbefore', hreads'⟩ := advanceLoop_reads ts' p'
      left
      rw [hsteps, hsteps']
      refine .here _ _ (Or.inr ⟨hreads, hreads', ?_⟩)
      rw [hbefore, hbefore', hrest, hrest']
      exact hbeyond

/-- {lit}`advance` finds corresponding tokens, and keeps the last one. -/
theorem lockstep_advance {p p' : Parser} (hp : k.Base p p') :
    (advance.run p).Lockstep k.comparison
      (fun _ q _ q' => k.Facing q q' ∧ q.prev = p.curr ∧ q'.prev = p'.curr)
      (advance.run p') := by
  unfold advance
  refine Run.Lockstep.bind (Q := fun _ q _ q' => k.Base q q' ∧ q.prev = p.curr ∧
    q'.prev = p'.curr) ?_ ?_
  · exact lockstep_step ⟨rfl, rfl⟩ ⟨{ hp with }, rfl, rfl⟩
  · rintro _ q _ q' ⟨hq, hprev, hprev'⟩
    rw [Prog.run_read_bind, Prog.run_read_bind]
    refine (lockstep_advanceLoop hq.rest hq rfl rfl).mono ?_
    rintro _ q₁ _ q₁' ⟨hq₁, hprev₁, hprev₁'⟩
    exact ⟨hq₁, hprev₁.trans hprev, hprev₁'.trans hprev'⟩

/-- Behind {lit}`advance`, the previous tokens are the ones that were current. -/
theorem lockstep_took {p p' : Parser} (hp : k.Facing p p') :
    (advance.run p).Lockstep k.comparison
      (fun _ q _ q' => k.State q q' ∧ q.prev = p.curr ∧ q'.prev = p'.curr) (advance.run p') := by
  refine (lockstep_advance hp.toBase).mono ?_
  rintro _ q _ q' ⟨hq, hprev, hprev'⟩
  refine ⟨⟨hq, ?_⟩, hprev, hprev'⟩
  rw [hprev, hprev']
  exact hp.curr

/-- They read corresponding tokens. -/
theorem same_advance : Same k Eq advance advance :=
  fun _ _ hp => (lockstep_took hp.toFacing).mono fun _ _ _ _ h => ⟨rfl, h.1⟩

/-- They make the same test. -/
theorem same_checkKind (kind : TokenKind) : Same k Eq (checkKind kind) (checkKind kind) :=
  locked_read fun _ _ hp => by rw [hp.curr.kind]

/-- They take a token or not together. -/
theorem same_matchKind (kind : TokenKind) : Same k Eq (matchKind kind) (matchKind kind) :=
  (same_checkKind kind).branch (same_advance.bind fun _ _ _ => locked_pure rfl) (locked_pure rfl)

/-- They take the token that is demanded, or fail together. -/
theorem same_consume (kind : TokenKind) (m : Msg) :
    Same k Eq (consume kind m) (consume kind m) :=
  (same_checkKind kind).branch same_advance (same_parserError m)

/-- A token that is looked for and then read. -/
theorem same_match_prev {kind : TokenKind} {m m₁ : Token → Parse α} {n n₁ : Parse α}
    {R : α → α → Prop} (hm : ∀ t t', k.Tok t t' → t.kind = kind → Same k R (m t) (m₁ t'))
    (hn : Same k R n n₁) :
    Same k R (do if ← matchKind kind then (do let prev ← Prog.read Parser.prev; m prev) else n)
      (do if ← matchKind kind then (do let prev ← Prog.read Parser.prev; m₁ prev) else n₁) := by
  intro p p' hp
  unfold matchKind checkKind
  by_cases hkind : p.curr.kind = kind
  · have hkind' : p'.curr.kind = kind := hp.curr.kind.trans hkind
    refine Run.Lockstep.bind (Q := fun b q b' q' => b = true ∧ b' = true ∧ k.State q q' ∧
      q.prev = p.curr) ?_ ?_
    · rw [Prog.run_read_bind, Prog.run_read_bind, if_pos (by simp [hkind]),
        if_pos (by simp [hkind'])]
      refine (lockstep_took hp.toFacing).bind ?_
      rintro _ q _ q' ⟨hq, hprev, _⟩
      exact lockstep_pure ⟨rfl, rfl, hq, hprev⟩
    · rintro _ q _ q' ⟨rfl, rfl, hq, hprev⟩
      rw [if_pos rfl, if_pos rfl, Prog.run_read_bind, Prog.run_read_bind]
      exact hm _ _ hq.prev (by rw [hprev, hkind]) q q' hq
  · have hkind' : ¬ p'.curr.kind = kind := fun h => hkind (hp.curr.kind.symm.trans h)
    refine Run.Lockstep.bind (Q := fun b q b' q' => b = false ∧ b' = false ∧ k.State q q') ?_ ?_
    · rw [Prog.run_read_bind, Prog.run_read_bind, if_neg (by simp [hkind]),
        if_neg (by simp [hkind'])]
      exact lockstep_pure ⟨rfl, rfl, hp⟩
    · rintro _ q _ q' ⟨rfl, rfl, hq⟩
      exact hn q q' hq

/-- A token that must be there and is then read. -/
theorem same_consume_prev {kind : TokenKind} {msg : Msg} {m m₁ : Token → Parse α}
    {R : α → α → Prop} (hm : ∀ t t', k.Tok t t' → t.kind = kind → Same k R (m t) (m₁ t')) :
    Same k R (do consume kind msg; let prev ← Prog.read Parser.prev; m prev)
      (do consume kind msg; let prev ← Prog.read Parser.prev; m₁ prev) := by
  intro p p' hp
  unfold consume checkKind
  refine Run.Lockstep.bind (Q := fun _ q _ q' => k.State q q' ∧ q.prev.kind = kind) ?_ ?_
  · rw [Prog.run_read_bind, Prog.run_read_bind]
    by_cases hkind : p.curr.kind = kind
    · have hkind' : p'.curr.kind = kind := hp.curr.kind.trans hkind
      rw [if_pos (by simp [hkind]), if_pos (by simp [hkind'])]
      refine (lockstep_took hp.toFacing).mono ?_
      rintro _ q _ q' ⟨hq, hprev, _⟩
      exact ⟨hq, by rw [hprev, hkind]⟩
    · have hkind' : ¬ p'.curr.kind = kind := fun h => hkind (hp.curr.kind.symm.trans h)
      rw [if_neg (by simp [hkind]), if_neg (by simp [hkind'])]
      exact (same_parserError msg p p' hp).mono fun _ _ _ _ h => (h.1 : False).elim
  · rintro _ q _ q' ⟨hq, hkind⟩
    rw [Prog.run_read_bind, Prog.run_read_bind]
    exact hm _ _ hq.prev hkind q q' hq

/-- A new node stands at corresponding tokens. -/
theorem same_newNode : Same k k.Tok newNode newNode := locked_read fun _ _ hp => hp.prev

/-! ## Scopes and checks -/

/-- Relations between states that only look at the analysis through the renaming. -/
structure Stable (k : Likeness) (P : Parser → Parser → Prop) : Prop where
  base : ∀ p p', P p p' → k.Base p p'
  sema : ∀ p p' (σ : Sema), P p p' → σ.Typed →
    P { p with sema := σ } { p' with sema := σ.rename k.name }

/-- What the two parses have in front of them is stable. -/
theorem stable_facing : Stable k k.Facing where
  base _ _ hp := hp.toBase
  sema _ _ _ hp hσ := { hp with sema := rfl, typed := hσ }

/-- So is all of their states. -/
theorem stable_state : Stable k k.State where
  base _ _ hp := hp.toBase
  sema _ _ _ hp hσ := { hp with sema := rfl, typed := hσ }

section

variable {P : Parser → Parser → Prop} (hP : Stable k P)

include hP

/-- A step that changes nothing but the state of the analysis. -/
theorem locked_sema {l : Event} {g : Sema → Sema} (hl : l.message = none)
    (hname : l.rename k.name = l) (hg : ∀ σ : Sema, (g σ).rename k.name = g (σ.rename k.name))
    (htyped : ∀ σ : Sema, σ.Typed → (g σ).Typed) :
    Locked k.comparison P Eq (Prog.step l fun p => { p with sema := g p.sema })
      (Prog.step l fun p => { p with sema := g p.sema }) := by
  refine locked_step (fun _ _ => ⟨hl, hname.symm⟩) fun p p' hp => ?_
  rw [(hP.base p p' hp).sema, ← hg]
  exact hP.sema p p' _ hp (htyped _ (hP.base p p' hp).typed)

/-- A parameter is recorded in both. -/
theorem locked_pushParam (id : Nat) (ty : Option ObjTy) :
    Locked k.comparison P Eq (pushParam id ty) (pushParam id ty) :=
  locked_sema hP (g := fun σ => σ.pushParam id ty) rfl rfl (fun _ => Sema.rename_pushParam _ _ _)
    fun _ h => h

/-- A function type is made in both. -/
theorem locked_typeFuncNew (ret : ObjTy) :
    Locked k.comparison P Eq (typeFuncNew ret) (typeFuncNew ret) := by
  refine Locked.bind (R := Eq) (locked_read fun p p' hp => ?_) ?_
  · rw [(hP.base p p' hp).sema, Sema.funcs_rename]
  · rintro id _ rfl
    refine Locked.bind (R := Eq) ?_ fun _ _ _ => locked_pure rfl
    exact locked_sema hP (g := fun σ => σ.newFunc ret) rfl rfl
      (fun _ => Sema.rename_newFunc _ _) fun _ h => h

/-- A name is defined in both, or reported in both. -/
theorem locked_semaDefineVar (name : Symbol) (ty : Ty) (isConst : Bool) :
    Locked k.comparison P k.Sym (semaDefineVar name (some ty) isConst)
      (semaDefineVar (k.name name) (some ty) isConst) := by
  intro p p' hp
  have hbase := hP.base p p' hp
  unfold semaDefineVar
  rw [Prog.run_read_bind, Prog.run_read_bind, hbase.sema, Sema.isEmpty_scopes_rename]
  split
  · exact lockstep_pure ⟨rfl, hp⟩
  rw [Prog.run_read_bind, Prog.run_read_bind, hbase.sema, Sema.declared_rename k.injective]
  split
  · refine Run.Lockstep.bind (Q := fun _ _ _ _ => False) ?_ fun _ _ _ _ h => h.elim
    refine lockstep_report rfl rfl rfl ?_ ?_ (Or.inl ⟨rfl, rfl, rfl⟩)
    · simp [report, hbase.ctx]
    · simp [report, hbase.ctx']
  rw [Prog.run_read_bind, Prog.run_read_bind, hbase.sema, Sema.newSymbol_rename]
  refine Run.Lockstep.bind (Q := fun _ q _ q' => P q q') ?_ ?_
  · refine lockstep_step ⟨rfl, rfl⟩ ?_
    rw [hbase.sema, Sema.newSymbol_rename, Sema.define_rename]
    exact hP.sema p p' _ hp (hbase.typed.define _ (by simp [Sema.newSymbol]))
  · exact fun _ _ _ _ hq => lockstep_pure ⟨rfl, hq⟩

/-- A scope is entered in both. -/
theorem locked_semaScopeEnter : Locked k.comparison P Eq semaScopeEnter semaScopeEnter :=
  locked_sema hP rfl rfl (fun _ => Sema.rename_enter _) fun _ => Sema.Typed.enter

/-- It is left in both. -/
theorem locked_semaScopeLeave : Locked k.comparison P Eq semaScopeLeave semaScopeLeave :=
  locked_sema hP rfl rfl (fun _ => Sema.rename_leave _) fun _ => Sema.Typed.leave

/-- The return type is set in both. -/
theorem locked_setFuncRet (ret : Option ObjTy) :
    Locked k.comparison P Eq (setFuncRet ret) (setFuncRet ret) :=
  locked_sema hP (g := fun σ => { σ with currFuncRet := ret }) rfl rfl (fun _ => rfl)
    fun _ h => h

end

/-- What is looked up has a type. -/
theorem same_semaLookup (name : Symbol) :
    Same k (fun sym sym' => k.Sym sym sym' ∧ ∀ found, sym = some found → found.ty ≠ none)
      (semaLookup name) (semaLookup (k.name name)) := by
  refine locked_read fun p _ hp => ⟨?_, fun found hfound => hp.typed.lookup hfound⟩
  rw [hp.sema]
  exact Sema.lookup_rename k.injective _ _

/-- Types are compared with one result. -/
theorem same_typeEq (a b : Option Ty) :
    Same k Eq (Prog.read fun p => !typeEq p.sema.funcs a b)
      (Prog.read fun p => !typeEq p.sema.funcs a b) :=
  locked_read fun _ _ hp => by rw [hp.sema, Sema.funcs_rename]

/-- The same type, which is there. -/
def Known (ty ty' : Option ObjTy) : Prop := ∃ base, ty = some base ∧ ty' = some base

/-- An array type is made in both. -/
theorem same_typeArrayOf {base base' : Option ObjTy} (hbase : Known base base') (len : Int32) :
    Same k Known (typeArrayOf base len) (typeArrayOf base' len) := by
  obtain ⟨base, rfl, rfl⟩ := hbase
  exact (same_mark rfl rfl).bind fun _ _ _ => locked_pure ⟨_, rfl, rfl⟩

/-- The analysis of an operator sees the types of its operands only. -/
theorem same_semaAnalyzeBinary (op : BinOp) {tok tok' : Token} (htok : k.Tok tok tok')
    {lhs lhs' rhs rhs' : Option Node} (hlhs : k.Expr lhs lhs') (hrhs : k.Expr rhs rhs') :
    Same k k.One (semaAnalyzeBinary op tok lhs rhs) (semaAnalyzeBinary op tok' lhs' rhs') := by
  obtain ⟨l, rfl, rfl⟩ := hlhs
  obtain ⟨r, rfl, rfl⟩ := hrhs
  refine (same_mark rfl rfl).bind fun _ _ _ => ?_
  have hreport (m : Msg) (n n' : Node) : Same k k.One
      (do ctxError tok m; return n) (do ctxError tok' m; return n') :=
    Same.error (same_ctxError htok m)
  simp only [Node.ty_rename]
  refine (same_typeEq l.ty r.ty).branch (hreport _ _ _) ?_
  cases op <;>
    first
    | exact locked_pure (by simp [Likeness.One, Node.rename])
    | exact Locked.ite Iff.rfl (hreport _ _ _)
        (locked_pure (by simp [Likeness.One, Node.rename]))

/-- That of an assignment sees the types and whether the target is a constant. -/
theorem same_semaAnalyzeAssign {tok tok' : Token} (htok : k.Tok tok tok')
    {lhs lhs' rhs rhs' : Option Node} (hlhs : k.Expr lhs lhs') (hrhs : k.Expr rhs rhs') :
    Same k k.One (semaAnalyzeAssign tok lhs rhs) (semaAnalyzeAssign tok' lhs' rhs') := by
  obtain ⟨l, rfl, rfl⟩ := hlhs
  obtain ⟨r, rfl, rfl⟩ := hrhs
  refine (same_mark rfl rfl).bind fun _ _ _ => ?_
  simp only [Node.ty_rename]
  refine Locked.bind (R := Eq) ?_ fun _ _ _ => ?_
  · unfold checkAssignTarget
    rw [Node.isConstVar_rename]
    exact Locked.ite Iff.rfl (same_ctxError htok _) (locked_pure rfl)
  · refine (same_typeEq l.ty r.ty).branch (Same.error (same_ctxError htok _)) ?_
    exact locked_pure (by simp [Likeness.One, Node.rename])

end Parser

end Cact
