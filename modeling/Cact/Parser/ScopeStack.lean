import Cact.Parser.Labels

/-!
# The scope stack

Whatever the input, every parsing function leaves the scope stack as it found it, but
for new names in the current scope, and the return type of the current function is
known exactly while a function is being parsed.

Main results:

- Theorems {lit}`Parser.frame_signature` and {lit}`Parser.frame_core`: expressions,
  parameters and declarators only add names to the current scope, at every step.
- Theorem {lit}`Parser.visits_body`: statements and blocks do so from entry to return.
- Theorem {lit}`scope_stack_discipline`: the discipline of whole parses.
-/

open Traced

namespace Cact

/-- A scope with its old bindings, and possibly new names. -/
def Scope.Extends (sc sc' : Scope) : Prop :=
  sc'.addr = sc.addr ∧
    ∀ name sym, sc.symbols.get name = some sym → sc'.symbols.get name = some sym

/-- The same scopes, the innermost with possibly new names. -/
def StackExtends : List Scope → List Scope → Prop
  | [], stack => stack = []
  | sc :: below, stack => ∃ sc', stack = sc' :: below ∧ sc.Extends sc'

/-- A stack extends itself. -/
theorem StackExtends.refl (stack : List Scope) : StackExtends stack stack := by
  cases stack with
  | nil => rfl
  | cons sc below => exact ⟨sc, rfl, rfl, fun _ _ => id⟩

/-- Extensions add up. -/
theorem StackExtends.trans {s₁ s₂ s₃ : List Scope} (h : StackExtends s₁ s₂)
    (h' : StackExtends s₂ s₃) : StackExtends s₁ s₃ := by
  cases s₁ with
  | nil =>
      cases h
      exact h'
  | cons sc below =>
      rcases h with ⟨sc₂, rfl, haddr, hget⟩
      rcases h' with ⟨sc₃, rfl, haddr', hget'⟩
      exact ⟨sc₃, rfl, haddr'.trans haddr, fun name sym hsym => hget' _ _ (hget _ _ hsym)⟩

/-- No scope is opened or closed. -/
theorem StackExtends.length {s₁ s₂ : List Scope} (h : StackExtends s₁ s₂) :
    s₂.length = s₁.length := by
  cases s₁ with
  | nil =>
      cases h
      rfl
  | cons sc below =>
      rcases h with ⟨sc₂, rfl, _⟩
      rfl

/-- Everything below the current scope is untouched. -/
theorem StackExtends.tail {s₁ s₂ : List Scope} (h : StackExtends s₁ s₂) :
    s₂.tail = s₁.tail := by
  cases s₁ with
  | nil =>
      cases h
      rfl
  | cons sc below =>
      rcases h with ⟨sc₂, rfl, _⟩
      rfl

/-- Declaring a name the current scope does not hold keeps all other bindings. -/
theorem stackExtends_define {s : Sema} {sym : SemaSymbol} (h : s.declared sym.name = false) :
    StackExtends s.scopes (s.define sym).scopes := by
  unfold Sema.declared at h
  unfold Sema.define
  cases hscopes : s.scopes with
  | nil => simp [hscopes, StackExtends]
  | cons sc below =>
      simp only [hscopes, Option.isSome_eq_false_iff, Option.isNone_iff_eq_none] at h
      refine ⟨_, rfl, rfl, ?_⟩
      intro name sym' hget
      have hne : (name == sym.name) = false := by
        by_contra heq
        have heq' : name = sym.name := by simpa using heq
        rw [heq', h] at hget
        cases hget
      simpa [SymbolMap.get, List.lookup_cons, hne] using hget

namespace Parser

/-! ## Expressions, declarators and parameters -/

/-- The scope stack and the return type are as before, but for new names in the current
scope. -/
structure Frame (p p' : Parser) : Prop where
  ret : p'.sema.currFuncRet = p.sema.currFuncRet
  scopes : StackExtends p.sema.scopes p'.sema.scopes

/-- Nothing changes by standing still. -/
theorem Frame.refl (p : Parser) : Frame p p := ⟨rfl, StackExtends.refl _⟩

/-- Frames add up. -/
theorem Frame.trans (p₁ p₂ p₃ : Parser) (h : Frame p₁ p₂) (h' : Frame p₂ p₃) :
    Frame p₁ p₃ :=
  ⟨h'.ret.trans h.ret, h.scopes.trans h'.scopes⟩

/-- Where the scopes and the return type are the same, so is the frame. -/
theorem frame_of_eq {p p' : Parser} (hscopes : p'.sema.scopes = p.sema.scopes)
    (hret : p'.sema.currFuncRet = p.sema.currFuncRet) : Frame p p' :=
  ⟨hret, hscopes ▸ StackExtends.refl _⟩

/-- {lit}`advance` keeps the frame at every step. -/
theorem along_frame_advance : Along Frame advance := by
  have hstep {l : Event} {f : Parser → Parser} {p : Parser} (hsema : (f p).sema = p.sema) :
      ((Prog.step l f : Parse Unit).run p).Along Frame p :=
    Prog.along_step Frame.refl (frame_of_eq (by rw [hsema]) (by rw [hsema]))
  have hloop : ∀ (ts : Tokens) (p : Parser), ((advanceLoop ts).run p).Along Frame p := by
    intro ts
    induction ts with
    | nil => exact fun p => hstep rfl
    | cons t ts ih =>
        intro p
        rw [advanceLoop]
        split
        · exact Prog.along_bind Frame.trans (hstep rfl) fun _ p' _ => ih p'
        · exact hstep rfl
  intro p
  exact Prog.along_bind Frame.trans (hstep rfl) fun _ p' _ => hloop _ _

/-- A definition adds a name to the current scope. -/
theorem along_frame_define (name : Symbol) (ty : Option Ty) (isConst : Bool) :
    Along Frame (semaDefineVar name ty isConst) := by
  have hpure {α : Type} (a : α) (p : Parser) :
      ((pure a : Parse α).run p).Along Frame p :=
    (along_congruence Frame.refl Frame.trans).pure a p
  intro p
  unfold semaDefineVar
  rw [Prog.run_read_bind]
  split
  · exact hpure _ p
  rw [Prog.run_read_bind]
  split <;> rename_i hdeclared
  · refine Prog.along_bind Frame.trans ?_ fun _ p' _ => hpure _ p'
    exact Prog.along_step Frame.refl (frame_of_eq rfl rfl)
  · rw [Prog.run_read_bind]
    refine Prog.along_bind Frame.trans ?_ fun _ p' _ => hpure _ p'
    refine Prog.along_step Frame.refl ⟨?_, stackExtends_define ?_⟩
    · unfold Sema.define
      cases p.sema.scopes <;> rfl
    · simpa [Sema.newSymbol] using hdeclared

/-- Expressions keep the stack at every step. -/
theorem frame_exprs : Exprs fun {_} m _ => Along Frame m := by
  have hC := along_congruence (ℓ := Event) Frame.refl Frame.trans
  have hstep {l : Event} {f : Parser → Parser}
      (hscopes : ∀ p, (f p).sema.scopes = p.sema.scopes)
      (hret : ∀ p, (f p).sema.currFuncRet = p.sema.currFuncRet) :
      Along Frame (Prog.step l f) :=
    fun p => Prog.along_step Frame.refl (frame_of_eq (hscopes p) (hret p))
  have hsema {l : Event} {f : Parser → Parser} (h : ∀ p, (f p).sema = p.sema) :
      Along Frame (Prog.step l f) :=
    hstep (fun p => by rw [h p]) fun p => by rw [h p]
  exact
    { hC with
      read := fun f _ => hC.read f
      advance := along_frame_advance
      exprMark := fun _ => hsema fun _ => rfl
      parserErrorAt := fun tok m => hsema fun p => errorAt_sema p tok m
      ctxError := fun _ _ => hsema fun _ => rfl
      define := along_frame_define }

/-- A step that leaves the scopes alone. -/
theorem along_frame_step {l : Event} {f : Parser → Parser}
    (hscopes : ∀ p, (f p).sema.scopes = p.sema.scopes)
    (hret : ∀ p, (f p).sema.currFuncRet = p.sema.currFuncRet) : Along Frame (Prog.step l f) :=
  fun p => Prog.along_step Frame.refl (frame_of_eq (hscopes p) (hret p))

/-- So do parameters. -/
theorem frame_signature : Signature fun {_} m _ => Along Frame m := by
  have hC := along_congruence (ℓ := Event) Frame.refl Frame.trans
  exact Signature.of_exprs frame_exprs (along_frame_step (fun _ => rfl) fun _ => rfl)
    (fun _ => congr_typeFuncNew hC.reading (along_frame_step (fun _ => rfl) fun _ => rfl))
    fun _ _ => along_frame_step (fun _ => rfl) fun _ => rfl

/-- So do declarators. -/
theorem frame_core : Core fun {_} m _ => Along Frame m := by
  have hC := along_congruence (ℓ := Event) Frame.refl Frame.trans
  have hstep {l : Event} {f : Parser → Parser} (h : ∀ p, (f p).sema = p.sema) :
      Along Frame (Prog.step l f) :=
    fun p => Prog.along_step Frame.refl (frame_of_eq (by rw [h p]) (by rw [h p]))
  exact Core.of_exprs frame_exprs
    (fun {_ k k'} => congr_newNodeField hC (hstep fun _ => rfl) k k')
    fun {a b} => congr_keepField hC (hstep fun _ => rfl) a b

/-! ## Statements and blocks -/

/-- The scope stack is as before but for new names and inner scopes, and the return type
is as before. -/
structure Inside (p p' : Parser) : Prop where
  ret : p'.sema.currFuncRet = p.sema.currFuncRet
  scopes : ∃ inner stack, p'.sema.scopes = inner ++ stack ∧ StackExtends p.sema.scopes stack

/-- Keeping the frame is staying inside. -/
theorem Frame.inside {p p' : Parser} (h : Frame p p') : Inside p p' :=
  ⟨h.ret, [], _, rfl, h.scopes⟩

/-- Staying inside behind a frame is staying inside. -/
theorem Frame.trans_inside (p₁ p₂ p₃ : Parser) (h : Frame p₁ p₂) (h' : Inside p₂ p₃) :
    Inside p₁ p₃ := by
  rcases h' with ⟨hret, inner, stack, hscopes, hext⟩
  exact ⟨hret.trans h.ret, inner, stack, hscopes, h.scopes.trans hext⟩

/-- Inside a scope just entered, the outer stack is unchanged below it. -/
theorem Inside.of_enter {p p' : Parser} {sema : Sema} (hsema : sema = p.sema.enter)
    (h : Inside { p with sema := sema } p') : Inside p p' := by
  subst hsema
  rcases h with ⟨hret, inner, stack, hscopes, sc, rfl, _⟩
  exact ⟨hret, inner ++ [sc], p.sema.scopes, by simp [hscopes], StackExtends.refl _⟩

/-- What keeps the frame at every step visits nothing else. -/
theorem visits_of_along {α : Type} {m : Parse α} (h : Along Frame m) :
    Visits Inside Frame m := by
  intro p
  refine Or.inr ⟨?_, ?_⟩
  · intro st hst
    exact ⟨((h p).before hst).inside,
      (Frame.trans _ _ _ ((h p).before hst) ((h p).across hst)).inside⟩
  · cases hout : (m.run p).outcome with
    | done a p' => exact (h p).ends (by rw [hout]; rfl)
    | fault p' => exact ((h p).ends (by rw [hout]; rfl)).inside
    | timeout => exact trivial

/-- A scope is left by the program that entered it. -/
theorem visits_scope {α β : Type} {m : Parse α} {k : α → Parse β}
    (hm : Visits Inside Frame m) (hk : ∀ a, Visits Inside Frame (k a)) :
    Visits Inside Frame (do semaScopeEnter; let a ← m; semaScopeLeave; k a) := by
  intro p
  have henter : Inside p { p with sema := p.sema.enter } :=
    ⟨rfl, [⟨p.sema.nextScope, []⟩], p.sema.scopes, rfl, StackExtends.refl _⟩
  refine Prog.meets_bind (R := fun _ q => q = { p with sema := p.sema.enter }) ?_ ?_
  · exact Prog.meets_step ⟨(Frame.refl p).inside, henter⟩ rfl
  rintro _ _ rfl
  -- Inside the scope, states are related to the one just after entering.
  refine Prog.meets_bind ((hm _).weaken (fun _ => id)
    (fun _ hst => ⟨Inside.of_enter rfl hst.1, Inside.of_enter rfl hst.2⟩)
    (fun _ => Inside.of_enter rfl) id) fun a q hq => ?_
  have hleave : Frame p { q with sema := q.sema.leave } := by
    refine ⟨hq.ret, ?_⟩
    have htail : q.sema.scopes.tail = p.sema.scopes := hq.scopes.tail
    exact htail.symm ▸ StackExtends.refl _
  refine Prog.meets_bind (R := fun _ q' => Frame p q') ?_ fun _ q' hq' => ?_
  · exact Prog.meets_step ⟨Inside.of_enter rfl hq.inside, hleave.inside⟩ hleave
  · refine Run.Meets.mono ?_ fun _ _ => Frame.trans _ _ _ hq'
    refine (hk a q').weaken (fun _ => id) ?_ (fun _ => Frame.trans_inside _ _ _ hq') id
    exact fun _ hst => ⟨Frame.trans_inside _ _ _ hq' hst.1, Frame.trans_inside _ _ _ hq' hst.2⟩

/-- Statements and blocks keep the stack from entry to return, and in between only put
inner scopes on top of it. -/
theorem visits_body : Body fun {_} m _ => Visits Inside Frame m := by
  have hC := visits_congruence (ℓ := Event) (fun p => (Frame.refl p).inside) Frame.refl
    Frame.trans_inside Frame.trans
  have hstep {l : Event} {f : Parser → Parser} (hsema : ∀ p, (f p).sema = p.sema) :
      Visits Inside Frame (Prog.step l f) :=
    visits_of_along fun p => Prog.along_step Frame.refl
      (frame_of_eq (by rw [hsema p]) (by rw [hsema p]))
  have hexprs : Exprs fun {_} m _ => Visits Inside Frame m :=
    { hC with
      read := fun f _ => hC.read f
      advance := visits_of_along frame_signature.advance
      exprMark := fun he => visits_of_along (frame_exprs.exprMark he)
      parserErrorAt := fun _ _ => visits_of_along (frame_signature.parserErrorAt _ _)
      ctxError := fun _ _ => visits_of_along (frame_signature.ctxError _ _)
      define := fun _ _ _ => visits_of_along (frame_signature.define _ _ _) }
  exact
    { Core.of_exprs hexprs (fun {_ k k'} => congr_newNodeField hC (hstep fun _ => rfl) k k')
        fun {a b} => congr_keepField hC (hstep fun _ => rfl) a b with
      bodyMark := fun _ => hstep fun _ => rfl
      recover := fun {_ n n' m m' k k'} hn => congr_recover hC.reading n n' m m' k k'
        (congr_synchronize hC.reading n n' hn (hstep fun _ => rfl) (fun _ => hstep fun _ => rfl)
          (visits_of_along frame_signature.advance))
      scope := visits_scope }

/-! ## Functions and whole parses -/

/-- The return type of the current function is known exactly when the stack holds a
scope besides the global one. -/
def Phased (p : Parser) : Prop := p.sema.currFuncRet ≠ none ↔ 2 ≤ p.sema.scopes.length

/-- What a step may do: everything in a function knows its return type, a top-level item
begins outside functions, and only the steps that open and close a function make the
return type and the stack differ. -/
structure Disciplined (st : Step Parser Event) : Prop where
  body : st.label.isBodyMark = true ∨ st.label = .enter .param →
    st.before.sema.currFuncRet ≠ none
  top : st.label.isTopMark = true → st.before.sema.currFuncRet = none
  phased : st.label ≠ .setFuncRet → st.label ≠ .scopeEnter → st.label ≠ .scopeLeave →
    st.before.Phased ∧ st.after.Phased

/-- Outside all functions: the stack holds the global scope only. -/
def AtTop (p : Parser) : Prop := p.sema.currFuncRet = none ∧ p.sema.scopes.length = 1

/-- In a function with a given return type, over a given outer stack. -/
def InFunc (ret : ObjTy) (outer : List Scope) (p : Parser) : Prop :=
  p.sema.currFuncRet = some ret ∧ ∃ sc, p.sema.scopes = sc :: outer

/-- At top level no return type is known. -/
theorem AtTop.phased {p : Parser} (h : AtTop p) : Phased p := by
  refine ⟨fun hret => absurd h.1 hret, fun hlen => ?_⟩
  have := h.2
  omega

/-- A frame keeps the parser at top level. -/
theorem AtTop.frame {p p' : Parser} (h : AtTop p) (hframe : Frame p p') : AtTop p' :=
  ⟨hframe.ret.trans h.1, hframe.scopes.length ▸ h.2⟩

/-- It keeps it in its function. -/
theorem InFunc.frame {ret : ObjTy} {outer : List Scope} {p p' : Parser}
    (h : InFunc ret outer p) (hframe : Frame p p') : InFunc ret outer p' := by
  rcases h with ⟨hret, sc, hscopes⟩
  refine ⟨hframe.ret.trans hret, ?_⟩
  have hext := hframe.scopes
  rw [hscopes] at hext
  rcases hext with ⟨sc', hscopes', _⟩
  exact ⟨sc', hscopes'⟩

/-- What stays inside stays in the function. -/
theorem InFunc.inside {ret : ObjTy} {outer : List Scope} {p p' : Parser}
    (h : InFunc ret outer p) (hinside : Inside p p') :
    p'.sema.currFuncRet = some ret ∧ outer.length + 1 ≤ p'.sema.scopes.length := by
  rcases h with ⟨hret, sc, hscopes⟩
  rcases hinside with ⟨hret', inner, stack, hscopes', hext⟩
  refine ⟨hret'.trans hret, ?_⟩
  have hlen := hext.length
  rw [hscopes] at hlen
  simp only [hscopes', List.length_append, hlen, List.length_cons]
  omega

/-- A program that keeps the stack meets a contract if its events allow it. -/
theorem meets_of_visits {α : Type} {m : Parse α} {L : Event → Prop}
    {P : Step Parser Event → Prop} (hv : Visits Inside Frame m) (hl : Emits L m) {p : Parser}
    (hP : ∀ st, L st.label → Inside p st.before → Inside p st.after → P st) :
    (m.run p).Meets (Contract.keeps (fun _ => True) P) fun _ => Frame p := by
  refine Or.inr ⟨?_, ?_⟩
  · intro st hst
    have hinside := (hv p).emits (fun _ => id) hst
    exact hP st (hl.emits trivial hst) hinside.1 hinside.2
  · cases hout : (m.run p).outcome with
    | done a p' => exact (hv p).of_done (fun _ _ => id) hout
    | fault p' => exact trivial
    | timeout => exact trivial

section Func

variable {p : Parser}

/-- What a step of a function definition may do, if it begins at top level. -/
def FuncStep (p : Parser) (retTy : ObjTy) (st : Step Parser Event) : Prop :=
  AtTop p → Disciplined st ∧ (st.label.isBodyMark = true ∨ st.label = .enter .param →
    st.before.sema.currFuncRet = some retTy)

/-- Before the function's scope is entered, the parser is still at top level. -/
theorem meets_before {α : Type} {m : Parse α} (hv : Along Frame m)
    (hl : Emits (fun e => e.isQuiet = true) m) {q : Parser} (hq : Frame p q) (retTy : ObjTy) :
    (m.run q).Meets (Contract.keeps (fun _ => True) (FuncStep p retTy)) fun _ => Frame p := by
  have hat {q' : Parser} (htop : AtTop p) (hq' : Frame q q') : AtTop q' :=
    htop.frame (Frame.trans _ _ _ hq hq')
  refine Or.inr ⟨?_, ?_⟩
  · intro st hst htop
    have hbefore := hat htop ((hv q).before hst)
    have hafter := hat htop (Frame.trans _ _ _ ((hv q).before hst) ((hv q).across hst))
    have hquiet := hl.emits trivial hst
    simp only [Event.isQuiet, Bool.and_eq_true, Bool.not_eq_true', bne_iff_ne] at hquiet
    refine ⟨⟨?_, fun _ => hbefore.1, fun _ _ _ => ⟨hbefore.phased, hafter.phased⟩⟩, ?_⟩
    · rintro (hbody | hparam)
      · simp [hquiet.1.1] at hbody
      · exact absurd hparam hquiet.2
    · rintro (hbody | hparam)
      · simp [hquiet.1.1] at hbody
      · exact absurd hparam hquiet.2
  · cases hout : (m.run q).outcome with
    | done a q' => exact Frame.trans _ _ _ hq ((hv q).ends (by rw [hout]; rfl))
    | fault q' => exact trivial
    | timeout => exact trivial

/-- Between the entering and the leaving of the function's scope, the parser is in the
function. -/
theorem meets_within {retTy : ObjTy} {α : Type} {m : Parse α} (hv : Visits Inside Frame m)
    (hl : Emits (fun e => e.isTopMark = false) m) {outer : List Scope}
    (houter : AtTop p → outer.length = 1) {q : Parser} (hq : InFunc retTy outer q) :
    (m.run q).Meets (Contract.keeps (fun _ => True) (FuncStep p retTy)) fun _ =>
      InFunc retTy outer := by
  refine (meets_of_visits hv hl ?_).mono fun _ _ => hq.frame
  intro st hlabel hbefore hafter htop
  have hbefore' := hq.inside hbefore
  have hafter' := hq.inside hafter
  have hlen := houter htop
  have hphased {q' : Parser} (h : q'.sema.currFuncRet = some retTy ∧
      outer.length + 1 ≤ q'.sema.scopes.length) : Phased q' :=
    ⟨fun _ => by omega, fun _ => by simp [h.1]⟩
  refine ⟨⟨fun _ => by simp [hbefore'.1], fun h => ?_, fun _ _ _ => ?_⟩, fun _ => hbefore'.1⟩
  · rw [hlabel] at h
    cases h
  · exact ⟨hphased hbefore', hphased hafter'⟩

/-- A step that opens or closes the function may do as it likes. -/
theorem funcStep_of_border {retTy : ObjTy} {l : Event}
    (hl : l = .setFuncRet ∨ l = .scopeEnter ∨ l = .scopeLeave) (q q' : Parser) :
    FuncStep p retTy ⟨l, q, q'⟩ := by
  intro _
  rcases hl with rfl | rfl | rfl <;>
    refine ⟨⟨?_, ?_, ?_⟩, ?_⟩ <;> simp [Event.isBodyMark, Event.isTopMark]

/-- A function definition leaves the stack as it found it, but for the name of the
function, and leaves no return type behind. -/
theorem meets_parseFunc (n : Nat) (retTy : ObjTy) (name : Symbol) (p : Parser) :
    ((parseFunc n retTy name).run p).Meets (Contract.keeps (fun _ => True) (FuncStep p retTy))
      fun _ q => q.sema.currFuncRet = none ∧ StackExtends p.sema.scopes q.sema.scopes := by
  have hcore := emits_core fun e => Event.isQuiet_of_isCore (e := e)
  have hbody := emits_body fun e => Event.isTopMark_of_isBody (e := e)
  have hsig := emits_signature fun e => Event.isTopMark_of_isSignature (e := e)
  -- The header, up to the name of the function.
  refine Prog.meets_bind (R := fun _ => Frame p) ?_ fun _ q hq => ?_
  · refine Prog.meets_step ?_ (Frame.refl p)
    intro htop
    refine ⟨⟨fun h => ?_, fun _ => htop.1, fun _ _ _ => ⟨htop.phased, htop.phased⟩⟩, fun h => ?_⟩
    · simp [Event.isBodyMark] at h
    · simp [Event.isBodyMark] at h
  refine Prog.meets_bind (meets_before (frame_signature.consume _ _) (hcore.consume _ _) hq _)
    fun _ q hq => ?_
  refine Prog.meets_bind (meets_before (frame_signature.typeFuncNew _)
    (congr_typeFuncNew emits_congruence.reading (emits_step rfl)) hq _) fun funcTy q hq => ?_
  refine Prog.meets_bind (meets_before (frame_signature.define _ _ _) (hcore.define _ _ _) hq _)
    fun _ q hq => ?_
  -- The function is opened.
  have houter : AtTop p → q.sema.scopes.length = 1 := fun htop => (htop.frame hq).2
  refine Prog.meets_bind (R := fun _ q' =>
    q'.sema.currFuncRet = some retTy ∧ q'.sema.scopes = q.sema.scopes) ?_ fun _ q₁ hq₁ => ?_
  · exact Prog.meets_step (funcStep_of_border (Or.inl rfl) _ _) ⟨rfl, rfl⟩
  refine Prog.meets_bind (R := fun _ => InFunc retTy q.sema.scopes) ?_ fun _ q₂ hq₂ => ?_
  · refine Prog.meets_step (funcStep_of_border (Or.inr (Or.inl rfl)) _ _)
      ⟨hq₁.1, ⟨q₁.sema.nextScope, []⟩, ?_⟩
    simp only [Sema.enter, hq₁.2]
  -- Its parameters and its body.
  refine Prog.meets_bind
    (meets_within (visits_of_along (frame_signature.parseParams (Nat.le_refl n) _))
      (hsig.parseParams (Nat.le_refl n) _) houter hq₂) fun _ q₃ hq₃ => ?_
  refine Prog.meets_bind (meets_within (visits_body.consume _ _) (hbody.consume _ _) houter hq₃)
    fun _ q₄ hq₄ => ?_
  refine Prog.meets_bind (meets_within (visits_body.consume _ _) (hbody.consume _ _) houter hq₄)
    fun _ q₅ hq₅ => ?_
  refine Prog.meets_bind (meets_within (visits_body.bodyLoop (Nat.le_refl n) _ _)
    (hbody.bodyLoop (Nat.le_refl n) _ _) houter hq₅) fun stmts q₆ hq₆ => ?_
  refine Prog.meets_bind (meets_within (visits_body.consume _ _) (hbody.consume _ _) houter hq₆)
    fun _ q₇ hq₇ => ?_
  -- The function is closed.
  refine Prog.meets_bind (R := fun _ q' => q'.sema.scopes = q.sema.scopes) ?_ fun _ q₈ hq₈ => ?_
  · refine Prog.meets_step (funcStep_of_border (Or.inr (Or.inr rfl)) _ _) ?_
    rcases hq₇.2 with ⟨sc, hscopes⟩
    simp [Sema.leave, hscopes]
  refine Prog.meets_bind (R := fun _ q' =>
    q'.sema.currFuncRet = none ∧ q'.sema.scopes = q.sema.scopes) ?_ fun _ q₉ hq₉ => ?_
  · exact Prog.meets_step (funcStep_of_border (Or.inl rfl) _ _) ⟨rfl, hq₈⟩
  · exact Prog.meets_pure ⟨hq₉.1, hq₉.2 ▸ hq.scopes⟩

end Func

/-! ## Top-level items -/

/-- What a step of a top-level item may do, if it begins at top level. -/
def TopStep (p : Parser) (st : Step Parser Event) : Prop := AtTop p → Disciplined st

/-- A piece that keeps the frame is disciplined at top level. -/
theorem meets_top {α : Type} {m : Parse α} (hv : Along Frame m)
    (hl : Emits (fun e => e.isQuiet = true) m) {p q : Parser} (hq : Frame p q) :
    (m.run q).Meets (Contract.keeps (fun _ => True) (TopStep p)) fun _ => Frame p := by
  have hfunc := meets_before (p := p) hv hl hq
  exact (hfunc .void).weaken (fun _ => id) (fun _ h htop => (h htop).1) (fun _ => id) id

/-- A top-level item only adds names to the global scope. -/
theorem meets_parseTopLevel (n : Nat) (p : Parser) :
    ((parseTopLevel n).run p).Meets (Contract.keeps (fun _ => True) (TopStep p)) fun _ q =>
      StackExtends p.sema.scopes q.sema.scopes ∧ (AtTop p → AtTop q) := by
  have hcore := emits_core fun e => Event.isQuiet_of_isCore (e := e)
  have hframe {q : Parser} (hq : Frame p q) :
      StackExtends p.sema.scopes q.sema.scopes ∧ (AtTop p → AtTop q) :=
    ⟨hq.scopes, fun htop => htop.frame hq⟩
  refine Prog.meets_bind (R := fun _ => Frame p) ?_ fun _ q hq => ?_
  · refine Prog.meets_step ?_ (Frame.refl p)
    refine fun htop => ⟨fun h => ?_, fun _ => htop.1, fun _ _ _ => ⟨htop.phased, htop.phased⟩⟩
    simp [Event.isBodyMark] at h
  refine Prog.meets_bind (meets_top (frame_signature.matchKind _) (hcore.matchKind _) hq)
    fun isConst q hq => ?_
  rw [Prog.run_read_bind]
  cases tokenToType q.curr.kind with
  | none =>
      cases isConst with
      | false => exact Prog.meets_pure (hframe hq)
      | true =>
          refine Prog.meets_bind (meets_top (frame_signature.parserError _)
            (hcore.parserError _) hq) fun _ q hq => ?_
          exact Prog.meets_bind (meets_top frame_signature.advance hcore.advance hq)
            fun _ q hq => Prog.meets_pure (hframe hq)
  | some ty =>
      refine Prog.meets_bind (meets_top frame_signature.advance hcore.advance hq)
        fun _ q hq => ?_
      unfold checkKind
      rw [Prog.run_read_bind]
      split
      · refine Prog.meets_bind (meets_top (frame_signature.consume _ _) (hcore.consume _ _) hq)
          fun _ q hq => ?_
        rw [Prog.run_read_bind, Prog.run_read_bind]
        split
        · refine Run.Meets.mono ((meets_parseFunc n ty _ q).weaken (fun _ => id) ?_
            (fun _ => id) id) ?_
          · exact fun _ (h : FuncStep q ty _) htop => (h (htop.frame hq)).1
          · rintro _ q' ⟨hret, hext⟩
            have hext' := hq.scopes.trans hext
            exact ⟨hext', fun htop => ⟨hret, hext'.length.trans htop.2⟩⟩
        · exact (meets_top (frame_core.parseVarDeclList (Nat.le_refl n) _ _ _ _)
            (hcore.parseVarDeclList (Nat.le_refl n) _ _ _ _) hq).mono fun _ _ => hframe
      · exact Prog.meets_bind (meets_top (frame_signature.parserError _)
          (hcore.parserError _) hq) fun _ q hq => Prog.meets_pure (hframe hq)

/-- At top level, a program that keeps the stack stays there. -/
theorem meets_atTop {α : Type} {m : Parse α} (hv : Along Frame m)
    (hl : Emits (fun e => e.isQuiet = true) m) {p : Parser} (hp : AtTop p) :
    (m.run p).Meets (Contract.keeps (fun _ => True) Disciplined) fun _ => AtTop := by
  refine Run.Meets.mono ?_ fun _ _ => hp.frame
  exact (meets_top hv hl (Frame.refl p)).weaken (fun _ => id)
    (fun _ (h : TopStep p _) => h hp) (fun _ => id) id

/-- One round of the loop over the file ends at top level. -/
theorem meets_topIter (n : Nat) (globals : List Node) {p : Parser} (hp : AtTop p) :
    ((topIter n globals).run p).Meets (Contract.keeps (fun _ => True) Disciplined)
      fun _ => AtTop := by
  have hcore := emits_core fun e => Event.isQuiet_of_isCore (e := e)
  have hstep {l : Event} {f : Parser → Parser} (hsema : ∀ p, (f p).sema = p.sema) :
      Along Frame (Prog.step l f) :=
    fun p => Prog.along_step Frame.refl (frame_of_eq (by rw [hsema p]) (by rw [hsema p]))
  have hC := along_congruence (ℓ := Event) Frame.refl Frame.trans
  have hrecover : Along Frame (synchronizeIfPanic n) :=
    congr_synchronizeIfPanic hC.reading n n
      (congr_synchronize hC.reading n n (Nat.le_refl n)
        (hstep fun _ => rfl) (fun _ => hstep fun _ => rfl) frame_signature.advance)
  have hrecover' : Emits (fun e => e.isQuiet = true) (synchronizeIfPanic n) :=
    congr_synchronizeIfPanic emits_congruence.reading n n
      (congr_synchronize emits_congruence.reading n n (Nat.le_refl n) (emits_step rfl)
        (fun _ => emits_step rfl) hcore.advance)
  refine Prog.meets_bind (meets_atTop (frame_signature.matchKind _) (hcore.matchKind _) hp)
    fun atEnd p hp => ?_
  split
  · exact Prog.meets_pure hp
  have hitem : ((parseTopLevel n).run p).Meets (Contract.keeps (fun _ => True) Disciplined)
      fun _ => AtTop := by
    refine ((meets_parseTopLevel n p).mono fun _ _ h => h.2 hp).weaken (fun _ => id) ?_
      (fun _ => id) id
    exact fun _ (h : TopStep p _) => h hp
  refine Prog.meets_bind hitem fun node p hp => ?_
  cases node with
  | some node => exact Prog.meets_pure hp
  | none =>
      refine Prog.meets_bind (meets_atTop frame_signature.reportTopLevel
        hcore.reportTopLevel hp) fun _ p hp => ?_
      refine Prog.meets_bind (meets_atTop hrecover hrecover' hp) fun _ p hp => ?_
      exact Prog.meets_bind (meets_atTop frame_signature.skipIfStuck hcore.skipIfStuck hp)
        fun _ p hp => Prog.meets_pure hp

/-- The discipline of a whole parse, from an empty stack to an empty stack. -/
theorem meets_parserProgram (intern : List UInt8 → Symbol) (n : Nat) {p : Parser}
    (hscopes : p.sema.scopes = []) (hret : p.sema.currFuncRet = none) :
    ((parserProgram intern n).run p).Meets (Contract.keeps (fun _ => True) Disciplined)
      fun _ q => q.sema.scopes = [] ∧ q.sema.currFuncRet = none := by
  have hcore := emits_core fun e => Event.isQuiet_of_isCore (e := e)
  have hsig : Emits (fun e => e.isQuiet = true) (installBuiltins intern builtins) :=
    emits_installBuiltins intern builtins
  have hborder (l : Event) (hl : l = .scopeEnter ∨ l = .scopeLeave) (q q' : Parser) :
      Disciplined ⟨l, q, q'⟩ := by
    rcases hl with rfl | rfl <;> refine ⟨?_, ?_, ?_⟩ <;> simp [Event.isBodyMark, Event.isTopMark]
  -- The first token is read before there is any scope.
  have hempty {q : Parser} (hq : Frame p q) :
      q.sema.currFuncRet = none ∧ q.sema.scopes = [] := by
    have hext := hq.scopes
    rw [hscopes] at hext
    exact ⟨hq.ret.trans hret, hext⟩
  have hphased {q : Parser} (hq : Frame p q) : Phased q := by
    simp [Phased, (hempty hq).1, (hempty hq).2]
  refine Prog.meets_bind (R := fun _ => Frame p) ?_ fun _ q hq => ?_
  · refine Or.inr ⟨?_, ?_⟩
    · intro st hst
      have hbefore := (frame_signature.advance p).before hst
      have hafter := Frame.trans _ _ _ hbefore ((frame_signature.advance p).across hst)
      have hquiet := hcore.advance.emits trivial hst
      simp only [Event.isQuiet, Bool.and_eq_true, Bool.not_eq_true', bne_iff_ne] at hquiet
      refine ⟨fun h => ?_, fun _ => (hempty hbefore).1, fun _ _ _ =>
        ⟨hphased hbefore, hphased hafter⟩⟩
      simp [hquiet.1.1, hquiet.2] at h
    · cases hout : (advance.run p).outcome with
      | done a q => exact (frame_signature.advance p).ends (by rw [hout]; rfl)
      | fault q => exact trivial
      | timeout => exact trivial
  refine Prog.meets_bind (R := fun _ => AtTop) ?_ fun _ q hq => ?_
  · refine Prog.meets_step (hborder _ (Or.inl rfl) _ _) ⟨(hempty hq).1, ?_⟩
    simp [Sema.enter, (hempty hq).2]
  refine Prog.meets_bind (meets_atTop (frame_signature.installBuiltins _ _) hsig hq)
    fun _ q hq => ?_
  refine Prog.meets_bind (R := fun _ => AtTop) ?_ fun globals q hq => ?_
  · refine meets_loop (fun _ => AtTop) trivial (fun globals q hq => ?_) n hq
    refine (meets_topIter n globals hq).mono fun i q hq => ?_
    cases i with
    | again globals => exact hq
    | leave globals => exact hq
  refine Prog.meets_bind (R := fun _ q' => q'.sema.scopes = [] ∧ q'.sema.currFuncRet = none)
    ?_ fun _ q hq => Prog.meets_pure hq
  refine Prog.meets_step (hborder _ (Or.inr rfl) _ _) ⟨?_, hq.1⟩
  rcases List.length_eq_one_iff.mp hq.2 with ⟨sc, hsc⟩
  simp [Sema.leave, hsc]

/-- On return, a program leaves the scope stack as it found it, but for new names in the
current scope. -/
def Restores {α : Type} (m : Parse α) : Prop :=
  ∀ p a p', (m.run p).outcome = .done a p' → StackExtends p.sema.scopes p'.sema.scopes

/-- What keeps the frame at every step restores it. -/
theorem restores_of_along {α : Type} {m : Parse α} (h : Along Frame m) : Restores m :=
  fun p _ _ hout => ((h p).ends (by rw [hout]; rfl)).scopes

/-- What returns to the frame restores it. -/
theorem restores_of_visits {α : Type} {m : Parse α} (h : Visits Inside Frame m) :
    Restores m := by
  intro p a p' hout
  have hframe : Frame p p' := (h p).of_done (fun _ _ => id) hout
  exact hframe.scopes

/-- A redefinition attempt changes neither the scopes nor anything else the analysis
keeps. -/
theorem redefinition_leaves {p p' : Parser} {name : Symbol} {ty : Option Ty} {isConst : Bool}
    {sym : Option SemaSymbol} (h : p.sema.declared name = true)
    (hout : ((semaDefineVar name ty isConst).run p).outcome = .done sym p') :
    sym = none ∧ p'.sema = p.sema := by
  unfold semaDefineVar at hout
  rw [Prog.run_read_bind] at hout
  split at hout
  · cases hout
    exact ⟨rfl, rfl⟩
  rw [Prog.run_read_bind, if_pos h] at hout
  cases hout
  exact ⟨rfl, rfl⟩

end Parser

/-- The scope stack of every parse.  Each parsing function returns with the very scope it
was called in, with its old bindings and possibly new names, and with everything below
untouched; a redefinition attempt changes nothing.  Parameters and bodies are parsed
under the return type of their function.  In a whole parse, the return type is known
exactly while a function's scope is open, so that no return statement is checked without
one, and in the end the stack is empty. -/
theorem scope_stack_discipline (intern : List UInt8 → Symbol) (mem : Memory)
    (ts : TokenStream) :
    (∀ n, Parser.Restores (Parser.parsePrimary n) ∧ Parser.Restores (Parser.parseUnary n) ∧
      (∀ prec, Parser.Restores (Parser.parseBinary n prec)) ∧
      Parser.Restores (Parser.parseAssign n) ∧ Parser.Restores (Parser.parseExpr n) ∧
      Parser.Restores (Parser.parseStmt n) ∧ Parser.Restores (Parser.parseBlock n) ∧
      Parser.Restores (Parser.parseDecl n) ∧
      (∀ ret name, Parser.Restores (Parser.parseFunc n ret name)) ∧
      Parser.Restores (Parser.parseTopLevel n)) ∧
    (∀ name ty isConst p sym p', p.sema.declared name = true →
      ((Parser.semaDefineVar name ty isConst).run p).outcome = .done sym p' →
      sym = none ∧ p'.sema = p.sema) ∧
    (∀ n ret name p, p.AtTop → ∀ st ∈ ((Parser.parseFunc n ret name).run p).steps,
      st.label.isBodyMark = true ∨ st.label = .enter .param →
      st.before.sema.currFuncRet = some ret) ∧
    (∀ st ∈ (Parser.parserRun intern mem ts).steps, Parser.Disciplined st ∧
      (st.label = .analyzeReturn → st.before.sema.currFuncRet ≠ none)) ∧
    (∀ globals p, (Parser.parserRun intern mem ts).outcome = .done globals p →
      p.sema.scopes = [] ∧ p.sema.currFuncRet = none) := by
  refine ⟨?_, ?_, ?_, ?_, ?_⟩
  · intro n
    rcases Parser.frame_exprs.braceless.expressions (Nat.le_refl n) with
      ⟨hprimary, hunary, hbinary, hassign, hexpr⟩
    rcases Parser.visits_body.statements (Nat.le_refl n) with ⟨hblock, hstmt⟩
    refine ⟨Parser.restores_of_along hprimary, Parser.restores_of_along hunary,
      fun prec => Parser.restores_of_along (hbinary prec trivial), Parser.restores_of_along hassign,
      Parser.restores_of_along hexpr, Parser.restores_of_visits hstmt,
      Parser.restores_of_visits hblock,
      Parser.restores_of_visits (Parser.visits_body.parseDecl (Nat.le_refl n)), ?_, ?_⟩
    · intro ret name p a p' hout
      exact ((Parser.meets_parseFunc n ret name p).of_done (fun _ _ => id) hout).2
    · intro p a p' hout
      exact ((Parser.meets_parseTopLevel n p).of_done (fun _ _ => id) hout).1
  · exact fun name ty isConst p sym p' => Parser.redefinition_leaves
  · intro n ret name p htop st hst
    have hstep : Parser.FuncStep p ret st :=
      (Parser.meets_parseFunc n ret name p).emits (fun _ => id) hst
    exact (hstep htop).2
  · intro st hst
    have hstep : Parser.Disciplined st :=
      (Parser.meets_parserProgram intern _ rfl rfl).emits (fun _ => id) hst
    exact ⟨hstep, fun h => hstep.body (Or.inl (by rw [h]; rfl))⟩
  · intro globals p hout
    exact (Parser.meets_parserProgram intern _ rfl rfl).of_done (fun _ _ => id) hout

end Cact
