import Cact.Grammar.DanglingElse
import Cact.Parser.Completeness.Expr

/-!
# Completeness - declarations and statements

On the text of a declaration or a statement the parser builds its node, unless a semantic
check reports an error.

Main results:

- Theorem {lit}`Parser.builds_varDeclList`: declarations of variables.
- Theorem {lit}`Parser.builds_statements`: statements and blocks.
-/

open Traced

namespace Cact

open Grammar

namespace Parser

section

variable {heed B : Prop} {fresh : Nat → Option Node} {a : Analysis} {t : Terminal}
  {ts us beyond : List Terminal} {p : Parser} {n : Nat}

/-! ## Changes of the analysis -/

/-- A definition in the current scope. -/
theorem builds_defineVar {name : Symbol} {ty : Ty} {isConst : Bool} (hp : At fresh a ts p)
    (hB : defineSym a.sema name ty isConst = none → B) :
    ((semaDefineVar name (some ty) isConst).run p).Meets (semanticOnly B) fun r p' =>
      ∃ sym σ, defineSym a.sema name ty isConst = some (sym, σ) ∧ r = some sym ∧
        At fresh ⟨σ, a.allocs⟩ ts p' ∧ p'.prev = p.prev := by
  unfold semaDefineVar
  unfold defineSym at hB ⊢
  have hscopes : p.sema.scopes.isEmpty = false := by
    rw [hp.sema]
    simpa using hp.regular.nonempty
  rw [Prog.run_read_bind, hscopes, if_neg (by simp), Prog.run_read_bind, hp.sema]
  by_cases hdeclared : a.sema.declared name = true
  · rw [if_pos hdeclared]
    exact Prog.meets_bind_escape
      (ends_ctxError (hB (by simp [hdeclared])) hp.clear.hadError rfl _)
  · rw [if_neg hdeclared, Prog.run_read_bind, hp.sema]
    have hregular : Regular (a.sema.define (a.sema.newSymbol name (some ty) isConst)) :=
      hp.regular.define rfl
    refine Prog.meets_bind (at_step ⟨a.sema.define (a.sema.newSymbol name (some ty)
      isConst), a.allocs⟩ rfl hp rfl rfl rfl rfl rfl hregular (by rw [hp.sema]) hp.allocs) ?_
    rintro _ q ⟨hq, hprev⟩
    exact Prog.meets_pure ⟨_, _, by simp [hdeclared], rfl, hq, hprev⟩

/-- A new node with an unwritten field. -/
theorem builds_nodeField (hp : At fresh a ts p) :
    (newNodeField.run p).Meets (semanticOnly B) fun r p' =>
      r = fresh a.allocs ∧ At fresh ⟨a.sema, a.allocs + 1⟩ ts p' := by
  unfold newNodeField
  rw [Prog.run_read_bind, hp.fresh, hp.allocs]
  refine Prog.meets_bind (at_step ⟨a.sema, a.allocs + 1⟩ rfl hp rfl rfl rfl rfl rfl
    hp.regular hp.sema (by rw [hp.allocs])) ?_
  rintro _ q ⟨hq, _⟩
  exact Prog.meets_pure ⟨rfl, hq⟩

/-! ## Brace lists -/

/-- {lit}`m` builds all brace lists. -/
def BuildsList (fresh : Nat → Option Node) (B : Prop) (m : Parse (Option Node)) : Prop :=
  ∀ es : List Elem, elemsWellFormed es → ∀ (a : Analysis) (ts : List Terminal),
    Builds fresh B m (Elem.list es).toks ((Elem.list es).node a.sema) a ts

/-- The same, whether or not the checks are heeded. -/
def ParsesList (heed B : Prop) (fresh : Nat → Option Node) (beyond : List Terminal)
    (m : Parse (Option Node)) : Prop :=
  ∀ es : List Elem, elemsWellFormed es → ∀ (a : Analysis) (ts : List Terminal),
    elemsCallable a.sema es → Ends beyond ts →
      Parses heed B fresh beyond m (Elem.list es).toks ((Elem.list es).built a.sema)
        ((Elem.list es).node a.sema) a ts

/-- An element of a brace list. -/
theorem parses_element {i asg : Parse (Option Node)} (hi : ParsesList heed B fresh beyond i)
    (hasg : ParsesAssign heed B fresh beyond asg) {e : Elem} (he : e.WellFormed)
    (hcall : e.Callable a.sema) (hends : Ends beyond ts)
    (hts : follow ts = .comma ∨ follow ts = .rBrace) :
    Parses heed B fresh beyond (parseElement i asg) e.toks (e.built a.sema) (e.node a.sema) a
      ts := by
  intro p hp hB
  cases e with
  | value e =>
      apply facing_check_other hp (ne_of_class (e.starts.follow ts) rfl)
      unfold Elem.node at hB ⊢
      apply hasg e he a ts hcall hends _ _ p hp hB
      · rcases hts with h | h <;> rw [h] <;> exact stops_close rfl
      · rcases hts with h | h <;> rw [h] <;> simp
  | list es =>
      apply facing_check hp rfl
      exact hi es he a ts hcall hends p hp hB

/-- An element of a list starts with an expression or with {lit}`{`. -/
theorem Elem.starts (e : Elem) :
    Starts (fun kind => isExprStart kind || kind == .lBrace) e.toks := by
  cases e with
  | value e => exact e.starts.mono fun _ h => by simp [h]
  | list es => exact ⟨_, _, rfl, rfl⟩

/-- The body of {lit}`parse_initializer_list` reads a list in {lit}`heed` of what stands beyond it.
-/
theorem parses_initializerListBody {i asg : Parse (Option Node)}
    (hi : ParsesList heed B fresh beyond i) (hasg : ParsesAssign heed B fresh beyond asg) :
    ParsesList heed B fresh beyond (parseInitializerListBody i asg n) := by
  intro es hes a ts hcall hends p hp hB
  apply reporting_mark rfl
  simp only [Elem.toks, List.cons_append, List.append_assoc, List.nil_append] at hp
  unfold Elem.node at hB ⊢
  unfold Elem.built
  apply Prog.meets_bind (facing_consume hp ((Ends.cons _).append _) rfl)
  rintro _ q ⟨hq, _⟩
  apply Prog.meets_bind (R := fun r q' => r = (elemsBuilt a.sema es).map some ∧
    (heed → elemNodes a.sema es = some (elemsBuilt a.sema es)) ∧
    Facing heed fresh beyond a (.fixed .rBrace :: ts) q')
  · have hBs : heed → elemNodes a.sema es = none → B := by
      intro hheed hnone
      apply hB hheed
      simp [hnone]
    rw [elemNodes_eq] at hBs ⊢
    rw [elemsBuilt_eq]
    rw [elemToks_eq] at hq
    cases es with
    | nil =>
        apply facing_check hq rfl
        exact Prog.meets_pure ⟨rfl, fun _ => rfl, hq⟩
    | cons e es =>
        apply facing_check_other hq
        · have hstart : Starts (fun kind => isExprStart kind || kind == .lBrace)
              (separated ((e :: es).map Elem.toks)) := by
            cases es with
            | nil => exact Elem.starts e
            | cons e' es => exact (Elem.starts e).append _
          intro hkind
          have hfirst := hstart.follow (.fixed .rBrace :: ts)
          rw [hkind] at hfirst
          cases hfirst
        · refine parses_separated (by decide) (e :: es) ?_ (List.cons_ne_nil _ _) [] n hq hBs
          intro x hx ts' hends' hts'
          exact parses_element hi hasg ((elemsWellFormed_iff _).mp hes x hx)
            ((elemsCallable_iff _ _).mp hcall x hx) hends' hts'
  · rintro _ q₁ ⟨rfl, hns, hq₁⟩
    apply Prog.meets_bind (facing_consume hq₁ hends rfl)
    rintro _ q₂ ⟨hq₂, _⟩
    exact Prog.meets_pure ⟨rfl, fun hheed => by simp [hns hheed], hq₂⟩

/-- {lit}`parse_initializer_list` reads every list of the grammar, at any budget that suffices. -/
theorem parses_initializerList (n : Nat) :
    ParsesList heed B fresh beyond (parseInitializerList n) := by
  induction n with
  | zero => exact fun _ _ _ _ _ _ => parses_timeout
  | succ n ih => exact parses_initializerListBody ih (parses_parseAssign n)

/-- {lit}`parse_initializer_list` builds the nodes of the list it reads. -/
theorem builds_initializerList (n : Nat) : BuildsList fresh B (parseInitializerList n) := by
  intro es hes a ts p hp
  exact (parses_initializerList n es hes a ts (hp.regular.elemsCallable es) fun _ => rfl).builds
    p hp

/-! ## Declarators -/

/-- The dimensions of an array. -/
theorem facing_dimsLoop (dims : List Int32) (base : ObjTy) (hends : Ends beyond ts)
    (hts : follow ts ≠ .lBracket) (k : Nat)
    (hp : Facing heed fresh beyond a (dims.flatMap dimToks ++ ts) p) :
    ((loop dimsIter k (some base)).run p).Meets (reporting heed B) fun r p' =>
      r = some (arrayTy base dims) ∧ Facing heed fresh beyond a ts p' := by
  induction dims generalizing base k p with
  | nil =>
      cases k with
      | zero => exact Prog.meets_timeout trivial
      | succ k =>
          rw [loop]
          apply Prog.meets_bind (R := fun i q => i = Iter.leave (some base) ∧
            Facing heed fresh beyond a ts q)
          · apply facing_other hp hts
            exact Prog.meets_pure ⟨rfl, hp⟩
          · rintro _ q ⟨rfl, hq⟩
            exact Prog.meets_pure ⟨rfl, hq⟩
  | cons len dims ih =>
      cases k with
      | zero => exact Prog.meets_timeout trivial
      | succ k =>
          rw [loop]
          apply Prog.meets_bind (R := fun i q => i = Iter.again (some (ObjTy.array base len)) ∧
            Facing heed fresh beyond a (dims.flatMap dimToks ++ ts) q)
          · apply facing_match hp (Ends.cons _) rfl
            intro q hq _
            apply facing_match hq (Ends.cons _) rfl
            intro q₁ hq₁ hprev
            have hval : q₁.prev.value.asInt = len := Token.asInt_of_terminal hprev
            rw [Prog.run_read_bind]
            apply Prog.meets_bind (facing_consume hq₁ (hends.append _) rfl)
            rintro _ q₂ ⟨hq₂, _⟩
            rw [hval]
            apply Prog.meets_bind (R := fun r q => r = some (ObjTy.array base len) ∧
              Facing heed fresh beyond a (dims.flatMap dimToks ++ ts) q)
            · apply reporting_mark rfl
              exact Prog.meets_pure ⟨rfl, hq₂⟩
            · rintro _ q₃ ⟨rfl, hq₃⟩
              exact Prog.meets_pure ⟨rfl, hq₃⟩
          · rintro _ q ⟨rfl, hq⟩
            exact ih _ k hq

/-- {lit}`parse_array_dims` reads the brackets of a declarator and leaves the parser facing what
follows. -/
theorem facing_dims (dims : List Int32) (base : ObjTy) (hends : Ends beyond ts)
    (hts : follow ts ≠ .lBracket)
    (hp : Facing heed fresh beyond a (dims.flatMap dimToks ++ ts) p) :
    ((parseArrayDims n (some base)).run p).Meets (reporting heed B) fun r p' =>
      r = some (arrayTy base dims) ∧ Facing heed fresh beyond a ts p' := by
  apply reporting_mark rfl
  exact facing_dimsLoop dims base hends hts n hp

/-- {lit}`parse_array_dims` wraps the base type once for every bracket it reads. -/
theorem builds_dims (dims : List Int32) (base : ObjTy) (hts : follow ts ≠ .lBracket)
    (hp : At fresh a (dims.flatMap dimToks ++ ts) p) :
    ((parseArrayDims n (some base)).run p).Meets (semanticOnly B) fun r p' =>
      r = some (arrayTy base dims) ∧ At fresh a ts p' := by
  rw [semanticOnly_eq]
  refine (facing_dims dims base (fun _ => rfl) hts hp.facing).mono ?_
  rintro _ p' ⟨rfl, hp'⟩
  exact ⟨rfl, hp'.at hp.regular⟩

/-- What can come after a declarator. -/
def isDeclaratorEnd (kind : TokenKind) : Prop := kind = .comma ∨ kind = .semicolon

/-- An unwritten optional field makes the parser do nothing. -/
theorem builds_keepField {field : Option Node} {Q : Option Node → Parser → Prop}
    (h : Q field p) : ((keepField field).run p).Meets (semanticOnly B) Q :=
  at_mark rfl (Prog.meets_pure h)

/-- The initialiser of a declarator is built as the grammar builds it, and the written field holds
it. -/
theorem builds_init {i x : Parse (Option Node)} (hi : BuildsList fresh B i)
    (hx : BuildsExpr fresh B x 0 0) {init : Option Init} {ty : ObjTy} {isConst : Bool}
    {tok : Token} {field : Option Node} (hinit : ∀ i, init = some i → i.WellFormed)
    (hconst : isConst = true → init.isSome = true) (hts : isDeclaratorEnd (follow ts))
    (hp : At fresh a (initToks init ++ ts) p)
    (hB : initNode a.sema ty field init = none → B) :
    ((parseInit i x (some ty) isConst tok field).run p).Meets (semanticOnly B) fun r p' =>
      initNode a.sema ty field init = some r ∧ At fresh a ts p' := by
  unfold parseInit
  cases init with
  | none =>
      have hts' : follow ts ≠ .assign := by rcases hts with h | h <;> rw [h] <;> simp
      apply at_other hp hts'
      cases isConst with
      | true => simp at hconst
      | false => exact builds_keepField ⟨rfl, hp⟩
  | some init =>
      have hwf := hinit init rfl
      apply at_match hp rfl
      intro q hq _
      cases init with
      | list es =>
          apply at_check hq rfl
          refine (hi es hwf a ts q hq ?_).mono ?_
          · intro hnone
            apply hB
            simp [initNode, hnone]
          · rintro r p' ⟨nd, hnd, rfl, hp'⟩
            exact ⟨by simp [initNode, hnd], hp'⟩
      | expr e =>
          apply at_check_other hq (ne_of_class (e.starts.follow ts) rfl)
          have hstops : Stops 0 (follow ts) := by
            rcases hts with h | h <;> rw [h] <;> exact stops_close rfl
          have hBe : e.node a.sema = none → B := by
            intro hnone
            apply hB
            simp [initNode, initExprNode, hnone]
          apply Prog.meets_bind (hx e hwf.1 hwf.2 a ts hstops q hq hBe)
          rintro init q₁ ⟨nd, hnd, rfl, hq₁⟩
          apply Prog.meets_bind (R := fun _ q => q = q₁ ∧
            typeEq a.sema.funcs (some (.obj ty)) nd.ty = true)
          · unfold checkInit
            rw [Prog.run_read_bind, hq₁.sema]
            by_cases hty : typeEq a.sema.funcs (some (.obj ty)) nd.ty = true
            · rw [if_neg (by simp [hty])]
              exact Prog.meets_pure ⟨rfl, hty⟩
            · rw [if_pos (by simp [hty])]
              refine ends_ctxError (hB ?_) hq₁.clear.hadError rfl _
              simp [initNode, initExprNode, hnd, hty]
          · rintro _ q₁ ⟨rfl, hty⟩
            exact Prog.meets_pure ⟨by simp [initNode, initExprNode, hnd, hty], hq₁⟩

/-- A declarator, when its name has been read. -/
theorem builds_declarator {i x : Parse (Option Node)} (hi : BuildsList fresh B i)
    (hx : BuildsExpr fresh B x 0 0) {d : Declarator} {base : ObjTy} {isConst : Bool}
    (hd : d.WellFormed isConst) (hts : isDeclaratorEnd (follow ts))
    (hp : At fresh a (d.tailToks ++ ts) p) (hB : d.build fresh base isConst a = none → B) :
    ((parseDeclarator i x n base isConst d.name).run p).Meets (semanticOnly B) fun nd p' =>
      ∃ a', d.build fresh base isConst a = some (nd, a') ∧ At fresh a' ts p' := by
  unfold Declarator.tailToks at hp
  have hinit : follow (initToks d.init ++ ts) ≠ .lBracket := by
    cases d.init with
    | none =>
        rcases hts with h | h
        · simp [initToks, h]
        · simp [initToks, h]
    | some init => simp [initToks]
  rw [List.append_assoc] at hp
  apply Prog.meets_bind (builds_dims d.dims base hinit hp)
  rintro _ q ⟨rfl, hq⟩
  unfold Declarator.build at hB ⊢
  refine Prog.meets_bind (builds_defineVar hq ?_) ?_
  · intro hnone
    apply hB
    simp [hnone]
  rintro sym q₁ ⟨s, σ, hdef, rfl, hq₁, _⟩
  unfold newNode
  rw [Prog.run_read_bind]
  apply Prog.meets_bind (builds_nodeField hq₁)
  rintro _ q₂ ⟨rfl, hq₂⟩
  refine Prog.meets_bind (builds_init hi hx hd.1 hd.2 hts hq₂ ?_) ?_
  · intro hnone
    apply hB
    simp [hdef, hnone]
  · rintro r q₃ ⟨hr, hq₃⟩
    exact Prog.meets_pure ⟨_, by simp [hdef, hr], hq₃⟩

/-- A separated list is its first element followed by comma and element, over and over. -/
theorem separated_cons (t : List Terminal) (ts : List (List Terminal)) :
    separated (t :: ts) = t ++ ts.flatMap fun u => .fixed .comma :: u := by
  induction ts generalizing t with
  | nil => simp [separated]
  | cons u ts ih => simp [separated, ih]

/-- The texts of the declarators after the first one. -/
def moreToks (ds : List Declarator) : List Terminal :=
  ds.flatMap fun d => .fixed .comma :: d.toks

/-- The tokens of a declaration, split where {lit}`parse_decl` splits them. -/
theorem Decl.toks_eq (d : Decl) : d.toks = constToks d.isConst ++ .fixed d.ty.kind ::
    .ident d.first.name :: (d.first.tailToks ++ (moreToks d.more ++ [.fixed .semicolon])) := by
  simp [Decl.toks, Decl.declarators, separated_cons, Declarator.toks, moreToks,
    List.flatMap_map]

/-- In front of a declarator: with its name read, or still to read. -/
def AtDeclarator (fresh : Nat → Option Node) (a : Analysis) (first : Option Symbol)
    (d : Declarator) (ts : List Terminal) (p : Parser) : Prop :=
  (first = some d.name ∧ At fresh a (d.tailToks ++ ts) p) ∨
    (first = none ∧ At fresh a (d.toks ++ ts) p)

/-- The name of a declarator comes from the token already taken or from the next one. -/
theorem builds_declaratorName {first : Option Symbol} {d : Declarator}
    (hp : AtDeclarator fresh a first d ts p) :
    ((parseDeclaratorName first).run p).Meets (semanticOnly B) fun r p' =>
      r = some d.name ∧ At fresh a (d.tailToks ++ ts) p' := by
  rcases hp with ⟨rfl, hp⟩ | ⟨rfl, hp⟩
  · exact Prog.meets_pure ⟨rfl, hp⟩
  · apply at_match hp rfl
    intro q hq hprev
    rw [Prog.run_read_bind]
    have hname : q.prev.value.name = d.name := Token.name_of_terminal hprev
    exact Prog.meets_pure ⟨by rw [hname], hq⟩

/-- The loop over declarators builds one node for each and declares them in order. -/
theorem builds_declarators {i x : Parse (Option Node)} (hi : BuildsList fresh B i)
    (hx : BuildsExpr fresh B x 0 0) {base : ObjTy} {isConst : Bool} (ds : List Declarator)
    (d : Declarator) (hds : ∀ d' ∈ d :: ds, d'.WellFormed isConst) (first : Option Symbol)
    (acc : List Node) (k : Nat)
    (hp : AtDeclarator fresh a first d (moreToks ds ++ .fixed .semicolon :: ts) p)
    (hB : declaratorsBuild fresh base isConst (d :: ds) a = none → B) :
    ((loop (declaratorIter i x n base isConst) k (first, acc)).run p).Meets (semanticOnly B)
      fun r p' => ∃ ns a', declaratorsBuild fresh base isConst (d :: ds) a = some (ns, a') ∧
        r = acc ++ ns ∧ At fresh a' (.fixed .semicolon :: ts) p' := by
  induction ds generalizing d first acc k a p with
  | nil =>
      cases k with
      | zero => exact Prog.meets_timeout trivial
      | succ k =>
          have hBd : d.build fresh base isConst a = none → B := by
            intro hnone
            apply hB
            simp [declaratorsBuild, hnone]
          rw [loop]
          apply Prog.meets_bind (R := fun i q => ∃ nd a', d.build fresh base isConst a =
            some (nd, a') ∧ i = Iter.leave (acc ++ [nd]) ∧ At fresh a' (.fixed .semicolon :: ts) q)
          · apply Prog.meets_bind (builds_declaratorName hp)
            rintro _ q ⟨rfl, hq⟩
            refine Prog.meets_bind (builds_declarator hi hx (hds d (by simp)) ?_ hq hBd) ?_
            · exact Or.inr rfl
            · rintro nd q₁ ⟨a', hnd, hq₁⟩
              apply at_other hq₁ (by simp [moreToks])
              exact Prog.meets_pure ⟨nd, a', hnd, rfl, hq₁⟩
          · rintro _ q ⟨nd, a', hnd, rfl, hq⟩
            exact Prog.meets_pure ⟨[nd], a', by simp [declaratorsBuild, hnd], rfl, hq⟩
  | cons d' ds ih =>
      cases k with
      | zero => exact Prog.meets_timeout trivial
      | succ k =>
          have hBd : d.build fresh base isConst a = none → B := by
            intro hnone
            apply hB
            simp [declaratorsBuild, hnone]
          rw [loop]
          apply Prog.meets_bind (R := fun i q => ∃ nd a', d.build fresh base isConst a =
            some (nd, a') ∧ i = Iter.again (none, acc ++ [nd]) ∧
            At fresh a' (d'.toks ++ (moreToks ds ++ .fixed .semicolon :: ts)) q)
          · apply Prog.meets_bind (builds_declaratorName hp)
            rintro _ q ⟨rfl, hq⟩
            refine Prog.meets_bind (builds_declarator hi hx (hds d (by simp)) ?_ hq hBd) ?_
            · exact Or.inl rfl
            · rintro nd q₁ ⟨a', hnd, hq₁⟩
              have htext : moreToks (d' :: ds) ++ .fixed .semicolon :: ts = .fixed .comma ::
                  (d'.toks ++ (moreToks ds ++ .fixed .semicolon :: ts)) := by
                simp [moreToks]
              rw [htext] at hq₁
              apply at_match hq₁ rfl
              intro q₂ hq₂ _
              exact Prog.meets_pure ⟨nd, a', hnd, rfl, hq₂⟩
          · rintro _ q ⟨nd, a', hnd, rfl, hq⟩
            refine (ih d' (fun e he => hds e (by simp_all)) none (acc ++ [nd]) k
              (Or.inr ⟨rfl, hq⟩) ?_).mono ?_
            · intro hnone
              apply hB
              rw [declaratorsBuild]
              simp [hnd, hnone]
            · rintro r p' ⟨ns, a₂, hns, rfl, hp'⟩
              refine ⟨nd :: ns, a₂, ?_, by simp, hp'⟩
              rw [declaratorsBuild]
              simp [hnd, hns]

/-- The declarators of a declaration, when the first name has been read. -/
theorem builds_varDeclList {d : Decl} (hd : d.WellFormed) (isGlobal : Bool)
    (hp : At fresh a (d.first.tailToks ++ (moreToks d.more ++ .fixed .semicolon :: ts)) p)
    (hB : d.build fresh a = none → B) :
    ((parseVarDeclList n d.ty.obj d.first.name d.isConst isGlobal).run p).Meets (semanticOnly B)
      fun r p' => ∃ nd a', d.build fresh a = some (nd, a') ∧ r = some nd ∧
        At fresh a' ts p' := by
  apply at_mark rfl
  unfold Decl.build at hB ⊢
  refine Prog.meets_bind (builds_declarators (builds_initializerList n) (builds_parseExpr n)
    d.more d.first hd _ [] n (Or.inl ⟨rfl, hp⟩) ?_) ?_
  · intro hnone
    apply hB
    simp [Decl.declarators, hnone]
  · rintro stmts q ⟨ns, a', hns, rfl, hq⟩
    apply Prog.meets_bind (at_consume hq rfl)
    rintro _ q₁ ⟨hq₁, _⟩
    exact Prog.meets_pure ⟨_, a', by simp [Decl.declarators, hns], rfl, hq₁⟩

/-- {lit}`token_to_type` maps the keyword of a base type to that type. -/
theorem tokenToType_kind (b : BaseTy) : tokenToType b.kind = some b.obj := by cases b <;> rfl

/-- The keyword for constants, if it is there. -/
theorem builds_const {isConst : Bool} {b : BaseTy}
    (hp : At fresh a (constToks isConst ++ .fixed b.kind :: ts) p) :
    ((matchKind .kwConst).run p).Meets (semanticOnly B) fun r p' =>
      r = isConst ∧ At fresh a (.fixed b.kind :: ts) p' := by
  cases isConst with
  | true =>
      apply at_check hp rfl
      apply Prog.meets_bind (at_advance hp)
      rintro _ q ⟨hq, _⟩
      exact Prog.meets_pure ⟨rfl, hq⟩
  | false =>
      have hkind : b.kind ≠ .kwConst := by cases b <;> simp [BaseTy.kind]
      apply at_check_other hp hkind
      exact Prog.meets_pure ⟨rfl, hp⟩

/-- {lit}`parse_decl` builds the node of the declaration it reads and declares its names. -/
theorem builds_decl {d : Decl} (hd : d.WellFormed) (hp : At fresh a (d.toks ++ ts) p)
    (hB : d.build fresh a = none → B) :
    ((parseDecl n).run p).Meets (semanticOnly B) fun r p' =>
      ∃ nd a', d.build fresh a = some (nd, a') ∧ r = some nd ∧ At fresh a' ts p' := by
  apply at_mark rfl
  rw [Decl.toks_eq] at hp
  simp only [List.append_assoc, List.cons_append] at hp
  apply Prog.meets_bind (builds_const hp)
  rintro _ q ⟨rfl, hq⟩
  rw [Prog.run_read_bind]
  have hcurr : q.curr.kind = d.ty.kind := hq.curr
  rw [hcurr, tokenToType_kind]
  apply Prog.meets_bind (at_advance hq)
  rintro _ q₁ ⟨hq₁, _⟩
  apply at_match hq₁ rfl
  intro q₂ hq₂ hprev
  rw [Prog.run_read_bind]
  have hname : q₂.prev.value.name = d.first.name := Token.name_of_terminal hprev
  rw [hname]
  exact builds_varDeclList hd false (by simpa using hq₂) hB

/-! ## Statements -/

/-- On the text of a statement, {lit}`m` builds its node; what follows must not be an
{lit}`else` that the statement could take. -/
def BuildsStmt (fresh : Nat → Option Node) (B : Prop) (m : Parse (Option Node)) : Prop :=
  ∀ s : Stmt, s.WellFormed → s.Greedy → ∀ (a : Analysis) (ts : List Terminal) (p : Parser),
    (s.isOpen = true → follow ts ≠ .kwElse) → At fresh a (s.toks ++ ts) p →
    (s.build fresh a = none → B) →
      (m.run p).Meets (semanticOnly B) fun r p' =>
        ∃ nd a', s.build fresh a = some (nd, a') ∧ r = some nd ∧ At fresh a' ts p'

/-- The same for blocks only. -/
def BuildsBlock (fresh : Nat → Option Node) (B : Prop) (m : Parse (Option Node)) : Prop :=
  ∀ items : List BlockItem, blockWellFormed items → blockGreedy items →
    ∀ (a : Analysis) (ts : List Terminal) (p : Parser),
      At fresh a ((Stmt.block items).toks ++ ts) p →
      ((Stmt.block items).build fresh a = none → B) →
        (m.run p).Meets (semanticOnly B) fun r p' =>
          ∃ nd a', (Stmt.block items).build fresh a = some (nd, a') ∧ r = some nd ∧
            At fresh a' ts p'

/-- On the text of a declaration, {lit}`m` builds its node. -/
def BuildsDecl (fresh : Nat → Option Node) (B : Prop) (m : Parse (Option Node)) : Prop :=
  ∀ d : Decl, d.WellFormed → ∀ (a : Analysis) (ts : List Terminal) (p : Parser),
    At fresh a (d.toks ++ ts) p → (d.build fresh a = none → B) →
      (m.run p).Meets (semanticOnly B) fun r p' =>
        ∃ nd a', d.build fresh a = some (nd, a') ∧ r = some nd ∧ At fresh a' ts p'

/-- No statement starts like a declaration, so the loop of a block never has to choose. -/
theorem isDecl_of_isStmtStart {kind : TokenKind} (h : isStmtStart kind = true) :
    isDecl kind = false := by
  cases kind <;> first | rfl | cases h

/-- One item of a body. -/
theorem builds_bodyItem {d s : Parse (Option Node)} (hd : BuildsDecl fresh B d)
    (hs : BuildsStmt fresh B s) (msg : Msg) (acc : List Node) {item : BlockItem}
    (hitem : item.WellFormed) (hgreedy : item.Greedy) (hts : follow ts ≠ .kwElse)
    (hp : At fresh a (item.toks ++ ts) p) (hB : item.build fresh a = none → B) :
    ((bodyIter d s msg n acc).run p).Meets (semanticOnly B) fun i p' =>
      ∃ nd a', item.build fresh a = some (nd, a') ∧ i = Iter.again (acc ++ [nd]) ∧
        At fresh a' ts p' := by
  have hfirst := item.starts.follow ts
  have hnotEnd : ¬(p.curr.kind == .rBrace || p.curr.kind == .eof) = true := by
    rw [hp.curr]
    intro hkind
    rcases Bool.or_eq_true_iff.mp hkind with h | h
    · rw [eq_of_beq h] at hfirst
      cases hfirst
    · rw [eq_of_beq h] at hfirst
      cases hfirst
  unfold bodyIter bodyEnds
  rw [Prog.run_read_bind, if_neg hnotEnd]
  apply Prog.meets_bind (R := fun b q => b = false ∧ q = p)
  · unfold recoverInBody
    rw [Prog.run_read_bind, hp.clear.panicMode, if_neg (by simp)]
    exact Prog.meets_pure ⟨rfl, rfl⟩
  rintro _ p ⟨rfl, rfl⟩
  rw [if_neg (by simp)]
  unfold bodyItem
  rw [Prog.run_read_bind, hp.curr]
  cases item with
  | decl decl =>
      have hkind : isDecl (follow (BlockItem.toks (.decl decl) ++ ts)) = true :=
        decl.starts.follow ts
      rw [if_neg (by simp [hkind]), if_pos hkind]
      apply Prog.meets_bind (hd decl hitem a ts p hp hB)
      rintro r q ⟨nd, a', hnd, rfl, hq⟩
      exact Prog.meets_pure ⟨nd, a', hnd, rfl, hq⟩
  | stmt stmt =>
      have hkind : isStmtStart (follow (BlockItem.toks (.stmt stmt) ++ ts)) = true :=
        stmt.starts.follow ts
      have hdecl := isDecl_of_isStmtStart hkind
      rw [if_neg (by simp [hkind]), if_neg (by simp [hdecl])]
      apply Prog.meets_bind (hs stmt hitem hgreedy a ts p (fun _ => hts) hp hB)
      rintro r q ⟨nd, a', hnd, rfl, hq⟩
      exact Prog.meets_pure ⟨nd, a', hnd, rfl, hq⟩

/-- What comes after an item of a body is no {lit}`else`. -/
theorem follow_body (items : List BlockItem) (ts : List Terminal) :
    follow (blockToks items ++ .fixed .rBrace :: ts) ≠ .kwElse := by
  cases items with
  | nil => simp [blockToks]
  | cons item items =>
      intro hkind
      have hfirst := item.starts.follow (blockToks items ++ .fixed .rBrace :: ts)
      rw [blockToks, List.append_assoc] at hkind
      rw [hkind] at hfirst
      cases hfirst

/-- The items of a body, up to the closing brace. -/
theorem builds_body {d s : Parse (Option Node)} (hd : BuildsDecl fresh B d)
    (hs : BuildsStmt fresh B s) (msg : Msg) (items : List BlockItem)
    (hitems : blockWellFormed items) (hgreedy : blockGreedy items) (acc : List Node) (k : Nat)
    (hp : At fresh a (blockToks items ++ .fixed .rBrace :: ts) p)
    (hB : blockBuild fresh items a = none → B) :
    ((loop (bodyIter d s msg n) k acc).run p).Meets (semanticOnly B) fun r p' =>
      ∃ ns a', blockBuild fresh items a = some (ns, a') ∧ r = acc ++ ns ∧
        At fresh a' (.fixed .rBrace :: ts) p' := by
  induction items generalizing acc k a p with
  | nil =>
      cases k with
      | zero => exact Prog.meets_timeout trivial
      | succ k =>
          rw [loop]
          apply Prog.meets_bind (R := fun i q => i = Iter.leave acc ∧ q = p)
          · unfold bodyIter bodyEnds
            rw [Prog.run_read_bind, hp.curr, if_pos (by simp [blockToks])]
            exact Prog.meets_pure ⟨rfl, rfl⟩
          · rintro _ q ⟨rfl, rfl⟩
            exact Prog.meets_pure ⟨[], a, rfl, by simp, hp⟩
  | cons item items ih =>
      cases k with
      | zero => exact Prog.meets_timeout trivial
      | succ k =>
          rw [blockToks, List.append_assoc] at hp
          have hBitem : item.build fresh a = none → B := by
            intro hnone
            apply hB
            simp [blockBuild, hnone]
          rw [loop]
          apply Prog.meets_bind (builds_bodyItem hd hs msg acc hitems.1 hgreedy.1
            (follow_body items ts) hp hBitem)
          rintro _ q ⟨nd, a', hnd, rfl, hq⟩
          refine (ih hitems.2 hgreedy.2 (acc ++ [nd]) k hq ?_).mono ?_
          · intro hnone
            apply hB
            simp [blockBuild, hnd, hnone]
          · rintro r p' ⟨ns, a₂, hns, rfl, hp'⟩
            exact ⟨nd :: ns, a₂, by simp [blockBuild, hnd, hns], by simp, hp'⟩

/-- A scope is entered. -/
theorem at_enter (h : At fresh a ts p) :
    (semaScopeEnter.run p).Meets (semanticOnly B) fun _ p' =>
      At fresh ⟨a.sema.enter, a.allocs⟩ ts p' := by
  refine (at_step ⟨a.sema.enter, a.allocs⟩ rfl h rfl rfl rfl rfl rfl h.regular.enter ?_
    h.allocs).mono fun _ _ hp' => hp'.1
  rw [h.sema]

/-- A scope is left. -/
theorem at_leave (h : At fresh a ts p) (hregular : Regular a.sema.leave) :
    (semaScopeLeave.run p).Meets (semanticOnly B) fun _ p' =>
      At fresh ⟨a.sema.leave, a.allocs⟩ ts p' := by
  refine (at_step ⟨a.sema.leave, a.allocs⟩ rfl h rfl rfl rfl rfl rfl hregular ?_
    h.allocs).mono fun _ _ hp' => hp'.1
  rw [h.sema]

/-- {lit}`parse_block` opens a scope, builds its items and leaves the scope. -/
theorem builds_block {d s : Parse (Option Node)} (hd : BuildsDecl fresh B d)
    (hs : BuildsStmt fresh B s) : BuildsBlock fresh B (parseBlockBody d s n) := by
  intro items hitems hgreedy a ts p hp hB
  apply at_mark rfl
  simp only [Stmt.toks, List.cons_append, List.append_assoc, List.nil_append] at hp
  unfold Stmt.build at hB ⊢
  apply Prog.meets_bind (at_consume hp rfl)
  rintro _ q ⟨hq, _⟩
  apply Prog.meets_bind (at_enter hq)
  intro _ q₁ hq₁
  refine Prog.meets_bind (builds_body hd hs _ items hitems hgreedy [] n hq₁ ?_) ?_
  · intro hnone
    apply hB
    simp [hnone]
  rintro stmts q₂ ⟨ns, a', hns, rfl, hq₂⟩
  apply Prog.meets_bind (at_leave hq₂ (hq.regular.of_scopes (local_blockBuild hns).leave.scopes))
  intro _ q₃ hq₃
  apply Prog.meets_bind (at_consume hq₃ rfl)
  rintro _ q₄ ⟨hq₄, _⟩
  exact Prog.meets_pure ⟨_, _, by simp [hns], rfl, hq₄⟩

/-- A condition in its parentheses. -/
theorem builds_cond {x : Parse (Option Node)} (hx : BuildsExpr fresh B x 0 0) {cond : Expr}
    (hcond : cond.Operand) {α : Type} {Q : α → Parser → Prop} {k : Option Node → Parse α}
    (hp : At fresh a (condToks cond ++ ts) p) (hB : cond.node a.sema = none → B)
    (hk : ∀ nd q, cond.node a.sema = some nd → At fresh a ts q →
      ((k (some nd)).run q).Meets (semanticOnly B) Q) :
    ((do
      consume .lParen .expectLParen
      let cond ← x
      consume .rParen .expectRParen
      k cond).run p).Meets (semanticOnly B) Q := by
  simp only [condToks, List.cons_append, List.append_assoc, List.nil_append] at hp
  apply Prog.meets_bind (at_consume hp rfl)
  rintro _ q ⟨hq, _⟩
  apply Prog.meets_bind (hx cond hcond.1 hcond.2 a _ (stops_close rfl) q hq hB)
  rintro c q₁ ⟨nd, hnd, rfl, hq₁⟩
  apply Prog.meets_bind (at_consume hq₁ rfl)
  rintro _ q₂ ⟨hq₂, _⟩
  exact hk nd q₂ hnd hq₂

/-- {lit}`sema_analyze_return` accepts exactly the returns the grammar gives a node. -/
theorem builds_analyzeReturn {tok : Token} {lhs : Option Node} {σ : Sema} (hsema : p.sema = σ)
    (hquiet : p.ctx.hadError = false) (hB : returnNode σ lhs = none → B) :
    ((semaAnalyzeReturn tok lhs).run p).Meets (semanticOnly B) fun nd p' =>
      returnNode σ lhs = some nd ∧ p' = p := by
  subst hsema
  apply at_mark rfl
  rw [Prog.run_read_bind]
  unfold returnNode at hB ⊢
  by_cases hvoid : p.sema.currFuncRet.map Ty.obj = tyVoid
  · rw [if_pos (by simpa using hvoid)]
    by_cases hactual : actualTy lhs = tyVoid
    · rw [if_neg (by simpa using hactual)]
      exact Prog.meets_pure ⟨by simp [hvoid, hactual], rfl⟩
    · rw [if_pos (by simpa using hactual)]
      exact Prog.meets_bind_escape (ends_ctxError (hB (by simp [hvoid, hactual])) hquiet rfl _)
  · rw [if_neg (by simpa using hvoid)]
    by_cases hactual : actualTy lhs = tyVoid
    · rw [if_pos (by simpa using hactual)]
      exact Prog.meets_bind_escape (ends_ctxError (hB (by simp [hvoid, hactual])) hquiet rfl _)
    · rw [if_neg (by simpa using hactual), Prog.run_read_bind]
      by_cases hty : typeEq p.sema.funcs (p.sema.currFuncRet.map Ty.obj) (actualTy lhs) = true
      · rw [if_neg (by simp [hty])]
        exact Prog.meets_pure ⟨by simp [hvoid, hactual, hty], rfl⟩
      · rw [if_pos (by simp [hty])]
        exact Prog.meets_bind_escape
          (ends_ctxError (hB (by simp [hvoid, hactual, hty])) hquiet rfl _)

/-- The expression statements. -/
theorem builds_exprStmt {x : Parse (Option Node)} (hx : BuildsExpr fresh B x 0 0) {lhs : Expr}
    (hlhs : lhs.Operand) (rhs : Option Expr) (hrhs : ∀ e, rhs = some e → e.Operand)
    {s : Stmt} (hs : s = match rhs with
      | none => .expr lhs
      | some e => .assign lhs e)
    (hp : At fresh a (s.toks ++ ts) p) (hB : s.build fresh a = none → B) :
    ((parseExprStmt x).run p).Meets (semanticOnly B) fun r p' =>
      ∃ nd a', s.build fresh a = some (nd, a') ∧ r = some nd ∧ At fresh a' ts p' := by
  cases rhs with
  | none =>
      subst hs
      simp only [Stmt.toks, List.append_assoc] at hp
      unfold Stmt.build at hB ⊢
      refine Prog.meets_bind (hx lhs hlhs.1 hlhs.2 a _ (stops_close rfl) p hp ?_) ?_
      · intro hnone
        apply hB
        simp [hnone]
      rintro expr q ⟨l, hl, rfl, hq⟩
      apply Prog.meets_bind (R := fun r q' => r = l ∧ q' = q)
      · apply at_other hq (by simp)
        exact Prog.meets_pure ⟨rfl, rfl⟩
      rintro _ q ⟨rfl, rfl⟩
      apply Prog.meets_bind (at_consume hq rfl)
      rintro _ q₁ ⟨hq₁, _⟩
      exact Prog.meets_pure ⟨_, a, by simp [hl], rfl, hq₁⟩
  | some e =>
      subst hs
      have he := hrhs e rfl
      simp only [Stmt.toks, List.append_assoc, List.cons_append, List.nil_append] at hp
      unfold Stmt.build at hB ⊢
      refine Prog.meets_bind (hx lhs hlhs.1 hlhs.2 a _ (stops_close rfl) p hp ?_) ?_
      · intro hnone
        apply hB
        simp [hnone]
      rintro expr q ⟨l, hl, rfl, hq⟩
      apply Prog.meets_bind (R := fun nd q' => ∃ r, e.node a.sema = some r ∧
        assignNode a.sema.funcs l r = some nd ∧ At fresh a (.fixed .semicolon :: ts) q')
      · apply at_match hq rfl
        intro q₁ hq₁ _
        refine Prog.meets_bind (hx e he.1 he.2 a _ (stops_close rfl) q₁ hq₁ ?_) ?_
        · intro hnone
          apply hB
          simp [hl, hnone]
        rintro rhs q₂ ⟨r, hr, rfl, hq₂⟩
        unfold newNode
        dsimp only
        rw [Prog.run_read_bind]
        refine (builds_analyzeAssign hq₂ ?_).mono ?_
        · intro hnone
          apply hB
          simp [hl, hr, hnone]
        · rintro nd q₃ ⟨hnd, hq₃⟩
          exact ⟨r, hr, hnd, hq₃⟩
      · rintro nd q₁ ⟨r, hr, hnd, hq₁⟩
        apply Prog.meets_bind (at_consume hq₁ rfl)
        rintro _ q₂ ⟨hq₂, _⟩
        exact Prog.meets_pure ⟨_, a, by simp [hl, hr, hnd], rfl, hq₂⟩

/-- A return statement, when its keyword has been read. -/
theorem builds_return {x : Parse (Option Node)} (hx : BuildsExpr fresh B x 0 0)
    {value : Option Expr} (hvalue : ∀ e, value = some e → e.Operand)
    (hp : At fresh a ((value.map Expr.toks).getD [] ++ .fixed .semicolon :: ts) p)
    (hB : (Stmt.ret value).build fresh a = none → B) :
    ((parseReturn x).run p).Meets (semanticOnly B) fun r p' =>
      ∃ nd a', (Stmt.ret value).build fresh a = some (nd, a') ∧ r = some nd ∧
        At fresh a' ts p' := by
  unfold parseReturn newNode
  rw [Prog.run_read_bind]
  apply Prog.meets_bind (builds_nodeField hp)
  rintro _ q ⟨rfl, hq⟩
  cases value with
  | none =>
      unfold Stmt.build at hB ⊢
      apply Prog.meets_bind (R := fun r q' => r = fresh a.allocs ∧ q' = q)
      · apply at_check hq rfl
        exact builds_keepField ⟨rfl, rfl⟩
      rintro _ q ⟨rfl, rfl⟩
      apply Prog.meets_bind (at_consume hq rfl)
      rintro _ q₁ ⟨hq₁, _⟩
      refine Prog.meets_bind (builds_analyzeReturn hq₁.sema hq₁.clear.hadError ?_) ?_
      · intro hnone
        apply hB
        simp [hnone]
      · rintro nd q₂ ⟨hnd, rfl⟩
        exact Prog.meets_pure ⟨nd, _, by simp [hnd], rfl, hq₁⟩
  | some e =>
      have he := hvalue e rfl
      unfold Stmt.build at hB ⊢
      apply Prog.meets_bind (R := fun r q' => ∃ nd, e.node a.sema = some nd ∧ r = some nd ∧
        At fresh ⟨a.sema, a.allocs + 1⟩ (.fixed .semicolon :: ts) q')
      · apply at_check_other hq (ne_of_class (e.starts.follow _) rfl)
        apply hx e he.1 he.2 ⟨a.sema, a.allocs + 1⟩ _ (stops_close rfl) q hq
        intro hnone
        apply hB
        simp [hnone]
      rintro _ q₁ ⟨v, hv, rfl, hq₁⟩
      apply Prog.meets_bind (at_consume hq₁ rfl)
      rintro _ q₂ ⟨hq₂, _⟩
      refine Prog.meets_bind (builds_analyzeReturn hq₂.sema hq₂.clear.hadError ?_) ?_
      · intro hnone
        apply hB
        simp [hv, hnone]
      · rintro nd q₃ ⟨hnd, rfl⟩
        exact Prog.meets_pure ⟨nd, _, by simp [hv, hnd], rfl, hq₂⟩

/-- One pass of {lit}`parse_stmt` builds every statement, if its parts are built. -/
theorem builds_stmt {x s b : Parse (Option Node)} (hx : BuildsExpr fresh B x 0 0)
    (hs : BuildsStmt fresh B s) (hb : BuildsBlock fresh B b) :
    BuildsStmt fresh B (parseStmtBody x s b) := by
  intro st hst hgreedy a ts p helse hp hB
  apply at_mark rfl
  cases st with
  | ifThen cond body =>
      simp only [Stmt.toks, List.cons_append, List.append_assoc] at hp
      unfold Stmt.build at hB ⊢
      apply at_match hp rfl
      intro q hq _
      apply Prog.meets_bind (builds_nodeField hq)
      rintro _ q₁ ⟨rfl, hq₁⟩
      refine builds_cond hx hst.1 hq₁ ?_ ?_
      · intro hnone
        apply hB
        simp [hnone]
      intro c q₂ hc hq₂
      refine Prog.meets_bind (hs body hst.2 hgreedy _ ts q₂ (fun _ => helse rfl) hq₂ ?_) ?_
      · intro hnone
        apply hB
        simp [hc, hnone]
      rintro r q₃ ⟨nb, a', hbody, rfl, hq₃⟩
      apply Prog.meets_bind (R := fun r q' => r = fresh a.allocs ∧ q' = q₃)
      · apply at_other hq₃ (helse rfl)
        exact builds_keepField ⟨rfl, rfl⟩
      rintro _ q₃ ⟨rfl, rfl⟩
      exact Prog.meets_pure ⟨_, a', by simp [hc, hbody], rfl, hq₃⟩
  | ifElse cond body alt =>
      obtain ⟨hclosed, hgreedyBody, hgreedyAlt⟩ := hgreedy
      simp only [Stmt.toks, List.cons_append, List.append_assoc] at hp
      unfold Stmt.build at hB ⊢
      apply at_match hp rfl
      intro q hq _
      apply Prog.meets_bind (builds_nodeField hq)
      rintro _ q₁ ⟨rfl, hq₁⟩
      refine builds_cond hx hst.1 hq₁ ?_ ?_
      · intro hnone
        apply hB
        simp [hnone]
      intro c q₂ hc hq₂
      refine Prog.meets_bind (hs body hst.2.1 hgreedyBody _ _ q₂ ?_ hq₂ ?_) ?_
      · intro hopen
        rw [hclosed] at hopen
        cases hopen
      · intro hnone
        apply hB
        simp [hc, hnone]
      rintro r q₃ ⟨nb, a₁, hbody, rfl, hq₃⟩
      apply Prog.meets_bind (R := fun r q' => ∃ ne a₂, alt.build fresh a₁ = some (ne, a₂) ∧
        r = some ne ∧ At fresh a₂ ts q')
      · apply at_match hq₃ rfl
        intro q₄ hq₄ _
        apply hs alt hst.2.2 hgreedyAlt a₁ ts q₄ helse hq₄
        intro hnone
        apply hB
        simp [hc, hbody, hnone]
      rintro r q₄ ⟨ne, a₂, halt, rfl, hq₄⟩
      exact Prog.meets_pure ⟨_, a₂, by simp [hc, hbody, halt], rfl, hq₄⟩
  | «while» cond body =>
      simp only [Stmt.toks, List.cons_append, List.append_assoc] at hp
      unfold Stmt.build at hB ⊢
      apply at_other hp (by simp)
      apply at_match hp rfl
      intro q hq _
      refine builds_cond hx hst.1 hq ?_ ?_
      · intro hnone
        apply hB
        simp [hnone]
      intro c q₁ hc hq₁
      refine Prog.meets_bind (hs body hst.2 hgreedy a ts q₁ helse hq₁ ?_) ?_
      · intro hnone
        apply hB
        simp [hc, hnone]
      rintro r q₂ ⟨nb, a', hbody, rfl, hq₂⟩
      exact Prog.meets_pure ⟨_, a', by simp [hc, hbody], rfl, hq₂⟩
  | ret value =>
      simp only [Stmt.toks, List.cons_append, List.append_assoc] at hp
      iterate 2 apply at_other hp (by simp)
      apply at_match hp rfl
      intro q hq _
      exact builds_return hx hst hq hB
  | «break» =>
      iterate 3 apply at_other hp (by simp [Stmt.toks])
      apply at_match hp rfl
      intro q hq _
      apply Prog.meets_bind (at_consume hq rfl)
      rintro _ q₁ ⟨hq₁, _⟩
      exact Prog.meets_pure ⟨_, a, rfl, rfl, hq₁⟩
  | «continue» =>
      iterate 4 apply at_other hp (by simp [Stmt.toks])
      apply at_match hp rfl
      intro q hq _
      apply Prog.meets_bind (at_consume hq rfl)
      rintro _ q₁ ⟨hq₁, _⟩
      exact Prog.meets_pure ⟨_, a, rfl, rfl, hq₁⟩
  | block items =>
      iterate 5 apply at_other hp (by simp [Stmt.toks])
      apply at_check hp rfl
      exact hb items hst hgreedy a ts p hp hB
  | expr e =>
      have hstart := (e.starts.append [.fixed .semicolon]).follow ts
      iterate 5 apply at_other hp (ne_of_class hstart rfl)
      apply at_check_other hp (ne_of_class hstart rfl)
      exact builds_exprStmt hx hst none (by simp) rfl hp hB
  | assign lhs rhs =>
      have hstart := (lhs.starts.append (.fixed .assign :: (rhs.toks ++
        [.fixed .semicolon]))).follow ts
      iterate 5 apply at_other hp (ne_of_class hstart rfl)
      apply at_check_other hp (ne_of_class hstart rfl)
      exact builds_exprStmt hx hst.1 (some rhs) (by simpa using hst.2) rfl hp hB

/-- Both statement functions, by induction on the budget. -/
theorem builds_statements (n : Nat) :
    BuildsBlock fresh B (parseBlock n) ∧ BuildsStmt fresh B (parseStmt n) := by
  induction n with
  | zero =>
      constructor
      · exact fun _ _ _ _ _ _ _ _ => Prog.meets_timeout trivial
      · exact fun _ _ _ _ _ _ _ _ _ => Prog.meets_timeout trivial
  | succ n ih =>
      constructor
      · exact builds_block (fun d hd a ts p => builds_decl hd) ih.2
      · exact builds_stmt (builds_parseExpr n) ih.2 ih.1

/-- {lit}`parse_stmt` builds the node of every statement of the grammar. -/
theorem builds_parseStmt (n : Nat) : BuildsStmt fresh B (parseStmt n) :=
  (builds_statements n).2

end

end Parser

end Cact
