import Cact.Parser.Completeness.Stmt

/-!
# Completeness - functions and files

On the text of a compilation unit the parser builds its nodes, unless a semantic check
reports an error.

Main results:

- Theorem {lit}`Parser.builds_func`: function definitions.
- Theorem {lit}`Parser.builds_parserProgram`: whole files.
- Theorem {lit}`Parser.build_of_accepted` and {lit}`Parser.accepted_of_build`: a token
  stream is accepted if and only if it is the text of a tree that can be built.
-/

open Traced

namespace Cact

open Grammar

namespace Parser

section

variable {heed B : Prop} {fresh : Nat → Option Node} {a : Analysis} {t : Terminal}
  {ts us beyond : List Terminal} {p : Parser} {n : Nat}

/-! ## Parameters -/

/-- The array part of a parameter. -/
theorem facing_paramSuffix {d : Param} (hends : Ends beyond ts)
    (hts : follow ts ≠ .lBracket)
    (hp : Facing heed fresh beyond a ((d.dims.map ParamDims.toks).getD [] ++ ts) p) :
    ((parseParamSuffix n (some d.ty.obj)).run p).Meets (reporting heed B) fun r p' =>
      r = some d.obj ∧ Facing heed fresh beyond a ts p' := by
  unfold parseParamSuffix Param.obj
  cases hdims : d.dims with
  | none =>
      rw [hdims] at hp
      apply facing_other hp hts
      exact Prog.meets_pure ⟨rfl, hp⟩
  | some dims =>
      rw [hdims] at hp
      simp only [Option.map_some, Option.getD_some, ParamDims.toks, List.cons_append,
        List.append_assoc] at hp
      apply facing_match hp ((Ends.cons _).append _) rfl
      intro q hq _
      apply Prog.meets_bind (R := fun r q' => r = some (.array d.ty.obj (dims.first.getD 0)) ∧
        Facing heed fresh beyond a (dims.more.flatMap dimToks ++ ts) q')
      · cases hfirst : dims.first with
        | none =>
            rw [hfirst] at hq
            apply facing_match hq (hends.append _) rfl
            intro q₁ hq₁ _
            apply reporting_mark rfl
            exact Prog.meets_pure ⟨rfl, hq₁⟩
        | some len =>
            rw [hfirst] at hq
            apply facing_other hq (by simp)
            apply facing_match hq (Ends.cons _) rfl
            intro q₁ hq₁ hprev
            have hval : q₁.prev.value.asInt = len := Token.asInt_of_terminal hprev
            rw [Prog.run_read_bind]
            apply Prog.meets_bind (facing_consume hq₁ (hends.append _) rfl)
            rintro _ q₂ ⟨hq₂, _⟩
            apply reporting_mark rfl
            exact Prog.meets_pure ⟨by rw [hval]; rfl, hq₂⟩
      · rintro _ q₁ ⟨rfl, hq₁⟩
        exact facing_dims dims.more _ hends hts hq₁

theorem builds_paramSuffix {d : Param} (hts : follow ts ≠ .lBracket)
    (hp : At fresh a ((d.dims.map ParamDims.toks).getD [] ++ ts) p) :
    ((parseParamSuffix n (some d.ty.obj)).run p).Meets (semanticOnly B) fun r p' =>
      r = some d.obj ∧ At fresh a ts p' := by
  rw [semanticOnly_eq]
  refine (facing_paramSuffix (fun _ => rfl) hts hp.facing).mono ?_
  rintro _ p' ⟨rfl, hp'⟩
  exact ⟨rfl, hp'.at hp.regular⟩

/-- One parameter, with the comma or the parenthesis behind it. -/
theorem builds_paramIter {d : Param} {id : Nat} {sep : TokenKind}
    (hsep : sep = .comma ∨ sep = .rParen) (hp : At fresh a (d.toks ++ .fixed sep :: ts) p)
    (hB : defineSym a.sema d.name (.obj d.obj) false = none → B) :
    ((paramIter n id ()).run p).Meets (semanticOnly B) fun i p' => ∃ sym σ,
      defineSym a.sema d.name (.obj d.obj) false = some (sym, σ) ∧
        ((sep = .comma ∧ i = Iter.again () ∧
            At fresh ⟨σ.pushParam id (some d.obj), a.allocs⟩ ts p') ∨
          (sep = .rParen ∧ i = Iter.leave () ∧
            At fresh ⟨σ.pushParam id (some d.obj), a.allocs⟩ (.fixed .rParen :: ts) p')) := by
  apply at_mark rfl
  unfold Param.toks at hp
  rw [Prog.run_read_bind]
  have hcurr : p.curr.kind = d.ty.kind := hp.curr
  rw [hcurr, tokenToType_kind]
  apply Prog.meets_bind (R := fun _ q => q = p) (Prog.meets_pure rfl)
  rintro _ p rfl
  apply Prog.meets_bind (at_advance hp)
  rintro _ q ⟨hq, _⟩
  apply Prog.meets_bind (at_consume hq rfl)
  rintro _ q₁ ⟨hq₁, hprev⟩
  have hname : q₁.prev.value.name = d.name := Token.name_of_terminal hprev
  rw [Prog.run_read_bind, hname]
  have hts : follow (.fixed sep :: ts) ≠ .lBracket := by
    rcases hsep with rfl | rfl <;> simp
  apply Prog.meets_bind (builds_paramSuffix hts hq₁)
  rintro _ q₂ ⟨rfl, hq₂⟩
  apply Prog.meets_bind (builds_defineVar hq₂ hB)
  rintro _ q₃ ⟨sym, σ, hdef, rfl, hq₃, _⟩
  refine Prog.meets_bind (at_step ⟨σ.pushParam id (some d.obj), a.allocs⟩ rfl hq₃ rfl
    rfl rfl rfl rfl (hq₃.regular.of_scopes rfl) (by rw [hq₃.sema]) hq₃.allocs) ?_
  rintro _ q₄ ⟨hq₄, _⟩
  rcases hsep with rfl | rfl
  · apply at_match hq₄ rfl
    intro q₅ hq₅ _
    exact Prog.meets_pure ⟨sym, σ, hdef, Or.inl ⟨rfl, rfl, hq₅⟩⟩
  · apply at_other hq₄ (by simp)
    exact Prog.meets_pure ⟨sym, σ, hdef, Or.inr ⟨rfl, rfl, hq₄⟩⟩

theorem builds_paramLoop {id : Nat} (ds : List Param) (d : Param) (k : Nat)
    (hp : At fresh a (separated ((d :: ds).map Param.toks) ++ .fixed .rParen :: ts) p)
    (hB : paramsBuild id (d :: ds) a.sema = none → B) :
    ((loop (paramIter n id) k ()).run p).Meets (semanticOnly B) fun _ p' =>
      ∃ σ, paramsBuild id (d :: ds) a.sema = some σ ∧
        At fresh ⟨σ, a.allocs⟩ (.fixed .rParen :: ts) p' := by
  induction ds generalizing d k a p with
  | nil =>
      cases k with
      | zero => exact Prog.meets_timeout trivial
      | succ k =>
          rw [loop]
          refine Prog.meets_bind (builds_paramIter (Or.inr rfl) hp ?_) ?_
          · intro hnone
            apply hB
            simp [paramsBuild, hnone]
          · rintro _ q ⟨sym, σ, hdef, ⟨hsep, _⟩ | ⟨_, rfl, hq⟩⟩
            · cases hsep
            · exact Prog.meets_pure ⟨_, by simp [paramsBuild, hdef], hq⟩
  | cons d' ds ih =>
      cases k with
      | zero => exact Prog.meets_timeout trivial
      | succ k =>
          have htext : separated ((d :: d' :: ds).map Param.toks) ++ .fixed .rParen :: ts =
              d.toks ++ .fixed .comma :: (separated ((d' :: ds).map Param.toks) ++
                .fixed .rParen :: ts) := by
            simp [separated]
          rw [htext] at hp
          rw [loop]
          refine Prog.meets_bind (builds_paramIter (Or.inl rfl) hp ?_) ?_
          · intro hnone
            apply hB
            simp [paramsBuild, hnone]
          · rintro _ q ⟨sym, σ, hdef, ⟨_, rfl, hq⟩ | ⟨hsep, _⟩⟩
            · refine (ih d' k hq ?_).mono ?_
              · intro hnone
                apply hB
                rw [paramsBuild]
                simp [hdef, hnone]
              · rintro _ p' ⟨σ', hσ', hp'⟩
                refine ⟨σ', ?_, hp'⟩
                rw [paramsBuild]
                simp [hdef, hσ']
            · cases hsep

theorem builds_params {id : Nat} {ds : List Param}
    (hp : At fresh a (separated (ds.map Param.toks) ++ .fixed .rParen :: ts) p)
    (hB : paramsBuild id ds a.sema = none → B) :
    ((parseParams n id).run p).Meets (semanticOnly B) fun _ p' =>
      ∃ σ, paramsBuild id ds a.sema = some σ ∧
        At fresh ⟨σ, a.allocs⟩ (.fixed .rParen :: ts) p' := by
  cases ds with
  | nil =>
      apply at_check hp rfl
      exact Prog.meets_pure ⟨a.sema, rfl, hp⟩
  | cons d ds =>
      apply at_check_other hp
      · have hkind : follow (separated ((d :: ds).map Param.toks) ++ .fixed .rParen :: ts) =
            d.ty.kind := by
          cases ds <;> rfl
        rw [hkind]
        cases d.ty <;> simp [BaseTy.kind]
      · exact builds_paramLoop ds d n hp hB

/-! ## Functions -/

/-- A function, when its name has been read. -/
theorem builds_func {f : Func} (hbody : blockWellFormed f.body) (hgreedy : blockGreedy f.body)
    (hp : At fresh a (.fixed .lParen :: (separated (f.params.map Param.toks) ++ .fixed .rParen ::
      .fixed .lBrace :: (blockToks f.body ++ .fixed .rBrace :: ts))) p)
    (hB : f.build fresh a = none → B) :
    ((parseFunc n f.ty.obj f.name).run p).Meets (semanticOnly B) fun r p' =>
      ∃ nd a', f.build fresh a = some (nd, a') ∧ r = some nd ∧ At fresh a' ts p' := by
  apply at_mark rfl
  unfold Func.build at hB ⊢
  apply Prog.meets_bind (at_consume hp rfl)
  rintro _ q ⟨hq, _⟩
  -- The new function type.
  apply Prog.meets_bind (R := fun r q' => r = a.sema.funcs.length ∧
    At fresh ⟨a.sema.newFunc f.ty.obj, a.allocs⟩ (separated (f.params.map Param.toks) ++
      .fixed .rParen :: .fixed .lBrace :: (blockToks f.body ++ .fixed .rBrace :: ts)) q')
  · unfold typeFuncNew
    rw [Prog.run_read_bind, hq.sema]
    refine Prog.meets_bind (at_step ⟨a.sema.newFunc f.ty.obj, a.allocs⟩ rfl hq rfl rfl
      rfl rfl rfl (hq.regular.of_scopes rfl) (by rw [hq.sema]) hq.allocs) ?_
    rintro _ q₁ ⟨hq₁, _⟩
    exact Prog.meets_pure ⟨rfl, hq₁⟩
  rintro _ q₁ ⟨rfl, hq₁⟩
  refine Prog.meets_bind (builds_defineVar hq₁ ?_) ?_
  · intro hnone
    apply hB
    simp [hnone]
  rintro _ q₂ ⟨sym, σ₁, hdef, rfl, hq₂, _⟩
  refine Prog.meets_bind (at_step ⟨{ σ₁ with currFuncRet := some f.ty.obj }, a.allocs⟩
    rfl hq₂ rfl rfl rfl rfl rfl (hq₂.regular.of_scopes rfl) (by rw [hq₂.sema]) hq₂.allocs) ?_
  rintro _ q₃ ⟨hq₃, _⟩
  apply Prog.meets_bind (at_enter hq₃)
  intro _ q₄ hq₄
  refine Prog.meets_bind (builds_params hq₄ ?_) ?_
  · intro hnone
    apply hB
    simp [hdef, hnone]
  rintro _ q₅ ⟨σ₂, hparams, hq₅⟩
  apply Prog.meets_bind (at_consume hq₅ rfl)
  rintro _ q₆ ⟨hq₆, _⟩
  apply Prog.meets_bind (at_consume hq₆ rfl)
  rintro _ q₇ ⟨hq₇, _⟩
  refine Prog.meets_bind (builds_body (fun d hd a ts p => builds_decl hd) (builds_parseStmt n) _
    f.body hbody hgreedy [] n hq₇ ?_) ?_
  · intro hnone
    apply hB
    simp [hdef, hparams, hnone]
  rintro _ q₈ ⟨ns, a', hns, rfl, hq₈⟩
  apply Prog.meets_bind (at_consume hq₈ rfl)
  rintro _ q₉ ⟨hq₉, _⟩
  -- The scope of the function is the only one that was changed.
  have htail : a'.sema.leave.scopes = σ₁.scopes := by
    have hinner := (local_blockBuild hns).tail
    exact hinner.trans (local_paramsBuild hparams).1
  apply Prog.meets_bind (at_leave hq₉ (hq₂.regular.of_scopes htail))
  intro _ q₁₀ hq₁₀
  refine Prog.meets_bind (at_step ⟨{ a'.sema.leave with currFuncRet := none }, a'.allocs⟩
    rfl hq₁₀ rfl rfl rfl rfl rfl (hq₁₀.regular.of_scopes rfl) (by rw [hq₁₀.sema]) hq₁₀.allocs) ?_
  rintro _ q₁₁ ⟨hq₁₁, _⟩
  exact Prog.meets_pure ⟨_, _, by simp [hdef, hparams, hns], rfl, hq₁₁⟩

/-! ## Top-level items -/

/-- What comes after the name of a variable is no parenthesis. -/
theorem follow_declTail (d : Decl) (ts : List Terminal) :
    follow (d.first.tailToks ++ (moreToks d.more ++ .fixed .semicolon :: ts)) ≠ .lParen := by
  unfold Declarator.tailToks moreToks
  cases d.first.dims with
  | cons len dims => simp [dimToks]
  | nil =>
      cases d.first.init with
      | some init => simp [initToks]
      | none => cases d.more <;> simp [initToks]

theorem builds_topLevel {item : Item} (hitem : item.WellFormed) (hgreedy : item.Greedy)
    (hp : At fresh a (item.toks ++ ts) p) (hB : item.build fresh a = none → B) :
    ((parseTopLevel n).run p).Meets (semanticOnly B) fun r p' =>
      ∃ nd a', item.build fresh a = some (nd, a') ∧ r = some nd ∧ At fresh a' ts p' := by
  apply at_mark rfl
  cases item with
  | func f =>
      simp only [Item.toks, Func.toks, List.append_assoc, List.cons_append, List.nil_append] at hp
      apply Prog.meets_bind (builds_const hp)
      rintro _ q ⟨rfl, hq⟩
      have hcurr : q.curr.kind = f.ty.kind := hq.curr
      rw [Prog.run_read_bind, hcurr, tokenToType_kind]
      apply Prog.meets_bind (at_advance hq)
      rintro _ q₁ ⟨hq₁, _⟩
      apply at_check hq₁ rfl
      apply Prog.meets_bind (at_consume hq₁ rfl)
      rintro _ q₂ ⟨hq₂, hprev⟩
      have hname : q₂.prev.value.name = f.name := Token.name_of_terminal hprev
      rw [Prog.run_read_bind, hname]
      apply at_check hq₂ rfl
      exact builds_func hitem hgreedy hq₂ hB
  | decl d =>
      simp only [Item.toks, Decl.toks_eq, List.append_assoc, List.cons_append,
        List.nil_append] at hp
      apply Prog.meets_bind (builds_const hp)
      rintro _ q ⟨rfl, hq⟩
      have hcurr : q.curr.kind = d.ty.kind := hq.curr
      rw [Prog.run_read_bind, hcurr, tokenToType_kind]
      apply Prog.meets_bind (at_advance hq)
      rintro _ q₁ ⟨hq₁, _⟩
      apply at_check hq₁ rfl
      apply Prog.meets_bind (at_consume hq₁ rfl)
      rintro _ q₂ ⟨hq₂, hprev⟩
      have hname : q₂.prev.value.name = d.first.name := Token.name_of_terminal hprev
      rw [Prog.run_read_bind, hname]
      apply at_check_other hq₂ (follow_declTail d ts)
      exact builds_varDeclList hitem true hq₂ hB

/-- The items of a file. -/
theorem builds_items (u : CompUnit) (hu : u.WellFormed) (hgreedy : u.Greedy) (acc : List Node)
    (k : Nat) (hp : At fresh a u.toks p) (hB : itemsBuild fresh u a = none → B) :
    ((loop (topIter n) k acc).run p).Meets (semanticOnly B) fun r p' =>
      ∃ ns a', itemsBuild fresh u a = some (ns, a') ∧ r = acc ++ ns ∧
        p'.ctx.hadError = false ∧ p'.sema = a'.sema := by
  induction u generalizing acc k a p with
  | nil =>
      cases k with
      | zero => exact Prog.meets_timeout trivial
      | succ k =>
          have hend : p.curr.kind = .eof := hp.curr
          rw [loop]
          apply Prog.meets_bind (R := fun i q => i = Iter.leave acc ∧
            q.ctx.hadError = false ∧ q.sema = a.sema)
          · unfold topIter matchKind
            apply Prog.meets_bind (R := fun b q => b = true ∧ q.ctx.hadError = false ∧
              q.sema = a.sema)
            · apply at_check hp rfl
              unfold advance
              apply Prog.meets_bind (R := fun _ q => q.ctx.hadError = false ∧ q.sema = a.sema)
              · apply Prog.meets_bind (R := fun _ q => q.rest = [] ∧ q.panicMode = false ∧
                  q.ctx.hadError = false ∧ q.sema = a.sema)
                · exact Prog.meets_step rfl
                    ⟨hp.clear.atEnd hend, hp.clear.panicMode, hp.clear.hadError, hp.sema⟩
                · rintro _ q ⟨hrest, hpanic, herror, hsema⟩
                  rw [Prog.run_read_bind, hrest]
                  have hnil : Clean (terminals []) := clean_nil
                  refine (clear_advanceLoop hnil hpanic herror).mono ?_
                  rintro _ q' ⟨hclear, _, hsema', _, _⟩
                  exact ⟨hclear.hadError, hsema'.trans hsema⟩
              · exact fun _ q hq => Prog.meets_pure ⟨rfl, hq⟩
            · rintro _ q ⟨rfl, hq⟩
              exact Prog.meets_pure ⟨rfl, hq⟩
          · rintro _ q ⟨rfl, hq⟩
            exact Prog.meets_pure ⟨[], a, rfl, by simp, hq⟩
  | cons item items ih =>
      cases k with
      | zero => exact Prog.meets_timeout trivial
      | succ k =>
          have htext : CompUnit.toks (item :: items) = item.toks ++ CompUnit.toks items := rfl
          rw [htext] at hp
          have hBitem : item.build fresh a = none → B := by
            intro hnone
            apply hB
            simp [itemsBuild, hnone]
          rw [loop]
          apply Prog.meets_bind (R := fun i q => ∃ nd a', item.build fresh a = some (nd, a') ∧
            i = Iter.again (acc ++ [nd]) ∧ At fresh a' (CompUnit.toks items) q)
          · apply at_other hp (ne_of_class (item.starts.follow _) rfl)
            apply Prog.meets_bind (builds_topLevel (hu item (by simp)) (hgreedy item (by simp))
              hp hBitem)
            rintro _ q ⟨nd, a', hnd, rfl, hq⟩
            exact Prog.meets_pure ⟨nd, a', hnd, rfl, hq⟩
          · rintro _ q ⟨nd, a', hnd, rfl, hq⟩
            refine (ih (fun i hi => hu i (by simp [hi])) (fun i hi => hgreedy i (by simp [hi]))
              (acc ++ [nd]) k hq ?_).mono ?_
            · intro hnone
              apply hB
              simp [itemsBuild, hnd, hnone]
            · rintro r p' ⟨ns, a₂, hns, rfl, hp'⟩
              exact ⟨nd :: ns, a₂, by simp [itemsBuild, hnd, hns], by simp, hp'⟩

/-! ## Files -/

theorem builds_builtins (intern : List UInt8 → Symbol)
    (bs : List (List Char × ObjTy × Option ObjTy)) (hp : At fresh a ts p)
    (hB : builtinsBuild intern bs a.sema = none → B) :
    ((installBuiltins intern bs).run p).Meets (semanticOnly B) fun _ p' =>
      ∃ σ, builtinsBuild intern bs a.sema = some σ ∧ At fresh ⟨σ, a.allocs⟩ ts p' := by
  induction bs generalizing a p with
  | nil => exact Prog.meets_pure ⟨a.sema, rfl, hp⟩
  | cons entry bs ih =>
      rcases entry with ⟨name, ret, arg1Ty⟩
      rw [builtinsBuild] at hB ⊢
      apply Prog.meets_bind (R := fun _ q => ∃ sym σ, defineSym (builtinParams
        (a.sema.newFunc ret) a.sema.funcs.length arg1Ty) (intern (name.map byte))
        (.func a.sema.funcs.length) false = some (sym, σ) ∧ At fresh ⟨σ, a.allocs⟩ ts q)
      · unfold installBuiltin typeFuncNew
        apply Prog.meets_bind (R := fun r q => r = a.sema.funcs.length ∧
          At fresh ⟨a.sema.newFunc ret, a.allocs⟩ ts q)
        · rw [Prog.run_read_bind, hp.sema]
          refine Prog.meets_bind (at_step ⟨a.sema.newFunc ret, a.allocs⟩ rfl hp rfl rfl
            rfl rfl rfl (hp.regular.of_scopes rfl) (by rw [hp.sema]) hp.allocs) ?_
          rintro _ q ⟨hq, _⟩
          exact Prog.meets_pure ⟨rfl, hq⟩
        rintro _ q ⟨rfl, hq⟩
        apply Prog.meets_bind (R := fun _ q => At fresh ⟨builtinParams (a.sema.newFunc ret)
          a.sema.funcs.length arg1Ty, a.allocs⟩ ts q)
        · cases arg1Ty with
          | none => exact Prog.meets_pure hq
          | some ty =>
              exact (at_step ⟨builtinParams (a.sema.newFunc ret) a.sema.funcs.length
                (some ty), a.allocs⟩ rfl hq rfl rfl rfl rfl rfl (hq.regular.of_scopes rfl)
                (by rw [hq.sema]; rfl) hq.allocs).mono fun _ _ hq' => hq'.1
        intro _ q₁ hq₁
        refine Prog.meets_bind (builds_defineVar hq₁ ?_) ?_
        · intro hnone
          apply hB
          simp [hnone]
        · rintro _ q₂ ⟨sym, σ, hdef, rfl, hq₂, _⟩
          exact Prog.meets_pure ⟨sym, σ, hdef, hq₂⟩
      · rintro _ q ⟨sym, σ, hdef, hq⟩
        refine (ih hq ?_).mono ?_
        · intro hnone
          apply hB
          simp [hdef, hnone]
        · rintro _ p' ⟨σ', hσ', hp'⟩
          exact ⟨σ', by simp [hdef, hσ'], hp'⟩

/-- On the text of a compilation unit, the parser builds its nodes, or a semantic check
reports an error. -/
theorem builds_parserProgram (intern : List UInt8 → Symbol) (mem : Memory) {ts : TokenStream}
    {u : CompUnit} (hu : u.WellFormed) (hgreedy : u.Greedy)
    (htoks : u.toks = terminals ts.tokens) (hB : u.build intern mem.field = none → B) :
    ((parserProgram intern n).run (start mem Context.init ts)).Meets (semanticOnly B)
      fun globals p' => p'.ctx.hadError = false ∧
        ∃ a', u.build intern mem.field = some (globals, a') ∧ p'.sema = a'.sema.leave := by
  have hclean : Clean (terminals ts.tokens) := htoks ▸ u.clean
  unfold CompUnit.build at hB ⊢
  -- The first token.
  apply Prog.meets_bind (R := fun _ q => Clear q ∧ q.input = u.toks ∧ q.sema = Sema.init ∧
    q.allocs = 0 ∧ q.fresh = mem.field)
  · unfold advance
    apply Prog.meets_bind (R := fun _ q => q.rest = ts.tokens ∧ q.panicMode = false ∧
      q.ctx.hadError = false ∧ q.sema = Sema.init ∧ q.allocs = 0 ∧ q.fresh = mem.field)
    · exact Prog.meets_step rfl ⟨rfl, rfl, rfl, rfl, rfl, rfl⟩
    · rintro _ q ⟨hrest, hpanic, herror, hsema, hallocs, hfresh⟩
      rw [Prog.run_read_bind, hrest]
      refine (clear_advanceLoop hclean hpanic herror).mono ?_
      rintro _ q' ⟨hclear, hinput, hsema', hallocs', hfresh'⟩
      exact ⟨hclear, hinput.trans htoks.symm, hsema'.trans hsema, hallocs'.trans hallocs,
        hfresh'.trans hfresh⟩
  rintro _ q ⟨hclear, hinput, hsema, hallocs, hfresh⟩
  -- The global scope.
  apply Prog.meets_bind (R := fun _ q' => At mem.field ⟨Sema.init.enter, 0⟩ u.toks q')
  · apply Prog.meets_step rfl
    refine ⟨⟨hclear.atEnd, hclear.panicMode, hclear.hadError⟩, hinput, u.clean, ?_, ?_, hallocs,
      hfresh⟩
    · exact ⟨by simp [Sema.enter], by simp [Sema.enter, Sema.init]⟩
    · rw [hsema]
  intro _ q₁ hq₁
  refine Prog.meets_bind (builds_builtins intern builtins hq₁ ?_) ?_
  · intro hnone
    apply hB
    simp [hnone]
  rintro _ q₂ ⟨σ, hσ, hq₂⟩
  refine Prog.meets_bind (builds_items u hu hgreedy [] n hq₂ ?_) ?_
  · intro hnone
    apply hB
    simp [hσ, hnone]
  rintro _ q₃ ⟨ns, a', hns, rfl, herror, hsema'⟩
  apply Prog.meets_bind (R := fun _ q => q.ctx.hadError = false ∧ q.sema = a'.sema.leave)
  · exact Prog.meets_step rfl ⟨herror, by rw [hsema']⟩
  rintro _ q₄ ⟨herror', hsema''⟩
  exact Prog.meets_pure ⟨herror', a', by simp [hσ, hns], hsema''⟩

end

/-! ## Acceptance -/

/-- What is accepted is the text of a tree, and what the parser returns is what is built
for the tree. -/
theorem build_of_accepted {intern : List UInt8 → Symbol} {mem : Memory} {ts : TokenStream}
    {globals : List Node} {p : Parser}
    (h : (parserRun intern mem ts).outcome = .done globals p) (herror : p.ctx.hadError = false) :
    ∃ u : CompUnit, u.WellFormed ∧ u.Greedy ∧ u.toks = terminals ts.tokens ∧
      ∃ a, u.build intern mem.field = some (globals, a) ∧ p.sema = a.sema.leave := by
  obtain ⟨u, hu, hgreedy, htoks⟩ := exists_greedy (derives_of_accepted ⟨globals, p, h, herror⟩)
  have hbuilds := builds_parserProgram (B := True) (n := budget ts.tokens.length) intern mem hu
    hgreedy htoks fun _ => trivial
  have hnone : ∀ st ∈ (parserRun intern mem ts).steps, ¬ (semanticOnly True).escape st := by
    rintro st hst ⟨_, hsemantic⟩
    have hquiet := not_isError_of_accepted h herror hst
    unfold Event.isSemantic at hsemantic
    split at hsemantic <;> simp_all [Event.isError]
  obtain ⟨_, a, ha, hsema⟩ := hbuilds.of_done hnone h
  exact ⟨u, hu, hgreedy, htoks, a, ha, hsema⟩

/-- The text of a tree that can be built is accepted. -/
theorem accepted_of_build {intern : List UInt8 → Symbol} {mem : Memory} {ts : TokenStream}
    {u : CompUnit} (hu : u.WellFormed) (hgreedy : u.Greedy)
    (htoks : u.toks = terminals ts.tokens)
    (h : (u.build intern mem.field).isSome = true) : Accepts intern mem ts := by
  have hbuilds := builds_parserProgram (B := False) (n := budget ts.tokens.length) intern mem hu
    hgreedy htoks fun hnone => by simp [hnone] at h
  have hnone : ∀ st ∈ (parserRun intern mem ts).steps, ¬ (semanticOnly False).escape st :=
    fun _ _ hfalse => hfalse.1.1
  cases hout : (parserRun intern mem ts).outcome with
  | done globals p => exact ⟨globals, p, hout, (hbuilds.of_done hnone hout).1⟩
  | fault p => exact absurd (hbuilds.of_fault hnone hout) id
  | timeout => exact absurd hout (parserRun_ne_timeout intern mem ts)

end Parser

end Cact
