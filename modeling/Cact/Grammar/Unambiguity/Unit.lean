import Cact.Grammar.DanglingElse
import Cact.Grammar.Unambiguity.Expr

/-!
# Compilation units can be read back

What expressions do, declarations, statements and functions do as well, as soon as it is fixed
which {lit}`if` an {lit}`else` belongs to.  There is no other choice: two derivations of a text
differ in that only.

Main results:

- Theorem {lit}`Decl.decodes`: declarations can be read back.
- Theorem {lit}`Stmt.decodes`: statements can be read back, with each {lit}`else` at the
  nearest {lit}`if`.
- Theorem {lit}`CompUnit.toks_inj`: no two derivations of this kind have the same text.
- Theorem {lit}`CompUnit.toks_eq_iff`: two derivations have the same text exactly if they
  differ at most in where their {lit}`else` branches belong.
-/

open Decoding

namespace Cact

namespace Grammar

open Cact.Parser (isExprStart isStmtStart isDecl)

/-! ## Initializers -/

/-- The text of an expression does not begin with what begins no expression. -/
theorem Expr.toks_ne {e : Expr} {ts us : List Terminal} {kind : TokenKind}
    (hkind : isExprStart kind = false) : e.toks ++ ts ≠ .fixed kind :: us := by
  intro heq
  exact ne_of_class (e.starts.follow ts) hkind (by rw [heq]; rfl)

/-- What may stand behind an element of a brace list. -/
def ElemFits (e : Elem) (ts : List Terminal) : Prop :=
  e.WellFormed ∧ isStop (follow ts) = true

/-- No element begins with a closing brace. -/
theorem Elem.toks_ne {e : Elem} {ts us : List Terminal} :
    e.toks ++ ts ≠ .fixed .rBrace :: us := by
  cases e with
  | value e => exact e.toks_ne rfl
  | list es => simp [Elem.toks]

/-- Elements, up to the closing brace. -/
theorem decodes_elems {es : List Elem} (h : ∀ e ∈ es, Decodes Elem.toks ElemFits e) :
    Decodes (fun es => Grammar.separated (elemToks es))
      (fun es ts => elemsWellFormed es ∧ ∃ us, ts = .fixed .rBrace :: us) es := by
  have hsep : Decodes (Decoding.separated (.fixed .comma) Elem.toks)
      (fun es ts => (∀ e ∈ es, e.WellFormed) ∧ ∃ us, ts = .fixed .rBrace :: us) es := by
    refine decodes_separated h ?_ ?_ ?_
    · rintro e ts he (⟨us, rfl⟩ | ⟨us, rfl⟩)
      · exact ⟨he, rfl⟩
      · exact ⟨he, rfl⟩
    · rintro e ts _ ⟨us, heq⟩
      exact e.toks_ne heq
    · rintro us ⟨us', heq⟩
      cases heq
  refine Decodes.of_parts id hsep Function.injective_id (fun es => ?_) fun es ts hes => ?_
  · rw [elemToks_eq, separated_eq]
    rfl
  · exact ⟨(elemsWellFormed_iff es).mp hes.1, hes.2⟩

mutual

/-- An element can be read back. -/
theorem Elem.decodes : ∀ e : Elem, Decodes Elem.toks ElemFits e
  | .value e => by
      rintro e' ts us ⟨he, hts⟩ ⟨he', hus⟩ heq
      cases e' with
      | value e' =>
          obtain ⟨rfl, hrest⟩ :=
            e.readable.decodes_arg (e.fits_arg he hts) (e'.fits_arg he' hus) heq
          exact ⟨rfl, hrest⟩
      | list es => exact absurd heq (e.toks_ne rfl)
  | .list es => by
      rintro e' ts us ⟨he, _⟩ ⟨he', _⟩ heq
      cases e' with
      | value e' => exact absurd heq.symm (e'.toks_ne rfl)
      | list es' =>
          have heq : Grammar.separated (elemToks es) ++ .fixed .rBrace :: ts =
              Grammar.separated (elemToks es') ++ .fixed .rBrace :: us := by
            simpa [Elem.toks] using heq
          obtain ⟨rfl, hrest⟩ := decodes_elems (elems_decode es) ⟨he, ts, rfl⟩ ⟨he', us, rfl⟩ heq
          exact ⟨rfl, (List.cons.inj hrest).2⟩

/-- So can each element of a list. -/
theorem elems_decode : ∀ es : List Elem, ∀ e ∈ es, Decodes Elem.toks ElemFits e
  | [], _, h => absurd h List.not_mem_nil
  | e :: es, e', h => by
      rcases List.mem_cons.mp h with heq | h
      · rw [heq]
        exact e.decodes
      · exact elems_decode es e' h

end

/-- So can an initializer. -/
theorem Init.decodes (init : Init) :
    Decodes Init.toks (fun init ts => init.WellFormed ∧ isStop (follow ts) = true) init := by
  rintro init' ts us ⟨h, hts⟩ ⟨h', hus⟩ heq
  cases init with
  | expr e =>
      cases init' with
      | expr e' =>
          obtain ⟨rfl, hrest⟩ := e.decodes (e.fits_stop h hts) (e'.fits_stop h' hus) heq
          exact ⟨rfl, hrest⟩
      | list es => exact absurd heq (e.toks_ne rfl)
  | list es =>
      cases init' with
      | expr e' => exact absurd heq.symm (e'.toks_ne rfl)
      | list es' =>
          have hfits : ElemFits (.list es') us := ⟨h', hus⟩
          obtain ⟨hes, hrest⟩ := (Elem.list es).decodes ⟨h, hts⟩ hfits heq
          exact ⟨congrArg Init.list (Elem.list.inj hes), hrest⟩

/-! ## Declarations -/

/-- So can dimensions. -/
theorem decodes_dims (dims : List Int32) :
    Decodes (List.flatMap dimToks)
      (fun _ ts => follow ts ≠ .lBracket) dims := by
  have hdim : ∀ len ∈ dims, Decodes dimToks (fun _ _ => True) len := by
    intro len _ len' ts us _ _ heq
    simpa [dimToks] using heq
  have hmany : Decodes (List.flatMap dimToks)
      (Ahead dimToks (fun _ _ => True) fun ts => follow ts ≠ .lBracket) dims :=
    decodes_many hdim fun len ts _ hstop => hstop rfl
  exact hmany.restrict fun dims ts hts =>
    ahead_of_forall (P := fun _ => True) (fun _ _ => trivial) hts fun _ _ _ _ => trivial

/-- A declared variable, in front of a comma or a semicolon. -/
def DeclaratorFits (d : Declarator) (ts : List Terminal) : Prop :=
  (∀ init, d.init = some init → init.WellFormed) ∧ isStop (follow ts) = true

/-- So can an initializer that may be missing. -/
theorem decodes_init (o : Option Init) :
    Decodes initToks (fun o ts => (∀ init, o = some init → init.WellFormed) ∧
      isStop (follow ts) = true) o := by
  have hinit : ∀ init : Init, Decodes (fun init : Init => .fixed .assign :: init.toks)
      (fun init ts => init.WellFormed ∧ isStop (follow ts) = true) init := by
    intro init init' ts us h h' heq
    exact init.decodes h h' (List.cons.inj heq).2
  have hoption : Decodes (fun o => (o.map fun init : Init => .fixed .assign :: init.toks).getD [])
      (Possibly (fun init ts => init.WellFormed ∧ isStop (follow ts) = true)
        fun ts => isStop (follow ts) = true) o :=
    decodes_option (fun init _ => hinit init) fun init ts _ hstop => by cases hstop
  refine Decodes.of_parts id hoption Function.injective_id ?_ ?_
  · intro o
    cases o <;> rfl
  · rintro (_ | init) ts ⟨hinit, hts⟩
    · exact hts
    · exact ⟨hinit init rfl, hts⟩

/-- So can a declarator. -/
theorem Declarator.decodes (d : Declarator) : Decodes Declarator.toks DeclaratorFits d := by
  have hname : Decodes (fun name => [Terminal.ident name]) (fun _ _ => True) d.name :=
    decodes_token (fun _ _ h => Terminal.ident.inj h) d.name
  refine Decodes.of_parts (fun d : Declarator => (d.name, d.dims, d.init))
    (hname.pair ((decodes_dims d.dims).pair (decodes_init d.init))) ?_ (fun _ => rfl) ?_
  · rintro ⟨name, dims, init⟩ ⟨name', dims', init'⟩ h
    simpa using h
  · rintro d ts ⟨hinit, hts⟩
    refine ⟨trivial, ?_, hinit, hts⟩
    cases hd : d.init with
    | none =>
        intro hbracket
        rw [initToks, List.nil_append] at hbracket
        rw [hbracket] at hts
        cases hts
    | some init => simp [initToks]

/-- The keywords in front of a declaration or of a function. -/
theorem prefix_inj {c c' : Bool} {ty ty' : BaseTy} {ts us : List Terminal}
    (h : constToks c ++ .fixed ty.kind :: ts = constToks c' ++ .fixed ty'.kind :: us) :
    c = c' ∧ ty = ty' ∧ ts = us := by
  cases c <;> cases c' <;> cases ty <;> cases ty' <;> simp_all [constToks, BaseTy.kind]

/-- Declared variables, up to the semicolon. -/
theorem decodes_declarators (ds : List Declarator) :
    Decodes (fun ds => Grammar.separated (ds.map Declarator.toks))
      (fun ds ts => (∀ d ∈ ds, ∀ init, d.init = some init → init.WellFormed) ∧
        follow ts = .semicolon) ds := by
  have hsep : Decodes (Decoding.separated (.fixed .comma) Declarator.toks)
      (fun ds ts => (∀ d ∈ ds, ∀ init, d.init = some init → init.WellFormed) ∧
        follow ts = .semicolon) ds := by
    refine decodes_separated (fun d _ => d.decodes) ?_ ?_ ?_
    · rintro d ts hd (hstop | ⟨us, rfl⟩)
      · exact ⟨hd, by rw [hstop]; rfl⟩
      · exact ⟨hd, rfl⟩
    · intro d ts _ hstop
      cases hstop
    · intro us hstop
      cases hstop
  exact Decodes.of_parts id hsep Function.injective_id (fun ds => separated_eq _ ds)
    fun _ _ h => h

/-- So can a declaration. -/
theorem Decl.decodes (d : Decl) : Decodes Decl.toks (fun d _ => d.WellFormed) d := by
  intro d' ts us hd hd' heq
  obtain ⟨c, ty, first, more⟩ := d
  obtain ⟨c', ty', first', more'⟩ := d'
  simp only [Decl.toks, List.append_assoc, List.cons_append, List.nil_append] at heq
  obtain ⟨rfl, rfl, hrest⟩ := prefix_inj heq
  obtain ⟨hds, hend⟩ := decodes_declarators (first :: more) ⟨fun d hmem => (hd d hmem).1, rfl⟩
    ⟨fun d hmem => (hd' d hmem).1, rfl⟩ hrest
  obtain ⟨rfl, rfl⟩ := List.cons.inj hds
  exact ⟨rfl, (List.cons.inj hend).2⟩

/-! ## Statements -/

/-- A statement in front of what cannot belong to it. -/
structure StmtFits (s : Stmt) (ts : List Terminal) : Prop where
  wellFormed : s.WellFormed
  greedy : s.Greedy
  alone : s.isOpen = true → follow ts ≠ .kwElse

/-- The keyword or brace that a statement begins with, unless it begins with an expression. -/
def Stmt.keyword : Stmt → Option TokenKind
  | .ifThen _ _ | .ifElse _ _ _ => some .kwIf
  | .while _ _ => some .kwWhile
  | .ret _ => some .kwReturn
  | .break => some .kwBreak
  | .continue => some .kwContinue
  | .block _ => some .lBrace
  | .expr _ | .assign _ _ => none

/-- The first token of a statement says of what form it is. -/
theorem Stmt.keyword_eq (s : Stmt) (ts : List Terminal) :
    s.keyword = if isExprStart (follow (s.toks ++ ts)) then none
      else some (follow (s.toks ++ ts)) := by
  cases s with
  | expr e =>
      rw [Stmt.toks, List.append_assoc, if_pos (e.starts.follow _)]
      rfl
  | assign lhs rhs =>
      rw [Stmt.toks, List.append_assoc, if_pos (lhs.starts.follow _)]
      rfl
  | _ => rfl

/-- Statements with one text are of one form. -/
theorem keyword_inj {s s' : Stmt} {ts us : List Terminal} (h : s.toks ++ ts = s'.toks ++ us) :
    s.keyword = s'.keyword := by
  rw [s.keyword_eq ts, s'.keyword_eq us, h]

/-- Conditions with one text are one condition. -/
theorem cond_inj {cond cond' : Expr} {ts us : List Terminal} (h : cond.Operand)
    (h' : cond'.Operand) (heq : condToks cond ++ ts = condToks cond' ++ us) :
    cond = cond' ∧ ts = us := by
  have heq : cond.toks ++ .fixed .rParen :: ts = cond'.toks ++ .fixed .rParen :: us := by
    simpa [condToks] using heq
  exact closed_inj cond.decodes rfl h h' heq

/-- The value of a return statement, in front of the semicolon. -/
theorem value_inj {value value' : Option Expr} {ts us : List Terminal}
    (h : ∀ e, value = some e → e.Operand) (h' : ∀ e, value' = some e → e.Operand)
    (heq : (value.map Expr.toks).getD [] ++ .fixed .semicolon :: ts =
      (value'.map Expr.toks).getD [] ++ .fixed .semicolon :: us) : value = value' ∧ ts = us := by
  have hoption : Decodes (fun o : Option Expr => (o.map Expr.toks).getD [])
      (Possibly (Expr.Fits 0) fun ts => follow ts = .semicolon) value := by
    refine decodes_option (fun e _ => e.decodes) fun e ts _ hstop => ?_
    exact ne_of_class (e.starts.follow ts) rfl hstop
  have hfits : ∀ {o : Option Expr} {ts : List Terminal}, (∀ e, o = some e → e.Operand) →
      Possibly (Expr.Fits 0) (fun ts => follow ts = .semicolon) o (.fixed .semicolon :: ts) := by
    intro o ts ho
    cases o with
    | none => rfl
    | some e => exact e.fits_stop (ho e rfl) rfl
  obtain ⟨rfl, hrest⟩ := hoption (hfits h) (hfits h') heq
  exact ⟨rfl, (List.cons.inj hrest).2⟩

/-- An item of a block in front of what cannot belong to it. -/
def ItemFits : BlockItem → List Terminal → Prop
  | .decl d, _ => d.WellFormed
  | .stmt s, ts => StmtFits s ts

/-- A block gives every {lit}`else` to the nearest {lit}`if` if each of its items does. -/
theorem blockGreedy_iff (items : List BlockItem) :
    blockGreedy items ↔ ∀ item ∈ items, item.Greedy := by
  induction items with
  | nil => simp [blockGreedy]
  | cons item items ih => simp [blockGreedy, ih]

/-- A declaration begins with a keyword that begins no statement. -/
theorem decl_ne_stmt (d : Decl) (s : Stmt) (ts us : List Terminal) :
    d.toks ++ ts ≠ s.toks ++ us := by
  intro heq
  have hdecl : isDecl (follow (s.toks ++ us)) = true := by
    rw [← heq]
    exact d.starts.follow ts
  have hstmt : isStmtStart (follow (s.toks ++ us)) = true := s.starts.follow us
  generalize follow (s.toks ++ us) = kind at hdecl hstmt
  cases kind <;> first | cases hdecl; done | cases hstmt

/-- The items of a block, up to the closing brace. -/
theorem decodes_block {items : List BlockItem}
    (h : ∀ item ∈ items, Decodes BlockItem.toks ItemFits item) :
    Decodes blockToks
      (fun items ts => (blockWellFormed items ∧ blockGreedy items) ∧ follow ts = .rBrace)
      items := by
  have hstart : ∀ (item : BlockItem) (ts : List Terminal) (kind : TokenKind),
      (isDecl kind || isStmtStart kind) = false → follow (item.toks ++ ts) ≠ kind :=
    fun item ts kind hkind heq => by
      rw [← heq, item.starts.follow ts] at hkind
      cases hkind
  have hmany : Decodes (List.flatMap BlockItem.toks)
      (Ahead BlockItem.toks ItemFits fun ts => follow ts = .rBrace) items :=
    decodes_many h fun item ts _ => hstart item ts .rBrace rfl
  refine Decodes.of_parts id hmany Function.injective_id blockToks_eq ?_
  rintro items ts ⟨⟨hwf, hgreedy⟩, hend⟩
  have hitems : ∀ item ∈ items, item.WellFormed ∧ item.Greedy := fun item hmem =>
    ⟨(blockWellFormed_iff items).mp hwf item hmem, (blockGreedy_iff items).mp hgreedy item hmem⟩
  refine ahead_of_forall hitems hend fun item ts hitem hnext => ?_
  cases item with
  | decl d => exact hitem.1
  | stmt s =>
      refine ⟨hitem.1, hitem.2, fun _ => ?_⟩
      rcases hnext with hend | ⟨next, us, _, rfl⟩
      · rw [hend]
        decide
      · exact hstart next us .kwElse rfl

section

variable {cond cond' : Expr} {body body' branch : Stmt} {ts us : List Terminal}

/-- The branch of an {lit}`if` fits where the statement does. -/
theorem StmtFits.body_of_ifThen (h : StmtFits (.ifThen cond body) ts) : StmtFits body ts :=
  ⟨h.wellFormed.2, h.greedy, fun _ => h.alone rfl⟩

/-- The {lit}`else` behind a branch does not belong to the branch. -/
theorem StmtFits.body_of_ifElse (h : StmtFits (.ifElse cond body branch) ts) (us : List Terminal) :
    StmtFits body us :=
  ⟨h.wellFormed.2.1, h.greedy.2.1, fun hopen => by rw [h.greedy.1] at hopen; cases hopen⟩

/-- So does the second branch. -/
theorem StmtFits.alt_of_ifElse (h : StmtFits (.ifElse cond body branch) ts) : StmtFits branch ts :=
  ⟨h.wellFormed.2.2, h.greedy.2.2, h.alone⟩

/-- So does the body of a loop. -/
theorem StmtFits.body_of_while (h : StmtFits (.while cond body) ts) : StmtFits body ts :=
  ⟨h.wellFormed.2, h.greedy, h.alone⟩

/-- A condition and the statement that depends on it. -/
theorem controlled_inj (hbody : Decodes Stmt.toks StmtFits body) (hcond : cond.Operand)
    (hcond' : cond'.Operand) (hfits : StmtFits body ts) (hfits' : StmtFits body' us)
    (heq : condToks cond ++ (body.toks ++ ts) = condToks cond' ++ (body'.toks ++ us)) :
    cond = cond' ∧ body = body' ∧ ts = us := by
  obtain ⟨hconds, hrest⟩ := cond_inj hcond hcond' heq
  obtain ⟨hbodies, hend⟩ := hbody hfits hfits' hrest
  exact ⟨hconds, hbodies, hend⟩

/-- A semicolon ends an expression statement, an assignment goes on behind its left side. -/
theorem expr_ne_assign {e lhs : Expr} (h : e.Operand) (h' : lhs.Operand) :
    e.toks ++ .fixed .semicolon :: ts ≠ lhs.toks ++ .fixed .assign :: us := by
  intro heq
  obtain ⟨_, hrest⟩ := e.decodes (e.fits_stop h rfl) (lhs.fits_assign h') heq
  cases hrest

end

mutual

/-- A statement can be read back, by induction on its form. -/
theorem Stmt.decodes : ∀ s : Stmt, Decodes Stmt.toks StmtFits s
  | .ifThen cond body => by
      intro s' ts us h h' heq
      have hkeyword := keyword_inj heq
      cases s' with
      | ifThen cond' body' =>
          have heq : condToks cond ++ (body.toks ++ ts) = condToks cond' ++ (body'.toks ++ us) := by
            simpa [Stmt.toks] using heq
          obtain ⟨rfl, rfl, hend⟩ := controlled_inj body.decodes h.wellFormed.1 h'.wellFormed.1
            h.body_of_ifThen h'.body_of_ifThen heq
          exact ⟨rfl, hend⟩
      | ifElse cond' body' alt' =>
          have heq : condToks cond ++ (body.toks ++ ts) =
              condToks cond' ++ (body'.toks ++ .fixed .kwElse :: (alt'.toks ++ us)) := by
            simpa [Stmt.toks] using heq
          obtain ⟨_, _, hts⟩ := controlled_inj body.decodes h.wellFormed.1 h'.wellFormed.1
            h.body_of_ifThen (h'.body_of_ifElse _) heq
          exact absurd (by rw [hts]; rfl) (h.alone rfl)
      | _ => cases hkeyword
  | .ifElse cond body alt => by
      intro s' ts us h h' heq
      have hkeyword := keyword_inj heq
      cases s' with
      | ifThen cond' body' =>
          have heq : condToks cond ++ (body.toks ++ .fixed .kwElse :: (alt.toks ++ ts)) =
              condToks cond' ++ (body'.toks ++ us) := by
            simpa [Stmt.toks] using heq
          obtain ⟨_, _, hus⟩ := controlled_inj body.decodes h.wellFormed.1 h'.wellFormed.1
            (h.body_of_ifElse _) h'.body_of_ifThen heq
          exact absurd (by rw [← hus]; rfl) (h'.alone rfl)
      | ifElse cond' body' alt' =>
          have heq : condToks cond ++ (body.toks ++ .fixed .kwElse :: (alt.toks ++ ts)) =
              condToks cond' ++ (body'.toks ++ .fixed .kwElse :: (alt'.toks ++ us)) := by
            simpa [Stmt.toks] using heq
          obtain ⟨rfl, rfl, hbranch⟩ := controlled_inj body.decodes h.wellFormed.1
            h'.wellFormed.1 (h.body_of_ifElse _) (h'.body_of_ifElse _) heq
          obtain ⟨rfl, hend⟩ :=
            alt.decodes h.alt_of_ifElse h'.alt_of_ifElse (List.cons.inj hbranch).2
          exact ⟨rfl, hend⟩
      | _ => cases hkeyword
  | .while cond body => by
      intro s' ts us h h' heq
      have hkeyword := keyword_inj heq
      cases s' with
      | «while» cond' body' =>
          have heq : condToks cond ++ (body.toks ++ ts) = condToks cond' ++ (body'.toks ++ us) := by
            simpa [Stmt.toks] using heq
          obtain ⟨rfl, rfl, hend⟩ := controlled_inj body.decodes h.wellFormed.1 h'.wellFormed.1
            h.body_of_while h'.body_of_while heq
          exact ⟨rfl, hend⟩
      | _ => cases hkeyword
  | .ret value => by
      intro s' ts us h h' heq
      have hkeyword := keyword_inj heq
      cases s' with
      | ret value' =>
          have heq : (value.map Expr.toks).getD [] ++ .fixed .semicolon :: ts =
              (value'.map Expr.toks).getD [] ++ .fixed .semicolon :: us := by
            simpa [Stmt.toks] using heq
          obtain ⟨rfl, hend⟩ := value_inj h.wellFormed h'.wellFormed heq
          exact ⟨rfl, hend⟩
      | _ => cases hkeyword
  | .break => by
      intro s' ts us _ _ heq
      have hkeyword := keyword_inj heq
      cases s' with
      | «break» => exact ⟨rfl, List.append_cancel_left heq⟩
      | _ => cases hkeyword
  | .continue => by
      intro s' ts us _ _ heq
      have hkeyword := keyword_inj heq
      cases s' with
      | «continue» => exact ⟨rfl, List.append_cancel_left heq⟩
      | _ => cases hkeyword
  | .block items => by
      intro s' ts us h h' heq
      have hkeyword := keyword_inj heq
      cases s' with
      | block items' =>
          have heq : blockToks items ++ .fixed .rBrace :: ts =
              blockToks items' ++ .fixed .rBrace :: us := by
            simpa [Stmt.toks] using heq
          obtain ⟨rfl, hrest⟩ := decodes_block (block_decodes items)
            ⟨⟨h.wellFormed, h.greedy⟩, rfl⟩ ⟨⟨h'.wellFormed, h'.greedy⟩, rfl⟩ heq
          exact ⟨rfl, (List.cons.inj hrest).2⟩
      | _ => cases hkeyword
  | .expr e => by
      intro s' ts us h h' heq
      have hkeyword := keyword_inj heq
      cases s' with
      | expr e' =>
          have heq : e.toks ++ .fixed .semicolon :: ts = e'.toks ++ .fixed .semicolon :: us := by
            simpa [Stmt.toks] using heq
          obtain ⟨rfl, hend⟩ := closed_inj e.decodes rfl h.wellFormed h'.wellFormed heq
          exact ⟨rfl, hend⟩
      | assign lhs' rhs' =>
          have heq : e.toks ++ .fixed .semicolon :: ts =
              lhs'.toks ++ .fixed .assign :: (rhs'.toks ++ .fixed .semicolon :: us) := by
            simpa [Stmt.toks] using heq
          exact absurd heq (expr_ne_assign h.wellFormed h'.wellFormed.1)
      | _ => cases hkeyword
  | .assign lhs rhs => by
      intro s' ts us h h' heq
      have hkeyword := keyword_inj heq
      cases s' with
      | expr e' =>
          have heq : lhs.toks ++ .fixed .assign :: (rhs.toks ++ .fixed .semicolon :: ts) =
              e'.toks ++ .fixed .semicolon :: us := by
            simpa [Stmt.toks] using heq
          exact absurd heq.symm (expr_ne_assign h'.wellFormed h.wellFormed.1)
      | assign lhs' rhs' =>
          have heq : lhs.toks ++ .fixed .assign :: (rhs.toks ++ .fixed .semicolon :: ts) =
              lhs'.toks ++ .fixed .assign :: (rhs'.toks ++ .fixed .semicolon :: us) := by
            simpa [Stmt.toks] using heq
          obtain ⟨rfl, hrest⟩ := lhs.decodes (lhs.fits_assign h.wellFormed.1)
            (lhs'.fits_assign h'.wellFormed.1) heq
          obtain ⟨rfl, hend⟩ := closed_inj rhs.decodes rfl h.wellFormed.2 h'.wellFormed.2
            (List.cons.inj hrest).2
          exact ⟨rfl, hend⟩
      | _ => cases hkeyword

/-- So can an item of a block. -/
theorem BlockItem.decodes : ∀ item : BlockItem, Decodes BlockItem.toks ItemFits item
  | .decl d => by
      intro item' ts us h h' heq
      cases item' with
      | decl d' =>
          obtain ⟨rfl, hend⟩ := d.decodes h h' heq
          exact ⟨rfl, hend⟩
      | stmt s => exact absurd heq (decl_ne_stmt d s ts us)
  | .stmt s => by
      intro item' ts us h h' heq
      cases item' with
      | decl d => exact absurd heq.symm (decl_ne_stmt d s us ts)
      | stmt s' =>
          obtain ⟨rfl, hend⟩ := s.decodes h h' heq
          exact ⟨rfl, hend⟩

/-- So can each item of a block. -/
theorem block_decodes : ∀ items : List BlockItem,
    ∀ item ∈ items, Decodes BlockItem.toks ItemFits item
  | [], _, h => absurd h List.not_mem_nil
  | item :: items, item', h => by
      rcases List.mem_cons.mp h with heq | h
      · rw [heq]
        exact item.decodes
      · exact block_decodes items item' h

end

/-! ## Functions -/

/-- So can the dimensions of a parameter. -/
theorem ParamDims.decodes (d : ParamDims) :
    Decodes ParamDims.toks (fun _ ts => follow ts ≠ .lBracket) d := by
  intro d' ts us hts hus heq
  obtain ⟨first, more⟩ := d
  obtain ⟨first', more'⟩ := d'
  have heq : (first.map Terminal.litInt).toList ++
        .fixed .rBracket :: (more.flatMap dimToks ++ ts) =
      (first'.map Terminal.litInt).toList ++
        .fixed .rBracket :: (more'.flatMap dimToks ++ us) := by
    simpa [ParamDims.toks] using heq
  obtain ⟨rfl, hrest⟩ : first = first' ∧ more.flatMap dimToks ++ ts =
      more'.flatMap dimToks ++ us := by
    cases first <;> cases first' <;> simp_all
  obtain ⟨rfl, hend⟩ := decodes_dims more hts hus hrest
  exact ⟨rfl, hend⟩

/-- Different base types have different words. -/
theorem BaseTy.kind_injective : Function.Injective BaseTy.kind := by
  intro ty ty' h
  cases ty <;> cases ty' <;> first | rfl | cases h

/-- A parameter, in front of a comma or the closing parenthesis. -/
theorem Param.decodes (p : Param) :
    Decodes Param.toks (fun _ ts => isStop (follow ts) = true) p := by
  have hty : Decodes (fun ty : BaseTy => [Terminal.fixed ty.kind]) (fun _ _ => True) p.ty :=
    decodes_token (fun _ _ h => BaseTy.kind_injective (Terminal.fixed.inj h)) p.ty
  have hname : Decodes (fun name => [Terminal.ident name]) (fun _ _ => True) p.name :=
    decodes_token (fun _ _ h => Terminal.ident.inj h) p.name
  have hdims : Decodes (fun o : Option ParamDims => (o.map ParamDims.toks).getD [])
      (Possibly (fun _ ts => follow ts ≠ .lBracket) fun ts => isStop (follow ts) = true)
      p.dims :=
    decodes_option (fun d _ => d.decodes) fun d ts _ hstop => by cases hstop
  refine Decodes.of_parts (fun p : Param => (p.ty, p.name, p.dims)) (hty.pair (hname.pair hdims))
    ?_ (fun _ => rfl) ?_
  · rintro ⟨ty, name, dims⟩ ⟨ty', name', dims'⟩ h
    simpa using h
  · intro p ts hts
    refine ⟨trivial, trivial, ?_⟩
    cases p.dims with
    | none => exact hts
    | some d =>
        intro hbracket
        rw [hbracket] at hts
        cases hts

/-- Parameters can be read back. -/
theorem decodes_params (ps : List Param) :
    Decodes (fun ps => Grammar.separated (ps.map Param.toks)) (fun _ ts => follow ts = .rParen)
      ps := by
  have hsep : Decodes (Decoding.separated (.fixed .comma) Param.toks)
      (fun ps ts => (∀ p ∈ ps, True) ∧ follow ts = .rParen) ps := by
    refine decodes_separated (fun p _ => p.decodes) ?_ ?_ ?_
    · rintro p ts _ (hstop | ⟨us, rfl⟩)
      · rw [hstop]
        rfl
      · rfl
    · intro p ts _ hstop
      have hkind : p.ty.kind = .rParen := hstop
      cases hty : p.ty <;> rw [hty] at hkind <;> cases hkind
    · intro us hstop
      cases hstop
  exact Decodes.of_parts id hsep Function.injective_id (fun ps => separated_eq _ ps)
    fun _ _ h => ⟨fun _ _ => trivial, h⟩

/-- So can a function. -/
theorem Func.decodes (f : Func) :
    Decodes Func.toks (fun f _ => blockWellFormed f.body ∧ blockGreedy f.body) f := by
  intro f' ts us hf hf' heq
  obtain ⟨c, ty, name, params, body⟩ := f
  obtain ⟨c', ty', name', params', body'⟩ := f'
  simp only [Func.toks, List.append_assoc, List.cons_append, List.nil_append] at heq
  obtain ⟨rfl, rfl, hrest⟩ := prefix_inj heq
  obtain ⟨hname, hparams⟩ := List.cons.inj hrest
  obtain rfl := Terminal.ident.inj hname
  obtain ⟨rfl, hbody⟩ := decodes_params params rfl rfl (List.cons.inj hparams).2
  obtain ⟨rfl, hend⟩ := decodes_block (block_decodes body) ⟨hf, rfl⟩ ⟨hf', rfl⟩
    (List.cons.inj (List.cons.inj hbody).2).2
  exact ⟨rfl, (List.cons.inj hend).2⟩

/-! ## Compilation units -/

/-- Behind the name of a declarator stands no parenthesis. -/
theorem Declarator.follow_tail (d : Declarator) {ts : List Terminal}
    (hts : isStop (follow ts) = true) : follow (d.tailToks ++ ts) ≠ .lParen := by
  obtain ⟨name, dims, init⟩ := d
  cases dims with
  | cons len dims => simp [Declarator.tailToks, dimToks]
  | nil =>
      cases init with
      | some init => simp [Declarator.tailToks, initToks]
      | none =>
          intro hparen
          rw [Declarator.tailToks, initToks, List.flatMap_nil, List.nil_append,
            List.nil_append] at hparen
          rw [hparen] at hts
          cases hts

/-- The name of a function stands in front of a parenthesis, that of a variable does not. -/
theorem func_ne_decl (f : Func) (d : Decl) (ts us : List Terminal) :
    f.toks ++ ts ≠ d.toks ++ us := by
  intro heq
  simp only [Func.toks, Decl.toks, separated_eq, Decl.declarators, Decoding.separated,
    Declarator.toks, List.append_assoc, List.cons_append, List.nil_append] at heq
  obtain ⟨_, _, hrest⟩ := prefix_inj heq
  have hparen := (List.cons.inj hrest).2
  have hstop : isStop (follow (separators (.fixed .comma) Declarator.toks d.more ++
      .fixed .semicolon :: us)) = true := by
    cases d.more <;> rfl
  exact d.first.follow_tail hstop (by rw [← hparen]; rfl)

/-- A top-level item can be read back; the parenthesis tells a function from a declaration. -/
theorem Item.decodes (item : Item) :
    Decodes Item.toks (fun item _ => item.WellFormed ∧ item.Greedy) item := by
  intro item' ts us h h' heq
  cases item with
  | func f =>
      cases item' with
      | func f' =>
          obtain ⟨rfl, hend⟩ := f.decodes h h' heq
          exact ⟨rfl, hend⟩
      | decl d => exact absurd heq (func_ne_decl f d ts us)
  | decl d =>
      cases item' with
      | func f => exact absurd heq.symm (func_ne_decl f d us ts)
      | decl d' =>
          obtain ⟨rfl, hend⟩ := d.decodes h.1 h'.1 heq
          exact ⟨rfl, hend⟩

/-- No two derivations that give each {lit}`else` to the nearest {lit}`if` have the same text. -/
theorem CompUnit.toks_inj {u u' : CompUnit} (hu : u.WellFormed) (hgreedy : u.Greedy)
    (hu' : u'.WellFormed) (hgreedy' : u'.Greedy) (heq : u.toks = u'.toks) : u = u' := by
  have hmany : Decodes (List.flatMap Item.toks)
      (Ahead Item.toks (fun item _ => item.WellFormed ∧ item.Greedy) fun ts => ts = []) u := by
    refine decodes_many (fun item _ => item.decodes) fun item ts _ hnil => ?_
    have hstart := item.starts.follow ts
    rw [hnil] at hstart
    cases hstart
  have hahead : ∀ u : CompUnit, u.WellFormed → u.Greedy →
      Ahead Item.toks (fun item _ => item.WellFormed ∧ item.Greedy) (fun ts => ts = []) u [] :=
    fun u hu hgreedy => ahead_of_forall (fun item hmem => ⟨hu item hmem, hgreedy item hmem⟩) rfl
      fun _ _ hitem _ => hitem
  have htexts : u.flatMap Item.toks ++ [] = u'.flatMap Item.toks ++ [] := by
    simpa [CompUnit.toks] using heq
  exact (hmany (hahead u hu hgreedy) (hahead u' hu' hgreedy') htexts).1

/-- Two derivations have the same text exactly if they differ at most in where their
{lit}`else` branches belong. -/
theorem CompUnit.toks_eq_iff {u u' : CompUnit} (hu : u.WellFormed) (hu' : u'.WellFormed) :
    u.toks = u'.toks ↔ u.rearranged = u'.rearranged := by
  constructor
  · intro heq
    refine CompUnit.toks_inj hu.rearranged u.greedy_rearranged hu'.rearranged
      u'.greedy_rearranged ?_
    rw [u.toks_rearranged, u'.toks_rearranged, heq]
  · intro heq
    rw [← u.toks_rearranged, heq, u'.toks_rearranged]

end Grammar

end Cact
