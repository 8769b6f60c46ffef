import Cact.Parser.Precedence
import Cact.Parser.ScopeStack
import Mathlib.Data.List.Induction

/-!
# Array types

A declarator puts the dimensions around the element type in the order in which they are
read, so that the last one ends up outermost; a subscript takes the outermost one off.
Read from left to right, the first dimension should be the outermost one.

Main results:

- Definition {lit}`rowTy`: the type that the dimensions say.
- Theorem {lit}`arrayTy_eq_rowTy_iff`: when the two orders agree.
- Theorem {lit}`Expr.ty_accesses`: the type of a variable with some of its subscripts.
- Theorem {lit}`Parser.Declares.sym_ty`: the type a declared name is given.
- Theorem {lit}`array_types_left_to_right_iff`: what this means for the code.
-/

open Traced

namespace Cact

namespace Grammar

/-! ## The two orders -/

/-- An array of the first dimension, of arrays of the second one, and so on. -/
def rowTy (base : ObjTy) (dims : List Int32) : ObjTy :=
  dims.foldr (fun len ty => .array ty len) base

/-- The code reads the dimensions from the other end. -/
theorem rowTy_eq_arrayTy (base : ObjTy) (dims : List Int32) :
    rowTy base dims = arrayTy base dims.reverse := by
  unfold rowTy arrayTy
  rw [List.foldl_reverse]

theorem arrayTy_concat (base : ObjTy) (dims : List Int32) (len : Int32) :
    arrayTy base (dims ++ [len]) = .array (arrayTy base dims) len := by
  unfold arrayTy
  rw [List.foldl_append]
  rfl

/-- No base type is an array. -/
theorem BaseTy.obj_ne_array (b : BaseTy) (ty : ObjTy) (len : Int32) : b.obj ≠ .array ty len := by
  cases b <;> simp [BaseTy.obj]

/-- An array type determines its dimensions. -/
theorem arrayTy_inj (b : BaseTy) {dims dims' : List Int32}
    (h : arrayTy b.obj dims = arrayTy b.obj dims') : dims = dims' := by
  induction dims using List.reverseRecOn generalizing dims' with
  | nil =>
      induction dims' using List.reverseRecOn with
      | nil => rfl
      | append_singleton dims' len _ =>
          rw [arrayTy_concat] at h
          exact absurd h (b.obj_ne_array _ _)
  | append_singleton dims len ih =>
      induction dims' using List.reverseRecOn with
      | nil =>
          rw [arrayTy_concat] at h
          exact absurd h.symm (b.obj_ne_array _ _)
      | append_singleton dims' len' _ =>
          rw [arrayTy_concat, arrayTy_concat, ObjTy.array.injEq] at h
          rw [ih h.1, h.2]

/-- The two orders agree exactly on the dimensions that read the same from both ends. -/
theorem arrayTy_eq_rowTy_iff (b : BaseTy) (dims : List Int32) :
    arrayTy b.obj dims = rowTy b.obj dims ↔ dims = dims.reverse := by
  rw [rowTy_eq_arrayTy]
  constructor
  · exact arrayTy_inj b
  · intro h
    rw [← h]

/-- On such dimensions they also agree after some subscripts. -/
theorem arrayTy_take_eq_rowTy_drop (base : ObjTy) {dims : List Int32}
    (h : dims = dims.reverse) (k : Nat) :
    arrayTy base (dims.take (dims.length - k)) = rowTy base (dims.drop k) := by
  rw [rowTy_eq_arrayTy, List.reverse_drop, ← h]

/-! ## Subscripts -/

/-- A variable with subscripts. -/
def accesses (name : Symbol) (subs : List Expr) : Expr := subs.foldl Expr.index (.var name)

theorem accesses_concat (name : Symbol) (subs : List Expr) (sub : Expr) :
    accesses name (subs ++ [sub]) = .index (accesses name subs) sub := by
  unfold accesses
  rw [List.foldl_append]
  rfl

theorem Expr.level_designator {e : Expr} (h : e.isDesignator = true) : e.level = 12 := by
  cases e <;> first | rfl | cases h

theorem wellFormed_accesses (name : Symbol) {subs : List Expr} (h : ∀ sub ∈ subs, sub.Operand) :
    (accesses name subs).WellFormed ∧ (accesses name subs).isDesignator = true := by
  induction subs using List.reverseRecOn with
  | nil => exact ⟨trivial, rfl⟩
  | append_singleton subs sub ih =>
      have hbase := ih fun s hs => h s (List.mem_append_left _ hs)
      have hsub := h sub (by simp)
      rw [accesses_concat]
      exact ⟨⟨hbase.1, hbase.2, hsub.1, hsub.2⟩, rfl⟩

theorem callable_accesses {σ : Sema} (name : Symbol) {subs : List Expr}
    (h : ∀ sub ∈ subs, sub.Callable σ) : (accesses name subs).Callable σ := by
  induction subs using List.reverseRecOn with
  | nil => exact trivial
  | append_singleton subs sub ih =>
      rw [accesses_concat]
      exact ⟨ih fun s hs => h s (List.mem_append_left _ hs), h sub (by simp)⟩

/-- Every subscript takes off the dimension that was put around last. -/
theorem Expr.ty_accesses {σ : Sema} {name : Symbol} {sym : SemaSymbol} {base : ObjTy}
    {dims : List Int32} (hsym : σ.lookup name = some sym)
    (hty : sym.ty = some (.obj (arrayTy base dims))) (subs : List Expr)
    (hlength : subs.length ≤ dims.length) :
    ((accesses name subs).built σ).ty =
      some (.obj (arrayTy base (dims.take (dims.length - subs.length)))) := by
  induction subs using List.reverseRecOn with
  | nil =>
      have hvar : ((accesses name []).built σ).ty = sym.ty := by
        simp [accesses, Expr.built, hsym, symbolTy, Node.ty]
      rw [hvar, hty]
      simp
  | append_singleton subs sub ih =>
      simp only [List.length_append, List.length_singleton] at hlength ⊢
      have hindex : dims.length - (subs.length + 1) < dims.length := by omega
      have hlast : dims.take (dims.length - subs.length) =
          dims.take (dims.length - (subs.length + 1)) ++
            [dims[dims.length - (subs.length + 1)]] := by
        rw [List.take_append_getElem hindex]
        congr 1
        omega
      rw [accesses_concat, Expr.built, Node.ty, ih (by omega), hlast, arrayTy_concat, elementTy]

end Grammar

open Grammar

namespace Parser

/-! ## Declarations -/

/-- The parser enters the symbol {lit}`sym` for a name with the given dimensions: as a
variable, when it has read the name and is in front of the dimensions, or as a parameter,
whose first dimension may be missing, in a scope that does not have the name yet. -/
inductive Declares (ty : BaseTy) (name : Symbol) (sym : SemaSymbol) : List Int32 → Prop
  | declarator {dims : List Int32} {isConst : Bool} {n : Nat} {p q : Parser}
      {us rest : List Token} {nodeTy : Option Ty} {init : Option Node} (atEnd : AtEnd p)
      (text : us.map Token.terminal = dims.flatMap dimToks) (input : p.upcoming = us ++ rest)
      (ends : ∀ next ∈ rest.head?, next.kind ≠ .lBracket ∧ next.kind ≠ .error)
      (run : ((parseDeclarator (parseInitializerList n) (parseExpr n) n ty.obj isConst
        name).run p).outcome = .done (.varDecl nodeTy (some sym) init) q) :
      Declares ty name sym dims
  | parameter {dims : ParamDims} {funcTy n : Nat} {p q : Parser} {us rest : List Token}
      {i : Iter Unit Unit} (atEnd : AtEnd p)
      (text : us.map Token.terminal = (Param.mk ty name (some dims)).toks)
      (input : p.upcoming = us ++ rest)
      (ends : ∀ next ∈ rest.head?, next.kind ≠ .lBracket ∧ next.kind ≠ .error)
      (scope : p.sema.scopes ≠ [] ∧ p.sema.declared name = false)
      (run : ((paramIter n funcTy ()).run p).outcome = .done i q)
      (found : q.sema.lookup name = some sym) :
      Declares ty name sym (dims.first.getD 0 :: dims.more)

section

variable {ty : BaseTy} {name : Symbol} {sym : SemaSymbol} {dims : List Int32} {p : Parser}

/-- Runs that report semantic errors only are known by how they end. -/
theorem lax_of_reporting {α : Type} {r : Run Parser Event α} {Q : α → Parser → Prop}
    (h : r.Meets (reporting False False) Q) : r.Meets Contract.lax Q :=
  h.lax fun _ hst => hst.1

/-- A definition enters a symbol of the given type, if it enters one. -/
theorem ty_defineVar (name : Symbol) (ty : Option Ty) (isConst : Bool) (p : Parser) :
    ((semaDefineVar name ty isConst).run p).Meets Contract.lax fun r _ =>
      ∀ sym, r = some sym → sym.ty = ty := by
  unfold semaDefineVar
  rw [Prog.run_read_bind]
  split
  · exact Prog.meets_pure (by simp)
  rw [Prog.run_read_bind]
  split
  · exact Prog.meets_bind (Run.meets_lax_true _) fun _ _ _ => Prog.meets_pure (by simp)
  · rw [Prog.run_read_bind]
    refine Prog.meets_bind (Run.meets_lax_true _) fun _ _ _ => Prog.meets_pure ?_
    intro sym hsym
    rw [← Option.some.inj hsym]
    rfl

/-- The current scope has a symbol of the given type for the name. -/
def Holds (name : Symbol) (ty : Option Ty) (p : Parser) : Prop :=
  ∃ sc below sym, p.sema.scopes = sc :: below ∧ sc.symbols.get name = some sym ∧ sym.ty = ty

/-- New names do not hide it. -/
theorem Holds.frame {ty : Option Ty} {q : Parser} (h : Holds name ty p) (hframe : Frame p q) :
    Holds name ty q := by
  obtain ⟨sc, below, sym, hscopes, hget, hty⟩ := h
  have hextends := hframe.scopes
  rw [hscopes] at hextends
  obtain ⟨sc', hscopes', _, hkeep⟩ := hextends
  exact ⟨sc', below, sym, hscopes', hkeep name sym hget, hty⟩

/-- It is what a lookup finds. -/
theorem Holds.lookup {ty : Option Ty} (h : Holds name ty p)
    (hfound : p.sema.lookup name = some sym) : sym.ty = ty := by
  obtain ⟨sc, below, sym', hscopes, hget, hty⟩ := h
  unfold Sema.lookup at hfound
  rw [hscopes, List.findSome?_cons, hget] at hfound
  rw [← Option.some.inj hfound]
  exact hty

theorem holds_defineVar (name : Symbol) (ty : Option Ty) (isConst : Bool)
    (hscopes : p.sema.scopes ≠ []) (hdeclared : p.sema.declared name = false) :
    ((semaDefineVar name ty isConst).run p).Meets Contract.lax fun _ q => Holds name ty q := by
  unfold semaDefineVar
  obtain ⟨sc, below, hstack⟩ := List.exists_cons_of_ne_nil hscopes
  rw [Prog.run_read_bind, if_neg (by simp [hstack]), Prog.run_read_bind,
    if_neg (by simp [hdeclared]), Prog.run_read_bind]
  refine Prog.meets_bind (Prog.meets_step trivial ?_) fun _ _ hq => Prog.meets_pure hq
  refine ⟨⟨sc.addr, (name, p.sema.newSymbol name ty isConst) :: sc.symbols⟩, below,
    p.sema.newSymbol name ty isConst, ?_, ?_, rfl⟩
  · simp [Sema.define, hstack, Sema.newSymbol]
  · simp [SymbolMap.get]

theorem ty_declarator {n : Nat} {isConst : Bool} {q : Parser} {us rest : List Token}
    {nodeTy : Option Ty} {init : Option Node} (hend : AtEnd p)
    (htext : us.map Token.terminal = dims.flatMap dimToks) (hp : p.upcoming = us ++ rest)
    (hrest : ∀ next ∈ rest.head?, next.kind ≠ .lBracket ∧ next.kind ≠ .error)
    (hrun : ((parseDeclarator (parseInitializerList n) (parseExpr n) n ty.obj isConst
      name).run p).outcome = .done (.varDecl nodeTy (some sym) init) q) :
    sym.ty = some (.obj (arrayTy ty.obj dims)) := by
  have hfacing := facing_text (clean_of_written (written_dims dims)) hend htext hp
    fun t ht => (hrest t ht).2
  have hnext : follow ((rest.take 1).map Token.terminal) ≠ .lBracket :=
    follow_rest (by decide) fun t ht => (hrest t ht).1
  have hpost : ((parseDeclarator (parseInitializerList n) (parseExpr n) n ty.obj isConst
      name).run p).Meets Contract.lax fun node _ => ∀ nodeTy sym init,
        node = .varDecl nodeTy (some sym) init → sym.ty = some (.obj (arrayTy ty.obj dims)) := by
    refine Prog.meets_bind (lax_of_reporting
      (facing_dims dims ty.obj (facing_ends rest) hnext hfacing)) ?_
    rintro _ q₁ ⟨rfl, _⟩
    apply Prog.meets_bind (ty_defineVar name _ isConst q₁)
    intro r q₂ hr
    refine Prog.meets_bind (Run.meets_lax_true _) fun _ _ _ => ?_
    refine Prog.meets_bind (Run.meets_lax_true _) fun _ _ _ => ?_
    refine Prog.meets_bind (Run.meets_lax_true _) fun _ _ _ => Prog.meets_pure ?_
    rintro nodeTy sym init ⟨⟩
    exact hr sym rfl
  exact Run.meets_lax_iff.mp hpost _ _ hrun nodeTy sym init rfl

theorem ty_parameter {funcTy n : Nat} {q : Parser} {us rest : List Token} {i : Iter Unit Unit}
    {d : Param} (hend : AtEnd p) (htext : us.map Token.terminal = d.toks)
    (hp : p.upcoming = us ++ rest)
    (hrest : ∀ next ∈ rest.head?, next.kind ≠ .lBracket ∧ next.kind ≠ .error)
    (hscopes : p.sema.scopes ≠ []) (hdeclared : p.sema.declared d.name = false)
    (hrun : ((paramIter n funcTy ()).run p).outcome = .done i q)
    (hfound : q.sema.lookup d.name = some sym) : sym.ty = some (.obj d.obj) := by
  have hfacing := facing_text (clean_of_written d.written) hend htext hp fun t ht => (hrest t ht).2
  have hnext : follow ((rest.take 1).map Token.terminal) ≠ .lBracket :=
    follow_rest (by decide) fun t ht => (hrest t ht).1
  have hpost : ((paramIter n funcTy ()).run p).Meets Contract.lax fun _ q =>
      Holds d.name (some (.obj d.obj)) q := by
    apply Prog.meets_mark_bind trivial
    unfold Param.toks at hfacing
    rw [Prog.run_read_bind]
    have hcurr : p.curr.kind = d.ty.kind := hfacing.curr
    rw [hcurr, tokenToType_kind]
    apply Prog.meets_bind (R := fun _ q => q = p) (Prog.meets_pure rfl)
    rintro _ p rfl
    apply Prog.meets_bind (lax_of_reporting (facing_advance hfacing (Ends.cons _)))
    rintro _ q ⟨hq, _⟩
    apply Prog.meets_bind (lax_of_reporting
      (facing_consume hq ((facing_ends rest).append _) rfl))
    rintro _ q₁ ⟨hq₁, hprev⟩
    have hname : q₁.prev.value.name = d.name := Token.name_of_terminal hprev
    rw [Prog.run_read_bind, hname]
    apply Prog.meets_bind (lax_of_reporting (facing_paramSuffix (facing_ends rest) hnext hq₁))
    rintro _ q₂ ⟨rfl, hq₂⟩
    refine Prog.meets_bind (holds_defineVar d.name _ false ?_ ?_) ?_
    · rw [hq₂.sema]
      exact hscopes
    · rw [hq₂.sema]
      exact hdeclared
    · intro _ q₃ hq₃
      -- What is left of the iteration keeps the name.
      have hframe : Along Frame (do
          pushParam funcTy (some d.obj)
          if ← matchKind .comma then return Iter.again () else return Iter.leave ()) := by
        intro p
        refine Prog.along_bind Frame.trans (frame_signature.pushParam _ _ p) fun _ p' _ => ?_
        refine Prog.along_bind Frame.trans (frame_signature.matchKind _ p') fun b p'' _ => ?_
        cases b with
        | true => exact frame_signature.pure _ p''
        | false => exact frame_signature.pure _ p''
      refine Run.meets_lax_iff.mpr fun i q hout => hq₃.frame ?_
      exact (hframe q₃).ends (by rw [hout]; rfl)
  exact (Run.meets_lax_iff.mp hpost _ _ hrun).lookup hfound

/-- The type that the parser gives to a declared name. -/
theorem Declares.sym_ty (h : Declares ty name sym dims) :
    sym.ty = some (.obj (arrayTy ty.obj dims)) := by
  cases h with
  | declarator atEnd text input ends run => exact ty_declarator atEnd text input ends run
  | parameter atEnd text input ends scope run found =>
      exact ty_parameter atEnd text input ends scope.1 scope.2 run found

end

end Parser

/-- The type of the symbol is what its dimensions say from left to right, and so is the
type of every access with some of its subscripts, wherever the symbol is visible. -/
structure LeftToRight (ty : BaseTy) (name : Symbol) (dims : List Int32) (sym : SemaSymbol) :
    Prop where
  whole : sym.ty = some (.obj (rowTy ty.obj dims))
  rows : ∀ (subs : List Expr) (p : Parser) (us rest : List Token) (next : Token) (n : Nat),
    subs.length ≤ dims.length → (∀ sub ∈ subs, sub.Operand ∧ sub.Callable p.sema) →
    p.sema.lookup name = some sym → us.map Token.terminal = (accesses name subs).toks →
    p.upcoming = us ++ next :: rest → Parser.Stops 11 next.kind → next.kind ≠ .error →
    10 * p.remaining + 2 ≤ n →
      ∃ node q, ((Parser.parsePrimary n).run p).outcome = .done (some node) q ∧
        q.upcoming = next :: rest ∧
        node.ty = some (.obj (rowTy ty.obj (dims.drop subs.length)))

/-- Whatever declares a name, its type and the types of its accesses are what the
dimensions say from left to right exactly if the dimensions read the same from both
ends. -/
theorem array_types_left_to_right_iff {ty : BaseTy} {name : Symbol} {dims : List Int32}
    {sym : SemaSymbol} (h : Parser.Declares ty name sym dims) :
    LeftToRight ty name dims sym ↔ dims = dims.reverse := by
  have hty := h.sym_ty
  constructor
  · intro hrows
    rw [← arrayTy_eq_rowTy_iff ty]
    have heq := hty.symm.trans hrows.whole
    simpa using heq
  · intro hdims
    constructor
    · rw [hty, (arrayTy_eq_rowTy_iff ty dims).mpr hdims]
    · intro subs p us rest next n hlength hsubs hsym htext hp hnext herror hn
      have hwf := wellFormed_accesses name fun sub hsub => (hsubs sub hsub).1
      have hlevel : 12 ≤ (accesses name subs).level := by
        have hdesignator := Expr.level_designator hwf.2
        omega
      have hcall := callable_accesses name fun sub hsub => (hsubs sub hsub).2
      obtain ⟨q, hout, hrest, _⟩ :=
        Parser.reads_primary hwf.1 hlevel hcall htext hp hnext herror hn
      refine ⟨_, q, hout, hrest, ?_⟩
      rw [Expr.ty_accesses hsym hty subs hlength, arrayTy_take_eq_rowTy_drop _ hdims]

/-- The parser on the text {lit}`int y[2][len];`. -/
theorem Parser.declares_matrix (len : Int32) : ∃ sym, Parser.Declares .int ⟨1⟩ sym [2, len] := by
  have hrun : ∃ sym nodeTy init q, ((Parser.parseDeclarator (Parser.parseInitializerList 9)
      (Parser.parseExpr 9) 9 BaseTy.int.obj false ⟨1⟩).run
        (Parser.inFront (.fixed .lBracket) [.litInt 2, .fixed .rBracket, .fixed .lBracket,
          .litInt len, .fixed .rBracket, .fixed .semicolon])).outcome =
            .done (.varDecl nodeTy (some sym) init) q :=
    ⟨_, _, _, _, rfl⟩
  obtain ⟨sym, nodeTy, init, q, hrun⟩ := hrun
  have htext : (([2, len].flatMap dimToks).map Terminal.token).map Token.terminal =
      [2, len].flatMap dimToks := rfl
  refine ⟨sym, .declarator ?_ htext rfl ?_ hrun⟩
  · intro hkind
    cases hkind
  · rintro next ⟨⟩
    exact ⟨by decide, by decide⟩

/-- A matrix with as many rows as columns. -/
theorem array_types_left_to_right_iff_square :
    ∃ sym, LeftToRight .int ⟨1⟩ [2, 2] sym := by
  obtain ⟨sym, hsym⟩ := Parser.declares_matrix 2
  exact ⟨sym, (array_types_left_to_right_iff hsym).mpr rfl⟩

/-- A matrix of two rows and three columns becomes one of three rows and two columns. -/
theorem array_types_reversed :
    ∃ sym, Parser.Declares .int ⟨1⟩ sym [2, 3] ∧ ¬ LeftToRight .int ⟨1⟩ [2, 3] sym := by
  obtain ⟨sym, hsym⟩ := Parser.declares_matrix 3
  refine ⟨sym, hsym, fun h => ?_⟩
  have htypes := hsym.sym_ty.symm.trans h.whole
  simp [arrayTy, rowTy] at htypes

end Cact
