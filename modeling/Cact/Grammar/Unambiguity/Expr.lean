import Cact.Library.Decoding
import Cact.Grammar.First

/-!
# Expressions can be read back

The text of an expression determines the expression and where it ends, if what follows
cannot continue it.  The binary operators of an expression stand in a row behind its first
operand: each of the others is followed by an operator of the same level or a lower one, which
its own operators do not have.  The subscripts of a variable stand in a row, too.

Main results:

- Definition {lit}`Expr.Fits`: an expression of a level in front of what cannot continue it.
- Theorem {lit}`decodes_operators`: the operands and the operators between them.
- Theorem {lit}`decodes_subscripts`: a primary and its subscripts.
- Theorem {lit}`Expr.decodes`: expressions can be read back.
-/

open Decoding

namespace Cact

namespace Grammar

/-! ## What cannot continue an expression -/

/-- The token does not continue an expression of level {lit}`low`. -/
structure Halts (low : Int) (kind : TokenKind) : Prop where
  call : kind ≠ .lParen
  subscript : kind ≠ .lBracket
  assign : low < 0 → kind ≠ .assign
  operator : ∀ op, opKind op = kind → opLevel op < low

/-- The tokens that end every expression in front of them. -/
def isStop : TokenKind → Bool
  | .rParen | .rBracket | .rBrace | .comma | .semicolon => true
  | _ => false

/-- Different operators have different tokens. -/
theorem opKind_injective : Function.Injective opKind := by
  intro op op' h
  cases op <;> cases op' <;> first | rfl | cases h

section

variable {low low' : Int} {kind : TokenKind}

/-- A token that stops every expression. -/
theorem halts_stop (h : isStop kind = true) (low : Int) : Halts low kind where
  call := by
    rintro rfl
    cases h
  subscript := by
    rintro rfl
    cases h
  assign := by
    rintro _ rfl
    cases h
  operator := by
    rintro op rfl
    cases op <;> cases h

/-- An assignment sign stops every operand. -/
theorem halts_assign (hlow : 0 ≤ low) : Halts low .assign where
  call := by decide
  subscript := by decide
  assign := fun h => absurd h (by omega)
  operator := by
    intro op h
    cases op <;> cases h

/-- An operator ends the expressions of higher levels. -/
theorem halts_operator {op : BinOp} (hlow : opLevel op < low) : Halts low (opKind op) where
  call := by cases op <;> decide
  subscript := by cases op <;> decide
  assign := fun _ => by cases op <;> decide
  operator := by
    intro op' h
    rw [opKind_injective h]
    exact hlow

/-- What stops an expression stops one that binds more strongly. -/
theorem Halts.mono (h : Halts low kind) (hlow : low ≤ low') : Halts low' kind where
  call := h.call
  subscript := h.subscript
  assign := fun h' => h.assign (by omega)
  operator := fun op hop => Int.lt_of_lt_of_le (h.operator op hop) hlow

/-- Above the binary operators there is nothing left to tell apart. -/
theorem Halts.prefix (h : Halts low kind) : Halts 11 kind where
  call := h.call
  subscript := h.subscript
  assign := fun h' => absurd h' (by decide)
  operator := fun op _ => by
    have hrange := opLevel_range op
    omega

end

/-- An expression of level {lit}`low` or a higher one, in front of what cannot continue it. -/
def Expr.Fits (low : Int) (e : Expr) (ts : List Terminal) : Prop :=
  e.WellFormed ∧ low ≤ e.level ∧ Halts low (follow ts)

/-- An operand fits in front of such a token. -/
theorem Expr.fits_stop {e : Expr} {ts : List Terminal} (h : e.Operand)
    (hts : isStop (follow ts) = true) : e.Fits 0 ts :=
  ⟨h.1, h.2, halts_stop hts 0⟩

/-- An operand fits in front of an assignment sign. -/
theorem Expr.fits_assign {e : Expr} {ts : List Terminal} (h : e.Operand) :
    e.Fits 0 (.fixed .assign :: ts) :=
  ⟨h.1, h.2, halts_assign (by decide)⟩

/-- An expression in front of a token that ends it. -/
theorem closed_inj {e e' : Expr} {ts us : List Terminal} {kind : TokenKind}
    (he : Decodes Expr.toks (Expr.Fits 0) e) (hkind : isStop kind = true) (h : e.Operand)
    (h' : e'.Operand) (heq : e.toks ++ .fixed kind :: ts = e'.toks ++ .fixed kind :: us) :
    e = e' ∧ ts = us := by
  have hfits : e.Fits 0 (.fixed kind :: ts) := e.fits_stop h hkind
  have hfits' : e'.Fits 0 (.fixed kind :: us) := e'.fits_stop h' hkind
  obtain ⟨rfl, hrest⟩ := he hfits hfits' heq
  exact ⟨rfl, (List.cons.inj hrest).2⟩

/-! ## Operators -/

/-- The first operand of the row of operators. -/
def Expr.head : Expr → Expr
  | .binary _ lhs _ => lhs.head
  | e => e

/-- The operators behind it, each with its right operand. -/
def Expr.tail : Expr → List (BinOp × Expr)
  | .binary op lhs rhs => lhs.tail ++ [(op, rhs)]
  | _ => []

/-- An operator and its right operand. -/
def opToks (p : BinOp × Expr) : List Terminal := .fixed (opKind p.1) :: p.2.toks

/-- The expression with these operators in a row. -/
def joined (e : Expr) (ps : List (BinOp × Expr)) : Expr :=
  ps.foldl (fun lhs p => .binary p.1 lhs p.2) e

/-- A binary expression is its first operand and a row of operators with theirs. -/
theorem Expr.toks_row (e : Expr) : e.toks = e.head.toks ++ e.tail.flatMap opToks := by
  fun_induction Expr.head e with
  | case1 op lhs rhs ih =>
      rw [Expr.toks, ih, Expr.tail]
      simp [opToks]
  | case2 e h => cases e <;> simp_all [Expr.tail]

/-- The last operator of a row is the outermost. -/
theorem joined_concat (e : Expr) (ps : List (BinOp × Expr)) (p : BinOp × Expr) :
    joined e (ps ++ [p]) = .binary p.1 (joined e ps) p.2 := by
  simp [joined]

/-- An expression is the row it was taken apart into. -/
theorem Expr.joined_row (e : Expr) : joined e.head e.tail = e := by
  fun_induction Expr.head e with
  | case1 op lhs rhs ih =>
      rw [Expr.tail, joined_concat, ih]
  | case2 e h => cases e <;> simp_all [Expr.tail, joined]

/-- A row belongs to one expression. -/
theorem Expr.row_injective : Function.Injective fun e : Expr => (e.head, e.tail) := by
  intro e e' h
  obtain ⟨hhead, htail⟩ := Prod.mk.inj h
  rw [← e.joined_row, ← e'.joined_row, hhead, htail]

/-- An operator of level {lit}`low` or a higher one and its right operand, in front of what
cannot continue the operand. -/
def OpFits (low : Int) (p : BinOp × Expr) (ts : List Terminal) : Prop :=
  low ≤ opLevel p.1 ∧ p.2.Fits (opLevel p.1 + 1) ts

/-- Each operand of the row can stand in front of the operator behind it. -/
theorem Expr.row_fits {low : Int} {Stop : List Terminal → Prop} :
    ∀ {e : Expr} {ts : List Terminal}, e.WellFormed → 0 ≤ e.level → low ≤ e.level →
      Halts (e.level + 1) (follow ts) → Stop ts →
      e.head.Fits 11 (e.tail.flatMap opToks ++ ts) ∧ Ahead opToks (OpFits low) Stop e.tail ts
  | .binary op lhs rhs, ts, h, _, hlow, hhalts, hstop => by
      obtain ⟨hlhs, hrhs, hleft, hright⟩ := h
      have hrange := opLevel_range op
      have hnext : Halts (lhs.level + 1) (opKind op) := halts_operator (by omega)
      have hlow : low ≤ opLevel op := hlow
      obtain ⟨hhead, htail⟩ :
          lhs.head.Fits 11 (lhs.tail.flatMap opToks ++ (opToks (op, rhs) ++ ts)) ∧
            Ahead opToks (OpFits low) (fun _ => True) lhs.tail (opToks (op, rhs) ++ ts) :=
        Expr.row_fits hlhs (by omega) (by omega) hnext trivial
      refine ⟨?_, ahead_concat htail ⟨hlow, hrhs, hright, hhalts⟩ hstop⟩
      rw [Expr.tail, List.flatMap_append, List.append_assoc, List.flatMap_singleton]
      exact hhead
  | .assign _ _, _, _, h, _, _, _ => by simp [Expr.level] at h
  | .unary _ _, _, h, _, _, hhalts, hstop =>
      ⟨⟨h, by simp [Expr.head, Expr.level], hhalts.prefix⟩, hstop⟩
  | .int _, _, h, _, _, hhalts, hstop | .float _, _, h, _, _, hhalts, hstop
  | .double _, _, h, _, _, hhalts, hstop | .bool _, _, h, _, _, hhalts, hstop
  | .paren _, _, h, _, _, hhalts, hstop | .var _, _, h, _, _, hhalts, hstop
  | .index _ _, _, h, _, _, hhalts, hstop | .call _ _, _, h, _, _, hhalts, hstop =>
      ⟨⟨h, by simp [Expr.head, Expr.level], hhalts.prefix⟩, hstop⟩

/-- A row of operators, if its operands can be read back. -/
theorem decodes_operators {e : Expr} (hhead : Decodes Expr.toks (Expr.Fits 11) e.head)
    (htail : ∀ p ∈ e.tail, ∀ low, 0 ≤ low → Decodes Expr.toks (Expr.Fits low) p.2) {low : Int}
    (hlow : 0 ≤ low) : Decodes Expr.toks (Expr.Fits low) e := by
  have hops : ∀ p ∈ e.tail, Decodes opToks (OpFits low) p := by
    rintro ⟨op, rhs⟩ hp ⟨op', rhs'⟩ ts us ⟨_, hrhs⟩ ⟨_, hrhs'⟩ heq
    obtain ⟨hop, hrest⟩ := List.cons.inj heq
    obtain rfl := opKind_injective (Terminal.fixed.inj hop)
    have hrange := opLevel_range op
    obtain ⟨rfl, hts⟩ := htail _ hp _ (by omega) hrhs hrhs' hrest
    exact ⟨rfl, hts⟩
  have hmany : Decodes (List.flatMap opToks)
      (Ahead opToks (OpFits low) fun ts => Halts low (follow ts)) e.tail := by
    refine decodes_many hops fun p ts hp hhalts => ?_
    have hlevel := hhalts.operator p.1 rfl
    have hp := hp.1
    omega
  refine Decodes.of_parts (fun e => (e.head, e.tail)) (hhead.pair hmany) Expr.row_injective
    Expr.toks_row ?_
  rintro e' ts ⟨he', hlevel, hhalts⟩
  exact Expr.row_fits he' (by omega) hlevel (hhalts.mono (by omega)) hhalts

/-! ## Subscripts -/

/-- The variable that a row of subscripts belongs to. -/
def Expr.stem : Expr → Expr
  | .index base _ => base.stem
  | e => e

/-- The subscripts behind it. -/
def Expr.subs : Expr → List Expr
  | .index base sub => base.subs ++ [sub]
  | _ => []

/-- The text of a subscript. -/
def subToks (sub : Expr) : List Terminal := .fixed .lBracket :: (sub.toks ++ [.fixed .rBracket])

/-- An expression with its subscripts. -/
def indexed (e : Expr) (subs : List Expr) : Expr := subs.foldl .index e

/-- An expression is its stem and its subscripts. -/
theorem Expr.toks_subs (e : Expr) : e.toks = e.stem.toks ++ e.subs.flatMap subToks := by
  fun_induction Expr.stem e with
  | case1 base sub ih =>
      rw [Expr.toks, ih, Expr.subs]
      simp [subToks]
  | case2 e h => cases e <;> simp_all [Expr.subs]

/-- The last subscript is the outermost. -/
theorem indexed_concat (e : Expr) (subs : List Expr) (sub : Expr) :
    indexed e (subs ++ [sub]) = .index (indexed e subs) sub := by
  simp [indexed]

/-- An expression is the stem and the subscripts it was taken apart into. -/
theorem Expr.indexed_subs (e : Expr) : indexed e.stem e.subs = e := by
  fun_induction Expr.stem e with
  | case1 base sub ih => rw [Expr.subs, indexed_concat, ih]
  | case2 e h => cases e <;> simp_all [Expr.subs, indexed]

/-- A stem with its subscripts belongs to one expression. -/
theorem Expr.subs_injective : Function.Injective fun e : Expr => (e.stem, e.subs) := by
  intro e e' h
  obtain ⟨hstem, hsubs⟩ := Prod.mk.inj h
  rw [← e.indexed_subs, ← e'.indexed_subs, hstem, hsubs]

/-- A prefix operator or a primary, without its subscripts. -/
def Expr.isStem : Expr → Bool
  | .index _ _ | .binary _ _ _ | .assign _ _ => false
  | _ => true

/-- A primary without its subscripts, in front of what is no argument of a call.  Only a
variable can have subscripts. -/
structure StemFits (e : Expr) (ts : List Terminal) : Prop where
  wellFormed : e.WellFormed
  isStem : e.isStem = true
  call : follow ts ≠ .lParen
  subscript : e.isDesignator = false → follow ts ≠ .lBracket

/-- The stem of what is subscripted is a variable. -/
theorem Expr.stem_designator : ∀ {e : Expr}, e.WellFormed → e.isDesignator = true →
    ∃ name, e.stem = .var name
  | .var name, _, _ => ⟨name, rfl⟩
  | .index base _, h, _ => Expr.stem_designator (e := base) h.1 h.2.1

/-- The subscripts of a designator are expressions. -/
theorem Expr.subs_operand : ∀ {e : Expr}, e.WellFormed → (∀ sub ∈ e.subs, sub.Operand)
  | .index base sub, h => by
      intro sub' hsub
      rcases List.mem_append.mp hsub with hbase | hlast
      · exact Expr.subs_operand (e := base) h.1 sub' hbase
      · rw [List.mem_singleton.mp hlast]
        exact h.2.2
  | .int _, _ | .float _, _ | .double _, _ | .bool _, _ | .paren _, _ | .var _, _ | .call _ _, _
  | .unary _ _, _ | .binary _ _ _, _ | .assign _ _, _ => by simp [Expr.subs]

/-- A stem fits in front of its subscripts. -/
theorem Expr.stem_fits {e : Expr} {ts : List Terminal} (h : e.Fits 11 ts) :
    StemFits e.stem (e.subs.flatMap subToks ++ ts) := by
  obtain ⟨he, hlevel, hhalts⟩ := h
  cases e with
  | index base sub =>
      obtain ⟨name, hname⟩ := Expr.stem_designator he rfl
      rw [hname]
      refine ⟨trivial, rfl, ?_, nofun⟩
      cases hsubs : (Expr.index base sub).subs with
      | nil => exact hhalts.call
      | cons s ss => simp [subToks]
  | binary op lhs rhs =>
      have hrange := opLevel_range op
      have hlevel : 11 ≤ opLevel op := hlevel
      omega
  | assign lhs rhs => cases hlevel
  | _ => exact ⟨he, rfl, hhalts.call, fun _ => hhalts.subscript⟩

/-- A primary, if it can be read back without its subscripts, and the subscripts, too. -/
theorem decodes_subscripts {e : Expr} (hstem : Decodes Expr.toks StemFits e.stem)
    (hsubs : ∀ sub ∈ e.subs, Decodes Expr.toks (Expr.Fits 0) sub) :
    Decodes Expr.toks (Expr.Fits 11) e := by
  have hsub : ∀ sub ∈ e.subs, Decodes subToks (fun s _ => s.Operand) sub := by
    intro sub hsub sub' ts us hs hs' heq
    have heq : sub.toks ++ .fixed .rBracket :: ts = sub'.toks ++ .fixed .rBracket :: us := by
      simpa [subToks] using heq
    exact closed_inj (hsubs sub hsub) rfl hs hs' heq
  have hmany : Decodes (List.flatMap subToks)
      (Ahead subToks (fun s _ => s.Operand) fun ts => follow ts ≠ .lBracket) e.subs :=
    decodes_many hsub fun s ts _ hstop => hstop rfl
  refine Decodes.of_parts (fun e => (e.stem, e.subs)) (hstem.pair hmany) Expr.subs_injective
    Expr.toks_subs fun e' ts he' => ⟨Expr.stem_fits he', ?_⟩
  exact ahead_of_forall (Expr.subs_operand he'.1) he'.2.2.subscript fun _ _ hs _ => hs

/-! ## Primaries -/

/-- The commas of the grammar are those of the decoder. -/
theorem separated_eq {α : Type} (text : α → List Terminal) (xs : List α) :
    Grammar.separated (xs.map text) = Decoding.separated (.fixed .comma) text xs := by
  cases xs with
  | nil => rfl
  | cons x xs =>
      rw [List.map_cons, Decoding.separated]
      induction xs generalizing x with
      | nil => simp [Grammar.separated, separators]
      | cons y ys ih =>
          rw [List.map_cons, Grammar.separated, ih y]
          · simp [separators]
          · simp

/-- Assignments bind least. -/
theorem Expr.neg_one_le_level (e : Expr) : -1 ≤ e.level := by
  cases e with
  | binary op lhs rhs =>
      have hrange := opLevel_range op
      show -1 ≤ opLevel op
      omega
  | _ => simp [Expr.level]

/-- An argument fits in front of a comma or a parenthesis. -/
theorem Expr.fits_arg {e : Expr} {ts : List Terminal} (h : e.WellFormed)
    (hts : isStop (follow ts) = true) : e.Fits (-1) ts :=
  ⟨h, e.neg_one_le_level, halts_stop hts (-1)⟩

/-- Arguments, up to the closing parenthesis. -/
theorem decodes_args {args : List Expr}
    (h : ∀ e ∈ args, Decodes Expr.toks (Expr.Fits (-1)) e) :
    Decodes (fun es => Grammar.separated (argToks es))
      (fun es ts => argsWellFormed es ∧ follow ts = .rParen) args := by
  have hsep : Decodes (Decoding.separated (.fixed .comma) Expr.toks)
      (fun es ts => (∀ e ∈ es, e.WellFormed) ∧ follow ts = .rParen) args := by
    refine decodes_separated h ?_ ?_ ?_
    · rintro e ts he (hstop | ⟨us, rfl⟩)
      · exact e.fits_arg he (by rw [hstop]; rfl)
      · exact e.fits_arg he rfl
    · intro e ts _ hstop
      exact ne_of_class (e.starts.follow ts) rfl hstop
    · intro us hstop
      cases hstop
  refine Decodes.of_parts id hsep Function.injective_id (fun es => ?_) fun es ts hes => ?_
  · rw [argToks_eq, separated_eq]
    rfl
  · exact ⟨(argsWellFormed_iff es).mp hes.1, hes.2⟩

/-- The token a literal, a parenthesis or a prefix operator begins with. -/
def Expr.first : Expr → Option Terminal
  | .int val => some (.litInt val)
  | .float val => some (.litFloat val)
  | .double val => some (.litDouble val)
  | .bool true => some (.fixed .kwTrue)
  | .bool false => some (.fixed .kwFalse)
  | .paren _ => some (.fixed .lParen)
  | .var name => some (.ident name)
  | .call name _ => some (.ident name)
  | .unary op _ => some (.fixed op.kind)
  | .index _ _ | .binary _ _ _ | .assign _ _ => none

/-- The first token of a stem is its own. -/
theorem Expr.first_toks {e : Expr} {ts : List Terminal} (h : e.isStem = true) :
    (e.toks ++ ts).head? = e.first := by
  cases e with
  | index base sub => cases h
  | binary op lhs rhs => cases h
  | assign lhs rhs => cases h
  | bool val => cases val <;> rfl
  | _ => rfl

/-- Different unary operators have different tokens. -/
theorem UnOp.kind_injective : Function.Injective UnOp.kind := by
  intro op op' h
  cases op <;> cases op' <;> first | rfl | cases h

/-- Primaries that begin with the same token. -/
inductive Alike : Expr → Expr → Prop where
  | same (e : Expr) : Alike e e
  | paren (inner inner' : Expr) : Alike (.paren inner) (.paren inner')
  | varCall (name : Symbol) (args : List Expr) : Alike (.var name) (.call name args)
  | callVar (name : Symbol) (args : List Expr) : Alike (.call name args) (.var name)
  | call (name : Symbol) (args args' : List Expr) : Alike (.call name args) (.call name args')
  | unary (op : UnOp) (operand operand' : Expr) : Alike (.unary op operand) (.unary op operand')

/-- The first token tells the kind of a primary. -/
theorem alike_of_first {e e' : Expr} (he : e.isStem = true) (he' : e'.isStem = true)
    (h : e.first = e'.first) : Alike e e' := by
  cases e with
  | index _ _ | binary _ _ _ | assign _ _ => cases he
  | int val | float val | double val =>
      cases e' with
      | bool val' => cases val' <;> cases h
      | index _ _ | binary _ _ _ | assign _ _ => cases he'
      | _ => cases h <;> exact .same _
  | bool val =>
      cases e' with
      | bool val' => cases val <;> cases val' <;> cases h <;> exact .same _
      | unary op operand => cases val <;> cases op <;> cases h
      | index _ _ | binary _ _ _ | assign _ _ => cases he'
      | _ => cases val <;> cases h
  | paren inner =>
      cases e' with
      | paren inner' => exact .paren inner inner'
      | bool val' => cases val' <;> cases h
      | unary op operand => cases op <;> cases h
      | index _ _ | binary _ _ _ | assign _ _ => cases he'
      | _ => cases h
  | var name =>
      cases e' with
      | var name' => cases h; exact .same _
      | call name' args => cases h; exact .varCall name args
      | bool val' => cases val' <;> cases h
      | index _ _ | binary _ _ _ | assign _ _ => cases he'
      | _ => cases h
  | call name args =>
      cases e' with
      | var name' => cases h; exact .callVar name args
      | call name' args' => cases h; exact .call name args args'
      | bool val' => cases val' <;> cases h
      | index _ _ | binary _ _ _ | assign _ _ => cases he'
      | _ => cases h
  | unary op operand =>
      cases e' with
      | unary op' operand' =>
          obtain rfl := UnOp.kind_injective (Terminal.fixed.inj (Option.some.inj h))
          exact .unary op operand operand'
      | bool val' => cases val' <;> cases op <;> cases h
      | paren inner => cases op <;> cases h
      | index _ _ | binary _ _ _ | assign _ _ => cases he'
      | _ => cases h

/-- The operand of a unary operator fits where the whole does. -/
theorem StemFits.operand {op : UnOp} {e : Expr} {ts : List Terminal}
    (h : StemFits (.unary op e) ts) : e.Fits 11 ts := by
  refine ⟨h.wellFormed.1, h.wellFormed.2, h.call, h.subscript rfl, nofun, fun op' _ => ?_⟩
  have hrange := opLevel_range op'
  omega

/-- What the parts of an expression without operators and subscripts must do for it to be read
back. -/
def Expr.Inner : Expr → Prop
  | .paren inner => Decodes Expr.toks (Expr.Fits 0) inner
  | .call _ args => ∀ e ∈ args, Decodes Expr.toks (Expr.Fits (-1)) e
  | .unary _ operand => Decodes Expr.toks (Expr.Fits 11) operand
  | .assign lhs rhs =>
      Decodes Expr.toks (Expr.Fits 0) lhs ∧ Decodes Expr.toks (Expr.Fits (-1)) rhs
  | _ => True

/-- Primaries without subscripts. -/
theorem decodes_stem {e : Expr} (h : e.Inner) : Decodes Expr.toks StemFits e := by
  intro e' ts us he he' heq
  have hfirst : e.first = e'.first := by
    rw [← Expr.first_toks he.isStem, heq, Expr.first_toks he'.isStem]
  obtain ⟨_⟩ | ⟨inner, inner'⟩ | ⟨name, args⟩ | ⟨name, args⟩ | ⟨name, args, args'⟩ |
    ⟨op, operand, operand'⟩ := alike_of_first he.isStem he'.isStem hfirst
  · exact ⟨rfl, List.append_cancel_left heq⟩
  · have heq : inner.toks ++ .fixed .rParen :: ts = inner'.toks ++ .fixed .rParen :: us := by
      simpa [Expr.toks] using heq
    obtain ⟨rfl, hts⟩ := closed_inj h rfl he.wellFormed he'.wellFormed heq
    exact ⟨rfl, hts⟩
  · -- A name and a parenthesis is always a call.
    have hts : ts =
        .fixed .lParen :: (Grammar.separated (argToks args) ++ .fixed .rParen :: us) := by
      simpa [Expr.toks] using heq
    exact absurd (by rw [hts]; rfl) he.call
  · have hus :
        .fixed .lParen :: (Grammar.separated (argToks args) ++ .fixed .rParen :: ts) = us := by
      simpa [Expr.toks] using heq
    exact absurd (by rw [← hus]; rfl) he'.call
  · have heq : Grammar.separated (argToks args) ++ .fixed .rParen :: ts =
        Grammar.separated (argToks args') ++ .fixed .rParen :: us := by
      simpa [Expr.toks] using heq
    obtain ⟨rfl, hrest⟩ := decodes_args h ⟨he.wellFormed, rfl⟩ ⟨he'.wellFormed, rfl⟩ heq
    exact ⟨rfl, (List.cons.inj hrest).2⟩
  · have heq : operand.toks ++ ts = operand'.toks ++ us := (List.cons.inj heq).2
    obtain ⟨rfl, hts⟩ := h he.operand he'.operand heq
    exact ⟨rfl, hts⟩

/-! ## All expressions -/

/-- The parts of an expression, with its subscripts but without its operators, can be read
back. -/
def Expr.PartsDecode (e : Expr) : Prop :=
  e.stem.Inner ∧ ∀ sub ∈ e.subs, Decodes Expr.toks (Expr.Fits 0) sub

/-- The same with its operators. -/
structure Expr.Readable (e : Expr) : Prop where
  parts : e.PartsDecode
  head : e.head.PartsDecode
  tail : ∀ p ∈ e.tail, ∀ low, 0 ≤ low → Decodes Expr.toks (Expr.Fits low) p.2

section

variable {e : Expr} {low : Int}

/-- A readable expression is decoded at each of its levels. -/
theorem Expr.Readable.decodes (h : e.Readable) (hlow : 0 ≤ low) :
    Decodes Expr.toks (Expr.Fits low) e :=
  decodes_operators (decodes_subscripts (decodes_stem h.head.1) h.head.2) h.tail hlow

/-- What can be read back as an operand is not the left side of an assignment. -/
theorem not_assign {lhs rhs : Expr} {ts us : List Terminal}
    (h : Decodes Expr.toks (Expr.Fits 0) e) (he : e.Operand) (hhalts : Halts (-1) (follow ts))
    (hassign : (Expr.assign lhs rhs).WellFormed) :
    e.toks ++ ts ≠ (Expr.assign lhs rhs).toks ++ us := by
  intro heq
  have heq : e.toks ++ ts = lhs.toks ++ .fixed .assign :: (rhs.toks ++ us) := by
    simpa [Expr.toks] using heq
  obtain ⟨_, hts⟩ := h ⟨he.1, he.2, hhalts.mono (by decide)⟩
    (lhs.fits_assign ⟨hassign.1, hassign.2.2⟩) heq
  exact hhalts.assign (by decide) (by rw [hts]; rfl)

/-- An expression is an operand or an assignment. -/
theorem Expr.operand_or_assign (e : Expr) : 0 ≤ e.level ∨ ∃ lhs rhs, e = .assign lhs rhs := by
  cases e with
  | assign lhs rhs => exact Or.inr ⟨lhs, rhs, rfl⟩
  | binary op lhs rhs =>
      have hrange := opLevel_range op
      refine Or.inl ?_
      show 0 ≤ opLevel op
      omega
  | _ => exact Or.inl (by simp [Expr.level])

/-- Arguments, which can be assignments. -/
theorem Expr.Readable.decodes_arg (h : e.Readable) : Decodes Expr.toks (Expr.Fits (-1)) e := by
  rintro e' ts us ⟨he, _, hts⟩ ⟨he', _, hus⟩ heq
  rcases e.operand_or_assign with hlevel | ⟨lhs, rhs, rfl⟩
  · have hdecodes := h.decodes (Int.le_refl 0)
    rcases e'.operand_or_assign with hlevel' | ⟨lhs', rhs', rfl⟩
    · exact hdecodes ⟨he, hlevel, hts.mono (by decide)⟩ ⟨he', hlevel', hus.mono (by decide)⟩ heq
    · exact absurd heq (not_assign hdecodes ⟨he, hlevel⟩ hts he')
  · obtain ⟨hlhs, hrhs⟩ : Decodes Expr.toks (Expr.Fits 0) lhs ∧
        Decodes Expr.toks (Expr.Fits (-1)) rhs := h.parts.1
    have hfits : ∀ us', lhs.Fits 0 (.fixed .assign :: us') := fun _ =>
      lhs.fits_assign ⟨he.1, he.2.2⟩
    rcases e'.operand_or_assign with hlevel' | ⟨lhs', rhs', rfl⟩
    · -- The equals sign would stand behind the operand.
      have heq : lhs.toks ++ .fixed .assign :: (rhs.toks ++ ts) = e'.toks ++ us := by
        simpa [Expr.toks] using heq
      obtain ⟨_, hrest⟩ := hlhs (hfits _) ⟨he', hlevel', hus.mono (by decide)⟩ heq
      exact absurd (by rw [← hrest]; rfl) (hus.assign (by decide))
    · have heq : lhs.toks ++ .fixed .assign :: (rhs.toks ++ ts) =
          lhs'.toks ++ .fixed .assign :: (rhs'.toks ++ us) := by
        simpa [Expr.toks] using heq
      obtain ⟨rfl, hrest⟩ := hlhs (hfits _) (lhs'.fits_assign ⟨he'.1, he'.2.2⟩) heq
      obtain ⟨rfl, hend⟩ := hrhs ⟨he.2.1, rhs.neg_one_le_level, hts⟩
        ⟨he'.2.1, rhs'.neg_one_le_level, hus⟩ (List.cons.inj hrest).2
      exact ⟨rfl, hend⟩

/-- An expression without operators, and without subscripts if it is no designator. -/
theorem readable_of_parts (h : e.PartsDecode) (hhead : e.head = e) (htail : e.tail = []) :
    e.Readable := by
  refine ⟨h, by rwa [hhead], ?_⟩
  rw [htail]
  simp

mutual

/-- Every expression can be read back, by induction. -/
theorem Expr.readable : ∀ e : Expr, e.Readable
  | .int _ | .float _ | .double _ | .bool _ | .var _ =>
      readable_of_parts ⟨trivial, by simp [Expr.subs]⟩ rfl rfl
  | .paren inner =>
      readable_of_parts ⟨inner.readable.decodes (Int.le_refl 0), by simp [Expr.subs]⟩ rfl rfl
  | .call _ args => readable_of_parts ⟨args_readable args, by simp [Expr.subs]⟩ rfl rfl
  | .unary _ operand =>
      readable_of_parts ⟨operand.readable.decodes (by decide), by simp [Expr.subs]⟩ rfl rfl
  | .assign lhs rhs =>
      readable_of_parts ⟨⟨lhs.readable.decodes (Int.le_refl 0), rhs.readable.decodes_arg⟩,
        by simp [Expr.subs]⟩ rfl rfl
  | .index base sub => by
      refine readable_of_parts ⟨base.readable.parts.1, fun s hs => ?_⟩ rfl rfl
      rcases List.mem_append.mp hs with hbase | hlast
      · exact base.readable.parts.2 s hbase
      · rw [List.mem_singleton.mp hlast]
        exact sub.readable.decodes (Int.le_refl 0)
  | .binary op lhs rhs => by
      refine ⟨⟨trivial, by simp [Expr.subs]⟩, lhs.readable.head, fun p hp => ?_⟩
      rcases List.mem_append.mp hp with hlhs | hlast
      · exact lhs.readable.tail p hlhs
      · rw [List.mem_singleton.mp hlast]
        exact fun _ hlow => rhs.readable.decodes hlow

/-- So can every argument. -/
theorem args_readable : ∀ args : List Expr,
    ∀ e ∈ args, Decodes Expr.toks (Expr.Fits (-1)) e
  | [], _, h => absurd h List.not_mem_nil
  | arg :: args, e, h => by
      rcases List.mem_cons.mp h with heq | h
      · rw [heq]
        exact arg.readable.decodes_arg
      · exact args_readable args e h

end

/-- Expressions can be read back. -/
theorem Expr.decodes (e : Expr) : Decodes Expr.toks (Expr.Fits 0) e :=
  e.readable.decodes (Int.le_refl 0)

end

end Grammar

end Cact
