import Cact.Parser.Rules
import Cact.Types.Values
import Mathlib.Algebra.Order.Ring.Int

/-!
# Types of declared variables

Dimensions are put around a type one by one, and the size of an array is multiplied up in
32-bit arithmetic.  No length is checked, no product is checked, and the table of type
keywords lets {lit}`void` through.  Whether an accepted program declares complete object
types of exact sizes is decided by the declarators and the parameters of its source.

Main results:

- Theorem {lit}`ObjTy.exact_iff`: the sizes in a type are exact if the last one fits.
- Theorem {lit}`CompUnit.paramTys_build`: the types of the parameters.
- Theorem {lit}`object_types_iff`: when every variable and every parameter has a complete
  object type with exact sizes.
-/

open Traced

namespace Cact

/-! ## Sizes -/

namespace ObjTy

/-- What an array type is an array of, at the bottom. -/
def scalar : ObjTy → ObjTy
  | array base _ => base.scalar
  | ty => ty

/-- The lengths of an array type.  The one put around the type first, which is the one
written first, comes first. -/
def lengths : ObjTy → List Int32
  | array base len => base.lengths ++ [len]
  | _ => []

/-- The number of bytes of a type, as an integer. -/
def extent (ty : ObjTy) : Int := ty.scalar.size.toInt * (ty.lengths.map Int32.toInt).prod

/-- Every array in the type has the size of its elements together, and their alignment. -/
def exact : ObjTy → Bool
  | array base len =>
      base.exact && decide ((array base len).size.toInt = len.toInt * base.size.toInt) &&
        (array base len).align == base.align
  | _ => true

/-- A complete object type of exact size: {lit}`bool`, {lit}`int`, {lit}`float`,
{lit}`double` or an array of such a type, with lengths of at least one.  If the first
dimension is left out, its length does not count. -/
def complete (unsized : Bool) (ty : ObjTy) : Bool :=
  ty.scalar != void && (ty.lengths.drop unsized.toNat).all (fun len => decide (1 ≤ len.toInt)) &&
    ty.exact

/-- The extent of an array is that of its elements times the length. -/
theorem extent_array (base : ObjTy) (len : Int32) :
    (array base len).extent = base.extent * len.toInt := by
  simp [extent, scalar, lengths, mul_assoc]

/-- With a scalar that has a size and positive lengths the extent is positive. -/
theorem extent_pos {ty : ObjTy} (h : ty.scalar ≠ void)
    (hlens : ∀ len ∈ ty.lengths, 1 ≤ len.toInt) : 1 ≤ ty.extent := by
  induction ty with
  | array base len ih =>
      have hbase := ih h fun n hn => hlens n (List.mem_append_left _ hn)
      have hlen := hlens len (List.mem_append_right _ List.mem_cons_self)
      rw [extent_array]
      exact hbase.trans (le_mul_of_one_le_right (by omega) hlen)
  | void => exact absurd rfl h
  | _ => decide

/-- The sizes in a type with positive lengths are exact if the last one fits, and then the
size of the type is the number of its bytes. -/
theorem exact_iff {ty : ObjTy} (h : ty.scalar ≠ void)
    (hlens : ∀ len ∈ ty.lengths, 1 ≤ len.toInt) :
    (ty.exact = true ↔ ty.extent < 2 ^ 31) ∧ (ty.exact = true → ty.size.toInt = ty.extent) := by
  induction ty with
  | array base len ih =>
      have hbase : ∀ n ∈ base.lengths, 1 ≤ n.toInt := fun n hn =>
        hlens n (List.mem_append_left _ hn)
      have hlen : 1 ≤ len.toInt := hlens len (List.mem_append_right _ List.mem_cons_self)
      have hpos : 1 ≤ base.extent := extent_pos h hbase
      obtain ⟨hiff, hsize⟩ := ih h hbase
      have hle : base.extent ≤ base.extent * len.toInt :=
        le_mul_of_one_le_right (by omega) hlen
      have hmul (hexact : base.exact = true) :
          (array base len).size.toInt = (base.extent * len.toInt).bmod (2 ^ 32) := by
        rw [ObjTy.size, Int32.toInt_mul, hsize hexact]
      have hfits : (base.extent * len.toInt).bmod (2 ^ 32) = base.extent * len.toInt ↔
          base.extent * len.toInt < 2 ^ 31 := by
        constructor
        · intro heq
          exact heq ▸ Int.bmod_lt (by decide)
        · intro hlt
          exact Int.bmod_eq_of_le (by omega) hlt
      rw [extent_array]
      constructor
      · simp only [exact, Bool.and_eq_true, decide_eq_true_eq, ObjTy.align, beq_self_eq_true,
          and_true]
        constructor
        · rintro ⟨hexact, heq⟩
          rw [hmul hexact, hsize hexact, mul_comm len.toInt] at heq
          exact hfits.mp heq
        · intro hlt
          have hexact : base.exact = true := hiff.mpr (by omega)
          refine ⟨hexact, ?_⟩
          rw [hmul hexact, hsize hexact, mul_comm len.toInt]
          exact hfits.mpr hlt
      · intro hexact
        simp only [exact, Bool.and_eq_true, decide_eq_true_eq] at hexact
        rw [hexact.1.2, hsize hexact.1.1, mul_comm]
  | void => exact absurd rfl h
  | _ => decide

/-- With the first dimension left out all sizes are zero. -/
theorem exact_unsized {ty : ObjTy} (h : ty.lengths.head? = some 0) :
    ty.exact = true ∧ ty.size = 0 := by
  induction ty with
  | array base len ih =>
      have hbase : base.exact = true ∧ (base.size = 0 ∨ len = 0) := by
        cases hlens : base.lengths with
        | nil =>
            have hexact : base.exact = true := by
              cases base with
              | array => simp [lengths] at hlens
              | _ => rfl
            exact ⟨hexact, Or.inr (by simpa [lengths, hlens] using h)⟩
        | cons n ns =>
            have hsize := ih (by simpa [lengths, hlens] using h)
            exact ⟨hsize.1, Or.inl hsize.2⟩
      have hzero : (array base len).size = 0 := by
        rcases hbase.2 with hsize | hlen
        · rw [ObjTy.size, hsize, Int32.zero_mul]
        · rw [ObjTy.size, hlen, Int32.mul_zero]
      have hprod : 0 = len.toInt * base.size.toInt := by
        rcases hbase.2 with hsize | hlen
        · simp [hsize]
        · simp [hlen]
      exact ⟨by simp [exact, hbase.1, hzero, ← hprod, ObjTy.align], hzero⟩
  | _ => simp [lengths] at h

end ObjTy

/-- The rule for declaration nodes. -/
def Node.declaresComplete : Node → Bool
  | varDecl (some (.obj ty)) _ _ => ty.complete false
  | varDecl _ _ _ => false
  | _ => true

namespace Grammar

/-! ## Declarators -/

/-- The lengths around the type give a complete type whose size fits. -/
def Fits (scalar : ObjTy) (lens : List Int32) : Prop :=
  scalar ≠ .void ∧ (∀ len ∈ lens, 1 ≤ len.toInt) ∧
    scalar.size.toInt * (lens.map Int32.toInt).prod < 2 ^ 31

/-- The code's test of a type, as a condition on its scalar and its lengths. -/
theorem complete_iff_fits (ty : ObjTy) :
    ty.complete false = true ↔ Fits ty.scalar ty.lengths := by
  have hiff : ty.complete false = true ↔
      ty.scalar ≠ .void ∧ (∀ len ∈ ty.lengths, 1 ≤ len.toInt) ∧ ty.exact = true := by
    simp [ObjTy.complete, and_assoc]
  rw [hiff]
  refine and_congr_right fun hscalar => and_congr_right fun hlens => ?_
  exact (ObjTy.exact_iff hscalar hlens).1

/-- The brackets of a declarator leave the scalar as it is. -/
theorem scalar_arrayTy (base : ObjTy) (dims : List Int32) :
    (arrayTy base dims).scalar = base.scalar := by
  induction dims generalizing base with
  | nil => rfl
  | cons d ds ih => exact ih (.array base d)

/-- The brackets of a declarator add their lengths to the type. -/
theorem lengths_arrayTy (base : ObjTy) (dims : List Int32) :
    (arrayTy base dims).lengths = base.lengths ++ dims := by
  induction dims generalizing base with
  | nil => exact (List.append_nil _).symm
  | cons d ds ih =>
      have hstep := ih (.array base d)
      rw [ObjTy.lengths, List.append_assoc] at hstep
      exact hstep

/-- The rule for a declarator of the source. -/
def Site.Fits (s : Site) : Prop :=
  match s.phrase with
  | .decl base _ d => Grammar.Fits base.scalar (base.lengths ++ d.dims)
  | .expr _ | .cond _ => True

/-- Expressions declare nothing. -/
theorem Expr.Makes.declaresComplete {σ : Sema} {e : Expr} {n : Node} (h : Expr.Makes σ e n) :
    n.declaresComplete = true := by
  cases h <;> rfl

/-- A node declares a complete object iff the declarator at its site fits. -/
theorem Site.declaresComplete_iff {s : Site} {n : Node} (h : s.Built n) :
    n.declaresComplete = true ↔ s.Fits := by
  rcases s with ⟨Γ, phrase⟩
  obtain ⟨σ, _, _, hbuilt⟩ := h
  cases phrase with
  | expr e | cond e =>
      exact iff_of_true (Expr.makes_of_node hbuilt).declaresComplete trivial
  | decl base isConst d =>
      obtain ⟨sym, field, rfl, _⟩ := hbuilt
      rw [Node.declaresComplete, complete_iff_fits, scalar_arrayTy, lengths_arrayTy]
      rfl

/-! ## Parameters -/

/-- Whether the first dimension is left out. -/
def Param.unsized (p : Param) : Bool :=
  match p.dims with
  | some ⟨none, _⟩ => true
  | _ => false

/-- The rule for a parameter and the type it has been given. -/
def Param.complete (p : Param) (ty : Option ObjTy) : Bool :=
  ty.any (ObjTy.complete p.unsized)

/-- The rule for a parameter of the source. -/
def Param.Fits (p : Param) : Prop :=
  match p.dims with
  | none => Grammar.Fits p.ty.obj []
  | some ⟨none, more⟩ => p.ty ≠ .void ∧ ∀ len ∈ more, 1 ≤ len.toInt
  | some ⟨some len, more⟩ => Grammar.Fits p.ty.obj (len :: more)

/-- A base type is its own scalar. -/
theorem BaseTy.scalar_obj (b : BaseTy) : b.obj.scalar = b.obj := by
  cases b <;> rfl

/-- A base type has no lengths. -/
theorem BaseTy.lengths_obj (b : BaseTy) : b.obj.lengths = [] := by
  cases b <;> rfl

/-- The void type comes from the keyword only. -/
theorem BaseTy.obj_eq_void {b : BaseTy} : b.obj = .void ↔ b = .void := by
  cases b <;> simp [BaseTy.obj]

/-- A parameter has a complete type iff its declarator fits. -/
theorem Param.complete_iff (p : Param) : p.complete (some p.obj) = true ↔ p.Fits := by
  rcases p with ⟨ty, name, dims⟩
  cases dims with
  | none =>
      have hiff := complete_iff_fits ty.obj
      rwa [ty.scalar_obj, ty.lengths_obj] at hiff
  | some dims =>
      rcases dims with ⟨first, more⟩
      have hscalar (len : Int32) : (arrayTy (.array ty.obj len) more).scalar = ty.obj := by
        rw [scalar_arrayTy, ObjTy.scalar, ty.scalar_obj]
      have hlens (len : Int32) : (arrayTy (.array ty.obj len) more).lengths = len :: more := by
        rw [lengths_arrayTy, ObjTy.lengths, ty.lengths_obj]
        rfl
      cases first with
      | some len =>
          have hiff := complete_iff_fits (arrayTy (.array ty.obj len) more)
          rwa [hscalar, hlens] at hiff
      | none =>
          have hexact : (arrayTy (.array ty.obj 0) more).exact = true :=
            (ObjTy.exact_unsized (by rw [hlens]; rfl)).1
          have hcomplete : (arrayTy (.array ty.obj 0) more).complete true = true ↔
              ty.obj ≠ .void ∧ ∀ len ∈ more, 1 ≤ len.toInt := by
            simp [ObjTy.complete, hscalar, hlens, hexact]
          rw [Ne, BaseTy.obj_eq_void] at hcomplete
          exact hcomplete

/-- The parameters of a top-level item. -/
def Item.params : Item → List Param
  | .func f => f.params
  | .decl _ => []

/-- The parameters of all functions, in textual order. -/
def CompUnit.params (u : CompUnit) : List Param := u.flatMap Item.params

/-- The types that the functions behind the built-in ones have for their parameters. -/
def paramTys (funcs : List FuncTy) : List (Option ObjTy) :=
  (funcs.drop Parser.builtins.length).flatMap FuncTy.params

section

variable {Γ : Scoping} {fresh : Nat → Option Node} {a a' : Analysis} {n : Node}

/-- An item declares at most one function, with the types of its parameters. -/
theorem Item.funcs_build {item : Item} (hm : Models Γ a.sema)
    (h : item.build fresh a = some (n, a')) :
    ∃ fs, a'.sema.funcs = a.sema.funcs ++ fs ∧
      fs.flatMap FuncTy.params = item.params.map fun p => some p.obj := by
  cases item with
  | func f =>
      obtain ⟨sym, σ₁, σ₂, ns, a₁, hdef, hparams, hbody, rfl, rfl⟩ := Func.build_cases h
      refine ⟨[f.signature], ?_, by simp [Func.signature, Item.params]⟩
      have hinside := (Func.models_inside hm hdef hparams).funcs
      have hbody' : a₁.sema.funcs = σ₂.funcs := (local_blockBuild hbody).funcs
      have hfuncs : (f.inside Γ).funcs = Γ.funcs ++ [f.signature] := by
        rw [Func.inside, funcs_paramsAfter]
        rfl
      rw [hm.funcs, ← hfuncs, ← hinside, ← hbody']
      rfl
  | decl d => exact ⟨[], by rw [(Decl.local_build h).funcs, List.append_nil], rfl⟩

/-- The functions recorded by a program have the parameters the program writes. -/
theorem items_funcs {items : List Item} {ns : List Node} (hm : Models Γ a.sema)
    (h : itemsBuild fresh items a = some (ns, a')) :
    ∃ fs, a'.sema.funcs = a.sema.funcs ++ fs ∧
      fs.flatMap FuncTy.params = (CompUnit.params items).map fun p => some p.obj := by
  induction items generalizing Γ a ns with
  | nil =>
      cases h
      exact ⟨[], (List.append_nil _).symm, rfl⟩
  | cons item items ih =>
      obtain ⟨n, a₁, ns', hitem, hitems, rfl⟩ := itemsBuild_cons h
      obtain ⟨fs, hfs, hparams⟩ := Item.funcs_build hm hitem
      obtain ⟨gs, hgs, hrest⟩ := ih (Item.resolved_build hm hitem).2 hitems
      refine ⟨fs ++ gs, by rw [hgs, hfs, List.append_assoc], ?_⟩
      simp [CompUnit.params, hparams, hrest]

/-- The functions of a compilation unit have the types of their parameters. -/
theorem CompUnit.paramTys_build {intern : List UInt8 → Symbol} {u : CompUnit}
    {ns : List Node} (h : u.build intern fresh = some (ns, a')) :
    paramTys a'.sema.funcs = u.params.map fun p => some p.obj := by
  obtain ⟨σ, hσ, hitems⟩ := CompUnit.build_cases h
  have hm := builtins_resolved models_init hσ
  obtain ⟨fs, hfs, hparams⟩ := items_funcs (a := ⟨σ, 0⟩) hm hitems
  have hlength : σ.funcs.length = Parser.builtins.length := by
    rw [hm.funcs]
    rfl
  rw [paramTys, hfs, ← hlength, List.drop_left, hparams]

end

end Grammar

open Grammar

/-- Every declaration node has a complete type of exact size, and so has every parameter of
the source in the type of its function. -/
structure ObjectTypes (intern : List UInt8 → Symbol) (u : CompUnit) (globals : List Node)
    (funcs : List FuncTy) : Prop where
  vars : ∀ q ∈ u.pairs intern globals, q.2.declaresComplete = true
  params : List.Forall₂ (fun p ty => p.complete ty = true) u.params (paramTys funcs)

/-- In an accepted program every variable and every parameter has a complete object type,
with lengths of at least one and with exact sizes, exactly if no declarator and no
parameter in the source is declared {lit}`void` or with a length below one, and the bytes
of each are less than 2 ^ 31 in number. -/
theorem object_types_iff {intern : List UInt8 → Symbol} {mem : Memory} {ts : TokenStream}
    {globals : List Node} {p : Parser}
    (h : (Parser.parserRun intern mem ts).outcome = .done globals p)
    (herror : p.ctx.hadError = false) : ∃ u, Reads intern ts u globals ∧
      (ObjectTypes intern u globals p.sema.funcs ↔
        (∀ s ∈ u.sites intern, s.Fits) ∧ ∀ q ∈ u.params, q.Fits) := by
  obtain ⟨u, hu, hgreedy, htoks, a, ha, hsema⟩ := Parser.build_of_accepted h herror
  have hcovers := CompUnit.built_pairs ha
  have hfuncs : p.sema.funcs = a.sema.funcs := by rw [hsema]; rfl
  have hvariables : (∀ q ∈ u.pairs intern globals, q.2.declaresComplete = true) ↔
      ∀ s ∈ u.sites intern, s.Fits := hcovers.forall_iff fun _ _ => Site.declaresComplete_iff
  have hparameters : List.Forall₂ (fun p ty => p.complete ty = true) u.params
      (paramTys p.sema.funcs) ↔ ∀ q ∈ u.params, q.Fits := by
    rw [hfuncs, CompUnit.paramTys_build ha, List.forall₂_map_right_iff, List.forall₂_same]
    exact forall₂_congr fun q _ => q.complete_iff
  refine ⟨u, ⟨hu, hgreedy, htoks, (CompUnit.resolved_build ha).1, hcovers⟩, ?_⟩
  rw [← hvariables, ← hparameters]
  exact ⟨fun h => ⟨h.vars, h.params⟩, fun h => ⟨h.1, h.2⟩⟩

/-- The text {lit}`int a[65536][65536];`. -/
def hugeArray : CompUnit := [.decl ⟨false, .int, ⟨⟨0⟩, [65536, 65536], none⟩, []⟩]

/-- The size of an array of four times 2 ^ 32 bytes is zero. -/
theorem huge_array : ∃ globals p, (Parser.parserRun Fluf.ascii.intern zeroed
      (stream hugeArray.toks)).outcome = .done globals p ∧ p.ctx.hadError = false ∧
    ¬ ObjectTypes Fluf.ascii.intern hugeArray globals p.sema.funcs := by
  have hbad : Parser.AcceptsWith Fluf.ascii.intern zeroed (stream hugeArray.toks)
      fun globals => ¬ ∀ q ∈ hugeArray.pairs Fluf.ascii.intern globals,
        q.2.declaresComplete = true := by
    decide +kernel
  obtain ⟨globals, p, h, herror, hvars⟩ := hbad
  exact ⟨globals, p, h, herror, fun hobject => hvars hobject.vars⟩

/-- The text {lit}`double m[2][3]; void f(int a[][3]) { }`. -/
def openParam : CompUnit :=
  [.decl ⟨false, .double, ⟨⟨0⟩, [2, 3], none⟩, []⟩,
   .func ⟨false, .void, ⟨1⟩, [⟨.int, ⟨2⟩, some ⟨none, [3]⟩⟩], []⟩]

/-- The text is accepted, so the equivalence speaks of a parameter without a length. -/
theorem object_types_iff_open : ∃ globals u funcs,
    Reads Fluf.ascii.intern (stream openParam.toks) u globals ∧
      (ObjectTypes Fluf.ascii.intern u globals funcs ↔
        (∀ s ∈ u.sites Fluf.ascii.intern, s.Fits) ∧ ∀ q ∈ u.params, q.Fits) := by
  have haccepts : Parser.Accepts Fluf.ascii.intern zeroed (stream openParam.toks) := by
    decide +kernel
  obtain ⟨globals, p, h, herror⟩ := haccepts
  obtain ⟨u, hu, hiff⟩ := object_types_iff h herror
  exact ⟨globals, u, p.sema.funcs, hu, hiff⟩

end Cact
