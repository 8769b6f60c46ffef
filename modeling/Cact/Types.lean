import Cact.Token

/-!
# Types

The type records of {lit}`type.h`.  Every type but a function type is fixed when it
is built, so a pointer to one is modelled by the tree it points to; each of the five
primitive types exists once, which makes equality of the trees equality of the
pointers there.  A function type is still being filled in while its parameters are
read, so it lives in a table and is referred to by its index.

Main results:

- Definition {lit}`typeEq`: the comparison {lit}`type_eq`.
- Theorem {lit}`ObjTy.typeEq_iff`: on object types it decides equality.
-/

namespace Cact

/-- The types a declaration can build: the primitive types and arrays. -/
inductive ObjTy where
  | void
  | bool
  | int
  | float
  | double
  | array (base : ObjTy) (len : Int32)
deriving DecidableEq, Repr

/-- A type: an object type, or a function type by its place in the table. -/
inductive Ty where
  | obj (t : ObjTy)
  | func (id : Nat)
deriving DecidableEq, Repr

/-- The record of a function type.  A parameter whose type could not be read has a
null type. -/
structure FuncTy where
  ret : ObjTy
  params : List (Option ObjTy)
deriving DecidableEq, Repr

/-- The global {lit}`ty_void`. -/
def tyVoid : Option Ty := some (.obj .void)

/-- The global {lit}`ty_bool`. -/
def tyBool : Option Ty := some (.obj .bool)

/-- The global {lit}`ty_int`. -/
def tyInt : Option Ty := some (.obj .int)

/-- The global {lit}`ty_float`. -/
def tyFloat : Option Ty := some (.obj .float)

/-- The global {lit}`ty_double`. -/
def tyDouble : Option Ty := some (.obj .double)

/-- {lit}`type_eq` on object types: arrays are compared by length and element type,
primitive types by identity. -/
def ObjTy.typeEq : ObjTy → ObjTy → Bool
  | .array base₁ len₁, .array base₂ len₂ => len₁ == len₂ && typeEq base₁ base₂
  | a, b => a == b

/-- {lit}`type_eq` on possibly null pointers to object types. -/
def paramTypeEq : Option ObjTy → Option ObjTy → Bool
  | none, none => true
  | some a, some b => a.typeEq b
  | _, _ => false

/-- The parameter loop of {lit}`type_eq`. -/
def paramsTypeEq : List (Option ObjTy) → List (Option ObjTy) → Bool
  | [], [] => true
  | a :: as, b :: bs => paramTypeEq a b && paramsTypeEq as bs
  | _, _ => false

/-- {lit}`type_eq`. -/
def typeEq (funcs : List FuncTy) : Option Ty → Option Ty → Bool
  | none, none => true
  | some (.obj a), some (.obj b) => a.typeEq b
  | some (.func i), some (.func j) =>
      i == j ||
        match funcs[i]?, funcs[j]? with
        | some f, some g => f.ret.typeEq g.ret && paramsTypeEq f.params g.params
        | _, _ => false
  | _, _ => false

/-- {lit}`type_is_arithmetic`. -/
def typeIsArithmetic (ty : Option Ty) : Bool :=
  ty == tyInt || ty == tyFloat || ty == tyDouble

/-- {lit}`token_to_type`. -/
def tokenToType : TokenKind → Option ObjTy
  | .kwInt => some .int
  | .kwFloat => some .float
  | .kwDouble => some .double
  | .kwBool => some .bool
  | .kwVoid => some .void
  | _ => none

/-- On object types the comparison decides equality. -/
theorem ObjTy.typeEq_iff {a b : ObjTy} : a.typeEq b = true ↔ a = b := by
  induction a generalizing b with
  | array base len ih =>
      cases b with
      | array base' len' =>
          simp only [ObjTy.typeEq, Bool.and_eq_true, beq_iff_eq, ih, ObjTy.array.injEq]
          exact and_comm
      | _ => simp [ObjTy.typeEq]
  | _ => cases b <;> simp [ObjTy.typeEq]

theorem paramTypeEq_iff {a b : Option ObjTy} : paramTypeEq a b = true ↔ a = b := by
  cases a <;> cases b <;> simp [paramTypeEq, ObjTy.typeEq_iff]

theorem paramsTypeEq_iff {as bs : List (Option ObjTy)} :
    paramsTypeEq as bs = true ↔ as = bs := by
  induction as generalizing bs with
  | nil => cases bs <;> simp [paramsTypeEq]
  | cons a as ih =>
      cases bs with
      | nil => simp [paramsTypeEq]
      | cons b bs => simp [paramsTypeEq, paramTypeEq_iff, ih]

end Cact
