import Cact.Types
import Mathlib.Logic.Relation

/-!
# The heap of types

The records of {lit}`type.c` as they lie in memory.  A pointer is an address or null, and
the comparison of two types follows pointers.  Everything else in the front end works with
the trees that these pointers stand for.

Main results:

- Definitions {lit}`TypeHeap.typesInit`, {lit}`TypeHeap.typeArrayOf` and
  {lit}`TypeHeap.typeFuncNew`: how types are built.
- Definition {lit}`TypeHeap.typeEq`: how they are compared.
- Definition {lit}`TypeRun.Reachable`: the heaps that a run can build.
-/

namespace Cact

/-! ## Records -/

/-- The kinds of types. -/
inductive TypeKind where
  | void
  | bool
  | int
  | float
  | double
  | array
  | func
deriving DecidableEq, Repr

/-- Whether a kind is one of those that {lit}`types_init` allocates. -/
def TypeKind.isPrimitive : TypeKind → Bool
  | array | func => false
  | _ => true

/-- A pointer to a type: an address, or null. -/
abbrev TypePtr := Option Nat

/-- The union in a type record. -/
inductive TypeData where
  | none
  | array (base : TypePtr) (len : Int32)
  | func (ret : TypePtr) (params : List TypePtr)
deriving DecidableEq, Repr

/-- The parameter list of a function type, with one parameter more. -/
def TypeData.pushParam (ty : TypePtr) : TypeData → TypeData
  | func ret params => func ret (params ++ [ty])
  | data => data

/-- {lit}`struct Type`. -/
structure TypeRec where
  kind : TypeKind
  size : Int32
  align : Int32
  data : TypeData
deriving DecidableEq, Repr

/-- The allocated records, by address. -/
abbrev TypeHeap := List TypeRec

namespace TypeHeap

/-! ## Construction -/

/-- {lit}`new_primitive`. -/
def newPrimitive (kind : TypeKind) (size align : Int32) : TypeRec :=
  ⟨kind, size, align, .none⟩

/-- {lit}`types_init`. -/
def typesInit : TypeHeap :=
  [newPrimitive .void 0 0, newPrimitive .bool 1 1, newPrimitive .int 4 4,
   newPrimitive .float 4 4, newPrimitive .double 8 8]

/-- The global {lit}`ty_void`. -/
def tyVoid : TypePtr := some 0

/-- The global {lit}`ty_bool`. -/
def tyBool : TypePtr := some 1

/-- The global {lit}`ty_int`. -/
def tyInt : TypePtr := some 2

/-- The global {lit}`ty_float`. -/
def tyFloat : TypePtr := some 3

/-- The global {lit}`ty_double`. -/
def tyDouble : TypePtr := some 4

/-- The global that points to the type of a primitive kind. -/
def global : TypeKind → TypePtr
  | .void => tyVoid
  | .bool => tyBool
  | .int => tyInt
  | .float => tyFloat
  | .double => tyDouble
  | .array | .func => none

/-- What a pointer points to. -/
def deref (h : TypeHeap) (p : TypePtr) : Option TypeRec := p.bind fun a => h[a]?

/-- {lit}`type_array_of`: reads the size of its base type, so a null base is a fault. -/
def typeArrayOf (h : TypeHeap) (base : TypePtr) (len : Int32) : Option (TypePtr × TypeHeap) := do
  let b ← h.deref base
  some (some h.length, h ++ [⟨.array, b.size * len, b.align, .array base len⟩])

/-- {lit}`type_func_new`. -/
def typeFuncNew (h : TypeHeap) (ret : TypePtr) : TypePtr × TypeHeap :=
  (some h.length, h ++ [⟨.func, 8, 8, .func ret []⟩])

/-- {lit}`vec_push` on the parameters of a function type. -/
def pushParam (h : TypeHeap) (f : Nat) (ty : TypePtr) : TypeHeap :=
  h.modify f fun r => { r with data := r.data.pushParam ty }

/-! ## Comparison -/

/-- The parameter loop of {lit}`type_eq`. -/
def paramsEq (eq : TypePtr → TypePtr → Option Bool) :
    List TypePtr → List TypePtr → Option Bool
  | a :: as, b :: bs => do
      if ← eq a b then paramsEq eq as bs else some false
  | _, _ => some true

/-- {lit}`type_eq`, with a bound on the depth of its recursion.  There is no result if the
bound is reached, and none if a record is read that is not there. -/
def typeEq (h : TypeHeap) : Nat → TypePtr → TypePtr → Option Bool
  | 0, _, _ => none
  | n + 1, a, b =>
      if a = b then some true
      else if a = none ∨ b = none then some false
      else do
        let ra ← h.deref a
        let rb ← h.deref b
        if ra.kind ≠ rb.kind then some false
        else
          match ra.kind, ra.data, rb.data with
          | .array, .array base₁ len₁, .array base₂ len₂ =>
              if len₁ = len₂ then typeEq h n base₁ base₂ else some false
          | .array, _, _ => none
          | .func, .func ret₁ params₁, .func ret₂ params₂ => do
              if ← typeEq h n ret₁ ret₂ then
                if params₁.length ≠ params₂.length then some false
                else paramsEq (typeEq h n) params₁ params₂
              else some false
          | .func, _, _ => none
          | _, _, _ => some false

/-- {lit}`type_is_arithmetic`. -/
def typeIsArithmetic (ty : TypePtr) : Bool := ty == tyInt || ty == tyFloat || ty == tyDouble

end TypeHeap

/-! ## Runs -/

/-- A heap in the making: the records, and the function types whose parameter lists are
not complete yet. -/
structure TypeRun where
  heap : TypeHeap
  unfinished : List Nat

namespace TypeRun

/-- A pointer to a record that is complete. -/
def Holds (s : TypeRun) (p : TypePtr) (r : TypeRec) : Prop :=
  ∃ a, p = some a ∧ a ∉ s.unfinished ∧ s.heap[a]? = some r

/-- A pointer to a type that is complete. -/
def Complete (s : TypeRun) (p : TypePtr) : Prop := ∃ r, s.Holds p r

/-- The calls that build types, with complete types as their arguments.  In between, a
function type gets its parameters one by one, until it is finished. -/
inductive Step : TypeRun → TypeRun → Prop where
  | arrayOf {s : TypeRun} {base p : TypePtr} {len : Int32} {h : TypeHeap}
      (hbase : s.Complete base) (hcall : s.heap.typeArrayOf base len = some (p, h)) :
      Step s ⟨h, s.unfinished⟩
  | funcNew {s : TypeRun} {ret p : TypePtr} {h : TypeHeap} (hret : s.Complete ret)
      (hcall : s.heap.typeFuncNew ret = (p, h)) : Step s ⟨h, p.toList ++ s.unfinished⟩
  | pushParam {s : TypeRun} {f : Nat} {ty : TypePtr} (hf : f ∈ s.unfinished)
      (hty : s.Complete ty) : Step s ⟨s.heap.pushParam f ty, s.unfinished⟩
  | finish {s : TypeRun} (f : Nat) : Step s ⟨s.heap, s.unfinished.filter (· ≠ f)⟩

/-- What can be built after {lit}`types_init`. -/
def Reachable (s : TypeRun) : Prop := Relation.ReflTransGen Step ⟨TypeHeap.typesInit, []⟩ s

/-- The comparison of two pointers returns, whatever bound is large enough. -/
def Returns (s : TypeRun) (p q : TypePtr) (b : Bool) : Prop :=
  ∃ N, ∀ n, N ≤ n → s.heap.typeEq n p q = some b

/-- {lit}`type_eq` holds of two pointers. -/
def TypesEqual (s : TypeRun) (p q : TypePtr) : Prop := s.Returns p q true

end TypeRun

end Cact
