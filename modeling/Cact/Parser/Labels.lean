import Cact.Parser.Closure

/-!
# Which events occur where

The kinds of events that expressions, parameters and bodies can emit, whatever state
they start in.

Main results:

- Theorems {lit}`Parser.emits_core`, {lit}`Parser.emits_signature` and
  {lit}`Parser.emits_body`.
-/

open Traced

namespace Cact

namespace Event

/-- The events of expressions and declarators. -/
def isCore : Event → Bool
  | .advance | .next | .lexError _ | .parserErrorAt _ | .ctxError _ | .freshField | .keepField
  | .define => true
  | e => e.isExprMark

/-- The events of parameters and function types. -/
def isSignature : Event → Bool
  | .newFunc | .pushParam | .enter .param => true
  | e => e.isCore

/-- The events of statements and blocks. -/
def isBody : Event → Bool
  | .synchronize | .skip _ | .scopeEnter | .scopeLeave => true
  | e => e.isCore || e.isBodyMark

/-- The marks of the expression parser are core events. -/
theorem isCore_of_isExprMark {e : Event} (h : e.isExprMark = true) : e.isCore = true := by
  cases e <;> first | rfl | exact h

/-- A core event may occur in a body. -/
theorem isBody_of_isCore {e : Event} (h : e.isCore = true) : e.isBody = true := by
  cases e <;> first | rfl | simp_all [isBody]

/-- The marks of statements occur in bodies. -/
theorem isBody_of_isBodyMark {e : Event} (h : e.isBodyMark = true) : e.isBody = true := by
  cases e <;> first | rfl | simp_all [isBody]

/-- A core event may occur in a signature. -/
theorem isSignature_of_isCore {e : Event} (h : e.isCore = true) : e.isSignature = true := by
  unfold isSignature
  split <;> first | rfl | exact h

/-- The events that do not mark a place where a return type matters. -/
def isQuiet (e : Event) : Bool := !e.isBodyMark && !e.isTopMark && e != .enter .param

/-- A core event marks no place where a return type matters. -/
theorem isQuiet_of_isCore {e : Event} (h : e.isCore = true) : e.isQuiet = true := by
  cases e <;> first | rfl | (rename_i f; cases f <;> first | rfl | cases h) | cases h

/-- A body has no mark of the top level. -/
theorem isTopMark_of_isBody {e : Event} (h : e.isBody = true) : e.isTopMark = false := by
  cases e <;> first | rfl | (rename_i f; cases f <;> first | rfl | cases h)

/-- Nor has a signature. -/
theorem isTopMark_of_isSignature {e : Event} (h : e.isSignature = true) :
    e.isTopMark = false := by
  cases e <;> first | rfl | (rename_i f; cases f <;> first | rfl | cases h)

end Event

namespace Parser

/-- All events of a program, from any state, satisfy a predicate. -/
def Emits (L : Event → Prop) {α : Type} (m : Parse α) : Prop :=
  Keeps (fun _ => True) (fun st => L st.label) m

variable {L : Event → Prop}

/-- What is emitted composes along the constructors of programs. -/
theorem emits_congruence : Congruence fun {_} m _ => Emits L m :=
  keeps_congruence

/-- A single step emits its label. -/
theorem emits_step {l : Event} {f : Parser → Parser} (hl : L l) :
    Emits L (Prog.step l f) :=
  fun _ _ => Prog.meets_step hl trivial

/-- A sequence emits what its two parts emit. -/
theorem emits_bind {α β : Type} {m : Parse α} {k : α → Parse β} (hm : Emits L m)
    (hk : ∀ a, Emits L (k a)) : Emits L (do let a ← m; k a) :=
  fun s hs => Prog.meets_bind (hm s hs) fun a s' _ => hk a s' trivial

/-- {lit}`advance` emits core events only. -/
theorem emits_advance (hL : ∀ e : Event, e.isCore = true → L e) : Emits L advance := by
  refine emits_bind (emits_step (hL _ rfl)) fun _ => ?_
  refine emits_bind (emits_congruence.read _) fun ts => ?_
  induction ts with
  | nil => exact emits_step (hL _ rfl)
  | cons t ts ih =>
      rw [advanceLoop]
      split
      · exact emits_bind (emits_step (hL _ rfl)) fun _ => ih
      · exact emits_step (hL _ rfl)

/-- The congruence that expressions need holds of programs that emit core events. -/
theorem emits_exprs (hL : ∀ e : Event, e.isCore = true → L e) :
    Exprs fun {_} m _ => Emits L m :=
  { emits_congruence with
    read := fun f _ => emits_congruence.read f
    advance := emits_advance hL
    exprMark := fun he => emits_step (hL _ (Event.isCore_of_isExprMark he))
    parserErrorAt := fun _ _ => emits_step (hL _ rfl)
    ctxError := fun _ _ => emits_step (hL _ rfl)
    define := fun _ _ _ => congr_semaDefineVar emits_congruence.reading
      (fun _ _ => emits_step (hL _ rfl)) (emits_step (hL _ rfl)) }

/-- So does the one that declarators need. -/
theorem emits_core (hL : ∀ e : Event, e.isCore = true → L e) :
    Core fun {_} m _ => Emits L m :=
  Core.of_exprs (emits_exprs hL)
    (fun {_ k k'} => congr_newNodeField emits_congruence (emits_step (hL _ rfl)) k k')
    fun {a b} => congr_keepField emits_congruence (emits_step (hL _ rfl)) a b

/-- What the events of a signature satisfy is emitted by the parser of parameters. -/
theorem emits_signature (hL : ∀ e : Event, e.isSignature = true → L e) :
    Signature fun {_} m _ => Emits L m :=
  Signature.of_exprs (emits_exprs fun e he => hL e (Event.isSignature_of_isCore he))
    (emits_step (hL _ rfl))
    (fun _ => congr_typeFuncNew emits_congruence.reading (emits_step (hL _ rfl)))
    fun _ _ => emits_step (hL _ rfl)

/-- What the events of a body satisfy is emitted by statements and blocks. -/
theorem emits_body (hL : ∀ e : Event, e.isBody = true → L e) :
    Body fun {_} m _ => Emits L m :=
  { emits_core fun e he => hL e (Event.isBody_of_isCore he) with
    bodyMark := fun he => emits_step (hL _ (Event.isBody_of_isBodyMark he))
    recover := fun {_ n n' m m' k k'} hn => congr_recover emits_congruence.reading n n' m m' k k'
      (congr_synchronize emits_congruence.reading n n' hn (emits_step (hL _ rfl))
        (fun _ => emits_step (hL _ rfl))
        (emits_advance fun e he => hL e (Event.isBody_of_isCore he)))
    scope := fun {_ _ m m' k k'} => congr_scope emits_congruence.reading m m' k k'
      (emits_step (hL _ rfl)) (emits_step (hL _ rfl)) }

/-- The built-in functions are declared without any parameter being parsed. -/
theorem emits_installBuiltins (intern : List UInt8 → Symbol)
    (bs : List (List Char × ObjTy × Option ObjTy)) :
    Emits (fun e => e.isQuiet = true) (installBuiltins intern bs) := by
  have hcore := emits_core fun e => Event.isQuiet_of_isCore (e := e)
  induction bs with
  | nil => exact hcore.pure ()
  | cons b bs ih =>
      rcases b with ⟨name, ret, arg1Ty⟩
      refine emits_bind ?_ fun _ => ih
      refine emits_bind (congr_typeFuncNew emits_congruence.reading (emits_step rfl)) fun _ => ?_
      refine emits_bind ?_ fun _ => emits_bind (hcore.define _ _ _) fun _ => hcore.pure ()
      cases arg1Ty with
      | none => exact hcore.pure ()
      | some _ => exact emits_step rfl

end Parser

end Cact
