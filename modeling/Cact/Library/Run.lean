import Mathlib.Data.List.Basic
import Mathlib.Tactic.Common

/-!
# Traced programs - runs, sequencing and loops

A small imperative language embedded in Lean.  A program is a function from a
start state to a *run*: the list of labelled steps it performed, in order, and
the way it ended.  A run ends normally with a value and a state, with a fault
(the program did something that has no meaning, such as reading through a null
pointer), or by a timeout, when the bound given to one of its loops or
recursions was used up.

Main results:

- Definition {lit}`Prog`: the monad of traced programs.
- Definition {lit}`loop`: an unbounded loop with an explicit iteration budget.
- Theorems {lit}`bind_done`, {lit}`bind_fault` and {lit}`bind_timeout`: how a
  sequence runs, one equation for each way its first part can end.
-/

namespace Traced

/-- How a run ends. -/
inductive Outcome (σ α : Type) where
  | done (a : α) (s : σ)
  | fault (s : σ)
  | timeout

/-- The state a run stopped in, when there is one. -/
def Outcome.state {σ α : Type} : Outcome σ α → Option σ
  | .done _ s => some s
  | .fault s => some s
  | .timeout => none

/-- A normal end with a certain value and state. -/
def Outcome.Ends {σ α : Type} (o : Outcome σ α) (Q : α → σ → Prop) : Prop :=
  ∃ a s, o = .done a s ∧ Q a s

instance {σ α : Type} (o : Outcome σ α) (Q : α → σ → Prop) [∀ a s, Decidable (Q a s)] :
    Decidable (o.Ends Q) :=
  match o with
  | .done a s => decidable_of_iff (Q a s) (by simp [Outcome.Ends])
  | .fault _ => isFalse (by simp [Outcome.Ends])
  | .timeout => isFalse (by simp [Outcome.Ends])

/-- One labelled step, with the states on either side of it. -/
structure Step (σ ℓ : Type) where
  label : ℓ
  before : σ
  after : σ

/-- Everything observable about one execution. -/
structure Run (σ ℓ α : Type) where
  steps : List (Step σ ℓ)
  outcome : Outcome σ α

/-- A program: a run for every start state. -/
structure Prog (σ ℓ α : Type) where
  run : σ → Run σ ℓ α

variable {σ ℓ α β γ : Type}

/-- Continue a run with a program that depends on its result. -/
def Run.andThen (r : Run σ ℓ α) (f : α → Prog σ ℓ β) : Run σ ℓ β :=
  match r.outcome with
  | .done a s => ⟨r.steps ++ ((f a).run s).steps, ((f a).run s).outcome⟩
  | .fault s => ⟨r.steps, .fault s⟩
  | .timeout => ⟨r.steps, .timeout⟩

namespace Prog

instance : Monad (Prog σ ℓ) where
  pure a := ⟨fun s => ⟨[], .done a s⟩⟩
  bind m f := ⟨fun s => (m.run s).andThen f⟩

/-- Read something off the state. -/
def read (f : σ → α) : Prog σ ℓ α := ⟨fun s => ⟨[], .done (f s) s⟩⟩

/-- Perform one labelled step. -/
def step (l : ℓ) (f : σ → σ) : Prog σ ℓ Unit :=
  ⟨fun s => ⟨[⟨l, s, f s⟩], .done () (f s)⟩⟩

/-- Leave a mark in the trace without changing the state. -/
def mark (l : ℓ) : Prog σ ℓ Unit := step l id

/-- Do something that has no meaning. -/
def fault : Prog σ ℓ α := ⟨fun s => ⟨[], .fault s⟩⟩

/-- Stop because a budget is used up. -/
def timeout : Prog σ ℓ α := ⟨fun _ => ⟨[], .timeout⟩⟩

/-- Returning a value takes no step. -/
@[simp]
theorem run_pure (a : α) (s : σ) :
    (pure a : Prog σ ℓ α).run s = ⟨[], .done a s⟩ :=
  rfl

/-- A sequence runs its first part and goes on from where that ends. -/
theorem run_bind (m : Prog σ ℓ α) (f : α → Prog σ ℓ β) (s : σ) :
    (m >>= f).run s = (m.run s).andThen f :=
  rfl

/-- Reading the state takes no step. -/
@[simp]
theorem run_read (f : σ → α) (s : σ) :
    (read f : Prog σ ℓ α).run s = ⟨[], .done (f s) s⟩ :=
  rfl

/-- A step is recorded with the states before and after it. -/
@[simp]
theorem run_step (l : ℓ) (f : σ → σ) (s : σ) :
    (step l f : Prog σ ℓ Unit).run s = ⟨[⟨l, s, f s⟩], .done () (f s)⟩ :=
  rfl

/-- A fault keeps the state it occurs in. -/
@[simp]
theorem run_fault (s : σ) : (fault : Prog σ ℓ α).run s = ⟨[], .fault s⟩ :=
  rfl

/-- Running out of budget keeps no state. -/
@[simp]
theorem run_timeout (s : σ) : (timeout : Prog σ ℓ α).run s = ⟨[], .timeout⟩ :=
  rfl

/-- A sequence whose first part ends normally goes on with the second part. -/
theorem bind_done {m : Prog σ ℓ α} {f : α → Prog σ ℓ β} {s s' : σ} {a : α}
    (h : (m.run s).outcome = .done a s') :
    (m >>= f).run s =
      ⟨(m.run s).steps ++ ((f a).run s').steps, ((f a).run s').outcome⟩ := by
  simp only [run_bind, Run.andThen, h]

/-- A fault in the first part ends the whole sequence. -/
theorem bind_fault {m : Prog σ ℓ α} {f : α → Prog σ ℓ β} {s s' : σ}
    (h : (m.run s).outcome = .fault s') :
    (m >>= f).run s = ⟨(m.run s).steps, .fault s'⟩ := by
  simp only [run_bind, Run.andThen, h]

/-- A timeout in the first part ends the whole sequence. -/
theorem bind_timeout {m : Prog σ ℓ α} {f : α → Prog σ ℓ β} {s : σ}
    (h : (m.run s).outcome = .timeout) :
    (m >>= f).run s = ⟨(m.run s).steps, .timeout⟩ := by
  simp only [run_bind, Run.andThen, h]

/-- Going on from a returned value is going on with it. -/
theorem pure_bind (a : α) (f : α → Prog σ ℓ β) : (pure a : Prog σ ℓ α) >>= f = f a :=
  rfl

/-- Sequencing is associative. -/
theorem bind_assoc (m : Prog σ ℓ α) (f : α → Prog σ ℓ β) (g : β → Prog σ ℓ γ) :
    (m >>= f) >>= g = m >>= fun a => f a >>= g := by
  refine congrArg Prog.mk (funext fun s => ?_)
  cases hm : (m.run s).outcome with
  | done a s' =>
      rw [bind_done hm]
      cases hf : ((f a).run s').outcome with
      | done b s'' => simp only [run_bind, Run.andThen, hm, hf, List.append_assoc]
      | fault s'' => simp only [run_bind, Run.andThen, hm, hf]
      | timeout => simp only [run_bind, Run.andThen, hm, hf]
  | fault s' => simp only [run_bind, Run.andThen, hm]
  | timeout => simp only [run_bind, Run.andThen, hm]

/-- Going on from what is read. -/
@[simp]
theorem run_read_bind (g : σ → α) (f : α → Prog σ ℓ β) (s : σ) :
    (read g >>= f).run s = (f (g s)).run s :=
  rfl

/-- Going on from a value. -/
@[simp]
theorem run_pure_bind (a : α) (f : α → Prog σ ℓ β) (s : σ) :
    (pure a >>= f).run s = (f a).run s :=
  rfl

end Prog

/-- What one iteration of a loop decides: go round again or leave. -/
inductive Iter (β γ : Type) where
  | again (b : β)
  | leave (c : γ)

/-- What holds of the loop variable when a loop goes round again, and of the result when
it is left. -/
def Iter.Satisfies (J : β → Prop) (S : γ → Prop) : Iter β γ → Prop
  | .again b => J b
  | .leave c => S c

instance (J : β → Prop) (S : γ → Prop) (i : Iter β γ) [DecidablePred J] [DecidablePred S] :
    Decidable (i.Satisfies J S) :=
  match i with
  | .again b => inferInstanceAs (Decidable (J b))
  | .leave c => inferInstanceAs (Decidable (S c))

/-- Repeat an iteration until it leaves, at most a given number of times. -/
def loop (body : β → Prog σ ℓ (Iter β γ)) : Nat → β → Prog σ ℓ γ
  | 0, _ => Prog.timeout
  | n + 1, b => do
      match ← body b with
      | .again b' => loop body n b'
      | .leave c => pure c

end Traced
