import Cact.Library.Contract

/-!
# Traced programs - properties that follow the shape of a program

Some facts about a program need no specification of its parts: they hold of every
program built from well-behaved primitive steps.  A {lit}`Congruence` is a relation
between two versions of a program that sequencing preserves, so that it reaches
from the primitive steps to everything assembled from them by one pass over the
program text.

Main results:

- Theorem {lit}`Sequencing.loop`: congruences pass through loops, the second
  version being allowed a larger budget.
- Theorem {lit}`along_congruence`: a preorder kept by the steps holds between any
  point of a run and any later one.
- Theorem {lit}`keeps_congruence`: an invariant of the steps holds throughout a run.
- Theorem {lit}`visits_congruence`: the same with a weaker relation for the states
  inside a run than for its end.
- Theorem {lit}`settles_congruence`: a run that does not time out is the run of
  the same program with larger budgets.
-/

namespace Traced

variable {σ ℓ α β γ : Type}

/-- A relation between two versions of a program that sequencing preserves. -/
structure Sequencing (C : ∀ {α : Type}, Prog σ ℓ α → Prog σ ℓ α → Prop) : Prop where
  pure : ∀ {α : Type} (a : α), C (pure a) (pure a)
  bind : ∀ {α β : Type} {m m' : Prog σ ℓ α} {f f' : α → Prog σ ℓ β},
    C m m' → (∀ a, C (f a) (f' a)) → C (m >>= f) (m' >>= f')
  timeout : ∀ {α : Type} (m : Prog σ ℓ α), C Prog.timeout m

/-- The same, if programs may fault and reading the state may give anything. -/
structure Congruence (C : ∀ {α : Type}, Prog σ ℓ α → Prog σ ℓ α → Prop) : Prop
    extends Sequencing C where
  fault : ∀ {α : Type}, C (Prog.fault : Prog σ ℓ α) Prog.fault
  read : ∀ {α : Type} (f : σ → α), C (Prog.read f) (Prog.read f)

/-- A sequencing that allows reading what does not depend on the part of it that
{lit}`ι` replaces. -/
structure Reading {τ : Type} (ι : τ → σ → σ)
    (C : ∀ {α : Type}, Prog σ ℓ α → Prog σ ℓ α → Prop) : Prop extends Sequencing C where
  read : ∀ {α : Type} (f : σ → α), (∀ x s, f (ι x s) = f s) →
    C (Prog.read f) (Prog.read f)

theorem Congruence.reading {τ : Type} {ι : τ → σ → σ}
    {C : ∀ {α : Type}, Prog σ ℓ α → Prog σ ℓ α → Prop} (h : Congruence C) : Reading ι C :=
  { h with read := fun f _ => h.read f }

theorem Sequencing.ite {C : ∀ {α : Type}, Prog σ ℓ α → Prog σ ℓ α → Prop}
    (_ : Sequencing C) {b : Prop} [Decidable b] {m m' k k' : Prog σ ℓ α} (hm : C m m')
    (hk : C k k') :
    C (if b then m else k) (if b then m' else k') := by
  split
  · exact hm
  · exact hk

theorem Sequencing.loop {C : ∀ {α : Type}, Prog σ ℓ α → Prog σ ℓ α → Prop}
    (hC : Sequencing C) {body body' : β → Prog σ ℓ (Iter β γ)}
    (hbody : ∀ b, C (body b) (body' b)) {n n' : Nat} (hn : n ≤ n') (b : β) :
    C (loop body n b) (loop body' n' b) := by
  induction n generalizing n' b with
  | zero => exact hC.timeout _
  | succ n ih =>
      obtain ⟨k, rfl⟩ : ∃ k, n' = k + 1 := ⟨n' - 1, by omega⟩
      refine hC.bind (hbody b) ?_
      intro i
      cases i with
      | again b' => exact ih (by omega) b'
      | leave c => exact hC.pure c

/-! ## A preorder along a run -/

/-- {lit}`R` leads from the start of a run to each of its steps, across each step,
from one step to the next, and from there to the end. -/
structure Run.Along (R : σ → σ → Prop) (s : σ) (r : Run σ ℓ α) : Prop where
  before : ∀ {st}, st ∈ r.steps → R s st.before
  across : ∀ {st}, st ∈ r.steps → R st.before st.after
  between : r.steps.Pairwise fun st₁ st₂ => R st₁.after st₂.before
  later : ∀ {st s'}, st ∈ r.steps → r.outcome.state = some s' → R st.after s'
  ends : ∀ {s'}, r.outcome.state = some s' → R s s'

/-- Every run of a program follows {lit}`R`. -/
def Along (R : σ → σ → Prop) (m : Prog σ ℓ α) : Prop := ∀ s, (m.run s).Along R s

/-- A run that performs no step and stays where it is. -/
theorem Run.along_of_stay {R : σ → σ → Prop} (hrefl : ∀ s, R s s) {s : σ} {r : Run σ ℓ α}
    (hsteps : r.steps = []) (hstate : ∀ s', r.outcome.state = some s' → s' = s) :
    r.Along R s where
  before := by
    intro st hst
    simp [hsteps] at hst
  across := by
    intro st hst
    simp [hsteps] at hst
  between := by simp [hsteps]
  later := by
    intro st s' hst
    simp [hsteps] at hst
  ends := by
    intro s' hs'
    rw [hstate s' hs']
    exact hrefl s

theorem Prog.along_step {R : σ → σ → Prop} (hrefl : ∀ s, R s s) {l : ℓ} {f : σ → σ} {s : σ}
    (hf : R s (f s)) : ((Prog.step l f : Prog σ ℓ Unit).run s).Along R s where
  before := by
    intro st hst
    simp only [Prog.run_step, List.mem_singleton] at hst
    rw [hst]
    exact hrefl s
  across := by
    intro st hst
    simp only [Prog.run_step, List.mem_singleton] at hst
    rw [hst]
    exact hf
  between := by simp
  later := by
    intro st s' hst hs'
    simp only [Prog.run_step, List.mem_singleton] at hst
    simp only [Prog.run_step, Outcome.state, Option.some.injEq] at hs'
    rw [hst, ← hs']
    exact hrefl _
  ends := by
    intro s' hs'
    simp only [Prog.run_step, Outcome.state, Option.some.injEq] at hs'
    rw [← hs']
    exact hf

theorem Prog.along_bind {R : σ → σ → Prop} (htrans : ∀ a b c, R a b → R b c → R a c)
    {m : Prog σ ℓ α} {f : α → Prog σ ℓ β} {s : σ} (hm : (m.run s).Along R s)
    (hf : ∀ a s', (m.run s).outcome = .done a s' → ((f a).run s').Along R s') :
    ((m >>= f).run s).Along R s := by
  -- Only a normal end of the first part runs the second part.
  cases hout : (m.run s).outcome with
  | done a s₁ =>
      have hfa : ((f a).run s₁).Along R s₁ := hf a s₁ hout
      have hs₁ : (m.run s).outcome.state = some s₁ := by rw [hout]; rfl
      rw [Prog.bind_done hout]
      refine ⟨?_, ?_, ?_, ?_, ?_⟩
      · intro st hst
        rcases List.mem_append.mp hst with hst | hst
        · exact hm.before hst
        · exact htrans _ _ _ (hm.ends hs₁) (hfa.before hst)
      · intro st hst
        rcases List.mem_append.mp hst with hst | hst
        · exact hm.across hst
        · exact hfa.across hst
      · rw [List.pairwise_append]
        refine ⟨hm.between, hfa.between, ?_⟩
        intro st₁ hst₁ st₂ hst₂
        exact htrans _ _ _ (hm.later hst₁ hs₁) (hfa.before hst₂)
      · intro st s' hst hs'
        rcases List.mem_append.mp hst with hst | hst
        · exact htrans _ _ _ (hm.later hst hs₁) (hfa.ends hs')
        · exact hfa.later hst hs'
      · intro s' hs'
        exact htrans _ _ _ (hm.ends hs₁) (hfa.ends hs')
  | fault s₁ =>
      have hs₁ : (m.run s).outcome.state = some s₁ := by rw [hout]; rfl
      rw [Prog.bind_fault hout]
      exact ⟨hm.before, hm.across, hm.between, fun hst hs' => hm.later hst (hs₁.trans hs'),
        fun hs' => hm.ends (hs₁.trans hs')⟩
  | timeout =>
      rw [Prog.bind_timeout hout]
      exact ⟨hm.before, hm.across, hm.between, fun _ hs' => (Option.some_ne_none _ hs'.symm).elim,
        fun hs' => (Option.some_ne_none _ hs'.symm).elim⟩

/-- Following a preorder is a congruence. -/
theorem along_congruence {R : σ → σ → Prop} (hrefl : ∀ s, R s s)
    (htrans : ∀ a b c, R a b → R b c → R a c) :
    Congruence fun {_} (m _ : Prog σ ℓ _) => Along R m where
  pure a s := Run.along_of_stay hrefl rfl (by
    intro s' hs'
    simpa [Outcome.state] using hs'.symm)
  bind hm hf s := Prog.along_bind htrans (hm s) fun a s' _ => hf a s'
  read f s := Run.along_of_stay hrefl rfl (by
    intro s' hs'
    simpa [Outcome.state] using hs'.symm)
  fault s := Run.along_of_stay hrefl rfl (by
    intro s' hs'
    simpa [Outcome.state] using hs'.symm)
  timeout _ s := Run.along_of_stay hrefl rfl (by
    intro s' hs'
    cases hs')

/-! ## An invariant along a run -/

/-- The contract of a run that keeps an invariant {lit}`I` and has only steps that
satisfy {lit}`P`. -/
def Contract.keeps (I : σ → Prop) (P : Step σ ℓ → Prop) : Contract σ ℓ :=
  ⟨fun _ => False, P, I, True⟩

/-- Runs that start with the invariant {lit}`I` keep it, and have only steps that
satisfy {lit}`P`. -/
def Keeps (I : σ → Prop) (P : Step σ ℓ → Prop) (m : Prog σ ℓ α) : Prop :=
  ∀ s, I s → (m.run s).Meets (Contract.keeps I P) fun _ => I

section Keeps

variable {I : σ → Prop} {P : Step σ ℓ → Prop} {m : Prog σ ℓ α}

theorem Keeps.emits (h : Keeps I P m) {s : σ} (hs : I s) {st : Step σ ℓ}
    (hst : st ∈ (m.run s).steps) : P st :=
  (h s hs).emits (fun _ => id) hst

theorem Keeps.ends (h : Keeps I P m) {s s' : σ} {a : α} (hs : I s)
    (hout : (m.run s).outcome = .done a s') : I s' :=
  (h s hs).of_done (fun _ _ => id) hout

end Keeps

/-- Keeping an invariant is a congruence. -/
theorem keeps_congruence {I : σ → Prop} {P : Step σ ℓ → Prop} :
    Congruence fun {_} (m _ : Prog σ ℓ _) => Keeps I P m where
  pure _ _ hs := Prog.meets_pure hs
  bind hm hf s hs := Prog.meets_bind (hm s hs) hf
  read _ _ hs := Prog.meets_read hs
  fault _ hs := Prog.meets_fault hs
  timeout _ _ _ := Prog.meets_timeout trivial

/-! ## One relation inside a run and another at its end -/

/-- The contract of a run that passes only through states that satisfy {lit}`I`. -/
def Contract.within (I : σ → Prop) : Contract σ ℓ :=
  ⟨fun _ => False, fun st => I st.before ∧ I st.after, I, True⟩

/-- Every state a run passes through, or gets stuck in, is {lit}`In`-related to its
start; the state it ends normally in is {lit}`Out`-related to it. -/
def Visits (In Out : σ → σ → Prop) (m : Prog σ ℓ α) : Prop :=
  ∀ s, (m.run s).Meets (Contract.within (In s)) fun _ => Out s

/-- Visiting only related states is a congruence. -/
theorem visits_congruence {In Out : σ → σ → Prop} (hbefore : ∀ s, In s s)
    (hrefl : ∀ s, Out s s) (hin : ∀ a b c, Out a b → In b c → In a c)
    (htrans : ∀ a b c, Out a b → Out b c → Out a c) :
    Congruence fun {_} (m _ : Prog σ ℓ _) => Visits In Out m where
  pure _ s := Prog.meets_pure (hrefl s)
  bind hm hf s := by
    refine Prog.meets_bind (hm s) fun a s' hout => ?_
    refine Run.Meets.mono ?_ fun _ _ => htrans _ _ _ hout
    refine (hf a s').weaken (fun _ => id) ?_ (fun _ => hin _ _ _ hout) id
    exact fun _ hst => ⟨hin _ _ _ hout hst.1, hin _ _ _ hout hst.2⟩
  read _ s := Prog.meets_read (hrefl s)
  fault s := Prog.meets_fault (hbefore s)
  timeout _ _ := Prog.meets_timeout trivial

/-! ## Larger budgets -/

/-- Wherever the first version does not time out, the second runs the same way. -/
def Settles (m m' : Prog σ ℓ α) : Prop :=
  ∀ s, (m.run s).outcome ≠ .timeout → m'.run s = m.run s

theorem settles_congruence : Congruence fun {_} (m m' : Prog σ ℓ _) => Settles m m' where
  pure _ _ _ := rfl
  bind := by
    intro α β m m' f f' hm hf s hend
    cases hout : (m.run s).outcome with
    | done a s₁ =>
        rw [Prog.bind_done hout] at hend ⊢
        have hm' : m'.run s = m.run s := hm s (by rw [hout]; simp)
        have hf' : (f' a).run s₁ = (f a).run s₁ := hf a s₁ hend
        rw [Prog.bind_done (by rw [hm', hout]), hm', hf']
    | fault s₁ =>
        have hm' : m'.run s = m.run s := hm s (by rw [hout]; simp)
        rw [Prog.bind_fault hout, Prog.bind_fault (by rw [hm', hout]), hm']
    | timeout =>
        rw [Prog.bind_timeout hout] at hend
        exact absurd rfl hend
  read _ _ _ := rfl
  fault _ _ := rfl
  timeout _ _ hend := absurd rfl hend

end Traced
