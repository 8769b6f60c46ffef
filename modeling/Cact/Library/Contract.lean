import Cact.Library.Run

/-!
# Traced programs - contracts

A contract says which steps a run may perform, which steps end its obligations
({lit}`escape`), in which states it may fault, and whether it may time out.  A run *meets* a
contract with postcondition {lit}`Q` if it performs an escaping step, or else performs only
allowed steps and ends in a permitted way, {lit}`Q` holding when it ends normally.

The rules are those of a weakest-precondition calculus: one for each way of
building a program, and two for loops (with and without a variant).

Main results:

- Theorem {lit}`Prog.meets_bind`: sequencing.
- Theorem {lit}`meets_loop`: a loop whose iterations keep an invariant, for
  contracts that tolerate timeouts.
- Theorem {lit}`meets_loop_variant`: a loop whose iterations also decrease a
  measure never uses up a budget larger than that measure.
-/

namespace Traced

/-- The obligations of a run, apart from its postcondition. -/
structure Contract (σ ℓ : Type) where
  escape : Step σ ℓ → Prop
  emit : Step σ ℓ → Prop
  fault : σ → Prop
  timeout : Prop

variable {σ ℓ α β γ : Type} {c : Contract σ ℓ}

/-- What a contract asks of the end of a run. -/
def Outcome.Meets (c : Contract σ ℓ) (o : Outcome σ α) (Q : α → σ → Prop) : Prop :=
  match o with
  | .done a s => Q a s
  | .fault s => c.fault s
  | .timeout => c.timeout

/-- A run meets a contract with a postcondition. -/
def Run.Meets (c : Contract σ ℓ) (r : Run σ ℓ α) (Q : α → σ → Prop) : Prop :=
  (∃ st ∈ r.steps, c.escape st) ∨
    ((∀ st ∈ r.steps, c.emit st) ∧ r.outcome.Meets c Q)

/-- The postcondition may be weakened. -/
theorem Run.Meets.mono {r : Run σ ℓ α} {P Q : α → σ → Prop}
    (h : r.Meets c P) (hPQ : ∀ a s, P a s → Q a s) : r.Meets c Q := by
  rcases h with hescape | ⟨hemit, hend⟩
  · exact Or.inl hescape
  · refine Or.inr ⟨hemit, ?_⟩
    cases hout : r.outcome with
    | done a s =>
        rw [hout] at hend
        exact hPQ a s hend
    | fault s =>
        rw [hout] at hend
        exact hend
    | timeout =>
        rw [hout] at hend
        exact hend

/-- A contract may be replaced by one that allows more. -/
theorem Run.Meets.weaken {c' : Contract σ ℓ} {r : Run σ ℓ α} {Q : α → σ → Prop}
    (h : r.Meets c Q) (hescape : ∀ st, c.escape st → c'.escape st)
    (hemit : ∀ st, c.emit st → c'.emit st) (hfault : ∀ s, c.fault s → c'.fault s)
    (htimeout : c.timeout → c'.timeout) : r.Meets c' Q := by
  rcases h with ⟨st, hmem, hst⟩ | ⟨hall, hend⟩
  · exact Or.inl ⟨st, hmem, hescape st hst⟩
  · refine Or.inr ⟨fun st hst => hemit st (hall st hst), ?_⟩
    cases hout : r.outcome with
    | done a s =>
        rw [hout] at hend
        exact hend
    | fault s =>
        rw [hout] at hend
        exact hfault s hend
    | timeout =>
        rw [hout] at hend
        exact htimeout hend

/-- Without escaping steps, every step is an allowed one. -/
theorem Run.Meets.emits {r : Run σ ℓ α} {Q : α → σ → Prop} (h : r.Meets c Q)
    (hescape : ∀ st, ¬ c.escape st) {st : Step σ ℓ} (hst : st ∈ r.steps) : c.emit st := by
  rcases h with ⟨st', _, hst'⟩ | ⟨hall, _⟩
  · exact absurd hst' (hescape st')
  · exact hall st hst

/-- A run that performs no escaping step does not stop in a forbidden fault. -/
theorem Run.Meets.of_fault {r : Run σ ℓ α} {Q : α → σ → Prop} {s : σ} (h : r.Meets c Q)
    (hescape : ∀ st ∈ r.steps, ¬ c.escape st) (hfault : r.outcome = .fault s) :
    c.fault s := by
  rcases h with ⟨st, hmem, hst⟩ | ⟨_, hend⟩
  · exact absurd hst (hescape st hmem)
  · rw [hfault] at hend
    exact hend

/-- A run that performs no escaping step and ends normally satisfies its
postcondition. -/
theorem Run.Meets.of_done {r : Run σ ℓ α} {Q : α → σ → Prop} {a : α} {s : σ}
    (h : r.Meets c Q) (hescape : ∀ st ∈ r.steps, ¬ c.escape st)
    (hdone : r.outcome = .done a s) : Q a s := by
  rcases h with ⟨st, hmem, hst⟩ | ⟨_, hend⟩
  · exact absurd hst (hescape st hmem)
  · rw [hdone] at hend
    exact hend

/-- The contract that only asks something of normal ends. -/
def Contract.lax : Contract σ ℓ := ⟨fun _ => False, fun _ => True, fun _ => True, True⟩

theorem Run.meets_lax_iff {r : Run σ ℓ α} {Q : α → σ → Prop} :
    r.Meets Contract.lax Q ↔ ∀ a s, r.outcome = .done a s → Q a s := by
  constructor
  · intro h a s hdone
    exact h.of_done (fun _ _ => id) hdone
  · intro h
    refine Or.inr ⟨fun _ _ => trivial, ?_⟩
    cases hout : r.outcome with
    | done a s => exact h a s hout
    | fault s => exact trivial
    | timeout => exact trivial

/-- What is known of a run under any contract without escapes is known of its normal end. -/
theorem Run.Meets.lax {r : Run σ ℓ α} {Q : α → σ → Prop} (h : r.Meets c Q)
    (hescape : ∀ st, ¬ c.escape st) : r.Meets Contract.lax Q :=
  h.weaken (fun st hst => absurd hst (hescape st)) (fun _ _ => trivial) (fun _ _ => trivial)
    fun _ => trivial

/-- The contract that asks something of normal ends unless a certain step is performed. -/
def Contract.unless (escape : Step σ ℓ → Prop) : Contract σ ℓ :=
  ⟨escape, fun _ => True, fun _ => True, True⟩

/-- A run of allowed steps only owes its postcondition, where it may end in any way. -/
theorem Run.Meets.of_lax {r : Run σ ℓ α} {Q : α → σ → Prop} (h : r.Meets Contract.lax Q)
    (hemit : ∀ st ∈ r.steps, c.emit st) (hfault : ∀ s, c.fault s) (htimeout : c.timeout) :
    r.Meets c Q := by
  refine Or.inr ⟨hemit, ?_⟩
  cases hout : r.outcome with
  | done a s => exact Run.meets_lax_iff.mp h a s hout
  | fault s => exact hfault s
  | timeout => exact htimeout

theorem Run.Meets.unless {escape : Step σ ℓ → Prop} {r : Run σ ℓ α} {Q : α → σ → Prop}
    (h : r.Meets Contract.lax Q) : r.Meets (Contract.unless escape) Q :=
  h.of_lax (fun _ _ => trivial) (fun _ => trivial) trivial

/-- A run may be assumed to end in the way it does. -/
theorem Run.Meets.and_outcome {r : Run σ ℓ α} {Q : α → σ → Prop} (h : r.Meets c Q) :
    r.Meets c fun a s => r.outcome = .done a s ∧ Q a s := by
  rcases h with hescape | ⟨hemit, hend⟩
  · exact Or.inl hescape
  · refine Or.inr ⟨hemit, ?_⟩
    unfold Outcome.Meets at hend ⊢
    split at hend
    · exact ⟨‹_›, hend⟩
    · exact hend
    · exact hend

theorem Run.meets_lax_true (r : Run σ ℓ α) : r.Meets Contract.lax fun _ _ => True :=
  Run.meets_lax_iff.mpr fun _ _ _ => trivial

namespace Prog

theorem meets_pure {a : α} {s : σ} {Q : α → σ → Prop} (h : Q a s) :
    ((pure a : Prog σ ℓ α).run s).Meets c Q := by
  refine Or.inr ⟨?_, h⟩
  intro st hst
  simp at hst

theorem meets_read {f : σ → α} {s : σ} {Q : α → σ → Prop} (h : Q (f s) s) :
    ((read f : Prog σ ℓ α).run s).Meets c Q := by
  refine Or.inr ⟨?_, h⟩
  intro st hst
  simp at hst

theorem meets_step {l : ℓ} {f : σ → σ} {s : σ} {Q : Unit → σ → Prop}
    (hemit : c.emit ⟨l, s, f s⟩) (h : Q () (f s)) :
    ((step l f : Prog σ ℓ Unit).run s).Meets c Q := by
  refine Or.inr ⟨?_, h⟩
  intro st hst
  simp only [run_step, List.mem_singleton] at hst
  rw [hst]
  exact hemit

/-- An escaping step discharges every obligation. -/
theorem meets_step_escape {l : ℓ} {f : σ → σ} {s : σ} {Q : Unit → σ → Prop}
    (h : c.escape ⟨l, s, f s⟩) :
    ((step l f : Prog σ ℓ Unit).run s).Meets c Q :=
  Or.inl ⟨_, by simp, h⟩

theorem meets_fault {s : σ} {Q : α → σ → Prop} (h : c.fault s) :
    ((fault : Prog σ ℓ α).run s).Meets c Q := by
  refine Or.inr ⟨?_, h⟩
  intro st hst
  simp at hst

theorem meets_timeout {s : σ} {Q : α → σ → Prop} (h : c.timeout) :
    ((timeout : Prog σ ℓ α).run s).Meets c Q := by
  refine Or.inr ⟨?_, h⟩
  intro st hst
  simp at hst

/-- Sequencing: the second part starts wherever the first part may end. -/
theorem meets_bind {m : Prog σ ℓ α} {f : α → Prog σ ℓ β} {s : σ}
    {R : α → σ → Prop} {Q : β → σ → Prop}
    (hm : (m.run s).Meets c R)
    (hf : ∀ a s', R a s' → ((f a).run s').Meets c Q) :
    ((m >>= f).run s).Meets c Q := by
  rcases hm with ⟨st, hmem, hst⟩ | ⟨hemit, hend⟩
  · refine Or.inl ⟨st, ?_, hst⟩
    simp only [run_bind, Run.andThen]
    split
    · exact List.mem_append_left _ hmem
    · exact hmem
    · exact hmem
  · cases hout : (m.run s).outcome with
    | done a s' =>
        rw [hout] at hend
        rw [bind_done hout]
        rcases hf a s' hend with ⟨st, hmem, hst⟩ | ⟨hemit', hend'⟩
        · exact Or.inl ⟨st, List.mem_append_right _ hmem, hst⟩
        · refine Or.inr ⟨?_, hend'⟩
          intro st hst
          rcases List.mem_append.mp hst with hst | hst
          · exact hemit st hst
          · exact hemit' st hst
    | fault s' =>
        rw [hout] at hend
        rw [bind_fault hout]
        exact Or.inr ⟨hemit, hend⟩
    | timeout =>
        rw [hout] at hend
        rw [bind_timeout hout]
        exact Or.inr ⟨hemit, hend⟩

/-- A mark is passed over. -/
theorem meets_mark_bind {l : ℓ} {m : Prog σ ℓ β} {s : σ} {Q : β → σ → Prop}
    (hemit : c.emit ⟨l, s, s⟩) (h : (m.run s).Meets c Q) :
    ((mark l >>= fun _ => m).run s).Meets c Q := by
  refine meets_bind (R := fun _ s' => s' = s) (meets_step hemit rfl) ?_
  rintro _ _ rfl
  exact h

/-- Once a program has performed an escaping step, its continuation owes nothing. -/
theorem meets_bind_escape {m : Prog σ ℓ α} {f : α → Prog σ ℓ β} {s : σ}
    {Q : β → σ → Prop} (hm : (m.run s).Meets c fun _ _ => False) :
    ((m >>= f).run s).Meets c Q :=
  meets_bind hm fun _ _ hfalse => hfalse.elim

end Prog

/-- A loop whose iterations keep an invariant, under a contract that tolerates
timeouts. -/
theorem meets_loop {body : β → Prog σ ℓ (Iter β γ)} {Q : γ → σ → Prop}
    (I : β → σ → Prop) (htimeout : c.timeout)
    (hbody : ∀ b s, I b s → ((body b).run s).Meets c fun i s' =>
      match i with
      | .again b' => I b' s'
      | .leave v => Q v s')
    (n : Nat) {b : β} {s : σ} (hI : I b s) : ((loop body n b).run s).Meets c Q := by
  induction n generalizing b s with
  | zero => exact Prog.meets_timeout htimeout
  | succ n ih =>
      refine Prog.meets_bind (hbody b s hI) ?_
      intro i s' hi
      cases i with
      | again b' => exact ih hi
      | leave v => exact Prog.meets_pure hi

/-- A loop whose iterations keep an invariant and decrease a measure: a budget
above the measure is never used up, and a smaller one only where timeouts are allowed. -/
theorem meets_loop_variant {body : β → Prog σ ℓ (Iter β γ)} {Q : γ → σ → Prop}
    (I : β → σ → Prop) (v : σ → Nat)
    (hbody : ∀ b s, I b s → ((body b).run s).Meets c fun i s' =>
      match i with
      | .again b' => I b' s' ∧ v s' < v s
      | .leave x => Q x s')
    {n : Nat} {b : β} {s : σ} (hI : I b s) (hn : v s < n ∨ c.timeout) :
    ((loop body n b).run s).Meets c Q := by
  induction n generalizing b s with
  | zero =>
      rcases hn with hn | hn
      · omega
      · exact Prog.meets_timeout hn
  | succ n ih =>
      refine Prog.meets_bind (hbody b s hI) ?_
      intro i s' hi
      cases i with
      | again b' => exact ih hi.1 (hn.imp_left fun h => by have := hi.2; omega)
      | leave x => exact Prog.meets_pure hi

end Traced
