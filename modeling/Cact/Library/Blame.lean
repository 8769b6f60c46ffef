import Cact.Library.Contract

/-!
# Traced programs - which step is to blame for a fault

A predicate on steps tells the sound ones from the others.  It is *exact* for a program
if the program faults only after an unsound step, and returns only if every step was
sound.  Then a run of the program returns, or takes an unsound step, and never both.

Main results:

- Theorem {lit}`judged_bind`: exactness is preserved by sequencing.
- Theorem {lit}`judged_mark_bind`: at a mark, one shows that the program behind it goes on
  exactly if the mark is sound.
- Theorem {lit}`judged_loop`: exactness of a loop from that of its iterations.
-/

namespace Traced

variable {σ ℓ α β γ : Type} {P : Step σ ℓ → Prop}

/-- A run returns only through sound steps, to a state that satisfies {lit}`Q`, and
faults only after an unsound one. -/
def Run.Judged (P : Step σ ℓ → Prop) (r : Run σ ℓ α) (Q : α → σ → Prop) : Prop :=
  match r.outcome with
  | .done a s => (∀ st ∈ r.steps, P st) ∧ Q a s
  | .fault _ => ∃ st ∈ r.steps, ¬ P st
  | .timeout => True

theorem Run.Judged.mono {r : Run σ ℓ α} {Q R : α → σ → Prop} (h : r.Judged P Q)
    (hQR : ∀ a s, Q a s → R a s) : r.Judged P R := by
  unfold Run.Judged at h ⊢
  cases hout : r.outcome with
  | done a s =>
      rw [hout] at h
      exact ⟨h.1, hQR a s h.2⟩
  | fault s =>
      rw [hout] at h
      exact h
  | timeout => trivial

/-- What a judged run returns. -/
theorem Run.Judged.lax {r : Run σ ℓ α} {Q : α → σ → Prop} (h : r.Judged P Q) :
    r.Meets Contract.lax Q := by
  rw [Run.meets_lax_iff]
  intro a s hout
  unfold Run.Judged at h
  rw [hout] at h
  exact h.2

/-- A judged run that does not time out returns exactly if its steps are sound. -/
theorem Run.Judged.returns_iff {r : Run σ ℓ α} {Q : α → σ → Prop} (h : r.Judged P Q)
    (hend : r.outcome ≠ .timeout) :
    (∃ a s, r.outcome = .done a s ∧ Q a s) ↔ ∀ st ∈ r.steps, P st := by
  unfold Run.Judged at h
  cases hout : r.outcome with
  | done a s =>
      rw [hout] at h
      constructor
      · intro _
        exact h.1
      · intro _
        exact ⟨a, s, rfl, h.2⟩
  | fault s =>
      rw [hout] at h
      obtain ⟨st, hst, hbad⟩ := h
      constructor
      · intro hdone
        obtain ⟨a, s', hdone, _⟩ := hdone
        cases hdone
      · intro hall
        exact absurd (hall st hst) hbad
  | timeout => exact absurd hout hend

section Rules

variable {Q : α → σ → Prop} {s : σ}

theorem judged_pure {a : α} (h : Q a s) : ((pure a : Prog σ ℓ α).run s).Judged P Q := by
  refine ⟨?_, h⟩
  intro st hst
  cases hst

theorem judged_read {f : σ → α} (h : Q (f s) s) :
    ((Prog.read f : Prog σ ℓ α).run s).Judged P Q := by
  refine ⟨?_, h⟩
  intro st hst
  cases hst

theorem judged_step {l : ℓ} {f : σ → σ} {Q : Unit → σ → Prop} (hP : P ⟨l, s, f s⟩)
    (h : Q () (f s)) : ((Prog.step l f : Prog σ ℓ Unit).run s).Judged P Q := by
  refine ⟨?_, h⟩
  intro st hst
  simp only [Prog.run_step, List.mem_singleton] at hst
  rw [hst]
  exact hP

theorem judged_timeout : ((Prog.timeout : Prog σ ℓ α).run s).Judged P Q := trivial

/-- Sequencing: the second part starts wherever the first part may end. -/
theorem judged_bind {m : Prog σ ℓ α} {f : α → Prog σ ℓ β} {R : β → σ → Prop}
    (hm : (m.run s).Judged P Q) (hf : ∀ a s', Q a s' → ((f a).run s').Judged P R) :
    ((m >>= f).run s).Judged P R := by
  unfold Run.Judged at hm
  cases hout : (m.run s).outcome with
  | done a s' =>
      rw [hout] at hm
      have hrest := hf a s' hm.2
      rw [Prog.bind_done hout]
      unfold Run.Judged at hrest ⊢
      cases hend : ((f a).run s').outcome with
      | done b s'' =>
          rw [hend] at hrest
          refine ⟨?_, hrest.2⟩
          intro st hst
          rcases List.mem_append.mp hst with hst | hst
          · exact hm.1 st hst
          · exact hrest.1 st hst
      | fault s'' =>
          rw [hend] at hrest
          obtain ⟨st, hst, hbad⟩ := hrest
          exact ⟨st, List.mem_append_right _ hst, hbad⟩
      | timeout => trivial
  | fault s' =>
      rw [hout] at hm
      rw [Prog.bind_fault hout]
      exact hm
  | timeout =>
      rw [Prog.bind_timeout hout]
      trivial

/-- Behind a sound mark the program is judged; behind another one it must not return. -/
theorem judged_mark_bind {l : ℓ} {k : Unit → Prog σ ℓ α}
    (hsound : P ⟨l, s, s⟩ → ((k ()).run s).Judged P Q)
    (hbad : ¬ P ⟨l, s, s⟩ → ((k ()).run s).Meets Contract.lax fun _ _ => False) :
    ((Prog.mark l >>= k).run s).Judged P Q := by
  by_cases hP : P ⟨l, s, s⟩
  · refine judged_bind (Q := fun _ s' => s' = s) (judged_step hP rfl) ?_
    intro _ s' hs'
    rw [hs']
    exact hsound hP
  · have hmark : ((Prog.mark l : Prog σ ℓ Unit).run s).outcome = .done () s := rfl
    have hnever := hbad hP
    rw [Run.meets_lax_iff] at hnever
    rw [Prog.bind_done hmark]
    unfold Run.Judged
    cases hend : ((k ()).run s).outcome with
    | done a s' => exact (hnever a s' hend).elim
    | fault s' => exact ⟨⟨l, s, s⟩, List.mem_append_left _ List.mem_cons_self, hP⟩
    | timeout => trivial

end Rules

/-- A loop whose iterations keep an invariant. -/
theorem judged_loop {body : β → Prog σ ℓ (Iter β γ)} {Q : γ → σ → Prop} (I : β → σ → Prop)
    (hbody : ∀ b s, I b s → ((body b).run s).Judged P fun i s' =>
      i.Satisfies (I · s') (Q · s'))
    (n : Nat) {b : β} {s : σ} (hI : I b s) : ((loop body n b).run s).Judged P Q := by
  induction n generalizing b s with
  | zero => exact judged_timeout
  | succ n ih =>
      refine judged_bind (hbody b s hI) ?_
      intro i s' hi
      cases i with
      | again b' => exact ih hi
      | leave v => exact judged_pure hi

/-- A program is exact from the states {lit}`I`, and leads back to them. -/
def Exact (I : σ → Prop) (P : Step σ ℓ → Prop) (m : Prog σ ℓ α) : Prop :=
  ∀ s, I s → (m.run s).Judged P fun _ => I

end Traced
