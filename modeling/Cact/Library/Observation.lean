import Cact.Library.Congruence

/-!
# Traced programs - what a run takes from a part of the state

Two questions about a kind of step through which a program uses a part of its state that
nobody has set.  If a run performs no such step, does it depend on that part?  And if it
does perform one, can this be seen in its result?

Main results:

- Theorem {lit}`mirrors_sequencing`: two programs that differ only where such a step
  follows mirror each other, by one pass over the program text.
- Theorem {lit}`Run.MirroredBy.avoids`: mirrored runs lack such a step together.
- Theorems {lit}`Shows.bind` and {lit}`shows_loop`: how the trace of such a step is
  handed on from one part of a program to the next.
-/

namespace Traced

variable {σ ℓ α β γ : Type}

/-! ## Runs without such a step -/

/-- The same end, in another state. -/
def Outcome.map (ι : σ → σ) : Outcome σ α → Outcome σ α
  | .done a s => .done a (ι s)
  | .fault s => .fault (ι s)
  | .timeout => .timeout

/-- No step of a run has a label that satisfies {lit}`P`. -/
def Run.Avoids (P : ℓ → Prop) (r : Run σ ℓ α) : Prop := ∀ st ∈ r.steps, ¬ P st.label

/-- The second run takes the steps of the first one and ends as it does, in the states
that {lit}`ι` gives. -/
structure Run.MirroredBy (ι : σ → σ) (r r' : Run σ ℓ α) : Prop where
  labels : r'.steps.map Step.label = r.steps.map Step.label
  outcome : r'.outcome = r.outcome.map ι

/-- Steps with the same labels avoid the same ones. -/
theorem Run.MirroredBy.avoids {ι : σ → σ} {P : ℓ → Prop} {r r' : Run σ ℓ α}
    (h : r.MirroredBy ι r') (hr : r.Avoids P) : r'.Avoids P := by
  intro st hst hP
  have hmem : st.label ∈ r.steps.map Step.label := by
    rw [← h.labels]
    exact List.mem_map_of_mem hst
  obtain ⟨st', hst', hlabel⟩ := List.mem_map.mp hmem
  rw [← hlabel] at hP
  exact hr st' hst' hP

/-- Wherever the first version neither times out nor takes a step of the kind, the second
one mirrors it from the state that {lit}`ι` gives. -/
def Mirrors (ι : σ → σ) (P : ℓ → Prop) (m m' : Prog σ ℓ α) : Prop :=
  ∀ s, (m.run s).Avoids P → (m.run s).outcome ≠ .timeout →
    (m.run s).MirroredBy ι (m'.run (ι s))

section Mirrors

variable {ι : σ → σ} {P : ℓ → Prop}

/-- Mirroring is preserved by sequencing. -/
theorem mirrors_sequencing : Sequencing fun {_} (m m' : Prog σ ℓ _) => Mirrors ι P m m' where
  pure _ _ _ _ := ⟨rfl, rfl⟩
  bind := by
    intro α β m m' f f' hm hf s havoids hend
    cases hout : (m.run s).outcome with
    | done a s₁ =>
        rw [Prog.bind_done hout] at havoids hend ⊢
        have hfirst : (m.run s).MirroredBy ι (m'.run (ι s)) := by
          refine hm s ?_ (by rw [hout]; simp)
          exact fun st hst => havoids st (List.mem_append_left _ hst)
        have hsecond : ((f a).run s₁).MirroredBy ι ((f' a).run (ι s₁)) :=
          hf a s₁ (fun st hst => havoids st (List.mem_append_right _ hst)) hend
        rw [Prog.bind_done (hfirst.outcome.trans (by rw [hout]; rfl))]
        constructor
        · simp only [List.map_append, hfirst.labels, hsecond.labels]
        · exact hsecond.outcome
    | fault s₁ =>
        rw [Prog.bind_fault hout] at havoids ⊢
        have hfirst : (m.run s).MirroredBy ι (m'.run (ι s)) :=
          hm s havoids (by rw [hout]; simp)
        rw [Prog.bind_fault (hfirst.outcome.trans (by rw [hout]; rfl))]
        exact ⟨hfirst.labels, rfl⟩
    | timeout =>
        rw [Prog.bind_timeout hout] at hend
        exact absurd rfl hend
  timeout _ _ _ hend := absurd rfl hend

theorem mirrors_fault : Mirrors ι P (Prog.fault : Prog σ ℓ α) Prog.fault :=
  fun _ _ _ => ⟨rfl, rfl⟩

theorem mirrors_read {f : σ → α} (hf : ∀ s, f (ι s) = f s) :
    Mirrors (ℓ := ℓ) ι P (Prog.read f) (Prog.read f) := by
  intro s _ _
  refine ⟨rfl, ?_⟩
  simp [Outcome.map, hf]

theorem mirrors_step {l : ℓ} {f : σ → σ} (hf : ∀ s, f (ι s) = ι (f s)) :
    Mirrors ι P (Prog.step l f : Prog σ ℓ Unit) (Prog.step l f) := by
  intro s _ _
  refine ⟨rfl, ?_⟩
  simp [Outcome.map, hf]

/-- Where a step of the kind follows at once, the two versions may do anything. -/
theorem mirrors_mark_bind {l : ℓ} (hl : P l) {k k' : Unit → Prog σ ℓ α} :
    Mirrors ι P (Prog.mark l >>= k) (Prog.mark l >>= k') := by
  intro s havoids _
  have hmem : (⟨l, s, s⟩ : Step σ ℓ) ∈ ((Prog.mark l >>= k).run s).steps := by
    have hmark : ((Prog.mark l : Prog σ ℓ Unit).run s).outcome = .done () s := rfl
    rw [Prog.bind_done hmark]
    exact List.mem_cons_self
  exact absurd hl (havoids _ hmem)

end Mirrors

/-! ## Runs with such a step -/

/-- The run has a step whose label satisfies {lit}`P`. -/
def Run.Has (P : ℓ → Prop) (r : Run σ ℓ α) : Prop := ∃ st ∈ r.steps, P st.label

/-- From the states {lit}`I`, which it keeps, a program that returns shows with
{lit}`Q` that it took a step of the kind, or that {lit}`b` holds. -/
def Shows (I : σ → Prop) (P : ℓ → Prop) (b : Prop) (m : Prog σ ℓ α) (Q : α → Prop) : Prop :=
  ∀ s, I s → ∀ a s', (m.run s).outcome = .done a s' → I s' ∧ (b ∨ (m.run s).Has P → Q a)

section Shows

variable {I : σ → Prop} {P : ℓ → Prop} {b : Prop} {m : Prog σ ℓ α} {Q R : α → Prop}

theorem Shows.mono (h : Shows I P b m Q) (hQ : ∀ a, Q a → R a) : Shows I P b m R := by
  intro s hs a s' hout
  have hstep := h s hs a s' hout
  exact ⟨hstep.1, fun hb => hQ a (hstep.2 hb)⟩

theorem Shows.of_imp {b' : Prop} (h : Shows I P b m Q) (hb : b' → b) : Shows I P b' m Q := by
  intro s hs a s' hout
  have hstep := h s hs a s' hout
  exact ⟨hstep.1, fun hor => hstep.2 (hor.imp_left hb)⟩

/-- What was known before still is. -/
theorem Shows.frame (h : Shows I P False m Q) : Shows I P b m fun a => b ∨ Q a := by
  intro s hs a s' hout
  have hstep := h s hs a s' hout
  refine ⟨hstep.1, fun hor => ?_⟩
  rcases hor with hb | hhas
  · exact Or.inl hb
  · exact Or.inr (hstep.2 (Or.inr hhas))

/-- Sequencing: what the first part shows, the second part hands on. -/
theorem Shows.bind {f : α → Prog σ ℓ β} {S : β → Prop} (hm : Shows I P b m Q)
    (hf : ∀ a, Shows I P (Q a) (f a) S) : Shows I P b (m >>= f) S := by
  intro s hs c s' hout
  cases hfirst : (m.run s).outcome with
  | done a s₁ =>
      rw [Prog.bind_done hfirst] at hout ⊢
      have hstep := hm s hs a s₁ hfirst
      have hrest := hf a s₁ hstep.1 c s' hout
      refine ⟨hrest.1, fun hb => hrest.2 ?_⟩
      -- The step was taken in the first part, or in the second one.
      rcases hb with hb | ⟨st, hst, hP⟩
      · exact Or.inl (hstep.2 (Or.inl hb))
      · rcases List.mem_append.mp hst with hst | hst
        · exact Or.inl (hstep.2 (Or.inr ⟨st, hst, hP⟩))
        · exact Or.inr ⟨st, hst, hP⟩
  | fault s₁ =>
      rw [Prog.bind_fault hfirst] at hout
      cases hout
  | timeout =>
      rw [Prog.bind_timeout hfirst] at hout
      cases hout

theorem shows_pure {a : α} (h : b → Q a) : Shows I P b (pure a : Prog σ ℓ α) Q := by
  intro s hs a' s' hout
  cases hout
  refine ⟨hs, fun hb => ?_⟩
  rcases hb with hb | ⟨st, hst, _⟩
  · exact h hb
  · cases hst

theorem shows_ite {c : Prop} [Decidable c] {k : Prog σ ℓ α} (hm : Shows I P b m Q)
    (hk : Shows I P b k Q) : Shows I P b (if c then m else k) Q := by
  split
  · exact hm
  · exact hk

theorem shows_timeout : Shows I P b (Prog.timeout : Prog σ ℓ α) Q := by
  intro s _ a s' hout
  cases hout

/-- A program that takes no such step hands on what it was given. -/
theorem shows_of_keeps (h : Keeps I (fun st => ¬ P st.label) m) :
    Shows I P b m fun _ => b := by
  intro s hs a s' hout
  refine ⟨h.ends hs hout, fun hb => ?_⟩
  rcases hb with hb | ⟨st, hst, hP⟩
  · exact hb
  · exact absurd hP (h.emits hs hst)

/-- A loop hands on what its iterations hand on. -/
theorem shows_loop {body : β → Prog σ ℓ (Iter β γ)} {J : β → Prop} {S : γ → Prop}
    (hbody : ∀ x, Shows I P (J x) (body x) (Iter.Satisfies J S))
    (n : Nat) (x : β) : Shows I P (J x) (loop body n x) S := by
  induction n generalizing x with
  | zero => exact shows_timeout
  | succ n ih =>
      refine (hbody x).bind fun i => ?_
      cases i with
      | again x' => exact ih x'
      | leave v => exact shows_pure id

end Shows

end Traced
