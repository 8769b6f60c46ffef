import Cact.Library.Congruence

/-!
# Traced programs - monitors

A monitor watches the steps of a run and keeps a value of its own, which it updates
after each of them.  If a part of the state changes only as the monitor computes it from
the steps, that part is known at every point of a run from the steps before it.

Main results:

- Definition {lit}`Follows`: a view of the state is what a monitor computes.
- Theorem {lit}`follows_congruence`: following a monitor is a congruence.
-/

namespace Traced

variable {σ ℓ τ α β : Type} {view : σ → τ} {update : τ → Step σ ℓ → τ}

/-- Along a list of steps, the view is what the monitor computes from a value on. -/
def Watched (view : σ → τ) (update : τ → Step σ ℓ → τ) : τ → List (Step σ ℓ) → Prop
  | _, [] => True
  | a, st :: sts =>
      view st.before = a ∧ view st.after = update a st ∧ Watched view update (update a st) sts

theorem Watched.append {a : τ} {sts sts' : List (Step σ ℓ)} (h : Watched view update a sts)
    (h' : Watched view update (sts.foldl update a) sts') :
    Watched view update a (sts ++ sts') := by
  induction sts generalizing a with
  | nil => exact h'
  | cons st sts ih => exact ⟨h.1, h.2.1, ih h.2.2 h'⟩

/-- The view in front of a step is what the monitor computes from the steps before it. -/
theorem Watched.view_before {a : τ} {pre post : List (Step σ ℓ)} {st : Step σ ℓ}
    (h : Watched view update a (pre ++ st :: post)) : view st.before = pre.foldl update a := by
  induction pre generalizing a with
  | nil => exact h.1
  | cons st' pre ih => exact ih h.2.2

/-- The view behind a step is what the monitor computes from the steps up to it. -/
theorem Watched.view_after {a : τ} {pre post : List (Step σ ℓ)} {st : Step σ ℓ}
    (h : Watched view update a (pre ++ st :: post)) :
    view st.after = update (pre.foldl update a) st := by
  induction pre generalizing a with
  | nil => exact h.2.1
  | cons st' pre ih => exact ih h.2.2

/-- Once the monitor stays at its value, so does the view. -/
theorem Watched.view_stays {a : τ} {pre mid post : List (Step σ ℓ)} {st st' : Step σ ℓ}
    (h : Watched view update a (pre ++ st :: (mid ++ st' :: post)))
    (hstay : ∀ st₁, update (view st.after) st₁ = view st.after) :
    view st'.before = view st.after := by
  have hafter := h.view_after
  rw [← List.cons_append, ← List.append_assoc] at h
  rw [h.view_before, List.foldl_append, List.foldl_cons, ← hafter, List.foldl_fixed' hstay]

/-- A run that starts in a state follows a monitor: along its steps, and up to its
end. -/
structure Run.Follows (view : σ → τ) (update : τ → Step σ ℓ → τ) (s : σ)
    (r : Run σ ℓ α) : Prop where
  steps : Watched view update (view s) r.steps
  ends : ∀ s', r.outcome.state = some s' → view s' = r.steps.foldl update (view s)

/-- Every run of a program follows a monitor. -/
def Follows (view : σ → τ) (update : τ → Step σ ℓ → τ) (m : Prog σ ℓ α) : Prop :=
  ∀ s, (m.run s).Follows view update s

/-- Once the monitor stays at its value, the view does not change any more. -/
theorem Run.Follows.ends_at {s s' : σ} {r : Run σ ℓ α} (h : r.Follows view update s)
    {pre post : List (Step σ ℓ)} {st : Step σ ℓ} (hsteps : r.steps = pre ++ st :: post)
    (hstay : ∀ st', update (view st.after) st' = view st.after)
    (hend : r.outcome.state = some s') : view s' = view st.after := by
  have hwatched := h.steps
  rw [hsteps] at hwatched
  have hends := h.ends s' hend
  rw [hsteps, List.foldl_append, List.foldl_cons, ← hwatched.view_after] at hends
  rw [hends, List.foldl_fixed' hstay]

/-- A step follows a monitor that sees what it does. -/
theorem follows_step {l : ℓ} {f : σ → σ}
    (h : ∀ s, view (f s) = update (view s) ⟨l, s, f s⟩) :
    Follows view update (Prog.step l f : Prog σ ℓ Unit) := by
  intro s
  refine ⟨⟨rfl, h s, trivial⟩, ?_⟩
  intro s' hs'
  cases hs'
  exact h s

/-- A run without steps that stays where it is. -/
theorem Run.follows_of_stay {s : σ} {r : Run σ ℓ α} (hsteps : r.steps = [])
    (hstate : ∀ s', r.outcome.state = some s' → s' = s) : r.Follows view update s where
  steps := by
    rw [hsteps]
    trivial
  ends := by
    intro s' hs'
    rw [hsteps, hstate s' hs']
    rfl

/-- Sequencing: the monitor goes on from what it computed over the first part. -/
theorem Run.Follows.bind {m : Prog σ ℓ α} {f : α → Prog σ ℓ β} {s : σ}
    (hm : (m.run s).Follows view update s)
    (hf : ∀ a s₁, (m.run s).outcome = .done a s₁ → ((f a).run s₁).Follows view update s₁) :
    ((m >>= f).run s).Follows view update s := by
  cases hout : (m.run s).outcome with
  | done a s₁ =>
      rw [Prog.bind_done hout]
      have hview : view s₁ = (m.run s).steps.foldl update (view s) :=
        hm.ends s₁ (by rw [hout]; rfl)
      have hsecond := hf a s₁ hout
      constructor
      · refine hm.steps.append ?_
        rw [← hview]
        exact hsecond.steps
      · intro s' hs'
        rw [hsecond.ends s' hs', List.foldl_append, hview]
  | fault s₁ =>
      rw [Prog.bind_fault hout]
      exact ⟨hm.steps, fun s' hs' => hm.ends s' (by rw [hout]; exact hs')⟩
  | timeout =>
      rw [Prog.bind_timeout hout]
      exact ⟨hm.steps, fun s' hs' => hm.ends s' (by rw [hout]; exact hs')⟩

theorem Follows.bind {m : Prog σ ℓ α} {f : α → Prog σ ℓ β} (hm : Follows view update m)
    (hf : ∀ a, Follows view update (f a)) : Follows view update (m >>= f) :=
  fun s => (hm s).bind fun a s₁ _ => hf a s₁

theorem follows_read (f : σ → α) : Follows view update (Prog.read f : Prog σ ℓ α) :=
  fun s => Run.follows_of_stay rfl (by
    intro s' hs'
    simpa [Outcome.state] using hs'.symm)

/-- Following a monitor is a congruence. -/
theorem follows_congruence :
    Congruence fun {_} (m _ : Prog σ ℓ _) => Follows view update m where
  pure a s := Run.follows_of_stay rfl (by
    intro s' hs'
    simpa [Outcome.state] using hs'.symm)
  bind hm hf := hm.bind hf
  read f := follows_read f
  fault s := Run.follows_of_stay rfl (by
    intro s' hs'
    simpa [Outcome.state] using hs'.symm)
  timeout _ s := Run.follows_of_stay rfl (by
    intro s' hs'
    cases hs')

/-! ## First occurrences -/

/-- If a list has an element with a property behind {lit}`pre`, and none with it in
{lit}`pre'`, it starts with {lit}`pre'` and the element behind that no later than with
{lit}`pre` and its element. -/
theorem prefix_of_first {p : α → Prop} {pre post pre' post' : List α} {x x' : α}
    (h : pre ++ x :: post = pre' ++ x' :: post') (hx : p x) (hnone : ∀ y ∈ pre', ¬ p y) :
    pre' ++ [x'] <+: pre ++ [x] := by
  have hpre : pre ++ [x] <+: pre ++ x :: post := ⟨post, by simp⟩
  have hpre' : pre' ++ [x'] <+: pre ++ x :: post := ⟨post', by simp [h]⟩
  refine List.prefix_of_prefix_length_le hpre' hpre ?_
  by_contra hlong
  have hfirst : pre ++ [x] <+: pre' := by
    refine List.prefix_of_prefix_length_le hpre ⟨x' :: post', h.symm⟩ ?_
    simp only [List.length_append, List.length_singleton] at hlong ⊢
    omega
  exact hnone x (hfirst.subset (by simp)) hx

end Traced
