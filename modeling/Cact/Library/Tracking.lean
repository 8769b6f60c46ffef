import Cact.Library.Congruence

/-!
# Traced programs - machines that run along

A machine runs beside a program: each step of the program makes it move, and some of them make
it stuck.  A relation between the states of the machine and those of the program says what the
machine is there for.  If every step keeps the relation, the machine gets through the whole
run.

Main results:

- Definition {lit}`Tracks`: the machine gets through every run, and keeps the relation.
- Theorem {lit}`tracks_congruence`: this is a congruence.
- Theorem {lit}`Tracked.before`: what is known of the machine in front of a step.
-/

namespace Traced

variable {σ ℓ τ α β : Type} {R : τ → σ → Prop} {next : τ → Step σ ℓ → Option τ}

/-- Along a list of steps, the machine moves from a state on, and the relation holds at both
ends of each step. -/
def Tracked (R : τ → σ → Prop) (next : τ → Step σ ℓ → Option τ) : τ → List (Step σ ℓ) → Prop
  | _, [] => True
  | a, st :: sts =>
      R a st.before ∧ ∃ b, next a st = some b ∧ R b st.after ∧ Tracked R next b sts

theorem Tracked.append {a b : τ} {sts sts' : List (Step σ ℓ)} (h : Tracked R next a sts)
    (hb : sts.foldlM next a = some b) (h' : Tracked R next b sts') :
    Tracked R next a (sts ++ sts') := by
  induction sts generalizing a with
  | nil =>
      cases hb
      exact h'
  | cons st sts ih =>
      obtain ⟨hbefore, c, hc, hafter, hrest⟩ := h
      rw [List.foldlM_cons, hc] at hb
      exact ⟨hbefore, c, hc, hafter, ih hrest hb⟩

/-- The machine gets through the steps in front of a step, and the relation holds there. -/
theorem Tracked.before {a : τ} {pre post : List (Step σ ℓ)} {st : Step σ ℓ}
    (h : Tracked R next a (pre ++ st :: post)) :
    ∃ b, pre.foldlM next a = some b ∧ R b st.before := by
  induction pre generalizing a with
  | nil => exact ⟨a, rfl, h.1⟩
  | cons st' pre ih =>
      obtain ⟨_, c, hc, _, hrest⟩ := h
      rw [List.foldlM_cons, hc]
      exact ih hrest

/-- The machine gets through a list of steps. -/
theorem Tracked.gets_through {a : τ} {sts : List (Step σ ℓ)} (h : Tracked R next a sts) :
    ∃ b, sts.foldlM next a = some b := by
  induction sts generalizing a with
  | nil => exact ⟨a, rfl⟩
  | cons st sts ih =>
      obtain ⟨_, c, hc, _, hrest⟩ := h
      rw [List.foldlM_cons, hc]
      exact ih hrest

/-- The machine gets through a run, and the relation holds along it and at its end. -/
structure Run.Tracks (R : τ → σ → Prop) (next : τ → Step σ ℓ → Option τ) (a : τ)
    (r : Run σ ℓ α) : Prop where
  steps : Tracked R next a r.steps
  ends : ∀ s, r.outcome.state = some s → ∃ b, r.steps.foldlM next a = some b ∧ R b s

/-- The machine gets through every run of a program. -/
def Tracks (R : τ → σ → Prop) (next : τ → Step σ ℓ → Option τ) (m : Prog σ ℓ α) : Prop :=
  ∀ a s, R a s → (m.run s).Tracks R next a

theorem Run.tracks_step {a b : τ} {s : σ} {l : ℓ} {f : σ → σ} (ha : R a s)
    (hb : next a ⟨l, s, f s⟩ = some b) (hafter : R b (f s)) :
    ((Prog.step l f : Prog σ ℓ Unit).run s).Tracks R next a := by
  refine ⟨⟨ha, b, hb, hafter, trivial⟩, fun s' hs' => ?_⟩
  cases hs'
  refine ⟨b, ?_, hafter⟩
  rw [Prog.run_step, List.foldlM_cons, hb]
  rfl

/-- A run without steps that stays where it is. -/
theorem Run.tracks_of_stay {a : τ} {s : σ} {r : Run σ ℓ α} (ha : R a s) (hsteps : r.steps = [])
    (hstate : r.outcome.state = some s ∨ r.outcome.state = none) : r.Tracks R next a where
  steps := by
    rw [hsteps]
    trivial
  ends := by
    intro s' hs'
    rcases hstate with hstay | hnone
    · rw [hstay] at hs'
      cases hs'
      rw [hsteps]
      exact ⟨a, rfl, ha⟩
    · rw [hnone] at hs'
      cases hs'

/-- Sequencing: the machine goes on from where the first part left it. -/
theorem Run.Tracks.bind {m : Prog σ ℓ α} {f : α → Prog σ ℓ β} {a : τ} {s : σ}
    (hm : (m.run s).Tracks R next a)
    (hf : ∀ x s' b, (m.run s).outcome = .done x s' → R b s' → ((f x).run s').Tracks R next b) :
    ((m >>= f).run s).Tracks R next a := by
  cases hout : (m.run s).outcome with
  | done x s₁ =>
      obtain ⟨b, hb, hrel⟩ := hm.ends s₁ (by rw [hout]; rfl)
      have hsecond := hf x s₁ b hout hrel
      rw [Prog.bind_done hout]
      refine ⟨hm.steps.append hb hsecond.steps, fun s' hs' => ?_⟩
      obtain ⟨c, hc, hrel'⟩ := hsecond.ends s' hs'
      refine ⟨c, ?_, hrel'⟩
      rw [List.foldlM_append, hb]
      exact hc
  | fault s₁ =>
      rw [Prog.bind_fault hout]
      exact ⟨hm.steps, fun s' hs' => hm.ends s' (by rw [hout]; exact hs')⟩
  | timeout =>
      rw [Prog.bind_timeout hout]
      exact ⟨hm.steps, fun s' hs' => hm.ends s' (by rw [hout]; exact hs')⟩

theorem Tracks.bind {m : Prog σ ℓ α} {f : α → Prog σ ℓ β} (hm : Tracks R next m)
    (hf : ∀ x, Tracks R next (f x)) : Tracks R next (m >>= f) :=
  fun a s ha => (hm a s ha).bind fun x s' b _ hb => hf x b s' hb

theorem tracks_pure (x : α) : Tracks R next (pure x : Prog σ ℓ α) :=
  fun _ _ ha => Run.tracks_of_stay ha rfl (Or.inl rfl)

theorem tracks_read (f : σ → α) : Tracks R next (Prog.read f : Prog σ ℓ α) :=
  fun _ _ ha => Run.tracks_of_stay ha rfl (Or.inl rfl)

/-- Being tracked is a congruence. -/
theorem tracks_congruence : Congruence fun {_} (m _ : Prog σ ℓ _) => Tracks R next m where
  pure := tracks_pure
  bind hm hf := hm.bind hf
  read := tracks_read
  fault _ _ ha := Run.tracks_of_stay ha rfl (Or.inl rfl)
  timeout _ _ _ ha := Run.tracks_of_stay ha rfl (Or.inr rfl)

end Traced
