import Cact.Library.Run
import Mathlib.Algebra.Ring.Nat

/-!
# Traced programs - amortized cost

The steps of a program that reads an input are paid for by what it reads.  Each unit of the
input is worth a fixed number of steps.  A piece of the program *affords* its run on a credit
{lit}`k` if it takes at most {lit}`k` steps without reading anything, and if whatever it reads
pays for its steps up to the credit, with a reserve left over.

A loop goes round as often as it likes on twice the credit of one iteration, as long as each
iteration that goes round again reads something: the reserve pays for the next one.

Main results:

- Definition {lit}`Tariff.Affords`: a run stays within its credit and what it reads.
- Theorem {lit}`Tariff.affords_bind`: the second part gets what the first leaves.
- Theorem {lit}`Tariff.affords_consume`: reading something pays for what comes behind.
- Theorem {lit}`Tariff.affords_loop`: a loop.
-/

namespace Traced

variable {σ ℓ α β γ : Type}

/-- What steps cost, how much of the input a state has left, what a unit of it is worth, and
how much is put aside when some of it is read. -/
structure Tariff (σ ℓ : Type) where
  price : ℓ → Nat
  size : σ → Nat
  Valid : σ → Prop
  rate : Nat
  reserve : Nat

namespace Tariff

variable (c : Tariff σ ℓ)

/-- What a list of steps costs. -/
def cost (sts : List (Step σ ℓ)) : Nat := (sts.map fun st => c.price st.label).sum

/-- No steps cost nothing. -/
@[simp]
theorem cost_nil : c.cost [] = 0 := rfl

/-- A first step costs its price. -/
@[simp]
theorem cost_cons (st : Step σ ℓ) (sts : List (Step σ ℓ)) :
    c.cost (st :: sts) = c.price st.label + c.cost sts := by
  simp [cost]

/-- The costs of two parts of a run add up. -/
@[simp]
theorem cost_append (sts sts' : List (Step σ ℓ)) :
    c.cost (sts ++ sts') = c.cost sts + c.cost sts' := by
  simp [cost]

/-- On the way from {lit}`s` to {lit}`s'` the amount {lit}`n` is paid, on the credit {lit}`k`. -/
def Pays (k : Nat) (s s' : σ) (n : Nat) : Prop :=
  c.size s' = c.size s ∧ n ≤ k ∨
    c.size s' < c.size s ∧ n + c.reserve + c.rate * c.size s' ≤ c.rate * c.size s + k

/-- What a run from {lit}`s` costs is paid for on the credit {lit}`k`. -/
def Affords (k : Nat) (s : σ) (r : Run σ ℓ α) : Prop :=
  match r.outcome with
  | .done _ s' => c.Valid s' ∧ c.Pays k s s' (c.cost r.steps)
  | .fault _ => c.cost r.steps ≤ c.rate * c.size s + k
  | .timeout => True

/-- A run from {lit}`s` reads some of the input, and costs at most {lit}`extra` more than the
length of what it reads. -/
def Consumes (extra : Nat) (s : σ) (r : Run σ ℓ α) : Prop :=
  ∃ a s', r.outcome = .done a s' ∧ c.Valid s' ∧ c.size s' < c.size s ∧
    c.cost r.steps + c.size s' ≤ c.size s + extra

variable {c} {k k' n n' : Nat} {s s' s'' : σ}

/-! ## Payments -/

/-- Standing still is paid for. -/
theorem Pays.refl : c.Pays k s s 0 := Or.inl ⟨rfl, Nat.zero_le k⟩

/-- A larger credit pays as well. -/
theorem Pays.mono (h : c.Pays k s s' n) (hk : k ≤ k') : c.Pays k' s s' n := by
  rcases h with ⟨hsize, hn⟩ | ⟨hsize, hn⟩
  · exact Or.inl ⟨hsize, by omega⟩
  · exact Or.inr ⟨hsize, by omega⟩

/-- Credits add up. -/
theorem Pays.trans (h : c.Pays k s s' n) (h' : c.Pays k' s' s'' n') :
    c.Pays (k + k') s s'' (n + n') := by
  rcases h with ⟨hsize, hn⟩ | ⟨hsize, hn⟩
  · rcases h' with ⟨hsize', hn'⟩ | ⟨hsize', hn'⟩
    · exact Or.inl ⟨by omega, by omega⟩
    · rw [hsize] at hsize' hn'
      exact Or.inr ⟨hsize', by omega⟩
  · rcases h' with ⟨hsize', hn'⟩ | ⟨hsize', hn'⟩
    · refine Or.inr ⟨by omega, ?_⟩
      rw [hsize']
      omega
    · exact Or.inr ⟨by omega, by omega⟩

/-- Credit never exceeds what the input is worth. -/
theorem Pays.le (h : c.Pays k s s' n) : n + c.rate * c.size s' ≤ c.rate * c.size s + k := by
  rcases h with ⟨hsize, hn⟩ | ⟨_, hn⟩
  · rw [hsize]
    omega
  · omega

/-! ## Rules -/

variable {m : Prog σ ℓ α} {f : α → Prog σ ℓ β}

/-- A larger credit affords the same run. -/
theorem Affords.mono {r : Run σ ℓ α} (h : c.Affords k s r) (hk : k ≤ k') : c.Affords k' s r := by
  unfold Affords at h ⊢
  cases hout : r.outcome with
  | done a s' =>
      simp only [hout] at h ⊢
      exact ⟨h.1, h.2.mono hk⟩
  | fault s' =>
      simp only [hout] at h ⊢
      omega
  | timeout => trivial

/-- However a run ends, its cost is paid for. -/
theorem Affords.cost_le {r : Run σ ℓ α} (h : c.Affords k s r) (hend : r.outcome ≠ .timeout) :
    c.cost r.steps ≤ c.rate * c.size s + k := by
  unfold Affords at h
  cases hout : r.outcome with
  | done a s' =>
      simp only [hout] at h
      have hle := h.2.le
      omega
  | fault s' =>
      simp only [hout] at h
      exact h
  | timeout => exact absurd hout hend

/-- Steps that lead back to where the run began are paid on credit. -/
theorem Affords.prepend {r : Run σ ℓ α} {sts : List (Step σ ℓ)} (h : c.Affords k s r)
    (hk : k + c.cost sts ≤ k') : c.Affords k' s ⟨sts ++ r.steps, r.outcome⟩ := by
  unfold Affords at h ⊢
  cases hout : r.outcome with
  | done a s' =>
      simp only [hout, cost_append] at h ⊢
      refine ⟨h.1, ?_⟩
      rcases h.2 with ⟨hsize, hn⟩ | ⟨hsize, hn⟩
      · exact Or.inl ⟨hsize, by omega⟩
      · exact Or.inr ⟨hsize, by omega⟩
  | fault s' =>
      simp only [hout, cost_append] at h ⊢
      omega
  | timeout => trivial

/-- A value costs nothing. -/
theorem affords_pure (a : α) (hs : c.Valid s) : c.Affords k s ((pure a : Prog σ ℓ α).run s) :=
  ⟨hs, Pays.refl⟩

/-- Nor does reading. -/
theorem affords_read (g : σ → α) (hs : c.Valid s) :
    c.Affords k s ((Prog.read g : Prog σ ℓ α).run s) :=
  ⟨hs, Pays.refl⟩

/-- A fault at once costs nothing. -/
theorem affords_fault : c.Affords k s ((Prog.fault : Prog σ ℓ α).run s) := Nat.zero_le _

/-- Nor does giving up at once. -/
theorem affords_timeout : c.Affords k s ((Prog.timeout : Prog σ ℓ α).run s) := trivial

/-- A step that reads nothing costs its price. -/
theorem affords_step {l : ℓ} {g : σ → σ} (hg : c.Valid (g s)) (hsize : c.size (g s) = c.size s)
    (hl : c.price l ≤ k) : c.Affords k s ((Prog.step l g : Prog σ ℓ Unit).run s) :=
  ⟨hg, Or.inl ⟨hsize, by simpa using hl⟩⟩

/-- What the first part leaves of the credit is left for the second. -/
theorem affords_bind (hk : k ≤ k') (hm : c.Affords k s (m.run s))
    (hf : ∀ a s', (m.run s).outcome = .done a s' → c.Valid s' →
      c.Affords (k' - k) s' ((f a).run s')) :
    c.Affords k' s ((m >>= f).run s) := by
  unfold Affords at hm
  cases hout : (m.run s).outcome with
  | done a s' =>
      simp only [hout] at hm
      obtain ⟨hs', hpays⟩ := hm
      have hf' := hf a s' hout hs'
      rw [Prog.bind_done hout]
      unfold Affords at hf' ⊢
      cases hout' : ((f a).run s').outcome with
      | done b s'' =>
          simp only [hout', cost_append] at hf' ⊢
          exact ⟨hf'.1, (hpays.trans hf'.2).mono (by omega)⟩
      | fault s'' =>
          simp only [hout', cost_append] at hf' ⊢
          have hle := hpays.le
          omega
      | timeout => trivial
  | fault s' =>
      simp only [hout] at hm
      rw [Prog.bind_fault hout]
      exact Nat.le_trans hm (by omega)
  | timeout =>
      rw [Prog.bind_timeout hout]
      trivial

/-- A unit of the input pays for itself, for the reserve and for a credit. -/
theorem le_rate_mul {extra a b : Nat} (hrate : extra + 1 + c.reserve + k ≤ c.rate) (hab : b < a)
    (hn : n + b ≤ a + extra) : n + c.reserve + k + c.rate * b ≤ c.rate * a := by
  obtain ⟨d, rfl⟩ := Nat.exists_eq_add_of_lt hab
  have hd : d * 1 ≤ d * c.rate := Nat.mul_le_mul_left d (by omega)
  calc n + c.reserve + k + c.rate * b
      ≤ d + c.rate + c.rate * b := by omega
    _ ≤ d * c.rate + c.rate + c.rate * b := by omega
    _ = c.rate * (b + d + 1) := by
        rw [Nat.mul_succ, Nat.mul_add, Nat.mul_comm d]
        omega

/-- Reading pays for itself. -/
theorem Consumes.affords {extra : Nat} {r : Run σ ℓ α} (h : c.Consumes extra s r)
    (hrate : extra + 1 + c.reserve ≤ c.rate) : c.Affords k s r := by
  obtain ⟨a, s', hout, hs', hsize, hcost⟩ := h
  have hpaid := le_rate_mul (k := 0) hrate hsize hcost
  unfold Affords
  rw [hout]
  exact ⟨hs', Or.inr ⟨hsize, by omega⟩⟩

/-- Once some of the input is read, a credit for what comes behind is paid for. -/
theorem affords_consume {extra : Nat} (hm : c.Consumes extra s (m.run s))
    (hrate : extra + 1 + c.reserve + k' ≤ c.rate)
    (hf : ∀ a s', (m.run s).outcome = .done a s' → c.Valid s' → c.Affords k' s' ((f a).run s')) :
    c.Affords k s ((m >>= f).run s) := by
  obtain ⟨a, s', hout, hs', hsize, hcost⟩ := hm
  have hpaid := le_rate_mul hrate hsize hcost
  have hf' := hf a s' hout hs'
  rw [Prog.bind_done hout]
  unfold Affords at hf' ⊢
  cases hout' : ((f a).run s').outcome with
  | done b s'' =>
      simp only [hout', cost_append] at hf' ⊢
      obtain ⟨hs'', hpays⟩ := hf'
      refine ⟨hs'', ?_⟩
      rcases hpays with ⟨hsize', hn⟩ | ⟨hsize', hn⟩
      · rw [← hsize'] at hpaid hsize
        exact Or.inr ⟨hsize, by omega⟩
      · exact Or.inr ⟨by omega, by omega⟩
  | fault s'' =>
      simp only [hout', cost_append] at hf' ⊢
      omega
  | timeout => trivial

/-- A loop whose iterations read something when they go round again.  The reserve of one
iteration pays for the next, so the credit of two suffices. -/
theorem affords_loop {body : β → Prog σ ℓ (Iter β γ)} (hk : k ≤ c.reserve)
    (hbody : ∀ b s, c.Valid s → c.Affords k s ((body b).run s))
    (hreads : ∀ b s b' s', c.Valid s → ((body b).run s).outcome = .done (.again b') s' →
      c.size s' < c.size s)
    (n : Nat) (b : β) (hs : c.Valid s) : c.Affords (2 * k) s ((loop body n b).run s) := by
  -- Before the first iteration that goes round again, the credit of one is enough.
  suffices h : c.Affords (2 * k) s ((loop body n b).run s) ∧
      ∀ a s', ((loop body n b).run s).outcome = .done a s' → c.size s' = c.size s →
        c.cost ((loop body n b).run s).steps ≤ k from h.1
  induction n generalizing b s with
  | zero => exact ⟨affords_timeout, nofun⟩
  | succ n ih =>
      rw [loop]
      have hfirst := hbody b s hs
      unfold Affords at hfirst
      cases hout : ((body b).run s).outcome with
      | done i s₁ =>
          simp only [hout] at hfirst
          obtain ⟨hs₁, hpays⟩ := hfirst
          rw [Prog.bind_done hout]
          cases i with
          | leave x =>
              simp only [Prog.run_pure, List.append_nil]
              refine ⟨⟨hs₁, hpays.mono (by omega)⟩, fun a s' hdone hsize => ?_⟩
              cases hdone
              rcases hpays with ⟨_, hn⟩ | ⟨hlt, _⟩
              · exact hn
              · omega
          | again b' =>
              have hlt := hreads b s b' s₁ hs hout
              have hn : c.cost ((body b).run s).steps + c.reserve + c.rate * c.size s₁ ≤
                  c.rate * c.size s + k := by
                rcases hpays with ⟨hsize, _⟩ | ⟨_, hn⟩
                · omega
                · exact hn
              obtain ⟨hrest, hsame⟩ := ih b' hs₁
              unfold Affords at hrest ⊢
              cases hout' : ((loop body n b').run s₁).outcome with
              | done a s' =>
                  simp only [hout', cost_append] at hrest hsame ⊢
                  obtain ⟨hs', hrest⟩ := hrest
                  have hle : c.size s' < c.size s := by
                    rcases hrest with ⟨hsize, _⟩ | ⟨hsize, _⟩ <;> omega
                  refine ⟨⟨hs', Or.inr ⟨hle, ?_⟩⟩, fun a' t hdone hsize => ?_⟩
                  · rcases hrest with ⟨hsize, _⟩ | ⟨_, hn'⟩
                    · have hone := hsame a s' rfl hsize
                      rw [hsize]
                      omega
                    · omega
                  · cases hdone
                    omega
              | fault s' =>
                  simp only [hout', cost_append] at hrest ⊢
                  exact ⟨by omega, nofun⟩
              | timeout => exact ⟨trivial, nofun⟩
      | fault s₁ =>
          simp only [hout] at hfirst
          rw [Prog.bind_fault hout]
          exact ⟨Nat.le_trans hfirst (by omega), nofun⟩
      | timeout =>
          rw [Prog.bind_timeout hout]
          exact ⟨trivial, nofun⟩

end Tariff

end Traced
