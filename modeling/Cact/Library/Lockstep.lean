import Cact.Library.Run
import Mathlib.Data.List.Forall2

/-!
# Traced programs - two runs in lockstep

Two programs that do the same to different data take the same steps, as long as nothing
happens that the difference can be seen in.  A {lit}`Comparison` says which steps are taken
together, which pairs of steps end the comparison, and in which states the runs may get stuck
together.  The runs are in lockstep if they take steps together up to such a pair, or to a
common end.

The rules are one for each way of building a program.  Neither states nor values need be
equal: each rule has a relation for the states and one for the values of the part it is about.

Main results:

- Theorem {lit}`Run.Lockstep.bind`: sequencing.
- Theorem {lit}`Locked.loop`: loops, with a relation between the loop variables.
- Theorem {lit}`Run.Lockstep.outcome`: runs in lockstep in which no pair of steps ends the
  comparison end together.
-/

namespace Traced

/-- What it means for two runs to belong together. -/
structure Comparison (σ τ ℓ κ : Type) where
  go : Step σ ℓ → Step τ κ → Prop
  stop : Step σ ℓ → Step τ κ → Prop
  fault : σ → τ → Prop

variable {σ τ ℓ κ α β γ δ : Type}

/-- Two ends of the same kind. -/
inductive Outcome.Together (c : Comparison σ τ ℓ κ) (Q : α → σ → β → τ → Prop) :
    Outcome σ α → Outcome τ β → Prop where
  | done {a : α} {s : σ} {b : β} {t : τ} (h : Q a s b t) : Together c Q (.done a s) (.done b t)
  | fault {s : σ} {t : τ} (h : c.fault s t) : Together c Q (.fault s) (.fault t)
  | timeout : Together c Q .timeout .timeout

/-- Steps taken together, up to a pair that ends the comparison. -/
inductive Parted (c : Comparison σ τ ℓ κ) : List (Step σ ℓ) → List (Step τ κ) → Prop where
  | here {st : Step σ ℓ} {st' : Step τ κ} (sts : List (Step σ ℓ)) (sts' : List (Step τ κ))
      (h : c.stop st st') : Parted c (st :: sts) (st' :: sts')
  | later {st : Step σ ℓ} {st' : Step τ κ} {sts : List (Step σ ℓ)} {sts' : List (Step τ κ)}
      (h : c.go st st') (hrest : Parted c sts sts') : Parted c (st :: sts) (st' :: sts')

/-- Two runs in lockstep, with a postcondition for two normal ends. -/
def Run.Lockstep (c : Comparison σ τ ℓ κ) (Q : α → σ → β → τ → Prop) (r : Run σ ℓ α)
    (r' : Run τ κ β) : Prop :=
  Parted c r.steps r'.steps ∨
    (List.Forall₂ c.go r.steps r'.steps ∧ r.outcome.Together c Q r'.outcome)

/-- Two programs in lockstep from states that {lit}`P` relates, with related values and again
such states at the end. -/
def Locked (c : Comparison σ τ ℓ κ) (P : σ → τ → Prop) (R : α → β → Prop) (m : Prog σ ℓ α)
    (m' : Prog τ κ β) : Prop :=
  ∀ s t, P s t → (m.run s).Lockstep c (fun a s₁ b t₁ => R a b ∧ P s₁ t₁) (m'.run t)

variable {c : Comparison σ τ ℓ κ}

/-! ## Lists of steps -/

/-- Runs that have parted stay apart, whatever is done next. -/
theorem Parted.append {sts sts₁ : List (Step σ ℓ)} {sts' sts₁' : List (Step τ κ)}
    (h : Parted c sts sts') : Parted c (sts ++ sts₁) (sts' ++ sts₁') := by
  induction h with
  | here sts sts' hstop => exact .here _ _ hstop
  | later hgo _ ih => exact .later hgo ih

/-- Steps in common may come before the parting. -/
theorem Parted.prepend {sts sts₁ : List (Step σ ℓ)} {sts' sts₁' : List (Step τ κ)}
    (h : List.Forall₂ c.go sts sts') (h₁ : Parted c sts₁ sts₁') :
    Parted c (sts ++ sts₁) (sts' ++ sts₁') := by
  induction h with
  | nil => exact h₁
  | cons hgo _ ih => exact .later hgo ih

/-- Where the steps part, and what was done together before. -/
theorem Parted.split {sts : List (Step σ ℓ)} {sts' : List (Step τ κ)} (h : Parted c sts sts') :
    ∃ pre st post pre' st' post', sts = pre ++ st :: post ∧ sts' = pre' ++ st' :: post' ∧
      List.Forall₂ c.go pre pre' ∧ c.stop st st' := by
  induction h with
  | here sts sts' hstop => exact ⟨[], _, sts, [], _, sts', rfl, rfl, .nil, hstop⟩
  | later hgo _ ih =>
      obtain ⟨pre, st, post, pre', st', post', rfl, rfl, hpre, hstop⟩ := ih
      exact ⟨_ :: pre, st, post, _ :: pre', st', post', rfl, rfl, .cons hgo hpre, hstop⟩

/-! ## Runs -/

/-- Whatever the first part of a program ends in, its steps come first. -/
theorem Prog.exists_steps_bind (m : Prog σ ℓ α) (f : α → Prog σ ℓ γ) (s : σ) :
    ∃ more, ((m >>= f).run s).steps = (m.run s).steps ++ more := by
  cases hout : (m.run s).outcome with
  | done a s₁ => exact ⟨_, by rw [Prog.bind_done hout]⟩
  | fault s₁ => exact ⟨[], by rw [Prog.bind_fault hout, List.append_nil]⟩
  | timeout => exact ⟨[], by rw [Prog.bind_timeout hout, List.append_nil]⟩

section Runs

variable {Q : α → σ → β → τ → Prop}

/-- A weaker postcondition relates the same outcomes. -/
theorem Outcome.Together.mono {Q' : α → σ → β → τ → Prop} {o : Outcome σ α}
    {o' : Outcome τ β} (h : o.Together c Q o') (hQ : ∀ a s b t, Q a s b t → Q' a s b t) :
    o.Together c Q' o' := by
  cases h with
  | done h => exact .done (hQ _ _ _ _ h)
  | fault h => exact .fault h
  | timeout => exact .timeout

/-- A weaker postcondition relates the same runs. -/
theorem Run.Lockstep.mono {Q' : α → σ → β → τ → Prop} {r : Run σ ℓ α} {r' : Run τ κ β}
    (h : r.Lockstep c Q r') (hQ : ∀ a s b t, Q a s b t → Q' a s b t) : r.Lockstep c Q' r' := by
  rcases h with hparted | ⟨hsteps, hend⟩
  · exact Or.inl hparted
  · exact Or.inr ⟨hsteps, hend.mono hQ⟩

/-- Sequencing: the second parts start wherever the first parts may end together. -/
theorem Run.Lockstep.bind {m : Prog σ ℓ α} {m' : Prog τ κ β} {f : α → Prog σ ℓ γ}
    {f' : β → Prog τ κ δ} {s : σ} {t : τ} {Q' : γ → σ → δ → τ → Prop}
    (hm : (m.run s).Lockstep c Q (m'.run t))
    (hf : ∀ a s₁ b t₁, Q a s₁ b t₁ → ((f a).run s₁).Lockstep c Q' ((f' b).run t₁)) :
    ((m >>= f).run s).Lockstep c Q' ((m' >>= f').run t) := by
  rcases hm with hparted | ⟨hgo, hend⟩
  · obtain ⟨more, hmore⟩ := Prog.exists_steps_bind m f s
    obtain ⟨more', hmore'⟩ := Prog.exists_steps_bind m' f' t
    left
    rw [hmore, hmore']
    exact hparted.append
  · cases hout : (m.run s).outcome with
    | done a s₁ =>
        cases hout' : (m'.run t).outcome with
        | done b t₁ =>
            rw [hout, hout'] at hend
            cases hend with
            | done hQ =>
                rw [Prog.bind_done hout, Prog.bind_done hout']
                rcases hf a s₁ b t₁ hQ with hparted | ⟨hgo₁, hend₁⟩
                · exact Or.inl (hparted.prepend hgo)
                · exact Or.inr ⟨List.rel_append hgo hgo₁, hend₁⟩
        | fault t₁ =>
            rw [hout, hout'] at hend
            cases hend
        | timeout =>
            rw [hout, hout'] at hend
            cases hend
    | fault s₁ =>
        cases hout' : (m'.run t).outcome with
        | done b t₁ =>
            rw [hout, hout'] at hend
            cases hend
        | fault t₁ =>
            rw [hout, hout'] at hend
            cases hend with
            | fault hR =>
                rw [Prog.bind_fault hout, Prog.bind_fault hout']
                exact Or.inr ⟨hgo, .fault hR⟩
        | timeout =>
            rw [hout, hout'] at hend
            cases hend
    | timeout =>
        cases hout' : (m'.run t).outcome with
        | done b t₁ =>
            rw [hout, hout'] at hend
            cases hend
        | fault t₁ =>
            rw [hout, hout'] at hend
            cases hend
        | timeout =>
            rw [Prog.bind_timeout hout, Prog.bind_timeout hout']
            exact Or.inr ⟨hgo, .timeout⟩

/-- Two values in the postcondition are in lockstep. -/
theorem lockstep_pure {a : α} {b : β} {s : σ} {t : τ} (h : Q a s b t) :
    ((pure a : Prog σ ℓ α).run s).Lockstep c Q ((pure b : Prog τ κ β).run t) :=
  Or.inr ⟨.nil, .done h⟩

/-- Two steps the comparison allows are in lockstep. -/
theorem lockstep_step {l : ℓ} {f : σ → σ} {k : κ} {g : τ → τ} {s : σ} {t : τ}
    {Q : Unit → σ → Unit → τ → Prop} (hgo : c.go ⟨l, s, f s⟩ ⟨k, t, g t⟩)
    (h : Q () (f s) () (g t)) :
    ((Prog.step l f : Prog σ ℓ Unit).run s).Lockstep c Q ((Prog.step k g).run t) :=
  Or.inr ⟨.cons hgo .nil, .done h⟩

/-- A pair of steps that ends the comparison. -/
theorem lockstep_stop {l : ℓ} {f : σ → σ} {k : κ} {g : τ → τ} {s : σ} {t : τ}
    {Q : Unit → σ → Unit → τ → Prop} (h : c.stop ⟨l, s, f s⟩ ⟨k, t, g t⟩) :
    ((Prog.step l f : Prog σ ℓ Unit).run s).Lockstep c Q ((Prog.step k g).run t) :=
  Or.inl (.here _ _ h)

/-- Where no pair of steps ends the comparison, the ends belong together. -/
theorem Run.Lockstep.outcome {r : Run σ ℓ α} {r' : Run τ κ β} (h : r.Lockstep c Q r')
    (hstop : ∀ st ∈ r.steps, ∀ st' ∈ r'.steps, ¬ c.stop st st') :
    List.Forall₂ c.go r.steps r'.steps ∧ r.outcome.Together c Q r'.outcome := by
  rcases h with hparted | hend
  · obtain ⟨pre, st, post, pre', st', post', hst, hst', _, hend⟩ := hparted.split
    exact absurd hend (hstop st (by simp [hst]) st' (by simp [hst']))
  · exact hend

end Runs

/-! ## Programs -/

section Programs

variable {P : σ → τ → Prop} {R : α → β → Prop} {S : γ → δ → Prop} {m : Prog σ ℓ α}
  {m' : Prog τ κ β}

/-- A weaker relation on the values suffices. -/
theorem Locked.mono {R' : α → β → Prop} (h : Locked c P R m m') (hR : ∀ a b, R a b → R' a b) :
    Locked c P R' m m' :=
  fun s t hst => (h s t hst).mono fun a _ b _ hpost => ⟨hR a b hpost.1, hpost.2⟩

/-- Lockstep composes: the second parts need it for related values only. -/
theorem Locked.bind {f : α → Prog σ ℓ γ} {f' : β → Prog τ κ δ} (hm : Locked c P R m m')
    (hf : ∀ a b, R a b → Locked c P S (f a) (f' b)) : Locked c P S (m >>= f) (m' >>= f') :=
  fun s t hst => (hm s t hst).bind fun a s₁ b t₁ hpost => hf a b hpost.1 s₁ t₁ hpost.2

/-- Related values are locked. -/
theorem locked_pure {a : α} {b : β} (h : R a b) :
    Locked c P R (pure a : Prog σ ℓ α) (pure b : Prog τ κ β) :=
  fun _ _ hst => lockstep_pure ⟨h, hst⟩

/-- Reading related things from related states is locked. -/
theorem locked_read {f : σ → α} {g : τ → β} (h : ∀ s t, P s t → R (f s) (g t)) :
    Locked c P R (Prog.read f : Prog σ ℓ α) (Prog.read g : Prog τ κ β) :=
  fun s t hst => lockstep_pure ⟨h s t hst, hst⟩

/-- Steps that relate related states are locked, with equal values. -/
theorem locked_step {l : ℓ} {f : σ → σ} {k : κ} {g : τ → τ}
    (hgo : ∀ s t, c.go ⟨l, s, f s⟩ ⟨k, t, g t⟩) (h : ∀ s t, P s t → P (f s) (g t)) :
    Locked c P Eq (Prog.step l f : Prog σ ℓ Unit) (Prog.step k g) :=
  fun s t hst => lockstep_step (hgo s t) ⟨rfl, h s t hst⟩

/-- Running out of budget says nothing. -/
theorem locked_timeout : Locked c P R (Prog.timeout : Prog σ ℓ α) (Prog.timeout : Prog τ κ β) :=
  fun _ _ _ => Or.inr ⟨.nil, .timeout⟩

/-- A test that comes out the same in both. -/
theorem Locked.ite {p q : Prop} [Decidable p] [Decidable q] {k : Prog σ ℓ α}
    {k' : Prog τ κ β} (hpq : p ↔ q) (hm : Locked c P R m m') (hk : Locked c P R k k') :
    Locked c P R (if p then m else k) (if q then m' else k') := by
  by_cases hp : p
  · rw [if_pos hp, if_pos (hpq.mp hp)]
    exact hm
  · rw [if_neg hp, if_neg fun hq => hp (hpq.mpr hq)]
    exact hk

/-- A test, and what is done after it. -/
theorem Locked.branch {b : Prog σ ℓ Bool} {b' : Prog τ κ Bool} {k : Prog σ ℓ α}
    {k' : Prog τ κ β} (hb : Locked c P Eq b b') (hm : Locked c P R m m')
    (hk : Locked c P R k k') :
    Locked c P R (do if ← b then m else k) (do if ← b' then m' else k') :=
  hb.bind fun _ _ h => Locked.ite (by rw [h]) hm hk

/-- Two iterations that decide alike. -/
inductive Iter.Alike (J : α → β → Prop) (S : γ → δ → Prop) : Iter α γ → Iter β δ → Prop where
  | again {a : α} {b : β} (h : J a b) : Alike J S (.again a) (.again b)
  | leave {a : γ} {b : δ} (h : S a b) : Alike J S (.leave a) (.leave b)

/-- Loops whose iterations are in lockstep. -/
theorem Locked.loop {body : α → Prog σ ℓ (Iter α γ)} {body' : β → Prog τ κ (Iter β δ)}
    {J : α → β → Prop}
    (hbody : ∀ a b, J a b → Locked c P (Iter.Alike J S) (body a) (body' b)) (n : Nat)
    {a : α} {b : β} (hab : J a b) : Locked c P S (loop body n a) (loop body' n b) := by
  induction n generalizing a b with
  | zero => exact locked_timeout
  | succ n ih =>
      refine (hbody a b hab).bind ?_
      intro i i' hi
      cases hi with
      | again h => exact ih h
      | leave h => exact locked_pure h

end Programs

end Traced
