import Mathlib.Data.List.Basic
import Mathlib.Tactic.Common

/-!
# Texts that can be read back

Values are written as lists of tokens, one behind the other and with nothing in between.
A value can be read back if no other value is written the same way, whatever stands behind
the two, as long as it is something that can stand there.  Then the place where the text of
the value ends is known as well, so that texts can be put behind each other.

Main results:

- Definition {lit}`Decodes`: the text of a value can be read back.
- Theorem {lit}`Decodes.pair`: one text behind another.
- Theorem {lit}`decodes_many`: any number of texts.
- Theorem {lit}`decodes_separated`: texts with separators between them.
- Theorem {lit}`Decodes.of_parts`: values that are written part by part.
-/

namespace Decoding

variable {τ α β : Type}

/-- The text of {lit}`x` can be read back.  What {lit}`Ok` says of a value is that it is
well-formed, and that the second text can stand behind it. -/
def Decodes (text : α → List τ) (Ok : α → List τ → Prop) (x : α) : Prop :=
  ∀ ⦃y ts us⦄, Ok x ts → Ok y us → text x ++ ts = text y ++ us → x = y ∧ ts = us

variable {text : α → List τ} {Ok : α → List τ → Prop} {x : α}

theorem Decodes.restrict {Ok' : α → List τ → Prop} (h : Decodes text Ok x)
    (hok : ∀ y ts, Ok' y ts → Ok y ts) : Decodes text Ok' x :=
  fun _ _ _ hx hy heq => h (hok _ _ hx) (hok _ _ hy) heq

/-- Values that are written part by part. -/
theorem Decodes.of_parts (parts : β → α) {text' : β → List τ} {Ok' : β → List τ → Prop} {b : β}
    (h : Decodes text Ok (parts b)) (hparts : Function.Injective parts)
    (htext : ∀ b, text' b = text (parts b)) (hok : ∀ b ts, Ok' b ts → Ok (parts b) ts) :
    Decodes text' Ok' b := by
  intro c ts us hb hc heq
  rw [htext, htext] at heq
  obtain ⟨hbc, hts⟩ := h (hok _ _ hb) (hok _ _ hc) heq
  exact ⟨hparts hbc, hts⟩

/-- One token. -/
theorem decodes_token {token : α → τ} (htoken : Function.Injective token) (x : α) :
    Decodes (fun x => [token x]) (fun _ _ => True) x := by
  intro y ts us _ _ heq
  obtain ⟨hxy, hts⟩ := List.cons.inj heq
  exact ⟨htoken hxy, hts⟩

/-- One text behind another. -/
theorem Decodes.pair {text' : β → List τ} {Ok' : β → List τ → Prop} {y : β}
    (h : Decodes text Ok x) (h' : Decodes text' Ok' y) :
    Decodes (fun p : α × β => text p.1 ++ text' p.2)
      (fun p ts => Ok p.1 (text' p.2 ++ ts) ∧ Ok' p.2 ts) (x, y) := by
  rintro ⟨x', y'⟩ ts us ⟨hx, hy⟩ ⟨hx', hy'⟩ heq
  simp only [List.append_assoc] at heq
  obtain ⟨rfl, hrest⟩ := h hx hx' heq
  obtain ⟨rfl, hts⟩ := h' hy hy' hrest
  exact ⟨rfl, hts⟩

/-- Behind a value that may be missing stands what can stand behind it, or what tells that it
is missing. -/
def Possibly (Ok : α → List τ → Prop) (Stop : List τ → Prop) : Option α → List τ → Prop
  | none, ts => Stop ts
  | some x, ts => Ok x ts

/-- A text that may be missing. -/
theorem decodes_option {Stop : List τ → Prop} {o : Option α}
    (h : ∀ x, o = some x → Decodes text Ok x) (hstart : ∀ x ts, Ok x ts → ¬ Stop (text x ++ ts)) :
    Decodes (fun o : Option α => (o.map text).getD []) (Possibly Ok Stop) o := by
  intro o' ts us ho ho' heq
  cases o with
  | none =>
      cases o' with
      | none => exact ⟨rfl, heq⟩
      | some y =>
          have hts : ts = text y ++ us := heq
          exact absurd (hts ▸ ho) (hstart y us ho')
  | some x =>
      cases o' with
      | none =>
          have hus : text x ++ ts = us := heq
          exact absurd (hus ▸ ho') (hstart x ts ho)
      | some y =>
          obtain ⟨rfl, hts⟩ := h x rfl ho ho' heq
          exact ⟨rfl, hts⟩

/-! ## Lists -/

/-- Behind each value of the list stand the texts of the next ones, and behind the last what
stops the list. -/
def Ahead (text : α → List τ) (Ok : α → List τ → Prop) (Stop : List τ → Prop) :
    List α → List τ → Prop
  | [], ts => Stop ts
  | x :: xs, ts => Ok x (xs.flatMap text ++ ts) ∧ Ahead text Ok Stop xs ts

variable {Stop : List τ → Prop} {xs : List α}

theorem ahead_concat {ts : List τ} (hxs : Ahead text Ok (fun _ => True) xs (text x ++ ts))
    (hx : Ok x ts) (hstop : Stop ts) : Ahead text Ok Stop (xs ++ [x]) ts := by
  induction xs with
  | nil => exact ⟨hx, hstop⟩
  | cons y ys ih =>
      refine ⟨?_, ih hxs.2⟩
      simpa using hxs.1

/-- A list of well-formed values, where each can stand in front of the others and of what
stops the list. -/
theorem ahead_of_forall {P : α → Prop} {ts : List τ} (hP : ∀ x ∈ xs, P x) (hstop : Stop ts)
    (hok : ∀ x ts, P x → Stop ts ∨ (∃ y us, P y ∧ ts = text y ++ us) → Ok x ts) :
    Ahead text Ok Stop xs ts := by
  induction xs with
  | nil => exact hstop
  | cons x xs ih =>
      have hrest : ∀ y ∈ xs, P y := fun y hy => hP y (List.mem_cons_of_mem _ hy)
      refine ⟨hok x _ (hP x List.mem_cons_self) ?_, ih hrest⟩
      cases xs with
      | nil => exact Or.inl hstop
      | cons y ys =>
          exact Or.inr ⟨y, ys.flatMap text ++ ts, hrest y List.mem_cons_self, by simp⟩

/-- Any number of texts, up to something that none of them begins with. -/
theorem decodes_many (h : ∀ x ∈ xs, Decodes text Ok x)
    (hstart : ∀ x ts, Ok x ts → ¬ Stop (text x ++ ts)) :
    Decodes (List.flatMap text) (Ahead text Ok Stop) xs := by
  induction xs with
  | nil =>
      intro ys ts us hxs hys heq
      cases ys with
      | nil => exact ⟨rfl, heq⟩
      | cons y ys =>
          have hts : ts = text y ++ (ys.flatMap text ++ us) := by simpa using heq
          exact absurd (hts ▸ hxs) (hstart y _ hys.1)
  | cons x xs ih =>
      intro ys ts us hxs hys heq
      cases ys with
      | nil =>
          have hus : text x ++ (xs.flatMap text ++ ts) = us := by simpa using heq
          exact absurd (hus ▸ hys) (hstart x _ hxs.1)
      | cons y ys =>
          simp only [List.flatMap_cons, List.append_assoc] at heq
          obtain ⟨rfl, hrest⟩ := h x List.mem_cons_self hxs.1 hys.1 heq
          obtain ⟨rfl, hts⟩ := ih (fun z hz => h z (List.mem_cons_of_mem _ hz)) hxs.2 hys.2 hrest
          exact ⟨rfl, hts⟩

/-! ## Separators -/

/-- The texts of a list, with a separator in front of each. -/
def separators (sep : τ) (text : α → List τ) (xs : List α) : List τ :=
  xs.flatMap fun x => sep :: text x

/-- The texts of a list, with a separator between them. -/
def separated (sep : τ) (text : α → List τ) : List α → List τ
  | [] => []
  | x :: xs => text x ++ separators sep text xs

section

variable {sep : τ} {P : α → Prop} {ts : List τ}

theorem separators_next (hstop : Stop ts) (xs : List α) :
    Stop (separators sep text xs ++ ts) ∨ ∃ us, separators sep text xs ++ ts = sep :: us := by
  cases xs with
  | nil => exact Or.inl hstop
  | cons x xs => exact Or.inr ⟨text x ++ (separators sep text xs ++ ts), by simp [separators]⟩

theorem ahead_separators (hok : ∀ x ts, P x → Stop ts ∨ (∃ us, ts = sep :: us) → Ok x ts)
    (hxs : ∀ x ∈ xs, P x) (hstop : Stop ts) :
    Ahead (fun x => sep :: text x) Ok Stop xs ts := by
  induction xs with
  | nil => exact hstop
  | cons x xs ih =>
      exact ⟨hok x _ (hxs x List.mem_cons_self) (separators_next hstop xs),
        ih fun y hy => hxs y (List.mem_cons_of_mem _ hy)⟩

/-- Each text is read back behind its separator. -/
theorem decodes_separators (h : ∀ x ∈ xs, Decodes text Ok x)
    (hok : ∀ x ts, P x → Stop ts ∨ (∃ us, ts = sep :: us) → Ok x ts)
    (hsep : ∀ us, ¬ Stop (sep :: us)) :
    Decodes (separators sep text) (fun xs ts => (∀ x ∈ xs, P x) ∧ Stop ts) xs := by
  have hmany : Decodes (List.flatMap fun x => sep :: text x)
      (Ahead (fun x => sep :: text x) Ok Stop) xs := by
    refine decodes_many (fun x hx => ?_) fun x ts _ => hsep _
    intro y ts us hxs hys heq
    exact h x hx hxs hys (List.cons.inj heq).2
  exact hmany.restrict fun ys ts hys => ahead_separators hok hys.1 hys.2

/-- Texts with separators between them, up to something that is no separator and that none of
the texts begins with. -/
theorem decodes_separated (h : ∀ x ∈ xs, Decodes text Ok x)
    (hok : ∀ x ts, P x → Stop ts ∨ (∃ us, ts = sep :: us) → Ok x ts)
    (hstart : ∀ x ts, P x → ¬ Stop (text x ++ ts)) (hsep : ∀ us, ¬ Stop (sep :: us)) :
    Decodes (separated sep text) (fun xs ts => (∀ x ∈ xs, P x) ∧ Stop ts) xs := by
  intro ys ts us hxs hys heq
  cases xs with
  | nil =>
      cases ys with
      | nil => exact ⟨rfl, heq⟩
      | cons y ys =>
          have hts : ts = text y ++ (separators sep text ys ++ us) := by
            simpa [separated] using heq
          exact absurd (hts ▸ hxs.2) (hstart y _ (hys.1 y List.mem_cons_self))
  | cons x xs =>
      cases ys with
      | nil =>
          have hus : text x ++ (separators sep text xs ++ ts) = us := by
            simpa [separated] using heq
          exact absurd (hus ▸ hys.2) (hstart x _ (hxs.1 x List.mem_cons_self))
      | cons y ys =>
          simp only [separated, List.append_assoc] at heq
          have hx : Ok x (separators sep text xs ++ ts) :=
            hok x _ (hxs.1 x List.mem_cons_self) (separators_next hxs.2 xs)
          have hy : Ok y (separators sep text ys ++ us) :=
            hok y _ (hys.1 y List.mem_cons_self) (separators_next hys.2 ys)
          obtain ⟨rfl, hrest⟩ := h x List.mem_cons_self hx hy heq
          obtain ⟨rfl, hts⟩ := decodes_separators (fun z hz => h z (List.mem_cons_of_mem _ hz))
            hok hsep ⟨fun z hz => hxs.1 z (List.mem_cons_of_mem _ hz), hxs.2⟩
            ⟨fun z hz => hys.1 z (List.mem_cons_of_mem _ hz), hys.2⟩ hrest
          exact ⟨rfl, hts⟩

end

end Decoding
