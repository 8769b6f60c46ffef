import Mathlib.Data.List.Infix

/-!
# Brackets

Lists with one kind of opening and one kind of closing bracket among their elements.

Main results:

- Definition {lit}`Balanced`: every bracket has its counterpart.
- Definition {lit}`behind`: what follows the bracket that closes an open one.
- Theorem {lit}`Balanced.behind`: in a balanced list every open bracket is closed.
- Definition {lit}`Open`: the brackets that a list finds open, with the rules
  {lit}`Open.opened` and {lit}`Open.closed` for reading brackets.
-/

namespace Brackets

variable {α : Type} [DecidableEq α] (o c : α)

/-- Whether a list closes {lit}`d` open brackets and all those it opens itself. -/
def closes : Nat → List α → Bool
  | d, [] => d == 0
  | d, x :: xs =>
      if x = o then closes (d + 1) xs
      else if x = c then decide (0 < d) && closes (d - 1) xs
      else closes d xs

/-- Every bracket has its counterpart. -/
def Balanced (xs : List α) : Prop := closes o c 0 xs = true

instance (xs : List α) : Decidable (Balanced o c xs) :=
  inferInstanceAs (Decidable (closes o c 0 xs = true))

/-- What follows the bracket that closes an open one, if {lit}`d` more have been opened
since then. -/
def behind : Nat → List α → Option (List α)
  | _, [] => none
  | d, x :: xs =>
      if x = o then behind (d + 1) xs
      else if x = c then if d = 0 then some xs else behind (d - 1) xs
      else behind d xs

variable {o c}

/-- A front part leaves some brackets open for the rest of the list. -/
theorem closes_append {d : Nat} {xs ys : List α} (h : closes o c d (xs ++ ys) = true) :
    ∃ e, closes o c e ys = true := by
  induction xs generalizing d with
  | nil => exact ⟨d, h⟩
  | cons x xs ih =>
      rw [List.cons_append, closes] at h
      split at h
      · exact ih h
      · split at h
        · rw [Bool.and_eq_true] at h
          exact ih h.2
        · exact ih h

/-- A list that closes more brackets than are in the way closes the one looked at. -/
theorem exists_behind {d e : Nat} {xs : List α} (h : closes o c e xs = true) (hlt : d < e) :
    ∃ rest, behind o c d xs = some rest := by
  induction xs generalizing d e with
  | nil =>
      have he : e = 0 := by simpa [closes] using h
      omega
  | cons x xs ih =>
      rw [closes] at h
      rw [behind]
      split at h
      · rename_i hopen
        rw [if_pos hopen]
        exact ih h (by omega)
      · rename_i hopen
        rw [if_neg hopen]
        split at h
        · rename_i hclose
          rw [if_pos hclose]
          rw [Bool.and_eq_true] at h
          by_cases hd : d = 0
          · rw [if_pos hd]
            exact ⟨xs, rfl⟩
          · rw [if_neg hd]
            exact ih h.2 (by omega)
        · rename_i hclose
          rw [if_neg hclose]
          exact ih h hlt

/-- In a balanced list every open bracket is closed. -/
theorem Balanced.behind {xs ys : List α} (h : Balanced o c (xs ++ o :: ys)) :
    ∃ rest, behind o c 0 ys = some rest := by
  obtain ⟨e, he⟩ := closes_append h
  rw [closes, if_pos rfl] at he
  exact exists_behind he (by omega)

/-- The closing bracket stands in front of what is behind it. -/
theorem suffix_of_behind {d : Nat} {xs rest : List α} (h : behind o c d xs = some rest) :
    c :: rest <:+ xs := by
  induction xs generalizing d with
  | nil => cases h
  | cons x xs ih =>
      rw [Brackets.behind] at h
      split at h
      · exact (ih h).trans (List.suffix_cons x xs)
      · split at h
        · rename_i hclose
          split at h
          · cases h
            exact hclose ▸ List.suffix_rfl
          · exact (ih h).trans (List.suffix_cons x xs)
        · exact (ih h).trans (List.suffix_cons x xs)

/-- To close some brackets is to close the inner ones first. -/
theorem behind_add (d e : Nat) (xs : List α) :
    behind o c (d + e + 1) xs = (behind o c d xs).bind (behind o c e) := by
  induction xs generalizing d with
  | nil => rfl
  | cons x xs ih =>
      rw [behind, behind]
      by_cases hopen : x = o
      · rw [if_pos hopen, if_pos hopen, ← ih (d + 1), Nat.add_right_comm d 1 e]
      · rw [if_neg hopen, if_neg hopen]
        by_cases hclose : x = c
        · rw [if_pos hclose, if_pos hclose, if_neg (Nat.succ_ne_zero _), Nat.add_sub_cancel]
          by_cases hd : d = 0
          · rw [if_pos hd, hd, Nat.zero_add, Option.bind_some]
          · rw [if_neg hd, ← ih (d - 1)]
            congr 1
            omega
        · rw [if_neg hclose, if_neg hclose, ih d]

/-- The bracket that {lit}`rest` follows closes one that was open before the list. -/
def Open (o c : α) (rest xs : List α) : Prop := ∃ d, behind o c d xs = some rest

namespace Open

variable {rest rest' xs ys : List α} {x : α}

theorem suffix (h : Open o c rest xs) : c :: rest <:+ xs :=
  h.elim fun _ hd => suffix_of_behind hd

/-- Other elements close nothing. -/
theorem tail (hopen : x ≠ o) (hclose : x ≠ c) (h : Open o c rest (x :: xs)) :
    Open o c rest xs := by
  obtain ⟨d, hd⟩ := h
  rw [behind, if_neg hopen, if_neg hclose] at hd
  exact ⟨d, hd⟩

/-- What was open before an open bracket is open behind it. -/
theorem trans (h : Open o c rest' xs) (h' : Open o c rest rest') : Open o c rest xs := by
  obtain ⟨d, hd⟩ := h
  obtain ⟨e, he⟩ := h'
  refine ⟨d + e + 1, ?_⟩
  rw [behind_add, hd, Option.bind_some, he]

/-- A bracket that is opened is closed before those that were open. -/
theorem opened (h : Open o c rest (o :: xs)) :
    ∃ rest', behind o c 0 xs = some rest' ∧ Open o c rest rest' := by
  obtain ⟨d, hd⟩ := h
  rw [behind, if_pos rfl, ← Nat.zero_add d, behind_add, Option.bind_eq_some_iff] at hd
  obtain ⟨rest', hrest', hd⟩ := hd
  exact ⟨rest', hrest', d, hd⟩

/-- A closing bracket closes an open one, or one that was opened since then. -/
theorem closed (hne : c ≠ o) (h : Open o c rest' (c :: xs)) (h' : Open o c rest rest') :
    Open o c rest xs := by
  obtain ⟨d, hd⟩ := h
  rw [behind, if_neg hne, if_pos rfl] at hd
  split at hd
  · cases hd
    exact h'
  · exact trans ⟨_, hd⟩ h'

/-- As long as its closing bracket is ahead, a bracket stays open. -/
theorem of_suffix (h : Open o c rest xs) (hclose : c :: rest <:+ ys) (hys : ys <:+ xs) :
    Open o c rest ys := by
  obtain ⟨d, hd⟩ := h
  obtain ⟨zs, rfl⟩ := hys
  induction zs generalizing d with
  | nil => exact ⟨d, hd⟩
  | cons z zs ih =>
      rw [List.cons_append, behind] at hd
      split at hd
      · exact ih _ hd
      · split at hd
        · split at hd
          · cases hd
            have hlength := hclose.length_le
            simp only [List.length_cons, List.length_append] at hlength
            omega
          · exact ih _ hd
        · exact ih _ hd

end Open

end Brackets
