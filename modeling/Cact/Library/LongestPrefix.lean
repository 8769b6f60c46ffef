import Mathlib.Computability.Language
import Mathlib.Data.List.Infix
import Mathlib.Data.List.TakeWhile

/-!
# Longest prefixes in a language

A scanner is meant to take the longest prefix of its input that belongs to a language.
Scanners are put together from loops over classes of letters, from optional parts and from
sequences, and so are the longest prefixes that they take.  A sequence takes the longest
prefix if no letter that begins its second part occurs in what the first part takes.

Main results:

- Definition {lit}`Longest`: a longest prefix of a text in a language.
- Theorem {lit}`longest_takeWhile`: loops over a class of letters.
- Theorem {lit}`Longest.mul`: sequences.
- Theorem {lit}`Longest.restrict`: smaller languages.
-/

open scoped Computability

namespace Language

variable {α : Type} {P Q : α → Prop} {L M : Language α} {r s t : List α} {c : α}

/-! ## Letters -/

/-- The one-letter words over a class of letters. -/
def letter (P : α → Prop) : Language α := {s | ∃ c, P c ∧ s = [c]}

/-- A letter followed by a language: the first item is the letter, the rest is in the language. -/
theorem mem_letter_mul : s ∈ letter P * L ↔ ∃ c t, P c ∧ t ∈ L ∧ s = c :: t := by
  rw [mem_mul]
  constructor
  · rintro ⟨_, ⟨c, hc, rfl⟩, t, ht, rfl⟩
    exact ⟨c, t, hc, ht, rfl⟩
  · rintro ⟨c, t, hc, ht, rfl⟩
    exact ⟨[c], ⟨c, hc, rfl⟩, t, ht, rfl⟩

/-- The repetition of a letter holds the words over its class. -/
theorem mem_letter_kstar : s ∈ (letter P)∗ ↔ ∀ c ∈ s, P c := by
  rw [mem_kstar]
  constructor
  · rintro ⟨ss, rfl, hss⟩ c hc
    obtain ⟨u, hu, hcu⟩ := List.mem_flatten.mp hc
    obtain ⟨d, hd, rfl⟩ := hss u hu
    rw [List.mem_singleton.mp hcu]
    exact hd
  · intro h
    refine ⟨s.map fun c => [c], ?_, ?_⟩
    · rw [← List.flatMap_def, List.flatMap_singleton']
    · intro u hu
      obtain ⟨c, hc, rfl⟩ := List.mem_map.mp hu
      exact ⟨c, h c hc, rfl⟩

/-- The words of one or more letters. -/
theorem mem_letters : s ∈ letter P * (letter P)∗ ↔ s ≠ [] ∧ ∀ c ∈ s, P c := by
  rw [mem_letter_mul]
  constructor
  · rintro ⟨c, t, hc, ht, rfl⟩
    refine ⟨by simp, fun d hd => ?_⟩
    rcases List.mem_cons.mp hd with rfl | hd
    · exact hc
    · exact mem_letter_kstar.mp ht d hd
  · rintro ⟨hne, hall⟩
    cases s with
    | nil => exact absurd rfl hne
    | cons c t =>
        exact ⟨c, t, hall c List.mem_cons_self,
          mem_letter_kstar.mpr fun d hd => hall d (List.mem_cons_of_mem _ hd), rfl⟩

/-- An optional part is empty or in the language. -/
theorem mem_optional : s ∈ 1 + L ↔ s = [] ∨ s ∈ L := Iff.rfl

/-! ## Alphabets -/

/-- The words of a language consist of letters of a class. -/
def Over (P : α → Prop) (L : Language α) : Prop := ∀ s ∈ L, ∀ c ∈ s, P c

/-- The words of a language are empty or begin with letters of a class. -/
def Begins (P : α → Prop) (L : Language α) : Prop := ∀ c t, c :: t ∈ L → P c

/-- A larger class admits the same words. -/
theorem Over.mono (h : Over P L) (hPQ : ∀ c, P c → Q c) : Over Q L :=
  fun s hs c hc => hPQ c (h s hs c hc)

/-- A single letter is over its own class. -/
theorem over_letter (P : α → Prop) : Over P (letter P) := by
  rintro s ⟨c, hc, rfl⟩ d hd
  rw [List.mem_singleton.mp hd]
  exact hc

/-- So is its repetition. -/
theorem over_kstar (P : α → Prop) : Over P (letter P)∗ := fun _ hs => mem_letter_kstar.mp hs

/-- What may be missing is over the same class. -/
theorem Over.optional (h : Over P L) : Over P (1 + L) := by
  rintro s (rfl | hs) c hc
  · cases hc
  · exact h s hs c hc

/-- And the union of two such languages. -/
theorem Over.add (h : Over P L) (h' : Over P M) : Over P (L + M) := by
  rintro s (hs | hs)
  · exact h s hs
  · exact h' s hs

/-- And their concatenation. -/
theorem Over.mul (h : Over P L) (h' : Over P M) : Over P (L * M) := by
  intro s hs c hc
  obtain ⟨u, hu, v, hv, rfl⟩ := mem_mul.mp hs
  rcases List.mem_append.mp hc with hcu | hcv
  · exact h u hu c hcu
  · exact h' v hv c hcv

/-- A larger class admits the same beginnings. -/
theorem Begins.mono (h : Begins P L) (hPQ : ∀ c, P c → Q c) : Begins Q L :=
  fun c t hc => hPQ c (h c t hc)

/-- A letter begins with itself. -/
theorem begins_letter (P : α → Prop) : Begins P (letter P) := by
  rintro c t ⟨d, hd, heq⟩
  cases heq
  exact hd

/-- So does what starts with a letter. -/
theorem begins_letter_mul (P : α → Prop) (L : Language α) : Begins P (letter P * L) := by
  intro c t hc
  obtain ⟨d, u, hd, _, heq⟩ := mem_letter_mul.mp hc
  cases heq
  exact hd

/-- What may be missing begins as it does where it is there. -/
theorem Begins.optional (h : Begins P L) : Begins P (1 + L) := by
  rintro c t (hnil | hc)
  · cases hnil
  · exact h c t hc

/-- A concatenation begins like its first part, or like its second where the first is empty. -/
theorem Begins.mul (h : Begins P L) (h' : Begins P M) : Begins P (L * M) := by
  intro c t hc
  obtain ⟨u, hu, v, hv, heq⟩ := mem_mul.mp hc
  cases u with
  | nil =>
      rw [List.nil_append] at heq
      subst heq
      exact h' c t hv
  | cons d u =>
      cases heq
      exact h c u hu

/-! ## Longest prefixes -/

/-- A longest prefix of a text in a language. -/
structure Longest (L : Language α) (r s : List α) : Prop where
  mem : s ∈ L
  isPrefix : s <+: r
  longest : ∀ t ∈ L, t <+: r → t.length ≤ s.length

/-- A longest prefix is a longest one in a smaller language as well, as long as it belongs
to it. -/
theorem Longest.restrict (h : Longest L r s) (hmem : s ∈ M)
    (hle : ∀ t ∈ M, t <+: r → t ∈ L) : Longest M r s where
  mem := hmem
  isPrefix := h.isPrefix
  longest t ht hpre := h.longest t (hle t ht hpre) hpre

/-- A loop over a class of letters takes the longest run of them. -/
theorem longest_takeWhile (P : α → Prop) [DecidablePred P] (r : List α) :
    Longest (letter P)∗ r (r.takeWhile fun c => decide (P c)) where
  mem := mem_letter_kstar.mpr fun c hc => by simpa using List.mem_takeWhile_imp hc
  isPrefix := List.takeWhile_prefix _
  longest t ht hpre := by
    obtain ⟨u, rfl⟩ := hpre
    rw [List.takeWhile_append_of_pos fun c hc => decide_eq_true (mem_letter_kstar.mp ht c hc)]
    rw [List.length_append]
    exact Nat.le_add_right _ _

/-- One letter, and a longest prefix of the rest. -/
theorem Longest.letter_mul (hc : P c) (h : Longest L r s) :
    Longest (letter P * L) (c :: r) (c :: s) where
  mem := mem_letter_mul.mpr ⟨c, s, hc, h.mem, rfl⟩
  isPrefix := (List.prefix_cons_inj c).mpr h.isPrefix
  longest t ht hpre := by
    obtain ⟨d, u, _, hu, rfl⟩ := mem_letter_mul.mp ht
    obtain ⟨rfl, hrest⟩ := List.cons_prefix_cons.mp hpre
    exact Nat.succ_le_succ (h.longest u hu hrest)

/-- One letter. -/
theorem longest_letter (hc : P c) (r : List α) : Longest (letter P) (c :: r) [c] where
  mem := ⟨c, hc, rfl⟩
  isPrefix := ⟨r, rfl⟩
  longest t ht _ := by
    obtain ⟨d, _, rfl⟩ := ht
    exact le_rfl

/-- An optional part that is there. -/
theorem Longest.optional (h : Longest L r s) : Longest (1 + L) r s where
  mem := mem_optional.mpr (Or.inr h.mem)
  isPrefix := h.isPrefix
  longest t ht hpre := by
    rcases mem_optional.mp ht with rfl | ht
    · exact Nat.zero_le _
    · exact h.longest t ht hpre

/-- An optional part that is not there. -/
theorem longest_absent (hL : Begins P L) (hr : ∀ c, r.head? = some c → ¬ P c) :
    Longest (1 + L) r [] where
  mem := mem_optional.mpr (Or.inl rfl)
  isPrefix := List.nil_prefix
  longest t ht hpre := by
    rcases mem_optional.mp ht with rfl | ht
    · exact le_rfl
    · cases t with
      | nil => exact le_rfl
      | cons c t =>
          obtain ⟨u, rfl⟩ := hpre
          exact absurd (hL c t ht) (hr c rfl)

/-- Every prefix in the language is a prefix of the longest one. -/
theorem Longest.prefix_of_mem (h : Longest L r s) (ht : t ∈ L) (hpre : t <+: r) : t <+: s :=
  List.prefix_of_prefix_length_le hpre h.isPrefix (h.longest t ht hpre)

/-- A word that goes on with a letter that the longest prefix does not have is that
prefix. -/
theorem Longest.eq_of_append (h : Longest L r s) (ht : t ∈ L) {u : List α}
    (hpre : t ++ c :: u <+: r) (hc : c ∉ s) : t = s := by
  have hshort : t <+: r := (List.prefix_append t _).trans hpre
  obtain ⟨v, rfl⟩ := h.prefix_of_mem ht hshort
  cases v with
  | nil => rw [List.append_nil]
  | cons d v =>
      obtain ⟨x, rfl⟩ := hpre
      have hlong := h.isPrefix
      rw [List.append_assoc, List.prefix_append_right_inj, List.cons_append,
        List.cons_prefix_cons] at hlong
      rw [hlong.1] at hc
      exact absurd (List.mem_append_right _ List.mem_cons_self) hc

/-- A sequence of two parts, the second of which begins with no letter of the first. -/
theorem Longest.mul {s' : List α} (h : Longest L (s ++ r) s) (h' : Longest M r s')
    (hL : Over P L) (hM : Begins Q M) (hdisjoint : ∀ c, P c → ¬ Q c) :
    Longest (L * M) (s ++ r) (s ++ s') where
  mem := append_mem_mul h.mem h'.mem
  isPrefix := (List.prefix_append_right_inj s).mpr h'.isPrefix
  longest t ht hpre := by
    obtain ⟨u, hu, v, hv, rfl⟩ := mem_mul.mp ht
    cases v with
    | nil =>
        rw [List.append_nil] at hpre ⊢
        rw [List.length_append]
        exact Nat.le_add_right_of_le (h.longest u hu hpre)
    | cons c v =>
        have hc : c ∉ s := fun hcs => hdisjoint c (hL s h.mem c hcs) (hM c v hv)
        obtain rfl := h.eq_of_append hu hpre hc
        rw [List.length_append, List.length_append]
        exact Nat.add_le_add_left
          (h'.longest _ hv ((List.prefix_append_right_inj u).mp hpre)) _

end Language
