import Mathlib.Data.List.Nodup
import Mathlib.Logic.Function.Basic
import Mathlib.Tactic.Common

/-!
# Lexical scoping - declarations and stacks of maps

Lexical scoping over arbitrary names and contents, in two forms.

A *history* is declarative: the list of all declarations made so far, each with the scope
it was made in, and the scopes that are open, innermost first.  Nothing is ever removed
from it.  A name means the declaration of that name in the innermost open scope that has
one.

A *stack of maps* is what an implementation keeps: one map for each open scope, which is
thrown away when the scope is left.

Main results:

- Definition {lit}`History.resolve`: what a name means.
- Theorems {lit}`Represents.enter`, {lit}`Represents.leave` and
  {lit}`Represents.declare`: a stack of maps keeps representing the history.
- Theorem {lit}`Represents.lookup`: the search through the stack finds what the name means.
- Theorem {lit}`History.Unique.declare`: no scope declares a name twice, if redeclarations
  are refused.
-/

namespace LexicalScope

/-- A declaration: the scope it was made in, the name, and what is declared. -/
structure Declaration (ν δ : Type) where
  scope : Nat
  name : ν
  content : δ

/-- The declarations made so far, oldest first, and the open scopes, innermost first.
Scopes are numbered in the order in which they are entered. -/
structure History (ν δ : Type) where
  decls : List (Declaration ν δ)
  path : List Nat
  next : Nat
  decls_lt : ∀ d ∈ decls, d.scope < next
  path_lt : ∀ s ∈ path, s < next
  path_nodup : path.Nodup

variable {ν δ : Type}

namespace History

/-- No declarations and no scopes. -/
def empty : History ν δ where
  decls := []
  path := []
  next := 0
  decls_lt := by simp
  path_lt := by simp
  path_nodup := List.nodup_nil

/-- Enter a new scope. -/
def enter (h : History ν δ) : History ν δ where
  decls := h.decls
  path := h.next :: h.path
  next := h.next + 1
  decls_lt := fun d hd => Nat.lt_succ_of_lt (h.decls_lt d hd)
  path_lt := by
    intro s hs
    rcases List.mem_cons.mp hs with rfl | hs
    · exact Nat.lt_succ_self _
    · exact Nat.lt_succ_of_lt (h.path_lt s hs)
  path_nodup :=
    List.nodup_cons.mpr ⟨fun hmem => Nat.lt_irrefl _ (h.path_lt _ hmem), h.path_nodup⟩

/-- Leave the innermost scope. -/
def leave (h : History ν δ) : History ν δ where
  decls := h.decls
  path := h.path.tail
  next := h.next
  decls_lt := h.decls_lt
  path_lt := fun s hs => h.path_lt s (List.mem_of_mem_tail hs)
  path_nodup := h.path_nodup.sublist (List.tail_sublist _)

/-- The declarations after a declaration in the innermost scope, if there is one. -/
def declareIn (x : ν) (d : δ) : List Nat → List (Declaration ν δ) → List (Declaration ν δ)
  | [], decls => decls
  | s :: _, decls => decls ++ [⟨s, x, d⟩]

/-- Declare a name in the innermost scope. -/
def declare (h : History ν δ) (x : ν) (d : δ) : History ν δ where
  decls := declareIn x d h.path h.decls
  path := h.path
  next := h.next
  decls_lt := by
    intro e he
    cases hpath : h.path with
    | nil =>
        rw [hpath] at he
        exact h.decls_lt e he
    | cons s rest =>
        rw [hpath] at he
        rcases List.mem_append.mp he with he | he
        · exact h.decls_lt e he
        · rw [List.mem_singleton.mp he]
          exact h.path_lt s (by simp [hpath])
  path_lt := h.path_lt
  path_nodup := h.path_nodup

/-- Entering puts the fresh scope in front of the path. -/
@[simp]
theorem path_enter (h : History ν δ) : h.enter.path = h.next :: h.path := rfl

/-- Leaving takes the innermost scope from the path. -/
@[simp]
theorem path_leave (h : History ν δ) : h.leave.path = h.path.tail := rfl

/-- Declaring stays in the scope. -/
@[simp]
theorem path_declare (h : History ν δ) (x : ν) (d : δ) : (h.declare x d).path = h.path := rfl

/-- A declaration is recorded with the scope it is made in. -/
theorem decls_declare {h : History ν δ} {s : Nat} {rest : List Nat} (hpath : h.path = s :: rest)
    (x : ν) (d : δ) : (h.declare x d).decls = h.decls ++ [⟨s, x, d⟩] := by
  simp [declare, declareIn, hpath]

/-- Outside all scopes nothing is recorded. -/
theorem decls_declare_nil {h : History ν δ} (hpath : h.path = []) (x : ν) (d : δ) :
    (h.declare x d).decls = h.decls := by
  simp [declare, declareIn, hpath]

/-- No scope declares a name twice. -/
def Unique (h : History ν δ) : Prop :=
  h.decls.Pairwise fun d e => ¬(d.scope = e.scope ∧ d.name = e.name)

/-- Nothing is declared twice at the start. -/
theorem unique_empty : (empty : History ν δ).Unique := List.Pairwise.nil

variable [DecidableEq ν]

/-- What a scope declares under a name. -/
def find (h : History ν δ) (s : Nat) (x : ν) : Option δ :=
  (h.decls.find? fun d => d.scope == s && d.name == x).map Declaration.content

/-- What a name means: the declaration in the innermost open scope that has one. -/
def resolve (h : History ν δ) (x : ν) : Option δ := h.path.findSome? fun s => h.find s x

/-- Whether the innermost scope declares a name. -/
def declared (h : History ν δ) (x : ν) : Bool :=
  match h.path with
  | [] => false
  | s :: _ => (h.find s x).isSome

/-- Entering a scope forgets no declaration. -/
@[simp]
theorem find_enter (h : History ν δ) (s : Nat) (x : ν) : h.enter.find s x = h.find s x := rfl

/-- Nor does leaving one. -/
@[simp]
theorem find_leave (h : History ν δ) (s : Nat) (x : ν) : h.leave.find s x = h.find s x := rfl

/-- A scope that was not entered yet declares nothing. -/
theorem find_next (h : History ν δ) (x : ν) : h.find h.next x = none := by
  unfold find
  rw [Option.map_eq_none_iff, List.find?_eq_none]
  intro d hd hboth
  have hscope := h.decls_lt d hd
  simp only [Bool.and_eq_true, beq_iff_eq] at hboth
  omega

/-- A declaration is seen in its own scope under its own name only. -/
theorem find_declare {h : History ν δ} {s : Nat} {rest : List Nat} (hpath : h.path = s :: rest)
    {x : ν} (hx : h.find s x = none) (d : δ) (s' : Nat) (y : ν) :
    (h.declare x d).find s' y = if s' = s ∧ y = x then some d else h.find s' y := by
  unfold find at hx ⊢
  rw [decls_declare hpath, List.find?_append]
  by_cases hsame : s' = s ∧ y = x
  · obtain ⟨rfl, rfl⟩ := hsame
    rw [Option.map_eq_none_iff] at hx
    simp [hx]
  · rw [if_neg hsame]
    have hother : (s == s' && x == y) = false := by
      rw [Bool.and_eq_false_iff]
      by_cases hs : s' = s
      · exact Or.inr (by simpa using fun heq => hsame ⟨hs, heq.symm⟩)
      · exact Or.inl (by simpa using fun heq => hs heq.symm)
    simp [hother]

/-- A name that the innermost scope does not have yet may be declared. -/
theorem Unique.declare {h : History ν δ} (hunique : h.Unique) {x : ν}
    (hx : h.declared x = false) (d : δ) : (h.declare x d).Unique := by
  unfold Unique at *
  cases hpath : h.path with
  | nil =>
      rw [decls_declare_nil hpath]
      exact hunique
  | cons s rest =>
      rw [decls_declare hpath, List.pairwise_append]
      refine ⟨hunique, List.pairwise_singleton _ _, ?_⟩
      intro e he e' he'
      rw [List.mem_singleton.mp he']
      rintro ⟨hscope, hname⟩
      have hnone : h.find s x = none := by simpa [declared, hpath] using hx
      unfold find at hnone
      rw [Option.map_eq_none_iff, List.find?_eq_none] at hnone
      apply hnone e he
      simp [hscope, hname]

end History

variable [DecidableEq ν]

/-! ## Stacks of maps -/

/-- A stack of maps, innermost scope first, each with the number of its scope. -/
abbrev Stack (ν δ : Type) := List (Nat × (ν → Option δ))

/-- The search through a stack. -/
def Stack.lookup (st : Stack ν δ) (x : ν) : Option δ := st.findSome? fun f => f.2 x

/-- The maps of the stack are the open scopes of the history. -/
structure Represents (h : History ν δ) (st : Stack ν δ) : Prop where
  path : st.map Prod.fst = h.path
  maps : ∀ f ∈ st, ∀ x, f.2 x = h.find f.1 x

/-- The empty stack represents the empty history. -/
theorem represents_empty : Represents (History.empty : History ν δ) [] := ⟨rfl, by simp⟩

section

variable {h : History ν δ} {st : Stack ν δ}

/-- The search through the stack finds what the name means. -/
theorem Represents.lookup (hr : Represents h st) (x : ν) : st.lookup x = h.resolve x := by
  unfold Stack.lookup History.resolve
  rw [← hr.path, List.findSome?_map]
  have hmaps := hr.maps
  clear hr
  induction st with
  | nil => rfl
  | cons f st ih =>
      rw [List.findSome?_cons, List.findSome?_cons, hmaps f List.mem_cons_self x,
        ih fun g hg => hmaps g (List.mem_cons_of_mem f hg)]
      rfl

/-- Pushing an empty map represents entering. -/
theorem Represents.enter (hr : Represents h st) :
    Represents h.enter ((h.next, fun _ => none) :: st) where
  path := by simp [hr.path]
  maps := by
    intro f hf x
    rcases List.mem_cons.mp hf with rfl | hf
    · exact (h.find_next x).symm
    · exact hr.maps f hf x

/-- Popping a map represents leaving. -/
theorem Represents.leave (hr : Represents h st) : Represents h.leave st.tail where
  path := by rw [List.map_tail, hr.path, History.path_leave]
  maps := fun f hf x => hr.maps f (List.mem_of_mem_tail hf) x

/-- A declaration goes into the topmost map, and into no other one. -/
theorem Represents.declare {s : Nat} {m : ν → Option δ} (hr : Represents h ((s, m) :: st))
    {x : ν} (hx : m x = none) (d : δ) :
    Represents (h.declare x d) ((s, Function.update m x (some d)) :: st) where
  path := by simpa using hr.path
  maps := by
    have hpath : h.path = s :: st.map Prod.fst := hr.path.symm
    have hnone : h.find s x = none := by
      rw [← hx]
      exact (hr.maps _ List.mem_cons_self x).symm
    intro f hf y
    rw [History.find_declare hpath hnone]
    rcases List.mem_cons.mp hf with rfl | hbelow
    · by_cases hy : y = x
      · subst hy
        simp
      · rw [if_neg fun hboth => hy hboth.2]
        simpa [Function.update, hy] using hr.maps _ List.mem_cons_self y
    · -- The other open scopes have other numbers.
      have hne : f.1 ≠ s := by
        rintro rfl
        have hnodup := h.path_nodup
        rw [hpath] at hnodup
        exact (List.nodup_cons.mp hnodup).1 (List.mem_map_of_mem hbelow)
      rw [if_neg fun hboth => hne hboth.1]
      exact hr.maps f (List.mem_cons_of_mem _ hbelow) y

/-- A name is declared in the innermost scope if it is in the topmost map. -/
theorem Represents.declared {s : Nat} {m : ν → Option δ} (hr : Represents h ((s, m) :: st))
    (x : ν) : h.declared x = (m x).isSome := by
  have hpath : h.path = s :: st.map Prod.fst := hr.path.symm
  have hfind : m x = h.find s x := hr.maps _ List.mem_cons_self x
  simp only [History.declared, hpath, hfind]

end

end LexicalScope
