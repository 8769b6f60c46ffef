import Cact.Types.Heap
import Mathlib.Data.List.Forall2

/-!
# Types are compared by structure

A pointer to a complete type stands for a tree, and the comparison of two pointers is the
comparison of their trees.  The comparison calls two records of one primitive kind
different, so this needs that every primitive type exists once, and it ends because no type
is a part of itself.  Every call that builds types keeps both.

Main results:

- Definition {lit}`TypeTree.At`: the tree that a pointer stands for.
- Theorem {lit}`TypeRun.Sound.step`: what the calls keep.
- Theorem {lit}`TypeRun.Sound.returns`: the comparison returns, and what it returns.
- Theorem {lit}`type_eq_structural`: the same for every heap that can be built.
-/

namespace Cact

/-! ## Trees -/

/-- The tree of a type. -/
inductive TypeTree where
  | prim (kind : TypeKind)
  | array (base : TypeTree) (len : Int32)
  | func (ret : TypeTree) (params : List TypeTree)

mutual

/-- The pointer is to a complete type with the given tree. -/
def TypeTree.At (s : TypeRun) : TypeTree → TypePtr → Prop
  | .prim kind, p => kind.isPrimitive = true ∧ ∃ r, s.Holds p r ∧ r.kind = kind
  | .array t len, p =>
      ∃ r base, s.Holds p r ∧ r.kind = .array ∧ r.data = .array base len ∧ t.At s base
  | .func t ts, p =>
      ∃ r ret params, s.Holds p r ∧ r.kind = .func ∧ r.data = .func ret params ∧
        t.At s ret ∧ treesAt s ts params

/-- The trees {lit}`ts` are what the pointers {lit}`ps` point to, one by one. -/
def treesAt (s : TypeRun) : List TypeTree → List TypePtr → Prop
  | [], [] => True
  | t :: ts, p :: ps => t.At s p ∧ treesAt s ts ps
  | _, _ => False

end

namespace TypeRun

variable {s s' : TypeRun} {p q : TypePtr} {r r' : TypeRec}

/-- A pointer holds at most one record. -/
theorem Holds.unique (h : s.Holds p r) (h' : s.Holds p r') : r = r' := by
  obtain ⟨a, rfl, _, hr⟩ := h
  obtain ⟨b, hb, _, hr'⟩ := h'
  cases hb
  exact Option.some.inj (hr.symm.trans hr')

/-- A held record is what following the pointer gives. -/
theorem Holds.deref (h : s.Holds p r) : s.heap.deref p = some r := by
  obtain ⟨a, rfl, _, hr⟩ := h
  exact hr

/-- NULL holds no record. -/
theorem Holds.ne_none (h : s.Holds p r) : p ≠ none := by
  obtain ⟨a, rfl, _, _⟩ := h
  simp

end TypeRun

section

variable {s s' : TypeRun} {p : TypePtr}

/-- A pointer at which a tree stands is one to a complete type. -/
theorem TypeTree.At.complete {t : TypeTree} (h : t.At s p) : s.Complete p := by
  cases t with
  | prim kind =>
      obtain ⟨_, r, hr, _⟩ := h
      exact ⟨r, hr⟩
  | array t len =>
      obtain ⟨r, _, hr, _⟩ := h
      exact ⟨r, hr⟩
  | func t ts =>
      obtain ⟨r, _, _, hr, _⟩ := h
      exact ⟨r, hr⟩

/-- A pointer to a record of a primitive kind stands for that kind. -/
theorem TypeTree.At.of_prim {t : TypeTree} {r : TypeRec} (h : t.At s p) (hr : s.Holds p r)
    (hkind : r.kind.isPrimitive = true) : t = .prim r.kind := by
  cases t with
  | prim kind =>
      obtain ⟨_, r', hr', rfl⟩ := h
      rw [hr.unique hr']
  | array t len =>
      obtain ⟨r', _, hr', harray, _⟩ := h
      rw [hr.unique hr', harray] at hkind
      cases hkind
  | func t ts =>
      obtain ⟨r', _, _, hr', hfunc, _⟩ := h
      rw [hr.unique hr', hfunc] at hkind
      cases hkind

/-- A pointer to the record of an array stands for an array. -/
theorem TypeTree.At.of_array {t : TypeTree} {r : TypeRec} {base : TypePtr} {len : Int32}
    (h : t.At s p) (hr : s.Holds p r) (hkind : r.kind = .array)
    (hdata : r.data = .array base len) : ∃ t', t = .array t' len ∧ t'.At s base := by
  cases t with
  | prim kind =>
      obtain ⟨hprim, r', hr', rfl⟩ := h
      rw [← hr.unique hr', hkind] at hprim
      cases hprim
  | array t len' =>
      obtain ⟨r', base', hr', _, hdata', ht⟩ := h
      rw [← hr.unique hr', hdata] at hdata'
      cases hdata'
      exact ⟨t, rfl, ht⟩
  | func t ts =>
      obtain ⟨r', _, _, hr', hfunc, _⟩ := h
      rw [← hr.unique hr', hkind] at hfunc
      cases hfunc

/-- A pointer to the record of a function stands for a function. -/
theorem TypeTree.At.of_func {t : TypeTree} {r : TypeRec} {ret : TypePtr}
    {params : List TypePtr} (h : t.At s p) (hr : s.Holds p r) (hkind : r.kind = .func)
    (hdata : r.data = .func ret params) :
    ∃ t' ts, t = .func t' ts ∧ t'.At s ret ∧ treesAt s ts params := by
  cases t with
  | prim kind =>
      obtain ⟨hprim, r', hr', rfl⟩ := h
      rw [← hr.unique hr', hkind] at hprim
      cases hprim
  | array t len =>
      obtain ⟨r', _, hr', harray, _⟩ := h
      rw [← hr.unique hr', hkind] at harray
      cases harray
  | func t ts =>
      obtain ⟨r', ret', params', hr', _, hdata', ht, hts⟩ := h
      rw [← hr.unique hr', hdata] at hdata'
      cases hdata'
      exact ⟨t, ts, rfl, ht, hts⟩

mutual

/-- A pointer stands for one tree. -/
theorem TypeTree.At.unique : ∀ {t t' : TypeTree} {p : TypePtr},
    t.At s p → t'.At s p → t = t'
  | .prim kind, t', p, h, h' => by
      obtain ⟨hkind, r, hr, rfl⟩ := h
      exact (h'.of_prim hr hkind).symm
  | .array t len, t', p, h, h' => by
      obtain ⟨r, base, hr, hkind, hdata, ht⟩ := h
      obtain ⟨t₂, rfl, ht₂⟩ := h'.of_array hr hkind hdata
      rw [TypeTree.At.unique ht ht₂]
  | .func t ts, t', p, h, h' => by
      obtain ⟨r, ret, params, hr, hkind, hdata, ht, hts⟩ := h
      obtain ⟨t₂, ts₂, rfl, ht₂, hts₂⟩ := h'.of_func hr hkind hdata
      rw [TypeTree.At.unique ht ht₂, treesAt_unique hts hts₂]

/-- The trees at a list of pointers are determined by the pointers. -/
theorem treesAt_unique : ∀ {ts ts' : List TypeTree} {ps : List TypePtr},
    treesAt s ts ps → treesAt s ts' ps → ts = ts'
  | [], ts', ps, h, h' => by
      cases ps with
      | nil =>
          cases ts' with
          | nil => rfl
          | cons t' ts' => cases h'
      | cons p ps => cases h
  | t :: ts, ts', ps, h, h' => by
      cases ps with
      | nil => cases h
      | cons p ps =>
          cases ts' with
          | nil => cases h'
          | cons t' ts' => rw [TypeTree.At.unique h.1 h'.1, treesAt_unique h.2 h'.2]

end

mutual

/-- What is complete stays as it is. -/
theorem TypeTree.At.mono (hmono : ∀ p r, s.Holds p r → s'.Holds p r) :
    ∀ {t : TypeTree} {p : TypePtr}, t.At s p → t.At s' p
  | .prim kind, p, h => by
      obtain ⟨hkind, r, hr, hrk⟩ := h
      exact ⟨hkind, r, hmono p r hr, hrk⟩
  | .array t len, p, h => by
      obtain ⟨r, base, hr, hkind, hdata, ht⟩ := h
      exact ⟨r, base, hmono p r hr, hkind, hdata, TypeTree.At.mono hmono ht⟩
  | .func t ts, p, h => by
      obtain ⟨r, ret, params, hr, hkind, hdata, ht, hts⟩ := h
      exact ⟨r, ret, params, hmono p r hr, hkind, hdata, TypeTree.At.mono hmono ht,
        treesAt_mono hmono hts⟩

/-- Trees stay where they are while the heap only grows. -/
theorem treesAt_mono (hmono : ∀ p r, s.Holds p r → s'.Holds p r) :
    ∀ {ts : List TypeTree} {ps : List TypePtr}, treesAt s ts ps → treesAt s' ts ps
  | [], [], _ => trivial
  | _ :: _, _ :: _, h => ⟨TypeTree.At.mono hmono h.1, treesAt_mono hmono h.2⟩
  | [], _ :: _, h => h
  | _ :: _, [], h => h

end

/-- {lit}`treesAt` is the pointwise relation of the two lists. -/
theorem treesAt_iff {ts : List TypeTree} {ps : List TypePtr} :
    treesAt s ts ps ↔ List.Forall₂ (fun t p => t.At s p) ts ps := by
  induction ts generalizing ps with
  | nil => cases ps <;> simp [treesAt]
  | cons t ts ih => cases ps <;> simp [treesAt, ih]

/-- Where each pointer has a tree, so has the whole list. -/
theorem exists_treesAt {ps : List TypePtr} (h : ∀ p ∈ ps, ∃ t : TypeTree, t.At s p) :
    ∃ ts, treesAt s ts ps := by
  induction ps with
  | nil => exact ⟨[], trivial⟩
  | cons p ps ih =>
      obtain ⟨t, ht⟩ := h p List.mem_cons_self
      obtain ⟨ts, hts⟩ := ih fun q hq => h q (List.mem_cons_of_mem _ hq)
      exact ⟨t :: ts, ht, hts⟩

end

/-! ## The invariant -/

namespace TypeRun

open TypeHeap

/-- The invariant of the heap: every primitive type exists once, every complete type has
a tree, and the parts of an unfinished function type are complete. -/
structure Sound (s : TypeRun) : Prop where
  primitive : ∀ a (r : TypeRec), s.heap[a]? = some r → r.kind.isPrimitive = true →
    global r.kind = some a
  present : ∀ kind, kind.isPrimitive = true → ∃ r, s.Holds (global kind) r ∧ r.kind = kind
  tree : ∀ p, s.Complete p → ∃ t : TypeTree, t.At s p
  growing : ∀ f ∈ s.unfinished, ∃ (r : TypeRec) (ret : TypePtr) (params : List TypePtr),
    s.heap[f]? = some r ∧ r.kind = .func ∧ r.data = .func ret params ∧ s.Complete ret ∧
      ∀ p ∈ params, s.Complete p

variable {s s' : TypeRun}

/-- The five global types make a sound heap. -/
theorem sound_typesInit : Sound ⟨typesInit, []⟩ where
  primitive := by
    intro a r hr hkind
    have hlt : a < typesInit.length := (List.getElem?_eq_some_iff.mp hr).1
    have hcases : a = 0 ∨ a = 1 ∨ a = 2 ∨ a = 3 ∨ a = 4 := by
      simp only [typesInit, List.length_cons, List.length_nil] at hlt
      omega
    rcases hcases with rfl | rfl | rfl | rfl | rfl <;> cases hr <;> rfl
  present := by
    intro kind hkind
    cases kind with
    | array => cases hkind
    | func => cases hkind
    | _ => exact ⟨_, ⟨_, rfl, by simp, rfl⟩, rfl⟩
  tree := by
    rintro p ⟨r, a, rfl, _, hr⟩
    have hlt : a < typesInit.length := (List.getElem?_eq_some_iff.mp hr).1
    have hcases : a = 0 ∨ a = 1 ∨ a = 2 ∨ a = 3 ∨ a = 4 := by
      simp only [typesInit, List.length_cons, List.length_nil] at hlt
      omega
    refine ⟨.prim r.kind, ?_, r, ⟨a, rfl, by simp, hr⟩, rfl⟩
    rcases hcases with rfl | rfl | rfl | rfl | rfl <;> cases hr <;> rfl
  growing := by simp

/-- An unfinished type has an address in the heap. -/
theorem Sound.lt_length (h : s.Sound) {f : Nat} (hf : f ∈ s.unfinished) :
    f < s.heap.length := by
  obtain ⟨r, _, _, hr, _⟩ := h.growing f hf
  exact (List.getElem?_eq_some_iff.mp hr).1

/-- The invariant only has to be looked at where a record is new. -/
theorem Sound.extend (h : s.Sound) (hmono : ∀ p r, s.Holds p r → s'.Holds p r)
    (hprim : ∀ (a : Nat) (r : TypeRec), s'.heap[a]? = some r → r.kind.isPrimitive = true →
      ∃ r' : TypeRec, s.heap[a]? = some r' ∧ r'.kind = r.kind)
    (htree : ∀ p, s'.Complete p → s.Complete p ∨ ∃ t : TypeTree, t.At s' p)
    (hgrowing : ∀ f ∈ s'.unfinished, ∃ (r : TypeRec) (ret : TypePtr) (params : List TypePtr),
      s'.heap[f]? = some r ∧ r.kind = .func ∧ r.data = .func ret params ∧ s.Complete ret ∧
        ∀ p ∈ params, s.Complete p) :
    s'.Sound where
  primitive := by
    intro a r hr hkind
    obtain ⟨r', hr', heq⟩ := hprim a r hr hkind
    rw [← heq] at hkind ⊢
    exact h.primitive a r' hr' hkind
  present := by
    intro kind hkind
    obtain ⟨r, hr, heq⟩ := h.present kind hkind
    exact ⟨r, hmono _ r hr, heq⟩
  tree := by
    intro p hp
    rcases htree p hp with hold | hnew
    · obtain ⟨t, ht⟩ := h.tree p hold
      exact ⟨t, ht.mono hmono⟩
    · exact hnew
  growing := by
    intro f hf
    obtain ⟨r, ret, params, hr, hkind, hdata, ⟨rr, hret⟩, hparams⟩ := hgrowing f hf
    refine ⟨r, ret, params, hr, hkind, hdata, ⟨rr, hmono _ _ hret⟩, ?_⟩
    intro p hp
    obtain ⟨rp, hrp⟩ := hparams p hp
    exact ⟨rp, hmono _ _ hrp⟩

/-- A record of a longer heap is an old one or the new one. -/
theorem record_concat {h : TypeHeap} {x r : TypeRec} {a : Nat} (hr : (h ++ [x])[a]? = some r) :
    h[a]? = some r ∨ (a = h.length ∧ r = x) := by
  rcases Nat.lt_or_ge a h.length with hlt | hge
  · rw [List.getElem?_append_left hlt] at hr
    exact Or.inl hr
  · have hlt := (List.getElem?_eq_some_iff.mp hr).1
    rw [List.length_append, List.length_singleton] at hlt
    have hlast : a = h.length := by omega
    rw [hlast, List.getElem?_concat_length] at hr
    exact Or.inr ⟨hlast, (Option.some.inj hr).symm⟩

/-- A new record does not touch the others. -/
theorem holds_concat {h : TypeHeap} {us vs : List Nat} {x : TypeRec} {p : TypePtr}
    {r : TypeRec} (hvs : ∀ f ∈ vs, f ∈ us ∨ f = h.length) (hr : (TypeRun.mk h us).Holds p r) :
    (TypeRun.mk (h ++ [x]) vs).Holds p r := by
  obtain ⟨a, rfl, ha, hr⟩ := hr
  have hlt : a < h.length := (List.getElem?_eq_some_iff.mp hr).1
  refine ⟨a, rfl, ?_, ?_⟩
  · intro hmem
    rcases hvs a hmem with hus | rfl
    · exact ha hus
    · omega
  · rw [List.getElem?_append_left hlt]
    exact hr

/-- Every call that builds types leaves the complete ones as they are. -/
theorem Step.mono (hstep : Step s s') (p : TypePtr) (r : TypeRec) (hr : s.Holds p r) :
    s'.Holds p r := by
  cases hstep with
  | arrayOf hbase hcall =>
      obtain ⟨b, hb⟩ := hbase
      simp only [typeArrayOf, hb.deref, Option.bind_eq_bind, Option.bind_some,
        Option.some.injEq, Prod.mk.injEq] at hcall
      obtain ⟨rfl, rfl⟩ := hcall
      exact holds_concat (fun f hf => Or.inl hf) hr
  | funcNew hret hcall =>
      simp only [typeFuncNew, Prod.mk.injEq] at hcall
      obtain ⟨rfl, rfl⟩ := hcall
      refine holds_concat (fun f hf => ?_) hr
      rcases List.mem_append.mp hf with hnew | hold
      · exact Or.inr (by simpa using hnew)
      · exact Or.inl hold
  | pushParam hf hty =>
      obtain ⟨a, rfl, ha, hr⟩ := hr
      have hne : a ≠ _ := fun heq => ha (heq ▸ hf)
      exact ⟨a, rfl, ha, (List.getElem?_modify_ne _ _ (Ne.symm hne)).trans hr⟩
  | finish f =>
      obtain ⟨a, rfl, ha, hr⟩ := hr
      exact ⟨a, rfl, fun hin => ha (List.mem_filter.mp hin).1, hr⟩

/-- {lit}`type_array_of` on a complete base keeps the heap sound. -/
theorem Sound.arrayOf (h : s.Sound) {base p : TypePtr} {len : Int32} {h' : TypeHeap}
    (hbase : s.Complete base) (hcall : s.heap.typeArrayOf base len = some (p, h')) :
    Sound ⟨h', s.unfinished⟩ := by
  have hmono := (Step.arrayOf hbase hcall).mono
  obtain ⟨b, hb⟩ := hbase
  simp only [typeArrayOf, hb.deref, Option.bind_eq_bind, Option.bind_some,
    Option.some.injEq, Prod.mk.injEq] at hcall
  obtain ⟨rfl, rfl⟩ := hcall
  refine h.extend hmono ?_ ?_ ?_
  · intro a r hr hkind
    rcases record_concat hr with hold | ⟨rfl, rfl⟩
    · exact ⟨r, hold, rfl⟩
    · cases hkind
  · rintro p ⟨r, a, rfl, ha, hr⟩
    rcases record_concat hr with hold | ⟨rfl, rfl⟩
    · exact Or.inl ⟨r, a, rfl, ha, hold⟩
    · obtain ⟨t, ht⟩ := h.tree base ⟨b, hb⟩
      exact Or.inr ⟨.array t len, _, base, ⟨_, rfl, ha, hr⟩, rfl, rfl, ht.mono hmono⟩
  · intro f hf
    obtain ⟨r, ret, params, hr, hrest⟩ := h.growing f hf
    refine ⟨r, ret, params, ?_, hrest⟩
    rw [List.getElem?_append_left (h.lt_length hf)]
    exact hr

/-- {lit}`type_func_new` keeps the heap sound: the new function type is unfinished. -/
theorem Sound.funcNew (h : s.Sound) {ret p : TypePtr} {h' : TypeHeap}
    (hret : s.Complete ret) (hcall : s.heap.typeFuncNew ret = (p, h')) :
    Sound ⟨h', p.toList ++ s.unfinished⟩ := by
  have hmono := (Step.funcNew hret hcall).mono
  simp only [typeFuncNew, Prod.mk.injEq] at hcall
  obtain ⟨rfl, rfl⟩ := hcall
  refine h.extend hmono ?_ ?_ ?_
  · intro a r hr hkind
    rcases record_concat hr with hold | ⟨rfl, rfl⟩
    · exact ⟨r, hold, rfl⟩
    · cases hkind
  · rintro p ⟨r, a, rfl, ha, hr⟩
    simp only [Option.toList_some, List.cons_append, List.nil_append, List.mem_cons,
      not_or] at ha
    rcases record_concat hr with hold | ⟨rfl, rfl⟩
    · exact Or.inl ⟨r, a, rfl, ha.2, hold⟩
    · exact absurd rfl ha.1
  · intro f hf
    rcases List.mem_append.mp hf with hnew | hold
    · have heq : f = s.heap.length := by simpa using hnew
      subst heq
      exact ⟨_, ret, [], List.getElem?_concat_length, rfl, rfl, hret, by simp⟩
    · obtain ⟨r, ret', params, hr, hrest⟩ := h.growing f hold
      refine ⟨r, ret', params, ?_, hrest⟩
      rw [List.getElem?_append_left (h.lt_length hold)]
      exact hr

/-- A complete parameter pushed onto an unfinished function type keeps the heap sound. -/
theorem Sound.pushParam (h : s.Sound) {f : Nat} {ty : TypePtr} (hf : f ∈ s.unfinished)
    (hty : s.Complete ty) : Sound ⟨s.heap.pushParam f ty, s.unfinished⟩ := by
  have hother {a : Nat} (ha : a ≠ f) : (s.heap.pushParam f ty)[a]? = s.heap[a]? := by
    exact List.getElem?_modify_ne _ _ (Ne.symm ha)
  refine h.extend (Step.pushParam hf hty).mono ?_ ?_ ?_
  · intro a r hr hkind
    by_cases hne : a = f
    · rw [TypeHeap.pushParam, hne, List.getElem?_modify_eq] at hr
      rw [hne]
      obtain ⟨r', hr', rfl⟩ := Option.map_eq_some_iff.mp hr
      exact ⟨r', hr', rfl⟩
    · rw [hother hne] at hr
      exact ⟨r, hr, rfl⟩
  · rintro p ⟨r, a, rfl, ha, hr⟩
    have hne : a ≠ f := by
      intro heq
      exact ha (heq ▸ hf)
    rw [hother hne] at hr
    exact Or.inl ⟨r, a, rfl, ha, hr⟩
  · intro g hg
    obtain ⟨r, ret, params, hr, hkind, hdata, hret, hparams⟩ := h.growing g hg
    by_cases hne : g = f
    · refine ⟨{ r with data := r.data.pushParam ty }, ret, params ++ [ty], ?_, hkind, ?_,
        hret, ?_⟩
      · rw [hne] at hr ⊢
        rw [TypeHeap.pushParam, List.getElem?_modify_eq, hr]
        rfl
      · dsimp only
        rw [hdata, TypeData.pushParam]
      · intro p hp
        rcases List.mem_append.mp hp with hold | hnew
        · exact hparams p hold
        · rw [List.mem_singleton.mp hnew]
          exact hty
    · exact ⟨r, ret, params, (hother hne).trans hr, hkind, hdata, hret, hparams⟩

/-- Declaring a function type finished keeps the heap sound. -/
theorem Sound.finish (h : s.Sound) (f : Nat) :
    Sound ⟨s.heap, s.unfinished.filter (· ≠ f)⟩ := by
  have hmem {a : Nat} (ha : a ∈ s.unfinished.filter (· ≠ f)) : a ∈ s.unfinished :=
    (List.mem_filter.mp ha).1
  have hmono := (Step.finish (s := s) f).mono
  refine h.extend hmono (fun a r hr _ => ⟨r, hr, rfl⟩) ?_ fun g hg => h.growing g (hmem hg)
  rintro p ⟨r, a, rfl, ha, hr⟩
  by_cases hopen : a ∈ s.unfinished
  · -- The type that is finished gets its tree from those of its parts.
    obtain ⟨r', ret, params, hr', hkind, hdata, hret, hparams⟩ := h.growing a hopen
    have heq : r' = r := Option.some.inj (hr'.symm.trans hr)
    subst heq
    obtain ⟨t, ht⟩ := h.tree ret hret
    obtain ⟨ts, hts⟩ := exists_treesAt fun p hp => h.tree p (hparams p hp)
    exact Or.inr ⟨.func t ts, _, ret, params, ⟨a, rfl, ha, hr⟩, hkind, hdata, ht.mono hmono,
      treesAt_mono hmono hts⟩
  · exact Or.inl ⟨r, a, rfl, hopen, hr⟩

/-- Every call that builds types keeps the invariant. -/
theorem Sound.step (h : s.Sound) (hstep : Step s s') : s'.Sound := by
  cases hstep with
  | arrayOf hbase hcall => exact h.arrayOf hbase hcall
  | funcNew hret hcall => exact h.funcNew hret hcall
  | pushParam hf hty => exact h.pushParam hf hty
  | finish f => exact h.finish f

/-- The invariant holds in every heap that can be built. -/
theorem Reachable.sound (h : s.Reachable) : s.Sound := by
  induction h with
  | refl => exact sound_typesInit
  | tail _ hstep ih => exact ih.step hstep

/-! ## The comparison -/

variable {p q : TypePtr} {ra rb : TypeRec}

/-- What the comparison does with two different pointers. -/
theorem typeEq_of_ne (hne : p ≠ q) (hp : s.Holds p ra) (hq : s.Holds q rb) (n : Nat) :
    s.heap.typeEq (n + 1) p q =
      if ra.kind ≠ rb.kind then some false
      else
        match ra.kind, ra.data, rb.data with
        | .array, .array base₁ len₁, .array base₂ len₂ =>
            if len₁ = len₂ then s.heap.typeEq n base₁ base₂ else some false
        | .array, _, _ => none
        | .func, .func ret₁ params₁, .func ret₂ params₂ => do
            if ← s.heap.typeEq n ret₁ ret₂ then
              if params₁.length ≠ params₂.length then some false
              else paramsEq (s.heap.typeEq n) params₁ params₂
            else some false
        | .func, _, _ => none
        | _, _, _ => some false := by
  rw [TypeHeap.typeEq, if_neg hne, if_neg (not_or.mpr ⟨hp.ne_none, hq.ne_none⟩), hp.deref, hq.deref]
  rfl

/-- {lit}`type_eq` of a pointer with itself is true at once: the pointers are compared first. -/
theorem returns_self (p : TypePtr) : s.Returns p p true := by
  refine ⟨1, fun n hn => ?_⟩
  obtain ⟨m, rfl⟩ : ∃ m, n = m + 1 := ⟨n - 1, by omega⟩
  rw [TypeHeap.typeEq, if_pos rfl]

/-- Types of two kinds are different. -/
theorem returns_of_kind_ne (hp : s.Holds p ra) (hq : s.Holds q rb) (hkind : ra.kind ≠ rb.kind) :
    s.Returns p q false := by
  have hne : p ≠ q := by
    rintro rfl
    exact hkind (by rw [hp.unique hq])
  refine ⟨1, fun n hn => ?_⟩
  obtain ⟨m, rfl⟩ : ∃ m, n = m + 1 := ⟨n - 1, by omega⟩
  rw [typeEq_of_ne hne hp hq, if_pos hkind]

/-- Two arrays are compared by their lengths and elements. -/
theorem returns_array {base base' : TypePtr} {len len' : Int32} {b : Bool} (hne : p ≠ q)
    (hp : s.Holds p ra) (hq : s.Holds q rb) (hra : ra.kind = .array) (hrb : rb.kind = .array)
    (hda : ra.data = .array base len) (hdb : rb.data = .array base' len')
    (hbase : s.Returns base base' b) : s.Returns p q (decide (len = len') && b) := by
  obtain ⟨N, hN⟩ := hbase
  refine ⟨N + 1, fun n hn => ?_⟩
  obtain ⟨m, rfl⟩ : ∃ m, n = m + 1 := ⟨n - 1, by omega⟩
  rw [typeEq_of_ne hne hp hq, if_neg (by simp [hra, hrb]), hra, hda, hdb]
  dsimp only
  rw [hN m (by omega)]
  by_cases hlen : len = len' <;> simp [hlen]

/-- Two functions are compared by their results and parameters. -/
theorem returns_func {ret ret' : TypePtr} {params params' : List TypePtr} {b c : Bool}
    (hne : p ≠ q) (hp : s.Holds p ra) (hq : s.Holds q rb) (hra : ra.kind = .func)
    (hrb : rb.kind = .func) (hda : ra.data = .func ret params)
    (hdb : rb.data = .func ret' params') (hret : s.Returns ret ret' b)
    (hparams : params.length = params'.length →
      ∃ N, ∀ n, N ≤ n → paramsEq (s.heap.typeEq n) params params' = some c) :
    s.Returns p q (b && (decide (params.length = params'.length) && c)) := by
  obtain ⟨N, hN⟩ := hret
  by_cases hlen : params.length = params'.length
  · obtain ⟨M, hM⟩ := hparams hlen
    refine ⟨max N M + 1, fun n hn => ?_⟩
    obtain ⟨m, rfl⟩ : ∃ m, n = m + 1 := ⟨n - 1, by omega⟩
    rw [typeEq_of_ne hne hp hq, if_neg (by simp [hra, hrb]), hra, hda, hdb]
    dsimp only
    rw [hN m (by omega), hM m (by omega)]
    cases b <;> simp [hlen]
  · refine ⟨N + 1, fun n hn => ?_⟩
    obtain ⟨m, rfl⟩ : ∃ m, n = m + 1 := ⟨n - 1, by omega⟩
    rw [typeEq_of_ne hne hp hq, if_neg (by simp [hra, hrb]), hra, hda, hdb]
    dsimp only
    rw [hN m (by omega)]
    cases b <;> simp [hlen]

mutual

/-- The comparison returns, and decides whether the trees are the same. -/
theorem Sound.returns (h : s.Sound) : ∀ {t t' : TypeTree} {p q : TypePtr},
    t.At s p → t'.At s q → ∃ b, s.Returns p q b ∧ (b = true ↔ t = t')
  | t, t', p, q, ht, ht' => by
      by_cases hne : p = q
      · subst hne
        exact ⟨true, returns_self p, by simp [ht.unique ht']⟩
      cases t with
      | prim kind =>
          obtain ⟨hkind, ra, hra, rfl⟩ := ht
          obtain ⟨rb, hrb⟩ := ht'.complete
          have hdiff : ra.kind ≠ rb.kind := by
            intro heq
            obtain ⟨a, rfl, _, hra⟩ := hra
            obtain ⟨b, rfl, _, hrb⟩ := hrb
            have ha := h.primitive a ra hra hkind
            have hb := h.primitive b rb hrb (heq ▸ hkind)
            exact hne (by rw [← ha, ← hb, heq])
          refine ⟨false, returns_of_kind_ne hra hrb hdiff, ?_⟩
          simp only [Bool.false_eq_true, false_iff]
          rintro rfl
          obtain ⟨_, r, hr, hrk⟩ := ht'
          exact hdiff (by rw [hrb.unique hr, hrk])
      | array t len =>
          obtain ⟨ra, base, hra, hka, hda, ht⟩ := ht
          cases t' with
          | prim kind =>
              obtain ⟨hkind, rb, hrb, rfl⟩ := ht'
              refine ⟨false, returns_of_kind_ne hra hrb ?_, by simp⟩
              intro heq
              rw [← heq, hka] at hkind
              cases hkind
          | array t' len' =>
              obtain ⟨rb, base', hrb, hkb, hdb, ht'⟩ := ht'
              obtain ⟨b, hb, hiff⟩ := Sound.returns h ht ht'
              refine ⟨_, returns_array hne hra hrb hka hkb hda hdb hb, ?_⟩
              rw [Bool.and_eq_true, decide_eq_true_eq, hiff, TypeTree.array.injEq]
              exact and_comm
          | func t' ts' =>
              obtain ⟨rb, _, _, hrb, hkb, _⟩ := ht'
              refine ⟨false, returns_of_kind_ne hra hrb ?_, by simp⟩
              rw [hka, hkb]
              decide
      | func t ts =>
          obtain ⟨ra, ret, params, hra, hka, hda, ht, hts⟩ := ht
          cases t' with
          | prim kind =>
              obtain ⟨hkind, rb, hrb, rfl⟩ := ht'
              refine ⟨false, returns_of_kind_ne hra hrb ?_, by simp⟩
              intro heq
              rw [← heq, hka] at hkind
              cases hkind
          | array t' len' =>
              obtain ⟨rb, _, hrb, hkb, _⟩ := ht'
              refine ⟨false, returns_of_kind_ne hra hrb ?_, by simp⟩
              rw [hka, hkb]
              decide
          | func t' ts' =>
              obtain ⟨rb, ret', params', hrb, hkb, hdb, ht', hts'⟩ := ht'
              obtain ⟨b, hb, hiff⟩ := Sound.returns h ht ht'
              obtain ⟨c, hc, hparams⟩ := Sound.params_return h hts hts'
              refine ⟨_, returns_func hne hra hrb hka hkb hda hdb hb fun _ => hc, ?_⟩
              rw [Bool.and_eq_true, Bool.and_eq_true, decide_eq_true_eq, hiff,
                TypeTree.func.injEq, ← (treesAt_iff.mp hts).length_eq,
                ← (treesAt_iff.mp hts').length_eq]
              constructor
              · rintro ⟨rfl, hlen, hc⟩
                exact ⟨rfl, (hparams hlen).mp hc⟩
              · rintro ⟨rfl, rfl⟩
                exact ⟨rfl, rfl, (hparams rfl).mpr rfl⟩

/-- The comparison of two parameter lists returns, and it says whether their trees are equal. -/
theorem Sound.params_return (h : s.Sound) : ∀ {ts ts' : List TypeTree} {ps qs : List TypePtr},
    treesAt s ts ps → treesAt s ts' qs → ∃ b,
      (∃ N, ∀ n, N ≤ n → paramsEq (s.heap.typeEq n) ps qs = some b) ∧
        (ts.length = ts'.length → (b = true ↔ ts = ts'))
  | [], ts', ps, qs, hts, hts' => by
      cases ps with
      | cons p ps => cases hts
      | nil =>
          refine ⟨true, ⟨0, fun n _ => rfl⟩, ?_⟩
          intro hlen
          rw [List.length_nil, eq_comm, List.length_eq_zero_iff] at hlen
          simp [hlen]
  | t :: ts, [], ps, qs, hts, hts' => by
      cases ps with
      | nil => cases hts
      | cons p ps =>
          cases qs with
          | cons q qs => cases hts'
          | nil => exact ⟨true, ⟨0, fun n _ => rfl⟩, by simp⟩
  | t :: ts, t' :: ts', ps, qs, hts, hts' => by
      cases ps with
      | nil => cases hts
      | cons p ps =>
          cases qs with
          | nil => cases hts'
          | cons q qs =>
              obtain ⟨b, ⟨N, hN⟩, hiff⟩ := Sound.returns h hts.1 hts'.1
              obtain ⟨c, ⟨M, hM⟩, hrest⟩ := Sound.params_return h hts.2 hts'.2
              refine ⟨b && c, ⟨max N M, fun n hn => ?_⟩, ?_⟩
              · rw [paramsEq, hN n (by omega), hM n (by omega)]
                cases b <;> rfl
              · intro hlen
                have htail : ts.length = ts'.length := by simpa using hlen
                rw [Bool.and_eq_true, hiff, hrest htail, List.cons.injEq]

end

/-! ## Structural equality -/

/-- On pointers with trees, {lit}`type_eq` is equality of the trees. -/
theorem Sound.typesEqual_iff (h : s.Sound) {t t' : TypeTree} (ht : t.At s p)
    (ht' : t'.At s q) : s.TypesEqual p q ↔ t = t' := by
  obtain ⟨b, hb, hiff⟩ := h.returns ht ht'
  rw [← hiff]
  constructor
  · rintro ⟨N, hN⟩
    obtain ⟨M, hM⟩ := hb
    have heq := (hN (max N M) (by omega)).symm.trans (hM (max N M) (by omega))
    exact (Option.some.inj heq).symm
  · rintro rfl
    exact hb

/-- A pointer to a complete type of a primitive kind is the global pointer. -/
theorem Sound.eq_global (h : s.Sound) {r : TypeRec} (hr : s.Holds p r)
    (hkind : r.kind.isPrimitive = true) : p = global r.kind := by
  obtain ⟨a, rfl, _, hr⟩ := hr
  exact (h.primitive a r hr hkind).symm

/-- A primitive tree stands at its global type only, since {lit}`type_array_of` and
{lit}`type_func_new` make no primitive. -/
theorem Sound.at_prim_iff (h : s.Sound) {kind : TypeKind} (hkind : kind.isPrimitive = true) :
    (TypeTree.prim kind).At s p ↔ p = global kind := by
  constructor
  · rintro ⟨_, r, hr, rfl⟩
    exact h.eq_global hr hkind
  · rintro rfl
    exact ⟨hkind, h.present kind hkind⟩

/-- The test of a pointer against a global is a test of its tree. -/
theorem Sound.eq_global_iff (h : s.Sound) {kind : TypeKind} (hkind : kind.isPrimitive = true)
    {t : TypeTree} (ht : t.At s p) : p = global kind ↔ t = .prim kind := by
  rw [← h.at_prim_iff hkind]
  constructor
  · exact fun hat => ht.unique hat
  · rintro rfl
    exact ht

/-- Two lists of pointers are pairwise equal for {lit}`type_eq` iff their trees are. -/
theorem Sound.typesEqual_all_iff (h : s.Sound) {ps qs : List TypePtr} {ts ts' : List TypeTree}
    (hts : treesAt s ts ps) (hts' : treesAt s ts' qs) :
    List.Forall₂ s.TypesEqual ps qs ↔ ts = ts' := by
  rw [treesAt_iff] at hts hts'
  induction hts generalizing qs ts' with
  | nil =>
      cases hts' with
      | nil => simp
      | cons ht' hts' => simp [List.forall₂_nil_left_iff]
  | cons ht hts ih =>
      cases hts' with
      | nil => simp [List.forall₂_nil_right_iff]
      | cons ht' hts' =>
          rw [List.forall₂_cons, h.typesEqual_iff ht ht', ih hts', List.cons.injEq]

end TypeRun

open TypeHeap TypeRun

/-- Types are compared by structure: every complete type has one tree; the comparison of
two of them returns and tells whether their trees are equal; it is an equivalence relation
that arrays and functions respect; and a comparison of pointers with the globals tells the
same as one of trees. -/
structure StructuralEquality (s : TypeRun) : Prop where
  tree : ∀ p, s.Complete p → ∃! t : TypeTree, t.At s p
  decides : ∀ (t t' : TypeTree) (p q : TypePtr), t.At s p → t'.At s q →
    ∃ b, s.Returns p q b ∧ (b = true ↔ t = t')
  equivalence : Equivalence fun p q : {p // s.Complete p} => s.TypesEqual p q
  array : ∀ p q ra rb base base' len len', s.Holds p ra → s.Holds q rb →
    ra.kind = .array → rb.kind = .array → ra.data = .array base len →
    rb.data = .array base' len' →
      (s.TypesEqual p q ↔ len = len' ∧ s.TypesEqual base base')
  func : ∀ p q ra rb ret ret' params params', s.Holds p ra → s.Holds q rb →
    ra.kind = .func → rb.kind = .func → ra.data = .func ret params →
    rb.data = .func ret' params' →
      (s.TypesEqual p q ↔ s.TypesEqual ret ret' ∧ List.Forall₂ s.TypesEqual params params')
  primitive : ∀ p r, s.Holds p r → r.kind.isPrimitive = true → p = global r.kind
  pointers : ∀ (t : TypeTree) (p : TypePtr) (kind : TypeKind), t.At s p →
    kind.isPrimitive = true → (p = global kind ↔ t = .prim kind)
  arithmetic : ∀ (t : TypeTree) (p : TypePtr), t.At s p →
    (TypeHeap.typeIsArithmetic p = true ↔ t = .prim .int ∨ t = .prim .float ∨ t = .prim .double)

/-- In every heap that can be built, {lit}`type_eq` is structural equality. -/
theorem type_eq_structural {s : TypeRun} (hreach : s.Reachable) : StructuralEquality s := by
  have h := hreach.sound
  have harray {p base : TypePtr} {r : TypeRec} {len : Int32} (hr : s.Holds p r)
      (hkind : r.kind = .array) (hdata : r.data = .array base len) :
      ∃ t : TypeTree, t.At s base ∧ (TypeTree.array t len).At s p := by
    obtain ⟨t, ht⟩ := h.tree p ⟨r, hr⟩
    obtain ⟨t', rfl, ht'⟩ := ht.of_array hr hkind hdata
    exact ⟨t', ht', ht⟩
  have hfunc {p ret : TypePtr} {r : TypeRec} {params : List TypePtr} (hr : s.Holds p r)
      (hkind : r.kind = .func) (hdata : r.data = .func ret params) :
      ∃ (t : TypeTree) (ts : List TypeTree), t.At s ret ∧ treesAt s ts params ∧
        (TypeTree.func t ts).At s p := by
    obtain ⟨t, ht⟩ := h.tree p ⟨r, hr⟩
    obtain ⟨t', ts, rfl, ht', hts⟩ := ht.of_func hr hkind hdata
    exact ⟨t', ts, ht', hts, ht⟩
  constructor
  case tree =>
    intro p hp
    obtain ⟨t, ht⟩ := h.tree p hp
    exact ⟨t, ht, fun t' ht' => ht'.unique ht⟩
  case decides =>
    intro t t' p q ht ht'
    exact h.returns ht ht'
  case equivalence =>
    constructor
    case refl => exact fun p => returns_self p.1
    case symm =>
      intro p q hpq
      obtain ⟨t, ht⟩ := h.tree p.1 p.2
      obtain ⟨t', ht'⟩ := h.tree q.1 q.2
      rw [h.typesEqual_iff ht ht'] at hpq
      exact (h.typesEqual_iff ht' ht).mpr hpq.symm
    case trans =>
      intro p q r hpq hqr
      obtain ⟨t, ht⟩ := h.tree p.1 p.2
      obtain ⟨t', ht'⟩ := h.tree q.1 q.2
      obtain ⟨t'', ht''⟩ := h.tree r.1 r.2
      rw [h.typesEqual_iff ht ht'] at hpq
      rw [h.typesEqual_iff ht' ht''] at hqr
      exact (h.typesEqual_iff ht ht'').mpr (hpq.trans hqr)
  case array =>
    intro p q ra rb base base' len len' hp hq hka hkb hda hdb
    obtain ⟨t, ht, hat⟩ := harray hp hka hda
    obtain ⟨t', ht', hat'⟩ := harray hq hkb hdb
    rw [h.typesEqual_iff hat hat', h.typesEqual_iff ht ht', TypeTree.array.injEq]
    exact and_comm
  case func =>
    intro p q ra rb ret ret' params params' hp hq hka hkb hda hdb
    obtain ⟨t, ts, ht, hts, hat⟩ := hfunc hp hka hda
    obtain ⟨t', ts', ht', hts', hat'⟩ := hfunc hq hkb hdb
    rw [h.typesEqual_iff hat hat', h.typesEqual_iff ht ht', h.typesEqual_all_iff hts hts',
      TypeTree.func.injEq]
  case primitive =>
    intro p r hr hkind
    exact h.eq_global hr hkind
  case pointers =>
    intro t p kind ht hkind
    exact h.eq_global_iff hkind ht
  case arithmetic =>
    intro t p ht
    have hint : p = TypeHeap.global .int ↔ t = .prim .int := h.eq_global_iff rfl ht
    have hfloat : p = TypeHeap.global .float ↔ t = .prim .float := h.eq_global_iff rfl ht
    have hdouble : p = TypeHeap.global .double ↔ t = .prim .double := h.eq_global_iff rfl ht
    rw [TypeHeap.typeIsArithmetic, Bool.or_eq_true, Bool.or_eq_true, beq_iff_eq, beq_iff_eq,
      beq_iff_eq, ← hint, ← hfloat, ← hdouble, or_assoc]
    rfl

/-- The record of the type {lit}`int[2]`. -/
def intPair : TypeRec := ⟨.array, 8, 4, .array TypeHeap.tyInt 2⟩

/-- The heap after two calls for the type {lit}`int[2]`. -/
def twoArrays : TypeRun := ⟨typesInit ++ [intPair, intPair], []⟩

/-- Two arrays built apart by the same calls: different pointers, and {lit}`type_eq` holds of them.
-/
theorem type_eq_structural_arrays :
    StructuralEquality twoArrays ∧ twoArrays.heap.typeEq 2 (some 5) (some 6) = some true := by
  have hint {h : TypeHeap} {r : TypeRec} (hr : h[2]? = some r) :
      (TypeRun.mk h []).Complete TypeHeap.tyInt := ⟨r, 2, rfl, by simp, hr⟩
  have hone : typesInit.typeArrayOf TypeHeap.tyInt 2 = some (some 5, typesInit ++ [intPair]) := by
    decide +kernel
  have htwo : TypeHeap.typeArrayOf (typesInit ++ [intPair]) TypeHeap.tyInt 2 =
      some (some 6, twoArrays.heap) := by decide +kernel
  have hreach : Reachable twoArrays :=
    .tail (.tail .refl (.arrayOf (hint rfl) hone)) (.arrayOf (hint rfl) htwo)
  exact ⟨type_eq_structural hreach, by decide +kernel⟩

end Cact
