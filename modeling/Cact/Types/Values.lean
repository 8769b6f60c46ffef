import Cact.Types.Structure

/-!
# Types as values

The front end is modelled with types that are trees, and with function types that are
places in a table.  Their comparison is the one of the pointers that stand for them, and so
are their sizes.

Main results:

- Theorem {lit}`TypeRun.typesEqual_iff_typeEq`: the two comparisons agree.
- Definitions {lit}`ObjTy.size` and {lit}`ObjTy.align`: the size and the alignment of a type.
- Theorem {lit}`TypeRun.Reachable.sized`: they are what the records hold.
-/

namespace Cact

/-! ## Comparison -/

/-- The tree of an object type. -/
def ObjTy.tree : ObjTy → TypeTree
  | .void => .prim .void
  | .bool => .prim .bool
  | .int => .prim .int
  | .float => .prim .float
  | .double => .prim .double
  | .array base len => .array base.tree len

theorem ObjTy.tree_injective : Function.Injective ObjTy.tree := by
  intro a b h
  induction a generalizing b with
  | array base len ih =>
      cases b with
      | array base' len' =>
          simp only [ObjTy.tree, TypeTree.array.injEq] at h
          rw [ih h.1, h.2]
      | _ => simp [ObjTy.tree] at h
  | _ => cases b <;> simp [ObjTy.tree] at h ⊢

/-- The tree of a type, for a function type with a complete parameter list. -/
def Ty.Stands (funcs : List FuncTy) (t : TypeTree) : Ty → Prop
  | .obj ty => t = ty.tree
  | .func i => ∃ (f : FuncTy) (params : List ObjTy), funcs[i]? = some f ∧
      f.params = params.map some ∧ t = .func f.ret.tree (params.map ObjTy.tree)

/-- The comparison of values is the one of trees. -/
theorem typeEq_iff_tree {funcs : List FuncTy} {ty ty' : Ty} {t t' : TypeTree}
    (h : ty.Stands funcs t) (h' : ty'.Stands funcs t') :
    typeEq funcs (some ty) (some ty') = true ↔ t = t' := by
  cases ty with
  | obj a =>
      obtain rfl := h
      cases ty' with
      | obj b =>
          obtain rfl := h'
          rw [typeEq, ObjTy.typeEq_iff]
          exact ObjTy.tree_injective.eq_iff.symm
      | func j =>
          obtain ⟨g, params', _, _, rfl⟩ := h'
          cases a <;> simp [typeEq, ObjTy.tree]
  | func i =>
      obtain ⟨f, params, hf, hparams, rfl⟩ := h
      cases ty' with
      | obj b =>
          obtain rfl := h'
          cases b <;> simp [typeEq, ObjTy.tree]
      | func j =>
          obtain ⟨g, params', hg, hparams', rfl⟩ := h'
          have hsome : Function.Injective (some : ObjTy → Option ObjTy) :=
            fun a b => Option.some.inj
          have hlists : f.params = g.params ↔
              params.map ObjTy.tree = params'.map ObjTy.tree := by
            rw [hparams, hparams', (List.map_injective_iff.mpr hsome).eq_iff,
              (List.map_injective_iff.mpr ObjTy.tree_injective).eq_iff]
          rw [typeEq, hf, hg, Bool.or_eq_true, beq_iff_eq, Bool.and_eq_true, ObjTy.typeEq_iff,
            paramsTypeEq_iff, hlists, TypeTree.func.injEq, ObjTy.tree_injective.eq_iff]
          constructor
          · rintro (rfl | heq)
            · cases hf.symm.trans hg
              exact ⟨rfl, hlists.mp rfl⟩
            · exact heq
          · exact Or.inr

/-- The comparison of pointers is the one of the values they stand for. -/
theorem TypeRun.typesEqual_iff_typeEq {s : TypeRun} (hreach : s.Reachable)
    {funcs : List FuncTy} {p q : TypePtr} {ty ty' : Ty} {t t' : TypeTree} (hp : t.At s p)
    (hq : t'.At s q) (h : ty.Stands funcs t) (h' : ty'.Stands funcs t') :
    s.TypesEqual p q ↔ typeEq funcs (some ty) (some ty') = true := by
  rw [hreach.sound.typesEqual_iff hp hq, typeEq_iff_tree h h']

/-! ## Sizes -/

/-- The size of a type, in 32-bit arithmetic. -/
def ObjTy.size : ObjTy → Int32
  | .void => 0
  | .bool => 1
  | .int | .float => 4
  | .double => 8
  | .array base len => base.size * len

/-- The alignment of a type. -/
def ObjTy.align : ObjTy → Int32
  | .void => 0
  | .bool => 1
  | .int | .float => 4
  | .double => 8
  | .array base _ => base.align

namespace TypeRun

/-- The records of object types hold their sizes and alignments. -/
def Sized (s : TypeRun) : Prop :=
  ∀ (ty : ObjTy) (p : TypePtr) (r : TypeRec), ty.tree.At s p → s.Holds p r →
    r.size = ty.size ∧ r.align = ty.align

variable {s s' : TypeRun}

theorem sized_typesInit : Sized ⟨TypeHeap.typesInit, []⟩ := by
  intro ty p r ht hr
  have h := sound_typesInit
  cases ty with
  | array base len =>
      obtain ⟨r', _, ⟨a, rfl, _, hr'⟩, hkind, _⟩ := ht
      have hlt : a < TypeHeap.typesInit.length := (List.getElem?_eq_some_iff.mp hr').1
      have hcases : a = 0 ∨ a = 1 ∨ a = 2 ∨ a = 3 ∨ a = 4 := by
        simp only [TypeHeap.typesInit, List.length_cons, List.length_nil] at hlt
        omega
      rcases hcases with rfl | rfl | rfl | rfl | rfl <;> cases hr' <;> cases hkind
  | _ =>
      have hp := (h.at_prim_iff rfl).mp ht
      rw [hp] at hr
      obtain ⟨a, ha, _, hr⟩ := hr
      cases ha
      cases hr
      exact ⟨rfl, rfl⟩

/-- A record that a call completes is a function type or an array over a complete one. -/
theorem Step.new_record (h : s.Sound) (hstep : Step s s') (p : TypePtr) (r : TypeRec)
    (hr : s'.Holds p r) : s.Holds p r ∨ r.kind = .func ∨
      ∃ base len b, r.kind = .array ∧ r.data = .array base len ∧ s.Holds base b ∧
        r.size = b.size * len ∧ r.align = b.align := by
  obtain ⟨a, rfl, ha, hr⟩ := hr
  cases hstep with
  | @arrayOf base _ len _ hbase hcall =>
      obtain ⟨b, hb⟩ := hbase
      simp only [TypeHeap.typeArrayOf, hb.deref, Option.bind_eq_bind, Option.bind_some,
        Option.some.injEq, Prod.mk.injEq] at hcall
      obtain ⟨rfl, rfl⟩ := hcall
      rcases record_concat hr with hold | ⟨rfl, rfl⟩
      · exact Or.inl ⟨a, rfl, ha, hold⟩
      · exact Or.inr (Or.inr ⟨base, len, b, rfl, rfl, hb, rfl, rfl⟩)
  | funcNew hret hcall =>
      simp only [TypeHeap.typeFuncNew, Prod.mk.injEq] at hcall
      obtain ⟨rfl, rfl⟩ := hcall
      rcases record_concat hr with hold | ⟨rfl, rfl⟩
      · exact Or.inl ⟨a, rfl, fun hin => ha (List.mem_append_right _ hin), hold⟩
      · exact Or.inr (Or.inl rfl)
  | @pushParam f _ hf hty =>
      have hne : a ≠ f := fun heq => ha (heq ▸ hf)
      exact Or.inl ⟨a, rfl, ha, (List.getElem?_modify_ne _ _ (Ne.symm hne)).symm.trans hr⟩
  | finish f =>
      by_cases hopen : a ∈ s.unfinished
      · obtain ⟨r', _, _, hr', hkind, _⟩ := h.growing a hopen
        rw [Option.some.inj (hr'.symm.trans hr)] at hkind
        exact Or.inr (Or.inl hkind)
      · exact Or.inl ⟨a, rfl, hopen, hr⟩

/-- Every call that builds types keeps the sizes. -/
theorem Sized.step (hsized : s.Sized) (h : s.Sound) (hstep : Step s s') : s'.Sized := by
  intro ty p r ht hr
  rcases hstep.new_record h p r hr with
    hold | hfunc | ⟨base, len, b, harray, hdata, hb, hsize, halign⟩
  · obtain ⟨t, hat⟩ := h.tree p ⟨r, hold⟩
    have heq := (hat.mono hstep.mono).unique ht
    subst heq
    exact hsized ty p r hat hold
  · cases ty with
    | array elem len =>
        obtain ⟨r', _, hr', hkind, _⟩ := ht
        rw [hr'.unique hr, hfunc] at hkind
        cases hkind
    | _ =>
        obtain ⟨_, r', hr', hkind⟩ := ht
        rw [hr'.unique hr, hfunc] at hkind
        cases hkind
  · cases ty with
    | array elem len' =>
        obtain ⟨r', base', hr', _, hdata', helem⟩ := ht
        rw [hr'.unique hr, hdata] at hdata'
        cases hdata'
        obtain ⟨t, hat⟩ := h.tree base ⟨b, hb⟩
        have heq := (hat.mono hstep.mono).unique helem
        subst heq
        obtain ⟨hbsize, hbalign⟩ := hsized elem base b hat hb
        rw [hsize, halign, hbsize, hbalign]
        exact ⟨rfl, rfl⟩
    | _ =>
        obtain ⟨_, r', hr', hkind⟩ := ht
        rw [hr'.unique hr, harray] at hkind
        cases hkind

/-- Sizes and alignments are right in every heap that can be built. -/
theorem Reachable.sized (h : s.Reachable) : s.Sized := by
  induction h with
  | refl => exact sized_typesInit
  | tail hreach hstep ih => exact ih.step (Reachable.sound hreach) hstep

end TypeRun

end Cact
