import Cact.Grammar.Scoping
import Mathlib.Data.List.ReduceOption
import Mathlib.Logic.Relation

/-!
# Typed nodes

What the checks guarantee about every node that is built: types are present, operands and
both sides of assignments agree structurally, and every return fits its function.

Main results:

- Definition {lit}`Node.Sound`: the typing rule of one node.
- Definition {lit}`Node.All`: a property of every node of a tree.
- Theorem {lit}`Expr.sound_node`, {lit}`Stmt.sound_build`, {lit}`Item.sound_build`: what is
  built in zeroed memory satisfies the rules at all nodes.
-/

open LexicalScope

namespace Cact

/-- The nodes a node points to. -/
def Node.children : Node → List Node
  | litInt _ _ | litFloat _ _ | litDouble _ _ | litBool _ _ | var _ _ | breakStmt _
  | continueStmt _ => []
  | initList _ inits => inits.reduceOption
  | funcCall _ _ args => args.reduceOption
  | arrayAccess _ lhs rhs => lhs :: rhs.toList
  | neg _ lhs | logNot _ lhs | retStmt _ lhs => lhs.toList
  | binary _ _ lhs rhs | assign _ lhs rhs => [lhs, rhs]
  | block _ stmts => stmts
  | ifStmt _ cond thenBranch elseBranch =>
      cond.toList ++ thenBranch.toList ++ elseBranch.toList
  | whileStmt _ cond body => cond.toList ++ body.toList
  | exprStmt _ lhs => [lhs]
  | varDecl _ _ init => init.toList

/-- A property holds at every node of a tree. -/
def Node.All (P : Node → Prop) (root : Node) : Prop :=
  ∀ n, Relation.ReflTransGen (fun a b => b ∈ a.children) root n → P n

/-- A property of every node holds at the root and in all trees below it. -/
theorem Node.all_of_children {P : Node → Prop} {root : Node} (h : P root)
    (hchildren : ∀ n ∈ root.children, n.All P) : root.All P := by
  intro n hn
  rcases Relation.ReflTransGen.cases_head hn with rfl | ⟨c, hc, hcn⟩
  · exact h
  · exact hchildren c hc n hcn

/-- Structural equality of types: function types are the same if they take and return the
same.  A null type is the same as nothing. -/
def SameTy (funcs : List FuncTy) : Option Ty → Option Ty → Prop
  | some (.obj a), some (.obj b) => a = b
  | some (.func i), some (.func j) => i = j ∨ ∃ f, funcs[i]? = some f ∧ funcs[j]? = some f
  | _, _ => False

/-- The operand and result types of a binary operator. -/
def BinOp.Typed (op : BinOp) (operand result : Option Ty) : Prop :=
  match op with
  | .add | .sub | .mul | .div =>
      (operand = tyInt ∨ operand = tyFloat ∨ operand = tyDouble) ∧ result = operand
  | .mod => operand = tyInt ∧ result = tyInt
  | .eq | .ne | .lt | .le | .gt | .ge => result = tyBool
  | .logAnd | .logOr => operand = tyBool ∧ result = tyBool

/-- Whether a node is a brace list. -/
def Node.isInitList : Node → Bool
  | initList _ _ => true
  | _ => false

/-- The typing rule of a node inside a function that returns {lit}`ret`. -/
def Node.Sound (funcs : List FuncTy) (ret : Option ObjTy) : Node → Prop
  | litInt ty _ => ty = tyInt
  | litFloat ty _ => ty = tyFloat
  | litDouble ty _ => ty = tyDouble
  | litBool ty _ => ty = tyBool
  | initList _ inits => none ∉ inits
  | var ty sym => ∃ s, sym = some s ∧ ty = s.ty ∧ ty.isSome = true
  | funcCall ty _ args => ty.isSome = true ∧ none ∉ args
  | arrayAccess ty lhs rhs => ∃ base len, lhs.ty = some (.obj (.array base len)) ∧
      ty = some (.obj base) ∧ rhs.isSome = true
  | neg ty lhs => ∃ n, lhs = some n ∧ ty = n.ty ∧ ty.isSome = true
  | logNot ty lhs => ty = tyBool ∧ lhs.isSome = true
  | binary op ty lhs rhs => SameTy funcs lhs.ty rhs.ty ∧ op.Typed lhs.ty ty
  | assign ty lhs rhs => SameTy funcs lhs.ty rhs.ty ∧ lhs.isConstVar = false ∧ ty = lhs.ty
  | varDecl ty sym init => (∃ s, sym = some s ∧ s.ty = ty) ∧ ty.isSome = true ∧
      ∀ n, init = some n → n.isInitList = false → n.ty = ty
  | retStmt _ lhs => Parser.actualTy lhs = ret.map Ty.obj
  | ifStmt _ cond thenBranch _ => cond.isSome = true ∧ thenBranch.isSome = true
  | whileStmt _ cond body => cond.isSome = true ∧ body.isSome = true
  | block _ _ | exprStmt _ _ | breakStmt _ | continueStmt _ => True

/-- An expression node, brace lists apart. -/
def Node.isExpr : Node → Bool
  | litInt _ _ | litFloat _ _ | litDouble _ _ | litBool _ _ | var _ _ | funcCall _ _ _
  | arrayAccess _ _ _ | neg _ _ | logNot _ _ | binary _ _ _ _ | assign _ _ _ => true
  | _ => false

/-- Types that are the same are there. -/
theorem SameTy.isSome {funcs : List FuncTy} {a b : Option Ty} (h : SameTy funcs a b) :
    a.isSome = true := by
  cases a with
  | none => exact h.elim
  | some t => rfl

/-- Every expression node that follows its typing rule has a type. -/
theorem Node.Sound.ty_isSome {funcs : List FuncTy} {ret : Option ObjTy} {n : Node}
    (h : n.Sound funcs ret) (hexpr : n.isExpr = true) : n.ty.isSome = true := by
  cases n with
  | litInt ty val => exact h ▸ rfl
  | litFloat ty val => exact h ▸ rfl
  | litDouble ty val => exact h ▸ rfl
  | litBool ty val => exact h ▸ rfl
  | var ty sym =>
      obtain ⟨s, _, _, hty⟩ := h
      exact hty
  | funcCall ty name args => exact h.1
  | arrayAccess ty lhs rhs =>
      obtain ⟨base, len, _, rfl, _⟩ := h
      rfl
  | neg ty lhs =>
      obtain ⟨n, _, _, hty⟩ := h
      exact hty
  | logNot ty lhs => exact h.1 ▸ rfl
  | assign ty lhs rhs => exact h.2.2 ▸ h.1.isSome
  | binary op ty lhs rhs =>
      obtain ⟨hsame, htyped⟩ := h
      unfold BinOp.Typed at htyped
      cases op <;> simp only at htyped <;>
        first
        | exact htyped.2 ▸ hsame.isSome
        | exact htyped.2 ▸ rfl
        | exact htyped ▸ rfl
  | _ => cases hexpr

namespace Grammar

section

variable {Γ : Scoping} {σ : Sema} {F : List FuncTy} {ret : Option ObjTy}

/-! ## Checks -/

/-- The comparison of the checks is structural equality. -/
theorem sameTy_of_typeEq {funcs : List FuncTy} (hF : funcs <+: F) {a b : Option Ty}
    (ha : a.isSome = true) (h : typeEq funcs a b = true) : SameTy F a b := by
  have hget {i : Nat} {f : FuncTy} (hi : funcs[i]? = some f) : F[i]? = some f := by
    obtain ⟨rest, rfl⟩ := hF
    obtain ⟨hlt, _⟩ := List.getElem?_eq_some_iff.mp hi
    rw [List.getElem?_append_left hlt, hi]
  cases a with
  | none => cases ha
  | some a =>
      cases b with
      | none => cases a <;> cases h
      | some b =>
          cases a with
          | obj a =>
              cases b with
              | obj b => exact ObjTy.typeEq_iff.mp h
              | func j => cases h
          | func i =>
              cases b with
              | obj b => cases h
              | func j =>
                  simp only [typeEq, Bool.or_eq_true, beq_iff_eq] at h
                  rcases h with h | h
                  · exact Or.inl h
                  · split at h
                    · rename_i f g hf hg
                      rw [Bool.and_eq_true, ObjTy.typeEq_iff, paramsTypeEq_iff] at h
                      have hfg : f = g := by
                        cases f
                        cases g
                        simp_all
                      exact Or.inr ⟨f, hget hf, hfg ▸ hget hg⟩
                    · cases h

/-- Only an object type equals an object type. -/
theorem obj_of_typeEq {funcs : List FuncTy} {t : ObjTy} {b : Option Ty}
    (h : typeEq funcs (some (.obj t)) b = true) : b = some (.obj t) := by
  cases b with
  | none => cases h
  | some b =>
      cases b with
      | obj b => rw [ObjTy.typeEq_iff.mp h]
      | func j => cases h

/-- An operator that is accepted has the type that its rule says. -/
theorem sound_binaryNode {op : BinOp} {l r n : Node} (hF : σ.funcs <+: F)
    (hl : l.ty.isSome = true) (h : binaryNode σ.funcs op l r = some n) : n.Sound F ret := by
  unfold binaryNode at h
  split at h
  · rename_i hty
    have hsame := sameTy_of_typeEq hF hl hty
    cases op with
    | eq | ne | lt | le | gt | ge =>
        cases h
        exact ⟨hsame, rfl⟩
    | add | sub | mul | div =>
        dsimp only at h
        split at h
        · rename_i harith
          cases h
          refine ⟨hsame, ?_, rfl⟩
          simpa [typeIsArithmetic, or_assoc] using harith
        · cases h
    | mod =>
        dsimp only at h
        split at h
        · rename_i hint
          cases h
          exact ⟨hsame, hint, rfl⟩
        · cases h
    | logAnd | logOr =>
        dsimp only at h
        split at h
        · rename_i hbool
          cases h
          exact ⟨hsame, hbool, rfl⟩
        · cases h
  · cases h

/-- So has an assignment. -/
theorem sound_assignNode {l r n : Node} (hF : σ.funcs <+: F) (hl : l.ty.isSome = true)
    (h : assignNode σ.funcs l r = some n) : n.Sound F ret := by
  unfold assignNode at h
  split at h
  · cases h
  · rename_i hconst
    split at h
    · rename_i hty
      cases h
      exact ⟨sameTy_of_typeEq hF hl hty, by simpa using hconst, rfl⟩
    · cases h

/-! ## Expressions -/

/-- The node of an expression is an expression node, and sound with all nodes below. -/
structure Good (F : List FuncTy) (ret : Option ObjTy) (n : Node) : Prop where
  expr : n.isExpr = true
  all : n.All (Node.Sound F ret)

/-- A good node has a type. -/
theorem Good.isSome {n : Node} (h : Good F ret n) : n.ty.isSome = true :=
  (h.all n Relation.ReflTransGen.refl).ty_isSome h.expr

/-- A sound node with good children is good. -/
theorem good_of_children {n : Node} (hexpr : n.isExpr = true) (h : n.Sound F ret)
    (hchildren : ∀ c ∈ n.children, Good F ret c) : Good F ret n :=
  ⟨hexpr, Node.all_of_children h fun c hc => (hchildren c hc).all⟩

/-- An operator is an expression with its operands as children. -/
theorem isExpr_binaryNode {op : BinOp} {l r n : Node} {funcs : List FuncTy}
    (h : binaryNode funcs op l r = some n) : n.isExpr = true ∧ n.children = [l, r] := by
  rw [binaryNode_eq h]
  exact ⟨rfl, rfl⟩

/-- A sound node with two good children. -/
theorem good_pair {n l r : Node} (hexpr : n.isExpr = true ∧ n.children = [l, r])
    (h : n.Sound F ret) (hl : Good F ret l) (hr : Good F ret r) : Good F ret n := by
  apply good_of_children hexpr.1 h
  intro c hc
  rw [hexpr.2] at hc
  rcases List.mem_cons.mp hc with rfl | hc
  · exact hl
  · exact List.mem_singleton.mp hc ▸ hr

/-- A sound node with one. -/
theorem good_single {n c : Node} (hexpr : n.isExpr = true) (hchildren : n.children = [c])
    (h : n.Sound F ret) (hc : Good F ret c) : Good F ret n := by
  apply good_of_children hexpr h
  intro c' hc'
  rw [hchildren] at hc'
  exact List.mem_singleton.mp hc' ▸ hc

mutual

/-- Every node built for an expression follows its typing rule. -/
theorem Expr.sound_node (hm : Models Γ σ) (ht : Tidy Γ) (hF : σ.funcs <+: F) :
    ∀ {e : Expr} {n : Node}, e.node σ = some n → Good F ret n
  | .int _, n, h => by
      cases h
      exact good_of_children rfl rfl (by simp [Node.children])
  | .float _, n, h => by
      cases h
      exact good_of_children rfl rfl (by simp [Node.children])
  | .double _, n, h => by
      cases h
      exact good_of_children rfl rfl (by simp [Node.children])
  | .bool _, n, h => by
      cases h
      exact good_of_children rfl rfl (by simp [Node.children])
  | .paren inner, n, h => Expr.sound_node hm ht hF (e := inner) h
  | .var name, n, h => by
      obtain ⟨sym, hsym, rfl⟩ := Expr.node_var h
      rw [hm.lookup] at hsym
      obtain ⟨ty, hty, _⟩ := ht.resolve hsym
      exact good_of_children rfl ⟨sym, rfl, rfl, by simp [hty]⟩ (by simp [Node.children])
  | .index base sub, n, h => by
      obtain ⟨l, r, hl, hr, hend⟩ := Expr.node_index h
      obtain ⟨elem, len, hty, rfl⟩ := indexNode_cases hend
      exact good_pair ⟨rfl, rfl⟩ ⟨elem, len, hty, rfl, rfl⟩
        (Expr.sound_node hm ht hF hl) (Expr.sound_node hm ht hF hr)
  | .call name args, n, h => by
      obtain ⟨sym, ns, ty, hsym, hns, hty, rfl⟩ := Expr.node_call h
      rw [hm.lookup] at hsym
      have hcall : (σ.callTy ty).isSome = true := by
        obtain ⟨ty', hty', hlt⟩ := ht.resolve hsym
        cases ty with
        | obj t => rfl
        | func id =>
            have hid : id < σ.funcs.length := by
              rw [hm.funcs]
              rw [hty] at hty'
              exact hlt id (Option.some.inj hty').symm
            simp [Sema.callTy, hid]
      refine good_of_children (n := .funcCall (σ.callTy ty) name (ns.map some)) rfl
        ⟨hcall, by simp⟩ ?_
      intro c hc
      rw [Node.children, List.reduceOption_mem_iff] at hc
      obtain ⟨c', hc', heq⟩ := List.mem_map.mp hc
      cases heq
      exact args_sound hm ht hF hns c hc'
  | .unary .plus operand, n, h => Expr.sound_node hm ht hF (e := operand) h
  | .unary .minus operand, n, h => by
      obtain ⟨o, ho, rfl⟩ := Expr.node_minus h
      have hgood : Good F ret o := Expr.sound_node hm ht hF ho
      exact good_single rfl rfl ⟨o, rfl, rfl, hgood.isSome⟩ hgood
  | .unary .not operand, n, h => by
      obtain ⟨o, ho, rfl⟩ := Expr.node_not h
      exact good_single rfl rfl ⟨rfl, rfl⟩ (Expr.sound_node hm ht hF ho)
  | .binary op lhs rhs, n, h => by
      obtain ⟨l, r, hl, hr, hend⟩ := Expr.node_binary h
      have hgood : Good F ret l := Expr.sound_node hm ht hF hl
      exact good_pair (isExpr_binaryNode hend) (sound_binaryNode hF hgood.isSome hend) hgood
        (Expr.sound_node hm ht hF hr)
  | .assign lhs rhs, n, h => by
      obtain ⟨l, r, hl, hr, hend⟩ := Expr.node_assign h
      have hgood : Good F ret l := Expr.sound_node hm ht hF hl
      have hsound : n.Sound F ret := sound_assignNode hF hgood.isSome hend
      have hn := assignNode_eq hend
      subst hn
      exact good_pair ⟨rfl, rfl⟩ hsound hgood (Expr.sound_node hm ht hF hr)

/-- The nodes of arguments are good. -/
theorem args_sound (hm : Models Γ σ) (ht : Tidy Γ) (hF : σ.funcs <+: F) :
    ∀ {es : List Expr} {ns : List Node}, argNodes σ es = some ns → ∀ n ∈ ns, Good F ret n
  | [], _, h => by
      cases h
      simp
  | e :: es, ns, h => by
      obtain ⟨n, ns', hn, hns', rfl⟩ := argNodes_cons h
      intro c hc
      rcases List.mem_cons.mp hc with rfl | hc
      · exact Expr.sound_node hm ht hF hn
      · exact args_sound hm ht hF hns' c hc

end

mutual

/-- The nodes of an element are sound. -/
theorem Elem.sound_node (hm : Models Γ σ) (ht : Tidy Γ) (hF : σ.funcs <+: F) :
    ∀ {e : Elem} {n : Node}, e.node σ = some n → n.All (Node.Sound F ret)
  | .value _, _, h => (Expr.sound_node hm ht hF h).all
  | .list es, n, h => by
      obtain ⟨ns, hns, rfl⟩ := Elem.node_list h
      apply Node.all_of_children
      · simp [Node.Sound]
      · intro c hc
        rw [Node.children, List.reduceOption_mem_iff] at hc
        obtain ⟨c', hc', heq⟩ := List.mem_map.mp hc
        cases heq
        exact elems_sound hm ht hF hns c hc'

/-- So are those of all elements. -/
theorem elems_sound (hm : Models Γ σ) (ht : Tidy Γ) (hF : σ.funcs <+: F) :
    ∀ {es : List Elem} {ns : List Node}, elemNodes σ es = some ns →
      ∀ n ∈ ns, n.All (Node.Sound F ret)
  | [], _, h => by
      cases h
      simp
  | e :: es, ns, h => by
      obtain ⟨n, ns', hn, hns', rfl⟩ := elemNodes_cons h
      intro c hc
      rcases List.mem_cons.mp hc with rfl | hc
      · exact Elem.sound_node hm ht hF hn
      · exact elems_sound hm ht hF hns' c hc

end

/-! ## Declarations -/

/-- The analysis has seen the declarations {lit}`Γ`, and the functions among them are the
first ones of {lit}`F`. -/
structure Seen (F : List FuncTy) (Γ : Scoping) (σ : Sema) : Prop where
  models : Models Γ σ
  tidy : Tidy Γ
  funcs : σ.funcs <+: F

variable {a a' : Analysis} {n : Node}

/-- Entering a scope keeps what was seen. -/
theorem Seen.enter (h : Seen F Γ σ) : Seen F Γ.enter σ.enter :=
  ⟨h.models.enter, h.tidy.enter, h.funcs⟩

/-- So does a declarator. -/
theorem Seen.declarator {base : ObjTy} {isConst : Bool} {d : Declarator}
    {fresh : Nat → Option Node} (h : Seen F Γ a.sema)
    (hbuild : d.build fresh base isConst a = some (n, a')) :
    Seen F (d.after base isConst Γ) a'.sema where
  models := (Declarator.resolved_build h.models hbuild).2
  tidy := (balanced_declare d.name (arrayTy base d.dims) isConst Γ h.tidy).tidy
  funcs := (Declarator.local_build hbuild).funcs ▸ h.funcs

/-- So does a statement. -/
theorem Seen.stmt {s : Stmt} {fresh : Nat → Option Node} (h : Seen F Γ a.sema)
    (hbuild : s.build fresh a = some (n, a')) : Seen F (s.after Γ) a'.sema where
  models := (Stmt.resolved_build h.models hbuild).2
  tidy := (s.balanced_after Γ h.tidy).tidy
  funcs := (Stmt.still_build hbuild).funcs ▸ h.funcs

/-- So does an item of a block. -/
theorem Seen.blockItem {item : BlockItem} {fresh : Nat → Option Node} (h : Seen F Γ a.sema)
    (hbuild : item.build fresh a = some (n, a')) : Seen F (item.after Γ) a'.sema where
  models := (BlockItem.resolved_build h.models hbuild).2
  tidy := (item.balanced_after Γ h.tidy).tidy
  funcs := (BlockItem.local_build hbuild).funcs ▸ h.funcs

/-- An expression that is built is good. -/
theorem Seen.expr (h : Seen F Γ σ) {e : Expr} (hnode : e.node σ = some n) : Good F ret n :=
  Expr.sound_node h.models h.tidy h.funcs hnode

/-- The fresh memory of the arena is zeroed. -/
abbrev noFields : Nat → Option Node := fun _ => none

/-- The nodes of a declarator are sound. -/
theorem Declarator.sound_build {base : ObjTy} {isConst : Bool} {d : Declarator}
    (hs : Seen F Γ a.sema) (h : d.build noFields base isConst a = some (n, a')) :
    n.All (Node.Sound F ret) := by
  have hs' := hs.declarator h
  obtain ⟨sym, σ, init, hdef, hinit, rfl, rfl⟩ := Declarator.build_cases h
  obtain ⟨rfl, _⟩ := hs.models.defineSym hdef
  have hall (hty : ∀ m, init = some m → m.isInitList = false →
      m.ty = some (.obj (arrayTy base d.dims)))
      (hchild : ∀ m, init = some m → m.All (Node.Sound F ret)) :
      (Node.varDecl (some (.obj (arrayTy base d.dims)))
        (some (Γ.symbol d.name (.obj (arrayTy base d.dims)) isConst)) init).All
          (Node.Sound F ret) := by
    apply Node.all_of_children
    · exact ⟨⟨_, rfl, rfl⟩, rfl, hty⟩
    · intro c hc
      rw [Node.children, Option.mem_toList] at hc
      exact hchild c hc
  cases hdinit : d.init with
  | none =>
      rw [hdinit] at hinit
      cases hinit
      exact hall (by simp) (by simp)
  | some i =>
      rw [hdinit] at hinit
      cases i with
      | expr e =>
          obtain ⟨m, hm, hty, rfl⟩ := initNode_expr hinit
          apply hall
          · rintro _ ⟨⟩ _
            exact obj_of_typeEq hty
          · rintro _ ⟨⟩
            exact (hs'.expr hm).all
      | list es =>
          obtain ⟨m, hm, rfl⟩ := initNode_list hinit
          apply hall
          · rintro _ ⟨⟩ hlist
            obtain ⟨ns, _, rfl⟩ := Elem.node_list hm
            cases hlist
          · rintro _ ⟨⟩
            exact Elem.sound_node hs'.models hs'.tidy hs'.funcs hm

/-- So are those of a declaration's declarators. -/
theorem declarators_sound {base : ObjTy} {isConst : Bool} {ds : List Declarator}
    {ns : List Node} (hs : Seen F Γ a.sema)
    (h : declaratorsBuild noFields base isConst ds a = some (ns, a')) :
    ∀ n ∈ ns, n.All (Node.Sound F ret) := by
  induction ds generalizing Γ a ns with
  | nil =>
      cases h
      simp
  | cons d ds ih =>
      obtain ⟨n, a₁, ns', hd, hds, rfl⟩ := declaratorsBuild_cons h
      intro c hc
      rcases List.mem_cons.mp hc with rfl | hc
      · exact Declarator.sound_build hs hd
      · exact ih (hs.declarator hd) hds c hc

/-- So are those of a declaration. -/
theorem Decl.sound_build {d : Decl} (hs : Seen F Γ a.sema)
    (h : d.build noFields a = some (n, a')) : n.All (Node.Sound F ret) := by
  obtain ⟨ns, hds, rfl⟩ := Decl.build_cases h
  exact Node.all_of_children trivial (declarators_sound hs hds)

/-! ## Statements -/

/-- The value of a return statement has exactly the type of the function. -/
theorem actualTy_of_returnNode {t : ObjTy} {lhs : Option Node}
    (hret : σ.currFuncRet = some t) (h : returnNode σ lhs = some n) :
    Parser.actualTy lhs = some (.obj t) := by
  unfold returnNode at h
  rw [hret] at h
  split at h
  · rename_i hvoid
    split at h
    · rename_i hactual
      rw [hactual]
      exact hvoid.symm
    · cases h
  · split at h
    · cases h
    · split at h
      · rename_i hty
        exact obj_of_typeEq hty
      · cases h

/-- So are those of a statement around a sound expression. -/
theorem all_exprStmt {c : Node} (hc : c.All (Node.Sound F ret)) :
    (Node.exprStmt none c).All (Node.Sound F ret) := by
  refine Node.all_of_children trivial ?_
  intro c' hc'
  exact List.mem_singleton.mp hc' ▸ hc

mutual

/-- Every node built for a statement follows its typing rule. -/
theorem Stmt.sound_build {t : ObjTy} : ∀ {s : Stmt} {Γ : Scoping} {a a' : Analysis} {n : Node},
    Seen F Γ a.sema → a.sema.currFuncRet = some t → s.build noFields a = some (n, a') →
      n.All (Node.Sound F (some t))
  | .ifThen cond body, Γ, a, a', n, hs, hret, h => by
      obtain ⟨c, b, hc, hbody, rfl⟩ := Stmt.build_ifThen h
      have hall := Stmt.sound_build (a := ⟨a.sema, a.allocs + 1⟩) hs hret hbody
      refine Node.all_of_children ⟨rfl, rfl⟩ ?_
      intro m hm
      simp only [Node.children, Option.toList_some, Option.toList_none, List.append_nil,
        List.cons_append, List.nil_append, List.mem_cons, List.not_mem_nil, or_false] at hm
      rcases hm with rfl | rfl
      · exact (hs.expr hc).all
      · exact hall
  | .ifElse cond body alt, Γ, a, a', n, hs, hret, h => by
      obtain ⟨c, b, a₁, e, hc, hbody, halt, rfl⟩ := Stmt.build_ifElse h
      have hall := Stmt.sound_build (a := ⟨a.sema, a.allocs + 1⟩) hs hret hbody
      have hs₁ := Seen.stmt (a := ⟨a.sema, a.allocs + 1⟩) hs hbody
      have hret₁ : a₁.sema.currFuncRet = some t := (Stmt.still_build hbody).currFuncRet.trans hret
      have hallAlt := Stmt.sound_build hs₁ hret₁ halt
      refine Node.all_of_children ⟨rfl, rfl⟩ ?_
      intro m hm
      simp only [Node.children, Option.toList_some, List.cons_append, List.nil_append,
        List.mem_cons, List.not_mem_nil, or_false] at hm
      rcases hm with rfl | rfl | rfl
      · exact (hs.expr hc).all
      · exact hall
      · exact hallAlt
  | .while cond body, Γ, a, a', n, hs, hret, h => by
      obtain ⟨c, b, hc, hbody, rfl⟩ := Stmt.build_while h
      have hall := Stmt.sound_build hs hret hbody
      refine Node.all_of_children ⟨rfl, rfl⟩ ?_
      intro m hm
      simp only [Node.children, Option.toList_some, List.cons_append, List.nil_append,
        List.mem_cons, List.not_mem_nil, or_false] at hm
      rcases hm with rfl | rfl
      · exact (hs.expr hc).all
      · exact hall
  | .ret none, Γ, a, a', n, hs, hret, h => by
      obtain ⟨hr, rfl⟩ := Stmt.build_ret_none h
      have hactual := actualTy_of_returnNode hret hr
      rw [returnNode_eq hr]
      exact Node.all_of_children hactual (by simp [Node.children])
  | .ret (some e), Γ, a, a', n, hs, hret, h => by
      obtain ⟨v, hv, hr, rfl⟩ := Stmt.build_ret_some h
      have hactual := actualTy_of_returnNode hret hr
      rw [returnNode_eq hr]
      refine Node.all_of_children hactual ?_
      intro m hm
      rw [Node.children, Option.toList_some, List.mem_singleton] at hm
      exact hm ▸ (hs.expr hv).all
  | .break, Γ, a, a', n, hs, hret, h => by
      cases h
      exact Node.all_of_children trivial (by simp [Node.children])
  | .continue, Γ, a, a', n, hs, hret, h => by
      cases h
      exact Node.all_of_children trivial (by simp [Node.children])
  | .block items, Γ, a, a', n, hs, hret, h => by
      obtain ⟨ns, a₁, hitems, rfl, rfl⟩ := Stmt.build_block h
      exact Node.all_of_children trivial
        (block_sound (a := ⟨a.sema.enter, a.allocs⟩) hs.enter hret hitems)
  | .expr e, Γ, a, a', n, hs, hret, h => by
      obtain ⟨v, hv, rfl, rfl⟩ := Stmt.build_expr h
      exact all_exprStmt (hs.expr hv).all
  | .assign lhs rhs, Γ, a, a', n, hs, hret, h => by
      obtain ⟨v, hassign, rfl, rfl⟩ := Stmt.build_assign h
      exact all_exprStmt (hs.expr hassign).all

/-- So are those of an item of a block, in a function that returns {lit}`t`. -/
theorem BlockItem.sound_build {t : ObjTy} : ∀ {item : BlockItem} {Γ : Scoping}
    {a a' : Analysis} {n : Node}, Seen F Γ a.sema → a.sema.currFuncRet = some t →
      item.build noFields a = some (n, a') → n.All (Node.Sound F (some t))
  | .decl _, _, _, _, _, hs, _, h => Decl.sound_build hs h
  | .stmt s, _, _, _, _, hs, hret, h => Stmt.sound_build (s := s) hs hret h

/-- So are those of a block. -/
theorem block_sound {t : ObjTy} : ∀ {items : List BlockItem} {Γ : Scoping} {a a' : Analysis}
    {ns : List Node}, Seen F Γ a.sema → a.sema.currFuncRet = some t →
      blockBuild noFields items a = some (ns, a') → ∀ n ∈ ns, n.All (Node.Sound F (some t))
  | [], Γ, a, a', ns, hs, hret, h => by
      cases h
      simp
  | item :: items, Γ, a, a', ns, hs, hret, h => by
      obtain ⟨n, a₁, ns', hitem, hitems, rfl⟩ := blockBuild_cons h
      have hret₁ := (BlockItem.local_build hitem).currFuncRet.trans hret
      intro c hc
      rcases List.mem_cons.mp hc with rfl | hc
      · exact BlockItem.sound_build hs hret hitem
      · exact block_sound (hs.blockItem hitem) hret₁ hitems c hc

end

/-! ## Items -/

/-- The type a function returns. -/
def Item.funcRet : Item → Option ObjTy
  | .func f => some f.ty.obj
  | .decl _ => none

/-- So are those of a function, against its own return type. -/
theorem Func.sound_build {f : Func} (hm : Models Γ a.sema) (ht : Tidy Γ)
    (h : f.build noFields a = some (n, a')) (hF : a'.sema.funcs <+: F) :
    n.All (Node.Sound F (some f.ty.obj)) := by
  obtain ⟨sym, σ₁, σ₂, ns, a₁, hdef, hparams, hbody, rfl, rfl⟩ := Func.build_cases h
  have hs : Seen F (f.inside Γ) σ₂ := by
    refine ⟨Func.models_inside hm hdef hparams, f.tidy_inside ht, ?_⟩
    have hfuncs : a₁.sema.funcs = σ₂.funcs := (local_blockBuild hbody).funcs
    rw [← hfuncs]
    exact hF
  have hret : σ₂.currFuncRet = some f.ty.obj := (local_paramsBuild hparams).2
  exact Node.all_of_children trivial (block_sound (a := ⟨σ₂, a.allocs⟩) hs hret hbody)

/-- So are those of a top-level item. -/
theorem Item.sound_build {item : Item} (hm : Models Γ a.sema) (ht : Tidy Γ)
    (h : item.build noFields a = some (n, a')) (hF : a'.sema.funcs <+: F) :
    n.All (Node.Sound F item.funcRet) := by
  cases item with
  | func f => exact Func.sound_build hm ht h hF
  | decl d =>
      have hfuncs : a'.sema.funcs = a.sema.funcs := (Decl.local_build h).funcs
      exact Decl.sound_build ⟨hm, ht, hfuncs ▸ hF⟩ h

/-- So are those of a file. -/
theorem items_sound {items : List Item} {ns : List Node} (hm : Models Γ a.sema) (ht : Tidy Γ)
    (h : itemsBuild noFields items a = some (ns, a')) (hF : a'.sema.funcs <+: F) :
    List.Forall₂ (fun item n => n.All (Node.Sound F item.funcRet)) items ns := by
  induction items generalizing Γ a ns with
  | nil =>
      cases h
      exact List.Forall₂.nil
  | cons item items ih =>
      obtain ⟨n, a₁, ns', hitem, hitems, rfl⟩ := itemsBuild_cons h
      have hm₁ := (Item.resolved_build hm hitem).2
      have ht₁ := (item.balanced_after Γ ht).tidy
      have hgrow : a₁.sema.funcs <+: a'.sema.funcs := by
        rw [hm₁.funcs, (items_resolved hm₁ hitems).2.funcs]
        exact (items_balanced items _ ht₁).funcs
      exact List.Forall₂.cons (Item.sound_build hm ht hitem (hgrow.trans hF))
        (ih hm₁ ht₁ hitems)

/-- Every node built for a compilation unit follows its typing rule. -/
theorem CompUnit.sound_build {intern : List UInt8 → Symbol} {u : CompUnit} {ns : List Node}
    (h : u.build intern noFields = some (ns, a')) :
    List.Forall₂ (fun item n => n.All (Node.Sound a'.sema.funcs item.funcRet)) u ns := by
  obtain ⟨σ, hσ, hitems⟩ := CompUnit.build_cases h
  exact items_sound (a := ⟨σ, 0⟩) (builtins_resolved models_init hσ) (tidy_start intern) hitems
    List.prefix_rfl

end

end Grammar

end Cact
