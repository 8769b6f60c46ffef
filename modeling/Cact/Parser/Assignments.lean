import Cact.Parser.Rules
import Cact.Parser.Initializers

/-!
# Places of assignments

An assignment is meant to be a statement.  The parser has two entry points for expressions,
one without assignments and one with them, and it takes the second one for arguments and
for the elements of brace lists.

Main results:

- Definition {lit}`CompUnit.values`: the nodes whose values a program uses.
- Theorem {lit}`Expr.assigns_node`: the assignments in a node are those of the source.
- Theorem {lit}`assignments_are_statements_iff`: when no value is that of an assignment.
-/

open Traced

namespace Cact

open Grammar

/-! ## Nodes -/

mutual

/-- Whether there is an assignment in the node of an expression or of a brace list. -/
def Node.assigns : Node → Bool
  | .assign _ _ _ => true
  | .initList _ inits => fieldsAssign inits
  | .funcCall _ _ args => fieldsAssign args
  | .arrayAccess _ lhs rhs => lhs.assigns || fieldAssigns rhs
  | .neg _ lhs => fieldAssigns lhs
  | .logNot _ lhs => fieldAssigns lhs
  | .binary _ _ lhs rhs => lhs.assigns || rhs.assigns
  | _ => false

/-- Whether a field that may be null holds an assignment. -/
def fieldAssigns : Option Node → Bool
  | none => false
  | some n => n.assigns

/-- Whether one of a list of fields does. -/
def fieldsAssign : List (Option Node) → Bool
  | [] => false
  | field :: fields => fieldAssigns field || fieldsAssign fields

end

/-- The nodes whose values an expression statement uses: both sides of an assignment, and
otherwise the expression itself. -/
def Node.used : Node → List Node
  | .assign _ lhs rhs => [lhs, rhs]
  | n => [n]

namespace Grammar

/-! ## Values of a program -/

/-- The initializer of a declarator. -/
def Declarator.values (d : Declarator) (n : Node) : List Node :=
  match d.init, n with
  | some _, .varDecl _ _ (some init) => [init]
  | _, _ => []

/-- The values that the declarators of a declaration use. -/
def declaratorsValues : List Declarator → List Node → List Node
  | d :: ds, n :: ns => d.values n ++ declaratorsValues ds ns
  | _, _ => []

/-- The values that a declaration uses. -/
def Decl.values (d : Decl) (n : Node) : List Node := declaratorsValues d.declarators (Node.stmts n)

mutual

/-- The nodes whose values a statement uses: conditions, returned values, initializers, and
what its expression statements use.  Fields that a statement leaves unwritten are not
visited. -/
def Stmt.values : Stmt → Node → List Node
  | .ifThen _ body, n =>
      match n with
      | .ifStmt _ (some c) (some b) _ => c :: body.values b
      | _ => []
  | .ifElse _ body alt, n =>
      match n with
      | .ifStmt _ (some c) (some b) (some e) => c :: (body.values b ++ alt.values e)
      | _ => []
  | .while _ body, n =>
      match n with
      | .whileStmt _ (some c) (some b) => c :: body.values b
      | _ => []
  | .ret value, n =>
      match value, n with
      | some _, .retStmt _ (some v) => [v]
      | _, _ => []
  | .break, _ | .continue, _ => []
  | .block items, n => blockValues items (Node.stmts n)
  | .expr _, n | .assign _ _, n =>
      match n with
      | .exprStmt _ v => v.used
      | _ => []

/-- The values that an item of a block uses. -/
def BlockItem.values : BlockItem → Node → List Node
  | .decl d, n => d.values n
  | .stmt s, n => s.values n

/-- The values that a block uses. -/
def blockValues : List BlockItem → List Node → List Node
  | item :: items, n :: ns => item.values n ++ blockValues items ns
  | _, _ => []

end

/-- The values that a top-level item uses. -/
def Item.values : Item → Node → List Node
  | .func f, n => blockValues f.body (Node.stmts n)
  | .decl d, n => d.values n

/-- The nodes whose values a program uses. -/
def CompUnit.values : CompUnit → List Node → List Node
  | item :: items, n :: ns => item.values n ++ CompUnit.values items ns
  | _, _ => []

/-! ## Assignments of the source -/

/-- Whether an expression is an assignment. -/
def Expr.isAssign : Expr → Bool
  | .assign _ _ => true
  | _ => false

/-- No argument of a call is an assignment. -/
def Expr.PlainArgs : Expr → Prop
  | .call _ args => ∀ e ∈ args, e.isAssign = false
  | _ => True

/-- No argument of a call and no element of a brace list is an assignment. -/
def Site.Plain (s : Site) : Prop :=
  match s.phrase with
  | .expr e | .cond e => e.PlainArgs
  | .decl _ _ d => ∀ e ∈ (d.init.map Init.leaves).getD [], e.isAssign = false

section

variable {Γ : Scoping}

/-- An operand is none. -/
theorem isAssign_of_level {e : Expr} (h : 0 ≤ e.level) : e.isAssign = false := by
  cases e with
  | assign lhs rhs => simp [Expr.level] at h
  | _ => rfl

/-- Neither is a variable. -/
theorem isAssign_of_designator {e : Expr} (h : e.isDesignator = true) : e.isAssign = false := by
  cases e with
  | assign lhs rhs => cases h
  | _ => rfl

/-- The places of expressions have no assignments among their arguments if the expressions have
none. -/
theorem exprSites_plain {es : List Expr} :
    (∀ s ∈ exprSites Γ es, s.Plain) ↔ ∀ e ∈ es, e.PlainArgs := by
  simp [exprSites, Site.Plain]

/-- An expression that is no assignment and no call adds nothing to its parts. -/
theorem plain_cons (e : Expr) {es : List Expr} (hassign : e.isAssign = false)
    (hargs : e.PlainArgs) :
    (e.isAssign = false ∧ ∀ part ∈ e :: es, part.PlainArgs) ↔ ∀ part ∈ es, part.PlainArgs := by
  rw [List.forall_mem_cons, and_iff_right hargs, and_iff_right hassign]

mutual

/-- There is an assignment in the node of an expression exactly if the expression is one or
has one as an argument. -/
theorem Expr.assigns_node : ∀ {e : Expr} {n : Node}, e.WellFormed → e.Resolved Γ n →
    (n.assigns = false ↔ e.isAssign = false ∧ ∀ part ∈ e.parts, part.PlainArgs)
  | .int val, _, _, h => by
      obtain rfl := h
      rw [Expr.parts, plain_cons (.int val) rfl trivial]
      simp [Node.assigns]
  | .float val, _, _, h => by
      obtain rfl := h
      rw [Expr.parts, plain_cons (.float val) rfl trivial]
      simp [Node.assigns]
  | .double val, _, _, h => by
      obtain rfl := h
      rw [Expr.parts, plain_cons (.double val) rfl trivial]
      simp [Node.assigns]
  | .bool val, _, _, h => by
      obtain rfl := h
      rw [Expr.parts, plain_cons (.bool val) rfl trivial]
      simp [Node.assigns]
  | .var name, _, _, h => by
      obtain ⟨sym, _, rfl⟩ := h
      rw [Expr.parts, plain_cons (.var name) rfl trivial]
      simp [Node.assigns]
  | .paren inner, n, hwf, h => by
      have ih := Expr.assigns_node hwf.1 h
      rw [and_iff_right (isAssign_of_level hwf.2)] at ih
      rw [Expr.parts, plain_cons (.paren inner) rfl trivial]
      exact ih
  | .index base sub, _, ⟨hbase, hdesignator, hsub, hlevel⟩, h => by
      obtain ⟨ty, l, r, rfl, hl, hr⟩ := h
      have ihl := Expr.assigns_node hbase hl
      have ihr := Expr.assigns_node hsub hr
      rw [and_iff_right (isAssign_of_designator hdesignator)] at ihl
      rw [and_iff_right (isAssign_of_level hlevel)] at ihr
      rw [Expr.parts, plain_cons (.index base sub) rfl trivial, List.forall_mem_append,
        Node.assigns, Bool.or_eq_false_iff, fieldAssigns, ihl, ihr]
  | .call name args, _, hwf, h => by
      obtain ⟨sym, ty, nodes, _, _, rfl, hargs⟩ := h
      have ih := args_assigns hwf hargs
      rw [Expr.parts, List.forall_mem_cons, Node.assigns, ih]
      exact (and_iff_right rfl).symm
  | .unary .plus operand, n, hwf, h => by
      have ih := Expr.assigns_node hwf.1 h
      rw [and_iff_right (isAssign_of_level (Int.le_trans (by decide) hwf.2))] at ih
      rw [Expr.parts, plain_cons (.unary .plus operand) rfl trivial]
      exact ih
  | .unary .minus operand, _, hwf, h => by
      obtain ⟨ty, o, rfl, ho⟩ := h
      have ih := Expr.assigns_node hwf.1 ho
      rw [and_iff_right (isAssign_of_level (Int.le_trans (by decide) hwf.2))] at ih
      rw [Expr.parts, plain_cons (.unary .minus operand) rfl trivial]
      exact ih
  | .unary .not operand, _, hwf, h => by
      obtain ⟨ty, o, rfl, ho⟩ := h
      have ih := Expr.assigns_node hwf.1 ho
      rw [and_iff_right (isAssign_of_level (Int.le_trans (by decide) hwf.2))] at ih
      rw [Expr.parts, plain_cons (.unary .not operand) rfl trivial]
      exact ih
  | .binary op lhs rhs, _, ⟨hlhs, hrhs, hleft, hright⟩, h => by
      obtain ⟨ty, l, r, rfl, hl, hr⟩ := h
      have hrange := (opLevel_range op).1
      have ihl := Expr.assigns_node hlhs hl
      have ihr := Expr.assigns_node hrhs hr
      rw [and_iff_right (isAssign_of_level (by omega))] at ihl ihr
      rw [Expr.parts, plain_cons (.binary op lhs rhs) rfl trivial, List.forall_mem_append,
        Node.assigns, Bool.or_eq_false_iff, ihl, ihr]
  | .assign lhs rhs, _, _, h => by
      obtain ⟨ty, l, r, rfl, _, _⟩ := h
      simp [Node.assigns, Expr.isAssign]

/-- The nodes of arguments hold an assignment exactly if the arguments do. -/
theorem args_assigns : ∀ {es : List Expr} {ns : List Node}, argsWellFormed es →
    argsResolved Γ es ns → (fieldsAssign (ns.map some) = false ↔
      (∀ e ∈ es, e.isAssign = false) ∧ ∀ part ∈ argParts es, part.PlainArgs)
  | [], _, _, h => by
      obtain rfl := h
      simp [fieldsAssign, argParts]
  | e :: es, _, ⟨hwf, hwfs⟩, h => by
      obtain ⟨n, ns, rfl, hn, hns⟩ := h
      have ih := Expr.assigns_node hwf hn
      have ihs := args_assigns hwfs hns
      simp only [List.map_cons, fieldsAssign, fieldAssigns, Bool.or_eq_false_iff, ih, ihs, argParts,
        List.forall_mem_cons, List.forall_mem_append]
      exact and_and_and_comm

end

mutual

/-- So does the node of an element. -/
theorem Elem.assigns_node : ∀ {e : Elem} {n : Node}, e.WellFormed → e.Resolved Γ n →
    (n.assigns = false ↔
      (∀ leaf ∈ e.leaves, leaf.isAssign = false) ∧ ∀ part ∈ e.parts, part.PlainArgs)
  | .value e, n, hwf, h => by
      rw [Elem.leaves, List.forall_mem_singleton]
      exact Expr.assigns_node hwf h
  | .list es, n, hwf, h => by
      obtain ⟨ns, rfl, hns⟩ := h
      exact elems_assigns hwf hns

/-- So do those of all elements. -/
theorem elems_assigns : ∀ {es : List Elem} {ns : List Node}, elemsWellFormed es →
    elemsResolved Γ es ns → (fieldsAssign (ns.map some) = false ↔
      (∀ leaf ∈ elemsLeaves es, leaf.isAssign = false) ∧
        ∀ part ∈ elemParts es, part.PlainArgs)
  | [], _, _, h => by
      obtain rfl := h
      simp [fieldsAssign, elemsLeaves, elemParts]
  | e :: es, _, ⟨hwf, hwfs⟩, h => by
      obtain ⟨n, ns, rfl, hn, hns⟩ := h
      have ih := Elem.assigns_node hwf hn
      have ihs := elems_assigns hwfs hns
      rw [List.map_cons, fieldsAssign, fieldAssigns, Bool.or_eq_false_iff, ih, ihs, elemsLeaves,
        elemParts, List.forall_mem_append, List.forall_mem_append]
      exact and_and_and_comm

end

/-- An expression statement without an equals sign uses the whole expression. -/
theorem Expr.used_node : ∀ {e : Expr} {n : Node}, e.Operand → e.Resolved Γ n → n.used = [n]
  | .int _, _, _, h | .float _, _, _, h | .double _, _, _, h | .bool _, _, _, h => by
      obtain rfl := h
      rfl
  | .var _, _, _, h => by
      obtain ⟨sym, _, rfl⟩ := h
      rfl
  | .paren inner, _, ⟨hwf, _⟩, h => Expr.used_node (e := inner) hwf h
  | .index _ _, _, _, h => by
      obtain ⟨ty, l, r, rfl, _, _⟩ := h
      rfl
  | .call _ _, _, _, h => by
      obtain ⟨sym, ty, nodes, _, _, rfl, _⟩ := h
      rfl
  | .unary .plus operand, _, ⟨⟨hwf, hlevel⟩, _⟩, h =>
      Expr.used_node (e := operand) ⟨hwf, Int.le_trans (by decide) hlevel⟩ h
  | .unary .minus _, _, _, h | .unary .not _, _, _, h => by
      obtain ⟨ty, o, rfl, _⟩ := h
      rfl
  | .binary _ _ _, _, _, h => by
      obtain ⟨ty, l, r, rfl, _, _⟩ := h
      rfl
  | .assign _ _, _, ⟨_, hlevel⟩, _ => by simp [Expr.level] at hlevel

/-! ## Statements -/

/-- No value among the nodes is that of an assignment. -/
def Valued (ns : List Node) : Prop := ∀ n ∈ ns, n.assigns = false

/-- An expression in a place where its value is used. -/
theorem valued_operand {e : Expr} {n : Node} (hwf : e.Operand) (h : e.Resolved Γ n) :
    n.assigns = false ↔ ∀ s ∈ exprSites Γ e.parts, s.Plain := by
  rw [exprSites_plain, Expr.assigns_node hwf.1 h]
  exact and_iff_right (isAssign_of_level hwf.2)

/-- A condition uses no assignment exactly if none of its places is one. -/
theorem valued_cond {cond : Expr} {n : Node} (hwf : cond.Operand) (h : cond.Resolved Γ n) :
    n.assigns = false ↔ ∀ s ∈ condSites Γ cond, s.Plain := by
  have hparts : ∀ e : Expr, e ∈ e.parts := by
    intro e
    cases e <;> exact List.mem_cons_self
  rw [valued_operand hwf h, condSites, List.forall_mem_cons]
  refine (and_iff_right_of_imp fun hall => ?_).symm
  exact hall ⟨Γ, .expr cond⟩ (List.mem_map_of_mem (hparts cond))

/-- The same for the values of a declarator. -/
theorem Declarator.valued_iff {base : ObjTy} {isConst : Bool} {d : Declarator} {n : Node}
    (hwf : d.WellFormed isConst) (h : d.Resolved base isConst Γ n) :
    Valued (d.values n) ↔ ∀ s ∈ d.sites base isConst Γ, s.Plain := by
  rcases d with ⟨name, dims, init⟩
  obtain ⟨field, rfl, hinit⟩ := h
  rw [Declarator.sites, List.forall_mem_cons, exprSites_plain]
  cases init with
  | none => simp [Declarator.values, Valued, Site.Plain]
  | some init =>
      have hwfi : init.WellFormed := hwf.1 init rfl
      cases init with
      | expr e =>
          obtain ⟨n, rfl, hn⟩ := hinit
          have hiff := Expr.assigns_node hwfi.1 hn
          simpa [Declarator.values, Valued, Site.Plain, Init.leaves, Init.parts] using hiff
      | list es =>
          obtain ⟨n, rfl, hn⟩ := hinit
          have hiff := Elem.assigns_node (e := .list es) hwfi hn
          simpa [Declarator.values, Valued, Site.Plain, Init.leaves, Init.parts, Elem.leaves,
            Elem.parts] using hiff

/-- The same for those of a declaration's declarators. -/
theorem declarators_valued {base : ObjTy} {isConst : Bool} {ds : List Declarator}
    {ns : List Node} (hwf : ∀ d ∈ ds, d.WellFormed isConst)
    (h : declaratorsResolved base isConst ds Γ ns) :
    Valued (declaratorsValues ds ns) ↔ ∀ s ∈ declaratorsSites base isConst ds Γ, s.Plain := by
  induction ds generalizing Γ ns with
  | nil => simp [declaratorsValues, declaratorsSites, Valued]
  | cons d ds ih =>
      obtain ⟨n, ns, rfl, hn, hns⟩ := h
      obtain ⟨hd, hds⟩ := List.forall_mem_cons.mp hwf
      rw [declaratorsValues, declaratorsSites, Valued, List.forall_mem_append,
        List.forall_mem_append, ← ih hds hns, ← Declarator.valued_iff hd hn]
      rfl

/-- The same for a declaration. -/
theorem Decl.valued_iff {d : Decl} {n : Node} (hwf : d.WellFormed) (h : d.Resolved Γ n) :
    Valued (d.values n) ↔ ∀ s ∈ d.sites Γ, s.Plain := by
  obtain ⟨ns, rfl, hns⟩ := h
  exact declarators_valued hwf hns

mutual

/-- The same for a statement, where an assignment may stand for itself. -/
theorem Stmt.valued_iff : ∀ {s : Stmt} {Γ : Scoping} {n : Node}, s.WellFormed → s.Resolved Γ n →
    (Valued (s.values n) ↔ ∀ t ∈ s.sites Γ, t.Plain)
  | .ifThen cond body, Γ, _, ⟨hcond, hbody⟩, h => by
      obtain ⟨c, b, field, rfl, hc, hb⟩ := h
      rw [Stmt.values, Stmt.sites, Valued, List.forall_mem_cons, List.forall_mem_append,
        valued_cond hcond hc, ← Stmt.valued_iff hbody hb]
      rfl
  | .ifElse cond body alt, Γ, _, ⟨hcond, hbody, halt⟩, h => by
      obtain ⟨c, b, e, rfl, hc, hb, he⟩ := h
      rw [Stmt.values, Stmt.sites, Valued, List.forall_mem_cons, List.forall_mem_append,
        List.forall_mem_append, List.forall_mem_append, valued_cond hcond hc,
        ← Stmt.valued_iff hbody hb, ← Stmt.valued_iff halt he]
      rfl
  | .while cond body, Γ, _, ⟨hcond, hbody⟩, h => by
      obtain ⟨c, b, rfl, hc, hb⟩ := h
      rw [Stmt.values, Stmt.sites, Valued, List.forall_mem_cons, List.forall_mem_append,
        valued_cond hcond hc, ← Stmt.valued_iff hbody hb]
      rfl
  | .ret none, Γ, _, _, h => by
      obtain ⟨field, rfl⟩ := h
      simp [Stmt.values, Stmt.sites, Valued, exprSites]
  | .ret (some e), Γ, _, hwf, h => by
      obtain ⟨v, rfl, hv⟩ := h
      rw [Stmt.values, Valued, List.forall_mem_singleton]
      exact valued_operand (hwf e rfl) hv
  | .break, Γ, _, _, h | .continue, Γ, _, _, h => by
      simp [Stmt.values, Stmt.sites, Valued]
  | .block items, Γ, _, hwf, h => by
      obtain ⟨ns, rfl, hns⟩ := h
      exact block_valued hwf hns
  | .expr e, Γ, _, hwf, h => by
      obtain ⟨v, rfl, hv⟩ := h
      rw [Stmt.values, Expr.used_node hwf hv, Valued, List.forall_mem_singleton]
      exact valued_operand hwf hv
  | .assign lhs rhs, Γ, _, ⟨hlhs, hrhs⟩, h => by
      obtain ⟨ty, l, r, rfl, hl, hr⟩ := h
      have hsides := and_congr (valued_operand hlhs hl) (valued_operand hrhs hr)
      rw [exprSites_plain, exprSites_plain] at hsides
      rw [Stmt.values, Stmt.sites, exprSites_plain, Expr.parts, List.forall_mem_cons,
        List.forall_mem_append, ← hsides]
      simp [Valued, Node.used, Expr.PlainArgs]

/-- The same for an item of a block. -/
theorem BlockItem.valued_iff : ∀ {item : BlockItem} {Γ : Scoping} {n : Node},
    item.WellFormed → item.Resolved Γ n →
      (Valued (item.values n) ↔ ∀ t ∈ item.sites Γ, t.Plain)
  | .decl _, _, _, hwf, h => Decl.valued_iff hwf h
  | .stmt s, _, _, hwf, h => Stmt.valued_iff (s := s) hwf h

/-- The same for a block. -/
theorem block_valued : ∀ {items : List BlockItem} {Γ : Scoping} {ns : List Node},
    blockWellFormed items → blockResolved items Γ ns →
      (Valued (blockValues items ns) ↔ ∀ t ∈ blockSites items Γ, t.Plain)
  | [], Γ, _, _, h => by
      simp [blockValues, blockSites, Valued]
  | item :: items, Γ, _, ⟨hwf, hwfs⟩, h => by
      obtain ⟨n, ns, rfl, hn, hns⟩ := h
      rw [blockValues, blockSites, Valued, List.forall_mem_append, List.forall_mem_append,
        ← BlockItem.valued_iff hwf hn, ← block_valued hwfs hns]
      rfl

end

/-- The same for a top-level item. -/
theorem Item.valued_iff {item : Item} {n : Node} (hwf : item.WellFormed)
    (h : item.Resolved Γ n) : Valued (item.values n) ↔ ∀ t ∈ item.sites Γ, t.Plain := by
  cases item with
  | func f =>
      obtain ⟨ns, rfl, hns⟩ := h
      exact block_valued hwf hns
  | decl d => exact Decl.valued_iff hwf h

/-- The same for a file. -/
theorem items_valued {items : List Item} {ns : List Node}
    (hwf : ∀ item ∈ items, item.WellFormed) (h : itemsResolved items Γ ns) :
    Valued (CompUnit.values items ns) ↔ ∀ t ∈ itemsSites items Γ, t.Plain := by
  induction items generalizing Γ ns with
  | nil => simp [CompUnit.values, itemsSites, Valued]
  | cons item items ih =>
      obtain ⟨n, ns, rfl, hn, hns⟩ := h
      obtain ⟨hitem, hitems⟩ := List.forall_mem_cons.mp hwf
      rw [CompUnit.values, itemsSites, Valued, List.forall_mem_append, List.forall_mem_append,
        ← Item.valued_iff hitem hn, ← ih hitems hns]
      rfl

end

end Grammar

/-- In an accepted program no assignment is a value, which makes every assignment the
expression of an expression statement, exactly if no argument of a call and no element of
a brace list in the source is an assignment. -/
theorem assignments_are_statements_iff {intern : List UInt8 → Symbol} {mem : Memory}
    {ts : TokenStream} {globals : List Node} {p : Parser}
    (h : (Parser.parserRun intern mem ts).outcome = .done globals p)
    (herror : p.ctx.hadError = false) : ∃ u, Reads intern ts u globals ∧
      ((∀ n ∈ u.values globals, n.assigns = false) ↔ ∀ s ∈ u.sites intern, s.Plain) := by
  obtain ⟨u, hu⟩ := reads_of_accepted h herror
  exact ⟨u, hu, items_valued hu.wellFormed hu.resolved⟩

/-- The text {lit}`int a; int b; void f() { print_int(a = b = 1); }`. -/
def chainedArgument : CompUnit :=
  [.decl ⟨false, .int, ⟨⟨0⟩, [], none⟩, []⟩,
   .decl ⟨false, .int, ⟨⟨1⟩, [], none⟩, []⟩,
   .func ⟨false, .void, ⟨2⟩, [],
    [.stmt (.expr (.call (Fluf.ascii.intern ("print_int".toList.map byte))
      [.assign (.var ⟨0⟩) (.assign (.var ⟨1⟩) (.int 1))]))]⟩]

/-- A chained assignment is accepted as an argument. -/
theorem chained_argument :
    Parser.AcceptsWith Fluf.ascii.intern zeroed (stream chainedArgument.toks) fun globals =>
      ¬ ∀ n ∈ chainedArgument.values globals, n.assigns = false := by
  decide +kernel

theorem assignments_are_statements_iff_chained : ∃ globals u,
    Reads Fluf.ascii.intern (stream chainedArgument.toks) u globals ∧
      ((∀ n ∈ u.values globals, n.assigns = false) ↔
        ∀ s ∈ u.sites Fluf.ascii.intern, s.Plain) := by
  have haccepts : Parser.Accepts Fluf.ascii.intern zeroed (stream chainedArgument.toks) := by
    decide +kernel
  obtain ⟨globals, p, h, herror⟩ := haccepts
  exact ⟨globals, assignments_are_statements_iff h herror⟩

end Cact
