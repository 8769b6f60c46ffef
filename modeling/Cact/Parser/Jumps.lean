import Cact.Parser.Rules

/-!
# Jumps

Neither the parser nor the analysis knows about loops: {lit}`break` and {lit}`continue` are
statements like any other.  The nodes of an accepted program have the jumps of its source,
each in a loop or not as it is there, and no jump is a reason to accept or to refuse.

Main results:

- Definitions {lit}`CompUnit.jumps` and {lit}`CompUnit.jumpNodes`: the jumps of the source
  and those among the nodes, with their places.
- Theorem {lit}`CompUnit.build_unjumped`: the analysis does the same without jumps.
- Theorem {lit}`jumps_unchecked`: where the jumps of an accepted program stand.
-/

open Traced

namespace Cact

/-- What encloses a jump: a loop of its function, the function alone, or neither. -/
inductive JumpPlace where
  | loop
  | function
  | file
deriving DecidableEq, Repr

/-- The node itself, if it is a jump. -/
def Node.jump (place : JumpPlace) : Node → List (Node × JumpPlace)
  | breakStmt ty => [(breakStmt ty, place)]
  | continueStmt ty => [(continueStmt ty, place)]
  | _ => []

namespace Grammar

/-! ## Jumps of the source -/

mutual

/-- The nodes that the jumps of a statement should have, and what encloses them. -/
def Stmt.jumps (place : JumpPlace) : Stmt → List (Node × JumpPlace)
  | .ifThen _ body => body.jumps place
  | .ifElse _ body alt => body.jumps place ++ alt.jumps place
  | .while _ body => body.jumps .loop
  | .break => [(.breakStmt none, place)]
  | .continue => [(.continueStmt none, place)]
  | .block items => blockJumps place items
  | .ret _ | .expr _ | .assign _ _ => []

/-- The jumps in an item of a block, with their places. -/
def BlockItem.jumps (place : JumpPlace) : BlockItem → List (Node × JumpPlace)
  | .decl _ => []
  | .stmt s => s.jumps place

/-- The jumps in a block, with their places. -/
def blockJumps (place : JumpPlace) : List BlockItem → List (Node × JumpPlace)
  | [] => []
  | item :: items => item.jumps place ++ blockJumps place items

end

/-- A function is the place of the jumps in its body, unless a loop is. -/
def Item.jumps : Item → List (Node × JumpPlace)
  | .func f => blockJumps .function f.body
  | .decl _ => []

/-- The jumps of a compilation unit, in textual order. -/
def CompUnit.jumps (u : CompUnit) : List (Node × JumpPlace) := u.flatMap Item.jumps

/-! ## Jumps among the nodes -/

mutual

/-- The jumps in the node of a statement.  Fields that a statement leaves unwritten are not
visited. -/
def Stmt.jumpNodes (place : JumpPlace) : Stmt → Node → List (Node × JumpPlace)
  | .ifThen _ body, n =>
      match n with
      | .ifStmt _ _ (some b) _ => body.jumpNodes place b
      | _ => n.jump place
  | .ifElse _ body alt, n =>
      match n with
      | .ifStmt _ _ (some b) (some e) => body.jumpNodes place b ++ alt.jumpNodes place e
      | _ => n.jump place
  | .while _ body, n =>
      match n with
      | .whileStmt _ _ (some b) => body.jumpNodes .loop b
      | _ => n.jump place
  | .block items, n => blockJumpNodes place items (Node.stmts n)
  | .ret _, n | .break, n | .continue, n | .expr _, n | .assign _ _, n => n.jump place

/-- The jumps in the nodes of an item, with their places. -/
def BlockItem.jumpNodes (place : JumpPlace) : BlockItem → Node → List (Node × JumpPlace)
  | .decl _, n => (Node.stmts n).flatMap (Node.jump place)
  | .stmt s, n => s.jumpNodes place n

/-- The jumps in the nodes of a block, with their places. -/
def blockJumpNodes (place : JumpPlace) : List BlockItem → List Node → List (Node × JumpPlace)
  | item :: items, n :: ns => item.jumpNodes place n ++ blockJumpNodes place items ns
  | _, _ => []

end

/-- The jumps in the node of a top-level item, with their places. -/
def Item.jumpNodes : Item → Node → List (Node × JumpPlace)
  | .func f, n => blockJumpNodes .function f.body (Node.stmts n)
  | .decl _, n => (Node.stmts n).flatMap (Node.jump .file)

/-- The jumps among the nodes of a compilation unit. -/
def CompUnit.jumpNodes : CompUnit → List Node → List (Node × JumpPlace)
  | item :: items, n :: ns => item.jumpNodes n ++ CompUnit.jumpNodes items ns
  | _, _ => []

section

variable {Γ : Scoping} {place : JumpPlace}

/-- There are no jumps in the node of a declarator. -/
theorem Declarator.no_jump {base : ObjTy} {isConst : Bool} {d : Declarator} {n : Node}
    (h : d.Resolved base isConst Γ n) : n.jump place = [] := by
  obtain ⟨init, rfl, _⟩ := h
  rfl

/-- Nor in those of a declaration. -/
theorem declarators_no_jump {base : ObjTy} {isConst : Bool} {ds : List Declarator}
    {ns : List Node} (h : declaratorsResolved base isConst ds Γ ns) :
    ns.flatMap (Node.jump place) = [] := by
  induction ds generalizing Γ ns with
  | nil =>
      obtain rfl := h
      rfl
  | cons d ds ih =>
      obtain ⟨n, ns, rfl, hn, hns⟩ := h
      rw [List.flatMap_cons, Declarator.no_jump hn, ih hns, List.append_nil]

/-- There is no jump in a declaration. -/
theorem Decl.no_jump {d : Decl} {n : Node} (h : d.Resolved Γ n) :
    (Node.stmts n).flatMap (Node.jump place) = [] := by
  obtain ⟨ns, rfl, hns⟩ := h
  exact declarators_no_jump hns

mutual

/-- The node of a statement has the jumps of the statement. -/
theorem Stmt.jumpNodes_eq : ∀ {s : Stmt} {Γ : Scoping} {place : JumpPlace} {n : Node},
    s.Resolved Γ n → s.jumpNodes place n = s.jumps place
  | .ifThen cond body, Γ, place, _, h => by
      obtain ⟨c, b, field, rfl, _, hb⟩ := h
      exact Stmt.jumpNodes_eq (s := body) hb
  | .ifElse cond body alt, Γ, place, _, h => by
      obtain ⟨c, b, e, rfl, _, hb, he⟩ := h
      exact congrArg₂ (· ++ ·) (Stmt.jumpNodes_eq hb) (Stmt.jumpNodes_eq he)
  | .while cond body, Γ, place, _, h => by
      obtain ⟨c, b, rfl, _, hb⟩ := h
      exact Stmt.jumpNodes_eq (s := body) hb
  | .ret none, Γ, place, _, h => by
      obtain ⟨field, rfl⟩ := h
      rfl
  | .ret (some e), Γ, place, _, h => by
      obtain ⟨v, rfl, _⟩ := h
      rfl
  | .break, Γ, place, _, h | .continue, Γ, place, _, h => by
      obtain rfl := h
      rfl
  | .block items, Γ, place, _, h => by
      obtain ⟨ns, rfl, hns⟩ := h
      exact block_jumpNodes hns
  | .expr e, Γ, place, _, h => by
      obtain ⟨v, rfl, _⟩ := h
      rfl
  | .assign lhs rhs, Γ, place, _, h => by
      obtain ⟨ty, l, r, rfl, _, _⟩ := h
      rfl

/-- The jumps of an item are those of its node, place by place. -/
theorem BlockItem.jumpNodes_eq : ∀ {item : BlockItem} {Γ : Scoping} {place : JumpPlace}
    {n : Node}, item.Resolved Γ n → item.jumpNodes place n = item.jumps place
  | .decl _, _, _, _, h => Decl.no_jump h
  | .stmt s, _, _, _, h => Stmt.jumpNodes_eq (s := s) h

/-- So are those of a block. -/
theorem block_jumpNodes : ∀ {items : List BlockItem} {Γ : Scoping} {place : JumpPlace}
    {ns : List Node}, blockResolved items Γ ns →
      blockJumpNodes place items ns = blockJumps place items
  | [], Γ, place, _, h => by
      obtain rfl := h
      rfl
  | item :: items, Γ, place, _, h => by
      obtain ⟨n, ns, rfl, hn, hns⟩ := h
      exact congrArg₂ (· ++ ·) (BlockItem.jumpNodes_eq hn) (block_jumpNodes hns)

end

/-- So are those of a top-level item. -/
theorem Item.jumpNodes_eq {item : Item} {n : Node} (h : item.Resolved Γ n) :
    item.jumpNodes n = item.jumps := by
  cases item with
  | func f =>
      obtain ⟨ns, rfl, hns⟩ := h
      exact block_jumpNodes hns
  | decl d => exact Decl.no_jump h

/-- So are those of a file. -/
theorem items_jumpNodes {items : List Item} {ns : List Node} (h : itemsResolved items Γ ns) :
    CompUnit.jumpNodes items ns = CompUnit.jumps items := by
  induction items generalizing Γ ns with
  | nil => rfl
  | cons item items ih =>
      obtain ⟨n, ns, rfl, hn, hns⟩ := h
      rw [CompUnit.jumpNodes, Item.jumpNodes_eq hn, ih hns, CompUnit.jumps, CompUnit.jumps,
        List.flatMap_cons]

mutual

/-- A jump in a function has the function or a loop around it. -/
theorem Stmt.jumps_inside : ∀ (s : Stmt) {place : JumpPlace}, place ≠ .file →
    ∀ q ∈ s.jumps place, q.2 ≠ .file
  | .ifThen _ body, _, h => body.jumps_inside h
  | .ifElse _ body alt, _, h => fun q hq =>
      (List.mem_append.mp hq).elim (body.jumps_inside h q) (alt.jumps_inside h q)
  | .while _ body, _, _ => body.jumps_inside (by decide)
  | .break, _, h | .continue, _, h => by
      simp [Stmt.jumps, h]
  | .block items, _, h => blockJumps_inside items h
  | .ret _, _, _ | .expr _, _, _ | .assign _ _, _, _ => by
      simp [Stmt.jumps]

/-- A jump in an item of a block has a function or a loop around it. -/
theorem BlockItem.jumps_inside : ∀ (item : BlockItem) {place : JumpPlace}, place ≠ .file →
    ∀ q ∈ item.jumps place, q.2 ≠ .file
  | .decl _, _, _ => by simp [BlockItem.jumps]
  | .stmt s, _, h => s.jumps_inside h

/-- So has a jump in a block. -/
theorem blockJumps_inside : ∀ (items : List BlockItem) {place : JumpPlace}, place ≠ .file →
    ∀ q ∈ blockJumps place items, q.2 ≠ .file
  | [], _, _ => by simp [blockJumps]
  | item :: items, _, h => fun q hq =>
      (List.mem_append.mp hq).elim (item.jumps_inside h q) (blockJumps_inside items h q)

end

/-- So has every jump of a file. -/
theorem CompUnit.jumps_inside (u : CompUnit) : ∀ q ∈ u.jumps, q.2 ≠ .file := by
  intro q hq
  obtain ⟨item, _, hitem⟩ := List.mem_flatMap.mp hq
  cases item with
  | func f => exact blockJumps_inside f.body (by decide) q hitem
  | decl d => cases hitem

end

/-! ## Programs without jumps -/

mutual

/-- The statement with {lit}`0;` in the place of every jump. -/
def Stmt.unjumped : Stmt → Stmt
  | .ifThen cond body => .ifThen cond body.unjumped
  | .ifElse cond body alt => .ifElse cond body.unjumped alt.unjumped
  | .while cond body => .while cond body.unjumped
  | .break => .expr (.int 0)
  | .continue => .expr (.int 0)
  | .block items => .block (blockUnjumped items)
  | .ret value => .ret value
  | .expr e => .expr e
  | .assign lhs rhs => .assign lhs rhs

/-- An item of a block with {lit}`0;` in the place of its jumps. -/
def BlockItem.unjumped : BlockItem → BlockItem
  | .decl d => .decl d
  | .stmt s => .stmt s.unjumped

/-- A block with {lit}`0;` in the place of its jumps. -/
def blockUnjumped : List BlockItem → List BlockItem
  | [] => []
  | item :: items => item.unjumped :: blockUnjumped items

end

/-- A top-level item with {lit}`0;` in the place of its jumps. -/
def Item.unjumped : Item → Item
  | .func f => .func { f with body := blockUnjumped f.body }
  | .decl d => .decl d

/-- The compilation unit with {lit}`0;` in the place of every jump. -/
def CompUnit.unjumped (u : CompUnit) : CompUnit := u.map Item.unjumped

mutual

/-- The exchange keeps statements well formed, and no others become so. -/
theorem Stmt.wellFormed_unjumped : ∀ s : Stmt, s.unjumped.WellFormed ↔ s.WellFormed
  | .ifThen _ body => and_congr_right fun _ => body.wellFormed_unjumped
  | .ifElse _ body alt =>
      and_congr_right fun _ => and_congr body.wellFormed_unjumped alt.wellFormed_unjumped
  | .while _ body => and_congr_right fun _ => body.wellFormed_unjumped
  | .break | .continue => iff_of_true ⟨trivial, by decide⟩ trivial
  | .block items => blockWellFormed_unjumped items
  | .ret _ | .expr _ | .assign _ _ => Iff.rfl

/-- The same for an item of a block. -/
theorem BlockItem.wellFormed_unjumped : ∀ item : BlockItem,
    item.unjumped.WellFormed ↔ item.WellFormed
  | .decl _ => Iff.rfl
  | .stmt s => s.wellFormed_unjumped

/-- The same for a block. -/
theorem blockWellFormed_unjumped : ∀ items : List BlockItem,
    blockWellFormed (blockUnjumped items) ↔ blockWellFormed items
  | [] => Iff.rfl
  | item :: items => and_congr item.wellFormed_unjumped (blockWellFormed_unjumped items)

end

/-- The exchange moves no {lit}`else`. -/
theorem Stmt.isOpen_unjumped : ∀ s : Stmt, s.unjumped.isOpen = s.isOpen
  | .ifThen _ _ => rfl
  | .ifElse _ _ alt => alt.isOpen_unjumped
  | .while _ body => body.isOpen_unjumped
  | .break | .continue | .block _ | .ret _ | .expr _ | .assign _ _ => rfl

mutual

/-- It keeps every {lit}`else` with its {lit}`if`. -/
theorem Stmt.greedy_unjumped : ∀ s : Stmt, s.unjumped.Greedy ↔ s.Greedy
  | .ifThen _ body => body.greedy_unjumped
  | .ifElse _ body alt =>
      and_congr (by rw [body.isOpen_unjumped])
        (and_congr body.greedy_unjumped alt.greedy_unjumped)
  | .while _ body => body.greedy_unjumped
  | .block items => blockGreedy_unjumped items
  | .break | .continue | .ret _ | .expr _ | .assign _ _ => Iff.rfl

/-- The same for an item of a block. -/
theorem BlockItem.greedy_unjumped : ∀ item : BlockItem, item.unjumped.Greedy ↔ item.Greedy
  | .decl _ => Iff.rfl
  | .stmt s => s.greedy_unjumped

/-- The same for a block. -/
theorem blockGreedy_unjumped : ∀ items : List BlockItem,
    blockGreedy (blockUnjumped items) ↔ blockGreedy items
  | [] => Iff.rfl
  | item :: items => and_congr item.greedy_unjumped (blockGreedy_unjumped items)

end

/-- The exchange keeps files well formed. -/
theorem CompUnit.wellFormed_unjumped (u : CompUnit) : u.unjumped.WellFormed ↔ u.WellFormed := by
  unfold CompUnit.unjumped CompUnit.WellFormed
  rw [List.forall_mem_map]
  refine forall₂_congr fun item _ => ?_
  cases item with
  | func f => exact blockWellFormed_unjumped f.body
  | decl d => exact Iff.rfl

/-- It keeps every {lit}`else` of a file with its {lit}`if`. -/
theorem CompUnit.greedy_unjumped (u : CompUnit) : u.unjumped.Greedy ↔ u.Greedy := by
  unfold CompUnit.unjumped CompUnit.Greedy
  rw [List.forall_mem_map]
  refine forall₂_congr fun item _ => ?_
  cases item with
  | func f => exact blockGreedy_unjumped f.body
  | decl d => exact Iff.rfl

section

variable {fresh : Nat → Option Node}

/-- What the analysis of something reaches, if there is a node for it. -/
def reached {α : Type} (r : Option (α × Analysis)) : Option Analysis := r.map Prod.snd

/-- Two sequences reach the same analysis if their parts do. -/
theorem reached_bind {α β γ : Type} {r : Option (α × Analysis)} {r' : Option (β × Analysis)}
    {f : α × Analysis → Option (γ × Analysis)} {f' : β × Analysis → Option (γ × Analysis)}
    (h : reached r = reached r') (hf : ∀ x y a, reached (f (x, a)) = reached (f' (y, a))) :
    reached (r.bind f) = reached (r'.bind f') := by
  cases r with
  | none =>
      cases r' with
      | none => rfl
      | some y => cases h
  | some x =>
      cases r' with
      | none => cases h
      | some y =>
          obtain ⟨x, a⟩ := x
          obtain ⟨y, a'⟩ := y
          obtain rfl : a = a' := Option.some.inj h
          exact hf x y a

/-- The same if both go on from one result. -/
theorem reached_bind_same {α γ : Type} {r : Option α} {f f' : α → Option (γ × Analysis)}
    (hf : ∀ x, reached (f x) = reached (f' x)) : reached (r.bind f) = reached (r.bind f') := by
  cases r with
  | none => rfl
  | some x => exact hf x

mutual

/-- The analysis reaches the same without the jumps. -/
theorem Stmt.reached_unjumped : ∀ (s : Stmt) (a : Analysis),
    reached (s.unjumped.build fresh a) = reached (s.build fresh a)
  | .ifThen cond body, a => by
      refine reached_bind_same fun c => ?_
      exact reached_bind (body.reached_unjumped _) fun _ _ _ => rfl
  | .ifElse cond body alt, a => by
      refine reached_bind_same fun c => ?_
      refine reached_bind (body.reached_unjumped _) fun _ _ a₁ => ?_
      exact reached_bind (alt.reached_unjumped a₁) fun _ _ _ => rfl
  | .while cond body, a => by
      refine reached_bind_same fun c => ?_
      exact reached_bind (body.reached_unjumped a) fun _ _ _ => rfl
  | .break, _ | .continue, _ => rfl
  | .block items, a => reached_bind (block_reached_unjumped items _) fun _ _ _ => rfl
  | .ret _, _ | .expr _, _ | .assign _ _, _ => rfl

/-- The exchange changes nothing in what is analysed behind an item. -/
theorem BlockItem.reached_unjumped : ∀ (item : BlockItem) (a : Analysis),
    reached (item.unjumped.build fresh a) = reached (item.build fresh a)
  | .decl _, _ => rfl
  | .stmt s, a => s.reached_unjumped a

/-- Nor behind a block. -/
theorem block_reached_unjumped : ∀ (items : List BlockItem) (a : Analysis),
    reached (blockBuild fresh (blockUnjumped items) a) = reached (blockBuild fresh items a)
  | [], _ => rfl
  | item :: items, a => by
      refine reached_bind (item.reached_unjumped a) fun _ _ a₁ => ?_
      exact reached_bind (block_reached_unjumped items a₁) fun _ _ _ => rfl

end

/-- Nor behind a top-level item. -/
theorem Item.reached_unjumped (item : Item) (a : Analysis) :
    reached (item.unjumped.build fresh a) = reached (item.build fresh a) := by
  cases item with
  | func f =>
      refine reached_bind_same fun _ => ?_
      refine reached_bind_same fun _ => ?_
      exact reached_bind (block_reached_unjumped f.body _) fun _ _ _ => rfl
  | decl d => rfl

/-- Nor behind a file. -/
theorem items_reached_unjumped (items : List Item) (a : Analysis) :
    reached (itemsBuild fresh (items.map Item.unjumped) a) =
      reached (itemsBuild fresh items a) := by
  induction items generalizing a with
  | nil => rfl
  | cons item items ih =>
      refine reached_bind (item.reached_unjumped a) fun _ _ a₁ => ?_
      exact reached_bind (ih a₁) fun _ _ _ => rfl

/-- The analysis of a compilation unit succeeds with its jumps exactly if it does so
without them. -/
theorem CompUnit.build_unjumped (intern : List UInt8 → Symbol) (u : CompUnit) :
    (u.unjumped.build intern fresh).isSome = (u.build intern fresh).isSome := by
  have hreached : reached (u.unjumped.build intern fresh) = reached (u.build intern fresh) :=
    reached_bind_same fun σ => items_reached_unjumped u ⟨σ, 0⟩
  have hsome {α : Type} (r : Option (α × Analysis)) : r.isSome = (reached r).isSome := by
    rw [reached, Option.isSome_map]
  rw [hsome, hreached, ← hsome]

end

end Grammar

open Grammar

/-- In an accepted program every jump stands in a function, and in a loop of it exactly if
it does so in the source.  Nothing else is asked of it: a program that differs from an
accepted one only in {lit}`break;`, {lit}`continue;` and {lit}`0;` is accepted as well. -/
theorem jumps_unchecked {intern : List UInt8 → Symbol} {mem : Memory} {ts : TokenStream}
    {globals : List Node} {p : Parser}
    (h : (Parser.parserRun intern mem ts).outcome = .done globals p)
    (herror : p.ctx.hadError = false) : ∃ u, Reads intern ts u globals ∧
      (∀ q ∈ u.jumpNodes globals, q.2 ≠ .file) ∧ u.jumpNodes globals = u.jumps ∧
      ∀ (v : CompUnit) (ts' : TokenStream), v.unjumped = u.unjumped →
        v.toks = terminals ts'.tokens → Parser.Accepts intern mem ts' := by
  obtain ⟨u, hu, hgreedy, htoks, a, ha, _⟩ := Parser.build_of_accepted h herror
  have hresolved := (CompUnit.resolved_build ha).1
  have hjumps : u.jumpNodes globals = u.jumps := items_jumpNodes hresolved
  refine ⟨u, ⟨hu, hgreedy, htoks, hresolved, CompUnit.built_pairs ha⟩, ?_, hjumps, ?_⟩
  · rw [hjumps]
    exact u.jumps_inside
  · intro v ts' hv hts'
    have hwf : v.WellFormed := by
      rw [← v.wellFormed_unjumped, hv, u.wellFormed_unjumped]
      exact hu
    have hvgreedy : v.Greedy := by
      rw [← v.greedy_unjumped, hv, u.greedy_unjumped]
      exact hgreedy
    apply Parser.accepted_of_build hwf hvgreedy hts'
    rw [← v.build_unjumped, hv, u.build_unjumped, ha]
    rfl

/-- The text {lit}`void f() { break; }`. -/
def strayBreak : CompUnit := [.func ⟨false, .void, ⟨0⟩, [], [.stmt .break]⟩]

/-- A jump without a loop is accepted. -/
theorem stray_break :
    Parser.AcceptsWith Fluf.ascii.intern zeroed (stream strayBreak.toks) fun globals =>
      ¬ ∀ q ∈ strayBreak.jumpNodes globals, q.2 = .loop := by
  decide +kernel

theorem jumps_unchecked_stray : ∃ globals u,
    Reads Fluf.ascii.intern (stream strayBreak.toks) u globals ∧
      (∀ q ∈ u.jumpNodes globals, q.2 ≠ .file) ∧ u.jumpNodes globals = u.jumps ∧
      ∀ (v : CompUnit) (ts' : TokenStream), v.unjumped = u.unjumped →
        v.toks = terminals ts'.tokens → Parser.Accepts Fluf.ascii.intern zeroed ts' := by
  have haccepts : Parser.Accepts Fluf.ascii.intern zeroed (stream strayBreak.toks) := by
    decide +kernel
  obtain ⟨globals, p, h, herror⟩ := haccepts
  exact ⟨globals, jumps_unchecked h herror⟩

end Cact
