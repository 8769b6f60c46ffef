import Cact.Grammar.Syntax

/-!
# The dangling else

The grammar lets an {lit}`else` belong to any {lit}`if` before it that has none yet; the
parser gives it to the nearest one.  Every derivation can be rearranged that way.

Main results:

- Definition {lit}`Stmt.Greedy`: every {lit}`else` belongs to the nearest {lit}`if`.
- Definition {lit}`CompUnit.rearranged`: the derivation with each {lit}`else` given to the
  nearest {lit}`if`.
- Theorem {lit}`exists_greedy`: every derivable text has such a derivation.
-/

namespace Cact

namespace Grammar

/-- A statement that a following {lit}`else` could still join. -/
def Stmt.isOpen : Stmt → Bool
  | .ifThen _ _ => true
  | .ifElse _ _ alt => alt.isOpen
  | .while _ body => body.isOpen
  | _ => false

mutual

/-- Every {lit}`else` belongs to the nearest {lit}`if`. -/
def Stmt.Greedy : Stmt → Prop
  | .ifThen _ body => body.Greedy
  | .ifElse _ body alt => body.isOpen = false ∧ body.Greedy ∧ alt.Greedy
  | .while _ body => body.Greedy
  | .block items => blockGreedy items
  | _ => True

/-- An item of a block gives every {lit}`else` to the nearest {lit}`if`. -/
def BlockItem.Greedy : BlockItem → Prop
  | .decl _ => True
  | .stmt s => s.Greedy

/-- So do all items of a block. -/
def blockGreedy : List BlockItem → Prop
  | [] => True
  | item :: items => item.Greedy ∧ blockGreedy items

end

/-- Give an {lit}`else` branch to the last {lit}`if` of an open statement. -/
def attach (alt : Stmt) : Stmt → Stmt
  | .ifThen cond body =>
      if body.isOpen then .ifThen cond (attach alt body) else .ifElse cond body alt
  | .ifElse cond body alt' => .ifElse cond body (attach alt alt')
  | .while cond body => .while cond (attach alt body)
  | s => s

mutual

/-- The statement, with every {lit}`else` given to the nearest {lit}`if`. -/
def Stmt.rearranged : Stmt → Stmt
  | .ifThen cond body => .ifThen cond body.rearranged
  | .ifElse cond body alt =>
      if body.rearranged.isOpen then .ifThen cond (attach alt.rearranged body.rearranged)
      else .ifElse cond body.rearranged alt.rearranged
  | .while cond body => .while cond body.rearranged
  | .block items => .block (blockRearranged items)
  | s => s

/-- An item of a block with every {lit}`else` given to the nearest {lit}`if`. -/
def BlockItem.rearranged : BlockItem → BlockItem
  | .decl d => .decl d
  | .stmt s => .stmt s.rearranged

/-- A block with every {lit}`else` given to the nearest {lit}`if`. -/
def blockRearranged : List BlockItem → List BlockItem
  | [] => []
  | item :: items => item.rearranged :: blockRearranged items

end

/-- The item, with the body of a function rearranged. -/
def Item.rearranged : Item → Item
  | .func f => .func { f with body := blockRearranged f.body }
  | .decl d => .decl d

/-- A function gives every {lit}`else` to the nearest {lit}`if` if its body does. -/
def Item.Greedy : Item → Prop
  | .func f => blockGreedy f.body
  | .decl _ => True

section

variable {alt : Stmt}

/-- An {lit}`else` that is given away stands where it stood. -/
theorem toks_attach {s : Stmt} (h : s.isOpen = true) :
    (attach alt s).toks = s.toks ++ .fixed .kwElse :: alt.toks := by
  induction s using attach.induct with
  | case1 cond body hopen ih => simp [attach, hopen, Stmt.toks, ih hopen]
  | case2 cond body hopen => simp [attach, hopen, Stmt.toks]
  | case3 cond body alt' ih => simp [attach, Stmt.toks, ih h]
  | case4 cond body ih => simp [attach, Stmt.toks, ih h]
  | case5 s h₁ h₂ h₃ =>
      cases s <;> simp_all [Stmt.isOpen]

/-- It is with the nearest {lit}`if` then. -/
theorem greedy_attach {s : Stmt} (h : s.isOpen = true) (hs : s.Greedy) (halt : alt.Greedy) :
    (attach alt s).Greedy := by
  induction s using attach.induct with
  | case1 cond body hopen ih => simpa [attach, hopen, Stmt.Greedy] using ih hopen hs
  | case2 cond body hopen =>
      have hclosed : body.isOpen = false := by simpa using hopen
      simpa [attach, hclosed, Stmt.Greedy] using ⟨hs, halt⟩
  | case3 cond body alt' ih => exact ⟨hs.1, hs.2.1, ih h hs.2.2⟩
  | case4 cond body ih => exact ih h hs
  | case5 s h₁ h₂ h₃ =>
      cases s <;> simp_all [Stmt.isOpen]

/-- The statement stays well formed. -/
theorem wellFormed_attach {s : Stmt} (h : s.isOpen = true) (hs : s.WellFormed)
    (halt : alt.WellFormed) : (attach alt s).WellFormed := by
  induction s using attach.induct with
  | case1 cond body hopen ih =>
      simp only [attach, hopen, if_true]
      exact ⟨hs.1, ih hopen hs.2⟩
  | case2 cond body hopen =>
      simp only [attach, hopen]
      exact ⟨hs.1, hs.2, halt⟩
  | case3 cond body alt' ih => exact ⟨hs.1, hs.2.1, ih h hs.2.2⟩
  | case4 cond body ih => exact ⟨hs.1, ih h hs.2⟩
  | case5 s h₁ h₂ h₃ =>
      cases s <;> simp_all [Stmt.isOpen]

end

/-! ## Rearranging -/

mutual

/-- Giving every {lit}`else` to the nearest {lit}`if` keeps the text of a statement. -/
theorem Stmt.toks_rearranged : ∀ s : Stmt, s.rearranged.toks = s.toks
  | .ifThen cond body => by
      simp only [Stmt.rearranged, Stmt.toks, body.toks_rearranged]
  | .ifElse cond body alt => by
      unfold Stmt.rearranged
      split
      · rename_i hopen
        simp only [Stmt.toks, toks_attach hopen, body.toks_rearranged, alt.toks_rearranged]
      · simp only [Stmt.toks, body.toks_rearranged, alt.toks_rearranged]
  | .while cond body => by
      simp only [Stmt.rearranged, Stmt.toks, body.toks_rearranged]
  | .ret value => rfl
  | .break => rfl
  | .continue => rfl
  | .block items => by
      simp only [Stmt.rearranged, Stmt.toks, blockToks_rearranged items]
  | .expr e => rfl
  | .assign lhs rhs => rfl

/-- It keeps the text of an item of a block. -/
theorem BlockItem.toks_rearranged : ∀ item : BlockItem, item.rearranged.toks = item.toks
  | .decl d => rfl
  | .stmt s => by simp only [BlockItem.rearranged, BlockItem.toks, s.toks_rearranged]

/-- It keeps the text of a block. -/
theorem blockToks_rearranged : ∀ items, blockToks (blockRearranged items) = blockToks items
  | [] => rfl
  | item :: items => by
      simp only [blockRearranged, blockToks, item.toks_rearranged, blockToks_rearranged items]

end

mutual

/-- It keeps a statement well formed. -/
theorem Stmt.WellFormed.rearranged : ∀ {s : Stmt}, s.WellFormed → s.rearranged.WellFormed
  | .ifThen _ _, h => ⟨h.1, h.2.rearranged⟩
  | .ifElse _ body _, h => by
      unfold Stmt.rearranged
      split
      · rename_i hopen
        exact ⟨h.1, wellFormed_attach hopen h.2.1.rearranged h.2.2.rearranged⟩
      · exact ⟨h.1, h.2.1.rearranged, h.2.2.rearranged⟩
  | .while _ _, h => ⟨h.1, h.2.rearranged⟩
  | .ret _, h => h
  | .break, h => h
  | .continue, h => h
  | .block items, h => blockWellFormed_rearranged items h
  | .expr _, h => h
  | .assign _ _, h => h

/-- It keeps an item of a block well formed. -/
theorem BlockItem.WellFormed.rearranged :
    ∀ {item : BlockItem}, item.WellFormed → item.rearranged.WellFormed
  | .decl _, h => h
  | .stmt s, h => Stmt.WellFormed.rearranged (s := s) h

/-- It keeps a block well formed. -/
theorem blockWellFormed_rearranged :
    ∀ items, blockWellFormed items → blockWellFormed (blockRearranged items)
  | [], h => h
  | _ :: items, h => ⟨h.1.rearranged, blockWellFormed_rearranged items h.2⟩

end

mutual

/-- Afterwards every {lit}`else` of a statement is with the nearest {lit}`if`. -/
theorem Stmt.greedy_rearranged : ∀ s : Stmt, s.rearranged.Greedy
  | .ifThen _ body => body.greedy_rearranged
  | .ifElse _ body alt => by
      unfold Stmt.rearranged
      split
      · rename_i hopen
        exact greedy_attach hopen body.greedy_rearranged alt.greedy_rearranged
      · rename_i hclosed
        exact ⟨by simpa using hclosed, body.greedy_rearranged, alt.greedy_rearranged⟩
  | .while _ body => body.greedy_rearranged
  | .ret _ => trivial
  | .break => trivial
  | .continue => trivial
  | .block items => blockGreedy_rearranged items
  | .expr _ => trivial
  | .assign _ _ => trivial

/-- So is every one of an item of a block. -/
theorem BlockItem.greedy_rearranged : ∀ item : BlockItem, item.rearranged.Greedy
  | .decl _ => trivial
  | .stmt s => s.greedy_rearranged

/-- So is every one of a block. -/
theorem blockGreedy_rearranged : ∀ items, blockGreedy (blockRearranged items)
  | [] => trivial
  | item :: items => ⟨item.greedy_rearranged, blockGreedy_rearranged items⟩

end

/-- A top-level item keeps its text. -/
theorem Item.toks_rearranged (item : Item) : item.rearranged.toks = item.toks := by
  cases item with
  | func f => simp only [Item.rearranged, Item.toks, Func.toks, blockToks_rearranged]
  | decl d => rfl

/-- It stays well formed. -/
theorem Item.WellFormed.rearranged {item : Item} (h : item.WellFormed) :
    item.rearranged.WellFormed := by
  cases item with
  | func f => exact blockWellFormed_rearranged f.body h
  | decl d => exact h

/-- Every {lit}`else` in it is with the nearest {lit}`if`. -/
theorem Item.greedy_rearranged (item : Item) : item.rearranged.Greedy := by
  cases item with
  | func f => exact blockGreedy_rearranged f.body
  | decl d => trivial

/-- The compilation unit, with every {lit}`else` given to the nearest {lit}`if`. -/
def CompUnit.rearranged (u : CompUnit) : CompUnit := u.map Item.rearranged

/-- A file gives every {lit}`else` to the nearest {lit}`if`. -/
def CompUnit.Greedy (u : CompUnit) : Prop := ∀ item ∈ u, item.Greedy

/-- A file keeps its text. -/
theorem CompUnit.toks_rearranged (u : CompUnit) : u.rearranged.toks = u.toks := by
  simp only [CompUnit.toks, CompUnit.rearranged, List.flatMap_map, Item.toks_rearranged]

/-- It stays well formed. -/
theorem CompUnit.WellFormed.rearranged {u : CompUnit} (h : u.WellFormed) :
    u.rearranged.WellFormed := by
  intro item hitem
  obtain ⟨item, hmem, rfl⟩ := List.mem_map.mp hitem
  exact (h item hmem).rearranged

/-- Every {lit}`else` in it is with the nearest {lit}`if`. -/
theorem CompUnit.greedy_rearranged (u : CompUnit) : u.rearranged.Greedy := by
  intro item hitem
  obtain ⟨item, _, rfl⟩ := List.mem_map.mp hitem
  exact item.greedy_rearranged

/-- Every text of the language has a derivation that gives each {lit}`else` to the
nearest {lit}`if`. -/
theorem exists_greedy {ts : List Terminal} (h : Derives ts) :
    ∃ u : CompUnit, u.WellFormed ∧ u.Greedy ∧ u.toks = ts := by
  obtain ⟨u, hu, rfl⟩ := h
  exact ⟨u.rearranged, hu.rearranged, u.greedy_rearranged, u.toks_rearranged⟩

end Grammar

end Cact
