import Cact.Sema
import Mathlib.Data.List.Basic

/-!
# Renaming

Nodes, symbols and scopes under other names.  Nothing but the names changes: types name no
symbol, and symbols are told apart by their addresses.

Main results:

- Definitions {lit}`Node.rename` and {lit}`Sema.rename`.
- Theorem {lit}`Sema.lookup_rename`: an injective renaming finds the renamed symbol.
- Theorems {lit}`Sema.newSymbol_rename` and {lit}`Sema.define_rename`: definitions.
- Definition {lit}`Sema.Typed`: all symbols have types.
-/

namespace Cact

variable (ρ : Symbol → Symbol)

/-! ## Nodes -/

/-- A symbol under another name; nothing else in it changes. -/
def SemaSymbol.rename (sym : SemaSymbol) : SemaSymbol := { sym with name := ρ sym.name }

mutual

/-- A node with other names in it. -/
def Node.rename : Node → Node
  | .litInt ty val => .litInt ty val
  | .litFloat ty val => .litFloat ty val
  | .litDouble ty val => .litDouble ty val
  | .litBool ty val => .litBool ty val
  | .initList ty inits => .initList ty (renameFields inits)
  | .var ty sym => .var ty (sym.map (SemaSymbol.rename ρ))
  | .funcCall ty funcName args => .funcCall ty (ρ funcName) (renameFields args)
  | .arrayAccess ty lhs rhs => .arrayAccess ty lhs.rename (renameField rhs)
  | .neg ty lhs => .neg ty (renameField lhs)
  | .logNot ty lhs => .logNot ty (renameField lhs)
  | .binary op ty lhs rhs => .binary op ty lhs.rename rhs.rename
  | .assign ty lhs rhs => .assign ty lhs.rename rhs.rename
  | .block ty stmts => .block ty (renameNodes stmts)
  | .ifStmt ty cond thenBranch elseBranch =>
      .ifStmt ty (renameField cond) (renameField thenBranch) (renameField elseBranch)
  | .whileStmt ty cond body => .whileStmt ty (renameField cond) (renameField body)
  | .retStmt ty lhs => .retStmt ty (renameField lhs)
  | .exprStmt ty lhs => .exprStmt ty lhs.rename
  | .varDecl ty sym init => .varDecl ty (sym.map (SemaSymbol.rename ρ)) (renameField init)
  | .breakStmt ty => .breakStmt ty
  | .continueStmt ty => .continueStmt ty

/-- A field of a node, which may be null. -/
def renameField : Option Node → Option Node
  | none => none
  | some n => some n.rename

/-- The elements of a list of fields. -/
def renameFields : List (Option Node) → List (Option Node)
  | [] => []
  | n :: ns => renameField n :: renameFields ns

/-- The nodes of a list. -/
def renameNodes : List Node → List Node
  | [] => []
  | n :: ns => n.rename :: renameNodes ns

end

variable {ρ}

/-- The recursion over a field is a map. -/
@[simp]
theorem renameField_eq (n : Option Node) : renameField ρ n = n.map (Node.rename ρ) := by
  cases n <;> rfl

/-- So is the one over a list of fields. -/
@[simp]
theorem renameFields_eq (ns : List (Option Node)) :
    renameFields ρ ns = ns.map (Option.map (Node.rename ρ)) := by
  induction ns with
  | nil => rfl
  | cons n ns ih => rw [renameFields, renameField_eq, ih, List.map_cons]

/-- So is the one over a list of nodes. -/
@[simp]
theorem renameNodes_eq (ns : List Node) : renameNodes ρ ns = ns.map (Node.rename ρ) := by
  induction ns with
  | nil => rfl
  | cons n ns ih => rw [renameNodes, ih, List.map_cons]

mutual

/-- Nodes under their own names. -/
theorem Node.rename_id : ∀ n : Node, n.rename id = n
  | .litInt _ _ | .litFloat _ _ | .litDouble _ _ | .litBool _ _ => rfl
  | .initList ty inits => by rw [Node.rename, renameFields_id inits]
  | .var ty sym => by cases sym <;> rfl
  | .funcCall ty funcName args => by rw [Node.rename, renameFields_id args, id]
  | .arrayAccess ty lhs rhs => by rw [Node.rename, Node.rename_id lhs, renameField_id rhs]
  | .neg ty lhs => by rw [Node.rename, renameField_id lhs]
  | .logNot ty lhs => by rw [Node.rename, renameField_id lhs]
  | .binary op ty lhs rhs => by rw [Node.rename, Node.rename_id lhs, Node.rename_id rhs]
  | .assign ty lhs rhs => by rw [Node.rename, Node.rename_id lhs, Node.rename_id rhs]
  | .block ty stmts => by rw [Node.rename, renameNodes_id stmts]
  | .ifStmt ty cond thenBranch elseBranch => by
      rw [Node.rename, renameField_id cond, renameField_id thenBranch, renameField_id elseBranch]
  | .whileStmt ty cond body => by rw [Node.rename, renameField_id cond, renameField_id body]
  | .retStmt ty lhs => by rw [Node.rename, renameField_id lhs]
  | .exprStmt ty lhs => by rw [Node.rename, Node.rename_id lhs]
  | .varDecl ty sym init => by
      rw [Node.rename, renameField_id init]
      cases sym <;> rfl
  | .breakStmt _ | .continueStmt _ => rfl

/-- A field under the same names is the same. -/
theorem renameField_id : ∀ n : Option Node, renameField id n = n
  | none => rfl
  | some n => by rw [renameField, Node.rename_id n]

/-- So is a list of fields. -/
theorem renameFields_id : ∀ ns : List (Option Node), renameFields id ns = ns
  | [] => rfl
  | n :: ns => by rw [renameFields, renameField_id n, renameFields_id ns]

/-- So is a list of nodes. -/
theorem renameNodes_id : ∀ ns : List Node, renameNodes id ns = ns
  | [] => rfl
  | n :: ns => by rw [renameNodes, Node.rename_id n, renameNodes_id ns]

end

/-- Also where the node may be null. -/
theorem Node.map_rename_id (n : Option Node) : n.map (Node.rename id) = n := by
  rw [show Node.rename id = id from funext Node.rename_id, Option.map_id, id]

/-- Names are no part of the type of a node. -/
@[simp]
theorem Node.ty_rename (n : Node) : (n.rename ρ).ty = n.ty := by
  cases n <;> rfl

/-- They are no part of whether it is a constant. -/
@[simp]
theorem Node.isConstVar_rename (n : Node) : (n.rename ρ).isConstVar = n.isConstVar := by
  cases n with
  | var ty sym => cases sym <;> rfl
  | _ => rfl

/-- Nor of the type of a symbol. -/
@[simp]
theorem SemaSymbol.ty_rename (sym : SemaSymbol) : (sym.rename ρ).ty = sym.ty := rfl

/-! ## The state of the analysis -/

variable (ρ)

/-- A scope under other names: the keys of its map are renamed with the symbols. -/
def Scope.rename (sc : Scope) : Scope :=
  { sc with symbols := sc.symbols.map fun e => (ρ e.1, e.2.rename ρ) }

/-- The scopes of an analysis under other names. -/
def Sema.rename (s : Sema) : Sema := { s with scopes := s.scopes.map (Scope.rename ρ) }

variable {ρ}

namespace Sema

/-- The function types have no names in them. -/
@[simp]
theorem funcs_rename (s : Sema) : (s.rename ρ).funcs = s.funcs := rfl

/-- The return type has none either. -/
@[simp]
theorem currFuncRet_rename (s : Sema) : (s.rename ρ).currFuncRet = s.currFuncRet := rfl

/-- There are as many scopes as before. -/
@[simp]
theorem isEmpty_scopes_rename (s : Sema) :
    (s.rename ρ).scopes.isEmpty = s.scopes.isEmpty := by
  simp [rename]

/-- The type of a call does not depend on names. -/
@[simp]
theorem callTy_rename (s : Sema) (ty : Ty) : (s.rename ρ).callTy ty = s.callTy ty := rfl

/-- A scope may be entered before or after the renaming. -/
@[simp]
theorem rename_enter (s : Sema) : s.enter.rename ρ = (s.rename ρ).enter := rfl

/-- It may be left before or after. -/
@[simp]
theorem rename_leave (s : Sema) : s.leave.rename ρ = (s.rename ρ).leave := by
  simp [rename, leave]

/-- A function type may be made before or after. -/
@[simp]
theorem rename_newFunc (s : Sema) (ret : ObjTy) :
    (s.newFunc ret).rename ρ = (s.rename ρ).newFunc ret := rfl

/-- A parameter may be recorded before or after. -/
@[simp]
theorem rename_pushParam (s : Sema) (id : Nat) (ty : Option ObjTy) :
    (s.pushParam id ty).rename ρ = (s.rename ρ).pushParam id ty := rfl

/-- The symbol of a renamed declaration is the renamed symbol. -/
theorem newSymbol_rename (s : Sema) (name : Symbol) (ty : Option Ty) (isConst : Bool) :
    (s.rename ρ).newSymbol (ρ name) ty isConst = (s.newSymbol name ty isConst).rename ρ := by
  cases h : s.scopes <;> simp [newSymbol, rename, SemaSymbol.rename, h]

/-- A symbol may be defined before or after the renaming. -/
theorem define_rename (s : Sema) (sym : SemaSymbol) :
    (s.rename ρ).define (sym.rename ρ) = (s.define sym).rename ρ := by
  cases h : s.scopes <;> simp [define, rename, Scope.rename, SemaSymbol.rename, h]

section

variable (hρ : Function.Injective ρ)

include hρ

/-- Under an injective renaming, the renamed name has the renamed symbol. -/
theorem get_rename (m : SymbolMap) (name : Symbol) :
    SymbolMap.get (m.map fun e => (ρ e.1, e.2.rename ρ)) (ρ name) =
      (m.get name).map (SemaSymbol.rename ρ) := by
  unfold SymbolMap.get
  induction m with
  | nil => rfl
  | cons e m ih =>
      rw [List.map_cons, List.lookup_cons, List.lookup_cons]
      by_cases h : name = e.1
      · simp [h]
      · have hne : (ρ name == ρ e.1) = false := by simpa using fun heq => h (hρ heq)
        have hne' : (name == e.1) = false := by simpa using h
        simp only [hne, hne']
        exact ih

/-- The renamed name is bound to the renamed symbol. -/
theorem lookup_rename (s : Sema) (name : Symbol) :
    (s.rename ρ).lookup (ρ name) = (s.lookup name).map (SemaSymbol.rename ρ) := by
  unfold lookup rename
  induction s.scopes with
  | nil => rfl
  | cons sc scopes ih =>
      have hget := get_rename hρ sc.symbols name
      simp only [List.map_cons, List.findSome?_cons, Scope.rename] at ih ⊢
      rw [hget]
      cases sc.symbols.get name with
      | some sym => rfl
      | none => exact ih

/-- Under an injective renaming, the renamed name is declared where the old one was. -/
theorem declared_rename (s : Sema) (name : Symbol) :
    (s.rename ρ).declared (ρ name) = s.declared name := by
  unfold declared rename
  cases s.scopes with
  | nil => rfl
  | cons sc scopes => simp [Scope.rename, get_rename hρ]

end

/-! ## Types of symbols -/

/-- All symbols have types. -/
def Typed (s : Sema) : Prop := ∀ sc ∈ s.scopes, ∀ e ∈ sc.symbols, e.2.ty ≠ none

/-- A new scope holds no symbols. -/
theorem Typed.enter {s : Sema} (h : s.Typed) : s.enter.Typed := by
  intro sc hsc
  rcases List.mem_cons.mp hsc with rfl | hsc
  · simp
  · exact h sc hsc

/-- A symbol that is left in the scopes was there before. -/
theorem Typed.leave {s : Sema} (h : s.Typed) : s.leave.Typed :=
  fun sc hsc => h sc (List.mem_of_mem_tail hsc)

/-- A symbol with a type may be defined. -/
theorem Typed.define {s : Sema} (h : s.Typed) (sym : SemaSymbol) (hty : sym.ty ≠ none) :
    (s.define sym).Typed := by
  unfold Typed Sema.define
  cases hscopes : s.scopes with
  | nil => simp [hscopes]
  | cons top scopes =>
      rw [Typed, hscopes] at h
      intro sc hsc e he
      rcases List.mem_cons.mp hsc with rfl | hsc
      · rcases List.mem_cons.mp he with rfl | he
        · exact hty
        · exact h top List.mem_cons_self e he
      · exact h sc (List.mem_cons_of_mem _ hsc) e he

/-- What is found has a type. -/
theorem Typed.lookup {s : Sema} (h : s.Typed) {name : Symbol} {sym : SemaSymbol}
    (hlookup : s.lookup name = some sym) : sym.ty ≠ none := by
  obtain ⟨sc, hsc, hget⟩ := List.exists_of_findSome?_eq_some hlookup
  obtain ⟨before, after, hsymbols, _⟩ := List.lookup_eq_some_iff.mp hget
  exact h sc hsc (name, sym) (by rw [hsymbols]; simp)

end Sema

end Cact
