import Cact.Sema
import Mathlib.Data.List.AList
import Mathlib.Data.List.MinMax

/-!
# The heap of scopes

The scopes of {lit}`sema.c` as they lie in memory: records that point to their parents, which
are allocated when a scope is entered and freed when it is left, and symbols, which are never
freed and have addresses of their own.  Everything else in the front end works with the stack of
scopes that these pointers stand for.

Main results:

- Definitions {lit}`ScopeHeap.semaScopeEnter`, {lit}`ScopeHeap.semaScopeLeave`,
  {lit}`ScopeHeap.semaDefineVar` and {lit}`ScopeHeap.semaLookup`: the operations, which have no
  result if they read or free a record that is not there.
- Definition {lit}`Allocator`: where records are put, whatever has happened before.
- Definition {lit}`ScopeHeap.Represents`: the live records are the scopes of a stack.
- Theorems {lit}`ScopeHeap.Represents.enter`, {lit}`ScopeHeap.Represents.leave`,
  {lit}`ScopeHeap.Represents.define` and {lit}`ScopeHeap.Represents.lookup`: the operations do
  what those on the stack do.
-/

namespace Cact

/-! ## Records -/

/-- {lit}`struct SemaSymbol`. -/
structure SymRec where
  name : Symbol
  ty : Option Ty
  isConst : Bool
  isGlobal : Bool
  stackOffset : Int32
deriving DecidableEq, Repr

/-- What a symbol looks like in memory. -/
def SemaSymbol.record (sym : SemaSymbol) : SymRec :=
  ⟨sym.name, sym.ty, sym.isConst, sym.isGlobal, sym.stackOffset⟩

/-- {lit}`struct Scope`: its parent, and a map from names to the addresses of symbols. -/
structure ScopeRec where
  parent : Option Nat
  symbols : List (Symbol × Nat)
deriving DecidableEq, Repr

/-- The scopes that are allocated, by address, the symbols, by address, and the pointer
{lit}`curr_scope`. -/
structure ScopeHeap where
  scopes : AList fun _ : Nat => ScopeRec
  syms : List SymRec
  currScope : Option Nat

/-- An address behind all that are in use. -/
def ScopeHeap.behindAll (h : ScopeHeap) : Nat := h.scopes.keys.foldr max 0 + 1

/-- The address behind all scopes is no scope's. -/
theorem ScopeHeap.behindAll_notMem (h : ScopeHeap) : h.behindAll ∉ h.scopes := by
  intro hmem
  have hle := List.le_max_of_le' 0 (AList.mem_keys.mp hmem) (le_refl h.behindAll)
  rw [behindAll] at hle
  omega

/-- An allocator hands out an address that is not in use.  Which one depends on all that has
happened so far, so that it may hand out again what was freed, or never do so. -/
structure Allocator (ι : Type) where
  pick : List ι → ScopeHeap → Nat
  unused : ∀ past h, pick past h ∉ h.scopes

/-- The allocator that hands out the addresses that it is given, one for each history, as long as
they are not in use. -/
def Allocator.handingOut {ι : Type} (address : List ι → Nat) : Allocator ι where
  pick past h := if address past ∈ h.scopes then h.behindAll else address past
  unused := by
    intro past h
    split
    · exact h.behindAll_notMem
    · assumption

/-- An address that is free is handed out as it comes. -/
theorem Allocator.pick_handingOut {ι : Type} {address : List ι → Nat} {past : List ι}
    {h : ScopeHeap} (hfree : address past ∉ h.scopes) :
    (handingOut address).pick past h = address past :=
  if_neg hfree

/-- What {lit}`sema_define_var` returns: null outside of all scopes, null and an error for a
name that the scope has, or the address of a new symbol. -/
inductive DefineResult where
  | noScope
  | redefined
  | symbol (addr : Nat)
deriving DecidableEq, Repr

/-- What {lit}`sema_define_var` returns, from the stack of scopes. -/
def Sema.defineResult (s : Sema) (name : Symbol) : DefineResult :=
  if s.scopes.isEmpty then .noScope else if s.declared name then .redefined else .symbol s.nextSym

namespace ScopeHeap

/-- {lit}`sema_init`. -/
def semaInit : ScopeHeap := ⟨∅, [], none⟩

/-- {lit}`sema_scope_enter`, with the address that the allocator hands out. -/
def semaScopeEnter (addr : Nat) (h : ScopeHeap) : ScopeHeap :=
  { h with
    scopes := h.scopes.insert addr ⟨h.currScope, []⟩
    currScope := some addr }

/-- {lit}`sema_scope_leave`. -/
def semaScopeLeave (h : ScopeHeap) : Option ScopeHeap :=
  match h.currScope with
  | none => some h
  | some a => do
      let sc ← h.scopes.lookup a
      some { h with scopes := h.scopes.erase a, currScope := sc.parent }

/-- {lit}`sema_define_var`. -/
def semaDefineVar (h : ScopeHeap) (name : Symbol) (ty : Option Ty) (isConst : Bool) :
    Option (DefineResult × ScopeHeap) :=
  match h.currScope with
  | none => some (.noScope, h)
  | some a => do
      let sc ← h.scopes.lookup a
      if (sc.symbols.lookup name).isSome then some (.redefined, h)
      else
        some (.symbol h.syms.length,
          { h with
            scopes := h.scopes.insert a { sc with symbols := (name, h.syms.length) :: sc.symbols }
            syms := h.syms ++ [⟨name, ty, isConst, sc.parent.isNone, 0⟩] })

/-- The loop of {lit}`sema_lookup`, with a bound on the number of its iterations.  There is no
result if the bound is reached, and none if a record is read that is not there. -/
def lookupLoop (h : ScopeHeap) (name : Symbol) : Nat → Option Nat → Option (Option Nat)
  | 0, _ => none
  | _ + 1, none => some none
  | n + 1, some a => do
      let sc ← h.scopes.lookup a
      match sc.symbols.lookup name with
      | some sym => some (some sym)
      | none => h.lookupLoop name n sc.parent

/-- {lit}`sema_lookup`. -/
def semaLookup (h : ScopeHeap) (n : Nat) (name : Symbol) : Option (Option Nat) :=
  h.lookupLoop name n h.currScope

/-! ## Stacks in memory -/

/-- The map of a scope, with the addresses of its symbols. -/
def mapAddrs (m : SymbolMap) : List (Symbol × Nat) := m.map fun e => (e.1, e.2.addr)

/-- From a pointer on, the records at these addresses are the scopes of a stack. -/
def Chain (scopes : AList fun _ : Nat => ScopeRec) : Option Nat → List Nat → List Scope → Prop
  | p, [], [] => p = none
  | p, a :: as, sc :: scs =>
      p = some a ∧ ∃ r, scopes.lookup a = some r ∧ r.symbols = mapAddrs sc.symbols ∧
        Chain scopes r.parent as scs
  | _, _, _ => False

/-- The records at these addresses are the scopes of the analysis, no others are allocated,
and the symbols are at their addresses. -/
structure LiesAt (addrs : List Nat) (h : ScopeHeap) (s : Sema) : Prop where
  chain : Chain h.scopes h.currScope addrs s.scopes
  nodup : addrs.Nodup
  live : ∀ a, a ∈ h.scopes ↔ a ∈ addrs
  symbols : ∀ sc ∈ s.scopes, ∀ e ∈ sc.symbols, h.syms[e.2.addr]? = some e.2.record
  next : h.syms.length = s.nextSym

/-- The heap holds the scopes of the analysis, and nothing but these. -/
def Represents (h : ScopeHeap) (s : Sema) : Prop := ∃ addrs, LiesAt addrs h s

/-- The empty heap represents the empty stack. -/
theorem represents_init : Represents semaInit Sema.init := by
  refine ⟨[], rfl, List.nodup_nil, fun a => ?_, by simp [Sema.init], rfl⟩
  simp [semaInit]

section

variable {scopes scopes' : AList fun _ : Nat => ScopeRec} {p : Option Nat} {addrs : List Nat}
  {scs : List Scope} {h : ScopeHeap} {s : Sema} {name : Symbol}

/-- A chain depends on the records at its addresses only. -/
theorem Chain.congr (hc : Chain scopes p addrs scs)
    (hsame : ∀ a ∈ addrs, scopes'.lookup a = scopes.lookup a) : Chain scopes' p addrs scs := by
  induction addrs generalizing p scs with
  | nil => cases scs <;> exact hc
  | cons a as ih =>
      cases scs with
      | nil => exact hc
      | cons sc scs =>
          obtain ⟨hp, r, hr, hsymbols, hparent⟩ := hc
          refine ⟨hp, r, ?_, hsymbols, ih hparent fun b hb => ?_⟩
          · rw [hsame a List.mem_cons_self]
            exact hr
          · exact hsame b (List.mem_cons_of_mem a hb)

/-- The record of the current scope, and the chain behind it. -/
theorem Chain.current {sc : Scope} (hc : Chain scopes p addrs (sc :: scs)) :
    ∃ a as r, addrs = a :: as ∧ p = some a ∧ scopes.lookup a = some r ∧
      r.symbols = mapAddrs sc.symbols ∧ Chain scopes r.parent as scs := by
  cases addrs with
  | nil => exact hc.elim
  | cons a as =>
      obtain ⟨hp, r, hr, hsymbols, hparent⟩ := hc
      exact ⟨a, as, r, rfl, hp, hr, hsymbols, hparent⟩

/-- The chain is empty iff its first pointer is NULL. -/
theorem Chain.eq_none_iff (hc : Chain scopes p addrs scs) : p = none ↔ scs = [] := by
  cases addrs <;> cases scs <;> simp_all [Chain]

/-- The map of a scope finds the address of the symbol the model finds. -/
theorem lookup_mapAddrs (m : SymbolMap) (name : Symbol) :
    (mapAddrs m).lookup name = (m.get name).map SemaSymbol.addr := by
  unfold SymbolMap.get
  induction m with
  | nil => rfl
  | cons e m ih =>
      rw [mapAddrs, List.map_cons, List.lookup_cons, ← mapAddrs, ih, List.lookup_cons]
      cases name == e.1 <;> rfl

/-- The walk from scope to scope finds what the search through the stack finds. -/
theorem Chain.lookup (hc : Chain h.scopes p addrs scs) {n : Nat} (hn : scs.length < n) :
    h.lookupLoop name n p =
      some ((scs.findSome? fun sc => sc.symbols.get name).map SemaSymbol.addr) := by
  induction addrs generalizing p scs n with
  | nil =>
      cases scs with
      | cons sc scs => exact hc.elim
      | nil =>
          obtain ⟨k, rfl⟩ : ∃ k, n = k + 1 := ⟨n - 1, by simp at hn; omega⟩
          cases hc
          rfl
  | cons a as ih =>
      cases scs with
      | nil => exact hc.elim
      | cons sc scs =>
          obtain ⟨rfl, r, hr, hsymbols, hparent⟩ := hc
          obtain ⟨k, rfl⟩ : ∃ k, n = k + 1 := ⟨n - 1, by simp at hn; omega⟩
          have hk : scs.length < k := by simpa using hn
          rw [lookupLoop, hr, List.findSome?_cons]
          simp only [Option.bind_eq_bind, Option.bind_some, hsymbols, lookup_mapAddrs]
          cases sc.symbols.get name with
          | some sym => rfl
          | none => exact ih hparent hk

/-! ## The operations -/

/-- What scopes and symbols a heap represents is all it represents. -/
theorem represents_of_eq {s' : Sema} (hr : Represents h s) (hscopes : s'.scopes = s.scopes)
    (hnext : s'.nextSym = s.nextSym) : Represents h s' := by
  obtain ⟨addrs, hchain, hnodup, hlive, hsymbols, hlength⟩ := hr
  exact ⟨addrs, by rwa [hscopes], hnodup, hlive, by rwa [hscopes], by rwa [hnext]⟩

/-- A scope that is entered lies in front of the others, wherever the allocator has put it. -/
theorem Represents.enter (hr : Represents h s) {addr : Nat} (hunused : addr ∉ h.scopes) :
    Represents (h.semaScopeEnter addr) s.enter := by
  obtain ⟨addrs, hchain, hnodup, hlive, hsymbols, hlength⟩ := hr
  have hnew : addr ∉ addrs := fun hmem => hunused ((hlive _).mpr hmem)
  refine ⟨addr :: addrs, ?_, List.nodup_cons.mpr ⟨hnew, hnodup⟩, fun a => ?_, ?_, hlength⟩
  · refine ⟨rfl, ⟨h.currScope, []⟩, AList.lookup_insert h.scopes, rfl, hchain.congr fun a ha => ?_⟩
    exact AList.lookup_insert_ne fun heq => hnew (heq ▸ ha)
  · simp [semaScopeEnter, hlive]
  · intro sc hsc
    rcases List.mem_cons.mp hsc with rfl | hsc
    · simp
    · exact hsymbols sc hsc

/-- The record of the scope that is left is there, and it is freed. -/
theorem Represents.leave (hr : Represents h s) :
    ∃ h', h.semaScopeLeave = some h' ∧ Represents h' s.leave := by
  obtain ⟨addrs, hchain, hnodup, hlive, hsymbols, hlength⟩ := hr
  cases hscopes : s.scopes with
  | nil =>
      rw [hscopes] at hchain
      have hnull : h.currScope = none := hchain.eq_none_iff.mpr rfl
      refine ⟨h, by rw [semaScopeLeave, hnull], addrs, ?_, hnodup, hlive, ?_, hlength⟩
      · simpa [Sema.leave, hscopes] using hchain
      · simp [Sema.leave, hscopes]
  | cons sc scs =>
      rw [hscopes] at hchain hsymbols
      obtain ⟨a, as, r, rfl, hcurr, hr, _, hparent⟩ := hchain.current
      obtain ⟨hnew, hrest⟩ := List.nodup_cons.mp hnodup
      refine ⟨{ h with scopes := h.scopes.erase a, currScope := r.parent }, ?_, as, ?_, hrest,
        fun b => ?_, ?_, hlength⟩
      · rw [semaScopeLeave, hcurr]
        simp [hr]
      · rw [Sema.leave, hscopes]
        exact hparent.congr fun b hb => AList.lookup_erase_ne fun heq => hnew (heq ▸ hb)
      · rw [AList.mem_erase, hlive]
        constructor
        · rintro ⟨hne, hmem⟩
          exact (List.mem_cons.mp hmem).resolve_left hne
        · exact fun hmem => ⟨fun heq => hnew (heq ▸ hmem), List.mem_cons_of_mem a hmem⟩
      · rw [Sema.leave, hscopes]
        exact fun sc' hsc' => hsymbols sc' (List.mem_cons_of_mem sc hsc')

/-- A name is in the map of the innermost record iff the model has declared it there. -/
theorem declared_eq {sc : Scope} {r : ScopeRec} (hscopes : s.scopes = sc :: scs)
    (hmap : r.symbols = mapAddrs sc.symbols) :
    (r.symbols.lookup name).isSome = s.declared name := by
  rw [hmap, lookup_mapAddrs, Option.isSome_map, Sema.declared, hscopes]

/-- The symbols that are there stay where they are. -/
theorem getElem?_append_some {syms more : List SymRec} {a : Nat} {r : SymRec}
    (h : syms[a]? = some r) : (syms ++ more)[a]? = some r := by
  rw [List.getElem?_append_left (List.getElem?_eq_some_iff.mp h).1]
  exact h

/-- A name that the current scope does not have yet gets a symbol of its own. -/
theorem Represents.define (hr : Represents h s) (hopen : s.scopes ≠ [])
    (hnew : s.declared name = false) (ty : Option Ty) (isConst : Bool) :
    ∃ h', h.semaDefineVar name ty isConst = some (.symbol s.nextSym, h') ∧
      Represents h' (s.define (s.newSymbol name ty isConst)) := by
  obtain ⟨addrs, hchain, hnodup, hlive, hsymbols, hlength⟩ := hr
  cases hscopes : s.scopes with
  | nil => exact absurd hscopes hopen
  | cons sc scs =>
      rw [hscopes] at hchain hsymbols
      obtain ⟨a, as, r, rfl, hcurr, hr, hmap, hparent⟩ := hchain.current
      have hfree : (r.symbols.lookup name).isSome = false := by
        rw [declared_eq hscopes hmap]
        exact hnew
      have hglobal : r.parent.isNone = scs.isEmpty := by
        rw [Bool.eq_iff_iff, Option.isNone_iff_eq_none, List.isEmpty_iff]
        exact hparent.eq_none_iff
      refine ⟨{ h with
        scopes := h.scopes.insert a { r with symbols := (name, s.nextSym) :: r.symbols }
        syms := h.syms ++ [(s.newSymbol name ty isConst).record] }, ?_, a :: as, ?_, hnodup,
          fun b => ?_, ?_, ?_⟩
      · rw [semaDefineVar, hcurr]
        simp [hr, hfree, hlength, SemaSymbol.record, Sema.newSymbol, hscopes, hglobal]
      · rw [Sema.define, hscopes]
        refine ⟨hcurr, _, AList.lookup_insert h.scopes, ?_, hparent.congr fun b hb => ?_⟩
        · simp [mapAddrs, hmap, Sema.newSymbol]
        · refine AList.lookup_insert_ne fun heq => ?_
          exact (List.nodup_cons.mp hnodup).1 (heq ▸ hb)
      · rw [AList.mem_insert, hlive]
        exact ⟨fun hb => hb.elim (fun heq => heq ▸ List.mem_cons_self) id, Or.inr⟩
      · rw [Sema.define, hscopes]
        intro sc' hsc' e he
        rcases List.mem_cons.mp hsc' with rfl | hbelow
        · rcases List.mem_cons.mp he with rfl | he
          · simp [Sema.newSymbol, ← hlength]
          · exact getElem?_append_some (hsymbols sc List.mem_cons_self e he)
        · exact getElem?_append_some (hsymbols sc' (List.mem_cons_of_mem sc hbelow) e he)
      · simp [Sema.define, hscopes, hlength]

/-- What {lit}`sema_define_var` returns in memory, it returns on the stack. -/
theorem Represents.defineResult (hr : Represents h s) (name : Symbol) (ty : Option Ty)
    (isConst : Bool) : ∃ h', h.semaDefineVar name ty isConst = some (s.defineResult name, h') := by
  by_cases hopen : s.scopes = []
  · obtain ⟨addrs, hchain, _⟩ := hr
    have hnull : h.currScope = none := hchain.eq_none_iff.mpr hopen
    exact ⟨h, by simp [semaDefineVar, hnull, Sema.defineResult, hopen]⟩
  cases hnew : s.declared name with
  | false =>
      obtain ⟨h', hdefine, _⟩ := hr.define hopen hnew ty isConst
      exact ⟨h', by simp [hdefine, Sema.defineResult, hopen, hnew]⟩
  | true =>
      obtain ⟨addrs, hchain, _⟩ := hr
      obtain ⟨sc, scs, hscopes⟩ := List.exists_cons_of_ne_nil hopen
      rw [hscopes] at hchain
      obtain ⟨a, as, r, _, hcurr, hr, hmap, _⟩ := hchain.current
      have htaken : (r.symbols.lookup name).isSome = true := by
        rw [declared_eq hscopes hmap]
        exact hnew
      exact ⟨h, by simp [semaDefineVar, hcurr, hr, htaken, Sema.defineResult, hopen, hnew]⟩

/-! ## What is in memory -/

/-- The walk finds what the search through the stack finds. -/
theorem Represents.lookup (hr : Represents h s) (name : Symbol) {n : Nat}
    (hn : s.scopes.length < n) :
    h.semaLookup n name = some ((s.lookup name).map SemaSymbol.addr) := by
  obtain ⟨addrs, hchain, _⟩ := hr
  exact hchain.lookup hn

/-- A variable of the outer of two scopes, sought from the inner one. -/
example :
    (do
      let h := semaInit.semaScopeEnter 40
      let (_, h) ← h.semaDefineVar ⟨7⟩ tyInt false
      (h.semaScopeEnter 16).semaLookup 3 ⟨7⟩) = some (some 0) := by
  rfl

/-- What a search finds is at its address. -/
theorem Represents.symbol (hr : Represents h s) {sym : SemaSymbol}
    (hsym : s.lookup name = some sym) : h.syms[sym.addr]? = some sym.record := by
  obtain ⟨addrs, _, _, _, hsymbols, _⟩ := hr
  obtain ⟨sc, hsc, hget⟩ := List.exists_of_findSome?_eq_some hsym
  obtain ⟨before, behind, hmap, _⟩ := List.lookup_eq_some_iff.mp hget
  exact hsymbols sc hsc (name, sym) (by simp [hmap])

/-- Leaving a scope frees no symbol. -/
theorem syms_semaScopeLeave {h h' : ScopeHeap} (hcall : h.semaScopeLeave = some h') :
    h.syms <+: h'.syms := by
  unfold semaScopeLeave at hcall
  split at hcall
  · cases hcall
    exact List.prefix_refl _
  · obtain ⟨sc, _, hleft⟩ := Option.bind_eq_some_iff.mp hcall
    cases hleft
    exact List.prefix_refl _

/-- Defining a variable keeps the symbols there are. -/
theorem syms_semaDefineVar {h h' : ScopeHeap} {ty : Option Ty} {isConst : Bool}
    {result : DefineResult} (hcall : h.semaDefineVar name ty isConst = some (result, h')) :
    h.syms <+: h'.syms := by
  unfold semaDefineVar at hcall
  split at hcall
  · cases hcall
    exact List.prefix_refl _
  · obtain ⟨sc, _, hdefined⟩ := Option.bind_eq_some_iff.mp hcall
    split at hdefined
    · cases hdefined
      exact List.prefix_refl _
    · cases hdefined
      exact List.prefix_append _ _

/-- Leaving a scope allocates nothing. -/
theorem mem_semaScopeLeave {h h' : ScopeHeap} {a : Nat} (hcall : h.semaScopeLeave = some h')
    (ha : a ∈ h'.scopes) : a ∈ h.scopes := by
  unfold semaScopeLeave at hcall
  split at hcall
  · cases hcall
    exact ha
  · obtain ⟨sc, _, hleft⟩ := Option.bind_eq_some_iff.mp hcall
    cases hleft
    exact (AList.mem_erase.mp ha).2

/-- Neither does a definition: it changes the record of the current scope. -/
theorem mem_semaDefineVar {h h' : ScopeHeap} {ty : Option Ty} {isConst : Bool} {a : Nat}
    {result : DefineResult} (hcall : h.semaDefineVar name ty isConst = some (result, h'))
    (ha : a ∈ h'.scopes) : a ∈ h.scopes := by
  unfold semaDefineVar at hcall
  split at hcall
  · cases hcall
    exact ha
  · obtain ⟨sc, hsc, hdefined⟩ := Option.bind_eq_some_iff.mp hcall
    split at hdefined
    · cases hdefined
      exact ha
    · cases hdefined
      rcases (AList.mem_insert _).mp ha with rfl | hold
      · exact AList.lookup_isSome.mp (by rw [hsc]; rfl)
      · exact hold

/-- The chain has one address for every open scope. -/
theorem Chain.length_eq (hc : Chain scopes p addrs scs) : addrs.length = scs.length := by
  induction addrs generalizing p scs with
  | nil =>
      cases scs with
      | nil => rfl
      | cons sc scs => exact hc.elim
  | cons a as ih =>
      cases scs with
      | nil => exact hc.elim
      | cons sc scs =>
          obtain ⟨_, r, _, _, hparent⟩ := hc
          rw [List.length_cons, List.length_cons, ih hparent]

/-- One record for each open scope. -/
theorem Represents.length_keys (hr : Represents h s) :
    h.scopes.keys.length = s.scopes.length := by
  obtain ⟨addrs, hchain, hnodup, hlive, _⟩ := hr
  have hperm : h.scopes.keys.Perm addrs :=
    (List.perm_ext_iff_of_nodup h.scopes.keys_nodup hnodup).mpr hlive
  rw [hperm.length_eq, hchain.length_eq]

end

end ScopeHeap

end Cact
