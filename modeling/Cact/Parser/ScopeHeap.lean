import Cact.Library.Tracking
import Cact.Scopes.Heap
import Cact.Parser.ScopeStack
import Mathlib.Algebra.GroupWithZero.Nat

/-!
# Scopes in memory

The parser enters and leaves scopes, defines names and looks them up.  Played on the heap, these
operations read and free only records that are there, whatever addresses the allocator hands
out; they find what the search through the stack of scopes finds, and in the end all scopes are
freed.  The symbols stay: the nodes point to them.

Main results:

- Definitions {lit}`Parser.effect` and {lit}`Parser.heapStep`: what a step of the parser does to
  the heap, where the allocator has seen all the steps before.
- Theorem {lit}`Parser.tracks_parserProgram`: the heap holds the scopes at every point of a run.
- Theorem {lit}`Parser.arena_address`: an arena, which never takes an address back, is such an
  allocator.
- Theorem {lit}`scopes_on_heap`: what this means for the operations.
-/

open Traced

namespace Cact

/-- The steps that change scopes. -/
def Event.movesScopes : Event → Bool
  | .scopeEnter | .scopeLeave | .define => true
  | _ => false

/-- A mark opens, closes and fills no scope. -/
theorem Event.movesScopes_of_isMark {e : Event} (h : e.isMark = true) :
    e.movesScopes = false := by
  cases e <;> first | rfl | cases h

namespace Parser

/-- The symbol that a step has defined. -/
def newest (st : Step Parser Event) : Option SemaSymbol := do
  let sc ← st.after.sema.scopes.head?
  let e ← sc.symbols.head?
  some e.2

/-- What a step does to the heap of scopes, with the address at hand for a new one.  A definition
must find that its name is new. -/
def effect (addr : Nat) (h : ScopeHeap) (st : Step Parser Event) : Option ScopeHeap :=
  match st.label with
  | .scopeEnter => some (h.semaScopeEnter addr)
  | .scopeLeave => h.semaScopeLeave
  | .define => do
      let sym ← newest st
      match ← h.semaDefineVar sym.name sym.ty sym.isConst with
      | (.symbol _, h') => some h'
      | _ => none
  | _ => some h

/-- The steps that the parser has taken, and the heap of scopes behind them. -/
structure Played where
  past : List (Step Parser Event)
  heap : ScopeHeap

/-- In front of the first step nothing is allocated. -/
def Played.start : Played := ⟨[], ScopeHeap.semaInit⟩

/-- A step is played on the heap; the allocator has seen all the steps before. -/
def heapStep (alloc : Allocator (Step Parser Event)) (m : Played) (st : Step Parser Event) :
    Option Played := do
  let h ← effect (alloc.pick m.past m.heap) m.heap st
  some ⟨m.past ++ [st], h⟩

/-- The heap holds the scopes of the parser. -/
def Mirrors (m : Played) (p : Parser) : Prop := m.heap.Represents p.sema

variable {alloc : Allocator (Step Parser Event)} {m : Played} {p : Parser}

/-- A step whose effect leaves the heap with the scopes behind the step is tracked. -/
theorem tracks_effect {l : Event} {f : Parser → Parser} {h : ScopeHeap} (hr : Mirrors m p)
    (heffect : effect (alloc.pick m.past m.heap) m.heap ⟨l, p, f p⟩ = some h)
    (hafter : h.Represents (f p).sema) :
    ((Prog.step l f : Parse Unit).run p).Tracks Mirrors (heapStep alloc) m := by
  have hmirrors : Mirrors ⟨m.past ++ [⟨l, p, f p⟩], h⟩ (f p) := hafter
  refine Run.tracks_step hr ?_ hmirrors
  rw [heapStep, heffect]
  rfl

/-- A step that leaves the scopes alone leaves the heap alone. -/
theorem tracks_quiet {l : Event} {f : Parser → Parser} (hl : l.movesScopes = false)
    (hscopes : ∀ p, (f p).sema.scopes = p.sema.scopes)
    (hnext : ∀ p, (f p).sema.nextSym = p.sema.nextSym) :
    Tracks Mirrors (heapStep alloc) (Prog.step l f) := by
  intro m p hr
  refine tracks_effect hr ?_ (ScopeHeap.represents_of_eq hr (hscopes p) (hnext p))
  cases l <;> first | rfl | cases hl

/-- Entering a scope does not depend on where the allocator puts it. -/
theorem tracks_semaScopeEnter : Tracks Mirrors (heapStep alloc) semaScopeEnter :=
  fun m _ hr => tracks_effect hr rfl (hr.enter (alloc.unused m.past m.heap))

/-- Leaving a scope is {lit}`sema_scope_leave` on the heap. -/
theorem tracks_semaScopeLeave : Tracks Mirrors (heapStep alloc) semaScopeLeave := by
  intro m p hr
  obtain ⟨h, hleave, hr'⟩ := ScopeHeap.Represents.leave hr
  exact tracks_effect hr hleave hr'

/-- A report leaves the heap alone. -/
theorem tracks_ctxError (tok : Option Token) (m : Msg) :
    Tracks Mirrors (heapStep alloc) (ctxError tok m) :=
  tracks_quiet rfl (fun _ => rfl) fun _ => rfl

/-- So does {lit}`parser_error_at`. -/
theorem tracks_parserErrorAt (tok : Token) (m : Msg) :
    Tracks Mirrors (heapStep alloc) (parserErrorAt tok m) := by
  refine tracks_quiet rfl (fun p => ?_) fun p => ?_ <;> unfold errorAt <;> split <;> rfl

/-- And {lit}`advance`. -/
theorem tracks_advance : Tracks Mirrors (heapStep alloc) advance := by
  have hloop : ∀ ts : Tokens, Tracks Mirrors (heapStep alloc) (advanceLoop ts) := by
    intro ts
    induction ts with
    | nil => exact tracks_quiet rfl (fun _ => rfl) fun _ => rfl
    | cons t ts ih =>
        rw [advanceLoop]
        split
        · refine Tracks.bind ?_ fun _ => ih
          exact tracks_quiet rfl (fun _ => rfl) fun _ => rfl
        · exact tracks_quiet rfl (fun _ => rfl) fun _ => rfl
  refine Tracks.bind ?_ fun _ => (tracks_read _).bind hloop
  exact tracks_quiet rfl (fun _ => rfl) fun _ => rfl

/-- The symbol that a definition adds is read back from the step. -/
theorem newest_define {l : Event} {p : Parser} {sym : SemaSymbol} (hopen : p.sema.scopes ≠ []) :
    newest ⟨l, p, { p with sema := p.sema.define sym }⟩ = some sym := by
  obtain ⟨sc, scs, hscopes⟩ := List.exists_cons_of_ne_nil hopen
  simp [newest, Sema.define, hscopes]

/-- The name is new in the scope in memory as well. -/
theorem tracks_semaDefineVar (name : Symbol) (ty : Option Ty) (isConst : Bool) :
    Tracks Mirrors (heapStep alloc) (semaDefineVar name ty isConst) := by
  intro m p hr
  unfold semaDefineVar
  rw [Prog.run_read_bind]
  by_cases hopen : p.sema.scopes = []
  · rw [if_pos (by simp [hopen])]
    exact tracks_pure none m p hr
  rw [if_neg (by simp [hopen]), Prog.run_read_bind]
  cases hnew : p.sema.declared name with
  | true => exact (tracks_ctxError none .redefinition).bind (fun _ => tracks_pure none) m p hr
  | false =>
      obtain ⟨h, hdefine, hr'⟩ := ScopeHeap.Represents.define hr hopen hnew ty isConst
      have heffect : effect (alloc.pick m.past m.heap) m.heap ⟨.define, p, { p with
          sema := p.sema.define (p.sema.newSymbol name ty isConst) }⟩ = some h := by
        rw [effect, newest_define hopen]
        simp [Sema.newSymbol, hdefine]
      rw [if_neg (by simp), Prog.run_read_bind]
      exact (tracks_effect hr heffect hr').bind fun _ q m' _ hq => tracks_pure _ m' q hq

/-- The heap holds the scopes along every piece of the parser. -/
theorem whole_onHeap : Whole fun {_} m _ => Tracks Mirrors (heapStep alloc) m := by
  have hC : Congruence fun {_} (m _ : Parse _) => Tracks Mirrors (heapStep alloc) m :=
    tracks_congruence
  have hquiet {l : Event} {f : Parser → Parser} (hl : l.movesScopes = false)
      (hsema : ∀ p, (f p).sema = p.sema) : Tracks Mirrors (heapStep alloc) (Prog.step l f) :=
    tracks_quiet hl (fun p => by rw [hsema]) fun p => by rw [hsema]
  have hmark {e : Event} (he : e.isMark = true) :
      Tracks Mirrors (heapStep alloc) (Prog.mark e) :=
    hquiet (Event.movesScopes_of_isMark he) fun _ => rfl
  exact Primitives.whole
    { hC with
      read := fun f _ => hC.read f
      advance := tracks_advance
      exprMark := fun he => hmark (by simp [Event.isMark, he])
      bodyMark := fun he => hmark (by simp [Event.isMark, he])
      paramMark := hmark rfl
      topMark := fun he => hmark (by simp [Event.isMark, he])
      parserErrorAt := tracks_parserErrorAt
      ctxError := tracks_ctxError
      newNodeField := fun {_ k k'} => congr_newNodeField hC (hquiet rfl fun _ => rfl) k k'
      keepField := fun {a b} => congr_keepField hC (hquiet rfl fun _ => rfl) a b
      define := tracks_semaDefineVar
      recover := fun {_ n n' m m' k k'} hn => congr_recover hC.reading n n' m m' k k'
        (congr_synchronize hC.reading n n' hn (hquiet rfl fun _ => rfl)
          (fun _ => hquiet rfl fun _ => rfl) tracks_advance)
      scope := fun {_ _ m m' k k'} =>
        congr_scope hC.reading m m' k k' tracks_semaScopeEnter tracks_semaScopeLeave
      semaScopeEnter := tracks_semaScopeEnter
      semaScopeLeave := tracks_semaScopeLeave
      setFuncRet := fun _ => tracks_quiet rfl (fun _ => rfl) fun _ => rfl
      typeFuncNew := fun _ => congr_typeFuncNew hC.reading
        (tracks_quiet rfl (fun _ => rfl) fun _ => rfl)
      pushParam := fun _ _ => tracks_quiet rfl (fun _ => rfl) fun _ => rfl }

/-- At every point of a run the heap holds the scopes. -/
theorem tracks_parserProgram (intern : List UInt8 → Symbol) (n : Nat) :
    Tracks Mirrors (heapStep alloc) (parserProgram intern n) :=
  whole_onHeap.parserProgram intern (le_refl n)

/-! ## What steps leave as it is -/

/-- No symbol is freed or changed. -/
theorem syms_effect {addr : Nat} {h h' : ScopeHeap} {st : Step Parser Event}
    (hstep : effect addr h st = some h') : h.syms <+: h'.syms := by
  unfold effect at hstep
  split at hstep
  · cases hstep
    exact List.prefix_refl _
  · exact ScopeHeap.syms_semaScopeLeave hstep
  · obtain ⟨sym, _, hdefine⟩ := Option.bind_eq_some_iff.mp hstep
    obtain ⟨⟨result, h₁⟩, hcall, hresult⟩ := Option.bind_eq_some_iff.mp hdefine
    have hsyms := ScopeHeap.syms_semaDefineVar hcall
    cases result <;> cases hresult
    exact hsyms
  · cases hstep
    exact List.prefix_refl _

/-- What a step has an effect on, and that the allocator has seen it from then on. -/
theorem heapStep_eq_some {m m' : Played} {st : Step Parser Event}
    (hstep : heapStep alloc m st = some m') :
    effect (alloc.pick m.past m.heap) m.heap st = some m'.heap ∧ m'.past = m.past ++ [st] := by
  obtain ⟨h, heffect, hplayed⟩ := Option.bind_eq_some_iff.mp hstep
  cases hplayed
  exact ⟨heffect, rfl⟩

/-- Along a run the symbols of the heap only get more. -/
theorem syms_foldlM {m m' : Played} {sts : List (Step Parser Event)}
    (hsteps : sts.foldlM (heapStep alloc) m = some m') : m.heap.syms <+: m'.heap.syms := by
  induction sts generalizing m with
  | nil =>
      cases hsteps
      exact List.prefix_refl _
  | cons st sts ih =>
      rw [List.foldlM_cons] at hsteps
      obtain ⟨m₁, hfirst, hrest⟩ := Option.bind_eq_some_iff.mp hsteps
      exact (syms_effect (heapStep_eq_some hfirst).1).trans (ih hrest)

/-- The allocator has seen all the steps. -/
theorem past_foldlM {m m' : Played} {sts : List (Step Parser Event)}
    (hsteps : sts.foldlM (heapStep alloc) m = some m') : m'.past = m.past ++ sts := by
  induction sts generalizing m with
  | nil =>
      cases hsteps
      exact (List.append_nil _).symm
  | cons st sts ih =>
      rw [List.foldlM_cons] at hsteps
      obtain ⟨m₁, hfirst, hrest⟩ := Option.bind_eq_some_iff.mp hsteps
      rw [ih hrest, (heapStep_eq_some hfirst).2, List.append_assoc, List.singleton_append]

/-! ## Arenas -/

/-- The addresses of an arena: where a scope was entered, no scope lies later. -/
def NeverReuses (address : List (Step Parser Event) → Nat) : Prop :=
  ∀ pre st mid, st.label = .scopeEnter → address (pre ++ st :: mid) ≠ address pre

/-- An arena moves its pointer by the size of what is allocated, and takes nothing back. -/
theorem neverReuses_sum (base : Nat) {size : Step Parser Event → Nat}
    (hsize : ∀ st, st.label = .scopeEnter → 0 < size st) :
    NeverReuses fun past => base + (past.map size).sum := by
  intro pre st mid hst
  have hpos := hsize st hst
  simp only [List.map_append, List.map_cons, List.sum_append, List.sum_cons]
  omega

/-- A record that is there behind a step was there in front of it, or it is the one of the scope
that the step has entered. -/
theorem mem_effect {addr a : Nat} {h h' : ScopeHeap} {st : Step Parser Event}
    (hstep : effect addr h st = some h') (ha : a ∈ h'.scopes) :
    a ∈ h.scopes ∨ st.label = .scopeEnter ∧ a = addr := by
  unfold effect at hstep
  split at hstep
  · rename_i hlabel
    cases hstep
    rcases (AList.mem_insert h.scopes).mp ha with heq | hold
    · exact Or.inr ⟨hlabel, heq⟩
    · exact Or.inl hold
  · exact Or.inl (ScopeHeap.mem_semaScopeLeave hstep ha)
  · obtain ⟨sym, _, hdefine⟩ := Option.bind_eq_some_iff.mp hstep
    obtain ⟨⟨result, h₁⟩, hcall, hresult⟩ := Option.bind_eq_some_iff.mp hdefine
    cases result <;> cases hresult
    exact Or.inl (ScopeHeap.mem_semaDefineVar hcall ha)
  · cases hstep
    exact Or.inl ha

section

variable {address : List (Step Parser Event) → Nat} {sts : List (Step Parser Event)}

/-- Every record is at an address that was handed out when a scope was entered. -/
def HandedOut (address : List (Step Parser Event) → Nat) (sts : List (Step Parser Event))
    (h : ScopeHeap) : Prop :=
  ∀ a ∈ h.scopes, ∃ pre st mid, sts = pre ++ st :: mid ∧ st.label = .scopeEnter ∧ a = address pre

/-- An address source that repeats nothing has its addresses taken as they come. -/
theorem HandedOut.pick (hnew : NeverReuses address) {h : ScopeHeap}
    (hout : HandedOut address sts h) :
    (Allocator.handingOut address).pick sts h = address sts := by
  refine Allocator.pick_handingOut fun hmem => ?_
  obtain ⟨pre, st, mid, rfl, hst, heq⟩ := hout _ hmem
  exact hnew pre st mid hst heq

/-- One more step keeps to the addresses handed out. -/
theorem HandedOut.effect (hnew : NeverReuses address) {h h' : ScopeHeap} {st : Step Parser Event}
    (hout : HandedOut address sts h)
    (hstep : effect ((Allocator.handingOut address).pick sts h) h st = some h') :
    HandedOut address (sts ++ [st]) h' := by
  intro a ha
  rcases mem_effect hstep ha with hbefore | ⟨hst, heq⟩
  · obtain ⟨pre, st', mid, rfl, hst', rfl⟩ := hout a hbefore
    exact ⟨pre, st', mid ++ [st], by simp, hst', rfl⟩
  · exact ⟨sts, st, [], rfl, hst, heq.trans (hout.pick hnew)⟩

/-- Along a run every scope stands at an address that was handed out before. -/
theorem handedOut_foldlM (hnew : NeverReuses address) {m : Played}
    (hsteps : sts.foldlM (heapStep (.handingOut address)) Played.start = some m) :
    HandedOut address sts m.heap := by
  induction sts using List.reverseRecOn generalizing m with
  | nil =>
      cases hsteps
      intro a ha
      exact absurd ha (by simp [Played.start, ScopeHeap.semaInit])
  | append_singleton sts st ih =>
      rw [List.foldlM_append] at hsteps
      obtain ⟨m₁, hfirst, hlast⟩ := Option.bind_eq_some_iff.mp hsteps
      rw [List.foldlM_cons] at hlast
      obtain ⟨m₂, hstep, hm₂⟩ := Option.bind_eq_some_iff.mp hlast
      cases hm₂
      have heffect := (heapStep_eq_some hstep).1
      rw [show m₁.past = sts from past_foldlM hfirst] at heffect
      exact (ih hfirst).effect hnew heffect

/-- An arena hands out its own addresses along every run: none of them is in use. -/
theorem arena_address (hnew : NeverReuses address) {m : Played}
    (hsteps : sts.foldlM (heapStep (.handingOut address)) Played.start = some m) :
    (Allocator.handingOut address).pick m.past m.heap = address sts := by
  rw [show m.past = sts from past_foldlM hsteps]
  exact (handedOut_foldlM hnew hsteps).pick hnew

end

end Parser

/-- Scopes in memory, for every parse and whatever addresses the allocator hands out, now and
after whatever has happened before.  No operation reads or frees a record that is not there.  In
front of each step, the allocated records are those of the open scopes, and a search from scope to
scope, or a definition, finds what it finds in the stack.  What a search finds stays at its
address to the end, and a parse that returns has freed all scopes. -/
theorem scopes_on_heap (alloc : Allocator (Step Parser Event)) (intern : List UInt8 → Symbol)
    (mem : Memory) (ts : TokenStream) :
    let r := Parser.parserRun intern mem ts
    ∃ last, r.steps.foldlM (Parser.heapStep alloc) Parser.Played.start = some last ∧
      (∀ globals p, r.outcome = .done globals p → ∀ a, a ∉ last.heap.scopes) ∧
      ∀ pre st post, r.steps = pre ++ st :: post →
        ∃ h, pre.foldlM (Parser.heapStep alloc) Parser.Played.start = some ⟨pre, h⟩ ∧
          h.scopes.keys.length = st.before.sema.scopes.length ∧
          (∀ name n, st.before.sema.scopes.length < n →
            h.semaLookup n name = some ((st.before.sema.lookup name).map SemaSymbol.addr)) ∧
          (∀ name sym, st.before.sema.lookup name = some sym →
            last.heap.syms[sym.addr]? = some sym.record) ∧
          ∀ name ty isConst, ∃ h', h.semaDefineVar name ty isConst =
            some (st.before.sema.defineResult name, h') := by
  intro r
  have htracks : r.Tracks Parser.Mirrors (Parser.heapStep alloc) Parser.Played.start :=
    Parser.tracks_parserProgram intern _ _ _ ScopeHeap.represents_init
  obtain ⟨last, hlast⟩ := htracks.steps.gets_through
  refine ⟨last, hlast, fun globals p hout a ha => ?_, fun pre st post hsteps => ?_⟩
  · obtain ⟨last', hlast', hr⟩ := htracks.ends p (by rw [hout]; rfl)
    rw [hlast] at hlast'
    cases hlast'
    have hempty : p.sema.scopes = [] :=
      ((Parser.meets_parserProgram intern _ rfl rfl).of_done (fun _ _ => id) hout).1
    have hkeys : last.heap.scopes.keys = [] := by
      rw [← List.length_eq_zero_iff, hr.length_keys, hempty]
      rfl
    rw [AList.mem_keys, hkeys] at ha
    cases ha
  · have hwatched := htracks.steps
    rw [hsteps] at hwatched
    obtain ⟨⟨past, h⟩, hpre, hr⟩ := hwatched.before
    obtain rfl : past = pre := Parser.past_foldlM hpre
    refine ⟨h, hpre, hr.length_keys, fun name n hn => hr.lookup name hn, fun name sym hsym => ?_,
      fun name ty isConst => hr.defineResult name ty isConst⟩
    rw [hsteps, List.foldlM_append, hpre] at hlast
    obtain ⟨more, hmore⟩ := Parser.syms_foldlM hlast
    rw [← hmore]
    exact ScopeHeap.getElem?_append_some (hr.symbol hsym)

end Cact
