/-
No reference is ever loose.

Every reference that a run stores leads to a slot of its kind, and slots never change their
kind.  So the heap that a step keeps has all that the step refers to, and nothing else.

* `Step.Closed` : a step whose heap is closed, and just large enough;
* `Machine.Tied` : states without loose references;
* `Discipline.references` : every run keeps to it;
* `Execution.steps_closed` : the steps of a run are closed and agree on the kinds of slots.
-/
import ScriptReplay.Proofs.Stored

namespace ScriptReplay

/-! ### Closed steps -/

/-- The values that the scopes and frames of a step hold. -/
def Step.roots (s : Step) : List Value :=
  Machine.roots s.scopes s.stack

/-- A step whose heap has all slots that the step refers to, each of the right kind,
and no others. -/
structure Step.Closed (s : Step) : Prop where
  roots : ∀ v ∈ s.roots, v.RefersIn s.heap
  slots : ∀ id slot, s.heap.get? id = some slot → ∀ v ∈ slot.values, v.RefersIn s.heap
  reached : ∀ id slot, s.heap.get? id = some slot → s.heap.Reaches s.roots id

/-- A snapshot of a heap without loose references has none either. -/
theorem Value.RefersIn.snapshot {h : Heap} {roots : List Value} {v : Value}
    (hv : v.RefersIn h) (hcov : ∀ id, v.heapId? = some id → (h.snapshot roots).Covers h id) :
    v.RefersIn (h.snapshot roots) := by
  cases v with
  | array id =>
    obtain ⟨items, hs⟩ := hv
    exact ⟨items, hcov id rfl _ hs⟩
  | object id =>
    obtain ⟨properties, hs⟩ := hv
    exact ⟨properties, hcov id rfl _ hs⟩
  | _ => exact trivial

/-- The step that shows a state without loose references is closed. -/
theorem Machine.step_closed {m : Machine} (hheld : ∀ v, m.Holds v → v.RefersIn m.heap)
    (kind : StepKind) (loc : Location) (description : String) :
    (m.step kind loc description).Closed := by
  obtain ⟨hroots, hslots⟩ :=
    Heap.snapshot_covers m.heap (Machine.roots (m.scopes.snapshot m.chain) m.stack)
  refine ⟨fun v hv => ?_, fun id slot hs v hv => ?_, fun id slot hs => ?_⟩
  · exact (hheld v (Machine.holds_of_mem_roots hv)).snapshot (hroots v hv)
  · obtain ⟨hslot, -⟩ := (Heap.get?_snapshot_iff _ _ id slot).1 hs
    exact (hheld v (.slot hslot hv)).snapshot (hslots id slot hs v hv)
  · -- What is reached in the heap of the state is reached in its snapshot too.
    obtain ⟨-, hreaches⟩ := (Heap.get?_snapshot_iff _ _ id slot).1 hs
    exact hreaches.snapshot.1

/-! ### States without loose references -/

/-- Every stored reference leads to a slot of its kind, and all steps so far are closed and
have slots of the kinds that these have now. -/
structure Machine.Tied (m : Machine) : Prop where
  chain : m.chain ≠ []
  bounded : m.heap.Bounded
  held : ∀ v, m.Holds v → v.RefersIn m.heap
  steps : ∀ s ∈ m.trace.newest, s.Closed ∧ s.heap.Grown m.heap

/-- A state that holds nothing new but sound references, in a heap that has grown. -/
theorem Machine.Tied.next {m m' : Machine} (h : m.Tied) (hchain : m'.chain ≠ [])
    (hbounded : m'.heap.Bounded) (hg : m.heap.Grown m'.heap)
    (hheld : ∀ v, m'.Holds v → m.Holds v ∨ v.RefersIn m'.heap)
    (htrace : m'.trace.newest = m.trace.newest) : m'.Tied := by
  refine ⟨hchain, hbounded, fun v hv => ?_, fun s hs => ?_⟩
  · rcases hheld v hv with hv | hv
    · exact (h.held v hv).grown hg
    · exact hv
  · obtain ⟨hclosed, hsg⟩ := h.steps s (htrace ▸ hs)
    exact ⟨hclosed, hsg.trans hg⟩

theorem Machine.Tied.recorded {m : Machine} (h : m.Tied) (kind : StepKind) (loc : Location)
    (description : String) : (m.recorded kind loc description).Tied := by
  refine ⟨h.chain, h.bounded, fun v hv =>
    h.held v (hv.of_eq rfl rfl (fun _ hf => hf) rfl), ?_⟩
  intro s hs
  rcases List.mem_cons.1 hs with rfl | hs
  · refine ⟨Machine.step_closed h.held kind loc description, fun id slot hslot => ?_⟩
    exact ⟨slot, Heap.snapshot_part _ _ id slot hslot, rfl⟩
  · exact h.steps s hs

theorem Change.grown (c : Change) (m : Machine) : m.heap.Grown (c.apply m).heap := by
  cases c with
  | setArray id items => exact Heap.grown_setArray m.heap id items
  | setObject id properties => exact Heap.grown_setObject m.heap id properties
  | bind scope name value isConst =>
    obtain ⟨stack, -, happly⟩ := exists_apply_bind m scope name value isConst
    rw [happly]
    exact .refl m.heap
  | _ => exact .refl m.heap

theorem Change.bounded (c : Change) {m : Machine} (h : m.heap.Bounded) :
    (c.apply m).heap.Bounded := by
  cases c with
  | setArray id items => exact h.setArray id items
  | setObject id properties => exact h.setObject id properties
  | bind scope name value isConst =>
    obtain ⟨stack, -, happly⟩ := exists_apply_bind m scope name value isConst
    rw [happly]
    exact h
  | _ => exact h

theorem Machine.Tied.changed {m : Machine} (h : m.Tied) (c : Change)
    (hv : ∀ v ∈ c.values, v.RefersIn m.heap) : (c.apply m).Tied := by
  obtain ⟨hchain, htrace, -⟩ := c.kept m
  refine h.next (hchain ▸ h.chain) (c.bounded h.bounded) (c.grown m)
    (fun v hold => ?_) (by rw [htrace])
  rcases hold.of_apply with hold | hnew
  · exact .inl hold
  · exact .inr ((hv v hnew).grown (c.grown m))

theorem Machine.Tied.allocated {m : Machine} (h : m.Tied) {s : Slot}
    (hv : ∀ v ∈ s.values, v.RefersIn m.heap) : (m.allocated s).Tied := by
  have hg : m.heap.Grown (m.allocated s).heap := Heap.grown_alloc h.bounded s
  refine h.next h.chain (h.bounded.alloc s) hg (fun v hold => ?_) rfl
  rcases hold.of_allocated with hold | hnew
  · exact .inl hold
  · exact .inr ((hv v hnew).grown hg)

theorem Machine.Tied.inScope {m : Machine} (h : m.Tied) (kind : ScopeKind) (name : String)
    (chain : Chain) : (m.inScope kind name chain).Tied :=
  h.next (List.cons_ne_nil _ _) h.bounded (.refl m.heap)
    (fun _ hold => .inl hold.of_inScope) rfl

/-- References are never loose. -/
def Discipline.references : Discipline .all where
  inv _ m := m.Tied
  bare _ m := m.Tied
  later m m' := m.heap.Grown m'.heap
  sound m v := v.RefersIn m.heap
  later_refl m := .refl m.heap
  later_trans := .trans
  later_frames m _ _ := .refl m.heap
  sound_later hl hv := hv.grown hl
  sound_plain hv := .of_isPlain hv
  sound_legal _ := Stock.everything.legal trivial
  sound_held h hv := h.held _ hv
  sound_function _ _ _ := trivial
  chain_ne_nil h := h.chain
  recorded description h _ _ _ := ⟨h.recorded _ _ description, .refl _⟩
  changed c h hv _ := ⟨h.changed c hv, c.grown _⟩
  allocated h hv _ :=
    ⟨h.allocated hv, Heap.grown_alloc h.bounded _,
      Slot.refersIn_reference ((Heap.get?_alloc _ _ _).trans (if_pos rfl))⟩
  opened name h := ⟨h.inScope .block name _, .refl _⟩
  entered shown h _ := ⟨h.inScope .function shown _, .refl _⟩
  bare_iff _ := Iff.rfl
  bare_declared name h _ hv :=
    ⟨h.changed (.declare _ name _) fun _ hmem =>
      List.mem_singleton.1 hmem ▸ hv, Change.grown _ _⟩
  pushed _ _ _ _ _ h _ _ hp _ := by
    refine h.next h.chain h.bounded (.refl _) (fun v hold => ?_) rfl
    exact hold.of_pushed.imp id fun hv => hp v hv
  back h h' _ hstack _ :=
    h'.next h.chain h'.bounded (.refl _) (fun _ hold => .inl (hold.of_back hstack)) rfl

/-! ### Runs -/

theorem Machine.tied_initial (L : RunLimits) : (Machine.initial L).Tied :=
  ⟨List.cons_ne_nil _ _, Heap.bounded_empty, fun _ hv =>
    (Machine.Holds.not_initial L hv).elim,
    fun _ hs => (List.not_mem_nil hs).elim⟩

/-- The heap of every step of a run has just the slots that the step refers to, each of the
kind of the reference, and all steps agree on the kinds of slots. -/
theorem Execution.steps_closed {L : RunLimits} {fuel : Nat} {p : Program} {e : Execution}
    (he : Execution.ofProgram? L fuel p = some e) :
    (∀ s ∈ e.steps, s.Closed) ∧
    ∀ s ∈ e.steps, ∀ s' ∈ e.steps, ∀ id slot slot', s.heap.get? id = some slot →
      s'.heap.get? id = some slot' → slot.isArray = slot'.isArray := by
  have hend := Discipline.references.inv_runFrom
    (fun _ _ => trivial) (Machine.tied_initial L) fuel (p := p)
  obtain ⟨m, hsteps, hm⟩ := Execution.exists_machine he
  have htied : m.Tied := by
    rcases hm with rfl | ⟨loc, description, rfl⟩
    · exact hend
    · exact Machine.Tied.recorded hend .error loc description
  have hmem : ∀ s ∈ e.steps, s ∈ m.trace.newest := by
    intro s hs
    rw [hsteps] at hs
    exact List.mem_reverse.1 hs
  refine ⟨fun s hs => (htied.steps s (hmem s hs)).1,
    fun s hs s' hs' id slot slot' hslot hslot' => ?_⟩
  -- Both slots have the kind that the slot has in the end.
  obtain ⟨last, hlast, hkind⟩ := (htied.steps s (hmem s hs)).2 id slot hslot
  obtain ⟨last', hlast', hkind'⟩ := (htied.steps s' (hmem s' hs')).2 id slot' hslot'
  rw [hlast] at hlast'
  cases hlast'
  exact hkind.symm.trans hkind'

/-- An array that is put into itself. -/
def knot : Program :=
  ⟨[.declare .letK [⟨"a", some (.array [] default), default⟩] default,
    .expr (.call (.member (.ident "a" default) (.named "push") default)
      [.ident "a" default] default) default],
    default⟩

theorem knot_steps_closed :
    ∃ e, Execution.ofProgram? {} 6 knot = some e ∧ e.steps.length = 3 ∧
    ∀ s ∈ e.steps, s.Closed := by
  have hrun : (Execution.ofProgram? {} 6 knot).any (·.steps.length = 3) = true := by
    decide +kernel
  obtain ⟨e, he, hlength⟩ := (Option.any_eq_true _ _).1 hrun
  exact ⟨e, he, of_decide_eq_true hlength, (Execution.steps_closed he).1⟩

end ScriptReplay
