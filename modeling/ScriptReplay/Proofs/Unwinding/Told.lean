/-
Returns and breaks in a trace.

What a return or a break has told of is over: the call that a return ends is in progress in
no later step, and the step after a break tells that the loop around it is left.  Here is what
states keep to while a run goes on.

* `Step.Returns`, `Step.Breaks`, `Step.Leaves` : steps that tell of returns and breaks;
* `Step.Over` : a call that has returned is not in progress;
* `Unwound` : steps in which all that is left is left at once;
* `Machine.Told` : a state whose new steps are so, perhaps up to a break that was
  told of last;
* `Machine.Returning` : a state in which a return was told of last;
* `Machine.Quiet` : what is done between two steps and two calls.

Design notes: the new steps are those behind some older ones, of which nothing is asked.  So
what is said holds of whole runs, and of single calls in states that are reached in any way.
-/
import ScriptReplay.Proofs.Brackets
import ScriptReplay.Proofs.Scoping
import ScriptReplay.Proofs.Source.Loops

namespace ScriptReplay

/-! ### Steps of returns and breaks -/

/-- The numbers of the calls in progress, innermost first. -/
def CallStack.ids (s : CallStack) : List Nat :=
  s.frames.map (·.id)

/-- The step tells of a return statement.  The end of a call is told of with the same kind, in
words of its own. -/
def Step.Returns (s : Step) : Prop :=
  s.kind = .return_ ∧ ¬ ClosesCall s.kind s.description

/-- The step tells of a break statement. -/
def Step.Breaks (s : Step) : Prop :=
  s.kind = .branch ∧ s.description = "Break statement"

/-- The step tells of a break statement of the program, and the loop is the innermost around
it in its function. -/
structure Step.Leaves (s : Step) (p : Program) (loop : Loop) : Prop where
  breaks : s.Breaks
  stands : p.Stands (some loop) (.stmt (.breakOut s.loc))

/-- The step tells that a break has left the loop. -/
structure Step.EndsLoop (s : Step) (loop : Loop) : Prop where
  kind_eq : s.kind = .loopEnd
  loc_eq : s.loc = loop.loc
  description_eq : s.description = loop.title ++ " loop exited via break"

/-- If the step tells of a return, it is one out of a call, and that call is not in progress
on the stack. -/
def Step.Over (s : Step) (stack : CallStack) : Prop :=
  s.Returns → ∃ id, s.stack.ids.head? = some id ∧ id ∉ stack.ids

/-- Steps in which calls and loops are left at once: what has returned is never in progress
again, and a loop is left in the step after the break. -/
structure Unwound (p : Program) (steps : List Step) : Prop where
  returns : steps.Pairwise fun s t => s.Over t.stack
  breaks : steps.IsChain fun s t => ∀ loop, s.Leaves p loop → t.EndsLoop loop

variable {p : Program}

theorem Unwound.nil : Unwound p [] :=
  ⟨.nil, .nil⟩

/-- One more step. -/
theorem Unwound.snoc {steps : List Step} {t : Step} (h : Unwound p steps)
    (hover : ∀ s ∈ steps, s.Over t.stack)
    (hbreak : ∀ s ∈ steps.getLast?, ∀ loop, s.Leaves p loop → t.EndsLoop loop) :
    Unwound p (steps ++ [t]) := by
  refine ⟨List.pairwise_append.2
    ⟨h.returns, List.pairwise_singleton _ _, fun s hs t' ht' => ?_⟩,
    List.isChain_append.2 ⟨h.breaks, .singleton _, fun s hs t' ht' => ?_⟩⟩
  · rw [List.mem_singleton.1 ht']
    exact hover s hs
  · obtain rfl := Option.mem_some_iff.1 ht'
    exact hbreak s hs

theorem Step.not_leaves_of_kind {s : Step} (h : s.kind ≠ .branch) {loop : Loop} :
    ¬ s.Leaves p loop :=
  fun hleaves => h hleaves.breaks.1

theorem Step.not_leaves_of_description {s : Step} (h : s.description ≠ "Break statement")
    {loop : Loop} : ¬ s.Leaves p loop :=
  fun hleaves => h hleaves.breaks.2

theorem Step.not_returns_of_kind {s : Step} (h : s.kind ≠ .return_) : ¬ s.Returns :=
  fun hreturns => h hreturns.1

/-- A call that has returned is not among fewer calls either. -/
theorem Step.Over.mono {s : Step} {stack stack' : CallStack} (h : s.Over stack)
    (hids : ∀ id ∈ stack'.ids, id ∈ stack.ids) : s.Over stack' := by
  intro hreturns
  obtain ⟨id, hid, hnot⟩ := h hreturns
  exact ⟨id, hid, fun hmem => hnot (hids id hmem)⟩

/-! ### States -/

/-- Between the states nothing was told of and no call began or ended. -/
structure Machine.Quiet (m m' : Machine) : Prop where
  trace_eq : m'.trace = m.trace
  ids_eq : m'.stack.ids = m.stack.ids
  lastId_eq : m'.stack.lastId = m.stack.lastId

/-- A state with new steps behind some older ones.  The calls that the new ones tell returns
of are over.  If a break was told of last, only a loop with `pending` is still to be left. -/
structure Machine.Told (m : Machine) (p : Program) (old new : List Step)
    (pending : Loop → Prop) : Prop where
  trace_eq : m.trace.toList = old ++ new
  unwound : Unwound p new
  past : ∀ s ∈ new, s.Over m.stack
  ids_le : ∀ id ∈ m.stack.ids, id ≤ m.stack.lastId
  seen_le : ∀ s ∈ new, ∀ id ∈ s.stack.ids, id ≤ m.stack.lastId
  leaves : ∀ s ∈ new.getLast?, ∀ loop, s.Leaves p loop → pending loop

/-- A state in which all calls and loops that were to be left are left. -/
abbrev Settled (p : Program) (old new : List Step) (m : Machine) : Prop :=
  m.Told p old new fun _ => False

/-- A state in which a return of the innermost call was told of last, and the call is still to
be left with the value. -/
structure Machine.Returning (m : Machine) (p : Program) (old new : List Step) (v : Value) :
    Prop where
  trace_eq : m.trace.toList = old ++ new
  unwound : Unwound p new
  ids_le : ∀ id ∈ m.stack.ids, id ≤ m.stack.lastId
  seen_le : ∀ s ∈ new, ∀ id ∈ s.stack.ids, id ≤ m.stack.lastId
  last : ∃ before s, new = before ++ [s] ∧
    (∀ t ∈ before, t.Over m.stack) ∧ s.kind = .return_ ∧
    s.stack.ids = m.stack.ids ∧ s.description = "Return " ++ m.heap.inspect v false

variable {old new : List Step} {m m' : Machine} {pending : Loop → Prop} {v : Value}

theorem Machine.Restored.ids_eq (h : m.Restored m') : m'.stack.ids = m.stack.ids :=
  Frame.map_eq_of_shells h.frames _ fun _ => rfl

/-! ### What is done between steps -/

namespace Machine.Quiet

theorem refl (m : Machine) : m.Quiet m :=
  ⟨rfl, rfl, rfl⟩

theorem trans {m'' : Machine} (h : m.Quiet m') (h' : m'.Quiet m'') : m.Quiet m'' :=
  ⟨h'.trace_eq.trans h.trace_eq, h'.ids_eq.trans h.ids_eq, h'.lastId_eq.trans h.lastId_eq⟩

theorem inScope (m : Machine) (kind : ScopeKind) (name : String) (chain : Chain) :
    m.Quiet (m.inScope kind name chain) :=
  ⟨rfl, rfl, rfl⟩

theorem outOfScope (m : Machine) : m.Quiet m.outOfScope := by
  obtain ⟨chain, hout⟩ := m.exists_outOfScope_eq
  rw [hout]
  exact ⟨rfl, rfl, rfl⟩

theorem changed (c : Change) (m : Machine) : m.Quiet (c.apply m) :=
  ⟨(c.kept m).2.1, (c.restored m).ids_eq, c.lastId_eq m⟩

end Machine.Quiet

namespace Machine.Told

theorem of_quiet (h : m.Told p old new pending) (hq : m.Quiet m') :
    m'.Told p old new pending := by
  refine ⟨hq.trace_eq ▸ h.trace_eq, h.unwound, fun s hs => ?_, ?_, ?_, h.leaves⟩
  · exact (h.past s hs).mono fun id hid => hq.ids_eq ▸ hid
  · rw [hq.ids_eq, hq.lastId_eq]
    exact h.ids_le
  · rw [hq.lastId_eq]
    exact h.seen_le

theorem imp {pending' : Loop → Prop} (h : m.Told p old new pending)
    (hp : ∀ loop, pending loop → pending' loop) : m.Told p old new pending' :=
  { h with leaves := fun s hs loop hleaves => hp loop (h.leaves s hs loop hleaves) }

/-- A step that tells of no return, behind a break just if it tells that the loop is left. -/
theorem recorded (h : m.Told p old new pending) {kind : StepKind} {loc : Location}
    {description : String} (hreturns : ¬ (m.step kind loc description).Returns)
    (hpending : ∀ loop, pending loop → (m.step kind loc description).EndsLoop loop) :
    (m.recorded kind loc description).Told p old (new ++ [m.step kind loc description])
      fun loop => (m.step kind loc description).Leaves p loop := by
  refine ⟨?_, ?_, fun s hs => ?_, h.ids_le, fun s hs => ?_, fun s hs loop hleaves => ?_⟩
  · rw [← List.append_assoc, ← h.trace_eq]
    exact Recorder.toList_add _ _
  · exact h.unwound.snoc h.past fun s hs loop hleaves =>
      hpending loop (h.leaves s hs loop hleaves)
  · rcases List.mem_append.1 hs with hs | hs
    · exact h.past s hs
    · rw [List.mem_singleton.1 hs]
      exact fun hreturns' => absurd hreturns' hreturns
  · rcases List.mem_append.1 hs with hs | hs
    · exact h.seen_le s hs
    · rw [List.mem_singleton.1 hs]
      exact h.ids_le
  · rw [List.getLast?_concat] at hs
    exact Option.mem_some_iff.1 hs ▸ hleaves

/-- A step of a return. -/
theorem returned (h : Settled p old new m) (loc : Location) (v : Value) :
    (m.recorded .return_ loc ("Return " ++ m.heap.inspect v false)).Returning p old
      (new ++ [m.step .return_ loc ("Return " ++ m.heap.inspect v false)]) v := by
  refine ⟨?_, ?_, h.ids_le, fun s hs => ?_, ⟨new, _, rfl, h.past, rfl, rfl, rfl⟩⟩
  · rw [← List.append_assoc, ← h.trace_eq]
    exact Recorder.toList_add _ _
  · exact h.unwound.snoc h.past fun s hs loop hleaves => (h.leaves s hs loop hleaves).elim
  · rcases List.mem_append.1 hs with hs | hs
    · exact h.seen_le s hs
    · rw [List.mem_singleton.1 hs]
      exact h.ids_le

/-- A call begins, under a number that was not used yet. -/
theorem pushed (h : m.Told p old new pending) (shown : String) (params : Table Value)
    (loc : Location) (line : Nat) (scope : ScopeId) :
    (m.pushed shown params loc line scope).Told p old new pending := by
  refine ⟨h.trace_eq, h.unwound, fun s hs hreturns => ?_, fun id hid => ?_,
    fun s hs id hid => ?_, h.leaves⟩
  · obtain ⟨id, hid, hnot⟩ := h.past s hs hreturns
    have hle := h.seen_le s hs id (List.mem_of_head? hid)
    refine ⟨id, hid, fun hmem => ?_⟩
    rcases List.mem_cons.1 hmem with hnew | hmem
    · have : id = m.stack.lastId + 1 := hnew
      omega
    · exact hnot hmem
  · rcases List.mem_cons.1 hid with rfl | hid
    · exact Nat.le_refl _
    · exact Nat.le_succ_of_le (h.ids_le id hid)
  · exact Nat.le_succ_of_le (h.seen_le s hs id hid)

theorem mem_ids_of_popped {m : Machine} {chain : Chain} {id : Nat}
    (h : id ∈ (m.popped chain).stack.ids) : id ∈ m.stack.ids := by
  have hids : (m.popped chain).stack.ids = m.stack.ids.tail := List.map_tail
  exact List.mem_of_mem_tail (hids ▸ h)

/-- A call ends without a return. -/
theorem popped (h : m.Told p old new pending) (chain : Chain) :
    (m.popped chain).Told p old new pending :=
  { h with
    past := fun s hs => (h.past s hs).mono fun _ => mem_ids_of_popped
    ids_le := fun id hid => h.ids_le id (mem_ids_of_popped hid) }

/-- A call in progress was not returned from. -/
theorem not_returned (h : m.Told p old new pending) {s : Step} (hs : s ∈ new)
    (hreturns : s.Returns) {id : Nat} (hid : s.stack.ids.head? = some id) :
    id ∉ m.stack.ids := by
  obtain ⟨id', hid', hnot⟩ := h.past s hs hreturns
  rw [hid] at hid'
  cases hid'
  exact hnot

end Machine.Told

/-- Nothing new was told of yet. -/
theorem Machine.settled_start (p : Program) (h : ∀ id ∈ m.stack.ids, id ≤ m.stack.lastId) :
    Settled p m.trace.toList [] m :=
  ⟨(List.append_nil _).symm, .nil, fun _ hs => absurd hs List.not_mem_nil, h, fun _ hs =>
    absurd hs List.not_mem_nil,
    fun _ hs => nomatch hs⟩

namespace Machine.Returning

theorem of_quiet (h : m.Returning p old new v) (hq : m.Quiet m') (hheap : m'.heap = m.heap) :
    m'.Returning p old new v := by
  obtain ⟨before, s, hnew, hover, hkind, hids, hdescription⟩ := h.last
  refine ⟨hq.trace_eq ▸ h.trace_eq, h.unwound, ?_, ?_, before, s, hnew,
    fun t ht => ?_, hkind, ?_, ?_⟩
  · rw [hq.ids_eq, hq.lastId_eq]
    exact h.ids_le
  · rw [hq.lastId_eq]
    exact h.seen_le
  · exact (hover t ht).mono fun id hid => hq.ids_eq ▸ hid
  · rw [hids, hq.ids_eq]
  · rw [hdescription, hheap]

/-- The call that was returned from ends, and with it all that was to be left. -/
theorem popped (h : m.Returning p old new v) {id : Nat} {ids : List Nat}
    (hids : m.stack.ids = id :: ids) (hid : id ∉ ids) (chain : Chain) :
    Settled p old new (m.popped chain) := by
  obtain ⟨before, s, rfl, hover, hkind, hshown, -⟩ := h.last
  have hrest : (m.popped chain).stack.ids = ids := by
    show (m.stack.frames.tail).map (·.id) = ids
    rw [List.map_tail]
    exact congrArg List.tail hids
  refine ⟨h.trace_eq, h.unwound, fun t ht => ?_, fun id' hid' => ?_, h.seen_le,
    fun t ht loop hleaves => ?_⟩
  · rcases List.mem_append.1 ht with ht | ht
    · exact (hover t ht).mono fun _ => Told.mem_ids_of_popped
    · obtain rfl := List.mem_singleton.1 ht
      refine fun _ => ⟨id, ?_, hrest ▸ hid⟩
      rw [hshown, hids]
      rfl
  · exact h.ids_le id' (Told.mem_ids_of_popped hid')
  · rw [List.getLast?_concat] at ht
    obtain rfl := Option.mem_some_iff.1 ht
    refine absurd hleaves (Step.not_leaves_of_kind ?_)
    rw [hkind]
    decide

end Machine.Returning

end ScriptReplay
