/-
How long arrays become.

Every rule that makes an array longer asks for the ceiling first, and the other rules make no
array that is longer than one that is there already.  What no rule asks about is the length
of a literal, and how much a value has of its own where that is made an array.  In programs
without too long literals and without such lists no step shows an array beyond the ceiling.

* `Heap.Fits`, `Machine.Capped` : the arrays of a heap, of a state and of all its steps fit;
* `Discipline.capping` : every run keeps to it;
* `Program.cappedRegion` : the nodes of a program in which arrays fit below a ceiling;
* `Execution.arrays_le_ceiling` : no step of a run shows an array beyond the ceiling.
-/
import Mathlib.Data.List.Basic
import ScriptReplay.Proofs.Stored

namespace ScriptReplay

variable {N : Region} {L : RunLimits} {m : Machine}

/-! ### Heaps with arrays that fit -/

/-- Every slot of the heap fits. -/
def Heap.Fits (N : Region) (h : Heap) : Prop :=
  ∀ id s, h.get? id = some s → s.Fits N

theorem Heap.fits_empty (N : Region) : Heap.empty.Fits N := by
  intro id s hs
  rw [Heap.empty, Heap.get?_empty] at hs
  cases hs

theorem Heap.Fits.alloc {h : Heap} (hf : h.Fits N) {s : Slot} (hs : s.Fits N) :
    (h.alloc s).2.Fits N := by
  intro id t ht
  rw [Heap.get?_alloc] at ht
  split at ht
  · cases ht
    exact hs
  · exact hf id t ht

theorem Heap.Fits.snapshot {h : Heap} (hf : h.Fits N) (roots : List Value) :
    (h.snapshot roots).Fits N :=
  fun id s hs => hf id s (Heap.snapshot_part h roots id s hs)

/-- What is read as an array is one that fits, or empty. -/
theorem Heap.Fits.elements {h : Heap} (hf : h.Fits N) (hzero : N.fits 0) (id : HeapId) :
    N.fits (h.elements id).size := by
  unfold Heap.elements
  cases ha : h.array? id with
  | none => exact hzero
  | some items => exact hf id _ (Heap.get?_of_array? ha)

theorem Change.heapFits {c : Change} (hc : c.Fits N) (hf : m.heap.Fits N) :
    (c.apply m).heap.Fits N := by
  cases c with
  | setArray id items =>
    intro id' s hs
    rcases Heap.get?_setArray hs with hs | ⟨rfl, -⟩
    · exact hf id' s hs
    · exact hc
  | setObject id properties =>
    intro id' s hs
    rcases Heap.get?_setObject hs with hs | ⟨rfl, -⟩
    · exact hf id' s hs
    · exact trivial
  | bind scope name value isConst =>
    obtain ⟨stack, -, happly⟩ := exists_apply_bind m scope name value isConst
    rw [happly]
    exact hf
  | _ => exact hf

/-! ### Runs in which arrays fit -/

/-- All arrays fit, in the state and in the steps so far, no text is too long, and no function
is at hand that could make others. -/
structure Machine.Capped (N : Region) (L : RunLimits) (m : Machine) : Prop where
  chain : m.chain ≠ []
  ceiling : N.Allows L
  legal : ∀ v, m.Holds v → v.Legal N
  heap : m.heap.Fits N
  steps : ∀ s ∈ m.trace.newest, s.heap.Fits N
  shown : ∀ s ∈ m.trace.newest, ∀ v, s.Holds v → v.Legal N

namespace Machine.Capped

theorem next {m' : Machine} (h : m.Capped N L) (hchain : m'.chain ≠ [])
    (hheld : ∀ v, m'.Holds v → m.Holds v ∨ v.Legal N) (hheap : m'.heap.Fits N)
    (htrace : m'.trace = m.trace) : m'.Capped N L := by
  refine ⟨hchain, h.ceiling, fun v hv => ?_, hheap, fun s hs => h.steps s (htrace ▸ hs),
    fun s hs => h.shown s (htrace ▸ hs)⟩
  rcases hheld v hv with hv | hv
  · exact h.legal v hv
  · exact hv

theorem recorded (h : m.Capped N L) (kind : StepKind) (loc : Location)
    (description : String) : (m.recorded kind loc description).Capped N L := by
  refine ⟨h.chain, h.ceiling, fun v hv =>
    h.legal v (hv.of_eq rfl rfl (fun _ hf => hf) rfl), h.heap, fun s hs => ?_,
    fun s hs v hv => ?_⟩
  · rcases List.mem_cons.1 hs with rfl | hs
    · exact h.heap.snapshot _
    · exact h.steps s hs
  · rcases List.mem_cons.1 hs with rfl | hs
    · exact h.legal v (Machine.holds_of_step hv)
    · exact h.shown s hs v hv

theorem changed (h : m.Capped N L) {c : Change} (hv : ∀ v ∈ c.values, v.Legal N)
    (hheap : (c.apply m).heap.Fits N) : (c.apply m).Capped N L := by
  obtain ⟨hchain, htrace, -⟩ := c.kept m
  exact h.next (hchain ▸ h.chain) (fun v hold => hold.of_apply.imp id (hv v)) hheap htrace

theorem inScope (h : m.Capped N L) (kind : ScopeKind) (name : String) (chain : Chain) :
    (m.inScope kind name chain).Capped N L :=
  h.next (List.cons_ne_nil _ _) (fun _ hold => .inl hold.of_inScope) h.heap rfl

end Machine.Capped

/-- Arrays fit. -/
def Discipline.capping (N : Region) : Discipline N where
  inv L m := m.Capped N L
  bare L m := m.Capped N L
  later _ _ := True
  sound _ v := v.Legal N
  later_refl _ := trivial
  later_trans _ _ := trivial
  later_frames _ _ _ := trivial
  sound_later _ hv := hv
  sound_plain hv := .of_isPlain hv
  sound_legal hv := hv
  sound_held h hv := h.legal _ hv
  sound_function _ hr hname := ⟨hr, hname⟩
  chain_ne_nil h := h.chain
  sized h := h.heap.elements (N.fits_le (Nat.zero_le _) h.ceiling.fits)
  ceiling h := h.ceiling
  recorded description h _ _ _ := ⟨h.recorded _ _ description, trivial⟩
  changed _ h hv hc := ⟨h.changed hv (Change.heapFits hc h.heap), trivial⟩
  allocated {_ m s} h hv hs := by
    refine ⟨h.next h.chain (fun v hold => hold.of_allocated.imp id (hv v))
      (h.heap.alloc hs) rfl, trivial, ?_⟩
    cases s with
    | _ => exact trivial
  opened name h := ⟨h.inScope .block name _, trivial⟩
  entered shown h _ := ⟨h.inScope .function shown _, trivial⟩
  bare_iff _ := Iff.rfl
  bare_declared name h _ hv := by
    refine ⟨h.changed (c := .declare _ name _) (fun u hu => ?_) h.heap, trivial⟩
    rw [List.mem_singleton.1 hu]
    exact hv
  pushed _ _ _ _ _ h _ _ hp _ :=
    h.next h.chain (fun v hold => hold.of_pushed.imp id (hp v)) h.heap rfl
  back h h' _ hstack _ :=
    h'.next h.chain (fun _ hold => .inl (hold.of_back hstack)) h'.heap rfl

theorem Machine.capped_initial (hceiling : N.Allows L) : (Machine.initial L).Capped N L := by
  refine ⟨List.cons_ne_nil _ _, hceiling, fun v hv => ?_, Heap.fits_empty N,
    fun s hs => ?_, fun s hs => ?_⟩
  · exact (Machine.Holds.not_initial L hv).elim
  · exact (List.not_mem_nil hs).elim
  · exact (List.not_mem_nil hs).elim

/-- The steps that a run leaves behind are those of a capped state. -/
theorem Execution.exists_capped {p : Program} (hp : ∀ s ∈ p.body, N.has (.stmt s))
    (hL : N.Allows L) {fuel : Nat} {e : Execution}
    (he : Execution.ofProgram? L fuel p = some e) :
    ∃ m : Machine, m.Capped N L ∧ e.steps = m.trace.toList := by
  have hend := (Discipline.capping N).inv_runFrom hp (Machine.capped_initial hL) fuel
  obtain ⟨m, hsteps, hm⟩ := Execution.exists_machine he
  refine ⟨m, ?_, hsteps⟩
  -- A failure is told in a step of its own, which shows the state in which the run ended.
  rcases hm with rfl | ⟨loc, description, rfl⟩
  · exact hend
  · exact hend.recorded .error loc description

/-! ### Programs -/

/-- A member of the language that makes an array of all that a value has of its own. -/
def Expr.isEntriesMember (e : Expr) : Bool :=
  [("Object", "keys"), ("Object", "values"), ("Object", "entries")].any
    (e.staticMember? == some ·)

/-- No other two names make up the names of these members. -/
theorem Expr.isEntriesMember_of_listsEntries {e : Expr} {owner member : String}
    (hs : e.staticMember? = some (owner, member))
    (h : listsEntries (owner ++ "." ++ member) = true) : e.isEntriesMember = true := by
  have hsplit : ∀ name : String, '.' ∉ name.toList →
      owner ++ "." ++ member = "Object" ++ "." ++ name →
      owner = "Object" ∧ member = name := by
    intro name hdot heq
    have hlist := congrArg String.toList heq
    simp only [String.toList_append, List.append_assoc] at hlist
    obtain ⟨howner, -, hmember⟩ :=
      (List.append_cons_inj_of_notMem (by decide) hdot).1 hlist.symm
    exact ⟨(String.toList_inj.1 howner).symm, (String.toList_inj.1 hmember).symm⟩
  have hname : owner ++ "." ++ member ∈ ["Object.keys", "Object.values", "Object.entries"] :=
    List.contains_iff_mem.1 h
  unfold isEntriesMember
  rw [hs]
  simp only [List.mem_cons, List.not_mem_nil, or_false] at hname
  rcases hname with hname | hname | hname
  · obtain ⟨rfl, rfl⟩ := hsplit "keys" (by decide) hname
    rfl
  · obtain ⟨rfl, rfl⟩ := hsplit "values" (by decide) hname
    rfl
  · obtain ⟨rfl, rfl⟩ := hsplit "entries" (by decide) hname
    rfl

/-- The nodes of a program in which arrays fit below a ceiling. -/
def Program.cappedRegion (p : Program) (ceiling : Nat)
    (hliteral : ∀ items loc, p.region.has (.expr (.array items loc)) → items.length ≤ ceiling)
    (hlists : ∀ e, p.region.has (.expr e) → e.isEntriesMember = false) : Region where
  has := p.region.has
  part := Program.region_part
  fits length := length ≤ ceiling
  fits_le := Nat.le_trans
  literal := hliteral _ _
  lists he hs h := by
    have hfalse := hlists _ he
    rw [Expr.isEntriesMember_of_listsEntries hs h] at hfalse
    cases hfalse

/-- No step of a run shows an array beyond the ceiling, if no literal of the program is longer
than that and the program makes no array of all that a value has of its own. -/
theorem Execution.arrays_le_ceiling {L : RunLimits} {p : Program}
    (hliteral : ∀ items loc, p.region.has (.expr (.array items loc)) →
      items.length ≤ L.maxArrayLength)
    (hlists : ∀ e, p.region.has (.expr e) → e.isEntriesMember = false) {fuel : Nat}
    {e : Execution} (he : Execution.ofProgram? L fuel p = some e) {s : Step}
    (hs : s ∈ e.steps) {id : HeapId} {items : Array Value}
    (hslot : s.heap.get? id = some (.array items)) : items.size ≤ L.maxArrayLength := by
  obtain ⟨m, hcapped, hsteps⟩ :=
    Execution.exists_capped (N := p.cappedRegion L.maxArrayLength hliteral hlists)
    (fun _ hs => Program.region_stmt hs) ⟨Nat.le_refl _, trivial⟩ he
  rw [hsteps] at hs
  exact hcapped.steps s (List.mem_reverse.1 hs) id _ hslot

/-- No literal of more elements than the ceiling. -/
def Node.literalsFit (ceiling : Nat) : Node → Bool
  | .expr (.array items _) => items.length ≤ ceiling
  | _ => true

/-- No list of all that a value has of its own. -/
def Node.listsNothing : Node → Bool
  | .expr e => !e.isEntriesMember
  | _ => true

/-- An array to which elements are added without end. -/
def filling : Program :=
  ⟨[.declare .const [⟨"a", some (.array [] default), default⟩] default,
    .whileLoop (.bool true default)
      (.expr (.call (.member (.ident "a" default) (.named "push") default) [.null default]
        default) default) default], default⟩

theorem filling_arrays_le_ceiling :
    ∃ e, Execution.ofProgram? ⟨99, 1, 9, 2, 9⟩ 9 filling = some e ∧
    (∃ s ∈ e.steps, s.kind = .error) ∧
      ((runFrom ⟨99, 1, 9, 2, 9⟩ 9 filling).2.heap.elements 1).size = 2 ∧
    ∀ s ∈ e.steps, ∀ id items, s.heap.get? id = some (.array items) → items.size ≤ 2 := by
  have hrun : (Execution.ofProgram? ⟨99, 1, 9, 2, 9⟩ 9 filling).any
      (·.steps.any (·.kind == .error)) = true := by
    decide +kernel
  obtain ⟨e, he, hany⟩ := (Option.any_eq_true _ _).1 hrun
  obtain ⟨s, hs, herror⟩ := List.any_eq_true.1 hany
  refine ⟨e, he, ⟨s, hs, beq_iff_eq.1 herror⟩, by decide +kernel,
    fun s hs id items hslot => ?_⟩
  refine Execution.arrays_le_ceiling (fun items loc hn => ?_) (fun e hn => ?_) he hs hslot
  · exact of_decide_eq_true
      (filling.region_passes (Node.literalsFit 2) 9 (by decide +kernel) hn)
  · exact Bool.not_eq_eq_eq_not.1
      (filling.region_passes Node.listsNothing 9 (by decide +kernel) hn)

end ScriptReplay
