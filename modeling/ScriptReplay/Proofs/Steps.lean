/-
The shape of a trace.

Steps are numbered from one and stay below the ceiling.  Only the last one can tell of a
failure, and it does so whenever there is room for any step at all.  What was printed only
grows from step to step, and the last step shows all of it.

* `Machine.Orderly` : a trace in order, with no step that tells of a failure yet;
* `Discipline.numbering` : every run keeps to it;
* `Machine.Synced` : the last step shows all that was printed;
* `synced_of_acts` : it still does after every computation that ends with an answer;
* `Execution.steps_shape` : the shape of the trace that a run leaves behind.

Design notes: a line is printed before the step that tells of it, so between the two the last
step does not show all that was printed.  That is why `Synced` is no discipline: it holds
after answers, and a run that fails there is told of by a step of its own.
-/
import Mathlib.Data.List.Chain
import ScriptReplay.Proofs.Discipline

namespace ScriptReplay

/-! ### Traces in order -/

/-- A state whose trace is in order.  The last place below the ceiling is free, unless there
are no places. -/
structure Machine.Orderly (m : Machine) (L : RunLimits) : Prop where
  chain : m.chain ≠ []
  max_eq : m.trace.max = L.maxSteps
  room : m.trace.count = 0 ∨ m.trace.count < m.trace.max
  ids : ∀ k s, m.trace.toList[k]? = some s → s.id = k + 1
  kinds : ∀ s ∈ m.trace.toList, s.kind ≠ .error
  lines : (m.console :: m.trace.newest.map (·.console)).IsChain fun c c' =>
    c'.newest <:+ c.newest

theorem Machine.orderly_initial (L : RunLimits) : (Machine.initial L).Orderly L := by
  refine ⟨List.cons_ne_nil _ _, rfl, .inl rfl, fun k s h => ?_, fun s hs => ?_, .singleton _⟩
  · cases h
  · cases hs

theorem Recorder.toList_add (r : Recorder) (s : Step) : (r.add s).toList = r.toList ++ [s] :=
  List.reverse_cons

theorem Recorder.length_toList (r : Recorder) : r.toList.length = r.count := by
  rw [r.count_eq]
  exact List.length_reverse

/-- Numbers go on with a step that shows the state. -/
theorem Machine.Orderly.ids_recorded {m : Machine} {L : RunLimits} (h : m.Orderly L)
    (kind : StepKind) (loc : Location) (description : String) :
    ∀ k s, (m.recorded kind loc description).trace.toList[k]? = some s → s.id = k + 1 := by
  intro k s hs
  have hlist : (m.recorded kind loc description).trace.toList = m.trace.toList ++
      [m.step kind loc description] :=
    Recorder.toList_add _ _
  rw [hlist] at hs
  by_cases hk : k < m.trace.toList.length
  · rw [List.getElem?_append_left hk] at hs
    exact h.ids k s hs
  · obtain ⟨hlt, rfl⟩ := List.getElem?_eq_some_iff.1 hs
    have hlast : k = m.trace.count := by
      rw [List.length_append, List.length_singleton] at hlt
      have hlen := m.trace.length_toList
      omega
    subst hlast
    rw [List.getElem_append_right (Nat.le_of_eq m.trace.length_toList)]
    simp [Machine.step, Recorder.nextId]

/-- Lines go on with a step that shows the state. -/
theorem Machine.Orderly.lines_recorded {m : Machine} {L : RunLimits} (h : m.Orderly L)
    (kind : StepKind) (loc : Location) (description : String) :
    (m.console :: (m.recorded kind loc description).trace.newest.map (·.console)).IsChain
      fun c c' => c'.newest <:+ c.newest :=
  List.isChain_cons_cons.2 ⟨List.suffix_rfl, h.lines⟩

theorem Machine.Orderly.recorded {m : Machine} {L : RunLimits} (h : m.Orderly L)
    {kind : StepKind} (hk : kind ≠ .error) (hroom : m.trace.hasRoom = true) (loc : Location)
    (description : String) : (m.recorded kind loc description).Orderly L := by
  refine ⟨h.chain, h.max_eq, .inr (of_decide_eq_true hroom),
    h.ids_recorded kind loc description, fun s hs => ?_,
    h.lines_recorded kind loc description⟩
  have hlist : (m.recorded kind loc description).trace.toList = m.trace.toList ++
      [m.step kind loc description] :=
    Recorder.toList_add _ _
  rw [hlist] at hs
  rcases List.mem_append.1 hs with hs | hs
  · exact h.kinds s hs
  · rw [List.mem_singleton.1 hs]
    exact hk

/-- A state with the same trace, in which no line is lost. -/
theorem Machine.Orderly.next {m m' : Machine} {L : RunLimits} (h : m.Orderly L)
    (hchain : m'.chain ≠ []) (htrace : m'.trace = m.trace)
    (hlines : m.console.newest <:+ m'.console.newest) : m'.Orderly L := by
  obtain ⟨-, hmax, hroom, hids, hkinds, hold⟩ := h
  rw [← htrace] at hmax hroom hids hkinds hold
  refine ⟨hchain, hmax, hroom, hids, hkinds, ?_⟩
  cases hsteps : m'.trace.newest with
  | nil => exact .singleton _
  | cons s rest =>
    rw [hsteps] at hold
    obtain ⟨hfirst, hrest⟩ := List.isChain_cons_cons.1 hold
    exact List.isChain_cons_cons.2 ⟨hfirst.trans hlines, hrest⟩

theorem Change.orderly (c : Change) {m : Machine} {L : RunLimits} (h : m.Orderly L) :
    (c.apply m).Orderly L := by
  obtain ⟨hchain, htrace, hlines⟩ := c.kept m
  exact h.next (hchain ▸ h.chain) htrace hlines

/-- Traces are in order. -/
def Discipline.numbering : Discipline .all where
  inv L m := m.Orderly L
  bare L m := m.Orderly L
  later _ _ := True
  sound _ _ := True
  later_refl _ := trivial
  later_trans _ _ := trivial
  later_frames _ _ _ := trivial
  sound_later _ _ := trivial
  sound_plain _ := trivial
  sound_legal _ := Stock.everything.legal trivial
  sound_held _ _ := trivial
  sound_function _ _ _ := trivial
  chain_ne_nil h := h.chain
  recorded description h hk _ hroom := ⟨h.recorded hk hroom _ description, trivial⟩
  changed c h _ _ := ⟨c.orderly h, trivial⟩
  allocated h _ _ := ⟨h.next h.chain rfl List.suffix_rfl, trivial, trivial⟩
  opened _ h := ⟨h.next (List.cons_ne_nil _ _) rfl List.suffix_rfl, trivial⟩
  entered _ h _ := ⟨h.next (List.cons_ne_nil _ _) rfl List.suffix_rfl, trivial⟩
  bare_iff _ := Iff.rfl
  bare_declared name h _ _ := ⟨Change.orderly (.declare _ name _) h, trivial⟩
  pushed _ _ _ _ _ h _ _ _ _ := h.next h.chain rfl List.suffix_rfl
  back h h' _ _ _ := h'.next h.chain rfl List.suffix_rfl

theorem orderly_runFrom (L : RunLimits) (fuel : Nat) (p : Program) :
    (runFrom L fuel p).2.Orderly L :=
  Discipline.numbering.inv_runFrom (fun _ _ => trivial) (Machine.orderly_initial L) fuel

/-! ### Steps that show all that was printed -/

/-- The last step, if there is one, shows all that was printed. -/
def Machine.Synced (m : Machine) : Prop :=
  ∀ s, m.trace.newest.head? = some s → s.console = m.console

theorem Machine.synced_recorded (m : Machine) (kind : StepKind) (loc : Location)
    (description : String) : (m.recorded kind loc description).Synced := by
  intro s hs
  cases hs
  rfl

theorem Change.synced {c : Change} (hc : c.Silent) {m : Machine} (h : m.Synced) :
    (c.apply m).Synced := by
  cases c with
  | print line => exact hc.elim
  | bind scope name value isConst =>
    obtain ⟨stack, -, happly⟩ := exists_apply_bind m scope name value isConst
    rw [happly]
    exact h
  | _ => exact h

theorem Run.synced_record {L : RunLimits} {m m' : Machine} {kind : StepKind} {loc : Location}
    {description : String} {a : Unit}
    (h : (record kind loc description).outcome L m = (.ok a, m')) : m'.Synced := by
  rw [outcome_record] at h
  split at h
  · cases h
    exact m.synced_recorded kind loc description
  · cases h

theorem Run.synced_tell {L : RunLimits} {m m' : Machine} {recorded : Bool} {kind : StepKind}
    {loc : Location} {words : Heap → String} {a : Unit} (hm : m.Synced)
    (h : (tell recorded kind loc words).outcome L m = (.ok a, m')) : m'.Synced := by
  rw [outcome_tell] at h
  split at h
  · exact synced_record h
  · cases h
    exact hm

/-- A computation made of actions leaves the last step in step with the console if it ends
with an answer. -/
theorem synced_of_acts {G : Gap} {K : Stock .all} {α : Type} [Carries α] {x y : Run α}
    (h : Acts G K x y) {L : RunLimits} {m m' : Machine} {a : α} (hm : m.Synced)
    (ho : x.outcome L m = (.ok a, m')) : m'.Synced := by
  have hall : ∀ {β : Type} [Carries β] (b : β), Carries.within Stock.everything.has b :=
    fun b => Carries.all (fun _ => trivial) b
  induction h generalizing m m' with
  | pure _ =>
    cases ho
    exact hm
  | bind _ _ ihx ihf =>
    rw [Run.outcome_bind] at ho
    obtain ⟨b, m₁, hx, hf⟩ := Run.follow_eq_ok ho
    exact ihf b Stock.everything (fun _ _ => trivial) (hall b) (ihx hm hx) hf
  | look _ ih =>
    rw [Run.outcome_get_bind] at ho
    exact ih m m Stock.everything (.refl m) (fun _ _ => trivial)
      (fun _ _ => trivial) (fun _ => trivial) hm ho
  | ceilings _ ih =>
    rw [Run.outcome_read_bind] at ho
    exact ih L L (Gap.between_self _ L) ⟨trivial, trivial⟩ ⟨trivial, trivial⟩ hm ho
  | fail _ => cases ho
  | stopAtCeiling _ _ _ _ _ => cases ho
  | noFuel _ => cases ho
  | stopWithoutFuel _ _ _ => cases ho
  | record _ _ => exact Run.synced_record ho
  | say _ _ =>
    -- The line is printed first; what counts is that the step comes after it.
    unfold say at ho
    rw [Run.outcome_bind_ok (Run.outcome_modify _ _ _)] at ho
    exact Run.synced_record ho
  | change c _ hs _ =>
    cases ho
    exact Change.synced hs hm
  | newSlot _ _ =>
    cases ho
    exact hm
  | makeFunction _ _ =>
    cases ho
    exact hm
  | block _ ih =>
    rw [Run.outcome_inLoopScope] at ho
    obtain ⟨c, m₁, hx, hout⟩ := Run.follow_eq_ok ho
    have h₁ : m₁.Synced := ih (m := m.inScope .block _ m.chain) hm hx
    cases hout
    obtain ⟨chain, hout⟩ := m₁.exists_outOfScope_eq
    rw [hout]
    exact h₁
  | call _ _ _ _ _ _ ihbind ihbody =>
    rw [Run.outcome_toldCall] at ho
    split at ho
    · cases ho
    obtain ⟨params, m₁, hbind, ho⟩ := Run.follow_eq_ok ho
    obtain ⟨_, m₂, hbegin, ho⟩ := Run.follow_eq_ok ho
    obtain ⟨v, m₃, hbody, ho⟩ := Run.follow_eq_ok ho
    obtain ⟨_, m₄, hend, ho⟩ := Run.follow_eq_ok ho
    have h₁ : m₁.Synced :=
      ihbind Region.all_fallbacks _ (m := m.inScope .function _ _) hm hbind
    have h₂ : m₂.Synced := Run.synced_tell (m := m₁.pushed _ _ _ _ _) h₁ hbegin
    have h₃ : m₃.Synced := ihbody h₂ hbody
    cases ho
    exact Run.synced_tell (m := m₃.popped _) h₃ hend

theorem synced_runFrom {L : RunLimits} {fuel : Nat} {p : Program} {a : Unit} {m : Machine}
    (h : runFrom L fuel p = (.ok a, m)) : m.Synced := by
  have hacts : Acts .none Stock.everything (runProgram fuel p) (runProgram fuel p) :=
    runProgram_acts (S := Region.all.ground)
      (fun _ _ => trivial) (walker_acts_self (G := .none) trivial fuel)
  refine synced_of_acts hacts (fun s hs => ?_) h
  cases hs

/-! ### What a run leaves behind -/

/-- A run that fails is told of by a last step, unless there is no place for any. -/
theorem Machine.Orderly.steps_recordFailure {m : Machine} {L : RunLimits} (h : m.Orderly L)
    (f : Failure) (whole : Location) :
    (1 ≤ L.maxSteps ∧ m.trace.count < L.maxSteps ∧
      (m.recordFailure f whole).trace.toList = m.trace.toList ++ [m.failureStep f whole]) ∨
    (L.maxSteps = 0 ∧ (m.recordFailure f whole).trace.toList = []) := by
  have hmax := h.max_eq
  by_cases hroom : m.trace.count < m.trace.max
  · refine .inl ⟨by omega, by omega, ?_⟩
    unfold Machine.recordFailure Recorder.pushTerminal
    rw [if_pos hroom]
    exact Recorder.toList_add _ _
  · have hzero : m.trace.count = 0 := h.room.resolve_right hroom
    refine .inr ⟨by omega, ?_⟩
    unfold Machine.recordFailure Recorder.pushTerminal
    rw [if_neg hroom]
    exact List.length_eq_zero_iff.1 (m.trace.length_toList.trans hzero)

/-- The lines that steps show, in the order of the steps. -/
theorem isChain_lines {steps : List Step}
    (h : (steps.map (·.console)).IsChain fun c c' => c'.newest <:+ c.newest) :
    steps.reverse.IsChain fun s t => s.console.lines <+: t.console.lines := by
  rw [List.isChain_reverse]
  exact ((List.isChain_map _).1 h).imp fun _ _ hlines => List.reverse_prefix.2 hlines

/-- The shape of a trace below a ceiling.  Only the last step can tell of a failure; one does
just if the run failed and there is room for a step.  Each step shows what was printed up to
it, and the last one shows all. -/
structure Execution.Shape (e : Execution) (max : Nat) (failed : Prop) : Prop where
  length_le : e.steps.length ≤ max
  ids : ∀ k s, e.steps[k]? = some s → s.id = k + 1
  error_last : ∀ s ∈ e.steps.dropLast, s.kind ≠ .error
  error_iff : (∃ s ∈ e.steps, s.kind = .error) ↔ failed ∧ 1 ≤ max
  lines : e.steps.IsChain fun s t => s.console.lines <+: t.console.lines
  last : ∀ s, e.steps.getLast? = some s → s.console.lines = e.console.lines

theorem Machine.Orderly.length_le {m : Machine} {L : RunLimits} (h : m.Orderly L) :
    m.trace.toList.length ≤ L.maxSteps := by
  have hlength := m.trace.length_toList
  have hmax := h.max_eq
  rcases h.room with hroom | hroom <;> omega

/-- A run that ends without a failure. -/
theorem Machine.Orderly.shape {m : Machine} {L : RunLimits} (h : m.Orderly L)
    (hs : m.Synced) : Execution.Shape ⟨m.trace.toList, m.console⟩ L.maxSteps False where
  length_le := h.length_le
  ids := h.ids
  error_last s hs := h.kinds s ((List.dropLast_sublist _).subset hs)
  error_iff := ⟨fun ⟨s, hs, hk⟩ => absurd hk (h.kinds s hs), fun hf => hf.1.elim⟩
  lines := isChain_lines h.lines.tail
  last s hlast := by
    have hhead : m.trace.newest.head? = some s := List.getLast?_reverse.symm.trans hlast
    rw [hs s hhead]

/-- A run that ends with a failure. -/
theorem Machine.Orderly.shape_recordFailure {m : Machine} {L : RunLimits} (h : m.Orderly L)
    (f : Failure) (whole : Location) :
    Execution.Shape ⟨(m.recordFailure f whole).trace.toList, m.console⟩ L.maxSteps True := by
  rcases h.steps_recordFailure f whole with ⟨hpos, hlt, hsteps⟩ | ⟨hzero, hsteps⟩
  · rw [hsteps]
    constructor
    case length_le =>
      rw [List.length_append, List.length_singleton, m.trace.length_toList]
      exact hlt
    case ids =>
      intro k s hk
      exact h.ids_recorded .error _ _ k s
        ((congrArg (·[k]?) (Recorder.toList_add _ _)).trans hk)
    case error_last =>
      intro s hs
      rw [List.dropLast_concat] at hs
      exact h.kinds s hs
    case error_iff =>
      exact ⟨fun _ => ⟨trivial, hpos⟩, fun _ =>
        ⟨_, List.mem_append_right _ List.mem_cons_self, rfl⟩⟩
    case lines =>
      have hlines := isChain_lines (h.lines_recorded .error ((f.loc.or m.current).getD whole)
        ("Error: " ++ f.cause.message)).tail
      rwa [show (m.recorded .error _ _).trace.newest.reverse = _ from Recorder.toList_add _ _]
        at hlines
    case last =>
      intro s hs
      rw [List.getLast?_concat] at hs
      cases hs
      rfl
  · rw [hsteps, hzero]
    constructor
    case lines => exact .nil
    all_goals simp

/-- Every trace has its shape: the `k`-th step is number `k` and none is beyond the ceiling,
only the last can tell of a failure and it does if the run failed and there is room, and what
steps show of the console only grows, up to all that was printed. -/
theorem Execution.steps_shape {L : RunLimits} {fuel : Nat} {p : Program} {e : Execution}
    (he : Execution.ofProgram? L fuel p = some e) :
    e.Shape L.maxSteps (∃ f, (runFrom L fuel p).1 = .error (.failed f)) := by
  have hm := orderly_runFrom L fuel p
  unfold Execution.ofProgram? at he
  rcases hrun : runFrom L fuel p with ⟨(f | _) | a, m⟩
  · rw [hrun] at he hm
    cases he
    have hfailed :
        (∃ f', (Except.error (Stop.failed f) : Except Stop Unit) = .error (.failed f')) =
        True :=
      eq_true ⟨f, rfl⟩
    rw [hfailed]
    exact hm.shape_recordFailure f p.loc
  · rw [hrun] at he
    cases he
  · rw [hrun] at he hm
    cases he
    have hfailed : (∃ f', (Except.ok a : Except Stop Unit) = .error (.failed f')) = False :=
      eq_false fun ⟨_, h⟩ => by cases h
    rw [hfailed]
    exact Machine.Orderly.shape hm (synced_runFrom hrun)

/-- A line that is printed, and a value that is raised. -/
def shouting : Program :=
  ⟨[.expr (.call (.member (.ident "console" default) (.named "log") default)
    [.string "hey" default] default) default,
    .raise (.string "hey" default) default], default⟩

theorem shouting_steps_shape : ∃ e, Execution.ofProgram? ⟨2, 1, 1, 1, 1⟩ 6 shouting = some e ∧
    e.steps.map (·.kind) = [.call, .error] ∧
    e.Shape 2 (∃ f, (runFrom ⟨2, 1, 1, 1, 1⟩ 6 shouting).1 = .error (.failed f)) := by
  have hrun : (Execution.ofProgram? ⟨2, 1, 1, 1, 1⟩ 6 shouting).any
      (·.steps.map (·.kind) = [.call, .error]) = true := by
    decide +kernel
  obtain ⟨e, he, hkinds⟩ := (Option.any_eq_true _ _).1 hrun
  exact ⟨e, he, of_decide_eq_true hkinds, Execution.steps_shape he⟩

end ScriptReplay
