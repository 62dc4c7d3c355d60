/-
Higher ceilings only add steps to an analysis.

* `Simulation.KeepsSteps` : what never takes back a step;
* `Simulation.Leads` : a simulation and the same one under higher ceilings, in step until the
  first is stopped;
* `Simulation.Free.leads_turns`, `Simulation.leads_unfinished` : the loop and the whole run
  keep them in step;
* `analyze_steps_of_le` : so an analysis that was not cut short has the same steps under
  higher ceilings, and the steps of one that was, but for the final one, are the first
  steps there.

Design notes: once the lower ceilings have stopped one simulation, all that matters of the
other is that it still has the steps of both.  So the two are followed together only as long
as nothing has stopped the first (`Free`), and `KeepsSteps` does the rest.
-/
import ScriptReplay.Proofs.Queue.Truncation

namespace ScriptReplay

namespace Simulation

variable {source : List Char} {raised : AnalysisLimits} {s s' : Simulation}
  {goOn goOn' : Simulation → Simulation}

/-! ### Steps are never taken back -/

/-- No step of a simulation is lost. -/
def KeepsSteps (f : Simulation → Simulation) : Prop :=
  ∀ s : Simulation, s.newest <:+ (f s).newest

theorem Adds.suffix {t : QueueStep} (h : s.Adds s' t) : s.newest <:+ s'.newest := by
  rw [h.newest]
  exact List.suffix_cons t s.newest

theorem keepsSteps_ifRoom (h : KeepsSteps goOn) : KeepsSteps (·.ifRoom goOn) := by
  intro s
  show s.newest <:+ (s.ifRoom goOn).newest
  unfold ifRoom
  split
  · exact h s
  · exact List.suffix_rfl

theorem keepsSteps_note_then (h : KeepsSteps goOn) (description : String) (phase : Phase) :
    KeepsSteps fun s => goOn (s.note description none phase) := by
  intro s
  have hnote : s.newest <:+ (s.note description none phase).newest :=
    List.suffix_cons _ s.newest
  exact hnote.trans (h _)

theorem keepsSteps_betweenMicrotasks (h : KeepsSteps goOn) (first : Bool) :
    KeepsSteps (·.betweenMicrotasks first goOn) := by
  intro s
  show s.newest <:+ (s.betweenMicrotasks first goOn).newest
  unfold betweenMicrotasks
  split
  · exact h s
  · exact keepsSteps_note_then (keepsSteps_ifRoom h) nextMicrotask .micro s

/-- A job that has left its queue runs, and then the loop goes on. -/
theorem keepsSteps_runJob_then (h : KeepsSteps goOn) (source : List Char)
    (taken : Simulation → Simulation) (htaken : ∀ s, (taken s).newest = s.newest) (j : Job)
    (phase : Phase) (title : String) :
    KeepsSteps fun s => goOn (runJob source (taken s) j phase title) := by
  intro s
  obtain ⟨t, hadds⟩ := exists_adds_runJob source (taken s) j phase title
  exact (htaken s ▸ hadds.suffix).trans (h _)

/-! ### One turn of the loop -/

/-- The loop from a microtask on, which leaves `rest` in its queue. -/
def fromMicro (source : List Char) (count timedRuns : Nat) (job : Job) (rest : List Job)
    (s : Simulation) : Simulation :=
  turns source count false timedRuns (runJob source { s with micro := rest } job .micro
    (if 0 < timedRuns then "Nested microtask" else "Microtask"))

/-- The loop from a timed task on, which leaves `rest` in its queue. -/
def fromTimed (source : List Char) (count timedRuns : Nat) (job : Job) (rest : List Job)
    (s : Simulation) : Simulation :=
  turns source count true (timedRuns + 1)
    (runJob source { s with timed := rest } job .timed "Macrotask")

theorem turns_of_micro {job : Job} {rest : List Job} (hmicro : s.micro = job :: rest)
    (count : Nat) (first : Bool) (timedRuns : Nat) :
    s.turns source (count + 1) first timedRuns =
      s.ifRoom fun s =>
        s.betweenMicrotasks first (fromMicro source count timedRuns job rest) := by
  rw [turns]
  simp only [hmicro]
  rfl

theorem turns_of_timed {job : Job} {rest : List Job} (hmicro : s.micro = [])
    (htimed : s.timed = job :: rest) (count : Nat) (first : Bool) (timedRuns : Nat) :
    s.turns source (count + 1) first timedRuns =
      s.ifRoom fun s => (s.note (nextTimed timedRuns) none .idle).ifRoom
        (fromTimed source count timedRuns job rest) := by
  rw [turns]
  simp only [hmicro, htimed]
  rfl

theorem turns_of_empty (hmicro : s.micro = []) (htimed : s.timed = []) (count : Nat)
    (first : Bool) (timedRuns : Nat) : s.turns source count first timedRuns = s := by
  cases count <;> simp [turns, hmicro, htimed]

theorem keepsSteps_fromMicro {count timedRuns : Nat}
    (h : KeepsSteps (turns source count false timedRuns)) (job : Job) (rest : List Job) :
    KeepsSteps (fromMicro source count timedRuns job rest) :=
  keepsSteps_runJob_then h source (fun s => { s with micro := rest }) (fun _ => rfl) job _ _

theorem keepsSteps_fromTimed {count timedRuns : Nat}
    (h : KeepsSteps (turns source count true (timedRuns + 1))) (job : Job) (rest : List Job) :
    KeepsSteps (fromTimed source count timedRuns job rest) :=
  keepsSteps_runJob_then h source (fun s => { s with timed := rest }) (fun _ => rfl) job _ _

theorem keepsSteps_turns (source : List Char) (count : Nat) (first : Bool) (timedRuns : Nat) :
    KeepsSteps (turns source count first timedRuns) := by
  induction count generalizing first timedRuns with
  | zero =>
    intro s
    unfold turns
    split
    · exact List.suffix_rfl
    · exact List.suffix_rfl
  | succ count ih =>
    intro s
    cases hmicro : s.micro with
    | cons job rest =>
      rw [turns_of_micro hmicro]
      exact keepsSteps_ifRoom
        (keepsSteps_betweenMicrotasks (keepsSteps_fromMicro (ih _ _) job rest) first) s
    | nil =>
      cases htimed : s.timed with
      | cons job rest =>
        have hfrom := keepsSteps_fromTimed (ih true (timedRuns + 1)) job rest
        rw [turns_of_timed hmicro htimed]
        exact keepsSteps_ifRoom (keepsSteps_note_then (keepsSteps_ifRoom hfrom) _ _) s
      | nil =>
        exact ⟨[], by rw [turns_of_empty hmicro htimed, List.nil_append]⟩

theorem keepsSteps_loop (source : List Char) : KeepsSteps (loop source) := by
  intro s
  unfold loop
  dsimp only
  split
  · exact keepsSteps_turns source _ true 0 s
  · exact keepsSteps_ifRoom (keepsSteps_note_then (keepsSteps_turns source _ true 0) _ _) s

theorem keepsSteps_replayAll (effects : List Effect) : KeepsSteps (·.replayAll effects) := by
  induction effects with
  | nil => exact fun s => List.suffix_rfl
  | cons e rest ih =>
    intro s
    show s.newest <:+ (s.replayAll (e :: rest)).newest
    unfold replayAll
    split
    · obtain ⟨t, hadds, -⟩ := exists_adds_replay s e
      exact hadds.suffix.trans (ih _)
    · exact List.suffix_rfl

/-- The program and then the loop, without the final step. -/
def unfinished (source : List Char) (limits : AnalysisLimits) (effects : List Effect) :
    Simulation :=
  let s := (start limits).program effects
  if s.stopped.isNone then s.loop source else s

/-! ### Two simulations in step -/

/-- The same state under other ceilings. -/
def under (s : Simulation) (limits : AnalysisLimits) : Simulation :=
  { s with limits := limits }

/-- Either nothing has stopped `s`, and `s'` is in the same state under the raised ceilings;
or something has, and `s'` has all its steps. -/
def Leads (raised : AnalysisLimits) (s s' : Simulation) : Prop :=
  s.stopped = none ∧ s' = s.under raised ∨ s.stopped ≠ none ∧ s.newest <:+ s'.newest

/-- Nothing has stopped the simulation, whose ceiling on steps is not above the raised one. -/
structure Free (raised : AnalysisLimits) (s : Simulation) : Prop where
  stopped : s.stopped = none
  maxSteps_le : s.limits.maxSteps ≤ raised.maxSteps

theorem Free.adds {t : QueueStep} (h : s.Free raised) (hadds : s.Adds s' t) :
    s'.Free raised :=
  ⟨hadds.stopped.trans h.stopped, hadds.limits ▸ h.maxSteps_le⟩

theorem Free.note (h : s.Free raised) (description : String) (phase : Phase) :
    (s.note description none phase).Free raised :=
  ⟨h.stopped, h.maxSteps_le⟩

theorem Free.leads_stop (h : s.Free raised) (c : Ceiling) (hsteps : s.newest <:+ s'.newest) :
    (s.stop c).Leads raised s' :=
  .inr ⟨by simp [stopped_stop h.stopped], hsteps⟩

/-- Where there is room for a step, there is room for it under the raised ceilings. -/
theorem Free.hasRoom_under (h : s.Free raised) (hroom : s.hasRoom = true) :
    (s.under raised).hasRoom = true := by
  have hlt : s.newest.length + 1 < s.limits.maxSteps := of_decide_eq_true hroom
  exact decide_eq_true (lt_of_lt_of_le hlt h.maxSteps_le)

theorem Free.leads_ifRoom (h : s.Free raised) (hkeeps : KeepsSteps goOn')
    (hgoOn : (goOn s).Leads raised (goOn' (s.under raised))) :
    (s.ifRoom goOn).Leads raised ((s.under raised).ifRoom goOn') := by
  by_cases hroom : s.hasRoom = true
  · rw [ifRoom, if_pos hroom, ifRoom, if_pos (h.hasRoom_under hroom)]
    exact hgoOn
  · rw [ifRoom, if_neg hroom]
    exact h.leads_stop .steps (keepsSteps_ifRoom hkeeps (s.under raised))

theorem Free.leads_betweenMicrotasks (h : s.Free raised) (hkeeps : KeepsSteps goOn')
    (first : Bool)
    (hgoOn : ∀ s : Simulation, s.Free raised →
      (goOn s).Leads raised (goOn' (s.under raised))) :
    (s.betweenMicrotasks first goOn).Leads raised
      ((s.under raised).betweenMicrotasks first goOn') := by
  unfold betweenMicrotasks
  split
  · exact hgoOn s h
  · have hnote := h.note nextMicrotask .micro
    exact hnote.leads_ifRoom hkeeps (hgoOn _ hnote)

/-- What a job does has nothing to do with the ceilings. -/
theorem runJob_under (source : List Char) (s : Simulation) (j : Job) (phase : Phase)
    (title : String) :
    runJob source (s.under raised) j phase title =
      (runJob source s j phase title).under raised := by
  unfold runJob
  dsimp only
  rw [foldl_apply, foldl_apply]
  cases j.next? with
  | none => rfl
  | some next => cases hk : next.queue <;> simp [enqueue, hk, under, note, add, stepOf]

theorem replay_under (s : Simulation) (e : Effect) :
    (s.under raised).replay e = (s.replay e).under raised := by
  cases e with
  | log text line => rfl
  | declared name line => rfl
  | schedule job line =>
    cases hk : job.queue <;> simp [replay, enqueue, hk, under, add, stepOf]

/-- The loop under two ceilings on callbacks. -/
theorem Free.leads_turns (h : s.Free raised) {count count' : Nat} (hle : count ≤ count')
    (first : Bool) (timedRuns : Nat) :
    (s.turns source count first timedRuns).Leads raised
      ((s.under raised).turns source count' first timedRuns) := by
  induction count generalizing s count' first timedRuns with
  | zero =>
    obtain ⟨-, hmicro, htimed⟩ | ⟨hif, -⟩ := s.empty_or_waits
    · rw [turns_of_empty hmicro htimed, turns_of_empty (s := s.under raised) hmicro htimed]
      exact .inl ⟨h.stopped, rfl⟩
    · have hstop : s.turns source 0 first timedRuns = s.stop .iterations := by
        simp [turns, hif]
      rw [hstop]
      exact h.leads_stop .iterations
        (keepsSteps_turns source count' first timedRuns (s.under raised))
  | succ count ih =>
    obtain ⟨count', rfl⟩ : ∃ n, count' = n + 1 := ⟨count' - 1, by omega⟩
    -- A callback is the same step on both sides, and leaves them in step.
    have hrun : ∀ (s : Simulation) (j : Job)
        (phase : Phase) (title : String) (first : Bool) (timedRuns : Nat), s.Free raised →
        ((runJob source s j phase title).turns source count first timedRuns).Leads raised
          ((runJob source (s.under raised) j phase title).turns source
            count' first timedRuns) := by
      intro s j phase title first timedRuns hs
      obtain ⟨t, hadds⟩ := exists_adds_runJob source s j phase title
      rw [runJob_under]
      exact ih (hs.adds hadds) (Nat.le_of_succ_le_succ hle) first timedRuns
    cases hmicro : s.micro with
    | cons job rest =>
      rw [turns_of_micro hmicro, turns_of_micro (s := s.under raised) hmicro]
      have hkeeps :=
        keepsSteps_fromMicro (keepsSteps_turns source count' false timedRuns) job rest
      refine h.leads_ifRoom (keepsSteps_betweenMicrotasks hkeeps first)
        (h.leads_betweenMicrotasks hkeeps first fun s hs => ?_)
      exact hrun { s with micro := rest } job .micro _ false timedRuns
        ⟨hs.stopped, hs.maxSteps_le⟩
    | nil =>
      cases htimed : s.timed with
      | cons job rest =>
        rw [turns_of_timed hmicro htimed, turns_of_timed (s := s.under raised) hmicro htimed]
        have hkeeps :=
          keepsSteps_fromTimed (keepsSteps_turns source count' true (timedRuns + 1)) job rest
        have hnote := h.note (nextTimed timedRuns) .idle
        refine h.leads_ifRoom (keepsSteps_note_then (keepsSteps_ifRoom hkeeps) _ _)
          (hnote.leads_ifRoom hkeeps ?_)
        exact hrun { s.note (nextTimed timedRuns) none .idle with timed := rest } job .timed _
          true (timedRuns + 1) ⟨hnote.stopped, hnote.maxSteps_le⟩
      | nil =>
        rw [turns_of_empty hmicro htimed, turns_of_empty (s := s.under raised) hmicro htimed]
        exact .inl ⟨h.stopped, rfl⟩

theorem Free.leads_loop (h : s.Free raised)
    (hle : s.limits.maxIterations ≤ raised.maxIterations) :
    (s.loop source).Leads raised ((s.under raised).loop source) := by
  unfold loop
  dsimp only
  obtain ⟨hif, -⟩ | ⟨hif, -⟩ := s.empty_or_waits
  · rw [if_pos hif, if_pos (show
      ((s.under raised).micro.isEmpty && (s.under raised).timed.isEmpty) = true from hif)]
    exact h.leads_turns hle true 0
  · rw [if_neg (by simp [hif]),
      if_neg (show ¬ ((s.under raised).micro.isEmpty && (s.under raised).timed.isEmpty) =
        true by simp [under, hif])]
    refine h.leads_ifRoom (keepsSteps_note_then (keepsSteps_turns source _ true 0) _ _) ?_
    exact (h.note programDone .idle).leads_turns hle true 0

/-! ### The whole run -/

theorem Free.leads_replayAll (h : s.Free raised) (effects : List Effect) :
    (s.replayAll effects).Leads raised ((s.under raised).replayAll effects) := by
  induction effects generalizing s with
  | nil => exact .inl ⟨h.stopped, rfl⟩
  | cons e rest ih =>
    by_cases hroom : s.hasRoom = true
    · obtain ⟨t, hadds, -⟩ := exists_adds_replay s e
      rw [replayAll, if_pos hroom, replayAll, if_pos (h.hasRoom_under hroom), replay_under]
      exact ih (h.adds hadds)
    · rw [replayAll, if_neg hroom]
      exact h.leads_stop .steps (keepsSteps_replayAll (e :: rest) (s.under raised))

/-- The state when the program starts. -/
def begun (limits : AnalysisLimits) : Simulation :=
  ({ start limits with stack := ["<script>"] } : Simulation).note
    "Script starts executing. Global execution context pushed to call stack." none .sync

theorem program_eq (limits : AnalysisLimits) (effects : List Effect) :
    (start limits).program effects = { (begun limits).replayAll effects with stack := [] } :=
  rfl

/-- The program is followed by the loop if nothing has stopped it. -/
theorem leads_unfinished (source : List Char) {limits raised : AnalysisLimits}
    (hsteps : limits.maxSteps ≤ raised.maxSteps)
    (hruns : limits.maxIterations ≤ raised.maxIterations) (effects : List Effect) :
    (unfinished source limits effects).Leads raised (unfinished source raised effects) := by
  have hbegun : (begun limits).Free raised := ⟨rfl, hsteps⟩
  unfold unfinished
  dsimp only
  obtain ⟨hstopped, heq⟩ | ⟨hstopped, hsuffix⟩ := hbegun.leads_replayAll effects
  · have hstopped' : ((start limits).program effects).stopped = none := hstopped
    have hprogram : (start raised).program effects =
        ((start limits).program effects).under raised := by
      rw [program_eq, program_eq,
        show begun raised = (begun limits).under raised from rfl, heq]
      rfl
    have hlimits : ((start limits).program effects).limits = limits :=
      (bounded_program limits effects).limits_eq
    rw [hprogram]
    generalize (start limits).program effects = s at hlimits hstopped' ⊢
    subst hlimits
    rw [if_pos (by simp [hstopped']), if_pos (by simp [under, hstopped'])]
    exact Free.leads_loop ⟨hstopped', hsteps⟩ hruns
  · have hstopped' : ((start limits).program effects).stopped ≠ none := hstopped
    have hsuffix' :
        ((start limits).program effects).newest <:+ ((start raised).program effects).newest :=
      hsuffix
    rw [if_neg (by simpa using hstopped')]
    refine .inr ⟨hstopped', ?_⟩
    split
    · exact hsuffix'.trans (keepsSteps_loop source _)
    · exact hsuffix'

theorem finish_under (s : Simulation) : (s.under raised).finish = s.finish.under raised := by
  unfold finish
  cases hs : s.stopped <;> simp [under, note, add, stepOf, hs]

end Simulation

/-- The last step of an analysis says whether something has stopped its simulation. -/
theorem dropLast_steps_analyzeProgram (limits : AnalysisLimits) (source : List Char)
    (p : Program) : let s :=
  Simulation.unfinished source limits (programEffects source p)
    let a := analyzeProgram limits source p
    a.steps.dropLast = s.steps ∧ (a.isTruncated = true ↔ s.stopped ≠ none) := by
  intro s a
  obtain ⟨t, hnewest, hmarked, -⟩ := s.exists_newest_finish
  have hsteps : a.steps = s.steps ++ [t] := by
    show s.finish.newest.reverse = s.newest.reverse ++ [t]
    rw [hnewest, List.reverse_cons]
  refine ⟨?_, ?_⟩
  · rw [hsteps, List.dropLast_concat]
  · rw [Analysis.isTruncated, hsteps, List.getLast?_concat]
    exact hmarked

theorem analyze_eq_ok {source : String} {p : Program} (hp : parseProgram source = .ok p)
    (limits : AnalysisLimits) :
    analyze limits source = .ok (analyzeProgram limits source.toList p) := by
  unfold analyze
  rw [hp]
  rfl

/-- An analysis that was not cut short has the same steps under all higher ceilings.  The
steps of one that was, but for the final one, are the first steps under them. -/
theorem analyze_steps_of_le {source : String} {p : Program} (hp : parseProgram source = .ok p)
    (limits raised : AnalysisLimits) (hsteps : limits.maxSteps ≤ raised.maxSteps)
    (hruns : limits.maxIterations ≤ raised.maxIterations) :
    ∃ a b : Analysis, analyze limits source = .ok a ∧ analyze raised source = .ok b ∧
      (a.isTruncated = false → a.steps = b.steps) ∧
        (a.isTruncated = true → a.steps.dropLast <+: b.steps) := by
  refine ⟨_, _, analyze_eq_ok hp limits, analyze_eq_ok hp raised, ?_⟩
  obtain ⟨hdropLast, hmarked⟩ := dropLast_steps_analyzeProgram limits source.toList p
  obtain ⟨hstopped, heq⟩ | ⟨hstopped, hsuffix⟩ :=
    Simulation.leads_unfinished source.toList hsteps hruns (programEffects source.toList p)
  · refine ⟨fun _ => ?_, fun h => absurd hstopped (hmarked.1 h)⟩
    show (Simulation.unfinished _ limits _).finish.steps =
      (Simulation.unfinished _ raised _).finish.steps
    rw [heq, Simulation.finish_under]
    rfl
  · refine ⟨fun h => absurd (hmarked.2 hstopped) (by simp [h]), fun _ => ?_⟩
    obtain ⟨hdropLast', -⟩ := dropLast_steps_analyzeProgram raised source.toList p
    have hprefix : (analyzeProgram limits source.toList p).steps.dropLast <+:
        (analyzeProgram raised source.toList p).steps.dropLast := by
      rw [hdropLast, hdropLast']
      exact List.reverse_prefix.2 hsuffix
    exact hprefix.trans (List.dropLast_prefix _)

/-- A timer, and one in a microtask. -/
def deferring : String :=
  "setTimeout(f); queueMicrotask(() => setTimeout(g));"

/-- With room for five steps the microtask is told of, and then there is only room for the
final step. -/
theorem deferring_steps_of_le :
    ∃ (p : Program) (a b : Analysis), parseProgram deferring = .ok p ∧
    analyze { maxSteps := 6 } deferring = .ok a ∧ analyze {} deferring = .ok b ∧
    a.isTruncated = true ∧ a.steps.length = 6 ∧ b.steps.length = 10 ∧
      a.steps.dropLast <+: b.steps := by
  have hcut : (analyze { maxSteps := 6 } deferring).toOption.map
      (fun a => (a.isTruncated, a.steps.length)) =
      some (true, 6) := by
    decide +kernel
  have hlength : (analyze {} deferring).toOption.map (·.steps.length) = some 10 := by
    decide +kernel
  obtain ⟨p, hp⟩ : ∃ p, parseProgram deferring = .ok p := by
    cases hp : parseProgram deferring with
    | ok p => exact ⟨p, rfl⟩
    | error e => simp [analyze, hp, Except.map, Except.toOption] at hcut
  obtain ⟨a, b, ha, hb, -, hprefix⟩ :=
    analyze_steps_of_le hp { maxSteps := 6 } {} (by decide) (by decide)
  obtain ⟨hmarked, hlength'⟩ : a.isTruncated = true ∧ a.steps.length = 6 := by
    simpa [ha, Except.toOption] using hcut
  exact ⟨p, a, b, hp, ha, hb, hmarked, hlength',
    by simpa [hb, Except.toOption] using hlength, hprefix hmarked⟩

end ScriptReplay
