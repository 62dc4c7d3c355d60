/-
An analysis says whether it was cut short.

* `Moment.ran`, `Moment.handed` : the jobs that run and the jobs that are handed over from one
  moment to the next;
* `Moment.ledger` : in a run, the jobs that were handed to a queue are those that ran and
  those that wait;
* `Simulation.Going.turns` : the loop passes no ceiling, and a ceiling stops it exactly if
  jobs are left;
* `Analysis.Accounts` : what the steps and the reports of an analysis say about its end;
* `analyze_accounts` : they say so in every analysis.

Design notes: whether there is room is asked in many places, of which some come after a step
that has no job of its own.  So `Going` holds as long as nothing has stopped the simulation,
and all of them go through `Going.ifRoom`.
-/
import ScriptReplay.Proofs.Queue.Moments

namespace ScriptReplay

/-! ### What happens from one moment to the next -/

instance : DecidablePred QueueStep.IsRun :=
  fun t =>
    inferInstanceAs (Decidable ((t.phase = .micro ∨ t.phase = .timed) ∧ t.codeLine.isSome))

/-- The phase in which the jobs of a queue run. -/
def QueueKind.phase : QueueKind → Phase
  | micro => .micro
  | timed => .timed

/-- The jobs that a job hands to a queue when it runs: those of its callback, and the next one
of its own chain, which is a microtask. -/
def Job.hands (source : List Char) (k : QueueKind) (j : Job) : List Job :=
  (Simulation.jobEffects source j).filterMap (Effect.job? k) ++
    match k with
    | .micro => j.next?.toList
    | .timed => []

namespace Moment

/-- The jobs that wait in a queue. -/
def queue (k : QueueKind) (m : Moment) : List Job :=
  match k with
  | .micro => m.micro
  | .timed => m.timed

/-- The job of a queue that runs between two moments, if the second tells of one. -/
def ran (k : QueueKind) (a b : Moment) : List Job :=
  if b.step.IsRun ∧ b.step.phase = k.phase then (a.queue k).take 1 else []

/-- The jobs that are handed to a queue between two moments, by an effect of the program or by
a job that runs. -/
def handed (source : List Char) (k : QueueKind) (a b : Moment) : List Job :=
  if b.step.phase = .sync then (a.left.head?.bind (Effect.job? k)).toList
  else (ran .micro a b ++ ran .timed a b).flatMap (Job.hands source k)

/-- What is collected from each two neighbours of a run. -/
def along (f : Moment → Moment → List Job) (run : List Moment) : List Job :=
  (List.zipWith f run run.tail).flatten

variable {source : List Char} {a b : Moment}

theorem Next.of_phase (h : a.Next source b) (hrun : b.step.IsRun) :
    (b.step.phase = .micro ∧
        ∃ job rest, a.micro = job :: rest ∧ a.Runs source b job rest a.timed) ∨
      (b.step.phase = .timed ∧ a.micro = [] ∧
        ∃ job rest, a.timed = job :: rest ∧ a.Runs source b job [] rest) := by
  obtain hphase | hphase := hrun.1
  · exact .inl ⟨hphase, h.micro hrun hphase⟩
  · exact .inr ⟨hphase, h.timed hrun hphase⟩

/-- The books of a queue balance: what waited and what came in is what ran and what waits. -/
theorem Next.ledger (h : a.Next source b) (k : QueueKind) :
    a.queue k ++ handed source k a b = ran k a b ++ b.queue k := by
  by_cases hsync : b.step.phase = .sync
  · obtain ⟨e, hleft, hmicro, htimed, -⟩ := h.sync hsync
    have hran : ran k a b = [] := by cases k <;> simp [ran, hsync, QueueKind.phase]
    rw [hran, handed, if_pos hsync, hleft]
    cases k with
    | micro => exact hmicro.symm
    | timed => exact htimed.symm
  by_cases hrun : b.step.IsRun
  · obtain ⟨hphase, job, rest, hqueue, hruns⟩ | ⟨hphase, hempty, job, rest, hqueue, hruns⟩ :=
      h.of_phase hrun
    · cases k <;> simp [handed, ran, queue, Job.hands, QueueKind.phase, hphase, hrun,
        hqueue, hruns.micro, hruns.timed]
    · cases k <;>
        simp [handed, ran, queue, Job.hands, QueueKind.phase, hphase, hrun, hempty, hqueue,
          hruns.micro, hruns.timed]
  · obtain ⟨hmicro, htimed, -⟩ := h.still hsync hrun
    cases k <;> simp [handed, ran, queue, hsync, hrun, hmicro, htimed]

/-- The books of a queue balance over a run. -/
theorem ledger {run : List Moment} (hrun : run.IsChain (Next source)) {first last : Moment}
    (hfirst : run.head? = some first) (hlast : run.getLast? = some last) (k : QueueKind) :
    first.queue k ++ along (handed source k) run = along (ran k) run ++ last.queue k := by
  induction run generalizing first with
  | nil => cases hfirst
  | cons a rest ih =>
    cases hfirst
    cases rest with
    | nil =>
      cases hlast
      simp [along]
    | cons b rest =>
      obtain ⟨hnext, hrest⟩ := List.isChain_cons_cons.1 hrun
      rw [List.getLast?_cons_cons] at hlast
      have hb : b.queue k ++ along (handed source k) (b :: rest) =
          along (ran k) (b :: rest) ++ last.queue k := ih hrest rfl hlast
      calc a.queue k ++ (handed source k a b ++ along (handed source k) (b :: rest))
          = ran k a b ++ (b.queue k ++ along (handed source k) (b :: rest)) := by
            rw [← List.append_assoc, hnext.ledger k, List.append_assoc]
        _ = ran k a b ++ along (ran k) (b :: rest) ++ last.queue k := by
          rw [hb, List.append_assoc]

theorem Next.length_left (h : a.Next source b) :
    a.left.length = b.left.length + if b.step.phase = .sync then 1 else 0 := by
  by_cases hsync : b.step.phase = .sync
  · obtain ⟨e, hleft, -⟩ := h.sync hsync
    simp [hleft, hsync]
  by_cases hrun : b.step.IsRun
  · obtain ⟨-, job, rest, -, hruns⟩ | ⟨-, -, job, rest, -, hruns⟩ := h.of_phase hrun
    · simp [hruns.left, hsync]
    · simp [hruns.left, hsync]
  · simp [h.still hsync hrun, hsync]

/-- Each effect of the program that is no longer left has a step of its own. -/
theorem length_left {run : List Moment} (hrun : run.IsChain (Next source))
    {first last : Moment} (hfirst : run.head? = some first)
    (hlast : run.getLast? = some last) :
    first.left.length = last.left.length +
      (run.map Moment.step).tail.countP (·.phase = .sync) := by
  induction run generalizing first with
  | nil => cases hfirst
  | cons a rest ih =>
    cases hfirst
    cases rest with
    | nil =>
      cases hlast
      simp
    | cons b rest =>
      obtain ⟨hnext, hrest⟩ := List.isChain_cons_cons.1 hrun
      rw [List.getLast?_cons_cons] at hlast
      have hb := ih hrest rfl hlast
      have ha := hnext.length_left
      simp only [List.map_cons, List.tail_cons, List.countP_cons, decide_eq_true_eq] at hb ⊢
      omega

end Moment

/-! ### Ceilings -/

namespace Simulation

/-- One more step, which is not marked as cut short. -/
structure Adds (s s' : Simulation) (t : QueueStep) : Prop where
  newest : s'.newest = t :: s.newest
  limits : s'.limits = s.limits
  stopped : s'.stopped = s.stopped
  plain : t.truncated = false

/-- No ceiling is passed with `left` more callbacks and the final step. -/
structure Bounded (limits : AnalysisLimits) (left : Nat) (s : Simulation) : Prop where
  limits_eq : s.limits = limits
  length_lt : s.newest.length < max limits.maxSteps 2
  runs_le : s.newest.countP (·.IsRun) + left ≤ limits.maxIterations
  plain : ∀ t ∈ s.newest, t.truncated = false

/-- Nothing has stopped the simulation. -/
structure Going (limits : AnalysisLimits) (left : Nat) (s : Simulation) : Prop extends
    Bounded limits left s where
  stopped : s.stopped = none

/-- The simulation is over, and was stopped exactly if jobs wait. -/
structure Over (limits : AnalysisLimits) (s : Simulation) :
    Prop extends Bounded limits 0 s where
  stopped_iff : s.stopped ≠ none ↔ s.micro ≠ [] ∨ s.timed ≠ []

variable {source : List Char} {limits : AnalysisLimits} {left left' : Nat} {s s' : Simulation}
  {goOn : Simulation → Simulation} {t : QueueStep}

theorem Bounded.mono (h : Bounded limits left s) (hle : left' ≤ left) :
    Bounded limits left' s :=
  ⟨h.limits_eq, h.length_lt, (Nat.add_le_add_left hle _).trans h.runs_le, h.plain⟩

theorem Bounded.stop (h : Bounded limits left s) (c : Ceiling) :
    Bounded limits left (s.stop c) :=
  ⟨h.limits_eq, h.length_lt, h.runs_le, h.plain⟩

/-- Where there is room for a step, it leaves room for the final one. -/
theorem Going.adds (h : Going limits left s) (hroom : s.hasRoom) (hadds : s.Adds s' t)
    (hleft : (if t.IsRun then 1 else 0) + left' ≤ left) : Going limits left' s' := by
  have hlimits : s'.limits = limits := hadds.limits.trans h.limits_eq
  have hlength : s.newest.length + 1 < limits.maxSteps := by
    rw [← h.limits_eq]
    exact of_decide_eq_true hroom
  have hruns := h.runs_le
  refine ⟨⟨hlimits, ?_, ?_, ?_⟩, hadds.stopped.trans h.stopped⟩
  · rw [hadds.newest, List.length_cons]
    omega
  · rw [hadds.newest, List.countP_cons]
    simp only [decide_eq_true_eq]
    omega
  · rw [hadds.newest]
    exact List.forall_mem_cons.2 ⟨hadds.plain, h.plain⟩

/-- A step without a line tells of no callback. -/
theorem Going.note (h : Going limits left s) (hroom : s.hasRoom) (description : String)
    (phase : Phase) : Going limits left (s.note description none phase) := by
  refine h.adds hroom ⟨rfl, rfl, rfl, rfl⟩ (t := s.stepOf description none phase) ?_
  simp [QueueStep.IsRun, stepOf]

theorem exists_adds_replay (s : Simulation) (e : Effect) :
    ∃ t, s.Adds (s.replay e) t ∧ t.phase = .sync := by
  cases e with
  | log text line => exact ⟨_, ⟨rfl, rfl, rfl, rfl⟩, rfl⟩
  | declared name line => exact ⟨_, ⟨rfl, rfl, rfl, rfl⟩, rfl⟩
  | schedule job line =>
    refine ⟨_, ⟨congrArg _ (newest_enqueue s job), ?_, stopped_replay s _, rfl⟩, rfl⟩
    cases hk : job.queue <;> simp [replay, add, enqueue, hk]

theorem enqueue_eq (s : Simulation) (j : Job) :
    s.enqueue j = { s with micro := (s.enqueue j).micro, timed := (s.enqueue j).timed } := by
  unfold enqueue
  split
  · rfl
  · rfl

/-- A callback is one step, whatever it hands over. -/
theorem exists_adds_runJob (source : List Char) (s : Simulation) (j : Job) (phase : Phase)
    (title : String) : ∃ t, s.Adds (runJob source s j phase title) t := by
  unfold runJob
  dsimp only
  rw [foldl_apply]
  cases j.next? with
  | none => exact ⟨_, rfl, rfl, rfl, rfl⟩
  | some next =>
    show ∃ t, s.Adds
      { (({ enqueue _ next with stack := _ } : Simulation).note _ _ _) with stack := _ } t
    rw [enqueue_eq]
    exact ⟨_, rfl, rfl, rfl, rfl⟩

/-! ### The loop -/

/-- A job that has left its queue runs. -/
theorem Going.runJob (h : Going limits (left + 1) s) (hroom : s.hasRoom)
    (micro timed : List Job) (j : Job) (phase : Phase) (title : String) :
    Going limits left
      (runJob source { s with micro := micro, timed := timed } j phase title) := by
  obtain ⟨t, hadds⟩ :=
    exists_adds_runJob source { s with micro := micro, timed := timed } j phase title
  refine h.adds hroom (t := t) ⟨hadds.newest, hadds.limits, hadds.stopped, hadds.plain⟩ ?_
  split <;> omega

theorem Going.over (h : Going limits left s) (hmicro : s.micro = []) (htimed : s.timed = []) :
    Over limits s :=
  ⟨h.mono (Nat.zero_le _), by simp [h.stopped, hmicro, htimed]⟩

/-- Whatever stops the simulation, the jobs that wait stay where they are. -/
theorem Going.stop (h : Going limits left s) (hwaits : s.micro ≠ [] ∨ s.timed ≠ [])
    (c : Ceiling) : Over limits (s.stop c) :=
  ⟨(h.mono (Nat.zero_le _)).stop c, iff_of_true (by simp [stopped_stop h.stopped]) hwaits⟩

theorem Going.ifRoom (h : Going limits left s) (hwaits : s.micro ≠ [] ∨ s.timed ≠ [])
    (hgoOn : s.hasRoom → Over limits (goOn s)) : Over limits (s.ifRoom goOn) := by
  unfold Simulation.ifRoom
  split
  · next hroom => exact hgoOn hroom
  · exact h.stop hwaits .steps

theorem Going.betweenMicrotasks (h : Going limits left s) (hroom : s.hasRoom)
    (hwaits : s.micro ≠ []) (first : Bool)
    (hgoOn : ∀ s' : Simulation, Going limits left s' → s'.hasRoom → Over limits (goOn s')) :
    Over limits (s.betweenMicrotasks first goOn) := by
  unfold Simulation.betweenMicrotasks
  split
  · exact hgoOn s h hroom
  · have hnote := h.note hroom nextMicrotask .micro
    exact hnote.ifRoom (.inl hwaits) (hgoOn _ hnote)

theorem empty_or_waits (s : Simulation) :
    (s.micro.isEmpty && s.timed.isEmpty) = true ∧ s.micro = [] ∧ s.timed = [] ∨
    (s.micro.isEmpty && s.timed.isEmpty) = false ∧ (s.micro ≠ [] ∨ s.timed ≠ []) := by
  cases hmicro : s.micro <;> cases htimed : s.timed <;> simp

/-- The turns of the loop end with empty queues, or at a ceiling with a job that waits. -/
theorem Going.turns (h : Going limits left s) (first : Bool) (timedRuns : Nat) :
    Over limits (s.turns source left first timedRuns) := by
  induction left generalizing s first timedRuns with
  | zero =>
    unfold Simulation.turns
    obtain ⟨hif, hmicro, htimed⟩ | ⟨hif, hwaits⟩ := s.empty_or_waits
    · simpa [hif] using h.over hmicro htimed
    · simpa [hif] using h.stop hwaits .iterations
  | succ left ih =>
    unfold Simulation.turns
    split
    · next job rest hmicro =>
      have hwaits : s.micro ≠ [] := by simp [hmicro]
      refine h.ifRoom (.inl hwaits) fun hroom =>
        h.betweenMicrotasks hroom hwaits first fun s' hs' hroom' => ?_
      exact ih (hs'.runJob hroom' rest s'.timed job .micro _) false timedRuns
    · next job rest hmicro htimed =>
      have hwaits : s.micro ≠ [] ∨ s.timed ≠ [] := .inr (by simp [htimed])
      refine h.ifRoom hwaits fun hroom => ?_
      have hnote := h.note hroom (nextTimed timedRuns) .idle
      refine hnote.ifRoom hwaits fun hroom' => ?_
      exact ih (hnote.runJob hroom' s.micro rest job .timed _) true (timedRuns + 1)
    · next hmicro htimed => exact h.over hmicro htimed

theorem Going.loop (h : Going limits limits.maxIterations s) :
    Over limits (s.loop source) := by
  unfold Simulation.loop
  rw [h.limits_eq]
  dsimp only
  obtain ⟨hif, -⟩ | ⟨hif, hwaits⟩ := s.empty_or_waits
  · simpa [hif] using h.turns true 0
  · rw [if_neg (by simp [hif])]
    exact h.ifRoom hwaits fun hroom => (h.note hroom programDone .idle).turns true 0

/-! ### The whole run -/

/-- The program passes no ceiling either. -/
theorem Going.replayAll (h : Going limits left s) (effects : List Effect) :
    Bounded limits left (s.replayAll effects) := by
  induction effects generalizing s with
  | nil => exact h.toBounded
  | cons e rest ih =>
    unfold Simulation.replayAll
    split
    · next hroom =>
      obtain ⟨t, hadds, hphase⟩ := exists_adds_replay s e
      exact ih (h.adds hroom hadds (by simp [QueueStep.IsRun, hphase]))
    · exact h.toBounded.stop .steps

/-- The first step is told of without asking for room. -/
theorem bounded_program (limits : AnalysisLimits) (effects : List Effect) :
    Bounded limits limits.maxIterations ((start limits).program effects) := by
  have hfirst : Going limits limits.maxIterations
      (({ start limits with stack := ["<script>"] } : Simulation).note
        "Script starts executing. Global execution context pushed to call stack."
        none .sync) := by
    refine ⟨⟨rfl, ?_, ?_, ?_⟩, rfl⟩
    · show 1 < max limits.maxSteps 2
      omega
    · simp [Simulation.note, Simulation.add, start, stepOf, QueueStep.IsRun]
    · simp [Simulation.note, Simulation.add, start, stepOf]
  obtain ⟨hlimits, hlength, hruns, hplain⟩ := hfirst.replayAll effects
  exact ⟨hlimits, hlength, hruns, hplain⟩

/-- Before the final step: no ceiling is passed, and one has been met exactly if an effect of
the program is left or a job waits. -/
theorem exists_finish_eq_simulate (source : List Char) (limits : AnalysisLimits)
    {effects : List Effect} (heffects : ∀ e ∈ effects, e.Regular) :
    ∃ (s : Simulation) (left : List Effect), simulate source limits effects = s.finish ∧
      s.Traced source effects left ∧ Bounded limits 0 s ∧
      (s.stopped ≠ none ↔ left ≠ [] ∨ s.micro ≠ [] ∨ s.timed ≠ []) := by
  obtain ⟨left, htraced, hleft⟩ := traced_program source limits heffects
  have hbounded := bounded_program limits effects
  by_cases hstopped : ((start limits).program effects).stopped = none
  · obtain rfl := hleft.1 hstopped
    have hover : Over limits (((start limits).program effects).loop source) :=
      Going.loop ⟨hbounded, hstopped⟩
    refine ⟨_, [], ?_, (Looping.loop ⟨htraced, rfl⟩).traced, hover.toBounded, ?_⟩
    · simp [simulate, hstopped]
    · simpa using hover.stopped_iff
  · refine ⟨_, left, ?_, htraced, hbounded.mono (Nat.zero_le _), ?_⟩
    · simp [simulate, hstopped]
    · exact iff_of_true hstopped (.inl (mt hleft.2 hstopped))

/-- The final step is marked exactly if something has stopped the simulation. -/
theorem exists_newest_finish (s : Simulation) :
    ∃ t : QueueStep, s.finish.newest = t :: s.newest ∧
      (t.truncated = true ↔ s.stopped ≠ none) ∧ ¬ t.IsRun ∧
      t.micro = s.micro.map (·.link.label) ∧ t.timed = s.timed.map (·.link.label) ∧
      s.finish.stopped = s.stopped := by
  unfold Simulation.finish
  cases hstopped : s.stopped with
  | none =>
    exact ⟨_, rfl, by simp [stepOf], by simp [QueueStep.IsRun, stepOf], rfl, rfl, hstopped⟩
  | some c => exact ⟨_, rfl, by simp, by simp [QueueStep.IsRun, stepOf], rfl, rfl, hstopped⟩

end Simulation

/-- The number of effects of the program that have a step.  The first step only says that the
program starts. -/
def Analysis.replayed (a : Analysis) : Nat :=
  a.steps.tail.countP (·.phase = .sync)

/-- Whether an analysis was cut short, which only its last step can say. -/
def Analysis.isTruncated (a : Analysis) : Bool :=
  a.steps.getLast?.any (·.truncated)

/-- The steps of an analysis are those of the moments `earlier` and `last`, which are a run of
some effects of a program. -/
structure Analysis.Tells (a : Analysis) (source : List Char) (effects : List Effect)
    (earlier : List Moment) (last : Moment) : Prop where
  steps_eq : a.steps = (earlier ++ [last]).map Moment.step
  isChain : (earlier ++ [last]).IsChain (Moment.Next source)
  initial : ∃ first, (earlier ++ [last]).head? = some first ∧ first.Initial effects

/-- What an analysis says about its end. -/
structure Analysis.Accounts (a : Analysis) (limits : AnalysisLimits) (source : List Char)
    (effects : List Effect) (earlier : List Moment) (last : Moment) :
    Prop extends a.Tells source effects earlier last where
  /-- Neither ceiling is passed, but for the first and the final step, which are
  always told of. -/
  length_le : a.steps.length ≤ max limits.maxSteps 2
  runs_le : a.steps.countP (·.IsRun) ≤ limits.maxIterations
  /-- Only the last step can be marked, and it is marked exactly if something is
  left to do. -/
  plain : ∀ m ∈ earlier, m.step.truncated = false
  truncated_iff : last.step.truncated = true ↔
    a.replayed < effects.length ∨ last.step.micro ≠ [] ∨ last.step.timed ≠ []
  /-- Then, and only then, there is a report of a ceiling. -/
  warnings_eq : if last.step.truncated then ∃ c,
    a.warnings = advice source ++ [ceilingWarning limits c] else a.warnings = advice source

namespace Analysis.Tells

variable {a : Analysis} {source : List Char} {effects : List Effect}
  {earlier : List Moment} {last : Moment}

theorem length_left (h : a.Tells source effects earlier last) :
    effects.length = last.left.length + a.replayed := by
  obtain ⟨first, hfirst, hinitial⟩ := h.initial
  rw [← hinitial.left, replayed, h.steps_eq]
  exact Moment.length_left h.isChain hfirst List.getLast?_concat

/-- Where nothing waits in a queue, all that was ever handed to it has run. -/
theorem handed_eq_ran (h : a.Tells source effects earlier last) {k : QueueKind}
    (hempty : last.queue k = []) :
    Moment.along (Moment.handed source k) (earlier ++ [last]) =
      Moment.along (Moment.ran k) (earlier ++ [last]) := by
  obtain ⟨first, hfirst, hinitial⟩ := h.initial
  have hstart : first.queue k = [] := by
    cases k with
    | micro => exact hinitial.micro
    | timed => exact hinitial.timed
  have hledger := Moment.ledger h.isChain hfirst List.getLast?_concat k
  simpa [hstart, hempty] using hledger

end Analysis.Tells

theorem accounts_analyzeProgram (limits : AnalysisLimits) (source : List Char) (p : Program) :
    ∃ (earlier : List Moment) (last : Moment),
      (analyzeProgram limits source p).Accounts limits source
        (programEffects source p) earlier last := by
  obtain ⟨s, left, hsimulate, htraced, hbounded, hstopped⟩ :=
    Simulation.exists_finish_eq_simulate source limits (programEffects_regular source p)
  obtain ⟨last, earlier, hat, hsteps, hchain, first, hfirst, hinitial⟩ := htraced.finish.run
  obtain ⟨t, hnewest, hmarked, hrun, hmicro, htimed, hsame⟩ := s.exists_newest_finish
  obtain ⟨rfl, hearlier⟩ : t = last.step ∧ s.newest = earlier.map Moment.step := by
    simpa using hnewest.symm.trans hsteps
  -- The simulation keeps its newest step first, its result the oldest.
  have htells : (analyzeProgram limits source p).Tells source
      (programEffects source p) earlier.reverse last := by
    rw [← List.head?_reverse] at hfirst
    refine ⟨?_, ?_, first, ?_, hinitial⟩
    · show (simulate source limits (programEffects source p)).newest.reverse = _
      rw [hsimulate, hsteps]
      simp
    · exact List.reverse_cons ▸ List.isChain_reverse.2 hchain
    · exact List.reverse_cons ▸ hfirst
  refine ⟨earlier.reverse, last, htells, ?_, ?_, ?_, ?_, ?_⟩
  · have hlength := hbounded.length_lt
    rw [hearlier, List.length_map] at hlength
    simp only [htells.steps_eq, List.length_map, List.length_append,
      List.length_reverse, List.length_singleton]
    omega
  · have hruns := hbounded.runs_le
    rw [hearlier] at hruns
    rw [htells.steps_eq]
    simpa [List.countP_reverse, hrun] using hruns
  · intro m hm
    refine hbounded.plain m.step ?_
    rw [hearlier]
    exact List.mem_map_of_mem (List.mem_reverse.1 hm)
  · have hleft := htells.length_left
    rw [hat.left] at hleft
    have hreplayed : left ≠ [] ↔
        (analyzeProgram limits source p).replayed < (programEffects source p).length := by
      rw [← List.length_pos_iff_ne_nil]
      omega
    simp [hmarked, hstopped, hreplayed, hmicro, htimed]
  · have hwarnings : (analyzeProgram limits source p).warnings =
        advice source ++ (s.stopped.map (ceilingWarning limits)).toList := by
      rw [← hsame, ← hsimulate]
      rfl
    cases hs : s.stopped with
    | none => simp [hmarked, hs, hwarnings]
    | some c => simp [hmarked, hs, hwarnings]

/-- Every analysis accounts for its end.  One that was not cut short has replayed all effects
of the program, and in each queue the jobs that were ever handed to it are those that ran, in
this order. -/
theorem analyze_accounts {source : String} {p : Program} (hp : parseProgram source = .ok p)
    (limits : AnalysisLimits) :
    ∃ (a : Analysis) (earlier : List Moment) (last : Moment), analyze limits source = .ok a ∧
      a.Accounts limits source.toList (programEffects source.toList p) earlier last ∧
      (last.step.truncated = false →
        a.replayed = (programEffects source.toList p).length ∧
          last.step.micro = [] ∧ last.step.timed = [] ∧
        ∀ k, Moment.along (Moment.handed source.toList k) (earlier ++ [last]) =
          Moment.along (Moment.ran k) (earlier ++ [last])) := by
  obtain ⟨earlier, last, haccounts⟩ := accounts_analyzeProgram limits source.toList p
  refine ⟨_, earlier, last, ?_, haccounts, fun hunmarked => ?_⟩
  · unfold analyze
    rw [hp]
    rfl
  have hdone := haccounts.truncated_iff.not.1 (by simp [hunmarked])
  simp only [not_or, ne_eq, not_not] at hdone
  obtain ⟨hreplayed, hmicro, htimed⟩ := hdone
  refine ⟨?_, hmicro, htimed, fun k => haccounts.handed_eq_ran ?_⟩
  · have hleft := haccounts.length_left
    omega
  · cases k with
    | micro => exact List.map_eq_nil_iff.1 (last.micro_labels.symm.trans hmicro)
    | timed => exact List.map_eq_nil_iff.1 (last.timed_labels.symm.trans htimed)

/-- A timer, and a microtask in a microtask. -/
def recurring : String :=
  "setTimeout(f); queueMicrotask(() => queueMicrotask(f));"

/-- With a ceiling of one callback the second microtask and the timer wait at the end, with
one of three nothing does. -/
theorem recurring_accounts : ∃ (p : Program) (a b : Analysis) (earlier earlier' : List Moment)
    (last last' : Moment), parseProgram recurring = .ok p ∧
    analyze { maxIterations := 1 } recurring = .ok a ∧
      analyze { maxIterations := 3 } recurring = .ok b ∧
    a.Accounts { maxIterations := 1 } recurring.toList
      (programEffects recurring.toList p) earlier last ∧
    last.step.truncated = true ∧ last.step.micro = ["nested microtask"] ∧
      last.step.timed = ["timeout cb"] ∧
    b.Accounts { maxIterations := 3 } recurring.toList
      (programEffects recurring.toList p) earlier' last' ∧
    last'.step.truncated = false ∧
    Moment.along (Moment.handed recurring.toList .micro) (earlier' ++ [last']) =
      Moment.along (Moment.ran .micro) (earlier' ++ [last']) := by
  have hcut : (analyze { maxIterations := 1 } recurring).toOption.bind
      (fun a => a.steps.getLast?.map fun t => (t.truncated, t.micro, t.timed)) =
      some (true, ["nested microtask"], ["timeout cb"]) := by
    decide +kernel
  have huncut : (analyze { maxIterations := 3 } recurring).toOption.bind
      (fun a => a.steps.getLast?.map (·.truncated)) = some false := by
    decide +kernel
  obtain ⟨p, hp⟩ : ∃ p, parseProgram recurring = .ok p := by
    cases hp : parseProgram recurring with
    | ok p => exact ⟨p, rfl⟩
    | error e => simp [analyze, hp, Except.map, Except.toOption] at hcut
  obtain ⟨a, earlier, last, ha, haccounts, -⟩ := analyze_accounts hp { maxIterations := 1 }
  obtain ⟨b, earlier', last', hb, haccounts', hcomplete⟩ :=
    analyze_accounts hp { maxIterations := 3 }
  obtain ⟨hmarked, hmicro, htimed⟩ : last.step.truncated = true ∧
      last.step.micro = ["nested microtask"] ∧
      last.step.timed = ["timeout cb"] := by
    simpa [ha, Except.toOption, haccounts.steps_eq] using hcut
  have hunmarked : last'.step.truncated = false := by
    simpa [hb, Except.toOption, haccounts'.steps_eq] using huncut
  exact ⟨p, a, b, earlier, earlier', last, last', hp, ha, hb, haccounts, hmarked, hmicro,
    htimed, haccounts', hunmarked, (hcomplete hunmarked).2.2.2 .micro⟩

end ScriptReplay
