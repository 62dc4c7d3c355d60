/-
The steps of an analysis are a run of two queues.

* `Moment` : a step with the jobs behind its labels;
* `Moment.Next` : the moments that may follow a moment;
* `Simulation.Traced` : a simulation whose steps are such a run so far;
* `Simulation.Traced.turns` : the loop keeps to it;
* `analyze_isChain` : so the steps of every analysis are one.

Design notes: a step shows only the labels of the jobs that wait, and two jobs can have the
same label.  So what a callback does is said of moments, whose jobs go back to the effects
of the program.
-/
import Mathlib.Data.List.Chain
import ScriptReplay.Proofs.Queue.Jobs

namespace ScriptReplay

/-! ### Moments -/

/-- A step with the jobs that wait and the effects of the program that have not
been replayed. -/
structure Moment where
  step : QueueStep
  left : List Effect
  micro : List Job
  timed : List Job
  micro_labels : step.micro = micro.map (·.link.label)
  timed_labels : step.timed = timed.map (·.link.label)

/-- A step that tells of a callback. -/
def QueueStep.IsRun (t : QueueStep) : Prop :=
  (t.phase = .micro ∨ t.phase = .timed) ∧ t.codeLine.isSome

/-- At most one queue has grown, by one label at its end. -/
def QueueStep.Grows (s t : QueueStep) : Prop :=
  (t.micro = s.micro ∧ t.timed = s.timed) ∨
  (∃ label, t.micro = s.micro ++ [label] ∧ t.timed = s.timed) ∨
  (∃ label, t.micro = s.micro ∧ t.timed = s.timed ++ [label])

namespace Moment

/-- The moment `b` after `a` tells of `job`, which has left the jobs `micro` and `timed`
behind.  The jobs of its callback follow these, then comes the next job of its own chain. -/
structure Runs (source : List Char) (a b : Moment) (job : Job) (micro timed : List Job) :
    Prop where
  stack : b.step.stack = [job.link.label]
  micro : b.micro =
    micro ++ (Simulation.jobEffects source job).filterMap (Effect.job? .micro) ++
    job.next?.toList
  timed : b.timed = timed ++ (Simulation.jobEffects source job).filterMap (Effect.job? .timed)
  output : b.step.output =
    a.step.output ++ (Simulation.jobEffects source job).filterMap Effect.text?
  left : a.left = [] ∧ b.left = []

/-- What may follow a moment: an effect of the program, a microtask, a timed task if no
microtask waits, or a step that changes nothing. -/
structure Next (source : List Char) (a b : Moment) : Prop where
  /-- Lines are only ever added. -/
  output : a.step.output <+: b.step.output
  /-- The program puts one job at a time at the end of a queue. -/
  grows : b.step.phase = .sync → a.step.Grows b.step
  /-- A step of the program is its next effect. -/
  sync : b.step.phase = .sync → ∃ e, a.left = e :: b.left ∧
    b.micro = a.micro ++ (e.job? .micro).toList ∧
    b.timed = a.timed ++ (e.job? .timed).toList ∧
    b.step.output = a.step.output ++ e.text?.toList
  /-- The microtask that runs is the first one. -/
  micro : b.step.IsRun → b.step.phase = .micro →
    ∃ job rest, a.micro = job :: rest ∧ a.Runs source b job rest a.timed
  /-- The timed task that runs is the first one, and no microtask waits. -/
  timed : b.step.IsRun → b.step.phase = .timed →
    a.micro = [] ∧ ∃ job rest, a.timed = job :: rest ∧ a.Runs source b job [] rest
  /-- All other steps change nothing. -/
  still : b.step.phase ≠ .sync → ¬ b.step.IsRun →
    b.micro = a.micro ∧ b.timed = a.timed ∧ b.step.output = a.step.output ∧ b.left = a.left

/-- The moment before anything has happened. -/
structure Initial (m : Moment) (effects : List Effect) : Prop where
  left : m.left = effects
  micro : m.micro = []
  timed : m.timed = []
  output : m.step.output = []

variable {source : List Char} {a b : Moment}

theorem Next.of_sync {e : Effect} (hphase : b.step.phase = .sync)
    (hleft : a.left = e :: b.left) (hmicro : b.micro = a.micro ++ (e.job? .micro).toList)
    (htimed : b.timed = a.timed ++ (e.job? .timed).toList)
    (houtput : b.step.output = a.step.output ++ e.text?.toList) : a.Next source b := by
  have hrun : ¬ b.step.IsRun := by
    rintro ⟨hmicro | htimed, -⟩
    · cases hphase.symm.trans hmicro
    · cases hphase.symm.trans htimed
  refine ⟨houtput ▸ List.prefix_append _ _, fun _ => ?_, fun _ =>
    ⟨e, hleft, hmicro, htimed, houtput⟩,
    fun h => absurd h hrun, fun h => absurd h hrun, fun h => absurd hphase h⟩
  -- One effect hands over at most one job, and to one queue only.
  unfold QueueStep.Grows
  rw [a.micro_labels, a.timed_labels, b.micro_labels, b.timed_labels, hmicro, htimed]
  cases e with
  | log text line => exact .inl (by simp [Effect.job?])
  | declared name line => exact .inl (by simp [Effect.job?])
  | schedule job line =>
    cases hk : job.queue with
    | micro => exact .inr (.inl ⟨job.link.label, by simp [Effect.job?, hk]⟩)
    | timed => exact .inr (.inr ⟨job.link.label, by simp [Effect.job?, hk]⟩)

theorem Next.of_still (hphase : b.step.phase ≠ .sync) (hrun : ¬ b.step.IsRun)
    (hmicro : b.micro = a.micro) (htimed : b.timed = a.timed)
    (houtput : b.step.output = a.step.output) (hleft : b.left = a.left) : a.Next source b :=
  ⟨houtput ▸ List.prefix_refl _, fun h => absurd h hphase, fun h => absurd h hphase,
    fun h => absurd h hrun, fun h => absurd h hrun, fun _ _ =>
    ⟨hmicro, htimed, houtput, hleft⟩⟩

theorem Next.of_micro {job : Job} {rest : List Job} (hphase : b.step.phase = .micro)
    (hline : b.step.codeLine.isSome) (hmicro : a.micro = job :: rest)
    (hruns : a.Runs source b job rest a.timed) : a.Next source b := by
  have hsync : b.step.phase ≠ .sync := by simp [hphase]
  have htimed : b.step.phase ≠ .timed := by simp [hphase]
  exact ⟨hruns.output ▸ List.prefix_append _ _, fun h =>
    absurd h hsync, fun h => absurd h hsync,
    fun _ _ => ⟨job, rest, hmicro, hruns⟩, fun _ h => absurd h htimed,
    fun _ h => absurd ⟨.inl hphase, hline⟩ h⟩

theorem Next.of_timed {job : Job} {rest : List Job} (hphase : b.step.phase = .timed)
    (hline : b.step.codeLine.isSome) (hmicro : a.micro = []) (htimed : a.timed = job :: rest)
    (hruns : a.Runs source b job [] rest) : a.Next source b := by
  have hsync : b.step.phase ≠ .sync := by simp [hphase]
  have hmicro' : b.step.phase ≠ .micro := by simp [hphase]
  exact ⟨hruns.output ▸ List.prefix_append _ _, fun h =>
    absurd h hsync, fun h => absurd h hsync,
    fun _ h => absurd h hmicro', fun _ _ => ⟨hmicro, job, rest, htimed, hruns⟩,
    fun _ h => absurd ⟨.inr hphase, hline⟩ h⟩

/-- A moment shows the state of a simulation with some effects of the program left. -/
structure At (m : Moment) (s : Simulation) (left : List Effect) : Prop where
  left : m.left = left
  micro : m.micro = s.micro
  timed : m.timed = s.timed
  output : m.step.output = s.output

end Moment

namespace Simulation

/-! ### Traced simulations -/

/-- The steps of a simulation are those of a run of moments, the last of which
shows its state. -/
structure Traced (source : List Char) (effects left : List Effect) (s : Simulation) :
    Prop where
  micro_regular : ∀ job ∈ s.micro, job.Regular
  timed_regular : ∀ job ∈ s.timed, job.Regular
  run : ∃ (last : Moment) (earlier : List Moment), last.At s left ∧
    s.newest = (last :: earlier).map Moment.step ∧
    (last :: earlier).IsChain (fun b a => a.Next source b) ∧
    ∃ first, (last :: earlier).getLast? = some first ∧ first.Initial effects

variable {source : List Char} {effects left left' : List Effect} {s s' : Simulation}

theorem Traced.extend (h : s.Traced source effects left) {m : Moment} (hm : m.At s' left')
    (hnewest : s'.newest = m.step :: s.newest)
    (hnext : ∀ a : Moment, a.At s left → a.Next source m)
    (hmicro : ∀ job ∈ s'.micro, job.Regular) (htimed : ∀ job ∈ s'.timed, job.Regular) :
    s'.Traced source effects left' := by
  obtain ⟨last, earlier, hat, hsteps, hchain, hfirst⟩ := h.run
  refine ⟨hmicro, htimed, m, last :: earlier, hm, ?_, ?_, ?_⟩
  · rw [hnewest, hsteps]
    rfl
  · exact List.isChain_cons_cons.2 ⟨hnext last hat, hchain⟩
  · rw [List.getLast?_cons_cons]
    exact hfirst

/-- A step between two callbacks, or the final one. -/
theorem Traced.add (h : s.Traced source effects left) {t : QueueStep}
    (hmicro : t.micro = s.micro.map (·.link.label))
    (htimed : t.timed = s.timed.map (·.link.label)) (houtput : t.output = s.output)
    (hphase : t.phase ≠ .sync) (hline : t.codeLine = none) :
    (s.add t).Traced source effects left := by
  refine h.extend (m := ⟨t, left, s.micro, s.timed, hmicro, htimed⟩)
    ⟨rfl, rfl, rfl, houtput⟩ rfl (fun a ha => ?_) h.micro_regular h.timed_regular
  have hrun : ¬ t.IsRun := fun hrun => by simp [QueueStep.IsRun, hline] at hrun
  exact .of_still hphase hrun ha.micro.symm ha.timed.symm
    (houtput.trans ha.output.symm) ha.left.symm

theorem Traced.note (h : s.Traced source effects left) (description : String) {phase : Phase}
    (hphase : phase ≠ .sync) : (s.note description none phase).Traced source effects left :=
  h.add rfl rfl rfl hphase rfl

/-- The stack and the ceiling do not matter. -/
theorem Traced.congr (h : s.Traced source effects left) (hnewest : s'.newest = s.newest)
    (hmicro : s'.micro = s.micro) (htimed : s'.timed = s.timed)
    (houtput : s'.output = s.output) : s'.Traced source effects left := by
  obtain ⟨last, earlier, hat, hsteps, hrest⟩ := h.run
  refine ⟨hmicro ▸ h.micro_regular, htimed ▸ h.timed_regular, last, earlier, ?_,
    hnewest.trans hsteps, hrest⟩
  exact ⟨hat.left, hat.micro.trans hmicro.symm, hat.timed.trans htimed.symm,
    hat.output.trans houtput.symm⟩

theorem Traced.stop (h : s.Traced source effects left) (c : Ceiling) :
    (s.stop c).Traced source effects left :=
  h.congr rfl rfl rfl rfl

/-! ### The program -/

/-- An effect of the program changes what an effect of a callback does. -/
theorem replay_eq_apply (s : Simulation) (e : Effect) :
    (s.replay e).micro = (s.apply e).micro ∧ (s.replay e).timed = (s.apply e).timed ∧
      (s.replay e).output = (s.apply e).output := by
  cases e with
  | log text line => exact ⟨rfl, rfl, rfl⟩
  | declared name line => exact ⟨rfl, rfl, rfl⟩
  | schedule job line => exact ⟨rfl, rfl, rfl⟩

theorem newest_enqueue (s : Simulation) (job : Job) : (s.enqueue job).newest = s.newest := by
  unfold enqueue
  split
  · rfl
  · rfl

/-- An effect of the program is a step that shows what it has changed. -/
theorem exists_newest_replay (s : Simulation) (e : Effect) :
    ∃ t : QueueStep, (s.replay e).newest = t :: s.newest ∧ t.phase = .sync ∧
      t.micro = (s.replay e).micro.map (·.link.label) ∧
      t.timed = (s.replay e).timed.map (·.link.label) ∧ t.output = (s.replay e).output := by
  cases e with
  | log text line => exact ⟨_, rfl, rfl, rfl, rfl, rfl⟩
  | declared name line => exact ⟨_, rfl, rfl, rfl, rfl, rfl⟩
  | schedule job line => exact ⟨_, congrArg _ (newest_enqueue s job), rfl, rfl, rfl, rfl⟩

theorem Traced.replay {e : Effect} (h : s.Traced source effects (e :: left))
    (he : e.Regular) : (s.replay e).Traced source effects left := by
  obtain ⟨t, hnewest, hphase, hmicroLabels, htimedLabels, houtputShown⟩ :=
    exists_newest_replay s e
  obtain ⟨hmicro, htimed, houtput⟩ := replay_eq_apply s e
  rw [apply_eq] at hmicro htimed houtput
  have hregular : ∀ k, ∀ job ∈ (e.job? k).toList, job.Regular :=
    fun k job hjob => he.job (Option.mem_toList.1 hjob)
  refine h.extend (m := ⟨t, left, _, _, hmicroLabels, htimedLabels⟩)
    ⟨rfl, rfl, rfl, houtputShown⟩ hnewest (fun a ha => ?_) ?_ ?_
  · refine .of_sync hphase ha.left ?_ ?_ ?_
    · rw [ha.micro]
      exact hmicro
    · rw [ha.timed]
      exact htimed
    · rw [ha.output]
      exact houtputShown.trans houtput
  · rw [hmicro]
    exact List.forall_mem_append.2 ⟨h.micro_regular, hregular .micro⟩
  · rw [htimed]
    exact List.forall_mem_append.2 ⟨h.timed_regular, hregular .timed⟩

theorem stopped_stop (hs : s.stopped = none) (c : Ceiling) : (s.stop c).stopped = some c := by
  simp [Simulation.stop, hs]

theorem stopped_replay (s : Simulation) (e : Effect) : (s.replay e).stopped = s.stopped := by
  cases e with
  | log text line => rfl
  | declared name line => rfl
  | schedule job line =>
    cases hk : job.queue <;> simp [Simulation.replay, Simulation.add, enqueue, hk]

/-- The program ends with all effects replayed, or is cut short. -/
theorem Traced.replayAll (h : s.Traced source effects left) (hs : s.stopped = none)
    (hleft : ∀ e ∈ left, e.Regular) :
    ∃ left', (s.replayAll left).Traced source effects left' ∧
      ((s.replayAll left).stopped = none ↔ left' = []) := by
  induction left generalizing s with
  | nil => exact ⟨[], h, fun _ => rfl, fun _ => hs⟩
  | cons e rest ih =>
    obtain ⟨he, hrest⟩ := List.forall_mem_cons.1 hleft
    unfold Simulation.replayAll
    split
    · exact ih (h.replay he) ((stopped_replay s e).trans hs) hrest
    · exact ⟨e :: rest, h.stop .steps, by simp [stopped_stop hs]⟩

/-! ### Callbacks -/

/-- The state after a job, but for the step that tells of it. -/
def afterJob (source : List Char) (s : Simulation) (j : Job) : Simulation :=
  { s with
    micro := s.micro ++ (jobEffects source j).filterMap (Effect.job? .micro) ++ j.next?.toList
    timed := s.timed ++ (jobEffects source j).filterMap (Effect.job? .timed)
    output := s.output ++ (jobEffects source j).filterMap Effect.text? }

theorem runJob_eq {j : Job} (hj : j.Regular) (source : List Char)
    (s : Simulation) (phase : Phase)
    (title : String) :
    runJob source s j phase title = { afterJob source s j with
      newest :=
        ({ afterJob source s j with stack := s.stack ++ [j.link.label] } : Simulation).stepOf
        (title ++ " runs: " ++ replaceFirst j.link.label " cb" " callback")
          (some j.link.line) phase :: s.newest } := by
  have henqueue : j.next?.toList.foldl enqueue ((jobEffects source j).foldl apply s) =
      afterJob source s j := by
    rw [foldl_apply]
    unfold afterJob
    cases hnext : j.next? with
    | none => simp
    -- The next job of a regular one is a microtask, and goes behind those of the callback.
    | some next => simp [enqueue, (hj.next hnext).1]
  unfold runJob
  dsimp only
  rw [henqueue]
  rfl

/-- All jobs that wait after a regular job are regular. -/
theorem regular_afterJob {j : Job} (hj : j.Regular) (source : List Char)
    (hmicro : ∀ job ∈ s.micro, job.Regular) (htimed : ∀ job ∈ s.timed, job.Regular) :
    (∀ job ∈ (afterJob source s j).micro, job.Regular) ∧
      ∀ job ∈ (afterJob source s j).timed, job.Regular := by
  have heffects : ∀ k, ∀ job ∈ (jobEffects source j).filterMap (Effect.job? k),
      job.Regular := by
    intro k job hjob
    obtain ⟨e, he, hjob⟩ := List.mem_filterMap.1 hjob
    exact (jobEffects_regular source j e he).job hjob
  have hnext : ∀ job ∈ j.next?.toList, job.Regular :=
    fun job hjob => (hj.next (Option.mem_toList.1 hjob)).2
  exact ⟨List.forall_mem_append.2 ⟨List.forall_mem_append.2 ⟨hmicro, heffects .micro⟩, hnext⟩,
    List.forall_mem_append.2 ⟨htimed, heffects .timed⟩⟩

/-- Between callbacks the program has ended and nothing is on the stack. -/
structure Looping (source : List Char) (effects : List Effect) (s : Simulation) : Prop where
  traced : s.Traced source effects []
  stack : s.stack = []

/-- A job that has been taken from a queue of `s`, which leaves `taken`, runs. -/
theorem Looping.take (h : s.Looping source effects) (taken : Simulation) {j : Job}
    {phase : Phase} (hnewest : taken.newest = s.newest) (hstack : taken.stack = s.stack)
    (houtput : taken.output = s.output) (hmicro : ∀ job ∈ taken.micro, job.Regular)
    (htimed : ∀ job ∈ taken.timed, job.Regular) (hj : j.Regular)
    (hnext : ∀ a b : Moment, a.At s [] → a.Runs source b j taken.micro taken.timed →
      b.step.phase = phase → b.step.codeLine.isSome → a.Next source b)
    (title : String) : (runJob source taken j phase title).Looping source effects := by
  have hregular := regular_afterJob hj source hmicro htimed
  rw [runJob_eq hj]
  refine ⟨h.traced.extend (m := ⟨_, [], _, _, rfl, rfl⟩) ⟨rfl, rfl, rfl, rfl⟩
    (congrArg _ hnewest) (fun a ha => ?_) hregular.1 hregular.2, hstack.trans h.stack⟩
  refine hnext a _ ha ⟨?_, rfl, rfl, ?_, ha.left, rfl⟩ rfl rfl
  · show taken.stack ++ [j.link.label] = [j.link.label]
    rw [hstack, h.stack]
    rfl
  · rw [ha.output, ← houtput]
    rfl

theorem Looping.runMicro (h : s.Looping source effects) {job : Job} {rest : List Job}
    (hmicro : s.micro = job :: rest) (title : String) :
    (Simulation.runJob source { s with micro := rest } job .micro title).Looping
      source effects := by
  obtain ⟨hjob, hrest⟩ := List.forall_mem_cons.1 (hmicro ▸ h.traced.micro_regular)
  refine h.take { s with micro := rest } rfl rfl rfl hrest h.traced.timed_regular hjob
    (fun a b ha hruns hphase hline => ?_) title
  exact .of_micro hphase hline (ha.micro.trans hmicro) (ha.timed ▸ hruns)

theorem Looping.runTimed (h : s.Looping source effects) {job : Job} {rest : List Job}
    (hmicro : s.micro = []) (htimed : s.timed = job :: rest) (title : String) :
    (Simulation.runJob source { s with timed := rest } job .timed title).Looping
      source effects := by
  obtain ⟨hjob, hrest⟩ := List.forall_mem_cons.1 (htimed ▸ h.traced.timed_regular)
  refine h.take { s with timed := rest } rfl rfl rfl h.traced.micro_regular hrest hjob
    (fun a b ha hruns hphase hline => ?_) title
  exact .of_timed hphase hline (ha.micro.trans hmicro)
    (ha.timed.trans htimed) (hmicro ▸ hruns)

/-! ### The loop -/

theorem Looping.note (h : s.Looping source effects) (description : String) {phase : Phase}
    (hphase : phase ≠ .sync) : (s.note description none phase).Looping source effects :=
  ⟨h.traced.note description hphase, h.stack⟩

theorem Looping.stop (h : s.Looping source effects) (c : Ceiling) :
    (s.stop c).Looping source effects :=
  ⟨h.traced.stop c, h.stack⟩

theorem Looping.ifRoom (h : s.Looping source effects) {goOn : Simulation → Simulation}
    (hgoOn : (goOn s).Looping source effects) : (s.ifRoom goOn).Looping source effects := by
  unfold Simulation.ifRoom
  split
  · exact hgoOn
  · exact h.stop .steps

theorem Looping.betweenMicrotasks (h : s.Looping source effects) (first : Bool)
    {goOn : Simulation → Simulation}
    (hgoOn : ∀ s' : Simulation, s'.Looping source effects → s'.micro = s.micro →
      (goOn s').Looping source effects) :
    (s.betweenMicrotasks first goOn).Looping source effects := by
  unfold Simulation.betweenMicrotasks
  split
  · exact hgoOn s h rfl
  · have hnote := h.note nextMicrotask (show Phase.micro ≠ .sync by decide)
    exact hnote.ifRoom (hgoOn _ hnote rfl)

/-- A turn takes the first microtask, or the first timed task if no microtask waits. -/
theorem Looping.turns (h : s.Looping source effects) (count : Nat) (first : Bool)
    (timedRuns : Nat) : (s.turns source count first timedRuns).Looping source effects := by
  -- Every ceiling check leaves a state of the loop, so only the callbacks have to be
  -- followed.
  induction count generalizing s first timedRuns with
  | zero =>
    unfold Simulation.turns
    split
    · exact h
    · exact h.stop .iterations
  | succ count ih =>
    unfold Simulation.turns
    split
    · next job rest hmicro =>
      refine h.ifRoom (h.betweenMicrotasks first fun s' hs' hsame => ?_)
      exact ih (hs'.runMicro (hsame.trans hmicro) _) false timedRuns
    · next job rest hmicro htimed =>
      have hnote := h.note (nextTimed timedRuns) (show Phase.idle ≠ .sync by decide)
      refine h.ifRoom (hnote.ifRoom ?_)
      exact ih (hnote.runTimed hmicro htimed _) true (timedRuns + 1)
    · exact h

theorem Looping.loop (h : s.Looping source effects) :
    (s.loop source).Looping source effects := by
  unfold Simulation.loop
  dsimp only
  split
  · exact h.turns _ true 0
  · exact h.ifRoom ((h.note programDone (by decide)).turns _ true 0)

/-! ### The whole run -/

theorem Traced.finish (h : s.Traced source effects left) :
    s.finish.Traced source effects left := by
  have hphase : Phase.idle ≠ .sync := by decide
  unfold Simulation.finish
  split
  · exact h.add rfl rfl rfl hphase rfl
  · exact h.note _ hphase

/-- The first step shows empty queues. -/
theorem traced_program (source : List Char) (limits : AnalysisLimits) {effects : List Effect}
    (heffects : ∀ e ∈ effects, e.Regular) :
    ∃ left, ((start limits).program effects).Traced source effects left ∧
      (((start limits).program effects).stopped = none ↔ left = []) := by
  have hfirst : (({ start limits with stack := ["<script>"] } : Simulation).note
      "Script starts executing. Global execution context pushed to call stack." none
      .sync).Traced source effects effects := by
    have hempty : ∀ job ∈ ([] : List Job), job.Regular := fun _ h => (List.not_mem_nil h).elim
    exact ⟨hempty, hempty, ⟨_, effects, [], [], rfl, rfl⟩, [],
      ⟨rfl, rfl, rfl, rfl⟩, rfl, .singleton _,
      _, rfl, ⟨rfl, rfl, rfl, rfl⟩⟩
  obtain ⟨left, htraced, hleft⟩ := hfirst.replayAll rfl heffects
  exact ⟨left, htraced.congr rfl rfl rfl rfl, hleft⟩

theorem traced_simulate (source : List Char) (limits : AnalysisLimits) {effects : List Effect}
    (heffects : ∀ e ∈ effects, e.Regular) :
    ∃ left, (simulate source limits effects).Traced source effects left := by
  obtain ⟨left, htraced, hleft⟩ := traced_program source limits heffects
  unfold simulate
  dsimp only
  split
  · next hnone =>
    -- Nothing has stopped the program, so none of its effects is left.
    obtain rfl := hleft.1 (Option.isNone_iff_eq_none.1 hnone)
    exact ⟨[], (Looping.loop ⟨htraced, rfl⟩).traced.finish⟩
  · exact ⟨left, htraced.finish⟩

end Simulation

/-- The steps of an analysis are those of a run that starts with empty queues and the effects
of the program.  In such a run what is printed only grows, an effect of the program is a step
of its own and adds at most one job, and no timed task runs while a microtask waits. -/
theorem analyze_isChain {source : String} {p : Program} (hp : parseProgram source = .ok p)
    (limits : AnalysisLimits) :
    ∃ (a : Analysis) (run : List Moment), analyze limits source = .ok a ∧
      a.steps = run.map Moment.step ∧ run.IsChain (Moment.Next source.toList) ∧
      ∃ first, run.head? = some first ∧ first.Initial (programEffects source.toList p) := by
  obtain ⟨left, htraced⟩ := Simulation.traced_simulate source.toList limits
    (programEffects_regular source.toList p)
  obtain ⟨last, earlier, -, hsteps, hchain, first, hfirst, hinitial⟩ := htraced.run
  refine ⟨analyzeProgram limits source.toList p, (last :: earlier).reverse, ?_,
    ?_, ?_, first, ?_, hinitial⟩
  · unfold analyze
    rw [hp]
    rfl
  · show (simulate source.toList limits (programEffects source.toList p)).newest.reverse = _
    rw [hsteps, List.map_reverse]
  · exact List.isChain_reverse.2 hchain
  · rw [List.head?_reverse]
    exact hfirst

/-- A timer, and a promise whose first callback hands over a microtask. -/
def nesting : String :=
  "setTimeout(f); Promise.resolve().then(() => queueMicrotask(g)).then(h);"

theorem nesting_isChain : ∃ (p : Program) (a : Analysis) (run : List Moment),
    parseProgram nesting = .ok p ∧ analyze {} nesting = .ok a ∧
    (a.steps.filter (·.codeLine.isSome)).map (·.micro) = [[], ["promise cb"],
      ["nested microtask", "chained promise cb"], ["chained promise cb"], [], []] ∧
    a.steps = run.map Moment.step ∧ run.IsChain (Moment.Next nesting.toList) := by
  obtain ⟨p, hp⟩ : ∃ p, parseProgram nesting = .ok p := by
    have hok : (parseProgram nesting).isOk = true := by decide +kernel
    cases hp : parseProgram nesting with
    | ok p => exact ⟨p, rfl⟩
    | error e => simp [hp, Except.isOk, Except.toBool] at hok
  obtain ⟨a, run, ha, hsteps, hchain, -⟩ := analyze_isChain hp {}
  have hmicro : (analyze {} nesting).toOption.map
      (fun a => (a.steps.filter (·.codeLine.isSome)).map (·.micro)) =
      some [[], ["promise cb"],
        ["nested microtask", "chained promise cb"], ["chained promise cb"], [], []] := by
    decide +kernel
  rw [ha] at hmicro
  exact ⟨p, a, run, hp, ha, Option.some.inj hmicro, hsteps, hchain⟩

end ScriptReplay
