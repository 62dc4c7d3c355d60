/-
With enough room every analysis ends by itself.

* `Job.weight` : a bound on the callbacks that can come of a job;
* `weight_callbackEffects_lt` : what a callback hands over weighs less than the callback;
* `Simulation.weight_runJob_lt` : so the jobs that wait weigh less after each callback,
  however many it hands over;
* `Simulation.Ample.stopped_turns` : ceilings above the weight do not stop the loop;
* `analyze_completes` : so there are ceilings under which no analysis of a source is cut
  short, and then each job that was ever handed to a queue has run once.

Design notes: nothing is evaluated, so what a callback hands over stands in its own text.
The weight of a callback is the size of its tree, and the trees of the callbacks that it hands
over are disjoint parts of that.
-/
import Mathlib.Algebra.GroupWithZero.Nat
import ScriptReplay.Proofs.Queue.Raising

namespace ScriptReplay

/-! ### Weights -/

/-- The size of the tree of a callback, and one for the callback itself. -/
noncomputable def Link.weight (l : Link) : Nat :=
  (l.callback.map sizeOf).getD 0 + 1

/-- The weight of a job is that of all its callbacks. -/
noncomputable def Job.weight (j : Job) : Nat :=
  j.link.weight + (j.chained.map Link.weight).sum

/-- An effect weighs what it hands over. -/
noncomputable def Effect.weight : Effect → Nat
  | .schedule job _ => job.weight
  | _ => 0

/-- The weight of some effects. -/
noncomputable def totalWeight (effects : List Effect) : Nat :=
  (effects.map Effect.weight).sum

theorem totalWeight_append (effects effects' : List Effect) :
    totalWeight (effects ++ effects') = totalWeight effects + totalWeight effects' := by
  simp [totalWeight]

theorem Job.weight_pos (j : Job) : 0 < j.weight :=
  Nat.add_pos_left (Nat.succ_pos _) _

theorem Job.weight_eq (j : Job) :
    j.weight = j.link.weight + (j.next?.toList.map Job.weight).sum := by
  unfold Job.weight Job.next?
  cases j.chained with
  | nil => rfl
  | cons link rest => simp

/-! ### Callbacks hand over less than themselves -/

/-- The callbacks of a chain of promises are disjoint parts of its tree. -/
theorem sum_thenCallbacks_le {e : Expr} {callbacks : List Expr}
    (h : thenCallbacks? e = some callbacks) :
    (callbacks.map fun callback => sizeOf callback + 1).sum ≤ sizeOf e := by
  fun_induction thenCallbacks? e generalizing callbacks with
  | case1 object method loc arguments loc' hthen ih =>
    obtain ⟨earlier, hearlier, rfl⟩ := Option.map_eq_some_iff.1 h
    have hobject := ih hearlier
    have hhead : (arguments.head?.toList.map fun callback => sizeOf callback + 1).sum ≤
        sizeOf arguments := by
      cases arguments with
      | nil => simp
      | cons first rest =>
        simp only [List.head?_cons, Option.toList_some, List.map_cons, List.map_nil,
          List.sum_singleton, List.cons.sizeOf_spec]
        omega
    simp only [List.map_append, List.sum_append,
      Expr.call.sizeOf_spec, Expr.member.sizeOf_spec]
    omega
  | case2 object method loc arguments loc' _ _ ih =>
    have hobject := ih h
    simp only [Expr.call.sizeOf_spec, Expr.member.sizeOf_spec]
    omega
  | case3 =>
    cases h
    simp
  | case4 => cases h
  | case5 => cases h

theorem weight_timerJob_le (source : JobSource) (place : CallPlace) (arguments : List Expr)
    (line : Nat) : (timerJob source place arguments line).weight ≤ sizeOf arguments + 1 := by
  cases arguments with
  | nil => simp [timerJob, Job.weight, Link.weight]
  | cons first rest =>
    simp only [timerJob, Job.weight, Link.weight, List.head?_cons, Option.map_some,
      Option.getD_some, List.map_nil, List.sum_nil, List.cons.sizeOf_spec]
    omega

theorem weight_promiseJob_le {source : List Char} {place : CallPlace} {e : Expr} {job : Job}
    (h : promiseJob? source place e = some job) : job.weight ≤ sizeOf e := by
  unfold promiseJob? at h
  split at h
  · next first rest hcallbacks =>
    cases h
    have hsum := sum_thenCallbacks_le hcallbacks
    simpa [Job.weight, Link.weight, firstLink, laterLink, Function.comp_def] using hsum
  · cases h

theorem weight_exprEffects_le (source : List Char) (place : CallPlace) (mayAwait : Bool)
    (e : Expr) : totalWeight (exprEffects source place mayAwait e) ≤ sizeOf e := by
  -- One effect at most: that of a part, or one whose callbacks are among the arguments of
  -- the call.
  fun_induction exprEffects source place mayAwait e with
  | case1 e loc ih =>
    simp only [Expr.await.sizeOf_spec]
    omega
  | case4 mayAwait callee arguments loc e timer =>
    have hweight := weight_timerJob_le timer place arguments loc.line
    simp only [totalWeight, Effect.weight, List.map_cons, List.map_nil,
      List.sum_singleton, Expr.call.sizeOf_spec]
    omega
  | case5 _ _ _ _ _ _ hjob =>
    simp only [totalWeight, Effect.weight, List.map_cons, List.map_nil, List.sum_singleton]
    exact weight_promiseJob_le hjob
  | case6 _ _ _ _ _ _ _ _ _ _ ih =>
    simp only [Expr.call.sizeOf_spec, Expr.member.sizeOf_spec]
    omega
  | case2 | case3 | case7 | case8 => simp [totalWeight, Effect.weight]

/-- The effects of the members of a list weigh at most what the list does. -/
theorem totalWeight_flatMap_le {α : Type} [SizeOf α] {f : α → List Effect}
    (hf : ∀ x, totalWeight (f x) ≤ sizeOf x) (xs : List α) :
    totalWeight (xs.flatMap f) ≤ sizeOf xs := by
  induction xs with
  | nil => simp [totalWeight]
  | cons x rest ih =>
    have hx := hf x
    rw [List.flatMap_cons, totalWeight_append]
    simp only [List.cons.sizeOf_spec]
    omega

theorem weight_declaratorEffects_le (source : List Char) (place : CallPlace)
    (ds : List Declarator) : totalWeight (declaratorEffects source place ds) ≤ sizeOf ds := by
  refine totalWeight_flatMap_le (fun d => ?_) ds
  obtain ⟨name, init, loc⟩ := d
  cases init with
  | none => simp [totalWeight]
  | some e =>
    have he := weight_exprEffects_le source place true e
    simp only [Option.toList_some, List.flatMap_cons, List.flatMap_nil, List.append_nil,
      Declarator.mk.sizeOf_spec, Option.some.sizeOf_spec]
    omega

theorem weight_innerEffects_le (source : List Char) (s : Stmt) :
    totalWeight (innerEffects source s) ≤ sizeOf s := by
  unfold innerEffects
  split
  · next e loc =>
    have he := weight_exprEffects_le source .callback true e
    simp only [Stmt.expr.sizeOf_spec]
    omega
  · next kind ds loc =>
    have hds := weight_declaratorEffects_le source .callback ds
    simp only [Stmt.declare.sizeOf_spec]
    omega
  · exact Nat.zero_le _

/-- What a callback hands over weighs less than the callback. -/
theorem weight_callbackEffects_lt (source : List Char) (callback : Expr) :
    totalWeight (callbackEffects source callback) < sizeOf callback + 1 := by
  cases callback with
  | function r loc =>
    obtain ⟨name, params, body, isArrow, isAsync, loc', bodyLoc⟩ := r
    have hbody : totalWeight (callbackEffects source
        (.function ⟨name, params, body, isArrow, isAsync, loc', bodyLoc⟩ loc)) ≤
        sizeOf body := by
      cases body with
      | block statements =>
        have hstatements := totalWeight_flatMap_le (weight_innerEffects_le source) statements
        simp only [callbackEffects, Expr.routine?, Body.block.sizeOf_spec]
        omega
      | value e =>
        have he := weight_exprEffects_le source .callback true e
        simp only [callbackEffects, Expr.routine?, Body.value.sizeOf_spec]
        omega
    simp only [Expr.function.sizeOf_spec, Routine.mk.sizeOf_spec]
    omega
  | _ => exact Nat.succ_pos _

theorem weight_jobEffects_lt (source : List Char) (j : Job) :
    totalWeight (Simulation.jobEffects source j) < j.link.weight := by
  unfold Simulation.jobEffects Link.weight
  cases j.link.callback with
  | none => exact Nat.succ_pos _
  | some callback => exact weight_callbackEffects_lt source callback

/-! ### The loop -/

namespace Simulation

/-- The weight of the jobs that wait. -/
noncomputable def weight (s : Simulation) : Nat :=
  (s.micro.map Job.weight).sum + (s.timed.map Job.weight).sum

variable {source : List Char} {count : Nat} {s : Simulation} {goOn : Simulation → Simulation}

theorem weight_enqueue (s : Simulation) (j : Job) :
    (s.enqueue j).weight = s.weight + j.weight := by
  unfold enqueue
  split
  · simp only [weight, List.map_append, List.sum_append, List.map_cons,
      List.map_nil, List.sum_singleton]
    omega
  · simp only [weight, List.map_append, List.sum_append, List.map_cons,
      List.map_nil, List.sum_singleton]
    omega

theorem weight_apply (s : Simulation) (e : Effect) :
    (s.apply e).weight = s.weight + e.weight := by
  cases e with
  | log text line => rfl
  | declared name line => rfl
  | schedule job line => exact s.weight_enqueue job

theorem weight_foldl_apply (s : Simulation) (effects : List Effect) :
    (effects.foldl apply s).weight = s.weight + totalWeight effects := by
  induction effects generalizing s with
  | nil => rfl
  | cons e rest ih =>
    rw [List.foldl_cons, ih, weight_apply]
    simp only [totalWeight, List.map_cons, List.sum_cons]
    omega

/-- Whatever a job hands over, all jobs together weigh less after it. -/
theorem weight_runJob_lt (source : List Char) (s : Simulation) (j : Job) (phase : Phase)
    (title : String) : (runJob source s j phase title).weight < s.weight + j.weight := by
  have hweight : (runJob source s j phase title).weight =
      (j.next?.toList.foldl enqueue ((jobEffects source j).foldl apply s)).weight := rfl
  have hnext : (j.next?.toList.foldl enqueue ((jobEffects source j).foldl apply s)).weight =
      s.weight + totalWeight (jobEffects source j) + (j.next?.toList.map Job.weight).sum := by
    cases j.next? with
    | none => simp [weight_foldl_apply]
    | some next => simp [weight_foldl_apply, weight_enqueue]
  have hlt := weight_jobEffects_lt source j
  have heq := j.weight_eq
  omega

/-- Neither ceiling is met while the jobs that wait, and all that come of them, run: each
takes two steps at most. -/
structure Ample (count : Nat) (s : Simulation) : Prop where
  stopped : s.stopped = none
  weight_le : s.weight ≤ count
  length_lt : s.newest.length + 2 * s.weight < s.limits.maxSteps

/-- A job that has left its queue runs, perhaps after a step that tells of what comes next. -/
theorem Ample.runJob (h : s.Ample (count + 1)) (taken : Simulation) {j : Job}
    (hweight : taken.weight + j.weight = s.weight) (hstopped : taken.stopped = s.stopped)
    (hlimits : taken.limits = s.limits) (hlength : taken.newest.length ≤ s.newest.length + 1)
    (phase : Phase) (title : String) : (runJob source taken j phase title).Ample count := by
  obtain ⟨t, hadds⟩ := exists_adds_runJob source taken j phase title
  have hlt := weight_runJob_lt source taken j phase title
  have hle := h.weight_le
  have hroom := h.length_lt
  refine ⟨hadds.stopped.trans (hstopped.trans h.stopped), by omega, ?_⟩
  rw [hadds.limits, hlimits, hadds.newest, List.length_cons]
  omega

theorem ifRoom_of_lt (hroom : s.newest.length + 1 < s.limits.maxSteps) :
    s.ifRoom goOn = goOn s :=
  if_pos (decide_eq_true hroom)

/-- The step that a loop adds between two callbacks leaves room for the second. -/
theorem ifRoom_note_of_lt (hroom : s.newest.length + 2 < s.limits.maxSteps)
    (description : String) (phase : Phase) :
    (s.note description none phase).ifRoom goOn = goOn (s.note description none phase) :=
  ifRoom_of_lt hroom

theorem empty_of_weight_eq_zero (h : s.weight = 0) : s.micro = [] ∧ s.timed = [] := by
  have hnil : ∀ jobs : List Job, (jobs.map Job.weight).sum = 0 → jobs = [] := by
    intro jobs hsum
    cases jobs with
    | nil => rfl
    | cons job rest =>
      have hpos := job.weight_pos
      simp only [List.map_cons, List.sum_cons] at hsum
      omega
  unfold weight at h
  exact ⟨hnil _ (by omega), hnil _ (by omega)⟩

/-- A loop with ample room is never stopped. -/
theorem Ample.stopped_turns (h : s.Ample count) (first : Bool) (timedRuns : Nat) :
    (s.turns source count first timedRuns).stopped = none := by
  induction count generalizing s first timedRuns with
  | zero =>
    obtain ⟨hmicro, htimed⟩ := empty_of_weight_eq_zero (Nat.le_zero.1 h.weight_le)
    rw [turns_of_empty hmicro htimed]
    exact h.stopped
  | succ count ih =>
    have hroom := h.length_lt
    cases hmicro : s.micro with
    | cons job rest =>
      have hpos := job.weight_pos
      -- The weight of the job pays for its run: its callbacks weigh less than it does.
      have hweight : ({ s with micro := rest } : Simulation).weight +
          job.weight = s.weight := by
        simp only [weight, hmicro, List.map_cons, List.sum_cons]
        omega
      rw [turns_of_micro hmicro, ifRoom_of_lt (by omega), betweenMicrotasks]
      split
      · exact ih (h.runJob { s with micro := rest } hweight rfl rfl (Nat.le_succ _) _ _)
          false timedRuns
      · rw [ifRoom_note_of_lt (by omega)]
        exact ih
          (h.runJob { s.note nextMicrotask none .micro with micro := rest } hweight rfl rfl
            (Nat.le_refl _) _ _) false timedRuns
    | nil =>
      cases htimed : s.timed with
      | cons job rest =>
        have hpos := job.weight_pos
        have hweight : ({ s with timed := rest } : Simulation).weight +
            job.weight = s.weight := by
          simp only [weight, htimed, List.map_cons, List.sum_cons]
          omega
        rw [turns_of_timed hmicro htimed, ifRoom_of_lt (by omega),
          ifRoom_note_of_lt (by omega)]
        exact ih (h.runJob { s.note (nextTimed timedRuns) none .idle with timed := rest }
          hweight rfl rfl (Nat.le_refl _) _ _) true (timedRuns + 1)
      | nil =>
        rw [turns_of_empty hmicro htimed]
        exact h.stopped

theorem stopped_loop (hs : s.stopped = none) (hweight : s.weight ≤ s.limits.maxIterations)
    (hroom : s.newest.length + 2 * s.weight + 1 < s.limits.maxSteps) :
    (s.loop source).stopped = none := by
  unfold loop
  dsimp only
  split
  · exact Ample.stopped_turns ⟨hs, hweight, by omega⟩ true 0
  · rw [ifRoom_of_lt (by omega)]
    have hlength : s.newest.length + 1 + 2 * s.weight < s.limits.maxSteps := by omega
    have hnote : (s.note programDone none .idle).Ample s.limits.maxIterations :=
      ⟨hs, hweight, hlength⟩
    exact hnote.stopped_turns true 0

/-! ### The program -/

theorem weight_replay (s : Simulation) (e : Effect) :
    (s.replay e).weight = s.weight + e.weight := by
  rw [← weight_apply]
  obtain ⟨hmicro, htimed, -⟩ := replay_eq_apply s e
  unfold weight
  rw [hmicro, htimed]

/-- With room for all its effects the program is not stopped, and hands over all that
they weigh. -/
theorem replayAll_of_lt {effects : List Effect}
    (hroom : s.newest.length + effects.length < s.limits.maxSteps) :
    (s.replayAll effects).stopped = s.stopped ∧ (s.replayAll effects).limits = s.limits ∧
      (s.replayAll effects).newest.length = s.newest.length + effects.length ∧
      (s.replayAll effects).weight = s.weight + totalWeight effects := by
  induction effects generalizing s with
  | nil => exact ⟨rfl, rfl, rfl, rfl⟩
  | cons e rest ih =>
    rw [List.length_cons] at hroom
    obtain ⟨t, hadds, -⟩ := exists_adds_replay s e
    have hlength : (s.replay e).newest.length = s.newest.length + 1 := by
      rw [hadds.newest, List.length_cons]
    obtain ⟨hstopped, hlimits, hlength', hweight⟩ :=
      @ih (s.replay e) (by rw [hadds.limits, hlength]; omega)
    have heq : s.replayAll (e :: rest) = (s.replay e).replayAll rest := by
      rw [replayAll]
      exact if_pos (decide_eq_true (by omega))
    rw [heq]
    refine ⟨hstopped.trans hadds.stopped, hlimits.trans hadds.limits, ?_, ?_⟩
    · rw [hlength', hlength, List.length_cons]
      omega
    · rw [hweight, weight_replay]
      simp only [totalWeight, List.map_cons, List.sum_cons]
      omega

/-- Ceilings above what the effects of a program need do not stop its simulation. -/
theorem stopped_unfinished (source : List Char) (limits : AnalysisLimits)
    (effects : List Effect)
    (hsteps : effects.length + 2 * totalWeight effects + 2 < limits.maxSteps)
    (hruns : totalWeight effects ≤ limits.maxIterations) :
    (unfinished source limits effects).stopped = none := by
  have hroom : (begun limits).newest.length +
      effects.length < (begun limits).limits.maxSteps := by
    show 1 + effects.length < limits.maxSteps
    omega
  obtain ⟨hstopped, hlimits, hlength, hweight⟩ := replayAll_of_lt hroom
  have hprogram : ((start limits).program effects).stopped = none ∧
      ((start limits).program effects).limits = limits ∧
      ((start limits).program effects).newest.length = 1 + effects.length ∧
      ((start limits).program effects).weight = 0 + totalWeight effects :=
      ⟨hstopped, hlimits, hlength, hweight⟩
  unfold unfinished
  dsimp only
  generalize (start limits).program effects = s at hprogram
  obtain ⟨hs, rfl, hlength', hweight'⟩ := hprogram
  rw [if_pos (by simp [hs])]
  exact stopped_loop hs (by omega) (by omega)

/-- Every simulation starts with the step that says so. -/
theorem begun_suffix_unfinished (source : List Char) (limits : AnalysisLimits)
    (effects : List Effect) :
    (begun limits).newest <:+ (unfinished source limits effects).newest := by
  have hprogram : (begun limits).newest <:+ ((start limits).program effects).newest :=
    keepsSteps_replayAll effects (begun limits)
  unfold unfinished
  dsimp only
  split
  · exact hprogram.trans (keepsSteps_loop source _)
  · exact hprogram

end Simulation

/-! ### Callbacks that ran -/

namespace Moment

variable {source : List Char} {a b : Moment}

/-- A step that tells of a callback tells of one job. -/
theorem Next.length_ran (h : a.Next source b) :
    (ran .micro a b).length + (ran .timed a b).length = if b.step.IsRun then 1 else 0 := by
  by_cases hrun : b.step.IsRun
  · obtain ⟨hphase, job, rest, hqueue, -⟩ | ⟨hphase, -, job, rest, hqueue, -⟩ :=
      h.of_phase hrun
    · simp [ran, queue, QueueKind.phase, hrun, hphase, hqueue]
    · simp [ran, queue, QueueKind.phase, hrun, hphase, hqueue]
  · simp [ran, hrun]

theorem length_ran {run : List Moment} (hrun : run.IsChain (Next source)) :
    (along (ran .micro) run).length + (along (ran .timed) run).length =
      (run.map Moment.step).tail.countP (·.IsRun) := by
  induction run with
  | nil => rfl
  | cons a rest ih =>
    cases rest with
    | nil => rfl
    | cons b rest =>
      obtain ⟨hnext, hrest⟩ := List.isChain_cons_cons.1 hrun
      have hb := ih hrest
      have ha := hnext.length_ran
      have halong : ∀ k, along (ran k) (a :: b :: rest) = ran k a b ++
          along (ran k) (b :: rest) :=
        fun _ => rfl
      simp only [halong, List.length_append, List.map_cons, List.tail_cons, List.countP_cons,
        decide_eq_true_eq] at hb ⊢
      omega

end Moment

/-- The first step of an analysis tells of no callback. -/
theorem exists_steps_analyzeProgram (limits : AnalysisLimits) (source : List Char)
    (p : Program) :
    ∃ first rest, (analyzeProgram limits source p).steps = first :: rest ∧ ¬ first.IsRun := by
  obtain ⟨later, hlater⟩ :=
    Simulation.begun_suffix_unfinished source limits (programEffects source p)
  obtain ⟨final, hfinal, -⟩ :=
    (Simulation.unfinished source limits (programEffects source p)).exists_newest_finish
  obtain ⟨first, hfirst, hrun⟩ : ∃ first,
      (Simulation.begun limits).newest = [first] ∧ ¬ first.IsRun :=
    ⟨_, rfl, by simp [QueueStep.IsRun, Simulation.stepOf]⟩
  refine ⟨first, later.reverse ++ [final], ?_, hrun⟩
  show (Simulation.unfinished source limits (programEffects source p)).finish.newest.reverse =
    _
  rw [hfinal, ← hlater, hfirst]
  simp

namespace Analysis

variable {a : Analysis} {source : List Char} {effects : List Effect}
  {earlier : List Moment} {last : Moment}

theorem Tells.isTruncated_eq (h : a.Tells source effects earlier last) :
    a.isTruncated = last.step.truncated := by
  rw [isTruncated, h.steps_eq, List.map_append, List.map_singleton, List.getLast?_concat]
  rfl

/-- Nothing waits at the end of an analysis that was not cut short. -/
theorem Accounts.queue_eq_nil {limits : AnalysisLimits}
    (h : a.Accounts limits source effects earlier last) (hcut : a.isTruncated = false)
    (k : QueueKind) : last.queue k = [] := by
  rw [h.toTells.isTruncated_eq] at hcut
  obtain ⟨-, hempty⟩ := not_or.1 (h.truncated_iff.not.1 (by simp [hcut]))
  obtain ⟨hmicro, htimed⟩ := not_or.1 hempty
  cases k with
  | micro => exact List.map_eq_nil_iff.1 (last.micro_labels.symm.trans (not_not.1 hmicro))
  | timed => exact List.map_eq_nil_iff.1 (last.timed_labels.symm.trans (not_not.1 htimed))

end Analysis

/-- For every source there are ceilings from which on its analysis is not cut short.  Then
the jobs that were ever handed to a queue, by the program, by a callback or as the next of a
chain, are those that ran from it, in this order, and each has a step of its own. -/
theorem analyze_completes {source : String} {p : Program} (hp : parseProgram source = .ok p) :
    ∃ n, ∀ limits : AnalysisLimits, n ≤ limits.maxSteps → n ≤ limits.maxIterations →
      ∃ (a : Analysis) (earlier : List Moment) (last : Moment),
        analyze limits source = .ok a ∧ a.isTruncated = false ∧
        a.Tells source.toList (programEffects source.toList p) earlier last ∧
        (∀ k, Moment.along (Moment.handed source.toList k) (earlier ++ [last]) =
          Moment.along (Moment.ran k) (earlier ++ [last])) ∧
        a.steps.countP (·.IsRun) =
          (Moment.along (Moment.handed source.toList .micro) (earlier ++ [last])).length +
          (Moment.along (Moment.handed source.toList .timed) (earlier ++ [last])).length := by
  let effects := programEffects source.toList p
  refine ⟨effects.length + 2 * totalWeight effects + 3, fun limits hsteps hruns => ?_⟩
  obtain ⟨earlier, last, haccounts⟩ := accounts_analyzeProgram limits source.toList p
  have hstopped :=
    Simulation.stopped_unfinished source.toList limits effects (by omega) (by omega)
  have hcut : (analyzeProgram limits source.toList p).isTruncated = false := by
    rw [← Bool.not_eq_true, (dropLast_steps_analyzeProgram limits source.toList p).2]
    exact not_not.2 hstopped
  have hran : ∀ k, Moment.along (Moment.handed source.toList k) (earlier ++ [last]) =
      Moment.along (Moment.ran k) (earlier ++ [last]) :=
    fun k => haccounts.handed_eq_ran (haccounts.queue_eq_nil hcut k)
  refine ⟨_, earlier, last, analyze_eq_ok hp limits, hcut, haccounts.toTells, hran, ?_⟩
  have hlength := Moment.length_ran haccounts.isChain
  obtain ⟨first, rest, hfirst, hrun⟩ := exists_steps_analyzeProgram limits source.toList p
  rw [← haccounts.steps_eq, hfirst, List.tail_cons] at hlength
  rw [hran, hran, hlength, hfirst, List.countP_cons_of_neg (by simpa using hrun)]

/-- A timer in a microtask that is the second of a chain. -/
def postponing : String :=
  "Promise.resolve().then(f).then(() => setTimeout(() => queueMicrotask(g)));"

theorem postponing_completes : ∃ (p : Program) (n : Nat), parseProgram postponing = .ok p ∧
    (analyze {} postponing).toOption.map (fun a => a.steps.countP (·.IsRun)) = some 4 ∧
    ∀ limits : AnalysisLimits, n ≤ limits.maxSteps → n ≤ limits.maxIterations →
      ∃ (a : Analysis) (earlier : List Moment) (last : Moment),
        analyze limits postponing = .ok a ∧ a.isTruncated = false ∧
        Moment.along (Moment.handed postponing.toList .micro) (earlier ++ [last]) =
          Moment.along (Moment.ran .micro) (earlier ++ [last]) := by
  have hcount : (analyze {} postponing).toOption.map
      (fun a => a.steps.countP (·.IsRun)) = some 4 := by
    decide +kernel
  obtain ⟨p, hp⟩ : ∃ p, parseProgram postponing = .ok p := by
    cases hp : parseProgram postponing with
    | ok p => exact ⟨p, rfl⟩
    | error e => simp [analyze, hp, Except.map, Except.toOption] at hcount
  obtain ⟨n, hn⟩ := analyze_completes hp
  refine ⟨p, n, hp, hcount, fun limits hsteps hruns => ?_⟩
  obtain ⟨a, earlier, last, ha, hcut, -, hran, -⟩ := hn limits hsteps hruns
  exact ⟨a, earlier, last, ha, hcut, hran .micro⟩

end ScriptReplay
