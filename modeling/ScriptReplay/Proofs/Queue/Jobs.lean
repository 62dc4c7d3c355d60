/-
What code hands to the queues.

* `Effect.job?`, `Effect.text?` : an effect as a job for a queue and as a line
  that is printed;
* `Job.Regular` : the callbacks behind a job are microtasks;
* `callbackEffects_regular`, `programEffects_regular` : no code hands over any other job;
* `Simulation.foldl_apply` : the effects of a callback, queue by queue.
-/
import Mathlib.Data.List.Basic
import ScriptReplay.Queue.Analysis

namespace ScriptReplay

/-! ### Effects by what they change -/

/-- The job that an effect puts in a queue. -/
def Effect.job? (k : QueueKind) : Effect → Option Job
  | .schedule job _ => if job.queue = k then some job else none
  | _ => none

/-- The line that an effect prints. -/
def Effect.text? : Effect → Option String
  | .log text _ => some text
  | _ => none

/-- A job is regular if all callbacks behind it are microtasks. -/
def Job.Regular (j : Job) : Prop :=
  ∀ link ∈ j.chained, link.source.queue = .micro

/-- An effect is regular if it hands over no other job. -/
def Effect.Regular : Effect → Prop
  | .schedule job _ => job.Regular
  | _ => True

theorem Effect.Regular.job {e : Effect} (he : e.Regular) {k : QueueKind} {j : Job}
    (hj : e.job? k = some j) : j.Regular := by
  cases e with
  | schedule job line =>
    obtain ⟨-, heq⟩ := Option.ite_none_right_eq_some.1 hj
    cases heq
    exact he
  | log text line => cases hj
  | declared name line => cases hj

theorem Job.Regular.next {j next : Job} (hj : j.Regular) (h : j.next? = some next) :
    next.queue = .micro ∧ next.Regular := by
  unfold Job.next? at h
  cases hc : j.chained with
  | nil =>
    rw [hc] at h
    cases h
  | cons link rest =>
    rw [hc] at h
    cases h
    have hall : ∀ l ∈ link :: rest, l.source.queue = .micro := hc ▸ hj
    exact ⟨hall link List.mem_cons_self, fun l hl => hall l (List.mem_cons_of_mem _ hl)⟩

/-! ### Code hands over regular jobs -/

theorem promiseJob?_regular {source : List Char} {place : CallPlace} {e : Expr} {job : Job}
    (h : promiseJob? source place e = some job) : job.Regular := by
  unfold promiseJob? at h
  split at h
  · cases h
    intro link hlink
    obtain ⟨callback, -, rfl⟩ := List.mem_map.1 hlink
    rfl
  · cases h

theorem exprEffects_regular (source : List Char) (place : CallPlace) (mayAwait : Bool)
    (e : Expr) : ∀ effect ∈ exprEffects source place mayAwait e, effect.Regular := by
  -- The effects are those of a part, one effect, or none.
  fun_induction exprEffects source place mayAwait e with
  | case1 e loc ih => exact ih
  | case6 _ _ _ _ _ _ _ _ _ _ ih => exact ih
  | case3 =>
    intro effect h
    rw [List.mem_singleton.1 h]
    exact trivial
  | case4 =>
    intro effect h
    rw [List.mem_singleton.1 h]
    exact fun _ hlink => (List.not_mem_nil hlink).elim
  | case5 _ _ _ _ _ _ hjob =>
    intro effect h
    rw [List.mem_singleton.1 h]
    exact promiseJob?_regular hjob
  | case2 | case7 | case8 => exact fun _ h => (List.not_mem_nil h).elim

theorem declaratorEffects_regular (source : List Char) (place : CallPlace)
    (ds : List Declarator) :
    ∀ effect ∈ declaratorEffects source place ds, effect.Regular := by
  intro effect h
  obtain ⟨d, -, h⟩ := List.mem_flatMap.1 h
  obtain ⟨e, -, h⟩ := List.mem_flatMap.1 h
  exact exprEffects_regular source place true e effect h

theorem programEffects_regular (source : List Char) (p : Program) :
    ∀ effect ∈ programEffects source p, effect.Regular := by
  intro effect h
  obtain ⟨s, -, h⟩ := List.mem_flatMap.1 h
  unfold topEffects at h
  split at h
  · exact exprEffects_regular source _ _ _ effect h
  · exact declaratorEffects_regular source _ _ effect h
  · obtain ⟨name, -, rfl⟩ := Option.map_eq_some_iff.1 (Option.mem_toList.1 h)
    exact trivial
  · cases h

theorem callbackEffects_regular (source : List Char) (callback : Expr) :
    ∀ effect ∈ callbackEffects source callback, effect.Regular := by
  intro effect h
  unfold callbackEffects at h
  split at h
  · cases h
  split at h
  · obtain ⟨s, -, h⟩ := List.mem_flatMap.1 h
    unfold innerEffects at h
    split at h
    · exact exprEffects_regular source _ _ _ effect h
    · exact declaratorEffects_regular source _ _ effect h
    · cases h
  · exact exprEffects_regular source _ _ _ effect h

namespace Simulation

theorem jobEffects_regular (source : List Char) (j : Job) :
    ∀ effect ∈ jobEffects source j, effect.Regular := by
  unfold jobEffects
  split
  · exact callbackEffects_regular source _
  · exact fun _ h => (List.not_mem_nil h).elim

/-! ### Callbacks -/

theorem apply_eq (s : Simulation) (e : Effect) :
    s.apply e = { s with
      micro := s.micro ++ (e.job? .micro).toList
      timed := s.timed ++ (e.job? .timed).toList
      output := s.output ++ e.text?.toList } := by
  cases e with
  | log text line => simp [apply, Effect.job?, Effect.text?]
  | declared name line => simp [apply, Effect.job?, Effect.text?]
  | schedule job line =>
    cases hk : job.queue <;> simp [apply, enqueue, Effect.job?, Effect.text?, hk]

/-- The effects of a callback go to the ends of the queues and of what is printed. -/
theorem foldl_apply (s : Simulation) (effects : List Effect) :
    effects.foldl apply s = { s with
      micro := s.micro ++ effects.filterMap (Effect.job? .micro)
      timed := s.timed ++ effects.filterMap (Effect.job? .timed)
      output := s.output ++ effects.filterMap Effect.text? } := by
  induction effects generalizing s with
  | nil => simp
  | cons e rest ih =>
    rw [List.foldl_cons, ih, apply_eq]
    simp [List.filterMap_eq_flatMap_toList]

end Simulation

end ScriptReplay
