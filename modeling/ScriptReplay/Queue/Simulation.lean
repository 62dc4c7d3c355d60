/-
The two queues at work.

First the program itself runs to its end.  Then the microtask queue is emptied, one timed task
runs, and so on in turn until both queues are empty or a ceiling is met.

* `Simulation` : the state;
* `Simulation.replay` : an effect of the program;
* `Simulation.runJob` : a callback;
* `Simulation.turns` : the turns of the loop;
* `simulate` : all of it.

Design notes: a turn is one callback, and the ceiling on callbacks is counted down, so the
loop ends with the recursion on what is left of it.  The last place below the step ceiling is
kept for the final step.
-/
import ScriptReplay.Limits
import ScriptReplay.Queue.Effects
import ScriptReplay.Text.Search

namespace ScriptReplay

/-! ### Steps -/

/-- What runs during a step. -/
inductive Phase where
  | sync
  | micro
  | timed
  | idle
  deriving DecidableEq, Repr

/-- The word for a phase. -/
def Phase.text : Phase → String
  | sync => "sync"
  | micro => "micro"
  | timed => "macro"
  | idle => "idle"

/-- One step of a simulation: labels of what is on the stack and in the queues, and the lines
printed so far.  Lines of code count from zero here; steps between tasks have none. -/
structure QueueStep where
  description : String
  codeLine : Option Nat
  stack : List String
  micro : List String
  timed : List String
  output : List String
  phase : Phase
  webApi : Option String
  truncated : Bool
  deriving DecidableEq, Repr

/-- The ceiling that cut a simulation short. -/
inductive Ceiling where
  | steps
  | iterations
  deriving DecidableEq, Repr

/-! ### The state -/

/-- The state of a simulation.  Steps are kept newest first, queues with the
next job first. -/
structure Simulation where
  limits : AnalysisLimits
  newest : List QueueStep
  stack : List String
  micro : List Job
  timed : List Job
  output : List String
  stopped : Option Ceiling

namespace Simulation

/-- The state before anything runs. -/
def start (limits : AnalysisLimits) : Simulation :=
  ⟨limits, [], [], [], [], [], none⟩

/-- The steps in order. -/
def steps (s : Simulation) : List QueueStep :=
  s.newest.reverse

/-- The step that shows the state.  `line` counts from one. -/
def stepOf (s : Simulation) (description : String) (line : Option Nat) (phase : Phase) :
    QueueStep where
  description := description
  codeLine := line.map (· - 1)
  stack := s.stack
  micro := s.micro.map (·.link.label)
  timed := s.timed.map (·.link.label)
  output := s.output
  phase := phase
  webApi := none
  truncated := false

/-- Adds a step. -/
def add (s : Simulation) (step : QueueStep) : Simulation :=
  { s with newest := step :: s.newest }

/-- Adds a step that shows the state. -/
def note (s : Simulation) (description : String) (line : Option Nat) (phase : Phase) :
    Simulation :=
  s.add (s.stepOf description line phase)

/-- Whether there is room for a step besides the final one. -/
def hasRoom (s : Simulation) : Bool :=
  s.newest.length + 1 < s.limits.maxSteps

/-- Cuts the simulation short. -/
def stop (s : Simulation) (c : Ceiling) : Simulation :=
  { s with stopped := s.stopped.or (some c) }

/-- Goes on if there is room for a step. -/
def ifRoom (s : Simulation) (goOn : Simulation → Simulation) : Simulation :=
  if s.hasRoom then goOn s else s.stop .steps

/-- Puts a job at the end of its queue. -/
def enqueue (s : Simulation) (j : Job) : Simulation :=
  match j.queue with
  | .micro => { s with micro := s.micro ++ [j] }
  | .timed => { s with timed := s.timed ++ [j] }

/-! ### The program -/

/-- How a job that the program queues is told of. -/
def registration (j : Job) : String :=
  let api := j.link.source.api
  match j.queue with
  | .timed => api ++ " registers callback in Web APIs, adds to macrotask queue"
  | .micro =>
    if 0 < j.pending then
      api ++ " registers callback in microtask queue (" ++ toString j.pending ++
        " chained callback(s) wait for it)"
    else api ++ " registers callback in microtask queue"

/-- The part of the surroundings that a queued job keeps busy. -/
def webApi? (j : Job) : Option String :=
  match j.queue with
  | .timed => some "setTimeout"
  | .micro => none

/-- Replays an effect of the program. -/
def replay (s : Simulation) : Effect → Simulation
  | .log text line =>
    let label := "console.log('" ++ text ++ "')"
    let shown := { s with stack := s.stack ++ [label], output := s.output ++ [text] }
    { shown.note (label ++ " executes immediately (synchronous)") (some line) .sync with
      stack := s.stack }
  | .declared name line =>
    s.note ("Function " ++ name ++ " declared. Its body runs only when called.")
      (some line) .sync
  | .schedule job line =>
    let s := s.enqueue job
    s.add { s.stepOf (registration job) (some line) .sync with webApi := webApi? job }

/-- Replays the effects of the program in order, as long as there is room. -/
def replayAll (s : Simulation) : List Effect → Simulation
  | [] => s
  | e :: rest => if s.hasRoom then (s.replay e).replayAll rest else s.stop .steps

/-! ### Callbacks -/

/-- Applies an effect of a callback, which is not a step of its own. -/
def apply (s : Simulation) : Effect → Simulation
  | .log text _ => { s with output := s.output ++ [text] }
  | .declared _ _ => s
  | .schedule job _ => s.enqueue job

/-- The effects of a job. -/
def jobEffects (source : List Char) (j : Job) : List Effect :=
  match j.link.callback with
  | some callback => callbackEffects source callback
  | none => []

/-- Runs a job that has left its queue: the effects of its callback, then the next job of its
chain, and one step that tells of it as `title`. -/
def runJob (source : List Char) (s : Simulation) (j : Job) (phase : Phase) (title : String) :
    Simulation :=
  let s := (jobEffects source j).foldl apply s
  let s := j.next?.toList.foldl enqueue s
  let name := replaceFirst j.link.label " cb" " callback"
  { ({ s with stack := s.stack ++ [j.link.label] } : Simulation).note
      (title ++ " runs: " ++ name) (some j.link.line) phase with
    stack := s.stack }

/-! ### The loop -/

/-- What is said between one microtask and the next. -/
def nextMicrotask : String :=
  "Microtask queue not empty - process next microtask."

/-- What is said before a timed task. -/
def nextTimed (timedRuns : Nat) : String :=
  if timedRuns = 0 then "Microtask queue empty. Now event loop processes macrotask queue."
  else "Macrotask done. Check microtasks (empty), then next macrotask."

/-- Notes what is said between two microtasks, and goes on if there is still room.  Nothing is
said before the `first`. -/
def betweenMicrotasks (s : Simulation) (first : Bool) (goOn : Simulation → Simulation) :
    Simulation :=
  if first then goOn s else (s.note nextMicrotask none .micro).ifRoom goOn

/-- The turns of the loop: at most `left` jobs, a microtask if there is one.  `first`
holds until a microtask has run since the last timed task, and `timedRuns` counts the
timed tasks. -/
def turns (source : List Char) (left : Nat) (first : Bool) (timedRuns : Nat)
    (s : Simulation) : Simulation :=
  match left with
  | 0 => if s.micro.isEmpty && s.timed.isEmpty then s else s.stop .iterations
  | left + 1 =>
    match s.micro, s.timed with
    | job :: rest, _ =>
      let title := if 0 < timedRuns then "Nested microtask" else "Microtask"
      s.ifRoom fun s => s.betweenMicrotasks first fun s =>
        turns source left false timedRuns
          (runJob source { s with micro := rest } job .micro title)
    | [], job :: rest =>
      s.ifRoom fun s => (s.note (nextTimed timedRuns) none .idle).ifRoom fun s =>
        turns source left true (timedRuns + 1)
          (runJob source { s with timed := rest } job .timed "Macrotask")
    | [], [] => s

/-- What is said when the program has ended and jobs wait. -/
def programDone : String :=
  "Synchronous code done. Script pops off. Event loop checks microtasks FIRST!"

/-- The loop, after the program has ended. -/
def loop (source : List Char) (s : Simulation) : Simulation :=
  let go := turns source s.limits.maxIterations true 0
  if s.micro.isEmpty && s.timed.isEmpty then go s
  else s.ifRoom fun s => go (s.note programDone none .idle)

/-- Adds the final step. -/
def finish (s : Simulation) : Simulation :=
  match s.stopped with
  | some _ =>
    let waiting := s.micro.length + s.timed.length
    let step := s.stepOf
      ("Simulation truncated. " ++ toString waiting ++ " task(s) left in queues.") none .idle
    s.add { step with truncated := true }
  | none => s.note "All queues empty. Event loop waits for new tasks." none .idle

/-- The program, with its own entry on the stack. -/
def program (s : Simulation) (effects : List Effect) : Simulation :=
  let s := { s with stack := ["<script>"] }
  let s := s.note "Script starts executing. Global execution context pushed to call stack."
    none .sync
  { s.replayAll effects with stack := [] }

end Simulation

/-- Runs the effects of a program and then the loop, and adds the final step. -/
def simulate (source : List Char) (limits : AnalysisLimits) (effects : List Effect) :
    Simulation :=
  let s := (Simulation.start limits).program effects
  (if s.stopped.isNone then s.loop source else s).finish

end ScriptReplay
