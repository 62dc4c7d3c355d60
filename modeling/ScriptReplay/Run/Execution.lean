/-
Whole runs.

* `walker` : the evaluator with a given fuel;
* `Execution.ofProgram` : the trace and the printed lines of a program;
* `execute` : the same from a source text;
* `Session` : several sources run one after another.

Design notes: fuel counts levels of nesting, not steps.  It goes down by one from an
expression or statement to its parts, and loops do not use it, so it only has to exceed the
depth of the evaluation: the height of the program for each call in progress.
-/
import ScriptReplay.Program.Height
import ScriptReplay.Program.Parser.Stmt
import ScriptReplay.Run.Exec

namespace ScriptReplay

/-! ### The evaluator -/

/-- The evaluator that can go `fuel` levels deep. -/
def walker : Nat → Walker
  | 0 => ⟨fun _ => throw .outOfFuel, fun _ => throw .outOfFuel⟩
  | fuel + 1 => ⟨fun e => evalExpr (walker fuel) e, fun s => execStmt (walker fuel) s⟩

/-- Executes the statements of a program.  A return at the top ends it; leaving a loop that is
not there does nothing. -/
def execTop (w : Walker) : List Stmt → Run Unit
  | [] => pure ()
  | s :: rest => do
    match ← w.exec s with
    | .ret _ => pure ()
    | _ => execTop w rest

/-- Executes a program with some fuel. -/
def runProgram (fuel : Nat) (p : Program) : Run Unit := do
  hoist p.body
  execTop (walker fuel) p.body

/-! ### Executions -/

/-- The step that tells of a failure.  One without a place is told of where the last statement
begun stands. -/
def Machine.failureStep (m : Machine) (f : Failure) (whole : Location) : Step :=
  m.step .error ((f.loc.or m.current).getD whole) ("Error: " ++ f.cause.message)

/-- The state with the step that tells of a failure. -/
def Machine.recordFailure (m : Machine) (f : Failure) (whole : Location) : Machine :=
  { m with trace := m.trace.pushTerminal (m.failureStep f whole) }

/-- What a run leaves behind: its steps and the lines that it printed. -/
structure Execution where
  steps : List Step
  console : Console

/-- How a run ends and the state that it ends in. -/
def runFrom (limits : RunLimits) (fuel : Nat) (p : Program) : Except Stop Unit × Machine :=
  (runProgram fuel p).run limits |>.run (Machine.initial limits)

/-- The execution of a program with some fuel; none if the fuel does not last. -/
def Execution.ofProgram? (limits : RunLimits) (fuel : Nat) (p : Program) : Option Execution :=
  match runFrom limits fuel p with
  | (.ok _, m) => some ⟨m.trace.toList, m.console⟩
  | (.error (.failed f), m) =>
    let m := m.recordFailure f p.loc
    some ⟨m.trace.toList, m.console⟩
  | (.error .outOfFuel, _) => none

/-- Fuel that lasts: the height of the program for every call that the ceilings allow at
once.  The fallbacks of parameters are evaluated before their call is counted, and a margin is
left for them. -/
def enoughFuel (limits : RunLimits) (p : Program) : Nat :=
  (limits.maxCallDepth + 2) * (p.height + 2) + 1000000

/-- The execution of a program. -/
def Execution.ofProgram (limits : RunLimits) (p : Program) : Execution :=
  (Execution.ofProgram? limits (enoughFuel limits p) p).getD ⟨[], .empty⟩

/-- The execution of a source text, or its first fault. -/
def execute (limits : RunLimits) (source : String) : Except SyntaxError Execution :=
  (parseProgram source).map (Execution.ofProgram limits)

/-! ### Sessions -/

/-- Several sources run one after another, each from a fresh state.  The console is that of
the last one that could be run. -/
structure Session where
  limits : RunLimits
  console : Console

/-- A session before its first source. -/
def Session.start (limits : RunLimits) : Session :=
  ⟨limits, .empty⟩

/-- Runs one more source and gives its steps, or its first fault. -/
def Session.run (s : Session) (source : String) : Except SyntaxError (List Step) × Session :=
  match execute s.limits source with
  | .ok e => (.ok e.steps, { s with console := e.console })
  | .error e => (.error e, s)

end ScriptReplay
