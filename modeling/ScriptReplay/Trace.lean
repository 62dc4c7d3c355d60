/-
Traces.

A trace is the list of steps of a run.  Each step keeps all that can be seen at its moment:
the calls in progress, the scopes in use, the part of the heap that they refer to and
everything printed so far.

* `Step` : one step;
* `Console.log` : a line printed;
* `Recorder.push?`, `Recorder.pushTerminal` : a step added below the ceiling.

Design notes: the last place below the ceiling is kept for the step that tells of an error,
so a trace that hits the ceiling can still say so.  Lines and steps are kept newest first, so
each step shares what came before it.
-/
import ScriptReplay.CallStack
import ScriptReplay.Heap
import ScriptReplay.Scope

namespace ScriptReplay

/-! ### The console -/

/-- The lines printed so far, newest first. -/
structure Console where
  newest : List String

namespace Console

/-- Nothing printed yet. -/
def empty : Console := ⟨[]⟩

instance : Inhabited Console := ⟨empty⟩

/-- One more line. -/
def log (c : Console) (line : String) : Console :=
  ⟨line :: c.newest⟩

/-- The lines in order. -/
def lines (c : Console) : List String :=
  c.newest.reverse

/-- The last line. -/
def last? (c : Console) : Option String :=
  c.newest.head?

end Console

/-! ### Steps -/

/-- What a step tells of. -/
inductive StepKind where
  | declaration | assignment | expression | call | return_ | branch
  | loopStart | loopIteration | loopEnd
  | arrayAccess | arrayModify | objectAccess | objectModify
  | comparison
  | error
  deriving DecidableEq, Repr

/-- The word for a kind of step. -/
def StepKind.text : StepKind → String
  | declaration => "declaration"
  | assignment => "assignment"
  | expression => "expression"
  | call => "call"
  | return_ => "return"
  | branch => "branch"
  | loopStart => "loop-start"
  | loopIteration => "loop-iteration"
  | loopEnd => "loop-end"
  | arrayAccess => "array-access"
  | arrayModify => "array-modify"
  | objectAccess => "object-access"
  | objectModify => "object-modify"
  | comparison => "comparison"
  | error => "error"

/-- One step of a run and what can be seen at its moment.  Scopes are listed
outermost first. -/
structure Step where
  id : Nat
  kind : StepKind
  loc : Location
  stack : CallStack
  scopes : List Scope
  heap : Heap
  description : String
  console : Console

/-- The line that a step points at. -/
def Step.line (s : Step) : Nat :=
  s.loc.line

/-! ### Recording -/

/-- The steps recorded so far, newest first, and the ceiling on their number. -/
structure Recorder where
  newest : List Step
  max : Nat
  count : Nat
  count_eq : count = newest.length

namespace Recorder

/-- A trace without steps. -/
def empty (max : Nat) : Recorder :=
  ⟨[], max, 0, rfl⟩

/-- The steps in order. -/
def toList (r : Recorder) : List Step :=
  r.newest.reverse

/-- Whether an ordinary step can still be added. -/
def hasRoom (r : Recorder) : Bool :=
  r.count + 1 < r.max

/-- The number of the next step. -/
def nextId (r : Recorder) : Nat :=
  r.count + 1

/-- The trace with one more step, whatever the ceiling is. -/
def add (r : Recorder) (s : Step) : Recorder :=
  ⟨s :: r.newest, r.max, r.count + 1, by simp [r.count_eq]⟩

/-- The trace with one more step; none if there is no room. -/
def push? (r : Recorder) (s : Step) : Option Recorder :=
  if r.hasRoom then some (r.add s) else none

/-- The trace with a last step, for which the last place below the ceiling is kept. -/
def pushTerminal (r : Recorder) (s : Step) : Recorder :=
  if r.count < r.max then r.add s else r

/-- The step at an index from zero. -/
def get? (r : Recorder) (i : Nat) : Option Step :=
  r.toList[i]?

end Recorder

end ScriptReplay
