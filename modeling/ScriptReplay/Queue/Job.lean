/-
Jobs that wait in queues.

A program hands callbacks to two queues: the microtask queue, which is emptied first, and the
queue of timed tasks.  A promise can carry a chain of callbacks, each of which is queued when
the one before it has run.

* `Link` : a callback with what is shown of it;
* `Job` : a callback that waits, with the callbacks that wait behind it;
* `Effect` : what a piece of code does as far as the queues are concerned.
-/
import ScriptReplay.Program.Tree

namespace ScriptReplay

/-- The two queues. -/
inductive QueueKind where
  | micro
  | timed
  deriving DecidableEq, Repr

/-- The construct that a callback was handed to. -/
inductive JobSource where
  | timeout
  | microtask
  | promise
  | chained
  deriving DecidableEq, Repr

/-- The name of a construct. -/
def JobSource.text : JobSource → String
  | timeout => "setTimeout"
  | microtask => "queueMicrotask"
  | promise => "Promise.then"
  | chained => "chained .then"

/-- The call by which a construct is named in steps. -/
def JobSource.api : JobSource → String
  | timeout => "setTimeout()"
  | microtask => "queueMicrotask()"
  | promise | chained => "Promise.then()"

/-- The queue that a construct uses. -/
def JobSource.queue : JobSource → QueueKind
  | timeout => .timed
  | microtask | promise | chained => .micro

/-- A callback: its label in the queue, the line where its body starts, the expression if
there is one, and the construct that it was handed to. -/
structure Link where
  label : String
  line : Nat
  callback : Option Expr
  source : JobSource

/-- A callback that waits, and the callbacks that are queued one by one after it. -/
structure Job where
  link : Link
  chained : List Link

/-- The queue that a job waits in. -/
def Job.queue (j : Job) : QueueKind :=
  j.link.source.queue

/-- The number of callbacks behind the first. -/
def Job.pending (j : Job) : Nat :=
  j.chained.length

/-- The job that follows when this one has run. -/
def Job.next? (j : Job) : Option Job :=
  match j.chained with
  | [] => none
  | link :: rest => some ⟨link, rest⟩

/-- What a piece of code does: print a line, declare a function, or hand a callback
to a queue. -/
inductive Effect where
  | log (text : String) (line : Nat)
  | declared (name : String) (line : Nat)
  | schedule (job : Job) (line : Nat)

end ScriptReplay
