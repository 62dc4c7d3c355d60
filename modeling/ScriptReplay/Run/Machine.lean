/-
The state of a run.

* `Machine` : all that a run changes;
* `Run` : computations that may change it, and may stop early;
* `record` : a step added to the trace;
* `checkArrayLength`, `checkText` : the ceilings on sizes.

Design notes: a computation that stops early keeps the state that it stopped in, for the last
step of a trace shows that state.
-/
import ScriptReplay.Heap.Reach
import ScriptReplay.Heap.Text
import ScriptReplay.Limits
import ScriptReplay.Number.Word
import ScriptReplay.Run.Failure
import ScriptReplay.Text.Units
import ScriptReplay.Trace

namespace ScriptReplay

/-! ### Methods that programs add -/

/-- The kinds of values that programs can add methods to. -/
inductive Family where
  | array
  | object
  | text
  deriving DecidableEq, Repr

/-- The name of the constructor of a family. -/
def Family.name : Family → String
  | array => "Array"
  | object => "Object"
  | text => "String"

/-- The family with this constructor. -/
def Family.ofName? (name : String) : Option Family :=
  [array, object, text].find? (·.name == name)

/-- What programs have put under `prototype` of each constructor. -/
structure Prototypes where
  array : Table Value
  object : Table Value
  text : Table Value

namespace Prototypes

/-- Nothing added yet. -/
def empty : Prototypes :=
  ⟨.empty, .empty, .empty⟩

/-- The additions to one family. -/
def ofFamily (p : Prototypes) : Family → Table Value
  | .array => p.array
  | .object => p.object
  | .text => p.text

/-- One more addition. -/
def insert (p : Prototypes) (f : Family) (name : String) (v : Value) : Prototypes :=
  match f with
  | .array => { p with array := p.array.insert name v }
  | .object => { p with object := p.object.insert name v }
  | .text => { p with text := p.text.insert name v }

/-- The function added under a name.  Other values under it are not found. -/
def method? (p : Prototypes) (f : Family) (name : String) : Option Callable :=
  match (p.ofFamily f).get? name with
  | some (.function g) => some g
  | _ => none

end Prototypes

/-! ### The state -/

/-- All that a run changes.  `current` is where the last statement begun stands. -/
structure Machine where
  heap : Heap
  scopes : Scopes
  chain : Chain
  stack : CallStack
  console : Console
  trace : Recorder
  prototypes : Prototypes
  current : Option Location

/-- The state before a run. -/
def Machine.initial (limits : RunLimits) : Machine where
  heap := .empty
  scopes := .initial
  chain := [Scopes.globalId]
  stack := .empty
  console := .empty
  trace := .empty limits.maxSteps
  prototypes := .empty
  current := none

/-- The values that the scopes in use and the calls in progress hold. -/
def Machine.roots (scopes : List Scope) (stack : CallStack) : List Value :=
  scopes.flatMap (·.values.values) ++ stack.toList.flatMap (·.values)

/-- The step that shows the state. -/
def Machine.step (m : Machine) (kind : StepKind) (loc : Location) (description : String) :
    Step :=
  let scopes := m.scopes.snapshot m.chain
  { id := m.trace.nextId
    kind := kind
    loc := loc
    stack := m.stack
    scopes := scopes
    heap := m.heap.snapshot (Machine.roots scopes m.stack)
    description := description
    console := m.console }

/-! ### Computations -/

/-- Computations of a run. -/
abbrev Run := ReaderT RunLimits (ExceptT Stop (StateM Machine))

/-- Stops the run with a failure at a place. -/
def failAt {α : Type} (cause : Cause) (loc : Location) : Run α :=
  throw (.failed ⟨cause, some loc⟩)

/-- Adds a step, unless the trace is full. -/
def record (kind : StepKind) (loc : Location) (description : String) : Run Unit := do
  let m ← get
  match m.trace.push? (m.step kind loc description) with
  | some trace => set { m with trace := trace }
  | none => throw (.failed ⟨.stepLimit m.trace.max, none⟩)

/-- The inspected text of a value. -/
def inspect (v : Value) : Run String := do
  return (← get).heap.inspect v false

/-- The inspected texts of some values. -/
def inspectAll (vs : List Value) : Run String := do
  let heap := (← get).heap
  return ", ".intercalate (vs.map fun v => heap.inspect v false)

/-- The plain text of a value. -/
def plainOf (v : Value) : Run String := do
  return (← get).heap.textOf v

/-- The number that a value stands for. -/
def numberOf (v : Value) : Run Float := do
  return (← get).heap.numberOf v

/-- A new array. -/
def newArray (items : Array Value) : Run Value := do
  let m ← get
  let (v, heap) := m.heap.allocArray items
  set { m with heap := heap }
  return v

/-- A new object. -/
def newObject (properties : Table Value) : Run Value := do
  let m ← get
  let (v, heap) := m.heap.allocObject properties
  set { m with heap := heap }
  return v

/-! ### Ceilings on sizes -/

/-- The greatest length that any array may have. -/
def greatestLength : Nat := 4294967295

/-- Fails if an array would be longer than the ceiling. -/
def checkArrayLength (length : Nat) (loc : Location) : Run Unit := do
  let limit := (← read).maxArrayLength
  if limit < length then failAt (.arrayLength limit) loc

/-- Fails if a length is greater than that of any array, or else than the ceiling. -/
def checkLength (length : Nat) (loc : Location) : Run Unit :=
  if greatestLength < length then failAt (.thrown "RangeError: Invalid array length") loc
  else checkArrayLength length loc

/-- The length of an array that a number asks for.  It must be a whole number that is
not too great. -/
def requestedLength (x : Float) (loc : Location) : Run Nat := do
  if x.isNaN || x < 0 || wholePart x != x then
    failAt (.thrown "RangeError: Invalid array length") loc
  else
    let length := clampedNat x
    checkLength length loc
    return length

/-- Fails if a text of this many units would be longer than the ceiling. -/
def checkTextLength (length : Nat) (loc : Location) : Run Unit := do
  let limit := (← read).maxStringLength
  if limit < length then failAt (.textLength limit) loc

/-- Fails if the value is a text longer than the ceiling. -/
def checkText (v : Value) (loc : Location) : Run Unit :=
  match v with
  | .string s => checkTextLength (unitCount s) loc
  | _ => pure ()

end ScriptReplay
