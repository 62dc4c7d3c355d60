/-
The call stack.

A frame stands for a call in progress.  It shows the values of the parameters and of the other
names of the call; the bindings themselves are in the scope of the call, and every write to
them is repeated here.

* `CallStack.push`, `CallStack.pop?` : a call begins and ends;
* `CallStack.bind` : a write to a name of a call;
* `Frame.get?` : the value that a frame shows for a name.
-/
import ScriptReplay.Table
import ScriptReplay.Value

namespace ScriptReplay

/-- A call in progress.  `line` is where the body starts, `depth` is one for the outermost
call, and `result` is set by a return. -/
structure Frame where
  id : Nat
  name : String
  params : Table Value
  locals : Table Value
  site : Option Location
  line : Nat
  depth : Nat
  result : Option Value
  scope : ScopeId

/-- The value that a frame shows for a name: a local one hides a parameter. -/
def Frame.get? (f : Frame) (name : String) : Option Value :=
  (f.locals.get? name).or (f.params.get? name)

/-- The frame with a new value for a name, which is local unless it is a parameter. -/
def Frame.bind (f : Frame) (name : String) (value : Value) : Frame :=
  if f.params.contains name then { f with params := f.params.insert name value }
  else { f with locals := f.locals.insert name value }

/-- The values that a frame shows. -/
def Frame.values (f : Frame) : List Value :=
  f.params.values ++ f.locals.values ++ f.result.toList

/-- The frames in progress, innermost first, and the last number given out. -/
structure CallStack where
  frames : List Frame
  lastId : Nat

namespace CallStack

/-- The stack of a fresh run. -/
def empty : CallStack :=
  ⟨[], 0⟩

instance : Inhabited CallStack := ⟨empty⟩

/-- The number of calls in progress. -/
def depth (s : CallStack) : Nat :=
  s.frames.length

/-- The frames, outermost first. -/
def toList (s : CallStack) : List Frame :=
  s.frames.reverse

/-- The stack with one more call. -/
def push (s : CallStack) (name : String) (params : Table Value) (site : Option Location)
    (line : Nat) (scope : ScopeId) : CallStack :=
  { frames :=
      ⟨s.lastId + 1, name, params, .empty, site, line, s.depth + 1, none, scope⟩ :: s.frames
    lastId := s.lastId + 1 }

/-- The innermost frame and the stack without it. -/
def pop? (s : CallStack) : Option (Frame × CallStack) :=
  match s.frames with
  | [] => none
  | f :: rest => some (f, { s with frames := rest })

/-- The stack without its innermost frame. -/
def pop (s : CallStack) : CallStack :=
  { s with frames := s.frames.tail }

/-- The innermost frame. -/
def top? (s : CallStack) : Option Frame :=
  s.frames.head?

/-- The frames with the innermost one of a scope changed. -/
def modifyOwner (scope : ScopeId) (f : Frame → Frame) : List Frame → List Frame
  | [] => []
  | frame :: rest =>
    if frame.scope = scope then f frame :: rest else frame :: modifyOwner scope f rest

/-- The stack after a write to a name of the call with this scope. -/
def bind (s : CallStack) (scope : ScopeId) (name : String) (value : Value) : CallStack :=
  { s with frames := modifyOwner scope (·.bind name value) s.frames }

/-- The stack with the result of the innermost call set. -/
def setResult (s : CallStack) (value : Value) : CallStack :=
  match s.frames with
  | [] => s
  | f :: rest => { s with frames := { f with result := some value } :: rest }

end CallStack

end ScriptReplay
