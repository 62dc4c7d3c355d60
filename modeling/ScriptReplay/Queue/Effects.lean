/-
The effects of code, read off its text.

Nothing is evaluated.  Statements are searched for calls that print or that hand callbacks
to a queue; function bodies are left alone until their callback runs, and then only their own
statements are searched.

* `programEffects` : the effects of the statements of a program;
* `callbackEffects` : the effects of the body of a callback;
* `thenCallbacks?` : the callbacks of a chain of promises.

Design notes: what a call prints is known for literals.  Any other argument is shown by its
own stretch of the source text, and by its rendered form if the text does not reach that far
or is blank there.
-/
import ScriptReplay.Program.Render
import ScriptReplay.Queue.Job
import ScriptReplay.Text.Blank

namespace ScriptReplay

/-! ### What is printed -/

/-- The text of a literal. -/
def literalText? : Expr → Option String
  | .string s _ => some s
  | .number x _ => some (numberText x)
  | .bool b _ => some (if b then "true" else "false")
  | .null _ => some "null"
  | .template texts [] _ => some (String.join texts)
  | _ => none

/-- The source text of a location without the blanks at its ends; none if nothing is left or
the source is shorter. -/
def spanText? (source : List Char) (l : Location) : Option String :=
  if l.stop ≤ l.start || source.length < l.stop then none
  else
    match trimChars ((source.drop l.start).take (l.stop - l.start)) with
    | [] => none
    | cs => some (String.ofList cs)

/-- The text that an argument is printed as. -/
def argumentText (source : List Char) (e : Expr) : String :=
  ((literalText? e).or (spanText? source e.loc)).getD e.text

/-- The line that arguments are printed as. -/
def printedLine (source : List Char) (arguments : List Expr) : String :=
  " ".intercalate (arguments.map (argumentText source))

/-- The arguments of a call that prints. -/
def logArguments? : Expr → Option (List Expr)
  | .call callee arguments _ =>
    if callee.staticMember? == some ("console", "log") then some arguments else none
  | _ => none

/-! ### Callbacks -/

/-- Where a call was found, which decides the labels of its callbacks. -/
inductive CallPlace where
  | top
  | callback
  deriving DecidableEq, Repr

/-- The line where the body of a callback starts, or else the callback itself, or
else the call. -/
def callbackLine (callback : Option Expr) (callLine : Nat) : Nat :=
  match callback with
  | some (.function r _) => r.bodyLoc.line
  | some e => e.loc.line
  | none => callLine

/-- The first expression of a body for which there is an answer. -/
def Body.findExpr? {α : Type} (f : Expr → Option α) : Body → Option α
  | .value e => f e
  | .block statements => statements.findSome? fun
    | .expr e _ => f e
    | _ => none

/-- The label of a callback that prints: its first line. -/
def printingLabel? (source : List Char) (callback : Expr) : Option String := do
  let r ← callback.routine?
  let arguments ← r.body.findExpr? logArguments?
  return printedLine source arguments ++ " cb"

/-! ### Timers and microtasks -/

/-- The construct with this name. -/
def timerSource? : String → Option JobSource
  | "setTimeout" => some .timeout
  | "queueMicrotask" => some .microtask
  | _ => none

/-- The label of a callback handed over by name. -/
def timerLabel (source : JobSource) (place : CallPlace) : String :=
  let base := match source.queue with
    | .timed => "timeout cb"
    | .micro => "microtask"
  match place with
  | .top => base
  | .callback => "nested " ++ base

/-- The job of a call of a construct. -/
def timerJob (source : JobSource) (place : CallPlace) (arguments : List Expr) (line : Nat) :
    Job :=
  ⟨⟨timerLabel source place, callbackLine arguments.head? line, arguments.head?, source⟩, []⟩

/-! ### Promises -/

/-- The callbacks of a chain that starts with `Promise.resolve(…)` and goes on with `.then`
and `.catch`, in order.  Those of `.catch` never run. -/
def thenCallbacks? : Expr → Option (List Expr)
  | .call (.member object (.named method) _) arguments _ =>
    if method == "then" then (thenCallbacks? object).map (· ++ arguments.head?.toList)
    else if method == "catch" then thenCallbacks? object
    else if method == "resolve" && object.name? == some "Promise" then some []
    else none
  | _ => none

/-- The first callback of a chain. -/
def firstLink (source : List Char) (place : CallPlace) (callback : Expr) (line : Nat) :
    Link :=
  let label := match place with
    | .top => (printingLabel? source callback).getD "promise cb"
    | .callback => "nested promise cb"
  ⟨label, callbackLine (some callback) line, some callback, .promise⟩

/-- A later callback of a chain. -/
def laterLink (source : List Char) (line : Nat) (callback : Expr) : Link :=
  ⟨(printingLabel? source callback).getD "chained promise cb",
    callbackLine (some callback) line, some callback, .chained⟩

/-- The job of a chain of promises that has a callback. -/
def promiseJob? (source : List Char) (place : CallPlace) (e : Expr) : Option Job :=
  match thenCallbacks? e with
  | some (first :: rest) =>
    some ⟨firstLink source place first e.loc.line, rest.map (laterLink source e.loc.line)⟩
  | _ => none

/-! ### Effects -/

/-- The effects of an expression.  `mayAwait` tells whether one `await` in front of a call is
passed over.  A call of a method that means nothing here has the effects of its receiver. -/
def exprEffects (source : List Char) (place : CallPlace) (mayAwait : Bool) :
    Expr → List Effect
  | .await e _ => if mayAwait then exprEffects source place false e else []
  | .call callee arguments loc =>
    let e := Expr.call callee arguments loc
    match logArguments? e, (callee.name?).bind timerSource?, promiseJob? source place e with
    | some printed, _, _ => [.log (printedLine source printed) loc.line]
    | none, some timer, _ => [.schedule (timerJob timer place arguments loc.line) loc.line]
    | none, none, some job => [.schedule job loc.line]
    | none, none, none =>
      match callee with
      | .member object _ _ => exprEffects source place true object
      | _ => []
  | _ => []

/-- The effects of the values of declared variables. -/
def declaratorEffects (source : List Char) (place : CallPlace) (ds : List Declarator) :
    List Effect :=
  ds.flatMap fun d => d.init.toList.flatMap (exprEffects source place true)

/-- The effects of a statement of a program. -/
def topEffects (source : List Char) : Stmt → List Effect
  | .expr e _ => exprEffects source .top true e
  | .declare _ ds _ => declaratorEffects source .top ds
  | .function r loc => (r.name.map fun name => Effect.declared name loc.line).toList
  | _ => []

/-- The effects of the statements of a program, in order. -/
def programEffects (source : List Char) (p : Program) : List Effect :=
  p.body.flatMap (topEffects source)

/-- The effects of a statement of a callback. -/
def innerEffects (source : List Char) : Stmt → List Effect
  | .expr e _ => exprEffects source .callback true e
  | .declare _ ds _ => declaratorEffects source .callback ds
  | _ => []

/-- The effects of the body of a callback, in order. -/
def callbackEffects (source : List Char) (callback : Expr) : List Effect :=
  match callback.routine? with
  | none => []
  | some r =>
    match r.body with
    | .block statements => statements.flatMap (innerEffects source)
    | .value e => exprEffects source .callback true e

end ScriptReplay
