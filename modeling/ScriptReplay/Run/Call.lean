/-
Calls of functions.

A call opens a scope inside the scopes that the function was made in, binds the parameters
there, puts a frame on the stack and runs the body.  Afterwards the scopes in use are
those from before.

* `Walker` : how expressions and statements inside a call are evaluated;
* `callFunction` : a call;
* `invokeCallback` : a call from inside a method of the language, of which no steps tell.

Design notes: the rules of evaluation refer to each other only through a walker, so each of
them is a plain function, and the recursion is tied once for all.
-/
import ScriptReplay.Run.Native

namespace ScriptReplay

/-- How a statement ends: normally, or by leaving a function or a loop, or by starting the
next round. -/
inductive Completion where
  | normal
  | ret (value : Value)
  | breakOut
  | nextRound

/-- How expressions are evaluated and statements executed. -/
structure Walker where
  eval : Expr → Run Value
  exec : Stmt → Run Completion

/-- The values of some expressions, from left to right. -/
def Walker.evalAll (w : Walker) : List Expr → Run (List Value)
  | [] => return []
  | e :: rest => do
    let v ← w.eval e
    return v :: (← w.evalAll rest)

/-- Executes statements in order up to the first that does not end normally. -/
def Walker.execAll (w : Walker) : List Stmt → Run Completion
  | [] => return .normal
  | s :: rest => do
    match ← w.exec s with
    | .normal => w.execAll rest
    | other => return other

/-- Executes the statements of a function.  Only a return ends it early. -/
def Walker.execUntilReturn (w : Walker) : List Stmt → Run Value
  | [] => return .undefined
  | s :: rest => do
    match ← w.exec s with
    | .ret v => return v
    | _ => w.execUntilReturn rest

/-- Runs the body of a function. -/
def Walker.runBody (w : Walker) : Body → Run Value
  | .block statements => do
    hoist statements
    w.execUntilReturn statements
  | .value e => w.eval e

/-- Binds parameters to arguments in a scope, one after another, adding them to `bound`.  The
fallback of a parameter is evaluated if its argument is missing or undefined. -/
def bindParams (w : Walker) (scope : ScopeId) (bound : Table Value) :
    List Param → List Value → Run (Table Value)
  | [], _ => return bound
  | p :: params, args => do
    let arg := args.headD .undefined
    let value ← match arg, p.fallback with
      | .undefined, some e => w.eval e
      | _, _ => pure arg
    modify fun m => { m with scopes := m.scopes.declare scope p.name value false }
    bindParams w scope (bound.insert p.name value) params args.tail

/-- Makes a new function scope the innermost one, inside the given chain. -/
def enterFunction (name : String) (chain : Chain) : Run ScopeId := modifyGet fun m =>
  let (id, scopes) := m.scopes.openScope .function name chain
  (id, { m with scopes := scopes, chain := id :: chain })

/-- Calls a function.  The frame and the steps show it under the name `shown`; steps tell of
the call and of its end if `recorded` is set. -/
def callFunction (w : Walker) (f : Callable) (this : Option Value) (args : List Value)
    (shown : String) (recorded : Bool) (loc : Location) : Run Value := do
  match f with
  | .native name => callNative name args loc
  | .script _ routine chain =>
    if (← read).maxCallDepth ≤ (← get).stack.depth then failAt .callDepth loc
    let outer := (← get).chain
    let scope ← enterFunction shown chain
    let params ← bindParams w scope .empty routine.params args
    let argText ← inspectAll params.values
    modify fun m =>
      { m with stack := m.stack.push shown params (some loc) routine.bodyLoc.line scope }
    if recorded then record .call loc ("Call " ++ shown ++ "(" ++ argText ++ ")")
    if let some receiver := this then
      if !routine.isArrow then declareName .const "this" receiver
    let result ← w.runBody routine.body
    modify fun m => { m with chain := outer, stack := m.stack.pop }
    if recorded
      then record .return_ loc ("Return from " ++ shown ++ ": " ++ (← inspect result))
    return result

/-- The name under which a callback is shown. -/
def callbackName (f : Callable) : String :=
  if f.name == anonymous then "(callback)" else f.name

/-- Calls a function that was handed to a method of the language. -/
def invokeCallback (w : Walker) (f : Callable) (args : List Value) (loc : Location) :
    Run Value :=
  callFunction w f none args (callbackName f) false loc

end ScriptReplay
