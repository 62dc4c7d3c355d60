/-
How statements are executed.

* `execBlock` : statements in a scope of their own;
* `execStmt` : one statement, its parts through a walker.

Design notes: a failure ends the run, so the handler of a `try` statement never takes over.
Its final block runs after every other ending and can change it.
-/
import ScriptReplay.Run.Eval
import ScriptReplay.Run.Loop

namespace ScriptReplay

/-- Executes statements in a new scope. -/
def execBlock (w : Walker) (body : List Stmt) (name : String) : Run Completion := do
  openBlock name
  hoist body
  let c ← w.execAll body
  closeScope
  return c

/-- Declares variables in order, each with a step that tells of it. -/
def execDeclarators (w : Walker) (kind : DeclKind) (loc : Location) :
    List Declarator → Run Unit
  | [] => pure ()
  | d :: rest => do
    let v ← match d.init with
      | some e => evalNamed w e d.name
      | none => pure .undefined
    let text ← inspect v
    declareName kind d.name v
    record .declaration loc ("Declare " ++ kind.text ++ " " ++ d.name ++ " = " ++ text)
    execDeclarators w kind loc rest

/-- The value that a function returns. -/
def execReturn (w : Walker) (value : Option Expr) (loc : Location) : Run Completion := do
  let v ← match value with
    | some e => w.eval e
    | none => pure .undefined
  record .return_ loc ("Return " ++ (← inspect v))
  modify fun m => { m with stack := m.stack.setResult v }
  return .ret v

/-- A choice between statements. -/
def execIf (w : Walker) (test : Expr) (yes : Stmt) (no : Option Stmt) (loc : Location) :
    Run Completion := do
  let v ← w.eval test
  let branch := if v.isTruthy then "true branch" else "false branch"
  record .branch loc ("If condition: " ++ (← inspect v) ++ " → " ++ branch)
  if v.isTruthy then w.exec yes
  else
    match no with
    | some s => w.exec s
    | none => return .normal

/-- Ends the run with a value of the program. -/
def execRaise (w : Walker) (e : Expr) (loc : Location) : Run Completion := do
  let v ← w.eval e
  let text ← if v.isPrimitive then plainOf v else inspect v
  failAt (.thrown text) loc

/-- A block with a final one, which has the last word unless it ends normally. -/
def execTry (w : Walker) (body : List Stmt) (finalizer : Option (List Stmt)) :
    Run Completion := do
  let c ← execBlock w body "try"
  match finalizer with
  | none => return c
  | some last =>
    match ← execBlock w last "finally" with
    | .normal => return c
    | other => return other

/-- A counting loop, with what it does first. -/
def execFor (w : Walker) (init : Option Stmt) (test update : Option Expr) (body : Stmt)
    (loc : Location) : Run Completion :=
  inLoopScope "for-loop" do
    if let some s := init then
      let _ ← w.exec s
    testedLoop w ⟨"For", test, update, body, loc⟩

/-- A loop with the condition first. -/
def execWhile (w : Walker) (test : Expr) (body : Stmt) (loc : Location) : Run Completion :=
  inLoopScope "while-loop" (testedLoop w ⟨"While", some test, none, body, loc⟩)

/-- Executes a statement. -/
def execStmt (w : Walker) (s : Stmt) : Run Completion := do
  modify fun m => { m with current := some s.loc }
  match s with
  | .declare kind declarators loc =>
    execDeclarators w kind loc declarators
    return .normal
  | .function r loc =>
    if let some name := r.name then
      record .declaration loc ("Function " ++ name ++ " declared")
    return .normal
  | .expr e _ =>
    let _ ← w.eval e
    return .normal
  | .ret value loc => execReturn w value loc
  | .ifElse test yes no loc => execIf w test yes no loc
  | .forLoop init test update body loc => execFor w init test update body loc
  | .forOf kind name iterable body loc =>
    inLoopScope "for-of-loop" (elementLoop w kind name iterable body loc)
  | .whileLoop test body loc => execWhile w test body loc
  | .doWhile body test loc => inLoopScope "do-while-loop" (trailingLoop w body test loc)
  | .breakOut loc =>
    record .branch loc "Break statement"
    return .breakOut
  | .nextRound loc =>
    record .branch loc "Continue statement"
    return .nextRound
  | .raise e loc => execRaise w e loc
  | .block body _ => execBlock w body "block"
  | .tryBlock body _ finalizer _ => execTry w body finalizer
  | .empty _ => return .normal

end ScriptReplay
