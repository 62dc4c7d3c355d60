/-
How loops run.

A loop has a scope of its own.  A body that is a block runs in that scope,
without another one.

* `testedLoop` : loops with the condition first, which serve `while` and `for`;
* `trailingLoop` : loops with the condition last;
* `elementLoop` : loops over the elements of a value.

Design notes: the ceiling on the rounds of a loop is counted down, so every loop ends with the
recursion on what is left of it.
-/
import ScriptReplay.Run.Call

namespace ScriptReplay

/-! ### Parts of loops -/

/-- Executes the body of a loop in the scope of the loop. -/
def loopBody (w : Walker) : Stmt → Run Completion
  | .block body _ => do
    hoist body
    w.execAll body
  | body => w.exec body

/-- What a step tells of a loop. -/
def recordLoop (kind : StepKind) (title : String) (told : String) (loc : Location) :
    Run Unit :=
  record kind loc (title ++ " loop " ++ told)

/-- Whether a round of a loop was the last: after a break or a return. -/
def afterRound (title : String) (loc : Location) : Completion → Run (Option Completion)
  | .breakOut => do
    recordLoop .loopEnd title "exited via break" loc
    return some .normal
  | .ret v => return some (.ret v)
  | .normal | .nextRound => return none

/-- Whether the condition of a loop ends it.  A loop without one goes on. -/
def testEnds (w : Walker) (title : String) (test : Option Expr) (loc : Location) :
    Run Bool := do
  match test with
  | none => return false
  | some e =>
    if (← w.eval e).isTruthy then return false
    else
      recordLoop .loopEnd title "condition false, exiting" loc
      return true

/-- Opens the scope of a loop, runs it and leaves the scope. -/
def inLoopScope (name : String) (loop : Run Completion) : Run Completion := do
  openBlock name
  let c ← loop
  closeScope
  return c

/-! ### Loops with a condition -/

/-- A loop with the condition first: `title` names it in steps. -/
structure TestedLoop where
  title : String
  test : Option Expr
  update : Option Expr
  body : Stmt
  loc : Location

/-- The rounds of a loop with the condition first: `done` of them are over and at most
`left` follow. -/
def TestedLoop.rounds (w : Walker) (l : TestedLoop) (left done : Nat) : Run Completion := do
  if ← testEnds w l.title l.test l.loc then return .normal
  else
    match left with
    | 0 => failAt .loopLimit l.loc
    | left + 1 =>
      recordLoop .loopIteration l.title ("iteration " ++ toString (done + 1)) l.loc
      match ← afterRound l.title l.loc (← loopBody w l.body) with
      | some c => return c
      | none =>
        if let some e := l.update then
          let _ ← w.eval e
        rounds w l left (done + 1)

/-- A loop with the condition first, in the scope of the loop. -/
def testedLoop (w : Walker) (l : TestedLoop) : Run Completion := do
  recordLoop .loopStart l.title "started" l.loc
  l.rounds w (← read).maxLoopIterations 0

/-- The rounds of a loop with the condition last. -/
def trailingRounds (w : Walker) (body : Stmt) (test : Expr) (loc : Location)
    (left done : Nat) : Run Completion := do
  match left with
  | 0 => failAt .loopLimit loc
  | left + 1 =>
    recordLoop .loopIteration "Do-while" ("iteration " ++ toString (done + 1)) loc
    match ← afterRound "Do-while" loc (← loopBody w body) with
    | some c => return c
    | none =>
      if ← testEnds w "Do-while" (some test) loc then return .normal
      else trailingRounds w body test loc left (done + 1)

/-- A loop with the condition last, in the scope of the loop. -/
def trailingLoop (w : Walker) (body : Stmt) (test : Expr) (loc : Location) :
    Run Completion := do
  recordLoop .loopStart "Do-while" "started" loc
  trailingRounds w body test loc (← read).maxLoopIterations 0

/-! ### Loops over elements -/

/-- The elements of an array as they are now, or the characters of a text. -/
def iterableElements (v : Value) (loc : Location) : Run (List Value) := do
  match v with
  | .array id => return ((← get).heap.elements id).toList
  | .string s => return charValues s
  | _ => failAt (.notIterable (← inspect v)) loc

/-- The rounds of a loop over elements: `done` of them are over. -/
def elementRounds (w : Walker) (kind : DeclKind) (name : String) (body : Stmt)
    (loc : Location) (done : Nat) : List Value → Run Completion
  | [] => do
    recordLoop .loopEnd "For-of" "completed" loc
    return .normal
  | v :: rest => do
    if (← read).maxLoopIterations ≤ done then failAt .loopLimit loc
    declareName kind name v
    recordLoop .loopIteration "For-of" ("iteration " ++ toString (done + 1)) loc
    match ← afterRound "For-of" loc (← loopBody w body) with
    | some c => return c
    | none => elementRounds w kind name body loc (done + 1) rest

/-- A loop over the elements of a value, in the scope of the loop. -/
def elementLoop (w : Walker) (kind : DeclKind) (name : String) (iterable : Expr) (body : Stmt)
    (loc : Location) : Run Completion := do
  let elements ← iterableElements (← w.eval iterable) iterable.loc
  recordLoop .loopStart "For-of"
    ("started over " ++ toString elements.length ++ " elements") loc
  elementRounds w kind name body loc 0 elements

end ScriptReplay
