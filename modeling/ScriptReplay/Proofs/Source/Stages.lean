/-
What the grammar reads behind its branches.

* `Grammar.arrowRest` : an arrow function from its parameters on, whether or not a word stands
  before them;
* `Grammar.constructionRest` : a construction behind the head of its callee, which may be
  another construction;
* `Grammar.whole` : an expression with nothing behind it.

Design notes: a parser with two branches that go on in the same way has its continuation named
here, so that what is shown of the continuation is shown once and used in both branches.
-/
import ScriptReplay.Program.Parser.Expr

namespace ScriptReplay.Grammar

open Parse

/-- An arrow function that starts here, behind the word that may make it asynchronous. -/
def arrowRest (r : Rules) (isAsync : Bool) (start : Location) : Parse Expr := do
  let params ← arrowParams r
  expectSymbol .arrow "after arrow parameters"
  let bodyStart ← here
  let body ← arrowBody r
  return functionExpr {
    name := none, params := params, body := body, isArrow := true, isAsync := isAsync
    loc := ← spanFrom start, bodyLoc := ← spanFrom bodyStart }

theorem arrowFunction_false (r : Rules) :
    arrowFunction r false = here >>= arrowRest r false :=
  rfl

theorem arrowFunction_true (r : Rules) :
    arrowFunction r true = here >>= fun start => skip >>= fun _ => arrowRest r true start :=
  rfl

/-- A construction behind the head of its callee. -/
def constructionRest (r : Rules) (start : Location) (head : Expr) : Parse Expr := do
  let callee ← members r (← remaining) head
  let args ← optionalArguments r
  return .new callee args (← spanFrom start)

/-- An expression that nothing follows. -/
def whole (x : Parse Expr) : Parse Expr := do
  let e ← x
  if ← atEnd then return e else unexpected

end ScriptReplay.Grammar
