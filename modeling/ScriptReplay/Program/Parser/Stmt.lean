/-
The grammar of statements, and programs.

* `Grammar.statement` : one statement;
* `Rules.atDepth` : the rules with a number of levels left;
* `parseProgram` : the program that a source text is, or the first fault.
-/
import ScriptReplay.Program.Parser.Expr

namespace ScriptReplay

namespace Grammar

open Parse

/-! ### Declarations -/

/-- The declaration word that a token is. -/
def declKind? (k : TokenKind) : Option DeclKind :=
  match k with
  | .keyword .varKw => some .var
  | .keyword .letKw => some .letK
  | .keyword .constKw => some .const
  | _ => none

/-- Variables divided by commas, each with its value if it has one. -/
def declarators (r : Rules) : Nat → Parse (List Declarator)
  | 0 => return []
  | n + 1 => do
    let start ← here
    let name ← expectName
    let init ← fallback r
    let d : Declarator := ⟨name, init, ← spanFrom start⟩
    if ← eatSymbol .comma then return d :: (← declarators r n)
    else return [d]

/-- A declaration of variables behind its word, without the end of the statement. -/
def declaration (r : Rules) (kind : DeclKind) (start : Location) : Parse Stmt := do
  skip
  let ds ← declarators r ((← remaining) + 1)
  return .declare kind ds (← spanFrom start)

/-- A declaration of a function, from its keyword on. -/
def functionDecl (r : Rules) (isAsync : Bool) (start : Location) : Parse Stmt := do
  expectKeyword .functionKw "to start function declaration"
  let name ← expectName
  let f ← functionRest r (some name) isAsync start
  return .function f f.loc

/-! ### Control flow -/

/-- The value of a return, which must start on its line. -/
def returnValue (r : Rules) : Parse (Option Expr) := do
  let t ← peek
  if t.newlineBefore || t.kind.isSymbol .semicolon || t.kind.isSymbol .rbrace ||
    (← atEnd) then return none
  else return some (← r.expr)

/-- A return. -/
def returnStmt (r : Rules) (start : Location) : Parse Stmt := do
  skip
  let value ← returnValue r
  endStatement
  return .ret value (← spanFrom start)

/-- A condition in parentheses. -/
def condition (r : Rules) (opening closing : String) : Parse Expr := do
  expectSymbol .lparen opening
  let test ← r.expr
  expectSymbol .rparen closing
  return test

/-- The other branch of a choice, if it has one. -/
def elseBranch (r : Rules) : Parse (Option Stmt) := do
  if ← eatKeyword .elseKw then return some (← r.stmt) else return none

/-- A choice between statements. -/
def ifStmt (r : Rules) (start : Location) : Parse Stmt := do
  skip
  let test ← condition r "after 'if'" "after if condition"
  let yes ← r.stmt
  let no ← elseBranch r
  return .ifElse test yes no (← spanFrom start)

/-- A loop with its condition first. -/
def whileStmt (r : Rules) (start : Location) : Parse Stmt := do
  skip
  let test ← condition r "after 'while'" "after while condition"
  let body ← r.stmt
  return .whileLoop test body (← spanFrom start)

/-- A loop with its condition last. -/
def doStmt (r : Rules) (start : Location) : Parse Stmt := do
  skip
  let body ← r.stmt
  expectKeyword .whileKw "after do-while body"
  let test ← condition r "after 'while'" "after do-while condition"
  let _ ← eatSymbol .semicolon
  return .doWhile body test (← spanFrom start)

/-- A loop over the elements of a value, behind the opening parenthesis. -/
def forOfRest (r : Rules) (kind : DeclKind) (start : Location) : Parse Stmt := do
  skip
  let name ← expectName
  skip
  let iterable ← r.expr
  expectSymbol .rparen "after for-of iterable"
  let body ← r.stmt
  return .forOf kind name iterable body (← spanFrom start)

/-- An expression that may be left out before a symbol. -/
def optionalExpr (r : Rules) (s : Symbol) : Parse (Option Expr) := do
  if ← atSymbol s then return none else return some (← r.expr)

/-- What a counting loop does first. -/
def forInit (r : Rules) : Parse (Option Stmt) := do
  let start ← here
  if ← atSymbol .semicolon then return none
  else
    match declKind? (← peek).kind with
    | some kind => return some (← declaration r kind start)
    | none =>
      let e ← r.expr
      return some (.expr e (← spanFrom start))

/-- A counting loop behind the opening parenthesis. -/
def forRest (r : Rules) (start : Location) : Parse Stmt := do
  let init ← forInit r
  expectSymbol .semicolon "after for-loop initializer"
  let test ← optionalExpr r .semicolon
  expectSymbol .semicolon "after for-loop condition"
  let update ← optionalExpr r .rparen
  expectSymbol .rparen "after for-loop update"
  let body ← r.stmt
  return .forLoop init test update body (← spanFrom start)

/-- A loop with `for`.  The word `of` behind the first variable tells the two forms apart. -/
def forStmt (r : Rules) (start : Location) : Parse Stmt := do
  skip
  expectSymbol .lparen "after 'for'"
  let overElements := (← get).rest[2]?.any (·.kind.isName "of")
  match declKind? (← peek).kind with
  | some kind => if overElements then forOfRest r kind start else forRest r start
  | none => forRest r start

/-- The name for what a handler caught, if it wants one. -/
def caughtName : Parse (Option String) := do
  if ← eatSymbol .lparen then
    let name ← expectName
    expectSymbol .rparen "after catch parameter"
    return some name
  else return none

/-- The handler of a `try` statement, if it has one. -/
def handler? (r : Rules) : Parse (Option Handler) := do
  let start ← here
  if ← eatKeyword .catchKw then
    let param ← caughtName
    let body ← block r
    return some ⟨param, body, ← spanFrom start⟩
  else return none

/-- The final block of a `try` statement, if it has one. -/
def finalizer? (r : Rules) : Parse (Option (List Stmt)) := do
  if ← eatKeyword .finallyKw then return some (← block r) else return none

/-- A block with a handler, a final block or both. -/
def tryStmt (r : Rules) (start : Location) : Parse Stmt := do
  skip
  let body ← block r
  let handler ← handler? r
  let finalizer ← finalizer? r
  if handler.isNone && finalizer.isNone then failAt .loneTry (← here)
  else return .tryBlock body handler finalizer (← spanFrom start)

/-! ### Statements -/

/-- A statement of one word. -/
def wordStmt (make : Location → Stmt) (start : Location) : Parse Stmt := do
  skip
  endStatement
  return make (← spanFrom start)

/-- A statement that is an expression. -/
def exprStmt (r : Rules) (start : Location) : Parse Stmt := do
  let e ← r.expr
  endStatement
  return .expr e (← spanFrom start)

/-- Whether the tokens start with `async` and, on the same line, `function`. -/
def startsAsyncFunction : List Token → Bool
  | t :: u :: _ => t.kind.isName "async" && u.kind.isKeyword .functionKw && !u.newlineBefore
  | _ => false

/-- A statement. -/
def statement (r : Rules) : Parse Stmt := do
  let start ← here
  match (← peek).kind with
  | .symbol .lbrace =>
    let body ← block r
    return .block body (← spanFrom start)
  | .symbol .semicolon =>
    skip
    return .empty start
  | .keyword .functionKw => functionDecl r false start
  | .keyword .returnKw => returnStmt r start
  | .keyword .ifKw => ifStmt r start
  | .keyword .forKw => forStmt r start
  | .keyword .whileKw => whileStmt r start
  | .keyword .doKw => doStmt r start
  | .keyword .breakKw => wordStmt .breakOut start
  | .keyword .continueKw => wordStmt .nextRound start
  | .keyword .throwKw =>
    skip
    let e ← r.expr
    endStatement
    return .raise e (← spanFrom start)
  | .keyword .tryKw => tryStmt r start
  | kind =>
    match declKind? kind with
    | some word =>
      let s ← declaration r word start
      endStatement
      return s
    | none =>
      if startsAsyncFunction (← get).rest then
        skip
        functionDecl r true start
      else exprStmt r start

end Grammar

/-! ### Programs -/

/-- How deep statements and expressions can nest. -/
def maxNesting : Nat := 40

/-- The rules that can go `levels` levels deeper. -/
def Rules.atDepth : Nat → Rules
  | 0 => tooDeep
  | levels + 1 =>
    { expr := fun s => Grammar.assignment (atDepth levels) s
      unary := fun s => Grammar.unary (atDepth levels) s
      stmt := fun s => Grammar.statement (atDepth levels) s }

/-- Statements up to the end of the text. -/
def Grammar.programItems (r : Rules) : Nat → Parse (List Stmt)
  | 0 => return []
  | n + 1 => do
    if ← Parse.atEnd then return []
    else
      let s ← r.stmt
      return s :: (← programItems r n)

/-- A program, all of the text. -/
def Grammar.program (r : Rules) : Parse Program := do
  let start ← Parse.here
  let body ← programItems r (← Parse.remaining)
  let final ← Parse.here
  return ⟨body, { start with stop := final.stop }⟩

/-- The program that a source text is, or the first fault found. -/
def parseProgram (source : String) : Except SyntaxError Program :=
  match tokenize source with
  | .error e => .error (.ofLex e)
  | .ok ts => (Grammar.program (.atDepth maxNesting)).run' (Stream.ofTokens ts)

end ScriptReplay
