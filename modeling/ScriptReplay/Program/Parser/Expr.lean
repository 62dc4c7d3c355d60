/-
The grammar of expressions.

From the loosest binding to the tightest: assignment and arrow functions, the conditional, the
tiers of operators with two operands, the power, operators with one operand, counting after
the operand, calls and members, primary expressions.  The tiers group to the left, the power
groups to the right.

* `Grammar.tiers` : which operators stand on which tier;
* `Grammar.assignment` : expressions;
* `Grammar.unary` : operands;
* `Grammar.functionRest` : parameters and body, which declarations share.

Design notes: every rule takes the rules one level deeper as `r`.  Repetitions count down the
tokens that are left, for each round reads at least one.
-/
import ScriptReplay.Program.Parser.Stream
import ScriptReplay.Token.Scan

namespace ScriptReplay.Grammar

open Parse

/-! ### Lists of things -/

/-- Expressions divided by commas up to a closing parenthesis, which stays. -/
def argumentItems (r : Rules) : Nat → Parse (List Expr)
  | 0 => return []
  | n + 1 => do
    if ← atSymbol .rparen then return []
    else
      let e ← r.expr
      if ← eatSymbol .comma then return e :: (← argumentItems r n)
      else return [e]

/-- The arguments of a call with their parentheses. -/
def arguments (r : Rules) : Parse (List Expr) := do
  expectSymbol .lparen "to open argument list"
  let args ← argumentItems r ((← remaining) + 1)
  expectSymbol .rparen "after arguments"
  return args

/-- The arguments of a construction, which may be left out with their parentheses. -/
def optionalArguments (r : Rules) : Parse (List Expr) := do
  if ← atSymbol .lparen then arguments r else return []

/-- The value that stands in for a missing argument, if one is given. -/
def fallback (r : Rules) : Parse (Option Expr) := do
  if ← eatSymbol .eq then return some (← r.expr)
  else return none

/-- Parameters divided by commas up to a closing parenthesis, which stays. -/
def parameterItems (r : Rules) : Nat → Parse (List Param)
  | 0 => return []
  | n + 1 => do
    if ← atSymbol .rparen then return []
    else
      let name ← expectName
      let p : Param := ⟨name, ← fallback r⟩
      if ← eatSymbol .comma then return p :: (← parameterItems r n)
      else return [p]

/-- Parameters with their parentheses. -/
def parameters (r : Rules) : Parse (List Param) := do
  expectSymbol .lparen "to open parameter list"
  let params ← parameterItems r ((← remaining) + 1)
  expectSymbol .rparen "after parameters"
  return params

/-- Statements up to a closing brace or the end of the text. -/
def blockItems (r : Rules) : Nat → Parse (List Stmt)
  | 0 => return []
  | n + 1 => do
    if (← atSymbol .rbrace) || (← atEnd) then return []
    else
      let s ← r.stmt
      return s :: (← blockItems r n)

/-- Statements with their braces. -/
def block (r : Rules) : Parse (List Stmt) := do
  expectSymbol .lbrace "to open block"
  let body ← blockItems r ((← remaining) + 1)
  expectSymbol .rbrace "to close block"
  return body

/-! ### Functions -/

/-- The parameters and the block of a function whose text starts at `start`. -/
def functionRest (r : Rules) (name : Option String) (isAsync : Bool) (start : Location) :
    Parse Routine := do
  let params ← parameters r
  let bodyStart ← here
  let body ← block r
  return {
    name := name, params := params, body := .block body, isArrow := false, isAsync := isAsync
    loc := ← spanFrom start, bodyLoc := ← spanFrom bodyStart }

/-- A function as an expression. -/
def functionExpr (f : Routine) : Expr :=
  .function f f.loc

/-- A name that may be left out. -/
def optionalName : Parse (Option String) := do
  match (← peek).kind with
  | .name _ => return some (← expectName)
  | _ => return none

/-- A function expression from its keyword on. -/
def functionLiteral (r : Rules) (isAsync : Bool) (start : Location) : Parse Expr := do
  expectKeyword .functionKw "to start function expression"
  let name ← optionalName
  return functionExpr (← functionRest r name isAsync start)

/-- What follows the parenthesis that closes the ones open: `depth` of them, before `ts`. -/
def afterParens (depth : Nat) : List Token → Option (List Token)
  | [] => none
  | t :: rest =>
    if t.kind.isSymbol .lparen then afterParens (depth + 1) rest
    else if t.kind.isSymbol .rparen then
      match depth with
      | 0 | 1 => some rest
      | d + 2 => afterParens (d + 1) rest
    else afterParens depth rest

/-- Whether a token is some name. -/
def isSomeName (t : Token) : Bool :=
  match t.kind with
  | .name _ => true
  | _ => false

/-- What follows the parameters that an arrow function would have here. -/
def afterArrowParams : List Token → Option (List Token)
  | [] => none
  | t :: rest =>
    if isSomeName t then some rest
    else if t.kind.isSymbol .lparen then afterParens 0 (t :: rest)
    else none

/-- Whether the tokens start with `async` and what can follow it in an arrow function. -/
def startsAsyncArrow : List Token → Bool
  | t :: u :: _ =>
    t.kind.isName "async" && !u.newlineBefore && (isSomeName u || u.kind.isSymbol .lparen)
  | _ => false

/-- If the tokens start with an arrow function, whether it is an asynchronous one. -/
def arrowAhead? (ts : List Token) : Option Bool :=
  let isAsync := startsAsyncArrow ts
  match afterArrowParams (if isAsync then ts.drop 1 else ts) with
  | some (t :: _) =>
    if t.kind.isSymbol .arrow && !t.newlineBefore then some isAsync else none
  | _ => none

/-- The parameters of an arrow function, or its only one without parentheses. -/
def arrowParams (r : Rules) : Parse (List Param) := do
  if ← atSymbol .lparen then parameters r
  else
    let name ← expectName
    return [⟨name, none⟩]

/-- The body of an arrow function: a block or an expression. -/
def arrowBody (r : Rules) : Parse Body := do
  if ← atSymbol .lbrace then return .block (← block r)
  else return .value (← r.expr)

/-- An arrow function. -/
def arrowFunction (r : Rules) (isAsync : Bool) : Parse Expr := do
  let start ← here
  if isAsync then skip
  let params ← arrowParams r
  expectSymbol .arrow "after arrow parameters"
  let bodyStart ← here
  let body ← arrowBody r
  return functionExpr {
    name := none, params := params, body := body, isArrow := true, isAsync := isAsync
    loc := ← spanFrom start, bodyLoc := ← spanFrom bodyStart }

/-! ### Primary expressions -/

/-- The expression embedded in a template, which is all of its chunk. -/
def chunkExpr (r : Rules) (chunk : Chunk) : Except SyntaxError Expr := do
  match tokenizeAt chunk.source chunk.origin.position with
  | .error e => throw (.ofLex e)
  | .ok ts =>
    let whole : Parse Expr := do
      let e ← r.expr
      if ← atEnd then return e else unexpected
    whole.run' (Stream.ofTokens ts)

/-- The items of an array literal up to its closing bracket, which stays.  A comma where an
item is expected leaves a hole. -/
def arrayItems (r : Rules) : Nat → Parse (List (Option Expr))
  | 0 => return []
  | n + 1 => do
    if ← atSymbol .rbracket then return []
    else if ← eatSymbol .comma then return none :: (← arrayItems r n)
    else
      let e ← r.expr
      if ← eatSymbol .comma then return some e :: (← arrayItems r n)
      else return [some e]

/-- An array literal. -/
def arrayLiteral (r : Rules) : Parse Expr := do
  let start ← here
  skip
  let items ← arrayItems r ((← remaining) + 1)
  expectSymbol .rbracket "to close array literal"
  return .array items (← spanFrom start)

/-- The key of a property, and whether it can stand alone as a name. -/
def propertyKey : Parse (String × Bool) := do
  match (← peek).kind with
  | .string s =>
    skip
    return (s, false)
  | .number x =>
    skip
    return (numberText x, false)
  | .name _ => return (← expectPropertyName, true)
  | _ => return (← expectPropertyName, false)

/-- One property of an object literal: a method, a key with its value, or a name for both. -/
def property (r : Rules) : Parse Property := do
  let start ← here
  let (key, aloneOk) ← propertyKey
  let value ←
    if ← atSymbol .lparen then functionExpr <$> functionRest r (some key) false start
    else if ← eatSymbol .colon then r.expr
    else if aloneOk then pure (.ident key start)
    else unexpected
  return ⟨key, value, ← spanFrom start⟩

/-- Properties divided by commas up to a closing brace, which stays. -/
def propertyItems (r : Rules) : Nat → Parse (List Property)
  | 0 => return []
  | n + 1 => do
    if ← atSymbol .rbrace then return []
    else
      let p ← property r
      if ← eatSymbol .comma then return p :: (← propertyItems r n)
      else return [p]

/-- An object literal. -/
def objectLiteral (r : Rules) : Parse Expr := do
  let start ← here
  skip
  let properties ← propertyItems r ((← remaining) + 1)
  expectSymbol .rbrace "to close object literal"
  return .object properties (← spanFrom start)

/-- An expression of one token, which is passed. -/
def single (e : Expr) : Parse Expr := do
  skip
  return e

/-- A literal, a name, a function, or an expression in parentheses, which leave no trace. -/
def primary (r : Rules) : Parse Expr := do
  let loc ← here
  match (← peek).kind with
  | .number x => single (.number x loc)
  | .string s => single (.string s loc)
  | .template texts chunks =>
    let parts ← liftM (chunks.mapM (chunkExpr r))
    single (.template texts parts loc)
  | .keyword .trueKw => single (.bool true loc)
  | .keyword .falseKw => single (.bool false loc)
  | .keyword .nullKw => single (.null loc)
  | .keyword .thisKw => single (.this loc)
  | .keyword .functionKw => functionLiteral r false loc
  | .name n =>
    if n == "async" && ((← get).rest[1]?.any (·.kind.isKeyword .functionKw)) then
      skip
      functionLiteral r true loc
    else single (.ident n loc)
  | .symbol .lparen =>
    skip
    let e ← r.expr
    expectSymbol .rparen "after parenthesized expression"
    return e
  | .symbol .lbracket => arrayLiteral r
  | .symbol .lbrace => objectLiteral r
  | _ => unexpected

/-! ### Members and calls -/

/-- The property access that comes next, if one does. -/
def accessKey? (r : Rules) : Parse (Option Key) := do
  if ← eatSymbol .dot then return some (.named (← expectPropertyName))
  else if ← eatSymbol .lbracket then
    let e ← r.expr
    expectSymbol .rbracket "after computed member"
    return some (.computed e)
  else return none

/-- The property accesses behind `e`. -/
def members (r : Rules) : Nat → Expr → Parse Expr
  | 0, e => return e
  | n + 1, e => do
    match ← accessKey? r with
    | some key => members r n (.member e key (← spanFrom e.loc))
    | none => return e

/-- A construction: the callee has property accesses but no calls, and the arguments may be
left out.  `new` can be repeated. -/
def construction (r : Rules) : Nat → Parse Expr
  | 0 => unexpected
  | n + 1 => do
    let start ← here
    skip
    let head ← if ← atKeyword .newKw then construction r n else primary r
    let callee ← members r (← remaining) head
    let args ← optionalArguments r
    return .new callee args (← spanFrom start)

/-- The property accesses and calls behind `e`. -/
def calls (r : Rules) : Nat → Expr → Parse Expr
  | 0, e => return e
  | n + 1, e => do
    match ← accessKey? r with
    | some key => calls r n (.member e key (← spanFrom e.loc))
    | none =>
      if ← atSymbol .lparen then
        let args ← arguments r
        calls r n (.call e args (← spanFrom e.loc))
      else return e

/-- A primary expression or a construction with its property accesses and calls. -/
def callChain (r : Rules) : Parse Expr := do
  let head ← if ← atKeyword .newKw then construction r ((← remaining) + 1) else primary r
  calls r (← remaining) head

/-! ### Operators -/

/-- The target that an operand of a counting operator denotes. -/
def updateTarget (e : Expr) : Parse Target :=
  match e.target? with
  | some t => pure t
  | none => failAt .badUpdate e.loc

/-- The counting operator that a token is. -/
def updateOp? (k : TokenKind) : Option UpdateOp :=
  match k with
  | .symbol .plusPlus => some .increment
  | .symbol .minusMinus => some .decrement
  | _ => none

/-- An operand with the counting operator behind it, on the same line, if there is one. -/
def counted (r : Rules) : Parse Expr := do
  let e ← callChain r
  let t ← peek
  match if t.newlineBefore then none else updateOp? t.kind with
  | some op =>
    let target ← updateTarget e
    skip
    return .update op false target (← spanFrom e.loc)
  | none => return e

/-- The operator before one operand that a token is. -/
def unaryOp? (k : TokenKind) : Option UnaryOp :=
  match k with
  | .symbol .bang => some .not
  | .symbol .minus => some .neg
  | .symbol .plus => some .plus
  | .symbol .tilde => some .bitNot
  | .keyword .typeofKw => some .typeOf
  | _ => none

/-- An operand with the operators before it.  Each operator takes the grammar one
level deeper. -/
def unary (r : Rules) : Parse Expr := do
  let t ← peek
  match unaryOp? t.kind, updateOp? t.kind with
  | some op, _ =>
    skip
    let e ← r.unary
    return .unary op e (t.loc.through e.loc)
  | none, some op =>
    skip
    let e ← r.unary
    return .update op true (← updateTarget e) (t.loc.through e.loc)
  | none, none =>
    if ← eatKeyword .awaitKw then
      let e ← r.unary
      return .await e (t.loc.through e.loc)
    else counted r

/-- Operands joined by the power operator, which groups to the right. -/
def powers (r : Rules) : Nat → Parse Expr
  | 0 => unary r
  | n + 1 => do
    let base ← unary r
    if ← eatSymbol .starStar then
      let exponent ← powers r n
      return .binary .pow base exponent (base.loc.through exponent.loc)
    else return base

/-- An operator of one of the tiers. -/
inductive Joint where
  | binary (op : BinaryOp)
  | logical (op : LogicalOp)

/-- Two operands joined. -/
def Joint.join (j : Joint) (l r : Expr) : Expr :=
  match j with
  | binary op => .binary op l r (l.loc.through r.loc)
  | logical op => .logical op l r (l.loc.through r.loc)

/-- The operators of one tier. -/
abbrev Tier := List (Symbol × Joint)

/-- The tiers, the loosest first. -/
def tiers : List Tier :=
  [[(.barBar, .logical .or), (.queryQuery, .logical .nullish)],
    [(.ampAmp, .logical .and)],
    [(.bar, .binary .bitOr)],
    [(.caret, .binary .bitXor)],
    [(.amp, .binary .bitAnd)],
    [(.eqEqEq, .binary .strictEq), (.bangEqEq, .binary .strictNe), (.eqEq, .binary .looseEq),
      (.bangEq, .binary .looseNe)],
    [(.less, .binary .lt), (.lessEq, .binary .le), (.greater, .binary .gt),
      (.greaterEq, .binary .ge)],
    [(.shiftLeft, .binary .shl), (.shiftRight, .binary .shr),
      (.shiftRightZero, .binary .ushr)],
    [(.plus, .binary .add), (.minus, .binary .sub)],
    [(.star, .binary .mul), (.slash, .binary .div), (.percent, .binary .rem)]]

/-- The operator of a tier that a token is. -/
def Tier.joint? (t : Tier) (k : TokenKind) : Option Joint :=
  (t.find? fun entry => k.isSymbol entry.1).map (·.2)

/-- The operators of a tier behind `l`, each with its right operand. -/
def tierRest (t : Tier) (operand : Parse Expr) : Nat → Expr → Parse Expr
  | 0, l => return l
  | n + 1, l => do
    match t.joint? (← peek).kind with
    | some j =>
      skip
      let r ← operand
      tierRest t operand n (j.join l r)
    | none => return l

/-- Operands joined by the operators of the given tiers, the loosest first. -/
def layered (operand : Parse Expr) : List Tier → Parse Expr
  | [] => operand
  | t :: tighter => do
    let first ← layered operand tighter
    tierRest t (layered operand tighter) (← remaining) first

/-- Operands joined by any operators with two operands. -/
def joined (r : Rules) : Parse Expr := do
  layered (powers r (← remaining)) tiers

/-- A joined expression, or a choice between two that it decides. -/
def conditional (r : Rules) : Parse Expr := do
  let test ← joined r
  if ← eatSymbol .query then
    let yes ← r.expr
    expectSymbol .colon "in conditional expression"
    let no ← r.expr
    return .conditional test yes no (test.loc.through no.loc)
  else return test

/-! ### Assignment -/

/-- The assignment operator that a token is. -/
def assignOp? (k : TokenKind) : Option AssignOp :=
  match k with
  | .symbol .eq => some .plain
  | .symbol .plusEq => some (.compound .add)
  | .symbol .minusEq => some (.compound .sub)
  | .symbol .starEq => some (.compound .mul)
  | .symbol .slashEq => some (.compound .div)
  | .symbol .percentEq => some (.compound .rem)
  | .symbol .starStarEq => some (.compound .pow)
  | .symbol .ampEq => some (.compound .bitAnd)
  | .symbol .barEq => some (.compound .bitOr)
  | .symbol .caretEq => some (.compound .bitXor)
  | .symbol .shiftLeftEq => some (.compound .shl)
  | .symbol .shiftRightEq => some (.compound .shr)
  | .symbol .shiftRightZeroEq => some (.compound .ushr)
  | _ => none

/-- An expression: an arrow function, an assignment, which groups to the right, or a
conditional. -/
def assignment (r : Rules) : Parse Expr := do
  match arrowAhead? (← get).rest with
  | some isAsync => arrowFunction r isAsync
  | none =>
    let left ← conditional r
    match assignOp? (← peek).kind with
    | none => return left
    | some op =>
      match left.target? with
      | none => failAt .badAssignment left.loc
      | some target =>
        skip
        let value ← r.expr
        return .assign op target value (left.loc.through value.loc)

end ScriptReplay.Grammar
