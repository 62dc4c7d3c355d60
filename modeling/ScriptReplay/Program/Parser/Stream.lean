/-
Reading tokens.

A parser takes tokens from the front of a stream, or fails with a cause and a place.

* `Parse` : parsers;
* `Parse.expectSymbol` and its kin : the tokens that must come next;
* `Parse.endStatement` : where a statement may end without a semicolon;
* `Rules` : the three grammar rules that nest, as parsers.

Design notes: the grammar refers to itself only through `Rules`, one level deeper at a time,
so the nesting ceiling of the language is also what makes the parsers total.
-/
import ScriptReplay.Program.Tree
import ScriptReplay.Token

namespace ScriptReplay

/-! ### Faults -/

/-- What can be wrong with the order of tokens.  Found tokens are kept as
messages name them. -/
inductive SyntaxCause where
  | lexical (cause : LexCause)
  | unexpectedEnd
  | unexpectedToken (found : String)
  | expected (text place found : String)
  | expectedName (found : String)
  | expectedPropertyName (found : String)
  | badAssignment
  | badUpdate
  | loneTry
  | tooDeep
  deriving DecidableEq, Repr

/-- The wording of a fault. -/
def SyntaxCause.message : SyntaxCause → String
  | lexical cause => cause.message
  | unexpectedEnd => "Unexpected end of input"
  | unexpectedToken found => "Unexpected token " ++ found
  | expected text place found => "Expected '" ++ text ++ "' " ++ place ++ ", found " ++ found
  | expectedName found => "Expected identifier, found " ++ found
  | expectedPropertyName found => "Expected property name, found " ++ found
  | badAssignment => "Invalid left-hand side in assignment"
  | badUpdate => "Invalid left-hand side expression in update operation"
  | loneTry => "Missing catch or finally after try"
  | tooDeep => "Nesting too deep"

/-- A fault and its place. -/
structure SyntaxError where
  cause : SyntaxCause
  loc : Location
  deriving DecidableEq, Repr

/-- The wording of a fault with its place. -/
def SyntaxError.message (e : SyntaxError) : String :=
  messageAt e.cause.message e.loc

/-- A fault below the level of tokens. -/
def SyntaxError.ofLex (e : LexError) : SyntaxError :=
  ⟨.lexical e.cause, e.loc⟩

/-! ### Streams and parsers -/

/-- The tokens not read yet and their number, the end mark that follows them, and where the
last token read stops. -/
structure Stream where
  rest : List Token
  final : Token
  lastStop : Nat
  size : Nat
  size_eq : size = rest.length

/-- A stream before its first token. -/
def Stream.ofTokens (ts : Tokens) : Stream :=
  ⟨ts.body, ts.final, 0, ts.body.length, rfl⟩

/-- The next token; the end mark if there is none. -/
def Stream.head (s : Stream) : Token :=
  s.rest.headD s.final

/-- The stream behind its next token.  The end mark is never passed. -/
def Stream.tail (s : Stream) : Stream :=
  match h : s.rest with
  | [] => s
  | t :: rest => ⟨rest, s.final, t.loc.stop, s.size - 1, by simp [s.size_eq, h]⟩

/-- A parser. -/
abbrev Parse := StateT Stream (Except SyntaxError)

namespace Parse

variable {α : Type}

/-- Fails with a cause at a place. -/
def failAt (cause : SyntaxCause) (loc : Location) : Parse α :=
  fun _ => .error ⟨cause, loc⟩

/-- The next token, which stays in the stream. -/
def peek : Parse Token := do
  return (← get).head

/-- Passes the next token. -/
def skip : Parse Unit :=
  modify Stream.tail

/-- Where the next token stands. -/
def here : Parse Location := do
  return (← peek).loc

/-- The number of tokens left, which bounds every repetition. -/
def remaining : Parse Nat := do
  return (← get).size

/-- Whether only the end mark is left. -/
def atEnd : Parse Bool := do
  return (← get).rest.isEmpty

/-- The stretch from the start of `l` to the end of the last token read. -/
def spanFrom (l : Location) : Parse Location := do
  return l.until (← get).lastStop

/-- Whether the next token is this symbol. -/
def atSymbol (s : Symbol) : Parse Bool := do
  return (← peek).kind.isSymbol s

/-- Whether the next token is this keyword. -/
def atKeyword (k : Keyword) : Parse Bool := do
  return (← peek).kind.isKeyword k

/-- Passes the symbol if it comes next, and tells whether it did. -/
def eatSymbol (s : Symbol) : Parse Bool := do
  if ← atSymbol s then
    skip
    return true
  else return false

/-- Passes the keyword if it comes next, and tells whether it did. -/
def eatKeyword (k : Keyword) : Parse Bool := do
  if ← atKeyword k then
    skip
    return true
  else return false

/-- Fails because of the next token. -/
def unexpected : Parse α := do
  let t ← peek
  match t.kind with
  | .finish => failAt .unexpectedEnd t.loc
  | kind => failAt (.unexpectedToken kind.shown) t.loc

/-- Fails because another text had to come next. -/
def missing (text place : String) : Parse α := do
  let t ← peek
  failAt (.expected text place t.kind.shown) t.loc

/-- Passes a symbol that must come next; `place` says where in the grammar. -/
def expectSymbol (s : Symbol) (place : String) : Parse Unit := do
  if !(← eatSymbol s) then missing s.text place

/-- Passes a keyword that must come next. -/
def expectKeyword (k : Keyword) (place : String) : Parse Unit := do
  if !(← eatKeyword k) then missing k.text place

/-- Reads a name. -/
def expectName : Parse String := do
  let t ← peek
  match t.kind with
  | .name n =>
    skip
    return n
  | kind => failAt (.expectedName kind.shown) t.loc

/-- Reads the name of a property, which may be a keyword. -/
def expectPropertyName : Parse String := do
  let t ← peek
  match t.kind with
  | .name n =>
    skip
    return n
  | .keyword k =>
    skip
    return k.text
  | kind => failAt (.expectedPropertyName kind.shown) t.loc

/-- Ends a statement: a semicolon is passed; without one, a line break, a closing brace or the
end of the text must follow. -/
def endStatement : Parse Unit := do
  if !(← eatSymbol .semicolon) then
    let t ← peek
    if !(t.newlineBefore || t.kind.isSymbol .rbrace || (← atEnd)) then unexpected

end Parse

/-! ### Nesting -/

/-- The rules that take the grammar one level deeper. -/
structure Rules where
  expr : Parse Expr
  unary : Parse Expr
  stmt : Parse Stmt

/-- The rules at the nesting ceiling. -/
def Rules.tooDeep : Rules :=
  ⟨stop, stop, stop⟩
where
  stop {α : Type} : Parse α := do
    Parse.failAt .tooDeep (← Parse.here)

end ScriptReplay
