/-
Names and their values.

Every binding is written twice: in its scope, which is where it is read, and in the frame of
the call that the scope belongs to, which is where it is shown.

* `declareName`, `assignName`, `readName` : the three uses of a name;
* `makeFunction` : a function with the scopes in use;
* `hoist` : the functions of a block, bound before it runs.
-/
import ScriptReplay.Run.Machine

namespace ScriptReplay

/-! ### The functions of the language -/

/-- The functions found under a name of the language, such as `Math`. -/
def memberNatives : List String :=
  ["console.log", "Math.floor", "Math.ceil", "Math.abs", "Math.min", "Math.max", "Math.round",
    "Math.sqrt", "Math.pow", "Math.trunc", "Math.sign", "Array.isArray", "Object.keys",
    "Object.values", "Object.entries"]

/-- The functions found by their names alone. -/
def globalNatives : List String :=
  ["String", "Number", "Boolean", "parseInt", "parseFloat", "isNaN"]

/-- The value of a member of a name of the language. -/
def languageMember? (owner member : String) : Option Value :=
  let name := owner ++ "." ++ member
  if name == "Math.PI" then some (.number 3.141592653589793)
  else if name == "Math.E" then some (.number 2.718281828459045)
  else if name == "Number.MAX_SAFE_INTEGER" then some (.number 9007199254740991)
  else if memberNatives.contains name then some (.function (.native name))
  else none

/-- The value of a name that the program does not bind. -/
def languageName (name : String) : Value :=
  if name == "NaN" then .number notANumber
  else if name == "Infinity" then .number infinity
  else if globalNatives.contains name then .function (.native name)
  else .undefined

/-! ### Scopes in use -/

/-- Opens a block scope inside the innermost scope. -/
def openBlock (name : String) : Run Unit := modify fun m =>
  let (id, scopes) := m.scopes.openScope .block name m.chain
  { m with scopes := scopes, chain := id :: m.chain }

/-- Leaves the innermost scope.  The global one is never left. -/
def closeScope : Run Unit := modify fun m =>
  match m.chain with
  | _ :: outer :: rest => { m with chain := outer :: rest }
  | _ => m

/-- Whether the program binds a name here. -/
def isBound (name : String) : Run Bool := do
  let m ← get
  return (m.scopes.resolve? m.chain name).isSome

/-! ### Bindings -/

/-- Shows a binding of a scope in the frame of its call. -/
def showBinding (scope : ScopeId) (name : String) (value : Value) : Run Unit :=
  modify fun m =>
  match m.scopes.owner? scope with
  | some owner => { m with stack := m.stack.bind owner name value }
  | none => m

/-- Binds a new name: `var` in the innermost function scope, the others in the
innermost scope. -/
def declareName (kind : DeclKind) (name : String) (value : Value) : Run Unit := do
  let m ← get
  let scope := match kind with
    | .var => m.scopes.functionScope m.chain
    | .letK | .const => m.chain.headD Scopes.globalId
  set { m with scopes := m.scopes.declare scope name value (kind == DeclKind.const) }
  showBinding scope name value

/-- The value of a name.  A name that the program does not bind is one of the language,
or undefined. -/
def readName (name : String) : Run Value := do
  let m ← get
  return (m.scopes.lookup? m.chain name).getD (languageName name)

/-- Gives a name a new value; a name that is not bound becomes a global one. -/
def assignName (name : String) (value : Value) (loc : Location) : Run Unit := do
  let m ← get
  match m.scopes.assign? m.chain name value with
  | some (scope, scopes) =>
    set { m with scopes := scopes }
    showBinding scope name value
  | none => failAt (.constAssignment name) loc

/-! ### Functions -/

/-- The name of a function that has none. -/
def anonymous : String := "<anonymous>"

/-- A function with the scopes in use.  One without a name takes that of the place
it is put in. -/
def makeFunction (r : Routine) (place : Option String) : Run Value := do
  let name := (r.name.or place).getD anonymous
  return .function (.script name r (← get).chain)

/-- Binds the functions that a block declares, before any of its statements runs. -/
def hoist : List Stmt → Run Unit
  | [] => pure ()
  | .function r _ :: rest => do
    if let some name := r.name then
      declareName .letK name (← makeFunction r none)
    hoist rest
  | _ :: rest => hoist rest

end ScriptReplay
