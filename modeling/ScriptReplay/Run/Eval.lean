/-
How expressions are evaluated.

* `evalExpr` : one expression, its parts through a walker;
* `evalCall`, `callMethod`, `evalNew` : calls, calls of methods and constructions;
* `evalAssign`, `evalUpdate` : writes.

Design notes: operands are evaluated from left to right.  A target's object and key are
evaluated before the value that is written to it, and an operator in front of the equals sign
reads the old value before that too.
-/
import ScriptReplay.Program.Render
import ScriptReplay.Run.Property
import ScriptReplay.Run.TextMethod

namespace ScriptReplay

/-! ### Literals -/

/-- The text of a template, its parts evaluated in order. -/
def evalTemplate (w : Walker) : List String → List Expr → Run String
  | [], _ => return ""
  | text :: texts, [] => return text ++ (← evalTemplate w texts [])
  | text :: texts, e :: parts => do
    let v ← w.eval e
    let part ← plainOf v
    return text ++ part ++ (← evalTemplate w texts parts)

/-- The values of the items of an array; a hole is undefined. -/
def evalItems (w : Walker) : List (Option Expr) → Run (List Value)
  | [] => return []
  | item :: rest => do
    let v ← match item with
      | some e => w.eval e
      | none => pure .undefined
    return v :: (← evalItems w rest)

/-- The value of an expression that is put in a place with a name, which a function
without one takes. -/
def evalNamed (w : Walker) (e : Expr) (name : String) : Run Value :=
  match e.routine? with
  | some r => makeFunction r (some name)
  | none => w.eval e

/-- The properties of an object, added in order. -/
def evalProperties (w : Walker) (acc : Table Value) : List Property → Run (Table Value)
  | [] => return acc
  | p :: rest => do
    let v ← evalNamed w p.value p.key
    evalProperties w (acc.insert p.key v) rest

/-- A new array, with a step that tells of it. -/
def createArray (items : Array Value) (loc : Location) : Run Value := do
  let v ← newArray items
  record .expression loc ("Create array: " ++ (← inspect v))
  return v

/-- A new object, with a step that tells of it. -/
def createObject (properties : Table Value) (loc : Location) : Run Value := do
  let v ← newObject properties
  record .expression loc ("Create object: " ++ (← inspect v))
  return v

/-! ### Operators -/

/-- An operator with two operands. -/
def evalBinary (w : Walker) (op : BinaryOp) (left right : Expr) (loc : Location) :
    Run Value := do
  let a ← w.eval left
  let b ← w.eval right
  let result := applyBinary (← get).heap op a b
  checkText result loc
  let source := (Expr.binary op left right loc).text
  let values := (← inspect a) ++ " " ++ op.text ++ " " ++ (← inspect b)
  let before := if source != values then source ++ ": " ++ values else values
  record .comparison loc (before ++ " → " ++ (← inspect result))
  return result

/-- Whether the left operand alone decides. -/
def LogicalOp.decides (op : LogicalOp) (v : Value) : Bool :=
  match op with
  | .and => !v.isTruthy
  | .or => v.isTruthy
  | .nullish => !v.isNullish

/-! ### Members -/

/-- The name of a property, evaluated if it is in brackets. -/
def keyText (w : Walker) : Key → Run String
  | .named name => pure name
  | .computed e => do plainOf (← w.eval e)

/-- The value of a member of a name of the language, unless the program binds that name. -/
def unboundMember? (e : Expr) : Run (Option Value) := do
  match e.staticMember? with
  | none => return none
  | some (owner, member) =>
    if ← isBound owner then return none else return languageMember? owner member

/-- The kind of step that tells of a read, if one does: reads of elements and of objects. -/
def accessKind? (base : Value) (key : String) : Option StepKind :=
  match base with
  | .array _ => if (arrayIndex? key).isSome then some .arrayAccess else none
  | .object _ => some .objectAccess
  | _ => none

/-- A read of a property. -/
def evalMember (w : Walker) (object : Expr) (key : Key) (loc : Location) : Run Value := do
  let whole := Expr.member object key loc
  match ← unboundMember? whole with
  | some v => return v
  | none =>
    let base ← w.eval object
    let name ← keyText w key
    let v ← readProperty base name loc
    if let some kind := accessKind? base name then
      record kind loc (whole.text ++ " → " ++ (← inspect v))
    return v

/-! ### Writes -/

/-- What a plain assignment or one with an operator writes.  `old` is the value before. -/
def assigned (op : AssignOp) (old : Option Value) (v : Value) : Run Value := do
  match op, old with
  | .compound bin, some old => return applyCompound (← get).heap bin old v
  | _, _ => return v

/-- The old value, if the operator needs it. -/
def oldValue (op : AssignOp) (reading : Run Value) : Run (Option Value) := do
  match op with
  | .plain => return none
  | .compound _ => return some (← reading)

/-- An assignment to a name. -/
def assignToName (w : Walker) (op : AssignOp) (name : String) (value : Expr)
    (loc : Location) : Run Value := do
  let old ← oldValue op (readName name)
  let v ← evalNamed w value name
  let result ← assigned op old v
  checkText result loc
  assignName name result loc
  record .assignment loc (name ++ " " ++ op.text ++ " " ++ (← inspect result))
  return result

/-- The family and the name that a target of the form `Array.prototype.name` adds to, unless
the program binds the name of the constructor. -/
def addition? (object : Expr) (key : Key) : Run (Option (Family × String)) := do
  match object.staticMember?, key with
  | some (owner, "prototype"), .named method =>
    if ← isBound owner then return none
    else return (Family.ofName? owner).map (·, method)
  | _, _ => return none

/-- Adds a method to a family. -/
def assignAddition (w : Walker) (family : Family) (method : String) (value : Expr)
    (loc : Location) : Run Value := do
  let v ← evalNamed w value method
  modify fun m => { m with prototypes := m.prototypes.insert family method v }
  record .assignment loc (family.name ++ ".prototype." ++ method ++ " = " ++ (← inspect v))
  return v

/-- The kind of step that tells of a write to a property, if one does. -/
def modifyKind? : Value → Option StepKind
  | .array _ => some .arrayModify
  | .object _ => some .objectModify
  | _ => none

/-- An assignment to a property. -/
def assignToMember (w : Walker) (op : AssignOp) (object : Expr) (key : Key)
    (targetText : String) (value : Expr) (loc : Location) : Run Value := do
  let base ← w.eval object
  let name ← keyText w key
  let old ← oldValue op (readProperty base name loc)
  let v ← evalNamed w value name
  let result ← assigned op old v
  checkText result loc
  writeProperty base name result loc
  if let some kind := modifyKind? base then
    record kind loc (targetText ++ " = " ++ (← inspect result))
  return result

/-- An assignment. -/
def evalAssign (w : Walker) (op : AssignOp) (target : Target) (value : Expr)
    (loc : Location) : Run Value := do
  match target with
  | .name name _ => assignToName w op name value loc
  | .member object key _ =>
    match ← addition? object key with
    | some (family, method) => assignAddition w family method value loc
    | none => assignToMember w op object key target.text value loc

/-- What counting adds. -/
def UpdateOp.delta : UpdateOp → Float
  | .increment => 1
  | .decrement => -1

/-- Counts a target up or down and gives the number before and the number after. -/
def countTarget (w : Walker) (op : UpdateOp) (target : Target) (loc : Location) :
    Run (Float × Float) := do
  match target with
  | .name name _ =>
    let old ← numberOf (← readName name)
    let new := old + op.delta
    assignName name (.number new) loc
    return (old, new)
  | .member object key _ =>
    let base ← w.eval object
    let name ← keyText w key
    let old ← numberOf (← readProperty base name loc)
    let new := old + op.delta
    writeProperty base name (.number new) loc
    return (old, new)

/-- Counting up or down.  The value is the number after if the operator stands before
its target. -/
def evalUpdate (w : Walker) (op : UpdateOp) (before : Bool) (target : Target)
    (loc : Location) : Run Value := do
  let (old, new) ← countTarget w op target loc
  let text := target.text
  record .assignment loc (text ++ op.text ++ " → " ++ text ++ " = " ++ numberText new)
  return .number (if before then new else old)

/-! ### Calls -/

/-- Calls a method that the program added to a family. -/
def callAdded (w : Walker) (family : Family) (receiver : Value) (method : String)
    (args : List Value) (callee : Expr) (loc : Location) : Run Value := do
  match (← get).prototypes.method? family method with
  | some f => callFunction w f (some receiver) args method true loc
  | none => failAt (.notFunction callee.text) loc

/-- Calls a method of a value: one of the language, else one of the object's own, else
an added one. -/
def callMethod (w : Walker) (receiver : Value) (method : String) (args : List Value)
    (callee : Expr) (loc : Location) : Run Value := do
  match receiver with
  | .array id =>
    match ArrayMethod.ofName? method with
    | some am => callArrayMethod w am id args loc
    | none => callAdded w .array receiver method args callee loc
  | .string s =>
    match TextMethod.ofName? method with
    | some tm => callTextMethod tm s args loc
    | none => callAdded w .text receiver method args callee loc
  | .object id =>
    match ((← get).heap.object? id).bind (·.get? method) with
    | some (.function f) => callFunction w f (some receiver) args method true loc
    | _ => callAdded w .object receiver method args callee loc
  | .null | .undefined => failAt (.propertyOfNullish (← inspect receiver) method) loc
  | .bool _ | .number _ | .function _ => failAt (.notFunction callee.text) loc

/-- Calls the value of an expression. -/
def callValue (w : Walker) (callee : Expr) (arguments : List Expr) (loc : Location) :
    Run Value := do
  let f ← w.eval callee
  let args ← w.evalAll arguments
  match f with
  | .function f => callFunction w f none args f.name true loc
  | _ => failAt (.notFunction callee.text) loc

/-- A call. -/
def evalCall (w : Walker) (callee : Expr) (arguments : List Expr) (loc : Location) :
    Run Value := do
  match ← unboundMember? callee with
  | some (.function f) =>
    let args ← w.evalAll arguments
    callNative f.name args loc
  | some _ => failAt (.notFunction callee.text) loc
  | none =>
    match callee with
    | .member object key _ =>
      let receiver ← w.eval object
      let method ← keyText w key
      let args ← w.evalAll arguments
      callMethod w receiver method args callee loc
    | _ => callValue w callee arguments loc

/-! ### Constructions -/

/-- Constructs an array: of a length if there is one argument and it is a number, else of
the arguments. -/
def constructArray (args : List Value) (loc : Location) : Run Value := do
  let items ← match args with
    | [.number x] => do
      let length ← requestedLength x loc
      pure (Array.replicate length Value.undefined)
    | _ => do
      checkArrayLength args.length loc
      pure args.toArray
  createArray items loc

/-- A construction by a name that the program does not bind. -/
def constructNamed (name : String) (args : List Value) (loc : Location) : Run Value :=
  if name == "Array" then constructArray args loc
  else if name == "Object" then createObject .empty loc
  else failAt (.notConstructor name) loc

/-- Constructs an object by a function of the program.  An array or object that it returns
takes the place of the new one. -/
def constructBy (w : Walker) (f : Callable) (args : List Value) (loc : Location) :
    Run Value := do
  let instanceValue ← newObject .empty
  let result ← callFunction w f (some instanceValue) args f.name true loc
  match result with
  | .object _ | .array _ => return result
  | _ => return instanceValue

/-- Whether a function can construct: those of the program that are not arrow functions. -/
def Callable.constructs : Callable → Bool
  | .native _ => false
  | .script _ r _ => !r.isArrow

/-- A construction. -/
def evalNew (w : Walker) (callee : Expr) (arguments : List Expr) (loc : Location) :
    Run Value := do
  let free ← match callee.name? with
    | some name => do
      if ← isBound name then pure none else pure (some name)
    | none => pure none
  match free with
  | some name =>
    let args ← w.evalAll arguments
    constructNamed name args loc
  | none =>
    let constructor ← w.eval callee
    let args ← w.evalAll arguments
    match constructor with
    | .function f =>
      if f.constructs then constructBy w f args loc
        else failAt (.notConstructor callee.text) loc
    | _ => failAt (.notConstructor callee.text) loc

/-! ### Expressions -/

/-- The value of an expression. -/
def evalExpr (w : Walker) : Expr → Run Value
  | .number x _ => pure (.number x)
  | .string s _ => pure (.string s)
  | .bool b _ => pure (.bool b)
  | .null _ => pure .null
  | .template texts parts loc => do
    let v := Value.string (← evalTemplate w texts parts)
    checkText v loc
    return v
  | .ident name _ => readName name
  | .this _ => readName "this"
  | .array items loc => do createArray (← evalItems w items).toArray loc
  | .object properties loc => do createObject (← evalProperties w .empty properties) loc
  | .function r _ => makeFunction r none
  | .unary op e _ => do
    let v ← w.eval e
    return applyUnary (← get).heap op v
  | .update op before target loc => evalUpdate w op before target loc
  | .binary op left right loc => evalBinary w op left right loc
  | .logical op left right _ => do
    let v ← w.eval left
    if op.decides v then return v else w.eval right
  | .assign op target value loc => evalAssign w op target value loc
  | .conditional test yes no _ => do
    if (← w.eval test).isTruthy then w.eval yes else w.eval no
  | .call callee arguments loc => evalCall w callee arguments loc
  | .new callee arguments loc => evalNew w callee arguments loc
  | .member object key loc => evalMember w object key loc
  | .await e _ => w.eval e

end ScriptReplay
