/-
Properties.

* `arrayIndex?` : the texts that are indices;
* `readProperty` : the value of a property;
* `writeProperty` : a new value for a property.

Design notes: writing behind the end of an array fills the gap with undefined, and
writing its length cuts or fills it.  Writing to a boolean, a number, a text or a function
changes nothing.
-/
import ScriptReplay.Run.Machine

namespace ScriptReplay

/-- The index that a text is: digits without a leading zero, below 2^64. -/
def arrayIndex? (key : String) : Option Nat :=
  match key.toList with
  | [] => none
  | '0' :: _ :: _ => none
  | digits =>
    if digits.all Char.isDigit && digitsValue digits < wordLimit
      then some (digitsValue digits) else none

/-- The function that the program added to a family under a name, as a value. -/
def addedMethod (p : Prototypes) (f : Family) (name : String) : Value :=
  match p.method? f name with
  | some g => .function g
  | none => .undefined

/-- The value of a property of an array. -/
def arrayProperty (p : Prototypes) (items : Array Value) (key : String) : Value :=
  match arrayIndex? key with
  | some i => items[i]?.getD .undefined
  | none =>
    if key == "length" then .number (Float.ofNat items.size) else addedMethod p .array key

/-- The value of a property of a text, whose units are its elements. -/
def textProperty (p : Prototypes) (s : String) (key : String) : Value :=
  match arrayIndex? key with
  | some i =>
    match (units s)[i]? with
    | some u => .string (ofUnits [u])
    | none => .undefined
  | none =>
    if key == "length" then .number (Float.ofNat (unitCount s)) else addedMethod p .text key

/-- The value of a property.  Null and undefined have none. -/
def readProperty (base : Value) (key : String) (loc : Location) : Run Value := do
  let m ← get
  match base with
  | .array id => return arrayProperty m.prototypes (m.heap.elements id) key
  | .object id =>
    match (m.heap.object? id).bind (·.get? key) with
    | some v => return v
    | none => return addedMethod m.prototypes .object key
  | .string s => return textProperty m.prototypes s key
  | .function f => return if key == "name" then .string f.name else .undefined
  | .bool _ | .number _ => return .undefined
  | .null | .undefined => failAt (.propertyOfNullish (← inspect base) key) loc

/-- The elements cut or filled with undefined to a length. -/
def resized (items : Array Value) (length : Nat) : Array Value :=
  if length ≤ items.size then items.take length
  else items ++ Array.replicate (length - items.size) .undefined

/-- Gives an element of an array a new value. -/
def writeElement (id : HeapId) (index : Nat) (value : Value) (loc : Location) : Run Unit := do
  let items := (← get).heap.elements id
  if items.size ≤ index then
    checkLength (index + 1) loc
    modify fun m => { m with heap := m.heap.setArray id ((resized items index).push value) }
  else
    modify fun m => { m with heap := m.heap.setArray id (items.setIfInBounds index value) }

/-- Gives a property a new value. -/
def writeProperty (base : Value) (key : String) (value : Value) (loc : Location) :
    Run Unit := do
  match base with
  | .array id =>
    match arrayIndex? key with
    | some index => writeElement id index value loc
    | none =>
      if key == "length" then
        let length ← requestedLength (← numberOf value) loc
        modify fun m =>
          { m with heap := m.heap.setArray id (resized (m.heap.elements id) length) }
  | .object id =>
    modify fun m =>
      match m.heap.object? id with
      | some properties =>
        { m with heap := m.heap.setObject id (properties.insert key value) }
      | none => m
  | .null | .undefined => failAt (.propertyOfNullish (← inspect base) key) loc
  | .bool _ | .number _ | .string _ | .function _ => pure ()

end ScriptReplay
