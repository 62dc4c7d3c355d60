/-
The functions of the language.

* `mathFunction?` : the functions on numbers;
* `ownEntries` : the keys and values that a value has of its own;
* `callNative` : a call of a function known by its name.
-/
import ScriptReplay.Run.Names
import ScriptReplay.Run.Operators

namespace ScriptReplay

/-! ### Numbers -/

/-- The least of some numbers; NaN if one of them is. -/
def leastOf (xs : List Float) : Float :=
  xs.foldl
    (fun a x => if a.isNaN || x.isNaN then notANumber else if x < a then x else a) infinity

/-- The greatest of some numbers; NaN if one of them is. -/
def greatestOf (xs : List Float) : Float :=
  xs.foldl
    (fun a x => if a.isNaN || x.isNaN then notANumber else if a < x then x else a) (-infinity)

/-- The sign of a number.  Zeros and NaN are their own signs. -/
def signOf (x : Float) : Float :=
  if x.isNaN || x == 0 then x else if x < 0 then -1 else 1

/-- The function on numbers with this name.  A missing argument is NaN. -/
def mathFunction? (name : String) : Option (List Float → Float) :=
  let first (f : Float → Float) : Option (List Float → Float) :=
    some fun xs => f (xs.headD notANumber)
  match name with
  | "Math.floor" => first Float.floor
  | "Math.ceil" => first Float.ceil
  | "Math.abs" => first Float.abs
  | "Math.trunc" => first wholePart
  | "Math.sqrt" => first Float.sqrt
  | "Math.round" => first fun x => (x + 0.5).floor
  | "Math.sign" => first signOf
  | "Math.pow" => some fun xs => power (xs.headD notANumber) (xs.tail.headD notANumber)
  | "Math.min" => some leastOf
  | "Math.max" => some greatestOf
  | _ => none

/-! ### Entries -/

/-- Values with their indices as keys. -/
def indexed (vs : List Value) : List (String × Value) :=
  vs.zipIdx.map fun (v, i) => (toString i, v)

/-- The characters of a text as values. -/
def charValues (s : String) : List Value :=
  s.toList.map fun c => .string (String.singleton c)

/-- The keys and values of an object, an array or a text. -/
def ownEntries (h : Heap) : Value → List (String × Value)
  | .object id => ((h.object? id).map (·.entries)).getD []
  | .array id => indexed (h.elements id).toList
  | .string s => indexed (charValues s)
  | .undefined | .null | .bool _ | .number _ | .function _ => []

/-- A new array of two for each entry. -/
def newPairs : List (String × Value) → Run (List Value)
  | [] => return []
  | (k, v) :: rest => do
    let pair ← newArray #[.string k, v]
    return pair :: (← newPairs rest)

/-! ### Calls -/

/-- What a value prints as: a text as it is, all else inspected. -/
def printed (h : Heap) : Value → String
  | .string s => s
  | v => h.inspect v false

/-- Prints a line. -/
def callLog (args : List Value) (loc : Location) : Run Value := do
  modify fun m =>
    { m with console := m.console.log (" ".intercalate (args.map (printed m.heap))) }
  record .call loc ("console.log(" ++ (← inspectAll args) ++ ")")
  return .undefined

/-- A new array of what a value has of its own. -/
def callEntries (name : String) (arg : Value) (loc : Location) : Run Value := do
  let entries := ownEntries (← get).heap arg
  let items ←
    if name == "Object.keys" then pure (entries.map fun e => Value.string e.1)
    else if name == "Object.values" then pure (entries.map (·.2))
    else newPairs entries
  let result ← newArray items.toArray
  record .expression loc (name ++ "() → " ++ (← inspect result))
  return result

/-- A call of a function of the language. -/
def callNative (name : String) (args : List Value) (loc : Location) : Run Value := do
  let first := args.headD .undefined
  match name with
  | "console.log" => callLog args loc
  | "Array.isArray" =>
    let isArray := match first with
      | .array _ => true
      | _ => false
    record .expression loc ("Array.isArray() → " ++ boolText isArray)
    return .bool isArray
  | "Object.keys" | "Object.values" | "Object.entries" => callEntries name first loc
  | "String" =>
    match args with
    | [] => return .string ""
    | v :: _ => return .string (← plainOf v)
  | "Number" =>
    match args with
    | [] => return .number 0
    | v :: _ => return .number (← numberOf v)
  | "Boolean" => return .bool first.isTruthy
  | "isNaN" => return .bool (← numberOf first).isNaN
  | "parseInt" =>
    let base ← match args[1]? with
      | some v => numberOf v
      | none => pure 0
    return .number (leadingInteger (← plainOf first) base.toUInt32.toNat)
  | "parseFloat" => return .number (leadingDecimal (← plainOf first))
  | _ =>
    match mathFunction? name with
    | some f =>
      let heap := (← get).heap
      return .number (f (args.map heap.numberOf))
    | none => failAt (.notFunction name) loc

end ScriptReplay
