/-
The methods of arrays.

* `ArrayMethod` : the methods, and `ArrayMethod.ofName?` to find one;
* `callArrayMethod` : a call of one.

Design notes: a negative index counts from the end, and indices are cut off at both ends.
Methods that take a callback read each element when its turn comes, for the callback may
change the array.
-/
import ScriptReplay.Run.Call

namespace ScriptReplay

/-! ### The methods -/

/-- The methods that hand every element to a callback and can stop early. -/
inductive Visit where
  | forEach | map | filter | find | findIndex | some | every
  deriving DecidableEq, Repr

/-- The methods of arrays. -/
inductive ArrayMethod where
  | push | pop | shift | unshift | indexOf | includes | slice | splice
      | join | reverse | concat | fill
  | visit (v : Visit)
  | reduce
  deriving DecidableEq, Repr

/-- The name of a visiting method. -/
def Visit.name : Visit → String
  | forEach => "forEach"
  | map => "map"
  | filter => "filter"
  | find => "find"
  | findIndex => "findIndex"
  | some => "some"
  | every => "every"

/-- What a visiting method is said to do. -/
def Visit.verb : Visit → String
  | forEach => "iterating"
  | map => "transforming"
  | filter => "filtering"
  | find | findIndex => "searching"
  | some | every => "testing"

/-- The name of a method. -/
def ArrayMethod.name : ArrayMethod → String
  | push => "push"
  | pop => "pop"
  | shift => "shift"
  | unshift => "unshift"
  | indexOf => "indexOf"
  | includes => "includes"
  | slice => "slice"
  | splice => "splice"
  | join => "join"
  | reverse => "reverse"
  | concat => "concat"
  | fill => "fill"
  | visit v => v.name
  | reduce => "reduce"

/-- All methods. -/
def ArrayMethod.all : List ArrayMethod :=
  [push, pop, shift, unshift, indexOf, includes, slice, splice, join, reverse, concat, fill,
    visit .forEach, visit .map, visit .filter, visit .find, visit .findIndex,
    visit .some, visit .every, reduce]

/-- The method with this name. -/
def ArrayMethod.ofName? (name : String) : Option ArrayMethod :=
  all.find? (·.name == name)

/-! ### Indices -/

/-- A number as an index from zero to `length`; a negative one counts from the end. -/
def relativeIndex (x : Float) (length : Nat) : Nat :=
  if x < 0 then length - clampedNat (-x) else min (clampedNat x) length

/-- A number as a count from zero to `greatest`. -/
def clampedCount (x : Float) (greatest : Nat) : Nat :=
  min (clampedNat x) greatest

/-- The index that an argument gives, or else a default. -/
def indexArg (h : Heap) (arg : Option Value) (length fallback : Nat) : Nat :=
  match arg with
  | none | some .undefined => fallback
  | some v => relativeIndex (h.numberOf v) length

/-! ### Changes and searches -/

/-- Puts new elements in an array. -/
def putElements (id : HeapId) (items : Array Value) : Run Unit :=
  modify fun m => { m with heap := m.heap.setArray id items }

/-- Adds elements at one end and gives the new length. -/
def addElements (method : ArrayMethod) (id : HeapId) (args : List Value) (grown : Array Value)
    (loc : Location) : Run Value := do
  checkArrayLength grown.size loc
  putElements id grown
  record .arrayModify loc
    ("Array." ++ method.name ++ "(" ++ (← inspectAll args) ++
      ") → length " ++ toString grown.size)
  return .number (Float.ofNat grown.size)

/-- Takes an element away from one end and gives it. -/
def removeElement (method : ArrayMethod) (id : HeapId) (removed : Option Value)
    (rest : Array Value) (loc : Location) : Run Value := do
  let value := removed.getD .undefined
  putElements id rest
  record .arrayModify loc ("Array." ++ method.name ++ "() → " ++ (← inspect value))
  return value

/-- Two numbers that are both NaN. -/
def bothNaN (a b : Value) : Bool :=
  match a, b with
  | .number x, .number y => x.isNaN && y.isNaN
  | _, _ => false

/-- Looks for an element that is the same as the argument. -/
def searchArray (items : Array Value) (args : List Value) (loc : Location)
    (method : ArrayMethod) : Run Value := do
  let needle := args.headD .undefined
  let start := indexArg (← get).heap args[1]? items.size 0
  let nanToo := method == .includes
  let found :=
    (items.toList.drop start).findIdx? fun v => v.same needle || (nanToo && bothNaN v needle)
  let result : Value := match method, found with
    | .indexOf, some place => .number (Float.ofNat (start + place))
    | .indexOf, none => .number (-1)
    | _, _ => .bool found.isSome
  record .arrayAccess loc
    ("Array." ++ method.name ++ "(" ++ (← inspect needle) ++ ") → " ++ (← inspect result))
  return result

/-- A new array of the elements between two indices. -/
def sliceArray (items : Array Value) (args : List Value) (loc : Location) : Run Value := do
  let heap := (← get).heap
  let start := indexArg heap args[0]? items.size 0
  let stop := max (indexArg heap args[1]? items.size items.size) start
  let result ← newArray (items.extract start stop)
  record .arrayAccess loc
    ("Array.slice(" ++ toString start ++ ", " ++ toString stop ++
      ") → " ++ (← inspect result))
  return result

/-- Exchanges a stretch of an array for other elements and gives the stretch as
a new array. -/
def spliceArray (id : HeapId) (items : Array Value) (args : List Value) (loc : Location) :
    Run Value := do
  let heap := (← get).heap
  let start := indexArg heap args[0]? items.size 0
  let count := match args[1]? with
    | some v => clampedCount (heap.numberOf v) (items.size - start)
    | none => items.size - start
  let spliced :=
    items.extract 0 start ++ (args.drop 2).toArray ++ items.extract (start + count) items.size
  checkArrayLength spliced.size loc
  putElements id spliced
  let result ← newArray (items.extract start (start + count))
  record .arrayModify loc
    ("Array.splice(" ++ toString start ++ ", " ++ toString count ++
      ") → " ++ (← inspect result))
  return result

/-- The text of an element between separators. -/
def joinPart (h : Heap) (v : Value) : String :=
  if v.isNullish then "" else h.textOf v

/-- The texts of the elements with a separator between them. -/
def joinArray (items : Array Value) (args : List Value) (loc : Location) : Run Value := do
  let heap := (← get).heap
  let separator := match args with
    | [] | .undefined :: _ => ","
    | v :: _ => heap.textOf v
  let joined := separator.intercalate (items.toList.map (joinPart heap))
  checkTextLength (unitCount joined) loc
  record .expression loc ("Array.join(\"" ++ separator ++ "\") → \"" ++ joined ++ "\"")
  return .string joined

/-- The elements that an argument adds to a longer array: those of an array, else itself. -/
def spread (h : Heap) : Value → Array Value
  | .array id => h.elements id
  | v => #[v]

/-- A new array with the arguments added. -/
def concatArray (items : Array Value) (args : List Value) (loc : Location) : Run Value := do
  let heap := (← get).heap
  let parts := args.map (spread heap)
  checkArrayLength (parts.foldl (fun n part => n + part.size) items.size) loc
  let result ← newArray (parts.foldl (· ++ ·) items)
  record .expression loc ("Array.concat() → " ++ (← inspect result))
  return result

/-- Puts one value in every place between two indices. -/
def fillArray (id : HeapId) (items : Array Value) (args : List Value) (loc : Location) :
    Run Value := do
  let heap := (← get).heap
  let value := args.headD .undefined
  let start := indexArg heap args[1]? items.size 0
  let stop := max (indexArg heap args[2]? items.size items.size) start
  let filled :=
    items.extract 0 start ++ Array.replicate (stop - start) value ++
      items.extract stop items.size
  putElements id filled
  record .arrayModify loc
    ("Array.fill(" ++ (← inspect value) ++ ") → " ++ (← inspect (.array id)))
  return .array id

/-! ### Callbacks -/

/-- The function that a method needs as its first argument. -/
def requireCallback (method : String) (args : List Value) (loc : Location) : Run Callable :=
  match args with
  | .function f :: _ => pure f
  | _ => failAt (.callbackRequired method) loc

/-- What a visit has found: the values kept, newest first, and the element that ended it
with its index. -/
structure Findings where
  kept : List Value
  hit : Option (Nat × Value)

/-- Hands elements to the callback, from `index` on and at most `left` of them.  The visit
ends early at an element that decides the answer, or if the array has become shorter. -/
def visitFrom (w : Walker) (v : Visit) (f : Callable) (id : HeapId) (loc : Location)
    (kept : List Value) : Nat → Nat → Run Findings
  | 0, _ => return ⟨kept, none⟩
  | left + 1, index => do
    match ((← get).heap.elements id)[index]? with
    | none => return ⟨kept, none⟩
    | some element =>
      let outcome ← invokeCallback w f [element, .number (Float.ofNat index), .array id] loc
      let decided := match v with
        | .find | .findIndex | .some => outcome.isTruthy
        | .every => !outcome.isTruthy
        | .forEach | .map | .filter => false
      let kept := match v with
        | .map => outcome :: kept
        | .filter => if outcome.isTruthy then element :: kept else kept
        | .forEach | .find | .findIndex | .some | .every => kept
      if decided then return ⟨kept, some (index, element)⟩
      else visitFrom w v f id loc kept left (index + 1)

/-- The answer of a visit; `forEach` gives none. -/
def visitAnswer (v : Visit) (found : Findings) : Run (Option Value) := do
  match v with
  | .forEach => return none
  | .map | .filter => return some (← newArray found.kept.reverse.toArray)
  | .find => return some ((found.hit.map (·.2)).getD .undefined)
  | .findIndex => return some (.number ((found.hit.map fun e => Float.ofNat e.1).getD (-1)))
  | .some => return some (.bool found.hit.isSome)
  | .every => return some (.bool found.hit.isNone)

/-- Hands the elements to a callback in order. -/
def visitArray (w : Walker) (v : Visit) (id : HeapId) (args : List Value) (loc : Location) :
    Run Value := do
  let f ← requireCallback v.name args loc
  let length := ((← get).heap.elements id).size
  record .expression loc
    ("Array." ++ v.name ++ "() - " ++ v.verb ++ " " ++ toString length ++ " elements")
  let found ← visitFrom w v f id loc [] length 0
  match ← visitAnswer v found with
  | none => return .undefined
  | some result =>
    record .expression loc ("Array." ++ v.name ++ "() → " ++ (← inspect result))
    return result

/-- Combines elements with `acc` by the callback, from `index` on and at most
`left` of them. -/
def reduceFrom (w : Walker) (f : Callable) (id : HeapId) (loc : Location) (acc : Value) :
    Nat → Nat → Run Value
  | 0, _ => return acc
  | left + 1, index => do
    match ((← get).heap.elements id)[index]? with
    | none => return acc
    | some element =>
      let acc ← invokeCallback w f [acc, element, .number (Float.ofNat index), .array id] loc
      reduceFrom w f id loc acc left (index + 1)

/-- Combines the elements by a callback, starting from the second argument or else the
first element. -/
def reduceArray (w : Walker) (id : HeapId) (args : List Value) (loc : Location) :
    Run Value := do
  let f ← requireCallback "reduce" args loc
  let items := (← get).heap.elements id
  let (acc, start) ← match args[1]?, items[0]? with
    | some v, _ => pure (v, 0)
    | none, some v => pure (v, 1)
    | none, none => failAt .emptyReduce loc
  record .expression loc ("Array.reduce() - reducing " ++ toString items.size ++ " elements")
  let result ← reduceFrom w f id loc acc (items.size - start) start
  record .expression loc ("Array.reduce() → " ++ (← inspect result))
  return result

/-! ### Calls -/

/-- Calls a method of an array. -/
def callArrayMethod (w : Walker) (method : ArrayMethod) (id : HeapId) (args : List Value)
    (loc : Location) : Run Value := do
  let items := (← get).heap.elements id
  match method with
  | .push => addElements method id args (items ++ args.toArray) loc
  | .unshift => addElements method id args (args.toArray ++ items) loc
  | .pop => removeElement method id items.back? items.pop loc
  | .shift => removeElement method id items[0]? (items.extract 1 items.size) loc
  | .indexOf | .includes => searchArray items args loc method
  | .slice => sliceArray items args loc
  | .splice => spliceArray id items args loc
  | .join => joinArray items args loc
  | .reverse =>
    putElements id items.reverse
    record .arrayModify loc ("Array.reverse() → " ++ (← inspect (.array id)))
    return .array id
  | .concat => concatArray items args loc
  | .fill => fillArray id items args loc
  | .visit v => visitArray w v id args loc
  | .reduce => reduceArray w id args loc

end ScriptReplay
