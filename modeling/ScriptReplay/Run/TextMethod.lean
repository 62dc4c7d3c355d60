/-
The methods of texts.

Places and lengths count 16-bit units.  Whether a text occurs in another does not
depend on the units.

* `TextMethod` : the methods, and `TextMethod.ofName?` to find one;
* `callTextMethod` : a call of one.

Design notes: a method works out how its call is shown and what its value is; one step
tells of both.
-/
import ScriptReplay.Run.ArrayMethod
import ScriptReplay.Text.Case
import ScriptReplay.Text.Search

namespace ScriptReplay

/-- The methods of texts. -/
inductive TextMethod where
  | charAt | charCodeAt | substring | slice | split | indexOf | lastIndexOf
  | includes | startsWith | endsWith | toUpperCase | toLowerCase | trim
  | repeat_ | padStart | padEnd | replace
  deriving DecidableEq, Repr

/-- The name of a method. -/
def TextMethod.name : TextMethod → String
  | charAt => "charAt"
  | charCodeAt => "charCodeAt"
  | substring => "substring"
  | slice => "slice"
  | split => "split"
  | indexOf => "indexOf"
  | lastIndexOf => "lastIndexOf"
  | includes => "includes"
  | startsWith => "startsWith"
  | endsWith => "endsWith"
  | toUpperCase => "toUpperCase"
  | toLowerCase => "toLowerCase"
  | trim => "trim"
  | repeat_ => "repeat"
  | padStart => "padStart"
  | padEnd => "padEnd"
  | replace => "replace"

/-- All methods. -/
def TextMethod.all : List TextMethod :=
  [charAt, charCodeAt, substring, slice, split, indexOf, lastIndexOf, includes, startsWith,
    endsWith, toUpperCase, toLowerCase, trim, repeat_, padStart, padEnd, replace]

/-- The method with this name. -/
def TextMethod.ofName? (name : String) : Option TextMethod :=
  all.find? (·.name == name)

/-- How a call is shown, and its value. -/
structure Shown where
  call : String
  value : Value

/-! ### Arguments -/

/-- A text in quotes. -/
def quoted (s : String) : String :=
  "\"" ++ s ++ "\""

/-- The text of an argument; a missing one reads as undefined. -/
def textArg (h : Heap) (arg : Option Value) : String :=
  h.textOf (arg.getD .undefined)

/-- The number of an argument without its fraction; zero for a missing one and for NaN. -/
def wholeArg (h : Heap) (arg : Option Value) : Float :=
  match arg with
  | none => 0
  | some v =>
    let x := h.numberOf v
    if x.isNaN then 0 else wholePart x

/-- The place that an argument gives, or else a default; negative ones are zero. -/
def placeArg (h : Heap) (arg : Option Value) (length fallback : Nat) : Nat :=
  match arg with
  | none | some .undefined => fallback
  | some v => clampedCount (h.numberOf v) length

/-- The place of a find as a number; `-1` if there is none. -/
def placeValue (found : Option Nat) : Value :=
  .number ((found.map Float.ofNat).getD (-1))

/-- The text of the units from one place up to another. -/
def unitsBetween (us : List UInt16) (start stop : Nat) : Value :=
  .string (ofUnits ((us.drop start).take (stop - start)))

/-! ### Methods that can fail or make arrays -/

/-- The unit at a place. -/
def unitAt (h : Heap) (us : List UInt16) (args : List Value) : Float × Option UInt16 :=
  let place := wholeArg h args[0]?
  (place, if 0 ≤ place then us[clampedNat place]? else none)

/-- The pieces of a text between separators: the whole without one, every unit if
it is empty. -/
def splitPieces (h : Heap) (s : String) (arg : Option Value) : List String :=
  match arg with
  | none | some .undefined => [s]
  | some v =>
    let separator := h.textOf v
    if separator.isEmpty then (units s).map fun u => ofUnits [u] else splitText s separator

/-- The pieces of a text as a new array. -/
def split (s : String) (args : List Value) (loc : Location) : Run Shown := do
  let heap := (← get).heap
  let pieces := splitPieces heap s args[0]?
  checkArrayLength pieces.length loc
  let call := match args[0]? with
    | some v => "split(" ++ quoted (heap.textOf v) ++ ")"
    | none => "split()"
  return ⟨call, ← newArray (pieces.map Value.string).toArray⟩

/-- The text written several times. -/
def repeated (s : String) (args : List Value) (loc : Location) : Run Shown := do
  let count := wholeArg (← get).heap args[0]?
  if count < 0 || count.isInf then failAt (.thrown "RangeError: Invalid count value") loc
  checkTextLength (clampedNat count * unitCount s) loc
  return ⟨"repeat(" ++ numberText count ++ ")", .string (repeatText s (clampedNat count))⟩

/-- The text made longer by filling one side. -/
def padded (method : TextMethod) (s : String) (args : List Value) (loc : Location) :
    Run Shown := do
  let heap := (← get).heap
  let length := match args[0]? with
    | some v => clampedCount (heap.numberOf v) (wordLimit - 1)
    | none => 0
  checkTextLength length loc
  let unit := match (args[1]? : Option Value) with
    | none | some .undefined => units " "
    | some v => units (heap.textOf v)
  let filling := ofUnits (cycleTake unit (length - unitCount s) [])
  let result := if method == .padStart then filling ++ s else s ++ filling
  return ⟨method.name ++ "(" ++ toString length ++ ")", .string result⟩

/-- The text with the first occurrence of another exchanged. -/
def replaced (s : String) (args : List Value) (loc : Location) : Run Shown := do
  let heap := (← get).heap
  let needle := textArg heap args[0]?
  let image := textArg heap args[1]?
  let result := Value.string (replaceFirst s needle image)
  checkText result loc
  return ⟨"replace(" ++ quoted needle ++ ", " ++ quoted image ++ ")", result⟩

/-! ### All methods -/

/-- A method that looks for its argument in the text. -/
def testFor (h : Heap) (method : TextMethod) (args : List Value) (test : String → Bool) :
    Shown :=
  let needle := textArg h args[0]?
  ⟨method.name ++ "(" ++ quoted needle ++ ")", .bool (test needle)⟩

/-- A method that looks for the place of its argument in the text. -/
def placeOf (h : Heap) (method : TextMethod) (args : List Value)
    (find : List UInt16 → Option Nat) : Shown :=
  let needle := textArg h args[0]?
  ⟨method.name ++ "(" ++ quoted needle ++ ")", placeValue (find (units needle))⟩

/-- How a call of a method is shown, and its value. -/
def textMethod (method : TextMethod) (s : String) (args : List Value) (loc : Location) :
    Run Shown := do
  let heap := (← get).heap
  let us := units s
  let length := us.length
  match method with
  | .charAt =>
    let (place, unit) := unitAt heap us args
    return ⟨"charAt(" ++ numberText place ++ ")", .string (ofUnits unit.toList)⟩
  | .charCodeAt =>
    let (place, unit) := unitAt heap us args
    return ⟨"charCodeAt(" ++ numberText place ++ ")",
      .number ((unit.map fun u => Float.ofNat u.toNat).getD notANumber)⟩
  | .substring =>
    let a := placeArg heap args[0]? length 0
    let b := placeArg heap args[1]? length length
    return ⟨"substring(" ++ toString a ++ ", " ++ toString b ++ ")",
      unitsBetween us (min a b) (max a b)⟩
  | .slice =>
    let start := indexArg heap args[0]? length 0
    let stop := max (indexArg heap args[1]? length length) start
    return ⟨"slice(" ++ toString start ++ ", " ++ toString stop ++ ")",
      unitsBetween us start stop⟩
  | .split => split s args loc
  | .indexOf =>
    let start := match args[1]? with
      | some v => clampedCount (heap.numberOf v) length
      | none => 0
    return placeOf heap method args fun needle => findFrom us needle start
  | .lastIndexOf => return placeOf heap method args fun needle => findLast us needle
  | .includes => return testFor heap method args (textContains s)
  | .startsWith => return testFor heap method args (textStartsWith s)
  | .endsWith => return testFor heap method args (textEndsWith s)
  | .toUpperCase => return ⟨"toUpperCase()", .string (upperText s)⟩
  | .toLowerCase => return ⟨"toLowerCase()", .string (lowerText s)⟩
  | .trim => return ⟨"trim()", .string (ScriptReplay.trim s)⟩
  | .repeat_ => repeated s args loc
  | .padStart | .padEnd => padded method s args loc
  | .replace => replaced s args loc

/-- Calls a method of a text. -/
def callTextMethod (method : TextMethod) (s : String) (args : List Value) (loc : Location) :
    Run Value := do
  let shown ← textMethod method s args loc
  record .expression loc (quoted s ++ "." ++ shown.call ++ " → " ++ (← inspect shown.value))
  return shown.value

end ScriptReplay
