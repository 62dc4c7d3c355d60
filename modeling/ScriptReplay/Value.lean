/-
Values.

A value is undefined, null, a boolean, a number, a text, a reference to an array or an
object, or a function.  Arrays and objects live in the heap and are told apart by their
references alone.

* `Value.isTruthy`, `Value.typeName` : how a value counts as a condition, and its type;
* `Value.asNumber` : the number that a value without references stands for;
* `Value.same` : when two values are the same.
-/
import ScriptReplay.Number.Reading
import ScriptReplay.Program.Tree

namespace ScriptReplay

/-- The name of an array or object in the heap. -/
abbrev HeapId := Nat

/-- The name of a scope. -/
abbrev ScopeId := Nat

/-- The scopes in which names are looked up, innermost first. -/
abbrev Chain := List ScopeId

/-- What can be called: a function of the language itself, known by its name, or a function of
the program with the scopes that it was made in. -/
inductive Callable where
  | native (name : String)
  | script (name : String) (routine : Routine) (chain : Chain)

/-- The name of a function. -/
def Callable.name : Callable → String
  | native n => n
  | script n _ _ => n

/-- The names of the parameters; those of the language's own functions are not shown. -/
def Callable.params : Callable → List String
  | native _ => []
  | script _ r _ => r.params.map (·.name)

/-- The scopes that a function was made in, innermost first. -/
def Callable.chain : Callable → Chain
  | native _ => []
  | script _ _ c => c

/-- Values. -/
inductive Value where
  | undefined
  | null
  | bool (b : Bool)
  | number (x : Float)
  | string (s : String)
  | array (id : HeapId)
  | object (id : HeapId)
  | function (f : Callable)

instance : Inhabited Value := ⟨.undefined⟩

namespace Value

/-- The number, if the value is one. -/
def number? : Value → Option Float
  | number x => some x
  | _ => none

/-- The text, if the value is one. -/
def string? : Value → Option String
  | string s => some s
  | _ => none

/-- The reference of an array or object. -/
def heapId? : Value → Option HeapId
  | array id | object id => some id
  | _ => none

/-- Null or undefined. -/
def isNullish : Value → Bool
  | null | undefined => true
  | _ => false

/-- Whether the value is undefined. -/
def isUndefined : Value → Bool
  | undefined => true
  | _ => false

/-- A boolean, a number or a text. -/
def isPrimitive : Value → Bool
  | bool _ | number _ | string _ => true
  | _ => false

/-- How a value counts as a condition: zero, NaN, the empty text, null and undefined
count as false. -/
def isTruthy : Value → Bool
  | undefined | null => false
  | bool b => b
  | number x => x != 0 && !x.isNaN
  | string s => !s.isEmpty
  | array _ | object _ | function _ => true

/-- The name of the type of a value. -/
def typeName : Value → String
  | undefined => "undefined"
  | bool _ => "boolean"
  | number _ => "number"
  | string _ => "string"
  | function _ => "function"
  | null | array _ | object _ => "object"

/-- The number that a value stands for by itself.  References stand for none. -/
def asNumber : Value → Float
  | null => 0
  | bool b => if b then 1 else 0
  | number x => x
  | string s => numberOfText s
  | undefined | array _ | object _ | function _ => notANumber

/-- The same value of the same type: arrays and objects by reference, functions by name. -/
def same : Value → Value → Bool
  | undefined, undefined | null, null => true
  | bool a, bool b => a == b
  | number x, number y => x == y
  | string s, string t => s == t
  | array a, array b | object a, object b => a == b
  | function f, function g => f.name == g.name
  | _, _ => false

/-- The reference as an address of at least four hexadecimal digits. -/
def address? (v : Value) : Option String :=
  v.heapId?.map fun id =>
    let digits := Nat.toDigits 16 id
    "0x" ++ String.ofList (List.replicate (4 - digits.length) '0' ++ digits)

end Value

end ScriptReplay
