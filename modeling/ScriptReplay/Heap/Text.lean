/-
Values as text.

There are two texts of a value.  The inspected one is for people: texts are in quotes and
arrays and objects show what they hold, shortened inside one another.  The plain one is what
a script gets when it uses a value as a text.  Both end on every heap, for a reference that
leads back into the value being written is not followed.

* `Heap.inspect` : the inspected text;
* `Heap.textOf` : the plain text;
* `Heap.numberOf` : the number that a value stands for, through its plain text if it
  is an array.

Design notes: on the way into a slot the slot is taken out of the heap, and `path` remembers
its number.  What is left of the heap bounds the recursion, and the slots still to come
are all there.
-/
import ScriptReplay.Heap
import ScriptReplay.Number.Notation

namespace ScriptReplay

/-- A boolean as text. -/
def boolText (b : Bool) : String :=
  if b then "true" else "false"

/-- How many elements of a nested array are shown. -/
def shownElements : Nat := 3

/-- How many properties of a nested object are shown. -/
def shownProperties : Nat := 2

/-- Parts in brackets, with dots for those left out. -/
def bracketed (opening closing : String) (parts : List String) (cut : Bool) : String :=
  opening ++ ", ".intercalate parts ++ (if cut then ", ..." else "") ++ closing

namespace Heap

/-- The inspected text of a value inside the slots of `path`.  A `compact` array or object
shows only its first parts; nested ones are always compact. -/
def inspectIn (h : Heap) (path : List HeapId) (compact : Bool) (v : Value) : String :=
  match v with
  | .undefined => "undefined"
  | .null => "null"
  | .bool b => boolText b
  | .number x => numberText x
  | .string s => "\"" ++ s ++ "\""
  | .function f => "ƒ " ++ f.name ++ "()"
  | .array id =>
    if path.contains id then "[Circular]"
    else
      match _ : h.array? id with
      | none => "<unknown>"
      | some items =>
        let cut := compact && shownElements < items.size
        let shown := if cut then items.toList.take shownElements else items.toList
        bracketed "[" "]" (shown.map fun e => inspectIn (h.erase id) (id :: path) true e) cut
  | .object id =>
    if path.contains id then "[Circular]"
    else
      match _ : h.object? id with
      | none => "<unknown>"
      | some properties =>
        let cut := compact && shownProperties < properties.size
        let shown :=
          if cut then properties.entries.take shownProperties else properties.entries
        bracketed "\x7b" "\x7d"
          (shown.map fun e => e.1 ++ ": " ++ inspectIn (h.erase id) (id :: path) true e.2) cut
termination_by h.size
decreasing_by
  · exact size_erase_lt (get?_of_array? ‹_›)
  · exact size_erase_lt (get?_of_object? ‹_›)

/-- The inspected text of a value. -/
def inspect (h : Heap) (v : Value) (compact : Bool) : String :=
  h.inspectIn [] compact v

/-- The plain text of a value inside the slots of `path`.  Null, undefined and what leads back
are written as nothing inside an array. -/
def textIn (h : Heap) (path : List HeapId) (v : Value) : String :=
  match v with
  | .undefined => "undefined"
  | .null => "null"
  | .bool b => boolText b
  | .number x => numberText x
  | .string s => s
  | .function f => "function " ++ f.name ++ "() \x7b ... \x7d"
  | .object _ => "[object Object]"
  | .array id =>
    if path.contains id then ""
    else
      match _ : h.array? id with
      | none => ""
      | some items =>
        ",".intercalate (items.toList.map fun e =>
          if e.isNullish then "" else textIn (h.erase id) (id :: path) e)
termination_by h.size
decreasing_by exact size_erase_lt (get?_of_array? ‹_›)

/-- The plain text of a value. -/
def textOf (h : Heap) (v : Value) : String :=
  h.textIn [] v

/-- The number that a value stands for.  An array stands for what its plain text does. -/
def numberOf (h : Heap) (v : Value) : Float :=
  match v with
  | .array _ => numberOfText (h.textOf v)
  | _ => v.asNumber

end Heap

end ScriptReplay
