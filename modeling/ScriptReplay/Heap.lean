/-
The heap.

Arrays and objects live in numbered slots.  Numbers go up from one and are never used again,
so a reference means the same slot for the whole of a run.

* `Heap.allocArray`, `Heap.allocObject` : a new slot and the reference to it;
* `Heap.array?`, `Heap.object?` : the contents of a slot of the right kind;
* `Heap.setArray`, `Heap.setObject` : a slot with new contents;
* `Heap.toList` : the slots in order of their numbers.
-/
import Std.Data.TreeMap
import ScriptReplay.Table
import ScriptReplay.Value

namespace ScriptReplay

/-- The contents of a slot. -/
inductive Slot where
  | array (items : Array Value)
  | object (properties : Table Value)

/-- The values that a slot holds, in order. -/
def Slot.values : Slot → List Value
  | array items => items.toList
  | object properties => properties.values

/-- The slots in use and the last number given out. -/
structure Heap where
  slots : Std.TreeMap HeapId Slot
  lastId : HeapId

namespace Heap

/-- The heap of a fresh run. -/
def empty : Heap :=
  ⟨∅, 0⟩

instance : Inhabited Heap := ⟨empty⟩

/-- The contents of a slot. -/
def get? (h : Heap) (id : HeapId) : Option Slot :=
  h.slots[id]?

/-- The elements of an array. -/
def array? (h : Heap) (id : HeapId) : Option (Array Value) :=
  match h.get? id with
  | some (.array items) => some items
  | _ => none

/-- The properties of an object. -/
def object? (h : Heap) (id : HeapId) : Option (Table Value) :=
  match h.get? id with
  | some (.object properties) => some properties
  | _ => none

/-- The elements of an array; none at all if the slot is no array. -/
def elements (h : Heap) (id : HeapId) : Array Value :=
  (h.array? id).getD #[]

/-- The heap with a new slot. -/
def alloc (h : Heap) (s : Slot) : HeapId × Heap :=
  (h.lastId + 1, ⟨h.slots.insert (h.lastId + 1) s, h.lastId + 1⟩)

/-- A new array. -/
def allocArray (h : Heap) (items : Array Value) : Value × Heap :=
  let (id, h) := h.alloc (.array items)
  (.array id, h)

/-- A new object. -/
def allocObject (h : Heap) (properties : Table Value) : Value × Heap :=
  let (id, h) := h.alloc (.object properties)
  (.object id, h)

/-- The heap with other contents in a slot. -/
def set (h : Heap) (id : HeapId) (s : Slot) : Heap :=
  { h with slots := h.slots.insert id s }

/-- The heap with other elements in an array; unchanged if the slot is no array. -/
def setArray (h : Heap) (id : HeapId) (items : Array Value) : Heap :=
  match h.array? id with
  | some _ => h.set id (.array items)
  | none => h

/-- The heap with other properties in an object; unchanged if the slot is no object. -/
def setObject (h : Heap) (id : HeapId) (properties : Table Value) : Heap :=
  match h.object? id with
  | some _ => h.set id (.object properties)
  | none => h

/-- The heap without a slot. -/
def erase (h : Heap) (id : HeapId) : Heap :=
  { h with slots := h.slots.erase id }

/-- The number of slots in use. -/
def size (h : Heap) : Nat :=
  h.slots.size

/-- The slots in order of their numbers. -/
def toList (h : Heap) : List (HeapId × Slot) :=
  h.slots.toList

/-- Taking a slot away leaves fewer. -/
theorem size_erase_lt {h : Heap} {id : HeapId} {s : Slot} (hs : h.get? id = some s) :
    (h.erase id).size < h.size := by
  have hmem : id ∈ h.slots := by
    rw [Std.TreeMap.mem_iff_isSome_getElem?]
    simp only [get?] at hs
    simp [hs]
  have hpos : h.slots.size ≠ 0 := by
    intro h0
    have hempty : h.slots.isEmpty = true := by
      rw [Std.TreeMap.isEmpty_eq_size_eq_zero]
      simp [h0]
    have := Std.TreeMap.isEmpty_iff_forall_not_mem.1 hempty id
    exact this hmem
  have hc : h.slots.contains id = true := hmem
  simp only [erase, size, Std.TreeMap.size_erase, hc, if_true]
  omega

theorem get?_of_array? {h : Heap} {id : HeapId} {items : Array Value}
    (hs : h.array? id = some items) : h.get? id = some (.array items) := by
  unfold array? at hs
  split at hs <;> simp_all

theorem get?_of_object? {h : Heap} {id : HeapId} {properties : Table Value}
    (hs : h.object? id = some properties) : h.get? id = some (.object properties) := by
  unfold object? at hs
  split at hs <;> simp_all

end Heap

end ScriptReplay
