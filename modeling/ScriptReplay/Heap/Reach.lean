/-
What can be reached.

The part of a heap that some values refer to, directly or through slots, is a heap of its
own with the same numbers.  Steps keep such a part, so what later steps write never shows
in earlier ones.

* `Heap.reachable` : the slots that some references lead to;
* `Heap.snapshot` : the part of a heap that some values refer to.

Design notes: the search takes every slot out of the heap when it first comes to it, so cycles
end it and the slots that are left bound it.
-/
import ScriptReplay.Heap

namespace ScriptReplay.Heap

/-- The slots that the references lead to, added to `found`.  `left` holds the slots not
yet come to. -/
def reachable (left : Heap) (pending : List HeapId) (found : Heap) : Heap :=
  match pending with
  | [] => found
  | id :: rest =>
    match _ : left.get? id with
    | none => reachable left rest found
    | some s =>
      reachable (left.erase id) (s.values.filterMap Value.heapId? ++ rest) (found.set id s)
termination_by (left.size, pending.length)
decreasing_by
  · simp only [Prod.lex_def]
    simp
  · simp only [Prod.lex_def]
    exact Or.inl (size_erase_lt ‹_›)

/-- The slots that some values refer to, directly or through other slots. -/
def snapshot (h : Heap) (roots : List Value) : Heap :=
  reachable h (roots.filterMap Value.heapId?) ⟨∅, h.lastId⟩

end ScriptReplay.Heap
