/-
Properties that are written and read again.

A write to a property of an array or an object changes that slot and nothing else, and with a
failure it changes nothing at all.  What is read afterwards is what was written.

* `Heap.Sets` : heaps that differ in one slot;
* `ExceedsLength` : lengths that no array of the run can have;
* `RefusesWrite`, `writeProperty_refused` : the writes that fail, and leave the
  state as it was;
* `StoresUnder` : the elements that a write leaves;
* `writeProperty_stores`, `writeProperty_object` : the outcome of a write;
* `write_then_read` : writes and reads agree.

Design notes: a key is an index, or the word for the length, or neither.  The three cases
exclude one another, so each of them is stated by itself.
-/
import ScriptReplay.Proofs.Actions.Values
import ScriptReplay.Proofs.Heap
import ScriptReplay.Proofs.Indices

namespace ScriptReplay

/-! ### One slot -/

/-- The second heap has these contents in one slot, and in all others what the first has. -/
structure Heap.Sets (h : Heap) (id : HeapId) (s : Slot) (h' : Heap) : Prop where
  lastId : h'.lastId = h.lastId
  slots : ∀ id', h'.get? id' = if id' = id then some s else h.get? id'

namespace Heap

variable {h h' : Heap} {id : HeapId}

theorem sets_set (h : Heap) (id : HeapId) (s : Slot) : h.Sets id s (h.set id s) :=
  ⟨rfl, fun id' => h.get?_set id id' s⟩

theorem array?_eq_some {items : Array Value} :
    h.array? id = some items ↔ h.get? id = some (.array items) := by
  refine ⟨get?_of_array?, fun hs => ?_⟩
  rw [array?, hs]

theorem object?_eq_some {properties : Table Value} :
    h.object? id = some properties ↔ h.get? id = some (.object properties) := by
  refine ⟨get?_of_object?, fun hs => ?_⟩
  rw [object?, hs]

theorem elements_of_array? {items : Array Value} (hs : h.array? id = some items) :
    h.elements id = items := by
  rw [elements, hs]
  rfl

theorem sets_setArray {items : Array Value} (hs : h.array? id = some items)
    (items' : Array Value) : h.Sets id (.array items') (h.setArray id items') := by
  rw [setArray, hs]
  exact h.sets_set id _

theorem sets_setObject {properties : Table Value} (hs : h.object? id = some properties)
    (properties' : Table Value) :
    h.Sets id (.object properties') (h.setObject id properties') := by
  rw [setObject, hs]
  exact h.sets_set id _

/-- A slot with the contents that it has. -/
theorem sets_self {s : Slot} (hs : h.get? id = some s) : h.Sets id s h := by
  refine ⟨rfl, fun id' => ?_⟩
  split
  · next heq => rw [heq, hs]
  · rfl

theorem Sets.array? {items : Array Value} (hs : h.Sets id (.array items) h') :
    h'.array? id = some items :=
  array?_eq_some.2 ((hs.slots id).trans (if_pos rfl))

theorem Sets.object? {properties : Table Value} (hs : h.Sets id (.object properties) h') :
    h'.object? id = some properties :=
  object?_eq_some.2 ((hs.slots id).trans (if_pos rfl))

end Heap

/-! ### Lengths -/

/-- No array of the run can have this length. -/
def ExceedsLength (L : RunLimits) (length : Nat) : Prop :=
  greatestLength < length ∨ L.maxArrayLength < length

variable {L : RunLimits} {m m' : Machine}

theorem checkLength_fits {length : Nat} (h : ¬ ExceedsLength L length) (loc : Location)
    (m : Machine) : (checkLength length loc).outcome L m = (.ok (), m) := by
  unfold ExceedsLength at h
  unfold checkLength checkArrayLength
  rw [if_neg fun h' => h (.inl h'), Run.outcome_read_bind, if_neg fun h' => h (.inr h')]
  rfl

theorem checkLength_exceeds {length : Nat} (h : ExceedsLength L length) (loc : Location)
    (m : Machine) : ∃ stop, (checkLength length loc).outcome L m = (.error stop, m) := by
  unfold checkLength checkArrayLength
  by_cases hgreatest : greatestLength < length
  · rw [if_pos hgreatest]
    exact ⟨_, rfl⟩
  · rw [if_neg hgreatest, Run.outcome_read_bind, if_pos (h.resolve_left hgreatest)]
    exact ⟨_, rfl⟩

/-- The number is a length that an array of the run can have. -/
def IsLength (L : RunLimits) (x : Float) : Prop :=
  (x.isNaN || x < 0 || wholePart x != x) = false ∧ ¬ ExceedsLength L (clampedNat x)

theorem requestedLength_of_isLength {x : Float} (h : IsLength L x) (loc : Location)
    (m : Machine) : (requestedLength x loc).outcome L m = (.ok (clampedNat x), m) := by
  unfold requestedLength
  rw [if_neg (Bool.eq_false_iff.1 h.1)]
  exact Run.outcome_bind_ok (checkLength_fits h.2 loc m)

theorem requestedLength_of_not_isLength {x : Float} (h : ¬ IsLength L x) (loc : Location)
    (m : Machine) : ∃ stop, (requestedLength x loc).outcome L m = (.error stop, m) := by
  unfold requestedLength
  split
  · exact ⟨_, rfl⟩
  · next hwhole =>
    have hexceeds : ExceedsLength L (clampedNat x) := by
      by_contra hfits
      exact h ⟨Bool.eq_false_iff.2 hwhole, hfits⟩
    obtain ⟨stop, hstop⟩ := checkLength_exceeds hexceeds loc m
    exact ⟨stop, Run.outcome_bind_error hstop⟩

/-! ### Elements -/

/-- The elements that a write leaves in an array.  `length` is the number of elements that a
write to the length asks for. -/
structure StoresUnder (key : String) (value : Value) (length : Nat) (old new : Array Value) :
    Prop where
  index : ∀ i < 2 ^ 64, key = toString i → new.size = max old.size (i + 1) ∧
    ∀ j < new.size, new[j]? = some (if j = i then value else old[j]?.getD .undefined)
  length : key = "length" → new.size = length ∧ ∀ j < length,
    new[j]? = some (old[j]?.getD .undefined)
  other : (∀ i < 2 ^ 64, key ≠ toString i) → key ≠ "length" → new = old

theorem getElem?_resized (items : Array Value) {length j : Nat} (hj : j < length) :
    (resized items length)[j]? = some (items[j]?.getD .undefined) := by
  unfold resized
  split
  · next hle =>
    rw [Array.take_eq_extract, Array.getElem?_extract, if_pos (by omega), Nat.zero_add,
      Array.getElem?_eq_getElem (Nat.lt_of_lt_of_le hj hle), Option.getD_some]
  · next hlt =>
    rw [Array.getElem?_append]
    split
    · next hlt' => rw [Array.getElem?_eq_getElem hlt', Option.getD_some]
    · next hle' =>
      rw [Array.getElem?_replicate, if_pos (by omega),
        Array.getElem?_eq_none (Nat.le_of_not_lt hle'), Option.getD_none]

/-- An element that is written behind the end, with a gap before it. -/
theorem getElem?_push_resized {items : Array Value} {value : Value} {i j : Nat}
    (hj : j < i + 1) :
    ((resized items i).push value)[j]? =
      some (if j = i then value else items[j]?.getD .undefined) := by
  rw [Array.getElem?_push, size_resized]
  split
  · next heq => rfl
  · next hne => exact getElem?_resized items (by omega)

theorem getElem?_setIfInBounds {items : Array Value} {value : Value} {i j : Nat}
    (hj : j < items.size) :
    (items.setIfInBounds i value)[j]? =
      some (if j = i then value else items[j]?.getD .undefined) := by
  rw [Array.getElem?_setIfInBounds]
  by_cases hi : i = j
  · subst hi
    rw [if_pos rfl, if_pos hj, if_pos rfl]
  · rw [if_neg hi, if_neg (Ne.symm hi), Array.getElem?_eq_getElem hj, Option.getD_some]

theorem StoresUnder.of_index {key : String} {value : Value} {length i : Nat}
    {old new : Array Value} (hkey : arrayIndex? key = some i)
    (hsize : new.size = max old.size (i + 1))
    (hnew : ∀ j < new.size,
      new[j]? = some (if j = i then value else old[j]?.getD .undefined)) :
    StoresUnder key value length old new := by
  obtain ⟨hnumeral, hi⟩ := arrayIndex?_eq_some.1 hkey
  refine ⟨fun k hk hkey' => ?_, fun hkey' => ?_, fun hother _ =>
    absurd hnumeral (hother i hi)⟩
  · obtain rfl : i = k :=
      Option.some.inj (hkey.symm.trans (arrayIndex?_eq_some.2 ⟨hkey', hk⟩))
    exact ⟨hsize, hnew⟩
  · rw [hkey', arrayIndex?_length] at hkey
    cases hkey

theorem StoresUnder.of_not_index {key : String} {value : Value} {length : Nat}
    {old new : Array Value} (hkey : arrayIndex? key = none)
    (hlength : key = "length" → new.size = length ∧ ∀ j < length,
      new[j]? = some (old[j]?.getD .undefined))
    (hother : key ≠ "length" → new = old) : StoresUnder key value length old new := by
  refine ⟨fun i hi hnumeral => ?_, hlength, fun _ => hother⟩
  rw [arrayIndex?_eq_some.2 ⟨hnumeral, hi⟩] at hkey
  cases hkey

/-! ### Writes -/

theorem writeElement_refused {id : HeapId} {items : Array Value}
    (hitems : m.heap.array? id = some items) {i : Nat} (hle : items.size ≤ i)
    (hexceeds : ExceedsLength L (i + 1)) (value : Value) (loc : Location) :
    ∃ stop, (writeElement id i value loc).outcome L m = (.error stop, m) := by
  obtain ⟨stop, hstop⟩ := checkLength_exceeds hexceeds loc m
  refine ⟨stop, ?_⟩
  unfold writeElement
  rw [Run.outcome_get_bind, Heap.elements_of_array? hitems]
  dsimp only
  rw [if_pos hle]
  exact Run.outcome_bind_error hstop

/-- An element is written unless it makes the array too long. -/
theorem writeElement_stores {id : HeapId} {items : Array Value}
    (hitems : m.heap.array? id = some items) {i : Nat}
    (hfits : ¬ (items.size ≤ i ∧ ExceedsLength L (i + 1))) (value : Value) (loc : Location) :
    ∃ items', (writeElement id i value loc).outcome L m =
      (.ok (), { m with heap := m.heap.setArray id items' }) ∧
      items'.size = max items.size (i + 1) ∧
      ∀ j < items'.size,
        items'[j]? = some (if j = i then value else items[j]?.getD .undefined) := by
  unfold writeElement
  rw [Run.outcome_get_bind, Heap.elements_of_array? hitems]
  dsimp only
  by_cases hle : items.size ≤ i
  · -- The gap up to the element is filled first, so that it becomes the last one.
    have hsize : ((resized items i).push value).size = i + 1 := by
      rw [Array.size_push, size_resized]
    have hcheck := checkLength_fits (fun hexceeds => hfits ⟨hle, hexceeds⟩) loc m
    rw [if_pos hle]
    exact ⟨_, Run.outcome_bind_ok hcheck, by omega, fun j hj =>
      getElem?_push_resized (hsize ▸ hj)⟩
  · have hsize : (items.setIfInBounds i value).size = items.size := Array.size_setIfInBounds
    rw [if_neg hle]
    exact ⟨_, rfl, by omega, fun j hj => getElem?_setIfInBounds (hsize ▸ hj)⟩

/-- A write to an array is refused if it makes the array too long, or if it asks for a length
that is none. -/
def RefusesWrite (L : RunLimits) (key : String) (length : Float) (size : Nat) : Prop :=
  (∃ i < 2 ^ 64, key = toString i ∧ size ≤ i ∧ ExceedsLength L (i + 1)) ∨
    key = "length" ∧ ¬ IsLength L length

theorem refusesWrite_index {key : String} {i : Nat} (hkey : arrayIndex? key = some i)
    (length : Float) (size : Nat) :
    RefusesWrite L key length size ↔ size ≤ i ∧ ExceedsLength L (i + 1) := by
  constructor
  · rintro (⟨k, hk, hnumeral, hle, hexceeds⟩ | ⟨rfl, -⟩)
    · obtain rfl : i = k :=
        Option.some.inj (hkey.symm.trans (arrayIndex?_eq_some.2 ⟨hnumeral, hk⟩))
      exact ⟨hle, hexceeds⟩
    · rw [arrayIndex?_length] at hkey
      cases hkey
  · rintro ⟨hle, hexceeds⟩
    obtain ⟨hnumeral, hi⟩ := arrayIndex?_eq_some.1 hkey
    exact .inl ⟨i, hi, hnumeral, hle, hexceeds⟩

theorem refusesWrite_not_index {key : String} (hkey : arrayIndex? key = none) (length : Float)
    (size : Nat) : RefusesWrite L key length size ↔ key = "length" ∧ ¬ IsLength L length := by
  refine ⟨fun h => h.resolve_left ?_, .inr⟩
  rintro ⟨i, hi, hnumeral, -⟩
  rw [arrayIndex?_eq_some.2 ⟨hnumeral, hi⟩] at hkey
  cases hkey

/-- A write that is refused fails and changes nothing. -/
theorem writeProperty_refused {id : HeapId} {items : Array Value}
    (hitems : m.heap.array? id = some items) {key : String} {value : Value}
    (hrefused : RefusesWrite L key (m.heap.numberOf value) items.size) (loc : Location) :
    ∃ stop, (writeProperty (.array id) key value loc).outcome L m = (.error stop, m) := by
  unfold writeProperty
  dsimp only
  cases hkey : arrayIndex? key with
  | some i =>
    obtain ⟨hle, hexceeds⟩ := (refusesWrite_index hkey _ _).1 hrefused
    exact writeElement_refused hitems hle hexceeds value loc
  | none =>
    obtain ⟨hlength, hinvalid⟩ := (refusesWrite_not_index hkey _ _).1 hrefused
    obtain ⟨stop, hstop⟩ := requestedLength_of_not_isLength hinvalid loc m
    refine ⟨stop, ?_⟩
    dsimp only
    rw [if_pos (beq_iff_eq.2 hlength), Run.outcome_bind_ok (x := numberOf value) rfl]
    exact Run.outcome_bind_error hstop

/-- Any other write to an array succeeds and changes that array only. -/
theorem writeProperty_stores {id : HeapId} {items : Array Value}
    (hitems : m.heap.array? id = some items) {key : String} {value : Value}
    (hfits : ¬ RefusesWrite L key (m.heap.numberOf value) items.size) (loc : Location) :
    ∃ items' h,
      (writeProperty (.array id) key value loc).outcome L m = (.ok (), { m with heap := h }) ∧
      m.heap.Sets id (.array items') h ∧
      StoresUnder key value (clampedNat (m.heap.numberOf value)) items items' := by
  unfold writeProperty
  dsimp only
  cases hkey : arrayIndex? key with
  | some i =>
    rw [refusesWrite_index hkey] at hfits
    obtain ⟨items', houtcome, hsize, hnew⟩ := writeElement_stores hitems hfits value loc
    exact ⟨items', _, houtcome, Heap.sets_setArray hitems items', .of_index hkey hsize hnew⟩
  | none =>
    rw [refusesWrite_not_index hkey] at hfits
    dsimp only
    by_cases hlength : key = "length"
    · have hvalid : IsLength L (m.heap.numberOf value) := by
        by_contra hinvalid
        exact hfits ⟨hlength, hinvalid⟩
      have hrequest := requestedLength_of_isLength hvalid loc m
      rw [if_pos (beq_iff_eq.2 hlength), Run.outcome_bind_ok (x := numberOf value) rfl,
        Run.outcome_bind_ok hrequest, Run.outcome_modify, Heap.elements_of_array? hitems]
      refine ⟨_, _, rfl, Heap.sets_setArray hitems _, ?_⟩
      refine .of_not_index hkey
        (fun _ => ⟨size_resized _ _, fun j hj => getElem?_resized items hj⟩) ?_
      exact fun hother => absurd hlength hother
    · -- Other keys of an array are not kept.
      rw [if_neg (by simpa using hlength)]
      exact ⟨items, m.heap, rfl, Heap.sets_self (Heap.array?_eq_some.1 hitems),
        .of_not_index hkey (fun h => absurd h hlength) fun _ => rfl⟩

/-- A write to an object succeeds and changes that object only. -/
theorem writeProperty_object {id : HeapId} {properties : Table Value}
    (hproperties : m.heap.object? id = some properties) (key : String) (value : Value)
    (L : RunLimits) (loc : Location) :
    ∃ h, (writeProperty (.object id) key value loc).outcome L m =
      (.ok (), { m with heap := h }) ∧
      m.heap.Sets id (.object (properties.insert key value)) h := by
  refine ⟨m.heap.setObject id (properties.insert key value), ?_,
    Heap.sets_setObject hproperties _⟩
  unfold writeProperty
  rw [Run.outcome_modify, hproperties]

/-! ### Reads -/

theorem readProperty_index {id : HeapId} {items : Array Value}
    (hitems : m.heap.array? id = some items) {i : Nat} (hi : i < 2 ^ 64) (L : RunLimits)
    (loc : Location) :
    (readProperty (.array id) (toString i) loc).outcome L m =
      (.ok (items[i]?.getD .undefined), m) := by
  unfold readProperty
  rw [Run.outcome_get_bind]
  dsimp only
  rw [Heap.elements_of_array? hitems, arrayProperty, arrayIndex?_eq_some.2 ⟨rfl, hi⟩]
  rfl

theorem readProperty_length {id : HeapId} {items : Array Value}
    (hitems : m.heap.array? id = some items) (L : RunLimits) (loc : Location) :
    (readProperty (.array id) "length" loc).outcome L m =
      (.ok (.number (Float.ofNat items.size)), m) := by
  unfold readProperty
  rw [Run.outcome_get_bind]
  dsimp only
  rw [Heap.elements_of_array? hitems, arrayProperty, arrayIndex?_length]
  rfl

theorem readProperty_object {id : HeapId} {properties : Table Value}
    (hproperties : m.heap.object? id = some properties) {key : String} {value : Value}
    (hvalue : properties.get? key = some value) (L : RunLimits) (loc : Location) :
    (readProperty (.object id) key loc).outcome L m = (.ok value, m) := by
  unfold readProperty
  rw [Run.outcome_get_bind]
  dsimp only
  rw [hproperties, Option.bind_some, hvalue]
  rfl

/-! ### Writes and reads -/

/-- The second state is the first with these contents in one slot. -/
structure Machine.Sets (m : Machine) (id : HeapId) (s : Slot) (m' : Machine) : Prop where
  heap : m.heap.Sets id s m'.heap
  rest : m' = { m with heap := m'.heap }

/-- Reads find these elements in an array, nothing behind them, and how many they are. -/
structure Machine.ReadsAs (m : Machine) (id : HeapId) (items : Array Value) : Prop where
  index : ∀ L loc, ∀ i < 2 ^ 64,
    (readProperty (.array id) (toString i) loc).outcome L m =
    (.ok (items[i]?.getD .undefined), m)
  length : ∀ L loc,
    (readProperty (.array id) "length" loc).outcome L m =
    (.ok (.number (Float.ofNat items.size)), m)

theorem Machine.readsAs {id : HeapId} {items : Array Value}
    (hitems : m.heap.array? id = some items) : m.ReadsAs id items :=
  ⟨fun L loc _ hi => readProperty_index hitems hi L loc, readProperty_length hitems⟩

/-- Writes and reads agree.  A write to an array fails and changes nothing, or it changes that
array as its key says, and reads find what it has left.  A write to an object puts the value
under its key, which keeps its place or becomes the last one, and a read finds it. -/
theorem write_then_read (L : RunLimits) (m : Machine) (key : String) (value : Value)
    (loc : Location) :
    (∀ id items, m.heap.array? id = some items →
      (RefusesWrite L key (m.heap.numberOf value) items.size ∧
        ∃ stop, (writeProperty (.array id) key value loc).outcome L m = (.error stop, m)) ∨
      (¬ RefusesWrite L key (m.heap.numberOf value) items.size ∧ ∃ items' m',
        (writeProperty (.array id) key value loc).outcome L m = (.ok (), m') ∧
          m.Sets id (.array items') m' ∧
          StoresUnder key value (clampedNat (m.heap.numberOf value)) items items' ∧
          m'.ReadsAs id items')) ∧
    ∀ id properties, m.heap.object? id = some properties → ∃ properties' m',
      (writeProperty (.object id) key value loc).outcome L m = (.ok (), m') ∧
        m.Sets id (.object properties') m' ∧
        (∀ q, properties'.get? q = if q = key then some value else properties.get? q) ∧
        properties'.keys =
          (if key ∈ properties.keys then properties.keys else properties.keys ++ [key]) ∧
        ∀ L' loc', (readProperty (.object id) key loc').outcome L' m' = (.ok value, m') := by
  refine ⟨fun id items hitems => ?_, fun id properties hproperties => ?_⟩
  · by_cases hrefused : RefusesWrite L key (m.heap.numberOf value) items.size
    · exact .inl ⟨hrefused, writeProperty_refused hitems hrefused loc⟩
    · obtain ⟨items', h, houtcome, hsets, hstores⟩ := writeProperty_stores hitems hrefused loc
      exact .inr
        ⟨hrefused, items', _, houtcome, ⟨hsets, rfl⟩, hstores, Machine.readsAs hsets.array?⟩
  · obtain ⟨h, houtcome, hsets⟩ := writeProperty_object hproperties key value L loc
    have hvalue : (properties.insert key value).get? key = some value := by
      rw [Table.get?_insert, if_pos rfl]
    refine ⟨properties.insert key value, _, houtcome, ⟨hsets, rfl⟩, fun q =>
      Table.get?_insert properties key q value,
      Table.keys_insert properties key value, readProperty_object hsets.object? hvalue⟩

/-- A state with an array of one element and an empty object. -/
def twoSlots : Machine :=
  { Machine.initial {}
    with heap := ((Heap.empty.alloc (.array #[.bool true])).2.alloc (.object .empty)).2 }

theorem twoSlots_written :
    twoSlots.heap.array? 1 = some #[.bool true] ∧ twoSlots.heap.object? 2 = some .empty ∧
    (∃ items m', (writeProperty (.array 1) (toString 2) .null default).outcome {} twoSlots =
      (.ok (), m') ∧ items.size = 3 ∧ m'.ReadsAs 1 items) ∧
    ∃ m', (writeProperty (.object 2) (toString 2) .null default).outcome {} twoSlots =
      (.ok (), m') ∧
      (readProperty (.object 2) (toString 2) default).outcome {} m' = (.ok .null, m') := by
  have harray : twoSlots.heap.array? 1 = some #[.bool true] := by
    refine Heap.array?_eq_some.2 ?_
    unfold twoSlots
    rw [Heap.get?_alloc, if_neg (by decide), Heap.get?_alloc, if_pos (by decide)]
  have hobject : twoSlots.heap.object? 2 = some .empty := by
    refine Heap.object?_eq_some.2 ?_
    unfold twoSlots
    rw [Heap.get?_alloc, if_pos (by decide)]
  have hindex : arrayIndex? (toString 2) = some 2 := arrayIndex?_eq_some.2 ⟨rfl, by decide⟩
  obtain ⟨hwrites, hputs⟩ := write_then_read {} twoSlots (toString 2) .null default
  refine ⟨harray, hobject, ?_, ?_⟩
  · obtain ⟨hrefused, -⟩ | ⟨-, items, m', houtcome, -, hstores, hreads⟩ := hwrites 1 _ harray
    · rw [refusesWrite_index hindex] at hrefused
      exact absurd hrefused.2 (not_or.2 ⟨by decide, by decide⟩)
    · exact ⟨items, m', houtcome, (hstores.index 2 (by decide) rfl).1, hreads⟩
  · obtain ⟨properties, m', houtcome, -, -, -, hread⟩ := hputs 2 _ hobject
    exact ⟨m', houtcome, hread {} default⟩

end ScriptReplay
