/-
Methods that change an array.

Each of them takes the elements of the array, puts others in their place, and records one
step.  Nothing but the array changes, unless the stretch that is cut out of it becomes a new
array.  A change that would make the array too long does not begin.

* `Told` : what a computation ends with that records one step and gives an answer;
* `addElements_told` up to `spliceArray_told` : how each method ends;
* `size_spliced` : the length that is tested is the one that the array gets;
* `Machine.Modified` : states before and after such a call;
* `callArrayMethod_modifies` : the methods change the array that they are called on and keep
  everything else.
-/
import ScriptReplay.Proofs.Properties
import ScriptReplay.Proofs.Reachable
import ScriptReplay.Proofs.References

namespace ScriptReplay

/-- The methods that change the array they are called on. -/
def ArrayMethod.mutators : List ArrayMethod :=
  [push, pop, shift, unshift, splice, reverse, fill]

variable {L : RunLimits} {m m' : Machine} {id : HeapId} {loc : Location}

/-! ### Steps -/

/-- The state with one step more in its trace. -/
def Machine.StepsTo (m m' : Machine) : Prop :=
  ∃ t s, m' = { m with trace := t } ∧ t.newest = s :: m.trace.newest

/-- What ends with the answer and one more step, or without room for a step and with the
state as it is. -/
def Told (m : Machine) (v : Value) : Except Stop Value × Machine → Prop
  | (.ok v', m') => m.trace.hasRoom = true ∧ v' = v ∧ m.StepsTo m'
  | (.error stop, m') =>
    m.trace.hasRoom = false ∧ stop = .failed ⟨.stepLimit m.trace.max, none⟩ ∧ m' = m

theorem told_record (kind : StepKind) (description : String) (v : Value) :
    Told m v ((do record kind loc description; return v : Run Value).outcome L m) := by
  rw [Run.outcome_bind, Run.outcome_record]
  split
  · next hroom => exact ⟨hroom, rfl, _, _, rfl, rfl⟩
  · next hfull => exact ⟨Bool.eq_false_iff.2 hfull, rfl, rfl⟩

theorem Told.answers {v : Value} {o : Except Stop Value × Machine} (h : Told m v o)
    (hroom : m.trace.hasRoom = true) : ∃ m', o = (.ok v, m') := by
  obtain ⟨stop | v', m'⟩ := o
  · exact absurd hroom (Bool.eq_false_iff.1 h.1)
  · obtain ⟨-, rfl, -⟩ := h
    exact ⟨m', rfl⟩

theorem outcome_checkArrayLength (length : Nat) (L : RunLimits) (m : Machine)
    (loc : Location) :
    (checkArrayLength length loc).outcome L m =
    if L.maxArrayLength < length
      then (.error (.failed ⟨.arrayLength L.maxArrayLength, some loc⟩), m)
    else (.ok (), m) := by
  unfold checkArrayLength
  rw [Run.outcome_read_bind]
  dsimp only
  split
  · rfl
  · rfl

/-! ### One array -/

/-- Elements are added unless the array becomes too long. -/
theorem addElements_told (method : ArrayMethod) (args : List Value) (grown : Array Value)
    (L : RunLimits) (m : Machine)
    (id : HeapId) (loc : Location) :
    if L.maxArrayLength < grown.size then
      (addElements method id args grown loc).outcome L m =
        (.error (.failed ⟨.arrayLength L.maxArrayLength, some loc⟩), m)
    else Told { m with heap := m.heap.setArray id grown } (.number (Float.ofNat grown.size))
      ((addElements method id args grown loc).outcome L m) := by
  have hcheck := outcome_checkArrayLength grown.size L m loc
  unfold addElements
  split
  · next hexceeds =>
    rw [if_pos hexceeds] at hcheck
    exact Run.outcome_bind_error hcheck
  · next hfits =>
    rw [if_neg hfits] at hcheck
    rw [Run.outcome_bind_ok hcheck]
    exact told_record (m := { m with heap := m.heap.setArray id grown }) _ _ _

theorem removeElement_told (method : ArrayMethod) (removed : Option Value)
    (rest : Array Value) :
    Told { m with heap := m.heap.setArray id rest } (removed.getD .undefined)
      ((removeElement method id removed rest loc).outcome L m) :=
  told_record (m := { m with heap := m.heap.setArray id rest }) _ _ _

theorem fillArray_told (items : Array Value) (args : List Value) (L : RunLimits) (m : Machine)
    (id : HeapId) (loc : Location) :
    ∃ filled, Told { m with heap := m.heap.setArray id filled } (.array id)
      ((fillArray id items args loc).outcome L m) :=
  ⟨_, told_record (m := { m with heap := m.heap.setArray id _ }) _ _ _⟩

/-! ### A stretch of an array -/

theorem relativeIndex_le (x : Float) (length : Nat) : relativeIndex x length ≤ length := by
  unfold relativeIndex
  split
  · exact Nat.sub_le _ _
  · exact Nat.min_le_right _ _

/-- Where the stretch begins that is cut out. -/
def spliceStart (h : Heap) (items : Array Value) (args : List Value) : Nat :=
  indexArg h args[0]? items.size 0

/-- How long the stretch is that is cut out. -/
def spliceCount (h : Heap) (items : Array Value) (args : List Value) : Nat :=
  match args[1]? with
  | some v => clampedCount (h.numberOf v) (items.size - spliceStart h items args)
  | none => items.size - spliceStart h items args

theorem spliceStart_le (h : Heap) (items : Array Value) (args : List Value) :
    spliceStart h items args ≤ items.size := by
  unfold spliceStart indexArg
  split
  · exact Nat.zero_le _
  · exact Nat.zero_le _
  · exact relativeIndex_le _ _

theorem spliceCount_le (h : Heap) (items : Array Value) (args : List Value) :
    spliceCount h items args ≤ items.size - spliceStart h items args := by
  unfold spliceCount
  split
  · exact Nat.min_le_right _ _
  · exact Nat.le_refl _

/-- The elements before the stretch that is cut out. -/
def spliceBefore (h : Heap) (items : Array Value) (args : List Value) : Array Value :=
  items.extract 0 (spliceStart h items args)

/-- The stretch that is cut out. -/
def spliceCut (h : Heap) (items : Array Value) (args : List Value) : Array Value :=
  items.extract (spliceStart h items args)
    (spliceStart h items args + spliceCount h items args)

/-- The elements behind the stretch that is cut out. -/
def spliceBehind (h : Heap) (items : Array Value) (args : List Value) : Array Value :=
  items.extract (spliceStart h items args + spliceCount h items args) items.size

theorem size_spliceBefore (h : Heap) (items : Array Value) (args : List Value) :
    (spliceBefore h items args).size = spliceStart h items args := by
  have hstart := spliceStart_le h items args
  rw [spliceBefore, Array.size_extract]
  omega

theorem size_spliceCut (h : Heap) (items : Array Value) (args : List Value) :
    (spliceCut h items args).size = spliceCount h items args := by
  have hstart := spliceStart_le h items args
  have hcount := spliceCount_le h items args
  rw [spliceCut, Array.size_extract]
  omega

/-- Nothing is lost when a stretch is cut out. -/
theorem splice_append (h : Heap) (items : Array Value) (args : List Value) :
    spliceBefore h items args ++ spliceCut h items args ++
      spliceBehind h items args = items := by
  have hstart := spliceStart_le h items args
  have hcount := spliceCount_le h items args
  rw [spliceBefore, spliceCut, spliceBehind, Array.extract_append_extract,
    Nat.min_eq_left (Nat.zero_le _), Nat.max_eq_right (Nat.le_add_right _ _),
    Array.extract_append_extract, Nat.min_eq_left (Nat.zero_le _),
    Nat.max_eq_right (by omega), Array.extract_size]

/-- The elements with the stretch exchanged. -/
def spliced (h : Heap) (items : Array Value) (args : List Value) : Array Value :=
  spliceBefore h items args ++ (args.drop 2).toArray ++ spliceBehind h items args

/-- The length that the array gets, as it can be told before the change. -/
theorem size_spliced (h : Heap) (items : Array Value) (args : List Value) :
    (spliced h items args).size = items.size -
      spliceCount h items args + (args.length - 2) := by
  -- The three parts have the length of the whole, and the stretch has its own length.
  have hwhole := congrArg Array.size (splice_append h items args)
  have hcut := size_spliceCut h items args
  simp only [Array.size_append] at hwhole
  simp only [spliced, Array.size_append, List.size_toArray, List.length_drop]
  omega

/-- The heap with the stretch exchanged in the array, and with the one that is cut out as
a new array. -/
def Heap.cutOut (h : Heap) (id : HeapId) (items : Array Value) (args : List Value) : Heap :=
  ((h.setArray id (spliced h items args)).alloc (.array (spliceCut h items args))).2

/-- A stretch is exchanged unless the array becomes too long. -/
theorem spliceArray_told (items : Array Value) (args : List Value) (L : RunLimits)
    (m : Machine) (id : HeapId)
    (loc : Location) :
    if L.maxArrayLength < items.size - spliceCount m.heap items args + (args.length - 2) then
      (spliceArray id items args loc).outcome L m =
        (.error (.failed ⟨.arrayLength L.maxArrayLength, some loc⟩), m)
    else Told { m with heap := m.heap.cutOut id items args }
      (.array ((m.heap.setArray id (spliced m.heap items args)).lastId + 1))
      ((spliceArray id items args loc).outcome L m) := by
  have hcheck := outcome_checkArrayLength (spliced m.heap items args).size L m loc
  rw [← size_spliced]
  unfold spliceArray
  rw [Run.outcome_get_bind]
  split
  · next hexceeds =>
    rw [if_pos hexceeds] at hcheck
    exact Run.outcome_bind_error hcheck
  · next hfits =>
    rw [if_neg hfits] at hcheck
    show Told _ _
      ((checkArrayLength (spliced m.heap items args).size loc >>= fun _ => _).outcome L m)
    rw [Run.outcome_bind_ok hcheck]
    exact told_record (m := { m with heap := _ }) _ _ _

/-! ### Calls -/

/-- The method would make the array longer than it may be. -/
def ArrayMethod.Exceeds (method : ArrayMethod) (L : RunLimits) (h : Heap) (old : Array Value)
    (args : List Value) : Prop :=
  match method with
  | .push | .unshift => L.maxArrayLength < old.size + args.length
  | .splice => L.maxArrayLength < old.size - spliceCount h old args + (args.length - 2)
  | _ => False

/-- The second state is the first with other elements in one array, one step more, and
perhaps new slots. -/
structure Machine.Modified (m : Machine) (id : HeapId) (m' : Machine) : Prop where
  slots : ∀ id' ≠ id, ∀ s, m.heap.get? id' = some s → m'.heap.get? id' = some s
  rest : m' = { m with heap := m'.heap, trace := m'.trace }
  step : ∃ s, m'.trace.newest = s :: m.trace.newest

/-- The second heap has these elements in one array, and a new array with those. -/
structure Heap.SetsAndAdds (h : Heap) (id : HeapId) (items added : Array Value) (h' : Heap) :
    Prop where
  lastId : h'.lastId = h.lastId + 1
  slots : ∀ id', h'.get? id' =
    if id' = h.lastId + 1 then some (.array added) else if id' = id
      then some (.array items) else h.get? id'

/-- How a call of a method on an array ends.  It fails before it has changed anything if the
array would become too long, and it fails afterwards if there is no room for a step.  Else the
array is changed and a step is added.  For `splice` a stretch of the old elements is exchanged
for arguments, and becomes a new array, which is the answer. -/
def ArrayMethod.Ends (method : ArrayMethod) (L : RunLimits) (m : Machine) (id : HeapId)
    (old : Array Value) (args : List Value) (loc : Location) :
    Except Stop Value × Machine → Prop
  | (.ok v, m') =>
    ¬ method.Exceeds L m.heap old args ∧ m.Modified id m' ∧
    (method ≠ .splice → ∃ new, m.heap.Sets id (.array new) m'.heap) ∧
    (method = .splice → ∃ before cut behind, old = before ++ cut ++ behind ∧
      before.size = spliceStart m.heap old args ∧ cut.size = spliceCount m.heap old args ∧
      m.heap.SetsAndAdds id (before ++ (args.drop 2).toArray ++ behind) cut m'.heap ∧
      v = .array (m.heap.lastId + 1))
  | (.error stop, m') =>
    (method.Exceeds L m.heap old args ∧
      stop = .failed ⟨.arrayLength L.maxArrayLength, some loc⟩ ∧ m' = m) ∨
    (m.trace.hasRoom = false ∧ stop = .failed ⟨.stepLimit m.trace.max, none⟩)

variable {method : ArrayMethod} {old : Array Value} {args : List Value}

theorem ArrayMethod.ends_of_exceeds (hexceeds : method.Exceeds L m.heap old args)
    {o : Except Stop Value × Machine}
    (ho : o = (.error (.failed ⟨.arrayLength L.maxArrayLength, some loc⟩), m)) :
    method.Ends L m id old args loc o := by
  rw [ho]
  exact .inl ⟨hexceeds, rfl, rfl⟩

/-- A method that changes the array and nothing else. -/
theorem ArrayMethod.ends_of_told (hmethod : method ≠ .splice)
    (hold : m.heap.array? id = some old) (hfits : ¬ method.Exceeds L m.heap old args)
    {new : Array Value} {v : Value} {o : Except Stop Value × Machine}
    (ho : Told { m with heap := m.heap.setArray id new } v o) :
    method.Ends L m id old args loc o := by
  obtain ⟨stop | v', m'⟩ := o
  · exact .inr ⟨ho.1, ho.2.1⟩
  · obtain ⟨-, rfl, t, s, rfl, ht⟩ := ho
    have hsets := Heap.sets_setArray hold new
    refine ⟨hfits, ⟨fun id' hne slot hslot => ?_, rfl, s, ht⟩, fun _ => ⟨new, hsets⟩,
      fun h => absurd h hmethod⟩
    exact ((hsets.slots id').trans (if_neg hne)).trans hslot

/-- A method that adds elements at one end. -/
theorem ArrayMethod.ends_added (hmethod : method ≠ .splice)
    (hold : m.heap.array? id = some old) {grown : Array Value}
    (hexceeds : method.Exceeds L m.heap old args ↔ L.maxArrayLength < grown.size) :
    method.Ends L m id old args loc ((addElements method id args grown loc).outcome L m) := by
  have htold := addElements_told method args grown L m id loc
  split at htold
  · next hlong => exact ends_of_exceeds (hexceeds.2 hlong) htold
  · next hfits => exact ends_of_told hmethod hold (fun h => hfits (hexceeds.1 h)) htold

theorem ArrayMethod.ends_splice (hm : m.heap.Bounded) (hold : m.heap.array? id = some old)
    (hfits : ¬ ArrayMethod.splice.Exceeds L m.heap old args) {o : Except Stop Value × Machine}
    (ho : Told { m with heap := m.heap.cutOut id old args }
      (.array ((m.heap.setArray id (spliced m.heap old args)).lastId + 1)) o) :
    ArrayMethod.splice.Ends L m id old args loc o := by
  obtain ⟨stop | v', m'⟩ := o
  · exact .inr ⟨ho.1, ho.2.1⟩
  · obtain ⟨-, rfl, t, s, rfl, ht⟩ := ho
    have hsets := Heap.sets_setArray hold (spliced m.heap old args)
    have hadds : m.heap.SetsAndAdds id (spliced m.heap old args) (spliceCut m.heap old args)
        (m.heap.cutOut id old args) := by
      refine ⟨congrArg (· + 1) hsets.lastId, fun id' => ?_⟩
      rw [Heap.cutOut, Heap.get?_alloc, hsets.lastId, hsets.slots]
    refine ⟨hfits, ⟨fun id' hne slot hslot => ?_, rfl, s, ht⟩, fun h =>
      absurd rfl h, fun _ => ?_⟩
    · -- The new array takes a number that no slot had.
      have hnew : id' ≠ m.heap.lastId + 1 :=
        Nat.ne_of_lt (Nat.lt_succ_of_le (hm id' slot hslot))
      exact ((hadds.slots id').trans ((if_neg hnew).trans (if_neg hne))).trans hslot
    · exact ⟨_, _, _, (splice_append m.heap old args).symm,
        size_spliceBefore _ _ _, size_spliceCut _ _ _, hadds,
        congrArg (fun lastId => Value.array (lastId + 1)) hsets.lastId⟩

/-- The methods change the array that they are called on. -/
theorem callArrayMethod_ends (hm : m.heap.Bounded) (hold : m.heap.array? id = some old)
    (hmethod : method ∈ ArrayMethod.mutators) (w : Walker) :
    method.Ends L m id old args loc ((callArrayMethod w method id args loc).outcome L m) := by
  unfold callArrayMethod
  rw [Run.outcome_get_bind, Heap.elements_of_array? hold]
  simp only [ArrayMethod.mutators, List.mem_cons, List.not_mem_nil, or_false] at hmethod
  obtain rfl | rfl | rfl | rfl | rfl | rfl | rfl := hmethod
  all_goals dsimp only
  · exact ArrayMethod.ends_added (by decide : ArrayMethod.push ≠ .splice) hold
      (by simp [ArrayMethod.Exceeds])
  · exact ArrayMethod.ends_of_told (by decide : ArrayMethod.pop ≠ .splice) hold not_false
      (removeElement_told _ _ _)
  · exact ArrayMethod.ends_of_told (by decide : ArrayMethod.shift ≠ .splice) hold not_false
      (removeElement_told _ _ _)
  · exact ArrayMethod.ends_added (by decide : ArrayMethod.unshift ≠ .splice) hold
      (by simp [ArrayMethod.Exceeds, Nat.add_comm])
  · have htold := spliceArray_told old args L m id loc
    split at htold
    · next h => exact @ArrayMethod.ends_of_exceeds _ _ _ _ .splice _ _ h _ htold
    · next h => exact ArrayMethod.ends_splice hm hold h htold
  · exact ArrayMethod.ends_of_told (by decide : ArrayMethod.reverse ≠ .splice) hold not_false
      (told_record (m := { m with heap := m.heap.setArray id old.reverse }) _ _ _)
  · obtain ⟨filled, htold⟩ := fillArray_told old args L m id loc
    exact ArrayMethod.ends_of_told
      (by decide : ArrayMethod.fill ≠ .splice) hold not_false htold

/-- In the states that a run goes through, new slots take numbers that no slot had.  In
all such states a call of `push`, `pop`, `shift`, `unshift`, `splice`, `reverse` or `fill`
changes nothing but the array that it is called on, and loses none of the elements that
it cuts out. -/
theorem callArrayMethod_modifies (L : RunLimits) (p : Program) :
    (∀ m, Reachable L p m → m.heap.Bounded) ∧
    ∀ m, m.heap.Bounded → ∀ w method id args loc old, method ∈ ArrayMethod.mutators →
      m.heap.array? id = some old →
        method.Ends L m id old args loc
          ((callArrayMethod w method id args loc).outcome L m) := by
  refine ⟨fun m hm => ?_, fun m hm w method id args loc old hmethod hold =>
    callArrayMethod_ends hm hold hmethod w⟩
  -- A run keeps its references tied to slots, and with that the bound on the numbers of
  -- the slots.
  have htied : m.Tied :=
    Discipline.references.inv_of_reachable (fun _ _ => trivial) (Machine.tied_initial L) hm
  exact htied.bounded

/-- The program `[true, false, null]; ["aside"];`. -/
def listing : Program :=
  ⟨[.expr (.array [some (.bool true default), some (.bool false default),
      some (.null default)] default) default,
    .expr (.array [some (.string "aside" default)] default) default], default⟩

/-- The arguments `1, 1, "put"`: behind the first element, one is exchanged for a text. -/
def exchange : List Value :=
  [.number (Float.ofNat 1), .number (Float.ofNat 1), .string "put"]

theorem listing_spliced : ∃ m v m', Reachable {} listing m ∧
    m.heap.array? 1 = some #[.bool true, .bool false, .null] ∧
    m.heap.array? 2 = some #[.string "aside"] ∧
    (callArrayMethod (walker 0) .splice 1 exchange default).outcome {} m = (.ok v, m') ∧
    ArrayMethod.splice.Ends {} m 1 #[.bool true, .bool false, .null] exchange default
      (.ok v, m') ∧ m'.heap.array? 1 = some #[.bool true, .string "put", .null] ∧
    m'.heap.array? 2 = some #[.string "aside"] ∧
    m'.heap.array? 3 = some #[.bool false] := by
  obtain ⟨hbounded, hends⟩ := callArrayMethod_modifies {} listing
  have hm := reachable_runFrom {} 4 listing
  have harray : (runFrom {} 4 listing).2.heap.array? 1 =
      some #[.bool true, .bool false, .null] :=
    rfl
  have hsplice :=
    hends _ (hbounded _ hm) (walker 0) .splice 1 exchange default _ (by decide) harray
  obtain ⟨o, ho⟩ : ∃ o, o =
      (callArrayMethod (walker 0) .splice 1 exchange default).outcome {}
      (runFrom {} 4 listing).2 :=
    ⟨_, rfl⟩
  have hok : o.1.isOk = true := by
    rw [ho]
    rfl
  have hchanged : o.2.heap.array? 1 = some #[.bool true, .string "put", .null] := by
    rw [ho]
    rfl
  have haside : o.2.heap.array? 2 = some #[.string "aside"] := by
    rw [ho]
    rfl
  have hcut : o.2.heap.array? 3 = some #[.bool false] := by
    rw [ho]
    rfl
  rw [← ho] at hsplice
  obtain ⟨stop | v, m'⟩ := o
  · cases hok
  · exact ⟨_, v, m', hm, harray, rfl, ho.symm, hsplice, hchanged, haside, hcut⟩

end ScriptReplay
