/-
Snapshots and texts.

A step keeps the part of the heap that it refers to, and the texts of its values are read
off that part.

* `Heap.inspectWithin`, `Heap.textWithin` : the texts by their rules alone, down to a
  given depth;
* `Heap.inspectWithin_eq`, `Heap.textWithin_eq` : a depth beyond the number of slots is
  never used up;
* `Heap.SameOn` : two heaps with the same slots wherever references lead;
* `Heap.snapshot_faithful` : a snapshot has just the slots that are reached, and
  the same texts.

Design notes: `inspectIn` takes slots out of the heap on its way, so two heaps would have to
be compared again after every slot.  The texts by their rules leave the heap as it is: whether
a reference leads back is read off the path.
-/
import ScriptReplay.Heap.Reach
import ScriptReplay.Heap.Text
import ScriptReplay.Proofs.Heap

namespace ScriptReplay

namespace Heap

/-! ### Texts by their rules -/

/-- The inspected text of a value inside the slots of `path`, or nothing if it is more than
`n` levels deep. -/
def inspectWithin (h : Heap) : Nat → List HeapId → Bool → Value → Option String
  | 0, _, _, _ => none
  | n + 1, path, compact, v =>
    match v with
    | .undefined => some "undefined"
    | .null => some "null"
    | .bool b => some (boolText b)
    | .number x => some (numberText x)
    | .string s => some ("\"" ++ s ++ "\"")
    | .function f => some ("ƒ " ++ f.name ++ "()")
    | .array id =>
      if path.contains id then some "[Circular]"
      else
        match h.array? id with
        | none => some "<unknown>"
        | some items =>
          let cut := compact && shownElements < items.size
          let shown := if cut then items.toList.take shownElements else items.toList
          (shown.mapM (h.inspectWithin n (id :: path) true)).map fun parts =>
            bracketed "[" "]" parts cut
    | .object id =>
      if path.contains id then some "[Circular]"
      else
        match h.object? id with
        | none => some "<unknown>"
        | some properties =>
          let cut := compact && shownProperties < properties.size
          let shown :=
            if cut then properties.entries.take shownProperties else properties.entries
          (shown.mapM fun e => (h.inspectWithin n (id :: path) true e.2).map fun text =>
            e.1 ++ ": " ++ text).map
            fun parts => bracketed "\x7b" "\x7d" parts cut

/-- The plain text of a value inside the slots of `path`, or nothing if it is more than `n`
levels deep. -/
def textWithin (h : Heap) : Nat → List HeapId → Value → Option String
  | 0, _, _ => none
  | n + 1, path, v =>
    match v with
    | .undefined => some "undefined"
    | .null => some "null"
    | .bool b => some (boolText b)
    | .number x => some (numberText x)
    | .string s => some s
    | .function f => some ("function " ++ f.name ++ "() \x7b ... \x7d")
    | .object _ => some "[object Object]"
    | .array id =>
      if path.contains id then some ""
      else
        match h.array? id with
        | none => some ""
        | some items =>
          (items.toList.mapM fun e : Value =>
            if e.isNullish then some "" else h.textWithin n (id :: path) e).map
            fun parts => ",".intercalate parts

/-! ### Parts -/

theorem mapM_eq_some_map {α β : Type} {f : α → Option β} {g : α → β} {l : List α}
    (h : ∀ a ∈ l, f a = some (g a)) : l.mapM f = some (l.map g) := by
  induction l with
  | nil => rfl
  | cons a l ih =>
    have hl := ih fun b hb => h b (List.mem_cons_of_mem _ hb)
    rw [List.mapM_cons, h a List.mem_cons_self, hl]
    rfl

theorem mapM_congr {α β : Type} {f g : α → Option β} {l : List α} (h : ∀ a ∈ l, f a = g a) :
    l.mapM f = l.mapM g := by
  induction l with
  | nil => rfl
  | cons a l ih =>
    have hl := ih fun b hb => h b (List.mem_cons_of_mem _ hb)
    rw [List.mapM_cons, List.mapM_cons, h a List.mem_cons_self, hl]

/-- What is shown of a slot is in it. -/
theorem mem_of_mem_shown {α : Type} {a : α} {l : List α} {n : Nat} {cut : Bool}
    (ha : a ∈ if cut then l.take n else l) : a ∈ l := by
  split at ha
  · exact List.mem_of_mem_take ha
  · exact ha

theorem array?_congr {h h' : Heap} {id : HeapId} (hs : h.get? id = h'.get? id) :
    h.array? id = h'.array? id := by
  unfold array?
  rw [hs]

theorem object?_congr {h h' : Heap} {id : HeapId} (hs : h.get? id = h'.get? id) :
    h.object? id = h'.object? id := by
  unfold object?
  rw [hs]

/-! ### Depth -/

/-- The second heap is the first one without the slots of `path`. -/
def Without (h : Heap) (path : List HeapId) (left : Heap) : Prop :=
  ∀ id, left.get? id = if path.contains id then none else h.get? id

theorem Without.nil (h : Heap) : h.Without [] h :=
  fun _ => rfl

theorem Without.erase {h left : Heap} {path : List HeapId} (hw : h.Without path left)
    (id : HeapId) : h.Without (id :: path) (left.erase id) := by
  intro id'
  rw [get?_erase, hw id', List.contains_cons]
  by_cases hid : id' = id
  · simp [hid]
  · simp [hid]

theorem Without.get? {h left : Heap} {path : List HeapId} (hw : h.Without path left)
    {id : HeapId} (hid : ¬ path.contains id) : left.get? id = h.get? id :=
  (hw id).trans (if_neg hid)

/-- On the way down slots only leave, so a depth beyond the number of those left is
never used up. -/
theorem inspectWithin_eq {h left : Heap} {n : Nat} {path : List HeapId}
    (hw : h.Without path left) (hn : left.size < n) (compact : Bool) (v : Value) :
    h.inspectWithin n path compact v = some (left.inspectIn path compact v) := by
  induction n generalizing left path compact v with
  | zero => exact absurd hn (Nat.not_lt_zero _)
  | succ n ih =>
    -- Below a slot of `left` there is one slot less.
    have hbelow : ∀ {id : HeapId} {s : Slot}, left.get? id = some s → ∀ e : Value,
        h.inspectWithin n (id :: path) true e =
        some ((left.erase id).inspectIn (id :: path) true e) := by
      intro id s hs e
      have hsize := size_erase_lt hs
      exact ih (hw.erase id) (by omega) true e
    unfold inspectWithin inspectIn
    cases v with
    | array id =>
      dsimp only
      by_cases hid : path.contains id
      · rw [if_pos hid, if_pos hid]
      · rw [if_neg hid, if_neg hid, ← array?_congr (hw.get? hid)]
        cases hs : left.array? id with
        | none => rfl
        | some items =>
          dsimp only
          rw [mapM_eq_some_map fun e _ => hbelow (get?_of_array? hs) e]
          rfl
    | object id =>
      dsimp only
      by_cases hid : path.contains id
      · rw [if_pos hid, if_pos hid]
      · rw [if_neg hid, if_neg hid, ← object?_congr (hw.get? hid)]
        cases hs : left.object? id with
        | none => rfl
        | some properties =>
          dsimp only
          rw [mapM_eq_some_map fun (e : String × Value) _ =>
            congrArg (Option.map (e.1 ++ ": " ++ ·)) (hbelow (get?_of_object? hs) e.2)]
          rfl
    | _ => rfl

theorem textWithin_eq {h left : Heap} {n : Nat} {path : List HeapId}
    (hw : h.Without path left) (hn : left.size < n) (v : Value) :
    h.textWithin n path v = some (left.textIn path v) := by
  induction n generalizing left path v with
  | zero => exact absurd hn (Nat.not_lt_zero _)
  | succ n ih =>
    unfold textWithin textIn
    cases v with
    | array id =>
      dsimp only
      by_cases hid : path.contains id
      · rw [if_pos hid, if_pos hid]
      · rw [if_neg hid, if_neg hid, ← array?_congr (hw.get? hid)]
        cases hs : left.array? id with
        | none => rfl
        | some items =>
          -- The parts are shown without this slot, so fewer slots are left.
          have hsize := size_erase_lt (get?_of_array? hs)
          have hpart : ∀ e ∈ items.toList,
              (if e.isNullish then some "" else h.textWithin n (id :: path) e) =
                some (if e.isNullish then "" else (left.erase id).textIn (id :: path) e) := by
            intro e _
            split
            · rfl
            · exact ih (hw.erase id) (by omega) e
          dsimp only
          rw [mapM_eq_some_map hpart]
          rfl
    | _ => rfl

/-- The inspected text follows its rules, and they never go deeper than the heap has slots. -/
theorem inspectWithin_of_size_lt {h : Heap} {n : Nat} (hn : h.size < n) (compact : Bool)
    (v : Value) : h.inspectWithin n [] compact v = some (h.inspect v compact) :=
  inspectWithin_eq (.nil h) hn compact v

theorem textWithin_of_size_lt {h : Heap} {n : Nat} (hn : h.size < n) (v : Value) :
    h.textWithin n [] v = some (h.textOf v) :=
  textWithin_eq (.nil h) hn v

/-! ### Heaps that agree -/

/-- Two heaps have the same slots for some numbers, and references do not lead out of
these numbers. -/
structure SameOn (h h' : Heap) (P : HeapId → Prop) : Prop where
  slot : ∀ id, P id → h.get? id = h'.get? id
  closed : ∀ id s, P id → h.get? id = some s → ∀ v ∈ s.values, ∀ id',
    v.heapId? = some id' → P id'

section
variable {h h' : Heap} {P : HeapId → Prop}

theorem inspectWithin_congr (hsame : h.SameOn h' P) (n : Nat) (path : List HeapId)
    (compact : Bool) {v : Value} (hv : ∀ id, v.heapId? = some id → P id) :
    h.inspectWithin n path compact v = h'.inspectWithin n path compact v := by
  induction n generalizing path compact v with
  | zero => rfl
  | succ n ih =>
    unfold inspectWithin
    cases v with
    | array id =>
      have hid : P id := hv id rfl
      dsimp only
      rw [← array?_congr (hsame.slot id hid)]
      cases hs : h.array? id with
      | none => rfl
      | some items =>
        have hparts : ∀ e ∈ items.toList,
            h.inspectWithin n (id :: path) true e = h'.inspectWithin n (id :: path) true e :=
          fun e he => ih _ _ (hsame.closed id _ hid (get?_of_array? hs) e he)
        dsimp only
        rw [mapM_congr fun e he => hparts e (mem_of_mem_shown he)]
    | object id =>
      have hid : P id := hv id rfl
      dsimp only
      rw [← object?_congr (hsame.slot id hid)]
      cases hs : h.object? id with
      | none => rfl
      | some properties =>
        have hparts : ∀ e ∈ properties.entries,
            h.inspectWithin n (id :: path) true e.2 =
            h'.inspectWithin n (id :: path) true e.2 :=
          fun e he =>
            ih _ _ (hsame.closed id _ hid (get?_of_object? hs) e.2 (List.mem_map_of_mem he))
        dsimp only
        rw [mapM_congr fun e he => congrArg _ (hparts e (mem_of_mem_shown he))]
    | _ => rfl

theorem textWithin_congr (hsame : h.SameOn h' P) (n : Nat) (path : List HeapId) {v : Value}
    (hv : ∀ id, v.heapId? = some id → P id) :
    h.textWithin n path v = h'.textWithin n path v := by
  induction n generalizing path v with
  | zero => rfl
  | succ n ih =>
    unfold textWithin
    cases v with
    | array id =>
      have hid : P id := hv id rfl
      dsimp only
      rw [← array?_congr (hsame.slot id hid)]
      cases hs : h.array? id with
      | none => rfl
      | some items =>
        have hparts : ∀ e ∈ items.toList,
            h.textWithin n (id :: path) e = h'.textWithin n (id :: path) e :=
          fun e he => ih _ (hsame.closed id _ hid (get?_of_array? hs) e he)
        dsimp only
        rw [mapM_congr fun e he => by rw [hparts e he]]
    | _ => rfl

/-- Heaps that agree wherever references lead write a value alike. -/
theorem SameOn.texts (hsame : h.SameOn h' P) {v : Value}
    (hv : ∀ id, v.heapId? = some id → P id) (compact : Bool) :
    h.inspect v compact = h'.inspect v compact ∧ h.textOf v = h'.textOf v := by
  let n := max h.size h'.size + 1
  have hn : h.size < n := by omega
  have hn' : h'.size < n := by omega
  constructor
  · have heq := inspectWithin_congr hsame n [] compact hv
    rw [inspectWithin_of_size_lt hn, inspectWithin_of_size_lt hn'] at heq
    exact Option.some.inj heq
  · have heq := textWithin_congr hsame n [] hv
    rw [textWithin_of_size_lt hn, textWithin_of_size_lt hn'] at heq
    exact Option.some.inj heq

end

/-! ### Snapshots -/

theorem lastId_reachable (left : Heap) (pending : List HeapId) (found : Heap) :
    (reachable left pending found).lastId = found.lastId := by
  induction left, pending, found using reachable.induct with
  | case1 left found => rw [reachable_nil]
  | case2 left found id rest hnone ih => rw [reachable_of_none hnone, ih]
  | case3 left found id rest s hs ih =>
    rw [reachable_of_some hs, ih]
    rfl

/-- A snapshot is the same heap for all that is reached. -/
theorem snapshot_sameOn (h : Heap) (roots : List Value) :
    (h.snapshot roots).SameOn h (h.Reaches roots) where
  slot id hr := by
    apply Option.ext
    intro s
    rw [get?_snapshot_iff, and_iff_left hr]
  closed _ _ hr hs _ hv _ hid := .slot hr (snapshot_part h roots _ _ hs) hv hid

/-- A snapshot holds just the slots that are reached from its roots, as they are, and
goes on with the same numbers.  Roots and values in its slots have the same texts in it
as in the whole heap, and these texts are what their rules say, with no more levels than
there are slots. -/
theorem snapshot_faithful (h : Heap) (roots : List Value) :
    (∀ id s, (h.snapshot roots).get? id = some s ↔ h.get? id = some s ∧ h.Reaches roots id) ∧
      (h.snapshot roots).lastId = h.lastId ∧
      (∀ v compact, (v ∈ roots ∨ ∃ id s, (h.snapshot roots).get? id = some s ∧ v ∈ s.values) →
        (h.snapshot roots).inspect v compact = h.inspect v compact ∧
          (h.snapshot roots).textOf v = h.textOf v) ∧
      ∀ v compact n, h.size < n →
        h.inspectWithin n [] compact v = some (h.inspect v compact) ∧
          h.textWithin n [] v = some (h.textOf v) := by
  refine ⟨get?_snapshot_iff h roots, lastId_reachable h _ _, fun v compact hv =>
    ?_, fun v compact n hn => ?_⟩
  · refine (snapshot_sameOn h roots).texts (fun id hid => ?_) compact
    rcases hv with hv | ⟨id', s, hs, hv⟩
    · exact .root hv hid
    · have hr := ((get?_snapshot_iff h roots id' s).1 hs).2
      exact .slot hr (snapshot_part h roots id' s hs) hv hid
  · exact ⟨inspectWithin_of_size_lt hn compact v, textWithin_of_size_lt hn v⟩

/-- An array that holds itself, an object that leads back to it, and a reference
to no slot. -/
def knot : Heap :=
  (((⟨∅, 3⟩ : Heap).set 1 (.array #[.array 1, .object 2, .array 9])).set 2
    (.object (.ofList [("back", .array 1), ("flag", .bool true)]))).set 3 (.array #[])

/-- The object is copied for the array's sake, and the snapshot shows it as the heap does. -/
theorem snapshot_faithful_knot :
    (∃ id s, (knot.snapshot [.array 1]).get? id = some s ∧ .object 2 ∈ s.values) ∧
      knot.size < 4 ∧ (knot.snapshot [.array 1]).inspect (.object 2) false =
      "\x7bback: [[Circular], [Circular], <unknown>], flag: true\x7d" ∧
      (knot.snapshot [.array 1]).textOf (.array 1) = ",[object Object]," := by
  obtain ⟨hslots, -, htexts, hrules⟩ := snapshot_faithful knot [.array 1]
  have hget : (knot.snapshot [.array 1]).get? 1 =
      some (.array #[.array 1, .object 2, .array 9]) :=
    (hslots 1 _).2 ⟨rfl, .root List.mem_cons_self rfl⟩
  have hmem : Value.object 2 ∈ (Slot.array #[.array 1, .object 2, .array 9]).values :=
    List.mem_cons_of_mem _ List.mem_cons_self
  have hsize : knot.size < 4 := by decide
  refine ⟨⟨1, _, hget, hmem⟩, hsize, ?_, ?_⟩
  · rw [(htexts (.object 2) false (.inr ⟨1, _, hget, hmem⟩)).1]
    exact Option.some.inj ((hrules (.object 2) false 4 hsize).1.symm.trans rfl)
  · rw [(htexts (.array 1) false (.inl List.mem_cons_self)).2]
    exact Option.some.inj ((hrules (.array 1) false 4 hsize).2.symm.trans rfl)

end Heap

end ScriptReplay
