/-
Slots and references.

* `Heap.get?_set`, `Heap.get?_alloc` : what a slot holds after a write and after a new slot;
* `Heap.Grown` : every slot is kept, as an array or as an object;
* `Value.RefersIn` : a reference leads to a slot of its kind;
* `Heap.Reaches` : what some values refer to, directly or through slots;
* `Heap.get?_snapshot_iff` : a snapshot holds just the slots that are reached.
-/
import ScriptReplay.Proofs.Actions

namespace ScriptReplay

/-! ### Reads and writes -/

namespace Heap

theorem get?_empty (lastId id : HeapId) : (⟨∅, lastId⟩ : Heap).get? id = none :=
  Std.TreeMap.getElem?_emptyc

theorem get?_set (h : Heap) (id id' : HeapId) (s : Slot) :
    (h.set id s).get? id' = if id' = id then some s else h.get? id' := by
  unfold get? set
  dsimp only
  rw [Std.TreeMap.getElem?_insert]
  by_cases hid : id' = id
  · subst hid
    simp
  · rw [if_neg hid, if_neg]
    simpa using Ne.symm hid

theorem get?_erase (h : Heap) (id id' : HeapId) :
    (h.erase id).get? id' = if id' = id then none else h.get? id' := by
  unfold get? erase
  dsimp only
  rw [Std.TreeMap.getElem?_erase]
  by_cases hid : id' = id
  · subst hid
    simp
  · rw [if_neg hid, if_neg]
    simpa using Ne.symm hid

theorem get?_alloc (h : Heap) (s : Slot) (id : HeapId) :
    (h.alloc s).2.get? id = if id = h.lastId + 1 then some s else h.get? id :=
  get?_set ⟨h.slots, h.lastId + 1⟩ (h.lastId + 1) id s

/-- A write to an array: only that slot changes, and only if it is an array. -/
theorem get?_setArray {h : Heap} {id id' : HeapId} {items : Array Value} {s : Slot}
    (hs : (h.setArray id items).get? id' = some s) :
    h.get? id' = some s ∨ s = .array items ∧ ∃ old, h.get? id' = some (.array old) := by
  unfold setArray at hs
  split at hs
  · next old hold =>
    rw [get?_set] at hs
    split at hs
    · next hid =>
      cases hs
      exact .inr ⟨rfl, old, hid ▸ get?_of_array? hold⟩
    · exact .inl hs
  · exact .inl hs

theorem get?_setObject {h : Heap} {id id' : HeapId} {properties : Table Value} {s : Slot}
    (hs : (h.setObject id properties).get? id' = some s) :
    h.get? id' = some s ∨ s = .object properties ∧ ∃ old,
      h.get? id' = some (.object old) := by
  unfold setObject at hs
  split at hs
  · next old hold =>
    rw [get?_set] at hs
    split at hs
    · next hid =>
      cases hs
      exact .inr ⟨rfl, old, hid ▸ get?_of_object? hold⟩
    · exact .inl hs
  · exact .inl hs

end Heap

/-! ### Kinds of slots -/

/-- Whether a slot is an array; else it is an object. -/
def Slot.isArray : Slot → Bool
  | array _ => true
  | object _ => false

namespace Heap

/-- Every slot of the first heap is in the second, with the same kind. -/
def Grown (h h' : Heap) : Prop :=
  ∀ id s, h.get? id = some s → ∃ s', h'.get? id = some s' ∧ s'.isArray = s.isArray

theorem Grown.refl (h : Heap) : h.Grown h :=
  fun _ s hs => ⟨s, hs, rfl⟩

theorem Grown.trans {h h' h'' : Heap} (hg : h.Grown h') (hg' : h'.Grown h'') :
    h.Grown h'' := by
  intro id s hs
  obtain ⟨s', hs', hk⟩ := hg id s hs
  obtain ⟨s'', hs'', hk'⟩ := hg' id s' hs'
  exact ⟨s'', hs'', hk'.trans hk⟩

theorem grown_set {h : Heap} {id : HeapId} {s s' : Slot} (hs : h.get? id = some s)
    (hk : s'.isArray = s.isArray) : h.Grown (h.set id s') := by
  intro id' t ht
  rw [get?_set]
  by_cases hid : id' = id
  · subst hid
    rw [hs] at ht
    cases ht
    exact ⟨s', if_pos rfl, hk⟩
  · exact ⟨t, (if_neg hid).trans ht, rfl⟩

theorem grown_setArray (h : Heap) (id : HeapId) (items : Array Value) :
    h.Grown (h.setArray id items) := by
  unfold setArray
  split
  · next hold => exact grown_set (get?_of_array? hold) rfl
  · exact .refl h

theorem grown_setObject (h : Heap) (id : HeapId) (properties : Table Value) :
    h.Grown (h.setObject id properties) := by
  unfold setObject
  split
  · next hold => exact grown_set (get?_of_object? hold) rfl
  · exact .refl h

/-- No slot has a number beyond the last one given out. -/
def Bounded (h : Heap) : Prop :=
  ∀ id s, h.get? id = some s → id ≤ h.lastId

theorem bounded_empty : Heap.empty.Bounded := by
  intro id s hs
  rw [Heap.empty, get?_empty] at hs
  cases hs

theorem Bounded.alloc {h : Heap} (hb : h.Bounded) (s : Slot) : (h.alloc s).2.Bounded := by
  intro id t ht
  rw [get?_alloc] at ht
  split at ht
  · next hid => exact Nat.le_of_eq hid
  · exact Nat.le_succ_of_le (hb id t ht)

theorem grown_alloc {h : Heap} (hb : h.Bounded) (s : Slot) : h.Grown (h.alloc s).2 := by
  intro id t ht
  have hid : id ≠ h.lastId + 1 := Nat.ne_of_lt (Nat.lt_succ_of_le (hb id t ht))
  rw [get?_alloc, if_neg hid]
  exact ⟨t, ht, rfl⟩

theorem Bounded.setArray {h : Heap} (hb : h.Bounded) (id : HeapId) (items : Array Value) :
    (h.setArray id items).Bounded := by
  intro id' s hs
  have hlast : (h.setArray id items).lastId = h.lastId := by
    unfold Heap.setArray
    split
    · rfl
    · rfl
  rw [hlast]
  rcases get?_setArray hs with hs | ⟨-, old, hs⟩
  · exact hb id' s hs
  · exact hb id' _ hs

theorem Bounded.setObject {h : Heap} (hb : h.Bounded) (id : HeapId)
    (properties : Table Value) : (h.setObject id properties).Bounded := by
  intro id' s hs
  have hlast : (h.setObject id properties).lastId = h.lastId := by
    unfold Heap.setObject
    split
    · rfl
    · rfl
  rw [hlast]
  rcases get?_setObject hs with hs | ⟨-, old, hs⟩
  · exact hb id' s hs
  · exact hb id' _ hs

end Heap

/-! ### References -/

/-- A reference to an array leads to an array, and one to an object leads to an object. -/
def Value.RefersIn (h : Heap) : Value → Prop
  | array id => ∃ items, h.get? id = some (.array items)
  | object id => ∃ properties, h.get? id = some (.object properties)
  | _ => True

theorem Value.RefersIn.of_isPlain {N : Region} {h : Heap} {v : Value} (hv : v.IsPlain N) :
    v.RefersIn h := by
  cases v with
  | array id => exact hv.elim
  | object id => exact hv.elim
  | _ => exact trivial

theorem Value.RefersIn.grown {h h' : Heap} {v : Value} (hv : v.RefersIn h) (hg : h.Grown h') :
    v.RefersIn h' := by
  cases v with
  | array id =>
    obtain ⟨items, hs⟩ := hv
    obtain ⟨s', hs', hk⟩ := hg id _ hs
    cases s' with
    | array items' => exact ⟨items', hs'⟩
    | object properties => cases hk
  | object id =>
    obtain ⟨properties, hs⟩ := hv
    obtain ⟨s', hs', hk⟩ := hg id _ hs
    cases s' with
    | array items => cases hk
    | object properties' => exact ⟨properties', hs'⟩
  | _ => exact trivial

theorem Slot.refersIn_reference {h : Heap} {id : HeapId} {s : Slot}
    (hs : h.get? id = some s) : (s.reference id).RefersIn h := by
  cases s with
  | array items => exact ⟨items, hs⟩
  | object properties => exact ⟨properties, hs⟩

/-! ### Reachability -/

namespace Heap

/-- The slots that some values refer to, directly or through other slots. -/
inductive Reaches (h : Heap) (roots : List Value) : HeapId → Prop
  | root {v : Value} {id : HeapId} : v ∈ roots → v.heapId? = some id → h.Reaches roots id
  | slot {id id' : HeapId} {s : Slot} {v : Value} :
    h.Reaches roots id → h.get? id = some s → v ∈ s.values →
      v.heapId? = some id' → h.Reaches roots id'

/-- All slots of the first heap are slots of the second, with the same contents. -/
def Part (h h' : Heap) : Prop :=
  ∀ id s, h.get? id = some s → h'.get? id = some s

theorem Part.erase {h h' : Heap} (hp : h.Part h') (id : HeapId) : (h.erase id).Part h' := by
  intro id' s hs
  rw [get?_erase] at hs
  split at hs
  · cases hs
  · exact hp id' s hs

theorem Part.set {h h' : Heap} (hp : h.Part h') {id : HeapId} {s : Slot}
    (hs : h'.get? id = some s) : (h.set id s).Part h' := by
  intro id' s' hs'
  rw [get?_set] at hs'
  split at hs'
  · next hid =>
    cases hs'
    exact hid ▸ hs
  · exact hp id' s' hs'

theorem reachable_nil (left found : Heap) : reachable left [] found = found := by
  rw [reachable]

theorem reachable_of_none {left : Heap} {id : HeapId} (h : left.get? id = none)
    (rest : List HeapId) (found : Heap) :
    reachable left (id :: rest) found = reachable left rest found := by
  rw [reachable]
  split
  · rfl
  · next s hs =>
    rw [h] at hs
    cases hs

theorem reachable_of_some {left : Heap} {id : HeapId} {s : Slot} (h : left.get? id = some s)
    (rest : List HeapId) (found : Heap) :
    reachable left (id :: rest) found =
      reachable (left.erase id) (s.values.filterMap Value.heapId? ++ rest)
        (found.set id s) := by
  rw [reachable]
  split
  · next hs =>
    rw [h] at hs
    cases hs
  · next s' hs =>
    rw [h] at hs
    cases hs
    rfl

/-- The search only finds slots of the heap, and only those with a property that
references pass on. -/
theorem reachable_sound {h : Heap} {P : HeapId → Prop}
    (hP : ∀ id s, P id → h.get? id = some s → ∀ id' ∈ s.values.filterMap Value.heapId?, P id')
    (left : Heap) (pending : List HeapId) (found : Heap) (hleft : left.Part h)
    (hpending : ∀ id ∈ pending, P id) (hfound : found.Part h)
    (hfoundP : ∀ id s, found.get? id = some s → P id) :
    (reachable left pending found).Part h ∧
      ∀ id s, (reachable left pending found).get? id = some s → P id := by
  induction left, pending, found using reachable.induct with
  | case1 left found =>
    rw [reachable_nil]
    exact ⟨hfound, hfoundP⟩
  | case2 left found id rest hnone ih =>
    rw [reachable_of_none hnone]
    exact ih hleft (fun id' h' => hpending id' (List.mem_cons_of_mem _ h')) hfound hfoundP
  | case3 left found id rest s hs ih =>
    have hid : P id := hpending id List.mem_cons_self
    have hsh : h.get? id = some s := hleft id s hs
    -- The slot moves from what is left to what is found, and its references become pending.
    rw [reachable_of_some hs]
    refine ih (hleft.erase id) (fun id' h' => ?_) (hfound.set hsh) fun id' s' hs' => ?_
    · rcases List.mem_append.1 h' with h' | h'
      · exact hP id s hid hsh id' h'
      · exact hpending id' (List.mem_cons_of_mem _ h')
    · rw [get?_set] at hs'
      split at hs'
      · next heq => exact heq ▸ hid
      · exact hfoundP id' s' hs'

/-- The slot with this number is the same in both heaps, if the second has it. -/
def Covers (h h' : Heap) (id : HeapId) : Prop :=
  ∀ s, h'.get? id = some s → h.get? id = some s

theorem covers_set_self {h : Heap} {id : HeapId} {s : Slot} (hs : h.get? id = some s)
    (found : Heap) : (found.set id s).Covers h id := by
  intro s' hs'
  rw [get?_set, if_pos rfl]
  exact hs.symm.trans hs'

/-- What a heap covers stays covered when a slot of the other heap is added. -/
theorem Covers.set {h found : Heap} {id id' : HeapId} {s : Slot} (hcov : found.Covers h id')
    (hs : h.get? id = some s) : (found.set id s).Covers h id' := by
  by_cases hid : id' = id
  · exact hid ▸ covers_set_self hs found
  · intro s' hs'
    rw [get?_set, if_neg hid]
    exact hcov s' hs'

/-- How far the search of a heap has come: what is left and what is found make up the heap,
and what is found refers to nothing but what is pending or found. -/
structure Searching (h left : Heap) (pending : List HeapId) (found : Heap) : Prop where
  left_part : left.Part h
  split : ∀ id s, h.get? id = some s → left.get? id = some s ∨ found.get? id = some s
  closed : ∀ id s, found.get? id = some s → ∀ id' ∈ s.values.filterMap Value.heapId?,
    id' ∈ pending ∨ found.Covers h id'

namespace Searching

variable {h left found : Heap} {id : HeapId} {rest : List HeapId}

/-- The search starts with nothing found. -/
theorem start (h : Heap) (pending : List HeapId) (lastId : HeapId) :
    Searching h h pending ⟨∅, lastId⟩ where
  left_part _ _ hs := hs
  split _ _ hs := .inl hs
  closed id s hs := by
    rw [get?_empty] at hs
    cases hs

/-- A pending slot that is not left was found before, or there is none. -/
theorem covers_of_none {pending : List HeapId} (hs : Searching h left pending found)
    (hnone : left.get? id = none) : found.Covers h id := by
  intro s hid
  rcases hs.split id s hid with hl | hf
  · rw [hnone] at hl
    cases hl
  · exact hf

/-- What is covered need not be pending any more. -/
theorem pending_or {id' : HeapId} (hcov : found.Covers h id)
    (hid : id' ∈ id :: rest ∨ found.Covers h id') : id' ∈ rest ∨ found.Covers h id' := by
  rcases hid with hid | hid
  · rcases List.mem_cons.1 hid with rfl | hid
    · exact .inr hcov
    · exact .inl hid
  · exact .inr hid

/-- A step past a number whose slot is not left. -/
theorem skip (hs : Searching h left (id :: rest) found) (hnone : left.get? id = none) :
    Searching h left rest found where
  left_part := hs.left_part
  split := hs.split
  closed id₁ s hid₁ id' hid' :=
    pending_or (hs.covers_of_none hnone) (hs.closed id₁ s hid₁ id' hid')

/-- A step that moves a slot from what is left to what is found; its references
become pending. -/
theorem move {s : Slot} (hs : Searching h left (id :: rest) found)
    (hleft : left.get? id = some s) :
    Searching h (left.erase id) (s.values.filterMap Value.heapId? ++ rest)
      (found.set id s) where
  left_part := hs.left_part.erase id
  split id' s' hs' := by
    rw [get?_erase, get?_set]
    by_cases hid : id' = id
    · subst hid
      exact .inr ((if_pos rfl).trans ((hs.left_part id' s hleft).symm.trans hs'))
    · rw [if_neg hid, if_neg hid]
      exact hs.split id' s' hs'
  closed id₁ s₁ hs₁ id' hid' := by
    have hid := hs.left_part id s hleft
    rw [get?_set] at hs₁
    split at hs₁
    · cases hs₁
      exact .inl (List.mem_append_left _ hid')
    · have hmem : id' ∈ id :: rest ∨ (found.set id s).Covers h id' :=
        (hs.closed id₁ s₁ hs₁ id' hid').imp_right fun hcov => hcov.set hid
      exact (pending_or (covers_set_self hid found) hmem).imp_left (List.mem_append_right _)

end Searching

/-- The search finds all slots that are pending at its start or found before, and all slots
that the slots found refer to. -/
theorem reachable_complete {h : Heap} (left : Heap) (pending : List HeapId) (found : Heap)
    (hs : Searching h left pending found) :
    (∀ id, id ∈ pending ∨ found.Covers h id → (reachable left pending found).Covers h id) ∧
      ∀ id s, (reachable left pending found).get? id = some s →
        ∀ id' ∈ s.values.filterMap Value.heapId?,
          (reachable left pending found).Covers h id' := by
  induction left, pending, found using reachable.induct with
  | case1 left found =>
    rw [reachable_nil]
    refine ⟨fun id hid => hid.resolve_left List.not_mem_nil, fun id s hid id' hid' => ?_⟩
    exact (hs.closed id s hid id' hid').resolve_left List.not_mem_nil
  | case2 left found id rest hnone ih =>
    rw [reachable_of_none hnone]
    obtain ⟨hpend, hrefs⟩ := ih (hs.skip hnone)
    exact ⟨fun id' hid' =>
      hpend id' (Searching.pending_or (hs.covers_of_none hnone) hid'), hrefs⟩
  | case3 left found id rest s hsome ih =>
    have hid : h.get? id = some s := hs.left_part id s hsome
    rw [reachable_of_some hsome]
    obtain ⟨hpend, hrefs⟩ := ih (hs.move hsome)
    refine ⟨fun id' hid' => hpend id' ?_, hrefs⟩
    have hmem : id' ∈ id :: rest ∨ (found.set id s).Covers h id' :=
      hid'.imp_right fun hcov => hcov.set hid
    exact (Searching.pending_or (covers_set_self hid found) hmem).imp_left
      (List.mem_append_right _)

/-! ### Snapshots -/

theorem snapshot_part (h : Heap) (roots : List Value) : (h.snapshot roots).Part h := by
  refine (reachable_sound (P := fun _ => True) (fun _ _ _ _ _ _ => trivial) h _ _
    (fun _ _ hs => hs) (fun _ _ => trivial) (fun id s hs => ?_) fun _ _ _ => trivial).1
  rw [get?_empty] at hs
  cases hs

theorem reaches_of_get?_snapshot {h : Heap} {roots : List Value} {id : HeapId} {s : Slot}
    (hs : (h.snapshot roots).get? id = some s) : h.Reaches roots id := by
  refine (reachable_sound (P := h.Reaches roots) (fun id s hr hs id' hid' => ?_) h _ _
    (fun _ _ hs => hs) (fun id hid => ?_) (fun id s hs => ?_) fun id s hs => ?_).2 id s hs
  · obtain ⟨v, hv, hid'⟩ := List.mem_filterMap.1 hid'
    exact .slot hr hs hv hid'
  · obtain ⟨v, hv, hid⟩ := List.mem_filterMap.1 hid
    exact .root hv hid
  · rw [get?_empty] at hs
    cases hs
  · rw [get?_empty] at hs
    cases hs

/-- A snapshot has the slots that its roots refer to, and those that its slots refer to. -/
theorem snapshot_covers (h : Heap) (roots : List Value) :
    (∀ v ∈ roots, ∀ id, v.heapId? = some id → (h.snapshot roots).Covers h id) ∧
      ∀ id s, (h.snapshot roots).get? id = some s → ∀ v ∈ s.values, ∀ id',
        v.heapId? = some id' → (h.snapshot roots).Covers h id' := by
  obtain ⟨hpend, hrefs⟩ :=
    reachable_complete h (roots.filterMap Value.heapId?) ⟨∅, h.lastId⟩ (.start h _ _)
  refine ⟨fun v hv id hid => ?_, fun id s hs v hv id' hid' => ?_⟩
  · exact hpend id (.inl (List.mem_filterMap.2 ⟨v, hv, hid⟩))
  · exact hrefs id s hs id' (List.mem_filterMap.2 ⟨v, hv, hid'⟩)

/-- What is reached in a heap is reached in the snapshot. -/
theorem Reaches.snapshot {h : Heap} {roots : List Value} {id : HeapId}
    (hr : h.Reaches roots id) :
    (h.snapshot roots).Reaches roots id ∧ (h.snapshot roots).Covers h id := by
  obtain ⟨hroots, hslots⟩ := snapshot_covers h roots
  induction hr with
  | root hv hid => exact ⟨.root hv hid, hroots _ hv _ hid⟩
  | slot _ hs hv hid ih =>
    have hs' := ih.2 _ hs
    exact ⟨.slot ih.1 hs' hv hid, hslots _ _ hs' _ hv _ hid⟩

/-- A snapshot holds just the slots that are reached. -/
theorem get?_snapshot_iff (h : Heap) (roots : List Value) (id : HeapId) (s : Slot) :
    (h.snapshot roots).get? id = some s ↔ h.get? id = some s ∧ h.Reaches roots id := by
  constructor
  · exact fun hs => ⟨snapshot_part h roots id s hs, reaches_of_get?_snapshot hs⟩
  · exact fun ⟨hs, hr⟩ => hr.snapshot.2 s hs

end Heap

end ScriptReplay
