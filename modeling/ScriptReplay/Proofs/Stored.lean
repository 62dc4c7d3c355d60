/-
What is stored after an action.

An action stores no values but those that it is given, and what it does not write stays.

* `Machine.Holds.of_apply`, `Machine.Holds.of_allocated`, `Machine.Holds.of_pushed` : where
  the values of the new state come from;
* `Machine.holds_of_step` : where the values that a step shows come from.
-/
import ScriptReplay.Proofs.Discipline
import ScriptReplay.Proofs.Heap

namespace ScriptReplay

/-! ### Frames -/

theorem Frame.mem_values_bind {f : Frame} {name : String} {value v : Value}
    (h : v ∈ (f.bind name value).values) : v ∈ f.values ∨ v = value := by
  unfold Frame.bind at h
  unfold Frame.values at h ⊢
  have hinsert :=
    fun t : Table Value => Table.mem_values_insert (t := t) (k := name) (a := value) (b := v)
  split at h
  · grind
  · grind

theorem CallStack.mem_modifyOwner {scope : ScopeId} {g : Frame → Frame} {frames : List Frame}
    {f : Frame} (h : f ∈ CallStack.modifyOwner scope g frames) :
    f ∈ frames ∨ ∃ f' ∈ frames, f = g f' := by
  induction frames with
  | nil => exact .inl h
  | cons f' rest ih =>
    unfold CallStack.modifyOwner at h
    split at h
    · rcases List.mem_cons.1 h with rfl | h
      · exact .inr ⟨f', List.mem_cons_self, rfl⟩
      · exact .inl (List.mem_cons_of_mem _ h)
    · rcases List.mem_cons.1 h with rfl | h
      · exact .inl List.mem_cons_self
      · rcases ih h with h | ⟨f'', hf, rfl⟩
        · exact .inl (List.mem_cons_of_mem _ h)
        · exact .inr ⟨f'', List.mem_cons_of_mem _ hf, rfl⟩

theorem CallStack.mem_setResult {s : CallStack} {f : Frame} {value v : Value}
    (hf : f ∈ (s.setResult value).frames) (hv : v ∈ f.values) :
    (∃ f' ∈ s.frames, v ∈ f'.values) ∨ v = value := by
  unfold CallStack.setResult at hf
  split at hf
  · exact .inl ⟨f, hf, hv⟩
  · next f' rest hs =>
    rcases List.mem_cons.1 hf with rfl | hf
    · unfold Frame.values at hv
      rcases List.mem_append.1 hv with hv | hv
      · exact .inl ⟨f', hs ▸ List.mem_cons_self, List.mem_append_left _ hv⟩
      · exact .inr (List.mem_singleton.1 hv)
    · exact .inl ⟨f, hs ▸ List.mem_cons_of_mem _ hf, hv⟩

/-! ### Values -/

theorem Prototypes.mem_insert {p : Prototypes} {family family' : Family} {name : String}
    {value v : Value} (h : v ∈ ((p.insert family name value).ofFamily family').values) :
    v ∈ (p.ofFamily family').values ∨ v = value := by
  cases family with
  | array =>
    cases family' with
    | array => exact (Table.mem_values_insert h).symm
    | _ => exact .inl h
  | object =>
    cases family' with
    | object => exact (Table.mem_values_insert h).symm
    | _ => exact .inl h
  | text =>
    cases family' with
    | text => exact (Table.mem_values_insert h).symm
    | _ => exact .inl h

namespace Machine.Holds

variable {m : Machine} {v : Value}

/-- A state with the same scopes, slots and methods, and no more frames. -/
theorem of_eq {m' : Machine} (h : m'.Holds v) (hheap : m'.heap = m.heap)
    (hscopes : m'.scopes = m.scopes) (hframes : ∀ f ∈ m'.stack.frames, f ∈ m.stack.frames)
    (hmethods : m'.prototypes = m.prototypes) : m.Holds v := by
  cases h with
  | slot hs hv => exact .slot (hheap ▸ hs) hv
  | scope hs hb => exact .scope (hscopes ▸ hs) hb
  | frame hf hv => exact .frame (hframes _ hf) hv
  | method hv => exact .method (hmethods ▸ hv)

theorem of_declare {scope : ScopeId} {name : String} {value : Value} {isConst : Bool}
    (h : Machine.Holds { m with scopes := m.scopes.declare scope name value isConst } v) :
    m.Holds v ∨ v = value := by
  cases h with
  | slot hs hv => exact .inl (.slot hs hv)
  | scope hs hb =>
    rw [Scopes.get?_declare] at hs
    split at hs
    · obtain ⟨s', hs', rfl⟩ := Option.map_eq_some_iff.1 hs
      rcases Table.mem_values_insert hb with rfl | hb
      · exact .inr rfl
      · exact .inl (.scope hs' hb)
    · exact .inl (.scope hs hb)
  | frame hf hv => exact .inl (.frame hf hv)
  | method hv => exact .inl (.method hv)

theorem of_showBinding {scope : ScopeId} {name : String} {value : Value}
    (h : (m.showBinding scope name value).Holds v) : m.Holds v ∨ v = value := by
  unfold Machine.showBinding at h
  split at h
  · cases h with
    | slot hs hv => exact .inl (.slot hs hv)
    | scope hs hb => exact .inl (.scope hs hb)
    | frame hf hv =>
      rcases CallStack.mem_modifyOwner hf with hf' | ⟨f', hf', rfl⟩
      · exact .inl (.frame hf' hv)
      · rcases Frame.mem_values_bind hv with hv | h
        · exact .inl (.frame hf' hv)
        · exact .inr h
    | method hv => exact .inl (.method hv)
  · exact .inl h

theorem of_heap {heap : Heap} {values : List Value}
    (h : Machine.Holds { m with heap := heap } v)
    (hheap : ∀ id s, heap.get? id = some s → v ∈ s.values →
      (∃ s', m.heap.get? id = some s' ∧ v ∈ s'.values) ∨ v ∈ values) :
    m.Holds v ∨ v ∈ values := by
  cases h with
  | slot hs hv =>
    rcases hheap _ _ hs hv with ⟨s', hs', hv'⟩ | hv
    · exact .inl (.slot hs' hv')
    · exact .inr hv
  | scope hs hb => exact .inl (.scope hs hb)
  | frame hf hv => exact .inl (.frame hf hv)
  | method hv => exact .inl (.method hv)

/-- A change stores no values but its own. -/
theorem of_apply {c : Change} (h : (c.apply m).Holds v) : m.Holds v ∨ v ∈ c.values := by
  have hsingle : ∀ value : Value, m.Holds v ∨ v = value → m.Holds v ∨ v ∈ [value] :=
    fun value h => h.imp id fun h => List.mem_singleton.2 h
  cases c with
  | declare scope name value => exact hsingle value (of_declare h)
  | bind scope name value isConst =>
    rcases of_showBinding h with h | h
    · exact hsingle value (of_declare h)
    · exact hsingle value (.inr h)
  | setArray id items =>
    refine of_heap h fun id' s hs hv => ?_
    rcases Heap.get?_setArray hs with hs | ⟨rfl, -⟩
    · exact .inl ⟨s, hs, hv⟩
    · exact .inr hv
  | setObject id properties =>
    refine of_heap h fun id' s hs hv => ?_
    rcases Heap.get?_setObject hs with hs | ⟨rfl, -⟩
    · exact .inl ⟨s, hs, hv⟩
    · exact .inr hv
  | print line => exact .inl (of_eq h rfl rfl (fun _ hf => hf) rfl)
  | moveTo loc => exact .inl (of_eq h rfl rfl (fun _ hf => hf) rfl)
  | setResult value =>
    refine hsingle value ?_
    cases h with
    | slot hs hv => exact .inl (.slot hs hv)
    | scope hs hb => exact .inl (.scope hs hb)
    | frame hf hv =>
      rcases CallStack.mem_setResult hf hv with ⟨f', hf', hv'⟩ | h
      · exact .inl (.frame hf' hv')
      · exact .inr h
    | method hv => exact .inl (.method hv)
  | addMethod family name value =>
    refine hsingle value ?_
    cases h with
    | slot hs hv => exact .inl (.slot hs hv)
    | scope hs hb => exact .inl (.scope hs hb)
    | frame hf hv => exact .inl (.frame hf hv)
    | method hv =>
      rcases Prototypes.mem_insert hv with hv | h
      · exact .inl (.method hv)
      · exact .inr h

theorem of_allocated {s : Slot} (h : (m.allocated s).Holds v) : m.Holds v ∨ v ∈ s.values := by
  refine of_heap h fun id s' hs' hv => ?_
  rw [Heap.get?_alloc] at hs'
  split at hs'
  · cases hs'
    exact .inr hv
  · exact .inl ⟨s', hs', hv⟩

theorem of_inScope {kind : ScopeKind} {name : String} {chain : Chain}
    (h : (m.inScope kind name chain).Holds v) : m.Holds v := by
  cases h with
  | slot hs hv => exact .slot hs hv
  | scope hs hb =>
    unfold Machine.inScope at hs
    rw [Scopes.get?_openScope] at hs
    split at hs
    · cases hs
      cases hb
    · exact .scope hs hb
  | frame hf hv => exact .frame hf hv
  | method hv => exact .method hv

theorem of_pushed {shown : String} {params : Table Value} {loc : Location} {line : Nat}
    {scope : ScopeId} (h : (m.pushed shown params loc line scope).Holds v) :
    m.Holds v ∨ v ∈ params.values := by
  cases h with
  | slot hs hv => exact .inl (.slot hs hv)
  | scope hs hb => exact .inl (.scope hs hb)
  | frame hf hv =>
    rcases List.mem_cons.1 hf with rfl | hf
    · refine .inr ?_
      simpa [Frame.values, Table.empty, Table.values] using hv
    · exact .inl (.frame hf hv)
  | method hv => exact .inl (.method hv)

theorem of_back {chain : Chain} {stack : CallStack}
    (hstack : stack = m.stack ∨ stack = m.stack.pop)
    (h : Machine.Holds { m with chain := chain, stack := stack } v) : m.Holds v := by
  refine of_eq h rfl rfl (fun f hf => ?_) rfl
  rcases hstack with rfl | rfl
  · exact hf
  · exact List.mem_of_mem_tail hf

/-- The first state of a run holds nothing. -/
theorem not_initial (L : RunLimits) : ¬ (Machine.initial L).Holds v := by
  intro h
  cases h with
  | slot hs hv =>
    rw [Machine.initial, Heap.empty, Heap.get?_empty] at hs
    cases hs
  | @scope id s b hs hb =>
    have hid := Scopes.lt_size_of_get? hs
    obtain rfl : id = 0 := Nat.lt_one_iff.1 hid
    cases hs
    cases hb
  | frame hf hv => cases hf
  | @method f v hv =>
    cases f with
    | _ => cases hv

end Machine.Holds

/-- The values that a step shows as roots are stored in the state that it shows. -/
theorem Machine.holds_of_mem_roots {m : Machine} {v : Value}
    (h : v ∈ Machine.roots (m.scopes.snapshot m.chain) m.stack) : m.Holds v := by
  unfold Machine.roots at h
  rcases List.mem_append.1 h with h | h
  · obtain ⟨scope, hscope, hv⟩ := List.mem_flatMap.1 h
    obtain ⟨id, -, hs⟩ := List.mem_filterMap.1 hscope
    have hvalues : scope.values.values = scope.vars.values.map (·.value) := by
      simp [Scope.values, Table.mapValues, Table.values]
    rw [hvalues] at hv
    obtain ⟨b, hb, rfl⟩ := List.mem_map.1 hv
    exact .scope hs hb
  · obtain ⟨f, hf, hv⟩ := List.mem_flatMap.1 h
    exact .frame (List.mem_reverse.1 hf) hv

/-- A value that a step shows: a variable of a scope, a parameter, a name or the result in a
frame, or in a slot of the heap. -/
inductive Step.Holds (s : Step) : Value → Prop
  | scope {scope : Scope} {v : Value} : scope ∈ s.scopes → v ∈ scope.values.values → s.Holds v
  | frame {f : Frame} {v : Value} : f ∈ s.stack.toList → v ∈ f.values → s.Holds v
  | slot {id : HeapId} {slot : Slot} {v : Value} : s.heap.get? id = some slot →
      v ∈ slot.values → s.Holds v

/-- All that a step shows is stored in the state that it shows. -/
theorem Machine.holds_of_step {m : Machine} {kind : StepKind} {loc : Location}
    {description : String} {v : Value} (h : (m.step kind loc description).Holds v) :
    m.Holds v := by
  cases h with
  | scope hscope hv =>
    exact m.holds_of_mem_roots (List.mem_append_left _ (List.mem_flatMap.2 ⟨_, hscope, hv⟩))
  | frame hf hv =>
    exact m.holds_of_mem_roots (List.mem_append_right _ (List.mem_flatMap.2 ⟨_, hf, hv⟩))
  | slot hs hv => exact .slot (Heap.snapshot_part m.heap _ _ _ hs) hv

end ScriptReplay
