/-
The actions of names, properties and the functions of the language.

Every function below reaches values and bindings without evaluating anything.  Each lemma says
that it is made of actions, given that the values handed to it are at hand.
-/
import ScriptReplay.Proofs.Actions
import ScriptReplay.Run.Property

namespace ScriptReplay

variable {G : Gap} {N : Region} {K : Stock N} {loc : Location}

/-! ### Texts and numbers of values -/

/-- An answer that is read off the heap and brings no values with it. -/
theorem readHeap_acts {α : Type} [Carries α] (f : Heap → α)
    (hf : ∀ h, Carries.within K.has (f h)) :
    Acts G K (do return f (← get).heap) (do return f (← get).heap) := by
  refine .peek fun m m' e => ?_
  rw [e.heap]
  exact .pure (hf m.heap)

theorem inspect_acts (v : Value) : Acts G K (inspect v) (inspect v) :=
  readHeap_acts (·.inspect v false) fun _ => trivial

theorem inspectAll_acts (vs : List Value) : Acts G K (inspectAll vs) (inspectAll vs) :=
  readHeap_acts (fun h => ", ".intercalate (vs.map fun v => h.inspect v false)) fun _ =>
    trivial

theorem plainOf_acts (v : Value) : Acts G K (plainOf v) (plainOf v) :=
  readHeap_acts (·.textOf v) fun _ => trivial

theorem numberOf_acts (v : Value) : Acts G K (numberOf v) (numberOf v) :=
  readHeap_acts (·.numberOf v) fun _ => trivial

/-- Something that depends on the words for a value. -/
theorem inspecting_acts {α : Type} [Carries α] {f g : String → Run α} (v : Value)
    (hf : ∀ h : Heap, Acts G K (f (h.inspect v false)) (g (h.inspect v false))) :
    Acts G K (inspect v >>= f) (inspect v >>= g) := by
  show Acts G K (get >>= fun m => f (m.heap.inspect v false))
    (get >>= fun m => g (m.heap.inspect v false))
  refine .peek fun m m' e => ?_
  rw [e.heap]
  exact hf m.heap

/-- A step that tells of a value, and an answer. -/
theorem tell_acts {α : Type} [Carries α] {a : α} {kind : StepKind} {text : String → String}
    {v : Value} (hk : kind.isStraight = true) (hloc : N.Place loc)
    (ha : Carries.within K.has a) :
    Acts G K (do let s ← inspect v; record kind loc (text s); return a)
      (do let s ← inspect v; record kind loc (text s); return a) := by
  refine .andThen (inspect_acts v) fun s => ?_
  refine .andThen (.record (.of_kind hk) hloc) fun _ => ?_
  exact .pure ha

/-! ### Ceilings on sizes -/

/-- A test of a size against a ceiling, and what follows if the size is not above it. -/
theorem ceiling_then_acts {α : Type} [Carries α] {limit : RunLimits → Nat}
    {cause : Nat → Cause} {size : Nat} {x y : Run α}
    (hlimit : ∀ L L' : RunLimits, L ≤ L' → limit L ≤ limit L')
    (hsteps : ∀ (L : RunLimits) n, limit { L with maxSteps := n } = limit L)
    (hc : ∀ n, (cause n).isLimit = true) (hloc : N.Place loc)
    (hxy : ∀ L : RunLimits, N.Allows L → size ≤ limit L → Acts G K x y)
    (hyy : ∀ L : RunLimits, N.Allows L → size ≤ limit L → Acts G K y y) :
    Acts G K
      (read >>= fun L =>
        (if limit L < size then failAt (cause (limit L)) loc else pure ()) >>= fun _ => x)
      (read >>= fun L => (if limit L < size then failAt (cause (limit L)) loc
        else pure ()) >>= fun _ => y) := by
  refine .ceilings fun L L' hL hfit hfit' => ?_
  by_cases h : limit L < size
  · rw [if_pos h, Run.failAt_bind]
    rcases hL.eq_or_raised hsteps with heq | hG
    · rw [← heq, if_pos h, Run.failAt_bind]
      exact .fail hloc
    · -- The second run fails at its own ceiling, or goes on alone.
      refine .stopAtCeiling hG (hc _) hloc ?_
      by_cases h' : limit L' < size
      · rw [if_pos h', Run.failAt_bind]
        exact .fail hloc
      · rw [if_neg h', pure_bind]
        exact hyy L' hfit' (Nat.le_of_not_lt h')
  · have h' : ¬ limit L' < size := fun h' => h (Nat.lt_of_le_of_lt (hlimit L L' hL.le) h')
    rw [if_neg h, if_neg h', pure_bind, pure_bind]
    exact hxy L hfit (Nat.le_of_not_lt h)

/-- An array of the length that was tested can be made. -/
theorem checkArrayLength_then_acts {α : Type} [Carries α] {length : Nat} {x : Run α}
    (hloc : N.Place loc) (hx : N.fits length → Acts G K x x) :
    Acts G K (do checkArrayLength length loc; x) (do checkArrayLength length loc; x) := by
  have hgo : ∀ L : RunLimits, N.Allows L → length ≤ L.maxArrayLength → Acts G K x x :=
    fun L hL hle => hx (N.fits_le hle hL.fits)
  unfold checkArrayLength
  rw [bind_assoc]
  exact ceiling_then_acts (fun _ _ h => h.maxArrayLength) (fun _ _ => rfl)
    (fun _ => rfl) hloc hgo hgo

theorem checkLength_then_acts {α : Type} [Carries α] {length : Nat} {x : Run α}
    (hloc : N.Place loc) (hx : N.fits length → Acts G K x x) :
    Acts G K (do checkLength length loc; x) (do checkLength length loc; x) := by
  unfold checkLength
  split
  · rw [Run.failAt_bind]
    exact .fail hloc
  · exact checkArrayLength_then_acts hloc hx

theorem requestedLength_then_acts {α : Type} [Carries α] (x : Float) {f : Nat → Run α}
    (hloc : N.Place loc) (hf : ∀ length, N.fits length → Acts G K (f length) (f length)) :
    Acts G K (requestedLength x loc >>= f) (requestedLength x loc >>= f) := by
  unfold requestedLength
  split
  · rw [Run.failAt_bind]
    exact .fail hloc
  · rw [bind_assoc]
    refine checkLength_then_acts hloc fun hfit => ?_
    rw [pure_bind]
    exact hf _ hfit

/-- A text of the length that was tested can be made. -/
theorem checkTextLength_then_acts {α : Type} [Carries α] {length : Nat} {x : Run α}
    (hloc : N.Place loc) (hx : N.spans length → Acts G K x x) :
    Acts G K (do checkTextLength length loc; x) (do checkTextLength length loc; x) := by
  have hgo : ∀ L : RunLimits, N.Allows L → length ≤ L.maxStringLength → Acts G K x x :=
    fun L hL hle => hx (N.spans_le hle hL.spans)
  unfold checkTextLength
  rw [bind_assoc]
  exact ceiling_then_acts (fun _ _ h => h.maxStringLength) (fun _ _ => rfl)
    (fun _ => rfl) hloc hgo hgo

/-- Booleans, numbers and texts that are as long as they may be, and undefined. -/
def Value.Spans (N : Region) : Value → Prop
  | .string s => N.spans (unitCount s)
  | _ => True

/-- A value that was tested can be stored if it is a text. -/
theorem checkText_then_acts {α : Type} [Carries α] {v : Value} {x : Run α}
    (hloc : N.Place loc) (hx : v.Spans N → Acts G K x x) :
    Acts G K (do checkText v loc; x) (do checkText v loc; x) := by
  cases v with
  | string s => exact checkTextLength_then_acts hloc hx
  | _ =>
    show Acts G K (pure () >>= fun _ => x) (pure () >>= fun _ => x)
    rw [pure_bind]
    exact hx trivial

/-! ### Names -/

theorem isBound_acts (name : String) : Acts G K (isBound name) (isBound name) := by
  refine .peek fun m m' e => ?_
  rw [e.chain, Scopes.resolve?_nameless e.scopes]
  exact .pure trivial

theorem bind_acts {value : Value} (scope : ScopeId) (name : String) (isConst : Bool)
    (hv : K.has value) :
    Acts G K (modify (Change.bind scope name value isConst).apply)
      (modify (Change.bind scope name value isConst).apply) := by
  refine .change _ ?_ trivial trivial
  intro v h
  rw [List.mem_singleton.1 h]
  exact hv

/-- The scope that a declaration binds its name in. -/
def Machine.bindingScope (m : Machine) (kind : DeclKind) : ScopeId :=
  match kind with
  | .var => m.scopes.functionScope m.chain
  | .letK | .const => m.chain.headD Scopes.globalId

theorem declareName_eq (kind : DeclKind) (name : String) (value : Value) :
    declareName kind name value = (do
      let m ← get
      modify (Change.bind (m.bindingScope kind) name value (kind == .const)).apply) := rfl

theorem declareName_acts {value : Value} (kind : DeclKind) (name : String)
    (hv : K.has value) :
    Acts G K (declareName kind name value) (declareName kind name value) := by
  rw [declareName_eq]
  refine .peek fun m m' e => ?_
  have hscope : m'.bindingScope kind = m.bindingScope kind := by
    unfold Machine.bindingScope
    rw [e.chain, Scopes.functionScope_nameless e.scopes]
  -- Where a name is bound does not depend on what the scopes are called.
  rw [hscope]
  exact bind_acts _ _ _ hv

theorem isPlain_languageName {name : String}
    (hfree : name = "String" → ∀ length, N.spans length) : (languageName name).IsPlain N := by
  have hnative : ∀ name ∈ globalNatives, unitCount name ≤ 64 ∧ listsEntries name = false ∧
      (writesFreely name = true → name = "String") := by decide +kernel
  unfold languageName
  split
  · exact trivial
  split
  · exact trivial
  split
  · next hname =>
    obtain ⟨hshort, hlists, hwrites⟩ := hnative name (List.contains_iff_mem.1 hname)
    refine ⟨N.spans_of_short hshort, fun h => ?_, fun h => hfree (hwrites h)⟩
    rw [hlists] at h
    cases h
  · exact trivial

/-- A function that is a member of a name of the language is known by the two names. -/
theorem eq_native_of_languageMember? {owner member : String} {f : Callable}
    (h : languageMember? owner member = some (.function f)) :
    f = .native (owner ++ "." ++ member) := by
  unfold languageMember? at h
  grind

/-- The functions of the language have short names. -/
theorem unitCount_languageMember? {owner member : String} {f : Callable}
    (h : languageMember? owner member = some (.function f)) :
    unitCount (owner ++ "." ++ member) ≤ 64 := by
  have hshort : ∀ name ∈ memberNatives, unitCount name ≤ 64 := by decide +kernel
  unfold languageMember? at h
  grind

theorem isPlain_languageMember {e : Expr} (he : N.has (.expr e)) {owner member : String}
    (hs : e.staticMember? = some (owner, member)) {v : Value}
    (h : languageMember? owner member = some v) : v.IsPlain N := by
  cases v with
  | function f =>
    rw [eq_native_of_languageMember? h]
    refine ⟨N.spans_of_short (unitCount_languageMember? h), N.lists he hs,
      fun hwrites => N.free he ?_⟩
    exact Expr.writesFreely_of_staticMember? hs hwrites
  | array id =>
    unfold languageMember? at h
    grind
  | object id =>
    unfold languageMember? at h
    grind
  | string s =>
    unfold languageMember? at h
    grind
  | _ => exact trivial

theorem Table.mem_values_of_get? {α : Type} {t : Table α} {k : String} {a : α}
    (h : t.get? k = some a) : a ∈ t.values := by
  unfold Table.get? at h
  unfold Table.values
  generalize t.entries = es at h ⊢
  induction es with
  | nil => cases h
  | cons e rest ih => grind [findPair]

/-- A value found under a name is stored in a scope. -/
theorem Machine.holds_of_lookup? {m : Machine} {name : String} {v : Value}
    (h : m.scopes.lookup? m.chain name = some v) : m.Holds v := by
  unfold Scopes.lookup? at h
  obtain ⟨id, -, h⟩ := Option.bind_eq_some_iff.1 h
  obtain ⟨scope, hscope, h⟩ := Option.bind_eq_some_iff.1 h
  obtain ⟨b, hb, rfl⟩ := Option.map_eq_some_iff.1 h
  exact .scope hscope (Table.mem_values_of_get? hb)

theorem readName_acts {name : String} (hfree : name = "String" → ∀ length, N.spans length) :
    Acts G K (readName name) (readName name) := by
  refine .look fun m m' K' e hK hm _ => ?_
  rw [e.chain, Scopes.lookup?_nameless e.scopes]
  refine .pure ?_
  cases h : m.scopes.lookup? m.chain name with
  | none => exact K'.plain (isPlain_languageName hfree)
  | some v => exact hm v (Machine.holds_of_lookup? h)

theorem assignName_eq (name : String) (value : Value) (loc : Location) :
    assignName name value loc = (do
      let m ← get
      let scope := (m.scopes.resolve? m.chain name).getD Scopes.globalId
      if m.scopes.isConst scope name then failAt (.constAssignment name) loc
      else modify (Change.bind scope name value false).apply) := by
  refine Run.ext fun limits m => ?_
  -- An assignment is refused just where the name is a constant.
  simp only [assignName, Scopes.assign?, Run.outcome_get_bind]
  split
  · next hs =>
    split at hs
    · cases hs
    · next hc =>
      cases hs
      rw [if_neg hc]
      rfl
  · next hs =>
    split at hs
    · next hc =>
      rw [if_pos hc]
    · cases hs

theorem assignName_acts {value : Value} (name : String) (hv : K.has value)
    (hloc : N.Place loc) :
    Acts G K (assignName name value loc) (assignName name value loc) := by
  rw [assignName_eq]
  refine .peek fun m m' e => ?_
  simp only [e.chain, Scopes.resolve?_nameless e.scopes, Scopes.isConst_nameless e.scopes]
  split
  · exact .fail hloc
  · exact bind_acts _ _ _ hv

theorem hoist_acts {body : List Stmt} (hb : ∀ s ∈ body, N.has (.stmt s)) :
    Acts G K (hoist body) (hoist body) := by
  induction body with
  | nil => exact .pure trivial
  | cons s rest ih =>
    have hrest := ih fun s' h => hb s' (List.mem_cons_of_mem _ h)
    cases s with
    | function r l =>
      have hr : N.has (.routine r) :=
        N.part (hb _ List.mem_cons_self) (by simp [Node.parts, Stmt.parts])
      unfold hoist
      cases r.name with
      | none => exact hrest
      | some name =>
        refine .bind (.makeFunction hr (by simp)) fun v K' hK hv => ?_
        refine .andThen (declareName_acts _ _ hv) fun _ => ?_
        exact hrest.weaken hK
    | _ => exact hrest

/-! ### Properties -/

theorem Heap.mem_elements {h : Heap} {id : HeapId} {v : Value} (hv : v ∈ h.elements id) :
    ∃ s, h.get? id = some s ∧ v ∈ s.values := by
  unfold Heap.elements at hv
  cases ha : h.array? id with
  | none => simp [ha] at hv
  | some items =>
    refine ⟨.array items, Heap.get?_of_array? ha, ?_⟩
    simpa [ha, Slot.values] using hv

theorem Machine.holds_of_mem_elements {m : Machine} {id : HeapId} {v : Value}
    (hv : v ∈ m.heap.elements id) : m.Holds v := by
  obtain ⟨s, hs, hv⟩ := Heap.mem_elements hv
  exact .slot hs hv

theorem Machine.holds_of_mem_object {m : Machine} {id : HeapId} {properties : Table Value}
    {v : Value} (h : m.heap.object? id = some properties) (hv : v ∈ properties.values) :
    m.Holds v :=
  .slot (Heap.get?_of_object? h) hv

theorem Machine.holds_of_method? {m : Machine} {family : Family} {name : String}
    {f : Callable} (h : m.prototypes.method? family name = some f) :
    m.Holds (.function f) := by
  unfold Prototypes.method? at h
  split at h
  · next g hg =>
    cases h
    exact .method (Table.mem_values_of_get? hg)
  · cases h

theorem addedMethod_has {m : Machine} (hm : ∀ v, m.Holds v → K.has v) (family : Family)
    (name : String) : K.has (addedMethod m.prototypes family name) := by
  unfold addedMethod
  split
  · next f hf => exact hm _ (Machine.holds_of_method? hf)
  · exact K.plain trivial

theorem arrayProperty_has {m : Machine} (hm : ∀ v, m.Holds v → K.has v) (id : HeapId)
    (key : String) : K.has (arrayProperty m.prototypes (m.heap.elements id) key) := by
  unfold arrayProperty
  split
  · next i _ =>
    cases hi : (m.heap.elements id)[i]? with
    | none => exact K.plain trivial
    | some v => exact hm v (Machine.holds_of_mem_elements (Array.mem_of_getElem? hi))
  · split
    · exact K.plain trivial
    · exact addedMethod_has hm .array key

/-- A few units are a text that can be used everywhere. -/
theorem spans_units {us : List UInt16} (h : us.length ≤ 64) :
    N.spans (unitCount (ofUnits us)) :=
  N.spans_of_short (Nat.le_trans (unitCount_ofUnits_le us) h)

theorem textProperty_has {m : Machine} (hm : ∀ v, m.Holds v → K.has v) (s key : String) :
    K.has (textProperty m.prototypes s key) := by
  unfold textProperty
  split
  · split
    · exact K.plain (spans_units (Nat.le_add_left 1 63))
    · exact K.plain trivial
  · split
    · exact K.plain trivial
    · exact addedMethod_has hm .text key

theorem readProperty_acts {base : Value} (hb : K.has base) (key : String)
    (hloc : N.Place loc) :
    Acts G K (readProperty base key loc) (readProperty base key loc) := by
  refine .look fun m m' K' e hK hm _ => ?_
  cases base with
  | array id =>
    simp only [e.heap, e.prototypes]
    exact .pure (arrayProperty_has hm id key)
  | object id =>
    simp only [e.heap, e.prototypes]
    cases ho : (m.heap.object? id).bind (·.get? key) with
    | none => exact .pure (addedMethod_has hm .object key)
    | some v =>
      obtain ⟨properties, hp, hv⟩ := Option.bind_eq_some_iff.1 ho
      exact .pure (hm v (Machine.holds_of_mem_object hp (Table.mem_values_of_get? hv)))
  | string s =>
    simp only [e.prototypes]
    exact .pure (textProperty_has hm s key)
  | function f =>
    have hname : N.spans (unitCount f.name) := by
      cases f with
      | native name => exact (K.legal hb).spans
      | script name r chain => exact (K.legal hb).2
    refine .pure (K'.plain ?_)
    split
    · exact hname
    · exact trivial
  | bool b => exact .pure (K'.plain trivial)
  | number x => exact .pure (K'.plain trivial)
  | null => exact .andThen (inspect_acts _) fun _ => .fail hloc
  | undefined => exact .andThen (inspect_acts _) fun _ => .fail hloc

theorem mem_of_mem_extract {α : Type} {as : Array α} {i j : Nat} {a : α}
    (h : a ∈ as.extract i j) : a ∈ as := by
  obtain ⟨k, hk, rfl⟩ := Array.mem_extract_iff_getElem.1 h
  exact Array.getElem_mem _

theorem mem_resized {items : Array Value} {length : Nat} {v : Value}
    (h : v ∈ resized items length) : v ∈ items ∨ v = .undefined := by
  unfold resized at h
  split at h
  · refine .inl ?_
    exact mem_of_mem_extract h
  · rcases Array.mem_append.1 h with h | h
    · exact .inl h
    · exact .inr (Array.mem_replicate.1 h).2

theorem setArray_acts {id : HeapId} {items : Array Value} (hv : ∀ v ∈ items, K.has v)
    (hs : N.fits items.size) :
    Acts G K (modify (Change.setArray id items).apply)
      (modify (Change.setArray id items).apply) :=
  .change _ (fun v h => hv v (Array.mem_toList_iff.1 h)) trivial hs

theorem size_resized (items : Array Value) (length : Nat) :
    (resized items length).size = length := by
  unfold resized
  split
  · simp
    omega
  · simp
    omega

theorem writeElement_acts {value : Value} (id : HeapId) (index : Nat) (hv : K.has value)
    (hloc : N.Place loc) :
    Acts G K (writeElement id index value loc) (writeElement id index value loc) := by
  refine .look fun m m' K' e hK hm hs => ?_
  have helem : ∀ v ∈ m.heap.elements id, K'.has v :=
    fun v h => hm v (Machine.holds_of_mem_elements h)
  simp only [e.heap]
  split
  · refine checkLength_then_acts hloc fun hfit => setArray_acts (fun v h => ?_) ?_
    · -- A gap before the new element is filled with undefined values.
      rcases Array.mem_push.1 h with h | rfl
      · rcases mem_resized h with h | rfl
        · exact helem v h
        · exact K'.plain trivial
      · exact hK _ hv
    · rw [Array.size_push, size_resized]
      exact hfit
  · refine setArray_acts (fun v h => ?_) ?_
    · rcases Array.mem_or_eq_of_mem_setIfInBounds h with h | rfl
      · exact helem v h
      · exact hK _ hv
    · rw [Array.size_setIfInBounds]
      exact hs id

theorem mem_putPair {α : Type} {k : String} {a b : α} {es : List (String × α)}
    (h : b ∈ (putPair k a es).map Prod.snd) : b = a ∨ b ∈ es.map Prod.snd := by
  induction es with
  | nil => simpa [putPair] using h
  | cons e rest ih => grind [putPair]

theorem Table.mem_values_insert {α : Type} {t : Table α} {k : String} {a b : α}
    (h : b ∈ (t.insert k a).values) : b = a ∨ b ∈ t.values :=
  mem_putPair h

/-- A write to an object as an action on the properties that it has now. -/
theorem writeProperty_object_eq (id : HeapId) (key : String)
    (value : Value) (loc : Location) :
    writeProperty (.object id) key value loc = (do
      let m ← get
      match m.heap.object? id with
      | some properties => modify (Change.setObject id (properties.insert key value)).apply
      | none => pure ()) := by
  refine Run.ext fun limits m => ?_
  simp only [writeProperty, Run.outcome_modify, Run.outcome_get_bind]
  cases m.heap.object? id with
  | none => rfl
  | some properties => rfl

theorem writeProperty_acts {value : Value} (base : Value) (key : String) (hv : K.has value)
    (hloc : N.Place loc) :
    Acts G K (writeProperty base key value loc) (writeProperty base key value loc) := by
  cases base with
  | array id =>
    unfold writeProperty
    dsimp only
    split
    · exact writeElement_acts id _ hv hloc
    · split
      · refine .andThen (numberOf_acts value) fun x => ?_
        refine requestedLength_then_acts x hloc fun length hfit => ?_
        -- The new elements are read off the state in the same action that writes them.
        show Acts G K
          (get >>= fun m =>
            modify (Change.setArray id (resized (m.heap.elements id) length)).apply)
          (get >>= fun m =>
            modify (Change.setArray id (resized (m.heap.elements id) length)).apply)
        refine .look fun m m' K' e hK hm _ => ?_
        rw [e.heap]
        refine setArray_acts (fun v h => ?_) (by rwa [size_resized])
        rcases mem_resized h with h | rfl
        · exact hm v (Machine.holds_of_mem_elements h)
        · exact K'.plain trivial
      · exact .pure trivial
  | object id =>
    rw [writeProperty_object_eq]
    refine .look fun m m' K' e hK hm _ => ?_
    rw [e.heap]
    split
    · next properties hp =>
      refine .change _ (fun v h => ?_) trivial trivial
      rcases Table.mem_values_insert h with rfl | h
      · exact hK _ hv
      · exact hm v (Machine.holds_of_mem_object hp h)
    · exact .pure trivial
  | null => exact .andThen (inspect_acts _) fun _ => .fail hloc
  | undefined => exact .andThen (inspect_acts _) fun _ => .fail hloc
  | bool b => exact .pure trivial
  | number x => exact .pure trivial
  | string s => exact .pure trivial
  | function f => exact .pure trivial

/-! ### The functions of the language -/

theorem newArray_acts {items : Array Value} (hv : ∀ v ∈ items, K.has v)
    (hs : N.fits items.size) : Acts G K (newArray items) (newArray items) := by
  rw [newArray_eq]
  exact .newSlot (fun v h => hv v (Array.mem_toList_iff.1 h)) hs

theorem newObject_acts {properties : Table Value} (hv : ∀ v ∈ properties.values, K.has v) :
    Acts G K (newObject properties) (newObject properties) := by
  rw [newObject_eq]
  exact .newSlot hv trivial

theorem newPairs_acts (hN : ∀ length, N.fits length) (hspans : ∀ length, N.spans length)
    {entries : List (String × Value)} (hv : ∀ e ∈ entries, K.has e.2) :
    Acts G K (newPairs entries) (newPairs entries) := by
  induction entries generalizing K with
  | nil => exact .pure (by simp [Carries.within])
  | cons e rest ih =>
    obtain ⟨k, v⟩ := e
    have hpair : ∀ u ∈ #[Value.string k, v], K.has u := by
      intro u hu
      rcases List.mem_cons.1 (Array.mem_toList_iff.2 hu) with rfl | hu
      · exact K.plain (hspans _)
      · rw [List.mem_singleton.1 hu]
        exact hv (k, v) List.mem_cons_self
    unfold newPairs
    refine .bind (newArray_acts hpair (hN _)) fun pair K₁ h₁ hp => ?_
    refine .bind (ih fun e he => h₁ _ (hv e (List.mem_cons_of_mem _ he)))
      fun pairs K₂ h₂ hps => ?_
    refine .pure fun u hu => ?_
    rcases List.mem_cons.1 hu with rfl | hu
    · exact h₂ _ hp
    · exact hps u hu

/-- A line is printed and told of in one action, on the heap as it is before. -/
theorem callLog_eq (args : List Value) (loc : Location) :
    callLog args loc = (do
      let m ← get
      say (" ".intercalate (args.map (printed m.heap))) .call loc
        ("console.log(" ++ ", ".intercalate (args.map fun v => m.heap.inspect v false) ++ ")")
      return .undefined) := by
  refine Run.ext fun limits m => ?_
  rfl

theorem callLog_acts (args : List Value) (hloc : N.Place loc) :
    Acts G K (callLog args loc) (callLog args loc) := by
  rw [callLog_eq]
  refine .peek fun m m' e => ?_
  rw [e.heap]
  refine .andThen (.say ?_ hloc) fun _ => ?_
  · rw [String.append_assoc]
    exact ⟨ordinary_log _, fun _ => by decide, fun _ => by decide⟩
  exact .pure (K.plain trivial)

theorem mem_indexed {vs : List Value} {e : String × Value} (h : e ∈ indexed vs) :
    e.2 ∈ vs := by
  unfold indexed at h
  obtain ⟨⟨v, i⟩, hv, rfl⟩ := List.mem_map.1 h
  exact (List.mem_zipIdx hv).2.2 ▸ List.getElem_mem _

theorem isPlain_charValues {s : String} {v : Value} (h : v ∈ charValues s) : v.IsPlain N := by
  unfold charValues at h
  obtain ⟨c, -, rfl⟩ := List.mem_map.1 h
  refine N.spans_of_short ?_
  rw [unitCount_eq, String.toList_singleton, List.map_singleton, List.sum_singleton]
  exact Nat.le_trans (charWidth_le c) (by decide)

theorem ownEntries_has {m : Machine} (hm : ∀ v, m.Holds v → K.has v) (v : Value) :
    ∀ e ∈ ownEntries m.heap v, K.has e.2 := by
  intro e he
  unfold ownEntries at he
  cases v with
  | object id =>
    cases ho : m.heap.object? id with
    | none => simp [ho] at he
    | some properties =>
      simp only [ho, Option.map_some, Option.getD_some] at he
      exact hm _ (Machine.holds_of_mem_object ho (List.mem_map_of_mem he))
  | array id =>
    exact hm _ (Machine.holds_of_mem_elements (Array.mem_toList_iff.1 (mem_indexed he)))
  | string s => exact K.plain (isPlain_charValues (mem_indexed he))
  | _ => cases he

theorem callEntries_acts (hN : ∀ length, N.fits length) {name : String}
    (hspans : name ≠ "Object.values" → ∀ length, N.spans length) (arg : Value)
    (hloc : N.Place loc) :
    Acts G K (callEntries name arg loc) (callEntries name arg loc) := by
  -- Keys, values and pairs differ only in the elements of the array that is made of them.
  have htail : ∀ (K : Stock N) (items : List Value), (∀ v ∈ items, K.has v) → Acts G K
      (do let result ← newArray items.toArray
          let s ← inspect result
          record .expression loc (name ++ "() → " ++ s)
          return result)
      (do let result ← newArray items.toArray
          let s ← inspect result
          record .expression loc (name ++ "() → " ++ s)
          return result) := by
    intro K items hi
    refine .bind (newArray_acts (fun v h => hi v (List.mem_toArray.1 h)) (hN _))
      fun result K' _ hr => ?_
    exact tell_acts (by decide) hloc hr
  refine .look fun m m' K₁ e h₁ hm _ => ?_
  have hown := ownEntries_has hm arg
  rw [e.heap]
  dsimp only
  split
  · next hname =>
    rw [pure_bind]
    refine htail K₁ _ fun v hv => ?_
    obtain ⟨e, -, rfl⟩ := List.mem_map.1 hv
    exact K₁.plain (hspans (by rw [eq_of_beq hname]; decide) _)
  split
  · rw [pure_bind]
    refine htail K₁ _ fun v hv => ?_
    obtain ⟨e, he, rfl⟩ := List.mem_map.1 hv
    exact hown e he
  · next hname =>
    have hpairs := newPairs_acts (G := G) hN (hspans fun h => hname (beq_iff_eq.2 h)) hown
    exact .bind hpairs fun items K₂ _ hi => htail K₂ items hi

theorem callNative_acts {name : String} (hname : N.Knows name)
    (args : List Value) (hloc : N.Place loc) :
    Acts G K (callNative name args loc) (callNative name args loc) := by
  have hint : ∀ (K : Stock N) (v : Value) (base : Float), Acts G K
      (do let s ← plainOf v
          return Value.number (leadingInteger s base.toUInt32.toNat))
      (do let s ← plainOf v
          return Value.number (leadingInteger s base.toUInt32.toNat)) := by
    intro K v base
    exact .andThen (plainOf_acts _) fun _ => .pure (K.plain trivial)
  unfold callNative
  dsimp only
  split
  · exact callLog_acts args hloc
  · refine .andThen (.record (.of_kind (by decide)) hloc) fun _ => ?_
    exact .pure (K.plain trivial)
  · exact callEntries_acts (hname.lists (by decide))
      (fun _ => hname.writes (by decide)) _ hloc
  · exact callEntries_acts (hname.lists (by decide)) (fun h => absurd rfl h) _ hloc
  · exact callEntries_acts (hname.lists (by decide))
      (fun _ => hname.writes (by decide)) _ hloc
  · have hfree : ∀ length, N.spans length := hname.writes (by decide)
    split
    · exact .pure (K.plain (hfree _))
    · exact .andThen (plainOf_acts _) fun _ => .pure (K.plain (hfree _))
  · split
    · exact .pure (K.plain trivial)
    · exact .andThen (numberOf_acts _) fun _ => .pure (K.plain trivial)
  · exact .pure (K.plain trivial)
  · exact .andThen (numberOf_acts _) fun _ => .pure (K.plain trivial)
  · split
    · exact .andThen (numberOf_acts _) fun base => hint K _ base
    · exact .andThen (.pure trivial) fun base => hint K _ base
  · exact .andThen (plainOf_acts _) fun _ => .pure (K.plain trivial)
  · split
    · refine .peek fun m m' e => ?_
      rw [e.heap]
      exact .pure (K.plain trivial)
    · exact .fail hloc

end ScriptReplay
