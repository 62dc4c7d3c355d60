/-
The actions of calls and of the methods of arrays and texts.

* `Walks` : two walkers that go through some nodes of a region by the same actions;
* `Enters` : two walkers that go through the functions of a region by the same actions;
* `callFunction_acts` : a call, given that the walkers do;
* `callArrayMethod_acts`, `callTextMethod_acts` : the methods of the language.
-/
import ScriptReplay.Proofs.Actions.Values
import ScriptReplay.Run.TextMethod

namespace ScriptReplay

/-- Two walkers that go through some nodes of a region by the same actions. -/
structure Walks (G : Gap) {N : Region} (S : Ground N) (w w' : Walker) : Prop where
  eval : ∀ {e : Expr}, S.has (.expr e) → ∀ K : Stock N, Acts G K (w.eval e) (w'.eval e)
  exec : ∀ {s : Stmt}, S.has (.stmt s) → ∀ K : Stock N, Acts G K (w.exec s) (w'.exec s)

/-- Two walkers that go through the fallbacks and bodies of the functions of a region by the
same actions. -/
structure Enters (G : Gap) (N : Region) (w w' : Walker) : Prop where
  fallback : ∀ {r : Routine}, N.has (.routine r) → ∀ p ∈ r.params, ∀ e, p.fallback = some e →
    ∀ K : Stock N, Acts G K (w.eval e) (w'.eval e)
  body : ∀ {r : Routine}, N.has (.routine r) →
    ∀ K : Stock N, Acts G.inner K (w.runBody r.body) (w'.runBody r.body)
  serves : G = .alone → ∃ fuel, w = walker fuel

variable {G : Gap} {N : Region} {S : Ground N} {K : Stock N} {w w' : Walker} {loc : Location}

/-! ### Parts of calls -/

theorem evalAll_acts (hw : Walks G S w w') {es : List Expr} (he : ∀ e ∈ es, S.has (.expr e)) :
    Acts G K (w.evalAll es) (w'.evalAll es) := by
  induction es generalizing K with
  | nil => exact .pure (by simp [Carries.within])
  | cons e rest ih =>
    unfold Walker.evalAll
    refine .bind (hw.eval (he e List.mem_cons_self) K) fun v K₁ h₁ hv => ?_
    refine .bind (ih fun e' h => he e' (List.mem_cons_of_mem _ h)) fun vs K₂ h₂ hvs => ?_
    refine .pure fun u hu => ?_
    rcases List.mem_cons.1 hu with rfl | hu
    · exact h₂ _ hv
    · exact hvs u hu

theorem execAll_acts (hw : Walks G S w w') {body : List Stmt}
    (hb : ∀ s ∈ body, S.has (.stmt s)) : Acts G K (w.execAll body) (w'.execAll body) := by
  induction body generalizing K with
  | nil => exact .pure (by simp [Carries.within])
  | cons s rest ih =>
    unfold Walker.execAll
    refine .bind (hw.exec (hb s List.mem_cons_self) K) fun c K₁ h₁ hc => ?_
    cases c with
    | normal => exact ih fun s' h => hb s' (List.mem_cons_of_mem _ h)
    | _ => exact .pure hc

theorem execUntilReturn_acts (hw : Walks G S w w') {body : List Stmt}
    (hb : ∀ s ∈ body, S.has (.stmt s)) :
    Acts G K (w.execUntilReturn body) (w'.execUntilReturn body) := by
  induction body generalizing K with
  | nil => exact .pure (K.plain trivial)
  | cons s rest ih =>
    unfold Walker.execUntilReturn
    refine .bind (hw.exec (hb s List.mem_cons_self) K) fun c K₁ h₁ hc => ?_
    cases c with
    | ret v => exact .pure (hc v rfl)
    | _ => exact ih fun s' h => hb s' (List.mem_cons_of_mem _ h)

theorem runBody_acts (hw : Walks G S w w') {body : Body} (hb : ∀ n ∈ body.parts, S.has n) :
    Acts G K (w.runBody body) (w'.runBody body) := by
  cases body with
  | block statements =>
    have hs : ∀ s ∈ statements, S.has (.stmt s) := fun s h => hb _ (List.mem_map_of_mem h)
    refine .andThen (hoist_acts fun s h => S.region (hs s h)) fun _ => ?_
    exact execUntilReturn_acts hw hs
  | value e => exact hw.eval (hb _ List.mem_cons_self) K

theorem headD_has {args : List Value} (ha : ∀ v ∈ args, K.has v) :
    K.has (args.headD .undefined) := by
  cases args with
  | nil => exact K.plain trivial
  | cons v rest => exact ha v List.mem_cons_self

theorem bindParams_acts (hN : ¬ N.NoFallbacks) (scope : ScopeId) {params : List Param}
    (hp : ∀ p ∈ params, ∀ e, p.fallback = some e → ∀ K : Stock N,
      Acts G K (w.eval e) (w'.eval e))
    {args : List Value} (ha : ∀ v ∈ args, K.has v) {bound : Table Value}
    (hb : ∀ v ∈ bound.values, K.has v) :
    Acts G K (bindParams w scope bound params args)
      (bindParams w' scope bound params args) := by
  induction params generalizing K bound args with
  | nil => exact .pure hb
  | cons p params ih =>
    -- What follows is the same whether the value is an argument or that of the fallback.
    have htail : ∀ (K' : Stock N) (value : Value), K ≤ K' → K'.has value → Acts G K'
        (do modify fun m => { m with scopes := m.scopes.declare scope p.name value false }
            bindParams w scope (bound.insert p.name value) params args.tail)
        (do modify fun m => { m with scopes := m.scopes.declare scope p.name value false }
            bindParams w' scope (bound.insert p.name value) params args.tail) := by
      intro K' value hK hv
      refine .andThen
        (.change (.declare scope p.name value) (by simpa [Change.values] using hv) trivial hN)
        fun _ => ?_
      refine ih (fun q hq => hp q (List.mem_cons_of_mem _ hq)) ?_ ?_
      · exact fun v h => hK v (ha v (List.mem_of_mem_tail h))
      · intro v h
        rcases Table.mem_values_insert h with rfl | h
        · exact hv
        · exact hK v (hb v h)
    unfold bindParams
    dsimp only
    split
    · next e _ he =>
      exact .bind (hp p List.mem_cons_self e he K) fun value K' hK hv => htail K' value hK hv
    · rw [pure_bind, pure_bind]
      exact htail K _ (Stock.le_refl K) (headD_has ha)

/-- Walkers that go through a whole region go through its functions. -/
theorem Walks.enters (hw : Walks G N.ground w w') (hG : G.FuelEnds) : Enters G N w w' := by
  refine ⟨fun hr p hp e he K => ?_, fun hr K => ?_, fun h => absurd h hG.ne_alone⟩
  · exact hw.eval (N.part hr (Routine.mem_parts_of_fallback hp he)) K
  · rw [hG.inner_eq]
    exact runBody_acts hw fun n h => N.part hr (List.mem_append_right _ h)

/-! ### Calls -/

theorem callFunction_eq (w : Walker) (name : String) (r : Routine) (chain : Chain)
    (this : Option Value) (args : List Value) (shown : String) (recorded : Bool)
    (loc : Location) :
    callFunction w (.script name r chain) this args shown recorded loc =
      toldCall recorded w shown r chain args loc (callBody w r this) := by
  refine Run.ext fun limits m => ?_
  unfold callFunction toldCall inCall
  simp only [bind_assoc, Run.outcome_read_bind, Run.outcome_get_bind]
  split
  · rw [Run.outcome_bind_error (Run.outcome_failAt _ _ _ _),
      Run.outcome_bind_error (Run.outcome_bind_error (Run.outcome_failAt _ _ _ _))]
  · simp only [Run.outcome_get_bind, bind_assoc, callBody, pure_bind]
    congr 3
    funext scope
    congr 1
    funext params
    -- The words for the arguments are found before the frame is pushed, and in `toldCall`
    -- after that.
    cases recorded <;> cases this <;> cases r.isArrow <;> rfl

theorem callBody_acts (hw : Enters G N w w') {r : Routine} (hr : N.has (.routine r))
    {this : Option Value} (ht : ∀ v, this = some v → K.has v) :
    Acts G.inner K (callBody w r this) (callBody w' r this) := by
  have hbody : Acts G.inner K (w.runBody r.body) (w'.runBody r.body) := hw.body hr K
  unfold callBody
  cases this with
  | none => exact hbody
  | some receiver => exact .whenever (fun _ => declareName_acts _ _ (ht receiver rfl)) hbody

theorem callFunction_acts (hw : Enters G N w w') {f : Callable} (hf : K.has (.function f))
    {this : Option Value} (ht : ∀ v, this = some v → K.has v) {args : List Value}
    (ha : ∀ v ∈ args, K.has v) (shown : String) (recorded : Bool) (hloc : N.Place loc) :
    Acts G K (callFunction w f this args shown recorded loc)
      (callFunction w' f this args shown recorded loc) := by
  cases f with
  | native name => exact callNative_acts (K.legal hf) args hloc
  | script name r chain =>
    have hr : N.has (.routine r) := (K.legal hf).1
    rw [callFunction_eq, callFunction_eq]
    refine .call hf ha hloc (fun hN scope => ?_) (fun hG => ?_) (callBody_acts hw hr ht)
    · exact bindParams_acts hN scope (hw.fallback hr) ha (by simp [Table.empty, Table.values])
    · obtain ⟨fuel, rfl⟩ := hw.serves hG
      exact ⟨fuel, this, ht, rfl⟩

theorem invokeCallback_acts (hw : Enters G N w w') {f : Callable} (hf : K.has (.function f))
    {args : List Value} (ha : ∀ v ∈ args, K.has v) (hloc : N.Place loc) :
    Acts G K (invokeCallback w f args loc) (invokeCallback w' f args loc) :=
  callFunction_acts hw hf (by simp) ha _ _ hloc

/-! ### Methods of arrays -/

theorem putElements_acts {id : HeapId} {items : Array Value} (hv : ∀ v ∈ items, K.has v)
    (hs : N.fits items.size) : Acts G K (putElements id items) (putElements id items) :=
  setArray_acts hv hs

theorem addElements_acts (method : ArrayMethod) (id : HeapId) (args : List Value)
    {grown : Array Value} (hv : ∀ v ∈ grown, K.has v) (hloc : N.Place loc) :
    Acts G K (addElements method id args grown loc)
      (addElements method id args grown loc) := by
  unfold addElements
  refine checkArrayLength_then_acts hloc fun hfit => ?_
  refine .andThen (putElements_acts hv hfit) fun _ => ?_
  refine .andThen (inspectAll_acts args) fun text => ?_
  refine .andThen (.record (.of_kind (by decide)) hloc) fun _ => ?_
  exact .pure (K.plain trivial)

theorem removeElement_acts (method : ArrayMethod) (id : HeapId) {removed : Option Value}
    (hr : ∀ v, removed = some v → K.has v) {rest : Array Value} (hv : ∀ v ∈ rest, K.has v)
    (hs : N.fits rest.size) (hloc : N.Place loc) :
    Acts G K (removeElement method id removed rest loc)
      (removeElement method id removed rest loc) := by
  unfold removeElement
  refine .andThen (putElements_acts hv hs) fun _ => ?_
  refine tell_acts (by decide) hloc ?_
  cases removed with
  | none => exact K.plain trivial
  | some v => exact hr v rfl

theorem searchArray_acts (items : Array Value) (args : List Value) (method : ArrayMethod)
    (hloc : N.Place loc) :
    Acts G K (searchArray items args loc method) (searchArray items args loc method) := by
  refine .peek fun m m' e => ?_
  rw [e.heap]
  refine .andThen (inspect_acts _) fun needle => ?_
  refine tell_acts (by decide) hloc (K.plain ?_)
  split
  · exact trivial
  · exact trivial
  · exact trivial

/-- A stretch of an array is not longer than the array. -/
theorem fits_extract {items : Array Value} (hs : N.fits items.size) (start stop : Nat) :
    N.fits (items.extract start stop).size := by
  refine N.fits_le ?_ hs
  rw [Array.size_extract]
  omega

theorem sliceArray_acts {items : Array Value} (hv : ∀ v ∈ items, K.has v)
    (hs : N.fits items.size) (args : List Value) (hloc : N.Place loc) :
    Acts G K (sliceArray items args loc) (sliceArray items args loc) := by
  refine .peek fun m m' e => ?_
  rw [e.heap]
  refine .bind (newArray_acts (fun v h => hv v (mem_of_mem_extract h)) (fits_extract hs _ _))
    fun result K' _ hr => ?_
  exact tell_acts (by decide) hloc hr

theorem spliceArray_acts (id : HeapId) {items : Array Value} (hv : ∀ v ∈ items, K.has v)
    (hs : N.fits items.size) {args : List Value} (ha : ∀ v ∈ args, K.has v)
    (hloc : N.Place loc) :
    Acts G K (spliceArray id items args loc) (spliceArray id items args loc) := by
  refine .peek fun m m' e => ?_
  rw [e.heap]
  refine checkArrayLength_then_acts hloc fun hfit => ?_
  refine .andThen (putElements_acts (fun v h => ?_) hfit) fun _ => ?_
  · rcases Array.mem_append.1 h with h | h
    · rcases Array.mem_append.1 h with h | h
      · exact hv v (mem_of_mem_extract h)
      · exact ha v (List.mem_of_mem_drop (List.mem_toArray.1 h))
    · exact hv v (mem_of_mem_extract h)
  · refine .bind
      (newArray_acts (fun v h => hv v (mem_of_mem_extract h)) (fits_extract hs _ _))
      fun result K' _ hr => ?_
    exact tell_acts (by decide) hloc hr

theorem joinArray_acts (items : Array Value) (args : List Value) (hloc : N.Place loc) :
    Acts G K (joinArray items args loc) (joinArray items args loc) := by
  refine .peek fun m m' e => ?_
  rw [e.heap]
  refine checkTextLength_then_acts hloc fun hspans => ?_
  refine .andThen (.record (.of_kind (by decide)) hloc) fun _ => ?_
  exact .pure (K.plain hspans)

theorem mem_spread {m : Machine} (hm : ∀ v, m.Holds v → K.has v) {arg : Value}
    (ha : K.has arg) : ∀ v ∈ spread m.heap arg, K.has v := by
  intro v hv
  unfold spread at hv
  split at hv
  · exact hm v (Machine.holds_of_mem_elements hv)
  · rw [Array.mem_singleton.1 hv]
    exact ha

theorem mem_foldl_append {v : Value} {parts : List (Array Value)} {items : Array Value}
    (h : v ∈ parts.foldl (· ++ ·) items) : v ∈ items ∨ ∃ part ∈ parts, v ∈ part := by
  induction parts generalizing items with
  | nil => exact .inl h
  | cons part parts ih =>
    rcases ih h with h | ⟨part', hp, h⟩
    · rcases Array.mem_append.1 h with h | h
      · exact .inl h
      · exact .inr ⟨part, List.mem_cons_self, h⟩
    · exact .inr ⟨part', List.mem_cons_of_mem _ hp, h⟩

theorem size_foldl_append (parts : List (Array Value)) (items : Array Value) :
    (parts.foldl (· ++ ·) items).size = parts.foldl
      (fun n part => n + part.size) items.size := by
  induction parts generalizing items with
  | nil => rfl
  | cons part parts ih => rw [List.foldl_cons, ih, Array.size_append, List.foldl_cons]

theorem concatArray_acts {items : Array Value} (hv : ∀ v ∈ items, K.has v) {args : List Value}
    (ha : ∀ v ∈ args, K.has v) (hloc : N.Place loc) :
    Acts G K (concatArray items args loc) (concatArray items args loc) := by
  refine .look fun m m' K₁ e h₁ hm _ => ?_
  rw [e.heap]
  refine checkArrayLength_then_acts hloc fun hfit => ?_
  refine .bind (newArray_acts (fun v h => ?_) (by rwa [size_foldl_append]))
    fun result K' _ hr => ?_
  · rcases mem_foldl_append h with h | ⟨part, hp, h⟩
    · exact h₁ v (hv v h)
    · obtain ⟨arg, harg, rfl⟩ := List.mem_map.1 hp
      exact mem_spread hm (h₁ arg (ha arg harg)) v h
  · exact tell_acts (by decide) hloc hr

/-- An index that an argument gives is not after the end. -/
theorem indexArg_le (h : Heap) (arg : Option Value) {length fallback : Nat}
    (hf : fallback ≤ length) : indexArg h arg length fallback ≤ length := by
  unfold indexArg
  split
  · exact hf
  · exact hf
  · unfold relativeIndex
    split
    · exact Nat.sub_le _ _
    · exact Nat.min_le_right _ _

/-- An array keeps its length when a stretch of it is filled. -/
theorem size_filled (items : Array Value) (value : Value) {start stop : Nat}
    (h : start ≤ stop) (hs : stop ≤ items.size) :
    (items.extract 0 start ++ Array.replicate (stop - start) value ++
      items.extract stop items.size).size = items.size := by
  simp only [Array.size_append, Array.size_extract, Array.size_replicate]
  omega

theorem fillArray_acts {id : HeapId} (hid : K.has (.array id)) {items : Array Value}
    (hv : ∀ v ∈ items, K.has v) (hs : N.fits items.size) {args : List Value}
    (ha : ∀ v ∈ args, K.has v) (hloc : N.Place loc) :
    Acts G K (fillArray id items args loc) (fillArray id items args loc) := by
  refine .peek fun m m' e => ?_
  rw [e.heap]
  have hstart : indexArg m.heap args[1]? items.size 0 ≤ items.size :=
    indexArg_le _ _ (Nat.zero_le _)
  have hstop : indexArg m.heap args[2]? items.size items.size ≤ items.size :=
    indexArg_le _ _ (Nat.le_refl _)
  have hsize := size_filled items (args.headD .undefined) (Nat.le_max_right _ _)
    (Nat.max_le.2 ⟨hstop, hstart⟩)
  refine .andThen (putElements_acts (fun v h => ?_) (by rwa [hsize])) fun _ => ?_
  · rcases Array.mem_append.1 h with h | h
    · rcases Array.mem_append.1 h with h | h
      · exact hv v (mem_of_mem_extract h)
      · rw [(Array.mem_replicate.1 h).2]
        exact headD_has ha
    · exact hv v (mem_of_mem_extract h)
  · refine .andThen (inspect_acts _) fun value => ?_
    exact tell_acts (by decide) hloc hid

/-! ### Callbacks -/

theorem requireCallback_acts (method : String) {args : List Value} (ha : ∀ v ∈ args, K.has v)
    (hloc : N.Place loc) :
    Acts G K (requireCallback method args loc) (requireCallback method args loc) := by
  unfold requireCallback
  split
  · exact .pure (ha _ List.mem_cons_self)
  · exact .fail hloc

/-- If the outcome of a callback decides a visit. -/
def visitDecided (v : Visit) (outcome : Value) : Bool :=
  match v with
  | .find | .findIndex | .some => outcome.isTruthy
  | .every => !outcome.isTruthy
  | .forEach | .map | .filter => false

/-- What a visit keeps after a callback. -/
def visitKept (v : Visit) (outcome element : Value) (kept : List Value) : List Value :=
  match v with
  | .map => outcome :: kept
  | .filter => if outcome.isTruthy then element :: kept else kept
  | .forEach | .find | .findIndex | .some | .every => kept

theorem length_visitKept (v : Visit) (outcome element : Value) (kept : List Value) :
    (visitKept v outcome element kept).length ≤ kept.length + 1 := by
  cases v with
  | map => exact Nat.le_refl _
  | filter =>
    show (if outcome.isTruthy then element :: kept else kept).length ≤ kept.length + 1
    split
    · exact Nat.le_refl _
    · exact Nat.le_succ _
  | _ => exact Nat.le_succ _

/-- A visit and what follows.  It keeps at most one value in each round, however long the
array becomes. -/
theorem visitFrom_then_acts (hw : Enters G N w w') (v : Visit) {f : Callable}
    (hf : K.has (.function f)) {id : HeapId} (hid : K.has (.array id)) (hloc : N.Place loc)
    {kept : List Value} (hk : ∀ u ∈ kept, K.has u) (left index : Nat) {α : Type} [Carries α]
    {k k' : Findings → Run α}
    (hthen : ∀ found (K' : Stock N), K ≤ K' → Carries.within K'.has found →
      found.kept.length ≤ kept.length + left → Acts G K' (k found) (k' found)) :
    Acts G K (visitFrom w v f id loc kept left index >>= k)
      (visitFrom w' v f id loc kept left index >>= k') := by
  induction left generalizing K kept index with
  | zero =>
    unfold visitFrom
    rw [pure_bind, pure_bind]
    exact hthen ⟨kept, none⟩ K (Stock.le_refl K) ⟨hk, by simp⟩ (Nat.le_refl _)
  | succ left ih =>
    unfold visitFrom
    rw [bind_assoc, bind_assoc]
    -- The elements are read anew in each round: the callback may have changed the array.
    refine .look fun m m' K₁ e h₁ hm _ => ?_
    rw [e.heap]
    cases helem : (m.heap.elements id)[index]? with
    | none =>
      rw [pure_bind, pure_bind]
      exact hthen ⟨kept, none⟩ K₁ h₁
        ⟨fun u hu => h₁ u (hk u hu), by simp⟩ (Nat.le_add_right _ _)
    | some element =>
      have he : K₁.has element :=
        hm _ (Machine.holds_of_mem_elements (Array.mem_of_getElem? helem))
      have hargs : ∀ u ∈ [element, .number (Float.ofNat index), .array id], K₁.has u := by
        intro u hu
        rcases List.mem_cons.1 hu with rfl | hu
        · exact he
        rcases List.mem_cons.1 hu with rfl | hu
        · exact K₁.plain trivial
        · rw [List.mem_singleton.1 hu]
          exact h₁ _ hid
      rw [bind_assoc, bind_assoc]
      refine .bind (invokeCallback_acts hw (h₁ _ hf) hargs hloc) fun outcome K₂ h₂ ho => ?_
      have hold : ∀ u ∈ kept, K₂.has u := fun u hu => h₂ u (h₁ u (hk u hu))
      have hmore : ∀ u ∈ visitKept v outcome element kept, K₂.has u := by
        cases v with
        | map => exact List.forall_mem_cons.2 ⟨ho, hold⟩
        | filter =>
          show ∀ u ∈ (if outcome.isTruthy then element :: kept else kept), K₂.has u
          split
          · exact List.forall_mem_cons.2 ⟨h₂ _ he, hold⟩
          · exact hold
        | _ => exact hold
      have hlength := length_visitKept v outcome element kept
      change Acts G K₂
        ((if visitDecided v outcome
          then pure ⟨visitKept v outcome element kept, some (index, element)⟩
          else visitFrom w v f id loc (visitKept v outcome element kept) left (index + 1))
            >>= k)
        ((if visitDecided v outcome
          then pure ⟨visitKept v outcome element kept, some (index, element)⟩
          else visitFrom w' v f id loc (visitKept v outcome element kept) left (index + 1))
            >>= k')
      split
      · rw [pure_bind, pure_bind]
        refine hthen _ K₂ (Stock.le_trans h₁ h₂)
          ⟨hmore, fun e he' => ?_⟩ (by dsimp only; omega)
        cases he'
        exact h₂ _ he
      · refine ih (h₂ _ (h₁ _ hf)) (h₂ _ (h₁ _ hid)) hmore _ fun found K₃ h₃ hfound hl => ?_
        exact hthen found K₃ (Stock.le_trans h₁ (Stock.le_trans h₂ h₃)) hfound (by omega)

theorem visitAnswer_acts (v : Visit) {found : Findings} (hf : Carries.within K.has found)
    (hs : N.fits found.kept.length) :
    Acts G K (visitAnswer v found) (visitAnswer v found) := by
  have hplain : ∀ u : Value, u.IsPlain N →
      Acts G K (pure (some u) : Run (Option Value)) (pure (some u)) :=
    fun u hu => .pure fun b hb => by
      cases hb
      exact K.plain hu
  have hnew : Acts G K
      (do return some (← newArray found.kept.reverse.toArray) : Run (Option Value))
      (do return some (← newArray found.kept.reverse.toArray)) := by
    refine .bind (newArray_acts (fun u hu => ?_) (by simpa using hs)) fun result K' _ hr => ?_
    · exact hf.1 u (List.mem_reverse.1 (List.mem_toArray.1 hu))
    · refine .pure fun b hb => ?_
      cases hb
      exact hr
  cases v with
  | forEach => exact .pure (by simp [Carries.within])
  | map => exact hnew
  | filter => exact hnew
  | find =>
    refine .pure fun b hb => ?_
    cases hb
    cases hh : found.hit with
    | none => exact K.plain trivial
    | some e => exact hf.2 e hh
  | findIndex => exact hplain _ trivial
  | some => exact hplain _ trivial
  | every => exact hplain _ trivial

theorem visitArray_acts (hw : Enters G N w w') (v : Visit) {id : HeapId}
    (hid : K.has (.array id)) {args : List Value} (ha : ∀ u ∈ args, K.has u)
    (hloc : N.Place loc) :
    Acts G K (visitArray w v id args loc) (visitArray w' v id args loc) := by
  unfold visitArray
  refine .bind (requireCallback_acts v.name ha hloc) fun f K₁ h₁ hf => ?_
  refine .look fun m m' K₂ e h₂ _ hs => ?_
  rw [e.heap]
  refine .andThen (.record (.of_kind (by decide)) hloc) fun _ => ?_
  refine visitFrom_then_acts hw v (h₂ _ hf) (h₂ _ (h₁ _ hid)) hloc (by simp) _ 0
    fun found K₃ _ hfound hkept => ?_
  have hfit : N.fits found.kept.length := N.fits_le (by simpa using hkept) (hs id)
  refine .bind (visitAnswer_acts v hfound hfit) fun answer K₄ _ hanswer => ?_
  cases answer with
  | none => exact .pure (K₄.plain trivial)
  | some result => exact tell_acts (by decide) hloc (hanswer result rfl)

theorem reduceFrom_acts (hw : Enters G N w w') {f : Callable} (hf : K.has (.function f))
    {id : HeapId} (hid : K.has (.array id)) (hloc : N.Place loc) {acc : Value}
    (hacc : K.has acc) (left index : Nat) :
    Acts G K (reduceFrom w f id loc acc left index)
      (reduceFrom w' f id loc acc left index) := by
  induction left generalizing K acc index with
  | zero => exact .pure hacc
  | succ left ih =>
    unfold reduceFrom
    refine .look fun m m' K₁ e h₁ hm _ => ?_
    rw [e.heap]
    cases helem : (m.heap.elements id)[index]? with
    | none => exact .pure (h₁ _ hacc)
    | some element =>
      have hargs : ∀ u ∈ [acc, element, .number (Float.ofNat index), .array id],
          K₁.has u := by
        intro u hu
        rcases List.mem_cons.1 hu with rfl | hu
        · exact h₁ _ hacc
        rcases List.mem_cons.1 hu with rfl | hu
        · exact hm _ (Machine.holds_of_mem_elements (Array.mem_of_getElem? helem))
        rcases List.mem_cons.1 hu with rfl | hu
        · exact K₁.plain trivial
        · rw [List.mem_singleton.1 hu]
          exact h₁ _ hid
      refine .bind (invokeCallback_acts hw (h₁ _ hf) hargs hloc) fun acc K₂ h₂ hacc => ?_
      exact ih (h₂ _ (h₁ _ hf)) (h₂ _ (h₁ _ hid)) hacc _

theorem reduceArray_acts (hw : Enters G N w w') {id : HeapId} (hid : K.has (.array id))
    {args : List Value} (ha : ∀ u ∈ args, K.has u) (hloc : N.Place loc) :
    Acts G K (reduceArray w id args loc) (reduceArray w' id args loc) := by
  unfold reduceArray
  refine .bind (requireCallback_acts "reduce" ha hloc) fun f K₁ h₁ hf => ?_
  refine .look fun m m' K₂ e h₂ hm _ => ?_
  rw [e.heap]
  -- The start is an argument or the first element; without either the third case fails.
  have htail : ∀ (K₃ : Stock N) (acc : Value) (start : Nat), K₂ ≤ K₃ → K₃.has acc → Acts G K₃
      (do record .expression loc
            ("Array.reduce() - reducing " ++
              toString (m.heap.elements id).size ++ " elements")
          let result ← reduceFrom w f id loc acc ((m.heap.elements id).size - start) start
          let s ← inspect result
          record .expression loc ("Array.reduce() → " ++ s)
          return result)
      (do record .expression loc
            ("Array.reduce() - reducing " ++
              toString (m.heap.elements id).size ++ " elements")
          let result ← reduceFrom w' f id loc acc ((m.heap.elements id).size - start) start
          let s ← inspect result
          record .expression loc ("Array.reduce() → " ++ s)
          return result) := by
    intro K₃ acc start h₃ hacc
    refine .andThen (.record (.of_kind (by decide)) hloc) fun _ => ?_
    refine .bind (reduceFrom_acts hw (h₃ _ (h₂ _ hf)) (h₃ _ (h₂ _ (h₁ _ hid))) hloc hacc _ _)
      fun result K₄ _ hr => ?_
    exact tell_acts (by decide) hloc hr
  dsimp only
  split
  · next _ _ v hv =>
    rw [pure_bind, pure_bind]
    exact htail K₂ v 0 (Stock.le_refl K₂) (h₂ _ (h₁ _ (ha v (List.mem_of_getElem? hv))))
  · next _ _ v _ hv =>
    rw [pure_bind, pure_bind]
    refine htail K₂ v 1 (Stock.le_refl K₂) ?_
    exact hm v (Machine.holds_of_mem_elements (Array.mem_of_getElem? hv))
  · exact .bind (.fail hloc) fun start K₃ h₃ hs => htail K₃ start.1 start.2 h₃ hs.1

theorem mem_of_mem_pop {items : Array Value} {v : Value} (h : v ∈ items.pop) : v ∈ items := by
  rw [← Array.extract_eq_pop rfl] at h
  exact mem_of_mem_extract h

theorem callArrayMethod_acts (hw : Enters G N w w') (method : ArrayMethod) {id : HeapId}
    (hid : K.has (.array id)) {args : List Value} (ha : ∀ u ∈ args, K.has u)
    (hloc : N.Place loc) :
    Acts G K (callArrayMethod w method id args loc)
      (callArrayMethod w' method id args loc) := by
  refine .look fun m m' K₁ e h₁ hm hs => ?_
  rw [e.heap]
  have hitems : ∀ v ∈ m.heap.elements id, K₁.has v :=
    fun v h => hm v (Machine.holds_of_mem_elements h)
  have hargs : ∀ v ∈ args, K₁.has v := fun v h => h₁ v (ha v h)
  cases method with
  | push =>
    refine addElements_acts _ _ _ (fun v h => ?_) hloc
    rcases Array.mem_append.1 h with h | h
    · exact hitems v h
    · exact hargs v (List.mem_toArray.1 h)
  | unshift =>
    refine addElements_acts _ _ _ (fun v h => ?_) hloc
    rcases Array.mem_append.1 h with h | h
    · exact hargs v (List.mem_toArray.1 h)
    · exact hitems v h
  | pop =>
    refine removeElement_acts _ _ (fun v h => hitems v (Array.mem_of_back? h))
      (fun v h => ?_) ?_ hloc
    · exact hitems v (mem_of_mem_pop h)
    · rw [← Array.extract_eq_pop rfl]
      exact fits_extract (hs id) _ _
  | shift =>
    refine removeElement_acts _ _ (fun v h => hitems v (Array.mem_of_getElem? h))
      (fun v h => ?_) ?_ hloc
    · exact hitems v (mem_of_mem_extract h)
    · exact fits_extract (hs id) _ _
  | indexOf => exact searchArray_acts _ _ _ hloc
  | includes => exact searchArray_acts _ _ _ hloc
  | slice => exact sliceArray_acts hitems (hs id) _ hloc
  | splice => exact spliceArray_acts _ hitems (hs id) hargs hloc
  | join => exact joinArray_acts _ _ hloc
  | reverse =>
    have hsize : N.fits (m.heap.elements id).reverse.size := by
      rw [Array.size_reverse]
      exact hs id
    refine .andThen (putElements_acts (fun v h => hitems v (Array.mem_reverse.1 h)) hsize)
      fun _ => ?_
    exact tell_acts (by decide) hloc (h₁ _ hid)
  | concat => exact concatArray_acts hitems hargs hloc
  | fill => exact fillArray_acts (h₁ _ hid) hitems (hs id) hargs hloc
  | visit v => exact visitArray_acts hw v (h₁ _ hid) hargs hloc
  | reduce => exact reduceArray_acts hw (h₁ _ hid) hargs hloc

/-! ### Methods of texts -/

/-- The pieces of a text are not longer than the text, or single units. -/
theorem spans_splitPieces {s piece : String} (hs : N.spans (unitCount s)) {h : Heap}
    {arg : Option Value} (hp : piece ∈ splitPieces h s arg) : N.spans (unitCount piece) := by
  unfold splitPieces at hp
  split at hp
  · rwa [List.mem_singleton.1 hp]
  · rwa [List.mem_singleton.1 hp]
  · dsimp only at hp
    split at hp
    · obtain ⟨u, -, rfl⟩ := List.mem_map.1 hp
      exact spans_units (Nat.le_add_left 1 63)
    · exact N.spans_le (unitCount_splitText_le hp) hs

theorem split_acts {s : String} (hs : N.spans (unitCount s)) (args : List Value)
    (hloc : N.Place loc) : Acts G K (split s args loc) (split s args loc) := by
  refine .peek fun m m' e => ?_
  rw [e.heap]
  refine checkArrayLength_then_acts hloc fun hfit => ?_
  refine .bind (newArray_acts (fun v hv => ?_) ?_) fun result K' _ hr => ?_
  · obtain ⟨piece, hp, rfl⟩ := List.mem_map.1 (List.mem_toArray.1 hv)
    exact K.plain (spans_splitPieces hs hp)
  · simpa using hfit
  · exact .pure hr

theorem repeated_acts (s : String) (args : List Value) (hloc : N.Place loc) :
    Acts G K (repeated s args loc) (repeated s args loc) := by
  refine .peek fun m m' e => ?_
  rw [e.heap]
  refine .whenever (fun _ => .fail hloc) ?_
  refine checkTextLength_then_acts hloc fun hspans => ?_
  exact .pure (K.plain (N.spans_le (unitCount_repeatText_le s _) hspans))

/-- A text that is filled up to a length has that length, or its own if it is longer. -/
theorem spans_filled {s : String} (hs : N.spans (unitCount s)) {length : Nat}
    (hl : N.spans length) (unit : List UInt16) :
    N.spans
      (unitCount (ofUnits (cycleTake unit (length - unitCount s) [])) + unitCount s) := by
  have hfilling :=
    Nat.le_trans (unitCount_ofUnits_le (cycleTake unit (length - unitCount s) []))
      (length_cycleTake_le unit (length - unitCount s) [])
  by_cases hlong : length ≤ unitCount s
  · exact N.spans_le (by omega) hs
  · exact N.spans_le (by omega) hl

theorem padded_acts (method : TextMethod) {s : String} (hs : N.spans (unitCount s))
    (args : List Value) (hloc : N.Place loc) :
    Acts G K (padded method s args loc) (padded method s args loc) := by
  refine .peek fun m m' e => ?_
  rw [e.heap]
  refine checkTextLength_then_acts hloc fun hspans => .pure (K.plain ?_)
  have hfilled := spans_filled hs hspans
  show N.spans (unitCount (if _ then _ else _))
  split
  · rw [unitCount_append]
    exact hfilled _
  · rw [unitCount_append, Nat.add_comm]
    exact hfilled _

theorem replaced_acts (s : String) (args : List Value) (hloc : N.Place loc) :
    Acts G K (replaced s args loc) (replaced s args loc) := by
  refine .peek fun m m' e => ?_
  rw [e.heap]
  exact checkText_then_acts hloc fun hspans => .pure (K.plain hspans)

/-- The units of a text between two places. -/
theorem isPlain_unitsBetween {s : String} (hs : N.spans (unitCount s)) (start stop : Nat) :
    (unitsBetween (units s) start stop).IsPlain N := by
  refine N.spans_le (Nat.le_trans (unitCount_ofUnits_le _) ?_) hs
  rw [List.length_take, List.length_drop, length_units]
  omega

theorem textMethod_acts {method : TextMethod} {s : String} (hs : N.spans (unitCount s))
    (hletters : mapsLetters method.name = true → ∀ length, N.spans length) (args : List Value)
    (hloc : N.Place loc) :
    Acts G K (textMethod method s args loc) (textMethod method s args loc) := by
  refine .peek fun m m' e => ?_
  rw [e.heap]
  cases method with
  | charAt =>
    refine .pure (K.plain (spans_units ?_))
    exact Nat.le_trans Option.length_toList_le (by decide)
  | substring => exact .pure (K.plain (isPlain_unitsBetween hs _ _))
  | slice => exact .pure (K.plain (isPlain_unitsBetween hs _ _))
  | split => exact split_acts hs args hloc
  | toUpperCase => exact .pure (K.plain (hletters (by decide) _))
  | toLowerCase => exact .pure (K.plain (hletters (by decide) _))
  | trim => exact .pure (K.plain (N.spans_le (unitCount_trim_le s) hs))
  | repeat_ => exact repeated_acts s args hloc
  | padStart => exact padded_acts _ hs args hloc
  | padEnd => exact padded_acts _ hs args hloc
  | replace => exact replaced_acts s args hloc
  | _ => exact .pure (K.plain trivial)

theorem callTextMethod_acts {method : TextMethod} {s : String} (hs : N.spans (unitCount s))
    (hletters : mapsLetters method.name = true → ∀ length, N.spans length) (args : List Value)
    (hloc : N.Place loc) :
    Acts G K (callTextMethod method s args loc) (callTextMethod method s args loc) := by
  refine .bind (textMethod_acts hs hletters args hloc) fun shown K' _ hs => ?_
  exact tell_acts (by decide) hloc hs

end ScriptReplay
