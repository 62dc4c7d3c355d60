/-
The actions of expressions.

* `evalExpr_acts` : every expression of a region is evaluated by actions, given that its parts
  are, and the functions of the region if it is a call.
-/
import ScriptReplay.Proofs.Actions.Calls
import ScriptReplay.Run.Eval

namespace ScriptReplay

variable {G : Gap} {N : Region} {S : Ground N} {K : Stock N} {w w' : Walker} {loc : Location}

/-! ### Literals -/

theorem evalTemplate_acts (hw : Walks G S w w') (texts : List String) {parts : List Expr}
    (hp : ∀ e ∈ parts, S.has (.expr e)) :
    Acts G K (evalTemplate w texts parts) (evalTemplate w' texts parts) := by
  induction texts generalizing K parts with
  | nil => exact .pure trivial
  | cons text texts ih =>
    cases parts with
    | nil => exact .andThen (ih hp) fun _ => .pure trivial
    | cons e parts =>
      refine .andThen (hw.eval (hp e List.mem_cons_self) K) fun v => ?_
      refine .andThen (plainOf_acts v) fun part => ?_
      exact .andThen (ih fun e' h => hp e' (List.mem_cons_of_mem _ h)) fun _ => .pure trivial

/-- The items of an array literal and what follows.  There is one value for each item,
holes included. -/
theorem evalItems_then_acts (hw : Walks G S w w') {items : List (Option Expr)}
    (hi : ∀ e, some e ∈ items → S.has (.expr e)) {α : Type} [Carries α]
    {k k' : List Value → Run α}
    (hthen : ∀ vs (K' : Stock N), K ≤ K' → (∀ v ∈ vs, K'.has v) → vs.length = items.length →
      Acts G K' (k vs) (k' vs)) :
    Acts G K (evalItems w items >>= k) (evalItems w' items >>= k') := by
  induction items generalizing K k k' with
  | nil =>
    unfold evalItems
    rw [pure_bind, pure_bind]
    exact hthen [] K (Stock.le_refl K) (by simp) rfl
  | cons item rest ih =>
    have hrest : ∀ e, some e ∈ rest → S.has (.expr e) :=
      fun e h => hi e (List.mem_cons_of_mem _ h)
    have htail : ∀ (K' : Stock N) (v : Value), K ≤ K' → K'.has v → Acts G K'
        (evalItems w rest >>= fun vs => k (v :: vs))
        (evalItems w' rest >>= fun vs => k' (v :: vs)) := by
      intro K' v hK hv
      refine ih hrest fun vs K'' hK' hvs hlength => ?_
      refine hthen (v :: vs) K'' (Stock.le_trans hK hK')
        (List.forall_mem_cons.2 ⟨hK' _ hv, hvs⟩) ?_
      rw [List.length_cons, List.length_cons, hlength]
    unfold evalItems
    cases item with
    | some e =>
      simp only [bind_assoc, pure_bind]
      exact .bind (hw.eval (hi e List.mem_cons_self) K) fun v K' hK hv => htail K' v hK hv
    | none =>
      simp only [bind_assoc, pure_bind]
      exact htail K _ (Stock.le_refl K) (K.plain trivial)

/-- The value of an expression in a place with a name, which must not be too long if a
function takes it. -/
theorem evalNamed_acts (hw : Walks G S w w') {e : Expr} (he : S.has (.expr e)) {name : String}
    (hname : e.routine?.isSome = true → N.spans (unitCount name)) :
    Acts G K (evalNamed w e name) (evalNamed w' e name) := by
  unfold evalNamed
  split
  · next r hr =>
    refine .makeFunction (S.region (S.exprPart he ?_)) fun name' h => ?_
    · cases e with
      | function r' l =>
        cases hr
        exact List.mem_cons_self
      | _ => cases hr
    · cases h
      exact hname (hr ▸ rfl)
  · exact hw.eval he K

theorem evalProperties_acts (hw : Walks G S w w') {acc : Table Value}
    (ha : ∀ v ∈ acc.values, K.has v) {properties : List Property}
    (hp : ∀ p ∈ properties, S.has (.expr p.value) ∧ N.spans (unitCount p.key)) :
    Acts G K (evalProperties w acc properties) (evalProperties w' acc properties) := by
  induction properties generalizing K acc with
  | nil => exact .pure ha
  | cons p rest ih =>
    obtain ⟨hvalue, hkey⟩ := hp p List.mem_cons_self
    refine .bind (evalNamed_acts hw hvalue fun _ => hkey) fun v K' hK hv => ?_
    refine ih (fun u hu => ?_) fun q hq => hp q (List.mem_cons_of_mem _ hq)
    rcases Table.mem_values_insert hu with rfl | hu
    · exact hv
    · exact hK u (ha u hu)

theorem createArray_acts {items : Array Value} (hv : ∀ v ∈ items, K.has v)
    (hs : N.fits items.size) (hloc : N.Place loc) :
    Acts G K (createArray items loc) (createArray items loc) :=
  .bind (newArray_acts hv hs) fun _ _ _ hr => tell_acts (by decide) hloc hr

theorem createObject_acts {properties : Table Value} (hv : ∀ v ∈ properties.values, K.has v)
    (hloc : N.Place loc) :
    Acts G K (createObject properties loc) (createObject properties loc) :=
  .bind (newObject_acts hv) fun _ _ _ hr => tell_acts (by decide) hloc hr

/-! ### Operators -/

/-- What an operator gives is plain, if a text among it is not too long. -/
theorem isPlain_applyBinary {h : Heap} {op : BinaryOp} {a b : Value}
    (hs : (applyBinary h op a b).Spans N) : (applyBinary h op a b).IsPlain N := by
  cases op with
  | add =>
    unfold applyBinary at hs ⊢
    dsimp only at hs ⊢
    split
    · rwa [if_pos ‹_›] at hs
    · exact trivial
  | _ => exact trivial

theorem isPlain_applyCompound {h : Heap} {op : BinaryOp} {a b : Value}
    (hs : (applyCompound h op a b).Spans N) : (applyCompound h op a b).IsPlain N := by
  unfold applyCompound at hs ⊢
  split
  · rw [if_pos ‹_›] at hs
    exact isPlain_applyBinary hs
  · exact trivial

theorem unitCount_typeName (v : Value) : unitCount v.typeName ≤ 64 := by
  have hshort : ∀ name ∈ ["undefined", "object", "boolean", "number", "string", "function"],
      unitCount name ≤ 64 := by
    decide +kernel
  refine hshort _ ?_
  cases v with
  | _ => simp [Value.typeName]

theorem isPlain_applyUnary (h : Heap) (op : UnaryOp) (v : Value) :
    (applyUnary h op v).IsPlain N := by
  cases op with
  | typeOf => exact N.spans_of_short (unitCount_typeName v)
  | _ => exact trivial

theorem evalBinary_acts (hw : Walks G S w w') (op : BinaryOp) {left right : Expr}
    (hl : S.has (.expr left)) (hr : S.has (.expr right)) (hloc : N.Place loc) :
    Acts G K (evalBinary w op left right loc) (evalBinary w' op left right loc) := by
  unfold evalBinary
  refine .andThen (hw.eval hl K) fun a => ?_
  refine .andThen (hw.eval hr K) fun b => ?_
  refine .peek fun m m' e => ?_
  rw [e.heap]
  refine checkText_then_acts hloc fun hspans => ?_
  refine .andThen (inspect_acts a) fun _ => ?_
  refine .andThen (inspect_acts b) fun _ => ?_
  exact tell_acts (by decide) hloc (K.plain (isPlain_applyBinary hspans))

/-! ### Members -/

/-- The name of a property and what follows.  It is the one given in the
program, if one is. -/
theorem keyText_then_acts (hw : Walks G S w w') {key : Key} (hk : ∀ n ∈ key.parts, S.has n)
    {α : Type} [Carries α] {k k' : String → Run α}
    (hthen : ∀ name (K' : Stock N), K ≤ K' → (∀ given, key = .named given → name = given) →
      Acts G K' (k name) (k' name)) :
    Acts G K (keyText w key >>= k) (keyText w' key >>= k') := by
  cases key with
  | named name =>
    refine hthen name K (Stock.le_refl K) fun given h => ?_
    cases h
    rfl
  | computed e =>
    unfold keyText
    rw [bind_assoc, bind_assoc]
    refine .bind (hw.eval (hk _ List.mem_cons_self) K) fun v K' hK _ => ?_
    exact .andThen (plainOf_acts v) fun name => hthen name K' hK fun given h => by cases h

/-- A search for a member of a name of the language and what follows.  If one is found,
it is plain. -/
theorem unboundMember?_then_acts {e : Expr} (he : N.has (.expr e)) {α : Type} [Carries α]
    {k k' : Option Value → Run α}
    (hthen : ∀ found, (∀ v, found = some v → v.IsPlain N) → Acts G K (k found) (k' found)) :
    Acts G K (unboundMember? e >>= k) (unboundMember? e >>= k') := by
  unfold unboundMember?
  split
  · rw [pure_bind, pure_bind]
    exact hthen none (by simp)
  · next owner member hs =>
    rw [bind_assoc, bind_assoc]
    refine .andThen (isBound_acts owner) fun bound => ?_
    split
    · rw [pure_bind, pure_bind]
      exact hthen none (by simp)
    · rw [pure_bind, pure_bind]
      exact hthen _ fun v hv => isPlain_languageMember he hs hv

theorem isStraight_accessKind? {base : Value} {key : String} {kind : StepKind}
    (h : accessKind? base key = some kind) : kind.isStraight = true := by
  unfold accessKind? at h
  grind [StepKind.isStraight, StepKind.isOrdinary]

theorem evalMember_acts (hw : Walks G S w w') {object : Expr} {key : Key}
    (he : N.has (.expr (.member object key loc))) (ho : S.has (.expr object))
    (hk : ∀ n ∈ key.parts, S.has n) :
    Acts G K (evalMember w object key loc) (evalMember w' object key loc) := by
  have hloc : N.Place loc := Region.place_expr he
  refine unboundMember?_then_acts he fun found hf => ?_
  -- A member of the language itself is no property of anything and leaves no step.
  cases found with
  | some v => exact .pure (K.plain (hf v rfl))
  | none =>
    refine .bind (hw.eval ho K) fun base K₁ _ hb => ?_
    refine keyText_then_acts hw hk fun name K₂ h₂ _ => ?_
    refine .bind (readProperty_acts (h₂ _ hb) name hloc) fun v K' _ hv => ?_
    cases hkind : accessKind? base name with
    | none => exact .pure hv
    | some kind => exact tell_acts (isStraight_accessKind? hkind) hloc hv

/-! ### Writes -/

/-- What is written, the test of it, and what follows. -/
theorem assigned_then_acts (op : AssignOp) (old : Option Value) {v : Value} (hv : K.has v)
    (hloc : N.Place loc) {α : Type} [Carries α] {k : Value → Run α}
    (hk : ∀ result, K.has result → Acts G K (k result) (k result)) :
    Acts G K (do let result ← assigned op old v; checkText result loc; k result)
      (do let result ← assigned op old v; checkText result loc; k result) := by
  unfold assigned
  split
  · rw [bind_assoc]
    refine .peek fun m m' e => ?_
    rw [e.heap, pure_bind]
    exact checkText_then_acts hloc fun hspans => hk _ (K.plain (isPlain_applyCompound hspans))
  · rw [pure_bind]
    exact checkText_then_acts hloc fun _ => hk v hv

theorem oldValue_acts (op : AssignOp) {reading reading' : Run Value}
    (hr : Acts G K reading reading') :
    Acts G K (oldValue op reading) (oldValue op reading') := by
  cases op with
  | plain => exact .pure (by simp [Carries.within])
  | compound bin =>
    refine .bind hr fun v K' _ hv => .pure fun u hu => ?_
    cases hu
    exact hv

theorem assignToName_acts (hw : Walks G S w w') {op : AssignOp} {name : String} {l : Location}
    {value : Expr} (he : N.has (.expr (.assign op (.name name l) value loc)))
    (hv : S.has (.expr value)) :
    Acts G K (assignToName w op name value loc) (assignToName w' op name value loc) := by
  have hloc : N.Place loc := Region.place_expr he
  have hname : N.spans (unitCount name) := N.word he List.mem_cons_self
  unfold assignToName
  refine .andThen (oldValue_acts op (readName_acts fun h => ?_)) fun old => ?_
  · exact N.free he (Expr.writesFreely_of_readName? (congrArg some h))
  refine .bind (evalNamed_acts hw hv fun _ => hname) fun v K₁ _ hv => ?_
  refine assigned_then_acts op old hv hloc fun result hr => ?_
  refine .andThen (assignName_acts name hr hloc) fun _ => ?_
  exact tell_acts (by decide) hloc hr

/-- A search for a family that a target adds to, and what follows.  The method has the name
that is given. -/
theorem addition?_then_acts (object : Expr) (key : Key) {α : Type} [Carries α]
    {k k' : Option (Family × String) → Run α}
    (hthen : ∀ found, (∀ family method, found = some (family, method) → key = .named method) →
      Acts G K (k found) (k' found)) :
    Acts G K (addition? object key >>= k) (addition? object key >>= k') := by
  unfold addition?
  split
  · next owner method _ =>
    rw [bind_assoc, bind_assoc]
    refine .andThen (isBound_acts owner) fun bound => ?_
    split
    · rw [pure_bind, pure_bind]
      exact hthen none (by simp)
    · rw [pure_bind, pure_bind]
      refine hthen _ fun family method' h => ?_
      obtain ⟨found, -, hpair⟩ := Option.map_eq_some_iff.1 h
      cases hpair
      rfl
  · rw [pure_bind, pure_bind]
    exact hthen none (by simp)

theorem assignAddition_acts (hw : Walks G S w w') (family : Family) {method : String}
    (hname : N.spans (unitCount method)) {value : Expr} (hv : S.has (.expr value))
    (hloc : N.Place loc) :
    Acts G K (assignAddition w family method value loc)
      (assignAddition w' family method value loc) := by
  unfold assignAddition
  refine .bind (evalNamed_acts hw hv fun _ => hname) fun v K' _ hv => ?_
  refine .andThen (.change (.addMethod family method v) (fun u hu => ?_) trivial trivial)
    fun _ => ?_
  · rw [List.mem_singleton.1 hu]
    exact hv
  exact tell_acts (by decide) hloc hv

theorem isStraight_modifyKind? {base : Value} {kind : StepKind}
    (h : modifyKind? base = some kind) : kind.isStraight = true := by
  unfold modifyKind? at h
  grind [StepKind.isStraight, StepKind.isOrdinary]

theorem assignToMember_acts (hw : Walks G S w w') {op : AssignOp} {object : Expr} {key : Key}
    {l : Location} {value : Expr}
    (he : N.has (.expr (.assign op (.member object key l) value loc)))
    (ho : S.has (.expr object)) (hk : ∀ n ∈ key.parts, S.has n) (targetText : String)
    (hv : S.has (.expr value)) :
    Acts G K (assignToMember w op object key targetText value loc)
      (assignToMember w' op object key targetText value loc) := by
  have hloc : N.Place loc := Region.place_expr he
  unfold assignToMember
  refine .bind (hw.eval ho K) fun base K₁ _ hb => ?_
  refine keyText_then_acts hw hk fun name K₂ h₂ hgiven => ?_
  -- A function takes a name that is given in the program, or else one of any length.
  have hname : value.routine?.isSome = true → N.spans (unitCount name) := by
    intro hroutine
    cases key with
    | named given =>
      rw [hgiven given rfl]
      exact N.word he List.mem_cons_self
    | computed e => exact N.free he hroutine _
  refine .andThen (oldValue_acts op (readProperty_acts (h₂ _ hb) name hloc)) fun old => ?_
  refine .bind (evalNamed_acts hw hv hname) fun v K₃ _ hv => ?_
  refine assigned_then_acts op old hv hloc fun result hr => ?_
  refine .andThen (writeProperty_acts base name hr hloc) fun _ => ?_
  cases hkind : modifyKind? base with
  | none => exact .pure hr
  | some kind => exact tell_acts (isStraight_modifyKind? hkind) hloc hr

theorem evalAssign_acts (hw : Walks G S w w') {op : AssignOp} {target : Target} {value : Expr}
    (he : N.has (.expr (.assign op target value loc))) (ht : ∀ n ∈ target.parts, S.has n)
    (hv : S.has (.expr value)) :
    Acts G K (evalAssign w op target value loc) (evalAssign w' op target value loc) := by
  cases target with
  | name name l => exact assignToName_acts hw he hv
  | member object key l =>
    refine addition?_then_acts object key fun found hfound => ?_
    cases found with
    | some added =>
      obtain rfl := hfound added.1 added.2 rfl
      exact assignAddition_acts hw added.1
        (N.word he List.mem_cons_self) hv (Region.place_expr he)
    | none =>
      exact assignToMember_acts hw he (ht _ List.mem_cons_self)
        (fun n hn => ht n (List.mem_cons_of_mem _ hn)) _ hv

theorem countTarget_acts (hw : Walks G S w w') {op : UpdateOp} {before : Bool}
    {target : Target} (he : N.has (.expr (.update op before target loc)))
    (ht : ∀ n ∈ target.parts, S.has n) :
    Acts G K (countTarget w op target loc) (countTarget w' op target loc) := by
  have hloc : N.Place loc := Region.place_expr he
  cases target with
  | name name l =>
    refine .andThen
      (readName_acts fun h => N.free he (Expr.writesFreely_of_readName? (congrArg some h)))
      fun v => ?_
    refine .andThen (numberOf_acts v) fun old => ?_
    refine .andThen (assignName_acts name (K.plain trivial) hloc) fun _ => ?_
    exact .pure ⟨trivial, trivial⟩
  | member object key l =>
    refine .bind (hw.eval (ht _ List.mem_cons_self) K) fun base K₁ _ hb => ?_
    refine keyText_then_acts hw (fun n hn => ht n (List.mem_cons_of_mem _ hn))
      fun name K₂ h₂ _ => ?_
    refine .andThen (readProperty_acts (h₂ _ hb) name hloc) fun v => ?_
    refine .andThen (numberOf_acts v) fun old => ?_
    refine .andThen (writeProperty_acts base name (K₂.plain trivial) hloc) fun _ => ?_
    exact .pure ⟨trivial, trivial⟩

theorem evalUpdate_acts (hw : Walks G S w w') {op : UpdateOp} {before : Bool}
    {target : Target} (he : N.has (.expr (.update op before target loc)))
    (ht : ∀ n ∈ target.parts, S.has n) :
    Acts G K (evalUpdate w op before target loc) (evalUpdate w' op before target loc) := by
  refine .andThen (countTarget_acts hw he ht) fun counted => ?_
  refine .andThen (.record (.of_kind (by decide)) (Region.place_expr he)) fun _ => ?_
  exact .pure (K.plain trivial)

/-! ### Calls -/

theorem callAdded_acts (hw : Enters G N w w') (family : Family) {receiver : Value}
    (hr : K.has receiver) (method : String) {args : List Value} (ha : ∀ v ∈ args, K.has v)
    (callee : Expr) (hloc : N.Place loc) :
    Acts G K (callAdded w family receiver method args callee loc)
      (callAdded w' family receiver method args callee loc) := by
  refine .look fun m m' K' e hK hm _ => ?_
  rw [e.prototypes]
  split
  · next f hf =>
    refine callFunction_acts hw (hm _ (Machine.holds_of_method? hf)) (fun v h => ?_)
      (fun v h => hK v (ha v h)) _ _ hloc
    cases h
    exact hK _ hr
  · exact .fail hloc

theorem callMethod_acts (hw : Enters G N w w') {receiver : Value} (hr : K.has receiver)
    {method : String} (hletters : mapsLetters method = true → ∀ length, N.spans length)
    {args : List Value} (ha : ∀ v ∈ args, K.has v) (callee : Expr) (hloc : N.Place loc) :
    Acts G K (callMethod w receiver method args callee loc)
      (callMethod w' receiver method args callee loc) := by
  have hadded := fun (K' : Stock N) (hK : K ≤ K') (family : Family) =>
    callAdded_acts hw family (hK _ hr) method (fun v h => hK v (ha v h)) callee hloc
  cases receiver with
  | array id =>
    unfold callMethod
    dsimp only
    split
    · exact callArrayMethod_acts hw _ hr ha hloc
    · exact hadded K (Stock.le_refl K) .array
  | string s =>
    unfold callMethod
    dsimp only
    split
    · next tm htm =>
      have hname : tm.name = method :=
        eq_of_beq (List.find?_some (p := fun tm : TextMethod => tm.name == method) htm)
      exact callTextMethod_acts (K.legal hr) (hname ▸ hletters) _ hloc
    · exact hadded K (Stock.le_refl K) .text
  | object id =>
    refine .look fun m m' K' e hK hm _ => ?_
    rw [e.heap]
    split
    · next f hf =>
      obtain ⟨properties, hp, hv⟩ := Option.bind_eq_some_iff.1 hf
      have hfun := hm _ (Machine.holds_of_mem_object hp (Table.mem_values_of_get? hv))
      -- A function in the object itself comes before the methods added to all objects.
      refine callFunction_acts hw hfun (fun v h => ?_) (fun v h => hK v (ha v h)) _ _ hloc
      cases h
      exact hK _ hr
    · exact hadded K' hK .object
  | null => exact .andThen (inspect_acts _) fun _ => .fail hloc
  | undefined => exact .andThen (inspect_acts _) fun _ => .fail hloc
  | bool b => exact .fail hloc
  | number x => exact .fail hloc
  | function f => exact .fail hloc

theorem callValue_acts (hw : Walks G S w w') (hcall : Enters G N w w') {callee : Expr}
    {arguments : List Expr} (he : ∀ n ∈ Node.expr callee :: arguments.map .expr, S.has n)
    (hloc : N.Place loc) :
    Acts G K (callValue w callee arguments loc) (callValue w' callee arguments loc) := by
  have hargs : ∀ e ∈ arguments, S.has (.expr e) :=
    fun e h => he _ (List.mem_cons_of_mem _ (List.mem_map_of_mem h))
  refine .bind (hw.eval (he _ List.mem_cons_self) K) fun f K₁ h₁ hf => ?_
  refine .bind (evalAll_acts hw hargs) fun args K₂ h₂ ha => ?_
  cases f with
  | function f => exact callFunction_acts hcall (h₂ _ hf) (by simp) ha _ _ hloc
  | _ => exact .fail hloc

theorem evalCall_acts (hw : Walks G S w w') (hcall : Enters G N w w') {callee : Expr}
    {arguments : List Expr} (hnode : N.has (.expr (.call callee arguments loc)))
    (he : ∀ n ∈ Node.expr callee :: arguments.map .expr, S.has n) :
    Acts G K (evalCall w callee arguments loc) (evalCall w' callee arguments loc) := by
  have hloc : N.Place loc := Region.place_expr hnode
  have hcallee : S.has (.expr callee) := he _ List.mem_cons_self
  have hargs : ∀ e ∈ arguments, S.has (.expr e) :=
    fun e h => he _ (List.mem_cons_of_mem _ (List.mem_map_of_mem h))
  refine unboundMember?_then_acts (S.region hcallee) fun found hf => ?_
  cases found with
  | some v =>
    cases v with
    | function f =>
      -- Only functions of the language are members of its names.
      cases f with
      | native name =>
        exact .andThen (evalAll_acts hw hargs) fun args =>
          callNative_acts (hf _ rfl) args hloc
      | script name r chain => exact (hf _ rfl).elim
    | _ => exact .fail hloc
  | none =>
    cases callee with
    | member object key l =>
      refine .bind (hw.eval (S.exprPart hcallee List.mem_cons_self) K)
        fun receiver K₁ h₁ hr => ?_
      refine keyText_then_acts hw (fun n hn => S.exprPart hcallee (List.mem_cons_of_mem _ hn))
        fun method K₂ h₂ hgiven => ?_
      have hletters : mapsLetters method = true → ∀ length, N.spans length := by
        intro hmaps
        cases key with
        | named given =>
          rw [hgiven given rfl] at hmaps
          exact N.free hnode hmaps
        | computed e => exact N.free hnode rfl
      refine .bind (evalAll_acts hw hargs) fun args K₃ h₃ ha => ?_
      exact callMethod_acts hcall (h₃ _ (h₂ _ hr)) hletters ha _ hloc
    | _ => exact callValue_acts hw hcall he hloc

/-! ### Constructions -/

theorem constructArray_acts {args : List Value} (ha : ∀ v ∈ args, K.has v)
    (hloc : N.Place loc) : Acts G K (constructArray args loc) (constructArray args loc) := by
  unfold constructArray
  dsimp only
  split
  · refine requestedLength_then_acts _ hloc fun length hfit => ?_
    rw [pure_bind]
    refine createArray_acts (fun v hv => ?_) (by rwa [Array.size_replicate]) hloc
    rw [(Array.mem_replicate.1 hv).2]
    exact K.plain trivial
  · refine checkArrayLength_then_acts hloc fun hfit => ?_
    rw [pure_bind]
    exact createArray_acts (fun v hv => ha v (List.mem_toArray.1 hv)) hfit hloc

theorem constructNamed_acts (name : String) {args : List Value} (ha : ∀ v ∈ args, K.has v)
    (hloc : N.Place loc) :
    Acts G K (constructNamed name args loc) (constructNamed name args loc) := by
  unfold constructNamed
  split
  · exact constructArray_acts ha hloc
  · split
    · exact createObject_acts (by simp [Table.empty, Table.values]) hloc
    · exact .fail hloc

theorem constructBy_acts (hw : Enters G N w w') {f : Callable} (hf : K.has (.function f))
    {args : List Value} (ha : ∀ v ∈ args, K.has v) (hloc : N.Place loc) :
    Acts G K (constructBy w f args loc) (constructBy w' f args loc) := by
  refine .bind (newObject_acts (by simp [Table.empty, Table.values]))
    fun instanceValue K₁ h₁ hi => ?_
  refine .bind
    (callFunction_acts hw (h₁ _ hf) (fun v h => ?_) (fun v h => h₁ v (ha v h)) _ _ hloc)
    fun result K₂ h₂ hr => ?_
  · cases h
    exact hi
  · -- Only an array or an object takes the place of the new object.
    cases result with
    | object id => exact .pure hr
    | array id => exact .pure hr
    | _ => exact .pure (h₂ _ hi)

/-- The constructor is the value of an expression. -/
theorem constructValue_acts (hw : Walks G S w w') (hcall : Enters G N w w') {callee : Expr}
    (hc : S.has (.expr callee))
    {arguments : List Expr} (ha : ∀ e ∈ arguments, S.has (.expr e)) (hloc : N.Place loc) :
    Acts G K
      (do let constructor ← w.eval callee
          let args ← w.evalAll arguments
          match constructor with
          | .function f =>
            if f.constructs then constructBy w f args loc
              else failAt (.notConstructor callee.text) loc
          | _ => failAt (.notConstructor callee.text) loc)
      (do let constructor ← w'.eval callee
          let args ← w'.evalAll arguments
          match constructor with
          | .function f =>
            if f.constructs then constructBy w' f args loc
              else failAt (.notConstructor callee.text) loc
          | _ => failAt (.notConstructor callee.text) loc) := by
  refine .bind (hw.eval hc K) fun v K₁ h₁ hv => ?_
  refine .bind (evalAll_acts hw ha) fun args K₂ h₂ hargs => ?_
  cases v with
  | function f =>
    dsimp only
    split
    · exact constructBy_acts hcall (h₂ _ hv) hargs hloc
    · exact .fail hloc
  | _ => exact .fail hloc

theorem evalNew_acts (hw : Walks G S w w') (hcall : Enters G N w w') {callee : Expr}
    {arguments : List Expr} (he : ∀ n ∈ Node.expr callee :: arguments.map .expr, S.has n)
    (hloc : N.Place loc) :
    Acts G K (evalNew w callee arguments loc) (evalNew w' callee arguments loc) := by
  have hcallee := he _ List.mem_cons_self
  have hargs : ∀ e ∈ arguments, S.has (.expr e) :=
    fun e h => he _ (List.mem_cons_of_mem _ (List.mem_map_of_mem h))
  unfold evalNew
  dsimp only
  split
  · next name _ =>
    refine .andThen (isBound_acts name) fun bound => ?_
    split
    · rw [pure_bind, pure_bind]
      exact constructValue_acts hw hcall hcallee hargs hloc
    · rw [pure_bind, pure_bind]
      exact .bind (evalAll_acts hw hargs) fun args K' _ ha => constructNamed_acts name ha hloc
  · rw [pure_bind, pure_bind]
    exact constructValue_acts hw hcall hcallee hargs hloc

/-! ### Expressions -/

/-- Calls and constructions. -/
def Expr.isCall : Expr → Bool
  | .call _ _ _ | .new _ _ _ => true
  | _ => false

theorem evalExpr_acts (hw : Walks G S w w') {e : Expr}
    (hcall : e.isCall = true → Enters G N w w') (hparts : ∀ n ∈ e.parts, S.has n)
    (he : N.has (.expr e)) : Acts G K (evalExpr w e) (evalExpr w' e) := by
  have hloc : N.Place e.loc := Region.place_expr he
  cases e with
  | number x l => exact .pure (K.plain trivial)
  | string s l => exact .pure (K.plain (N.word he List.mem_cons_self))
  | bool b l => exact .pure (K.plain trivial)
  | null l => exact .pure (K.plain trivial)
  | template texts parts l =>
    refine .andThen (evalTemplate_acts hw texts fun e h => hparts _ (List.mem_map_of_mem h))
      fun s => ?_
    exact checkText_then_acts hloc fun hspans => .pure (K.plain hspans)
  | ident name l =>
    exact readName_acts fun h => N.free he (Expr.writesFreely_of_readName? (congrArg some h))
  | this l => exact readName_acts fun h => absurd h (by decide)
  | array items l =>
    refine evalItems_then_acts hw (fun e h => hparts _ (List.mem_map_of_mem ?_))
      fun vs K' _ hv hlength => ?_
    · exact List.mem_filterMap.2 ⟨some e, h, rfl⟩
    · refine createArray_acts (fun v h => hv v (List.mem_toArray.1 h)) ?_ hloc
      rw [List.size_toArray, hlength]
      exact N.literal he
  | object properties l =>
    refine .bind (evalProperties_acts hw (by simp [Table.empty, Table.values]) fun p h => ?_)
      fun t K' _ ht => ?_
    · refine ⟨hparts _ (List.mem_map_of_mem (f := fun p : Property => Node.expr p.value) h),
        N.word he ?_⟩
      exact List.mem_map_of_mem (f := fun p : Property => p.key) h
    · exact createObject_acts ht hloc
  | function r l => exact .makeFunction (S.region (hparts _ List.mem_cons_self)) (by simp)
  | unary op e l =>
    refine .andThen (hw.eval (hparts _ List.mem_cons_self) K) fun v => ?_
    refine .peek fun m m' e => ?_
    rw [e.heap]
    exact .pure (K.plain (isPlain_applyUnary _ op v))
  | update op before target l => exact evalUpdate_acts hw he hparts
  | binary op left right l =>
    exact evalBinary_acts hw op (hparts _ List.mem_cons_self)
      (hparts _ (List.mem_cons_of_mem _ List.mem_cons_self)) hloc
  | logical op left right l =>
    refine .bind (hw.eval (hparts _ List.mem_cons_self) K) fun v K' _ hv => ?_
    split
    · exact .pure hv
    · exact hw.eval (hparts _ (List.mem_cons_of_mem _ List.mem_cons_self)) K'
  | assign op target value l =>
    exact evalAssign_acts hw he (fun n hn => hparts n (List.mem_cons_of_mem _ hn))
      (hparts _ List.mem_cons_self)
  | conditional test yes no l =>
    refine .andThen (hw.eval (hparts _ List.mem_cons_self) K) fun v => ?_
    split
    · exact hw.eval (hparts _ (by simp [Expr.parts])) K
    · exact hw.eval (hparts _ (by simp [Expr.parts])) K
  | call callee arguments l => exact evalCall_acts hw (hcall rfl) he hparts
  | new callee arguments l => exact evalNew_acts hw (hcall rfl) hparts hloc
  | member object key l =>
    exact evalMember_acts hw he (hparts _ List.mem_cons_self) fun n hn =>
      hparts n (List.mem_cons_of_mem _ hn)
  | await e l => exact hw.eval (hparts _ List.mem_cons_self) K

end ScriptReplay
