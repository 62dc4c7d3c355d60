/-
What evaluation is made of.

Every rule of evaluation is put together from a few kinds of actions: it looks at the state,
reads a ceiling, fails, records a step, makes one of the changes listed in `Change`, takes a
new slot, makes a function, or does all this inside a block or a call.  `Acts` says so of two
computations at once: they are put together in the same way, and store and return only values
that they have at hand.

* `Carries` : the values inside an answer;
* `Stock` : the values at hand;
* `Machine.Alike` : states between which no rule can tell;
* `Change`, `inLoopScope`, `toldCall` : the actions;
* `Gap` : how two runs may differ;
* `Gap.Tells`, `Gap.Serves` : what is known of steps and of calls;
* `Acts` : computations made of the same actions.

Design notes: the two computations are the same rule for two walkers, so a proof about two
runs and a proof about one run both follow the derivation.  A continuation is derived for
every stock above the present one, so the values at hand can be read as the values that are
sound in the present state; in proofs to which values do not matter the stock is taken to
be everything.  The gap between the runs can change at a call, since a call uses up some of
the depth that the fuel was given for.  It also says how much a derivation tells: one of an
expression alone tells which steps belong to the calls in it.
-/
import ScriptReplay.Proofs.Node
import ScriptReplay.Proofs.Outcome
import ScriptReplay.Proofs.Units

namespace ScriptReplay

/-! ### Values inside answers -/

/-- Types of answers.  `within P a` holds if every value inside `a` satisfies `P`. -/
class Carries (α : Type) where
  within : (Value → Prop) → α → Prop
  mono : ∀ {P Q : Value → Prop} {a : α}, (∀ v, P v → Q v) → within P a → within Q a
  all : ∀ {P : Value → Prop}, (∀ v, P v) → ∀ a : α, within P a

/-- Answers without values. -/
@[reducible]
def Carries.nothing {α : Type} : Carries α :=
  ⟨fun _ _ => True, fun _ h => h, fun _ _ => trivial⟩

instance : Carries Unit := .nothing
instance : Carries Bool := .nothing
instance : Carries Nat := .nothing
instance : Carries Float := .nothing
instance : Carries String := .nothing
instance : Carries Family := .nothing

instance : Carries Value where
  within P v := P v
  mono h hv := h _ hv
  all h v := h v

instance : Carries Callable where
  within P f := P (.function f)
  mono h hf := h _ hf
  all h f := h (.function f)

variable {α β : Type}

instance [Carries α] [Carries β] : Carries (α × β) where
  within P a := Carries.within P a.1 ∧ Carries.within P a.2
  mono h ha := ⟨Carries.mono h ha.1, Carries.mono h ha.2⟩
  all h a := ⟨Carries.all h a.1, Carries.all h a.2⟩

instance [Carries α] : Carries (Option α) where
  within P a := ∀ b, a = some b → Carries.within P b
  mono h ha b hb := Carries.mono h (ha b hb)
  all h _ b _ := Carries.all h b

instance [Carries α] : Carries (List α) where
  within P as := ∀ a ∈ as, Carries.within P a
  mono h has a ha := Carries.mono h (has a ha)
  all h _ a _ := Carries.all h a

instance [Carries α] : Carries (Table α) where
  within P t := ∀ a ∈ t.values, Carries.within P a
  mono h ht a ha := Carries.mono h (ht a ha)
  all h _ a _ := Carries.all h a

instance : Carries Completion where
  within P c := ∀ v, c = .ret v → P v
  mono h hc v hv := h _ (hc v hv)
  all h _ v _ := h v

instance : Carries Findings where
  within P found := (∀ v ∈ found.kept, P v) ∧ ∀ e, found.hit = some e → P e.2
  mono h hf := ⟨fun v hv => h _ (hf.1 v hv), fun e he => h _ (hf.2 e he)⟩
  all h _ := ⟨fun v _ => h v, fun e _ => h e.2⟩

instance : Carries Shown where
  within P s := P s.value
  mono h hs := h _ hs
  all h s := h s.value

/-! ### Values at hand -/

/-- A function of the language that can be used in a region: one that makes arrays or texts of
any length only where they can have any length. -/
structure Region.Knows (N : Region) (name : String) : Prop where
  spans : N.spans (unitCount name)
  lists : listsEntries name = true → ∀ length, N.fits length
  writes : writesFreely name = true → ∀ length, N.spans length

/-- Neither an array, an object nor a function of the program; texts are as long as they may
be, and functions can be used in the region. -/
def Value.IsPlain (N : Region) : Value → Prop
  | .array _ | .object _ | .function (.script _ _ _) => False
  | .function (.native name) => N.Knows name
  | .string s => N.spans (unitCount s)
  | _ => True

/-- Not a function of the program, or one of the region with a name that is not too long;
texts are as long as they may be, and functions of the language can be used in the region. -/
def Value.Legal (N : Region) : Value → Prop
  | .function (.script name r _) => N.has (.routine r) ∧ N.spans (unitCount name)
  | .function (.native name) => N.Knows name
  | .string s => N.spans (unitCount s)
  | _ => True

/-- A short text can be used everywhere. -/
theorem Region.spans_of_short (N : Region) {s : String} (h : unitCount s ≤ 64) :
    N.spans (unitCount s) :=
  N.spans_le h N.spans_short

/-- A function takes its own name, that of the place it is put in, or the one for functions
without any. -/
theorem Region.spans_functionName {N : Region} {r : Routine} (hr : N.has (.routine r))
    {place : Option String} (hplace : ∀ name, place = some name → N.spans (unitCount name)) :
    N.spans (unitCount ((r.name.or place).getD anonymous)) := by
  cases hname : r.name with
  | some name => exact N.word hr (by simp [Node.words, hname])
  | none =>
    cases place with
    | some name => exact hplace name rfl
    | none => exact N.spans_of_short (by decide +kernel)

theorem Value.Legal.of_isPlain {N : Region} {v : Value} (hv : v.IsPlain N) : v.Legal N := by
  unfold Value.Legal
  split
  · exact hv.elim
  · exact hv
  · exact hv
  · exact trivial

/-- The values at hand.  Plain values always are, and functions are those of a region. -/
structure Stock (N : Region) where
  has : Value → Prop
  plain : ∀ {v : Value}, v.IsPlain N → has v
  legal : ∀ {v : Value}, has v → v.Legal N

instance {N : Region} : LE (Stock N) :=
  ⟨fun K K' => ∀ v, K.has v → K'.has v⟩

theorem Stock.le_refl {N : Region} (K : Stock N) : K ≤ K :=
  fun _ h => h

theorem Stock.le_trans {N : Region} {K K' K'' : Stock N} (h : K ≤ K') (h' : K' ≤ K'') :
    K ≤ K'' :=
  fun v hv => h' v (h v hv)

/-- Everything is at hand. -/
def Stock.everything : Stock .all where
  has _ := True
  plain _ := trivial
  legal {v} _ := by
    unfold Value.Legal
    split
    · exact ⟨trivial, trivial⟩
    · exact ⟨trivial, fun _ _ => trivial, fun _ _ => trivial⟩
    · exact trivial
    · exact trivial

/-- A value that is stored somewhere in a state. -/
inductive Machine.Holds (m : Machine) : Value → Prop
  | slot {id : HeapId} {s : Slot} {v : Value} : m.heap.get? id = some s →
      v ∈ s.values → m.Holds v
  | scope {id : ScopeId} {s : Scope} {b : Binding} :
    m.scopes.get? id = some s → b ∈ s.vars.values → m.Holds b.value
  | frame {f : Frame} {v : Value} : f ∈ m.stack.frames → v ∈ f.values → m.Holds v
  | method {f : Family} {v : Value} : v ∈ (m.prototypes.ofFamily f).values → m.Holds v

/-! ### States that look the same -/

/-- A scope without its name, which no rule reads. -/
def Scope.nameless (s : Scope) : Scope :=
  { s with name := "" }

/-- States that differ only in the trace, the console, the place of the last statement and the
names of scopes.  No rule of evaluation can tell them apart. -/
structure Machine.Alike (m m' : Machine) : Prop where
  heap : m'.heap = m.heap
  chain : m'.chain = m.chain
  stack : m'.stack = m.stack
  prototypes : m'.prototypes = m.prototypes
  scopes : m'.scopes.all.map Scope.nameless = m.scopes.all.map Scope.nameless

theorem Machine.Alike.refl (m : Machine) : m.Alike m :=
  ⟨rfl, rfl, rfl, rfl, rfl⟩

section
variable {s s' : Scopes} (h : s'.all.map Scope.nameless = s.all.map Scope.nameless)
include h

theorem Scopes.get?_nameless (id : ScopeId) :
    (s'.get? id).map Scope.nameless = (s.get? id).map Scope.nameless := by
  have := congrArg (·[id]?) h
  simpa [Scopes.get?] using this

/-- What can be read off a scope without its name is the same in both. -/
theorem Scopes.get?_bind_nameless {γ : Type} (f : Scope → Option γ)
    (hf : ∀ scope, f scope.nameless = f scope) (id : ScopeId) :
    (s'.get? id).bind f = (s.get? id).bind f := by
  have hnamed : ∀ o : Option Scope, o.bind f = (o.map Scope.nameless).bind f := by
    intro o
    cases o with
    | none => rfl
    | some scope => exact (hf scope).symm
  rw [hnamed, Scopes.get?_nameless h, ← hnamed]

theorem Scopes.any_nameless (f : Scope → Bool) (hf : ∀ scope, f scope.nameless = f scope)
    (id : ScopeId) : (s'.get? id).any f = (s.get? id).any f := by
  have hnamed : ∀ o : Option Scope, o.any f = (o.map Scope.nameless).any f := by
    intro o
    cases o with
    | none => rfl
    | some scope => exact (hf scope).symm
  rw [hnamed, Scopes.get?_nameless h, ← hnamed]

theorem Scopes.resolve?_nameless (chain : Chain) (name : String) :
    s'.resolve? chain name = s.resolve? chain name := by
  unfold Scopes.resolve? Scopes.binds
  congr 1
  funext id
  exact Scopes.any_nameless h _ (fun _ => rfl) id

theorem Scopes.lookup?_nameless (chain : Chain) (name : String) :
    s'.lookup? chain name = s.lookup? chain name := by
  unfold Scopes.lookup?
  rw [Scopes.resolve?_nameless h]
  congr 1
  funext id
  exact Scopes.get?_bind_nameless h _ (fun _ => rfl) id

theorem Scopes.isConst_nameless (id : ScopeId) (name : String) :
    s'.isConst id name = s.isConst id name := by
  unfold Scopes.isConst
  rw [Scopes.get?_bind_nameless h (fun scope => scope.vars.get? name) (fun _ => rfl) id]

theorem Scopes.functionScope_nameless (chain : Chain) :
    s'.functionScope chain = s.functionScope chain := by
  unfold Scopes.functionScope
  congr 2
  funext id
  exact Scopes.any_nameless h _ (fun _ => rfl) id

end

/-! ### Actions -/

/-- The state with a binding of a scope shown in the frame of its call. -/
def Machine.showBinding (m : Machine) (scope : ScopeId) (name : String) (value : Value) :
    Machine :=
  match m.scopes.owner? scope with
  | some owner => { m with stack := m.stack.bind owner name value }
  | none => m

/-- The changes that evaluation makes to a state, apart from new slots, new steps, and the
scopes and frames that it enters and leaves. -/
inductive Change where
  | declare (scope : ScopeId) (name : String) (value : Value)
  | bind (scope : ScopeId) (name : String) (value : Value) (isConst : Bool)
  | setArray (id : HeapId) (items : Array Value)
  | setObject (id : HeapId) (properties : Table Value)
  | print (line : String)
  | setResult (value : Value)
  | addMethod (family : Family) (name : String) (value : Value)
  | moveTo (loc : Location)

namespace Change

/-- The state after a change. -/
def apply : Change → Machine → Machine
  | declare scope name value, m =>
    { m with scopes := m.scopes.declare scope name value false }
  | bind scope name value isConst, m =>
    Machine.showBinding { m with scopes := m.scopes.declare scope name value isConst }
      scope name value
  | setArray id items, m => { m with heap := m.heap.setArray id items }
  | setObject id properties, m => { m with heap := m.heap.setObject id properties }
  | print line, m => { m with console := m.console.log line }
  | setResult value, m => { m with stack := m.stack.setResult value }
  | addMethod family name value, m =>
    { m with prototypes := m.prototypes.insert family name value }
  | moveTo loc, m => { m with current := some loc }

/-- A binding is written in its scope and may show in a frame, and nothing else changes. -/
theorem exists_apply_bind (m : Machine) (scope : ScopeId) (name : String) (value : Value)
    (isConst : Bool) :
    ∃ stack : CallStack, stack.lastId = m.stack.lastId ∧
      (bind scope name value isConst).apply m =
        { m with scopes := m.scopes.declare scope name value isConst, stack := stack } := by
  unfold apply Machine.showBinding
  dsimp only
  split
  · next owner _ => exact ⟨m.stack.bind owner name value, rfl, rfl⟩
  · exact ⟨m.stack, rfl, rfl⟩

theorem scopes_bind (m : Machine) (scope : ScopeId) (name : String) (value : Value)
    (isConst : Bool) :
    ((bind scope name value isConst).apply m).scopes =
      m.scopes.declare scope name value isConst := by
  obtain ⟨stack, -, happly⟩ := exists_apply_bind m scope name value isConst
  rw [happly]

/-- The values that a change stores. -/
def values : Change → List Value
  | declare _ _ value | bind _ _ value _ | setResult value | addMethod _ _ value => [value]
  | setArray _ items => items.toList
  | setObject _ properties => properties.values
  | print _ | moveTo _ => []

/-- A change that prints nothing.  A line is only printed together with the step that
tells of it. -/
def Silent : Change → Prop
  | print _ => False
  | _ => True

/-- A change that evaluation can make in a region.  Statements stand where a node does, a
parameter is bound apart from its call only where parameters have fallbacks, and arrays are as
long as they may be. -/
def Fits (N : Region) : Change → Prop
  | moveTo loc => N.Place loc
  | declare _ _ _ => ¬ N.NoFallbacks
  | setArray _ items => N.fits items.size
  | _ => True

end Change

/-- Prints a line and adds the step that tells of it. -/
def say (line : String) (kind : StepKind) (loc : Location) (description : String) :
    Run Unit := do
  modify (Change.print line).apply
  record kind loc description

/-- The reference to a slot. -/
def Slot.reference (id : HeapId) : Slot → Value
  | .array _ => .array id
  | .object _ => .object id

/-- A slot that evaluation can take in a region: arrays are as long as they may be. -/
def Slot.Fits (N : Region) : Slot → Prop
  | .array items => N.fits items.size
  | .object _ => True

/-- The state with a new slot. -/
def Machine.allocated (m : Machine) (s : Slot) : Machine :=
  { m with heap := (m.heap.alloc s).2 }

/-- Takes a new slot and gives the reference to it. -/
def newSlot (s : Slot) : Run Value := do
  let m ← get
  set (m.allocated s)
  return s.reference (m.heap.lastId + 1)

theorem newArray_eq (items : Array Value) : newArray items = newSlot (.array items) := rfl

theorem newObject_eq (properties : Table Value) :
    newObject properties = newSlot (.object properties) :=
  rfl

/-- A call without the steps that tell of it: below the ceiling on calls, a scope for the
call, the parameters bound in it, a frame, the body, and the scopes and frames from before. -/
def inCall (w : Walker) (shown : String) (r : Routine) (chain : Chain) (args : List Value)
    (loc : Location) (body : Table Value → Run Value) : Run Value := do
  if (← read).maxCallDepth ≤ (← get).stack.depth then failAt .callDepth loc
  let outer := (← get).chain
  let scope ← enterFunction shown chain
  let params ← bindParams w scope .empty r.params args
  modify fun m =>
    { m with stack := m.stack.push shown params (some loc) r.bodyLoc.line scope }
  let result ← body params
  modify fun m => { m with chain := outer, stack := m.stack.pop }
  return result

/-- Tells of something in words that depend on the heap, if it is to be told of. -/
def tell (recorded : Bool) (kind : StepKind) (loc : Location) (words : Heap → String) :
    Run Unit := do
  let m ← get
  if recorded then record kind loc (words m.heap)

/-- A call with the steps that tell of it, if it is to be told of.  The first shows the frame
of the call, the second does not. -/
def toldCall (recorded : Bool) (w : Walker) (shown : String) (r : Routine) (chain : Chain)
    (args : List Value) (loc : Location) (body : Run Value) : Run Value := do
  let result ← inCall w shown r chain args loc fun params => do
    tell recorded .call loc (callWords shown params)
    body
  tell recorded .return_ loc (returnWords shown result)
  return result

/-! ### Outcomes of actions -/

/-- The state with a new scope as the innermost one, inside a chain. -/
def Machine.inScope (m : Machine) (kind : ScopeKind) (name : String) (chain : Chain) :
    Machine :=
  { m with
    scopes := (m.scopes.openScope kind name chain).2
    chain := m.scopes.size :: chain }

/-- The state without its innermost scope, unless it is the only one. -/
def Machine.outOfScope (m : Machine) : Machine :=
  match m.chain with
  | _ :: outer :: rest => { m with chain := outer :: rest }
  | _ => m

theorem Machine.exists_outOfScope_eq (m : Machine) :
    ∃ chain : Chain, m.outOfScope = { m with chain := chain } := by
  unfold Machine.outOfScope
  split
  · next _ outer rest _ => exact ⟨outer :: rest, rfl⟩
  · exact ⟨m.chain, rfl⟩

/-- The state with one more call. -/
def Machine.pushed (m : Machine) (shown : String) (params : Table Value) (loc : Location)
    (line : Nat) (scope : ScopeId) : Machine :=
  { m with stack := m.stack.push shown params (some loc) line scope }

/-- The state after a call, with the scopes from before it. -/
def Machine.popped (m : Machine) (chain : Chain) : Machine :=
  { m with chain := chain, stack := m.stack.pop }

/-- The state with one more step. -/
def Machine.recorded (m : Machine) (kind : StepKind) (loc : Location) (description : String) :
    Machine :=
  { m with trace := m.trace.add (m.step kind loc description) }

namespace Run

variable (limits : RunLimits) (m : Machine)

theorem outcome_record (kind : StepKind) (loc : Location) (description : String) :
    (record kind loc description).outcome limits m =
      if m.trace.hasRoom then (.ok (), m.recorded kind loc description)
      else (.error (.failed ⟨.stepLimit m.trace.max, none⟩), m) := by
  unfold record
  rw [outcome_get_bind]
  unfold Recorder.push?
  -- The recorder takes a step just if it has room, so two of the four combinations cannot be.
  split <;> rename_i h <;> split at h
  · next hroom =>
    cases h
    rw [if_pos hroom]
    rfl
  · cases h
  · cases h
  · next hroom =>
    rw [if_neg hroom]
    rfl

theorem outcome_tell (recorded : Bool) (kind : StepKind) (loc : Location)
    (words : Heap → String) :
    (tell recorded kind loc words).outcome limits m =
      if recorded then (record kind loc (words m.heap)).outcome limits m
        else (.ok (), m) := by
  unfold tell
  rw [outcome_get_bind]
  split
  · rfl
  · rfl

@[simp]
theorem outcome_newSlot (s : Slot) :
    (newSlot s).outcome limits m = (.ok (s.reference (m.heap.lastId + 1)), m.allocated s) :=
  rfl

theorem outcome_makeFunction (r : Routine) (place : Option String) :
    (makeFunction r place).outcome limits m =
      (.ok (.function (.script ((r.name.or place).getD anonymous) r m.chain)), m) := rfl

theorem outcome_inLoopScope (name : String) (x : Run Completion) :
    (inLoopScope name x).outcome limits m =
      follow (x.outcome limits (m.inScope .block name m.chain)) fun c m' =>
        (.ok c, m'.outOfScope) := by
  have hopen : (openBlock name).outcome limits m = (.ok (), m.inScope .block name m.chain) :=
    rfl
  unfold inLoopScope
  rw [outcome_bind_ok hopen, outcome_bind]
  rfl

theorem outcome_inCall (w : Walker) (shown : String) (r : Routine)
    (chain : Chain) (args : List Value)
    (loc : Location) (body : Table Value → Run Value) :
    (inCall w shown r chain args loc body).outcome limits m =
      if limits.maxCallDepth ≤ m.stack.depth then (.error (.failed ⟨.callDepth, some loc⟩), m)
      else
        follow ((bindParams w m.scopes.size .empty r.params args).outcome limits
          (m.inScope .function shown chain)) fun params m₁ =>
        follow ((body params).outcome limits
          (m₁.pushed shown params loc r.bodyLoc.line m.scopes.size)) fun v m₂ =>
        (.ok v, m₂.popped m.chain) := by
  have henter : (enterFunction shown chain).outcome limits m =
      (.ok m.scopes.size, m.inScope .function shown chain) := rfl
  unfold inCall
  rw [outcome_read_bind, outcome_get_bind]
  split
  · rw [outcome_bind_error (outcome_failAt _ _ _ _)]
  · rw [outcome_get_bind, outcome_bind_ok henter, outcome_bind]
    congr 1
    funext params m₁
    rw [outcome_bind_ok (outcome_modify _ _ _), outcome_bind]
    rfl

theorem outcome_toldCall (recorded : Bool) (w : Walker) (shown : String)
    (r : Routine) (chain : Chain)
    (args : List Value) (loc : Location) (body : Run Value) :
    (toldCall recorded w shown r chain args loc body).outcome limits m =
      if limits.maxCallDepth ≤ m.stack.depth then (.error (.failed ⟨.callDepth, some loc⟩), m)
      else
        follow ((bindParams w m.scopes.size .empty r.params args).outcome limits
          (m.inScope .function shown chain)) fun params m₁ =>
        follow ((tell recorded .call loc (callWords shown params)).outcome limits
          (m₁.pushed shown params loc r.bodyLoc.line m.scopes.size)) fun _ m₂ =>
        follow (body.outcome limits m₂) fun v m₃ =>
        follow ((tell recorded .return_ loc (returnWords shown v)).outcome limits
          (m₃.popped m.chain)) fun _ m₄ =>
        (.ok v, m₄) := by
  unfold toldCall
  rw [outcome_bind, outcome_inCall]
  split
  · rfl
  · simp only [outcome_bind, follow_follow]
    rfl

end Run

/-! ### Ceilings -/

/-- Arrays and texts may become as long as the ceilings allow. -/
structure Region.Allows (N : Region) (L : RunLimits) : Prop where
  fits : N.fits L.maxArrayLength
  spans : N.spans L.maxStringLength

/-- Ceilings that are nowhere lower. -/
structure RunLimits.Le (L L' : RunLimits) : Prop where
  maxSteps : L.maxSteps ≤ L'.maxSteps
  maxCallDepth : L.maxCallDepth ≤ L'.maxCallDepth
  maxLoopIterations : L.maxLoopIterations ≤ L'.maxLoopIterations
  maxArrayLength : L.maxArrayLength ≤ L'.maxArrayLength
  maxStringLength : L.maxStringLength ≤ L'.maxStringLength

instance : LE RunLimits := ⟨RunLimits.Le⟩

/-- How a second run may differ from a first: in nothing but its fuel, in a higher ceiling on
steps and not in its fuel, or in all ceilings and its fuel.  Two runs that last for some calls
have the same ceilings, and their fuel does not end unless more calls than that are begun
inside one another.  Two runs of an expression alone do not differ, and all that is not inside
a call is done by expressions. -/
inductive Gap where
  | none
  | longer
  | raised
  | lasting (calls : Nat)
  | alone
  deriving DecidableEq

namespace Gap

/-- The ceilings of two runs with a gap between them. -/
def Between : Gap → RunLimits → RunLimits → Prop
  | none, L, L' | lasting _, L, L' | alone, L, L' => L = L'
  | longer, L, L' => L.maxSteps ≤ L'.maxSteps ∧ L' = { L with maxSteps := L'.maxSteps }
  | raised, L, L' => L ≤ L'

/-- The gap between the bodies of two calls.  A body that is begun below the last call that
the fuel was given for is never reached, and statements are executed in a body. -/
def inner : Gap → Gap
  | lasting (calls + 1) => lasting calls
  | lasting 0 | alone => none
  | G => G

/-- The fuel of both runs may end. -/
def Stops : Gap → Prop
  | lasting _ => False
  | _ => True

/-- The fuel of both runs may end, inside calls in the same way as outside. -/
def FuelEnds : Gap → Prop
  | lasting _ | alone => False
  | _ => True

/-- The fuel of the first run may end before that of the second. -/
def FuelDiffers : Gap → Prop
  | none | raised => True
  | _ => False

theorem FuelDiffers.fuelEnds {G : Gap} (h : G.FuelDiffers) : G.FuelEnds := by
  cases G with
  | lasting calls => exact h
  | alone => exact h
  | _ => exact trivial

theorem FuelEnds.stops {G : Gap} (h : G.FuelEnds) : G.Stops := by
  cases G with
  | lasting calls => exact h
  | _ => exact trivial

theorem FuelEnds.inner_eq {G : Gap} (h : G.FuelEnds) : G.inner = G := by
  cases G with
  | lasting calls => exact h.elim
  | alone => exact h.elim
  | _ => rfl

theorem FuelEnds.ne_alone {G : Gap} (h : G.FuelEnds) : G ≠ alone := by
  rintro rfl
  exact h

theorem between_self (G : Gap) (L : RunLimits) : G.Between L L := by
  cases G with
  | longer => exact ⟨Nat.le_refl _, rfl⟩
  | raised =>
    exact ⟨Nat.le_refl _, Nat.le_refl _, Nat.le_refl _, Nat.le_refl _, Nat.le_refl _⟩
  | _ => rfl

variable {G : Gap} {L L' : RunLimits}

theorem Between.le (h : G.Between L L') : L ≤ L' := by
  cases G with
  | longer =>
    obtain ⟨hsteps, hrest⟩ := h
    rw [hrest]
    exact ⟨hsteps, Nat.le_refl _, Nat.le_refl _, Nat.le_refl _, Nat.le_refl _⟩
  | raised => exact h
  | _ => exact (h : L = L') ▸ between_self .raised L

/-- A ceiling other than that on steps is the same in both runs, unless all may be higher. -/
theorem Between.eq_or_raised (h : G.Between L L') {limit : RunLimits → Nat}
    (hlimit : ∀ (L : RunLimits) n, limit { L with maxSteps := n } = limit L) :
    limit L = limit L' ∨ G = .raised := by
  cases G with
  | longer => exact .inl ((congrArg limit h.2).trans (hlimit L L'.maxSteps)).symm
  | raised => exact .inr rfl
  | _ => exact .inl (congrArg limit h)

/-- The ceiling on steps is the same in both runs, or it may be higher. -/
theorem Between.steps_eq (h : G.Between L L') :
    L.maxSteps = L'.maxSteps ∨ G = .longer ∨ G = .raised := by
  cases G with
  | longer => exact .inr (.inl rfl)
  | raised => exact .inr (.inr rfl)
  | _ => exact .inl (congrArg RunLimits.maxSteps h)

end Gap

/-! ### Computations made of the same actions -/

/-- What a step may tell of: neither failures nor calls, and where expressions are alone no
choices, no jumps and no declarations. -/
structure Gap.Tells (G : Gap) (kind : StepKind) (description : String) :
    Prop extends Ordinary kind description where
  straight : G = .alone → kind ≠ .return_ ∧ kind ≠ .branch
  undeclared : G = .alone → kind ≠ .declaration

theorem Gap.Tells.of_ordinary {G : Gap} (hG : G ≠ .alone) {kind : StepKind}
    {description : String} (hk : Ordinary kind description) : G.Tells kind description :=
  ⟨hk, fun h => absurd h hG, fun h => absurd h hG⟩

theorem Gap.Tells.of_kind {G : Gap} {kind : StepKind} (h : kind.isStraight = true)
    {description : String} : G.Tells kind description := by
  obtain ⟨hrest, hdeclaration⟩ := Bool.and_eq_true_iff.1 h
  obtain ⟨hordinary, hbranch⟩ := Bool.and_eq_true_iff.1 hrest
  refine ⟨.of_kind hordinary, fun _ => ⟨?_, bne_iff_ne.1 hbranch⟩, fun _ =>
    bne_iff_ne.1 hdeclaration⟩
  rintro rfl
  cases hordinary

/-- What a call does once its frame is there and it is told of. -/
def callBody (w : Walker) (r : Routine) (this : Option Value) : Run Value := do
  if let some receiver := this then
    if !r.isArrow then declareName .const "this" receiver
  w.runBody r.body

/-- What a call runs: where expressions are alone, the body of the function by an evaluator
with some fuel, for a receiver that is at hand. -/
def Gap.Serves {N : Region} (G : Gap) (K : Stock N) (r : Routine) (body : Run Value) : Prop :=
  G = .alone → ∃ fuel this, (∀ v, this = some v → K.has v) ∧
    body = callBody (walker fuel) r this

theorem Gap.Serves.mono {N : Region} {G : Gap} {K K' : Stock N} {r : Routine}
    {body : Run Value} (h : G.Serves K r body) (hK : K ≤ K') : G.Serves K' r body := by
  intro hG
  obtain ⟨fuel, this, hthis, hbody⟩ := h hG
  exact ⟨fuel, this, fun v hv => hK v (hthis v hv), hbody⟩

/-- The computations are made of the same actions.  Apart from this the first may stop where
the second goes on, as far as the gap between the runs allows: at the end of its fuel, and
at a ceiling. -/
inductive Acts {N : Region} : Gap → Stock N → {α : Type} → [Carries α] → Run α → Run α → Prop
  | pure {G : Gap} {K : Stock N} {α : Type} [Carries α] {a : α}
    (ha : Carries.within K.has a) : Acts G K (pure a) (pure a)
  | bind {G : Gap} {K : Stock N} {α β : Type} [Carries α] [Carries β] {x y : Run α}
    {f g : α → Run β} (hx : Acts G K x y)
    (hf : ∀ a (K' : Stock N), K ≤ K' → Carries.within K'.has a → Acts G K' (f a) (g a)) :
    Acts G K (x >>= f) (y >>= g)
  | look {G : Gap} {K : Stock N} {α : Type} [Carries α] {f g : Machine → Run α}
    (hf : ∀ (m m' : Machine) (K' : Stock N), m.Alike m' → K ≤ K' →
      (∀ v, m.Holds v → K'.has v) →
      (∀ id, N.fits (m.heap.elements id).size) → Acts G K' (f m) (g m')) :
    Acts G K (get >>= f) (get >>= g)
  | ceilings {G : Gap} {K : Stock N} {α : Type} [Carries α] {f g : RunLimits → Run α}
    (hf : ∀ L L', G.Between L L' → N.Allows L → N.Allows L' → Acts G K (f L) (g L')) :
    Acts G K (read >>= f) (read >>= g)
  | fail {G : Gap} {K : Stock N} {α : Type} [Carries α] {cause : Cause} {loc : Location}
    (hloc : N.Place loc) :
    Acts G K (failAt cause loc : Run α) (failAt cause loc)
  | stopAtCeiling {G : Gap} {K : Stock N} {α : Type} [Carries α] {cause : Cause}
    {loc : Location} {y : Run α} (hG : G = .raised) (hc : cause.isLimit = true)
    (hloc : N.Place loc) (hy : Acts G K y y) :
    Acts G K (failAt cause loc) y
  | noFuel {G : Gap} {K : Stock N} {α : Type} [Carries α] (hG : G.Stops) :
    Acts G K (throw .outOfFuel : Run α) (throw .outOfFuel)
  | stopWithoutFuel {G : Gap} {K : Stock N} {α : Type} [Carries α] {y : Run α}
    (hG : G.FuelDiffers) (hy : Acts G K y y) :
    Acts G K (throw .outOfFuel) y
  | record {G : Gap} {K : Stock N} {kind : StepKind} {loc : Location} {description : String}
    (hk : G.Tells kind description) (hloc : N.Place loc) :
    Acts G K (record kind loc description) (record kind loc description)
  | say {G : Gap} {K : Stock N} {line : String} {kind : StepKind} {loc : Location}
    {description : String} (hk : G.Tells kind description) (hloc : N.Place loc) :
    Acts G K (say line kind loc description) (say line kind loc description)
  | change {G : Gap} {K : Stock N} (c : Change) (hv : ∀ v ∈ c.values, K.has v) (hs : c.Silent)
    (hc : c.Fits N) : Acts G K (modify c.apply) (modify c.apply)
  | newSlot {G : Gap} {K : Stock N} {s : Slot}
    (hv : ∀ v ∈ s.values, K.has v) (hs : s.Fits N) :
    Acts G K (newSlot s) (newSlot s)
  | makeFunction {G : Gap} {K : Stock N}
    {r : Routine} {place : Option String} (hr : N.has (.routine r))
    (hplace : ∀ name, place = some name → N.spans (unitCount name)) :
    Acts G K (makeFunction r place) (makeFunction r place)
  | block {G : Gap} {K : Stock N} {name : String} {x y : Run Completion} (hx : Acts G K x y) :
    Acts G K (inLoopScope name x) (inLoopScope name y)
  | call {G : Gap} {K : Stock N} {w w' : Walker} {shown name : String}
    {r : Routine} {chain : Chain} {args : List Value} {loc : Location}
    {recorded : Bool} {body body' : Run Value} (hf : K.has (.function (.script name r chain)))
    (hargs : ∀ v ∈ args, K.has v) (hloc : N.Place loc)
    (hbind : ¬ N.NoFallbacks → ∀ scope, Acts G K (bindParams w scope .empty r.params args)
      (bindParams w' scope .empty r.params args))
    (hserves : G.Serves K r body) (hbody : Acts G.inner K body body') :
    Acts G K (toldCall recorded w shown r chain args loc body)
      (toldCall recorded w' shown r chain args loc body')

namespace Acts

variable {G : Gap} {N : Region} {K : Stock N}

/-- More values at hand do no harm. -/
theorem weaken [Carries α] {x y : Run α} (h : Acts G K x y) :
    ∀ {K' : Stock N}, K ≤ K' → Acts G K' x y := by
  -- Continuations are derived for all larger stocks already; the induction is for the rest.
  induction h with
  | pure ha => exact fun hK => .pure (Carries.mono hK ha)
  | bind _ hf ihx _ =>
    exact fun hK => .bind (ihx hK) fun a K'' h'' ha => hf a K'' (Stock.le_trans hK h'') ha
  | look hf _ =>
    exact fun hK => .look fun m m' K'' e h'' hm hs =>
      hf m m' K'' e (Stock.le_trans hK h'') hm hs
  | ceilings _ ih => exact fun hK => .ceilings fun L L' h hL hL' => ih L L' h hL hL' hK
  | fail hloc => exact fun _ => .fail hloc
  | stopAtCeiling hG hc hloc _ ih => exact fun hK => .stopAtCeiling hG hc hloc (ih hK)
  | noFuel hG => exact fun _ => .noFuel hG
  | stopWithoutFuel hG _ ih => exact fun hK => .stopWithoutFuel hG (ih hK)
  | record hk hloc => exact fun _ => .record hk hloc
  | say hk hloc => exact fun _ => .say hk hloc
  | change c hv hs hc => exact fun hK => .change c (fun v h => hK v (hv v h)) hs hc
  | newSlot hv hs => exact fun hK => .newSlot (fun v h => hK v (hv v h)) hs
  | makeFunction hr hplace => exact fun _ => .makeFunction hr hplace
  | block _ ih => exact fun hK => .block (ih hK)
  | call hf hargs hloc _ hserves _ ihbind ihbody =>
    exact fun hK =>
      .call (hK _ hf) (fun v h => hK v (hargs v h)) hloc (fun hN scope => ihbind hN scope hK)
      (hserves.mono hK) (ihbody hK)

/-- A computation whose answer brings no new values, and what follows. -/
theorem andThen [Carries α] [Carries β] {x y : Run α} {f g : α → Run β} (hx : Acts G K x y)
    (hf : ∀ a, Acts G K (f a) (g a)) : Acts G K (x >>= f) (y >>= g) :=
  .bind hx fun a _ hK _ => (hf a).weaken hK

/-- A look at the state that takes no values from it. -/
theorem peek [Carries α] {f g : Machine → Run α}
    (hf : ∀ m m', m.Alike m' → Acts G K (f m) (g m')) : Acts G K (get >>= f) (get >>= g) :=
  .look fun m m' _ e hK _ _ => (hf m m' e).weaken hK

/-- Something that is only done under a condition, and what follows in any case. -/
theorem whenever [Carries α] [Carries β] {c : Prop} [Decidable c] {x y : Run α} {f g : Run β}
    (hx : c → Acts G K x y) (hf : Acts G K f g) :
    Acts G K (if c then x >>= fun _ => f else f) (if c then y >>= fun _ => g else g) := by
  by_cases hc : c
  · rw [if_pos hc, if_pos hc]
    exact (hx hc).andThen fun _ => hf
  · rw [if_neg hc, if_neg hc]
    exact hf

end Acts

end ScriptReplay
