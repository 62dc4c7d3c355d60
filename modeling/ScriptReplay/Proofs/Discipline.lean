/-
What every run keeps to.

A discipline is an invariant of states with all that it takes to carry it through evaluation:
one field for each kind of action.  Whoever evaluates by actions keeps to every discipline.

* `Discipline` : an invariant, a preorder in which states grow, and the values that are
  sound in a state;
* `Discipline.Safe` : a computation that keeps to a discipline, also when it stops early;
* `Discipline.safe_of_acts` : computations made of actions do;
* `Discipline.inv_runFrom` : so do programs.

Design notes: between the new scope of a call and its frame the two do not belong together
yet.  A discipline may say less of such states (`bare`); they are left without evaluating
anything unless parameters have fallbacks.
-/
import ScriptReplay.Proofs.Actions.Exec

namespace ScriptReplay

/-! ### Scopes in use and frames -/

/-- A frame without the values that it shows. -/
def Frame.shell (f : Frame) : Frame :=
  { f with params := .empty, locals := .empty, result := none }

/-- What can be read off frames without their values. -/
theorem Frame.map_eq_of_shells {fs gs : List Frame}
    (h : fs.map Frame.shell = gs.map Frame.shell) {β : Type} (f : Frame → β)
    (hf : ∀ frame, f frame.shell = f frame) : fs.map f = gs.map f := by
  have hshell : ∀ fs : List Frame, fs.map f = (fs.map Frame.shell).map f := by
    intro fs
    rw [List.map_map]
    exact List.map_congr_left fun frame _ => (hf frame).symm
  rw [hshell fs, h, ← hshell gs]

/-- The same scopes are in use and the same calls in progress. -/
structure Machine.Restored (m m' : Machine) : Prop where
  chain : m'.chain = m.chain
  frames : m'.stack.frames.map Frame.shell = m.stack.frames.map Frame.shell

theorem CallStack.depth_eq_of_shells {s s' : CallStack}
    (h : s'.frames.map Frame.shell = s.frames.map Frame.shell) : s'.depth = s.depth := by
  simpa [CallStack.depth] using congrArg List.length h

theorem Machine.Restored.refl (m : Machine) : m.Restored m :=
  ⟨rfl, rfl⟩

theorem Machine.Restored.trans {m m' m'' : Machine} (h : m.Restored m')
    (h' : m'.Restored m'') : m.Restored m'' :=
  ⟨h'.chain.trans h.chain, h'.frames.trans h.frames⟩

theorem Frame.shell_bind (f : Frame) (name : String) (value : Value) :
    (f.bind name value).shell = f.shell := by
  unfold Frame.bind
  split
  · rfl
  · rfl

theorem CallStack.shells_bind (s : CallStack) (scope : ScopeId) (name : String)
    (value : Value) :
    (s.bind scope name value).frames.map Frame.shell = s.frames.map Frame.shell := by
  unfold CallStack.bind
  dsimp only
  induction s.frames with
  | nil => rfl
  | cons f rest ih =>
    unfold CallStack.modifyOwner
    split
    · rw [List.map_cons, List.map_cons, Frame.shell_bind]
    · rw [List.map_cons, List.map_cons, ih]

theorem CallStack.shells_setResult (s : CallStack) (value : Value) :
    (s.setResult value).frames.map Frame.shell = s.frames.map Frame.shell := by
  unfold CallStack.setResult
  split
  · rfl
  · next hf =>
    rw [hf]
    rfl

theorem Machine.restored_showBinding (m : Machine) (scope : ScopeId) (name : String)
    (value : Value) : m.Restored (m.showBinding scope name value) := by
  unfold Machine.showBinding
  split
  · exact ⟨rfl, CallStack.shells_bind m.stack _ name value⟩
  · exact .refl m

/-- Changes neither enter nor leave anything. -/
theorem Change.restored (c : Change) (m : Machine) : m.Restored (c.apply m) := by
  cases c with
  | bind scope name value isConst =>
    have h := Machine.restored_showBinding
      { m with scopes := m.scopes.declare scope name value isConst } scope name value
    exact ⟨h.chain, h.frames⟩
  | setResult value => exact ⟨rfl, CallStack.shells_setResult m.stack value⟩
  | _ => exact ⟨rfl, rfl⟩

/-- A change keeps the scopes in use and all steps, and at most adds a line. -/
theorem Change.kept (c : Change) (m : Machine) :
    (c.apply m).chain = m.chain ∧ (c.apply m).trace = m.trace ∧
      m.console.newest <:+ (c.apply m).console.newest := by
  cases c with
  | bind scope name value isConst =>
    obtain ⟨stack, -, happly⟩ := exists_apply_bind m scope name value isConst
    rw [happly]
    exact ⟨rfl, rfl, List.suffix_rfl⟩
  | print line => exact ⟨rfl, rfl, List.suffix_cons _ _⟩
  | _ => exact ⟨rfl, rfl, List.suffix_rfl⟩

/-! ### Bindings and what is shown of them -/

/-- The value of a name in one scope. -/
def Scopes.valueAt? (s : Scopes) (id : ScopeId) (name : String) : Option Value :=
  (s.get? id).bind (·.get? name)

theorem Scopes.valueAt?_declare {s : Scopes} {id : ScopeId} {scope : Scope}
    (h : s.get? id = some scope) (id' : ScopeId) (name name' : String) (value : Value)
    (isConst : Bool) :
    (s.declare id name value isConst).valueAt? id' name' =
      if id = id' ∧ name' = name then some value else s.valueAt? id' name' := by
  unfold Scopes.valueAt? Scope.get?
  rw [Scopes.get?_declare]
  by_cases hid : id = id'
  · subst hid
    rw [if_pos rfl, h, Option.map_some, Option.bind_some, Option.bind_some, Table.get?_insert]
    by_cases hname : name' = name
    · rw [if_pos hname, if_pos ⟨rfl, hname⟩, Option.map_some]
    · rw [if_neg hname, if_neg fun h => hname h.2]
  · rw [if_neg hid, if_neg fun h => hid h.1]

/-- The table has under every name what a scope binds to it. -/
def Table.Shows (t : Table Value) (s : Scopes) (id : ScopeId) : Prop :=
  ∀ name, t.get? name = s.valueAt? id name

theorem Table.Shows.declare {t : Table Value} {s : Scopes} {id : ScopeId} (h : t.Shows s id)
    {scope : Scope} (hs : s.get? id = some scope) (name : String) (value : Value)
    (isConst : Bool) : (t.insert name value).Shows (s.declare id name value isConst) id := by
  intro name'
  rw [Table.get?_insert, Scopes.valueAt?_declare hs, h name']
  simp

theorem Table.shows_empty (s : Scopes) (kind : ScopeKind) (name : String) (chain : Chain) :
    Table.empty.Shows (s.openScope kind name chain).2 s.size := by
  intro name'
  unfold Scopes.valueAt?
  rw [Scopes.get?_openScope, if_pos rfl]
  rfl

/-! ### Disciplines -/

/-- A failure that is at no place of its own, or where a node of the region stands. -/
def Stop.IsPlaced (N : Region) : Stop → Prop
  | .failed f => ∀ loc, f.loc = some loc → N.Place loc
  | .outOfFuel => True

theorem Stop.isPlaced_at {N : Region} {loc : Location} (hloc : N.Place loc) (cause : Cause) :
    (Stop.failed ⟨cause, some loc⟩).IsPlaced N := by
  intro loc' h
  cases h
  exact hloc

theorem Stop.isPlaced_nowhere (N : Region) (cause : Cause) :
    (Stop.failed ⟨cause, none⟩).IsPlaced N := by
  intro loc h
  cases h

/-- An invariant with all that it takes to carry it through evaluation. -/
structure Discipline (N : Region) where
  /-- What holds between any two actions. -/
  inv : RunLimits → Machine → Prop
  /-- What holds between the new scope of a call and its frame. -/
  bare : RunLimits → Machine → Prop
  /-- How states grow. -/
  later : Machine → Machine → Prop
  /-- The values that can be used in a state. -/
  sound : Machine → Value → Prop
  later_refl : ∀ m, later m m
  later_trans : ∀ {m m' m''}, later m m' → later m' m'' → later m m''
  /-- Growth has nothing to do with the scopes in use and the frames. -/
  later_frames : ∀ m chain stack, later m { m with chain := chain, stack := stack }
  sound_later : ∀ {m m' v}, later m m' → sound m v → sound m' v
  sound_plain : ∀ {m v}, v.IsPlain N → sound m v
  sound_legal : ∀ {m v}, sound m v → v.Legal N
  sound_held : ∀ {L m v}, inv L m → m.Holds v → sound m v
  sound_function : ∀ {L m r name}, inv L m → N.has (.routine r) → N.spans (unitCount name) →
    sound m (.function (.script name r m.chain))
  chain_ne_nil : ∀ {L m}, inv L m → m.chain ≠ []
  /-- Where the region says how long arrays are, the arrays are so, and may become as long as
  the ceiling allows. -/
  sized : ∀ {L m}, inv L m → ∀ id, N.fits (m.heap.elements id).size := by intros; trivial
  ceiling : ∀ {L m}, inv L m → N.Allows L := by intros; exact ⟨trivial, trivial⟩
  recorded : ∀ {L m kind loc} description, inv L m → kind ≠ .error → N.Place loc →
    m.trace.hasRoom = true →
    inv L (m.recorded kind loc description) ∧ later m (m.recorded kind loc description)
  changed : ∀ {L m} (c : Change), inv L m → (∀ v ∈ c.values, sound m v) → c.Fits N →
    inv L (c.apply m) ∧ later m (c.apply m)
  allocated : ∀ {L m s}, inv L m → (∀ v ∈ s.values, sound m v) → s.Fits N →
    inv L (m.allocated s) ∧ later m (m.allocated s) ∧
      sound (m.allocated s) (s.reference (m.heap.lastId + 1))
  opened : ∀ {L m} name, inv L m →
    inv L (m.inScope .block name m.chain) ∧ later m (m.inScope .block name m.chain)
  entered : ∀ {L m name r chain} shown, inv L m → sound m (.function (.script name r chain)) →
    bare L (m.inScope .function shown chain) ∧ later m (m.inScope .function shown chain)
  bare_iff : ¬ N.NoFallbacks → ∀ {L m}, bare L m ↔ inv L m
  bare_declared : ∀ {L m v scope} name, bare L m → m.chain.head? = some scope → sound m v →
    bare L ((Change.declare scope name v).apply m) ∧
    later m ((Change.declare scope name v).apply m)
  pushed : ∀ {L m m₁ name r chain shown params} loc line, inv L m →
    sound m (.function (.script name r chain)) → m.stack.depth < L.maxCallDepth →
    bare L m₁ → later (m.inScope .function shown chain) m₁ →
    (m.inScope .function shown chain).Restored m₁ → (∀ v ∈ Table.values params, sound m₁ v) →
    (N.NoFallbacks → params.Shows m₁.scopes m.scopes.size) →
    inv L (m₁.pushed shown params loc line m.scopes.size)
  back : ∀ {L m m' stack}, inv L m → inv L m' → later m m' →
    (stack = m'.stack ∨ stack = m'.stack.pop) →
    m.Restored { m' with chain := m.chain, stack := stack } →
    inv L { m' with chain := m.chain, stack := stack }

namespace Discipline

variable {N : Region} (D : Discipline N) {G : Gap} {K : Stock N}

/-- The sound values of a state as a stock. -/
def stock (m : Machine) : Stock N where
  has := D.sound m
  plain := D.sound_plain
  legal := D.sound_legal

theorem stock_later {D : Discipline N} {m m' : Machine} (h : D.later m m') :
    D.stock m ≤ D.stock m' :=
  fun _ hv => D.sound_later h hv

/-- How a computation that was begun in `m` may end: in a state that keeps to the discipline
and has grown.  One that ends with an answer leaves the scopes in use and the frames as they
were; one that fails at a place fails where a node stands. -/
def Ends {α : Type} [Carries α] (L : RunLimits) (m : Machine) : Except Stop α × Machine → Prop
  | (.ok a, m') => D.inv L m' ∧ D.later m m' ∧ m.Restored m' ∧ Carries.within (D.sound m') a
  | (.error s, m') => D.inv L m' ∧ D.later m m' ∧ s.IsPlaced N

/-- A computation that keeps to the discipline if the values at hand are sound. -/
def Safe {α : Type} [Carries α] (K : Stock N) (x : Run α) : Prop :=
  ∀ L m, D.inv L m → K ≤ D.stock m → D.Ends L m (x.outcome L m)

variable {D} {α β : Type} [Carries α] [Carries β]

theorem Ends.inv {L : RunLimits} {m : Machine} {o : Except Stop α × Machine}
    (h : D.Ends L m o) : D.inv L o.2 := by
  rcases o with ⟨_ | a, m'⟩
  · exact h.1
  · exact h.1

theorem Ends.later {L : RunLimits} {m : Machine} {o : Except Stop α × Machine}
    (h : D.Ends L m o) : D.later m o.2 := by
  rcases o with ⟨_ | a, m'⟩
  · exact h.2.1
  · exact h.2.1

theorem Safe.mono {x : Run α} (h : D.Safe K x) {K' : Stock N} (hK : K ≤ K') : D.Safe K' x :=
  fun L m hi hK' => h L m hi (Stock.le_trans hK hK')

theorem Safe.pure {a : α} (ha : Carries.within K.has a) : D.Safe K (Pure.pure a : Run α) := by
  intro L m hi hK
  rw [Run.outcome_pure]
  exact ⟨hi, D.later_refl m, .refl m, Carries.mono hK ha⟩

theorem Safe.throw {s : Stop} (hs : s.IsPlaced N) :
    D.Safe K (MonadExcept.throw s : Run α) := by
  intro L m hi _
  rw [Run.outcome_throw]
  exact ⟨hi, D.later_refl m, hs⟩

theorem Safe.makeFunction {r : Routine} (hr : N.has (.routine r)) {place : Option String}
    (hplace : ∀ name, place = some name → N.spans (unitCount name)) :
    D.Safe K (ScriptReplay.makeFunction r place) := by
  intro L m hi _
  rw [Run.outcome_makeFunction]
  exact ⟨hi, D.later_refl m, .refl m,
    D.sound_function hi hr (Region.spans_functionName hr hplace)⟩

/-- An outcome and what comes after it, seen from an earlier state. -/
theorem Ends.follow {L : RunLimits} {m m₁ : Machine} {o : Except Stop α × Machine}
    {k : α → Machine → Except Stop β × Machine} (h : D.Ends L m₁ o) (hl : D.later m m₁)
    (hk : ∀ a m₂, D.inv L m₂ → D.later m₁ m₂ → m₁.Restored m₂ →
      Carries.within (D.sound m₂) a → D.Ends L m (k a m₂)) :
    D.Ends L m (Run.follow o k) := by
  rcases o with ⟨s | a, m₂⟩
  · exact ⟨h.1, D.later_trans hl h.2.1, h.2.2⟩
  · exact hk a m₂ h.1 h.2.1 h.2.2.1 h.2.2.2

theorem Ends.trans {L : RunLimits} {m m₁ : Machine} {o : Except Stop α × Machine}
    (h : D.Ends L m₁ o) (hl : D.later m m₁) (hr : m.Restored m₁) : D.Ends L m o := by
  rcases o with ⟨s | a, m₂⟩
  · exact ⟨h.1, D.later_trans hl h.2.1, h.2.2⟩
  · exact ⟨h.1, D.later_trans hl h.2.1, hr.trans h.2.2.1, h.2.2.2⟩

/-- A computation after another. -/
theorem Safe.bind {x : Run α} {f : α → Run β} (hx : D.Safe K x)
    (hf : ∀ a (K' : Stock N), K ≤ K' → Carries.within K'.has a → D.Safe K' (f a)) :
    D.Safe K (x >>= f) := by
  intro L m hi hK
  rw [Run.outcome_bind]
  -- The stock for what follows is all that is sound after the first computation.
  refine (hx L m hi hK).follow (D.later_refl m) fun a m₁ hi₁ hl hr ha => ?_
  have h :=
    hf a (D.stock m₁) (Stock.le_trans hK (stock_later hl)) ha L m₁ hi₁ (Stock.le_refl _)
  exact h.trans hl hr

theorem Safe.record {kind : StepKind} {loc : Location} (hk : kind ≠ .error)
    (hloc : N.Place loc) (description : String) :
    D.Safe K (ScriptReplay.record kind loc description) := by
  intro L m hi _
  rw [Run.outcome_record]
  split
  · next hroom =>
    obtain ⟨hi', hl⟩ := D.recorded description hi hk hloc hroom
    exact ⟨hi', hl, ⟨rfl, rfl⟩, trivial⟩
  · exact ⟨hi, D.later_refl m, Stop.isPlaced_nowhere N _⟩

theorem Safe.change (c : Change) (hv : ∀ v ∈ c.values, K.has v) (hc : c.Fits N) :
    D.Safe K (modify c.apply) := by
  intro L m hi hK
  obtain ⟨hi', hl⟩ := D.changed c hi (fun v h => hK v (hv v h)) hc
  exact ⟨hi', hl, c.restored m, trivial⟩

theorem Safe.say {kind : StepKind} {loc : Location} (hk : kind ≠ .error) (hloc : N.Place loc)
    (line description : String) : D.Safe K (ScriptReplay.say line kind loc description) := by
  have hprint : D.Safe K (modify (Change.print line).apply) :=
    .change _ (by simp [Change.values]) trivial
  exact hprint.bind fun _ _ _ _ => .record hk hloc description

theorem Safe.newSlot {s : Slot} (hv : ∀ v ∈ s.values, K.has v) (hs : s.Fits N) :
    D.Safe K (ScriptReplay.newSlot s) := by
  intro L m hi hK
  obtain ⟨hi', hl, hr⟩ := D.allocated hi (fun v h => hK v (hv v h)) hs
  rw [Run.outcome_newSlot]
  exact ⟨hi', hl, ⟨rfl, rfl⟩, hr⟩

/-- Leaving the scope that was opened last. -/
theorem outOfScope_eq {m m' : Machine} {id : ScopeId} (hm : m.chain ≠ [])
    (h : m'.chain = id :: m.chain) : m'.outOfScope = { m' with chain := m.chain } := by
  unfold Machine.outOfScope
  rw [h]
  cases hc : m.chain with
  | nil => exact absurd hc hm
  | cons outer rest => rfl

theorem Safe.block {x : Run Completion} (hx : D.Safe K x) (name : String) :
    D.Safe K (inLoopScope name x) := by
  intro L m hi hK
  obtain ⟨hi₁, hl₁⟩ := D.opened name hi
  rw [Run.outcome_inLoopScope]
  refine (hx L _ hi₁ (Stock.le_trans hK (stock_later hl₁))).follow hl₁
    fun c m₂ hi₂ hl₂ hr hc => ?_
  have hl : D.later m m₂ := D.later_trans hl₁ hl₂
  have hback : D.later m₂ { m₂ with chain := m.chain } := D.later_frames m₂ m.chain m₂.stack
  have hrestored : m.Restored { m₂ with chain := m.chain } := ⟨rfl, hr.frames⟩
  rw [outOfScope_eq (D.chain_ne_nil hi) hr.chain]
  refine ⟨D.back hi hi₂ hl (.inl rfl) hrestored, D.later_trans hl hback, hrestored, ?_⟩
  exact Carries.mono (fun _ => D.sound_later hback) hc

/-! ### Calls -/

/-- How parameters may be bound between the new scope of a call and its frame.  Without
fallbacks they are just what is bound in the scope. -/
def EndsBare (D : Discipline N) (L : RunLimits) (m : Machine) (scope : ScopeId) :
    Except Stop (Table Value) × Machine → Prop
  | (.ok params, m') =>
    D.bare L m' ∧ D.later m m' ∧ m.Restored m' ∧ (∀ v ∈ params.values, D.sound m' v) ∧
      (N.NoFallbacks → params.Shows m'.scopes scope)
  | (.error s, m') => D.inv L m' ∧ D.later m m' ∧ s.IsPlaced N

theorem bindParams_cons {w : Walker} {scope : ScopeId} {bound : Table Value} {p : Param}
    (hp : p.fallback = none) (params : List Param) (args : List Value) :
    bindParams w scope bound (p :: params) args = (do
      modify (Change.declare scope p.name (args.headD .undefined)).apply
      bindParams w scope (bound.insert p.name (args.headD .undefined)) params args.tail) := by
  conv => lhs; unfold bindParams
  rw [hp]
  cases args.headD .undefined with
  | _ => rfl

/-- Parameters without fallbacks are bound without evaluating anything. -/
theorem endsBare_bindParams {w : Walker} {L : RunLimits} {scope : ScopeId}
    {params : List Param} (hp : ∀ p ∈ params, p.fallback = none) {m : Machine}
    {args : List Value} (ha : ∀ v ∈ args, D.sound m v) {bound : Table Value}
    (hb : ∀ v ∈ bound.values, D.sound m v) (hm : D.bare L m)
    (hhead : m.chain.head? = some scope) {s : Scope} (hs : m.scopes.get? scope = some s)
    (hshown : bound.Shows m.scopes scope) :
    D.EndsBare L m scope ((bindParams w scope bound params args).outcome L m) := by
  induction params generalizing m args bound s with
  | nil => exact ⟨hm, D.later_refl m, .refl m, hb, fun _ => hshown⟩
  | cons p params ih =>
    have hv : D.sound m (args.headD .undefined) := headD_has (K := D.stock m) ha
    obtain ⟨hm', hl⟩ := D.bare_declared p.name hm hhead hv
    have hbound : ∀ v ∈ (bound.insert p.name (args.headD .undefined)).values,
        D.sound ((Change.declare scope p.name (args.headD .undefined)).apply m) v := by
      intro v h
      rcases Table.mem_values_insert h with rfl | h
      · exact D.sound_later hl hv
      · exact D.sound_later hl (hb v h)
    have hs' : (m.scopes.declare scope p.name (args.headD .undefined) false).get? scope =
        some { s with vars := s.vars.insert p.name ⟨args.headD .undefined, false⟩ } := by
      rw [Scopes.get?_declare, if_pos rfl, hs]
      rfl
    have hrest := ih (fun q hq => hp q (List.mem_cons_of_mem _ hq))
      (fun v h => D.sound_later hl (ha v (List.mem_of_mem_tail h))) hbound hm' hhead hs'
      (hshown.declare hs p.name (args.headD .undefined) false)
    rw [bindParams_cons (hp p List.mem_cons_self),
      Run.outcome_bind_ok (Run.outcome_modify _ _ _)]
    rcases ho : (bindParams w scope (bound.insert p.name (args.headD .undefined)) params
      args.tail).outcome L _ with ⟨s | bound', m'⟩
    · rw [ho] at hrest
      exact ⟨hrest.1, D.later_trans hl hrest.2.1, hrest.2.2⟩
    · rw [ho] at hrest
      obtain ⟨hm'', hl', hr, hb'⟩ := hrest
      exact ⟨hm'', D.later_trans hl hl', ⟨hr.chain, hr.frames⟩, hb'⟩

/-- Parameters are bound in the new scope of a call, with or without fallbacks. -/
theorem endsBare_of_safe {w : Walker} {L : RunLimits} {r : Routine} (hr : N.has (.routine r))
    {m : Machine} {shown : String} {chain : Chain} {args : List Value}
    (hK : K ≤ D.stock (m.inScope .function shown chain)) (ha : ∀ v ∈ args, K.has v)
    (hm : D.bare L (m.inScope .function shown chain))
    (hs : ¬ N.NoFallbacks → D.Safe K (bindParams w m.scopes.size .empty r.params args)) :
    D.EndsBare L (m.inScope .function shown chain) m.scopes.size
      ((bindParams w m.scopes.size .empty r.params args).outcome L
        (m.inScope .function shown chain)) := by
  -- With fallbacks `bare` says as much as `inv`, so nothing is lost by evaluating them.
  by_cases hN : N.NoFallbacks
  · have hscope :=
      (Scopes.get?_openScope m.scopes .function shown chain m.scopes.size).trans (if_pos rfl)
    exact endsBare_bindParams (hN r hr)
      (fun v h => hK v (ha v h)) (by simp [Table.empty, Table.values]) hm rfl hscope
      (Table.shows_empty m.scopes .function shown chain)
  · have h := hs hN L _ ((D.bare_iff hN).1 hm) hK
    rcases ho : (bindParams w m.scopes.size .empty r.params args).outcome L
      (m.inScope .function shown chain) with ⟨s | params, m'⟩
    · rw [ho] at h
      exact h
    · rw [ho] at h
      exact ⟨(D.bare_iff hN).2 h.1, h.2.1, h.2.2.1, h.2.2.2, fun hN' => absurd hN' hN⟩

/-- The frame of a call makes the state whole again once the parameters are bound. -/
theorem inv_pushed {w : Walker} {L : RunLimits} {shown name : String} {r : Routine}
    {chain : Chain} {args : List Value} {m : Machine} (hi : D.inv L m) (hK : K ≤ D.stock m)
    (hf : K.has (.function (.script name r chain))) (ha : ∀ v ∈ args, K.has v)
    (hbind : ¬ N.NoFallbacks → D.Safe K (bindParams w m.scopes.size .empty r.params args))
    (hdepth : m.stack.depth < L.maxCallDepth) {params : Table Value} {m₁ : Machine}
    (ho : (bindParams w m.scopes.size .empty r.params args).outcome L
      (m.inScope .function shown chain) = (.ok params, m₁))
    (loc : Location) (line : Nat) :
    D.inv L (m₁.pushed shown params loc line m.scopes.size) ∧
      D.later m (m₁.pushed shown params loc line m.scopes.size) ∧
      (m.inScope .function shown chain).Restored m₁ ∧
      ∀ v ∈ params.values, D.sound (m₁.pushed shown params loc line m.scopes.size) v := by
  obtain ⟨hbare, hl₀⟩ := D.entered shown hi (hK _ hf)
  have hK₀ : K ≤ D.stock (m.inScope .function shown chain) :=
    Stock.le_trans hK (stock_later hl₀)
  have hends := endsBare_of_safe (K.legal hf).1 hK₀ ha hbare hbind
  rw [ho] at hends
  obtain ⟨hbare₁, hl₁, hr₁, hp, hshown⟩ := hends
  have hpush : D.later m₁ (m₁.pushed shown params loc line m.scopes.size) :=
    D.later_frames m₁ m₁.chain _
  refine ⟨D.pushed loc line hi (hK _ hf) hdepth hbare₁ hl₁ hr₁ hp hshown, ?_, hr₁, ?_⟩
  · exact D.later_trans (D.later_trans hl₀ hl₁) hpush
  · exact fun v h => D.sound_later hpush (hp v h)

theorem Safe.call {w : Walker} {shown name : String} {r : Routine} {chain : Chain}
    {args : List Value} {loc : Location} {body : Table Value → Run Value}
    (hf : K.has (.function (.script name r chain))) (ha : ∀ v ∈ args, K.has v)
    (hloc : N.Place loc)
    (hbind : ¬ N.NoFallbacks → ∀ scope, D.Safe K (bindParams w scope .empty r.params args))
    (hbody : ∀ params (K' : Stock N), K ≤ K' → (∀ v ∈ params.values, K'.has v) →
      D.Safe K' (body params)) :
    D.Safe K (inCall w shown r chain args loc body) := by
  intro L m hi hK
  have hsafe := fun hN : ¬ N.NoFallbacks => hbind hN m.scopes.size
  rw [Run.outcome_inCall]
  split
  · exact ⟨hi, D.later_refl m, Stop.isPlaced_at hloc _⟩
  next hdepth =>
  rcases ho : (bindParams w m.scopes.size .empty r.params args).outcome L
    (m.inScope .function shown chain) with ⟨s | params, m₁⟩
  · obtain ⟨hbare, hl₀⟩ := D.entered shown hi (hK _ hf)
    have hends :=
      endsBare_of_safe (K.legal hf).1 (Stock.le_trans hK (stock_later hl₀)) ha hbare hsafe
    rw [ho] at hends
    exact ⟨hends.1, D.later_trans hl₀ hends.2.1, hends.2.2⟩
  obtain ⟨hi₁, hl, hr₁, hp⟩ :=
    inv_pushed hi hK hf ha hsafe (Nat.lt_of_not_le hdepth) ho loc r.bodyLoc.line
  have h := hbody params (D.stock (m₁.pushed shown params loc r.bodyLoc.line m.scopes.size))
    (Stock.le_trans hK (stock_later hl)) hp L _ hi₁ (Stock.le_refl _)
  -- After the body its frame is the innermost again, so taking it off gives the frames
  -- from before.
  refine h.follow hl fun v m₂ hi₂ hl₂ hr₂ hv => ?_
  have hback : D.later m₂ (m₂.popped m.chain) := D.later_frames m₂ m.chain m₂.stack.pop
  have hrestored : m.Restored (m₂.popped m.chain) := by
    refine ⟨rfl, ?_⟩
    show m₂.stack.frames.tail.map Frame.shell = m.stack.frames.map Frame.shell
    rw [List.map_tail, hr₂.frames]
    exact hr₁.frames
  refine ⟨D.back hi hi₂ (D.later_trans hl hl₂) (.inr rfl) hrestored, ?_, hrestored, ?_⟩
  · exact D.later_trans (D.later_trans hl hl₂) hback
  · exact D.sound_later hback hv

theorem Safe.tell {kind : StepKind} (hk : kind ≠ .error) {loc : Location} (hloc : N.Place loc)
    (recorded : Bool) (words : Heap → String) :
    D.Safe K (ScriptReplay.tell recorded kind loc words) := by
  intro L m hi hK
  rw [Run.outcome_tell]
  split
  · exact Safe.record hk hloc _ L m hi hK
  · exact ⟨hi, D.later_refl m, .refl m, trivial⟩

theorem Safe.toldCall {w : Walker} {shown name : String} {r : Routine} {chain : Chain}
    {args : List Value} {loc : Location} {body : Run Value}
    (hf : K.has (.function (.script name r chain))) (ha : ∀ v ∈ args, K.has v)
    (hloc : N.Place loc)
    (hbind : ¬ N.NoFallbacks → ∀ scope, D.Safe K (bindParams w scope .empty r.params args))
    (hbody : ∀ K' : Stock N, K ≤ K' → D.Safe K' body) (recorded : Bool) :
    D.Safe K (ScriptReplay.toldCall recorded w shown r chain args loc body) := by
  refine Safe.bind (.call hf ha hloc hbind fun params K' hK _ => ?_) fun result K' _ hr => ?_
  · refine Safe.bind (.tell (by decide) hloc recorded _) fun _ K'' hK' _ =>
      hbody K'' (Stock.le_trans hK hK')
  · refine Safe.bind (.tell (by decide) hloc recorded _) fun _ K'' hK' _ => .pure (hK' _ hr)

/-! ### Whole evaluations -/

/-- Computations made of actions keep to every discipline. -/
theorem safe_of_acts {x y : Run α} (h : Acts G K x y) : D.Safe K x ∧ D.Safe K y := by
  induction h with
  | pure ha => exact ⟨.pure ha, .pure ha⟩
  | bind _ _ ihx ihf =>
    exact ⟨ihx.1.bind fun a K' hK ha => (ihf a K' hK ha).1,
      ihx.2.bind fun a K' hK ha => (ihf a K' hK ha).2⟩
  | look _ ih =>
    -- What is stored in the present state is sound in it, and that is the stock to go
    -- on with.
    refine ⟨fun L m hi hK => ?_, fun L m hi hK => ?_⟩
    · rw [Run.outcome_get_bind]
      exact (ih m m (D.stock m) (.refl m) hK (fun v hv => D.sound_held hi hv) (D.sized hi)).1
        L m hi (Stock.le_refl _)
    · rw [Run.outcome_get_bind]
      exact (ih m m (D.stock m) (.refl m) hK (fun v hv => D.sound_held hi hv) (D.sized hi)).2
        L m hi (Stock.le_refl _)
  | ceilings _ ih =>
    refine ⟨fun L m hi hK => ?_, fun L m hi hK => ?_⟩
    · rw [Run.outcome_read_bind]
      exact (ih L L (Gap.between_self _ L) (D.ceiling hi) (D.ceiling hi)).1 L m hi hK
    · rw [Run.outcome_read_bind]
      exact (ih L L (Gap.between_self _ L) (D.ceiling hi) (D.ceiling hi)).2 L m hi hK
  | fail hloc => exact ⟨.throw (Stop.isPlaced_at hloc _), .throw (Stop.isPlaced_at hloc _)⟩
  | stopAtCeiling _ _ hloc _ ih => exact ⟨.throw (Stop.isPlaced_at hloc _), ih.2⟩
  | noFuel _ => exact ⟨.throw trivial, .throw trivial⟩
  | stopWithoutFuel _ _ ih => exact ⟨.throw trivial, ih.2⟩
  | record hk hloc => exact ⟨.record hk.no_error hloc _, .record hk.no_error hloc _⟩
  | say hk hloc => exact ⟨.say hk.no_error hloc _ _, .say hk.no_error hloc _ _⟩
  | change c hv _ hc => exact ⟨.change c hv hc, .change c hv hc⟩
  | newSlot hv hs => exact ⟨.newSlot hv hs, .newSlot hv hs⟩
  | makeFunction hr hplace => exact ⟨.makeFunction hr hplace, .makeFunction hr hplace⟩
  | block _ ih => exact ⟨ih.1.block _, ih.2.block _⟩
  | call hf hargs hloc _ _ _ ihbind ihbody =>
    refine ⟨.toldCall hf hargs hloc (fun hN scope => (ihbind hN scope).1) (fun K' hK => ?_) _,
      .toldCall hf hargs hloc (fun hN scope => (ihbind hN scope).2) (fun K' hK => ?_) _⟩
    · exact ihbody.1.mono hK
    · exact ihbody.2.mono hK

end Discipline

/-- A program keeps to every discipline over its nodes. -/
theorem Discipline.inv_runFrom {N : Region} (D : Discipline N) {p : Program}
    (hp : ∀ s ∈ p.body, N.has (.stmt s)) {L : RunLimits} (hi : D.inv L (.initial L))
    (fuel : Nat) : D.inv L (runFrom L fuel p).2 := by
  have hacts : Acts .none (D.stock (.initial L)) (runProgram fuel p) (runProgram fuel p) :=
    runProgram_acts (S := N.ground) hp (walker_acts_self (G := .none) trivial fuel)
  rw [runFrom_eq]
  exact ((safe_of_acts hacts).1 L _ hi (Stock.le_refl _)).inv

/-- The steps that a run leaves behind are those of its last state, perhaps with one that
tells of a failure. -/
theorem Execution.exists_machine {L : RunLimits} {fuel : Nat} {p : Program} {e : Execution}
    (he : Execution.ofProgram? L fuel p = some e) :
    ∃ m, e.steps = m.trace.toList ∧ (m = (runFrom L fuel p).2 ∨
      ∃ loc description, m = (runFrom L fuel p).2.recorded .error loc description) := by
  unfold Execution.ofProgram? at he
  generalize runFrom L fuel p = o at he
  rcases o with ⟨(f | _) | _, m⟩
  · cases he
    dsimp only [Machine.recordFailure, Recorder.pushTerminal]
    split
    · exact ⟨m.recorded .error _ _, rfl, .inr ⟨_, _, rfl⟩⟩
    · exact ⟨m, rfl, .inl rfl⟩
  · cases he
  · cases he
    exact ⟨m, rfl, .inl rfl⟩

end ScriptReplay
