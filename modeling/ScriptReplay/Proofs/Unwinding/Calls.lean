/-
Expressions and calls leave at once what they leave.

An expression tells of no return and no break itself; those that are told of while it is
evaluated come from the bodies of functions that it calls.  So it leaves a settled state
behind if the bodies do what they should.

* `Goes` : how a computation may end, and what it has told of then;
* `Tame` : computations that go so from the states that they are meant for;
* `Bodies` : the bodies of all functions of the program do, below a number of calls;
* `Answers` : a call in which a return was told of ends with that value;
* `toldCall_goes` : so do calls, which is read off the phases of a call;
* `Tame.of_acts` : so do computations that are made of the actions of expressions.

Design notes: the actions of an expression do not say how a body goes, since a body is made
of statements.  The number of calls that the ceiling still allows goes down with each call, so
bodies are treated for one call less.
-/
import ScriptReplay.Proofs.Fuel
import ScriptReplay.Proofs.Locations
import ScriptReplay.Proofs.Unwinding.Told

namespace ScriptReplay

variable {p : Program} {L : RunLimits} {old new : List Step} {calls : Nat} {α β : Type}
  {m m' : Machine} {ids : List Nat}

/-! ### How computations end -/

/-- How a computation may end that was begun with some calls in progress.  One that ends
with an answer is in a state as described.  One that fails has told of everything in order,
with the calls still in progress; a break that was told of last is left open only at the
ceiling on steps. -/
def Goes (p : Program) (old : List Step) (ids : List Nat)
    (Q : α → List Step → Machine → Prop) : Except Stop α × Machine → Prop
  | (.ok a, m) => ∃ new, Q a new m
  | (.error stop, m) => (∀ id ∈ ids, id ∈ m.stack.ids) ∧
    ∃ new, m.Told p old new fun _ => stop = .failed ⟨.stepLimit m.trace.max, none⟩

variable {Q : α → List Step → Machine → Prop} {R : β → List Step → Machine → Prop}

/-- The values that can be used while the program runs. -/
def Program.legal (p : Program) : Stock p.region where
  has v := v.Legal p.region
  plain := .of_isPlain
  legal h := h

theorem Stock.le_legal (K : Stock p.region) : K ≤ p.legal :=
  fun _ hv => K.legal hv

theorem Carries.within_legal [Carries α] {K : Stock p.region} {a : α}
    (ha : Carries.within K.has a) : Carries.within p.legal.has a :=
  Carries.mono (fun _ hv => K.legal hv) ha

theorem Goes.error (h : Settled p old new m) (hids : ∀ id ∈ ids, id ∈ m.stack.ids)
    (stop : Stop) : Goes p old ids Q (.error stop, m) :=
  ⟨hids, new, h.imp fun _ => False.elim⟩

theorem Goes.imp {Q' : α → List Step → Machine → Prop} {o : Except Stop α × Machine}
    (h : Goes p old ids Q o) (hQ : ∀ a new m, Q a new m → Q' a new m) :
    Goes p old ids Q' o := by
  rcases o with ⟨stop | a, m⟩
  · exact h
  · obtain ⟨new, hpre⟩ := h
    exact ⟨new, hQ a new m hpre⟩

/-- What comes after an answer.  The computation is one that keeps to the program, so it
leaves the calls that it found in progress. -/
theorem Goes.follow [Carries α] {o : Except Stop α × Machine}
    {k : α → Machine → Except Stop β × Machine} (hends : (Discipline.placing p).Ends L m o)
    (h : Goes p old m.stack.ids Q o)
    (hk : ∀ a m' new, m'.Placed p.region → m.Restored m' → Carries.within p.legal.has a →
      Q a new m' → Goes p old m'.stack.ids R (k a m')) :
    Goes p old m.stack.ids R (Run.follow o k) := by
  rcases o with ⟨stop | a, m'⟩
  · exact h
  · obtain ⟨new, hQ⟩ := h
    obtain ⟨hplaced, -, hrestored, ha⟩ := hends
    have hrest := hk a m' new hplaced hrestored ha hQ
    rwa [hrestored.ids_eq] at hrest

/-- Recording a step that tells of no return. -/
theorem goes_record {pending : Loop → Prop} (h : m.Told p old new pending)
    {kind : StepKind} {loc : Location}
    {description : String} (hreturns : ¬ (m.step kind loc description).Returns)
    (hpending : ∀ loop, pending loop → (m.step kind loc description).EndsLoop loop) :
    Goes p old m.stack.ids (fun _ new' m' => m'.Told p old new' fun loop =>
      (m.step kind loc description).Leaves p loop)
        ((record kind loc description).outcome L m) := by
  rw [Run.outcome_record]
  split
  · exact ⟨_, h.recorded hreturns hpending⟩
  · exact ⟨fun _ hid => hid, new, h.imp fun _ _ => rfl⟩

/-- Recording a step that tells neither of a return nor of a break. -/
theorem goes_record_settled (h : Settled p old new m) {kind : StepKind} {loc : Location}
    {description : String} (hreturns : ¬ (m.step kind loc description).Returns)
    (hleaves : ∀ loop, ¬ (m.step kind loc description).Leaves p loop) :
    Goes p old m.stack.ids
      (fun _ => Settled p old) ((record kind loc description).outcome L m) :=
  (goes_record h hreturns fun _ => False.elim).imp fun _ _ _ htold => htold.imp hleaves

theorem goes_tell (h : Settled p old new m) (recorded : Bool) {kind : StepKind}
    {loc : Location} {words : Heap → String}
    (hreturns : ¬ (m.step kind loc (words m.heap)).Returns)
    (hleaves : ∀ loop, ¬ (m.step kind loc (words m.heap)).Leaves p loop) :
    Goes p old m.stack.ids
      (fun _ => Settled p old) ((tell recorded kind loc words).outcome L m) := by
  rw [Run.outcome_tell]
  split
  · exact goes_record_settled h hreturns hleaves
  · exact ⟨new, h⟩

/-! ### Computations that end so -/

/-- A computation that keeps to the program, and that goes from states as described to states
as described, where the ceiling allows some more calls inside one another. -/
structure Tame (p : Program) (L : RunLimits) (old : List Step) (calls : Nat) [Carries α]
    (P : List Step → Machine → Prop) (x : Run α) (Q : α → List Step → Machine → Prop) :
    Prop where
  safe : (Discipline.placing p).Safe p.legal x
  goes : ∀ m new, m.Placed p.region → L.maxCallDepth ≤ m.stack.depth + calls → P new m →
    Goes p old m.stack.ids Q (x.outcome L m)

section
variable [Carries α] [Carries β] {P : List Step → Machine → Prop} {x : Run α}

/-- How a computation that keeps to the program ends. -/
theorem Tame.ends (h : Tame p L old calls P x Q) (hm : m.Placed p.region) :
    (Discipline.placing p).Ends L m (x.outcome L m) :=
  h.safe L m hm fun _ hv => hv

theorem Tame.pure {a : α} (ha : Carries.within p.legal.has a)
    (hQ : ∀ new m, P new m → Q a new m) : Tame p L old calls P (Pure.pure a) Q :=
  ⟨.pure ha, fun m new _ _ hm => ⟨new, hQ new m hm⟩⟩

theorem Tame.imp {P' : List Step → Machine → Prop} {Q' : α → List Step → Machine → Prop}
    (h : Tame p L old calls P x Q) (hP : ∀ new m, P' new m → P new m)
    (hQ : ∀ a new m, Q a new m → Q' a new m) : Tame p L old calls P' x Q' :=
  ⟨h.safe, fun m new hm hdepth hpre => (h.goes m new hm hdepth (hP new m hpre)).imp hQ⟩

theorem Tame.bind {f : α → Run β} (hx : Tame p L old calls P x Q)
    (hf : ∀ a, Carries.within p.legal.has a → Tame p L old calls (Q a) (f a) R) :
    Tame p L old calls P (x >>= f) R := by
  refine ⟨hx.safe.bind fun a K' hK ha => (hf a (Carries.within_legal ha)).safe.mono hK,
    fun m new hm hdepth hpre => ?_⟩
  rw [Run.outcome_bind]
  refine (hx.goes m new hm hdepth hpre).follow (hx.ends hm)
    fun a m' new' hm' hrestored ha hQ => ?_
  refine (hf a ha).goes m' new' hm' ?_ hQ
  rwa [CallStack.depth_eq_of_shells hrestored.frames]

theorem Tame.ceilings {f : RunLimits → Run α} (hf : ∀ L', Tame p L old calls P (f L') Q) :
    Tame p L old calls P (read >>= f) Q := by
  refine ⟨fun L' m hm hK => ?_, fun m new hm hdepth hpre => ?_⟩
  · rw [Run.outcome_read_bind]
    exact (hf L').safe L' m hm hK
  · rw [Run.outcome_read_bind]
    exact (hf L).goes m new hm hdepth hpre

theorem Tame.fail {cause : Cause} {loc : Location} (hloc : p.region.Place loc) :
    Tame p L old calls (Settled p old) (failAt cause loc : Run α) Q :=
  ⟨.throw (Stop.isPlaced_at hloc _), fun _ _ _ _ hm => .error hm (fun _ hid => hid) _⟩

end

/-! ### Calls -/

/-- A body has ended normally, or a return of its call was told of last. -/
def Ended (p : Program) (old : List Step) (v : Value) (new : List Step) (m : Machine) :
    Prop :=
  Settled p old new m ∨ m.Returning p old new v

/-- The call is over, and what was told of inside it is settled. -/
theorem Ended.popped {v : Value} (h : Ended p old v new m) {id : Nat}
    (hids : m.stack.ids = id :: ids) (hid : id ∉ ids) (chain : Chain) :
    Settled p old new (m.popped chain) := by
  rcases h with hsettled | hreturning
  · exact hsettled.popped chain
  · exact hreturning.popped hids hid chain

/-- Among the steps so far only the last one can tell of a return from a call that is
in progress. -/
theorem Ended.last_of_returns {v : Value} (h : Ended p old v new m) {id : Nat}
    (hid : id ∈ m.stack.ids) {s : Step} (hs : s ∈ new) (hreturns : s.Returns)
    (hshown : s.stack.ids.head? = some id) :
    new.getLast? = some s ∧ s.description = "Return " ++ m.heap.inspect v false := by
  rcases h with hsettled | hreturning
  · exact absurd hid (hsettled.not_returned hs hreturns hshown)
  · obtain ⟨before, t, rfl, hover, -, -, hdescription⟩ := hreturning.last
    rcases List.mem_append.1 hs with hs | hs
    · obtain ⟨id', hid', hnot⟩ := hover s hs hreturns
      rw [hshown] at hid'
      cases hid'
      exact absurd hid hnot
    · obtain rfl := List.mem_singleton.1 hs
      exact ⟨List.getLast?_concat, hdescription⟩

/-- The bodies of all functions of the program end so, where the ceiling allows some more
calls inside them. -/
def Bodies (p : Program) (L : RunLimits) (old : List Step) (calls : Nat) : Prop :=
  ∀ fuel r this, p.region.has (.routine r) → (∀ v, this = some v → v.Legal p.region) →
    Tame p L old calls (Settled p old) (callBody (walker fuel) r this) (Ended p old)

/-- A call in which this return was told of has its value for an answer, or it fails since
there is no room for the step that would tell of its end. -/
def Answers (s : Step) (recorded : Bool) (o : Except Stop Value × Machine) : Prop :=
  ∃ v, s.description = "Return " ++ o.2.heap.inspect v false ∧
    (o.1 = .ok v ∨ recorded = true ∧ o.1 = .error (.failed ⟨.stepLimit o.2.trace.max, none⟩) ∧
      o.2.trace.hasRoom = false ∧ o.2.trace.toList.getLast? = some s)

/-- How a call ends that was begun with some calls in progress, and which returns it answers:
those that are told of with its own frame on top. -/
def CallGoes (p : Program) (old : List Step) (ids : List Nat) (id : Nat) (recorded : Bool)
    (o : Except Stop Value × Machine) : Prop :=
  Goes p old ids (fun _ => Settled p old) o ∧ ∃ new, o.2.trace.toList = old ++ new ∧
    ∀ s ∈ new, s.Returns → s.stack.ids.head? = some id → Answers s recorded o

theorem not_returns_returnWords (m : Machine) (loc : Location) (shown : String) (v : Value)
    (heap : Heap) : ¬ (m.step .return_ loc (returnWords shown v heap)).Returns :=
  fun hreturns => hreturns.2 (closesCall_returnWords shown v heap)

/-- The end of a call, when its body has ended. -/
theorem callGoes_of_goes {id : Nat} (hid : id ∉ ids) {o : Except Stop Value × Machine}
    (h : Goes p old (id :: ids) (Ended p old) o)
      (hids : ∀ v m, o = (.ok v, m) → m.stack.ids = id :: ids) (recorded : Bool)
      (shown : String) (loc : Location) (chain : Chain) :
    CallGoes p old ids id recorded (Run.follow o fun v m =>
      Run.follow
        ((tell recorded .return_ loc (returnWords shown v)).outcome L (m.popped chain))
        fun _ m' =>
        (.ok v, m')) := by
  rcases o with ⟨stop | v, m⟩
  · -- The frame of the call is still there, so nothing has returned from it.
    obtain ⟨hkept, new, htold⟩ := h
    refine ⟨⟨fun id' hid' => hkept id' (List.mem_cons_of_mem _ hid'), new, htold⟩,
      new, htold.trace_eq, ?_⟩
    exact fun s hs hreturns hshown =>
      absurd (hkept id List.mem_cons_self) (htold.not_returned hs hreturns hshown)
  obtain ⟨new, hended⟩ := h
  have hframes := hids v m rfl
  have hrest : (m.popped chain).stack.ids = ids := by
    show (m.stack.frames.tail).map (·.id) = ids
    rw [List.map_tail]
    exact congrArg List.tail hframes
  have hpopped : Settled p old new (m.popped chain) := hended.popped hframes hid chain
  have hreturned : ∀ s ∈ new, s.Returns → s.stack.ids.head? = some id →
      new.getLast? = some s ∧ s.description = "Return " ++ m.heap.inspect v false :=
      fun s hs =>
    hended.last_of_returns (hframes ▸ List.mem_cons_self) hs
  show CallGoes p old ids id recorded
    (Run.follow ((tell recorded .return_ loc (returnWords shown v)).outcome L
      (m.popped chain)) fun _ m' => (.ok v, m'))
  rw [Run.outcome_tell, Run.outcome_record]
  split
  · next hrecorded =>
    split
    · have htold :=
        hpopped.recorded (not_returns_returnWords _ loc shown v (m.popped chain).heap)
        fun _ => False.elim
      refine ⟨⟨_, htold.imp fun loop =>
        Step.not_leaves_of_kind (by decide : StepKind.return_ ≠ .branch)⟩, _,
        htold.trace_eq, fun s hs hreturns hshown => ?_⟩
      rcases List.mem_append.1 hs with hs | hs
      · exact ⟨v, (hreturned s hs hreturns hshown).2, .inl rfl⟩
      · rw [List.mem_singleton.1 hs] at hreturns
        exact absurd hreturns (not_returns_returnWords _ _ _ _ _)
    · next hroom =>
      -- There is no room for the step that ends the call, so a step of the statement that
      -- returned is the last one.
      refine ⟨.error hpopped (fun _ hmem => hrest.symm ▸ hmem) _, new, hpopped.trace_eq,
        fun s hs hreturns hshown => ?_⟩
      obtain ⟨hlast, hdescription⟩ := hreturned s hs hreturns hshown
      refine ⟨v, hdescription, .inr ⟨hrecorded, rfl, Bool.eq_false_iff.2 hroom, ?_⟩⟩
      show (m.popped chain).trace.toList.getLast? = some s
      rw [hpopped.trace_eq, List.getLast?_append, hlast]
      rfl
  · exact ⟨⟨new, hpopped⟩, new, hpopped.trace_eq, fun s hs hreturns hshown =>
      ⟨v, (hreturned s hs hreturns hshown).2, .inl rfl⟩⟩

/-- Parameters without fallbacks are bound without a step. -/
theorem bindParams_quiet {w : Walker} {params : List Param}
    (hp : ∀ q ∈ params, q.fallback = none) (scope : ScopeId) (bound : Table Value)
    (args : List Value) (L : RunLimits) (m : Machine) :
    ∃ bound' m', (bindParams w scope bound params args).outcome L m = (.ok bound', m') ∧
      m.Quiet m' := by
  induction params generalizing bound args m with
  | nil => exact ⟨bound, m, rfl, .refl m⟩
  | cons q params ih =>
    obtain ⟨bound', m', ho, hquiet⟩ := ih (fun q' hq' => hp q' (List.mem_cons_of_mem _ hq'))
      (bound.insert q.name (args.headD .undefined)) args.tail
      ((Change.declare scope q.name (args.headD .undefined)).apply m)
    refine ⟨bound', m', ?_, (Machine.Quiet.changed (.declare scope q.name _) m).trans hquiet⟩
    rw [Discipline.bindParams_cons (hp q List.mem_cons_self),
      Run.outcome_bind_ok (Run.outcome_modify _ _ _)]
    exact ho

/-- Parameters are bound in the scope of a call that is not in progress yet. -/
theorem goes_bindParams {w : Walker} {r : Routine} (hr : p.region.has (.routine r))
    (h : Settled p old new m) (hm : m.Placed p.region)
    (hdepth : L.maxCallDepth ≤ m.stack.depth + calls) (shown : String) (chain : Chain)
    (args : List Value)
    (hbind : ¬ p.region.NoFallbacks → Tame p L old calls (Settled p old)
      (bindParams w m.scopes.size .empty r.params args) fun _ => Settled p old) :
    Goes p old m.stack.ids (fun _ => Settled p old)
      ((bindParams w m.scopes.size .empty r.params args).outcome L
        (m.inScope .function shown chain)) := by
  have hinside : Settled p old new (m.inScope .function shown chain) :=
    h.of_quiet (.inScope m .function shown chain)
  by_cases hN : p.region.NoFallbacks
  · obtain ⟨bound, m₁, ho, hquiet⟩ :=
      bindParams_quiet (w := w) (hN r hr) m.scopes.size .empty args L
      (m.inScope .function shown chain)
    rw [ho]
    exact ⟨new, hinside.of_quiet hquiet⟩
  · exact (hbind hN).goes _ new (hm.inScope .function shown chain) hdepth hinside

/-- Calls go as expressions do, if the bodies for one call less end as they should.  Which
returns a call answers is said for the frame that it gets once its parameters are bound. -/
theorem toldCall_goes {w : Walker} {shown name : String} {r : Routine} {chain : Chain}
    {args : List Value} {loc : Location} {body : Run Value} (hloc : p.region.Place loc)
    (hf : (Value.function (.script name r chain)).Legal p.region)
    (hargs : ∀ v ∈ args, v.Legal p.region)
    (hbind : ¬ p.region.NoFallbacks → ∀ scope, Tame p L old calls (Settled p old)
      (bindParams w scope .empty r.params args) fun _ => Settled p old)
    (hbody : ∀ inner, calls = inner + 1 →
      Tame p L old inner (Settled p old) body (Ended p old))
    (hm : m.Placed p.region) (hdepth : L.maxCallDepth ≤ m.stack.depth + calls)
    (h : Settled p old new m) (recorded : Bool) :
    Goes p old m.stack.ids (fun _ => Settled p old)
        ((toldCall recorded w shown r chain args loc body).outcome L m) ∧
      ∀ params m₁, (bindParams w m.scopes.size .empty r.params args).outcome L
        (m.inScope .function shown chain) =
          (.ok params, m₁) → m.stack.depth < L.maxCallDepth →
        CallGoes p old m.stack.ids (m₁.stack.lastId + 1) recorded
          ((toldCall recorded w shown r chain args loc body).outcome L m) := by
  rw [Run.outcome_toldCall]
  by_cases hlimit : L.maxCallDepth ≤ m.stack.depth
  -- A call beyond the ceiling ends before it has a scope or a frame.
  · rw [if_pos hlimit]
    exact ⟨.error h (fun _ hid => hid) _, fun _ _ _ hlt => absurd hlt (Nat.not_lt.2 hlimit)⟩
  rw [if_neg hlimit]
  have hgoes :=
    goes_bindParams hf.1 h hm hdepth shown chain args fun hN => hbind hN m.scopes.size
  rcases ho : (bindParams w m.scopes.size .empty r.params args).outcome L
    (m.inScope .function shown chain) with
    ⟨stop | params, m₁⟩
  · rw [ho] at hgoes
    exact ⟨hgoes, fun _ _ hok => by cases hok⟩
  rw [ho] at hgoes
  obtain ⟨new₁, h₁⟩ := hgoes
  obtain ⟨hm₂, -, hrestored, -⟩ :=
    Discipline.inv_pushed (D := .placing p) (K := p.legal) hm (fun _ hv => hv) hf hargs
    (fun hN => (hbind hN m.scopes.size).safe) (Nat.lt_of_not_le hlimit) ho loc r.bodyLoc.line
  -- The frame of the call is on top of those from before, under a number of its own.
  have hids₁ : m₁.stack.ids = m.stack.ids := hrestored.ids_eq
  have hids₂ : (m₁.pushed shown params loc r.bodyLoc.line m.scopes.size).stack.ids =
      (m₁.stack.lastId + 1) :: m.stack.ids := congrArg ((m₁.stack.lastId + 1) :: ·) hids₁
  have hfresh : m₁.stack.lastId + 1 ∉ m.stack.ids := fun hmem => by
    have hle := h₁.ids_le _ (hids₁ ▸ hmem)
    omega
  obtain ⟨inner, rfl⟩ := Nat.exists_eq_add_one_of_ne_zero (show calls ≠ 0 by omega)
  have hdepth₂ : L.maxCallDepth ≤
      (m₁.pushed shown params loc r.bodyLoc.line m.scopes.size).stack.depth + inner := by
    have hdepth₁ : m₁.stack.depth = m.stack.depth :=
      CallStack.depth_eq_of_shells hrestored.frames
    show L.maxCallDepth ≤ m₁.stack.depth + 1 + inner
    omega
  have hopen : ∀ heap loop, ¬ ((m₁.pushed shown params loc r.bodyLoc.line m.scopes.size).step
      .call loc (callWords shown params heap)).Leaves p loop :=
    fun _ _ =>
    Step.not_leaves_of_kind (by decide : StepKind.call ≠ .branch)
  have hbegin : Tame p L old inner
      (fun new' m' => m' = m₁.pushed shown params loc r.bodyLoc.line m.scopes.size ∧
        Settled p old new' m')
      (tell recorded .call loc (callWords shown params)) fun _ => Settled p old := by
    refine ⟨.tell (by decide) hloc _ _, ?_⟩
    rintro _ new' - - ⟨rfl, hsettled⟩
    exact goes_tell hsettled recorded
      (Step.not_returns_of_kind (by decide : StepKind.call ≠ .return_)) (hopen _)
  -- The step that opens the call and the body behind it are one run under the new frame.
  have hthrough := hbegin.bind (f := fun _ => body) fun _ _ => hbody inner rfl
  have hended := hthrough.goes _ new₁ hm₂ hdepth₂
    ⟨rfl, h₁.pushed shown params loc r.bodyLoc.line m.scopes.size⟩
  have hframes := hthrough.ends hm₂
  rw [Run.outcome_bind] at hended hframes
  rw [hids₂] at hended
  have hcall :=
    callGoes_of_goes (L := L) hfresh hended (fun v m₃ hok => ?_) recorded shown loc m.chain
  · rw [Run.follow_follow] at hcall
    exact ⟨hcall.1, fun params' m₁' hok _ => by
      cases hok
      exact hcall⟩
  · rw [hok] at hframes
    exact hframes.2.2.1.ids_eq.trans hids₂

/-! ### Expressions -/

/-- What is made of the actions of expressions leaves a settled state behind. -/
theorem Tame.of_acts {G : Gap} {K : Stock p.region} [Carries α] {x y : Run α}
    (h : Acts G K x y) (hG : G = .alone)
    (hbodies : ∀ inner, calls = inner + 1 → Bodies p L old inner) :
    Tame p L old calls (Settled p old) x fun _ => Settled p old := by
  refine ⟨(Discipline.safe_of_acts h).1.mono (Stock.le_legal K), ?_⟩
  induction h with
  | pure _ => exact fun m new _ _ hnew => ⟨new, hnew⟩
  | @bind G K α β _ _ x y f g hx _ ihx ihf =>
    intro m new hm hdepth hnew
    have hends := (Discipline.safe_of_acts (D := .placing p) hx).1 L m hm (Stock.le_legal K)
    rw [Run.outcome_bind]
    refine (ihx hG m new hm hdepth hnew).follow hends
      fun a m' new' hm' hrestored ha hnew' => ?_
    refine ihf a p.legal (Stock.le_legal K) ha hG m' new' hm' ?_ hnew'
    rwa [CallStack.depth_eq_of_shells hrestored.frames]
  | @look G K α _ f g _ ih =>
    intro m new hm hdepth hnew
    rw [Run.outcome_get_bind]
    exact ih m m p.legal (.refl m) (Stock.le_legal K) hm.legal
      (fun _ => trivial) hG m new hm hdepth hnew
  | ceilings _ ih =>
    intro m new hm hdepth hnew
    rw [Run.outcome_read_bind]
    exact ih L L (Gap.between_self _ L) ⟨trivial, trivial⟩
      ⟨trivial, trivial⟩ hG m new hm hdepth hnew
  | fail _ => exact fun m new _ _ hnew => .error hnew (fun _ hid => hid) _
  -- A run is compared with itself here, so neither goes on where the other one stops.
  | stopAtCeiling hraised _ _ _ _ =>
    rw [hraised] at hG
    cases hG
  | noFuel _ => exact fun m new _ _ hnew => .error hnew (fun _ hid => hid) _
  | stopWithoutFuel hdiffers _ _ =>
    rw [hG] at hdiffers
    exact hdiffers.elim
  | record hk _ =>
    obtain ⟨hreturn, hbranch⟩ := hk.straight hG
    exact fun m new _ _ hnew =>
      goes_record_settled hnew (Step.not_returns_of_kind hreturn) fun _ =>
        Step.not_leaves_of_kind hbranch
  | @say G K line kind loc description hk _ =>
    obtain ⟨hreturn, hbranch⟩ := hk.straight hG
    intro m new _ _ hnew
    have hprinted := hnew.of_quiet (.changed (.print line) m)
    unfold say
    rw [Run.outcome_bind_ok (Run.outcome_modify _ _ _)]
    exact goes_record_settled hprinted (Step.not_returns_of_kind hreturn) fun _ =>
      Step.not_leaves_of_kind hbranch
  | change c _ _ _ => exact fun m new _ _ hnew => ⟨new, hnew.of_quiet (.changed c m)⟩
  | newSlot _ _ => exact fun m new _ _ hnew => ⟨new, hnew.of_quiet ⟨rfl, rfl, rfl⟩⟩
  | makeFunction _ _ => exact fun m new _ _ hnew => ⟨new, hnew⟩
  | @block G K name x y hx ih =>
    intro m new hm hdepth hnew
    have hinside := hm.inScope .block name m.chain
    rw [Run.outcome_inLoopScope]
    refine Goes.follow (m := m.inScope .block name m.chain)
      ((Discipline.safe_of_acts hx).1 L _ hinside (Stock.le_legal K))
      (ih hG _ new hinside hdepth (hnew.of_quiet (.inScope m .block name m.chain)))
      fun c m' new' _ _ _ hnew' => ?_
    exact ⟨new', hnew'.of_quiet (.outOfScope m')⟩
  | @call G K w w' shown name r chain args loc recorded body body' hf hargs hloc
      hbind hserves _ ihbind _ =>
    intro m new hm hdepth hnew
    obtain ⟨fuel, this, hthis, rfl⟩ := hserves hG
    refine (toldCall_goes hloc (K.legal hf) (fun v hv => K.legal (hargs v hv))
      (fun hN scope => ?_) (fun inner hinner => ?_) hm hdepth hnew recorded).1
    · exact ⟨(Discipline.safe_of_acts (hbind hN scope)).1.mono (Stock.le_legal K),
        ihbind hN scope hG⟩
    · exact hbodies inner hinner fuel r this (K.legal hf).1 fun v hv => K.legal (hthis v hv)

end ScriptReplay
