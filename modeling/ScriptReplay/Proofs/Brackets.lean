/-
Steps that tell of calls are nested like brackets.

The step that tells of the beginning of a call and the one that tells of its end belong
together.  Whatever a body does in between, returns out of loops and callbacks of which no
steps tell included, the two enclose only steps that are nested themselves.

* `Step.Matches` : two steps that tell of the same call;
* `Nested` : steps in which each call that is told of is told of to its end;
* `Unfinished` : steps that can go on to be nested;
* `Bracketed` : the steps that a computation adds;
* `bracketed_of_acts` : computations made of actions add nested steps, or unfinished ones
  if they fail;
* `Execution.steps_nested` : so do whole runs.

Design notes: a run that fails leaves calls open.  Unfinished steps stay so with any nested
steps behind them, which is what the step that tells of the failure needs.
-/
import ScriptReplay.Proofs.Steps

namespace ScriptReplay

/-! ### Brackets -/

/-- Two steps that tell of the same call: under one name, which is that of the innermost frame
as it begins, and at one place.  At its end that frame is gone and the others are there. -/
structure Step.Matches (o c : Step) : Prop where
  opens : OpensCall o.kind o.description
  closes : ClosesCall c.kind c.description
  name : ∃ name args result, o.stack.top?.map (·.name) = some name ∧
    o.description = "Call " ++ name ++ "(" ++ args ++ ")" ∧
    c.description = "Return from " ++ name ++ ": " ++ result
  loc : c.loc = o.loc
  frames : c.stack.toList.map (·.id) = (o.stack.toList.map (·.id)).dropLast

/-- Steps in which each call that is told of is told of to its end, and no other end
is told of. -/
inductive Nested : List Step → Prop
  | nil : Nested []
  | other {s : Step} {rest : List Step} (ho : ¬ OpensCall s.kind s.description)
    (hc : ¬ ClosesCall s.kind s.description) (hrest : Nested rest) : Nested (s :: rest)
  | call {o c : Step} {inner rest : List Step} (hm : o.Matches c)
    (hinner : Nested inner) (hrest : Nested rest) :
    Nested (o :: (inner ++ c :: rest))

/-- Steps that can go on to be nested, whatever nested steps come next. -/
def Unfinished (steps : List Step) : Prop :=
  ∃ more, ∀ next, Nested next → Nested (steps ++ (next ++ more))

theorem Nested.append {steps steps' : List Step} (h : Nested steps) (h' : Nested steps') :
    Nested (steps ++ steps') := by
  induction h with
  | nil => exact h'
  | other ho hc _ ih => exact .other ho hc ih
  | @call o c inner rest hm hinner _ _ ih =>
    have hcall : Nested (o :: (inner ++ c :: (rest ++ steps'))) := .call hm hinner ih
    simpa using hcall

theorem Nested.single {s : Step} (h : Ordinary s.kind s.description) : Nested [s] :=
  .other h.not_opens h.not_closes .nil

theorem Nested.unfinished {steps : List Step} (h : Nested steps) : Unfinished steps :=
  ⟨[], fun next hnext => by simpa using h.append hnext⟩

theorem Unfinished.behind {steps steps' : List Step} (h : Unfinished steps')
    (hsteps : Nested steps) : Unfinished (steps ++ steps') := by
  obtain ⟨more, hmore⟩ := h
  refine ⟨more, fun next hnext => ?_⟩
  rw [List.append_assoc]
  exact hsteps.append (hmore next hnext)

/-- A call that has begun and whose end is still to come. -/
theorem Unfinished.inside {o c : Step} {steps : List Step} (h : Unfinished steps)
    (hm : o.Matches c) : Unfinished (o :: steps) := by
  obtain ⟨more, hmore⟩ := h
  refine ⟨more ++ [c], fun next hnext => ?_⟩
  have hcall : Nested (o :: ((steps ++ (next ++ more)) ++ c :: [])) :=
    .call hm (hmore next hnext) .nil
  simpa using hcall

/-! ### The two steps of a call -/

theorem opensCall_callWords (shown : String) (params : Table Value) (h : Heap) :
    OpensCall .call (callWords shown params h) := by
  refine ⟨rfl, ?_⟩
  simp only [callWords, String.toList_append, List.append_assoc]
  exact List.prefix_append _ _

theorem closesCall_returnWords (shown : String) (result : Value) (h : Heap) :
    ClosesCall .return_ (returnWords shown result h) := by
  refine ⟨rfl, ?_⟩
  simp only [returnWords, String.toList_append, List.append_assoc]
  exact List.prefix_append _ _

/-- A state with a new frame, and one in which the frames below it are the innermost again. -/
theorem matches_steps {m m' : Machine}
    (hframes : m'.stack.frames.map Frame.shell = m.stack.frames.map Frame.shell)
    (shown : String) (params : Table Value) (result : Value) (loc : Location) (line : Nat)
    (scope : ScopeId) (h h' : Heap) :
    ((m.pushed shown params loc line scope).step .call loc (callWords shown params h)).Matches
      (m'.step .return_ loc (returnWords shown result h')) := by
  refine ⟨opensCall_callWords shown params h, closesCall_returnWords shown result h',
    ⟨shown, _, _, rfl, rfl, rfl⟩, rfl, ?_⟩
  show m'.stack.frames.reverse.map (·.id) = _
  rw [List.map_reverse, Frame.map_eq_of_shells hframes _ fun _ => rfl]
  simp [Machine.step, Machine.pushed, CallStack.push, CallStack.toList]

/-- The frames below that of a call, when it is over. -/
theorem frames_popped {m m' : Machine} {shown : String} {params : Table Value}
    {loc : Location} {line : Nat} {scope : ScopeId}
    (h : m'.stack.frames.map Frame.shell =
      (m.pushed shown params loc line scope).stack.frames.map Frame.shell)
    (chain : Chain) :
    (m'.popped chain).stack.frames.map Frame.shell = m.stack.frames.map Frame.shell := by
  show m'.stack.frames.tail.map Frame.shell = _
  rw [List.map_tail, h]
  rfl

/-! ### What computations add -/

/-- The steps that a computation adds.  One that ends with an answer leaves the frames
as they were. -/
def Bracketed {α : Type} (m : Machine) : Except Stop α × Machine → Prop
  | (.ok _, m') => m'.stack.frames.map Frame.shell = m.stack.frames.map Frame.shell ∧
    ∃ new, m'.trace.toList = m.trace.toList ++ new ∧ Nested new
  | (.error _, m') => ∃ new, m'.trace.toList = m.trace.toList ++ new ∧ Unfinished new

variable {α β : Type} {m m' : Machine}

theorem Bracketed.same {r : Except Stop α} (htrace : m'.trace = m.trace)
    (hframes : m'.stack.frames.map Frame.shell = m.stack.frames.map Frame.shell) :
    Bracketed m (r, m') := by
  have hnew : m'.trace.toList = m.trace.toList ++ [] := by rw [htrace, List.append_nil]
  cases r with
  | ok a => exact ⟨hframes, [], hnew, .nil⟩
  | error s => exact ⟨[], hnew, Nested.nil.unfinished⟩

theorem Bracketed.follow {o : Except Stop α × Machine}
    {k : α → Machine → Except Stop β × Machine} (h : Bracketed m o)
    (hk : ∀ a m', Bracketed m' (k a m')) : Bracketed m (Run.follow o k) := by
  rcases o with ⟨s | a, m₁⟩
  · exact h
  obtain ⟨hframes, new, hnew, hnested⟩ := h
  have hrest := hk a m₁
  show Bracketed m (k a m₁)
  generalize k a m₁ = o' at hrest
  rcases o' with ⟨s | b, m₂⟩
  · obtain ⟨new', hnew', hunfinished⟩ := hrest
    exact ⟨new ++ new', by rw [hnew', hnew, List.append_assoc], hunfinished.behind hnested⟩
  · obtain ⟨hframes', new', hnew', hnested'⟩ := hrest
    exact ⟨hframes'.trans hframes, new ++ new',
      by rw [hnew', hnew, List.append_assoc], hnested.append hnested'⟩

theorem bracketed_record {kind : StepKind} {description : String}
    (hk : Ordinary kind description) (loc : Location) (L : RunLimits) (m : Machine) :
    Bracketed m ((record kind loc description).outcome L m) := by
  rw [Run.outcome_record]
  split
  · exact ⟨rfl, [m.step kind loc description], Recorder.toList_add _ _, .single hk⟩
  · exact .same rfl rfl

/-- A body that is not told of adds its steps between a new frame and the frames
from before. -/
theorem Bracketed.inCall {shown : String} {params : Table Value} {loc : Location} {line : Nat}
    {scope : ScopeId} {o : Except Stop α × Machine}
    (h : Bracketed (m.pushed shown params loc line scope) o) (chain : Chain) :
    Bracketed m (Run.follow o fun v m' => (.ok v, m'.popped chain)) := by
  rcases o with ⟨s | v, m₁⟩
  · exact h
  obtain ⟨hframes, hnew⟩ := h
  exact ⟨frames_popped hframes chain, hnew⟩

/-- A body that is told of adds its steps between the two that tell of it. -/
theorem Bracketed.told {shown : String} {params : Table Value} {loc : Location} {line : Nat}
    {scope : ScopeId} {o : Except Stop Value × Machine} {heap : Heap}
    (h : Bracketed ((m.pushed shown params loc line scope).recorded .call loc
      (callWords shown params heap)) o)
    (L : RunLimits) (chain : Chain) :
    Bracketed m (Run.follow o fun v m' =>
      Run.follow
        ((record .return_ loc (returnWords shown v m'.heap)).outcome L (m'.popped chain))
        fun _ m'' => (.ok v, m'')) := by
  have hbegun : ((m.pushed shown params loc line scope).recorded .call loc
      (callWords shown params heap)).trace.toList =
      m.trace.toList ++
      [(m.pushed shown params loc line scope).step .call loc (callWords shown params heap)] :=
    Recorder.toList_add _ _
  rcases o with ⟨s | v, m₁⟩
  · -- The call stays open; a step in the state from before it would end it.
    obtain ⟨new, hnew, hunfinished⟩ := h
    have hmatches := matches_steps
      (rfl : m.stack.frames.map Frame.shell = m.stack.frames.map Frame.shell) shown params
      .undefined loc line scope heap m.heap
    exact ⟨_ :: new, by rw [hnew, hbegun, List.append_assoc]; rfl,
      hunfinished.inside hmatches⟩
  · obtain ⟨hframes, new, hnew, hnested⟩ := h
    have hback := frames_popped hframes chain
    have hmatches := matches_steps hback shown params v loc line scope heap m₁.heap
    show Bracketed m (Run.follow
      ((record .return_ loc (returnWords shown v m₁.heap)).outcome L (m₁.popped chain)) _)
    rw [Run.outcome_record]
    split
    · have hended : ((m₁.popped chain).recorded .return_ loc
          (returnWords shown v m₁.heap)).trace.toList =
          m₁.trace.toList ++
          [(m₁.popped chain).step .return_ loc (returnWords shown v m₁.heap)] :=
        Recorder.toList_add _ _
      refine ⟨hback, _ :: (new ++ [_]), ?_, .call hmatches hnested .nil⟩
      rw [hended, hnew, hbegun]
      simp
    · exact ⟨_ :: new,
        by rw [← List.singleton_append, ← List.append_assoc, ← hbegun]; exact hnew,
        hnested.unfinished.inside hmatches⟩

/-- A call adds the steps of its fallbacks and then those of its body, between the two that
tell of it. -/
theorem bracketed_toldCall {w : Walker} {r : Routine} {args : List Value} {body : Run Value}
    {L : RunLimits}
    (hbind : ∀ scope m, Bracketed m ((bindParams w scope .empty r.params args).outcome L m))
    (hbody : ∀ m, Bracketed m (body.outcome L m)) (recorded : Bool) (shown : String)
    (chain : Chain) (loc : Location) (m : Machine) :
    Bracketed m ((toldCall recorded w shown r chain args loc body).outcome L m) := by
  rw [Run.outcome_toldCall]
  split
  · exact .same rfl rfl
  refine (hbind m.scopes.size (m.inScope .function shown chain)).follow fun params m₁ => ?_
  simp only [Run.outcome_tell]
  cases recorded with
  | false => exact (hbody _).inCall m.chain
  | true =>
    rw [if_pos rfl, Run.outcome_record]
    split
    · exact (hbody _).told L m.chain
    · exact ⟨[], (List.append_nil _).symm, Nested.nil.unfinished⟩

/-- Computations made of actions add nested steps, or unfinished ones if they fail. -/
theorem bracketed_of_acts {G : Gap} {K : Stock .all} [Carries α] {x y : Run α}
    (h : Acts G K x y) (L : RunLimits) (m : Machine) : Bracketed m (x.outcome L m) := by
  have hall : ∀ {β : Type} [Carries β] (b : β), Carries.within Stock.everything.has b :=
    fun b => Carries.all (fun _ => trivial) b
  induction h generalizing m with
  | pure _ => exact .same rfl rfl
  | bind _ _ ihx ihf =>
    rw [Run.outcome_bind]
    exact (ihx m).follow fun a m₁ => ihf a Stock.everything (fun _ _ => trivial) (hall a) m₁
  | look _ ih =>
    rw [Run.outcome_get_bind]
    exact ih m m Stock.everything (.refl m) (fun _ _ => trivial)
      (fun _ _ => trivial) (fun _ => trivial) m
  | ceilings _ ih =>
    rw [Run.outcome_read_bind]
    exact ih L L (Gap.between_self _ L) ⟨trivial, trivial⟩ ⟨trivial, trivial⟩ m
  | fail _ => exact .same rfl rfl
  | stopAtCeiling _ _ _ _ _ => exact .same rfl rfl
  | noFuel _ => exact .same rfl rfl
  | stopWithoutFuel _ _ _ => exact .same rfl rfl
  | record hk _ => exact bracketed_record hk.toOrdinary _ L m
  | say hk _ =>
    unfold say
    rw [Run.outcome_bind_ok (Run.outcome_modify _ _ _)]
    exact bracketed_record hk.toOrdinary _ L _
  | change c _ _ _ => exact .same (c.kept m).2.1 (c.restored m).frames
  | newSlot _ _ => exact .same rfl rfl
  | makeFunction _ _ => exact .same rfl rfl
  | block _ ih =>
    rw [Run.outcome_inLoopScope]
    refine (ih (m.inScope .block _ m.chain)).follow fun c m₁ => ?_
    obtain ⟨chain, hout⟩ := m₁.exists_outOfScope_eq
    rw [hout]
    exact .same rfl rfl
  | call _ _ _ _ _ _ ihbind ihbody =>
    exact bracketed_toldCall
      (fun scope m => ihbind Region.all_fallbacks scope m) ihbody _ _ _ _ m

theorem bracketed_runFrom (L : RunLimits) (fuel : Nat) (p : Program) :
    Bracketed (.initial L) (runFrom L fuel p) := by
  have hacts : Acts .none Stock.everything (runProgram fuel p) (runProgram fuel p) :=
    runProgram_acts (S := Region.all.ground)
      (fun _ _ => trivial) (walker_acts_self (G := .none) trivial fuel)
  exact bracketed_of_acts hacts L _

/-! ### Whole runs -/

/-- The steps of every run can go on to be nested, and those of a run that does not tell of a
failure are nested. -/
theorem Execution.steps_nested {L : RunLimits} {fuel : Nat} {p : Program} {e : Execution}
    (he : Execution.ofProgram? L fuel p = some e) :
    (∃ more, Nested (e.steps ++ more)) ∧
      ((∀ s ∈ e.steps, s.kind ≠ .error) → Nested e.steps) := by
  have hsteps := bracketed_runFrom L fuel p
  have horderly := orderly_runFrom L fuel p
  unfold Execution.ofProgram? at he
  rcases hrun : runFrom L fuel p with ⟨(f | _) | a, m⟩
  · rw [hrun] at he hsteps horderly
    cases he
    obtain ⟨new, hnew, more, hmore⟩ := hsteps
    have hnew' : m.trace.toList = new := hnew
    rcases horderly.steps_recordFailure f p.loc with ⟨-, -, hall⟩ | ⟨-, hall⟩
    · refine ⟨⟨more, ?_⟩, fun hnone => ?_⟩
      · have hfailure : Nested [m.failureStep f p.loc] :=
          .other (fun ho => by cases ho.1) (fun hc => by cases hc.1) .nil
        rw [hall, hnew', List.append_assoc]
        exact hmore _ hfailure
      · -- There is a step that tells of the failure.
        rw [hall] at hnone
        exact absurd rfl (hnone _ (List.mem_append_right _ List.mem_cons_self))
    · rw [hall]
      exact ⟨⟨[], .nil⟩, fun _ => .nil⟩
  · rw [hrun] at he
    cases he
  · rw [hrun] at he hsteps
    cases he
    obtain ⟨-, new, hnew, hnested⟩ := hsteps
    have hnested' : Nested m.trace.toList := (show m.trace.toList = new from hnew) ▸ hnested
    exact ⟨⟨[], by simpa using hnested'⟩, fun _ => hnested'⟩

/-- A function whose parameter has a call as its fallback, and which hands the same function
to a method. -/
def mapping : Program :=
  ⟨[.function ⟨some "g", [⟨"x", some (.call (.ident "h" default) [] default)⟩],
      .block [.ret (some
        (.call (.member (.array [some (.bool true default)] default) (.named "map") default)
          [.ident "h" default] default)) default], false, false, default, default⟩ default,
    .function ⟨some "h", [],
      .value (.string "from " default), false, false, default, default⟩ default,
    .expr (.call (.ident "g" default) [] default) default], default⟩

/-- The call in the fallback is over before the other begins, and the callback is
not told of. -/
theorem mapping_steps_nested : ∃ e, Execution.ofProgram? {} 7 mapping = some e ∧
    (e.steps.filter (fun s => s.kind = .call ∨ s.kind = .return_)).map (·.description) =
      ["Call h()", "Return from h: \"from \"", "Call g(\"from \")", "Return [\"from \"]",
        "Return from g: [\"from \"]"] ∧
    (∀ s ∈ e.steps, s.kind ≠ .error) ∧ Nested e.steps := by
  have hrun : (Execution.ofProgram? {} 7 mapping).any (fun e =>
      (e.steps.filter (fun s => s.kind = .call ∨ s.kind = .return_)).map (·.description) =
        ["Call h()", "Return from h: \"from \"", "Call g(\"from \")", "Return [\"from \"]",
          "Return from g: [\"from \"]"] ∧ ∀ s ∈ e.steps, s.kind ≠ .error) = true := by
    decide +kernel
  obtain ⟨e, he, hshown⟩ := (Option.any_eq_true _ _).1 hrun
  obtain ⟨hwords, hkinds⟩ := of_decide_eq_true hshown
  exact ⟨e, he, hwords, hkinds, (Execution.steps_nested he).2 hkinds⟩

end ScriptReplay
