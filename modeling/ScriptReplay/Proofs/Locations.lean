/-
Where steps point.

Every rule tells of what it does at the expression or statement that it evaluates, and a
function that is called later is a node of the same program.  So a step points at a node of
the program, and so does a failure that has a place.  The one failure without a place is met
when the trace is full; then a statement was begun, and the step that tells of it points at
that statement.

* `Machine.Placed` : all steps so far, and the statement begun last, are nodes of a region;
* `Discipline.placing` : every run keeps to it, and once a statement was begun there
  is a last one;
* `Program.current_isSome_of_failed` : a run that fails has begun a statement;
* `Execution.steps_placed` : every step points at a node of the program.
-/
import ScriptReplay.Proofs.Stored

namespace ScriptReplay

variable {N : Region} {L : RunLimits} {m : Machine}

/-! ### Steps at nodes -/

/-- All that points anywhere points at a node of the region, and only functions of the region
are stored. -/
structure Machine.Placed (N : Region) (m : Machine) : Prop where
  chain : m.chain ≠ []
  legal : ∀ v, m.Holds v → v.Legal N
  current : ∀ loc, m.current = some loc → N.Place loc
  steps : ∀ s ∈ m.trace.newest, N.Place s.loc

namespace Machine.Placed

theorem next {m' : Machine} (h : m.Placed N) (hchain : m'.chain ≠ [])
    (hheld : ∀ v, m'.Holds v → m.Holds v ∨ v.Legal N) (hcurrent : m'.current = m.current)
    (htrace : m'.trace = m.trace) : m'.Placed N := by
  refine ⟨hchain, fun v hv => ?_, fun loc hloc => h.current loc (hcurrent ▸ hloc),
    fun s hs => h.steps s (htrace ▸ hs)⟩
  rcases hheld v hv with hv | hv
  · exact h.legal v hv
  · exact hv

theorem recorded (h : m.Placed N) (kind : StepKind) {loc : Location} (hloc : N.Place loc)
    (description : String) : (m.recorded kind loc description).Placed N := by
  refine ⟨h.chain, fun v hv => h.legal v (hv.of_eq rfl rfl (fun _ hf => hf) rfl),
    h.current, fun s hs => ?_⟩
  rcases List.mem_cons.1 hs with rfl | hs
  · exact hloc
  · exact h.steps s hs

theorem inScope (h : m.Placed N) (kind : ScopeKind) (name : String) (chain : Chain) :
    (m.inScope kind name chain).Placed N :=
  h.next (List.cons_ne_nil _ _) (fun _ hold => .inl hold.of_inScope) rfl rfl

end Machine.Placed

/-- The statement begun last stays the last, or another statement of the region is begun. -/
theorem Change.current_apply {c : Change} (hc : c.Fits N) (m : Machine) :
    (c.apply m).current = m.current ∨ ∃ loc, N.Place loc ∧
      (c.apply m).current = some loc := by
  cases c with
  | moveTo loc => exact .inr ⟨loc, hc, rfl⟩
  | bind scope name value isConst =>
    obtain ⟨stack, -, happly⟩ := exists_apply_bind m scope name value isConst
    rw [happly]
    exact .inl rfl
  | _ => exact .inl rfl

theorem Machine.Placed.changed (h : m.Placed N) {c : Change} (hv : ∀ v ∈ c.values, v.Legal N)
    (hc : c.Fits N) : (c.apply m).Placed N := by
  obtain ⟨hchain, htrace, -⟩ := c.kept m
  refine ⟨hchain ▸ h.chain, fun v hold => ?_, fun loc hloc => ?_,
    fun s hs => h.steps s (htrace ▸ hs)⟩
  · rcases hold.of_apply with hold | hold
    · exact h.legal v hold
    · exact hv v hold
  · rcases Change.current_apply hc m with hsame | ⟨loc', hplace, hmoved⟩
    · exact h.current loc (hsame ▸ hloc)
    · rw [hmoved] at hloc
      cases hloc
      exact hplace

/-- Steps point at nodes of the program, and once a statement was begun there is one that was
begun last. -/
def Discipline.placing (p : Program) : Discipline p.region where
  inv _ m := m.Placed p.region
  bare _ m := m.Placed p.region
  later m m' := m.current.isSome → m'.current.isSome
  sound _ v := v.Legal p.region
  later_refl _ h := h
  later_trans h h' hm := h' (h hm)
  later_frames _ _ _ h := h
  sound_later _ hv := hv
  sound_plain hv := .of_isPlain hv
  sound_legal hv := hv
  sound_held h hv := h.legal _ hv
  sound_function _ hr hname := ⟨hr, hname⟩
  chain_ne_nil h := h.chain
  recorded description h _ hloc _ := ⟨h.recorded _ hloc description, id⟩
  changed {_ m} c h hv hc := by
    refine ⟨h.changed hv hc, fun hm => ?_⟩
    rcases Change.current_apply hc m with hsame | ⟨loc, -, hmoved⟩
    · exact hsame ▸ hm
    · exact hmoved ▸ rfl
  allocated {_ m s} h hv _ := by
    refine ⟨h.next h.chain (fun v hold => hold.of_allocated.imp id (hv v)) rfl rfl, id, ?_⟩
    cases s with
    | _ => exact trivial
  opened name h := ⟨h.inScope .block name _, id⟩
  entered shown h _ := ⟨h.inScope .function shown _, id⟩
  bare_iff _ := Iff.rfl
  bare_declared {_ m _ scope} name h _ hv := by
    refine ⟨h.next h.chain (fun u hold => hold.of_apply.imp id fun hu => ?_) rfl rfl, id⟩
    rw [List.mem_singleton.1 hu]
    exact hv
  pushed _ _ _ _ _ h _ _ hp _ :=
    h.next h.chain (fun v hold => hold.of_pushed.imp id (hp v)) rfl rfl
  back h h' _ hstack _ := h'.next h.chain (fun _ hold => .inl (hold.of_back hstack)) rfl rfl

theorem Machine.placed_initial (N : Region) (L : RunLimits) :
    (Machine.initial L).Placed N := by
  refine ⟨List.cons_ne_nil _ _, fun v hv => ?_, fun loc hloc => ?_, fun s hs => ?_⟩
  · exact (Machine.Holds.not_initial L hv).elim
  · cases hloc
  · exact (List.not_mem_nil hs).elim

/-! ### Failures without a place -/

/-- Functions are bound before a block runs, and that does not fail. -/
theorem hoist_ok (body : List Stmt) (L : RunLimits) (m : Machine) :
    ∃ m', (hoist body).outcome L m = (.ok (), m') := by
  induction body generalizing m with
  | nil => exact ⟨m, rfl⟩
  | cons s rest ih =>
    cases s with
    | function r loc =>
      cases hname : r.name with
      | none =>
        obtain ⟨m', hm'⟩ := ih m
        refine ⟨m', ?_⟩
        unfold hoist
        rw [hname]
        exact hm'
      | some name =>
        have hdeclared : ∃ m₁,
            (do declareName .letK name (← makeFunction r none) : Run Unit).outcome L m =
            (.ok (), m₁) := ⟨_, rfl⟩
        obtain ⟨m₁, hm₁⟩ := hdeclared
        obtain ⟨m', hm'⟩ := ih m₁
        refine ⟨m', ?_⟩
        unfold hoist
        rw [hname]
        exact (Run.outcome_bind_ok (f := fun _ => hoist rest) hm₁).trans hm'
    | _ => exact ih m

/-- A run that fails has begun a statement, so there is always one to point at. -/
theorem Program.current_isSome_of_failed {p : Program} {L : RunLimits} {fuel : Nat}
    {f : Failure} {m : Machine} (h : runFrom L fuel p = (.error (.failed f), m)) :
    m.current.isSome := by
  obtain ⟨m₀, hm₀⟩ := hoist_ok p.body L (.initial L)
  have hacts :
      Acts .none ((Discipline.placing p).stock (.initial L)) (hoist p.body) (hoist p.body) :=
    hoist_acts fun _ hs => Program.region_stmt hs
  have hplaced : m₀.Placed p.region := by
    have hsafe := (Discipline.safe_of_acts hacts).1 L _
      (Machine.placed_initial p.region L) (Stock.le_refl _)
    rw [hm₀] at hsafe
    exact hsafe.inv
  rw [runFrom_eq, runProgram, Run.outcome_bind_ok hm₀] at h
  cases hbody : p.body with
  | nil =>
    rw [hbody] at h
    cases h
  | cons s rest =>
    cases fuel with
    | zero =>
      rw [hbody] at h
      cases h
    | succ fuel =>
      have hs : p.region.has (.stmt s) := Program.region_stmt (hbody ▸ List.mem_cons_self)
      -- A statement is begun by moving to it, so the run is the same from the state that has
      -- moved there already.
      have hmoved : (execTop (walker (fuel + 1)) p.body).outcome L m₀ =
          (execTop (walker (fuel + 1)) p.body).outcome L
          ((Change.moveTo s.loc).apply m₀) := by
        rw [hbody]
        rfl
      have htop :
          Acts .none ((Discipline.placing p).stock m₀) (execTop (walker (fuel + 1)) p.body)
          (execTop (walker (fuel + 1)) p.body) :=
        execTop_acts (S := p.region.ground) (walker_acts_self (G := .none) trivial (fuel + 1))
          fun _ hs => Program.region_stmt hs
      have hstart : ((Change.moveTo s.loc).apply m₀).Placed p.region :=
        hplaced.changed (fun v hv => (List.not_mem_nil hv).elim) (Region.place_stmt hs)
      have hends :=
        (Discipline.safe_of_acts (D := .placing p) htop).1 L _ hstart fun _ hv => hv
      rw [← hmoved, h] at hends
      exact hends.later rfl

/-! ### Whole runs -/

/-- How a run ends: every step so far points at a node, and if it failed, so does the step
that tells of it. -/
theorem Program.placed_runFrom (p : Program) (L : RunLimits) (fuel : Nat) :
    (runFrom L fuel p).2.Placed p.region ∧ ∀ f, (runFrom L fuel p).1 = .error (.failed f) →
      ∃ loc, f.loc.or (runFrom L fuel p).2.current = some loc ∧ p.region.Place loc := by
  have hacts : Acts .none ((Discipline.placing p).stock (.initial L))
      (runProgram fuel p) (runProgram fuel p) :=
    runProgram_acts (S := p.region.ground) (fun _ hs => Program.region_stmt hs)
      (walker_acts_self (G := .none) trivial fuel)
  have hends := (Discipline.safe_of_acts hacts).1 L _
    (Machine.placed_initial p.region L) (Stock.le_refl _)
  rw [← runFrom_eq] at hends
  refine ⟨hends.inv, fun f hf => ?_⟩
  rcases ho : runFrom L fuel p with ⟨s | a, m⟩
  · rw [ho] at hf hends
    cases hf
    cases hloc : f.loc with
    | some loc => exact ⟨loc, rfl, hends.2.2 loc hloc⟩
    | none =>
      -- A failure without a place is told of at the statement that was begun last.
      obtain ⟨loc, hcurrent⟩ :=
        Option.isSome_iff_exists.1 (Program.current_isSome_of_failed ho)
      exact ⟨loc, hcurrent, hends.1.current loc hcurrent⟩
  · rw [ho] at hf
    cases hf

/-- Every step of a run, also one that tells of a failure, points at an expression or a
statement of the program, and at the line of it.  A failure without a place is told of at a
statement, never at the program as a whole. -/
theorem Execution.steps_placed {L : RunLimits} {fuel : Nat} {p : Program} {e : Execution}
    (he : Execution.ofProgram? L fuel p = some e) :
    (∀ s ∈ e.steps, ∃ n loc, p.region.has n ∧ n.loc? = some loc ∧
      s.loc = loc ∧ s.line = loc.line) ∧
      ∀ f m, runFrom L fuel p = (.error (.failed f), m) → (f.loc.or m.current).isSome := by
  obtain ⟨hplaced, hfailed⟩ := p.placed_runFrom L fuel
  constructor
  · suffices hsteps : ∀ s ∈ e.steps, p.region.Place s.loc by
      intro s hs
      obtain ⟨n, hn, hloc⟩ := hsteps s hs
      exact ⟨n, s.loc, hn, hloc, rfl, rfl⟩
    unfold Execution.ofProgram? at he
    rcases ho : runFrom L fuel p with ⟨(f | _) | a, m⟩
    · rw [ho] at he hplaced hfailed
      cases he
      obtain ⟨loc, hloc, hplace⟩ := hfailed f rfl
      have hstep : (m.recordFailure f p.loc).Placed p.region := by
        unfold Machine.recordFailure Recorder.pushTerminal Machine.failureStep
        rw [hloc]
        split
        · exact hplaced.recorded .error hplace _
        · exact hplaced
      exact fun s hs => hstep.steps s (List.mem_reverse.1 hs)
    · rw [ho] at he
      cases he
    · rw [ho] at he hplaced
      cases he
      exact fun s hs => hplaced.steps s (List.mem_reverse.1 hs)
  · intro f m hm
    rw [hm] at hfailed
    obtain ⟨loc, hloc, -⟩ := hfailed f rfl
    exact Option.isSome_iff_exists.2 ⟨loc, hloc⟩

/-- A function that calls itself, on the first line, and a call of it on the second. -/
def circling : String := "const f = () => f();\nf();"

/-- The trace is full before the second call is told of, and the failure is told of at the
statement with the first. -/
theorem circling_steps_placed : ∃ p e, parseProgram circling = .ok p ∧
    Execution.ofProgram? ⟨3, 9, 1, 1, 1⟩ 9 p = some e ∧ e.steps.map (·.line) = [1, 2, 2] ∧
    (∀ s ∈ e.steps, ∃ n loc, p.region.has n ∧ n.loc? = some loc ∧
      s.loc = loc ∧ s.line = loc.line) ∧
    ∃ f m, runFrom ⟨3, 9, 1, 1, 1⟩ 9 p = (.error (.failed f), m) ∧ f.loc = none ∧
      (f.loc.or m.current).isSome := by
  have hrun : (parseProgram circling).toOption.any (fun p =>
      (Execution.ofProgram? ⟨3, 9, 1, 1, 1⟩ 9 p).any (·.steps.map (·.line) = [1, 2, 2]) &&
      match (runFrom ⟨3, 9, 1, 1, 1⟩ 9 p).1 with
      | .error (.failed f) => f.loc.isNone
      | _ => false) = true := by
    decide +kernel
  obtain ⟨p, hp, hrun⟩ := exists_parsed hrun
  obtain ⟨hany, hfailed⟩ := (Bool.and_eq_true _ _).mp hrun
  obtain ⟨e, he, hlines⟩ := (Option.any_eq_true _ _).1 hany
  obtain ⟨hsteps, hplace⟩ := Execution.steps_placed he
  rcases hm : runFrom ⟨3, 9, 1, 1, 1⟩ 9 p with ⟨(f | _) | a, m⟩
  · rw [hm] at hfailed
    exact ⟨p, e, hp, he, of_decide_eq_true hlines, hsteps, f, m, hm,
      Option.isNone_iff_eq_none.1 hfailed,
      hplace f m hm⟩
  · rw [hm] at hfailed
    cases hfailed
  · rw [hm] at hfailed
    cases hfailed

end ScriptReplay
