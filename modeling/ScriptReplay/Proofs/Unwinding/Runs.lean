/-
Returns and breaks unwind at once.

In a program without final blocks a return leaves its call and all that is around it there,
and a break leaves the innermost loop, before anything else is done.

* `Execution.Unwinds` : what the steps of a run show of this;
* `Program.AnswersReturns` : what becomes of the calls in which returns are told of;
* `runProgram_tame` : what a run has told of when it ends;
* `Execution.unwinds` : all runs of a parsed program unwind so.

Design notes: a step tells of a break only by its place, so the program must come from a
text, where no two breaks stand at one place.  Calls are treated in every state in which the
functions of the program may be called, not only in those of one run.
-/
import ScriptReplay.Proofs.Unwinding.Stmts

namespace ScriptReplay

variable {p : Program} {L : RunLimits} {old new : List Step} {calls : Nat} {m : Machine}

/-! ### Single calls -/

/-- A state in which the program may be running: steps point at its nodes, only its functions
are stored, and calls in progress have numbers that were given out. -/
structure Machine.Running (m : Machine) (p : Program) : Prop where
  placed : m.Placed p.region
  ids_le : ∀ id ∈ m.stack.ids, id ≤ m.stack.lastId

/-- All states that a run goes through are such. -/
theorem Machine.running_of_reachable (hm : Reachable L p m) : m.Running p := by
  have hbody : ∀ s ∈ p.body, p.region.has (.stmt s) := fun _ hs => Program.region_stmt hs
  have hinitial : (Discipline.scoping p).inv L (.initial L) :=
    ⟨Machine.formed_initial _ L, fun _ => rfl⟩
  have hformed := ((Discipline.scoping p).inv_of_reachable hbody hinitial hm).1
  refine ⟨(Discipline.placing p).inv_of_reachable hbody (Machine.placed_initial _ L) hm,
    fun id hid => ?_⟩
  refine hformed.frames.ids_le id ?_
  rw [CallStack.toList, List.map_reverse]
  exact List.mem_reverse.2 hid

/-- A call of a function of the program has the value of each return that is told of with its
own frame on top, the one that is pushed once its parameters are bound. -/
def Program.AnswersReturns (p : Program) (L : RunLimits) : Prop :=
  ∀ (m : Machine) (fuel : Nat) (name : String)
    (r : Routine) (chain : Chain) (this : Option Value) (args : List Value) (shown : String)
    (recorded : Bool) (loc : Location),
    m.Running p → (Value.function (.script name r chain)).Legal p.region →
    (∀ v, this = some v → v.Legal p.region) →
    (∀ v ∈ args, v.Legal p.region) → p.region.Place loc →
    ∀ params m₁, (bindParams (walker fuel) m.scopes.size .empty r.params args).outcome L
        (m.inScope .function shown chain) = (.ok params, m₁) →
      let end₁ := (callFunction (walker fuel)
        (.script name r chain) this args shown recorded loc).outcome L m
      ∃ new, end₁.2.trace.toList = m.trace.toList ++ new ∧
        ∀ s ∈ new, s.Returns → s.stack.ids.head? = some (m₁.stack.lastId + 1) →
          Answers s recorded end₁

theorem Program.answersReturns {text : List Char} (hplaced : (Fragment.program p).Placed text)
    (hfinally : p.NoFinally) (L : RunLimits) : p.AnswersReturns L := by
  intro m fuel name r chain this args shown recorded loc hm hf hthis
    hargs hloc params m₁ hbound
  rw [callFunction_eq]
  by_cases hlimit : L.maxCallDepth ≤ m.stack.depth
  · rw [Run.outcome_toldCall, if_pos hlimit]
    exact ⟨[], (List.append_nil _).symm, fun s hs => absurd hs List.not_mem_nil⟩
  have hbodies : ∀ inner, L.maxCallDepth = inner + 1 → Bodies p L m.trace.toList inner :=
    fun inner _ =>
    bodies hplaced hfinally L _ inner
  have hfallback : ∀ q ∈ r.params, ∀ e, q.fallback = some e → p.region.has (.expr e) :=
    fun q hq e he =>
    p.region.part hf.1 (Routine.mem_parts_of_fallback hq he)
  have hbind : ¬ p.region.NoFallbacks → ∀ scope, Tame p L m.trace.toList L.maxCallDepth
      (Settled p m.trace.toList) (bindParams (walker fuel) scope .empty r.params args)
      fun _ => Settled p m.trace.toList :=
    fun hN scope =>
    .of_acts (bindParams_acts (K := p.legal) hN scope (fun q hq e he =>
      (straight_walks p.region fuel).eval (Region.straight_expr (hfallback q hq e he))) hargs
      (by simp [Table.empty, Table.values])) rfl hbodies
  have hstart := Machine.settled_start p hm.ids_le
  exact ((toldCall_goes hloc hf hargs hbind
    (fun inner hinner => hbodies inner hinner fuel r this hf.1 hthis) hm.placed
    (Nat.le_add_left _ _) hstart recorded).2 params m₁ hbound (Nat.lt_of_not_le hlimit)).2

/-! ### Whole runs -/

/-- What a program has told of when it comes to its end: all that was to be left is left. -/
structure Finished (p : Program) (old new : List Step) (m : Machine) : Prop where
  trace_eq : m.trace.toList = old ++ new
  unwound : Unwound p new
  leaves : ∀ s ∈ new.getLast?, ∀ loop, ¬ s.Leaves p loop

theorem Machine.Told.finished (h : Settled p old new m) : Finished p old new m :=
  ⟨h.trace_eq, h.unwound, h.leaves⟩

theorem Machine.Returning.finished {v : Value} (h : m.Returning p old new v) :
    Finished p old new m := by
  obtain ⟨before, s, hnew, -, hkind, -⟩ := h.last
  refine ⟨h.trace_eq, h.unwound, fun t ht loop => Step.not_leaves_of_kind ?_⟩
  rw [hnew, List.getLast?_concat] at ht
  obtain rfl := Option.mem_some_iff.1 ht
  rw [hkind]
  decide

section
variable {text : List Char} (hplaced : (Fragment.program p).Placed text)
  (hfinally : p.NoFinally) (fuel : Nat)
include hplaced hfinally

/-- A return at the top ends the program, and a break there leaves nothing. -/
theorem execTop_tame {body : List Stmt}
    (hb : ∀ s ∈ body, p.region.has (.stmt s) ∧ p.Stands none (.stmt s)) :
    Tame p L old calls (Settled p old) (execTop (walker fuel) body) fun _ =>
      Finished p old := by
  have hbodies : ∀ inner, calls = inner + 1 → Bodies p L old inner := fun inner _ =>
    bodies hplaced hfinally L old inner
  induction body with
  | nil => exact .pure trivial fun _ _ h => h.finished
  | cons s rest ih =>
    obtain ⟨hs, hstands⟩ := hb s List.mem_cons_self
    unfold execTop
    refine .bind (exec_executes hplaced hfinally hbodies fuel s none hs hstands) fun c _ => ?_
    have hrest := ih fun s' h => hb s' (List.mem_cons_of_mem _ h)
    cases c with
    | ret v => exact .pure trivial fun _ _ h => Machine.Returning.finished h
    | _ => exact hrest.imp (fun _ _ h => Left.settled h nofun) fun _ _ _ h => h

theorem runProgram_tame :
    Tame p L old calls (Settled p old) (runProgram fuel p) fun _ => Finished p old := by
  have hb : ∀ s ∈ p.body, p.region.has (.stmt s) ∧ p.Stands none (.stmt s) := fun s hs =>
    ⟨Program.region_stmt hs, .single ⟨mem_fragments_stmts hs, rfl⟩⟩
  have hbodies : ∀ inner, calls = inner + 1 → Bodies p L old inner := fun inner _ =>
    bodies hplaced hfinally L old inner
  exact .bind (hoist_tame hbodies fun s hs => (hb s hs).1) fun _ _ =>
    execTop_tame hplaced hfinally fuel hb

end

/-- What steps show of returns.  A call that has returned is in progress in no later step, and
after a return outside of all calls there is none. -/
structure Returned (steps : List Step) : Prop where
  gone : ∀ (i j : Nat) (s t : Step) (f : Frame), i < j → steps[i]? = some s →
    steps[j]? = some t → s.Returns → s.stack.top? = some f → ∀ g ∈ t.stack.frames, g.id ≠ f.id
  ends : ∀ (i : Nat) (s : Step), steps[i]? = some s → s.Returns →
    s.stack.frames = [] → i + 1 = steps.length

/-- What the steps of a run show of returns and breaks.  Behind each break stands the step
that tells that the innermost loop around it is left, or the last one of a run that the
ceiling on steps ends there. -/
structure Execution.Unwinds (e : Execution) (p : Program) (L : RunLimits) : Prop where
  returned : Returned e.steps
  breaks : ∀ (i : Nat) (s : Step) (loop : Loop), e.steps[i]? = some s → s.Leaves p loop →
    ∃ t, e.steps[i + 1]? = some t ∧
      (t.EndsLoop loop ∨ i + 2 = e.steps.length ∧ t.kind = .error ∧
        t.description = "Error: " ++ (Cause.stepLimit L.maxSteps).message)

/-- This can be read off steps in which what has returned is over. -/
theorem returned_of_pairwise {steps : List Step}
    (h : steps.Pairwise fun s t => s.Over t.stack) : Returned steps := by
  have hover : ∀ (i j : Nat) (s t : Step), i < j → steps[i]? = some s →
      steps[j]? = some t → s.Over t.stack := by
    intro i j s t hij hs ht
    obtain ⟨hi, rfl⟩ := List.getElem?_eq_some_iff.1 hs
    obtain ⟨hj, rfl⟩ := List.getElem?_eq_some_iff.1 ht
    exact List.pairwise_iff_getElem.1 h i j hi hj hij
  constructor
  · intro i j s t f hij hs ht hreturns htop g hg heq
    obtain ⟨id, hid, hnot⟩ := hover i j s t hij hs ht hreturns
    have hshown : s.stack.ids.head? = some f.id := by
      rw [CallStack.ids, List.head?_map, show s.stack.frames.head? = some f from htop]
      rfl
    rw [hshown] at hid
    cases hid
    exact hnot (List.mem_map.2 ⟨g, hg, heq⟩)
  · intro i s hs hreturns hempty
    by_contra hne
    obtain ⟨hi, -⟩ := List.getElem?_eq_some_iff.1 hs
    have hnext : i + 1 < steps.length := by omega
    obtain ⟨id, hid, -⟩ :=
      hover i (i + 1) s _ (Nat.lt_succ_self i) hs (List.getElem?_eq_getElem hnext) hreturns
    rw [CallStack.ids, hempty] at hid
    cases hid

/-- Behind a break stands the step that tells that the loop is left, or the break is
the last step. -/
theorem Unwound.next {steps : List Step} (h : Unwound p steps) {i : Nat} {s : Step}
    (hs : steps[i]? = some s) {loop : Loop} (hleaves : s.Leaves p loop) :
    (∃ t, steps[i + 1]? = some t ∧ t.EndsLoop loop) ∨ i + 1 = steps.length ∧
      steps.getLast? = some s := by
  obtain ⟨hi, rfl⟩ := List.getElem?_eq_some_iff.1 hs
  by_cases hnext : i + 1 < steps.length
  · exact .inl ⟨_, List.getElem?_eq_getElem hnext,
      List.isChain_iff_getElem.1 h.breaks i hnext loop hleaves⟩
  · have hlast : i + 1 = steps.length := by omega
    refine .inr ⟨hlast, ?_⟩
    rw [List.getLast?_eq_getElem?, ← hlast]
    exact hs

/-- A run that comes to its end. -/
theorem Finished.execution_unwinds (h : Finished p [] new m) :
    Execution.Unwinds ⟨m.trace.toList, m.console⟩ p L := by
  have hsteps : m.trace.toList = new := h.trace_eq
  rw [hsteps]
  refine ⟨returned_of_pairwise h.unwound.returns, fun i s loop hs hleaves => ?_⟩
  rcases h.unwound.next hs hleaves with ⟨t, ht, hended⟩ | ⟨-, hlast⟩
  · exact ⟨t, ht, .inl hended⟩
  · exact absurd hleaves (h.leaves s hlast loop)

/-- A run that fails. -/
theorem Machine.Told.execution_unwinds {f : Failure} (h : m.Told p [] new fun _ =>
      Stop.failed f = .failed ⟨.stepLimit m.trace.max, none⟩)
        (hm : m.Orderly L) (whole : Location) :
    Execution.Unwinds ⟨(m.recordFailure f whole).trace.toList, m.console⟩ p L := by
  have hsteps : m.trace.toList = new := h.trace_eq
  rcases hm.steps_recordFailure f whole with ⟨-, -, hall⟩ | ⟨-, hall⟩
  · rw [hall, hsteps]
    have hover : (new ++ [m.failureStep f whole]).Pairwise fun s t => s.Over t.stack := by
      refine List.pairwise_append.2
        ⟨h.unwound.returns, List.pairwise_singleton _ _, fun s hs t ht => ?_⟩
      rw [List.mem_singleton.1 ht]
      exact h.past s hs
    refine ⟨returned_of_pairwise hover, fun i s loop hs hleaves => ?_⟩
    by_cases hi : i < new.length
    · rw [List.getElem?_append_left hi] at hs
      rcases h.unwound.next hs hleaves with ⟨t, ht, hended⟩ | ⟨hlength, hlast⟩
      · obtain ⟨hnext, -⟩ := List.getElem?_eq_some_iff.1 ht
        exact ⟨t, (List.getElem?_append_left hnext).trans ht, .inl hended⟩
      · -- The break was told of last, so the step of the failure comes next.
        cases h.leaves s hlast loop hleaves
        refine ⟨m.failureStep ⟨.stepLimit m.trace.max, none⟩ whole, ?_, .inr ⟨?_, rfl, ?_⟩⟩
        · show (new ++ [_])[i + 1]? = _
          rw [hlength, List.getElem?_concat_length]
        · show i + 2 = (new ++ [_]).length
          rw [List.length_append, List.length_singleton, ← hlength]
        · rw [← hm.max_eq]
          rfl
    · have hs' : s ∈ [m.failureStep f whole] := by
        rw [List.getElem?_append_right (Nat.le_of_not_lt hi)] at hs
        exact List.mem_of_getElem? hs
      rw [List.mem_singleton.1 hs'] at hleaves
      exact absurd hleaves (Step.not_leaves_of_kind (by decide : StepKind.error ≠ .branch))
  · rw [hall]
    exact ⟨returned_of_pairwise .nil, fun i s loop hs => by simp at hs⟩

/-- Returns and breaks unwind at once, from any nesting.  In the steps of every run of a
program without final blocks nothing comes between a break and the end of its loop, and no
call goes on after a return in it.  Each call has the value of the return for its answer,
unless there is no room for the step that tells of its end; this holds in all states that a
run goes through, and in all others in which the program may be running. -/
theorem Execution.unwinds {source : String} {p : Program} (hp : parseProgram source = .ok p)
    (hfinally : p.NoFinally) {L : RunLimits} {fuel : Nat} {e : Execution}
    (he : Execution.ofProgram? L fuel p = some e) :
    e.Unwinds p L ∧ (∀ m, Reachable L p m → m.Running p) ∧ p.AnswersReturns L := by
  have hplaced : (Fragment.program p).Placed source.toList := by
    have hparses := parseProgram_parses source
    rwa [hp] at hparses
  refine ⟨?_, fun m hm => Machine.running_of_reachable hm,
    Program.answersReturns hplaced hfinally L⟩
  have hstart : Settled p [] [] (.initial L) :=
    Machine.settled_start p fun _ hid => absurd hid List.not_mem_nil
  have htame : Tame p L [] L.maxCallDepth (Settled p []) (runProgram fuel p) fun _ =>
      Finished p [] :=
    runProgram_tame hplaced hfinally fuel
  have hgoes :=
    htame.goes _ [] (Machine.placed_initial p.region L) (Nat.le_add_left _ _) hstart
  have horderly := orderly_runFrom L fuel p
  rw [← runFrom_eq] at hgoes
  unfold Execution.ofProgram? at he
  rcases hrun : runFrom L fuel p with ⟨(f | _) | a, m⟩
  · rw [hrun] at he hgoes horderly
    cases he
    obtain ⟨-, new, htold⟩ := hgoes
    exact htold.execution_unwinds horderly p.loc
  · rw [hrun] at he
    cases he
  · rw [hrun] at he hgoes
    cases he
    obtain ⟨new, hfinished⟩ := hgoes
    exact hfinished.execution_unwinds

/-- Whether a node is no `try` statement with a final block. -/
def Node.endsPlainly : Node → Bool
  | .stmt (.tryBlock _ _ finalizer _) => finalizer.isNone
  | _ => true

theorem Program.noFinally_of_passes (depth : Nat)
    (h : (p.body.all fun s => (Node.stmt s).passes Node.endsPlainly depth) = true) :
    p.NoFinally := by
  intro body handler finalizer loc hn
  exact Option.isNone_iff_eq_none.1
    (p.region_passes Node.endsPlainly depth (List.all_eq_true.1 h) hn)

/-- A return out of two loops, and a break out of a block in a third. -/
def escaping : String :=
  "function f() \x7b while (true) \x7b for (const x of [1]) \x7b if (x) \x7b return x; " ++
    "\x7d \x7d \x7d \x7d\nf();\ndo \x7b\x7b break; \x7d\x7d while (true);"

/-- The return is told of next to the end of its call, and the break next to the end
of its loop. -/
theorem escaping_unwinds : ∃ p e, parseProgram escaping = .ok p ∧ p.NoFinally ∧
    Execution.ofProgram? {} 20 p = some e ∧
    (e.steps.drop 7).map (·.description) =
      ["If condition: 1 → true branch", "Return 1", "Return from f: 1",
        "Do-while loop started", "Do-while loop iteration 1", "Break statement",
        "Do-while loop exited via break"] ∧
    e.Unwinds p {} ∧ (∀ m, Reachable {} p m → m.Running p) ∧ p.AnswersReturns {} := by
  have hrun : (parseProgram escaping).toOption.any (fun p =>
      p.body.all (fun s => (Node.stmt s).passes Node.endsPlainly 10) &&
      (Execution.ofProgram? {} 20 p).any fun e => (e.steps.drop 7).map (·.description) =
        ["If condition: 1 → true branch", "Return 1",
          "Return from f: 1", "Do-while loop started",
          "Do-while loop iteration 1", "Break statement",
          "Do-while loop exited via break"]) = true := by
    decide +kernel
  obtain ⟨p, hp, hrun⟩ := exists_parsed hrun
  obtain ⟨hpasses, hany⟩ := (Bool.and_eq_true _ _).mp hrun
  obtain ⟨e, he, hwords⟩ := (Option.any_eq_true _ _).1 hany
  have hfinally := Program.noFinally_of_passes 10 hpasses
  exact ⟨p, e, hp, hfinally, he, of_decide_eq_true hwords, Execution.unwinds hp hfinally he⟩

end ScriptReplay
