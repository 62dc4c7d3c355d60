/-
Programs that only print.

A program can be executed, and it can be analyzed without evaluating anything.  On programs
that do nothing but print literals both print the same lines.

* `Expr.isLiteral`, `Stmt.logs?` : literals, and statements that only print;
* `Stmt.Logs` : such a statement and its line;
* `Run.Delivers` : what a computation does if it does not fail;
* `delivers_runProgram` : an execution prints the lines of the statements in order;
* `output_unfinished` : and so does an analysis that is not cut short;
* `lines_eq_finalOutput` : so the two agree.
-/
import ScriptReplay.Proofs.Actions.Values
import ScriptReplay.Proofs.Queue.Raising

namespace ScriptReplay

/-! ### Statements that only print -/

/-- Texts, numbers, truth values, null and templates without embedded expressions. -/
def Expr.isLiteral : Expr → Bool
  | .string _ _ | .number _ _ | .bool _ _ | .null _ | .template _ [] _ => true
  | _ => false

/-- The arguments of a statement `console.log(…)`. -/
def Stmt.logs? : Stmt → Option (List Expr)
  | .expr (.call (.member (.ident "console" _) (.named "log") _) arguments _) _ =>
    some arguments
  | _ => none

/-- The statement only prints literals, whose texts with blanks between them are the line. -/
inductive Stmt.Logs : Stmt → String → Prop
  | intro {arguments : List Expr} {texts : List String}
      (h : List.Forall₂ (fun e text => literalText? e = some text) arguments texts)
      (owner callee call whole : Location) :
      Stmt.Logs (.expr
        (.call (.member (.ident "console" owner) (.named "log") callee) arguments call) whole)
        (" ".intercalate texts)

theorem exists_literalText {e : Expr} (h : e.isLiteral = true) :
    ∃ text, literalText? e = some text := by
  unfold Expr.isLiteral at h
  split at h
  · exact ⟨_, rfl⟩
  · exact ⟨_, rfl⟩
  · exact ⟨_, rfl⟩
  · exact ⟨_, rfl⟩
  · exact ⟨_, rfl⟩
  · cases h

theorem exists_forall₂ {α β : Type} {R : α → β → Prop} {xs : List α}
    (h : ∀ x ∈ xs, ∃ y, R x y) : ∃ ys, List.Forall₂ R xs ys := by
  induction xs with
  | nil => exact ⟨[], .nil⟩
  | cons x rest ih =>
    obtain ⟨⟨y, hy⟩, hrest⟩ := List.forall_mem_cons.1 h
    obtain ⟨ys, hys⟩ := ih hrest
    exact ⟨y :: ys, .cons hy hys⟩

theorem Stmt.exists_logs {s : Stmt} {arguments : List Expr} (hs : s.logs? = some arguments)
    (harguments : ∀ e ∈ arguments, e.isLiteral = true) : ∃ line, s.Logs line := by
  unfold Stmt.logs? at hs
  split at hs
  · cases hs
    obtain ⟨texts, htexts⟩ := exists_forall₂ fun e he => exists_literalText (harguments e he)
    exact ⟨_, .intro htexts _ _ _ _⟩
  · cases hs

/-! ### Computations that do not fail -/

namespace Run

variable {α β : Type} {x : Run α} {f : α → Run β} {L : RunLimits} {m : Machine}
  {Q : α → Machine → Prop} {R : β → Machine → Prop}

/-- The computation fails, or it gives an answer and leaves a state as described.  Its
fuel lasts. -/
def Delivers (x : Run α) (L : RunLimits) (m : Machine) (Q : α → Machine → Prop) : Prop :=
  match x.outcome L m with
  | (.ok a, m') => Q a m'
  | (.error (.failed _), _) => True
  | (.error .outOfFuel, _) => False

theorem Delivers.bind (hx : x.Delivers L m Q) (hf : ∀ a m', Q a m' → (f a).Delivers L m' R) :
    (x >>= f).Delivers L m R := by
  unfold Delivers at hx ⊢
  rw [outcome_bind]
  rcases hout : x.outcome L m with ⟨(failure | _) | a, m'⟩
  · trivial
  · rw [hout] at hx
    exact hx.elim
  · rw [hout] at hx
    exact hf a m' hx

theorem Delivers.imp {Q' : α → Machine → Prop} (hx : x.Delivers L m Q)
    (h : ∀ a m', Q a m' → Q' a m') : x.Delivers L m Q' := by
  unfold Delivers at hx ⊢
  rcases hout : x.outcome L m with ⟨(failure | _) | a, m'⟩
  · trivial
  · rw [hout] at hx
    exact hx
  · rw [hout] at hx
    exact h a m' hx

theorem Delivers.modify {g : Machine → Machine} {Q : Unit → Machine → Prop} (h : Q () (g m)) :
    (modify g : Run Unit).Delivers L m Q := h

theorem Delivers.look {f : Machine → Run β} (h : (f m).Delivers L m R) :
    (get >>= f).Delivers L m R :=
  h

theorem delivers_record (kind : StepKind) (loc : Location) (description : String) :
    (record kind loc description).Delivers L m fun _ m' =>
      m' = m.recorded kind loc description := by
  unfold Delivers
  rw [outcome_record]
  split
  · next h =>
    split at h
    · cases h
      rfl
    · cases h
  · trivial
  · next h => split at h <;> cases h

theorem delivers_checkText (v : Value) (loc : Location) :
    (checkText v loc).Delivers L m fun _ m' => m' = m := by
  unfold checkText
  split
  · unfold checkTextLength
    show Delivers (if _ < _ then failAt _ loc else pure ()) L m _
    split
    · trivial
    · rfl
  · rfl

end Run

/-! ### Executions -/

/-- The run has printed these lines, and the program binds no `console`. -/
structure Machine.HasPrinted (m : Machine) (lines : List String) : Prop where
  free : m.scopes.resolve? m.chain "console" = none
  lines : m.console.lines = lines

variable {L : RunLimits} {m : Machine}

theorem evalTemplate_nil (w : Walker) (texts : List String) :
    evalTemplate w texts [] = pure (String.join texts) := by
  induction texts with
  | nil => rfl
  | cons text rest ih =>
    rw [evalTemplate, ih, String.join_cons]
    rfl

/-- A literal has no effect, and its value is printed as its text. -/
theorem delivers_literal {e : Expr} {text : String} (h : literalText? e = some text)
    (w : Walker) :
    (evalExpr w e).Delivers L m fun v m' => m' = m ∧ ∀ heap, printed heap v = text := by
  unfold literalText? at h
  split at h
  · cases h
    exact ⟨rfl, fun _ => rfl⟩
  · cases h
    exact ⟨rfl, fun _ => by simp [printed, Heap.inspect, Heap.inspectIn]⟩
  · cases h
    exact ⟨rfl, fun _ => by simp [printed, Heap.inspect, Heap.inspectIn, boolText]⟩
  · cases h
    exact ⟨rfl, fun _ => by simp [printed, Heap.inspect, Heap.inspectIn]⟩
  · cases h
    rw [evalExpr, evalTemplate_nil, pure_bind]
    refine (Run.delivers_checkText _ _).bind fun _ m' hm' => ?_
    exact ⟨hm', fun _ => rfl⟩
  · cases h

theorem delivers_evalAll {arguments : List Expr} {texts : List String}
    (h : List.Forall₂ (fun e text => literalText? e = some text) arguments texts)
    (fuel : Nat) :
    ((walker (fuel + 1)).evalAll arguments).Delivers L m
      fun vs m' => m' = m ∧ ∀ heap, vs.map (printed heap) = texts := by
  induction h with
  | nil => exact ⟨rfl, fun _ => rfl⟩
  | cons he _ ih =>
    refine (delivers_literal he (walker fuel)).bind fun v m' hv => ?_
    obtain ⟨rfl, hv⟩ := hv
    refine ih.bind fun vs m' hvs => ?_
    obtain ⟨rfl, hvs⟩ := hvs
    exact ⟨rfl, fun heap => by rw [List.map_cons, hv, hvs]⟩

theorem Machine.HasPrinted.next {lines : List String} (h : m.HasPrinted lines) {m' : Machine}
    (hscopes : m'.scopes = m.scopes) (hchain : m'.chain = m.chain)
    (hconsole : m'.console = m.console) : m'.HasPrinted lines :=
  ⟨by rw [hscopes, hchain, h.free], by rw [hconsole, h.lines]⟩

theorem delivers_callLog {lines : List String} (hm : m.HasPrinted lines) {vs : List Value}
    {texts : List String} (hvs : ∀ heap, vs.map (printed heap) = texts) (loc : Location) :
    (callLog vs loc).Delivers L m fun _ m' =>
      m'.HasPrinted (lines ++ [" ".intercalate texts]) := by
  have hprint : ((Change.print (" ".intercalate texts)).apply m).HasPrinted
      (lines ++ [" ".intercalate texts]) :=
    ⟨hm.free, by rw [← hm.lines]; exact List.reverse_cons⟩
  rw [callLog_eq]
  refine .look ?_
  rw [hvs]
  -- The line is printed first; the step that tells of it changes nothing else.
  refine .bind (Q := fun _ m' => m'.HasPrinted (lines ++ [" ".intercalate texts])) ?_
    fun _ _ hm' => hm'
  refine .bind (Q := fun _ m' => m'.HasPrinted (lines ++ [" ".intercalate texts])) hprint
    fun _ m' hm' => ?_
  exact (Run.delivers_record _ _ _).imp fun _ m'' hm'' => hm''.symm ▸ hm'.next rfl rfl rfl

/-- The name `console` is that of the language, so calling its member `log` prints. -/
theorem delivers_evalCall {lines : List String} (hm : m.HasPrinted lines)
    {arguments : List Expr} {texts : List String}
    (h : List.Forall₂ (fun e text => literalText? e = some text) arguments texts) (fuel : Nat)
    (owner callee call : Location) :
    (evalCall (walker (fuel + 1)) (.member (.ident "console" owner) (.named "log") callee)
      arguments call).Delivers L m fun _ m' =>
      m'.HasPrinted (lines ++ [" ".intercalate texts]) := by
  have hmember :
      (unboundMember? (.member (.ident "console" owner) (.named "log") callee)).Delivers L m
      fun v m' => v = some (.function (.native "console.log")) ∧ m' = m := by
    have hbound : (isBound "console").Delivers L m fun b m' => b = false ∧ m' = m :=
      ⟨by rw [hm.free]; rfl, rfl⟩
    refine hbound.bind fun b m' hb => ?_
    obtain ⟨rfl, rfl⟩ := hb
    exact ⟨rfl, rfl⟩
  refine hmember.bind fun v m' hv => ?_
  obtain ⟨rfl, rfl⟩ := hv
  refine (delivers_evalAll h fuel).bind fun vs m' hvs => ?_
  obtain ⟨rfl, hvs⟩ := hvs
  exact delivers_callLog hm hvs call

theorem delivers_execStmt {lines : List String} (hm : m.HasPrinted lines) {s : Stmt}
    {line : String} (hs : s.Logs line) (fuel : Nat) :
    (execStmt (walker (fuel + 2)) s).Delivers L m
      fun c m' => c = .normal ∧ m'.HasPrinted (lines ++ [line]) := by
  obtain ⟨harguments, owner, callee, call, whole⟩ := hs
  refine .bind (.modify (Q := fun _ m' => m'.HasPrinted lines) (hm.next rfl rfl rfl))
    fun _ m' hm' => ?_
  refine (delivers_evalCall hm' harguments fuel owner callee call).bind fun _ m'' hm'' => ?_
  exact ⟨rfl, hm''⟩

theorem delivers_execTop {body : List Stmt} {lines : List String}
    (h : List.Forall₂ Stmt.Logs body lines) {earlier : List String}
    (hm : m.HasPrinted earlier) (fuel : Nat) :
    (execTop (walker (fuel + 3)) body).Delivers L m fun _ m' =>
      m'.HasPrinted (earlier ++ lines) := by
  induction h generalizing m earlier with
  | nil => exact (List.append_nil earlier).symm ▸ hm
  | cons hs _ ih =>
    refine (delivers_execStmt hm hs fuel).bind fun c m' hc => ?_
    obtain ⟨rfl, hm'⟩ := hc
    rw [List.append_cons]
    exact ih hm'

/-- Nothing is bound before a program that only prints. -/
theorem hoist_eq_pure {body : List Stmt} {lines : List String}
    (h : List.Forall₂ Stmt.Logs body lines) : hoist body = pure () := by
  induction h with
  | nil => rfl
  | cons hs _ ih =>
    cases hs
    exact ih

theorem delivers_runProgram {p : Program} {lines : List String}
    (h : List.Forall₂ Stmt.Logs p.body lines) (fuel : Nat) :
    (runProgram (fuel + 3) p).Delivers L (Machine.initial L) fun _ m =>
      m.console.lines = lines := by
  unfold runProgram
  rw [hoist_eq_pure h, pure_bind]
  have hinitial : (Machine.initial L).HasPrinted [] := ⟨rfl, rfl⟩
  exact (delivers_execTop h hinitial fuel).imp fun _ m hm => hm.lines

/-! ### Analyses -/

theorem printedLine_of_literals {arguments : List Expr} {texts : List String}
    (h : List.Forall₂ (fun e text => literalText? e = some text) arguments texts)
    (source : List Char) : printedLine source arguments = " ".intercalate texts := by
  have htexts : arguments.map (argumentText source) = texts := by
    induction h with
    | nil => rfl
    | cons he _ ih =>
      rw [List.map_cons, ih, argumentText, he]
      rfl
  rw [printedLine, htexts]

/-- The effect of a statement that only prints is its line. -/
theorem Stmt.Logs.exists_topEffects {s : Stmt} {line : String} (h : s.Logs line)
    (source : List Char) : ∃ n, topEffects source s = [.log line n] := by
  obtain ⟨harguments, owner, callee, call, whole⟩ := h
  refine ⟨call.line, ?_⟩
  rw [← printedLine_of_literals harguments source, topEffects, exprEffects]
  rfl

theorem programEffects_of_logs {p : Program} {lines : List String}
    (h : List.Forall₂ Stmt.Logs p.body lines) (source : List Char) :
    (programEffects source p).filterMap Effect.text? = lines ∧
      ∀ k, (programEffects source p).filterMap (Effect.job? k) = [] := by
  unfold programEffects
  generalize p.body = body at h
  induction h with
  | nil => exact ⟨rfl, fun _ => rfl⟩
  | cons hs _ ih =>
    obtain ⟨n, heffects⟩ := hs.exists_topEffects source
    rw [List.flatMap_cons, heffects]
    exact ⟨congrArg _ ih.1, ih.2⟩

namespace Simulation

/-- A program that nothing has stopped has had all its effects. -/
theorem replayAll_of_stopped {s : Simulation} {effects : List Effect}
    (h : (s.replayAll effects).stopped = none) :
    (s.replayAll effects).micro = s.micro ++ effects.filterMap (Effect.job? .micro) ∧
      (s.replayAll effects).timed = s.timed ++ effects.filterMap (Effect.job? .timed) ∧
      (s.replayAll effects).output = s.output ++ effects.filterMap Effect.text? := by
  induction effects generalizing s with
  | nil => simp [replayAll]
  | cons e rest ih =>
    unfold replayAll at h ⊢
    split at h
    · next hroom =>
      obtain ⟨hmicro, htimed, houtput⟩ := replay_eq_apply s e
      obtain ⟨hmicro', htimed', houtput'⟩ := ih h
      rw [apply_eq] at hmicro htimed houtput
      rw [if_pos hroom, hmicro', htimed', houtput', hmicro, htimed, houtput]
      simp [List.filterMap_eq_flatMap_toList]
    · simp [stop] at h

theorem loop_of_empty {source : List Char} {s : Simulation} (hmicro : s.micro = [])
    (htimed : s.timed = []) : s.loop source = s := by
  unfold loop
  rw [if_pos (by simp [hmicro, htimed])]
  exact turns_of_empty hmicro htimed _ true 0

theorem exists_output_finish (s : Simulation) :
    ∃ t, s.finish.newest = t :: s.newest ∧ t.output = s.output := by
  unfold finish
  split
  · exact ⟨_, rfl, rfl⟩
  · exact ⟨_, rfl, rfl⟩

end Simulation

/-- An analysis that nothing has stopped has printed the lines of the statements. -/
theorem output_unfinished {p : Program} {lines : List String}
    (h : List.Forall₂ Stmt.Logs p.body lines) {source : List Char} {limits : AnalysisLimits}
    (hstopped : (Simulation.unfinished source limits (programEffects source p)).stopped =
      none) :
    (Simulation.unfinished source limits (programEffects source p)).output = lines := by
  obtain ⟨htexts, hjobs⟩ := programEffects_of_logs h source
  unfold Simulation.unfinished at hstopped ⊢
  dsimp only at hstopped ⊢
  split at hstopped
  · next hnone =>
    have hreplayed := Simulation.replayAll_of_stopped (s := Simulation.begun limits)
      (Option.isNone_iff_eq_none.1 hnone)
    rw [hjobs, hjobs, htexts] at hreplayed
    obtain ⟨hmicro, htimed, houtput⟩ := hreplayed
    -- Nothing waits in a queue, so the loop has no turns.
    have hloop : ((Simulation.start limits).program (programEffects source p)).loop source =
        (Simulation.start limits).program (programEffects source p) :=
        Simulation.loop_of_empty hmicro htimed
    rw [if_pos hnone, hloop]
    exact houtput
  · next hsome => exact absurd (Option.isNone_iff_eq_none.2 hstopped) hsome

theorem finalOutput_analyzeProgram (limits : AnalysisLimits) (source : List Char)
    (p : Program) :
    (analyzeProgram limits source p).finalOutput =
      (Simulation.unfinished source limits (programEffects source p)).output := by
  obtain ⟨t, hnewest, houtput⟩ :=
    (Simulation.unfinished source limits (programEffects source p)).exists_output_finish
  have hlast : (analyzeProgram limits source p).steps.getLast? = some t := by
    show (Simulation.unfinished source limits
      (programEffects source p)).finish.newest.reverse.getLast? = some t
    rw [List.getLast?_reverse, hnewest]
    rfl
  rw [Analysis.finalOutput, hlast]
  exact houtput

/-! ### Both -/

theorem Execution.lines_ofProgram {p : Program} {lines : List String}
    (h : List.Forall₂ Stmt.Logs p.body lines) {L : RunLimits}
    (hrun : ∀ f, (runFrom L (enoughFuel L p) p).1 ≠ .error (.failed f)) :
    (Execution.ofProgram L p).console.lines = lines := by
  obtain ⟨fuel, hfuel⟩ : ∃ fuel, enoughFuel L p = fuel + 3 :=
    ⟨enoughFuel L p - 3, by unfold enoughFuel; omega⟩
  have hdelivers := delivers_runProgram (L := L) h fuel
  rw [hfuel] at hrun
  unfold Run.Delivers at hdelivers
  unfold Execution.ofProgram Execution.ofProgram?
  rw [hfuel, runFrom_eq]
  rw [runFrom_eq] at hrun
  rcases hout : (runProgram (fuel + 3) p).outcome L (Machine.initial L) with ⟨(f | _) | _, m⟩
  · rw [hout] at hrun
    exact absurd rfl (hrun f)
  · rw [hout] at hdelivers
    exact hdelivers.elim
  · rw [hout] at hdelivers
    exact hdelivers

/-- A program whose statements all print literals prints the same lines, one for
each statement, when it is executed without a failure and when it is analyzed without
being cut short. -/
theorem lines_eq_finalOutput {source : String} {p : Program}
    (hp : parseProgram source = .ok p)
    (hlogs : ∀ s ∈ p.body, ∃ arguments, s.logs? = some arguments ∧
      ∀ e ∈ arguments, e.isLiteral = true)
    {L : RunLimits} (hrun : ∀ f, (runFrom L (enoughFuel L p) p).1 ≠ .error (.failed f))
    {A : AnalysisLimits} (hcut : (analyzeProgram A source.toList p).isTruncated = false) :
    ∃ (e : Execution) (a : Analysis), execute L source = .ok e ∧ analyze A source = .ok a ∧
      e.console.lines = a.finalOutput ∧ List.Forall₂ Stmt.Logs p.body a.finalOutput := by
  obtain ⟨lines, hlines⟩ : ∃ lines, List.Forall₂ Stmt.Logs p.body lines := by
    refine exists_forall₂ fun s hs => ?_
    obtain ⟨arguments, harguments, hliteral⟩ := hlogs s hs
    exact Stmt.exists_logs harguments hliteral
  have hstopped :
      (Simulation.unfinished source.toList A (programEffects source.toList p)).stopped =
      none := by
    have hmarked := (dropLast_steps_analyzeProgram A source.toList p).2
    rw [hcut] at hmarked
    exact not_not.1 fun h => Bool.false_ne_true (hmarked.2 h)
  have houtput : (analyzeProgram A source.toList p).finalOutput = lines :=
    (finalOutput_analyzeProgram A source.toList p).trans (output_unfinished hlines hstopped)
  refine ⟨Execution.ofProgram L p, analyzeProgram A source.toList p, ?_,
    analyze_eq_ok hp A, ?_, ?_⟩
  · rw [execute, hp]
    rfl
  · rw [Execution.lines_ofProgram hlines hrun, houtput]
  · rw [houtput]
    exact hlines

/-- A line of nothing, and one of several literals. -/
def reciting : String :=
  "console.log();\nconsole.log('a', 0.5, true, null);"

theorem reciting_lines : ∃ (e : Execution) (a : Analysis), execute {} reciting = .ok e ∧
    analyze {} reciting = .ok a ∧ e.console.lines = a.finalOutput ∧
      a.finalOutput.length = 2 := by
  have hcheck : (parseProgram reciting).toOption.any (fun p => p.body.length == 2 &&
      p.body.all (fun s => s.logs?.any (·.all Expr.isLiteral)) &&
      (runFrom {} (enoughFuel {} p) p).1.isOk &&
      !(analyzeProgram {} reciting.toList p).isTruncated) = true := by
    decide +kernel
  obtain ⟨p, hsome, hcheck⟩ := (Option.any_eq_true _ _).1 hcheck
  simp only [Bool.and_eq_true, beq_iff_eq, List.all_eq_true, Option.any_eq_true,
    Bool.not_eq_true'] at hcheck
  obtain ⟨⟨⟨hlength, hlogs⟩, hrun⟩, hcut⟩ := hcheck
  have hp : parseProgram reciting = .ok p := by
    rcases h : parseProgram reciting with _ | _
    · rw [h] at hsome
      cases hsome
    · rw [h] at hsome
      cases hsome
      rfl
  have hfails : ∀ f, (runFrom {} (enoughFuel {} p) p).1 ≠ .error (.failed f) := by
    intro f hf
    rw [hf] at hrun
    cases hrun
  obtain ⟨e, a, he, ha, hsame, heach⟩ := lines_eq_finalOutput hp hlogs hfails hcut
  exact ⟨e, a, he, ha, hsame, heach.length_eq.symm.trans hlength⟩

end ScriptReplay
