/-
The analysis of a source text.

* `analyze` : the steps of the queues and the reports on a source text, or its first fault;
* `Analysis.finalOutput` : all that it prints.
-/
import ScriptReplay.Program.Parser.Stmt
import ScriptReplay.Queue.Advice
import ScriptReplay.Queue.Simulation

namespace ScriptReplay

/-- The steps of a simulation and the reports on its source. -/
structure Analysis where
  steps : List QueueStep
  warnings : List Warning

/-- The lines printed by the end. -/
def Analysis.finalOutput (a : Analysis) : List String :=
  (a.steps.getLast?.map (·.output)).getD []

/-- The report that a simulation was cut short. -/
def ceilingWarning (limits : AnalysisLimits) : Ceiling → Warning
  | .steps => ⟨"Output truncated at " ++ toString limits.maxSteps ++ " steps", none⟩
  | .iterations =>
    ⟨"Event loop stopped after " ++ toString limits.maxIterations ++ " task runs", none⟩

/-- The analysis of a program with its source text. -/
def analyzeProgram (limits : AnalysisLimits) (source : List Char) (p : Program) : Analysis :=
  let s := simulate source limits (programEffects source p)
  ⟨s.steps, advice source ++ (s.stopped.map (ceilingWarning limits)).toList⟩

/-- The analysis of a source text, or its first fault. -/
def analyze (limits : AnalysisLimits) (source : String) : Except SyntaxError Analysis :=
  (parseProgram source).map (analyzeProgram limits source.toList)

end ScriptReplay
