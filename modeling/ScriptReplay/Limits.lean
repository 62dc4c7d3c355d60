/-
Ceilings.

Every run and every analysis is bounded.  The ceilings have defaults and can be
set one by one.

* `RunLimits` : the ceilings of a run;
* `AnalysisLimits` : the ceilings of an analysis of queues.
-/
namespace ScriptReplay

/-- The ceilings of a run: steps in the trace, the one for an error included; nested calls;
rounds of one loop; elements of an array; and units of a text. -/
structure RunLimits where
  maxSteps : Nat := 10000
  maxCallDepth : Nat := 100
  maxLoopIterations : Nat := 1000
  maxArrayLength : Nat := 10000
  maxStringLength : Nat := 100000
  deriving DecidableEq, Repr, Inhabited

/-- The ceilings of an analysis: steps, and callbacks run. -/
structure AnalysisLimits where
  maxSteps : Nat := 500
  maxIterations : Nat := 50
  deriving DecidableEq, Repr, Inhabited

end ScriptReplay
