/-
Why a run stops early.

A failure ends a run; programs cannot take it over.  Some failures are the program's, the
others come from a ceiling.

* `Cause.message` : the wording of a failure;
* `Cause.isLimit` : whether it comes from a ceiling;
* `Stop` : a failure, or the end of the fuel that the evaluator was given.
-/
import ScriptReplay.Source

namespace ScriptReplay

/-- Why a run fails.  Values and expressions are kept as messages show them. -/
inductive Cause where
  | stepLimit (limit : Nat)
  | callDepth
  | loopLimit
  | arrayLength (limit : Nat)
  | textLength (limit : Nat)
  | notFunction (callee : String)
  | notConstructor (callee : String)
  | notIterable (value : String)
  | propertyOfNullish (value property : String)
  | constAssignment (name : String)
  | callbackRequired (method : String)
  | emptyReduce
  | thrown (value : String)
  deriving DecidableEq, Repr

/-- The wording of a failure. -/
def Cause.message : Cause → String
  | stepLimit limit => "Maximum step limit (" ++ toString limit ++ ") exceeded"
  | callDepth => "Maximum call stack size exceeded"
  | loopLimit => "Maximum loop iterations exceeded"
  | arrayLength limit => "Maximum array length (" ++ toString limit ++ ") exceeded"
  | textLength limit => "Maximum string length (" ++ toString limit ++ ") exceeded"
  | notFunction callee => callee ++ " is not a function"
  | notConstructor callee => callee ++ " is not a constructor"
  | notIterable value => value ++ " is not iterable"
  | propertyOfNullish value property =>
    "Cannot read properties of " ++ value ++ " (reading '" ++ property ++ "')"
  | constAssignment name => "Assignment to constant variable '" ++ name ++ "'"
  | callbackRequired method => method ++ " requires a callback function"
  | emptyReduce => "Reduce of empty array with no initial value"
  | thrown value => "Uncaught " ++ value

/-- Whether a failure comes from a ceiling rather than from the program. -/
def Cause.isLimit : Cause → Bool
  | stepLimit _ | callDepth | loopLimit | arrayLength _ | textLength _ => true
  | _ => false

/-- A failure and its place.  The step ceiling has none: it is met wherever the run
happens to be. -/
structure Failure where
  cause : Cause
  loc : Option Location
  deriving DecidableEq, Repr

/-- What ends an evaluation early. -/
inductive Stop where
  | failed (failure : Failure)
  | outOfFuel
  deriving DecidableEq, Repr

end ScriptReplay
