/-
Chains of promises.

A call of `Promise.resolve` followed by any calls of `.then` and `.catch` hands over one job
at most.  Its callbacks are those that the calls of `.then` are given, in the order of the
source; the ones for failures never run.

* `PromiseCall`, `PromiseChain` : such chains, in the order in which they are written;
* `thenCallbacks?_expr` : the callbacks that are read off the tree of a chain;
* `PromiseChain.HandsOver` : the one job of a chain, or none if it has no callback;
* `promiseChain_handsOver` : this is what a chain hands over wherever it stands.

Design notes: in the tree of a chain the last call is the outermost one, so inductions go from
the end of the chain.
-/
import Mathlib.Data.List.Basic
import Mathlib.Data.List.Induction
import ScriptReplay.Program.Parser.Stmt
import ScriptReplay.Queue.Effects

namespace ScriptReplay

/-! ### Chains as they are written -/

/-- What is called on a promise: a callback is added for its value, or for its failure. -/
inductive PromiseMethod where
  | andThen
  | catching
  deriving DecidableEq, Repr

/-- The name of a method of promises. -/
def PromiseMethod.name : PromiseMethod → String
  | andThen => "then"
  | catching => "catch"

/-- A call behind a promise. -/
structure PromiseCall where
  method : PromiseMethod
  arguments : List Expr
  memberLoc : Location
  loc : Location

/-- The callback that a call adds for the value of the promise. -/
def PromiseCall.callback? (c : PromiseCall) : Option Expr :=
  match c.method with
  | .andThen => c.arguments.head?
  | .catching => none

/-- The call, on what stands before it. -/
def PromiseCall.on (before : Expr) (c : PromiseCall) : Expr :=
  .call (.member before (.named c.method.name) c.memberLoc) c.arguments c.loc

/-- A call of `Promise.resolve` and the calls behind it, in the order of the source. -/
structure PromiseChain where
  arguments : List Expr
  nameLoc : Location
  memberLoc : Location
  loc : Location
  calls : List PromiseCall

namespace PromiseChain

/-- The promise that a chain starts with. -/
def start (c : PromiseChain) : Expr :=
  .call
    (.member (.ident "Promise" c.nameLoc) (.named "resolve") c.memberLoc) c.arguments c.loc

/-- The tree of a chain. -/
def expr (c : PromiseChain) : Expr :=
  c.calls.foldl PromiseCall.on c.start

/-- The first arguments of the calls of `.then` that have one. -/
def callbacks (c : PromiseChain) : List Expr :=
  c.calls.filterMap (·.callback?)

end PromiseChain

/-! ### Reading the tree -/

theorem thenCallbacks?_start (c : PromiseChain) : thenCallbacks? c.start = some [] := by
  simp [PromiseChain.start, thenCallbacks?, Expr.name?]

/-- A call adds its callback behind those before it. -/
theorem thenCallbacks?_on (before : Expr) (c : PromiseCall) :
    thenCallbacks? (c.on before) = (thenCallbacks? before).map (· ++ c.callback?.toList) := by
  cases hmethod : c.method with
  | andThen =>
    simp [PromiseCall.on, PromiseCall.callback?, thenCallbacks?, PromiseMethod.name, hmethod]
  | catching =>
    simp [PromiseCall.on, PromiseCall.callback?, thenCallbacks?, PromiseMethod.name, hmethod]

/-- All callbacks of a chain are found, in the order of the source. -/
theorem thenCallbacks?_expr (c : PromiseChain) :
    thenCallbacks? c.expr = some c.callbacks := by
  suffices hcalls : ∀ calls : List PromiseCall,
      thenCallbacks? (calls.foldl PromiseCall.on c.start) =
      some (calls.filterMap (·.callback?)) from hcalls c.calls
  intro calls
  -- The last call is the outermost one in the tree.
  induction calls using List.reverseRecOn with
  | nil => exact thenCallbacks?_start c
  | append_singleton calls call ih =>
    rw [List.foldl_append, List.foldl_cons, List.foldl_nil,
      thenCallbacks?_on, ih, Option.map_some,
      List.filterMap_append, List.filterMap_eq_flatMap_toList _ [call],
      List.flatMap_singleton]

/-! ### Effects -/

/-- A call of a method of another name prints nothing. -/
theorem logArguments?_eq_none {method : String} (h : method ≠ "log") (object : Expr)
    (memberLoc : Location) (arguments : List Expr) (loc : Location) :
    logArguments? (.call (.member object (.named method) memberLoc) arguments loc) =
      none := by
  unfold logArguments?
  cases object with
  | ident name l => simp [Expr.staticMember?, h]
  | _ => rfl

/-- The effects of a call in a chain: its job, or else the effects of what it is called on. -/
theorem exprEffects_method {method : String} (h : method ≠ "log") (object : Expr)
    (memberLoc : Location) (arguments : List Expr) (loc : Location) (source : List Char)
    (place : CallPlace) (mayAwait : Bool) :
    exprEffects source place mayAwait
      (.call (.member object (.named method) memberLoc) arguments loc) =
      match promiseJob? source place
        (.call (.member object (.named method) memberLoc) arguments loc) with
      | some job => [.schedule job loc.line]
      | none => exprEffects source place true object := by
  conv => lhs; unfold exprEffects
  dsimp only
  rw [logArguments?_eq_none h]
  cases promiseJob? source place _ with
  | none => rfl
  | some job => rfl

/-- The job of a chain with these callbacks. -/
def chainJob (source : List Char) (place : CallPlace) (line : Nat) (first : Expr)
    (rest : List Expr) : Job :=
  ⟨firstLink source place first line, rest.map (laterLink source line)⟩

/-- The effects of a chain with these callbacks. -/
def chainEffects (source : List Char) (place : CallPlace) (line : Nat) :
    List Expr → List Effect
  | [] => []
  | first :: rest => [.schedule (chainJob source place line first rest) line]

/-- The job of a call in a chain comes before all that the search would find in the object
of the call. -/
theorem exprEffects_link {method : String} (hmethod : method ≠ "log") {object : Expr}
    {memberLoc : Location} {arguments : List Expr} {loc : Location} {callbacks : List Expr}
    (h : thenCallbacks? (.call (.member object (.named method) memberLoc) arguments loc) =
      some callbacks)
    (source : List Char) (place : CallPlace) (mayAwait : Bool)
    (hobject : callbacks = [] → exprEffects source place true object = []) :
    exprEffects source place mayAwait
      (.call (.member object (.named method) memberLoc) arguments loc) =
      chainEffects source place loc.line callbacks := by
  rw [exprEffects_method hmethod]
  unfold promiseJob?
  rw [h]
  cases callbacks with
  | nil => exact hobject rfl
  | cons first rest => rfl

/-- What is handed over is read off the callbacks alone.  Without any the search goes on in
the object of each call, and finds nothing there either. -/
theorem exprEffects_of_thenCallbacks? {e : Expr} {callbacks : List Expr}
    (h : thenCallbacks? e = some callbacks) (source : List Char) (place : CallPlace)
    (mayAwait : Bool) :
    exprEffects source place mayAwait e = chainEffects source place e.loc.line callbacks := by
  induction e using thenCallbacks?.induct generalizing callbacks mayAwait with
  | case1 object method memberLoc arguments loc hthen ih =>
    obtain rfl : method = "then" := beq_iff_eq.1 hthen
    refine exprEffects_link (by decide) h source place mayAwait ?_
    -- Without callbacks in the whole chain there are none before this call.
    rintro rfl
    obtain ⟨earlier, hearlier, hempty⟩ := Option.map_eq_some_iff.1 h
    obtain ⟨rfl, -⟩ := List.append_eq_nil_iff.1 hempty
    exact ih hearlier true
  | case2 object method memberLoc arguments loc _ hcatch ih =>
    obtain rfl : method = "catch" := beq_iff_eq.1 hcatch
    refine exprEffects_link (by decide) h source place mayAwait ?_
    rintro rfl
    exact ih h true
  | case3 object method memberLoc arguments loc _ _ hresolve =>
    obtain ⟨hname, hobject⟩ := Bool.and_eq_true_iff.1 hresolve
    obtain rfl : method = "resolve" := beq_iff_eq.1 hname
    refine exprEffects_link (by decide) h source place mayAwait fun _ => ?_
    -- The search ends at the name of the object, where there is nothing to find.
    cases object with
    | ident name l => rfl
    | _ => cases hobject
  | case4 object method memberLoc arguments loc hthen hcatch hresolve =>
    unfold thenCallbacks? at h
    rw [if_neg hthen, if_neg hcatch, if_neg hresolve] at h
    cases h
  | case5 e hnone =>
    rw [thenCallbacks?.eq_2 e hnone] at h
    cases h

/-! ### What a chain hands over -/

/-- A job with these callbacks, which are queued one by one: the first was given to a promise,
and each other one to the promise of the one before it. -/
structure Job.Chains (j : Job) (first : Expr) (rest : List Expr) : Prop where
  first_callback : j.link.callback = some first
  first_source : j.link.source.text = "Promise.then"
  callbacks : j.chained.map (·.callback) = rest.map some
  sources : ∀ link ∈ j.chained, link.source.text = "chained .then"
  micro : ∀ link ∈ j.link :: j.chained, link.source.queue = .micro
  pending : j.pending = (first :: rest).length - 1

/-- The effects are one job with the callbacks of the chain, or none if it has no callback. -/
def PromiseChain.HandsOver (c : PromiseChain) (effects : List Effect) : Prop :=
  match c.callbacks with
  | [] => effects = []
  | first :: rest => ∃ j, effects = [.schedule j c.expr.loc.line] ∧ j.Chains first rest

theorem chainJob_chains (source : List Char) (place : CallPlace) (line : Nat) (first : Expr)
    (rest : List Expr) : (chainJob source place line first rest).Chains first rest where
  first_callback := rfl
  first_source := rfl
  callbacks := by
    rw [chainJob, List.map_map]
    rfl
  sources := by
    intro link hlink
    obtain ⟨callback, -, rfl⟩ := List.mem_map.1 hlink
    rfl
  micro := by
    intro link hlink
    rcases List.mem_cons.1 hlink with rfl | hlink
    · rfl
    · obtain ⟨callback, -, rfl⟩ := List.mem_map.1 hlink
      rfl
  pending := by simp [chainJob, Job.pending]

theorem PromiseChain.handsOver_exprEffects (c : PromiseChain) (source : List Char)
    (place : CallPlace) (mayAwait : Bool) :
    c.HandsOver (exprEffects source place mayAwait c.expr) := by
  rw [exprEffects_of_thenCallbacks? (thenCallbacks?_expr c)]
  unfold PromiseChain.HandsOver
  cases c.callbacks with
  | nil => rfl
  | cons first rest => exact ⟨_, rfl, chainJob_chains source place _ first rest⟩

/-- The statement that evaluates an expression: on its own, or for the value of a variable. -/
def Expr.statement (e : Expr) (l : Location) : Option (DeclKind × String) → Stmt
  | none => .expr e l
  | some (kind, name) => .declare kind [⟨name, some e, l⟩] l

theorem Expr.topEffects_statement (source : List Char) (e : Expr) (l : Location)
    (var? : Option (DeclKind × String)) :
    topEffects source (e.statement l var?) = exprEffects source .top true e := by
  cases var? with
  | none => rfl
  | some var => simp [Expr.statement, topEffects, declaratorEffects]

theorem Expr.innerEffects_statement (source : List Char) (e : Expr) (l : Location)
    (var? : Option (DeclKind × String)) :
    innerEffects source (e.statement l var?) = exprEffects source .callback true e := by
  cases var? with
  | none => rfl
  | some var => simp [Expr.statement, innerEffects, declaratorEffects]

/-- A chain of promises hands over one job with all its callbacks in order, or nothing if it
has none.  So it is for the expression wherever it is searched, and therefore at the top of a
program and in the body of a callback, among any other statements. -/
theorem promiseChain_handsOver (source : List Char) (c : PromiseChain) :
    (∀ place mayAwait, c.HandsOver (exprEffects source place mayAwait c.expr)) ∧
    (∀ before after l l' var?, ∃ handed, c.HandsOver handed ∧
      programEffects source ⟨before ++ c.expr.statement l var? :: after, l'⟩ =
        before.flatMap (topEffects source) ++ (handed ++ after.flatMap (topEffects source))) ∧
    (∀ (r : Routine) before after l l' var?, ∃ handed, c.HandsOver handed ∧
      callbackEffects source (.function
        { r with body := .block (before ++ c.expr.statement l var? :: after) } l') =
        before.flatMap (innerEffects source) ++
          (handed ++ after.flatMap (innerEffects source))) ∧
    ∀ (r : Routine) l, c.HandsOver
      (callbackEffects source (.function { r with body := .value c.expr } l)) := by
  refine ⟨c.handsOver_exprEffects source, fun before after l l' var? => ?_,
    fun r before after l l' var? => ?_,
    fun r l => ?_⟩
  · refine ⟨_, c.handsOver_exprEffects source .top true, ?_⟩
    rw [programEffects, List.flatMap_append, List.flatMap_cons, Expr.topEffects_statement]
  · refine ⟨_, c.handsOver_exprEffects source .callback true, ?_⟩
    rw [← Expr.innerEffects_statement source c.expr l var?,
      ← List.flatMap_cons, ← List.flatMap_append]
    rfl
  · exact c.handsOver_exprEffects source .callback true

/-- Callbacks for failures are passed over, and so are calls without a callback. -/
example : (parseProgram "Promise.resolve(1).then(a).catch(b).then().then(c);").toOption.map
    (fun p => (programEffects [] p).filterMap fun
      | .schedule j _ =>
        some ((j.link :: j.chained).map fun link => link.callback.bind (·.name?))
      | _ => none) = some [[some "a", some "c"]] := by
  decide +kernel

end ScriptReplay
