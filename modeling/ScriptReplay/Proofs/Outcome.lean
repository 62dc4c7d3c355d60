/-
What a computation does to a state.

`x.outcome limits m` is the answer of `x`, or what stopped it, with the state that it leaves.
A computation is its outcomes, and the equations below compute them:

* `Run.outcome_bind` : one computation after another;
* `Run.follow_eq_ok` : an answer at the end of two computations comes from an answer
  of the first;
* `Run.ext` : two computations with the same outcomes are equal;
* `runFrom_eq` : how a program runs is an outcome;
* `exists_parsed` : the program of a source.
-/
import ScriptReplay.Run.Execution

namespace ScriptReplay

namespace Run

variable {α β : Type}

/-- How a computation ends under some ceilings, and the state that it ends in. -/
def outcome (x : Run α) (limits : RunLimits) (m : Machine) : Except Stop α × Machine :=
  x limits m

theorem ext {x y : Run α} (h : ∀ limits m, x.outcome limits m = y.outcome limits m) :
    x = y := by
  funext limits m
  exact h limits m

/-- An outcome and what comes after it: only an answer is followed by anything. -/
def follow (o : Except Stop α × Machine) (k : α → Machine → Except Stop β × Machine) :
    Except Stop β × Machine :=
  match o with
  | (.ok a, m) => k a m
  | (.error s, m) => (.error s, m)

theorem follow_eq_ok {o : Except Stop α × Machine} {k : α → Machine → Except Stop β × Machine}
    {b : β} {m' : Machine} (h : follow o k = (.ok b, m')) :
    ∃ a m, o = (.ok a, m) ∧ k a m = (.ok b, m') := by
  rcases o with ⟨s | a, m⟩
  · cases h
  · exact ⟨a, m, rfl, h⟩

theorem follow_follow {γ : Type} (o : Except Stop α × Machine)
    (k : α → Machine → Except Stop β × Machine) (k' : β → Machine → Except Stop γ × Machine) :
    follow (follow o k) k' = follow o fun a m => follow (k a m) k' := by
  rcases o with ⟨s | a, m⟩
  · rfl
  · rfl

theorem outcome_bind (x : Run α) (f : α → Run β) (limits : RunLimits) (m : Machine) :
    (x >>= f).outcome limits m = follow (x.outcome limits m) fun a m' =>
      (f a).outcome limits m' := by
  -- The transformers are opened here once; everything else goes through outcomes.
  show (match x limits m with
    | (r, m') => (ExceptT.bindCont (fun a => f a limits) r : StateM Machine _) m') = _
  simp only [outcome]
  rcases x limits m with ⟨_ | _, _⟩
  · rfl
  · rfl

theorem outcome_bind_ok {x : Run α} {f : α → Run β} {limits : RunLimits} {m m' : Machine}
    {a : α} (h : x.outcome limits m = (.ok a, m')) :
    (x >>= f).outcome limits m = (f a).outcome limits m' := by
  rw [outcome_bind, h]
  rfl

theorem outcome_bind_error {x : Run α} {f : α → Run β} {limits : RunLimits} {m m' : Machine}
    {s : Stop} (h : x.outcome limits m = (.error s, m')) :
    (x >>= f).outcome limits m = (.error s, m') := by
  rw [outcome_bind, h]
  rfl

@[simp]
theorem outcome_pure (a : α) (limits : RunLimits) (m : Machine) :
    (pure a : Run α).outcome limits m = (.ok a, m) := rfl

@[simp]
theorem outcome_throw (s : Stop) (limits : RunLimits) (m : Machine) :
    (throw s : Run α).outcome limits m = (.error s, m) := rfl

@[simp]
theorem outcome_failAt (cause : Cause) (loc : Location) (limits : RunLimits) (m : Machine) :
    (failAt cause loc : Run α).outcome limits m = (.error (.failed ⟨cause, some loc⟩), m) :=
  rfl

/-- Nothing comes after a failure. -/
theorem failAt_bind (cause : Cause) (loc : Location) (f : α → Run β) :
    (failAt cause loc >>= f) = failAt cause loc :=
  ext fun _ _ => rfl

@[simp]
theorem outcome_modify (f : Machine → Machine) (limits : RunLimits) (m : Machine) :
    (modify f : Run Unit).outcome limits m = (.ok (), f m) := rfl

@[simp]
theorem outcome_get_bind (f : Machine → Run α) (limits : RunLimits) (m : Machine) :
    (get >>= f).outcome limits m = (f m).outcome limits m := by rfl

@[simp]
theorem outcome_read_bind (f : RunLimits → Run α) (limits : RunLimits) (m : Machine) :
    (read >>= f).outcome limits m = (f limits).outcome limits m := by rfl

end Run

theorem runFrom_eq (limits : RunLimits) (fuel : Nat) (p : Program) :
    runFrom limits fuel p = (runProgram fuel p).outcome limits (Machine.initial limits) := rfl

/-- A source with a program that passes a check. -/
theorem exists_parsed {source : String} {check : Program → Bool}
    (h : (parseProgram source).toOption.any check = true) :
    ∃ p, parseProgram source = .ok p ∧ check p = true := by
  cases hp : parseProgram source with
  | error e =>
    rw [hp] at h
    cases h
  | ok p =>
    rw [hp] at h
    exact ⟨p, rfl, h⟩

end ScriptReplay
