/-
The states of a run.

A run goes through a state if it would be in it, were it stopped there.  `Reachable` takes
all places where the evaluator can be stopped: where the run begins, before and after every
expression and statement, and where it ends.

* `haltingWalker` : the evaluator that stops in given states;
* `Reachable` : the states that a run of a program goes through;
* `reachable_runFrom` : the states in which runs end are among them;
* `Discipline.inv_of_reachable` : what every run keeps to holds in all of them.
-/
import ScriptReplay.Proofs.Discipline

namespace ScriptReplay

/-! ### Stopping a run -/

/-- Stops the run in states that satisfy `halt`, as if the fuel had ended. -/
def stopIf (halt : Machine → Bool) : Run Unit := do
  if halt (← get) then throw .outOfFuel

/-- The evaluator that can go `fuel` levels deep, and stops before and after an expression or
statement if the state satisfies `halt`. -/
def haltingWalker (halt : Machine → Bool) : Nat → Walker
  | 0 => ⟨fun _ => throw .outOfFuel, fun _ => throw .outOfFuel⟩
  | fuel + 1 =>
    { eval := fun e => do
        stopIf halt
        let v ← evalExpr (haltingWalker halt fuel) e
        stopIf halt
        return v
      exec := fun s => do
        stopIf halt
        let c ← execStmt (haltingWalker halt fuel) s
        stopIf halt
        return c }

/-- Executes a program until a state satisfies `halt`. -/
def haltingProgram (halt : Machine → Bool) (fuel : Nat) (p : Program) : Run Unit := do
  stopIf halt
  hoist p.body
  execTop (haltingWalker halt fuel) p.body

/-- A state that a run of the program goes through. -/
def Reachable (L : RunLimits) (p : Program) (m : Machine) : Prop :=
  ∃ halt fuel, ((haltingProgram halt fuel p).outcome L (.initial L)).2 = m

/-! ### Stopping nowhere -/

theorem stopIf_never : stopIf (fun _ => false) = pure () :=
  Run.ext fun _ _ => rfl

theorem haltingWalker_never (fuel : Nat) :
    haltingWalker (fun _ => false) fuel = walker fuel := by
  induction fuel with
  | zero => rfl
  | succ fuel ih =>
    unfold haltingWalker walker
    simp only [ih, stopIf_never, pure_bind, bind_pure]

/-- The state in which a run ends is one that it goes through. -/
theorem reachable_runFrom (L : RunLimits) (fuel : Nat) (p : Program) :
    Reachable L p (runFrom L fuel p).2 := by
  refine ⟨fun _ => false, fuel, ?_⟩
  unfold haltingProgram
  rw [haltingWalker_never, stopIf_never, pure_bind]
  rfl

/-! ### Stopped runs -/

variable {G : Gap} {N : Region} {K : Stock N} {α : Type} [Carries α]

/-- A computation that may be stopped first. -/
theorem stopIf_acts (hG : G.FuelDiffers) (halt : Machine → Bool) {x y : Run α}
    (hxy : Acts G K x y) (hyy : Acts G K y y) : Acts G K (do stopIf halt; x) y := by
  have hx : (do stopIf halt; x) =
      (get >>= fun m => if halt m then throw .outOfFuel else x) := by
    refine Run.ext fun L m => ?_
    unfold stopIf
    rw [bind_assoc, Run.outcome_get_bind, Run.outcome_get_bind]
    split
    · rfl
    · rfl
  -- The computation that is not stopped looks at the state as well, to no effect.
  have hlook : Acts G K (get >>= fun m => if halt m then throw .outOfFuel else x)
      (get >>= fun _ => y) := by
    refine .peek fun m m' _ => ?_
    split
    · exact .stopWithoutFuel hG hyy
    · exact hxy
  rw [hx]
  exact hlook

/-- A computation that may be stopped before and after. -/
theorem stopAround_acts (hG : G.FuelDiffers) (halt : Machine → Bool) {x y : Run α}
    (hxy : Acts G K x y) (hyy : Acts G K y y) :
    Acts G K (do stopIf halt; let a ← x; stopIf halt; return a) y := by
  refine stopIf_acts hG halt ?_ hyy
  rw [← bind_pure y]
  exact .bind hxy fun a K' _ ha => stopIf_acts hG halt (.pure ha) (.pure ha)

theorem haltingWalker_acts (hG : G.FuelDiffers) (halt : Machine → Bool) (fuel : Nat) :
    Walks G N.ground (haltingWalker halt fuel) (walker fuel) := by
  induction fuel with
  | zero => exact ⟨fun _ _ => .noFuel hG.fuelEnds.stops, fun _ _ => .noFuel hG.fuelEnds.stops⟩
  | succ fuel ih =>
    have hself := walker_acts_self (N := N) hG.fuelEnds fuel
    have hstopped := Walks.succ hG.fuelEnds hself ih
    have hgoing := Walks.succ hG.fuelEnds hself hself
    refine ⟨fun he K => ?_, fun hs K => ?_⟩
    · exact stopAround_acts hG halt (hstopped.eval he K) (hgoing.eval he K)
    · exact stopAround_acts hG halt (hstopped.exec hs K) (hgoing.exec hs K)

/-- What every run of a program keeps to holds in all states that it goes through. -/
theorem Discipline.inv_of_reachable (D : Discipline N) {p : Program}
    (hp : ∀ s ∈ p.body, N.has (.stmt s)) {L : RunLimits} (hi : D.inv L (.initial L))
    {m : Machine} (hm : Reachable L p m) : D.inv L m := by
  obtain ⟨halt, fuel, rfl⟩ := hm
  have hacts :
      Acts .none (D.stock (.initial L)) (haltingProgram halt fuel p) (runProgram fuel p) :=
    stopIf_acts (G := .none) trivial halt
      (.andThen (hoist_acts hp) fun _ =>
        execTop_acts (haltingWalker_acts (G := .none) trivial halt fuel) hp)
      (runProgram_acts (S := N.ground) hp (walker_acts_self (G := .none) trivial fuel))
  exact ((safe_of_acts hacts).1 L _ hi (Stock.le_refl _)).inv

end ScriptReplay
