/-
Scopes and frames after an evaluation.

Whatever is evaluated in a state of a run and comes to an end of its own leaves the scopes in
use as it found them, and the frames too but for the values that they show.

* `Machine.restored_of_acts` : so does every computation that is made of actions;
* `Machine.restored_of_ok` : statements with every ending, expressions, calls, constructions
  and callbacks.

Design notes: nothing is asked of what is evaluated, which need not be a part of the
program.  Of the state it matters only that some scope is in use, so any discipline over all
nodes will do.
-/
import ScriptReplay.Proofs.Reachable
import ScriptReplay.Proofs.Steps

namespace ScriptReplay

variable {L : RunLimits} {p : Program} {m m' : Machine}

theorem Region.place_all (loc : Location) : Region.all.Place loc :=
  ⟨.expr (.null loc), trivial, rfl⟩

/-- What is made of actions and ends with an answer has left every scope and every frame that
it entered. -/
theorem Machine.restored_of_acts {α : Type} [Carries α] {x : Run α}
    (hx : Acts .none Stock.everything x x) (hm : Reachable L p m) {a : α}
    (ho : x.outcome L m = (.ok a, m')) : m.Restored m' := by
  have hi : Discipline.numbering.inv L m :=
    Discipline.numbering.inv_of_reachable (fun _ _ => trivial) (Machine.orderly_initial L) hm
  have hends := (Discipline.safe_of_acts hx).1 L m hi fun _ _ => trivial
  rw [ho] at hends
  exact hends.2.2.1

/-- The same scopes are in use and the same frames are there once a statement has ended,
however it did, or an expression, a call, a construction or a callback has an answer. -/
theorem Machine.restored_of_ok (hm : Reachable L p m) (fuel : Nat) :
    (∀ s c, ((walker fuel).exec s).outcome L m = (.ok c, m') → m.Restored m') ∧
      (∀ e v, ((walker fuel).eval e).outcome L m = (.ok v, m') → m.Restored m') ∧
      (∀ f this args shown recorded loc v,
        (callFunction (walker fuel) f this args shown recorded loc).outcome L m =
          (.ok v, m') → m.Restored m') ∧
      (∀ f args loc v, (constructBy (walker fuel) f args loc).outcome L m = (.ok v, m') →
        m.Restored m') ∧
      ∀ f args loc v, (invokeCallback (walker fuel) f args loc).outcome L m = (.ok v, m') →
        m.Restored m' := by
  have hwalks : Walks .none Region.all.ground (walker fuel) (walker fuel) :=
    walker_acts_self (G := .none) trivial fuel
  have henters : Enters .none .all (walker fuel) (walker fuel) := hwalks.enters trivial
  refine ⟨fun s c ho => ?_, fun e v ho => ?_, fun f this args shown recorded loc v ho => ?_,
    fun f args loc v ho => ?_,
    fun f args loc v ho => ?_⟩
  · exact restored_of_acts (hwalks.exec trivial Stock.everything) hm ho
  · exact restored_of_acts (hwalks.eval trivial Stock.everything) hm ho
  · refine restored_of_acts
      (callFunction_acts henters ?_ ?_ ?_ shown recorded (Region.place_all loc)) hm ho
    · trivial
    · exact fun _ _ => trivial
    · exact fun _ _ => trivial
  · refine restored_of_acts (constructBy_acts henters ?_ ?_ (Region.place_all loc)) hm ho
    · trivial
    · exact fun _ _ => trivial
  · refine restored_of_acts (invokeCallback_acts henters ?_ ?_ (Region.place_all loc)) hm ho
    · trivial
    · exact fun _ _ => trivial

/-- A return out of two loops and a block between them. -/
def leaving : Stmt :=
  .whileLoop (.bool true default)
    (.block [.doWhile (.block [.block [.ret (some (.null default)) default] default] default)
      (.bool false default) default]
      default) default

/-- The loops and blocks are all left, though none of them comes to its end. -/
theorem Machine.restored_leaving : ∃ m, Reachable {} ⟨[leaving], default⟩ (.initial {}) ∧
    ((walker 9).exec leaving).outcome {} (.initial {}) = (.ok (.ret .null), m) ∧
      m.trace.toList.length = 5 ∧ (Machine.initial {}).Restored m := by
  have hm : Reachable {} ⟨[leaving], default⟩ (.initial {}) := ⟨fun _ => true, 9, rfl⟩
  refine ⟨_, hm, rfl, rfl, ?_⟩
  exact (restored_of_ok hm 9).1 leaving (.ret .null) rfl

end ScriptReplay
