/-
The state that a step shows.

A run with room for `n` steps ends in the state in which the same run, given more room, takes
its `n`-th step.

* `stateAt` : the state at a step;
* `Execution.eq_step_stateAt` : every step of a trace shows the state at its number.

Design notes: a step keeps only the scopes in use and what they refer to.  What is said of all
scopes at the moment of a step is said of the state at its number.
-/
import ScriptReplay.Proofs.Ceilings
import ScriptReplay.Proofs.Steps

namespace ScriptReplay

/-- The state in which a run takes its `n`-th step.  With room for `n` steps the last place is
kept for a failure, so the run ends there. -/
def stateAt (L : RunLimits) (fuel : Nat) (p : Program) (n : Nat) : Machine :=
  (runFrom { L with maxSteps := n } fuel p).2

theorem Execution.exists_shape {L : RunLimits} {fuel : Nat} {p : Program} {e : Execution}
    (he : Execution.ofProgram? L fuel p = some e) : ∃ failed, e.Shape L.maxSteps failed := by
  have hm := orderly_runFrom L fuel p
  rw [Execution.ofProgram?_eq] at he
  rcases hrun : runFrom L fuel p with ⟨(f | _) | a, m⟩
  · rw [hrun] at he hm
    cases he
    exact ⟨True, hm.shape_recordFailure f p.loc⟩
  · rw [hrun] at he
    cases he
  · rw [hrun] at he hm
    cases he
    exact ⟨False, Machine.Orderly.shape hm (synced_runFrom hrun)⟩

/-- A run that goes on as it would with less room tells of its failure where the
other does. -/
theorem Execution.eq_step_of_same {p : Program} {r : Except Stop Unit} {m : Machine}
    (hroom : m.HasRoom) {max : Nat} (hmax : m.trace.max ≤ max) {e : Execution}
    (he : Execution.ofOutcome? p (r, m.withMax max) = some e) {s : Step}
    (hs : e.steps[m.trace.max - 1]? = some s) : s = m.step s.kind s.loc s.description := by
  have hlt := hroom.room
  have hcount := m.trace.length_toList
  have hroom' : (m.withMax max).HasRoom := ⟨hroom.chain, Nat.lt_of_lt_of_le hlt hmax⟩
  obtain ⟨hindex, hget⟩ := List.getElem?_eq_some_iff.1 hs
  rcases r with (f | _) | a
  · cases he
    have hlist := Machine.toList_recordFailure hroom' f p.loc
    change _ = m.trace.toList ++ _ at hlist
    dsimp only at hindex hget hs
    rw [hlist] at hs
    rw [hlist, List.length_append, List.length_singleton] at hindex
    rw [List.getElem?_append_right (by omega),
      show m.trace.max - 1 - m.trace.toList.length = 0 by omega] at hs
    cases hs
    rfl
  · cases he
  · cases he
    change m.trace.max - 1 < m.trace.toList.length at hindex
    omega

/-- A run that goes on after the one with less room was cut off takes the step for which
there was none. -/
theorem Execution.eq_step_of_toldIn {p : Program} {m : Machine}
    {o : Except Stop Unit × Machine} (hroom : o.2.HasRoom) (htold : m.ToldIn o.2)
    {e : Execution} (he : Execution.ofOutcome? p o = some e) {s : Step}
    (hs : e.steps[m.trace.nextId - 1]? = some s) : s = m.step s.kind s.loc s.description := by
  obtain ⟨kind, loc, description, hsuffix⟩ := htold
  obtain ⟨hahead, -⟩ := Execution.prefix_of_before (m := o.2) ⟨.refl _, hroom⟩ he
  have hreverse := List.reverse_prefix.2 hsuffix
  rw [List.reverse_cons] at hreverse
  obtain ⟨rest, hsteps⟩ := hreverse.trans hahead
  have hcount : m.trace.nextId - 1 = m.trace.newest.reverse.length :=
    m.trace.length_toList.symm
  rw [← hsteps, List.append_assoc, hcount,
    List.getElem?_append_right (Nat.le_refl _), Nat.sub_self] at hs
  cases hs
  rfl

/-- Every step of a trace shows the state at its number. -/
theorem Execution.eq_step_stateAt {L : RunLimits} {fuel : Nat} {p : Program} {e : Execution}
    (he : Execution.ofProgram? L fuel p = some e) {s : Step} (hs : s ∈ e.steps) :
    s = (stateAt L fuel p s.id).step s.kind s.loc s.description := by
  obtain ⟨_, hshape⟩ := Execution.exists_shape he
  obtain ⟨k, hk⟩ := List.mem_iff_getElem?.1 hs
  have hid : s.id = k + 1 := hshape.ids k s hk
  have hle : s.id ≤ L.maxSteps := by
    obtain ⟨hlt, -⟩ := List.getElem?_eq_some_iff.1 hk
    have := hshape.length_le
    omega
  have hindex : e.steps[s.id - 1]? = some s := by
    rw [hid]
    exact hk
  have hroom : (runFrom L fuel p).2.HasRoom := hasRoom_runFrom (by omega) fuel p
  have hbetween : Gap.longer.Between { L with maxSteps := s.id } L := ⟨hle, rfl⟩
  -- Under a ceiling at the number of the step, the run is the same or is cut where that step
  -- would be recorded.
  have hfollows :=
    follows_of_walks (G := .longer) trivial hbetween (by show 1 ≤ s.id; omega) p
    (walker_acts_self (G := .longer) trivial fuel)
  rw [Execution.ofProgram?_eq] at he
  unfold stateAt
  generalize runFrom { L with maxSteps := s.id } fuel p = o at hfollows
  generalize runFrom L fuel p = o' at hfollows he hroom
  cases hfollows with
  | @same r m hmax hroom' =>
    change m.trace.max = s.id at hmax
    refine Execution.eq_step_of_same hroom' (by omega) he ?_
    rw [hmax]
    exact hindex
  | @cut stop m _ hcut hgrows hnext =>
    cases hcut with
    | fuel hG => exact hG.elim
    | ceiling hG _ => cases hG
    | steps _ =>
      obtain ⟨hnum, htold⟩ := hnext _ rfl
      change m.trace.nextId = s.id at hnum
      refine Execution.eq_step_of_toldIn hroom htold he ?_
      rw [hnum]
      exact hindex

end ScriptReplay
