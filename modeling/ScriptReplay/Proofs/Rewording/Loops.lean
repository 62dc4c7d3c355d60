/-
Counting loops that do not count.

A counting loop with a condition alone, that does nothing first and nothing after a round, is
a loop with this condition.  Only the name of its scope and the title in its own steps tell
which of the two was executed.

* `Rewording.Keeps` : computations inside a loop that have the same outcomes and stay
  in its scope;
* `Rewording.rounds_keeps` : the rounds of a loop under two titles are such computations;
* `execFor_agree_execWhile` : the two loops have the same outcome in every state.

Design notes: the steps of a loop are told apart from those of loops in its body by the
innermost scope that they show.  So what is known of a round is that it leaves the scope of
the loop the innermost one.
-/
import ScriptReplay.Proofs.Rewording

namespace ScriptReplay

namespace Rewording

variable {W : Rewording} {old : List Step} {m m' : Machine} {α β : Type}

/-- The scope of the loop is the innermost one, and there is room for a last step. -/
structure Inside (W : Rewording) (m : Machine) : Prop where
  room : m.HasRoom
  chain : m.chain.head? = some W.scope

/-- Two computations inside the loop that have the same outcomes, and with an answer are
still inside it. -/
def Keeps (W : Rewording) (x y : Run α) : Prop :=
  ∀ L old m m', W.Likens old m m' → W.Inside m →
    W.Agree old (x.outcome L m) (y.outcome L m') ∧ ∀ a m₁,
    x.outcome L m = (.ok a, m₁) → W.Inside m₁

theorem Keeps.pure (a : α) : W.Keeps (Pure.pure a) (Pure.pure a) := by
  intro L old m m' h hm
  refine ⟨⟨rfl, h⟩, fun b m₁ ho => ?_⟩
  cases ho
  exact hm

theorem Keeps.failAt (cause : Cause) (loc : Location) :
    W.Keeps (ScriptReplay.failAt cause loc : Run α) (ScriptReplay.failAt cause loc) :=
  fun _ _ _ _ h _ => ⟨⟨rfl, h⟩, fun _ _ ho => by cases ho⟩

theorem Keeps.bind {x y : Run α} {f g : α → Run β} (hx : W.Keeps x y)
    (hf : ∀ a, W.Keeps (f a) (g a)) : W.Keeps (x >>= f) (y >>= g) := by
  intro L old m m' h hm
  obtain ⟨hagree, hinside⟩ := hx L old m m' h hm
  rw [Run.outcome_bind, Run.outcome_bind]
  refine ⟨hagree.follow fun a m₁ m₁' ho h₁ => ?_, fun b m₂ ho => ?_⟩
  · exact (hf a L old m₁ m₁' h₁ (hinside a m₁ ho)).1
  · obtain ⟨a, m₁, ho₁, ho₂⟩ := Run.follow_eq_ok ho
    -- Where the first computation of the other run ended does not matter for this one.
    obtain ⟨m₁', h₁⟩ : ∃ m₁', W.Likens old m₁ m₁' := ⟨_, by simpa only [ho₁] using hagree.2⟩
    exact (hf a L old m₁ m₁' h₁ (hinside a m₁ ho₁)).2 b m₂ ho₂

/-- What a walker does inside the loop has nothing to do with how the loop is told of. -/
theorem keeps_of_acts [Carries α] {x : Run α} (hx : Acts .longer Stock.everything x x) :
    W.Keeps x x := by
  intro L old m m' h hm
  refine ⟨agrees_of_acts hx rfl L old m m' h, fun a m₁ ho => ?_⟩
  have hsafe : Discipline.growth.Safe Stock.everything x := (Discipline.safe_of_acts hx).1
  have hends := hsafe L m hm.room fun _ _ => trivial
  rw [ho] at hends
  obtain ⟨hroom, -, hrestored, -⟩ := hends
  exact ⟨hroom, hrestored.chain ▸ hm.chain⟩

/-! ### Steps of the loop -/

/-- A step of a loop that is recorded in its scope is the loop's own. -/
theorem Likens.owns_step (h : W.Likens old m m') (hchain : m.chain.head? = some W.scope)
    {kind : StepKind} (hk : kind ∈ [.loopStart, .loopIteration, .loopEnd])
    (description : String) : W.Owns (m.step kind W.loc description) := by
  obtain ⟨s, hs, hid, -⟩ := h.named
  refine ⟨hk, rfl, ?_⟩
  show (m.scopes.snapshot m.chain).getLast?.map (·.id) = some W.scope
  obtain ⟨outer, hm⟩ := List.head?_eq_some_iff.1 hchain
  unfold Scopes.snapshot
  rw [hm, List.reverse_cons, List.filterMap_append, List.filterMap_cons, hs]
  simp [hid]

/-- The loop tells of itself under both titles. -/
theorem Likens.recordLoop (h : W.Likens old m m') (hchain : m.chain.head? = some W.scope)
    {kind : StepKind} (hk : kind ∈ [.loopStart, .loopIteration, .loopEnd]) (told : String)
    (L : RunLimits) :
    W.Agree old ((recordLoop kind W.title told W.loc).outcome L m)
        ((recordLoop kind W.title' told W.loc).outcome L m') ∧
      ∀ a m₁, (ScriptReplay.recordLoop kind W.title told W.loc).outcome L m = (.ok a, m₁) →
        W.Inside m₁ := by
  refine ⟨h.agree_record L kind W.loc (.inr ⟨h.owns_step hchain hk _, told, rfl, rfl⟩),
    fun a m₁ ho => ?_⟩
  unfold ScriptReplay.recordLoop at ho
  rw [Run.outcome_record] at ho
  split at ho
  · next hroom =>
    cases ho
    have hne : m.chain ≠ [] := List.ne_nil_of_mem (List.mem_of_mem_head? hchain)
    exact ⟨⟨hne, of_decide_eq_true hroom⟩, hchain⟩
  · cases ho

theorem keeps_recordLoop {kind : StepKind}
    (hk : kind ∈ [.loopStart, .loopIteration, .loopEnd]) (told : String) :
    W.Keeps (recordLoop kind W.title told W.loc) (recordLoop kind W.title' told W.loc) :=
  fun L _ _ _ h hm => h.recordLoop hm.chain hk told L

/-! ### Rounds -/

theorem testEnds_keeps {w : Walker} (hw : Walks .longer Region.all.ground w w)
    (test : Option Expr) :
    W.Keeps (testEnds w W.title test W.loc) (testEnds w W.title' test W.loc) := by
  cases test with
  | none => exact .pure false
  | some e =>
    refine (keeps_of_acts (hw.eval trivial Stock.everything)).bind fun v => ?_
    split
    · exact .pure false
    · exact (keeps_recordLoop (by decide) _).bind fun _ => .pure true

theorem afterRound_keeps (c : Completion) :
    W.Keeps (afterRound W.title W.loc c) (afterRound W.title' W.loc c) := by
  cases c with
  | breakOut => exact (keeps_recordLoop (by decide) _).bind fun _ => .pure _
  | ret v => exact .pure _
  | normal => exact .pure _
  | nextRound => exact .pure _

theorem loopBody_keeps {w : Walker} (hw : Walks .longer Region.all.ground w w) (body : Stmt) :
    W.Keeps (loopBody w body) (loopBody w body) :=
  keeps_of_acts (loopBody_acts hw trivial)

/-- The rounds of a loop are the same under both titles, however many are over and
may follow. -/
theorem rounds_keeps {w : Walker} (hw : Walks .longer Region.all.ground w w)
    (test update : Option Expr) (body : Stmt) (left done : Nat) :
    W.Keeps (TestedLoop.rounds w ⟨W.title, test, update, body, W.loc⟩ left done)
      (TestedLoop.rounds w ⟨W.title', test, update, body, W.loc⟩ left done) := by
  induction left generalizing done with
  | zero =>
    unfold TestedLoop.rounds
    refine (testEnds_keeps hw test).bind fun ended => ?_
    split
    · exact .pure _
    · exact .failAt _ _
  | succ left ih =>
    unfold TestedLoop.rounds
    refine (testEnds_keeps hw test).bind fun ended => ?_
    split
    · exact .pure _
    · refine (keeps_recordLoop (by decide) _).bind fun _ => ?_
      refine (loopBody_keeps hw body).bind fun c => (afterRound_keeps c).bind fun last => ?_
      cases last with
      | some c => exact .pure c
      | none =>
        cases update with
        | none => exact ih (done + 1)
        | some e =>
          exact (keeps_of_acts (hw.eval trivial Stock.everything)).bind fun _ => ih (done + 1)

/-- A loop is the same under both titles, begun in its scope. -/
theorem testedLoop_agree {w : Walker} (hw : Walks .longer Region.all.ground w w)
    (test update : Option Expr) (body : Stmt) (L : RunLimits) (h : W.Likens old m m')
    (hchain : m.chain.head? = some W.scope) :
    W.Agree old ((testedLoop w ⟨W.title, test, update, body, W.loc⟩).outcome L m)
      ((testedLoop w ⟨W.title', test, update, body, W.loc⟩).outcome L m') := by
  have hkind : StepKind.loopStart ∈ [StepKind.loopStart, .loopIteration, .loopEnd] :=
    List.mem_cons_self
  obtain ⟨hagree, hinside⟩ := h.recordLoop hchain hkind "started" L
  unfold testedLoop
  rw [Run.outcome_bind, Run.outcome_bind]
  refine hagree.follow fun _ m₁ m₁' ho h₁ => ?_
  rw [Run.outcome_read_bind, Run.outcome_read_bind]
  exact (rounds_keeps hw test update body _ 0 L old m₁ m₁' h₁ (hinside _ m₁ ho)).1

/-- A new scope under two names. -/
theorem likens_inScope (W : Rewording) (m : Machine) (hscope : W.scope = m.scopes.size)
    (chain : Chain) :
    W.Likens m.trace.newest (m.inScope .block W.name chain)
      (m.inScope .block W.name' chain) := by
  have hnew := (m.scopes.get?_openScope .block W.name chain m.scopes.size).trans (if_pos rfl)
  have hrename : (m.scopes.openScope .block W.name' chain).2 =
      (m.scopes.openScope .block W.name chain).2.rename m.scopes.size W.name' := by
    refine Scopes.ext_get? fun i => ?_
    rw [Scopes.get?_rename, Scopes.get?_openScope, Scopes.get?_openScope]
    by_cases hi : i = m.scopes.size
    · rw [if_pos hi, if_pos hi.symm, if_pos hi]
      rfl
    · rw [if_neg hi, if_neg (Ne.symm hi), if_neg hi]
  rw [← hscope] at hnew hrename
  refine ⟨?_, ⟨_, hnew, rfl, rfl⟩, rfl, [], [], rfl, rfl, .nil⟩
  unfold Machine.inScope
  dsimp only
  rw [hrename]

/-- The loop at a place whose scope is opened next, as a counting loop and as a loop with
a condition. -/
def counting (m : Machine) (loc : Location) : Rewording :=
  ⟨m.scopes.size, loc, "for-loop", "while-loop", "For", "While"⟩

end Rewording

/-- A counting loop with nothing but a condition does what the loop with this condition does.
They end in the same way and leave the same state, except that the scope of the loop has
another name, in the state and in the steps, and that the steps by which the loop tells of
itself have another title. -/
theorem execFor_agree_execWhile (L : RunLimits) (fuel : Nat) (m : Machine) (test : Expr)
    (body : Stmt) (loc : Location) :
    (Rewording.counting m loc).Agree m.trace.newest
      ((execFor (walker fuel) none (some test) none body loc).outcome L m)
      ((execWhile (walker fuel) test body loc).outcome L m) := by
  have hw : Walks .longer Region.all.ground (walker fuel) (walker fuel) :=
    walker_acts_self (G := .longer) trivial fuel
  have hstart := (Rewording.counting m loc).likens_inScope m rfl m.chain
  unfold execFor execWhile
  rw [Run.outcome_inLoopScope, Run.outcome_inLoopScope]
  exact (Rewording.testedLoop_agree hw (some test) none body L hstart rfl).follow
    fun c m₁ m₁' _ h₁ =>
    ⟨rfl, h₁.outOfScope⟩

end ScriptReplay
