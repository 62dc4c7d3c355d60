/-
Statements leave at once what they leave.

Each ending of a statement comes with a promise about the steps so far.  A statement that
ends with a return has told of it last, in the innermost call; one that ends with a break has
told of it last, and the innermost loop around it is the one that the break leaves.  Blocks,
branches and `try` statements hand both on, and loops hand on returns.

* `Left` : what has been told of when a statement ends;
* `Executes` : computations that execute statements as promised;
* `Tame.block`, `loopRound_executes` : scopes and rounds of loops do;
* `exec_executes` : all statements of a program do;
* `bodies` : the bodies of its functions end as they should.

Design notes: expressions are done with by their actions, so what is left are the rules for
statements, one lemma for each.  A final block could end in another way than the block before
it, so there must be none.
-/
import ScriptReplay.Proofs.Unwinding.Calls

namespace ScriptReplay

variable {p : Program} {L : RunLimits} {old new : List Step} {calls fuel : Nat}
  {m : Machine} {loop : Option Loop}

/-! ### Endings -/

/-- What has been told of when a statement ends inside a loop, or outside of all. -/
def Left (p : Program) (old : List Step) (loop : Option Loop) (c : Completion)
    (new : List Step) (m : Machine) : Prop :=
  match c with
  | .ret v => m.Returning p old new v
  | .breakOut => m.Told p old new fun l => loop = some l
  | .normal | .nextRound => Settled p old new m

theorem Left.outOfScope {c : Completion} (h : Left p old loop c new m) :
    Left p old loop c new m.outOfScope := by
  have hheap : m.outOfScope.heap = m.heap := by
    obtain ⟨chain, hout⟩ := m.exists_outOfScope_eq
    rw [hout]
  cases c with
  | ret v => exact Machine.Returning.of_quiet h (.outOfScope m) hheap
  | _ => exact Machine.Told.of_quiet h (.outOfScope m)

/-- Outside of all loops a break leaves nothing open. -/
theorem Left.settled {c : Completion} (h : Left p old none c new m) (hc : ∀ v, c ≠ .ret v) :
    Settled p old new m := by
  cases c with
  | ret v => exact absurd rfl (hc v)
  | breakOut => exact Machine.Told.imp h fun _ hloop => nomatch hloop
  | _ => exact h

/-- What has been told of after a round of a loop.  Only the last round has an ending
to hand on. -/
def Rounded (p : Program) (old : List Step) (loop : Option Loop) (last : Option Completion)
    (new : List Step) (m : Machine) : Prop :=
  match last with
  | some c => Left p old loop c new m
  | none => Settled p old new m

/-- A computation that executes statements inside a loop, or outside of all. -/
abbrev Executes (p : Program) (L : RunLimits) (old : List Step) (calls : Nat)
    (loop : Option Loop) (x : Run Completion) : Prop :=
  Tame p L old calls (Settled p old) x (Left p old loop)

/-! ### Rules -/

section
variable {α : Type} [Carries α] {P : List Step → Machine → Prop}
  {Q : α → List Step → Machine → Prop}

theorem Tame.record {kind : StepKind} {loc : Location} {description : String}
    {pending pending' : Loop → Prop} (hkind : kind ≠ .error) (hloc : p.region.Place loc)
    (hreturns : ∀ m : Machine, ¬ (m.step kind loc description).Returns)
    (hpending : ∀ (m : Machine) l, pending l → (m.step kind loc description).EndsLoop l)
    (hpending' : ∀ (m : Machine) l, (m.step kind loc description).Leaves p l → pending' l) :
    Tame p L old calls (fun new m => m.Told p old new pending) (record kind loc description)
      fun _ new m => m.Told p old new pending' :=
  ⟨.record hkind hloc _, fun m _ _ _ h =>
    (goes_record h (hreturns m) (hpending m)).imp fun _ _ _ htold => htold.imp (hpending' m)⟩

/-- A step that tells neither of a return nor of a break. -/
theorem Tame.record_settled {kind : StepKind} {loc : Location} {description : String}
    (hkind : kind.isOrdinary = true) (hloc : p.region.Place loc)
    (hdescription : description ≠ "Break statement") :
    Tame p L old calls (Settled p old) (ScriptReplay.record kind loc description) fun _ =>
      Settled p old := by
  have hordinary : Ordinary kind description := .of_kind hkind
  refine .record hordinary.no_error hloc (fun m => Step.not_returns_of_kind fun hreturn => ?_)
    (fun _ _ => False.elim) fun _ _ => Step.not_leaves_of_description hdescription
  rw [show kind = .return_ from hreturn] at hkind
  cases hkind

theorem Tame.change (c : Change) (hv : ∀ v ∈ c.values, v.Legal p.region)
    (hc : c.Fits p.region) {Q : Unit → List Step → Machine → Prop}
    (hQ : ∀ new m, P new m → Q () new (c.apply m)) :
    Tame p L old calls P (modify c.apply) Q :=
  ⟨.change c hv hc, fun m new _ _ h => ⟨new, hQ new m h⟩⟩

/-- Something that depends on the words for a value. -/
theorem Tame.inspecting {f : String → Run α} (v : Value)
    (hf : ∀ text, Tame p L old calls
      (fun new m => P new m ∧ text = m.heap.inspect v false) (f text) Q) :
    Tame p L old calls P (inspect v >>= f) Q := by
  have hgoes : Tame p L old calls P (inspect v) fun text new m =>
      P new m ∧ text = m.heap.inspect v false := by
    refine ⟨?_, fun m new _ _ h => ⟨new, h, rfl⟩⟩
    exact (Discipline.safe_of_acts (inspect_acts (G := .none) (K := p.legal) v)).1
  exact hgoes.bind fun text _ => hf text

end

theorem Tame.block {x : Run Completion} (hx : Executes p L old calls loop x) (name : String) :
    Executes p L old calls loop (inLoopScope name x) := by
  refine ⟨hx.safe.block name, fun m new hm hdepth h => ?_⟩
  have hinside := hm.inScope .block name m.chain
  rw [Run.outcome_inLoopScope]
  refine Goes.follow (m := m.inScope .block name m.chain) (hx.ends hinside)
    (hx.goes _ new hinside hdepth (h.of_quiet (.inScope m .block name m.chain)))
    fun c m' new' _ _ _ hleft => ?_
  exact ⟨new', hleft.outOfScope⟩

/-! ### Sequences and blocks -/

/-- The evaluator executes all statements of the program as promised. -/
def Obeys (p : Program) (L : RunLimits) (old : List Step) (calls : Nat) (w : Walker) : Prop :=
  ∀ s loop, p.region.has (.stmt s) → p.Stands loop (.stmt s) →
    Executes p L old calls loop (w.exec s)

section
variable {w : Walker} (hw : Obeys p L old calls w) {body : List Stmt}
include hw

theorem execAll_executes (hb : ∀ s ∈ body, p.region.has (.stmt s) ∧ p.Stands loop (.stmt s)) :
    Executes p L old calls loop (w.execAll body) := by
  induction body with
  | nil => exact .pure (by simp [Carries.within]) fun _ _ h => h
  | cons s rest ih =>
    obtain ⟨hs, hstands⟩ := hb s List.mem_cons_self
    unfold Walker.execAll
    refine Tame.bind (hw s loop hs hstands) fun c hc => ?_
    cases c with
    | normal => exact ih fun s' h => hb s' (List.mem_cons_of_mem _ h)
    | _ => exact .pure hc fun _ _ h => h

theorem execUntilReturn_ended
    (hb : ∀ s ∈ body, p.region.has (.stmt s) ∧ p.Stands none (.stmt s)) :
    Tame p L old calls (Settled p old) (w.execUntilReturn body) (Ended p old) := by
  induction body with
  | nil => exact .pure (p.legal.plain trivial) fun _ _ h => .inl h
  | cons s rest ih =>
    obtain ⟨hs, hstands⟩ := hb s List.mem_cons_self
    unfold Walker.execUntilReturn
    refine Tame.bind (hw s none hs hstands) fun c hc => ?_
    have hrest := ih fun s' h => hb s' (List.mem_cons_of_mem _ h)
    cases c with
    | ret v => exact .pure (hc v rfl) fun _ _ h => .inr h
    | _ =>
      refine hrest.imp (fun _ _ h => Left.settled h ?_) fun _ _ _ h => h
      intro v hret
      cases hret

end

section
variable (hbodies : ∀ inner, calls = inner + 1 → Bodies p L old inner)
include hbodies

theorem eval_tame {e : Expr} (he : p.region.has (.expr e)) :
    Tame p L old calls (Settled p old) ((walker fuel).eval e) fun _ => Settled p old :=
  .of_acts ((straight_walks p.region fuel).eval (Region.straight_expr he) p.legal) rfl hbodies

theorem hoist_tame {body : List Stmt} (hb : ∀ s ∈ body, p.region.has (.stmt s)) :
    Tame p L old calls (Settled p old) (hoist body) fun _ => Settled p old :=
  .of_acts (hoist_acts (K := p.legal) hb) rfl hbodies

theorem recordLoop_tame {kind : StepKind} (hk : kind.isStraight = true) (title told : String)
    {loc : Location} (hloc : p.region.Place loc) :
    Tame p L old calls (Settled p old) (recordLoop kind title told loc) fun _ =>
      Settled p old :=
  .of_acts (recordLoop_acts (K := p.legal) hk title told hloc) rfl hbodies

theorem testEnds_tame (title : String) {test : Option Expr}
    (ht : ∀ e, test = some e → p.region.has (.expr e)) {loc : Location}
    (hloc : p.region.Place loc) :
    Tame p L old calls (Settled p old) (testEnds (walker fuel) title test loc) fun _ =>
      Settled p old :=
  .of_acts (testEnds_acts (K := p.legal) (straight_walks p.region fuel) title
    (fun e he => Region.straight_expr (ht e he)) hloc) rfl hbodies

variable (hw : Obeys p L old calls (walker fuel))
include hw

theorem execBlock_executes {body : List Stmt}
    (hb : ∀ s ∈ body, p.region.has (.stmt s) ∧ p.Stands loop (.stmt s)) (name : String) :
    Executes p L old calls loop (execBlock (walker fuel) body name) := by
  rw [execBlock_eq]
  exact .block
    (.bind (hoist_tame hbodies fun s h => (hb s h).1) fun _ _ => execAll_executes hw hb) name

/-! ### Loops -/

/-- A body that is a block is executed without a scope of its own. -/
theorem loopBody_executes {body : Stmt} (hb : p.region.has (.stmt body))
    (hstands : p.Stands loop (.stmt body)) :
    Executes p L old calls loop (loopBody (walker fuel) body) := by
  cases body with
  | block statements l =>
    have hs : ∀ s ∈ statements, p.region.has (.stmt s) ∧ p.Stands loop (.stmt s) := fun s h =>
      ⟨p.region.part hb (List.mem_map_of_mem h), hstands.inner (mem_fragments_stmts h)⟩
    exact .bind (hoist_tame hbodies fun s h => (hs s h).1) fun _ _ => execAll_executes hw hs
  | _ => exact hw _ loop hb hstands

omit hbodies hw in
/-- The step behind a break tells that it is over; a return goes on. -/
theorem afterRound_tame {title : String} {loc : Location} (hloc : p.region.Place loc)
    {c : Completion} (hc : Carries.within p.legal.has c) (loop : Option Loop) :
    Tame p L old calls (Left p old (some ⟨title, loc⟩) c) (afterRound title loc c)
      (Rounded p old loop) := by
  cases c with
  | normal => exact .pure (by simp [Carries.within]) fun _ _ h => h
  | nextRound => exact .pure (by simp [Carries.within]) fun _ _ h => h
  | ret v => exact .pure (fun d hd => by cases hd; exact hc) fun _ _ h => h
  | breakOut =>
    have hstep : Tame p L old calls
        (fun new m => m.Told p old new fun l => some ⟨title, loc⟩ = some l)
        (recordLoop .loopEnd title "exited via break" loc) fun _ => Settled p old := by
      refine .record (by decide) hloc
        (fun m => Step.not_returns_of_kind (by decide : StepKind.loopEnd ≠ .return_))
        (fun m l hl => ?_) fun _ _ =>
        Step.not_leaves_of_kind (by decide : StepKind.loopEnd ≠ .branch)
      cases hl
      exact ⟨rfl, rfl, String.append_assoc⟩
    refine hstep.bind fun _ _ => .pure (fun d hd => ?_) fun _ _ h => h
    cases hd
    simp [Carries.within]

theorem loopRound_executes {title told : String} {loc : Location} (hloc : p.region.Place loc)
    {body : Stmt} (hb : p.region.has (.stmt body))
    (hstands : p.Stands (some ⟨title, loc⟩) (.stmt body)) {next : Run Completion}
    (hnext : Executes p L old calls loop next) :
    Executes p L old calls loop (loopRound (walker fuel) title told body loc next) := by
  refine .bind (recordLoop_tame hbodies (by decide) _ _ hloc) fun _ _ => ?_
  refine .bind (loopBody_executes hbodies hw hb hstands) fun c hc => ?_
  refine .bind (afterRound_tame hloc hc loop) fun last hlast => ?_
  cases last with
  | some c' => exact .pure (hlast c' rfl) fun _ _ h => h
  | none => exact hnext

/-- The parts of a loop with the condition first belong to the program, and its body
stands in it. -/
structure TestedLoop.Inside (l : TestedLoop) (p : Program) : Prop where
  test : ∀ e, l.test = some e → p.region.has (.expr e)
  update : ∀ e, l.update = some e → p.region.has (.expr e)
  body : p.region.has (.stmt l.body)
  stands : p.Stands (some ⟨l.title, l.loc⟩) (.stmt l.body)
  place : p.region.Place l.loc

theorem TestedLoop.rounds_executes {l : TestedLoop} (hl : l.Inside p) (left done : Nat) :
    Executes p L old calls loop (l.rounds (walker fuel) left done) := by
  induction left generalizing done with
  | zero =>
    unfold TestedLoop.rounds
    refine .bind (testEnds_tame hbodies l.title hl.test hl.place) fun ended _ => ?_
    split
    · exact .pure (by simp [Carries.within]) fun _ _ h => h
    · exact .fail hl.place
  | succ left ih =>
    unfold TestedLoop.rounds
    refine .bind (testEnds_tame hbodies l.title hl.test hl.place) fun ended _ => ?_
    split
    · exact .pure (by simp [Carries.within]) fun _ _ h => h
    · refine loopRound_executes hbodies hw hl.place hl.body hl.stands ?_
      cases hu : l.update with
      | none => exact ih _
      | some e => exact .bind (eval_tame hbodies (hl.update e hu)) fun _ _ => ih _

theorem testedLoop_executes {l : TestedLoop} (hl : l.Inside p) :
    Executes p L old calls loop (testedLoop (walker fuel) l) := by
  unfold testedLoop
  refine .bind (recordLoop_tame hbodies (by decide) _ _ hl.place) fun _ _ => ?_
  exact .ceilings fun _ => TestedLoop.rounds_executes hbodies hw hl _ 0

theorem trailingRounds_executes {body : Stmt} (hb : p.region.has (.stmt body)) {test : Expr}
    (ht : p.region.has (.expr test)) {loc : Location} (hloc : p.region.Place loc)
    (hstands : p.Stands (some ⟨"Do-while", loc⟩) (.stmt body)) (left done : Nat) :
    Executes p L old calls loop (trailingRounds (walker fuel) body test loc left done) := by
  induction left generalizing done with
  | zero => exact .fail hloc
  | succ left ih =>
    refine loopRound_executes hbodies hw hloc hb hstands ?_
    refine .bind (testEnds_tame hbodies _ (fun e he => ?_) hloc) fun ended _ => ?_
    · cases he
      exact ht
    split
    · exact .pure (by simp [Carries.within]) fun _ _ h => h
    · exact ih _

theorem trailingLoop_executes {body : Stmt} (hb : p.region.has (.stmt body)) {test : Expr}
    (ht : p.region.has (.expr test)) {loc : Location} (hloc : p.region.Place loc)
    (hstands : p.Stands (some ⟨"Do-while", loc⟩) (.stmt body)) :
    Executes p L old calls loop (trailingLoop (walker fuel) body test loc) := by
  unfold trailingLoop
  refine .bind (recordLoop_tame hbodies (by decide) _ _ hloc) fun _ _ => ?_
  exact .ceilings fun _ => trailingRounds_executes hbodies hw hb ht hloc hstands _ 0

theorem elementRounds_executes (kind : DeclKind) (name : String) {body : Stmt}
    (hb : p.region.has (.stmt body)) {loc : Location} (hloc : p.region.Place loc)
    (hstands : p.Stands (some ⟨"For-of", loc⟩) (.stmt body)) {elements : List Value}
    (he : ∀ v ∈ elements, v.Legal p.region) (done : Nat) :
    Executes p L old calls loop
      (elementRounds (walker fuel) kind name body loc done elements) := by
  induction elements generalizing done with
  | nil =>
    unfold elementRounds
    refine .bind (recordLoop_tame hbodies (by decide) _ _ hloc) fun _ _ => ?_
    exact .pure (by simp [Carries.within]) fun _ _ h => h
  | cons v rest ih =>
    unfold elementRounds
    refine .ceilings fun L' => ?_
    dsimp only
    split
    · rw [Run.failAt_bind]
      exact .fail hloc
    · have hname : Tame p L old calls (Settled p old) (declareName kind name v) fun _ =>
          Settled p old :=
        .of_acts
          (declareName_acts (K := p.legal) kind name (he v List.mem_cons_self)) rfl hbodies
      refine hname.bind fun _ _ => loopRound_executes hbodies hw hloc hb hstands ?_
      exact ih (fun v' h => he v' (List.mem_cons_of_mem _ h)) _

theorem elementLoop_executes (kind : DeclKind) (name : String) {iterable : Expr}
    (hi : p.region.has (.expr iterable)) {body : Stmt} (hb : p.region.has (.stmt body))
    {loc : Location} (hloc : p.region.Place loc)
    (hstands : p.Stands (some ⟨"For-of", loc⟩) (.stmt body)) :
    Executes p L old calls loop (elementLoop (walker fuel) kind name iterable body loc) := by
  unfold elementLoop
  refine .bind (eval_tame hbodies hi) fun v hv => ?_
  have helements : Tame p L old calls (Settled p old) (iterableElements v iterable.loc)
      fun _ => Settled p old :=
    .of_acts (iterableElements_acts (K := p.legal) v (Region.place_expr hi)) rfl hbodies
  refine helements.bind fun elements he => ?_
  refine .bind (recordLoop_tame hbodies (by decide) _ _ hloc) fun _ _ => ?_
  exact elementRounds_executes hbodies hw kind name hb hloc hstands he 0

/-! ### Single statements -/

omit hbodies hw in
/-- A statement begins where it stands. -/
theorem moveTo_tame {s : Stmt} (hs : p.region.has (.stmt s)) :
    Tame p L old calls (Settled p old) (modify fun m => { m with current := some s.loc })
      fun _ => Settled p old :=
  .change (.moveTo s.loc) (by simp [Change.values]) (Region.place_stmt hs) fun _ m h =>
    Machine.Told.of_quiet h (.changed (.moveTo s.loc) m)

omit hw in
theorem declareTold_tame (kind : DeclKind) (name : String) {loc : Location}
    (hloc : p.region.Place loc) {v : Value} (hv : v.Legal p.region) :
    Tame p L old calls (Settled p old) (declareTold kind name loc v) fun _ =>
      Settled p old := by
  refine .bind (.of_acts (inspect_acts (K := p.legal) v) rfl hbodies) fun text _ => ?_
  refine .bind (.of_acts (declareName_acts (K := p.legal) kind name hv) rfl hbodies)
    fun _ _ => ?_
  refine .record_settled (by decide) hloc fun hwords => ?_
  have hchars := congrArg String.toList hwords
  simp [String.toList_append] at hchars

omit hw in
theorem execDeclarators_tame (kind : DeclKind) {loc : Location} (hloc : p.region.Place loc)
    {ds : List Declarator} (hd : ∀ d ∈ ds, ∀ e, d.init = some e → p.region.has (.expr e)) :
    Tame p L old calls (Settled p old) (execDeclarators (walker fuel) kind loc ds) fun _ =>
      Settled p old := by
  induction ds with
  | nil => exact .pure trivial fun _ _ h => h
  | cons d rest ih =>
    have hinitial : Tame p L old calls (Settled p old) (initialValue (walker fuel) d) fun _ =>
        Settled p old :=
      .of_acts
        (initialValue_acts (K := p.legal) (straight_walks p.region fuel) trivial fun e he =>
          Region.straight_expr (hd d List.mem_cons_self e he)) rfl hbodies
    rw [execDeclarators_cons]
    refine hinitial.bind fun v hv =>
      .bind (declareTold_tame hbodies kind d.name hloc hv) fun _ _ => ?_
    exact ih fun d' h => hd d' (List.mem_cons_of_mem _ h)

omit hw in
/-- A statement that can begin a counting loop ends normally. -/
theorem execStmt_plain {s : Stmt} (hs : p.region.has (.stmt s)) (hbegin : s.canBegin = true) :
    Tame p L old calls (Settled p old) (execStmt (walker fuel) s) fun c new m =>
      c = .normal ∧ Settled p old new m := by
  have hloc := Region.place_stmt hs
  have hnormal : Tame p L old calls (Settled p old) (pure Completion.normal) fun c new m =>
      c = .normal ∧ Settled p old new m :=
        .pure (by simp [Carries.within]) fun _ _ h => ⟨rfl, h⟩
  refine .bind (moveTo_tame hs) fun _ _ => ?_
  cases s with
  | declare kind ds l =>
    have hparts : ∀ d ∈ ds, ∀ e, d.init = some e →
        Node.expr e ∈ (Stmt.declare kind ds l).parts :=
      fun d hd e he =>
      Stmt.mem_parts_declare.2 ⟨d, hd, e, he, rfl⟩
    have hdeclare : Tame p L old calls (Settled p old)
        (execDeclarators (walker fuel) kind l ds) fun _ => Settled p old :=
      execDeclarators_tame hbodies kind hloc fun d hd e he =>
        p.region.part hs (hparts d hd e he)
    exact hdeclare.bind fun _ _ => hnormal
  | expr e l =>
    exact (eval_tame hbodies (p.region.part hs List.mem_cons_self)).bind fun _ _ => hnormal
  | _ => cases hbegin

omit hw in
theorem begin_tame {s : Stmt} (hs : p.region.has (.stmt s)) (hbegin : s.canBegin = true) :
    Tame p L old calls (Settled p old) ((walker fuel).exec s) fun _ => Settled p old := by
  cases fuel with
  | zero => exact ⟨.throw trivial, fun _ _ _ _ h => .error h (fun _ hid => hid) _⟩
  | succ fuel =>
    exact (execStmt_plain hbodies hs hbegin).imp (fun _ _ h => h) fun _ _ _ h => h.2

omit hbodies hw in
/-- A function leaves with the value that it has told of last. -/
theorem returnTold_executes {loc : Location} (hloc : p.region.Place loc) {v : Value}
    (hv : v.Legal p.region) : Executes p L old calls loop (returnTold loc v) := by
  refine .inspecting v fun text => ?_
  have hstep : Tame p L old calls
      (fun new m => Settled p old new m ∧ text = m.heap.inspect v false)
      (record .return_ loc ("Return " ++ text)) fun _ new m => m.Returning p old new v := by
    refine ⟨.record (by decide) hloc _, ?_⟩
    rintro m new - - ⟨hsettled, rfl⟩
    rw [Run.outcome_record]
    split
    · exact ⟨_, Machine.Told.returned hsettled loc v⟩
    · exact .error hsettled (fun _ hid => hid) _
  have hresult : Tame p L old calls (fun new m => m.Returning p old new v)
      (modify fun m => { m with stack := m.stack.setResult v }) fun _ new m =>
      m.Returning p old new v :=
    .change (.setResult v) (by simpa [Change.values] using hv) trivial fun _ m h =>
      h.of_quiet (.changed (.setResult v) m) rfl
  refine hstep.bind fun _ _ => hresult.bind fun _ _ => ?_
  refine .pure (fun u hu => ?_) fun _ _ h => h
  cases hu
  exact hv

omit hw in
theorem execReturn_executes {value : Option Expr}
    (he : ∀ e, value = some e → p.region.has (.expr e)) {loc : Location}
    (hloc : p.region.Place loc) :
    Executes p L old calls loop (execReturn (walker fuel) value loc) := by
  rw [execReturn_eq]
  cases value with
  | none => exact returnTold_executes hloc trivial
  | some e =>
    exact (eval_tame hbodies (he e rfl)).bind fun v hv => returnTold_executes hloc hv

theorem execIf_executes {test : Expr} {yes : Stmt} {no : Option Stmt}
    (ht : p.region.has (.expr test))
    (hy : p.region.has (.stmt yes) ∧ p.Stands loop (.stmt yes))
    (hn : ∀ s, no = some s → p.region.has (.stmt s) ∧ p.Stands loop (.stmt s))
    {loc : Location} (hloc : p.region.Place loc) :
    Executes p L old calls loop (execIf (walker fuel) test yes no loc) := by
  have hwords : ∀ text branch : String,
      "If condition: " ++ text ++ " → " ++ branch ≠ "Break statement" := by
    intro text branch h
    have hchars := congrArg String.toList h
    simp [String.toList_append] at hchars
  refine .bind (eval_tame hbodies ht) fun v _ => ?_
  refine .bind (.of_acts (inspect_acts (K := p.legal) v) rfl hbodies) fun text _ => ?_
  refine .bind (.record_settled (by decide) hloc (hwords _ _)) fun _ _ => ?_
  split
  · exact hw yes loop hy.1 hy.2
  · cases no with
    | none => exact .pure (by simp [Carries.within]) fun _ _ h => h
    | some s => exact hw s loop (hn s rfl).1 (hn s rfl).2

omit hw in
theorem execRaise_executes {e : Expr} (he : p.region.has (.expr e)) {loc : Location}
    (hloc : p.region.Place loc) :
    Executes p L old calls loop (execRaise (walker fuel) e loc) := by
  refine .bind (eval_tame hbodies he) fun v _ => ?_
  dsimp only
  split
  · exact .bind (.of_acts (plainOf_acts (K := p.legal) v) rfl hbodies) fun _ _ => .fail hloc
  · exact .bind (.of_acts (inspect_acts (K := p.legal) v) rfl hbodies) fun _ _ => .fail hloc

end

/-! ### All statements -/

/-- No `try` statement of the program has a final block. -/
def Program.NoFinally (p : Program) : Prop :=
  ∀ body handler finalizer loc, p.region.has (.stmt (.tryBlock body handler finalizer loc)) →
    finalizer = none

section
variable {text : List Char} (hplaced : (Fragment.program p).Placed text)
  (hfinally : p.NoFinally) (hbodies : ∀ inner, calls = inner + 1 → Bodies p L old inner)
include hplaced hfinally hbodies

omit hfinally in
theorem execFor_executes (hw : Obeys p L old calls (walker fuel)) {init : Option Stmt}
    {test update : Option Expr} {body : Stmt} {loc : Location}
    (hs : p.region.has (.stmt (.forLoop init test update body loc)))
    (hstands : p.Stands loop (.stmt (.forLoop init test update body loc))) :
    Executes p L old calls loop (execFor (walker fuel) init test update body loc) := by
  have hbody : p.Stands (some ⟨"For", loc⟩) (.stmt body) :=
    hstands.inner (List.mem_append_right _ (List.mem_append_right _ (List.mem_append_right _
      (List.mem_singleton_self _))))
  have hl : (TestedLoop.mk "For" test update body loc).Inside p := by
    refine ⟨fun e he => p.region.part hs ?_, fun e he => p.region.part hs ?_,
      p.region.part hs List.mem_cons_self,
      hbody, Region.place_stmt hs⟩
    · simpa [Node.parts, Stmt.parts] using .inl he
    · simpa [Node.parts, Stmt.parts] using .inr he
  refine .block ?_ _
  cases init with
  | none => exact testedLoop_executes hbodies hw hl
  | some s =>
    -- What the loop does first is no statement that could leave anything.
    have hbegin : s.canBegin = true := (hplaced.of_encloses hstands.encloses).shaped
    have hfirst : p.region.has (.stmt s) :=
      p.region.part hs (by simp [Node.parts, Stmt.parts])
    exact (begin_tame hbodies hfirst hbegin).bind fun _ _ => testedLoop_executes hbodies hw hl

theorem execStmt_executes (hw : Obeys p L old calls (walker fuel)) {s : Stmt}
    (hs : p.region.has (.stmt s)) (hstands : p.Stands loop (.stmt s)) :
    Executes p L old calls loop (execStmt (walker fuel) s) := by
  have hloc : p.region.Place s.loc := Region.place_stmt hs
  have hpart : ∀ n ∈ s.parts, p.region.has n := fun n hn => p.region.part hs hn
  have hnormal : Executes p L old calls loop (pure .normal) :=
    .pure (by simp [Carries.within]) fun _ _ h => h
  by_cases hbegin : s.canBegin = true
  · refine (execStmt_plain hbodies hs hbegin).imp (fun _ _ h => h) ?_
    rintro _ new m ⟨rfl, h⟩
    exact h
  refine .bind (moveTo_tame hs) fun _ _ => ?_
  cases s with
  | declare | expr => exact absurd rfl hbegin
  | function r l =>
    dsimp only
    split
    · refine .bind (.record_settled (by decide) hloc fun hwords => ?_) fun _ _ => hnormal
      have hchars := congrArg String.toList hwords
      simp [String.toList_append] at hchars
    · exact hnormal
  | ret value l =>
    exact execReturn_executes hbodies (fun e he => hpart _ (by simp [Stmt.parts, he])) hloc
  | ifElse test yes no l =>
    refine execIf_executes hbodies hw (hpart _ (by simp [Stmt.parts]))
      ⟨hpart _ (by simp [Stmt.parts]), hstands.inner ?_⟩
      (fun s h => ⟨hpart _ (by simp [Stmt.parts, h]), ?_⟩) hloc
    · exact List.mem_append_right _ (List.mem_append_left _ (List.mem_singleton_self _))
    · subst h
      exact hstands.inner
        (List.mem_append_right _ (List.mem_append_right _ (List.mem_singleton_self _)))
  | forLoop init test update body l => exact execFor_executes hplaced hbodies hw hs hstands
  | forOf kind name iterable body l =>
    have hbody : p.Stands (some ⟨"For-of", l⟩) (.stmt body) :=
      hstands.inner (List.mem_append_right _ (List.mem_singleton_self _))
    exact .block (elementLoop_executes hbodies hw kind name (hpart _ (by simp [Stmt.parts]))
      (hpart _ (by simp [Stmt.parts])) hloc hbody) _
  | whileLoop test body l =>
    have hbody : p.Stands (some ⟨"While", l⟩) (.stmt body) :=
      hstands.inner (List.mem_append_right _ (List.mem_singleton_self _))
    have hl : (TestedLoop.mk "While" (some test) none body l).Inside p := by
      refine ⟨fun e he => ?_, fun _ he => (by cases he),
        hpart _ (by simp [Stmt.parts]), hbody, hloc⟩
      cases he
      exact hpart _ (by simp [Stmt.parts])
    exact .block (testedLoop_executes hbodies hw hl) _
  | doWhile body test l =>
    have hbody : p.Stands (some ⟨"Do-while", l⟩) (.stmt body) :=
      hstands.inner (List.mem_append_left _ (List.mem_singleton_self _))
    exact .block (trailingLoop_executes hbodies hw (hpart _ (by simp [Stmt.parts]))
      (hpart _ (by simp [Stmt.parts])) hloc hbody) _
  | breakOut l =>
    -- At one place of a text there is one break, so the loop that the step leaves is the one
    -- around this statement.
    have hstep : Tame p L old calls (Settled p old) (record .branch l "Break statement")
      fun _ new m =>
        m.Told p old new fun inner => loop = some inner :=
      .record (by decide) hloc
        (fun m => Step.not_returns_of_kind (by decide : StepKind.branch ≠ .return_))
        (fun _ _ => False.elim) fun _ _ hleaves =>
        hstands.breakOut_unique hplaced hleaves.stands
    exact hstep.bind fun _ _ => .pure (by simp [Carries.within]) fun _ _ h => h
  | nextRound l =>
    refine .bind (.record_settled (by decide) hloc (by decide)) fun _ _ => ?_
    exact .pure (by simp [Carries.within]) fun _ _ h => h
  | raise e l => exact execRaise_executes hbodies (hpart _ List.mem_cons_self) hloc
  | block body l =>
    exact execBlock_executes hbodies hw (fun s h => ⟨hpart _ (List.mem_map_of_mem h),
      hstands.inner (mem_fragments_stmts h)⟩) _
  | tryBlock body handler finalizer l =>
    obtain rfl := hfinally _ _ _ _ hs
    refine .bind (execBlock_executes hbodies hw
      (fun s h => ⟨hpart _ (Stmt.mem_parts_tryBlock.2 ⟨s, rfl, .inl h⟩),
        hstands.inner (List.mem_append_left _ (mem_fragments_stmts h))⟩) "try") fun c hc => ?_
    exact .pure hc fun _ _ h => h
  | empty l => exact hnormal

/-- The evaluator executes all statements of a program as promised, if the bodies of functions
that they call do. -/
theorem exec_executes (fuel : Nat) : Obeys p L old calls (walker fuel) := by
  induction fuel with
  | zero =>
    exact fun _ _ _ _ => ⟨.throw trivial, fun _ _ _ _ h => .error h (fun _ hid => hid) _⟩
  | succ fuel ih =>
    exact fun s loop hs hstands => execStmt_executes hplaced hfinally hbodies ih hs hstands

/-- A body ends normally, with its value, or with a return. -/
theorem callBody_ended {r : Routine} (hr : p.region.has (.routine r)) {this : Option Value}
    (ht : ∀ v, this = some v → v.Legal p.region) (fuel : Nat) :
    Tame p L old calls (Settled p old) (callBody (walker fuel) r this) (Ended p old) := by
  have hrun :
      Tame p L old calls (Settled p old) ((walker fuel).runBody r.body) (Ended p old) := by
    have hbody : ∀ n ∈ r.body.parts, p.region.has n :=
      fun n hn => p.region.part hr (List.mem_append_right _ hn)
    have hstands : ∀ s, Node.stmt s ∈ r.body.parts → p.Stands none (.stmt s) :=
      fun s => Program.stands_body hr
    cases hb : r.body with
    | block statements =>
      rw [hb] at hbody hstands
      have hs : ∀ s ∈ statements, p.region.has (.stmt s) ∧ p.Stands none (.stmt s) :=
        fun s h =>
        ⟨hbody _ (List.mem_map_of_mem h), hstands s (List.mem_map_of_mem h)⟩
      refine .bind (hoist_tame hbodies fun s h => (hs s h).1) fun _ _ => ?_
      exact execUntilReturn_ended (exec_executes hplaced hfinally hbodies fuel) hs
    | value e =>
      rw [hb] at hbody
      exact (eval_tame hbodies (hbody _ List.mem_cons_self)).imp
        (fun _ _ h => h) fun _ _ _ h => .inl h
  unfold callBody
  cases this with
  | none => exact hrun
  | some receiver =>
    dsimp only
    split
    · exact .bind
        (.of_acts (declareName_acts (K := p.legal) _ _ (ht receiver rfl)) rfl hbodies)
        fun _ _ => hrun
    · exact hrun

end

/-- The bodies of all functions of a program end as they should, however many calls the
ceiling still allows. -/
theorem bodies {text : List Char} (hplaced : (Fragment.program p).Placed text)
    (hfinally : p.NoFinally) (L : RunLimits) (old : List Step) (calls : Nat) :
    Bodies p L old calls := by
  induction calls with
  | zero =>
    have hnone : ∀ inner, 0 = inner + 1 → Bodies p L old inner := fun _ hinner =>
      absurd hinner.symm (Nat.succ_ne_zero _)
    exact fun fuel r this hr ht => callBody_ended hplaced hfinally hnone hr ht fuel
  | succ calls ih =>
    refine fun fuel r this hr ht =>
      callBody_ended hplaced hfinally (fun inner hinner => ?_) hr ht fuel
    obtain rfl := Nat.succ.inj hinner
    exact ih

end ScriptReplay
