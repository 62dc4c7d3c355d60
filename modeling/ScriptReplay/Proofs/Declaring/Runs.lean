/-
Steps of declarations do not lie.

Wherever a list of statements begins, its functions are bound first, so at each of its
statements the names of these functions are bound.  A statement that stands in no list comes
without a list to bind what it declares: a function that stands alone is told of as declared,
and is never bound.

* `Faithful` : evaluators that are truthful at all statements of the program;
* `execAll_truthful`, `execDeclarators_truthful` : lists of statements and of variables;
* `exec_faithful`, `honestBodies` : all statements of a program, and the bodies of
  its functions;
* `Execution.declarations_bound` : every step of a declaration, in every run of every program.

Design notes: which names are bound matters to functions only, so all other statements are
treated for any names.
-/
import ScriptReplay.Proofs.Declaring.Calls

namespace ScriptReplay

variable {p : Program} {L : RunLimits} {calls fuel : Nat}
  {K : Stock p.region} {names : List String}

/-- The evaluator only adds honest steps at the statements of the program.  The function that
a statement declares must be bound, unless the statement stands alone. -/
def Faithful (p : Program) (L : RunLimits) (calls : Nat) (w : Walker) : Prop :=
  ∀ s (K : Stock p.region) (names : List String), p.region.has (.stmt s) →
    (∀ name, s.functionName? = some name → name ∈ names ∨ p.StandsAlone s) →
    Truthful p L calls K names (w.exec s)

/-! ### Sequences -/

theorem mem_hoistedNames {body : List Stmt} {s : Stmt} (hs : s ∈ body) {name : String}
    (hname : s.functionName? = some name) : name ∈ hoistedNames body :=
  List.mem_filterMap.2 ⟨s, hs, hname⟩

section
variable {w : Walker} (hw : Faithful p L calls w) {body : List Stmt}
include hw

theorem execAll_truthful (hb : ∀ s ∈ body, p.region.has (.stmt s))
    (hbound : ∀ s ∈ body, ∀ name, s.functionName? = some name → name ∈ names) :
    Truthful p L calls K names (w.execAll body) := by
  induction body generalizing K with
  | nil => exact .pure (by simp [Carries.within])
  | cons s rest ih =>
    have hfirst : Truthful p L calls K names (w.exec s) :=
      hw s K names (hb s List.mem_cons_self) fun name h =>
        .inl (hbound s List.mem_cons_self name h)
    unfold Walker.execAll
    -- What is bound stays bound, so the rest begins with the same names.
    refine hfirst.bind fun c K' _ hc => ?_
    cases c with
    | normal =>
      exact ih (fun s' h => hb s' (List.mem_cons_of_mem _ h)) fun s' h =>
        hbound s' (List.mem_cons_of_mem _ h)
    | _ => exact .pure hc

theorem execUntilReturn_truthful (hb : ∀ s ∈ body, p.region.has (.stmt s))
    (hbound : ∀ s ∈ body, ∀ name, s.functionName? = some name → name ∈ names) :
    Truthful p L calls K names (w.execUntilReturn body) := by
  induction body generalizing K with
  | nil => exact .pure (K.plain trivial)
  | cons s rest ih =>
    have hfirst : Truthful p L calls K names (w.exec s) :=
      hw s K names (hb s List.mem_cons_self) fun name h =>
        .inl (hbound s List.mem_cons_self name h)
    unfold Walker.execUntilReturn
    refine hfirst.bind fun c K' _ hc => ?_
    have hrest : Truthful p L calls K' names (w.execUntilReturn rest) :=
      ih (fun s' h => hb s' (List.mem_cons_of_mem _ h)) fun s' h =>
        hbound s' (List.mem_cons_of_mem _ h)
    cases c with
    | ret v => exact .pure (hc v rfl)
    | _ => exact hrest

theorem execTop_truthful (hb : ∀ s ∈ body, p.region.has (.stmt s))
    (hbound : ∀ s ∈ body, ∀ name, s.functionName? = some name → name ∈ names) :
    Truthful p L calls K names (execTop w body) := by
  induction body generalizing K with
  | nil => exact .pure trivial
  | cons s rest ih =>
    have hfirst : Truthful p L calls K names (w.exec s) :=
      hw s K names (hb s List.mem_cons_self) fun name h =>
        .inl (hbound s List.mem_cons_self name h)
    unfold execTop
    refine hfirst.bind fun c K' _ _ => ?_
    have hrest : Truthful p L calls K' names (execTop w rest) :=
      ih (fun s' h => hb s' (List.mem_cons_of_mem _ h)) fun s' h =>
        hbound s' (List.mem_cons_of_mem _ h)
    cases c with
    | ret v => exact .pure trivial
    | _ => exact hrest

/-- A part of a statement that stands in no list. -/
theorem lone_truthful {outer s : Stmt} (houter : p.region.has (.stmt outer))
    (hs : p.region.has (.stmt s)) (hlone : s ∈ outer.lone) :
    Truthful p L calls K names (w.exec s) :=
  hw s K names hs fun _ _ => .inr ⟨outer, houter, hlone⟩

end

section
variable (hbodies : ∀ inner, calls = inner + 1 → HonestBodies p L inner)
include hbodies

theorem eval_truthful {e : Expr} (he : p.region.has (.expr e)) :
    Truthful p L calls K names ((walker fuel).eval e) :=
  .of_acts ((straight_walks p.region fuel).eval (Region.straight_expr he) K) hbodies

/-- A list of statements, from the state in which its functions are bound. -/
theorem hoisted_truthful {α : Type} [Carries α] {body : List Stmt}
    (hb : ∀ s ∈ body, p.region.has (.stmt s)) {x : Run α}
    (hx : ∀ (K : Stock p.region) names', (∀ s ∈ body, ∀ name, s.functionName? = some name →
      name ∈ names') → Truthful p L calls K names' x) :
    Truthful p L calls K names (do hoist body; x) := by
  refine (Truthful.of_acts (hoist_acts hb) hbodies).bindNew (hoist_introduces hb)
    fun _ K' _ _ => ?_
  exact hx K' _ fun s hs name h => List.mem_append_left _ (mem_hoistedNames hs h)

theorem recordLoop_truthful {kind : StepKind} (hk : kind.isStraight = true)
    (title told : String) {loc : Location} (hloc : p.region.Place loc) :
    Truthful p L calls K names (recordLoop kind title told loc) :=
  .of_acts (recordLoop_acts hk title told hloc) hbodies

theorem testEnds_truthful (title : String) {test : Option Expr}
    (ht : ∀ e, test = some e → p.region.has (.expr e)) {loc : Location}
    (hloc : p.region.Place loc) :
    Truthful p L calls K names (testEnds (walker fuel) title test loc) :=
  .of_acts (testEnds_acts (straight_walks p.region fuel) title
    (fun e he => Region.straight_expr (ht e he)) hloc) hbodies

theorem declareName_truthful (kind : DeclKind) (name : String) {v : Value} (hv : K.has v) :
    Truthful p L calls K names (declareName kind name v) :=
  .of_acts (declareName_acts kind name hv) hbodies

theorem inspect_truthful (v : Value) : Truthful p L calls K names (inspect v) :=
  .of_acts (inspect_acts v) hbodies

/-! ### Single statements -/

/-- A variable is bound right before the step that tells of it. -/
theorem declareTold_truthful {kind : DeclKind} {ds : List Declarator} {loc : Location}
    (hs : p.region.has (.stmt (.declare kind ds loc))) {d : Declarator} (hd : d ∈ ds)
    {v : Value} (hv : K.has v) :
    Truthful p L calls K names (declareTold kind d.name loc v) := by
  refine (inspect_truthful hbodies v).andThen fun text => ?_
  refine (declareName_truthful hbodies kind d.name hv).bindNew
    (declareName_introduces kind d.name v)
    fun _ K' _ _ => ?_
  refine .record (by decide) (Region.place_stmt hs) fun m hbinds _ => ?_
  refine ⟨.declare kind ds loc, d.name, ⟨hs, rfl, List.mem_map_of_mem hd, text, rfl⟩, .inl ?_⟩
  exact (hbinds d.name List.mem_cons_self).step _ _ _

theorem execDeclarators_truthful {kind : DeclKind} {all : List Declarator} {loc : Location}
    (hs : p.region.has (.stmt (.declare kind all loc))) {ds : List Declarator}
    (hds : ∀ d ∈ ds, d ∈ all) :
    Truthful p L calls K names (execDeclarators (walker fuel) kind loc ds) := by
  induction ds generalizing K names with
  | nil => exact .pure trivial
  | cons d rest ih =>
    have hd : d ∈ all := hds d List.mem_cons_self
    have hpart : ∀ e, d.init = some e → Node.expr e ∈ (Stmt.declare kind all loc).parts :=
      fun e he =>
      Stmt.mem_parts_declare.2 ⟨d, hd, e, he, rfl⟩
    have hinitial : Truthful p L calls K names (initialValue (walker fuel) d) :=
      .of_acts (initialValue_acts (straight_walks p.region fuel) trivial fun e he =>
        Region.straight_expr (p.region.part hs (hpart e he))) hbodies
    rw [execDeclarators_cons]
    refine hinitial.bind fun v K' _ hv =>
      (declareTold_truthful hbodies hs hd hv).andThen fun _ => ?_
    exact ih fun d' h => hds d' (List.mem_cons_of_mem _ h)

theorem returnTold_truthful {loc : Location} (hloc : p.region.Place loc) {v : Value}
    (hv : K.has v) : Truthful p L calls K names (returnTold loc v) := by
  refine (inspect_truthful hbodies v).andThen fun text => ?_
  refine .andThen (.record (by decide) hloc fun _ _ =>
    Step.honest_of_kind (by decide : StepKind.return_ ≠ _))
    fun _ => ?_
  refine .andThen (.change (.setResult v) (by simpa [Change.values] using hv) trivial)
    fun _ => .pure fun u hu => ?_
  cases hu
  exact hv

theorem execReturn_truthful {value : Option Expr}
    (he : ∀ e, value = some e → p.region.has (.expr e)) {loc : Location}
    (hloc : p.region.Place loc) :
    Truthful p L calls K names (execReturn (walker fuel) value loc) := by
  rw [execReturn_eq]
  cases value with
  | none => exact returnTold_truthful hbodies hloc (K.plain trivial)
  | some e =>
    exact (eval_truthful hbodies (he e rfl)).bind fun v K' _ hv =>
      returnTold_truthful hbodies hloc hv

theorem execRaise_truthful {e : Expr} (he : p.region.has (.expr e)) {loc : Location}
    (hloc : p.region.Place loc) :
    Truthful p L calls K names (execRaise (walker fuel) e loc) :=
  .of_acts
    (execRaise_acts (straight_walks p.region fuel) (Region.straight_expr he) hloc) hbodies

variable (hw : Faithful p L calls (walker fuel))
include hw

theorem execBlock_truthful {body : List Stmt} (hb : ∀ s ∈ body, p.region.has (.stmt s))
    (name : String) : Truthful p L calls K names (execBlock (walker fuel) body name) := by
  rw [execBlock_eq]
  exact .block
    (hoisted_truthful hbodies hb fun _ _ hbound => execAll_truthful hw hb hbound) name

theorem execIf_truthful {test : Expr} {yes : Stmt} {no : Option Stmt} {loc : Location}
    (hs : p.region.has (.stmt (.ifElse test yes no loc))) :
    Truthful p L calls K names (execIf (walker fuel) test yes no loc) := by
  have hloc : p.region.Place loc := Region.place_stmt hs
  refine (eval_truthful hbodies (p.region.part hs List.mem_cons_self)).andThen fun v => ?_
  refine (inspect_truthful hbodies v).andThen fun text => ?_
  refine .andThen (.record (by decide) hloc fun _ _ =>
    Step.honest_of_kind (by decide : StepKind.branch ≠ _))
    fun _ => ?_
  split
  · exact lone_truthful hw hs
      (p.region.part hs (by simp [Node.parts, Stmt.parts])) List.mem_cons_self
  · cases no with
    | none => exact .pure (by simp [Carries.within])
    | some s =>
      exact lone_truthful hw hs (p.region.part hs (by simp [Node.parts, Stmt.parts]))
        (by simp [Stmt.lone])

theorem execTry_truthful {body : List Stmt} (hb : ∀ s ∈ body, p.region.has (.stmt s))
    {finalizer : Option (List Stmt)}
    (hf : ∀ last, finalizer = some last → ∀ s ∈ last, p.region.has (.stmt s)) :
    Truthful p L calls K names (execTry (walker fuel) body finalizer) := by
  refine (execBlock_truthful hbodies hw hb "try").bind fun c K₁ _ hc => ?_
  cases finalizer with
  | none => exact .pure hc
  | some last =>
    refine (execBlock_truthful hbodies hw (hf last rfl) "finally").bind fun c' K₂ h₂ hc' => ?_
    cases c' with
    | normal => exact .pure (Carries.mono h₂ hc)
    | _ => exact .pure hc'

/-! ### Loops -/

/-- A body that is a block is a list of statements, and any other stands alone. -/
theorem loopBody_truthful {outer body : Stmt} (houter : p.region.has (.stmt outer))
    (hb : p.region.has (.stmt body)) (hlone : body ∈ outer.lone) :
    Truthful p L calls K names (loopBody (walker fuel) body) := by
  cases body with
  | block statements l =>
    have hs : ∀ s ∈ statements, p.region.has (.stmt s) :=
      fun s h => p.region.part hb (List.mem_map_of_mem h)
    exact hoisted_truthful hbodies hs fun _ _ hbound => execAll_truthful hw hs hbound
  | _ => exact lone_truthful hw houter hb hlone

theorem loopRound_truthful {title told : String} {loc : Location} (hloc : p.region.Place loc)
    {outer body : Stmt} (houter : p.region.has (.stmt outer)) (hb : p.region.has (.stmt body))
    (hlone : body ∈ outer.lone) {next : Run Completion}
    (hnext : ∀ K' : Stock p.region, K ≤ K' → Truthful p L calls K' names next) :
    Truthful p L calls K names (loopRound (walker fuel) title told body loc next) := by
  refine (recordLoop_truthful hbodies (by decide) _ _ hloc).andThen fun _ => ?_
  refine (loopBody_truthful hbodies hw houter hb hlone).bind fun c K₁ h₁ hc => ?_
  refine Truthful.bind (.of_acts (afterRound_acts title hloc hc) hbodies)
    fun last K₂ h₂ hlast => ?_
  cases last with
  | some c' => exact .pure (hlast c' rfl)
  | none => exact hnext K₂ (Stock.le_trans h₁ h₂)

/-- A loop with the condition first is a statement of the program. -/
structure TestedLoop.Of (l : TestedLoop) (p : Program) (outer : Stmt) : Prop where
  has : p.region.has (.stmt outer)
  test : ∀ e, l.test = some e → Node.expr e ∈ outer.parts
  update : ∀ e, l.update = some e → Node.expr e ∈ outer.parts
  body : Node.stmt l.body ∈ outer.parts
  lone : l.body ∈ outer.lone
  loc_eq : outer.loc = l.loc

theorem TestedLoop.rounds_truthful {l : TestedLoop} {outer : Stmt} (hl : l.Of p outer)
    (left done : Nat) : Truthful p L calls K names (l.rounds (walker fuel) left done) := by
  have hloc : p.region.Place l.loc := hl.loc_eq ▸ Region.place_stmt hl.has
  have htest : ∀ e, l.test = some e → p.region.has (.expr e) :=
    fun e he => p.region.part hl.has (hl.test e he)
  induction left generalizing K done with
  | zero =>
    unfold TestedLoop.rounds
    refine (testEnds_truthful hbodies l.title htest hloc).andThen fun ended => ?_
    split
    · exact .pure (by simp [Carries.within])
    · exact .fail hloc
  | succ left ih =>
    unfold TestedLoop.rounds
    refine (testEnds_truthful hbodies l.title htest hloc).andThen fun ended => ?_
    split
    · exact .pure (by simp [Carries.within])
    · refine loopRound_truthful hbodies hw hloc hl.has (p.region.part hl.has hl.body) hl.lone
        fun K' _ => ?_
      cases hu : l.update with
      | none => exact ih _
      | some e =>
        exact (eval_truthful hbodies (p.region.part hl.has (hl.update e hu))).andThen
          fun _ => ih _

theorem testedLoop_truthful {l : TestedLoop} {outer : Stmt} (hl : l.Of p outer) :
    Truthful p L calls K names (testedLoop (walker fuel) l) := by
  have hloc : p.region.Place l.loc := hl.loc_eq ▸ Region.place_stmt hl.has
  unfold testedLoop
  refine (recordLoop_truthful hbodies (by decide) _ _ hloc).andThen fun _ => ?_
  exact .ceilings fun _ => TestedLoop.rounds_truthful hbodies hw hl _ 0

theorem trailingRounds_truthful {body : Stmt} {test : Expr} {loc : Location}
    (hs : p.region.has (.stmt (.doWhile body test loc))) (left done : Nat) :
    Truthful p L calls K names (trailingRounds (walker fuel) body test loc left done) := by
  have hloc : p.region.Place loc := Region.place_stmt hs
  induction left generalizing K done with
  | zero => exact .fail hloc
  | succ left ih =>
    refine loopRound_truthful hbodies hw hloc hs
      (p.region.part hs (by simp [Node.parts, Stmt.parts])) List.mem_cons_self fun K' _ => ?_
    refine (testEnds_truthful hbodies _ (fun e he => ?_) hloc).andThen fun ended => ?_
    · cases he
      exact p.region.part hs List.mem_cons_self
    split
    · exact .pure (by simp [Carries.within])
    · exact ih _

theorem trailingLoop_truthful {body : Stmt} {test : Expr} {loc : Location}
    (hs : p.region.has (.stmt (.doWhile body test loc))) :
    Truthful p L calls K names (trailingLoop (walker fuel) body test loc) := by
  unfold trailingLoop
  refine (recordLoop_truthful hbodies (by decide) _ _ (Region.place_stmt hs)).andThen
    fun _ => ?_
  exact .ceilings fun _ => trailingRounds_truthful hbodies hw hs _ 0

theorem elementRounds_truthful {kind : DeclKind} {name : String} {iterable : Expr}
    {body : Stmt} {loc : Location}
    (hs : p.region.has (.stmt (.forOf kind name iterable body loc))) {elements : List Value}
    (he : ∀ v ∈ elements, K.has v) (done : Nat) :
    Truthful p L calls K names
      (elementRounds (walker fuel) kind name body loc done elements) := by
  have hloc : p.region.Place loc := Region.place_stmt hs
  induction elements generalizing K done with
  | nil =>
    unfold elementRounds
    exact (recordLoop_truthful hbodies (by decide) _ _ hloc).andThen fun _ =>
      .pure (by simp [Carries.within])
  | cons v rest ih =>
    unfold elementRounds
    refine .ceilings fun L' => ?_
    dsimp only
    split
    · rw [Run.failAt_bind]
      exact .fail hloc
    · refine (declareName_truthful hbodies kind name (he v List.mem_cons_self)).andThen
        fun _ => ?_
      refine loopRound_truthful hbodies hw hloc hs
        (p.region.part hs (by simp [Node.parts, Stmt.parts])) List.mem_cons_self
        fun K' hK => ?_
      exact ih (fun v' h => hK v' (he v' (List.mem_cons_of_mem _ h))) _

theorem elementLoop_truthful {kind : DeclKind} {name : String} {iterable : Expr} {body : Stmt}
    {loc : Location} (hs : p.region.has (.stmt (.forOf kind name iterable body loc))) :
    Truthful p L calls K names (elementLoop (walker fuel) kind name iterable body loc) := by
  have hi : p.region.has (.expr iterable) := p.region.part hs List.mem_cons_self
  unfold elementLoop
  refine (eval_truthful hbodies hi).andThen fun v => ?_
  refine Truthful.bind (.of_acts (iterableElements_acts v (Region.place_expr hi)) hbodies)
    fun elements K' _ he => ?_
  refine (recordLoop_truthful hbodies (by decide) _ _ (Region.place_stmt hs)).andThen
    fun _ => ?_
  exact elementRounds_truthful hbodies hw hs he 0

theorem execFor_truthful {init : Option Stmt} {test update : Option Expr} {body : Stmt}
    {loc : Location} (hs : p.region.has (.stmt (.forLoop init test update body loc))) :
    Truthful p L calls K names (execFor (walker fuel) init test update body loc) := by
  have hl : (TestedLoop.mk "For" test update body loc).Of p
      (.forLoop init test update body loc) := by
    refine ⟨hs, fun e he => ?_, fun e he => ?_, List.mem_cons_self, List.mem_cons_self, rfl⟩
    · simpa [Stmt.parts] using .inl he
    · simpa [Stmt.parts] using .inr he
  refine .block ?_ _
  cases init with
  | none => exact testedLoop_truthful hbodies hw hl
  | some s =>
    have hfirst : Truthful p L calls K names ((walker fuel).exec s) :=
      lone_truthful hw hs (p.region.part hs (by simp [Node.parts, Stmt.parts]))
        (by simp [Stmt.lone])
    exact hfirst.andThen fun _ => testedLoop_truthful hbodies hw hl

theorem execWhile_truthful {test : Expr} {body : Stmt} {loc : Location}
    (hs : p.region.has (.stmt (.whileLoop test body loc))) :
    Truthful p L calls K names (execWhile (walker fuel) test body loc) := by
  have hl :
      (TestedLoop.mk "While" (some test) none body loc).Of p (.whileLoop test body loc) := by
    refine ⟨hs, fun e he => ?_, nofun, by simp [Stmt.parts], List.mem_cons_self, rfl⟩
    cases he
    exact List.mem_cons_self
  exact .block (testedLoop_truthful hbodies hw hl) _

/-! ### All statements -/

theorem execStmt_truthful {s : Stmt} (hs : p.region.has (.stmt s))
    (hbound : ∀ name, s.functionName? = some name → name ∈ names ∨ p.StandsAlone s) :
    Truthful p L calls K names (execStmt (walker fuel) s) := by
  have hloc : p.region.Place s.loc := Region.place_stmt hs
  have hpart : ∀ n ∈ s.parts, p.region.has n := fun n hn => p.region.part hs hn
  have hnormal : Truthful p L calls K names (pure Completion.normal) :=
    .pure (by simp [Carries.within])
  refine .andThen (.change (.moveTo s.loc) (by simp [Change.values]) hloc) fun _ => ?_
  cases s with
  | declare kind ds l =>
    exact (execDeclarators_truthful hbodies hs fun _ h => h).andThen fun _ => hnormal
  | function r l =>
    dsimp only
    split
    · next name hname =>
      -- The list around the statement has bound the name, unless there is no list.
      refine .andThen (.record (by decide) hloc fun m hbinds _ => ?_) fun _ => hnormal
      refine ⟨.function r l, name, ⟨hs, rfl, hname, rfl⟩, ?_⟩
      exact (hbound name hname).imp (fun h => (hbinds name h).step _ _ _) fun h => ⟨h, hname⟩
    · exact hnormal
  | expr e l =>
    exact (eval_truthful hbodies (hpart _ List.mem_cons_self)).andThen fun _ => hnormal
  | ret value l =>
    exact execReturn_truthful hbodies (fun e he => hpart _ (by simp [Stmt.parts, he])) hloc
  | ifElse test yes no l => exact execIf_truthful hbodies hw hs
  | forLoop init test update body l => exact execFor_truthful hbodies hw hs
  | forOf kind name iterable body l => exact .block (elementLoop_truthful hbodies hw hs) _
  | whileLoop test body l => exact execWhile_truthful hbodies hw hs
  | doWhile body test l => exact .block (trailingLoop_truthful hbodies hw hs) _
  | breakOut l =>
    exact .andThen (.record (by decide) hloc fun _ _ =>
      Step.honest_of_kind (by decide : StepKind.branch ≠ _))
      fun _ => .pure (by simp [Carries.within])
  | nextRound l =>
    exact .andThen (.record (by decide) hloc fun _ _ =>
      Step.honest_of_kind (by decide : StepKind.branch ≠ _))
      fun _ => .pure (by simp [Carries.within])
  | raise e l => exact execRaise_truthful hbodies (hpart _ List.mem_cons_self) hloc
  | block body l =>
    exact execBlock_truthful hbodies hw (fun s h => hpart _ (List.mem_map_of_mem h)) _
  | tryBlock body handler finalizer l =>
    refine execTry_truthful hbodies hw (fun s h => hpart _ ?_) fun last hlast s h =>
      hpart _ ?_
    · exact Stmt.mem_parts_tryBlock.2 ⟨s, rfl, .inl h⟩
    · exact Stmt.mem_parts_tryBlock.2 ⟨s, rfl, .inr (.inr ⟨last, hlast, h⟩)⟩
  | empty l => exact hnormal

omit hw in
/-- The evaluator is truthful at all statements of a program, if the bodies of functions that
they call are. -/
theorem exec_faithful (fuel : Nat) : Faithful p L calls (walker fuel) := by
  induction fuel with
  | zero => exact fun _ _ _ _ _ => .throw trivial
  | succ fuel ih => exact fun s K names hs hbound => execStmt_truthful hbodies ih hs hbound

omit hw in
theorem callBody_truthful {r : Routine} (hr : p.region.has (.routine r)) {this : Option Value}
    (ht : ∀ v, this = some v → K.has v) (fuel : Nat) :
    Truthful p L calls K [] (callBody (walker fuel) r this) := by
  have hrun : Truthful p L calls K [] ((walker fuel).runBody r.body) := by
    have hbody : ∀ n ∈ r.body.parts, p.region.has n :=
      fun n hn => p.region.part hr (List.mem_append_right _ hn)
    cases hb : r.body with
    | block statements =>
      rw [hb] at hbody
      have hs : ∀ s ∈ statements, p.region.has (.stmt s) :=
        fun s h => hbody _ (List.mem_map_of_mem h)
      exact hoisted_truthful hbodies hs fun _ _ hbound =>
        execUntilReturn_truthful (exec_faithful hbodies fuel) hs hbound
    | value e =>
      rw [hb] at hbody
      exact eval_truthful hbodies (hbody _ List.mem_cons_self)
  unfold callBody
  cases this with
  | none => exact hrun
  | some receiver =>
    dsimp only
    split
    · exact (declareName_truthful hbodies _ _ (ht receiver rfl)).andThen fun _ => hrun
    · exact hrun

end

/-- The bodies of all functions of a program are truthful, however many calls the ceiling
still allows. -/
theorem honestBodies (p : Program) (L : RunLimits) (calls : Nat) :
    HonestBodies p L calls := by
  -- By how many calls fit inside the body: in each of them one less does.
  induction calls with
  | zero =>
    have hnone : ∀ inner, 0 = inner + 1 → HonestBodies p L inner := fun _ hinner =>
      absurd hinner.symm (Nat.succ_ne_zero _)
    exact fun fuel r this K hr ht => callBody_truthful hnone hr ht fuel
  | succ calls ih =>
    refine fun fuel r this K hr ht => callBody_truthful (fun inner hinner => ?_) hr ht fuel
    obtain rfl := Nat.succ.inj hinner
    exact ih

/-! ### Whole runs -/

theorem runProgram_truthful (p : Program) (L : RunLimits) (calls fuel : Nat)
    (K : Stock p.region) : Truthful p L calls K [] (runProgram fuel p) := by
  have hb : ∀ s ∈ p.body, p.region.has (.stmt s) := fun _ hs => Program.region_stmt hs
  have hbodies : ∀ inner, calls = inner + 1 → HonestBodies p L inner :=
    fun inner _ => honestBodies p L inner
  exact hoisted_truthful hbodies hb fun _ _ hbound =>
    execTop_truthful (exec_faithful hbodies fuel) hb hbound

/-- A step of a declaration does not lie.  In every run of every program it tells of a
statement of the program, where the step points, that declares a name, and some scope that it
shows binds the name; only a function that is itself a branch or the body of a loop, without a
block around it, need not be bound. -/
theorem Execution.declarations_bound {L : RunLimits} {fuel : Nat} {p : Program}
    {e : Execution} (he : Execution.ofProgram? L fuel p = some e) :
    ∀ s ∈ e.steps, s.kind = .declaration →
      ∃ t name, s.Declares p t name ∧
        (s.Binds name ∨ p.StandsAlone t ∧ t.functionName? = some name) := by
  have hstart : (Machine.initial L).Ready p L L.maxCallDepth
      ((Discipline.scoping p).stock (.initial L)) [] := by
    refine ⟨⟨Machine.formed_initial _ L, fun _ => rfl⟩, Stock.le_refl _,
      Nat.le_add_left _ _, ?_, ?_⟩
    · exact fun _ hname => absurd hname List.not_mem_nil
    · exact fun _ hs => absurd hs List.not_mem_nil
  have hend : (runFrom L fuel p).2.Honest p := by
    rw [runFrom_eq]
    exact (runProgram_truthful p L L.maxCallDepth fuel _).honest _ hstart
  obtain ⟨m, hsteps, hm⟩ := Execution.exists_machine he
  have hhonest : m.Honest p := by
    rcases hm with rfl | ⟨loc, description, rfl⟩
    · exact hend
    · exact hend.recorded (Step.honest_of_kind (by decide : StepKind.error ≠ _))
  rw [hsteps]
  exact fun s hs => hhonest s (List.mem_reverse.1 hs)

/-- A function in a block that is a branch, with a variable of its own. -/
def braced : String :=
  "if (true) \x7b function f() \x7b var x = 1; \x7d f(); \x7d"

/-- Both steps of declarations show the names bound that they tell of. -/
theorem braced_declarations_bound :
    ∃ p e, parseProgram braced = .ok p ∧ Execution.ofProgram? {} 20 p = some e ∧
    (e.steps.filter (·.kind = .declaration)).map (·.description) =
      ["Function f declared", "Declare var x = 1"] ∧
    ∀ s ∈ e.steps, s.kind = .declaration →
      ∃ t name, s.Declares p t name ∧
        (s.Binds name ∨ p.StandsAlone t ∧ t.functionName? = some name) := by
  have hrun : (parseProgram braced).toOption.any
    (fun p => (Execution.ofProgram? {} 20 p).any fun e =>
      (e.steps.filter (·.kind = .declaration)).map (·.description) =
        ["Function f declared", "Declare var x = 1"]) = true := by
    decide +kernel
  obtain ⟨p, hp, hrun⟩ := exists_parsed hrun
  obtain ⟨e, he, hwords⟩ := (Option.any_eq_true _ _).1 hrun
  exact ⟨p, e, hp, he, of_decide_eq_true hwords, Execution.declarations_bound he⟩

/-- A function that is a branch itself. -/
def unbraced : String :=
  "if (true) function f() \x7b\x7d"

/-- The function is told of as declared, and no scope binds its name. -/
theorem unbraced_unbound :
    ∃ p e s, parseProgram unbraced = .ok p ∧ Execution.ofProgram? {} 20 p = some e ∧
    s ∈ e.steps ∧ s.kind = .declaration ∧
      s.description = "Function f declared" ∧ ¬ s.Binds "f" := by
  have hrun : (parseProgram unbraced).toOption.any
    (fun p => (Execution.ofProgram? {} 20 p).any fun e =>
      e.steps.any fun s =>
        decide (s.kind = .declaration) && decide (s.description = "Function f declared") &&
        s.scopes.all fun scope => !scope.vars.contains "f") = true := by
    decide +kernel
  obtain ⟨p, hp, hrun⟩ := exists_parsed hrun
  obtain ⟨e, he, hany⟩ := (Option.any_eq_true _ _).1 hrun
  obtain ⟨s, hs, hstep⟩ := List.any_eq_true.1 hany
  obtain ⟨htold, hnone⟩ := (Bool.and_eq_true _ _).mp hstep
  obtain ⟨hkind, hwords⟩ := (Bool.and_eq_true _ _).mp htold
  refine ⟨p, e, s, hp, he, hs, of_decide_eq_true hkind, of_decide_eq_true hwords, ?_⟩
  rintro ⟨scope, hscope, hbinds⟩
  have hfree := List.all_eq_true.1 hnone scope hscope
  rw [hbinds] at hfree
  cases hfree

end ScriptReplay
