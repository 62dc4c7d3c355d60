/-
The actions of statements and whole programs.

* `execStmt_acts` : every statement of a region is executed by actions, given that
  its parts are;
* `walker_acts` : so are all nodes of a region, by evaluators with different fuel;
* `straight_walks` : the actions of expressions alone;
* `runProgram_acts` : so are programs.

Design notes: a loop that stops at its ceiling while a second one goes on needs the second
one's walker on both sides, so the inductions over rounds leave the first walker open.
-/
import ScriptReplay.Proofs.Actions.Eval
import ScriptReplay.Run.Execution

namespace ScriptReplay

variable {G : Gap} {N : Region} {S : Ground N} {K : Stock N} {w w' : Walker} {loc : Location}

/-! ### Parts of loops -/

theorem loopBody_acts (hw : Walks G S w w') {body : Stmt} (hb : S.has (.stmt body)) :
    Acts G K (loopBody w body) (loopBody w' body) := by
  cases body with
  | block statements l =>
    have hs : ∀ s ∈ statements, S.has (.stmt s) :=
      fun s h => S.stmtPart hb (List.mem_map_of_mem h)
    exact .andThen (hoist_acts fun s h => S.region (hs s h)) fun _ => execAll_acts hw hs
  | _ => exact hw.exec hb K

theorem recordLoop_acts {kind : StepKind} (hk : kind.isStraight = true) (title told : String)
    (hloc : N.Place loc) :
    Acts G K (recordLoop kind title told loc) (recordLoop kind title told loc) :=
  .record (.of_kind hk) hloc

theorem afterRound_acts (title : String) (hloc : N.Place loc) {c : Completion}
    (hc : Carries.within K.has c) :
    Acts G K (afterRound title loc c) (afterRound title loc c) := by
  have hany : ∀ (K : Stock N) (c : Completion), Carries.within K.has c →
      Acts G K (pure (some c) : Run (Option Completion)) (pure (some c)) :=
    fun K c hc => .pure fun d hd => by
      cases hd
      exact hc
  cases c with
  | breakOut =>
    refine .andThen (recordLoop_acts (by decide) _ _ hloc) fun _ => ?_
    exact hany K .normal (by simp [Carries.within])
  | ret v => exact hany K _ hc
  | normal => exact .pure (by simp [Carries.within])
  | nextRound => exact .pure (by simp [Carries.within])

theorem testEnds_acts (hw : Walks G S w w') (title : String) {test : Option Expr}
    (ht : ∀ e, test = some e → S.has (.expr e)) (hloc : N.Place loc) :
    Acts G K (testEnds w title test loc) (testEnds w' title test loc) := by
  cases test with
  | none => exact .pure trivial
  | some e =>
    refine .andThen (hw.eval (ht e rfl) K) fun v => ?_
    split
    · exact .pure trivial
    · exact .andThen (recordLoop_acts (by decide) _ _ hloc) fun _ => .pure trivial

/-- A round of a loop, and what follows unless it was the last. -/
def loopRound (w : Walker) (title told : String) (body : Stmt) (loc : Location)
    (next : Run Completion) : Run Completion := do
  recordLoop .loopIteration title told loc
  match ← afterRound title loc (← loopBody w body) with
  | some c => return c
  | none => next

theorem loopRound_acts (hw : Walks G S w w') (title told : String) {body : Stmt}
    (hb : S.has (.stmt body)) (hloc : N.Place loc) {next next' : Run Completion}
    (hnext : ∀ K' : Stock N, K ≤ K' → Acts G K' next next') :
    Acts G K (loopRound w title told body loc next)
      (loopRound w' title told body loc next') := by
  refine .andThen (recordLoop_acts (by decide) _ _ hloc) fun _ => ?_
  refine .bind (loopBody_acts hw hb) fun c K₁ h₁ hc => ?_
  refine .bind (afterRound_acts title hloc hc) fun last K₂ h₂ hlast => ?_
  cases last with
  | some c => exact .pure (hlast c rfl)
  | none => exact hnext K₂ (Stock.le_trans h₁ h₂)

/-! ### Loops with a condition -/

/-- How many rounds a loop may still have in two runs: as many, or in the second as
many or more. -/
def Gap.Rounds (G : Gap) (left left' : Nat) : Prop :=
  left = left' ∨ G = .raised ∧ left ≤ left'

theorem Gap.Between.rounds {L L' : RunLimits} (h : G.Between L L') :
    G.Rounds L.maxLoopIterations L'.maxLoopIterations := by
  have hsteps : ∀ (L : RunLimits) n,
      { L with maxSteps := n }.maxLoopIterations = L.maxLoopIterations :=
    fun _ _ => rfl
  rcases h.eq_or_raised hsteps with heq | hG
  · exact .inl heq
  · exact .inr ⟨hG, h.le.maxLoopIterations⟩

theorem Gap.Rounds.pred {left left' : Nat} (h : G.Rounds (left + 1) (left' + 1)) :
    G.Rounds left left' := by
  rcases h with h | ⟨hG, h⟩
  · exact .inl (Nat.succ_inj.1 h)
  · exact .inr ⟨hG, Nat.le_of_succ_le_succ h⟩

theorem Gap.Rounds.eq_zero {left : Nat} (h : G.Rounds left 0) : left = 0 := by
  rcases h with h | ⟨-, h⟩
  · exact h
  · exact Nat.le_zero.1 h

/-- The parts of a loop belong to the ground, and the loop stands in the region. -/
structure TestedLoop.Within (l : TestedLoop) {N : Region} (S : Ground N) : Prop where
  test : ∀ e, l.test = some e → S.has (.expr e)
  update : ∀ e, l.update = some e → S.has (.expr e)
  body : S.has (.stmt l.body)
  place : N.Place l.loc

/-- The update of such a loop, and what follows it. -/
def TestedLoop.updateThen (l : TestedLoop) (w : Walker) (next : Run Completion) :
    Run Completion := do
  if let some e := l.update then
    let _ ← w.eval e
  next

theorem TestedLoop.round_acts {l : TestedLoop} (hl : l.Within S) (hw : Walks G S w w')
    (told : String) {next next' : Run Completion}
    (hnext : ∀ K' : Stock N, Acts G K' next next') :
    Acts G K (loopRound w l.title told l.body l.loc (l.updateThen w next))
      (loopRound w' l.title told l.body l.loc (l.updateThen w' next')) := by
  refine loopRound_acts hw _ _ hl.body hl.place fun K' _ => ?_
  unfold TestedLoop.updateThen
  cases hu : l.update with
  | none => exact hnext K'
  | some e => exact .andThen (hw.eval (hl.update e hu) K') fun _ => hnext K'

theorem TestedLoop.rounds_acts (hw' : Walks G S w' w') {l : TestedLoop} (hl : l.Within S)
    (hw : Walks G S w w') {left left' : Nat} (hleft : G.Rounds left left') (done : Nat) :
    Acts G K (l.rounds w left done) (l.rounds w' left' done) := by
  induction left' generalizing K w left done with
  | zero =>
    obtain rfl := hleft.eq_zero
    unfold TestedLoop.rounds
    refine .andThen (testEnds_acts hw l.title hl.test hl.place) fun ended => ?_
    split
    · exact .pure (by simp [Carries.within])
    · exact .fail hl.place
  | succ left' ih =>
    unfold TestedLoop.rounds
    refine .andThen (testEnds_acts hw l.title hl.test hl.place) fun ended => ?_
    split
    · exact .pure (by simp [Carries.within])
    · cases left with
      | zero =>
        -- The first run meets its ceiling, and the second goes on by itself.
        rcases hleft with h | ⟨hG, -⟩
        · cases h
        · exact .stopAtCeiling hG rfl hl.place
            (TestedLoop.round_acts hl hw' _ fun _ => ih hw' (.inl rfl) _)
      | succ left => exact TestedLoop.round_acts hl hw _ fun _ => ih hw hleft.pred _

theorem testedLoop_acts (hw' : Walks G S w' w') (hw : Walks G S w w') {l : TestedLoop}
    (hl : l.Within S) : Acts G K (testedLoop w l) (testedLoop w' l) := by
  unfold testedLoop
  refine .andThen (recordLoop_acts (by decide) _ _ hl.place) fun _ => ?_
  exact .ceilings fun L L' hL _ _ => TestedLoop.rounds_acts hw' hl hw hL.rounds 0

theorem trailingRounds_acts (hw' : Walks G S w' w') {body : Stmt} (hb : S.has (.stmt body))
    {test : Expr} (ht : S.has (.expr test)) (hloc : N.Place loc) (hw : Walks G S w w')
    {left left' : Nat} (hleft : G.Rounds left left') (done : Nat) :
    Acts G K (trailingRounds w body test loc left done)
      (trailingRounds w' body test loc left' done) := by
  induction left' generalizing K w left done with
  | zero =>
    obtain rfl := hleft.eq_zero
    exact .fail hloc
  | succ left' ih =>
    -- Said of any first walker, since after a ceiling the second run is compared with itself.
    have hround : ∀ (v : Walker) (left : Nat) (K : Stock N),
        Walks G S v w' → G.Rounds left left' →
        Acts G K (trailingRounds v body test loc (left + 1) done)
          (trailingRounds w' body test loc (left' + 1) done) := by
      intro v left K hv hleft
      refine loopRound_acts hv _ _ hb hloc fun K' _ => ?_
      have htest : ∀ e, some test = some e → S.has (.expr e) := fun e he => by
        cases he
        exact ht
      refine .andThen (testEnds_acts hv _ htest hloc) fun ended => ?_
      split
      · exact .pure (by simp [Carries.within])
      · exact ih hv hleft _
    cases left with
    | zero =>
      rcases hleft with h | ⟨hG, -⟩
      · cases h
      · exact .stopAtCeiling hG rfl hloc (hround w' left' K hw' (.inl rfl))
    | succ left => exact hround w left K hw hleft.pred

theorem trailingLoop_acts (hw' : Walks G S w' w') (hw : Walks G S w w') {body : Stmt}
    (hb : S.has (.stmt body)) {test : Expr} (ht : S.has (.expr test)) (hloc : N.Place loc) :
    Acts G K (trailingLoop w body test loc) (trailingLoop w' body test loc) := by
  unfold trailingLoop
  refine .andThen (recordLoop_acts (by decide) _ _ hloc) fun _ => ?_
  exact .ceilings fun L L' hL _ _ => trailingRounds_acts hw' hb ht hloc hw hL.rounds 0

/-! ### Loops over elements -/

theorem iterableElements_acts (v : Value) (hloc : N.Place loc) :
    Acts G K (iterableElements v loc) (iterableElements v loc) := by
  cases v with
  | array id =>
    refine .look fun m m' K' e _ hm _ => ?_
    rw [e.heap]
    exact .pure fun u hu => hm u (Machine.holds_of_mem_elements (Array.mem_toList_iff.1 hu))
  | string s => exact .pure fun u hu => K.plain (isPlain_charValues hu)
  | _ => exact .andThen (inspect_acts _) fun _ => .fail hloc

/-- A failure at a ceiling on a number that grows, and what follows below the ceiling. -/
theorem guard_acts {limit : RunLimits → Nat} (cause : Cause) {n : Nat} {x y : Run Completion}
    (hlimit : ∀ L L' : RunLimits, L ≤ L' → limit L ≤ limit L')
    (hsteps : ∀ (L : RunLimits) n, limit { L with maxSteps := n } = limit L)
    (hc : cause.isLimit = true) (hloc : N.Place loc) (hxy : Acts G K x y)
    (hyy : Acts G K y y) :
    Acts G K
      (do if limit (← read) ≤ n then failAt cause loc
          x)
      (do if limit (← read) ≤ n then failAt cause loc
          y) := by
  have hfail : ∀ z : Run Completion,
      (failAt cause loc >>= fun _ : Unit => z) = failAt cause loc :=
    fun z => Run.ext fun _ _ => rfl
  refine .ceilings fun L L' hL _ _ => ?_
  dsimp only
  rw [hfail, hfail]
  by_cases h : limit L ≤ n
  · rw [if_pos h]
    rcases hL.eq_or_raised hsteps with heq | hG
    · rw [← heq, if_pos h]
      exact .fail hloc
    · -- Below its own ceiling the second run goes on alone.
      refine .stopAtCeiling hG hc hloc ?_
      by_cases h' : limit L' ≤ n
      · rw [if_pos h']
        exact .fail hloc
      · rw [if_neg h']
        exact hyy
  · have h' : ¬ limit L' ≤ n := fun h' => h (Nat.le_trans (hlimit L L' hL.le) h')
    rw [if_neg h, if_neg h']
    exact hxy

theorem elementRounds_acts (hw' : Walks G S w' w') (kind : DeclKind) (name : String)
    {body : Stmt} (hb : S.has (.stmt body)) (hloc : N.Place loc) (hw : Walks G S w w')
    {elements : List Value} (he : ∀ v ∈ elements, K.has v) (done : Nat) :
    Acts G K (elementRounds w kind name body loc done elements)
      (elementRounds w' kind name body loc done elements) := by
  induction elements generalizing K w done with
  | nil =>
    exact .andThen (recordLoop_acts (by decide) _ _ hloc) fun _ =>
      .pure (by simp [Carries.within])
  | cons v rest ih =>
    have hround : ∀ u : Walker, Walks G S u w' → Acts G K
        (do declareName kind name v
            loopRound u "For-of" ("iteration " ++ toString (done + 1)) body loc
              (elementRounds u kind name body loc (done + 1) rest))
        (do declareName kind name v
            loopRound w' "For-of" ("iteration " ++ toString (done + 1)) body loc
              (elementRounds w' kind name body loc (done + 1) rest)) := by
      intro u hu
      refine .andThen (declareName_acts kind name (he v List.mem_cons_self)) fun _ => ?_
      refine loopRound_acts hu _ _ hb hloc fun K' hK => ?_
      exact ih hu (fun v' h => hK v' (he v' (List.mem_cons_of_mem _ h))) _
    exact guard_acts .loopLimit (fun _ _ h => h.maxLoopIterations)
      (fun _ _ => rfl) rfl hloc (hround w hw) (hround w' hw')

theorem elementLoop_acts (hw' : Walks G S w' w') (hw : Walks G S w w') (kind : DeclKind)
    (name : String) {iterable : Expr} (hi : S.has (.expr iterable)) {body : Stmt}
    (hb : S.has (.stmt body)) (hloc : N.Place loc) :
    Acts G K (elementLoop w kind name iterable body loc)
      (elementLoop w' kind name iterable body loc) := by
  unfold elementLoop
  refine .andThen (hw.eval hi K) fun v => ?_
  refine .bind (iterableElements_acts v (Region.place_expr (S.region hi)))
    fun elements K' _ he => ?_
  refine .andThen (recordLoop_acts (by decide) _ _ hloc) fun _ => ?_
  exact elementRounds_acts hw' kind name hb hloc hw he 0

/-! ### Statements -/

/-- A block is a scope with hoisted functions and statements in it. -/
theorem execBlock_eq (w : Walker) (body : List Stmt) (name : String) :
    execBlock w body name = inLoopScope name (do hoist body; w.execAll body) := by
  unfold execBlock inLoopScope
  simp only [bind_assoc]

theorem execBlock_acts (hw : Walks G S w w') {body : List Stmt}
    (hb : ∀ s ∈ body, S.has (.stmt s)) (name : String) :
    Acts G K (execBlock w body name) (execBlock w' body name) := by
  rw [execBlock_eq, execBlock_eq]
  exact .block
    (.andThen (hoist_acts fun s h => S.region (hb s h)) fun _ => execAll_acts hw hb)

/-- What a declared variable starts with. -/
def initialValue (w : Walker) (d : Declarator) : Run Value :=
  match d.init with
  | some e => evalNamed w e d.name
  | none => pure .undefined

theorem initialValue_acts (hw : Walks G S w w') {d : Declarator}
    (hname : N.spans (unitCount d.name)) (hinit : ∀ e, d.init = some e → S.has (.expr e)) :
    Acts G K (initialValue w d) (initialValue w' d) := by
  unfold initialValue
  cases h : d.init with
  | none => exact .pure (K.plain trivial)
  | some e => exact evalNamed_acts hw (hinit e h) fun _ => hname

/-- Binds a declared variable, and tells of it. -/
def declareTold (kind : DeclKind) (name : String) (loc : Location) (v : Value) :
    Run Unit := do
  let text ← inspect v
  declareName kind name v
  record .declaration loc ("Declare " ++ kind.text ++ " " ++ name ++ " = " ++ text)

theorem declareTold_acts (hG : G ≠ .alone) (kind : DeclKind) (name : String)
    (hloc : N.Place loc) {v : Value} (hv : K.has v) :
    Acts G K (declareTold kind name loc v) (declareTold kind name loc v) := by
  refine .andThen (inspect_acts v) fun text => ?_
  refine .andThen (declareName_acts kind name hv) fun _ => ?_
  exact .record (.of_ordinary hG (.of_kind (by decide))) hloc

theorem execDeclarators_cons (w : Walker) (kind : DeclKind) (loc : Location) (d : Declarator)
    (rest : List Declarator) :
    execDeclarators w kind loc (d :: rest) =
      initialValue w d >>= fun v => declareTold kind d.name loc v >>= fun _ =>
        execDeclarators w kind loc rest := by
  rw [execDeclarators, initialValue]
  unfold declareTold
  cases d.init with
  | none => simp only [bind_assoc]
  | some e => simp only [bind_assoc]

theorem execDeclarators_acts (hG : G ≠ .alone) (hw : Walks G S w w') (kind : DeclKind)
    (hloc : N.Place loc) {ds : List Declarator}
    (hd : ∀ d ∈ ds, N.spans (unitCount d.name) ∧ ∀ e, d.init = some e → S.has (.expr e)) :
    Acts G K (execDeclarators w kind loc ds) (execDeclarators w' kind loc ds) := by
  induction ds generalizing K with
  | nil => exact .pure trivial
  | cons d rest ih =>
    obtain ⟨hname, hinit⟩ := hd d List.mem_cons_self
    rw [execDeclarators_cons, execDeclarators_cons]
    refine .bind (initialValue_acts hw hname hinit) fun v K' _ hv => ?_
    refine .andThen (declareTold_acts hG kind d.name hloc hv) fun _ => ?_
    exact ih fun d' h => hd d' (List.mem_cons_of_mem _ h)

/-- What a function returns, if it says so. -/
def returnedValue (w : Walker) : Option Expr → Run Value
  | some e => w.eval e
  | none => pure .undefined

/-- Tells of the value that a function returns, and leaves with it. -/
def returnTold (loc : Location) (v : Value) : Run Completion := do
  record .return_ loc ("Return " ++ (← inspect v))
  modify fun m => { m with stack := m.stack.setResult v }
  return .ret v

theorem returnTold_acts (hG : G ≠ .alone) (hloc : N.Place loc) {v : Value} (hv : K.has v) :
    Acts G K (returnTold loc v) (returnTold loc v) := by
  refine inspecting_acts v fun h => ?_
  refine .andThen (.record (.of_ordinary hG (ordinary_return h v)) hloc) fun _ => ?_
  refine .andThen (.change (.setResult v) (by simpa [Change.values] using hv) trivial trivial)
    fun _ => ?_
  refine .pure fun u hu => ?_
  cases hu
  exact hv

theorem execReturn_eq (w : Walker) (value : Option Expr) (loc : Location) :
    execReturn w value loc = returnedValue w value >>= returnTold loc := by
  cases value with
  | none => rfl
  | some e => rfl

theorem execReturn_acts (hG : G ≠ .alone) (hw : Walks G S w w') {value : Option Expr}
    (he : ∀ e, value = some e → S.has (.expr e)) (hloc : N.Place loc) :
    Acts G K (execReturn w value loc) (execReturn w' value loc) := by
  rw [execReturn_eq, execReturn_eq]
  cases value with
  | none => exact .bind (.pure (K.plain trivial)) fun v K' _ hv => returnTold_acts hG hloc hv
  | some e => exact .bind (hw.eval (he e rfl) K) fun v K' _ hv => returnTold_acts hG hloc hv

theorem execIf_acts (hG : G ≠ .alone) (hw : Walks G S w w') {test : Expr} {yes : Stmt}
    {no : Option Stmt} (ht : S.has (.expr test)) (hy : S.has (.stmt yes))
    (hn : ∀ s, no = some s → S.has (.stmt s)) (hloc : N.Place loc) :
    Acts G K (execIf w test yes no loc) (execIf w' test yes no loc) := by
  refine .andThen (hw.eval ht K) fun v => ?_
  refine .andThen (inspect_acts v) fun text => ?_
  refine .andThen (.record (.of_ordinary hG (.of_kind (by decide))) hloc) fun _ => ?_
  split
  · exact hw.exec hy K
  · cases no with
    | none => exact .pure (by simp [Carries.within])
    | some s => exact hw.exec (hn s rfl) K

theorem execRaise_acts (hw : Walks G S w w') {e : Expr} (he : S.has (.expr e))
    (hloc : N.Place loc) : Acts G K (execRaise w e loc) (execRaise w' e loc) := by
  refine .andThen (hw.eval he K) fun v => ?_
  dsimp only
  split
  · exact .andThen (plainOf_acts v) fun text => .fail hloc
  · exact .andThen (inspect_acts v) fun text => .fail hloc

theorem execTry_acts (hw : Walks G S w w') {body : List Stmt}
    (hb : ∀ s ∈ body, S.has (.stmt s)) {finalizer : Option (List Stmt)}
    (hf : ∀ last, finalizer = some last → ∀ s ∈ last, S.has (.stmt s)) :
    Acts G K (execTry w body finalizer) (execTry w' body finalizer) := by
  refine .bind (execBlock_acts hw hb "try") fun c K₁ _ hc => ?_
  cases finalizer with
  | none => exact .pure hc
  | some last =>
    refine .bind (execBlock_acts hw (hf last rfl) "finally") fun c' K₂ h₂ hc' => ?_
    -- The last block decides unless it ends normally.
    cases c' with
    | normal => exact .pure (Carries.mono h₂ hc)
    | _ => exact .pure hc'

theorem execFor_acts (hw' : Walks G S w' w') (hw : Walks G S w w') {init : Option Stmt}
    {test update : Option Expr} {body : Stmt}
    (h : ∀ n ∈ (Stmt.forLoop init test update body loc).parts, S.has n) (hloc : N.Place loc) :
    Acts G K (execFor w init test update body loc)
      (execFor w' init test update body loc) := by
  have hl : (TestedLoop.mk "For" test update body loc).Within S := by
    refine ⟨fun e he => h _ ?_, fun e he => h _ ?_, h _ List.mem_cons_self, hloc⟩
    · simpa [Stmt.parts] using .inl he
    · simpa [Stmt.parts] using .inr he
  refine .block ?_
  cases init with
  | none => exact testedLoop_acts hw' hw hl
  | some s =>
    refine .andThen (hw.exec (h _ ?_) K) fun _ => testedLoop_acts hw' hw hl
    simp [Stmt.parts]

theorem execStmt_acts (hG : G ≠ .alone) (hw' : Walks G S w' w') (hw : Walks G S w w')
    {s : Stmt} (hparts : ∀ n ∈ s.parts, S.has n) (hs : N.has (.stmt s)) :
    Acts G K (execStmt w s) (execStmt w' s) := by
  have hloc : N.Place s.loc := Region.place_stmt hs
  have hmove :
      Acts G K (modify (Change.moveTo s.loc).apply) (modify (Change.moveTo s.loc).apply) :=
    .change _ (by simp [Change.values]) trivial hloc
  refine .andThen hmove fun _ => ?_
  cases s with
  | declare kind ds l =>
    refine .andThen (execDeclarators_acts hG hw kind hloc fun d hd => ⟨?_, fun e he => ?_⟩)
      fun _ => ?_
    · exact N.word hs (List.mem_map_of_mem (f := fun d : Declarator => d.name) hd)
    · exact hparts _ (Stmt.mem_parts_declare.2 ⟨d, hd, e, he, rfl⟩)
    · exact .pure (by simp [Carries.within])
  | function r l =>
    dsimp only
    split
    · exact .andThen (.record (.of_ordinary hG (.of_kind (by decide))) hloc) fun _ =>
        .pure (by simp [Carries.within])
    · exact .pure (by simp [Carries.within])
  | expr e l =>
    exact .andThen (hw.eval (hparts _ List.mem_cons_self) K) fun _ =>
      .pure (by simp [Carries.within])
  | ret value l =>
    exact execReturn_acts hG hw (fun e he => hparts _ (by simp [Stmt.parts, he])) hloc
  | ifElse test yes no l =>
    exact execIf_acts hG hw (hparts _ (by simp [Stmt.parts]))
      (hparts _ (by simp [Stmt.parts])) (fun s h => hparts _ (by simp [Stmt.parts, h])) hloc
  | forLoop init test update body l => exact execFor_acts hw' hw hparts hloc
  | forOf kind name iterable body l =>
    exact .block (elementLoop_acts hw' hw kind name (hparts _ (by simp [Stmt.parts]))
      (hparts _ (by simp [Stmt.parts])) hloc)
  | whileLoop test body l =>
    refine .block (testedLoop_acts hw' hw
      ⟨fun e he => ?_, by simp, hparts _ (by simp [Stmt.parts]), hloc⟩)
    cases he
    exact hparts _ (by simp [Stmt.parts])
  | doWhile body test l =>
    exact .block (trailingLoop_acts hw' hw (hparts _ (by simp [Stmt.parts]))
      (hparts _ (by simp [Stmt.parts])) hloc)
  | breakOut l =>
    exact .andThen (.record (.of_ordinary hG (.of_kind (by decide))) hloc) fun _ =>
      .pure (by simp [Carries.within])
  | nextRound l =>
    exact .andThen (.record (.of_ordinary hG (.of_kind (by decide))) hloc) fun _ =>
      .pure (by simp [Carries.within])
  | raise e l => exact execRaise_acts hw (hparts _ List.mem_cons_self) hloc
  | block body l =>
    exact execBlock_acts hw (fun s h => hparts _ (List.mem_map_of_mem h)) "block"
  | tryBlock body handler finalizer l =>
    refine execTry_acts hw (fun s h => hparts _ ?_) fun last hlast s h => hparts _ ?_
    · exact Stmt.mem_parts_tryBlock.2 ⟨s, rfl, .inl h⟩
    · exact Stmt.mem_parts_tryBlock.2 ⟨s, rfl, .inr (.inr ⟨last, hlast, h⟩)⟩
  | empty l => exact .pure (by simp [Carries.within])

/-! ### Evaluators -/

/-- One level more of evaluation. -/
theorem Walks.succ (hG : G.FuelEnds) (hw' : Walks G N.ground w' w')
    (hw : Walks G N.ground w w') :
    Walks G N.ground ⟨evalExpr w, execStmt w⟩ ⟨evalExpr w', execStmt w'⟩ := by
  refine ⟨fun he _ => ?_, fun hs _ => ?_⟩
  · exact evalExpr_acts hw (fun _ => hw.enters hG) (fun _ hn => N.part he hn) he
  · exact execStmt_acts hG.ne_alone hw' hw (fun _ hn => N.part hs hn) hs

theorem walker_acts_self (hG : G.FuelEnds) (fuel : Nat) :
    Walks G N.ground (walker fuel) (walker fuel) := by
  induction fuel with
  | zero => exact ⟨fun _ _ => .noFuel hG.stops, fun _ _ => .noFuel hG.stops⟩
  | succ fuel ih => exact Walks.succ hG ih ih

/-- Evaluators with different fuel go through a region by the same actions, until the
first runs out. -/
theorem walker_acts (hG : G.FuelDiffers) {fuel fuel' : Nat} (h : fuel ≤ fuel') :
    Walks G N.ground (walker fuel) (walker fuel') := by
  have hself := walker_acts_self (N := N) hG.fuelEnds
  induction fuel' generalizing fuel with
  | zero =>
    obtain rfl := Nat.le_zero.1 h
    exact hself 0
  | succ fuel' ih =>
    -- Both have fuel for a level, or the first stops here.
    cases fuel with
    | zero =>
      refine ⟨fun he K => ?_, fun hs K => ?_⟩
      · exact .stopWithoutFuel hG ((hself (fuel' + 1)).eval he K)
      · exact .stopWithoutFuel hG ((hself (fuel' + 1)).exec hs K)
    | succ fuel => exact Walks.succ hG.fuelEnds (hself fuel') (ih (Nat.le_of_succ_le_succ h))

/-! ### Expressions alone -/

/-- The nodes of a region that are no statements. -/
def Region.straight (N : Region) : Ground N where
  has n := N.has n ∧ ∀ s, n ≠ .stmt s
  region hn := hn.1
  exprPart hn hpart := by
    refine ⟨N.part hn.1 hpart, ?_⟩
    rintro s rfl
    exact Expr.parts_ne_stmt hpart
  stmtPart hn _ := absurd rfl (hn.2 _)

theorem Region.straight_expr {e : Expr} (he : N.has (.expr e)) : N.straight.has (.expr e) :=
  ⟨he, nofun⟩

/-- The evaluator goes through expressions by actions that tell of no return, no break and no
declaration. -/
theorem straight_walks (N : Region) (fuel : Nat) :
    Walks .alone N.straight (walker fuel) (walker fuel) := by
  induction fuel with
  | zero => exact ⟨fun _ _ => .noFuel trivial, fun hs _ => absurd rfl (hs.2 _)⟩
  | succ fuel ih =>
    have hall : Walks .none N.ground (walker fuel) (walker fuel) :=
      walker_acts_self (G := .none) trivial fuel
    have henters : Enters .alone N (walker fuel) (walker fuel) := by
      refine ⟨fun hr q hq e he K => ?_, fun hr K =>
        (hall.enters (G := .none) trivial).body hr K, fun _ => ⟨fuel, rfl⟩⟩
      exact ih.eval (N.straight_expr (N.part hr (Routine.mem_parts_of_fallback hq he))) K
    refine ⟨fun he _ => ?_, fun hs _ => absurd rfl (hs.2 _)⟩
    exact evalExpr_acts ih (fun _ => henters) (fun _ hn => N.straight.exprPart he hn) he.1

/-! ### Programs -/

theorem execTop_acts (hw : Walks G S w w') {body : List Stmt}
    (hb : ∀ s ∈ body, S.has (.stmt s)) : Acts G K (execTop w body) (execTop w' body) := by
  induction body generalizing K with
  | nil => exact .pure trivial
  | cons s rest ih =>
    refine .andThen (hw.exec (hb s List.mem_cons_self) K) fun c => ?_
    cases c with
    | ret v => exact .pure trivial
    | _ => exact ih fun s' h => hb s' (List.mem_cons_of_mem _ h)

/-- Programs are executed by the same actions by walkers that go through them by the
same actions. -/
theorem runProgram_acts {p : Program} (hp : ∀ s ∈ p.body, S.has (.stmt s)) {fuel fuel' : Nat}
    (hw : Walks G S (walker fuel) (walker fuel')) :
    Acts G K (runProgram fuel p) (runProgram fuel' p) :=
  .andThen (hoist_acts fun s h => S.region (hp s h)) fun _ => execTop_acts hw hp

end ScriptReplay
