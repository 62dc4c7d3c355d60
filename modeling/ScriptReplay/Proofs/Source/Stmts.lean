/-
The grammar of statements places what it reads, and so does the parser of programs.

* `statement_yields` : statements, from the places of what the rules below give;
* `Rules.atDepth_place` : the rules place what they read, however deep they can go;
* `parseProgram_parses` : the parser gives programs that are placed, and its faults are at
  points of the text;
* `parseProgram_places` : so every fragment of a program, at any depth, stands where its
  location says.

Design notes: the rules take each other's place as a premise, so one induction on the depth
that is left ties them together.  An embedded expression is read by the same rules from a
stretch of the same text, so no other induction is needed for templates inside templates.
-/
import ScriptReplay.Program.Parser.Stmt
import ScriptReplay.Proofs.Source.Exprs

namespace ScriptReplay

namespace Grammar

open Parse

variable {text : List Char} {r : Rules} {s : Stream}

/-! ### Statements that start with a word -/

/-- What is read behind the first word of a statement. -/
theorem behindWord {α : Type} {Q : α → Stream → Prop} {x : Parse α} (hs : s.Fits text)
    (hkind : s.head.kind ≠ .finish)
    (h : ∀ s₁, s.Reaches s₁ text → s.head.loc.start ≤ s₁.lastStop → Meets text s₁ Q x) :
    Meets text s Q (do skip; x) := by
  refine (skip_passes hs hkind).bind fun _ s₁ h₁ hstop => h s₁ h₁ ?_
  exact Nat.le_trans hs.head.1.loc.start_le hstop

theorem wordStmt_yields {make : Location → Stmt} (hmake : ∀ l, (make l).loc = l)
    (hinner : ∀ l, (make l).inner = [])
    (hshaped : ∀ l : Location, l.start < l.stop → (Fragment.stmt (make l)).Shaped)
    (hs : s.Fits text) (hkind : s.head.kind ≠ .finish) :
    Yields text s (wordStmt make s.head.loc) := by
  have hword := hs.head.1.nonempty hkind
  refine (skip_passes hs hkind).bind fun _ s₁ h₁ hstop => ?_
  refine (endStatement_meets h₁.fits).bind fun _ s₂ h₂ _ => ?_
  have hpast : s.head.loc.start < s₂.lastStop :=
    Nat.lt_of_lt_of_le hword (Nat.le_trans hstop h₂.lastStop_le)
  refine whole_meets (fun _ => rfl) hmake (fun l hbegin hend => hshaped l (by omega)) hs
    (h₁.trans h₂) (Nat.le_of_lt hpast) fun l => ?_
  show Row text _ _ (make l).inner
  rw [hinner l]
  exact row_nil

/-! ### Declarations -/

theorem declarators_yields (hr : r.Place text) (n : Nat) (hs : s.Fits text) :
    Yields text s (declarators r n) := by
  induction n generalizing s with
  | zero => exact .pure hs lie_nil
  | succ n ih =>
    have hstart := hs.head.1.loc
    have hle := hstart.start_le
    refine .here ((expectName_passes hs).bind fun name s₁ h₁ hname => ?_)
    refine (fallback_yields hr h₁.fits).bind fun init s₂ h₂ hinit => ?_
    have hstop := h₂.lastStop_le
    refine span_meets (Declarator.mk name init)
      (fun _ => rfl) (fun _ => rfl) (fun _ _ _ => trivial) h₂.fits hstart (by omega)
      (fun _ => hinit.behind h₁) fun l hd => ?_
    exact commaItems_meets ih h₂.fits (h₁.trans h₂).head_le hd

/-- A declaration, which may stand at the head of a counting loop. -/
theorem declaration_meets (hr : r.Place text) (kind : DeclKind) (hs : s.Fits text)
    (hkind : s.head.kind ≠ .finish) :
    Meets text s (fun t s' => Lie text s.head.loc.start s'.lastStop t ∧ t.canBegin = true)
      (declaration r kind s.head.loc) := by
  refine behindWord hs hkind fun s₁ h₁ hpast => .remaining ?_
  refine (declarators_yields hr _ h₁.fits).bind fun ds s₂ h₂ hds => ?_
  have hstop := Nat.le_trans hpast h₂.lastStop_le
  refine .spanFrom h₂.fits hs.head.1.loc hstop fun l hl hbegin hend => ?_
  refine .pure h₂.fits ⟨?_, rfl⟩
  refine Stmt.lie_of_inner hl (Nat.le_of_eq hbegin.symm) (Nat.le_of_eq hend) ?_ trivial
  show Row text l.start l.stop (fragments ds)
  rw [hbegin, hend]
  exact hds.behind h₁

theorem functionDecl_meets (hr : r.Place text) (isAsync : Bool) {start : Location}
    (hstart : start.Fits text) (hs : s.Fits text) (hle : start.start ≤ s.head.loc.start) :
    Meets text s (fun t s' => Lie text start.start s'.lastStop t)
      (functionDecl r isAsync start) := by
  refine (expectKeyword_passes hs _ _).bind fun _ s₁ h₁ _ => ?_
  refine (expectName_passes h₁.fits).bind fun name s₂ h₂ _ => ?_
  have hle₂ := Nat.le_trans hle (h₁.trans h₂).head_le
  refine (functionRest_meets hr h₂.fits (some name) isAsync hstart hle₂).bind
    fun f s₃ h₃ hf => ?_
  refine .pure h₃.fits ?_
  have hlies := hf.lies _ List.mem_cons_self
  refine Stmt.lie_of_inner hlies.placed.loc hlies.lo_le hlies.le_hi
    (row_singleton.2 ?_) trivial
  exact ⟨hlies.placed, Nat.le_refl _, Nat.le_refl _⟩

/-! ### Control flow -/

theorem returnValue_yields (hr : r.Place text) (hs : s.Fits text) :
    Yields text s (returnValue r) := by
  refine .peek (.atEnd fun b => ?_)
  split
  · exact .pure hs lie_none
  · exact (hr.expr hs).bind fun e s₁ h₁ he => .pure h₁.fits (lie_some.2 he)

theorem returnStmt_yields (hr : r.Place text) (hs : s.Fits text)
    (hkind : s.head.kind ≠ .finish) : Yields text s (returnStmt r s.head.loc) := by
  refine behindWord hs hkind fun s₁ h₁ hpast => ?_
  refine (returnValue_yields hr h₁.fits).bind fun value s₂ h₂ hvalue => ?_
  refine (endStatement_meets h₂.fits).bind fun _ s₃ h₃ _ => ?_
  have hstop := (h₂.trans h₃).lastStop_le
  exact whole_meets (fun _ => rfl) (fun _ => rfl)
    (fun _ _ _ => trivial) hs (h₁.trans (h₂.trans h₃)) (by omega) fun _ =>
    (hvalue.behind h₁).ahead h₃

theorem condition_yields (hr : r.Place text) (hs : s.Fits text) (opening closing : String) :
    Yields text s (condition r opening closing) := by
  refine (expectSymbol_passes hs _ _).bind fun _ s₁ h₁ _ => ?_
  refine (hr.expr h₁.fits).bind fun test s₂ h₂ htest => ?_
  refine (expectSymbol_passes h₂.fits _ _).bind fun _ s₃ h₃ _ => ?_
  exact .pure h₃.fits ((htest.behind h₁).ahead h₃)

theorem elseBranch_yields (hr : r.Place text) (hs : s.Fits text) :
    Yields text s (elseBranch r) := by
  refine (eatKeyword_meets hs .elseKw).bind fun b s₁ h₁ _ => ?_
  cases b with
  | true =>
    refine (hr.stmt h₁.fits).bind fun no s₂ h₂ hno => ?_
    exact .pure h₂.fits (lie_some.2 (hno.behind h₁))
  | false => exact .pure h₁.fits lie_none

theorem ifStmt_yields (hr : r.Place text) (hs : s.Fits text) (hkind : s.head.kind ≠ .finish) :
    Yields text s (ifStmt r s.head.loc) := by
  refine behindWord hs hkind fun s₁ h₁ hpast => ?_
  refine (condition_yields hr h₁.fits _ _).bind fun test s₂ h₂ htest => ?_
  refine (hr.stmt h₂.fits).bind fun yes s₃ h₃ hyes => ?_
  refine (elseBranch_yields hr h₃.fits).bind fun no s₄ h₄ hno => ?_
  have hstop := (h₂.trans (h₃.trans h₄)).lastStop_le
  refine whole_meets (fun _ => rfl) (fun _ => rfl)
    (fun _ _ _ => trivial) hs (h₁.trans (h₂.trans (h₃.trans h₄))) (by omega) fun _ => ?_
  have hbranches : Row text s₂.head.loc.start s₄.lastStop (fragments yes ++ fragments no) :=
    Row.andThen hyes h₃.fits h₃.head_le h₄ hno
  exact Row.andThen (htest.behind h₁) h₂.fits (h₁.trans h₂).head_le (h₃.trans h₄) hbranches

theorem whileStmt_yields (hr : r.Place text) (hs : s.Fits text)
    (hkind : s.head.kind ≠ .finish) : Yields text s (whileStmt r s.head.loc) := by
  refine behindWord hs hkind fun s₁ h₁ hpast => ?_
  refine (condition_yields hr h₁.fits _ _).bind fun test s₂ h₂ htest => ?_
  refine (hr.stmt h₂.fits).bind fun body s₃ h₃ hbody => ?_
  have hstop := (h₂.trans h₃).lastStop_le
  refine whole_meets (fun _ => rfl) (fun _ => rfl)
    (fun _ _ _ => trivial) hs (h₁.trans (h₂.trans h₃)) (by omega) fun _ => ?_
  exact Row.andThen (htest.behind h₁) h₂.fits (h₁.trans h₂).head_le h₃ hbody

theorem doStmt_yields (hr : r.Place text) (hs : s.Fits text) (hkind : s.head.kind ≠ .finish) :
    Yields text s (doStmt r s.head.loc) := by
  refine behindWord hs hkind fun s₁ h₁ hpast => ?_
  refine (hr.stmt h₁.fits).bind fun body s₂ h₂ hbody => ?_
  refine (expectKeyword_passes h₂.fits _ _).bind fun _ s₃ h₃ _ => ?_
  refine (condition_yields hr h₃.fits _ _).bind fun test s₄ h₄ htest => ?_
  refine (eatSymbol_meets h₄.fits _).bind fun _ s₅ h₅ _ => ?_
  have h₃₅ := h₃.trans (h₄.trans h₅)
  have hstop := (h₂.trans h₃₅).lastStop_le
  refine whole_meets (fun _ => rfl) (fun _ => rfl)
    (fun _ _ _ => trivial) hs (h₁.trans (h₂.trans h₃₅)) (by omega) fun _ => ?_
  have htest : Row text s₂.head.loc.start s₅.lastStop (fragments test) :=
    (htest.behind h₃).ahead h₅
  exact Row.andThen (hbody.behind h₁) h₂.fits (h₁.trans h₂).head_le h₃₅ htest

/-! ### Loops with a head in parentheses -/

/-- A rule that goes on with a statement from its start, which was read before. -/
def Continues (text : List Char) (start : Location) (s : Stream) (x : Parse Stmt) : Prop :=
  Meets text s (fun t s' => Lie text start.start s'.lastStop t) x

theorem forOfRest_continues (hr : r.Place text) (kind : DeclKind) {start : Location}
    (hstart : start.Fits text) (hs : s.Fits text) (hle : start.start ≤ s.lastStop) :
    Continues text start s (forOfRest r kind start) := by
  have hhead := Nat.le_trans hle hs.head.2
  refine (skip_meets hs).bind fun _ s₁ h₁ _ => ?_
  refine (expectName_passes h₁.fits).bind fun name s₂ h₂ _ => ?_
  refine (skip_meets h₂.fits).bind fun _ s₃ h₃ _ => ?_
  have h₁₃ := h₁.trans (h₂.trans h₃)
  refine (hr.expr h₃.fits).bind fun iterable s₄ h₄ hiterable => ?_
  refine (expectSymbol_passes h₄.fits _ _).bind fun _ s₅ h₅ _ => ?_
  refine (hr.stmt h₅.fits).bind fun body s₆ h₆ hbody => ?_
  have h₄₅ := h₄.trans h₅
  have hstop := (h₁₃.trans (h₄₅.trans h₆)).lastStop_le
  have hhead₃ := Nat.le_trans hhead h₁₃.head_le
  have hparts : Row text start.start s₆.lastStop (fragments iterable ++ fragments body) :=
    Row.andThen ((hiterable.ahead h₅).mono hhead₃ (Nat.le_refl _)) h₅.fits
      (Nat.le_trans hhead₃ h₄₅.head_le) h₆ hbody
  exact span_meets (Stmt.forOf kind name iterable body) (fun _ => rfl) (fun _ => rfl)
    (fun _ _ _ => trivial) h₆.fits hstart (by omega) (fun _ => hparts) fun _ h =>
    .pure h₆.fits h

theorem optionalExpr_yields (hr : r.Place text) (hs : s.Fits text) (sym : Symbol) :
    Yields text s (optionalExpr r sym) := by
  refine .atSymbol sym fun b _ => ?_
  cases b with
  | true => exact .pure hs lie_none
  | false => exact (hr.expr hs).bind fun e s₁ h₁ he => .pure h₁.fits (lie_some.2 he)

theorem declKind?_finish : declKind? .finish = none := rfl

theorem forInit_yields (hr : r.Place text) (hs : s.Fits text) :
    Meets text s (fun init s' => Lie text s.head.loc.start s'.lastStop init ∧ ∀ t ∈ init,
      t.canBegin = true) (forInit r) := by
  refine .here (.atSymbol .semicolon fun b _ => ?_)
  cases b with
  | true => exact .pure hs ⟨lie_none, fun _ ht => nomatch ht⟩
  | false =>
    refine .peek ?_
    split
    · next kind hdecl =>
      have hkind : s.head.kind ≠ .finish := fun h => by simp [h, declKind?_finish] at hdecl
      refine (declaration_meets hr kind hs hkind).bind fun t s₁ h₁ ht => ?_
      refine .pure h₁.fits ⟨lie_some.2 ht.1, fun t' ht' => ?_⟩
      obtain rfl := Option.some.inj ht'
      exact ht.2
    · refine (hr.expr hs).takes_expr.bind fun e s₁ h₁ he => ?_
      refine span_meets (Stmt.expr e) (fun _ => rfl) (fun _ => rfl) (fun _ _ _ => trivial)
        h₁.fits hs.head.1.loc he.2 (fun _ => he.1) fun l hl =>
        .pure h₁.fits ⟨hl, fun t ht => ?_⟩
      obtain rfl := Option.some.inj ht
      rfl

theorem forRest_continues (hr : r.Place text) {start : Location} (hstart : start.Fits text)
    (hs : s.Fits text) (hle : start.start ≤ s.lastStop) :
    Continues text start s (forRest r start) := by
  have hhead := Nat.le_trans hle hs.head.2
  refine (forInit_yields hr hs).bind fun init s₁ h₁ hinit => ?_
  refine (expectSymbol_passes h₁.fits _ _).bind fun _ s₂ h₂ _ => ?_
  refine (optionalExpr_yields hr h₂.fits _).bind fun test s₃ h₃ htest => ?_
  refine (expectSymbol_passes h₃.fits _ _).bind fun _ s₄ h₄ _ => ?_
  refine (optionalExpr_yields hr h₄.fits _).bind fun update s₅ h₅ hupdate => ?_
  refine (expectSymbol_passes h₅.fits _ _).bind fun _ s₆ h₆ _ => ?_
  refine (hr.stmt h₆.fits).bind fun body s₇ h₇ hbody => ?_
  have h₃₄ := h₃.trans h₄
  have h₅₆ := h₅.trans h₆
  have h₃₇ := h₃₄.trans (h₅₆.trans h₇)
  have hstop := ((h₁.trans h₂).trans h₃₇).lastStop_le
  -- The parts stand behind each other, each from the symbol before it on.
  have hround : Row text s₄.head.loc.start s₇.lastStop (fragments update ++ fragments body) :=
    Row.andThen (hupdate.ahead h₆) h₆.fits h₅₆.head_le h₇ hbody
  have hrest : Row text s₂.head.loc.start s₇.lastStop
      (fragments test ++ (fragments update ++ fragments body)) :=
    Row.andThen (htest.ahead h₄) h₄.fits h₃₄.head_le (h₅₆.trans h₇) hround
  have hparts : Row text start.start s₇.lastStop
      (fragments init ++ (fragments test ++ (fragments update ++ fragments body))) :=
    Row.andThen ((hinit.1.ahead h₂).mono hhead (Nat.le_refl _)) h₂.fits
      (Nat.le_trans hhead (h₁.trans h₂).head_le) h₃₇ hrest
  refine span_meets (Stmt.forLoop init test update body) (fun _ => rfl) (fun _ => rfl)
    (fun _ _ _ => ?_) h₇.fits hstart (by omega) (fun _ => hparts) fun _ h => .pure h₇.fits h
  cases init with
  | none => trivial
  | some t => exact hinit.2 t rfl

theorem forStmt_yields (hr : r.Place text) (hs : s.Fits text)
    (hkind : s.head.kind ≠ .finish) : Yields text s (forStmt r s.head.loc) := by
  have hstart := hs.head.1.loc
  refine behindWord hs hkind fun s₁ h₁ hpast => ?_
  refine (expectSymbol_passes h₁.fits _ _).bind fun _ s₂ h₂ _ => ?_
  refine .look (.peek ?_)
  have hle := Nat.le_trans hpast h₂.lastStop_le
  split
  · next kind _ =>
    split
    · exact forOfRest_continues hr kind hstart h₂.fits hle
    · exact forRest_continues hr hstart h₂.fits hle
  · exact forRest_continues hr hstart h₂.fits hle

/-! ### Handlers -/

theorem caughtName_meets (hs : s.Fits text) : Meets text s (fun _ _ => True) caughtName := by
  refine (eatSymbol_meets hs .lparen).bind fun b s₁ h₁ _ => ?_
  cases b with
  | true =>
    refine (expectName_passes h₁.fits).bind fun name s₂ h₂ _ => ?_
    refine (expectSymbol_passes h₂.fits _ _).bind fun _ s₃ h₃ _ => ?_
    exact .pure h₃.fits trivial
  | false => exact .pure h₁.fits trivial

theorem handler?_yields (hr : r.Place text) (hs : s.Fits text) :
    Yields text s (handler? r) := by
  have hstart := hs.head.1.loc
  have hle := hstart.start_le
  refine .here ((eatKeyword_meets hs .catchKw).bind fun b s₁ h₁ hword => ?_)
  cases b with
  | false => exact .pure h₁.fits lie_none
  | true =>
    have hword := hword rfl
    refine (caughtName_meets h₁.fits).bind fun param s₂ h₂ _ => ?_
    refine (block_takes hr h₂.fits).bind fun body s₃ h₃ hbody => ?_
    have hstop := (h₂.trans h₃).lastStop_le
    exact whole_meets (fun _ => rfl) (fun _ => rfl) (fun _ _ _ => trivial) hs
      (h₁.trans (h₂.trans h₃)) (by omega) fun _ => hbody.1.behind (h₁.trans h₂)

theorem finalizer?_yields (hr : r.Place text) (hs : s.Fits text) :
    Yields text s (finalizer? r) := by
  refine (eatKeyword_meets hs .finallyKw).bind fun b s₁ h₁ _ => ?_
  cases b with
  | true =>
    refine (block_takes hr h₁.fits).bind fun body s₂ h₂ hbody => ?_
    exact .pure h₂.fits (lie_some.2 (hbody.1.behind h₁))
  | false => exact .pure h₁.fits lie_none

theorem tryStmt_yields (hr : r.Place text) (hs : s.Fits text)
    (hkind : s.head.kind ≠ .finish) : Yields text s (tryStmt r s.head.loc) := by
  refine behindWord hs hkind fun s₁ h₁ hpast => ?_
  refine (block_takes hr h₁.fits).bind fun body s₂ h₂ hbody => ?_
  refine (handler?_yields hr h₂.fits).bind fun handler s₃ h₃ hhandler => ?_
  refine (finalizer?_yields hr h₃.fits).bind fun finalizer s₄ h₄ hfinalizer => ?_
  split
  · exact .here (.failAt h₄.fits.head.1.loc)
  · have hstop := (h₂.trans (h₃.trans h₄)).lastStop_le
    refine whole_meets (fun _ => rfl) (fun _ => rfl)
      (fun _ _ _ => trivial) hs (h₁.trans (h₂.trans (h₃.trans h₄))) (by omega) fun _ => ?_
    have hclauses :
        Row text s₂.head.loc.start s₄.lastStop (fragments handler ++ fragments finalizer) :=
      Row.andThen hhandler h₃.fits h₃.head_le h₄ hfinalizer
    exact Row.andThen (hbody.1.behind h₁) h₂.fits (h₁.trans h₂).head_le (h₃.trans h₄) hclauses

/-! ### Statements -/

theorem exprStmt_yields (hr : r.Place text) (hs : s.Fits text) :
    Yields text s (exprStmt r s.head.loc) := by
  refine (hr.expr hs).takes_expr.bind fun e s₁ h₁ he => ?_
  refine (endStatement_meets h₁.fits).bind fun _ s₂ h₂ _ => ?_
  have hstop := Nat.le_trans he.2 h₂.lastStop_le
  exact whole_meets (fun _ => rfl) (fun _ => rfl)
    (fun _ _ _ => trivial) hs (h₁.trans h₂) hstop fun _ => he.1.ahead h₂

theorem statement_yields (hr : r.Place text) (hs : s.Fits text) :
    Yields text s (statement r) := by
  have hstart := hs.head.1.loc
  refine .here (.peek ?_)
  split
  · refine (block_takes hr hs).bind fun body s₁ h₁ hbody => ?_
    exact whole_meets (fun _ => rfl) (fun _ => rfl)
      (fun _ _ _ => trivial) hs h₁ hbody.2 fun _ => hbody.1
  · next hkind =>
    refine (skip_passes hs (by simp [hkind])).bind fun _ s₁ h₁ hstop => ?_
    refine .pure h₁.fits ?_
    exact Stmt.lie_of_inner hstart (Nat.le_refl _) hstop row_nil trivial
  · exact functionDecl_meets hr false hstart hs (Nat.le_refl _)
  · next hkind => exact returnStmt_yields hr hs (by simp [hkind])
  · next hkind => exact ifStmt_yields hr hs (by simp [hkind])
  · next hkind => exact forStmt_yields hr hs (by simp [hkind])
  · next hkind => exact whileStmt_yields hr hs (by simp [hkind])
  · next hkind => exact doStmt_yields hr hs (by simp [hkind])
  · next hkind =>
      exact wordStmt_yields (fun _ => rfl) (fun _ => rfl) (fun _ h => h) hs (by simp [hkind])
  · next hkind =>
      exact wordStmt_yields (fun _ => rfl) (fun _ => rfl)
        (fun _ _ => trivial) hs (by simp [hkind])
  · next hkind =>
    refine behindWord hs (by simp [hkind]) fun s₁ h₁ hpast => ?_
    refine (hr.expr h₁.fits).bind fun e s₂ h₂ he => ?_
    refine (endStatement_meets h₂.fits).bind fun _ s₃ h₃ _ => ?_
    have hstop := (h₂.trans h₃).lastStop_le
    exact whole_meets (fun _ => rfl) (fun _ => rfl) (fun _ _ _ => trivial) hs
      (h₁.trans (h₂.trans h₃)) (by omega) fun _ => (he.behind h₁).ahead h₃
  · next hkind => exact tryStmt_yields hr hs (by simp [hkind])
  · split
    · next word hdecl =>
      have hkind : s.head.kind ≠ .finish := fun h => by simp [h, declKind?_finish] at hdecl
      refine (declaration_meets hr word hs hkind).bind fun t s₁ h₁ ht => ?_
      refine (endStatement_meets h₁.fits).bind fun _ s₂ h₂ _ => ?_
      exact .pure h₂.fits (ht.1.ahead h₂)
    · refine .look ?_
      split
      · refine (skip_meets hs).bind fun _ s₁ h₁ _ => ?_
        exact functionDecl_meets hr true hstart h₁.fits h₁.head_le
      · exact exprStmt_yields hr hs

end Grammar

/-! ### Programs -/

variable {text : List Char}

theorem Rules.atDepth_place (text : List Char) (levels : Nat) :
    (Rules.atDepth levels).Place text := by
  induction levels with
  | zero => exact Rules.tooDeep_place text
  | succ levels ih =>
    exact ⟨fun hs => Grammar.assignment_yields ih hs, fun hs => Grammar.unary_yields ih hs,
      fun hs => Grammar.statement_yields ih hs⟩

theorem Grammar.programItems_yields {r : Rules} (hr : r.Place text) (n : Nat) {s : Stream}
    (hs : s.Fits text) : Yields text s (programItems r n) := by
  induction n generalizing s with
  | zero => exact .pure hs lie_nil
  | succ n ih =>
    refine .atEnd fun b => ?_
    cases b with
    | true => exact .pure hs lie_nil
    | false => exact items_yields (hr.stmt hs) ih

theorem Grammar.program_meets {r : Rules} (hr : r.Place text) {s : Stream}
    (hs : s.Fits text) :
    Meets text s (fun p _ => (Fragment.program p).Placed text) (program r) := by
  have hstart := hs.head.1.loc
  refine .here (.remaining
    ((programItems_yields hr _ hs).bind fun body s₁ h₁ hbody => .here (.pure h₁.fits ?_)))
  -- The program ends with the end mark, behind its last statement.
  obtain ⟨hfinal, hlast⟩ := h₁.fits.head
  have hle := h₁.head_le
  have hstop := hfinal.loc.start_le
  have hloc : Location.Fits { s.head.loc with stop := s₁.head.loc.stop } text :=
    ⟨by show s.head.loc.start ≤ s₁.head.loc.stop; omega, hfinal.loc.stop_le,
      hstart.line, hstart.column⟩
  have hbody := hbody.mono (Nat.le_refl _) (Nat.le_trans hlast hstop)
  exact (Fragment.lies_of_inner (n := .program ⟨body, _⟩) hloc (Nat.le_refl _)
    (Nat.le_refl _) hbody trivial).placed

theorem parseProgram_parses (source : String) :
    Parses source.toList (fun p => (Fragment.program p).Placed source.toList)
      (parseProgram source) := by
  have hcursor : (Cursor.ofText source .origin).In source.toList [] 0 :=
    ⟨⟨[], (List.append_nil _).symm, rfl⟩, Nat.zero_le _⟩
  have htokens := tokensFrom_reads hcursor
  unfold parseProgram tokenize tokenizeAt
  cases hts : tokensFrom (Cursor.ofText source .origin) with
  | error e =>
    rw [hts] at htokens
    exact htokens
  | ok ts =>
    rw [hts] at htokens
    have hs : (Stream.ofTokens ts).Fits source.toList := htokens.1
    exact (Grammar.program_meets (Rules.atDepth_place _ _) hs).run.imp fun _ ⟨_, _, hp⟩ => hp

/-- The parser gives a program in which every fragment stands at a stretch of the source with
the right line and column, and the fragments inside it stand inside that stretch; or it names
a fault at a point of the source. -/
theorem parseProgram_places (source : String) :
    match parseProgram source with
    | .ok p => ∀ n, (Fragment.program p).Encloses n →
        n.loc.Fits source.toList ∧ ∀ n' ∈ n.inner, n'.loc.Inside n.loc
    | .error e => e.loc.Fits source.toList := by
  have hparses := parseProgram_parses source
  cases hp : parseProgram source with
  | error e =>
    rw [hp] at hparses
    exact hparses
  | ok p =>
    rw [hp] at hparses
    intro n hn
    have hplaced := Fragment.Placed.of_encloses hparses hn
    exact ⟨hplaced.loc, fun n' hn' => hplaced.inside hn'⟩

/-- A name in a template inside a template, on the second line. -/
def nestedTemplates : String := "\n`a$\x7b`b$\x7bc\x7d`\x7d`"

/-- The name stands where it does in the whole source, not in the text that it
was read from. -/
theorem nestedTemplates_placed :
    ∃ p n, parseProgram nestedTemplates = .ok p ∧ (Fragment.program p).Encloses n ∧
    n.loc = ⟨2, 8, 9, 10⟩ ∧ n.loc.Fits nestedTemplates.toList := by
  have hrun : (parseProgram nestedTemplates).toOption.any
    (fun p => (Fragment.program p).inner.any fun t =>
      t.inner.any fun outer => outer.inner.any fun inner =>
        inner.inner.any (·.loc == ⟨2, 8, 9, 10⟩)) = true := by
    decide +kernel
  have hplaces := parseProgram_places nestedTemplates
  cases hp : parseProgram nestedTemplates with
  | error e =>
    rw [hp] at hrun
    cases hrun
  | ok p =>
    rw [hp] at hrun hplaces
    obtain ⟨t, ht, hrun⟩ :=
      List.any_eq_true.1 (show (Fragment.program p).inner.any _ = true from hrun)
    obtain ⟨outer, houter, hrun⟩ := List.any_eq_true.1 hrun
    obtain ⟨inner, hinner, hrun⟩ := List.any_eq_true.1 hrun
    obtain ⟨name, hname, hloc⟩ := List.any_eq_true.1 hrun
    have henc : (Fragment.program p).Encloses name :=
      (((Relation.ReflTransGen.single ht).tail houter).tail hinner).tail hname
    exact ⟨p, name, rfl, henc, eq_of_beq hloc, (hplaces name henc).1⟩

end ScriptReplay
