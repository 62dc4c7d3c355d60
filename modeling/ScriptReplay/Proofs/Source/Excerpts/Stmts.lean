/-
The expressions in statements are excerpts.

* `declaration_finds`, `forRest_finds`, `tryStmt_finds` : the parts of statements, which are
  no expressions themselves;
* `statement_finds` : statements;
* `Rules.atDepth_finds` : the rules at every depth;
* `parseProgram_excerpted` : programs.
-/
import ScriptReplay.Proofs.Source.Excerpts.Operators

namespace ScriptReplay

variable {text : List Char} {top : Rules} {s : Stream}

/-- A statement is no expression, so it is enough that those inside it are excerpts. -/
theorem Stmt.found_of_inner {t : Stmt} (hinner : ∀ n ∈ t.inner, n.Found text top) :
    Found text top t :=
  ScriptReplay.found_of_inner (n := .stmt t) rfl nofun (Fragment.not_hasMethod nofun) hinner

namespace Grammar

open Parse

variable {r : Rules}

/-! ### Declarations -/

theorem declarators_finds (hr : r.Finds text top) (n : Nat) :
    Finds text top s (declarators r n) := by
  induction n generalizing s with
  | zero => exact .pure found_nil
  | succ n ih =>
    refine .here ?_
    refine expectName_keeps.andThen ?_
    intro name _
    refine (fallback_finds hr).andThen ?_
    intro init s₁ hinit
    refine .spanFrom ?_
    have hd : Found text top (⟨name, init, s.head.loc.until s₁.lastStop⟩ : Declarator) :=
      found_of_inner (n := .declarator ⟨name, init, s.head.loc.until s₁.lastStop⟩) rfl nofun
        (Fragment.not_hasMethod nofun) hinit
    exact commaItems_finds ih hd

theorem declaration_finds (hr : r.Finds text top) (kind : DeclKind) (start : Location) :
    Finds text top s (declaration r kind start) := by
  refine .skip ?_
  refine .remaining ?_
  refine (declarators_finds hr _).andThen ?_
  intro ds _ hds
  exact .spanFrom (.pure (Stmt.found_of_inner hds))

theorem functionDecl_finds (hr : r.Finds text top) (isAsync : Bool) (start : Location) :
    Finds text top s (functionDecl r isAsync start) := by
  refine expectKeyword_keeps.skipped ?_
  intro _
  refine expectName_keeps.andThen ?_
  intro name _
  refine (functionRest_gets hr (some name) isAsync start).andThen ?_
  intro f _ hf
  exact .pure (Stmt.found_of_inner hf.2)

/-! ### Control flow -/

theorem returnValue_finds (hr : r.Finds text top) : Finds text top s (returnValue r) := by
  refine .peek (.atEnd fun b => ?_)
  split
  · exact .pure found_none
  · refine hr.found.andThen ?_
    intro e _ he
    exact .pure he

theorem returnStmt_finds (hr : r.Finds text top) (start : Location) :
    Finds text top s (returnStmt r start) := by
  refine .skip ?_
  refine (returnValue_finds hr).andThen ?_
  intro value _ hvalue
  refine endStatement_keeps.skipped ?_
  intro _
  exact .spanFrom (.pure (Stmt.found_of_inner hvalue))

theorem condition_finds (hr : r.Finds text top) (opening closing : String) :
    Finds text top s (condition r opening closing) := by
  refine expectSymbol_keeps.skipped ?_
  intro _
  refine hr.found.andThen ?_
  intro test _ htest
  refine expectSymbol_keeps.skipped ?_
  intro _
  exact .pure htest

theorem elseBranch_finds (hr : r.Finds text top) : Finds text top s (elseBranch r) := by
  refine eatKeyword_keeps.andThen ?_
  intro b _
  cases b with
  | true =>
    refine hr.stmt.andThen ?_
    intro t _ ht
    exact .pure ht
  | false => exact .pure found_none

theorem ifStmt_finds (hr : r.Finds text top) (start : Location) :
    Finds text top s (ifStmt r start) := by
  refine .skip ?_
  refine (condition_finds hr _ _).andThen ?_
  intro test _ htest
  refine hr.stmt.andThen ?_
  intro yes _ hyes
  refine (elseBranch_finds hr).andThen ?_
  intro no _ hno
  refine .spanFrom (.pure (Stmt.found_of_inner ?_))
  exact List.forall_mem_append.2 ⟨htest, List.forall_mem_append.2 ⟨hyes, hno⟩⟩

theorem whileStmt_finds (hr : r.Finds text top) (start : Location) :
    Finds text top s (whileStmt r start) := by
  refine .skip ?_
  refine (condition_finds hr _ _).andThen ?_
  intro test _ htest
  refine hr.stmt.andThen ?_
  intro body _ hbody
  refine .spanFrom (.pure (Stmt.found_of_inner ?_))
  exact List.forall_mem_append.2 ⟨htest, hbody⟩

theorem doStmt_finds (hr : r.Finds text top) (start : Location) :
    Finds text top s (doStmt r start) := by
  refine .skip ?_
  refine hr.stmt.andThen ?_
  intro body _ hbody
  refine expectKeyword_keeps.skipped ?_
  intro _
  refine (condition_finds hr _ _).andThen ?_
  intro test _ htest
  refine eatSymbol_keeps.skipped ?_
  intro _
  refine .spanFrom (.pure (Stmt.found_of_inner ?_))
  exact List.forall_mem_append.2 ⟨hbody, htest⟩

theorem forOfRest_finds (hr : r.Finds text top) (kind : DeclKind) (start : Location) :
    Finds text top s (forOfRest r kind start) := by
  refine .skip ?_
  refine expectName_keeps.andThen ?_
  intro name _
  refine .skip ?_
  refine hr.found.andThen ?_
  intro iterable _ hiterable
  refine expectSymbol_keeps.skipped ?_
  intro _
  refine hr.stmt.andThen ?_
  intro body _ hbody
  exact .spanFrom (.pure (Stmt.found_of_inner (List.forall_mem_append.2 ⟨hiterable, hbody⟩)))

theorem optionalExpr_finds (hr : r.Finds text top) (sym : Symbol) :
    Finds text top s (optionalExpr r sym) := by
  refine .atSymbol fun b _ => ?_
  cases b with
  | true => exact .pure found_none
  | false =>
    refine hr.found.andThen ?_
    intro e _ he
    exact .pure he

theorem forInit_finds (hr : r.Finds text top) : Finds text top s (forInit r) := by
  refine .here (.atSymbol fun b _ => ?_)
  cases b with
  | true => exact .pure found_none
  | false =>
    refine .peek ?_
    split
    · refine (declaration_finds hr _ _).andThen ?_
      intro t _ ht
      exact .pure ht
    · refine hr.found.andThen ?_
      intro e _ he
      exact .spanFrom (.pure (Stmt.found_of_inner he))

theorem forRest_finds (hr : r.Finds text top) (start : Location) :
    Finds text top s (forRest r start) := by
  refine (forInit_finds hr).andThen ?_
  intro init _ hinit
  refine expectSymbol_keeps.skipped ?_
  intro _
  refine (optionalExpr_finds hr _).andThen ?_
  intro test _ htest
  refine expectSymbol_keeps.skipped ?_
  intro _
  refine (optionalExpr_finds hr _).andThen ?_
  intro update _ hupdate
  refine expectSymbol_keeps.skipped ?_
  intro _
  refine hr.stmt.andThen ?_
  intro body _ hbody
  refine .spanFrom (.pure (Stmt.found_of_inner ?_))
  exact List.forall_mem_append.2
    ⟨hinit, List.forall_mem_append.2 ⟨htest, List.forall_mem_append.2 ⟨hupdate, hbody⟩⟩⟩

theorem forStmt_finds (hr : r.Finds text top) (start : Location) :
    Finds text top s (forStmt r start) := by
  refine .skip ?_
  refine expectSymbol_keeps.skipped ?_
  intro _
  refine .look (.peek ?_)
  split
  · split
    · exact forOfRest_finds hr _ start
    · exact forRest_finds hr start
  · exact forRest_finds hr start

theorem caughtName_keeps : Keeps text s caughtName := by
  refine eatSymbol_keeps.andThen ?_
  intro b _
  cases b with
  | true =>
    refine expectName_keeps.andThen ?_
    intro _ _
    refine expectSymbol_keeps.skipped ?_
    intro _
    exact .pure trivial
  | false => exact .pure trivial

theorem handler?_finds (hr : r.Finds text top) : Finds text top s (handler? r) := by
  refine .here ?_
  refine eatKeyword_keeps.andThen ?_
  intro b _
  cases b with
  | false => exact .pure found_none
  | true =>
    refine caughtName_keeps.andThen ?_
    intro param _
    refine (block_finds hr).andThen ?_
    intro body s₁ hbody
    refine .spanFrom (.pure ?_)
    have hhandler : Found text top (⟨param, body, s.head.loc.until s₁.lastStop⟩ : Handler) :=
      found_of_inner (n := .handler ⟨param, body, s.head.loc.until s₁.lastStop⟩) rfl nofun
        (Fragment.not_hasMethod nofun) hbody
    exact hhandler

theorem finalizer?_finds (hr : r.Finds text top) : Finds text top s (finalizer? r) := by
  refine eatKeyword_keeps.andThen ?_
  intro b _
  cases b with
  | true =>
    refine (block_finds hr).andThen ?_
    intro body _ hbody
    exact .pure hbody
  | false => exact .pure found_none

theorem tryStmt_finds (hr : r.Finds text top) (start : Location) :
    Finds text top s (tryStmt r start) := by
  refine .skip ?_
  refine (block_finds hr).andThen ?_
  intro body _ hbody
  refine (handler?_finds hr).andThen ?_
  intro handler _ hhandler
  refine (finalizer?_finds hr).andThen ?_
  intro finalizer _ hfinal
  split
  · exact .here (.fails fun _ h => by cases h)
  · refine .spanFrom (.pure (Stmt.found_of_inner ?_))
    exact List.forall_mem_append.2 ⟨hbody, List.forall_mem_append.2 ⟨hhandler, hfinal⟩⟩

/-! ### Statements -/

theorem wordStmt_finds {make : Location → Stmt} (hmake : ∀ l, (make l).inner = [])
    (start : Location) : Finds text top s (wordStmt make start) := by
  refine .skip ?_
  refine endStatement_keeps.skipped ?_
  intro _
  refine .spanFrom (.pure ?_)
  refine Stmt.found_of_inner fun n hn => ?_
  rw [hmake] at hn
  cases hn

theorem exprStmt_finds (hr : r.Finds text top) (start : Location) :
    Finds text top s (exprStmt r start) := by
  refine hr.found.andThen ?_
  intro e _ he
  refine endStatement_keeps.skipped ?_
  intro _
  exact .spanFrom (.pure (Stmt.found_of_inner he))

theorem statement_finds (hr : r.Finds text top) : Finds text top s (statement r) := by
  refine .here (.peek ?_)
  split
  · refine (block_finds hr).andThen ?_
    intro body _ hbody
    exact .spanFrom (.pure (Stmt.found_of_inner hbody))
  · refine .skip ?_
    exact .pure (Stmt.found_of_inner fun n hn => absurd hn List.not_mem_nil)
  · exact functionDecl_finds hr false _
  · exact returnStmt_finds hr _
  · exact ifStmt_finds hr _
  · exact forStmt_finds hr _
  · exact whileStmt_finds hr _
  · exact doStmt_finds hr _
  · exact wordStmt_finds (fun _ => rfl) _
  · exact wordStmt_finds (fun _ => rfl) _
  · refine .skip ?_
    refine hr.found.andThen ?_
    intro e _ he
    refine endStatement_keeps.skipped ?_
    intro _
    exact .spanFrom (.pure (Stmt.found_of_inner he))
  · exact tryStmt_finds hr _
  · split
    · refine (declaration_finds hr _ _).andThen ?_
      intro t _ ht
      refine endStatement_keeps.skipped ?_
      intro _
      exact .pure ht
    · refine .look ?_
      split
      · refine .skip ?_
        exact functionDecl_finds hr true _
      · exact exprStmt_finds hr _

/-! ### Programs -/

theorem programItems_finds (hstmt : ∀ {s}, Finds text top s r.stmt) (n : Nat) :
    Finds text top s (programItems r n) := by
  induction n generalizing s with
  | zero => exact .pure found_nil
  | succ n ih =>
    refine .atEnd fun b => ?_
    cases b with
    | true => exact .pure found_nil
    | false =>
      refine hstmt.andThen ?_
      intro t _ ht
      refine ih.andThen ?_
      intro ts _ hts
      exact .pure (ht.cons hts)

theorem program_excerpted (hstmt : ∀ {s}, Finds text top s r.stmt) :
    Gets text s (fun p _ => (Fragment.program p).Excerpted text top) (program r) := by
  refine .here
    (.remaining ((programItems_finds hstmt _).bind fun body _ _ _ hbody => .here (.pure ?_)))
  exact Fragment.excerpted_of_inner (n := .program ⟨body, _⟩)
    (Fragment.not_hasMethod nofun) hbody

end Grammar

/-- At every depth, expressions are excerpts for rules with at least as many levels. -/
theorem Rules.atDepth_finds (text : List Char) {m n : Nat} (hmn : m ≤ n) :
    (Rules.atDepth m).Finds text (Rules.atDepth n) := by
  have hreread : ∀ {m}, m ≤ n → (Rules.atDepth m).Reread False (Rules.atDepth n) := by
    intro m hm
    have h := Rules.atDepth_reread n m
    rwa [eq_false (Nat.not_lt.2 hm)] at h
  induction m with
  | zero =>
    have hstop : ∀ {α : Type} {s : Stream} (r : α × Stream), Rules.tooDeep.stop s ≠ .ok r :=
      fun _ h => by cases h
    exact ⟨hreread hmn, hreread (Nat.le_refl n), .fails hstop, .fails hstop, .fails hstop⟩
  | succ m ih =>
    have hr := ih (Nat.le_of_succ_le hmn)
    exact ⟨hreread hmn, hreread (Nat.le_refl n),
      Grammar.assignment_excerpt hr, Grammar.unary_excerpt hr,
      Grammar.statement_finds hr⟩

/-- In a program, all expressions but methods are excerpts of its source. -/
theorem parseProgram_excerpted {source : String} {p : Program}
    (h : parseProgram source = .ok p) :
    (Fragment.program p).Excerpted source.toList (.atDepth (maxNesting - 1)) := by
  unfold parseProgram tokenize tokenizeAt at h
  cases hts : tokensFrom (Cursor.ofText source .origin) with
  | error e =>
    rw [hts] at h
    cases h
  | ok ts =>
    rw [hts] at h
    have hcursor : (Cursor.ofText source .origin).In source.toList [] 0 :=
      ⟨⟨[], (List.append_nil _).symm, rfl⟩, Nat.zero_le _⟩
    have hs : (Stream.ofTokens ts).Of source.toList :=
      ⟨⟨_, [], 0, ts.final, hcursor, hts⟩, Grammar.tokensFrom_final hts⟩
    have hstmt : ∀ {s},
        Finds source.toList (.atDepth (maxNesting - 1)) s (Rules.atDepth maxNesting).stmt :=
      Grammar.statement_finds (Rules.atDepth_finds _ (Nat.le_refl _))
    obtain ⟨_, hp⟩ := (Grammar.program_excerpted hstmt).run hs h
    exact hp

end ScriptReplay
