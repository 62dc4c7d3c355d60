/-
The grammar of statements goes down where it counts levels, and so does the
parser of programs.

* `Grammar.statement_only` : statements stay on the level they are read on;
* `Rules.atDepth_spare` : the rules of the grammar need less levels than they have left;
* `parseProgram_spares` : so what is in a program leaves one of the levels that the
  ceiling allows.
-/
import ScriptReplay.Program.Parser.Stmt
import ScriptReplay.Proofs.Source.Levels.Exprs

namespace ScriptReplay

namespace Grammar

open Parse

variable {r : Rules} {k : Nat}

/-! ### Statements -/

theorem declarators_only (hr : r.Spare k) (n : Nat) : Only (Stays k) (declarators r n) := by
  induction n with
  | zero => exact .pure each_nil
  | succ n ih =>
    refine .after fun start => .after fun name => ?_
    refine (fallback_only hr).bind fun init hinit => ?_
    refine .after fun l => ?_
    exact commaItems_only ih (stays_of rfl (List.forall_mem_nil _) hinit)

theorem declaration_only (hr : r.Spare k) (kind : DeclKind) (start : Location) :
    Only (Stays k) (declaration r kind start) := by
  refine .after fun _ => .after fun n => ?_
  refine (declarators_only hr _).bind fun ds hds => ?_
  refine .after fun l => ?_
  refine .pure ?_
  exact Stmt.stays hds (List.forall_mem_nil _)

theorem functionDecl_only (hr : r.Spare k) (isAsync : Bool) (start : Location) :
    Only (Stays k) (functionDecl r isAsync start) := by
  refine .after fun _ => .after fun name => ?_
  refine (functionRest_only hr _ _ _).bind fun f hf => ?_
  refine .pure ?_
  exact Stmt.stays hf (List.forall_mem_nil _)

theorem returnStmt_only (hr : r.Spare k) (start : Location) :
    Only (Stays k) (returnStmt r start) := by
  have hvalue : Only (Spares k) (returnValue r) := by
    refine .after fun t => .after fun b => ?_
    split
    · exact .pure (List.forall_mem_nil _)
    · exact hr.expr.bind fun e he => .pure he
  refine .after fun _ => ?_
  refine hvalue.bind fun value hvalue => ?_
  refine .after fun _ => .after fun l => ?_
  refine .pure ?_
  exact Stmt.stays (List.forall_mem_nil _) hvalue

theorem condition_only (hr : r.Spare k) (opening closing : String) :
    Only (Spares k) (condition r opening closing) :=
  .after fun _ => hr.expr.bind fun _ htest => .after fun _ => .pure htest

theorem ifStmt_only (hr : r.Spare k) (start : Location) :
    Only (Stays k) (ifStmt r start) := by
  have helse : Only (Spares k) (elseBranch r) := by
    refine .after fun b => ?_
    cases b with
    | true => exact hr.stmt.bind fun no hno => .pure hno
    | false => exact .pure (List.forall_mem_nil _)
  refine .after fun _ => ?_
  refine (condition_only hr _ _).bind fun test htest => ?_
  refine hr.stmt.bind fun yes hyes => ?_
  refine helse.bind fun no hno => ?_
  refine .after fun l => ?_
  refine .pure ?_
  exact Stmt.stays (List.forall_mem_nil _)
    (List.forall_mem_append.2 ⟨htest, List.forall_mem_append.2 ⟨hyes, hno⟩⟩)

theorem whileStmt_only (hr : r.Spare k) (start : Location) :
    Only (Stays k) (whileStmt r start) := by
  refine .after fun _ => ?_
  refine (condition_only hr _ _).bind fun test htest => ?_
  refine hr.stmt.bind fun body hbody => ?_
  refine .after fun l => ?_
  exact .pure (Stmt.stays (List.forall_mem_nil _) (List.forall_mem_append.2 ⟨htest, hbody⟩))

theorem doStmt_only (hr : r.Spare k) (start : Location) :
    Only (Stays k) (doStmt r start) := by
  refine .after fun _ => ?_
  refine hr.stmt.bind fun body hbody => ?_
  refine .after fun _ => ?_
  refine (condition_only hr _ _).bind fun test htest => ?_
  refine .after fun _ => .after fun l => ?_
  refine .pure ?_
  exact Stmt.stays (List.forall_mem_nil _) (List.forall_mem_append.2 ⟨hbody, htest⟩)

theorem forOfRest_only (hr : r.Spare k) (kind : DeclKind) (start : Location) :
    Only (Stays k) (forOfRest r kind start) := by
  refine .after fun _ => .after fun name => .after fun _ => ?_
  refine hr.expr.bind fun iterable hiterable => ?_
  refine .after fun _ => ?_
  refine hr.stmt.bind fun body hbody => ?_
  refine .after fun l => ?_
  refine .pure ?_
  exact Stmt.stays (List.forall_mem_nil _) (List.forall_mem_append.2 ⟨hiterable, hbody⟩)

theorem optionalExpr_only (hr : r.Spare k) (sym : Symbol) :
    Only (Spares k) (optionalExpr r sym) := by
  refine .after fun b => ?_
  cases b with
  | true => exact .pure (List.forall_mem_nil _)
  | false => exact hr.expr.bind fun e he => .pure he

/-- The head of a counting loop begins on the level of the loop. -/
theorem forInit_only (hr : r.Spare k) : Only (Stays k) (forInit r) := by
  refine .after fun start => .after fun b => ?_
  cases b with
  | true => exact .pure (List.forall_mem_nil _)
  | false =>
    refine .after fun t => ?_
    split
    · exact (declaration_only hr _ _).bind fun s hs => .pure hs
    · refine hr.expr.bind fun e he => ?_
      refine .after fun l => ?_
      refine .pure ?_
      have hinit : Stays k (Stmt.expr e l) := Stmt.stays (List.forall_mem_nil _) he
      exact hinit

theorem forRest_only (hr : r.Spare k) (start : Location) :
    Only (Stays k) (forRest r start) := by
  refine (forInit_only hr).bind fun init hinit => ?_
  refine .after fun _ => ?_
  refine (optionalExpr_only hr _).bind fun test htest => ?_
  refine .after fun _ => ?_
  refine (optionalExpr_only hr _).bind fun update hupdate => ?_
  refine .after fun _ => ?_
  refine hr.stmt.bind fun body hbody => ?_
  refine .after fun l => .pure (Stmt.stays hinit ?_)
  exact List.forall_mem_append.2 ⟨htest, List.forall_mem_append.2 ⟨hupdate, hbody⟩⟩

theorem forStmt_only (hr : r.Spare k) (start : Location) :
    Only (Stays k) (forStmt r start) := by
  refine .after fun _ => .after fun _ => .after fun s => .after fun t => ?_
  split
  · split
    · exact forOfRest_only hr _ start
    · exact forRest_only hr start
  · exact forRest_only hr start

theorem handler?_only (hr : r.Spare k) : Only (Stays k) (handler? r) := by
  refine .after fun start => .after fun b => ?_
  cases b with
  | false => exact .pure (List.forall_mem_nil _)
  | true =>
    refine .after fun param => ?_
    refine (block_only hr).bind fun body hbody => ?_
    refine .after fun l => ?_
    refine .pure ?_
    have hhandler : Stays k (Handler.mk param body l) :=
      stays_of rfl (List.forall_mem_nil _) hbody
    exact hhandler

theorem tryStmt_only (hr : r.Spare k) (start : Location) :
    Only (Stays k) (tryStmt r start) := by
  have hfinalizer : Only (Spares k) (finalizer? r) := by
    refine .after fun b => ?_
    cases b with
    | true => exact (block_only hr).bind fun body hbody => .pure hbody
    | false => exact .pure (List.forall_mem_nil _)
  refine .after fun _ => ?_
  refine (block_only hr).bind fun body hbody => ?_
  refine (handler?_only hr).bind fun handler hhandler => ?_
  refine hfinalizer.bind fun finalizer hfinalizer => ?_
  split
  · exact .after fun l => .failAt
  · refine .after fun l => ?_
    exact .pure (Stmt.stays hhandler (List.forall_mem_append.2 ⟨hbody, hfinalizer⟩))

theorem stays_leaf {s : Stmt} (hbeside : s.beside = []) (hunder : s.under = []) : Stays k s :=
  Stmt.stays (hbeside ▸ List.forall_mem_nil _) (hunder ▸ List.forall_mem_nil _)

theorem wordStmt_only {make : Location → Stmt} (hmake : ∀ l, Stays k (make l))
    (start : Location) : Only (Stays k) (wordStmt make start) :=
  .after fun _ => .after fun _ => .after fun l => .pure (hmake l)

/-- An expression with the end of its statement. -/
theorem ended_only (hr : r.Spare k) (make : Expr → Location → Stmt)
    (hmake : ∀ e l, Spares k e → Stays k (make e l)) (start : Location) :
    Only (Stays k) (do let e ← r.expr; endStatement; return make e (← spanFrom start)) :=
  hr.expr.bind fun _ he => .after fun _ => .after fun _ => .pure (hmake _ _ he)

theorem statement_only (hr : r.Spare k) : Only (Stays k) (statement r) := by
  refine .after fun start => .after fun t => ?_
  split
  · refine (block_only hr).bind fun body hbody => ?_
    refine .after fun l => ?_
    exact .pure (Stmt.stays (List.forall_mem_nil _) hbody)
  · exact .after fun _ => .pure (stays_leaf rfl rfl)
  · exact functionDecl_only hr false start
  · exact returnStmt_only hr start
  · exact ifStmt_only hr start
  · exact forStmt_only hr start
  · exact whileStmt_only hr start
  · exact doStmt_only hr start
  · exact wordStmt_only (fun _ => stays_leaf rfl rfl) start
  · exact wordStmt_only (fun _ => stays_leaf rfl rfl) start
  · refine .after fun _ => ?_
    exact ended_only hr .raise (fun _ _ he => Stmt.stays (List.forall_mem_nil _) he) start
  · exact tryStmt_only hr start
  · split
    · refine (declaration_only hr _ _).bind fun s hs => ?_
      refine .after fun _ => ?_
      exact .pure hs
    · refine .after fun s => ?_
      split
      · exact .after fun _ => functionDecl_only hr true start
      · exact ended_only hr .expr (fun _ _ he => Stmt.stays (List.forall_mem_nil _) he) start

end Grammar

/-! ### Programs -/

/-- What the rules read needs less levels than they have left. -/
theorem Rules.atDepth_spare (levels : Nat) : (Rules.atDepth levels).Spare levels := by
  induction levels with
  | zero => exact ⟨.after fun _ => .failAt, .after fun _ => .failAt, .after fun _ => .failAt⟩
  | succ levels ih =>
    exact ⟨(Grammar.assignment_only ih).imp fun _ => Stays.spares,
      (Grammar.unary_only ih).imp fun _ => Stays.spares,
      (Grammar.statement_only ih).imp fun _ => Stays.spares⟩

theorem Grammar.programItems_only {r : Rules} {k : Nat} (hr : r.Spare k) (n : Nat) :
    Parse.Only (Spares k) (programItems r n) := by
  induction n with
  | zero => exact .pure each_nil
  | succ n ih =>
    refine .after fun b => ?_
    cases b with
    | true => exact .pure each_nil
    | false => exact items_only hr.stmt ih

theorem parseProgram_spares {source : String} {p : Program}
    (h : parseProgram source = .ok p) : Spares maxNesting p.body := by
  unfold parseProgram at h
  split at h
  · cases h
  · refine Parse.Only.run (P := fun p : Program => Spares maxNesting p.body)
      (.after fun start => .after fun n => ?_) h
    refine (Grammar.programItems_only (Rules.atDepth_spare _) n).bind fun body hbody => ?_
    refine .after fun _ => ?_
    exact .pure hbody

end ScriptReplay
