/-
The grammar only asks the rules that nest.

Each part of the grammar is followed in its own order: what comes before a question does not
depend on the rules, and what follows depends on the answer alone.

* `Grammar.primary_asking`, `Grammar.unary_asking`, `Grammar.assignment_asking` : expressions;
* `Grammar.statement_asking` : statements;
* `Grammar.program_asking` : programs;
* `Rule.body_asks` : the bodies of all rules that nest;
* `Asks.counted_iff` : so there is exactly one outcome of a run with a counter, and the
  counter ends where it began.

Design notes: repetitions are followed by induction on their rounds, embedded sources one
after the other.
-/
import ScriptReplay.Proofs.Source.Counting
import ScriptReplay.Proofs.Source.Stages

namespace ScriptReplay

namespace Grammar

open Parse

/-! ### Lists of things -/

section
variable {α : Type}

/-- An item, and more of them behind a comma. -/
theorem commaItems_asking {more : Rules → Parse (List α)} (hmore : Asking more) (a : α) :
    Asking fun r => do if ← eatSymbol .comma then return a :: (← more r) else return [a] := by
  refine .after fun b => ?_
  cases b with
  | true => exact hmore.bind fun as => .const _
  | false => exact .const _

/-- Items between two symbols. -/
theorem bracketed_asking {items : Rules → Nat → Parse (List α)}
    (hitems : ∀ n, Asking fun r => items r n)
    (left right : Symbol) (opening closing : String) :
    Asking fun r => do
      expectSymbol left opening
      let as ← items r ((← remaining) + 1)
      expectSymbol right closing
      return as :=
  .after fun _ => .after fun _ => (hitems _).bind fun _ => .const _

end

theorem argumentItems_asking (n : Nat) : Asking fun r => argumentItems r n := by
  induction n with
  | zero => exact .const _
  | succ n ih =>
    refine .after fun b => ?_
    cases b with
    | true => exact .const _
    | false => exact Asking.expr.bind fun e => commaItems_asking ih e

theorem arguments_asking : Asking arguments :=
  bracketed_asking argumentItems_asking _ _ _ _

theorem optionalArguments_asking : Asking optionalArguments := by
  refine .after fun b => ?_
  cases b with
  | true => exact arguments_asking
  | false => exact .const _

theorem fallback_asking : Asking fallback := by
  refine .after fun b => ?_
  cases b with
  | true => exact Asking.expr.bind fun e => .const _
  | false => exact .const _

theorem parameterItems_asking (n : Nat) : Asking fun r => parameterItems r n := by
  induction n with
  | zero => exact .const _
  | succ n ih =>
    refine .after fun b => ?_
    cases b with
    | true => exact .const _
    | false => exact .after fun name => fallback_asking.bind fun o => commaItems_asking ih _

theorem parameters_asking : Asking parameters :=
  bracketed_asking parameterItems_asking _ _ _ _

theorem blockItems_asking (n : Nat) : Asking fun r => blockItems r n := by
  induction n with
  | zero => exact .const _
  | succ n ih =>
    refine .after fun b => .after fun b' => ?_
    cases b || b' with
    | true => exact .const _
    | false => exact Asking.stmt.bind fun s => ih.bind fun ss => .const _

theorem block_asking : Asking block :=
  bracketed_asking blockItems_asking _ _ _ _

/-! ### Functions -/

theorem functionRest_asking (name : Option String) (isAsync : Bool) (start : Location) :
    Asking fun r => functionRest r name isAsync start :=
  parameters_asking.bind fun _ => .after fun _ => block_asking.bind fun _ => .const _

theorem functionLiteral_asking (isAsync : Bool) (start : Location) :
    Asking fun r => functionLiteral r isAsync start :=
  .after fun _ => .after fun _ => (functionRest_asking _ _ _).bind fun _ => .const _

theorem arrowParams_asking : Asking arrowParams := by
  refine .after fun b => ?_
  cases b with
  | true => exact parameters_asking
  | false => exact .const _

theorem arrowBody_asking : Asking arrowBody := by
  refine .after fun b => ?_
  cases b with
  | true => exact block_asking.bind fun _ => .const _
  | false => exact Asking.expr.bind fun _ => .const _

theorem arrowRest_asking (isAsync : Bool) (start : Location) :
    Asking fun r => arrowRest r isAsync start :=
  arrowParams_asking.bind fun _ => .after fun _ => .after fun _ =>
    arrowBody_asking.bind fun _ => .const _

theorem arrowFunction_asking (isAsync : Bool) : Asking fun r => arrowFunction r isAsync := by
  refine .after fun start => ?_
  cases isAsync with
  | true => exact .after fun _ => arrowRest_asking true start
  | false => exact arrowRest_asking false start

/-! ### Primary expressions -/

theorem chunkExpr_asks (chunk : Chunk) : Asks fun r => chunkExpr r chunk := by
  unfold chunkExpr
  cases tokenizeAt chunk.source chunk.origin.position with
  | error e => exact .ends _
  | ok ts =>
    have hwhole : Asking fun r => whole r.expr := Asking.expr.bind fun e => .const _
    exact hwhole.run _

theorem chunkExprs_ask (chunks : List Chunk) : Asks fun r => chunks.mapM (chunkExpr r) := by
  induction chunks with
  | nil => exact .ends _
  | cons chunk chunks ih =>
    have hcons : (fun r => (chunk :: chunks).mapM (chunkExpr r)) = Reading.andThen
        (fun r => chunkExpr r chunk)
        fun e => Reading.andThen (fun r => chunks.mapM (chunkExpr r)) fun es _ =>
        .ok (e :: es) := by
      funext r
      rw [List.mapM_cons]
      rfl
    rw [hcons]
    exact (chunkExpr_asks chunk).andThen fun e => ih.andThen fun es => .ends _

theorem arrayItems_asking (n : Nat) : Asking fun r => arrayItems r n := by
  induction n with
  | zero => exact .const _
  | succ n ih =>
    refine .after fun b => ?_
    cases b with
    | true => exact .const _
    | false =>
      refine .after fun b => ?_
      cases b with
      | true => exact ih.bind fun _ => .const _
      | false => exact Asking.expr.bind fun e => commaItems_asking ih _

theorem arrayLiteral_asking : Asking arrayLiteral :=
  .after fun _ => .after fun _ => .after fun _ => (arrayItems_asking _).bind fun _ => .const _

theorem property_asking : Asking property := by
  refine .after fun start => .after fun key => .after fun b => .after fun b' => ?_
  cases b with
  | true => exact (functionRest_asking _ _ _).map.bind fun _ => .const _
  | false =>
    cases b' with
    | true => exact Asking.expr.bind fun _ => .const _
    | false => exact .const _

theorem propertyItems_asking (n : Nat) : Asking fun r => propertyItems r n := by
  induction n with
  | zero => exact .const _
  | succ n ih =>
    refine .after fun b => ?_
    cases b with
    | true => exact .const _
    | false => exact property_asking.bind fun p => commaItems_asking ih p

theorem objectLiteral_asking : Asking objectLiteral :=
  .after fun _ => .after fun _ => .after fun _ =>
    (propertyItems_asking _).bind fun _ => .const _

theorem primary_asking : Asking primary := by
  refine .after fun loc => .after fun t => ?_
  split
  · exact .const _
  · exact .const _
  · exact (Asking.lift (chunkExprs_ask _)).bind fun _ => .const _
  · exact .const _
  · exact .const _
  · exact .const _
  · exact .const _
  · exact functionLiteral_asking _ _
  · refine .after fun s => ?_
    split
    · exact .after fun _ => functionLiteral_asking _ _
    · exact .const _
  · exact .after fun _ => Asking.expr.bind fun _ => .const _
  · exact arrayLiteral_asking
  · exact objectLiteral_asking
  · exact .const _

/-! ### Members and calls -/

theorem accessKey?_asking : Asking accessKey? := by
  refine .after fun b => ?_
  cases b with
  | true => exact .const _
  | false =>
    refine .after fun b => ?_
    cases b with
    | true => exact Asking.expr.bind fun _ => .const _
    | false => exact .const _

theorem members_asking (n : Nat) (e : Expr) : Asking fun r => members r n e := by
  induction n generalizing e with
  | zero => exact .const _
  | succ n ih =>
    refine accessKey?_asking.bind fun o => ?_
    cases o with
    | some key => exact .after fun _ => ih _
    | none => exact .const _

theorem constructionRest_asking (start : Location) (head : Expr) :
    Asking fun r => constructionRest r start head :=
  .after fun _ => (members_asking _ _).bind fun _ =>
    optionalArguments_asking.bind fun _ => .const _

theorem construction_asking (n : Nat) : Asking fun r => construction r n := by
  induction n with
  | zero => exact .const _
  | succ n ih =>
    refine .after fun start => .after fun _ => .after fun b => ?_
    cases b with
    | true => exact ih.bind (constructionRest_asking start)
    | false => exact primary_asking.bind (constructionRest_asking start)

theorem calls_asking (n : Nat) (e : Expr) : Asking fun r => calls r n e := by
  induction n generalizing e with
  | zero => exact .const _
  | succ n ih =>
    refine accessKey?_asking.bind fun o => ?_
    cases o with
    | some key => exact .after fun _ => ih _
    | none =>
      refine .after fun b => ?_
      cases b with
      | true => exact arguments_asking.bind fun _ => .after fun _ => ih _
      | false => exact .const _

theorem callChain_asking : Asking callChain := by
  refine .after fun b => ?_
  cases b with
  | true =>
    exact .after fun _ => (construction_asking _).bind fun _ =>
      .after fun _ => calls_asking _ _
  | false => exact primary_asking.bind fun _ => .after fun _ => calls_asking _ _

/-! ### Operators -/

theorem counted_asking : Asking counted :=
  callChain_asking.bind fun _ => .const _

theorem unary_asking : Asking unary := by
  refine .after fun t => ?_
  split
  · exact .after fun _ => Asking.unary.bind fun _ => .const _
  · exact .after fun _ => Asking.unary.bind fun _ => .const _
  · refine .after fun b => ?_
    cases b with
    | true => exact Asking.unary.bind fun _ => .const _
    | false => exact counted_asking

theorem powers_asking (n : Nat) : Asking fun r => powers r n := by
  induction n with
  | zero => exact unary_asking
  | succ n ih =>
    refine unary_asking.bind fun base => .after fun b => ?_
    cases b with
    | true => exact ih.bind fun _ => .const _
    | false => exact .const _

theorem tierRest_asking {operand : Rules → Parse Expr} (hoperand : Asking operand) (t : Tier)
    (n : Nat) (l : Expr) : Asking fun r => tierRest t (operand r) n l := by
  induction n generalizing l with
  | zero => exact .const _
  | succ n ih =>
    refine .after fun token => ?_
    split
    · exact .after fun _ => hoperand.bind fun _ => ih _
    · exact .const _

theorem layered_asking {operand : Rules → Parse Expr} (hoperand : Asking operand)
    (tiers : List Tier) : Asking fun r => layered (operand r) tiers := by
  induction tiers with
  | nil => exact hoperand
  | cons t tighter ih =>
    exact ih.bind fun first => .after fun n => tierRest_asking ih t n first

theorem joined_asking : Asking joined :=
  .after fun n => layered_asking (powers_asking n) tiers

theorem conditional_asking : Asking conditional := by
  refine joined_asking.bind fun test => .after fun b => ?_
  cases b with
  | true => exact Asking.expr.bind fun _ => .after fun _ => Asking.expr.bind fun _ => .const _
  | false => exact .const _

theorem assignment_asking : Asking assignment := by
  refine .after fun s => ?_
  split
  · exact arrowFunction_asking _
  refine conditional_asking.bind fun left => .after fun t => ?_
  split
  · exact .const _
  split
  · exact .const _
  · exact .after fun _ => Asking.expr.bind fun _ => .const _

/-! ### Statements -/

theorem declarators_asking (n : Nat) : Asking fun r => declarators r n := by
  induction n with
  | zero => exact .const _
  | succ n ih =>
    refine .after fun start => .after fun name =>
      fallback_asking.bind fun init => .after fun l => ?_
    exact commaItems_asking ih _

theorem declaration_asking (kind : DeclKind) (start : Location) :
    Asking fun r => declaration r kind start :=
  .after fun _ => .after fun _ => (declarators_asking _).bind fun _ => .const _

theorem functionDecl_asking (isAsync : Bool) (start : Location) :
    Asking fun r => functionDecl r isAsync start :=
  .after fun _ => .after fun _ => (functionRest_asking _ _ _).bind fun _ => .const _

theorem returnStmt_asking (start : Location) : Asking fun r => returnStmt r start := by
  have hvalue : Asking returnValue := by
    refine .after fun t => .after fun b => ?_
    split
    · exact .const _
    · exact Asking.expr.bind fun _ => .const _
  exact .after fun _ => hvalue.bind fun _ => .const _

theorem condition_asking (opening closing : String) :
    Asking fun r => condition r opening closing :=
  .after fun _ => Asking.expr.bind fun _ => .const _

theorem ifStmt_asking (start : Location) : Asking fun r => ifStmt r start := by
  have helse : Asking elseBranch := by
    refine .after fun b => ?_
    cases b with
    | true => exact Asking.stmt.bind fun _ => .const _
    | false => exact .const _
  exact .after fun _ => (condition_asking _ _).bind fun _ => Asking.stmt.bind fun _ =>
    helse.bind fun _ => .const _

theorem whileStmt_asking (start : Location) : Asking fun r => whileStmt r start :=
  .after fun _ => (condition_asking _ _).bind fun _ => Asking.stmt.bind fun _ => .const _

theorem doStmt_asking (start : Location) : Asking fun r => doStmt r start :=
  .after fun _ => Asking.stmt.bind fun _ => .after fun _ =>
    (condition_asking _ _).bind fun _ => .const _

theorem forOfRest_asking (kind : DeclKind) (start : Location) :
    Asking fun r => forOfRest r kind start := by
  refine .after fun _ => .after fun _ => .after fun _ =>
    Asking.expr.bind fun _ => .after fun _ => ?_
  exact Asking.stmt.bind fun _ => .const _

theorem optionalExpr_asking (sym : Symbol) : Asking fun r => optionalExpr r sym := by
  refine .after fun b => ?_
  cases b with
  | true => exact .const _
  | false => exact Asking.expr.bind fun _ => .const _

theorem forInit_asking : Asking forInit := by
  refine .after fun start => .after fun b => ?_
  cases b with
  | true => exact .const _
  | false =>
    refine .after fun t => ?_
    split
    · exact (declaration_asking _ _).bind fun _ => .const _
    · exact Asking.expr.bind fun _ => .const _

theorem forRest_asking (start : Location) : Asking fun r => forRest r start := by
  refine forInit_asking.bind fun _ => .after fun _ =>
    (optionalExpr_asking _).bind fun _ => .after fun _ => ?_
  exact (optionalExpr_asking _).bind fun _ => .after fun _ =>
    Asking.stmt.bind fun _ => .const _

theorem forStmt_asking (start : Location) : Asking fun r => forStmt r start := by
  refine .after fun _ => .after fun _ => .after fun s => .after fun t => ?_
  split
  · split
    · exact forOfRest_asking _ start
    · exact forRest_asking start
  · exact forRest_asking start

theorem handler?_asking : Asking handler? := by
  refine .after fun start => .after fun b => ?_
  cases b with
  | true => exact .after fun _ => block_asking.bind fun _ => .const _
  | false => exact .const _

theorem finalizer?_asking : Asking finalizer? := by
  refine .after fun b => ?_
  cases b with
  | true => exact block_asking.bind fun _ => .const _
  | false => exact .const _

theorem tryStmt_asking (start : Location) : Asking fun r => tryStmt r start :=
  .after fun _ => block_asking.bind fun _ => handler?_asking.bind fun _ =>
    finalizer?_asking.bind fun _ => .const _

theorem exprStmt_asking (start : Location) : Asking fun r => exprStmt r start :=
  Asking.expr.bind fun _ => .const _

theorem statement_asking : Asking statement := by
  refine .after fun start => .after fun t => ?_
  split
  · exact block_asking.bind fun _ => .const _
  · exact .const _
  · exact functionDecl_asking false start
  · exact returnStmt_asking start
  · exact ifStmt_asking start
  · exact forStmt_asking start
  · exact whileStmt_asking start
  · exact doStmt_asking start
  · exact .const _
  · exact .const _
  · exact .after fun _ => Asking.expr.bind fun _ => .const _
  · exact tryStmt_asking start
  · split
    · exact (declaration_asking _ _).bind fun _ => .const _
    · refine .after fun s => ?_
      split
      · exact .after fun _ => functionDecl_asking true start
      · exact exprStmt_asking start

theorem programItems_asking (n : Nat) : Asking fun r => programItems r n := by
  induction n with
  | zero => exact .const _
  | succ n ih =>
    refine .after fun b => ?_
    cases b with
    | true => exact .const _
    | false => exact Asking.stmt.bind fun _ => ih.bind fun _ => .const _

theorem program_asking : Asking program :=
  .after fun _ => .after fun _ => (programItems_asking _).bind fun _ => .const _

end Grammar

/-! ### Runs with a counter -/

/-- The bodies of all rules that nest only ask such rules. -/
theorem Rule.body_asks (k : Rule) (s : Stream) : Asks fun r => k.body r s := by
  cases k with
  | expr => exact Grammar.assignment_asking s
  | unary => exact Grammar.unary_asking s
  | stmt => exact Grammar.statement_asking s

/-- A reading that asks can be run with a counter.  All of its runs give what the grammar
gives with the levels that are left, and leave the counter where it was. -/
theorem Asks.counted_iff {β : Type} {φ : Reading β} (hφ : Asks φ) (d d' : Nat)
    (o : Except SyntaxError β) :
    Counted φ d o d' ↔ o = φ (.atDepth (maxNesting - d)) ∧ d' = d := by
  constructor
  · exact Counted.eq
  · rintro ⟨rfl, rfl⟩
    exact hφ.counted Rule.body_asks rfl

end ScriptReplay
