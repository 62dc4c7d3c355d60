/-
The grammar of expressions goes down where it counts levels.

* `Parse.Only` : a parser whose answers are all of one kind;
* `Stays`, `Spares` : trees that need no more than some levels, or less;
* `Rules.Spare` : rules whose answers leave one level at least;
* `Grammar.primary_only`, `Grammar.callChain_only`, `Grammar.powers_only` : operands stay on
  the level they are read on;
* `Grammar.unary_only`, `Grammar.assignment_only` : so do the two rules through which
  expressions nest.

Design notes: nothing is said about the tokens left, so what only passes tokens
is skipped over.
-/
import ScriptReplay.Proofs.Source.Levels
import ScriptReplay.Proofs.Source.Stages

namespace ScriptReplay

/-! ### Parsers with one kind of answers -/

/-- All answers of the parser are like this. -/
def Parse.Only {α : Type} (P : α → Prop) (x : Parse α) : Prop :=
  ∀ s a s', x s = .ok (a, s') → P a

namespace Parse.Only

variable {α β : Type} {P : α → Prop} {Q : β → Prop}

theorem pure {a : α} (h : P a) : Only P (Pure.pure a) := by
  rintro s _ s' h'
  cases h'
  exact h

theorem bind {x : Parse α} {f : α → Parse β} (hx : Only P x) (hf : ∀ a, P a → Only Q (f a)) :
    Only Q (x >>= f) := by
  intro s b s' h
  have hbind : (x s).bind (fun r => f r.1 r.2) = .ok (b, s') := h
  cases hr : x s with
  | error e =>
    rw [hr] at hbind
    cases hbind
  | ok r =>
    rw [hr] at hbind
    exact hf r.1 (hx s r.1 r.2 hr) r.2 b s' hbind

/-- Whatever a parser answers, what follows it has one kind of answers. -/
theorem after {x : Parse α} {f : α → Parse β} (hf : ∀ a, Only Q (f a)) : Only Q (x >>= f) :=
  bind (P := fun _ => True) (fun _ _ _ _ => trivial) fun a _ => hf a

theorem map {x : Parse α} {f : α → β} (hx : Only P x) (hf : ∀ a, P a → Q (f a)) :
    Only Q (f <$> x) := by
  rw [map_eq_pure_bind]
  exact hx.bind fun a h => .pure (hf a h)

theorem imp {P' : α → Prop} {x : Parse α} (hx : Only P x) (h : ∀ a, P a → P' a) : Only P' x :=
  fun s a s' h' => h a (hx s a s' h')

theorem failAt {cause : SyntaxCause} {loc : Location} : Only P (Parse.failAt cause loc) := by
  rintro s a s' h
  cases h

theorem unexpected : Only P Parse.unexpected := by
  refine .after fun t => ?_
  split
  · exact .failAt
  · exact .failAt

theorem run {x : Parse α} (hx : Only P x) {s : Stream} {a : α} (h : x.run' s = .ok a) :
    P a := by
  have hrun : (x s).map Prod.fst = .ok a := h
  cases hr : x s with
  | error e =>
    rw [hr] at hrun
    cases hrun
  | ok r =>
    rw [hr] at hrun
    cases hrun
    exact hx s r.1 r.2 hr

end Parse.Only

/-! ### Trees with levels to spare -/

section
variable {α : Type} [Fragments α] {k : Nat}

/-- The tree needs no more than a number of levels. -/
abbrev Stays (k : Nat) (a : α) : Prop :=
  Each (Fragment.Within k) a

/-- The tree needs less than a number of levels. -/
abbrev Spares (k : Nat) (a : α) : Prop :=
  Each (Fragment.Spares k) a

theorem Spares.stays {a : α} (h : Spares k a) : Stays k a :=
  fun n hn => (h n hn).within

/-- A tree that needs no more than some levels leaves one of those that are one more. -/
theorem Stays.spares {a : α} (h : Stays k a) : Spares (k + 1) a :=
  fun n hn => ⟨k, Nat.lt_succ_self k, h n hn⟩

theorem stays_of {a : α} {n : Fragment} (ha : fragments a = [n])
    (hbeside : ∀ m ∈ n.beside, m.Within k) (hunder : ∀ m ∈ n.under, m.Spares k) :
    Stays k a := by
  unfold Stays Each
  rw [ha]
  exact List.forall_mem_singleton.2 (Fragment.within_of hbeside hunder)

/-- An expression needs the levels of what is on its level, and one more than what is a
level down. -/
theorem Expr.stays {e : Expr} (hbeside : ∀ m ∈ e.beside, m.Within k)
    (hunder : ∀ m ∈ e.under, m.Spares k) : Stays k e :=
  stays_of rfl hbeside hunder

theorem Stmt.stays {s : Stmt} (hbeside : ∀ m ∈ s.beside, m.Within k)
    (hunder : ∀ m ∈ s.under, m.Spares k) : Stays k s :=
  stays_of rfl hbeside hunder

theorem Routine.stays {f : Routine} (hparams : Spares k f.params) (hbody : Spares k f.body) :
    Stays k f :=
  stays_of rfl
    (List.forall_mem_singleton.2 (Fragment.within_of (List.forall_mem_nil _) hbody)) hparams

theorem Property.stays_method {p : Property} (hown : p.value.isOwnValue = true)
    (h : Stays k p.value) : Stays k p := by
  refine stays_of rfl ?_ ?_
  · show ∀ m ∈ if p.value.isOwnValue then fragments p.value else [], m.Within k
    rw [if_pos hown]
    exact h
  · show ∀ m ∈ if p.value.isOwnValue then [] else fragments p.value, m.Spares k
    rw [if_pos hown]
    exact List.forall_mem_nil _

theorem Property.stays {p : Property} (h : Spares k p.value) : Stays k p := by
  cases hown : p.value.isOwnValue with
  | true => exact stays_method hown h.stays
  | false =>
    refine stays_of rfl ?_ ?_
    · show ∀ m ∈ if p.value.isOwnValue then fragments p.value else [], m.Within k
      rw [hown]
      exact List.forall_mem_nil _
    · show ∀ m ∈ if p.value.isOwnValue then [] else fragments p.value, m.Spares k
      rw [hown]
      exact h

end

/-- What the rules read needs less than a number of levels. -/
structure Rules.Spare (r : Rules) (k : Nat) : Prop where
  expr : Parse.Only (Spares k) r.expr
  unary : Parse.Only (Spares k) r.unary
  stmt : Parse.Only (Spares k) r.stmt

namespace Grammar

open Parse

variable {r : Rules} {k : Nat}

/-! ### Lists of things -/

section
variable {α : Type} [Fragments α] {P : Fragment → Prop}

/-- An item, and more of them behind a comma. -/
theorem commaItems_only {more : Parse (List α)} (hmore : Only (Each P) more) {a : α}
    (ha : Each P a) :
    Only (Each P) (do if ← eatSymbol .comma then return a :: (← more) else return [a]) := by
  refine .after fun b => ?_
  cases b with
  | true => exact hmore.bind fun as has => .pure (each_cons.2 ⟨ha, has⟩)
  | false => exact .pure (each_cons.2 ⟨ha, each_nil⟩)

/-- An item, and more of them behind it. -/
theorem items_only {item : Parse α} {more : Parse (List α)} (hitem : Only (Each P) item)
    (hmore : Only (Each P) more) : Only (Each P) (do let a ← item; return a :: (← more)) :=
  hitem.bind fun _ ha => hmore.bind fun _ has => .pure (each_cons.2 ⟨ha, has⟩)

/-- Items between two symbols. -/
theorem bracketed_only {items : Nat → Parse α} (hitems : ∀ n, Only (Each P) (items n))
    (left right : Symbol) (opening closing : String) :
    Only (Each P) (do
      expectSymbol left opening
      let a ← items ((← remaining) + 1)
      expectSymbol right closing
      return a) :=
  .after fun _ => .after fun _ => (hitems _).bind fun _ ha => .after fun _ => .pure ha

end

theorem argumentItems_only (hr : r.Spare k) (n : Nat) :
    Only (Spares k) (argumentItems r n) := by
  induction n with
  | zero => exact .pure each_nil
  | succ n ih =>
    refine .after fun b => ?_
    cases b with
    | true => exact .pure each_nil
    | false => exact hr.expr.bind fun e he => commaItems_only ih he

theorem arguments_only (hr : r.Spare k) : Only (Spares k) (arguments r) :=
  bracketed_only (argumentItems_only hr) _ _ _ _

theorem optionalArguments_only (hr : r.Spare k) : Only (Spares k) (optionalArguments r) := by
  refine .after fun b => ?_
  cases b with
  | true => exact arguments_only hr
  | false => exact .pure each_nil

theorem fallback_only (hr : r.Spare k) : Only (Spares k) (fallback r) := by
  refine .after fun b => ?_
  cases b with
  | true => exact hr.expr.bind fun e he => .pure he
  | false => exact .pure (List.forall_mem_nil _)

theorem parameterItems_only (hr : r.Spare k) (n : Nat) :
    Only (Spares k) (parameterItems r n) := by
  induction n with
  | zero => exact .pure each_nil
  | succ n ih =>
    refine .after fun b => ?_
    cases b with
    | true => exact .pure each_nil
    | false =>
      refine .after fun name => ?_
      refine (fallback_only hr).bind fun o ho => ?_
      exact commaItems_only ih (a := ⟨name, o⟩) ho

theorem parameters_only (hr : r.Spare k) : Only (Spares k) (parameters r) :=
  bracketed_only (parameterItems_only hr) _ _ _ _

theorem blockItems_only (hr : r.Spare k) (n : Nat) : Only (Spares k) (blockItems r n) := by
  induction n with
  | zero => exact .pure each_nil
  | succ n ih =>
    refine .after fun b => .after fun b' => ?_
    split
    · exact .pure each_nil
    · exact items_only hr.stmt ih

theorem block_only (hr : r.Spare k) : Only (Spares k) (block r) :=
  bracketed_only (blockItems_only hr) _ _ _ _

/-! ### Functions -/

theorem functionRest_only (hr : r.Spare k) (name : Option String) (isAsync : Bool)
    (start : Location) : Only (Stays k) (functionRest r name isAsync start) := by
  refine (parameters_only hr).bind fun params hparams => ?_
  refine .after fun _ => ?_
  refine (block_only hr).bind fun body hbody => ?_
  refine .after fun _ => .after fun _ => ?_
  exact .pure (Routine.stays hparams hbody)

theorem stays_functionExpr {f : Routine} (h : Stays k f) : Stays k (functionExpr f) :=
  Expr.stays h (List.forall_mem_nil _)

theorem functionLiteral_only (hr : r.Spare k) (isAsync : Bool) (start : Location) :
    Only (Stays k) (functionLiteral r isAsync start) :=
  .after fun _ => .after fun _ => (functionRest_only hr _ _ _).bind fun _ hf =>
    .pure (stays_functionExpr hf)

theorem arrowParams_only (hr : r.Spare k) : Only (Spares k) (arrowParams r) := by
  refine .after fun b => ?_
  cases b with
  | true => exact parameters_only hr
  | false => exact .after fun name => .pure (List.forall_mem_nil _)

theorem arrowBody_only (hr : r.Spare k) : Only (Spares k) (arrowBody r) := by
  refine .after fun b => ?_
  cases b with
  | true => exact (block_only hr).bind fun _ hbody => .pure hbody
  | false => exact hr.expr.bind fun _ he => .pure he

theorem arrowRest_only (hr : r.Spare k) (isAsync : Bool) (start : Location) :
    Only (Stays k) (arrowRest r isAsync start) := by
  refine (arrowParams_only hr).bind fun params hparams => ?_
  refine .after fun _ => .after fun _ => ?_
  refine (arrowBody_only hr).bind fun body hbody => ?_
  refine .after fun _ => .after fun _ => ?_
  exact .pure (stays_functionExpr (Routine.stays hparams hbody))

theorem arrowFunction_only (hr : r.Spare k) (isAsync : Bool) :
    Only (Stays k) (arrowFunction r isAsync) := by
  refine .after fun start => ?_
  cases isAsync with
  | true => exact .after fun _ => arrowRest_only hr true start
  | false => exact arrowRest_only hr false start

/-! ### Primary expressions -/

theorem chunkExpr_spares (hr : r.Spare k) {chunk : Chunk} {e : Expr}
    (h : chunkExpr r chunk = .ok e) : Spares k e := by
  unfold chunkExpr at h
  split at h
  · cases h
  · refine Only.run (hr.expr.bind fun e he => .after fun b => ?_) h
    cases b with
    | true => exact .pure he
    | false => exact .unexpected

theorem chunkExprs_spare (hr : r.Spare k) {chunks : List Chunk} {es : List Expr}
    (h : chunks.mapM (chunkExpr r) = .ok es) : Spares k es := by
  induction chunks generalizing es with
  | nil =>
    cases h
    exact each_nil
  | cons chunk chunks ih =>
    rw [List.mapM_cons] at h
    cases he : chunkExpr r chunk with
    | error => rw [he] at h; cases h
    | ok e =>
      cases hes : chunks.mapM (chunkExpr r) with
      | error => rw [he, hes] at h; cases h
      | ok es' =>
        rw [he, hes] at h
        cases h
        exact each_cons.2 ⟨chunkExpr_spares hr he, ih hes⟩

theorem arrayItems_only (hr : r.Spare k) (n : Nat) : Only (Spares k) (arrayItems r n) := by
  induction n with
  | zero => exact .pure each_nil
  | succ n ih =>
    refine .after fun b => ?_
    cases b with
    | true => exact .pure each_nil
    | false =>
      refine .after fun b => ?_
      cases b with
      | true =>
        refine ih.bind fun _ hitems => ?_
        exact .pure (each_cons.2 ⟨List.forall_mem_nil _, hitems⟩)
      | false => exact hr.expr.bind fun e he => commaItems_only ih (a := some e) he

theorem arrayLiteral_only (hr : r.Spare k) : Only (Stays k) (arrayLiteral r) := by
  refine .after fun _ => .after fun _ => .after fun _ => ?_
  refine (arrayItems_only hr _).bind fun items hitems => ?_
  refine .after fun _ => .after fun _ => ?_
  exact .pure (Expr.stays (List.forall_mem_nil _) hitems)

theorem property_only (hr : r.Spare k) : Only (Stays k) (property r) := by
  refine .after fun start => .after fun key => ?_
  -- A method, or a name for both.
  have hown : ∀ {x : Parse Expr}, Only (fun e => e.isOwnValue = true ∧ Stays k e) x →
      Only (Stays k)
        (do let value ← x; return (⟨key.1, value, ← spanFrom start⟩ : Property)) :=
    fun hx => hx.bind fun value hvalue => .after fun _ =>
      .pure (Property.stays_method hvalue.1 hvalue.2)
  refine .after fun b => .after fun b' => ?_
  cases b with
  | true =>
    exact hown ((functionRest_only hr _ _ _).map fun f hf => ⟨rfl, stays_functionExpr hf⟩)
  | false =>
    cases b' with
    | true =>
      refine hr.expr.bind fun value hvalue => ?_
      refine .after fun _ => ?_
      exact .pure (Property.stays hvalue)
    | false =>
      obtain ⟨name, alone⟩ := key
      cases alone with
      | true =>
        exact hown (.pure ⟨rfl, Expr.stays (List.forall_mem_nil _) (List.forall_mem_nil _)⟩)
      | false => exact hown .unexpected

theorem propertyItems_only (hr : r.Spare k) (n : Nat) :
    Only (Stays k) (propertyItems r n) := by
  induction n with
  | zero => exact .pure each_nil
  | succ n ih =>
    refine .after fun b => ?_
    cases b with
    | true => exact .pure each_nil
    | false => exact (property_only hr).bind fun p hp => commaItems_only ih hp

theorem objectLiteral_only (hr : r.Spare k) : Only (Stays k) (objectLiteral r) := by
  refine .after fun _ => .after fun _ => .after fun _ => ?_
  refine (propertyItems_only hr _).bind fun ps hps => ?_
  refine .after fun _ => .after fun _ => ?_
  exact .pure (Expr.stays hps (List.forall_mem_nil _))

theorem single_only {e : Expr} (h : Stays k e) : Only (Stays k) (single e) :=
  .after fun _ => .pure h

theorem primary_only (hr : r.Spare k) : Only (Stays k) (primary r) := by
  have hleaf : ∀ e : Expr, e.beside = [] → e.under = [] → Only (Stays k) (single e) :=
    fun e hb hu =>
    single_only (Expr.stays (hb ▸ List.forall_mem_nil _) (hu ▸ List.forall_mem_nil _))
  refine .after fun loc => .after fun t => ?_
  split
  · exact hleaf _ rfl rfl
  · exact hleaf _ rfl rfl
  · next texts chunks _ =>
    refine .bind (P := Spares k) (fun s es s' h => ?_) fun parts hparts =>
      single_only (Expr.stays (List.forall_mem_nil _) hparts)
    cases hes : chunks.mapM (chunkExpr r) with
    | error => rw [hes] at h; cases h
    | ok es' =>
      rw [hes] at h
      cases h
      exact chunkExprs_spare hr hes
  · exact hleaf _ rfl rfl
  · exact hleaf _ rfl rfl
  · exact hleaf _ rfl rfl
  · exact hleaf _ rfl rfl
  · exact functionLiteral_only hr _ _
  · refine .after fun s => ?_
    split
    · exact .after fun _ => functionLiteral_only hr _ _
    · exact hleaf _ rfl rfl
  · refine .after fun _ => ?_
    refine hr.expr.bind fun e he => ?_
    refine .after fun _ => ?_
    exact .pure he.stays
  · exact arrayLiteral_only hr
  · exact objectLiteral_only hr
  · exact .unexpected

/-! ### Members and calls -/

theorem accessKey?_only (hr : r.Spare k) : Only (Spares k) (accessKey? r) := by
  refine .after fun b => ?_
  cases b with
  | true => exact .after fun _ => .pure (List.forall_mem_nil _)
  | false =>
    refine .after fun b => ?_
    cases b with
    | true =>
      refine hr.expr.bind fun e he => ?_
      refine .after fun _ => ?_
      exact .pure he
    | false => exact .pure (List.forall_mem_nil _)

theorem members_only (hr : r.Spare k) (n : Nat) {e : Expr} (he : Stays k e) :
    Only (Stays k) (members r n e) := by
  induction n generalizing e with
  | zero => exact .pure he
  | succ n ih =>
    refine (accessKey?_only hr).bind fun o ho => ?_
    cases o with
    | none => exact .pure he
    | some key => exact .after fun l => ih (Expr.stays he ho)

theorem constructionRest_only (hr : r.Spare k) (start : Location) {head : Expr}
    (hhead : Stays k head) : Only (Stays k) (constructionRest r start head) := by
  refine .after fun m => ?_
  refine (members_only hr m hhead).bind fun callee hcallee => ?_
  refine (optionalArguments_only hr).bind fun args hargs => ?_
  exact .after fun l => .pure (Expr.stays hcallee hargs)

theorem construction_only (hr : r.Spare k) (n : Nat) : Only (Stays k) (construction r n) := by
  induction n with
  | zero => exact .unexpected
  | succ n ih =>
    refine .after fun start => .after fun _ => .after fun b => ?_
    cases b with
    | true => exact ih.bind fun head hhead => constructionRest_only hr start hhead
    | false =>
      refine (primary_only hr).bind fun head hhead => ?_
      exact constructionRest_only hr start hhead

theorem calls_only (hr : r.Spare k) (n : Nat) {e : Expr} (he : Stays k e) :
    Only (Stays k) (calls r n e) := by
  induction n generalizing e with
  | zero => exact .pure he
  | succ n ih =>
    refine (accessKey?_only hr).bind fun o ho => ?_
    cases o with
    | some key => exact .after fun l => ih (Expr.stays he ho)
    | none =>
      refine .after fun b => ?_
      cases b with
      | true =>
        refine (arguments_only hr).bind fun args hargs => ?_
        refine .after fun l => ?_
        exact ih (Expr.stays he hargs)
      | false => exact .pure he

theorem callChain_only (hr : r.Spare k) : Only (Stays k) (callChain r) := by
  refine .after fun b => ?_
  cases b with
  | true =>
    refine .after fun n => ?_
    refine (construction_only hr _).bind fun e he => ?_
    refine .after fun n => ?_
    exact calls_only hr n he
  | false =>
    refine (primary_only hr).bind fun e he => ?_
    refine .after fun n => ?_
    exact calls_only hr n he

/-! ### Operators -/

/-- A target is the expression that it was read as. -/
theorem each_target {P : Fragment → Prop} {e : Expr} {t : Target} (ht : e.target? = some t)
    (he : Each P e) : Each P t := by
  cases e <;> cases ht <;> exact he

theorem updateTarget_only {P : Fragment → Prop} {e : Expr} (he : Each P e) :
    Only (Each P) (updateTarget e) := by
  unfold updateTarget
  split
  · next t ht => exact .pure (each_target ht he)
  · exact .failAt

theorem counted_only (hr : r.Spare k) : Only (Stays k) (counted r) := by
  refine (callChain_only hr).bind fun e he => ?_
  refine .after fun t => ?_
  split
  · refine (updateTarget_only he).bind fun target htarget => ?_
    refine .after fun _ => .after fun l => ?_
    exact .pure (Expr.stays htarget (List.forall_mem_nil _))
  · exact .pure he

theorem unary_only (hr : r.Spare k) : Only (Stays k) (unary r) := by
  refine .after fun t => ?_
  split
  · refine .after fun _ => ?_
    refine hr.unary.bind fun e he => ?_
    exact .pure (Expr.stays (List.forall_mem_nil _) he)
  · refine .after fun _ => ?_
    refine hr.unary.bind fun e he => ?_
    refine (updateTarget_only he).bind fun target htarget => ?_
    exact .pure (Expr.stays (List.forall_mem_nil _) htarget)
  · refine .after fun b => ?_
    cases b with
    | true =>
      refine hr.unary.bind fun e he => ?_
      exact .pure (Expr.stays (List.forall_mem_nil _) he)
    | false => exact counted_only hr

theorem stays_joined {e e' f : Expr} (hbeside : f.beside = fragments e ++ fragments e')
    (hunder : f.under = []) (he : Stays k e) (he' : Stays k e') : Stays k f := by
  refine Expr.stays ?_ (hunder ▸ List.forall_mem_nil _)
  rw [hbeside]
  exact List.forall_mem_append.2 ⟨he, he'⟩

theorem powers_only (hr : r.Spare k) (n : Nat) : Only (Stays k) (powers r n) := by
  induction n with
  | zero => exact unary_only hr
  | succ n ih =>
    refine (unary_only hr).bind fun base hbase => ?_
    refine .after fun b => ?_
    cases b with
    | true =>
      refine ih.bind fun exponent hexponent => ?_
      exact .pure (stays_joined rfl rfl hbase hexponent)
    | false => exact .pure hbase

theorem tierRest_only {operand : Parse Expr} (hoperand : Only (Stays k) operand) (t : Tier)
    (n : Nat) {l : Expr} (hl : Stays k l) : Only (Stays k) (tierRest t operand n l) := by
  induction n generalizing l with
  | zero => exact .pure hl
  | succ n ih =>
    refine .after fun token => ?_
    split
    · next j _ =>
      refine .after fun _ => ?_
      refine hoperand.bind fun e he => ?_
      refine ih ?_
      cases j with
      | _ => exact stays_joined rfl rfl hl he
    · exact .pure hl

theorem layered_only {operand : Parse Expr} (hoperand : Only (Stays k) operand)
    (tiers : List Tier) : Only (Stays k) (layered operand tiers) := by
  induction tiers with
  | nil => exact hoperand
  | cons t tighter ih =>
    refine ih.bind fun first hfirst => ?_
    refine .after fun n => ?_
    exact tierRest_only ih t n hfirst

theorem conditional_only (hr : r.Spare k) : Only (Stays k) (conditional r) := by
  have hjoined : Only (Stays k) (joined r) :=
    .after fun n => layered_only (powers_only hr n) tiers
  refine hjoined.bind fun test htest => ?_
  refine .after fun b => ?_
  cases b with
  | false => exact .pure htest
  | true =>
    refine hr.expr.bind fun yes hyes => ?_
    refine .after fun _ => ?_
    refine hr.expr.bind fun no hno => ?_
    refine .pure ?_
    exact Expr.stays htest (List.forall_mem_append.2 ⟨hyes, hno⟩)

theorem assignment_only (hr : r.Spare k) : Only (Stays k) (assignment r) := by
  refine .after fun s => ?_
  split
  · exact arrowFunction_only hr _
  refine (conditional_only hr).bind fun left hleft => ?_
  refine .after fun t => ?_
  split
  · exact .pure hleft
  split
  · exact .failAt
  · next target htarget =>
    refine .after fun _ => ?_
    refine hr.expr.bind fun value hvalue => ?_
    refine .pure ?_
    exact Expr.stays (each_target htarget hleft) hvalue

end Grammar

end ScriptReplay
