/-
A method is no expression by itself.

* `Parse.OnlyFrom` : answers of one kind from a stream on;
* `Stream.Keyed` : a token that is no parenthesis, and one that opens one, as at the start
  of a method;
* `assignment_unnamed` : no function with a name is read there;
* `isNamed_of_bare` : functions with a name are still so without their places.

Design notes: every rule hands on what the next one reads, or puts a new node around it, which
is no function.  A function is read by `primary` only: from its keyword, which a parenthesis
follows here, so that it has no name.
-/
import ScriptReplay.Proofs.Source.Excerpts.Spans
import ScriptReplay.Proofs.Source.Levels.Exprs

namespace ScriptReplay

/-- All answers of the parser are like this, if it starts here. -/
def Parse.OnlyFrom {α : Type} (s : Stream) (P : α → Prop) (x : Parse α) : Prop :=
  ∀ a s', x s = .ok (a, s') → P a

namespace Parse.OnlyFrom

variable {α β : Type} {s s₁ : Stream} {P : α → Prop} {Q : β → Prop}

theorem of_only {x : Parse α} (h : Only P x) : OnlyFrom s P x := h s

theorem bind {x : Parse α} {f : α → Parse β} (hx : OnlyFrom s P x)
    (hf : ∀ a, P a → Only Q (f a)) : OnlyFrom s Q (x >>= f) := by
  intro b s' h
  obtain ⟨a, s₁, ha, hb⟩ := bind_eq_ok h
  exact hf a (hx a s₁ ha) s₁ b s' hb

theorem step {x : Parse α} {f : α → Parse β} {a : α} (hx : x s = .ok (a, s₁))
    (hf : OnlyFrom s₁ Q (f a)) : OnlyFrom s Q (x >>= f) := by
  intro b s' h
  rw [bind_eq hx] at h
  exact hf b s' h

end Parse.OnlyFrom

/-- The first token is no parenthesis, and the second one opens one. -/
structure Stream.Keyed (s : Stream) : Prop where
  head : s.head.kind.isSymbol .lparen = false
  next : s.tail.head.kind.isSymbol .lparen = true

theorem Stream.Keyed.any_second {s : Stream} (hs : s.Keyed) {w : Keyword} :
    s.rest[1]?.any (·.kind.isKeyword w) = false := by
  cases hrest : s.rest with
  | nil => rfl
  | cons t rest =>
    have htail := (s.tail_of hrest).1
    cases rest with
    | nil => rfl
    | cons u rest =>
      have hu := hs.next
      rw [Stream.head, htail] at hu
      show u.kind.isKeyword w = false
      rw [show u.kind = .symbol .lparen from Grammar.eq_symbol_of_isSymbol hu]
      rfl

theorem Expr.not_isNamed {e : Expr} (h : ∀ f l, e ≠ .function f l) : ¬ e.IsNamed :=
  fun ⟨f, l, he, _⟩ => h f l he

theorem isNamed_of_bare {e e' : Expr} (h : bare e' = bare e) (he : e.IsNamed) :
    e'.IsNamed := by
  obtain ⟨⟨name, params, body, isArrow, isAsync, loc, bodyLoc⟩, l, rfl, harrow, hname⟩ := he
  cases e' with
  | function f' l' =>
    obtain ⟨name', params', body', isArrow', isAsync', loc', bodyLoc'⟩ := f'
    have hfunction :
        Routine.bare ⟨name', params', body', isArrow', isAsync', loc', bodyLoc'⟩ =
        Routine.bare ⟨name, params, body, isArrow, isAsync, loc, bodyLoc⟩ :=
        (Expr.function.inj h).1
    simp only [Routine.bare, Routine.mk.injEq] at hfunction
    obtain ⟨rfl, -, -, rfl, -⟩ := hfunction
    exact ⟨_, l', rfl, harrow, hname⟩
  | _ => cases h

namespace Grammar

open Parse

variable {r : Rules} {s : Stream} {e : Expr}

/-! ### Functions and primary expressions -/

theorem functionRest_unnamed (isAsync : Bool) (start : Location) :
    Only (fun f => ¬ (functionExpr f).IsNamed) (functionRest r none isAsync start) := by
  refine .after fun params => .after fun bodyStart => .after fun body =>
    .after fun l => .after fun l' => .pure ?_
  rintro ⟨f, _, hf, -, hname⟩
  cases hf
  exact hname rfl

theorem arrowRest_unnamed (isAsync : Bool) (start : Location) :
    Only (fun e => ¬ e.IsNamed) (arrowRest r isAsync start) := by
  refine .after fun params => .after fun _ => .after fun bodyStart =>
    .after fun body => .after fun l => ?_
  refine .after fun l' => .pure ?_
  rintro ⟨f, _, hf, harrow, -⟩
  cases hf
  cases harrow

theorem arrowFunction_unnamed (isAsync : Bool) :
    Only (fun e => ¬ e.IsNamed) (arrowFunction r isAsync) := by
  refine .after fun start => ?_
  cases isAsync with
  | true => exact .after fun _ => arrowRest_unnamed true start
  | false => exact arrowRest_unnamed false start

/-- A function whose keyword a parenthesis follows has no name. -/
theorem functionLiteral_unnamed (hs : s.Keyed) (hk : s.head.kind = .keyword .functionKw)
    (isAsync : Bool) (start : Location) :
    OnlyFrom s (fun e => ¬ e.IsNamed) (functionLiteral r isAsync start) := by
  have hkeyword :
      expectKeyword .functionKw "to start function expression" s = .ok ((), s.tail) := by
    unfold expectKeyword
    rw [bind_eq (eatKeyword_of hk rfl)]
    rfl
  have hname : optionalName s.tail = .ok (none, s.tail) := by
    unfold optionalName
    rw [bind_eq (x := peek) (s := s.tail) rfl, eq_symbol_of_isSymbol hs.next]
    rfl
  refine .step hkeyword (.step hname (.of_only ?_))
  exact (functionRest_unnamed isAsync start).bind fun f hf => .pure hf

theorem single_unnamed (h : ∀ f l, e ≠ .function f l) :
    OnlyFrom s (fun e => ¬ e.IsNamed) (single e) :=
  .of_only (.after fun _ => .pure (Expr.not_isNamed h))

theorem arrayLiteral_unnamed : Only (fun e => ¬ e.IsNamed) (arrayLiteral r) := by
  refine .after fun start => .after fun _ => .after fun n => .after fun items =>
    .after fun _ => .after fun l => ?_
  exact .pure (Expr.not_isNamed nofun)

theorem objectLiteral_unnamed : Only (fun e => ¬ e.IsNamed) (objectLiteral r) := by
  refine .after fun start => .after fun _ => .after fun n => .after fun properties =>
    .after fun _ => .after fun l => ?_
  exact .pure (Expr.not_isNamed nofun)

theorem primary_unnamed (hs : s.Keyed) : OnlyFrom s (fun e => ¬ e.IsNamed) (primary r) := by
  refine .step (x := here) rfl (.step (x := peek) rfl ?_)
  split
  · exact single_unnamed nofun
  · exact single_unnamed nofun
  · exact .of_only (.after fun parts => .after fun _ => .pure (Expr.not_isNamed nofun))
  · exact single_unnamed nofun
  · exact single_unnamed nofun
  · exact single_unnamed nofun
  · exact single_unnamed nofun
  · next hk => exact functionLiteral_unnamed hs hk _ _
  · next n hk =>
    refine .step (x := get) rfl ?_
    split
    · next hasync =>
      have hkeyword := (Bool.and_eq_true_iff.1 hasync).2
      rw [hs.any_second] at hkeyword
      cases hkeyword
    · exact single_unnamed nofun
  · next hk =>
    have hopens := hs.head
    rw [hk] at hopens
    cases hopens
  · exact .of_only arrayLiteral_unnamed
  · exact .of_only objectLiteral_unnamed
  · exact .of_only .unexpected

/-! ### Members and calls -/

theorem constructionRest_unnamed (start : Location) (head : Expr) :
    Only (fun e => ¬ e.IsNamed) (constructionRest r start head) :=
  .after fun _ => .after fun _ => .after fun _ => .after fun _ =>
    .pure (Expr.not_isNamed nofun)

theorem construction_unnamed (n : Nat) : Only (fun e => ¬ e.IsNamed) (construction r n) := by
  cases n with
  | zero => exact .unexpected
  | succ n =>
    refine .after fun start => .after fun _ => .after fun b => ?_
    cases b with
    | true => exact .after fun head => constructionRest_unnamed start head
    | false => exact .after fun head => constructionRest_unnamed start head

theorem calls_unnamed (n : Nat) (he : ¬ e.IsNamed) :
    Only (fun e => ¬ e.IsNamed) (calls r n e) := by
  induction n generalizing e with
  | zero => exact .pure he
  | succ n ih =>
    refine .after fun o => ?_
    cases o with
    | some key => exact .after fun l => ih (Expr.not_isNamed nofun)
    | none =>
      refine .after fun b => ?_
      cases b with
      | true => exact .after fun args => .after fun l => ih (Expr.not_isNamed nofun)
      | false => exact .pure he

theorem callChain_unnamed (hs : s.Keyed) :
    OnlyFrom s (fun e => ¬ e.IsNamed) (callChain r) := by
  refine .step (atKeyword_eq rfl .newKw) ?_
  split
  · exact .of_only (.after fun n => (construction_unnamed _).bind fun head hhead =>
      .after fun n => calls_unnamed n hhead)
  · exact (primary_unnamed hs).bind fun head hhead => .after fun n => calls_unnamed n hhead

/-! ### Operators -/

theorem counted_unnamed (hs : s.Keyed) : OnlyFrom s (fun e => ¬ e.IsNamed) (counted r) := by
  refine (callChain_unnamed hs).bind fun e he => .after fun t => ?_
  split
  · exact .after fun target => .after fun _ => .after fun l => .pure (Expr.not_isNamed nofun)
  · exact .pure he

theorem unary_unnamed (hs : s.Keyed) : OnlyFrom s (fun e => ¬ e.IsNamed) (unary r) := by
  refine .step (x := peek) rfl ?_
  split
  · exact .of_only (.after fun _ => .after fun e => .pure (Expr.not_isNamed nofun))
  · exact .of_only
      (.after fun _ => .after fun e => .after fun target => .pure (Expr.not_isNamed nofun))
  · cases hawait : s.head.kind.isKeyword .awaitKw with
    | true =>
      exact .step (eatKeyword_of rfl hawait)
        (.of_only (.after fun e => .pure (Expr.not_isNamed nofun)))
    | false => exact .step (eatKeyword_of_ne rfl hawait) (counted_unnamed hs)

theorem powers_unnamed (hs : s.Keyed) (n : Nat) :
    OnlyFrom s (fun e => ¬ e.IsNamed) (powers r n) := by
  cases n with
  | zero => exact unary_unnamed hs
  | succ n =>
    refine (unary_unnamed hs).bind fun base hbase => .after fun b => ?_
    cases b with
    | true => exact .after fun exponent => .pure (Expr.not_isNamed nofun)
    | false => exact .pure hbase

theorem tierRest_unnamed {t : Tier} {operand : Parse Expr} (n : Nat) (he : ¬ e.IsNamed) :
    Only (fun e => ¬ e.IsNamed) (tierRest t operand n e) := by
  induction n generalizing e with
  | zero => exact .pure he
  | succ n ih =>
    refine .after fun u => ?_
    split
    · next j _ =>
        exact .after fun _ => .after fun right =>
          ih (by cases j <;> exact Expr.not_isNamed nofun)
    · exact .pure he

theorem layered_unnamed {operand : Parse Expr} (h : OnlyFrom s (fun e => ¬ e.IsNamed) operand)
    (ts : List Tier) : OnlyFrom s (fun e => ¬ e.IsNamed) (layered operand ts) := by
  induction ts with
  | nil => exact h
  | cons t tighter ih =>
    exact ih.bind fun first hfirst => .after fun n => tierRest_unnamed n hfirst

theorem joined_unnamed (hs : s.Keyed) : OnlyFrom s (fun e => ¬ e.IsNamed) (joined r) :=
  .step (x := remaining) rfl (layered_unnamed (powers_unnamed hs _) tiers)

theorem conditional_unnamed (hs : s.Keyed) :
    OnlyFrom s (fun e => ¬ e.IsNamed) (conditional r) := by
  refine (joined_unnamed hs).bind fun test htest => .after fun b => ?_
  cases b with
  | true =>
    exact .after fun yes => .after fun _ => .after fun no => .pure (Expr.not_isNamed nofun)
  | false => exact .pure htest

theorem assignment_unnamed (hs : s.Keyed) :
    OnlyFrom s (fun e => ¬ e.IsNamed) (assignment r) := by
  refine .step (x := get) rfl ?_
  split
  · next isAsync _ => exact .of_only (arrowFunction_unnamed isAsync)
  · refine (conditional_unnamed hs).bind fun left hleft => .after fun t => ?_
    split
    · exact .pure hleft
    · split
      · exact .failAt
      · exact .after fun _ => .after fun value => .pure (Expr.not_isNamed nofun)

end Grammar

end ScriptReplay
