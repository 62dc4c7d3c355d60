/-
The nesting counter.

The grammar is handed the rules that have one level less.  Here a single counter
stands for the levels: it goes up before a rule that nests and down behind it, whatever
comes of the rule.

* `Rule` : the rules that nest;
* `Reading` : what comes of some tokens, as a function of the rules one level deeper;
* `Counted` : the runs of a reading with a counter;
* `Asks` : a reading that does nothing with the rules but asking them, one after the other;
* `Counted.eq` : a run gives what the grammar gives with the levels that are left, and the
  counter ends where it began;
* `Asks.counted` : a reading that asks has a run.

Design notes: a run could leave the counter anywhere, as far as its definition goes.
In `fails` and `asks` the body of the rule starts with the counter one up and leaves it
somewhere, and one less than that is what the rest goes on with.
-/
import ScriptReplay.Program.Parser.Stmt

namespace ScriptReplay

variable {α β : Type}

/-! ### The rules that nest -/

/-- The rules that nest. -/
inductive Rule where
  | expr
  | unary
  | stmt

/-- What a rule reads. -/
abbrev Rule.Tree : Rule → Type
  | .expr | .unary => Expr
  | .stmt => Stmt

/-- The rules by their names. -/
def Rules.rule (r : Rules) : (k : Rule) → Parse k.Tree
  | .expr => r.expr
  | .unary => r.unary
  | .stmt => r.stmt

/-- What a rule does with the rules one level deeper. -/
def Rule.body : (k : Rule) → Rules → Parse k.Tree
  | .expr => Grammar.assignment
  | .unary => Grammar.unary
  | .stmt => Grammar.statement

theorem Rules.atDepth_zero_rule (k : Rule) (s : Stream) :
    (Rules.atDepth 0).rule k s = .error ⟨.tooDeep, s.head.loc⟩ := by
  cases k <;> rfl

theorem Rules.atDepth_succ_rule (levels : Nat) (k : Rule) (s : Stream) :
    (Rules.atDepth (levels + 1)).rule k s = k.body (Rules.atDepth levels) s := by
  cases k <;> rfl

/-! ### Readings -/

/-- What comes of some tokens, given the rules one level deeper. -/
abbrev Reading (β : Type) := Rules → Except SyntaxError β

/-- A reading that goes on from what another one gave. -/
def Reading.andThen (φ : Reading α) (ψ : α → Reading β) : Reading β :=
  fun r => (φ r).bind fun a => ψ a r

/-- A reading that asks a rule and goes on from what it gave. -/
def Reading.ask (k : Rule) (s : Stream) (ψ : k.Tree × Stream → Reading β) : Reading β :=
  Reading.andThen (fun r => r.rule k s) ψ

/-- A reading that goes on from an embedded source. -/
def Reading.embed (chunk : Chunk) (ψ : Expr → Reading β) : Reading β :=
  Reading.andThen (fun r => Grammar.chunkExpr r chunk) ψ

theorem Reading.andThen_error {φ : Reading α} {r : Rules} {e : SyntaxError}
    (h : φ r = .error e) (ψ : α → Reading β) : φ.andThen ψ r = .error e := by
  rw [andThen, h]
  rfl

theorem Reading.andThen_ok {φ : Reading α} {r : Rules} {a : α} (h : φ r = .ok a)
    (ψ : α → Reading β) : φ.andThen ψ r = ψ a r := by
  rw [andThen, h]
  rfl

theorem Reading.andThen_assoc {γ : Type} (φ : Reading α) (ψ : α → Reading β)
    (χ : β → Reading γ) : (φ.andThen ψ).andThen χ = φ.andThen fun a => (ψ a).andThen χ := by
  funext r
  show ((φ r).bind fun a => ψ a r).bind (fun b => χ b r) = (φ r).bind fun a =>
    (ψ a r).bind fun b => χ b r
  cases φ r <;> rfl

theorem Reading.andThen_pure (φ : Reading α) : (φ.andThen fun a _ => .ok a) = φ := by
  funext r
  show (φ r).bind .ok = φ r
  cases φ r <;> rfl

/-! ### Runs with a counter -/

/-- With the counter at `d` the reading can give `o` and leave the counter at `d'`.  A rule
that is asked at the ceiling finds the nesting too deep.  An embedded source can have a parser
of its own, with a counter that starts where the other one stands and is dropped with it. -/
inductive Counted : {β : Type} → Reading β → Nat → Except SyntaxError β → Nat → Prop
  | ends {β : Type} (o : Except SyntaxError β) (d : Nat) : Counted (fun _ => o) d o d
  | tooDeep {β : Type} {k : Rule} {s : Stream} {ψ : k.Tree × Stream → Reading β} {d : Nat}
    (hd : maxNesting ≤ d) : Counted (.ask k s ψ) d (.error ⟨.tooDeep, s.head.loc⟩) d
  | fails {β : Type} {k : Rule} {s : Stream}
    {ψ : k.Tree × Stream → Reading β} {d d₁ : Nat} {e : SyntaxError} (hd : d < maxNesting)
    (hbody : Counted (fun r => k.body r s) (d + 1) (.error e) d₁) :
    Counted (.ask k s ψ) d (.error e) (d₁ - 1)
  | asks {β : Type} {k : Rule} {s : Stream} {ψ : k.Tree × Stream → Reading β}
    {d d₁ d' : Nat} {a : k.Tree × Stream} {o : Except SyntaxError β} (hd : d < maxNesting)
    (hbody : Counted (fun r => k.body r s) (d + 1) (.ok a) d₁)
    (hrest : Counted (ψ a) (d₁ - 1) o d') : Counted (.ask k s ψ) d o d'
  | embeddedFails {β : Type} {chunk : Chunk}
    {ψ : Expr → Reading β} {d d₁ : Nat} {e : SyntaxError}
    (hembedded : Counted (fun r => Grammar.chunkExpr r chunk) d (.error e) d₁) :
    Counted (.embed chunk ψ) d (.error e) d
  | embedded {β : Type} {chunk : Chunk}
    {ψ : Expr → Reading β} {d d₁ d' : Nat} {a : Expr} {o : Except SyntaxError β}
    (hembedded : Counted (fun r => Grammar.chunkExpr r chunk) d (.ok a) d₁)
    (hrest : Counted (ψ a) d o d') :
    Counted (.embed chunk ψ) d o d'

/-- A run gives what the grammar gives with the levels that are left, and the counter ends
where it began. -/
theorem Counted.eq {φ : Reading β} {d d' : Nat} {o : Except SyntaxError β}
    (h : Counted φ d o d') : o = φ (.atDepth (maxNesting - d)) ∧ d' = d := by
  -- By induction on the run: the body of a rule gives the counter back one up, so one less is
  -- where it was.
  induction h with
  | ends => exact ⟨rfl, rfl⟩
  | @tooDeep _ k s ψ d hd =>
    have hrule : (Rules.atDepth (maxNesting - d)).rule k s =
        .error ⟨.tooDeep, s.head.loc⟩ := by
      rw [Nat.sub_eq_zero_of_le hd, Rules.atDepth_zero_rule]
    exact ⟨(Reading.andThen_error hrule ψ).symm, rfl⟩
  | @fails _ k s ψ d d₁ e hd _ ih =>
    obtain ⟨hbody, rfl⟩ := ih
    have hrule : (Rules.atDepth (maxNesting - d)).rule k s = .error e := by
      rw [show maxNesting - d = maxNesting - (d + 1) + 1 by omega,
        Rules.atDepth_succ_rule, hbody]
    exact ⟨(Reading.andThen_error hrule ψ).symm, rfl⟩
  | @asks _ k s ψ d d₁ d' a o hd _ _ ihbody ihrest =>
    obtain ⟨hbody, hup⟩ := ihbody
    subst hup
    have hrule : (Rules.atDepth (maxNesting - d)).rule k s = .ok a := by
      rw [show maxNesting - d = maxNesting - (d + 1) + 1 by omega,
        Rules.atDepth_succ_rule, hbody]
    exact ⟨ihrest.1.trans (Reading.andThen_ok hrule ψ).symm, ihrest.2⟩
  | @embeddedFails _ chunk ψ d d₁ e _ ih =>
    exact ⟨(Reading.andThen_error ih.1.symm ψ).symm, rfl⟩
  | @embedded _ chunk ψ d d₁ d' a o _ _ ih ihrest =>
    exact ⟨ihrest.1.trans (Reading.andThen_ok ih.1.symm ψ).symm, ihrest.2⟩

/-! ### Readings that ask -/

/-- The reading asks rules, one after the other, and does nothing else with them. -/
inductive Asks : {β : Type} → Reading β → Prop
  | ends {β : Type} (o : Except SyntaxError β) : Asks fun _ => o
  | ask {β : Type} {k : Rule} {s : Stream} {ψ : k.Tree × Stream → Reading β}
    (h : ∀ a, Asks (ψ a)) : Asks (.ask k s ψ)

theorem Asks.andThen {φ : Reading α} {ψ : α → Reading β} (hφ : Asks φ)
    (hψ : ∀ a, Asks (ψ a)) : Asks (φ.andThen ψ) := by
  induction hφ with
  | ends o =>
    cases o with
    | error e => exact .ends (.error e)
    | ok a => exact hψ a
  | @ask k s φ _ ih =>
    rw [Reading.ask, Reading.andThen_assoc]
    exact .ask fun a => ih a

theorem Asks.rule (k : Rule) (s : Stream) : Asks fun r => r.rule k s := by
  rw [← Reading.andThen_pure fun r => r.rule k s]
  exact .ask fun a => .ends (.ok a)

/-- If the bodies of all rules only ask, then a reading that asks has a run, however deep the
rules nest. -/
theorem Asks.counted (hbody : ∀ k s, Asks fun r => Rule.body k r s) {φ : Reading β}
    (hφ : Asks φ) {levels d : Nat} (hd : maxNesting - d = levels) :
    Counted φ d (φ (.atDepth levels)) d := by
  -- By induction on the levels that are left, and on the questions within one of them.
  induction levels generalizing β d with
  | zero =>
    induction hφ with
    | ends o => exact .ends o d
    | @ask k s ψ _ _ =>
      rw [Reading.ask, Reading.andThen_error (Rules.atDepth_zero_rule k s)]
      exact .tooDeep (by omega)
  | succ levels ih =>
    induction hφ with
    | ends o => exact .ends o d
    | @ask k s ψ _ ihψ =>
      have hrule := Rules.atDepth_succ_rule levels k s
      have hrun := ih (hbody k s) (d := d + 1) (by omega)
      cases ho : k.body (.atDepth levels) s with
      | error e =>
        rw [ho] at hrun hrule
        rw [Reading.ask, Reading.andThen_error hrule]
        exact .fails (by omega) hrun
      | ok a =>
        rw [ho] at hrun hrule
        rw [Reading.ask, Reading.andThen_ok hrule]
        exact .asks (by omega) hrun (ihψ a)

/-! ### Parsers that ask -/

/-- The parser asks rules, whatever it reads. -/
def Asking (x : Rules → Parse α) : Prop :=
  ∀ s, Asks fun r => x r s

namespace Asking

theorem const (x : Parse α) : Asking fun _ => x :=
  fun s => .ends (x s)

theorem bind {x : Rules → Parse α} {f : Rules → α → Parse β} (hx : Asking x)
    (hf : ∀ a, Asking fun r => f r a) : Asking fun r => x r >>= f r := by
  intro s
  have hbind : (fun r => (x r >>= f r) s) = Reading.andThen (fun r => x r s) fun a r =>
      f r a.1 a.2 :=
    rfl
  rw [hbind]
  exact (hx s).andThen fun a => hf a.1 a.2

/-- A parser that asks nothing, and what follows. -/
theorem after {x : Parse α} {f : Rules → α → Parse β} (hf : ∀ a, Asking fun r => f r a) :
    Asking fun r => x >>= f r :=
  (const x).bind hf

theorem map {x : Rules → Parse α} {f : α → β} (hx : Asking x) :
    Asking fun r => f <$> x r := by
  simp only [map_eq_pure_bind]
  exact hx.bind fun a => .const _

theorem expr : Asking Rules.expr := Asks.rule .expr

theorem unary : Asking Rules.unary := Asks.rule .unary

theorem stmt : Asking Rules.stmt := Asks.rule .stmt

/-- What a parser gives, without the stream that it leaves. -/
theorem run {x : Rules → Parse α} (hx : Asking x) (s : Stream) :
    Asks fun r => (x r).run' s := by
  have hrun : (fun r => (x r).run' s) = Reading.andThen (fun r => x r s) fun a _ =>
      .ok a.1 := by
    funext r
    show (x r s).map Prod.fst = (x r s).bind fun a => .ok a.1
    cases x r s <;> rfl
  rw [hrun]
  exact (hx s).andThen fun a => .ends (.ok a.1)

/-- What comes without tokens. -/
theorem lift {φ : Reading α} (hφ : Asks φ) : Asking fun r => liftM (φ r) := by
  intro s
  have hlift : (fun r => (liftM (φ r) : Parse α) s) = φ.andThen fun a _ => .ok (a, s) := by
    funext r
    show _ = (φ r).bind fun a => .ok (a, s)
    cases φ r <;> rfl
  rw [hlift]
  exact hφ.andThen fun a => .ends (.ok (a, s))

end Asking

end ScriptReplay
