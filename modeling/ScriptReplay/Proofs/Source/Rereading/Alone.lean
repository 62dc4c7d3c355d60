/-
Expressions that are read alone.

* `Unbroken` : a parser that does not see whether a line ended before the next token;
* `ReadsAlone` : tokens that are read as an expression when nothing stands behind them;
* `alone_of_rereads` : what is read as a part of a text is read alone;
* `ReadsAlone.of_primary` up to `ReadsAlone.of_conditional` : what a rule reads alone, the
  rule for expressions does.

Design notes: tokens that stand alone end where they are read, so each rule that is looser
than the one that read them finds nothing more to do.  Only an arrow function could come
first, and what is read to its end as a conditional is none.
-/
import ScriptReplay.Proofs.Source.Rereading.Ends

namespace ScriptReplay

/-- The same token, as if no line ended before it. -/
def Token.unbroken (t : Token) : Token :=
  { t with newlineBefore := false }

/-- The same stream, as if no line ended before its next token. -/
def Stream.unbroken (s : Stream) : Stream :=
  ⟨s.rest.modifyHead Token.unbroken, s.final, s.lastStop, s.size,
    by rw [s.size_eq, List.length_modifyHead]⟩

namespace Grammar

open Parse

variable {α β : Type} {r : Rules} {s : Stream} {e : Expr}

theorem head_unbroken (s : Stream) :
    s.unbroken.head.kind = s.head.kind ∧ s.unbroken.head.loc = s.head.loc := by
  obtain ⟨rest, final, lastStop, size, hsize⟩ := s
  cases rest <;> exact ⟨rfl, rfl⟩

theorem tail_unbroken (hs : s.rest ≠ []) : s.unbroken.tail = s.tail := by
  obtain ⟨rest, final, lastStop, size, hsize⟩ := s
  cases rest with
  | nil => exact absurd rfl hs
  | cons t rest => rfl

theorem rest_ne_nil (hs : s.final.kind = .finish) (hk : s.head.kind ≠ .finish) :
    s.rest ≠ [] :=
  fun hnil => hk (head_of_rest_nil hnil hs)

/-- The parser does not see whether a line ended before the next token. -/
def Unbroken (s : Stream) (x : Parse α) : Prop :=
  s.final.kind = .finish → x s.unbroken = x s

namespace Unbroken

theorem bind {x : Parse α} {f : α → Parse β} (h : Unbroken s x) : Unbroken s (x >>= f) := by
  intro hs
  show (x s.unbroken).bind _ = (x s).bind _
  rw [h hs]

theorem here {f : Location → Parse β} (h : Unbroken s (f s.head.loc)) :
    Unbroken s (Parse.here >>= f) := by
  intro hs
  show f s.unbroken.head.loc s.unbroken = f s.head.loc s
  rw [(head_unbroken s).2]
  exact h hs

theorem remaining {f : Nat → Parse β} (h : Unbroken s (f s.size)) :
    Unbroken s (Parse.remaining >>= f) :=
  h

/-- A look at what comes next, but not at what it stands behind. -/
theorem peek {f : Token → Parse β}
    (hf : ∀ t t', t'.kind = t.kind → t'.loc = t.loc → f t' = f t)
    (h : Unbroken s (f s.head)) : Unbroken s (Parse.peek >>= f) := by
  intro hs
  show f s.unbroken.head s.unbroken = f s.head s
  rw [hf s.head s.unbroken.head (head_unbroken s).1 (head_unbroken s).2]
  exact h hs

theorem atKeyword {f : Bool → Parse β} {w : Keyword}
    (h : Unbroken s (f (s.head.kind.isKeyword w))) :
    Unbroken s (Parse.atKeyword w >>= f) := by
  intro hs
  rw [bind_eq (atKeyword_eq (head_unbroken s).1 w), bind_eq (atKeyword_eq rfl w)]
  exact h hs

theorem atSymbol {f : Bool → Parse β} {sym : Symbol}
    (h : Unbroken s (f (s.head.kind.isSymbol sym))) :
    Unbroken s (Parse.atSymbol sym >>= f) := by
  intro hs
  rw [bind_eq (atSymbol_eq (head_unbroken s).1 sym), bind_eq (atSymbol_eq rfl sym)]
  exact h hs

theorem skip (hk : s.head.kind ≠ .finish) : Unbroken s Parse.skip := by
  intro hs
  show Except.ok ((), s.unbroken.tail) = Except.ok ((), s.tail)
  rw [tail_unbroken (rest_ne_nil hs hk)]

theorem unexpected : Unbroken s (Parse.unexpected : Parse α) := by
  refine peek (fun t t' hk hl => by rw [hk, hl]) fun _ => ?_
  cases s.head.kind <;> rfl

theorem missing {wanted place : String} : Unbroken s (Parse.missing wanted place : Parse α) :=
  peek (fun t t' hk hl => by rw [hk, hl]) fun _ => rfl

theorem eatKeyword {f : Bool → Parse β} {w : Keyword}
    (h : s.head.kind.isKeyword w = false → Unbroken s (f false)) :
    Unbroken s (Parse.eatKeyword w >>= f) := by
  cases hk : s.head.kind.isKeyword w with
  | true =>
    have heat : Unbroken s (Parse.eatKeyword w) := by
      refine atKeyword ?_
      rw [hk]
      exact (skip (ne_finish_of_isKeyword (i := 0) hk).1).bind
    exact heat.bind
  | false =>
    intro hs
    rw [bind_eq (eatKeyword_of_ne (head_unbroken s).1 hk), bind_eq (eatKeyword_of_ne rfl hk)]
    exact h hk hs

theorem expectKeyword {w : Keyword} {place : String} :
    Unbroken s (Parse.expectKeyword w place) :=
  eatKeyword fun _ => missing

theorem expectSymbol {sym : Symbol} {place : String} :
    Unbroken s (Parse.expectSymbol sym place) := by
  intro hs
  unfold Parse.expectSymbol
  cases hk : s.head.kind.isSymbol sym with
  | true =>
    rw [bind_eq (eatSymbol_of (head_unbroken s).1 hk), bind_eq (eatSymbol_of rfl hk),
      tail_unbroken (rest_ne_nil hs (eq_symbol_of_isSymbol hk ▸ nofun))]
  | false =>
    rw [bind_eq (eatSymbol_of_ne (head_unbroken s).1 hk), bind_eq (eatSymbol_of_ne rfl hk)]
    exact missing hs

theorem expectName : Unbroken s Parse.expectName := by
  refine peek (fun t t' hk hl => by rw [hk, hl]) ?_
  split
  · next n hn => exact (skip (by simp [hn])).bind
  · exact fun _ => rfl

end Unbroken

theorem arrowAhead?_unbroken (ts : List Token) :
    arrowAhead? (ts.modifyHead Token.unbroken) = arrowAhead? ts := by
  cases ts with
  | nil => rfl
  | cons t ts =>
    have hasync : startsAsyncArrow (t.unbroken :: ts) = startsAsyncArrow (t :: ts) := by
      cases ts <;> rfl
    show arrowAhead? (t.unbroken :: ts) = _
    unfold arrowAhead?
    rw [hasync]
    cases startsAsyncArrow (t :: ts) <;> rfl

theorem single_unbroken (hs : s.head.kind ≠ .finish) : Unbroken s (single e) :=
  (Unbroken.skip hs).bind

theorem primary_unbroken : Unbroken s (primary r) := by
  refine .here (.peek (fun t t' hk _ => by rw [hk]) ?_)
  split
  · next hk => exact single_unbroken (by simp [hk])
  · next hk => exact single_unbroken (by simp [hk])
  · next hk =>
    cases hparts : List.mapM (chunkExpr r) _ with
    | error err => exact fun _ => rfl
    | ok parts => exact single_unbroken (by simp [hk])
  · next hk => exact single_unbroken (by simp [hk])
  · next hk => exact single_unbroken (by simp [hk])
  · next hk => exact single_unbroken (by simp [hk])
  · next hk => exact single_unbroken (by simp [hk])
  · exact Unbroken.expectKeyword.bind
  · next n hk =>
    intro hs
    -- Only the first token loses its line break, and the look is at the second one.
    have hnext : s.unbroken.rest[1]? = s.rest[1]? := by
      show (s.rest.modifyHead _)[1]? = _
      cases s.rest <;> rfl
    show (if n == "async" && s.unbroken.rest[1]?.any (·.kind.isKeyword .functionKw)
        then _ else _ : Parse Expr) s.unbroken =
      (if n == "async" && s.rest[1]?.any (·.kind.isKeyword .functionKw)
        then _ else _ : Parse Expr) s
    rw [hnext]
    split
    · exact (Unbroken.skip (by simp [hk])).bind hs
    · exact single_unbroken (by simp [hk]) hs
  · next hk => exact (Unbroken.skip (by simp [hk])).bind
  · next hk => exact .here (Unbroken.skip (by simp [hk])).bind
  · next hk => exact .here (Unbroken.skip (by simp [hk])).bind
  · exact .unexpected

theorem callChain_unbroken : Unbroken s (callChain r) := by
  refine .atKeyword ?_
  split
  · next hnew =>
    exact .remaining
      (Unbroken.bind (.here (Unbroken.skip (ne_finish_of_isKeyword (i := 0) hnew).1).bind))
  · exact primary_unbroken.bind

theorem unary_unbroken : Unbroken s (unary r) := by
  refine .peek (fun t t' hk hl => by rw [hk, hl]) ?_
  split
  · next op _ hop => exact (Unbroken.skip (unaryOp?_spec (i := 0) hop).1).bind
  · next op _ hop => exact (Unbroken.skip (updateOp?_spec (i := 0) hop).1).bind
  · exact .eatKeyword fun _ => callChain_unbroken.bind

theorem layered_unbroken {x : Parse Expr} (hx : Unbroken s x) (ts : List Tier) :
    Unbroken s (layered x ts) := by
  induction ts with
  | nil => exact hx
  | cons t ts ih => exact ih.bind

theorem powers_unbroken (n : Nat) : Unbroken s (powers r n) := by
  cases n with
  | zero => exact unary_unbroken
  | succ n => exact unary_unbroken.bind

theorem arrowFunction_unbroken {b : Bool} (hb : b = true → s.head.kind ≠ .finish) :
    Unbroken s (arrowFunction r b) := by
  refine .here ?_
  cases b with
  | true => exact (Unbroken.skip (hb rfl)).bind
  | false =>
    refine Unbroken.bind (.atSymbol ?_)
    split
    · exact Unbroken.expectSymbol.bind
    · exact Unbroken.expectName.bind

theorem conditional_unbroken : Unbroken s (conditional r) :=
  Unbroken.bind (.remaining (layered_unbroken (powers_unbroken s.size) tiers))

theorem assignment_unbroken : Unbroken s (assignment r) := by
  intro hs
  have hunbroken : arrowAhead? s.unbroken.rest = arrowAhead? s.rest :=
    arrowAhead?_unbroken s.rest
  cases hahead : arrowAhead? s.rest with
  | some b =>
    unfold assignment
    rw [bind_eq (x := get) (s := s.unbroken) rfl,
      bind_eq (x := get) (s := s) rfl, hunbroken, hahead]
    refine arrowFunction_unbroken (fun hb hfinish => ?_) hs
    have hname := isName_of_startsAsyncArrow ((arrowAhead?_eq_some.1 hahead).1.trans hb)
    rw [hfinish] at hname
    cases hname
  | none =>
    rw [assignment_eq (hunbroken.trans hahead), assignment_eq hahead]
    exact conditional_unbroken.bind hs

/-! ### Expressions that are read alone -/

/-- The parser reads tokens like these, with nothing behind them, as this expression,
up to places. -/
def ReadsAlone (y : Parse Expr) (pre : List Token) (e : Expr) : Prop :=
  ∀ t : Stream, t.final.kind = .finish → List.Forall₂ Token.Alike pre t.rest →
    ∃ e', bare e' = bare e ∧ Leaves Stream.AtEnd t (.ok e') y

/-- What is read as a part of a text is read again alone. -/
theorem alone_of_rereads {x y : Parse Expr} (h : ∀ m, Rereads False .nothing true 0 0 m s x y)
    (hs : s.final.kind = .finish) {s' : Stream} (hrun : x s = .ok (e, s')) :
    ∃ pre, s.Passes s' 0 0 pre ∧ pre ≠ [] ∧ ReadsAlone y pre e := by
  obtain ⟨pre, hp, hgrow, -⟩ := h 0 hs e s' hrun
  refine ⟨pre, hp, hgrow rfl, fun t ht halike => ?_⟩
  obtain ⟨pre₀, hp₀, -, hy⟩ := h (t.rest.length + 1) hs e s' hrun
  obtain rfl : pre₀ = pre := List.append_cancel_right (hp₀.rest.symm.trans hp.rest)
  have hagain := hy t t.rest [] ht (Nat.lt_succ_self _) (List.append_nil _).symm halike
    ⟨.nil, nofun, fun _ => rfl⟩
  cases hyt : y t with
  | error err =>
    rw [hyt] at hagain
    exact hagain.1.elim
  | ok p =>
    rw [hyt] at hagain
    exact ⟨p.1, hagain.1, p.2, hyt, hagain.2.1, hagain.2.2 ▸ ht⟩

/-- Operands joined by the operators of the given tiers. -/
def tiered (r : Rules) (ts : List Tier) : Parse Expr := do
  layered (powers r (← remaining)) ts

namespace ReadsAlone

variable {shallow : Prop} {y z : Parse Expr} {pre : List Token}

theorem mono (h : ReadsAlone y pre e)
    (hyz : ∀ {t : Stream} {e' : Expr}, t.final.kind = .finish →
      Leaves Stream.AtEnd t (.ok e') y → Leaves Stream.AtEnd t (.ok e') z) :
    ReadsAlone z pre e := by
  intro t ht halike
  obtain ⟨e', he', hleaves⟩ := h t ht halike
  exact ⟨e', he', hyz ht hleaves⟩

theorem of_conditional (hr : r.Reread shallow r) (h : ReadsAlone (conditional r) pre e) :
    ReadsAlone (assignment r) pre e := by
  refine h.mono fun ht hleaves => ?_
  obtain ⟨s', hrun, hend⟩ := hleaves
  refine assignment_leaves ⟨s', hrun, hend⟩
    (arrowAhead?_eq_none_of_conditional hr ht hrun hend.rest) fun s' h => ?_
  rw [h.head]
  rfl

theorem of_tiered (hr : r.Reread shallow r) {looser ts : List Tier}
    (hts : looser ++ ts = tiers) (h : ReadsAlone (tiered r ts) pre e) :
    ReadsAlone (assignment r) pre e := by
  refine .of_conditional hr (h.mono fun {t e'} _ hleaves => ?_)
  have hends : ∀ s' : Stream, s'.AtEnd → s'.head.kind.EndsOperands :=
    fun _ h => h.endsOperands
  have hlayered : Leaves Stream.AtEnd t (.ok e') (layered (powers r t.size) ts) := hleaves
  have htiers := layered_leaves hlayered (fun t ht => hts ▸ List.mem_append_left ts ht) hends
  rw [hts] at htiers
  exact conditional_leaves (htiers.of_eq rfl) hends

theorem of_unary (hr : r.Reread shallow r) (h : ReadsAlone (unary r) pre e) :
    ReadsAlone (assignment r) pre e := by
  have hts : tiers ++ [] = tiers := List.append_nil tiers
  refine .of_tiered hr hts (h.mono fun {t e'} _ hleaves => ?_)
  exact powers_leaves hleaves (fun _ h => h.endsOperands) t.size

theorem of_counted (hr : r.Reread shallow r) (h : ReadsAlone (counted r) pre e) :
    ReadsAlone (assignment r) pre e := by
  refine .of_unary hr (h.mono fun _ hleaves => ?_)
  obtain ⟨s', hrun, hend⟩ := hleaves
  obtain ⟨_, _, hchain, -⟩ := bind_eq_ok hrun
  have hstart := startsOperand_of_callChain hchain
  exact unary_leaves ⟨s', hrun, hend⟩ hstart.unary hstart.update hstart.await

theorem of_callChain (hr : r.Reread shallow r) (h : ReadsAlone (callChain r) pre e) :
    ReadsAlone (assignment r) pre e :=
  .of_counted hr (h.mono fun _ hleaves => counted_leaves hleaves fun _ h => h.endsOperands)

theorem of_primary (hr : r.Reread shallow r) (h : ReadsAlone (primary r) pre e) :
    ReadsAlone (assignment r) pre e := by
  refine .of_callChain hr (h.mono fun _ hleaves => ?_)
  obtain ⟨s', hrun, hend⟩ := hleaves
  refine callChain_leaves ⟨s', hrun, hend⟩ (startsOperand_of_primary hrun).2 fun s' h => ?_
  rw [h.head]
  rfl

/-- It does not matter whether a line ended before the expression. -/
theorem unbroken (h : ReadsAlone (assignment r) pre e) :
    ReadsAlone (assignment r) (pre.modifyHead Token.unbroken) e := by
  intro t ht halike
  cases pre with
  | nil => exact h t ht halike
  | cons p pre =>
    obtain ⟨rest, final, lastStop, size, hsize⟩ := t
    cases halike with
    | @cons _ u _ us hu hus =>
      obtain ⟨e', he', s', hrun, hend⟩ :=
        h ⟨{ u with newlineBefore := p.newlineBefore } :: us, final, lastStop, size, hsize⟩ ht
        (.cons ⟨hu.kind, rfl⟩ hus)
      refine ⟨e', he', s', ?_, hend⟩
      have hsame := assignment_unbroken (r := r)
        (s := ⟨{ u with newlineBefore := p.newlineBefore } :: us, final,
          lastStop, size, hsize⟩) ht
      rw [← hrun, ← hsame]
      have hnewline : u.newlineBefore = false := hu.newline
      have hunbroken :
          u = ({ u with newlineBefore := p.newlineBefore } : Token).unbroken := by
        rw [Token.unbroken, ← hnewline]
      show assignment r ⟨u :: us, _, _, _, _⟩ =
        assignment r ⟨Token.unbroken _ :: us, _, _, _, _⟩
      simp only [← hunbroken]

end ReadsAlone

end Grammar

end ScriptReplay
