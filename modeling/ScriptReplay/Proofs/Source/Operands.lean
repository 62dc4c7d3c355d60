/-
The grammar where every operand stands in parentheses.

Each rule of the grammar is left at the next closing token, or meets the one operator that
it is there for.

* `Expr.nesting` : how many levels the grammar goes down in a printed expression;
* `Stream.Offers` : a stream with given tokens, all on one line;
* `ParsesIf` : a parser that answers as described if there are levels enough, and else finds
  the nesting too deep;
* `Grammar.arrowAhead?_eq_none` : what is printed is not taken for an arrow function;
* `Grammar.layered_of_joint`, `Grammar.assignment_of_unary` : operands with an operator
  between them, and alone.
-/
import ScriptReplay.Program.Parser.Expr
import ScriptReplay.Proofs.Source.Bare
import ScriptReplay.Proofs.Source.Printing

namespace ScriptReplay

/-! ### Levels -/

mutual

/-- The number of levels that the grammar goes down in a printed expression: one for an
operand in parentheses, and another one where an operand is an expression of its own or
belongs to an operator before it. -/
def Expr.nesting : Expr → Nat
  | .number _ _ | .template _ _ _ | .object _ _ | .function _ _ => 0
  | .string _ _ | .bool _ _ | .null _ | .ident _ _ | .this _ => 0
  | .array items _ => Expr.itemsNesting items
  | .unary _ e _ | .await e _ => e.nesting + 2
  | .update _ before t _ => t.nesting + if before then 2 else 1
  | .binary _ l r _ | .logical _ l r _ => max l.nesting r.nesting + 1
  | .assign _ t v _ => max (t.nesting + 1) (v.nesting + 2)
  | .conditional t y n _ => max (t.nesting + 1) (max y.nesting n.nesting + 2)
  | .call f args _ | .new f args _ => max (f.nesting + 1) (Expr.argumentsNesting args)
  | .member o k _ => max (o.nesting + 1) k.nesting

/-- The number of levels in a target. -/
def Target.nesting : Target → Nat
  | .name _ _ => 0
  | .member o k _ => max (o.nesting + 1) k.nesting

/-- The number of levels behind the object of a member expression. -/
def Key.nesting : Key → Nat
  | .named _ => 0
  | .computed e => e.nesting + 2

/-- The number of levels in arguments. -/
def Expr.argumentsNesting : List Expr → Nat
  | [] => 0
  | e :: rest => max (e.nesting + 2) (Expr.argumentsNesting rest)

/-- The number of levels in the items of an array. -/
def Expr.itemsNesting : List (Option Expr) → Nat
  | [] => 0
  | none :: rest => Expr.itemsNesting rest
  | some e :: rest => max (e.nesting + 2) (Expr.itemsNesting rest)

end

theorem Target.nesting_toExpr (t : Target) : t.toExpr.nesting = t.nesting := by
  cases t with
  | name n l => rw [Target.toExpr, Expr.nesting, Target.nesting]
  | member o k l => rw [Target.toExpr, Expr.nesting, Target.nesting]

/-! ### Streams -/

/-- The stream has these tokens, without line breaks and without arrows among them. -/
structure Stream.Offers (s : Stream) (ks : List TokenKind) : Prop where
  kinds : s.rest.map (·.kind) = ks
  plain : ∀ t ∈ s.rest, t.newlineBefore = false ∧ t.kind.isSymbol .arrow = false

namespace Stream.Offers

variable {s : Stream} {k : TokenKind} {ks : List TokenKind}

theorem exists_cons (h : s.Offers (k :: ks)) :
    ∃ t rest, s.rest = t :: rest ∧ t.kind = k ∧ rest.map (·.kind) = ks :=
  List.map_eq_cons_iff.1 h.kinds

theorem head_kind (h : s.Offers (k :: ks)) : s.head.kind = k := by
  obtain ⟨t, rest, hrest, hkind, -⟩ := h.exists_cons
  rw [Stream.head, hrest]
  exact hkind

theorem head_newline (h : s.Offers (k :: ks)) : s.head.newlineBefore = false := by
  obtain ⟨t, rest, hrest, -⟩ := h.exists_cons
  rw [Stream.head, hrest]
  exact (h.plain t (by simp [hrest])).1

theorem tail (h : s.Offers (k :: ks)) : s.tail.Offers ks := by
  obtain ⟨t, rest, hrest, -, hks⟩ := h.exists_cons
  have htail : s.tail.rest = rest := by
    unfold Stream.tail
    split
    · next hnil =>
      rw [hnil] at hrest
      cases hrest
    · next t' rest' hcons =>
      rw [hcons] at hrest
      exact (List.cons.inj hrest).2
  refine ⟨htail ▸ hks, fun t' ht' => h.plain t' ?_⟩
  rw [hrest]
  exact List.mem_cons_of_mem _ (htail ▸ ht')

theorem size_eq (h : s.Offers ks) : s.size = ks.length := by
  rw [s.size_eq, ← h.kinds, List.length_map]

/-- A repetition that tokens are left for has a first round. -/
theorem exists_remaining (h : s.Offers ks) (hne : ks ≠ []) :
    ∃ n, Parse.remaining s = .ok (n + 1, s) := by
  cases ks with
  | nil => exact absurd rfl hne
  | cons k ks =>
    refine ⟨ks.length, ?_⟩
    rw [← List.length_cons (a := k), ← h.size_eq]
    rfl

end Stream.Offers

/-! ### Parsers with levels enough -/

theorem Parse.bind_eq {α β : Type} {x : Parse α} {f : α → Parse β} {s s' : Stream} {a : α}
    (h : x s = .ok (a, s')) : (x >>= f) s = f a s' := by
  show (x s).bind (fun r => f r.1 r.2) = _
  rw [h]
  rfl

/-- From the stream the parser answers as described if it has levels enough, and else it finds
the nesting too deep. -/
def ParsesIf (fits : Prop) (s : Stream) {α : Type} (Q : α → Stream → Prop) (x : Parse α) :
    Prop :=
  match x s with
  | .ok (a, s') => fits ∧ Q a s'
  | .error e => ¬ fits ∧ e.cause = .tooDeep

namespace ParsesIf

variable {fits fits' : Prop} {s s' : Stream} {α β : Type}
  {Q : α → Stream → Prop} {R : β → Stream → Prop}

theorem pure {a : α} (h : Q a s) : ParsesIf True s Q (Pure.pure a) :=
  ⟨trivial, h⟩

theorem of_eq {x : Parse α} {a : α} (hx : x s = .ok (a, s')) (h : Q a s') :
    ParsesIf True s Q x := by
  unfold ParsesIf
  rw [hx]
  exact ⟨trivial, h⟩

theorem congr {p q : Prop} {x : Parse α} (hx : ParsesIf p s Q x) (h : p ↔ q) :
    ParsesIf q s Q x :=
  propext h ▸ hx

/-- A parser whose answer is known, and what follows. -/
theorem step {x : Parse α} {f : α → Parse β} {a : α} (hx : x s = .ok (a, s'))
    (hf : ParsesIf fits s' R (f a)) : ParsesIf fits s R (x >>= f) := by
  unfold ParsesIf
  rw [Parse.bind_eq hx]
  exact hf

/-- A parser and what follows have levels enough if both have. -/
theorem bind {x : Parse α} {f : α → Parse β} (hx : ParsesIf fits s Q x)
    (hf : ∀ a s', Q a s' → ParsesIf fits' s' R (f a)) :
    ParsesIf (fits ∧ fits') s R (x >>= f) := by
  cases hr : x s with
  | error e =>
    unfold ParsesIf at hx ⊢
    have hbind : (x >>= f) s = .error e := by
      show (x s).bind (fun r => f r.1 r.2) = _
      rw [hr]
      rfl
    rw [hr] at hx
    rw [hbind]
    exact ⟨fun h => hx.1 h.1, hx.2⟩
  | ok r =>
    obtain ⟨a, s'⟩ := r
    have hx' : fits ∧ Q a s' := by
      unfold ParsesIf at hx
      rw [hr] at hx
      exact hx
    exact step hr ((hf a s' hx'.2).congr ⟨fun h => ⟨hx'.1, h⟩, And.right⟩)

/-- A parser and what follows, which needs no levels. -/
theorem andThen {x : Parse α} {f : α → Parse β} (hx : ParsesIf fits s Q x)
    (hf : ∀ a s', Q a s' → ParsesIf True s' R (f a)) : ParsesIf fits s R (x >>= f) :=
  (hx.bind hf).congr (and_iff_left trivial)

end ParsesIf

/-! ### Single tokens -/

section
variable {s : Stream} {k : TokenKind} {ks : List TokenKind} {sym : Symbol}

theorem atSymbol_eq (h : s.head.kind = k) (sym : Symbol) :
    Parse.atSymbol sym s = .ok (k.isSymbol sym, s) := by
  rw [← h]
  rfl

theorem atKeyword_eq (h : s.head.kind = k) (w : Keyword) :
    Parse.atKeyword w s = .ok (k.isKeyword w, s) := by
  rw [← h]
  rfl

theorem eatSymbol_of (h : s.head.kind = k) (hk : k.isSymbol sym = true) :
    Parse.eatSymbol sym s = .ok (true, s.tail) := by
  unfold Parse.eatSymbol
  rw [Parse.bind_eq (atSymbol_eq h sym), if_pos hk]
  rfl

theorem eatSymbol_of_ne (h : s.head.kind = k) (hk : k.isSymbol sym = false) :
    Parse.eatSymbol sym s = .ok (false, s) := by
  unfold Parse.eatSymbol
  rw [Parse.bind_eq (atSymbol_eq h sym), hk]
  rfl

theorem eatKeyword_of {w : Keyword} (h : s.head.kind = k) (hk : k.isKeyword w = true) :
    Parse.eatKeyword w s = .ok (true, s.tail) := by
  unfold Parse.eatKeyword
  rw [Parse.bind_eq (atKeyword_eq h w), if_pos hk]
  rfl

theorem eatKeyword_of_ne {w : Keyword} (h : s.head.kind = k) (hk : k.isKeyword w = false) :
    Parse.eatKeyword w s = .ok (false, s) := by
  unfold Parse.eatKeyword
  rw [Parse.bind_eq (atKeyword_eq h w), hk]
  rfl

theorem expectSymbol_eq (h : s.head.kind = .symbol sym) (place : String) :
    Parse.expectSymbol sym place s = .ok ((), s.tail) := by
  unfold Parse.expectSymbol
  rw [Parse.bind_eq (eatSymbol_of h (beq_self_eq_true sym))]
  rfl

end

/-! ### Operands -/

/-- The answer is an expression up to its places, and these tokens are left. -/
def Gives (e : Expr) (ks : List TokenKind) (e' : Expr) (s : Stream) : Prop :=
  e'.bare = e.bare ∧ s.Offers ks

/-- Tokens that end an expression. -/
def TokenKind.isClosing : TokenKind → Bool
  | .symbol .rparen | .symbol .rbracket | .symbol .comma => true
  | .symbol .colon | .symbol .semicolon => true
  | _ => false

/-- Tokens that no property access and no call starts with. -/
def TokenKind.endsChain (k : TokenKind) : Bool :=
  !(k.isSymbol .dot || k.isSymbol .lbracket || k.isSymbol .lparen)

theorem TokenKind.eq_of_isClosing {k : TokenKind} (h : k.isClosing = true) :
    k = .symbol .rparen ∨
    k = .symbol .rbracket ∨ k = .symbol .comma ∨ k = .symbol .colon ∨
      k = .symbol .semicolon := by
  unfold isClosing at h
  split at h
  · simp
  · simp
  · simp
  · simp
  · simp
  · cases h

theorem TokenKind.ends_of_isClosing {k : TokenKind} (h : k.isClosing = true) :
    k.endsChain = true ∧ Grammar.updateOp? k = none := by
  rcases k.eq_of_isClosing h with rfl | rfl | rfl | rfl | rfl <;> exact ⟨rfl, rfl⟩

namespace Grammar

variable {r : Rules} {fits : Prop} {s : Stream} {e : Expr}
  {k : TokenKind} {ks : List TokenKind}

theorem accessKey?_eq_none (hs : s.head.kind = k) (hdot : k.isSymbol .dot = false)
    (hbracket : k.isSymbol .lbracket = false) : accessKey? r s = .ok (none, s) := by
  unfold accessKey?
  rw [Parse.bind_eq (eatSymbol_of_ne hs hdot), if_neg Bool.false_ne_true,
    Parse.bind_eq (eatSymbol_of_ne hs hbracket), if_neg Bool.false_ne_true]
  rfl

/-- Behind the operand of a construction no property access follows. -/
theorem members_eq (hs : s.head.kind = k) (hdot : k.isSymbol .dot = false)
    (hbracket : k.isSymbol .lbracket = false) (n : Nat) (e : Expr) :
    members r n e s = .ok (e, s) := by
  cases n with
  | zero => rfl
  | succ n =>
    unfold members
    rw [Parse.bind_eq (accessKey?_eq_none hs hdot hbracket)]
    rfl

/-- Behind an operand no property access and no call follows. -/
theorem calls_eq (hs : s.head.kind = k) (hk : k.endsChain = true) (n : Nat) (e : Expr) :
    calls r n e s = .ok (e, s) := by
  simp only [TokenKind.endsChain, Bool.not_eq_eq_eq_not, Bool.not_true, Bool.or_eq_false_iff]
    at hk
  obtain ⟨⟨hdot, hbracket⟩, hparen⟩ := hk
  cases n with
  | zero => rfl
  | succ n =>
    have hat := atSymbol_eq hs .lparen
    rw [hparen] at hat
    unfold calls
    rw [Parse.bind_eq (accessKey?_eq_none hs hdot hbracket)]
    dsimp only
    rw [Parse.bind_eq hat, if_neg Bool.false_ne_true]
    rfl

/-- An operand that is a primary expression. -/
theorem callChain_of_primary (hx : ParsesIf fits s (Gives e (k :: ks)) (primary r))
    (hnew : s.head.kind.isKeyword .newKw = false) (hk : k.endsChain = true) :
    ParsesIf fits s (Gives e (k :: ks)) (callChain r) := by
  unfold callChain
  refine .step (atKeyword_eq rfl .newKw) ?_
  rw [hnew, if_neg Bool.false_ne_true]
  refine hx.andThen fun e' s' h => ?_
  exact .step rfl (.of_eq (calls_eq h.2.head_kind hk _ e') h)

/-- An operand that no counting operator follows. -/
theorem counted_of_callChain (hx : ParsesIf fits s (Gives e (k :: ks)) (callChain r))
    (hk : updateOp? k = none) : ParsesIf fits s (Gives e (k :: ks)) (counted r) := by
  unfold counted
  refine hx.andThen fun e' s' h => ?_
  refine .step rfl ?_
  rw [h.2.head_kind, hk, ite_self]
  exact .pure h

/-- An operand without an operator before it. -/
theorem unary_of_counted (hx : ParsesIf fits s (Gives e ks) (counted r))
    (hop : unaryOp? s.head.kind = none) (hup : updateOp? s.head.kind = none)
    (hawait : s.head.kind.isKeyword .awaitKw = false) :
    ParsesIf fits s (Gives e ks) (unary r) := by
  unfold unary
  refine .step rfl ?_
  rw [hop, hup]
  exact .step (eatKeyword_of_ne rfl hawait) hx

/-- An operand that no power operator follows. -/
theorem powers_of_unary (hx : ParsesIf fits s (Gives e (k :: ks)) (unary r))
    (hk : k.isSymbol .starStar = false) (n : Nat) :
    ParsesIf fits s (Gives e (k :: ks)) (powers r n) := by
  cases n with
  | zero => exact hx
  | succ n =>
    refine hx.andThen fun e' s' h => ?_
    exact .step (eatSymbol_of_ne h.2.head_kind hk) (.pure h)

theorem tierRest_eq {t : Tier} {x : Parse Expr} (hs : s.head.kind = k)
    (hk : t.joint? k = none) (n : Nat) (e : Expr) : tierRest t x n e s = .ok (e, s) := by
  cases n with
  | zero => rfl
  | succ n =>
    unfold tierRest
    rw [Parse.bind_eq (x := Parse.peek) (s := s) rfl, hs, hk]
    rfl

/-- An operand that no operator of the tiers follows. -/
theorem layered_of_operand {x : Parse Expr} (hx : ParsesIf fits s (Gives e (k :: ks)) x)
    {ts : List Tier} (hk : ∀ t ∈ ts, t.joint? k = none) :
    ParsesIf fits s (Gives e (k :: ks)) (layered x ts) := by
  induction ts with
  | nil => exact hx
  | cons t tighter ih =>
    refine (ih fun t' h => hk t' (List.mem_cons_of_mem _ h)).andThen fun e' s' h => ?_
    exact .step rfl (.of_eq (tierRest_eq h.2.head_kind (hk t List.mem_cons_self) _ e') h)

deriving instance DecidableEq for Joint

/-- Whether the token is an operator of one of the tiers and of none of the tighter ones. -/
def joins (k : TokenKind) (j : Joint) : List Tier → Bool
  | [] => false
  | t :: tighter =>
    (t.joint? k == some j && tighter.all fun t' => (t'.joint? k).isNone) || joins k j tighter

theorem bare_join (j : Joint) {l l' r r' : Expr} (hl : l'.bare = l.bare)
    (hr : r'.bare = r.bare) : (j.join l' r').bare = (j.join l r).bare := by
  cases j with
  | binary op => simp only [Joint.join, Expr.bare, hl, hr]
  | logical op => simp only [Joint.join, Expr.bare, hl, hr]

/-- Two operands and an operator of the tiers between them. -/
theorem layered_of_joint {x : Parse Expr} {j : Joint} {left right : Expr} {fits' : Prop}
    {k' : TokenKind} {ks' : List TokenKind} (hl : ParsesIf fits s (Gives left (k :: ks)) x)
    (hr : ∀ s', s'.Offers ks → ParsesIf fits' s' (Gives right (k' :: ks')) x) {ts : List Tier}
    (hj : joins k j ts = true) (hk' : ∀ t ∈ ts, t.joint? k' = none) :
    ParsesIf (fits ∧ fits') s (Gives (j.join left right) (k' :: ks')) (layered x ts) := by
  induction ts with
  | nil => cases hj
  | cons t tighter ih =>
    have htighter : ∀ t' ∈ tighter, t'.joint? k' = none :=
      fun t' h => hk' t' (List.mem_cons_of_mem _ h)
    simp only [joins, Bool.or_eq_true, Bool.and_eq_true, beq_iff_eq, List.all_eq_true,
      Option.isNone_iff_eq_none] at hj
    rcases hj with ⟨hj, hnone⟩ | hj
    · refine (layered_of_operand hl hnone).bind fun left' s₁ h₁ => ?_
      obtain ⟨n, hn⟩ := h₁.2.exists_remaining nofun
      refine .step hn (.step (x := Parse.peek) rfl ?_)
      rw [h₁.2.head_kind, hj]
      refine .step (x := Parse.skip) rfl ?_
      refine (layered_of_operand (hr _ h₁.2.tail) htighter).andThen fun right' s₂ h₂ => ?_
      exact .of_eq (tierRest_eq h₂.2.head_kind (hk' t List.mem_cons_self) n _)
        ⟨bare_join j h₁.1 h₂.1, h₂.2⟩
    · refine (ih hj htighter).andThen fun e' s' h => ?_
      exact .step rfl (.of_eq (tierRest_eq h.2.head_kind (hk' t List.mem_cons_self) _ e') h)

/-- Two operands and a power operator between them. -/
theorem powers_of_pow {left right : Expr} {fits' : Prop} {k' : TokenKind}
    {ks' : List TokenKind}
    (hl : ParsesIf fits s (Gives left (.symbol .starStar :: ks)) (unary r))
    (hr : ∀ s', s'.Offers ks → ParsesIf fits' s' (Gives right (k' :: ks')) (unary r))
    (hk' : k'.isSymbol .starStar = false) (n : Nat) :
    ParsesIf (fits ∧ fits') s (Gives (.binary .pow left right default) (k' :: ks'))
      (powers r (n + 1)) := by
  refine hl.bind fun left' s₁ h₁ => ?_
  refine .step (eatSymbol_of h₁.2.head_kind rfl) ?_
  rw [if_pos rfl]
  refine (powers_of_unary (hr _ h₁.2.tail) hk' n).andThen fun right' s₂ h₂ => .pure ⟨?_, h₂.2⟩
  simp only [Expr.bare, h₁.1, h₂.1]

theorem conditional_of_joined (hx : ParsesIf fits s (Gives e (k :: ks)) (joined r))
    (hk : k.isSymbol .query = false) :
    ParsesIf fits s (Gives e (k :: ks)) (conditional r) := by
  refine hx.andThen fun e' s' h => ?_
  exact .step (eatSymbol_of_ne h.2.head_kind hk) (.pure h)

/-! ### Arrows -/

theorem afterParens_suffix {depth : Nat} {ts rest : List Token}
    (h : afterParens depth ts = some rest) : rest <:+ ts := by
  induction ts generalizing depth with
  | nil => cases h
  | cons t ts ih =>
    unfold afterParens at h
    split at h
    · exact (ih h).trans (List.suffix_cons t ts)
    split at h
    · split at h
      · cases h
        exact List.suffix_cons t _
      · cases h
        exact List.suffix_cons t _
      · exact (ih h).trans (List.suffix_cons t ts)
    · exact (ih h).trans (List.suffix_cons t ts)

theorem afterArrowParams_suffix {ts rest : List Token} (h : afterArrowParams ts = some rest) :
    rest <:+ ts := by
  unfold afterArrowParams at h
  split at h
  · cases h
  split at h
  · cases h
    exact List.suffix_cons _ _
  split at h
  · exact afterParens_suffix h
  · cases h

/-- Tokens without an arrow do not start with an arrow function. -/
theorem arrowAhead?_eq_none {ts : List Token} (h : ∀ t ∈ ts, t.kind.isSymbol .arrow = false) :
    arrowAhead? ts = none := by
  unfold arrowAhead?
  dsimp only
  split
  · next t rest hrest =>
    have hsuffix : (t :: rest) <:+ ts := by
      refine (afterArrowParams_suffix hrest).trans ?_
      split
      · exact List.drop_suffix 1 ts
      · exact List.suffix_rfl
    rw [h t (hsuffix.mem List.mem_cons_self)]
    rfl
  · rfl

/-! ### Expressions at a closing token -/

theorem assignment_of_conditional {ks₀ : List TokenKind} (hs : s.Offers ks₀)
    (hx : ParsesIf fits s (Gives e (k :: ks)) (conditional r)) (hk : assignOp? k = none) :
    ParsesIf fits s (Gives e (k :: ks)) (assignment r) := by
  unfold assignment
  refine .step (x := get) rfl ?_
  rw [arrowAhead?_eq_none fun t ht => (hs.plain t ht).2]
  refine hx.andThen fun e' s' h => ?_
  refine .step (x := Parse.peek) rfl ?_
  rw [h.2.head_kind, hk]
  exact .pure h

theorem assignOp?_of_isClosing (hk : k.isClosing = true) : assignOp? k = none := by
  rcases k.eq_of_isClosing hk with rfl | rfl | rfl | rfl | rfl <;> rfl

/-- Operands without anything behind them are an expression. -/
theorem assignment_of_joined {ks₀ : List TokenKind} (hs : s.Offers ks₀)
    (hx : ParsesIf fits s (Gives e (k :: ks)) (joined r)) (hk : k.isClosing = true) :
    ParsesIf fits s (Gives e (k :: ks)) (assignment r) := by
  have hquery : k.isSymbol .query = false := by
    rcases k.eq_of_isClosing hk with rfl | rfl | rfl | rfl | rfl <;> rfl
  exact assignment_of_conditional hs (conditional_of_joined hx hquery)
    (assignOp?_of_isClosing hk)

theorem joint?_of_isClosing (hk : k.isClosing = true) : ∀ t ∈ tiers, t.joint? k = none := by
  have hnone : (tiers.all fun t => (t.joint? k).isNone) = true := by
    rcases k.eq_of_isClosing hk with rfl | rfl | rfl | rfl | rfl <;> decide
  exact fun t ht => Option.isNone_iff_eq_none.1 (List.all_eq_true.1 hnone t ht)

theorem starStar_of_isClosing (hk : k.isClosing = true) : k.isSymbol .starStar = false := by
  rcases k.eq_of_isClosing hk with rfl | rfl | rfl | rfl | rfl <;> rfl

/-- A single operand is an expression. -/
theorem assignment_of_unary {ks₀ : List TokenKind} (hs : s.Offers ks₀)
    (hx : ParsesIf fits s (Gives e (k :: ks)) (unary r)) (hk : k.isClosing = true) :
    ParsesIf fits s (Gives e (k :: ks)) (assignment r) := by
  refine assignment_of_joined hs (.step (x := Parse.remaining) rfl ?_) hk
  exact layered_of_operand (powers_of_unary hx (starStar_of_isClosing hk) _)
    (joint?_of_isClosing hk)

/-- A token that an operand without operators can start with. -/
def startsOperand (k : TokenKind) : Bool :=
  (unaryOp? k).isNone && (updateOp? k).isNone && !k.isKeyword .awaitKw

theorem assignment_of_counted {k₀ : TokenKind} {ks₀ : List TokenKind}
    (hs : s.Offers (k₀ :: ks₀)) (hk₀ : startsOperand k₀ = true)
    (hx : ParsesIf fits s (Gives e (k :: ks)) (counted r)) (hk : k.isClosing = true) :
    ParsesIf fits s (Gives e (k :: ks)) (assignment r) := by
  simp only [startsOperand, Bool.and_eq_true, Option.isNone_iff_eq_none,
    Bool.not_eq_eq_eq_not, Bool.not_true] at hk₀
  rw [← hs.head_kind] at hk₀
  exact assignment_of_unary hs (unary_of_counted hx hk₀.1.1 hk₀.1.2 hk₀.2) hk

theorem assignment_of_callChain {k₀ : TokenKind} {ks₀ : List TokenKind}
    (hs : s.Offers (k₀ :: ks₀)) (hk₀ : startsOperand k₀ = true)
    (hx : ParsesIf fits s (Gives e (k :: ks)) (callChain r)) (hk : k.isClosing = true) :
    ParsesIf fits s (Gives e (k :: ks)) (assignment r) :=
  assignment_of_counted hs hk₀ (counted_of_callChain hx (TokenKind.ends_of_isClosing hk).2) hk

theorem assignment_of_primary {k₀ : TokenKind} {ks₀ : List TokenKind}
    (hs : s.Offers (k₀ :: ks₀)) (hk₀ : startsOperand k₀ = true)
    (hnew : k₀.isKeyword .newKw = false)
    (hx : ParsesIf fits s (Gives e (k :: ks)) (primary r)) (hk : k.isClosing = true) :
    ParsesIf fits s (Gives e (k :: ks)) (assignment r) := by
  rw [← hs.head_kind] at hnew
  exact assignment_of_callChain hs hk₀
    (callChain_of_primary hx hnew (TokenKind.ends_of_isClosing hk).1) hk

end Grammar

end ScriptReplay
