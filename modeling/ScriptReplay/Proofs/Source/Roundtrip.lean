/-
Parsing undoes printing.

An expression that is printed with all of its proper parts in parentheses is parsed as itself,
up to places, unless the parentheses nest too deep.

* `Grammar.Reads` : a rule that reads some tokens as an expression;
* `Expr.Readable` : an expression that is read from its tokens as long as there are
  levels enough;
* `Expr.Printable.readable` : the expressions that can be printed are readable;
* `parseProgram_printed` : so a printed expression is a program.
-/
import ScriptReplay.Program.Parser.Stmt
import ScriptReplay.Proofs.Source.Operands

namespace ScriptReplay

/-! ### Expressions and operands in parentheses -/

/-- Up to a closing token the rule reads the tokens as the expression. -/
def Grammar.Reads (fits : Prop) (e : Expr) (ks : List TokenKind) (x : Parse Expr) : Prop :=
  ∀ ⦃k ks' s⦄, k.isClosing = true → s.Offers (ks ++ k :: ks') →
    ParsesIf fits s (Gives e (k :: ks')) x

/-- The expression is read from its tokens as long as there are levels enough. -/
def Expr.Readable (e : Expr) : Prop :=
  ∀ d, Grammar.Reads (e.nesting < d) e e.kinds (Rules.atDepth d).expr

theorem offers_parens {s : Stream} {ks ks' : List TokenKind} :
    s.Offers (parens ks ++ ks') ↔
      s.Offers (.symbol .lparen :: (ks ++ .symbol .rparen :: ks')) := by
  have hlist : parens ks ++ ks' = .symbol .lparen :: (ks ++ .symbol .rparen :: ks') := by
    simp [parens]
  rw [hlist]

namespace Grammar

theorem Reads.congr {fits fits' : Prop} {e : Expr} {ks : List TokenKind} {x : Parse Expr}
    (hx : Reads fits e ks x) (h : fits ↔ fits') : Reads fits' e ks x :=
  propext h ▸ hx

variable {r : Rules} {fits : Prop} {s : Stream} {e : Expr}
  {k : TokenKind} {ks : List TokenKind}

theorem primary_parens (he : Reads fits e e.kinds r.expr)
    (hs : s.Offers (parens e.kinds ++ ks)) : ParsesIf fits s (Gives e ks) (primary r) := by
  rw [offers_parens] at hs
  unfold primary
  refine .step (x := Parse.here) rfl (.step (x := Parse.peek) rfl ?_)
  rw [hs.head_kind]
  refine .step (x := Parse.skip) rfl ?_
  refine (he rfl hs.tail).andThen fun e' s' h => ?_
  exact .step (expectSymbol_eq h.2.head_kind _) (.pure ⟨h.1, h.2.tail⟩)

theorem callChain_parens (he : Reads fits e e.kinds r.expr)
    (hs : s.Offers (parens e.kinds ++ k :: ks)) (hk : k.endsChain = true) :
    ParsesIf fits s (Gives e (k :: ks)) (callChain r) :=
  callChain_of_primary (primary_parens he hs) (by rw [(offers_parens.1 hs).head_kind]; rfl) hk

theorem unary_parens (he : Reads fits e e.kinds r.expr)
    (hs : s.Offers (parens e.kinds ++ k :: ks)) (hk : k.endsChain = true)
    (hup : updateOp? k = none) : ParsesIf fits s (Gives e (k :: ks)) (unary r) := by
  have hhead : s.head.kind = .symbol .lparen := (offers_parens.1 hs).head_kind
  have hx := counted_of_callChain (callChain_parens he hs hk) hup
  exact unary_of_counted hx (by rw [hhead]; rfl) (by rw [hhead]; rfl) (by rw [hhead]; rfl)

/-! ### Levels -/

theorem tooDeep_stop {α : Type} {Q : α → Stream → Prop} (hfits : ¬ fits) :
    ParsesIf fits s Q Rules.tooDeep.stop :=
  ⟨hfits, rfl⟩

/-- A rule of a level below is a rule of the grammar that has one level less. -/
theorem reads_atDepth {n : Nat} {f : Rules → Parse Expr} {rule : Rules → Parse Expr}
    (hzero : rule (.atDepth 0) = Rules.tooDeep.stop)
    (hsucc : ∀ d, rule (.atDepth (d + 1)) = fun s => f (.atDepth d) s)
    (h : ∀ d, Reads (n ≤ d) e ks (f (.atDepth d))) (d : Nat) :
    Reads (n < d) e ks (rule (.atDepth d)) := by
  intro k ks' s hk hs
  cases d with
  | zero =>
    rw [hzero]
    exact tooDeep_stop (Nat.not_lt_zero n)
  | succ d =>
    rw [hsucc]
    exact (h d hk hs).congr Nat.lt_succ_iff.symm

theorem readable_of_reads {fits : Nat → Prop}
    (h : ∀ d, Reads (fits d) e e.kinds (assignment (.atDepth d)))
    (hfits : ∀ d, fits d ↔ e.nesting ≤ d) : e.Readable :=
  reads_atDepth rfl (fun _ => rfl) fun d => (h d).congr (hfits d)

/-- An operand in parentheses that is an expression of its own. -/
theorem reads_expr_parens (he : e.Readable) (d : Nat) :
    Reads (e.nesting + 1 < d) e (parens e.kinds) (Rules.atDepth d).expr := by
  refine reads_atDepth (f := assignment) rfl (fun _ => rfl) (fun d k ks' s hk hs => ?_) d
  obtain ⟨hchain, hup⟩ := TokenKind.ends_of_isClosing hk
  exact assignment_of_unary hs (unary_parens (he d) hs hchain hup) hk

/-- An operand in parentheses that an operator stands before. -/
theorem reads_unary_parens (he : e.Readable) (d : Nat) :
    Reads (e.nesting + 1 < d) e (parens e.kinds) (Rules.atDepth d).unary := by
  refine reads_atDepth (f := unary) rfl (fun _ => rfl) (fun d k ks' s hk hs => ?_) d
  obtain ⟨hchain, hup⟩ := TokenKind.ends_of_isClosing hk
  exact unary_parens (he d) hs hchain hup

/-! ### Single tokens -/

/-- The literal that a token is. -/
def literal? : TokenKind → Option (Location → Expr)
  | .string t => some (.string t)
  | .keyword .trueKw => some (.bool true)
  | .keyword .falseKw => some (.bool false)
  | .keyword .nullKw => some .null
  | .keyword .thisKw => some .this
  | _ => none

theorem primary_of_literal {f : Location → Expr} (hf : literal? s.head.kind = some f) :
    primary r s = single (f s.head.loc) s := by
  rw [primary, Parse.bind_eq (x := Parse.here) rfl, Parse.bind_eq (x := Parse.peek) rfl]
  generalize s.head.kind = k at hf
  unfold literal? at hf
  split at hf <;> cases hf <;> rfl

theorem startsOperand_of_literal {f : Location → Expr} (hf : literal? k = some f) :
    startsOperand k = true ∧ k.isKeyword .newKw = false := by
  unfold literal? at hf
  split at hf <;> cases hf <;> exact ⟨rfl, rfl⟩

theorem reads_literal {f : Location → Expr} (hf : literal? k = some f)
    (hbare : ∀ l, (f l).bare = e.bare) : Reads True e [k] (assignment r) := by
  intro k' ks s hk' hs
  obtain ⟨hstart, hnew⟩ := startsOperand_of_literal hf
  have hprimary := primary_of_literal (r := r) (hs.head_kind ▸ hf)
  exact assignment_of_primary hs hstart hnew (.of_eq hprimary ⟨hbare _, hs.tail⟩) hk'

/-- A name, also if it is `async`, for no function follows. -/
theorem reads_ident (n : String) (l : Location) :
    Reads True (.ident n l) [.name n] (assignment r) := by
  intro k ks s hk hs
  have hnext : s.rest[1]?.any (·.kind.isKeyword .functionKw) = false := by
    have hkind : s.rest[1]?.map (·.kind) = some k := by
      rw [← List.getElem?_map, hs.kinds]
      rfl
    obtain ⟨t, ht, rfl⟩ := Option.map_eq_some_iff.1 hkind
    rw [ht]
    rcases TokenKind.eq_of_isClosing hk with h | h | h | h
      | h <;> simp [h, TokenKind.isKeyword]
  have hprimary : primary r s = single (.ident n s.head.loc) s := by
    rw [primary, Parse.bind_eq (x := Parse.here) rfl,
      Parse.bind_eq (x := Parse.peek) rfl, hs.head_kind]
    dsimp only
    rw [Parse.bind_eq (x := get) (s := s) rfl, hnext, Bool.and_false,
      if_neg Bool.false_ne_true]
  exact assignment_of_primary hs rfl rfl (.of_eq hprimary ⟨rfl, hs.tail⟩) hk

/-! ### Operators before an operand -/

theorem unaryOp?_kind (op : UnaryOp) : unaryOp? op.kind = some op := by
  cases op <;> rfl

theorem updateOp?_symbol (op : UpdateOp) : updateOp? (.symbol op.symbol) = some op := by
  cases op <;> rfl

theorem updateTarget_eq {t : Target} (h : e.bare = t.toExpr.bare) :
    ∃ t', updateTarget e s = .ok (t', s) ∧ t'.bare = t.bare := by
  obtain ⟨t', ht', hbare⟩ := Expr.exists_target_of_bare h
  refine ⟨t', ?_, hbare⟩
  rw [updateTarget, ht']
  rfl

theorem reads_unary (he : Reads fits e (parens e.kinds) r.unary) (op : UnaryOp)
    (l : Location) :
    Reads fits (.unary op e l) (op.kind :: parens e.kinds) (assignment r) := by
  intro k ks s hk hs
  refine assignment_of_unary hs ?_ hk
  unfold unary
  refine .step (x := Parse.peek) rfl ?_
  rw [hs.head_kind, unaryOp?_kind op]
  refine .step (x := Parse.skip) rfl ?_
  refine (he hk hs.tail).andThen fun e' s' h => .pure ⟨?_, h.2⟩
  simp only [Expr.bare, h.1]

theorem reads_await (he : Reads fits e (parens e.kinds) r.unary) (l : Location) :
    Reads fits (.await e l) (.keyword .awaitKw :: parens e.kinds) (assignment r) := by
  intro k ks s hk hs
  refine assignment_of_unary hs ?_ hk
  unfold unary
  refine .step (x := Parse.peek) rfl ?_
  rw [hs.head_kind]
  refine .step (eatKeyword_of hs.head_kind rfl) ?_
  refine (he hk hs.tail).andThen fun e' s' h => .pure ⟨?_, h.2⟩
  simp only [Expr.bare, h.1]

theorem reads_update_before {t : Target}
    (ht : Reads fits t.toExpr (parens t.toExpr.kinds) r.unary) (op : UpdateOp)
    (l : Location) :
    Reads fits (.update op true t l)
      (.symbol op.symbol :: parens t.kinds) (assignment r) := by
  intro k ks s hk hs
  rw [← Target.kinds_toExpr] at hs
  have hop : unaryOp? (.symbol op.symbol) = none := by
    cases op <;> rfl
  refine assignment_of_unary hs ?_ hk
  unfold unary
  refine .step (x := Parse.peek) rfl ?_
  rw [hs.head_kind, hop, updateOp?_symbol op]
  refine .step (x := Parse.skip) rfl ?_
  refine (ht hk hs.tail).andThen fun e' s' h => ?_
  obtain ⟨t', ht', hbare⟩ := updateTarget_eq (s := s') h.1
  refine .step ht' (.pure ⟨?_, h.2⟩)
  simp only [Expr.bare, hbare]

theorem reads_update_after {t : Target} (ht : Reads fits t.toExpr t.toExpr.kinds r.expr)
    (op : UpdateOp) (l : Location) :
    Reads fits (.update op false t l)
      (parens t.kinds ++ [.symbol op.symbol]) (assignment r) := by
  intro k ks s hk hs
  rw [← Target.kinds_toExpr, List.append_assoc] at hs
  have hs' := offers_parens.1 hs
  have hchain : (TokenKind.symbol op.symbol).endsChain = true := by
    cases op <;> rfl
  refine assignment_of_counted hs' rfl ?_ hk
  unfold counted
  refine (callChain_parens ht hs hchain).andThen fun e' s' h => ?_
  refine .step (x := Parse.peek) rfl ?_
  rw [h.2.head_newline, if_neg Bool.false_ne_true, h.2.head_kind, updateOp?_symbol op]
  obtain ⟨t', ht', hbare⟩ := updateTarget_eq (s := s') h.1
  refine .step ht'
    (.step (x := Parse.skip) rfl (.step (x := Parse.spanFrom _) rfl (.pure ⟨?_, h.2.tail⟩)))
  simp only [Expr.bare, hbare]

/-! ### Properties, calls and constructions -/

theorem expectPropertyName_eq {n : String} (h : s.head.kind = wordKind n) :
    Parse.expectPropertyName s = .ok (n, s.tail) := by
  rw [Parse.expectPropertyName, Parse.bind_eq (x := Parse.peek) rfl, h]
  unfold wordKind
  split
  · next w hw =>
    rw [← Keyword.text_of_ofText? hw]
    rfl
  · rfl

/-- The property access comes next. -/
def IsAccess (key : Key) (ks : List TokenKind) (key? : Option Key) (s : Stream) : Prop :=
  ∃ key', key? = some key' ∧ key'.bare = key.bare ∧ s.Offers ks

theorem accessKey?_named {n : String} (hs : s.Offers ((Key.named n).kinds ++ ks)) :
    ParsesIf True s (IsAccess (.named n) ks) (accessKey? r) := by
  rw [Key.kinds] at hs
  unfold accessKey?
  refine .step (eatSymbol_of hs.head_kind rfl) ?_
  exact .step (expectPropertyName_eq hs.tail.head_kind) (.pure ⟨_, rfl, rfl, hs.tail.tail⟩)

theorem accessKey?_computed (he : Reads fits e (parens e.kinds) r.expr)
    (hs : s.Offers ((Key.computed e).kinds ++ ks)) :
    ParsesIf fits s (IsAccess (.computed e) ks) (accessKey? r) := by
  rw [Key.kinds, List.cons_append, List.append_assoc] at hs
  unfold accessKey?
  refine .step (eatSymbol_of_ne hs.head_kind rfl) (.step (eatSymbol_of hs.head_kind rfl) ?_)
  refine (he rfl hs.tail).andThen fun e' s' h => ?_
  refine .step (expectSymbol_eq h.2.head_kind _) (.pure ⟨_, rfl, ?_, h.2.tail⟩)
  simp only [Key.bare, h.1]

/-- One property access or call behind an operand in parentheses. -/
theorem reads_suffixed {fits' : Prop} {f : Expr} {ks₀ : List TokenKind}
    (hf : Reads fits f f.kinds r.expr)
    (hx : ∀ {k ks s f'} (n : Nat), k.isClosing = true → f'.bare = f.bare →
      s.Offers (ks₀ ++ k :: ks) → ParsesIf fits' s (Gives e (k :: ks)) (calls r (n + 1) f')) :
    Reads (fits ∧ fits') e (parens f.kinds ++ ks₀) (assignment r) := by
  intro k ks s hk hs
  rw [List.append_assoc] at hs
  refine assignment_of_callChain (offers_parens.1 hs) rfl ?_ hk
  unfold callChain
  refine .step (atKeyword_eq (offers_parens.1 hs).head_kind .newKw) ?_
  refine (primary_parens hf hs).bind fun f' s' h => ?_
  obtain ⟨n, hn⟩ := h.2.exists_remaining (by simp)
  exact .step hn (hx n hk h.1 h.2)

theorem reads_member {fits' : Prop} {o : Expr} {key : Key} (ho : Reads fits o o.kinds r.expr)
    (hx : ∀ {s ks}, s.Offers (key.kinds ++ ks) →
      ParsesIf fits' s (IsAccess key ks) (accessKey? r))
    (l : Location) :
    Reads (fits ∧ fits') (.member o key l) (parens o.kinds ++ key.kinds) (assignment r) := by
  refine reads_suffixed ho fun n hk hbare hs => ?_
  refine (hx hs).andThen fun key? s' h => ?_
  obtain ⟨key', rfl, hkey, hs'⟩ := h
  refine .step (x := Parse.spanFrom _) rfl
    (.of_eq (calls_eq hs'.head_kind (TokenKind.ends_of_isClosing hk).1 n _) ⟨?_, hs'⟩)
  simp only [Expr.bare, hbare, hkey]

theorem length_le_itemKinds (items : List (Option Expr)) :
    items.length ≤ (Expr.itemKinds items).length := by
  induction items with
  | nil => exact Nat.zero_le _
  | cons item rest ih =>
    cases item with
    | none =>
      rw [Expr.itemKinds]
      exact Nat.succ_le_succ ih
    | some e =>
      rw [Expr.itemKinds]
      split
      · next hrest =>
        rw [List.isEmpty_iff.1 hrest]
        simp [parens]
      · simp only [List.length_cons, List.length_append]
        omega

/-- The answer is a list of arguments up to their places, and these tokens are left. -/
def GivesAll (args : List Expr) (ks : List TokenKind) (args' : List Expr) (s : Stream) :
    Prop :=
  Expr.bareList args' = Expr.bareList args ∧ s.Offers ks

theorem argumentItems_parses {args : List Expr} (ha : ∀ a ∈ args, a.Readable) {d n : Nat}
    (hn : args.length < n)
    (hs : s.Offers (Expr.argumentKinds args ++ .symbol .rparen :: ks)) :
    ParsesIf (Expr.argumentsNesting args ≤ d) s (GivesAll args (.symbol .rparen :: ks))
      (argumentItems (.atDepth d) n) := by
  induction args generalizing n s with
  | nil =>
    obtain ⟨n, rfl⟩ := Nat.exists_eq_add_one_of_ne_zero (Nat.ne_zero_of_lt hn)
    rw [Expr.argumentKinds] at hs
    rw [Expr.argumentsNesting]
    refine ParsesIf.congr (p := True) ?_ (by simp)
    exact .step (atSymbol_eq hs.head_kind .rparen) (.pure ⟨rfl, hs⟩)
  | cons a rest ih =>
    obtain ⟨n, rfl⟩ := Nat.exists_eq_add_one_of_ne_zero (Nat.ne_zero_of_lt hn)
    have ha' := reads_expr_parens (ha a List.mem_cons_self) d
    rw [Expr.argumentKinds, List.append_assoc] at hs
    rw [Expr.argumentsNesting]
    refine .step (atSymbol_eq (offers_parens.1 hs).head_kind .rparen) ?_
    -- Only between arguments there is a comma to go on behind.
    cases rest with
    | nil =>
      refine ParsesIf.congr (p := a.nesting + 1 < d) ?_ (by rw [Expr.argumentsNesting]; omega)
      refine (ha' rfl hs).andThen fun a' s₁ h₁ => ?_
      refine .step (eatSymbol_of_ne h₁.2.head_kind rfl) (.pure ⟨?_, h₁.2⟩)
      simp only [Expr.bareList, h₁.1]
    | cons b rest =>
      refine ParsesIf.congr
        (p := a.nesting + 1 < d ∧ Expr.argumentsNesting (b :: rest) ≤ d) ?_ (by omega)
      refine (ha' rfl hs).bind fun a' s₁ h₁ => .step (eatSymbol_of h₁.2.head_kind rfl) ?_
      have hrest := ih (fun c hc => ha c (List.mem_cons_of_mem _ hc))
        (Nat.lt_of_succ_lt_succ hn) h₁.2.tail
      refine hrest.andThen fun rest' s₂ h₂ => .pure ⟨?_, h₂.2⟩
      rw [Expr.bareList, Expr.bareList, h₁.1, h₂.1]

theorem arguments_parses {args : List Expr} (ha : ∀ a ∈ args, a.Readable) {d : Nat}
    (hs : s.Offers (parens (Expr.argumentKinds args) ++ ks)) :
    ParsesIf (Expr.argumentsNesting args ≤ d) s (GivesAll args ks)
      (arguments (.atDepth d)) := by
  rw [offers_parens] at hs
  have hlength : args.length < s.tail.size + 1 := by
    rw [hs.tail.size_eq, List.length_append]
    have hle := length_le_itemKinds (args.map some)
    rw [← Expr.argumentKinds_eq, List.length_map] at hle
    omega
  refine .step (expectSymbol_eq hs.head_kind _) (.step (x := Parse.remaining) rfl ?_)
  refine (argumentItems_parses ha hlength hs.tail).andThen fun args' s' h => ?_
  exact .step (expectSymbol_eq h.2.head_kind _) (.pure ⟨h.1, h.2.tail⟩)

theorem reads_call {f : Expr} {args : List Expr} {d : Nat}
    (hf : Reads fits f f.kinds (Rules.atDepth d).expr) (ha : ∀ a ∈ args, a.Readable)
    (l : Location) :
    Reads (fits ∧ Expr.argumentsNesting args ≤ d) (.call f args l)
      (parens f.kinds ++ parens (Expr.argumentKinds args)) (assignment (.atDepth d)) := by
  refine reads_suffixed hf fun n hk hbare hs => ?_
  have hs' := offers_parens.1 hs
  refine .step (accessKey?_eq_none hs'.head_kind rfl rfl)
    (.step (atSymbol_eq hs'.head_kind .lparen) ?_)
  refine (arguments_parses ha hs).andThen fun args' s' h => ?_
  refine .step (x := Parse.spanFrom _) rfl
    (.of_eq (calls_eq h.2.head_kind (TokenKind.ends_of_isClosing hk).1 n _) ⟨?_, h.2⟩)
  simp only [Expr.bare, hbare, h.1]

theorem reads_new {f : Expr} {args : List Expr} {d : Nat}
    (hf : Reads fits f f.kinds (Rules.atDepth d).expr) (ha : ∀ a ∈ args, a.Readable)
    (l : Location) :
    Reads (fits ∧ Expr.argumentsNesting args ≤ d) (.new f args l)
      (.keyword .newKw :: (parens f.kinds ++ parens (Expr.argumentKinds args)))
        (assignment (.atDepth d)) := by
  intro k ks s hk hs
  rw [List.cons_append, List.append_assoc] at hs
  have hcallee := hs.tail
  refine assignment_of_callChain hs rfl ?_ hk
  refine .step (atKeyword_eq hs.head_kind .newKw) (.step (x := Parse.remaining) rfl ?_)
  refine .andThen (Q := Gives (.new f args l) (k :: ks)) ?_ fun e' s' h => ?_
  · -- The callee ends at its own parenthesis, so the next one opens the arguments
    -- of the construction.
    refine .step (x := Parse.here) rfl (.step (x := Parse.skip) rfl ?_)
    refine .step (atKeyword_eq (offers_parens.1 hcallee).head_kind .newKw) ?_
    refine (primary_parens hf hcallee).bind fun f' s₁ h₁ => ?_
    have hs₁ := offers_parens.1 h₁.2
    refine .step (x := Parse.remaining) rfl (.step (members_eq hs₁.head_kind rfl rfl _ f') ?_)
    refine (ParsesIf.step (atSymbol_eq hs₁.head_kind .lparen)
      (arguments_parses ha h₁.2)).andThen fun args' s₂ h₂ => ?_
    refine .step (x := Parse.spanFrom _) rfl (.pure ⟨?_, h₂.2⟩)
    simp only [Expr.bare, h₁.1, h₂.1]
  · exact .step (x := Parse.remaining) rfl
      (.of_eq (calls_eq h.2.head_kind (TokenKind.ends_of_isClosing hk).1 _ e') h)

/-! ### Array literals -/

/-- The answer is a list of items up to their places, and these tokens are left. -/
def GivesItems (items : List (Option Expr)) (ks : List TokenKind)
    (items' : List (Option Expr)) (s : Stream) : Prop :=
  Expr.bareItems items' = Expr.bareItems items ∧ s.Offers ks

theorem arrayItems_parses {items : List (Option Expr)} (hi : ∀ e, some e ∈ items → e.Readable)
    {d n : Nat} (hn : items.length < n)
    (hs : s.Offers (Expr.itemKinds items ++ .symbol .rbracket :: ks)) :
    ParsesIf (Expr.itemsNesting items ≤ d) s (GivesItems items (.symbol .rbracket :: ks))
      (arrayItems (.atDepth d) n) := by
  induction items generalizing n s with
  | nil =>
    obtain ⟨n, rfl⟩ := Nat.exists_eq_add_one_of_ne_zero (Nat.ne_zero_of_lt hn)
    rw [Expr.itemKinds] at hs
    rw [Expr.itemsNesting]
    refine ParsesIf.congr (p := True) ?_ (by simp)
    exact .step (atSymbol_eq hs.head_kind .rbracket) (.pure ⟨rfl, hs⟩)
  | cons item rest ih =>
    obtain ⟨n, rfl⟩ := Nat.exists_eq_add_one_of_ne_zero (Nat.ne_zero_of_lt hn)
    have hrest : ∀ {s}, s.Offers (Expr.itemKinds rest ++ .symbol .rbracket :: ks) →
        ParsesIf _ s _ _ :=
      ih (fun e he => hi e (List.mem_cons_of_mem _ he)) (Nat.lt_of_succ_lt_succ hn)
    -- A hole has no tokens but its comma; an item is in parentheses, with a comma behind it
    -- unless it is the last.
    cases item with
    | none =>
      rw [Expr.itemKinds, List.cons_append] at hs
      rw [Expr.itemsNesting]
      refine .step (atSymbol_eq hs.head_kind .rbracket)
        (.step (eatSymbol_of hs.head_kind rfl) ?_)
      refine (hrest hs.tail).andThen fun rest' s' h => .pure ⟨?_, h.2⟩
      rw [Expr.bareItems, Expr.bareItems, h.1]
    | some e =>
      have he := reads_expr_parens (hi e List.mem_cons_self) d
      rw [Expr.itemKinds, List.append_assoc] at hs
      rw [Expr.itemsNesting]
      refine .step (atSymbol_eq (offers_parens.1 hs).head_kind .rbracket) ?_
      refine .step (eatSymbol_of_ne (offers_parens.1 hs).head_kind rfl) ?_
      cases rest with
      | nil =>
        refine ParsesIf.congr (p := e.nesting + 1 < d) ?_ (by rw [Expr.itemsNesting]; omega)
        refine (he rfl hs).andThen fun e' s₁ h₁ => ?_
        refine .step (eatSymbol_of_ne h₁.2.head_kind rfl) (.pure ⟨?_, h₁.2⟩)
        simp only [Expr.bareItems, Expr.bareOption, h₁.1]
      | cons item rest =>
        refine ParsesIf.congr
          (p := e.nesting + 1 < d ∧ Expr.itemsNesting (item :: rest) ≤ d) ?_ (by omega)
        refine (he rfl hs).bind fun e' s₁ h₁ => .step (eatSymbol_of h₁.2.head_kind rfl) ?_
        refine (hrest h₁.2.tail).andThen fun rest' s₂ h₂ => .pure ⟨?_, h₂.2⟩
        rw [Expr.bareItems, Expr.bareItems, h₂.1]
        simp only [Expr.bareOption, h₁.1]

theorem reads_array {items : List (Option Expr)} (hi : ∀ e, some e ∈ items → e.Readable)
    (d : Nat) (l : Location) :
    Reads (Expr.itemsNesting items ≤ d) (.array items l)
      (.symbol .lbracket :: (Expr.itemKinds items ++ [.symbol .rbracket]))
        (assignment (.atDepth d)) := by
  intro k ks s hk hs
  rw [List.cons_append, List.append_assoc] at hs
  have hlength : items.length < s.tail.size + 1 := by
    rw [hs.tail.size_eq, List.length_append]
    exact Nat.lt_succ_of_le (Nat.le_add_right_of_le (length_le_itemKinds items))
  refine assignment_of_primary hs rfl rfl ?_ hk
  refine .step (x := Parse.here) rfl (.step (x := Parse.peek) rfl ?_)
  rw [hs.head_kind]
  refine .step (x := Parse.here) rfl
    (.step (x := Parse.skip) rfl (.step (x := Parse.remaining) rfl ?_))
  refine (arrayItems_parses hi hlength hs.tail).andThen fun items' s' h => ?_
  refine .step (expectSymbol_eq h.2.head_kind _)
    (.step (x := Parse.spanFrom _) rfl (.pure ⟨?_, h.2.tail⟩))
  simp only [Expr.bare, h.1]

/-! ### Operators between operands -/

theorem reads_joined {fits' : Prop} {left right : Expr} {sym : Symbol} {j : Joint}
    (hl : Reads fits left left.kinds r.expr) (hr : Reads fits' right right.kinds r.expr)
    (hj : joins (.symbol sym) j tiers = true)
    (hsym : (TokenKind.symbol sym).endsChain = true ∧
      updateOp? (.symbol sym) = none ∧ sym ≠ .starStar) :
    Reads (fits ∧ fits') (j.join left right)
      (parens left.kinds ++ .symbol sym :: parens right.kinds)
      (assignment r) := by
  intro k ks s hk hs
  rw [List.append_assoc, List.cons_append] at hs
  obtain ⟨hchain, hup, hne⟩ := hsym
  obtain ⟨hchain', hup'⟩ := TokenKind.ends_of_isClosing hk
  refine assignment_of_joined hs (.step (x := Parse.remaining) rfl ?_) hk
  have hleft :=
    powers_of_unary (unary_parens hl hs hchain hup) (beq_eq_false_iff_ne.2 hne) s.size
  refine layered_of_joint hleft (fun s' hs' => ?_) hj (joint?_of_isClosing hk)
  exact powers_of_unary (unary_parens hr hs' hchain' hup') (starStar_of_isClosing hk) _

theorem reads_pow {fits' : Prop} {left right : Expr} (hl : Reads fits left left.kinds r.expr)
    (hr : Reads fits' right right.kinds r.expr) (l : Location) :
    Reads (fits ∧ fits') (.binary .pow left right l)
      (parens left.kinds ++ .symbol .starStar :: parens right.kinds) (assignment r) := by
  intro k ks s hk hs
  rw [List.append_assoc] at hs
  obtain ⟨hchain, hup⟩ := TokenKind.ends_of_isClosing hk
  obtain ⟨n, hn⟩ := hs.exists_remaining nofun
  -- The power is read as one operand of all tiers.
  refine assignment_of_joined hs (.step hn ?_) hk
  refine layered_of_operand ?_ (joint?_of_isClosing hk)
  refine powers_of_pow (unary_parens hl hs rfl rfl)
    (fun s' hs' => ?_) (starStar_of_isClosing hk) n
  exact unary_parens hr hs' hchain hup

theorem reads_logical {fits' : Prop} {left right : Expr}
    (hl : Reads fits left left.kinds r.expr) (hr : Reads fits' right right.kinds r.expr)
    (op : LogicalOp) (l : Location) :
    Reads (fits ∧ fits') (.logical op left right l)
      (parens left.kinds ++ .symbol op.symbol :: parens right.kinds)
      (assignment r) := by
  have hj : joins (.symbol op.symbol) (.logical op) tiers = true := by
    cases op <;> decide
  exact reads_joined hl hr hj (by cases op <;> decide)

theorem reads_binary {fits' : Prop} {left right : Expr}
    (hl : Reads fits left left.kinds r.expr) (hr : Reads fits' right right.kinds r.expr)
    (op : BinaryOp) (l : Location) :
    Reads (fits ∧ fits') (.binary op left right l)
      (parens left.kinds ++ .symbol op.symbol :: parens right.kinds)
      (assignment r) := by
  by_cases hop : op = .pow
  · subst hop
    exact reads_pow hl hr l
  · have hj : joins (.symbol op.symbol) (.binary op) tiers = true := by
      cases op <;> first | exact absurd rfl hop | decide
    exact reads_joined hl hr hj (by cases op <;> first | exact absurd rfl hop | decide)

/-! ### Conditionals and assignments -/

/-- A token that no operator with two operands is. -/
def endsJoined (k : TokenKind) : Bool :=
  k.endsChain && (updateOp? k).isNone && !k.isSymbol .starStar && tiers.all fun t =>
    (t.joint? k).isNone

theorem joined_parens (he : Reads fits e e.kinds r.expr)
    (hs : s.Offers (parens e.kinds ++ k :: ks)) (hk : endsJoined k = true) :
    ParsesIf fits s (Gives e (k :: ks)) (joined r) := by
  simp only [endsJoined, Bool.and_eq_true, Option.isNone_iff_eq_none,
    Bool.not_eq_eq_eq_not, Bool.not_true,
    List.all_eq_true] at hk
  obtain ⟨⟨⟨hchain, hup⟩, hpow⟩, htiers⟩ := hk
  refine .step (x := Parse.remaining) rfl ?_
  exact layered_of_operand (powers_of_unary (unary_parens he hs hchain hup) hpow _) htiers

theorem reads_conditional {fits₁ fits₂ fits₃ : Prop} {test yes no : Expr}
    (ht : Reads fits₁ test test.kinds r.expr) (hy : Reads fits₂ yes (parens yes.kinds) r.expr)
    (hn : Reads fits₃ no (parens no.kinds) r.expr) (l : Location) :
    Reads (fits₁ ∧ fits₂ ∧ fits₃) (.conditional test yes no l)
      (parens test.kinds ++ .symbol .query ::
        (parens yes.kinds ++ .symbol .colon :: parens no.kinds))
      (assignment r) := by
  intro k ks s hk hs
  rw [List.append_assoc, List.cons_append, List.append_assoc, List.cons_append] at hs
  refine assignment_of_conditional hs ?_ (assignOp?_of_isClosing hk)
  refine (joined_parens ht hs rfl).bind fun test' s₁ h₁ =>
    .step (eatSymbol_of h₁.2.head_kind rfl) ?_
  refine (hy rfl h₁.2.tail).bind fun yes' s₂ h₂ => .step (expectSymbol_eq h₂.2.head_kind _) ?_
  refine (hn hk h₂.2.tail).andThen fun no' s₃ h₃ => .pure ⟨?_, h₃.2⟩
  simp only [Expr.bare, h₁.1, h₂.1, h₃.1]

theorem assignOp?_symbol {op : AssignOp} (h : op.symbol?.isSome = true) :
    assignOp? (.symbol (op.symbol?.getD .eq)) = some op ∧
      endsJoined (.symbol (op.symbol?.getD .eq)) = true ∧ op.symbol?.getD .eq ≠ .query := by
  cases op with
  | plain => exact ⟨rfl, rfl, nofun⟩
  | compound op => cases op <;> cases h <;> exact ⟨rfl, rfl, nofun⟩

theorem reads_assign {fits' : Prop} {op : AssignOp} {t : Target} {v : Expr}
    (hop : op.symbol?.isSome = true) (ht : Reads fits t.toExpr t.toExpr.kinds r.expr)
    (hv : Reads fits' v (parens v.kinds) r.expr) (l : Location) :
    Reads (fits ∧ fits') (.assign op t v l)
      (parens t.kinds ++ .symbol (op.symbol?.getD .eq) :: parens v.kinds)
      (assignment r) := by
  intro k ks s hk hs
  rw [← Target.kinds_toExpr, List.append_assoc, List.cons_append] at hs
  obtain ⟨hsym, hjoined, hquery⟩ := assignOp?_symbol hop
  refine .step (x := get) rfl ?_
  rw [arrowAhead?_eq_none fun t ht => (hs.plain t ht).2]
  have hleft :=
    conditional_of_joined (joined_parens ht hs hjoined) (beq_eq_false_iff_ne.2 hquery)
  refine hleft.bind fun left s₁ h₁ => .step (x := Parse.peek) rfl ?_
  obtain ⟨t', ht', hbare⟩ := Expr.exists_target_of_bare h₁.1
  rw [h₁.2.head_kind, hsym]
  dsimp only
  rw [ht']
  refine .step (x := Parse.skip) rfl ?_
  refine (hv hk h₁.2.tail).andThen fun v' s₂ h₂ => .pure ⟨?_, h₂.2⟩
  simp only [Expr.bare, hbare, h₂.1]

end Grammar

/-! ### Expressions -/

open Grammar in
/-- Expressions that can be printed are read again. -/
theorem Expr.Printable.readable {e : Expr} (he : e.Printable) : e.Readable := by
  -- Each case has one rule of the grammar; what is left is that its levels add up to those of
  -- the expression.
  induction he with
  | ident => exact readable_of_reads (fun d => reads_ident _ _) (by simp [Expr.nesting])
  | @bool b =>
    cases b with
    | true | false =>
      exact readable_of_reads
        (fun d => reads_literal rfl fun _ => rfl) (by simp [Expr.nesting])
  | string | null | this =>
    exact readable_of_reads (fun d => reads_literal rfl fun _ => rfl) (by simp [Expr.nesting])
  | unary _ ih =>
    refine readable_of_reads (fun d => reads_unary (reads_unary_parens ih d) _ _) fun d => ?_
    rw [Expr.nesting]
    omega
  | await _ ih =>
    refine readable_of_reads (fun d => reads_await (reads_unary_parens ih d) _) fun d => ?_
    rw [Expr.nesting]
    omega
  | @update _ before _ _ _ ih =>
    cases before with
    | true =>
      refine readable_of_reads (fun d => reads_update_before (reads_unary_parens ih d) _ _)
        fun d => ?_
      rw [Expr.nesting, Target.nesting_toExpr, if_pos rfl]
      omega
    | false =>
      refine readable_of_reads (fun d => reads_update_after (ih d) _ _) fun d => ?_
      rw [Expr.nesting, Target.nesting_toExpr, if_neg Bool.false_ne_true]
      omega
  | binary _ _ ihl ihr =>
    refine readable_of_reads (fun d => reads_binary (ihl d) (ihr d) _ _) fun d => ?_
    rw [Expr.nesting]
    omega
  | logical _ _ ihl ihr =>
    refine readable_of_reads (fun d => reads_logical (ihl d) (ihr d) _ _) fun d => ?_
    rw [Expr.nesting]
    omega
  | assign hop _ _ iht ihv =>
    refine readable_of_reads (fun d => reads_assign hop (iht d) (reads_expr_parens ihv d) _)
      fun d => ?_
    rw [Expr.nesting, Target.nesting_toExpr]
    omega
  | conditional _ _ _ iht ihy ihn =>
    refine readable_of_reads
      (fun d => reads_conditional (iht d) (reads_expr_parens ihy d)
        (reads_expr_parens ihn d) _) fun d => ?_
    rw [Expr.nesting]
    omega
  | call _ _ ihf iha =>
    refine readable_of_reads (fun d => reads_call (ihf d) iha _) fun d => ?_
    rw [Expr.nesting]
    omega
  | new _ _ ihf iha =>
    refine readable_of_reads (fun d => reads_new (ihf d) iha _) fun d => ?_
    rw [Expr.nesting]
    omega
  | named _ _ iho =>
    refine readable_of_reads (fun d => reads_member (iho d) accessKey?_named _) fun d => ?_
    rw [Expr.nesting, Key.nesting, and_true]
    omega
  | computed _ _ iho ihe =>
    refine readable_of_reads
      (fun d => reads_member (iho d) (accessKey?_computed (reads_expr_parens ihe d)) _)
      fun d => ?_
    rw [Expr.nesting, Key.nesting]
    omega
  | array _ ih =>
    refine readable_of_reads (fun d => reads_array ih d _) fun d => ?_
    rw [Expr.nesting]

/-! ### Statements -/

/-- The tokens that a printed expression can start with. -/
def TokenKind.opensExpr : TokenKind → Bool
  | .name _ | .string _ => true
  | .keyword w => w ∈ [.trueKw, .falseKw, .nullKw, .thisKw, .awaitKw, .typeofKw, .newKw]
  | .symbol s => s ≠ .lbrace ∧ s ≠ .semicolon
  | _ => false

/-- The tokens start with one that a printed expression can start with, and not with a name
unless it is the only token. -/
def Opens (ks : List TokenKind) : Prop :=
  ∃ k ks₀, ks = k :: ks₀ ∧ k.opensExpr = true ∧ ∀ n, k = .name n → ks₀ = []

theorem opens_parens (ks ks' : List TokenKind) : Opens (parens ks ++ ks') :=
  ⟨.symbol .lparen, _, rfl, rfl, nofun⟩

theorem Expr.Printable.opens {e : Expr} (he : e.Printable) : Opens e.kinds := by
  cases he with
  | ident => exact ⟨_, _, rfl, rfl, fun _ _ => rfl⟩
  | string | null | this | await | new | array => exact ⟨_, _, rfl, rfl, nofun⟩
  | @bool b => exact ⟨_, _, rfl, by cases b <;> rfl, nofun⟩
  | @unary op => exact ⟨_, _, rfl, by cases op <;> rfl, by cases op <;> nofun⟩
  | @update op before =>
    cases before with
    | true => exact ⟨_, _, rfl, by cases op <;> rfl, nofun⟩
    | false => exact opens_parens _ _
  | binary | logical | assign | conditional | call | named | computed =>
    exact opens_parens _ _

theorem startsAsyncFunction_eq_false {ks : List TokenKind} (hks : Opens ks) {s : Stream}
    (hs : s.Offers (ks ++ [.symbol .semicolon])) :
    Grammar.startsAsyncFunction s.rest = false := by
  obtain ⟨k, ks₀, rfl, -, hname⟩ := hks
  obtain ⟨t, rest, hrest, hkind, htail⟩ := hs.exists_cons
  rw [hrest]
  cases k with
  | name n =>
    -- Behind a name the semicolon comes next.
    rw [hname n rfl] at htail
    obtain ⟨u, rest, rfl, hu, -⟩ := List.map_eq_cons_iff.1 htail
    simp [Grammar.startsAsyncFunction, hu, TokenKind.isKeyword]
  | _ =>
    cases rest with
    | nil => rfl
    | cons u rest => simp [Grammar.startsAsyncFunction, hkind, TokenKind.isName]

theorem declKind?_of_opensExpr {k : TokenKind} (hk : k.opensExpr = true) :
    Grammar.declKind? k = none := by
  unfold Grammar.declKind?
  split
  · exact absurd hk (by decide)
  · exact absurd hk (by decide)
  · exact absurd hk (by decide)
  · rfl

theorem statement_eq_exprStmt {r : Rules} {s : Stream} (hk : s.head.kind.opensExpr = true)
    (hasync : Grammar.startsAsyncFunction s.rest = false) :
    Grammar.statement r s = Grammar.exprStmt r s.head.loc s := by
  rw [Grammar.statement, Parse.bind_eq (x := Parse.here) rfl,
    Parse.bind_eq (x := Parse.peek) rfl]
  generalize s.head.kind = k at hk
  split
  rotate_right
  · rw [declKind?_of_opensExpr hk]
    dsimp only
    rw [Parse.bind_eq (x := get) (s := s) rfl, hasync, if_neg Bool.false_ne_true]
  all_goals exact absurd hk (by decide)

/-- The answer is a statement that is the expression up to its places. -/
def IsExprStmt (e : Expr) (st : Stmt) : Prop :=
  ∃ e' l, st = .expr e' l ∧ e'.bare = e.bare

/-- Tokens that are read as an expression are read as a statement with a semicolon
behind them. -/
theorem statement_reads {r : Rules} {fits : Prop} {e : Expr} {ks : List TokenKind}
    (hks : Opens ks) (he : Grammar.Reads fits e ks r.expr) {s : Stream}
    (hs : s.Offers (ks ++ [.symbol .semicolon])) :
    ParsesIf fits s (fun st s' => IsExprStmt e st ∧ s'.Offers []) (Grammar.statement r) := by
  have hopens : s.head.kind.opensExpr = true := by
    obtain ⟨k, ks₀, rfl, hk, -⟩ := hks
    rw [hs.head_kind]
    exact hk
  unfold ParsesIf
  rw [statement_eq_exprStmt hopens (startsAsyncFunction_eq_false hks hs)]
  refine (he rfl hs).andThen fun e' s' h => ?_
  have hend : Parse.endStatement s' = .ok ((), s'.tail) := by
    rw [Parse.endStatement, Parse.bind_eq (eatSymbol_of h.2.head_kind rfl)]
    rfl
  exact .step hend (.step (x := Parse.spanFrom _) rfl (.pure ⟨⟨e', _, rfl, h.1⟩, h.2.tail⟩))

/-! ### Programs -/

theorem atEnd_eq {s : Stream} {ks : List TokenKind} (hs : s.Offers ks) :
    Parse.atEnd s = .ok (ks.isEmpty, s) := by
  rw [← hs.kinds, List.isEmpty_map]
  rfl

theorem programItems_eq_nil {r : Rules} {s : Stream} (hs : s.Offers []) (n : Nat) :
    Grammar.programItems r n s = .ok ([], s) := by
  cases n with
  | zero => rfl
  | succ n =>
    rw [Grammar.programItems, Parse.bind_eq (atEnd_eq hs)]
    rfl

/-- Tokens that are read as an expression are read as a program with a semicolon
behind them. -/
theorem program_reads {d : Nat} {fits : Prop} {e : Expr} {ks : List TokenKind}
    (hks : Opens ks) (he : Grammar.Reads fits e ks (Rules.atDepth d).expr) {s : Stream}
    (hs : s.Offers (ks ++ [.symbol .semicolon])) :
    ParsesIf fits s (fun p _ => ∃ st, p.body = [st] ∧ IsExprStmt e st)
      (Grammar.program (.atDepth (d + 1))) := by
  obtain ⟨n, hn⟩ := hs.exists_remaining (by simp)
  have hend : Parse.atEnd s = .ok (false, s) := by
    rw [atEnd_eq hs, List.isEmpty_eq_false_iff.2 (by simp)]
  refine .step (x := Parse.here) rfl (.step hn ?_)
  refine .andThen (Q := fun body s' => ∃ st, body = [st] ∧ IsExprStmt e st) ?_
    fun body s' h => ?_
  · refine .step hend ((statement_reads hks he hs).andThen fun st s' h => ?_)
    exact .step (programItems_eq_nil h.2 n) (.pure ⟨st, rfl, h.1⟩)
  · exact .step (x := Parse.here) rfl (.pure h)

theorem program_printed {e : Expr} (he : e.Printable) {d : Nat} {s : Stream}
    (hs : s.Offers (e.kinds ++ [.symbol .semicolon])) :
    ParsesIf (e.nesting < d) s (fun p _ => ∃ st, p.body = [st] ∧ IsExprStmt e st)
      (Grammar.program (.atDepth (d + 1))) :=
  program_reads he.opens (he.readable d) hs

/-! ### Printed expressions -/

theorem toList_printed (e : Expr) :
    (e.printed ++ ";").toList = spelled (e.kinds ++ [.symbol .semicolon]) := by
  rw [Expr.printed, String.toList_append, String.toList_ofList, spelled,
    spelled, List.flatMap_append]
  rfl

/-- A text of legible tokens has these tokens, all on one line. -/
theorem tokenize_spelled {ks : List TokenKind} (hlegible : Legible ks)
    (harrowless : Arrowless ks) {source : String} (hsource : source.toList = spelled ks) :
    ∃ ts, tokenize source = .ok ts ∧ (Stream.ofTokens ts).Offers ks := by
  obtain ⟨ts, hts, hkinds, hlines⟩ := tokensFrom_text hlegible Position.origin
  rw [← hsource] at hts
  refine ⟨ts, hts, hkinds, fun t ht => ⟨hlines t ht, harrowless _ ?_⟩⟩
  rw [← hkinds]
  exact List.mem_map_of_mem ht

/-- A printed expression has the tokens of the expression, all on one line. -/
theorem tokenize_printed {e : Expr} (he : e.Printable) :
    ∃ ts, tokenize (e.printed ++ ";") = .ok ts ∧
      (Stream.ofTokens ts).Offers (e.kinds ++ [.symbol .semicolon]) := by
  have hlegible : Legible (e.kinds ++ [.symbol .semicolon]) :=
    he.legible _ (legible_separator rfl trivial) ⟨';', _, rfl, .inr (.inr rfl)⟩
  have harrowless : Arrowless (e.kinds ++ [.symbol .semicolon]) :=
    arrowless_append.2 ⟨he.arrowless, arrowless_cons.2 ⟨rfl, arrowless_nil⟩⟩
  exact tokenize_spelled hlegible harrowless (toList_printed e)

/-- Parsing undoes printing, unless the parentheses nest too deep. -/
theorem parseProgram_printed {e : Expr} (he : e.Printable) :
    (e.nesting + 1 < maxNesting →
      ∃ p e' l, parseProgram (e.printed ++ ";") = .ok p ∧
        p.body = [.expr e' l] ∧ e'.bare = e.bare) ∧
    (maxNesting ≤ e.nesting + 1 → ∃ l,
      parseProgram (e.printed ++ ";") = .error ⟨.tooDeep, l⟩) := by
  obtain ⟨ts, hts, hs⟩ := tokenize_printed he
  have hprogram : ParsesIf (e.nesting < 39) _ _ (Grammar.program (.atDepth maxNesting)) :=
    program_printed he hs
  have hparse : parseProgram (e.printed ++ ";") =
      (Grammar.program (.atDepth maxNesting) (Stream.ofTokens ts)).map Prod.fst := by
    rw [parseProgram, hts]
    rfl
  have hmax : maxNesting = 39 + 1 := rfl
  unfold ParsesIf at hprogram
  split at hprogram
  · next p s' hp =>
    obtain ⟨hfits, st, hbody, e', l, rfl, hbare⟩ := hprogram
    refine ⟨fun _ => ⟨p, e', l, ?_, hbody, hbare⟩, fun h => by omega⟩
    rw [hparse, hp]
    rfl
  · next err herr =>
    obtain ⟨hfits, hcause⟩ := hprogram
    refine ⟨fun h => by omega, fun _ => ⟨err.loc, ?_⟩⟩
    rw [hparse, herr, ← hcause]
    rfl

/-- The property `p` of `o` with an array added to it, which has a text and a hole. -/
def appending : Expr :=
  .assign (.compound .add) (.member (.ident "o" default) (.named "p") default)
    (.array [some (.string "q" default), none] default) default

/-- A name behind a number of negations. -/
def negations : Nat → Expr
  | 0 => .ident "x" default
  | n + 1 => .unary .not (negations n) default

theorem printable_letter {c : Char} (hc : isNameStart c = true)
    (hk : Keyword.ofText? (String.ofList [c]) = none) :
    (Expr.ident (String.ofList [c]) default).Printable :=
  .ident ⟨c, [], String.toList_ofList, hc, nofun⟩ hk

theorem printable_appending : appending.Printable := by
  have ho : (Expr.ident "o" default).Printable :=
    printable_letter (c := 'o') (by decide +kernel) (by decide +kernel)
  have hp : IsWord "p" := ⟨'p', [], rfl, by decide +kernel, nofun⟩
  have hitems : (Expr.array [some (.string "q" default), none] default).Printable := by
    refine .array fun e he => ?_
    obtain rfl : e = .string "q" default := by simpa using he
    exact .string
  exact .assign rfl (ho.named hp) hitems

theorem printable_negations (n : Nat) : (negations n).Printable := by
  induction n with
  | zero => exact printable_letter (c := 'x') (by decide +kernel) (by decide +kernel)
  | succ n ih => exact ih.unary

/-- One expression is read again, another one nests too deep. -/
theorem parseProgram_appending_negations :
    (appending.printed = "((o).p)+=([(\x22q\x22),,])" ∧ ∃ p e' l, parseProgram
      (appending.printed ++ ";") = .ok p ∧ p.body = [.expr e' l] ∧ e'.bare = appending.bare) ∧
    ∃ l, parseProgram ((negations 20).printed ++ ";") = .error ⟨.tooDeep, l⟩ := by
  refine ⟨⟨by decide +kernel, ?_⟩, ?_⟩
  · exact (parseProgram_printed printable_appending).1 (by decide)
  · exact (parseProgram_printed (printable_negations 20)).2 (by decide)

end ScriptReplay
