/-
Progress of the parser.

What the rules of the grammar read is at least one token, and never the end mark.  So
repetitions end before their rounds do.

* `Parse.Advances` : a parser that reads at least some number of tokens;
* `Parse.Agree` : parsers that do the same where only so many tokens are left;
* `Parse.Settles` : a repetition that does the same for all counts from the number
  of tokens on;
* `Rules.Settled` : all repetitions of the grammar;
* `Rules.atDepth_advances` : the rules that nest read at least one token, on every level;
* `Rules.Reread.settled` : repetitions settle if these rules do.

Design notes: the repetitions of the grammar count down the tokens that are left.  A
repetition that settles would do the same with any larger count, so what ends it are the
tokens, not the count.
-/
import ScriptReplay.Proofs.Source.Counting
import ScriptReplay.Proofs.Source.Rereading.Stmts

namespace ScriptReplay

variable {α β : Type}

namespace Parse

/-! ### Parsers that read tokens -/

/-- Where the parser answers `a`, it has read at least `least a` tokens and has not passed
the end mark. -/
def Advances (least : α → Nat) (x : Parse α) : Prop :=
  ∀ s a s', s.final.kind = .finish → x s = .ok (a, s') →
    ∃ read, s.rest = read ++ s'.rest ∧ s'.final = s.final ∧ least a ≤ read.length

namespace Advances

variable {least : α → Nat} {x : Parse α}

/-- A parser that leaves the stream as it is. -/
theorem look {f : Stream → α} : Advances (fun _ => 0) fun s => .ok (f s, s) := by
  intro s a s' _ h
  cases h
  exact ⟨[], rfl, rfl, Nat.le_refl 0⟩

/-- What can be read again has been read. -/
theorem of_rereads [Bare α] {shallow : Prop} {grow : Bool} {y : Parse α}
    (h : ∀ s, Rereads shallow .next grow 0 0 0 s x y) : Advances (fun _ => grow.toNat) x := by
  intro s a s' hfinal hrun
  obtain ⟨read, hp, hg, -⟩ := h s hfinal a s' hrun
  refine ⟨read, hp.rest, hp.final, ?_⟩
  cases grow with
  | false => exact Nat.zero_le _
  | true => exact List.length_pos_iff.2 (hg rfl)

theorem mono (hx : Advances least x) {least' : α → Nat} (h : ∀ a, least' a ≤ least a) :
    Advances least' x := by
  intro s a s' hfinal hrun
  obtain ⟨read, hrest, hfinal', hle⟩ := hx s a s' hfinal hrun
  exact ⟨read, hrest, hfinal', Nat.le_trans (h a) hle⟩

theorem pure {a : α} (h : least a = 0) : Advances least (Pure.pure a) := by
  intro s a' s' _ hrun
  cases hrun
  exact ⟨[], rfl, rfl, Nat.le_of_eq h⟩

theorem bind {least' : β → Nat} {f : α → Parse β} (hx : Advances least x)
    (hf : ∀ a, Advances (fun b => least' b - least a) (f a)) : Advances least' (x >>= f) := by
  intro s b s' hfinal hrun
  obtain ⟨a, s₁, hxs, hfs⟩ := Parse.bind_eq_ok hrun
  obtain ⟨read, hrest, hfinal₁, hle⟩ := hx s a s₁ hfinal hxs
  obtain ⟨read', hrest', hfinal', hle'⟩ := hf a s₁ b s' (hfinal₁ ▸ hfinal) hfs
  refine ⟨read ++ read', ?_, hfinal'.trans hfinal₁, ?_⟩
  · rw [hrest, hrest', List.append_assoc]
  · have hrest_le : least' b - least a ≤ read'.length := hle'
    rw [List.length_append]
    omega

/-- A parser and what follows, where nothing has to be read. -/
theorem andThen {f : α → Parse β} (hx : Advances least x)
    (hf : ∀ a, Advances (fun _ => 0) (f a)) : Advances (fun _ => 0) (x >>= f) :=
  hx.bind fun a => (hf a).mono fun _ => Nat.le_of_eq (Nat.zero_sub _)

end Advances

theorem advances_skip : Advances (fun _ => 0) skip := by
  intro s _ s' _ h
  cases h
  exact ⟨s.rest.take 1, by rw [Grammar.rest_tail, List.take_append_drop],
    Grammar.final_tail s, Nat.zero_le _⟩

theorem advances_eatSymbol (sym : Symbol) : Advances Bool.toNat (eatSymbol sym) := by
  intro s b s' hfinal h
  cases hk : s.head.kind.isSymbol sym with
  | false =>
    rw [eatSymbol_of_ne rfl hk] at h
    cases h
    exact ⟨[], rfl, rfl, Nat.le_refl 0⟩
  | true =>
    have hne : s.head.kind ≠ .finish := fun hfinish => by rw [hfinish] at hk; cases hk
    obtain ⟨t, hrest, -⟩ := Grammar.exists_rest_of_head hne hfinal rfl
    rw [eatSymbol_of rfl hk] at h
    cases h
    exact ⟨[t], hrest, Grammar.final_tail s, Nat.le_refl 1⟩

theorem advances_expectName : Advances (fun _ => 1) expectName := by
  have hread : ∀ s, Rereads False .next true 0 0 0 s expectName expectName :=
    fun _ => .expectName
  exact .of_rereads hread

theorem advances_expectPropertyName : Advances (fun _ => 1) expectPropertyName := by
  have hread : ∀ s, Rereads False .next true 0 0 0 s expectPropertyName expectPropertyName :=
    fun _ => .expectPropertyName
  exact .of_rereads hread

theorem advances_expectBracket (place : String) :
    Advances (fun _ => 1) (expectSymbol .rbracket place) := by
  have hread : ∀ s, Rereads False .next true 0 0 0 s (expectSymbol .rbracket place)
      (expectSymbol .rbracket place) :=
    fun _ => .expectSymbol rfl place
  exact .of_rereads hread

/-! ### Parsers that agree -/

/-- The parsers do the same where at most `k` tokens are left. -/
def Agree (k : Nat) (x y : Parse α) : Prop :=
  ∀ s, s.final.kind = .finish → s.rest.length ≤ k → x s = y s

namespace Agree

variable {k : Nat} {x y : Parse α}

theorem refl (x : Parse α) : Agree k x x :=
  fun _ _ _ => rfl

theorem symm (h : Agree k x y) : Agree k y x :=
  fun s hs hk => (h s hs hk).symm

/-- The same parser, and what follows it. -/
theorem bind {least : α → Nat} {f g : α → Parse β} (hx : Advances least x)
    (hf : ∀ a, least a ≤ k → Agree (k - least a) (f a) (g a)) :
    Agree k (x >>= f) (x >>= g) := by
  intro s hs hk
  cases hrun : x s with
  | error e => rw [bind_eq_error hrun, bind_eq_error hrun]
  | ok r =>
    obtain ⟨a, s₁⟩ := r
    obtain ⟨read, hrest, hfinal, hle⟩ := hx s a s₁ hs hrun
    have hlength := congrArg List.length hrest
    rw [List.length_append] at hlength
    rw [bind_eq hrun, bind_eq hrun]
    exact hf a (by omega) s₁ (hfinal ▸ hs) (by omega)

/-- Parsers that agree, and what follows both. -/
theorem andThen (h : Agree k x y) (f : α → Parse β) : Agree k (x >>= f) (y >>= f) := by
  intro s hs hk
  show (x s).bind (fun r => f r.1 r.2) = (y s).bind fun r => f r.1 r.2
  rw [h s hs hk]

/-- A look at the stream, and what follows. -/
theorem look {γ : Type} {v : Stream → γ} {f g : γ → Parse β} (hf : ∀ c, Agree k (f c) (g c)) :
    Agree k ((fun s => .ok (v s, s) : Parse γ) >>= f)
      ((fun s => .ok (v s, s) : Parse γ) >>= g) :=
  bind .look fun c _ => hf c

/-- A look at the next token.  If it is not the end mark, a token is left. -/
theorem peek {f g : Token → Parse β}
    (hf : ∀ t, (t.kind ≠ .finish → 1 ≤ k) → Agree k (f t) (g t)) :
    Agree k (Parse.peek >>= f) (Parse.peek >>= g) := by
  intro s hs hk
  refine hf s.head (fun hne => ?_) s hs hk
  obtain ⟨t, hrest, -⟩ := Grammar.exists_rest_of_head hne hs rfl
  have hlength := congrArg List.length hrest
  rw [List.length_cons] at hlength
  omega

/-- A look for a keyword.  If it comes next, a token is left. -/
theorem atKeyword {w : Keyword} {f g : Bool → Parse β}
    (hyes : 1 ≤ k → Agree k (f true) (g true)) (hno : Agree k (f false) (g false)) :
    Agree k (Parse.atKeyword w >>= f) (Parse.atKeyword w >>= g) := by
  refine peek (f := fun t => f (t.kind.isKeyword w)) (g := fun t => g (t.kind.isKeyword w))
    fun t ht => ?_
  cases hw : t.kind.isKeyword w with
  | true => exact hyes (ht fun hfinish => by rw [hfinish] at hw; cases hw)
  | false => exact hno

/-- Where a token is left it is passed, and else nothing is left. -/
theorem skip {f g : Unit → Parse β} (hf : Agree (k - 1) (f ()) (g ())) :
    Agree k (Parse.skip >>= f) (Parse.skip >>= g) := by
  intro s hs hk
  refine hf s.tail (Grammar.final_tail s ▸ hs) ?_
  rw [Grammar.rest_tail, List.length_drop]
  exact Nat.sub_le_sub_right hk 1

end Agree

/-- From as many rounds on as tokens are left, and `slack` more, the repetition
does the same. -/
def Settles (slack : Nat) (x : Nat → Parse α) : Prop :=
  ∀ k n m, k + slack ≤ n → k + slack ≤ m → Agree k (x n) (x m)

namespace Settles

/-- A repetition in which each round reads a token before the next one. -/
theorem of_rounds {x : Nat → Parse α}
    (hround : ∀ k n m, (∀ j, j < k → Agree j (x n) (x m)) → Agree k (x (n + 1)) (x (m + 1))) :
    Settles 1 x := by
  -- By induction on the rounds of the first repetition; `k` goes down with them.
  intro k n m hn hm
  induction n generalizing k m with
  | zero => omega
  | succ n ih =>
    obtain ⟨m, rfl⟩ := Nat.exists_eq_succ_of_ne_zero (show m ≠ 0 by omega)
    exact hround k n m fun j hj => ih j m (by omega) (by omega)

/-- A repetition that goes on from what it has, does nothing at the end, and reads a token
before each next round. -/
theorem of_chain {x : Nat → α → Parse β} (hend : ∀ n a, Agree 0 (x n a) (x 0 a))
    (hround : ∀ k n m, (∀ j a, j < k → Agree j (x n a) (x m a)) → ∀ a,
      Agree k (x (n + 1) a) (x (m + 1) a))
    (a : α) : Settles 0 fun n => x n a := by
  intro k n m hn hm
  induction n generalizing k m a with
  | zero =>
    -- No rounds are enough only where no token is left, and there all repetitions end
    -- at once.
    obtain rfl : k = 0 := by omega
    exact (hend m a).symm
  | succ n ih =>
    cases m with
    | zero =>
      obtain rfl : k = 0 := by omega
      exact hend (n + 1) a
    | succ m => exact hround k n m (fun j a hj => ih a j m (by omega) (by omega)) a

end Settles

end Parse

/-! ### Repetitions -/

namespace Grammar

open Parse

variable {r r' : Rules} {shallow : Prop} {k : Nat}

/-- An item, and more of them behind a comma. -/
theorem commaItems_agree {more more' : Parse (List α)}
    (hmore : 1 ≤ k → Agree (k - 1) more more') (a : α) :
    Agree k (do if ← eatSymbol .comma then return a :: (← more) else return [a])
      (do if ← eatSymbol .comma then return a :: (← more') else return [a]) := by
  refine .bind (advances_eatSymbol .comma) fun b hb => ?_
  cases b with
  | true => exact (hmore hb).andThen _
  | false => exact .refl _

theorem advances_expr (hr : r.Reread shallow r') : Advances (fun _ => 1) r.expr :=
  .of_rereads fun _ => hr.expr

theorem advances_stmt (hr : r.Reread shallow r') : Advances (fun _ => 1) r.stmt :=
  .of_rereads fun _ => hr.stmt

theorem advances_unary (hr : r.Reread shallow r') : Advances (fun _ => 1) (unary r) :=
  .of_rereads fun _ => unary_rereads hr

theorem advances_fallback (hr : r.Reread shallow r') : Advances (fun _ => 0) (fallback r) :=
  .of_rereads fun _ => fallback_rereads hr

theorem advances_accessKey? (hr : r.Reread shallow r') :
    Advances (fun o => o.isSome.toNat) (accessKey? r) := by
  refine .bind (advances_eatSymbol .dot) fun b => ?_
  cases b with
  | true => exact .bind advances_expectPropertyName fun n => .pure rfl
  | false =>
    refine .bind (advances_eatSymbol .lbracket) fun b => ?_
    cases b with
    | true =>
      exact .bind (advances_expr hr) fun e =>
        .bind (advances_expectBracket _) fun _ => .pure rfl
    | false => exact .pure rfl

theorem argumentItems_settles (hr : r.Reread shallow r') : Settles 1 (argumentItems r) := by
  refine .of_rounds fun k n m ih => .look fun b => ?_
  cases b with
  | true => exact .refl _
  | false =>
    exact .bind (advances_expr hr) fun e _ => commaItems_agree (fun _ => ih _ (by omega)) e

theorem parameterItems_settles (hr : r.Reread shallow r') : Settles 1 (parameterItems r) := by
  refine .of_rounds fun k n m ih => .look fun b => ?_
  cases b with
  | true => exact .refl _
  | false =>
    refine .bind advances_expectName fun name _ => .bind (advances_fallback hr) fun o _ => ?_
    exact commaItems_agree (fun _ => ih _ (by omega)) _

theorem blockItems_settles (hr : r.Reread shallow r') : Settles 1 (blockItems r) := by
  refine .of_rounds fun k n m ih => .look fun b => .look fun b' => ?_
  cases b || b' with
  | true => exact .refl _
  | false => exact .bind (advances_stmt hr) fun s _ => (ih _ (by omega)).andThen _

theorem arrayItems_settles (hr : r.Reread shallow r') : Settles 1 (arrayItems r) := by
  refine .of_rounds fun k n m ih => .look fun b => ?_
  cases b with
  | true => exact .refl _
  | false =>
    refine .bind (advances_eatSymbol .comma) fun b hb => ?_
    cases b with
    | true => exact (ih _ (Nat.sub_lt hb Nat.one_pos)).andThen _
    | false =>
      exact .bind (advances_expr hr) fun e _ => commaItems_agree (fun _ => ih _ (by omega)) _

theorem propertyItems_settles (hr : r.Reread shallow r') : Settles 1 (propertyItems r) := by
  have hproperty : Advances (fun _ => 1) (property r) :=
    .of_rereads fun _ => property_rereads hr
  refine .of_rounds fun k n m ih => .look fun b => ?_
  cases b with
  | true => exact .refl _
  | false => exact .bind hproperty fun p _ => commaItems_agree (fun _ => ih _ (by omega)) p

theorem declarators_settles (hr : r.Reread shallow r') : Settles 1 (declarators r) := by
  refine .of_rounds fun k n m ih => .look fun start => ?_
  refine .bind advances_expectName fun name _ =>
    .bind (advances_fallback hr) fun o _ => .look fun l => ?_
  exact commaItems_agree (fun _ => ih _ (by omega)) _

theorem construction_settles : Settles 1 (construction r) := by
  -- The first word is passed unseen, but another one is only looked for behind it, where a
  -- token must be left.
  refine .of_rounds fun k n m ih => .look fun start =>
    .skip (.atKeyword (fun hk => ?_) (.refl _))
  exact (ih _ (by omega)).andThen _

theorem members_settles (hr : r.Reread shallow r') (e : Expr) :
    Settles 0 fun n => members r n e := by
  have hend : ∀ n e, Agree 0 (members r n e) (members r 0 e) := by
    intro n e s hs hk
    exact members_eq
      (head_of_rest_nil (List.length_eq_zero_iff.1 (Nat.le_zero.1 hk)) hs) rfl rfl n e
  refine .of_chain hend (fun k n m ih e => ?_) e
  refine .bind (advances_accessKey? hr) fun o ho => ?_
  cases o with
  | none => exact .refl _
  | some key => exact .look fun l => ih _ _ (Nat.sub_lt ho Nat.one_pos)

theorem calls_settles (hr : r.Reread shallow r') (e : Expr) :
    Settles 0 fun n => calls r n e := by
  have hend : ∀ n e, Agree 0 (calls r n e) (calls r 0 e) := by
    intro n e s hs hk
    exact calls_eq
      (head_of_rest_nil (List.length_eq_zero_iff.1 (Nat.le_zero.1 hk)) hs) rfl n e
  have harguments : Advances (fun _ => 1) (arguments r) :=
    .of_rereads fun _ => arguments_rereads hr
  refine .of_chain hend (fun k n m ih e => ?_) e
  refine .bind (advances_accessKey? hr) fun o ho => ?_
  cases o with
  | some key => exact .look fun l => ih _ _ (Nat.sub_lt ho Nat.one_pos)
  | none =>
    refine .look fun b => ?_
    cases b with
    | true =>
      exact .bind harguments fun args hargs => .look fun l =>
        ih _ _ (Nat.sub_lt hargs Nat.one_pos)
    | false => exact .refl _

theorem tierRest_settles {operand : Parse Expr} (hoperand : Advances (fun _ => 0) operand)
    (t : Tier) (l : Expr) : Settles 0 fun n => tierRest t operand n l := by
  have hend : ∀ n l, Agree 0 (tierRest t operand n l) (tierRest t operand 0 l) := by
    intro n l s hs hk
    exact tierRest_eq (head_of_rest_nil (List.length_eq_zero_iff.1 (Nat.le_zero.1 hk)) hs)
      (joint?_finish t) n l
  refine .of_chain hend (fun k n m ih l => ?_) l
  refine .peek fun token htoken => ?_
  cases hj : t.joint? token.kind with
  | none => exact .refl _
  | some j =>
    have hk : 1 ≤ k := htoken fun hfinish => by
      rw [hfinish, joint?_finish] at hj
      cases hj
    exact .skip (.bind hoperand fun e _ => ih _ _ (Nat.sub_lt hk Nat.one_pos))

theorem powers_settles (hr : r.Reread shallow r') : Settles 0 (powers r) := by
  have hunary : Advances (fun _ => 1) (unary r) := advances_unary hr
  have hend : ∀ n, Agree 0 (powers r n) (powers r 0) := by
    intro n s hs hk
    cases n with
    | zero => rfl
    | succ n =>
      -- No operand can be read where no token is left.
      cases hrun : unary r s with
      | error e => exact (bind_eq_error hrun).trans hrun.symm
      | ok a =>
        obtain ⟨read, hrest, -, hle⟩ := hunary s a.1 a.2 hs hrun
        have hread : 1 ≤ read.length := hle
        rw [hrest, List.length_append] at hk
        omega
  refine Settles.of_chain (x := fun n (_ : Unit) => powers r n)
    (fun n _ => hend n) (fun k n m ih _ => ?_) ()
  refine .bind hunary fun base hbase => .bind (advances_eatSymbol .starStar) fun b _ => ?_
  cases b with
  | true => exact (ih _ () (by omega)).andThen _
  | false => exact .refl _

theorem programItems_settles (hr : r.Reread shallow r') : Settles 0 (programItems r) := by
  have hend : ∀ n, Agree 0 (programItems r n) (programItems r 0) := by
    intro n s hs hk
    cases n with
    | zero => rfl
    | succ n =>
      have hatEnd : atEnd s = .ok (true, s) := by
        show Except.ok (s.rest.isEmpty, s) = _
        rw [List.length_eq_zero_iff.1 (Nat.le_zero.1 hk)]
        rfl
      unfold programItems
      rw [bind_eq hatEnd]
      rfl
  refine Settles.of_chain (x := fun n (_ : Unit) => programItems r n)
    (fun n _ => hend n) (fun k n m ih _ => ?_) ()
  refine .look fun b => ?_
  cases b with
  | true => exact .refl _
  | false =>
    exact .bind (advances_stmt hr) fun s hs => (ih _ () (Nat.sub_lt hs Nat.one_pos)).andThen _

/-! ### Operands -/

theorem advances_powers (hr : r.Reread shallow r') (n : Nat) :
    Advances (fun _ => 0) (powers r n) := by
  induction n with
  | zero => exact (advances_unary hr).mono fun _ => Nat.zero_le _
  | succ n ih =>
    refine (advances_unary hr).andThen fun base =>
      (advances_eatSymbol .starStar).andThen fun b => ?_
    cases b with
    | true => exact ih.andThen fun exponent => .pure rfl
    | false => exact .pure rfl

theorem advances_tierRest {operand : Parse Expr} (hoperand : Advances (fun _ => 0) operand)
    (t : Tier) (n : Nat) (l : Expr) : Advances (fun _ => 0) (tierRest t operand n l) := by
  induction n generalizing l with
  | zero => exact .pure rfl
  | succ n ih =>
    refine Advances.look.andThen fun token => ?_
    split
    · exact advances_skip.andThen fun _ => hoperand.andThen fun e => ih _
    · exact .pure rfl

theorem advances_layered {operand : Parse Expr} (hoperand : Advances (fun _ => 0) operand)
    (tiers : List Tier) : Advances (fun _ => 0) (layered operand tiers) := by
  induction tiers with
  | nil => exact hoperand
  | cons t tighter ih =>
    exact ih.andThen fun first => Advances.look.andThen fun n =>
      advances_tierRest ih t n first

end Grammar

/-- No repetition of the grammar, with the rules one level deeper as given, is ended by its
count.  The slack of each is the one that the grammar gives it. -/
structure Rules.Settled (r : Rules) : Prop where
  argumentItems : Parse.Settles 1 (Grammar.argumentItems r)
  parameterItems : Parse.Settles 1 (Grammar.parameterItems r)
  blockItems : Parse.Settles 1 (Grammar.blockItems r)
  arrayItems : Parse.Settles 1 (Grammar.arrayItems r)
  propertyItems : Parse.Settles 1 (Grammar.propertyItems r)
  declarators : Parse.Settles 1 (Grammar.declarators r)
  construction : Parse.Settles 1 (Grammar.construction r)
  members : ∀ e, Parse.Settles 0 fun n => Grammar.members r n e
  calls : ∀ e, Parse.Settles 0 fun n => Grammar.calls r n e
  powers : Parse.Settles 0 (Grammar.powers r)
  tierRest : ∀ rounds tighter t l, Parse.Settles 0 fun n =>
    Grammar.tierRest t (Grammar.layered (Grammar.powers r rounds) tighter) n l
  programItems : Parse.Settles 0 (Grammar.programItems r)

theorem Rules.Reread.settled {shallow : Prop} {r r' : Rules} (hr : r.Reread shallow r') :
    r.Settled where
  argumentItems := Grammar.argumentItems_settles hr
  parameterItems := Grammar.parameterItems_settles hr
  blockItems := Grammar.blockItems_settles hr
  arrayItems := Grammar.arrayItems_settles hr
  propertyItems := Grammar.propertyItems_settles hr
  declarators := Grammar.declarators_settles hr
  construction := Grammar.construction_settles
  members := Grammar.members_settles hr
  calls := Grammar.calls_settles hr
  powers := Grammar.powers_settles hr
  tierRest rounds tighter := Grammar.tierRest_settles
    (Grammar.advances_layered (Grammar.advances_powers hr rounds) tighter)
  programItems := Grammar.programItems_settles hr

/-- On every level the rules that nest read at least one token, and never the end mark. -/
theorem Rules.atDepth_advances (levels : Nat) (k : Rule) :
    Parse.Advances (fun _ => 1) ((Rules.atDepth levels).rule k) := by
  have hr := Rules.atDepth_reread levels levels
  cases k with
  | expr => exact Grammar.advances_expr hr
  | unary => exact .of_rereads fun _ => hr.unary
  | stmt => exact Grammar.advances_stmt hr

end ScriptReplay
