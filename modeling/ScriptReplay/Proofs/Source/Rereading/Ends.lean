/-
Operands at the end of what is read.

Where nothing more comes behind an operand, all the rules for operators above it
leave it as it is.

* `TokenKind.EndsOperands` : tokens that end an expression joined by operators;
* `Leaves` : a parser with a given outcome and what it leaves;
* `callChain_leaves` up to `assignment_leaves` : from one rule to the next looser one;
* `StartsOperand` : tokens that no operator before an operand is;
* `Stops` : a stream where operands end before a token that is left;
* `arrowAhead?_eq_none_of_conditional` : what is read to its end as a conditional is not an
  arrow function.
-/
import ScriptReplay.Proofs.Source.Rereading.Stmts

namespace ScriptReplay

/-- Tokens that end an expression joined by operators. -/
structure TokenKind.EndsOperands (k : TokenKind) : Prop where
  update : Grammar.updateOp? k = none
  starStar : k.isSymbol .starStar = false
  joint : ∀ t ∈ Grammar.tiers, Grammar.Tier.joint? t k = none
  query : k.isSymbol .query = false

theorem TokenKind.EndsOperands.finish : TokenKind.finish.EndsOperands :=
  ⟨rfl, rfl, fun t _ => Grammar.joint?_finish t, rfl⟩

/-- A parser with this outcome that leaves such a stream. -/
def Leaves (Q : Stream → Prop) (s : Stream) (outcome : Except SyntaxError Expr)
    (x : Parse Expr) : Prop :=
  match outcome with
  | .ok e => ∃ s', x s = .ok (e, s') ∧ Q s'
  | .error err => x s = .error err

/-- A stream that is read to its end. -/
structure Stream.AtEnd (s : Stream) : Prop where
  rest : s.rest = []
  final : s.final.kind = .finish

theorem Stream.AtEnd.head {s : Stream} (h : s.AtEnd) : s.head.kind = .finish :=
  Grammar.head_of_rest_nil h.rest h.final

theorem Stream.AtEnd.endsOperands {s : Stream} (h : s.AtEnd) : s.head.kind.EndsOperands :=
  h.head ▸ .finish

namespace Leaves

variable {Q : Stream → Prop} {s : Stream} {outcome : Except SyntaxError Expr} {x : Parse Expr}

/-- A parser, and what follows where it reads nothing more. -/
theorem andThen (hx : Leaves Q s outcome x) {f : Expr → Parse Expr}
    (hf : ∀ e s', Q s' → f e s' = .ok (e, s')) : Leaves Q s outcome (x >>= f) := by
  cases outcome with
  | error err => exact Parse.bind_eq_error hx
  | ok e =>
    obtain ⟨s', hrun, hs'⟩ := hx
    exact ⟨s', (Parse.bind_eq hrun).trans (hf e s' hs'), hs'⟩

theorem of_eq {y : Parse Expr} (hx : Leaves Q s outcome x) (h : y s = x s) :
    Leaves Q s outcome y := by
  unfold Leaves at hx ⊢
  rw [h]
  exact hx

end Leaves

namespace Grammar

open Parse

variable {Q : Stream → Prop} {shallow : Prop} {r r' : Rules} {s t : Stream} {e : Expr}
  {outcome : Except SyntaxError Expr}

theorem callChain_leaves (h : Leaves Q s outcome (primary r))
    (hs : s.head.kind.isKeyword .newKw = false)
    (hQ : ∀ s', Q s' → s'.head.kind.endsChain = true) : Leaves Q s outcome (callChain r) := by
  have hthen :
      Leaves Q s outcome (primary r >>= fun head => remaining >>= fun n => calls r n head) :=
    h.andThen fun e s' hs' => calls_eq rfl (hQ s' hs') s'.size e
  refine hthen.of_eq ?_
  have hat := atKeyword_eq (s := s) rfl .newKw
  rw [hs] at hat
  unfold callChain
  rw [bind_eq hat]
  rfl

theorem counted_leaves (h : Leaves Q s outcome (callChain r))
    (hQ : ∀ s', Q s' → s'.head.kind.EndsOperands) : Leaves Q s outcome (counted r) := by
  refine h.andThen fun e s' hs' => ?_
  rw [bind_eq (x := peek) (s := s') rfl, (hQ s' hs').update, ite_self]
  rfl

theorem unary_leaves (h : Leaves Q s outcome (counted r)) (hop : unaryOp? s.head.kind = none)
    (hup : updateOp? s.head.kind = none) (hawait : s.head.kind.isKeyword .awaitKw = false) :
    Leaves Q s outcome (unary r) := by
  refine h.of_eq ?_
  unfold unary
  rw [bind_eq (x := peek) (s := s) rfl, hop, hup]
  exact bind_eq (eatKeyword_of_ne rfl hawait)

theorem powers_leaves (h : Leaves Q s outcome (unary r))
    (hQ : ∀ s', Q s' → s'.head.kind.EndsOperands) (n : Nat) :
    Leaves Q s outcome (powers r n) := by
  cases n with
  | zero => exact h
  | succ n =>
    refine h.andThen fun e s' hs' => ?_
    rw [bind_eq (eatSymbol_of_ne rfl (hQ s' hs').starStar)]
    rfl

/-- What the operators of some tiers leave, those of looser tiers leave as well. -/
theorem layered_leaves {x : Parse Expr} {looser tighter : List Tier}
    (h : Leaves Q s outcome (layered x tighter)) (hsub : ∀ t ∈ looser, t ∈ tiers)
    (hQ : ∀ s', Q s' → s'.head.kind.EndsOperands) :
    Leaves Q s outcome (layered x (looser ++ tighter)) := by
  induction looser with
  | nil => exact h
  | cons t looser ih =>
    refine (ih fun t' ht' => hsub t' (List.mem_cons_of_mem t ht')).andThen fun e s' hs' => ?_
    rw [bind_eq (x := remaining) (s := s') rfl]
    exact tierRest_eq rfl ((hQ s' hs').joint t (hsub t List.mem_cons_self)) _ e

theorem joined_leaves (h : Leaves Q s outcome (unary r))
    (hQ : ∀ s', Q s' → s'.head.kind.EndsOperands) : Leaves Q s outcome (joined r) := by
  have hlayered : Leaves Q s outcome (layered (powers r s.size) []) :=
    powers_leaves h hQ s.size
  have htiers : Leaves Q s outcome (layered (powers r s.size) (tiers ++ [])) :=
    layered_leaves hlayered (fun _ h => h) hQ
  rw [List.append_nil] at htiers
  exact htiers.of_eq rfl

theorem conditional_leaves (h : Leaves Q s outcome (joined r))
    (hQ : ∀ s', Q s' → s'.head.kind.EndsOperands) : Leaves Q s outcome (conditional r) := by
  refine h.andThen fun e s' hs' => ?_
  rw [bind_eq (eatSymbol_of_ne rfl (hQ s' hs').query)]
  rfl

theorem assignment_leaves (h : Leaves Q s outcome (conditional r))
    (hs : arrowAhead? s.rest = none) (hQ : ∀ s', Q s' → assignOp? s'.head.kind = none) :
    Leaves Q s outcome (assignment r) := by
  have hthen : Leaves Q s outcome (conditional r >>= assignmentRest r) := by
    refine h.andThen fun e s' hs' => ?_
    unfold assignmentRest
    rw [bind_eq (x := peek) (s := s') rfl, hQ s' hs']
    rfl
  exact hthen.of_eq (assignment_eq hs)

/-! ### Where operands start -/

/-- Tokens that no operator before an operand is. -/
structure StartsOperand (k : TokenKind) : Prop where
  unary : unaryOp? k = none
  update : updateOp? k = none
  await : k.isKeyword .awaitKw = false

theorem startsOperand_of_isKeyword {k : TokenKind} (h : k.isKeyword .newKw = true) :
    StartsOperand k := by
  cases k with
  | keyword w =>
    obtain rfl := eq_of_beq (show (w == .newKw) = true from h)
    exact ⟨rfl, rfl, rfl⟩
  | _ => cases h

theorem startsOperand_of_primary {s' : Stream} (h : primary r s = .ok (e, s')) :
    StartsOperand s.head.kind ∧ s.head.kind.isKeyword .newKw = false := by
  unfold primary at h
  rw [bind_eq (x := here) (s := s) rfl, bind_eq (x := peek) (s := s) rfl] at h
  have hunexpected : ∀ {p : Prop}, (unexpected : Parse Expr) s = .ok (e, s') → p := fun h =>
    absurd h (unexpected_ne_ok s _)
  cases hk : s.head.kind with
  | keyword w =>
    rw [hk] at h
    cases w <;> first | exact ⟨⟨rfl, rfl, rfl⟩, rfl⟩ | exact hunexpected h
  | symbol sym =>
    rw [hk] at h
    cases sym <;> first | exact ⟨⟨rfl, rfl, rfl⟩, rfl⟩ | exact hunexpected h
  | _ => exact ⟨⟨rfl, rfl, rfl⟩, rfl⟩

theorem startsOperand_of_callChain {s' : Stream} (h : callChain r s = .ok (e, s')) :
    StartsOperand s.head.kind := by
  unfold callChain at h
  rw [bind_eq (atKeyword_eq rfl .newKw)] at h
  cases hnew : s.head.kind.isKeyword .newKw with
  | true => exact startsOperand_of_isKeyword hnew
  | false =>
    rw [hnew] at h
    obtain ⟨head, s₁, hprimary, -⟩ := bind_eq_ok h
    exact (startsOperand_of_primary hprimary).1

/-! ### Operands that no arrow comes behind -/

theorem afterParens_of_enclosed {α : Type} [Bare α] {x y : Parse α}
    (hx : Rereads shallow .next false 0 0 0 s.tail x y) (hs : s.final.kind = .finish)
    (hl : s.head.kind = .symbol .lparen) {place : String} {a : α} {s' : Stream}
    (h : (do let a ← x; expectSymbol .rparen place; return a) s.tail = .ok (a, s')) :
    afterParens 0 s.rest = some s'.rest ∧ s'.final = s.final := by
  obtain ⟨l, inner, u, hrest, hlparen, hrparen, hinner, hfinal⟩ := enclosed_eq_ok hx hs hl h
  exact ⟨hrest ▸ afterParens_enclosed hlparen hrparen hinner, hfinal⟩

/-- A stream where operands end before a token that is left. -/
structure Stops (s : Stream) : Prop where
  rest : s.rest ≠ []
  chain : s.head.kind.endsChain = true
  operands : s.head.kind.EndsOperands

theorem stops_of_arrow {a : Token} {more : List Token} (hs : s.rest = a :: more)
    (ha : a.kind.isSymbol .arrow = true) : Stops s := by
  have hhead : s.head.kind = .symbol .arrow := by
    rw [Stream.head, hs]
    exact eq_symbol_of_isSymbol ha
  refine ⟨hs ▸ List.cons_ne_nil a more, hhead ▸ rfl, hhead ▸ ⟨rfl, rfl, ?_, rfl⟩⟩
  decide

theorem exists_name_of_isSomeName {t : Token} (h : isSomeName t = true) :
    ∃ n, t.kind = .name n := by
  unfold isSomeName at h
  split at h
  · next n hn => exact ⟨n, hn⟩
  · cases h

theorem stops_of_name {a : Token} {more : List Token} (hs : s.rest = a :: more)
    (ha : isSomeName a = true) : Stops s := by
  obtain ⟨n, hn⟩ := exists_name_of_isSomeName ha
  have hhead : s.head.kind = .name n := by
    rw [Stream.head, hs]
    exact hn
  refine ⟨hs ▸ List.cons_ne_nil a more, hhead ▸ rfl, hhead ▸ ⟨rfl, rfl, fun t _ => ?_, rfl⟩⟩
  rw [Tier.joint?, List.find?_eq_none.2 (fun _ _ h => by cases h)]
  rfl

/-- An operand before such a token is not read to the end. -/
theorem conditional_ne_end (h : Leaves Stops t outcome (callChain r))
    (hstart : StartsOperand t.head.kind) {s' : Stream}
    (hrun : conditional r t = .ok (e, s')) : s'.rest ≠ [] := by
  have hQ : ∀ s', Stops s' → s'.head.kind.EndsOperands := fun _ h => h.operands
  have hunary := unary_leaves (counted_leaves h hQ) hstart.unary hstart.update hstart.await
  have hleaves := conditional_leaves (joined_leaves hunary hQ) hQ
  cases outcome with
  | error err => cases hrun.symm.trans hleaves
  | ok e' =>
    obtain ⟨s'', hrun', hstops⟩ := hleaves
    cases hrun.symm.trans hrun'
    exact hstops.rest

theorem primary_of_name {n : Token} {name : String} {more : List Token}
    (ht : t.rest = n :: more) (hn : n.kind = .name name)
    (hmore : ∀ u, more.head? = some u → u.kind.isKeyword .functionKw = false) :
    primary r t = .ok (.ident name t.head.loc, t.tail) := by
  have hhead : t.head.kind = .name name := by
    rw [Stream.head, ht]
    exact hn
  have hnext : t.rest[1]?.any (·.kind.isKeyword .functionKw) = false := by
    rw [ht, List.getElem?_cons_succ, ← List.head?_eq_getElem?]
    cases hu : more.head? with
    | none => rfl
    | some u => exact hmore u hu
  unfold primary
  rw [bind_eq (x := here) (s := t) rfl, bind_eq (x := peek) (s := t) rfl, hhead]
  dsimp only
  rw [bind_eq (x := get) (s := t) rfl, hnext, Bool.and_false]
  rfl

theorem arguments_stop (hr : r.Reread shallow r') (hs : s.final.kind = .finish)
    (hl : s.head.kind = .symbol .lparen) {args : List Expr} {s' : Stream}
    (h : arguments r s = .ok (args, s')) : afterParens 0 s.rest = some s'.rest := by
  obtain ⟨_, s₁, hopen, h⟩ := bind_eq_ok h
  obtain ⟨rfl, -⟩ := expectSymbol_eq_ok hs hopen
  have hitems : Rereads shallow .next false 0 0 0 s.tail
      (argumentItems r (s.tail.size + 1)) (argumentItems r' 0) :=
    argumentItems_rereads hr (by rw [s.tail.size_eq]; omega)
  exact (afterParens_of_enclosed hitems hs hl h).1

theorem primary_stop (hr : r.Reread shallow r') (hs : s.final.kind = .finish)
    (hl : s.head.kind = .symbol .lparen) {s' : Stream} (h : primary r s = .ok (e, s')) :
    afterParens 0 s.rest = some s'.rest := by
  unfold primary at h
  rw [bind_eq (x := here) (s := s) rfl, bind_eq (x := peek) (s := s) rfl, hl] at h
  have hrun :
      (do let e ← r.expr; expectSymbol .rparen "after parenthesized expression"; return e)
      s.tail = .ok (e, s') :=
    h
  exact (afterParens_of_enclosed (Rereads.any (m := 0) hr.expr) hs hl hrun).1

theorem callChain_eq_error {err : SyntaxError} (h : primary r t = .error err)
    (hnew : t.head.kind.isKeyword .newKw = false) : callChain r t = .error err := by
  have hat := atKeyword_eq (s := t) rfl .newKw
  rw [hnew] at hat
  unfold callChain
  rw [bind_eq hat]
  exact bind_eq_error h

theorem callChain_eq_calls {e₀ : Expr} {s₁ : Stream} (h : primary r t = .ok (e₀, s₁))
    (hnew : t.head.kind.isKeyword .newKw = false) :
    callChain r t = calls r s₁.size e₀ s₁ := by
  have hat := atKeyword_eq (s := t) rfl .newKw
  rw [hnew] at hat
  unfold callChain
  rw [bind_eq hat]
  exact bind_eq h

/-- An operand ends before the arrow of a function with these parameters. -/
theorem callChain_stops (hr : r.Reread shallow r') (ht : t.final.kind = .finish) {a : Token}
    {more : List Token} (hafter : afterArrowParams t.rest = some (a :: more))
    (ha : a.kind.isSymbol .arrow = true) :
    StartsOperand t.head.kind ∧ ∃ outcome, Leaves Stops t outcome (callChain r) := by
  have hchain : ∀ s', Stops s' → s'.head.kind.endsChain = true := fun _ h => h.chain
  cases hrest : t.rest with
  | nil =>
    rw [hrest] at hafter
    cases hafter
  | cons t₀ rest =>
    rw [hrest, afterArrowParams] at hafter
    split at hafter
    · next hname =>
      cases hafter
      obtain ⟨n, hn⟩ := exists_name_of_isSomeName hname
      have hprimary := primary_of_name (r := r) hrest hn fun u hu => by
        cases hu
        rw [eq_symbol_of_isSymbol ha]
        rfl
      obtain ⟨hstart, hnew⟩ := startsOperand_of_primary hprimary
      exact ⟨hstart, .ok _,
        callChain_leaves ⟨_, hprimary, stops_of_arrow (t.tail_of hrest).1 ha⟩ hnew hchain⟩
    split at hafter
    · next hl =>
      have hkind : t.head.kind = .symbol .lparen := by
        rw [Stream.head, hrest]
        exact eq_symbol_of_isSymbol hl
      have hnew : t.head.kind.isKeyword .newKw = false := hkind ▸ rfl
      refine ⟨hkind ▸ ⟨rfl, rfl, rfl⟩, ?_⟩
      cases hprimary : primary r t with
      | error err => exact ⟨.error err, callChain_eq_error hprimary hnew⟩
      | ok p =>
        -- The parentheses are read as an operand, and the arrow stands behind them.
        have hstop := primary_stop hr ht hkind hprimary
        rw [hrest, hafter] at hstop
        have hstops := stops_of_arrow (Option.some.inj hstop).symm ha
        exact ⟨.ok p.1, callChain_leaves ⟨p.2, hprimary, hstops⟩ hnew hchain⟩
    · cases hafter

/-- An operand that starts with the word of an asynchronous arrow function ends before its one
parameter, or before its arrow if the parameters are read as the arguments of a call. -/
theorem callChain_stops_async (hr : r.Reread shallow r') (ht : t.final.kind = .finish)
    (hasync : startsAsyncArrow t.rest = true) {a : Token} {more : List Token}
    (hafter : afterArrowParams (t.rest.drop 1) = some (a :: more))
    (ha : a.kind.isSymbol .arrow = true) :
    StartsOperand t.head.kind ∧ ∃ outcome, Leaves Stops t outcome (callChain r) := by
  unfold startsAsyncArrow at hasync
  split at hasync
  case h_2 => cases hasync
  case h_1 t₀ u rest hrest =>
    simp only [Bool.and_eq_true, Bool.or_eq_true] at hasync
    obtain ⟨⟨hname, -⟩, hu⟩ := hasync
    have htail := (t.tail_of hrest).1
    obtain ⟨n, hn⟩ : ∃ n, t₀.kind = .name n := by
      cases hk : t₀.kind with
      | name n => exact ⟨n, rfl⟩
      | _ =>
        rw [hk] at hname
        cases hname
    have hprimary := primary_of_name (r := r) hrest hn fun u' hu' => by
      cases hu'
      rcases hu with hu | hu
      · obtain ⟨n, hn⟩ := exists_name_of_isSomeName hu
        exact hn ▸ rfl
      · exact eq_symbol_of_isSymbol hu ▸ rfl
    obtain ⟨hstart, hnew⟩ := startsOperand_of_primary hprimary
    refine ⟨hstart, ?_⟩
    rcases hu with hu | hu
    · exact ⟨.ok _, callChain_leaves ⟨_, hprimary, stops_of_name htail hu⟩ hnew fun _ h =>
        h.chain⟩
    have hkind : t.tail.head.kind = .symbol .lparen := by
      rw [Stream.head, htail]
      exact eq_symbol_of_isSymbol hu
    -- The parameters in parentheses are read as the arguments of a call of the word, and the
    -- arrow stands behind them.
    have hsize : t.tail.size = rest.length + 1 := by
      rw [t.tail.size_eq, htail, List.length_cons]
    have hcalls : callChain r t = (do
        let args ← arguments r
        calls r rest.length
          (.call (.ident n t.head.loc) args (← spanFrom t.head.loc))) t.tail := by
      rw [callChain_eq_calls hprimary hnew, hsize, calls.eq_2,
        bind_eq (accessKey?_eq_none hkind rfl rfl)]
      exact bind_eq (atSymbol_eq hkind .lparen)
    cases hargs : arguments r t.tail with
    | error err => exact ⟨.error err, hcalls.trans (bind_eq_error hargs)⟩
    | ok p =>
      have hstop := arguments_stop hr ((final_tail t).symm ▸ ht) hkind hargs
      have hnot : ¬ isSomeName u = true := by
        rw [isSomeName, eq_symbol_of_isSymbol hu]
        exact Bool.false_ne_true
      rw [hrest, List.drop_one, List.tail_cons, afterArrowParams, if_neg hnot, if_pos hu]
        at hafter
      rw [htail, hafter] at hstop
      have hstops := stops_of_arrow (Option.some.inj hstop).symm ha
      rw [bind_eq hargs, bind_eq
        (show spanFrom t.head.loc p.2 = .ok (t.head.loc.until p.2.lastStop, p.2) from rfl),
        calls_eq rfl hstops.chain] at hcalls
      exact ⟨.ok _, p.2, hcalls, hstops⟩

/-- What is read to its end as a conditional does not start with an arrow function. -/
theorem arrowAhead?_eq_none_of_conditional (hr : r.Reread shallow r')
    (ht : t.final.kind = .finish) {s' : Stream} (h : conditional r t = .ok (e, s'))
    (hend : s'.rest = []) : arrowAhead? t.rest = none := by
  cases hahead : arrowAhead? t.rest with
  | none => rfl
  | some b =>
    obtain ⟨hasync, a, more, hafter, ha, -⟩ := arrowAhead?_eq_some.1 hahead
    have hstops : StartsOperand t.head.kind ∧ ∃ outcome,
        Leaves Stops t outcome (callChain r) := by
      cases b with
      | false => exact callChain_stops hr ht hafter ha
      | true => exact callChain_stops_async hr ht hasync hafter ha
    obtain ⟨hstart, outcome, hleaves⟩ := hstops
    exact absurd hend (conditional_ne_end hleaves hstart h)

end Grammar

end ScriptReplay
