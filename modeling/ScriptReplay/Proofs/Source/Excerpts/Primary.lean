/-
Lists, functions and primary expressions are excerpts.

* `bracketed_finds`, `commaItems_finds` : lists, which all arguments, parameters, items
  and blocks are;
* `ReadsFrom` : an expression from a given start up to the last token read;
* `chunkExpr_found` : embedded expressions, which stand in the same text;
* `found_method` : methods, which are no excerpts;
* `primary_excerpt` : primary expressions.
-/
import ScriptReplay.Proofs.Source.Excerpts.Spans

namespace ScriptReplay.Grammar

open Parse

variable {text : List Char} {top r : Rules} {s s₁ s' : Stream}

/-! ### Lists of things -/

/-- An item, and more of them behind a comma. -/
theorem commaItems_finds {α : Type} [Fragments α] {more : Parse (List α)}
    (hmore : ∀ {s}, Finds text top s more) {a : α} (ha : Found text top a) : Finds text top s
      (do if ← eatSymbol .comma then return a :: (← more) else return [a]) := by
  refine eatSymbol_keeps.andThen ?_
  intro b _
  cases b with
  | true =>
    refine hmore.andThen ?_
    intro as _ has
    exact .pure (ha.cons has)
  | false => exact .pure (ha.cons found_nil)

/-- Items between two symbols. -/
theorem bracketed_finds {α : Type} [Fragments α] {items : Nat → Parse α}
    (hitems : ∀ {s} n, Finds text top s (items n)) (left right : Symbol)
    (opening closing : String) : Finds text top s (do
      expectSymbol left opening
      let a ← items ((← remaining) + 1)
      expectSymbol right closing
      return a) := by
  refine expectSymbol_keeps.skipped ?_
  intro _
  refine .remaining ?_
  refine (hitems _).andThen ?_
  intro a _ ha
  refine expectSymbol_keeps.skipped ?_
  intro _
  exact .pure ha

theorem argumentItems_finds (hr : r.Finds text top) (n : Nat) :
    Finds text top s (argumentItems r n) := by
  induction n generalizing s with
  | zero => exact .pure found_nil
  | succ n ih =>
    refine .atSymbol fun b _ => ?_
    cases b with
    | true => exact .pure found_nil
    | false =>
      refine hr.found.andThen ?_
      intro e _ he
      exact commaItems_finds ih he

theorem arguments_finds (hr : r.Finds text top) : Finds text top s (arguments r) :=
  bracketed_finds (argumentItems_finds hr) _ _ _ _

theorem optionalArguments_finds (hr : r.Finds text top) :
    Finds text top s (optionalArguments r) := by
  refine .atSymbol fun b _ => ?_
  cases b with
  | true => exact arguments_finds hr
  | false => exact .pure found_nil

theorem fallback_finds (hr : r.Finds text top) : Finds text top s (fallback r) := by
  refine eatSymbol_keeps.andThen ?_
  intro b _
  cases b with
  | true =>
    refine hr.found.andThen ?_
    intro e _ he
    exact .pure he
  | false => exact .pure found_none

theorem parameterItems_finds (hr : r.Finds text top) (n : Nat) :
    Finds text top s (parameterItems r n) := by
  induction n generalizing s with
  | zero => exact .pure found_nil
  | succ n ih =>
    refine .atSymbol fun b _ => ?_
    cases b with
    | true => exact .pure found_nil
    | false =>
      refine expectName_keeps.andThen ?_
      intro name _
      refine (fallback_finds hr).andThen ?_
      intro o _ ho
      exact commaItems_finds (a := (⟨name, o⟩ : Param)) ih ho

theorem parameters_finds (hr : r.Finds text top) : Finds text top s (parameters r) :=
  bracketed_finds (parameterItems_finds hr) _ _ _ _

theorem blockItems_finds (hr : r.Finds text top) (n : Nat) :
    Finds text top s (blockItems r n) := by
  induction n generalizing s with
  | zero => exact .pure found_nil
  | succ n ih =>
    refine .atSymbol fun b _ => .atEnd fun b' => ?_
    split
    · exact .pure found_nil
    · refine hr.stmt.andThen ?_
      intro t _ ht
      refine ih.andThen ?_
      intro ts _ hts
      exact .pure (ht.cons hts)

theorem block_finds (hr : r.Finds text top) : Finds text top s (block r) :=
  bracketed_finds (blockItems_finds hr) _ _ _ _

/-! ### Functions -/

/-- The parser reads an expression whose location reaches from the start of `l` up to the last
token read, with excerpts in it. -/
structure ReadsFrom (text : List Char) (top : Rules) (l : Location) (e : Expr) (s' : Stream) :
    Prop where
  loc : e.loc = l.until s'.lastStop
  inner : ∀ n ∈ e.inner, n.Found text top

theorem found_routine {f : Routine} (hparams : Found text top f.params)
    (hbody : Found text top f.body) : Found text top f := by
  refine found_of_inner (n := .routine f) rfl nofun (Fragment.not_hasMethod nofun)
    (List.forall_mem_append.2 ⟨hparams, List.forall_mem_singleton.2 ?_⟩)
  exact ⟨nofun, Fragment.excerpted_of_inner (Fragment.not_hasMethod nofun) hbody⟩

theorem functionRest_gets (hr : r.Finds text top) (name : Option String) (isAsync : Bool)
    (start : Location) :
    Gets text s (fun f s' => f.loc = start.until s'.lastStop ∧ Found text top f)
      (functionRest r name isAsync start) := by
  refine (parameters_finds hr).andThen ?_
  intro params _ hparams
  refine .here ?_
  refine (block_finds hr).andThen ?_
  intro body _ hbody
  refine .spanFrom (.spanFrom (.pure ⟨rfl, ?_⟩))
  exact found_routine hparams hbody

theorem optionalName_keeps : Keeps text s optionalName := by
  refine .peek ?_
  split
  · refine expectName_keeps.andThen ?_
    intro _ _
    exact .pure trivial
  · exact .pure trivial

/-- A function as an expression has its location. -/
theorem readsFrom_functionExpr {l : Location} {f : Routine}
    (hloc : f.loc = l.until s'.lastStop) (hf : Found text top f) :
    ReadsFrom text top l (functionExpr f) s' :=
  ⟨hloc, hf⟩

theorem functionLiteral_gets (hr : r.Finds text top) (isAsync : Bool) (start : Location) :
    Gets text s (ReadsFrom text top start) (functionLiteral r isAsync start) := by
  refine expectKeyword_keeps.skipped ?_
  intro _
  refine optionalName_keeps.andThen ?_
  intro name _
  refine (functionRest_gets hr name isAsync start).andThen ?_
  intro f _ hf
  exact .pure (readsFrom_functionExpr hf.1 hf.2)

theorem arrowParams_finds (hr : r.Finds text top) : Finds text top s (arrowParams r) := by
  refine .atSymbol fun b _ => ?_
  cases b with
  | true => exact parameters_finds hr
  | false =>
    refine expectName_keeps.andThen ?_
    intro name _
    refine .pure ?_
    have hparam : Found text top (⟨name, none⟩ : Param) :=
      fun n hn => absurd hn List.not_mem_nil
    exact hparam.cons found_nil

theorem arrowBody_finds (hr : r.Finds text top) : Finds text top s (arrowBody r) := by
  refine .atSymbol fun b _ => ?_
  cases b with
  | true =>
    refine (block_finds hr).andThen ?_
    intro _ _ hbody
    exact .pure hbody
  | false =>
    refine hr.found.andThen ?_
    intro _ _ he
    exact .pure he

theorem arrowRest_gets (hr : r.Finds text top) (isAsync : Bool) (start : Location) :
    Gets text s (ReadsFrom text top start) (arrowRest r isAsync start) := by
  refine (arrowParams_finds hr).andThen ?_
  intro params _ hparams
  refine expectSymbol_keeps.skipped ?_
  intro _
  refine .here ?_
  refine (arrowBody_finds hr).andThen ?_
  intro body _ hbody
  refine .spanFrom (.spanFrom (.pure ?_))
  exact readsFrom_functionExpr rfl (found_routine hparams hbody)

theorem arrowFunction_gets (hr : r.Finds text top) (isAsync : Bool) :
    Gets text s (ReadsFrom text top s.head.loc) (arrowFunction r isAsync) := by
  refine .here ?_
  cases isAsync with
  | true =>
    refine .skip ?_
    exact arrowRest_gets hr true _
  | false => exact arrowRest_gets hr false _

/-! ### Primary expressions -/

/-- An embedded expression is read from a stretch of the same text. -/
theorem chunkExpr_found (hr : r.Finds text top) {chunk : Chunk} {lo hi : Nat}
    (hc : chunk.Fits text lo hi) {e : Expr} (h : chunkExpr r chunk = .ok e) :
    Found text top e := by
  obtain ⟨tail, hplace⟩ := hc.place
  unfold chunkExpr tokenizeAt at h
  cases hts : tokensFrom (Cursor.ofText chunk.source chunk.origin.position) with
  | error err =>
    rw [hts] at h
    cases h
  | ok ts =>
    rw [hts] at h
    obtain ⟨s', hrun, -⟩ := whole_eq_ok h
    have hs : (Stream.ofTokens ts).Of text :=
      ⟨⟨_, tail, lo, ts.final, hplace, hts⟩, tokensFrom_final hts⟩
    exact (hr.found hs _ _ hrun).2

theorem chunkExprs_found (hr : r.Finds text top) {chunks : List Chunk} {lo hi : Nat}
    (hc : ∀ chunk ∈ chunks, chunk.Fits text lo hi) {es : List Expr}
    (h : chunks.mapM (chunkExpr r) = .ok es) : Found text top es := by
  induction chunks generalizing es with
  | nil =>
    cases h
    exact found_nil
  | cons chunk chunks ih =>
    obtain ⟨hchunk, hchunks⟩ := List.forall_mem_cons.1 hc
    rw [List.mapM_cons] at h
    cases he : chunkExpr r chunk with
    | error err =>
      rw [he] at h
      cases h
    | ok e =>
      rw [he] at h
      cases hes : chunks.mapM (chunkExpr r) with
      | error err =>
        simp only [hes] at h
        cases h
      | ok es' =>
        simp only [hes] at h
        cases h
        exact (chunkExpr_found hr hchunk he).cons (ih hchunks hes)

theorem arrayItems_finds (hr : r.Finds text top) (n : Nat) :
    Finds text top s (arrayItems r n) := by
  induction n generalizing s with
  | zero => exact .pure found_nil
  | succ n ih =>
    refine .atSymbol fun b _ => ?_
    cases b with
    | true => exact .pure found_nil
    | false =>
      refine eatSymbol_keeps.andThen ?_
      intro b _
      cases b with
      | true =>
        refine ih.andThen ?_
        intro items _ hitems
        exact .pure (found_none.cons hitems)
      | false =>
        refine hr.found.andThen ?_
        intro e _ he
        exact commaItems_finds (a := some e) ih he

/-- A literal with its items between two symbols. -/
theorem literal_gets {α : Type} [Fragments α] {items : Nat → Parse α}
    {make : α → Location → Expr} (hitems : ∀ {s} n, Finds text top s (items n))
    (hmake : ∀ a l, (make a l).loc = l) (hinner : ∀ a l, (make a l).inner = fragments a)
    (right : Symbol) (closing : String) :
    Gets text s (ReadsFrom text top s.head.loc) (do
      let start ← here
      skip
      let a ← items ((← remaining) + 1)
      expectSymbol right closing
      return make a (← spanFrom start)) := by
  refine .here ?_
  refine .skip ?_
  refine .remaining ?_
  refine (hitems _).andThen ?_
  intro a _ ha
  refine expectSymbol_keeps.skipped ?_
  intro _
  refine .spanFrom (.pure ⟨hmake _ _, ?_⟩)
  rw [hinner]
  exact ha

theorem arrayLiteral_gets (hr : r.Finds text top) :
    Gets text s (ReadsFrom text top s.head.loc) (arrayLiteral r) :=
  literal_gets (arrayItems_finds hr) (fun _ _ => rfl) (fun _ _ => rfl) _ _

/-- A name alone is an excerpt. -/
theorem found_ident (hs : s.Of text) (htop : top.Reread False top) {name : String}
    (hk : s.head.kind = .name name) : Found text top (Expr.ident name s.head.loc) := by
  obtain ⟨t, hrest, ht⟩ := exists_rest_of_head (by simp) hs.final hk
  have hhead : s.head = t := by
    rw [Stream.head, hrest]
    rfl
  have htokens : TokensOf text ([t] ++ s.tail.rest) := by
    rw [List.singleton_append, ← hrest]
    exact hs.tokens
  rw [hhead]
  refine Expr.found_of_inner
    ⟨[t], s.tail.rest, htokens, ⟨⟨t, rfl, rfl⟩, t, rfl, rfl⟩, fun _ => ?_⟩
    fun n hn => absurd hn List.not_mem_nil
  refine .of_primary htop fun u hu halike => ?_
  obtain ⟨u₀, hu₀, halike₀⟩ : ∃ u₀, u.rest = [u₀] ∧ t.Alike u₀ := by
    generalize u.rest = us at halike
    cases halike with
    | cons h hnil =>
      cases hnil
      exact ⟨_, rfl, h⟩
  have hk₀ : u₀.kind = .name name :=
    (TokenKind.eq_of_bare halike₀.kind (by simp [ht])).trans ht
  obtain ⟨hrest', hfinal', -⟩ := u.tail_of hu₀
  have hprimary := primary_of_name (r := top) hu₀ hk₀ fun _ h => by cases h
  exact ⟨.ident name u.head.loc, rfl, u.tail, hprimary, hrest', hfinal' ▸ hu⟩

/-! ### Properties -/

/-- A key is one token, and no parenthesis. -/
structure IsKey (s : Stream) (key : String × Bool) (s' : Stream) : Prop where
  stream : s' = s.tail
  ne_finish : s.head.kind ≠ .finish
  ne_lparen : s.head.kind.isSymbol .lparen = false
  name : key.2 = true → s.head.kind = .name key.1

theorem IsKey.of_tail {key : String} {kind : TokenKind} (hk : s.head.kind = kind)
    (hfinish : kind ≠ .finish) (hlparen : kind.isSymbol .lparen = false) :
    IsKey s (key, false) s.tail :=
  ⟨rfl, hk ▸ hfinish, hk ▸ hlparen, nofun⟩

theorem expectPropertyName_gets :
    Gets text s (fun name s' => IsKey s (name, false) s') expectPropertyName := by
  refine .peek ?_
  split
  · next hk => exact .skip (.pure (.of_tail hk nofun rfl))
  · next hk => exact .skip (.pure (.of_tail hk nofun rfl))
  · exact .fails fun _ h => by cases h

theorem propertyKey_gets : Gets text s (IsKey s) propertyKey := by
  refine .peek ?_
  split
  · next hk => exact .skip (.pure (.of_tail hk nofun rfl))
  · next hk => exact .skip (.pure (.of_tail hk nofun rfl))
  · next n hn =>
    refine expectPropertyName_gets.bind ?_
    intro name _ hrun _ hkey
    refine .pure ⟨hkey.stream, hkey.ne_finish, hkey.ne_lparen, ?_⟩
    unfold expectPropertyName at hrun
    rw [bind_eq (x := peek) (s := s) rfl, hn] at hrun
    cases hrun
    exact fun _ => hn
  · refine expectPropertyName_gets.andThen ?_
    intro _ _ hkey
    exact .pure hkey

/-- A property whose value is no method. -/
theorem found_property {p : Property} (hvalue : Found text top p.value)
    (hown : ∀ f l, p.value = .function f l → l.start ≠ p.loc.start) : Found text top p := by
  intro n hn
  obtain rfl := List.mem_singleton.1 hn
  refine ⟨nofun, .mk (fun n' hn' e he _ => (hvalue n' hn').here e he)
    (fun n' hn' e he hmethod => ?_)
    fun n' hn' => (hvalue n' hn').inner⟩
  obtain rfl := List.mem_singleton.1 hn'
  cases he
  obtain ⟨_, f, l, hp, hf, hstart⟩ := hmethod
  cases hp
  exact absurd hstart (hown f l hf)

/-- A method is no excerpt, but what is inside it are excerpts. -/
theorem found_method {f : Routine} {p : Property} (hp : p.value = functionExpr f)
    (hstart : f.loc.start = p.loc.start) (hmethod : IsMethod text (functionExpr f))
    (hf : Found text top f) : Found text top p := by
  intro n hn
  obtain rfl := List.mem_singleton.1 hn
  have hinner : (Fragment.property p).inner = [.expr (functionExpr f)] := by
    show fragments p.value = _
    rw [hp]
    rfl
  refine ⟨nofun, .mk (fun n' hn' e he hnot => ?_) (fun n' hn' e he _ => ?_) fun n' hn' => ?_⟩
  · rw [hinner, List.mem_singleton] at hn'
    cases hn'
    cases he
    exact absurd ⟨p, f, f.loc, rfl, rfl, hstart⟩ hnot
  · rw [hinner, List.mem_singleton] at hn'
    cases hn'
    cases he
    exact hmethod
  · rw [hinner, List.mem_singleton] at hn'
    exact hn' ▸ Fragment.excerpted_of_inner (Fragment.not_hasMethod nofun) hf

/-- The function of a method has the name that it is given. -/
theorem functionRest_named {name : String} {isAsync : Bool} {start : Location} {f : Routine}
    (h : functionRest r (some name) isAsync start s = .ok (f, s')) :
    (functionExpr f).IsNamed := by
  obtain ⟨_, _, _, h⟩ := bind_eq_ok h
  obtain ⟨_, _, _, h⟩ := bind_eq_ok h
  obtain ⟨_, _, _, h⟩ := bind_eq_ok h
  cases h
  exact ⟨_, _, rfl, rfl, nofun⟩

/-- The tokens of a method are its key and what follows from the parameters on. -/
theorem isMethod_of_functionRest (hr : r.Finds text top) (hs : s.Of text)
    {key : String × Bool} (hkey : IsKey s key s₁)
    (hparen : s₁.head.kind.isSymbol .lparen = true) {f : Routine}
    (hrun : functionRest r (some key.1) false s.head.loc s₁ = .ok (f, s'))
    (hloc : f.loc = s.head.loc.until s'.lastStop) : IsMethod text (functionExpr f) := by
  obtain ⟨k, hk, -⟩ := exists_rest_of_head hkey.ne_finish hs.final rfl
  obtain rfl := hkey.stream
  have hhead : s.head = k := by
    rw [Stream.head, hk]
    rfl
  have hfinal : s.tail.final.kind = .finish := by rw [final_tail, hs.final]
  have hread :
      Rereads False .next true 0 0 0 s.tail (functionRest r (some key.1) false s.head.loc)
        (functionRest top (some key.1) false s.head.loc) :=
    functionRest_rereads hr.reread _ _ _ _
  obtain ⟨pre, hp, hne, -⟩ := hread hfinal f s' hrun
  obtain ⟨u, hu, hstop⟩ := hp.last (hne rfl)
  obtain ⟨paren, inner, rfl⟩ : ∃ paren inner, pre = paren :: inner := by
    cases pre with
    | nil => cases hu
    | cons paren inner => exact ⟨paren, inner, rfl⟩
  have hopens : paren.kind.isSymbol .lparen = true := by
    rw [Stream.head, hp.rest] at hparen
    exact hparen
  have htokens := hs.tokens
  rw [hk, hp.rest] at htokens
  refine ⟨k, paren, inner, s'.rest, htokens, ?_, hhead ▸ hkey.ne_lparen,
    hopens, functionRest_named hrun⟩
  show Around _ f.loc
  rw [hloc, hstop]
  exact .of_until htokens hu (by rw [hhead])

/-- What is read behind the first token starts later than it. -/
theorem start_ne_of_spans (hs : s.Of text) (hne : s.head.kind ≠ .finish) {l : Location}
    (hs₁ : ∀ u ∈ s₁.rest, u ∈ s.tail.rest)
    (h : ∃ opened inner closed, s₁.Spans s' l opened inner closed) :
    l.start ≠ s.head.loc.start := by
  obtain ⟨opened, inner, closed, hspans⟩ := h
  obtain ⟨first, hfirst, hstart⟩ := hspans.around.start
  obtain ⟨t, ht, -⟩ := exists_rest_of_head hne hs.final rfl
  have hhead : s.head = t := by
    rw [Stream.head, ht]
    rfl
  have hmem : first ∈ s₁.rest := by
    rw [hspans.passes.rest]
    exact List.mem_append_left _
      (List.mem_append_right _ (List.mem_append_left _ (List.mem_of_head? hfirst)))
  rw [hstart, hhead]
  exact Nat.ne_of_gt ((ht ▸ hs.tokens).start_lt_start first (hs₁ first hmem))

theorem property_finds (hr : r.Finds text top) : Finds text top s (property r) := by
  intro hs
  have hplain : ∀ {s₁ : Stream} (key : String) {e : Expr}, Found text top e →
      (∀ f l, e = .function f l → l.start ≠ s.head.loc.start) →
      Finds text top s₁ (do return (⟨key, e, ← spanFrom s.head.loc⟩ : Property)) :=
    fun key _ he hown => .spanFrom (.pure (found_property he hown))
  refine Gets.here
    (propertyKey_gets.bind fun key s₁ _ hs₁ hkey => .atSymbol fun b hparen => ?_) hs
  refine (eatSymbol_gets rfl).bind ?_
  intro b' s₂ hrun _ heat
  cases b with
  | true =>
    -- the colon was looked for before the parenthesis decides, and nothing was passed
    have hcolon : s₁.head.kind.isSymbol .colon = false := by
      rw [eq_symbol_of_isSymbol hparen]; rfl
    rw [eatSymbol_of_ne rfl hcolon] at hrun
    cases hrun
    have hmethod :
        Gets text s₁
          (fun e _ => ∃ f, e = functionExpr f ∧ f.loc.start = s.head.loc.start ∧
            IsMethod text (functionExpr f) ∧ Found text top f)
          (functionExpr <$> functionRest r (some key.1) false s.head.loc) := by
      rw [map_eq_pure_bind]
      refine (functionRest_gets hr _ _ _).bind ?_
      intro f _ hrun _ hf
      refine .pure ⟨f, rfl, by rw [hf.1]; rfl, ?_, hf.2⟩
      exact isMethod_of_functionRest hr hs hkey hparen hrun hf.1
    refine hmethod.andThen ?_
    intro e _ he
    refine .spanFrom (.pure ?_)
    obtain ⟨f, rfl, hstart, hnamed, hf⟩ := he
    exact found_method rfl hstart hnamed hf
  | false =>
    cases b' with
    | true =>
      obtain ⟨colon, hp⟩ := heat
      have hbehind : ∀ u ∈ s₂.rest, u ∈ s.tail.rest := by
        intro u hu
        rw [← hkey.stream, hp.rest]
        exact List.mem_append_right _ hu
      refine hr.expr.andThen ?_
      intro e _ he
      refine hplain key.1 he.found fun f l hf => ?_
      have hloc : e.loc = l := congrArg Expr.loc hf
      exact hloc ▸ start_ne_of_spans hs hkey.ne_finish hbehind he.spans
    | false =>
      obtain ⟨name, alone⟩ := key
      cases alone with
      | true => exact hplain name (found_ident hs hr.again (hkey.name rfl)) nofun
      | false =>
        exact Gets.bind (Q := fun _ _ => False) (.fails (unexpected_ne_ok _))
          fun _ _ _ _ h => h.elim

theorem propertyItems_finds (hr : r.Finds text top) (n : Nat) :
    Finds text top s (propertyItems r n) := by
  induction n generalizing s with
  | zero => exact .pure found_nil
  | succ n ih =>
    refine .atSymbol fun b _ => ?_
    cases b with
    | true => exact .pure found_nil
    | false =>
      refine (property_finds hr).andThen ?_
      intro p _ hp
      exact commaItems_finds ih hp

theorem objectLiteral_gets (hr : r.Finds text top) :
    Gets text s (ReadsFrom text top s.head.loc) (objectLiteral r) :=
  literal_gets (propertyItems_finds hr) (fun _ _ => rfl) (fun _ _ => rfl) _ _

/-- An expression that is one token, with excerpts in it. -/
theorem single_gets {e : Expr} (hk : s.head.kind ≠ .finish) (hloc : e.loc = s.head.loc)
    (hinner : ∀ n ∈ e.inner, n.Found text top) :
    Gets text s (ReadsFrom text top s.head.loc) (single e) := by
  intro hs
  obtain ⟨t, hrest, -⟩ := exists_rest_of_head hk hs.final rfl
  have hhead : s.head = t := by
    rw [Stream.head, hrest]
    rfl
  have hle := Nat.le_of_lt ((hrest ▸ hs.tokens).start_lt_stop t List.mem_cons_self)
  refine Gets.bind skip_keeps (fun _ s' hrun _ _ => .pure ⟨?_, hinner⟩) hs
  cases hrun
  rw [hloc, hhead, (s.tail_of hrest).2.2]
  show t.loc = { t.loc with stop := max t.loc.stop t.loc.start }
  rw [Nat.max_eq_left hle]

/-- An expression in parentheses keeps its location. -/
theorem spans_parens {l : Location} {s₁ : Stream} (hs : s.final.kind = .finish)
    (hk : s.head.kind = .symbol .lparen)
    (h : ∃ opened inner closed, s.tail.Spans s₁ l opened inner closed) {place : String}
    {u : Unit} (hclose : expectSymbol .rparen place s₁ = .ok (u, s')) :
    ∃ opened inner closed, s.Spans s' l opened inner closed := by
  obtain ⟨opened, inner, closed, hspans⟩ := h
  obtain ⟨t, hrest, ht⟩ := exists_rest_of_head (by simp) hs hk
  have hfinal : s₁.final.kind = .finish := by rw [hspans.passes.final, final_tail, hs]
  obtain ⟨rfl, v, hv, hrparen⟩ := expectSymbol_eq_ok hfinal hclose
  have hvk := eq_symbol_of_isSymbol hrparen
  have hopen : s.Passes s.tail 0 1 [t] := s.passes_tail hrest (ht ▸ rfl)
  have hend : s₁.Passes s₁.tail 1 0 [v] := s₁.passes_tail hv (hvk ▸ rfl)
  refine ⟨t :: opened, inner, closed ++ [v], ⟨?_, ?_, ?_, hspans.around⟩⟩
  · have htrans := hopen.trans ((hspans.passes.deeper 1).trans hend)
    simp only [List.append_assoc, List.cons_append] at htrans ⊢
    exact htrans
  · exact List.forall_mem_cons.2 ⟨ht, hspans.opened⟩
  · exact List.forall_mem_append.2 ⟨hspans.closed, List.forall_mem_singleton.2 hvk⟩

theorem primary_excerpt (hr : r.Finds text top) :
    Gets text s (ReadsExcerpt text top s) (primary r) := by
  refine .excerpt (fun hs => ?_) (fun m => primary_rereads hr.reread) (.of_primary hr.again)
  -- The location of such a node covers all that was read.
  have hnew : ∀ {x : Parse Expr}, Gets text s (ReadsFrom text top s.head.loc) x →
      Gets text s (fun e s' => Alone top s s' e → ReadsExcerpt text top s e s') x :=
    fun hx => hx.imp fun _ _ _ _ h halone => excerpt_of_whole hs rfl h.loc halone h.inner
  have hleaf : ∀ {e : Expr}, s.head.kind ≠ .finish → e.loc = s.head.loc → e.inner = [] →
      Gets text s (fun e s' => Alone top s s' e → ReadsExcerpt text top s e s')
        (single e) := by
    intro e hk hloc hinner
    exact hnew (single_gets hk hloc fun n hn => by rw [hinner] at hn; cases hn)
  refine .here (.peek ?_)
  split
  · next hk => exact hleaf (by simp [hk]) rfl rfl
  · next hk => exact hleaf (by simp [hk]) rfl rfl
  · next texts chunks hk =>
    obtain ⟨t, hrest, ht⟩ := exists_rest_of_head (by simp) hs.final hk
    have hfits : ∀ chunk ∈ chunks, chunk.Fits text t.loc.start t.loc.stop := by
      have hkind := (hs.head_fits hrest).kind
      rw [ht] at hkind
      exact hkind.chunk
    cases hparts : chunks.mapM (chunkExpr r) with
    | error err => exact .fails fun _ h => by cases h
    | ok parts =>
      have hfound : Found text top parts := chunkExprs_found hr hfits hparts
      exact hnew
        (single_gets (e := .template texts parts s.head.loc) (by simp [hk]) rfl hfound)
  · next hk => exact hleaf (by simp [hk]) rfl rfl
  · next hk => exact hleaf (by simp [hk]) rfl rfl
  · next hk => exact hleaf (by simp [hk]) rfl rfl
  · next hk => exact hleaf (by simp [hk]) rfl rfl
  · exact hnew (functionLiteral_gets hr _ _)
  · next n hk =>
    refine .look ?_
    split
    · refine skip_keeps.andThen ?_
      intro _ s₁
      refine (functionLiteral_gets hr _ _).imp fun e s' _ _ h halone => ?_
      exact excerpt_of_whole hs rfl h.loc halone h.inner
    · exact hleaf (by simp [hk]) rfl rfl
  · next hk =>
    refine .skip ?_
    refine hr.expr.andThen ?_
    intro e s₂ he
    refine expectSymbol_keeps.bind ?_
    intro _ s₃ hclose _ _
    refine .pure fun _ => ⟨?_, he.found⟩
    exact spans_parens hs.final hk he.spans hclose
  · exact hnew (arrayLiteral_gets hr)
  · exact hnew (objectLiteral_gets hr)
  · exact .fails (unexpected_ne_ok s)

end ScriptReplay.Grammar
