/-
Lists, functions and primary expressions are read again.

* `bracketed_rereads`, `commaItems_rereads` : lists, which all arguments, parameters, items
  and blocks are;
* `arrowFunction_rereads`, `functionRest_rereads` : functions;
* `whole_repeats`, `chunkExprs_repeats` : embedded expressions, which are texts of their own;
* `primary_rereads` : primary expressions.

Design notes: an embedded expression is read from its text again, so the tokens of the text
are compared first (`tokensFrom_moved`) and then what is read from them.
-/
import ScriptReplay.Proofs.Source.Rereading
import ScriptReplay.Proofs.Source.Stages

namespace ScriptReplay

theorem Expr.bareList_eq (es : List Expr) : Expr.bareList es = Bare.bare es := by
  induction es with
  | nil => rfl
  | cons e es ih => rw [Expr.bareList, ih]; rfl

theorem Expr.bareOption_eq (o : Option Expr) : Expr.bareOption o = Bare.bare o := by
  cases o <;> rfl

theorem Expr.bareItems_eq (items : List (Option Expr)) :
    Expr.bareItems items = Bare.bare items := by
  induction items with
  | nil => rfl
  | cons o items ih => rw [Expr.bareItems, ih, Expr.bareOption_eq]; rfl

theorem Property.bareList_eq (ps : List Property) : Property.bareList ps = Bare.bare ps := by
  induction ps with
  | nil => rfl
  | cons p ps ih => rw [Property.bareList, ih]; rfl

theorem Param.bareList_eq (ps : List Param) : Param.bareList ps = Bare.bare ps := by
  induction ps with
  | nil => rfl
  | cons p ps ih => rw [Param.bareList, ih]; rfl

theorem Stmt.bareList_eq (ss : List Stmt) : Stmt.bareList ss = Bare.bare ss := by
  induction ss with
  | nil => rfl
  | cons s ss ih => rw [Stmt.bareList, ih]; rfl

theorem Stmt.bare_block (body : List Stmt) (l : Location) :
    (Stmt.block body l).bare = .block (Bare.bare body) default := by
  rw [Stmt.bare, Stmt.bareList_eq]

namespace Grammar

open Parse

variable {shallow : Prop} {view : View} {grow : Bool} {i m n : Nat}
  {s : Stream} {r r' : Rules}

theorem bare_cons {α : Type} [Bare α] {a a' : α} {as as' : List α} (h : bare a' = bare a)
    (hs : bare as' = bare as) : bare (a' :: as') = bare (a :: as) := by
  show bare a' :: bare as' = bare a :: bare as
  rw [h, hs]

/-- An item, and more of them behind a comma. -/
theorem commaItems_rereads {α : Type} [Bare α] {more more' : Parse (List α)}
    (hmore : ∀ {s₁ : Stream}, s₁.rest.length < s.rest.length →
      Rereads shallow view.between false i i m s₁ more more')
    {a a' : α} (ha : bare a' = bare a) : Rereads shallow view false i i (m + 1) s
      (do if ← eatSymbol .comma then return a :: (← more) else return [a])
      (do if ← eatSymbol .comma then return a' :: (← more') else return [a']) := by
  refine .eatSymbol rfl (fun s₁ hlt => ?_) (.pure (bare_cons ha rfl))
  refine .pass (hmore hlt) ?_
  intro as as' _ _ has
  exact .pure (bare_cons ha has)

theorem argumentItems_rereads (hr : r.Reread shallow r') (hn : s.rest.length < n) :
    Rereads shallow .next false i i m s (argumentItems r n) (argumentItems r' m) := by
  induction n generalizing s m with
  | zero => exact absurd hn (Nat.not_lt_zero _)
  | succ n ih =>
    refine .fuel (y := argumentItems r') (fun m => ?_) m
    refine .atSymbolLive fun b => ?_
    cases b with
    | true => exact .pure rfl
    | false =>
      refine .step hr.expr ?_
      intro e e' s₁ hlt he
      exact (commaItems_rereads (fun hlt₁ => ih (by omega)) he).mono id (Nat.le_succ _)

/-- Items between two symbols. -/
theorem bracketed_rereads {α : Type} [Bare α] {items items' : Nat → Parse α}
    (hitems : ∀ {i n m : Nat} {s : Stream}, s.rest.length < n →
      Rereads shallow .next false i i m s (items n) (items' m))
    {left right : Symbol} {k : Nat} (hl : left.parens? i = some k)
    (hr : right.parens? k = some i) (opening closing : String) :
    Rereads shallow view true i i m s
      (do
        expectSymbol left opening
        let a ← items ((← remaining) + 1)
        expectSymbol right closing
        return a)
      (do
        expectSymbol left opening
        let a ← items' ((← remaining) + 1)
        expectSymbol right closing
        return a) := by
  refine .token (.expectSymbol hl _) ?_
  intro s₁ _
  refine .remaining fun n _ => ?_
  refine .closed (hitems (by rw [s₁.size_eq]; omega)) ?_
  intro a a' s₂ _ ha
  refine .token (.expectSymbol hr _) ?_
  intro _ _
  exact .pure ha

theorem arguments_rereads (hr : r.Reread shallow r') :
    Rereads shallow view true i i m s (arguments r) (arguments r') :=
  bracketed_rereads (argumentItems_rereads hr) rfl rfl _ _

theorem optionalArguments_rereads (hr : r.Reread shallow r') :
    Rereads shallow view false i i m s (optionalArguments r) (optionalArguments r') :=
  .atSymbol (fun _ => arguments_rereads hr) fun _ => .pure rfl

theorem fallback_rereads (hr : r.Reread shallow r') :
    Rereads shallow view false i i m s (fallback r) (fallback r') := by
  refine .eatSymbol rfl (fun _ _ => ?_) (.pure rfl)
  refine .step hr.expr ?_
  intro e e' _ _ he
  exact .pure (congrArg some he)

theorem parameterItems_rereads (hr : r.Reread shallow r') (hn : s.rest.length < n) :
    Rereads shallow .next false i i m s (parameterItems r n) (parameterItems r' m) := by
  induction n generalizing s m with
  | zero => exact absurd hn (Nat.not_lt_zero _)
  | succ n ih =>
    refine .fuel (y := parameterItems r') (fun m => ?_) m
    refine .atSymbolLive fun b => ?_
    cases b with
    | true => exact .pure rfl
    | false =>
      refine .step .expectName ?_
      intro name name' s₁ hlt hname
      refine .pass (fallback_rereads hr) ?_
      intro o o' s₂ hle ho
      have hparam : bare (⟨name', o'⟩ : Param) = bare (⟨name, o⟩ : Param) := by
        show Param.bare _ = Param.bare _
        rw [show name' = name from hname]
        simp only [Param.bare, Expr.bareOption_eq, ho]
      exact (commaItems_rereads (fun hlt₂ => ih (by omega)) hparam).mono id (Nat.le_succ _)

theorem parameters_rereads (hr : r.Reread shallow r') :
    Rereads shallow view true i i m s (parameters r) (parameters r') :=
  bracketed_rereads (parameterItems_rereads hr) rfl rfl _ _

theorem blockItems_rereads (hr : r.Reread shallow r') (hn : s.rest.length < n) :
    Rereads shallow .next false i i m s (blockItems r n) (blockItems r' m) := by
  induction n generalizing s m with
  | zero => exact absurd hn (Nat.not_lt_zero _)
  | succ n ih =>
    refine .fuel (y := blockItems r') (fun m => ?_) m
    refine .atSymbolLive fun b => ?_
    refine .pass .atEnd ?_
    intro b₁ b₁' s₁ hle hb
    obtain rfl : b₁' = b₁ := hb
    cases b || b₁' with
    | true => exact .pure rfl
    | false =>
      refine .step hr.stmt ?_
      intro t t' s₂ hlt ht
      refine .pass (ih (by omega)) ?_
      intro ts ts' _ _ hts
      exact .pure (bare_cons ht hts)

theorem block_rereads (hr : r.Reread shallow r') :
    Rereads shallow view true i i m s (block r) (block r') :=
  bracketed_rereads (blockItems_rereads hr) rfl rfl _ _

/-! ### Functions -/

theorem eq_of_bare_name {o o' : Option String} (h : bare o' = bare o) : o' = o := by
  cases o <;> cases o' <;> simp_all [bare]

theorem functionRest_rereads (hr : r.Reread shallow r') (name : Option String)
    (isAsync : Bool) (start start' : Location) : Rereads shallow view true i i m s
      (functionRest r name isAsync start) (functionRest r' name isAsync start') := by
  refine .step (parameters_rereads hr) ?_
  intro params params' s₁ _ hparams
  refine .fromHere ?_
  intro l'
  refine .step (block_rereads hr) ?_
  intro body body' s₃ _ hbody
  refine .pass (.spanFrom _ _) ?_
  intro l₁ l₁' _ _ _
  refine .spanned fun _ _ => ?_
  show Routine.bare _ = Routine.bare _
  simp only [Routine.bare, Body.bare, Param.bareList_eq, Stmt.bareList_eq, hparams, hbody]

theorem bare_functionExpr {f f' : Routine} (h : bare f' = bare f) :
    bare (functionExpr f') = bare (functionExpr f) := by
  show Expr.bare _ = Expr.bare _
  simp only [functionExpr, Expr.bare, show f'.bare = f.bare from h]

theorem optionalName_rereads :
    Rereads shallow .next false i i m s optionalName optionalName := by
  refine .peekLive fun t ht => ?_
  split
  · next n hn =>
    rw [TokenKind.eq_of_bare ht (by simp [hn]), hn]
    refine .step .expectName ?_
    intro _ _ _ _ h
    exact .pure (congrArg some h)
  · next hne =>
    split
    · next n hn =>
      rw [hn] at ht
      exact absurd (TokenKind.eq_of_bare ht.symm nofun) (hne n)
    · exact .pure rfl

theorem functionLiteral_rereads (hr : r.Reread shallow r') (isAsync : Bool)
    (start start' : Location) :
    Rereads shallow view true i i m s (functionLiteral r isAsync start)
      (functionLiteral r' isAsync start') := by
  refine .token (.expectKeyword _ _) ?_
  intro _ _
  refine .closed optionalName_rereads ?_
  intro name name' _ _ hname
  rw [eq_of_bare_name hname]
  refine .step (functionRest_rereads hr _ _ _ _) ?_
  intro _ _ _ _ hf
  exact .pure (bare_functionExpr hf)

theorem arrowParams_rereads (hr : r.Reread shallow r') :
    Rereads shallow view true i i m s (arrowParams r) (arrowParams r') := by
  refine .atSymbol (fun _ => parameters_rereads hr) fun _ => ?_
  refine .step .expectName ?_
  intro name name' _ _ hname
  rw [show name' = name from hname]
  exact .pure rfl

theorem arrowBody_rereads (hr : r.Reread shallow r') :
    Rereads shallow view true i i m s (arrowBody r) (arrowBody r') := by
  refine .atSymbol (fun _ => ?_) fun _ => ?_
  · refine .step (block_rereads hr) ?_
    intro body body' _ _ hbody
    refine .pure ?_
    show Body.bare _ = Body.bare _
    simp only [Body.bare, Stmt.bareList_eq, hbody]
  · refine .step hr.expr ?_
    intro e e' _ _ he
    refine .pure ?_
    show Body.bare _ = Body.bare _
    simp only [Body.bare, show e'.bare = e.bare from he]

theorem arrowRest_rereads (hr : r.Reread shallow r') (isAsync : Bool)
    (start start' : Location) :
    Rereads shallow view true i i m s (arrowRest r isAsync start)
      (arrowRest r' isAsync start') := by
  refine .step (arrowParams_rereads hr) ?_
  intro params params' _ _ hparams
  refine .token (.expectSymbol rfl _) ?_
  intro _ _
  refine .fromHere ?_
  intro l'
  refine .step (arrowBody_rereads hr) ?_
  intro body body' _ _ hbody
  refine .pass (.spanFrom _ _) ?_
  intro l₁ l₁' _ _ _
  refine .spanned fun _ _ => ?_
  refine bare_functionExpr ?_
  show Routine.bare _ = Routine.bare _
  simp only [Routine.bare, Param.bareList_eq, hparams, show body'.bare = body.bare from hbody]

theorem arrowFunction_rereads (hr : r.Reread shallow r') {isAsync : Bool}
    (hasync : isAsync = true → s.head.kind.isName "async" = true) :
    Rereads shallow view true i i m s (arrowFunction r isAsync)
      (arrowFunction r' isAsync) := by
  refine .fromHere ?_
  intro start'
  cases isAsync with
  | false => exact arrowRest_rereads hr false _ _
  | true =>
    refine .token (.skipName (hasync rfl)) ?_
    intro _ _
    exact (arrowRest_rereads hr true _ _).any

/-! ### Embedded expressions -/

/-- The outcome of a second reading: the answer of the first one up to places, or too
deep a nesting. -/
def Repeats {α : Type} [Bare α] (shallow : Prop) (a : α) : Except SyntaxError α → Prop
  | .ok b => bare b = bare a
  | .error e => shallow ∧ e.cause = .tooDeep

theorem lift_rereads {α : Type} [Bare α] {x y : Except SyntaxError α}
    (h : ∀ a, x = .ok a → Repeats shallow a y) :
    Rereads shallow view false i i m s (liftM x : Parse α) (liftM y) := by
  intro hfinal a s' hrun
  cases x with
  | error e => cases hrun
  | ok b =>
    cases hrun
    refine ⟨[], .refl s i, nofun, fun t pre' post _ _ hrest halike _ => ?_⟩
    obtain rfl := List.forall₂_nil_left_iff.1 halike
    have hagain := h a rfl
    cases y with
    | error e => exact hagain
    | ok b => exact ⟨hagain, hrest, rfl⟩

theorem eq_of_lift {α : Type} {x : Except SyntaxError α} {a : α} {s' : Stream}
    (h : (liftM x : Parse α) s = .ok (a, s')) : s = s' := by
  cases x with
  | error e => cases h
  | ok b =>
    cases h
    rfl

theorem tokensFrom_final {c : Cursor} {ts : Tokens} (h : tokensFrom c = .ok ts) :
    ts.final.kind = .finish := by
  obtain ⟨ts', hts', -, hfinal⟩ := tokensFrom_moved h (d := c) rfl
  rw [h] at hts'
  cases hts'
  exact hfinal

/-- The expression that a whole stream is. -/
theorem whole_eq_ok {x : Parse Expr} {e : Expr} (h : (whole x).run' s = .ok e) :
    ∃ s', x s = .ok (e, s') ∧ s'.rest = [] := by
  obtain ⟨⟨e', s''⟩, hrun, rfl⟩ : ∃ p, whole x s = .ok p ∧ p.1 = e := by
    cases hrun : whole x s with
    | error err =>
      rw [StateT.run', hrun] at h
      cases h
    | ok p =>
      rw [StateT.run', hrun] at h
      exact ⟨p, rfl, Except.ok.inj h⟩
  obtain ⟨e₁, s₁, hx, hthen⟩ := bind_eq_ok hrun
  rw [bind_eq (show atEnd s₁ = .ok (s₁.rest.isEmpty, s₁) from rfl)] at hthen
  cases hend : s₁.rest.isEmpty with
  | true =>
    rw [hend] at hthen
    cases hthen
    exact ⟨_, hx, List.isEmpty_iff.1 hend⟩
  | false =>
    rw [hend] at hthen
    exact absurd hthen (unexpected_ne_ok _ _)

/-- An expression that is all of a stream is all of a stream with the same tokens. -/
theorem whole_repeats {x y : Parse Expr}
    (hxy : ∀ {m : Nat}, Rereads shallow .next true i i m s x y) {t : Stream}
    (hs : s.final.kind = .finish) (ht : t.final.kind = .finish)
    (halike : List.Forall₂ Token.Alike s.rest t.rest) {e : Expr}
    (h : (whole x).run' s = .ok e) : Repeats shallow e ((whole y).run' t) := by
  obtain ⟨s', hrun, hend⟩ := whole_eq_ok h
  obtain ⟨pre, hp, -, hy⟩ := hxy (m := t.rest.length + 1) hs e s' hrun
  have hpre : s.rest = pre := by
    rw [hp.rest, hend, List.append_nil]
  have hagain := hy t t.rest [] ht (Nat.lt_succ_self _) (List.append_nil _).symm
    (hpre ▸ halike) ⟨.nil, fun _ _ => hend, nofun⟩
  cases hyt : y t with
  | error err =>
    rw [StateT.run', whole, Parse.bind_eq_error hyt]
    rw [hyt] at hagain
    exact hagain
  | ok p =>
    obtain ⟨e', t'⟩ := p
    rw [hyt] at hagain
    obtain ⟨he, hrest, -⟩ := hagain
    rw [StateT.run', whole, bind_eq hyt,
      bind_eq (show atEnd t' = .ok (t'.rest.isEmpty, t') from rfl), hrest]
    exact he

/-- An embedded expression is read again wherever it stands. -/
theorem chunkExpr_repeats (hr : r.Reread shallow r') {c c' : Chunk}
    (hsource : c'.source = c.source) {e : Expr} (h : chunkExpr r c = .ok e) :
    Repeats shallow e (chunkExpr r' c') := by
  unfold chunkExpr tokenizeAt at h ⊢
  cases hts : tokensFrom (Cursor.ofText c.source c.origin.position) with
  | error err =>
    rw [hts] at h
    cases h
  | ok ts =>
    rw [hts] at h
    obtain ⟨ts', hts', halike, hfinal'⟩ := tokensFrom_moved hts
      (d := Cursor.ofText c'.source c'.origin.position) (by simp [Cursor.ofText, hsource])
    rw [hts']
    exact whole_repeats (i := 0) (s := .ofTokens ts) (t := .ofTokens ts') hr.expr
      (tokensFrom_final hts) hfinal' halike h

/-- Embedded expressions are read again wherever they stand. -/
theorem chunkExprs_repeats (hr : r.Reread shallow r') {cs cs' : List Chunk}
    (hsources : cs'.map (·.source) = cs.map (·.source)) {es : List Expr}
    (h : cs.mapM (chunkExpr r) = .ok es) : Repeats shallow es (cs'.mapM (chunkExpr r')) := by
  induction cs generalizing cs' es with
  | nil =>
    obtain rfl := List.map_eq_nil_iff.1 hsources
    cases h
    rfl
  | cons c cs ih =>
    obtain ⟨c', cs', rfl, hsource, hsources⟩ := List.map_eq_cons_iff.1 hsources
    rw [List.mapM_cons] at h ⊢
    cases hc : chunkExpr r c with
    | error err =>
      rw [hc] at h
      cases h
    | ok e =>
      rw [hc] at h
      cases hcs : cs.mapM (chunkExpr r) with
      | error err =>
        simp only [hcs] at h
        cases h
      | ok es₁ =>
        simp only [hcs] at h
        cases h
        have he := chunkExpr_repeats hr hsource hc
        have hes := ih hsources hcs
        -- The second run fails with the first chunk that does, and for the same reason.
        cases hc' : chunkExpr r' c' with
        | error err =>
          rw [hc'] at he
          exact he
        | ok e' =>
          rw [hc'] at he
          cases hcs' : cs'.mapM (chunkExpr r') with
          | error err =>
            rw [hcs'] at hes
            exact hes
          | ok es' =>
            rw [hcs'] at hes
            exact bare_cons he hes

/-! ### Literals -/

theorem arrayItems_rereads (hr : r.Reread shallow r') (hn : s.rest.length < n) :
    Rereads shallow .next false i i m s (arrayItems r n) (arrayItems r' m) := by
  induction n generalizing s m with
  | zero => exact absurd hn (Nat.not_lt_zero _)
  | succ n ih =>
    refine .fuel (y := arrayItems r') (fun m => ?_) m
    refine .atSymbolLive fun b => ?_
    cases b with
    | true => exact .pure rfl
    | false =>
      refine .eatSymbol rfl (fun s₁ hlt => ?_) ?_
      · refine .pass (ih (by omega)) ?_
        intro os os' _ _ hos
        exact .pure (bare_cons rfl hos)
      · refine .step hr.expr ?_
        intro e e' s₁ hlt he
        exact (commaItems_rereads (fun hlt₁ => ih (by omega)) (congrArg some he)).mono id
          (Nat.le_succ _)

theorem arrayLiteral_rereads (hr : r.Reread shallow r')
    (hs : s.head.kind = .symbol .lbracket) :
    Rereads shallow view true i i m s (arrayLiteral r) (arrayLiteral r') := by
  refine .fromHere ?_
  intro start'
  refine .token (.skip (by simp [hs]) (by rw [hs]; rfl)) ?_
  intro s₂ _
  refine .remaining fun n _ => ?_
  refine .closed (arrayItems_rereads hr (by rw [s₂.size_eq]; omega)) ?_
  intro items items' _ _ hitems
  refine .token (.expectSymbol rfl _) ?_
  intro _ _
  refine .spanned fun _ _ => ?_
  show Expr.bare _ = Expr.bare _
  simp only [Expr.bare, Expr.bareItems_eq, hitems]

theorem propertyKey_rereads : Rereads shallow view true i i m s propertyKey propertyKey := by
  refine .peekGrow fun t ht => ?_
  rcases TokenKind.eq_or_template ht.kind with ⟨-, hk⟩ | ⟨texts, chunks, chunks', hk, hk', -⟩
  · rw [hk]
    split
    · next hk =>
        refine .token (.skip (by simp [hk]) (by rw [hk]; rfl)) ?_
        intro _ _
        exact .pure rfl
    · next hk =>
        refine .token (.skip (by simp [hk]) (by rw [hk]; rfl)) ?_
        intro _ _
        exact .pure rfl
    · refine .step .expectPropertyName ?_
      intro n n' _ _ hn
      exact .pure (by rw [show n' = n from hn])
    · refine .step .expectPropertyName ?_
      intro n n' _ _ hn
      exact .pure (by rw [show n' = n from hn])
  · rw [hk, hk']
    refine .step .expectPropertyName ?_
    intro n n' _ _ hn
    exact .pure (by rw [show n' = n from hn])

theorem property_rereads (hr : r.Reread shallow r') :
    Rereads shallow view true i i m s (property r) (property r') := by
  refine .fromHere ?_
  intro start'
  refine .step propertyKey_rereads ?_
  intro key key' s₂ _ hkey
  obtain rfl : key' = key := hkey
  obtain ⟨key, aloneOk⟩ := key'
  have hrest : ∀ {e e' : Expr} {m : Nat} {s₃ : Stream}, bare e' = bare e →
      Rereads shallow view false i i m s₃
        (do return (⟨key, e, ← spanFrom s.head.loc⟩ : Property))
        (do return (⟨key, e', ← spanFrom start'⟩ : Property)) := by
    intro e e' m s₃ he
    refine .spanned fun _ _ => ?_
    show Property.bare _ = Property.bare _
    simp only [Property.bare, show e'.bare = e.bare from he]
  have hmethod : ∀ {m : Nat} {s₃ : Stream}, Rereads shallow view true i i m s₃
      (do
        let e ← functionExpr <$> functionRest r (some key) false s.head.loc
        return (⟨key, e, ← spanFrom s.head.loc⟩ : Property))
      (do
        let e ← functionExpr <$> functionRest r' (some key) false start'
        return (⟨key, e, ← spanFrom start'⟩ : Property)) := by
    intro m s₃
    rw [map_eq_pure_bind, map_eq_pure_bind, bind_assoc, bind_assoc]
    refine .step (functionRest_rereads hr _ _ _ _) ?_
    intro f f' _ _ hf
    rw [pure_bind, pure_bind]
    exact hrest (bare_functionExpr hf)
  -- the colon is looked for before the parenthesis decides
  refine .atSymbol (fun _ => .eatSymbol rfl (fun _ _ => hmethod.any) hmethod) fun _ => ?_
  refine .eatSymbol rfl (fun _ _ => ?_) ?_
  · refine .step hr.expr ?_
    intro e e' _ _ he
    exact hrest he
  cases aloneOk with
  | true => exact hrest rfl
  | false =>
    refine .pass (.unexpected (j := i)) ?_
    intro _ _ _ _ he
    exact hrest he

theorem propertyItems_rereads (hr : r.Reread shallow r') (hn : s.rest.length < n) :
    Rereads shallow .next false i i m s (propertyItems r n) (propertyItems r' m) := by
  induction n generalizing s m with
  | zero => exact absurd hn (Nat.not_lt_zero _)
  | succ n ih =>
    refine .fuel (y := propertyItems r') (fun m => ?_) m
    refine .atSymbolLive fun b => ?_
    cases b with
    | true => exact .pure rfl
    | false =>
      refine .step (property_rereads hr) ?_
      intro p p' s₁ hlt hp
      exact (commaItems_rereads (fun hlt₁ => ih (by omega)) hp).mono id (Nat.le_succ _)

theorem objectLiteral_rereads (hr : r.Reread shallow r')
    (hs : s.head.kind = .symbol .lbrace) :
    Rereads shallow view true i i m s (objectLiteral r) (objectLiteral r') := by
  refine .fromHere ?_
  intro start'
  refine .token (.skip (by simp [hs]) (by rw [hs]; rfl)) ?_
  intro s₂ _
  refine .remaining fun n _ => ?_
  refine .closed (propertyItems_rereads hr (by rw [s₂.size_eq]; omega)) ?_
  intro ps ps' _ _ hps
  refine .token (.expectSymbol rfl _) ?_
  intro _ _
  refine .spanned fun _ _ => ?_
  show Expr.bare _ = Expr.bare _
  simp only [Expr.bare, Property.bareList_eq, hps]

theorem single_rereads {e e' : Expr} (hs : s.head.kind ≠ .finish)
    (hd : s.head.kind.parens? i = some i) (he : bare e' = bare e) :
    Rereads shallow view true i i m s (single e) (single e') := by
  refine .token (.skip hs hd) ?_
  intro _ _
  exact .pure he

theorem primary_rereads (hr : r.Reread shallow r') :
    Rereads shallow view true i i m s (primary r) (primary r') := by
  refine .fromHere ?_
  intro loc'
  refine .peekGrow fun t ht => ?_
  rcases TokenKind.eq_or_template ht.kind with ⟨hne, hk⟩
    | ⟨texts, chunks, chunks', hk, hk', hsources⟩
  · rw [hk]
    split
    · next hk => exact single_rereads (by simp [hk]) (by rw [hk]; rfl) rfl
    · next hk => exact single_rereads (by simp [hk]) (by rw [hk]; rfl) rfl
    · next hk => exact absurd hk (hne _ _)
    · next hk => exact single_rereads (by simp [hk]) (by rw [hk]; rfl) rfl
    · next hk => exact single_rereads (by simp [hk]) (by rw [hk]; rfl) rfl
    · next hk => exact single_rereads (by simp [hk]) (by rw [hk]; rfl) rfl
    · next hk => exact single_rereads (by simp [hk]) (by rw [hk]; rfl) rfl
    · exact functionLiteral_rereads hr _ _ _
    · next n hk =>
      have hskip : ∀ {view : View} {m : Nat}, Rereads shallow view true i i m s skip skip :=
        .skip (by simp [hk]) (by rw [hk]; rfl)
      have hident : Rereads shallow view true i i m s (single (.ident n s.head.loc))
          (single (.ident n loc')) :=
        single_rereads (by simp [hk]) (by rw [hk]; rfl) rfl
      cases n == "async" with
      | false => exact hident
      | true =>
        have hfunctionLiteral : ∀ {m : Nat} {s₁ : Stream}, Rereads shallow view true i i m s₁
            (functionLiteral r true s.head.loc) (functionLiteral r' true loc') :=
          functionLiteral_rereads hr _ _ _
        refine .lookAt (p := (·.kind.isKeyword .functionKw))
          (fun _ _ h => TokenKind.isKeyword_of_bare h.kind _) 1
          (f := fun b => if b = true
            then (skip >>= fun _ => functionLiteral r true s.head.loc)
            else single (.ident n s.head.loc))
          (g := fun b => if b = true
            then (skip >>= fun _ => functionLiteral r' true loc')
            else single (.ident n loc'))
          (fun _ => ?_) (fun hfinal a s' hrun => ?_) hident
        · refine .token hskip ?_
          intro _ _
          exact hfunctionLiteral.any
        -- Both words have been read, so they stand before the cut.
        · obtain ⟨_, s₁, hskipped, hfunction⟩ := bind_eq_ok hrun
          have hread : Rereads shallow .next true i i 0 s skip skip := hskip
          obtain ⟨hlt, hfinal₁⟩ := hread.reads hfinal hskipped
          have hreadFunction : Rereads shallow view true i i 0 s₁ _ _ := hfunctionLiteral
          have hlt₁ := hreadFunction.reads hfinal₁ hfunction
          omega
    · next hk =>
      refine .token (.skip (by simp [hk]) (by rw [hk]; rfl)) ?_
      intro _ _
      refine .step hr.expr ?_
      intro e e' _ _ he
      refine .token (.expectSymbol rfl _) ?_
      intro _ _
      exact .pure he
    · next hk => exact arrayLiteral_rereads hr hk
    · next hk => exact objectLiteral_rereads hr hk
    · exact .unexpected
  -- The chunks of a template are texts of their own, which are read again one by one.
  · rw [hk, hk']
    have hchunks : Rereads shallow view.between false i i m s
        (liftM (chunks.mapM (chunkExpr r)) : Parse (List Expr))
        (liftM (chunks'.mapM (chunkExpr r'))) :=
      lift_rereads fun es hes => chunkExprs_repeats hr hsources hes
    refine .still hchunks eq_of_lift ?_
    intro es es' hes
    refine single_rereads (by simp [hk]) (by rw [hk]; rfl) ?_
    show Expr.bare _ = Expr.bare _
    simp only [Expr.bare, Expr.bareList_eq, hes]

end Grammar

end ScriptReplay
