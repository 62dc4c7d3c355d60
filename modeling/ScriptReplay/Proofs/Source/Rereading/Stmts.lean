/-
Statements are read again.

* `statement_rereads` : statements, with what comes next in sight;
* `Rules.atDepth_reread` : the rules read again what the rules with another number of levels
  read; if there are fewer of them, the nesting may be too deep.

Design notes: a statement without a semicolon ends where a line or the text ends, so a second
run must find a token where the first one left one.
-/
import ScriptReplay.Proofs.Source.Rereading.Operators

namespace ScriptReplay

/-- Whether a statement may end here is the same in both runs. -/
theorem Ahead.ends {s t : Stream} (h : Ahead .next s.rest t.rest)
    (hs : s.final.kind = .finish) (ht : t.final.kind = .finish) (p : TokenKind → Bool)
    (hp : ∀ {k k' : TokenKind}, k'.bare = k.bare → p k' = p k) :
    (t.head.newlineBefore || p t.head.kind || t.rest.isEmpty) =
      (s.head.newlineBefore || p s.head.kind || s.rest.isEmpty) := by
  rw [hp (h.head_kind hs ht)]
  obtain ⟨hcut, hlive⟩ := h
  unfold Stream.head
  generalize s.rest = ts at hcut hlive ⊢
  generalize t.rest = ts' at hcut hlive ⊢
  cases hcut with
  | nil =>
    rw [hlive rfl rfl]
    simp
  | cons halike _ =>
    show (_ || _ || false) = (_ || _ || false)
    simp only [List.headD_cons, halike.newline]

namespace Grammar

open Parse

variable {shallow : Prop} {view : View} {grow : Bool} {i m n : Nat}
  {s : Stream} {r r' : Rules}

theorem endStatement_rereads :
    Rereads shallow .next false i i m s endStatement endStatement := by
  refine .eatSymbol rfl (fun _ _ => .pure rfl) ?_
  have hlook : Rereads shallow .next false i i m s
      (get >>= fun s : Stream =>
        if !(s.head.newlineBefore || s.head.kind.isSymbol .rbrace || s.rest.isEmpty) then
        unexpected else (pure () : Parse Unit))
      (get >>= fun s : Stream =>
        if !(s.head.newlineBefore || s.head.kind.isSymbol .rbrace || s.rest.isEmpty) then
        unexpected else (pure () : Parse Unit)) := by
    refine .look fun t ht hahead hs => ?_
    rw [hahead.ends hs ht (·.isSymbol .rbrace) fun h => TokenKind.isSymbol_of_bare h _]
    split
    · exact .unexpected
    · exact .pure rfl
  exact hlook

theorem returnValue_rereads (hr : r.Reread shallow r') :
    Rereads shallow .next false i i m s (returnValue r) (returnValue r') := by
  have hlook : Rereads shallow .next false i i m s
      (get >>= fun s : Stream => if s.head.newlineBefore || s.head.kind.isSymbol .semicolon ||
        s.head.kind.isSymbol .rbrace || s.rest.isEmpty then pure none
        else (do return some (← r.expr) : Parse (Option Expr)))
      (get >>= fun s : Stream => if s.head.newlineBefore || s.head.kind.isSymbol .semicolon ||
        s.head.kind.isSymbol .rbrace || s.rest.isEmpty then pure none
        else (do return some (← r'.expr))) := by
    refine .look fun t ht hahead hs => ?_
    have hends :=
      hahead.ends hs ht (fun k => k.isSymbol .semicolon || k.isSymbol .rbrace) fun h => by
      simp only [TokenKind.isSymbol_of_bare h]
    simp only [Bool.or_assoc] at hends ⊢
    rw [hends]
    split
    · exact .pure rfl
    · refine .step hr.expr ?_
      intro _ _ _ _ he
      exact .pure (congrArg some he)
  exact hlook

theorem bareDeclarators_eq (ds : List Declarator) : Declarator.bareList ds = bare ds := by
  induction ds with
  | nil => rfl
  | cons d ds ih => rw [Declarator.bareList, ih]; rfl

theorem declKind?_spec {k : TokenKind} {kind : DeclKind} (h : declKind? k = some kind) :
    k ≠ .finish ∧ k.parens? i = some i := by
  unfold declKind? at h
  split at h <;> first | exact ⟨nofun, rfl⟩ | cases h

theorem declarators_rereads (hr : r.Reread shallow r') (hn : s.rest.length < n) :
    Rereads shallow view true i i m s (declarators r n) (declarators r' m) := by
  induction n generalizing s m view with
  | zero => exact absurd hn (Nat.not_lt_zero _)
  | succ n ih =>
    refine .fuel (y := declarators r') (fun m => ?_) m
    refine .fromHere ?_
    intro l'
    refine .step .expectName ?_
    intro name name' s₁ hlt hname
    refine .pass (fallback_rereads hr) ?_
    intro o o' s₂ hle ho
    refine .pass (.spanFrom _ _) ?_
    intro l₁ l₁' s₃ hle₃ _
    have hdeclarator : bare (⟨name', o', l₁'⟩ : Declarator) =
        bare (⟨name, o, l₁⟩ : Declarator) := by
      show Declarator.bare _ = Declarator.bare _
      rw [show name' = name from hname]
      simp only [Declarator.bare, Expr.bareOption_eq, ho]
    exact (commaItems_rereads (fun hlt₂ => (ih (by omega)).any) hdeclarator).mono id
      (Nat.le_succ _)

theorem declaration_rereads (hr : r.Reread shallow r') {kind : DeclKind}
    (hs : declKind? s.head.kind = some kind) (start start' : Location) :
    Rereads shallow view true i i m s (declaration r kind start)
      (declaration r' kind start') := by
  obtain ⟨hne, hd⟩ := declKind?_spec (i := i) hs
  refine .token (.skip hne hd) ?_
  intro s₁ _
  refine .remaining fun k _ => ?_
  refine .step (declarators_rereads hr (by rw [s₁.size_eq]; omega)) ?_
  intro ds ds' _ _ hds
  refine .spanned fun _ _ => ?_
  show Stmt.bare _ = Stmt.bare _
  simp only [Stmt.bare, bareDeclarators_eq, hds]

theorem functionDecl_rereads (hr : r.Reread shallow r') (isAsync : Bool)
    (start start' : Location) :
    Rereads shallow view true i i m s (functionDecl r isAsync start)
      (functionDecl r' isAsync start') := by
  refine .token (.expectKeyword _ _) ?_
  intro _ _
  refine .step .expectName ?_
  intro name name' _ _ hname
  rw [show name' = name from hname]
  refine .step (functionRest_rereads hr _ _ _ _) ?_
  intro f f' _ _ hf
  refine .pure ?_
  show Stmt.bare _ = Stmt.bare _
  simp only [Stmt.bare, show f'.bare = f.bare from hf]

/-! ### Control flow -/

theorem bareStmtOption_eq (o : Option Stmt) : Stmt.bareOption o = bare o := by
  cases o <;> rfl

theorem returnStmt_rereads (hr : r.Reread shallow r') {w : Keyword}
    (hs : s.head.kind = .keyword w) (start start' : Location) :
    Rereads shallow .next true i i m s (returnStmt r start) (returnStmt r' start') := by
  refine .token (.skip (by simp [hs]) (by rw [hs]; rfl)) ?_
  intro _ _
  refine .pass (returnValue_rereads hr) ?_
  intro o o' _ _ ho
  refine .mark endStatement_rereads ?_
  intro _ _
  refine .spanned fun _ _ => ?_
  show Stmt.bare _ = Stmt.bare _
  simp only [Stmt.bare, Expr.bareOption_eq, ho]

theorem condition_rereads (hr : r.Reread shallow r') (opening closing : String) :
    Rereads shallow view true i i m s (condition r opening closing)
      (condition r' opening closing) := by
  refine .token (.expectSymbol rfl _) ?_
  intro _ _
  refine .step hr.expr ?_
  intro e e' _ _ he
  refine .token (.expectSymbol rfl _) ?_
  intro _ _
  exact .pure he

theorem elseBranch_rereads (hr : r.Reread shallow r') :
    Rereads shallow .next false i i m s (elseBranch r) (elseBranch r') := by
  refine .eatKeyword (fun _ _ => ?_) (.pure rfl)
  refine .step hr.stmt ?_
  intro t t' _ _ ht
  exact .pure (congrArg some ht)

theorem ifStmt_rereads (hr : r.Reread shallow r') {w : Keyword}
    (hs : s.head.kind = .keyword w) (start start' : Location) :
    Rereads shallow .next true i i m s (ifStmt r start) (ifStmt r' start') := by
  refine .token (.skip (by simp [hs]) (by rw [hs]; rfl)) ?_
  intro _ _
  refine .step (condition_rereads hr _ _) ?_
  intro e e' _ _ he
  refine .step hr.stmt ?_
  intro t t' _ _ ht
  refine .pass (elseBranch_rereads hr) ?_
  intro o o' _ _ ho
  refine .spanned fun _ _ => ?_
  show Stmt.bare _ = Stmt.bare _
  simp only [Stmt.bare, bareStmtOption_eq, show e'.bare = e.bare from he,
    show t'.bare = t.bare from ht, ho]

theorem whileStmt_rereads (hr : r.Reread shallow r') {w : Keyword}
    (hs : s.head.kind = .keyword w) (start start' : Location) :
    Rereads shallow .next true i i m s (whileStmt r start) (whileStmt r' start') := by
  refine .token (.skip (by simp [hs]) (by rw [hs]; rfl)) ?_
  intro _ _
  refine .step (condition_rereads hr _ _) ?_
  intro e e' _ _ he
  refine .step hr.stmt ?_
  intro t t' _ _ ht
  refine .spanned fun _ _ => ?_
  show Stmt.bare _ = Stmt.bare _
  simp only [Stmt.bare, show e'.bare = e.bare from he, show t'.bare = t.bare from ht]

theorem doStmt_rereads (hr : r.Reread shallow r') {w : Keyword}
    (hs : s.head.kind = .keyword w) (start start' : Location) :
    Rereads shallow .next true i i m s (doStmt r start) (doStmt r' start') := by
  refine .token (.skip (by simp [hs]) (by rw [hs]; rfl)) ?_
  intro _ _
  refine .step hr.stmt ?_
  intro t t' _ _ ht
  refine .token (.expectKeyword _ _) ?_
  intro _ _
  refine .step (condition_rereads hr _ _) ?_
  intro e e' _ _ he
  have hrest : ∀ {m : Nat} {s₁ : Stream}, Rereads shallow .next false i i m s₁
      (do return Stmt.doWhile t e (← spanFrom start))
      (do return Stmt.doWhile t' e' (← spanFrom start')) := by
    intro m s₁
    refine .spanned fun _ _ => ?_
    show Stmt.bare _ = Stmt.bare _
    simp only [Stmt.bare, show e'.bare = e.bare from he, show t'.bare = t.bare from ht]
  exact .eatSymbol rfl (fun _ _ => hrest) hrest

theorem rest_tail (s : Stream) : s.tail.rest = s.rest.drop 1 := by
  cases hrest : s.rest with
  | nil =>
    unfold Stream.tail
    split
    · exact hrest
    · next h =>
      rw [hrest] at h
      cases h
  | cons t rest => exact (s.tail_of hrest).1

theorem eq_tail_of_expectName {name : String} {s' : Stream}
    (h : expectName s = .ok (name, s')) : s' = s.tail := by
  unfold expectName at h
  rw [bind_eq (x := peek) (s := s) rfl] at h
  cases hn : s.head.kind with
  | name n =>
    rw [hn] at h
    cases h
    rfl
  | _ =>
    rw [hn] at h
    cases h

theorem head_kind_of_any {name : String} (h : s.rest[2]?.any (·.kind.isName name) = true) :
    s.tail.tail.head.kind = .name name := by
  have hrest : s.tail.tail.rest = s.rest.drop 2 := by
    rw [rest_tail, rest_tail, List.drop_drop]
  cases ht : s.rest[2]? with
  | none =>
    rw [ht] at h
    cases h
  | some t =>
    rw [ht] at h
    have hhead : s.tail.tail.head = t := by
      rw [Stream.head, hrest, List.headD_eq_head?_getD, List.head?_drop, ht]
      rfl
    rw [hhead]
    cases hk : t.kind with
    | name n =>
      rw [Option.any_some, hk] at h
      rw [eq_of_beq (show (n == name) = true from h)]
    | _ =>
      rw [Option.any_some, hk] at h
      cases h

theorem forOfRest_rereads (hr : r.Reread shallow r') {kind : DeclKind}
    (hs : declKind? s.head.kind = some kind)
    (hof : s.rest[2]?.any (·.kind.isName "of") = true) (start start' : Location) :
    Rereads shallow .next true (i + 1) i m s (forOfRest r kind start)
      (forOfRest r' kind start') := by
  obtain ⟨hne, hd⟩ := declKind?_spec (i := i + 1) hs
  -- where the word `of` stands is known from the streams themselves
  refine .stepFrom (.skip hne hd) ?_
  intro _ _ s₁ hskip _
  refine .stepFrom .expectName ?_
  intro name name' s₂ hread hname
  cases hskip
  have hhead : s₂.head.kind = .name "of" := by
    rw [eq_tail_of_expectName hread]
    exact head_kind_of_any hof
  refine .token (.skip (by simp [hhead]) (by rw [hhead]; rfl)) ?_
  intro _ _
  refine .step hr.expr ?_
  intro e e' _ _ he
  refine .token (.expectSymbol rfl _) ?_
  intro _ _
  refine .step hr.stmt ?_
  intro t t' _ _ ht
  refine .spanned fun _ _ => ?_
  show Stmt.bare _ = Stmt.bare _
  rw [show name' = name from hname]
  simp only [Stmt.bare, show e'.bare = e.bare from he, show t'.bare = t.bare from ht]

theorem optionalExpr_rereads (hr : r.Reread shallow r') (sym : Symbol) :
    Rereads shallow .next false i i m s (optionalExpr r sym) (optionalExpr r' sym) := by
  refine .atSymbolLive fun b => ?_
  cases b with
  | true => exact .pure rfl
  | false =>
    refine .step hr.expr ?_
    intro _ _ _ _ he
    exact .pure (congrArg some he)

theorem forInit_rereads (hr : r.Reread shallow r') :
    Rereads shallow .next false i i m s (forInit r) (forInit r') := by
  refine .fromHere ?_
  intro l'
  refine .atSymbolLive fun b => ?_
  cases b with
  | true => exact .pure rfl
  | false =>
    refine .peekLive fun t ht => ?_
    rw [TokenKind.congr_of_bare (p := declKind?) (fun _ _ _ => rfl) ht]
    cases hkind : declKind? s.head.kind with
    | some kind =>
      refine .step (declaration_rereads hr hkind _ _) ?_
      intro _ _ _ _ hd
      exact .pure (congrArg some hd)
    | none =>
      refine .step hr.expr ?_
      intro e e' _ _ he
      refine .spanned fun _ _ => congrArg some ?_
      show Stmt.bare _ = Stmt.bare _
      simp only [Stmt.bare, show e'.bare = e.bare from he]

theorem forRest_rereads (hr : r.Reread shallow r') (start start' : Location) :
    Rereads shallow .next true (i + 1) i m s (forRest r start) (forRest r' start') := by
  refine .closed (forInit_rereads hr) ?_
  intro o o' _ _ ho
  refine .token (.expectSymbol rfl _) ?_
  intro _ _
  refine .closed (optionalExpr_rereads hr _) ?_
  intro e e' _ _ he
  refine .token (.expectSymbol rfl _) ?_
  intro _ _
  refine .closed (optionalExpr_rereads hr _) ?_
  intro u u' _ _ hu
  refine .token (.expectSymbol rfl _) ?_
  intro _ _
  refine .step hr.stmt ?_
  intro t t' _ _ ht
  refine .spanned fun _ _ => ?_
  show Stmt.bare _ = Stmt.bare _
  simp only [Stmt.bare, Expr.bareOption_eq, bareStmtOption_eq, ho, he, hu,
    show t'.bare = t.bare from ht]

theorem length_of_forOfRest (hr : r.Reread shallow r') {kind : DeclKind}
    (hs : declKind? s.head.kind = some kind) (hfinal : s.final.kind = .finish)
    {start : Location} {a : Stmt} {s' : Stream}
    (hrun : forOfRest r kind start s = .ok (a, s')) : s'.rest.length + 2 < s.rest.length := by
  obtain ⟨hne, hd⟩ := declKind?_spec (i := 0) hs
  obtain ⟨_, s₁, hskip, hrun⟩ := bind_eq_ok hrun
  have hread₁ : Rereads shallow .next true 0 0 0 s skip skip := .skip hne hd
  obtain ⟨hlt₁, hfinal₁⟩ := hread₁.reads hfinal hskip
  obtain ⟨name, s₂, hname, hrun⟩ := bind_eq_ok hrun
  have hread₂ : Rereads shallow .next true 0 0 0 s₁ expectName expectName := .expectName
  obtain ⟨hlt₂, hfinal₂⟩ := hread₂.reads hfinal₁ hname
  obtain ⟨_, _, hskip₃, hrun⟩ := bind_eq_ok hrun
  cases hskip₃
  -- The word `of` need not be counted.
  have hle : s₂.tail.rest.length ≤ s₂.rest.length := by
    rw [rest_tail, List.length_drop]
    omega
  obtain ⟨e, s₄, he, hrun⟩ := bind_eq_ok hrun
  have hread₄ : Rereads shallow .next true 0 0 0 s₂.tail r.expr r'.expr := hr.expr
  obtain ⟨hlt₄, hfinal₄⟩ := hread₄.reads (final_tail s₂ ▸ hfinal₂) he
  obtain ⟨_, s₅, hclose, hrun⟩ := bind_eq_ok hrun
  have hread₅ :
      Rereads shallow .next true 1 0 0 s₄ (expectSymbol .rparen "after for-of iterable")
      (expectSymbol .rparen "after for-of iterable") := .expectSymbol rfl _
  obtain ⟨hlt₅, hfinal₅⟩ := hread₅.reads hfinal₄ hclose
  obtain ⟨body, s₆, hbody, hrun⟩ := bind_eq_ok hrun
  have hread₆ : Rereads shallow .next true 0 0 0 s₅ r.stmt r'.stmt := hr.stmt
  obtain ⟨hlt₆, -⟩ := hread₆.reads hfinal₅ hbody
  cases hrun
  omega

/-- What follows the opening parenthesis of a loop. -/
def forOpened (r : Rules) (start : Location) : Parse Stmt := do
  let overElements := (← get).rest[2]?.any (·.kind.isName "of")
  match declKind? (← peek).kind with
  | some kind => if overElements then forOfRest r kind start else forRest r start
  | none => forRest r start

/-- The same with the two looks at tokens ahead in the other order. -/
def forDeclared (r : Rules) (start : Location) : Parse Stmt := do
  match declKind? (← peek).kind with
  | some kind =>
    if (← get).rest[2]?.any (·.kind.isName "of")
      then forOfRest r kind start else forRest r start
  | none => forRest r start

theorem forOpened_eq (r : Rules) (start : Location) (s : Stream) :
    forOpened r start s = forDeclared r start s := by
  unfold forOpened forDeclared
  rw [bind_eq (x := get) (s := s) rfl, bind_eq (x := peek) (s := s) rfl,
    bind_eq (x := peek) (s := s) rfl]
  cases declKind? s.head.kind <;> rfl

theorem forStmt_rereads (hr : r.Reread shallow r') {w : Keyword}
    (hs : s.head.kind = .keyword w) (start start' : Location) :
    Rereads shallow .next true i i m s (forStmt r start) (forStmt r' start') := by
  refine .token (.skip (by simp [hs]) (by rw [hs]; rfl)) ?_
  intro _ _
  refine .token (.expectSymbol rfl _) ?_
  intro s₂ _
  -- the two looks can be taken in either order
  have hlook : ∀ {m : Nat}, Rereads shallow .next true (i + 1) i m s₂ (forDeclared r start)
      (forDeclared r' start') := by
    intro m
    refine .peekLive fun t ht => ?_
    rw [TokenKind.congr_of_bare (p := declKind?) (fun _ _ _ => rfl) ht]
    cases hkind : declKind? s₂.head.kind with
    | none => exact forRest_rereads hr _ _
    | some kind =>
      refine .lookAt (p := (·.kind.isName "of")) (fun _ _ h => isName_of_bare h.kind _) 2
        (f := fun b => if b then forOfRest r kind start else forRest r start)
        (g := fun b => if b then forOfRest r' kind start' else forRest r' start')
        (fun hof => forOfRest_rereads hr hkind hof _ _)
        (fun hfinal a s' hrun => length_of_forOfRest hr hkind hfinal hrun)
        (forRest_rereads hr _ _)
  exact .of_eq hlook.any (forOpened_eq r start s₂) fun t _ _ _ _ => forOpened_eq r' start' t

theorem caughtName_rereads : Rereads shallow .next false i i m s caughtName caughtName := by
  refine .eatSymbol rfl (fun _ _ => ?_) (.pure rfl)
  refine .step .expectName ?_
  intro name name' _ _ hname
  refine .token (.expectSymbol rfl _) ?_
  intro _ _
  refine .pure ?_
  rw [show name' = name from hname]

theorem handler?_rereads (hr : r.Reread shallow r') :
    Rereads shallow .next false i i m s (handler? r) (handler? r') := by
  refine .fromHere ?_
  intro l'
  refine .eatKeyword (fun _ _ => ?_) (.pure rfl)
  refine .pass caughtName_rereads ?_
  intro o o' _ _ ho
  refine .step (block_rereads hr) ?_
  intro body body' _ _ hbody
  refine .spanned fun _ _ => congrArg some ?_
  show Handler.bare _ = Handler.bare _
  rw [eq_of_bare_name ho]
  simp only [Handler.bare, Stmt.bareList_eq, hbody]

theorem finalizer?_rereads (hr : r.Reread shallow r') :
    Rereads shallow .next false i i m s (finalizer? r) (finalizer? r') := by
  refine .eatKeyword (fun _ _ => ?_) (.pure rfl)
  refine .step (block_rereads hr) ?_
  intro body body' _ _ hbody
  exact .pure (congrArg some hbody)

theorem bareHandlerOption_eq (o : Option Handler) : Handler.bareOption o = bare o := by
  cases o <;> rfl

theorem bareBlockOption_eq (o : Option (List Stmt)) : Stmt.bareOptionList o = bare o := by
  cases o with
  | none => rfl
  | some body => exact congrArg some (Stmt.bareList_eq body)

theorem isNone_of_bare {α : Type} [Bare α] {o o' : Option α} (h : bare o' = bare o) :
    o'.isNone = o.isNone := by
  cases o <;> cases o' <;> first | rfl | cases h

theorem tryStmt_rereads (hr : r.Reread shallow r') {w : Keyword}
    (hs : s.head.kind = .keyword w) (start start' : Location) :
    Rereads shallow .next true i i m s (tryStmt r start) (tryStmt r' start') := by
  refine .token (.skip (by simp [hs]) (by rw [hs]; rfl)) ?_
  intro _ _
  refine .step (block_rereads hr) ?_
  intro body body' _ _ hbody
  refine .pass (handler?_rereads hr) ?_
  intro o o' _ _ ho
  refine .pass (finalizer?_rereads hr) ?_
  intro f f' _ _ hf
  rw [isNone_of_bare ho, isNone_of_bare hf]
  split
  · refine .fails fun _ h => by cases h
  · refine .spanned fun _ _ => ?_
    show Stmt.bare _ = Stmt.bare _
    simp only [Stmt.bare, Stmt.bareList_eq, bareHandlerOption_eq,
      bareBlockOption_eq, hbody, ho, hf]

/-! ### Statements -/

theorem wordStmt_rereads {make : Location → Stmt}
    (hmake : ∀ l l', bare (make l') = bare (make l)) {w : Keyword}
    (hs : s.head.kind = .keyword w) (start start' : Location) :
    Rereads shallow .next true i i m s (wordStmt make start) (wordStmt make start') := by
  refine .token (.skip (by simp [hs]) (by rw [hs]; rfl)) ?_
  intro _ _
  refine .mark endStatement_rereads ?_
  intro _ _
  exact .spanned fun _ _ => hmake _ _

theorem exprStmt_rereads (hr : r.Reread shallow r') (start start' : Location) :
    Rereads shallow .next true i i m s (exprStmt r start) (exprStmt r' start') := by
  refine .step hr.expr ?_
  intro e e' _ _ he
  refine .mark endStatement_rereads ?_
  intro _ _
  refine .spanned fun _ _ => ?_
  show Stmt.bare _ = Stmt.bare _
  simp only [Stmt.bare, show e'.bare = e.bare from he]

theorem startsAsyncFunction_cut {ts ts' : List Token} (h : Cut ts ts')
    (ht : startsAsyncFunction ts' = true ∨ 2 ≤ ts'.length) :
    startsAsyncFunction ts' = startsAsyncFunction ts := by
  cases h with
  | nil => exact ht.elim nofun fun h => absurd h (by simp)
  | cons ht₀ hs =>
    cases hs with
    | nil => exact ht.elim nofun fun h => absurd h (by simp)
    | cons hu _ =>
      simp only [startsAsyncFunction, isName_of_bare ht₀.kind,
        TokenKind.isKeyword_of_bare hu.kind, hu.newline]

/-- Where an asynchronous function starts, its word stands. -/
theorem isName_of_startsAsyncFunction (h : startsAsyncFunction s.rest = true) :
    s.head.kind.isName "async" = true := by
  unfold startsAsyncFunction at h
  split at h
  · next t u rest hrest =>
    rw [Stream.head, hrest]
    simp only [Bool.and_eq_true] at h
    exact h.1.1
  · cases h

/-- An asynchronous function or an expression. -/
def asyncOr (r : Rules) (start : Location) : Parse Stmt := do
  if startsAsyncFunction (← get).rest then
    skip
    functionDecl r true start
  else exprStmt r start

theorem asyncOr_rereads (hr : r.Reread shallow r') (start start' : Location) :
    Rereads shallow .next true i i m s (asyncOr r start) (asyncOr r' start') := by
  unfold asyncOr
  cases hstarts : startsAsyncFunction s.rest with
  | true =>
    have hskip : ∀ {m : Nat}, Rereads shallow .next true i i m s skip skip :=
      .skipName (isName_of_startsAsyncFunction hstarts)
    have hread : ∀ {m : Nat}, Rereads shallow .next true i i m s
        (skip >>= fun _ => functionDecl r true start)
        (skip >>= fun _ => functionDecl r' true start') := by
      intro m
      refine .token hskip ?_
      intro s₁ _
      exact (functionDecl_rereads hr _ _ _).any
    refine .of_read hread ?_ fun hfinal t a s' pre pre' post hrun hp hrest halike hahead => ?_
    · rw [bind_eq (x := get) (s := s) rfl, hstarts]
      rfl
    · -- Both words have been read, so they stand before the cut.
      obtain ⟨_, s₁, hskipped, hfunction⟩ := bind_eq_ok hrun
      have hread : Rereads shallow .next true i i 0 s skip skip := hskip
      obtain ⟨hlt, hfinal₁⟩ := hread.reads hfinal hskipped
      have hreadFunction : Rereads shallow .next true i i 0 s₁ (functionDecl r true start)
          (functionDecl r' true start') :=
        functionDecl_rereads hr _ _ _
      have hlt₁ := (hreadFunction.reads hfinal₁ hfunction).1
      have hlength := congrArg List.length hp.rest
      rw [List.length_append, halike.length_eq] at hlength
      have hcut : Cut s.rest t.rest := by
        rw [hp.rest, hrest]
        exact .append halike hahead.cut
      have hstarts' : startsAsyncFunction t.rest = true := by
        rw [← hstarts]
        refine startsAsyncFunction_cut hcut (.inr ?_)
        rw [hrest, List.length_append]
        omega
      rw [bind_eq (x := get) (s := t) rfl, hstarts']
      rfl
  | false =>
    refine .of_eq (exprStmt_rereads hr start start') ?_ fun t _ _ hahead _ => ?_
    · rw [bind_eq (x := get) (s := s) rfl, hstarts]
      rfl
    · have hnot : startsAsyncFunction t.rest = false := by
        rw [Bool.eq_false_iff]
        intro ht
        rw [startsAsyncFunction_cut hahead.cut (.inl ht), hstarts] at ht
        cases ht
      rw [bind_eq (x := get) (s := t) rfl, hnot]
      rfl

theorem statement_rereads (hr : r.Reread shallow r') :
    Rereads shallow .next true i i m s (statement r) (statement r') := by
  refine .fromHere ?_
  intro l'
  refine .peekGrow fun t ht => ?_
  rcases TokenKind.eq_or_template ht.kind with ⟨hne, hk⟩
    | ⟨texts, chunks, chunks', hk, hk', -⟩
  · rw [hk]
    split
    · refine .step (block_rereads hr) ?_
      intro body body' _ _ hbody
      refine .spanned fun _ _ => ?_
      show Stmt.bare _ = Stmt.bare _
      rw [Stmt.bare_block, Stmt.bare_block, hbody]
    · next hk =>
        refine .token (.skip (by simp [hk]) (by rw [hk]; rfl)) ?_
        intro _ _
        exact .pure rfl
    · exact functionDecl_rereads hr _ _ _
    · next hk => exact returnStmt_rereads hr hk _ _
    · next hk => exact ifStmt_rereads hr hk _ _
    · next hk => exact forStmt_rereads hr hk _ _
    · next hk => exact whileStmt_rereads hr hk _ _
    · next hk => exact doStmt_rereads hr hk _ _
    · next hk => exact wordStmt_rereads (fun _ _ => rfl) hk _ _
    · next hk => exact wordStmt_rereads (fun _ _ => rfl) hk _ _
    · next hk =>
      refine .token (.skip (by simp [hk]) (by rw [hk]; rfl)) ?_
      intro _ _
      refine .step hr.expr ?_
      intro e e' _ _ he
      refine .mark endStatement_rereads ?_
      intro _ _
      refine .spanned fun _ _ => ?_
      show Stmt.bare _ = Stmt.bare _
      simp only [Stmt.bare, show e'.bare = e.bare from he]
    · next hk => exact tryStmt_rereads hr hk _ _
    · cases hkind : declKind? s.head.kind with
      | some word =>
        refine .step (declaration_rereads hr hkind _ _) ?_
        intro d d' _ _ hd
        refine .mark endStatement_rereads ?_
        intro _ _
        exact .pure hd
      | none => exact asyncOr_rereads hr _ _
  · rw [hk, hk']
    exact asyncOr_rereads hr _ _

end Grammar

/-- What a grammar reads, one without levels finds too deep. -/
theorem Rereads.stop {α : Type} [Bare α] {shallow : Prop} {view : View} {grow : Bool}
    {i j m : Nat} {s : Stream} {x y : Parse α} (h : Rereads shallow view grow i j m s x y) :
    Rereads True view grow i j m s x Rules.tooDeep.stop := by
  intro hfinal a s' hrun
  obtain ⟨pre, hp, hg, -⟩ := h hfinal a s' hrun
  exact ⟨pre, hp, hg, fun _ _ _ _ _ _ _ _ => ⟨trivial, rfl⟩⟩

/-- A grammar with fewer levels reads again what one with more levels reads, or finds the
nesting too deep. -/
theorem Rules.atDepth_reread (m n : Nat) :
    (Rules.atDepth n).Reread (m < n) (Rules.atDepth m) := by
  induction n generalizing m with
  | zero =>
    have hstop : ∀ {α : Type} {s : Stream} (r : α × Stream), Rules.tooDeep.stop s ≠ .ok r :=
      fun _ h => by cases h
    exact ⟨.fails hstop, .fails hstop, .fails hstop⟩
  | succ n ih =>
    cases m with
    | zero =>
      rw [eq_true (Nat.succ_pos n)]
      have hr := ih n
      exact ⟨.stop (Grammar.assignment_rereads hr), .stop (Grammar.unary_rereads hr),
        .stop (Grammar.statement_rereads hr)⟩
    | succ m =>
      rw [Nat.add_lt_add_iff_right]
      have hr := ih m
      exact ⟨Grammar.assignment_rereads hr, Grammar.unary_rereads hr,
        Grammar.statement_rereads hr⟩

end ScriptReplay
