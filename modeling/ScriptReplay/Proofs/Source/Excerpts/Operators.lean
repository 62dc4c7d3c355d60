/-
Operators, members and calls are excerpts.

* `Going` : an expression read so far, which more rounds can go on with;
* `members_excerpt`, `calls_excerpt`, `tierRest_excerpt` : any number of rounds
  behind an operand;
* `unary_excerpt`, `assignment_excerpt` : operands and expressions.

Design notes: each round makes a new node, and each of them has to be read alone.  What is
read from the start with fewer rounds is what a parser with less ahead would read, so `Going`
says that any number of further rounds gives something that is read alone.  Going on by one
round takes one off that number.
-/
import ScriptReplay.Proofs.Source.Excerpts.Primary

namespace ScriptReplay

variable {text : List Char} {top : Rules} {s s₁ s₂ : Stream}

/-- An expression read so far from `s` up to `s₁`: whatever number of rounds is read behind
it, the whole is read alone. -/
structure Going (text : List Char) (top : Rules) (s : Stream)
    (rounds : Nat → Expr → Parse Expr) (e : Expr) (s₁ : Stream) : Prop where
  excerpt : ReadsExcerpt text top s e s₁
  alone : ∀ n e' s', rounds n e s₁ = .ok (e', s') → Alone top s s' e'

namespace Going

variable {rounds : Nat → Expr → Parse Expr} {e e' : Expr} {mid : List Token}

theorem stream (h : Going text top s rounds e s₁) (hs : s.Of text) : s₁.Of text := by
  obtain ⟨_, _, _, hspans⟩ := h.excerpt.spans
  exact hs.passes hspans.passes

/-- One more round, which ends with the last token read. -/
theorem suffixed (h : Going text top s rounds e s₁) (hs : s.Of text)
    (hzero : ∀ e s, rounds 0 e s = .ok (e, s))
    (hround : ∀ n, rounds (n + 1) e s₁ = rounds n e' s₂) (hp : s₁.Passes s₂ 0 0 mid)
    (hne : mid ≠ []) (hloc : e'.loc = e.loc.until s₂.lastStop)
    (hinner : ∀ n ∈ e'.inner, n.Found text top) : Going text top s rounds e' s₂ := by
  have halone : ∀ n e₂ s', rounds n e' s₂ = .ok (e₂, s') → Alone top s s' e₂ :=
    fun n e₂ s' hrun => h.alone (n + 1) e₂ s' ((hround n).trans hrun)
  exact ⟨excerpt_of_suffix hs h.excerpt.spans hp hne hloc
    (halone 0 e' s₂ (hzero e' s₂)) hinner, halone⟩

/-- One more round, which ends with an operand. -/
theorem joined (h : Going text top s rounds e s₁) (hs : s.Of text)
    (hzero : ∀ e s, rounds 0 e s = .ok (e, s))
    (hround : ∀ n, rounds (n + 1) e s₁ = rounds n e' s₂) {s₃ : Stream}
    (hp : s₁.Passes s₃ 0 0 mid) {operand : Expr}
    (hoperand : ReadsExcerpt text top s₃ operand s₂)
    (hloc : e'.loc = e.loc.through operand.loc) (hinner : ∀ n ∈ e'.inner, n.Found text top) :
    Going text top s rounds e' s₂ := by
  have halone : ∀ n e₂ s', rounds n e' s₂ = .ok (e₂, s') → Alone top s s' e₂ :=
    fun n e₂ s' hrun => h.alone (n + 1) e₂ s' ((hround n).trans hrun)
  exact ⟨excerpt_of_joined hs h.excerpt.spans hp hoperand.spans hloc
    (halone 0 e' s₂ (hzero e' s₂)) hinner, halone⟩

end Going

namespace Grammar

open Parse

variable {r r' : Rules} {s' : Stream} {e : Expr} {n : Nat}

/-! ### Members and calls -/

theorem accessKey?_finds (hr : r.Finds text top) : Finds text top s (accessKey? r) := by
  refine eatSymbol_keeps.andThen ?_
  intro b _
  cases b with
  | true =>
    refine expectPropertyName_keeps.andThen ?_
    intro _ _
    exact .pure fun n hn => absurd hn List.not_mem_nil
  | false =>
    refine eatSymbol_keeps.andThen ?_
    intro b _
    cases b with
    | true =>
      refine hr.found.andThen ?_
      intro e _ he
      refine expectSymbol_keeps.skipped ?_
      intro _
      exact .pure he
    | false => exact .pure found_none

theorem accessKey?_passes (hr : r.Reread False top) (hs : s.final.kind = .finish) {key : Key}
    (h : accessKey? r s = .ok (some key, s')) : ∃ mid, s.Passes s' 0 0 mid ∧ mid ≠ [] := by
  -- a parser that has no answer without a key
  let wanted : Option Key → Parse Key := fun o => o.elim Parse.unexpected Pure.pure
  have hread : Rereads False .next true 0 0 0 s (accessKey? r >>= wanted)
      (accessKey? top >>= wanted) :=
    accessKey?_rereads hr (fun _ _ _ _ hkey => .pure hkey) .unexpected
  obtain ⟨mid, hp, hne, -⟩ := hread hs key s' (bind_eq h)
  exact ⟨mid, hp, hne rfl⟩

theorem eq_of_accessKey? (h : accessKey? r s = .ok (none, s')) : s' = s := by
  unfold accessKey? at h
  cases hdot : s.head.kind.isSymbol .dot with
  | true =>
    rw [bind_eq (eatSymbol_of rfl hdot)] at h
    obtain ⟨_, _, _, h⟩ := bind_eq_ok h
    cases h
  | false =>
    rw [bind_eq (eatSymbol_of_ne rfl hdot)] at h
    cases hbracket : s.head.kind.isSymbol .lbracket with
    | true =>
      change (eatSymbol .lbracket >>= _) s = _ at h
      rw [bind_eq (eatSymbol_of rfl hbracket)] at h
      obtain ⟨_, _, _, h⟩ := bind_eq_ok h
      obtain ⟨_, _, _, h⟩ := bind_eq_ok h
      cases h
    | false =>
      change (eatSymbol .lbracket >>= _) s = _ at h
      rw [bind_eq (eatSymbol_of_ne rfl hbracket)] at h
      cases h
      rfl

theorem members_succ {key : Key} (h : accessKey? r s₁ = .ok (some key, s₂)) (n : Nat) :
    members r (n + 1) e s₁ = members r n (.member e key (e.loc.until s₂.lastStop)) s₂ :=
  bind_eq h

theorem calls_succ {key : Key} (h : accessKey? r s₁ = .ok (some key, s₂)) (n : Nat) :
    calls r (n + 1) e s₁ = calls r n (.member e key (e.loc.until s₂.lastStop)) s₂ :=
  bind_eq h

theorem members_excerpt (hr : r.Finds text top) (hs : s.Of text) (n : Nat) {e : Expr}
    (h : Going text top s (members r) e s₁) :
    Gets text s₁ (ReadsExcerpt text top s) (members r n e) := by
  induction n generalizing e s₁ with
  | zero => exact .pure h.excerpt
  | succ n ih =>
    refine (accessKey?_finds hr).bind ?_
    intro o s₂ hkey _ hfound
    cases o with
    | none => exact .pure (eq_of_accessKey? hkey ▸ h.excerpt)
    | some key =>
      obtain ⟨mid, hp, hne⟩ := accessKey?_passes hr.reread (h.stream hs).final hkey
      refine .spanFrom (ih (h.suffixed hs (fun _ _ => rfl) (members_succ hkey) hp hne rfl ?_))
      exact List.forall_mem_append.2 ⟨h.excerpt.found, hfound⟩

theorem calls_excerpt (hr : r.Finds text top) (hs : s.Of text) (n : Nat) {e : Expr}
    (h : Going text top s (calls r) e s₁) :
    Gets text s₁ (ReadsExcerpt text top s) (calls r n e) := by
  induction n generalizing e s₁ with
  | zero => exact .pure h.excerpt
  | succ n ih =>
    have hfinal := (h.stream hs).final
    refine (accessKey?_finds hr).bind ?_
    intro o s₂ hkey _ hfound
    cases o with
    | some key =>
      obtain ⟨mid, hp, hne⟩ := accessKey?_passes hr.reread hfinal hkey
      refine .spanFrom (ih (h.suffixed hs (fun _ _ => rfl) (calls_succ hkey) hp hne rfl ?_))
      exact List.forall_mem_append.2 ⟨h.excerpt.found, hfound⟩
    | none =>
      obtain rfl := eq_of_accessKey? hkey
      refine .atSymbol fun b hopen => ?_
      cases b with
      | false => exact .pure h.excerpt
      | true =>
        refine (arguments_finds hr).bind ?_
        intro args s₃ hargs _ hfound
        have hread : Rereads False .next true 0 0 0 s₂ (arguments r) (arguments top) :=
          arguments_rereads hr.reread
        obtain ⟨mid, hp, hne, -⟩ := hread hfinal args s₃ hargs
        have hround : ∀ n,
            calls r (n + 1) e s₂ = calls r n (.call e args (e.loc.until s₃.lastStop)) s₃ := by
          intro n
          have hat := atSymbol_eq (s := s₂) rfl .lparen
          rw [hopen] at hat
          exact (bind_eq hkey).trans ((bind_eq hat).trans (bind_eq hargs))
        refine .spanFrom (ih (h.suffixed hs (fun _ _ => rfl) hround hp (hne rfl) rfl ?_))
        exact List.forall_mem_append.2 ⟨h.excerpt.found, hfound⟩

/-- Where nothing is left behind them, property accesses are read as property
accesses and calls. -/
theorem members_rereads_calls {shallow : Prop} {i m : Nat} (hr : r.Reread shallow r')
    {e e' : Expr} (he : bare e' = bare e) :
    Rereads shallow .nothing false i i (m + 1) s (members r n e) (calls r' m e') := by
  induction n generalizing s m e e' with
  | zero => exact .of_exhausted he rfl (.inl rfl) fun t ht => calls_eq ht rfl m e'
  | succ n ih =>
    refine .fuelLast (y := fun m => calls r' m e') m (fun m _ => ?_) fun t hnil ht => ?_
    · refine accessKey?_rereads hr (fun key key' s₁ hlt hkey => ?_) ?_
      · refine .pass (.spanFrom _ _) ?_
        intro l l' _ _ _
        exact ih (bare_member he hkey)
      · exact .of_exhausted he rfl (.inl rfl) fun t ht => bind_eq (atSymbol_eq ht .lparen)
    · have hhead := head_of_rest_nil hnil ht
      rw [calls_eq hhead rfl, calls_eq hhead rfl]

/-- A primary expression or a construction, and what follows. -/
def headed (r : Rules) (n : Nat) (rest : Expr → Parse Expr) : Parse Expr := do
  if ← atKeyword .newKw then
    let head ← construction r n
    rest head
  else
    let head ← primary r
    rest head

theorem headed_of_new (hs : s.head.kind.isKeyword .newKw = true) (n : Nat)
    (rest : Expr → Parse Expr) : headed r n rest s = (construction r n >>= rest) s := by
  have hat := atKeyword_eq (s := s) rfl .newKw
  rw [hs] at hat
  exact bind_eq hat

theorem headed_of_ne (hs : s.head.kind.isKeyword .newKw = false) (n : Nat)
    (rest : Expr → Parse Expr) : headed r n rest s = (primary r >>= rest) s := by
  have hat := atKeyword_eq (s := s) rfl .newKw
  rw [hs] at hat
  exact bind_eq hat

theorem headed_rereads (hr : r.Reread False top) (hn : s.rest.length < n)
    {rest : Expr → Parse Expr}
    (hrest : ∀ {m s e e'}, bare e' = bare e →
      Rereads False .nothing false 0 0 (m + 1) s (rest e) (calls top m e'))
    (m : Nat) : Rereads False .nothing true 0 0 m s (headed r n rest) (callChain top) := by
  have hthen : ∀ {m : Nat} {s : Stream} {e e' : Expr}, bare e' = bare e →
      Rereads False .nothing false 0 0 m s (rest e) (remaining >>= fun n => calls top n e') :=
    fun he => .remainingAgain fun _ _ => hrest he
  unfold callChain headed
  refine .atKeyword (fun hnew => .remainingAgain fun k _ => ?_) fun _ => ?_
  · refine .step (construction_rereads hr hn hnew) ?_
    intro e e' _ _ he
    exact hthen he
  · refine .step (primary_rereads hr) ?_
    intro e e' _ _ he
    exact hthen he

/-- What is read behind a head, which is read alone together with it. -/
theorem alone_of_headed (hr : r.Finds text top) (hs : s.final.kind = .finish)
    (hn : s.rest.length < n) {rest : Expr → Parse Expr}
    (hrest : ∀ {m s e e'}, bare e' = bare e →
      Rereads False .nothing false 0 0 (m + 1) s (rest e) (calls top m e'))
    (hrun : headed r n rest s = .ok (e, s')) : Alone top s s' e :=
  alone_of (headed_rereads hr.reread hn hrest) (.of_callChain hr.again) hs hrun

/-- The callee of a construction is a head with its members. -/
theorem constructionRest_gets (hr : r.Finds text top) {s₂ : Stream} {head : Expr}
    (hs : s.Of text) (hs₁ : s.tail.Of text)
    (hhead : Going text top s.tail (members r) head s₂) :
    Gets text s₂ (fun e s' => Alone top s s' e → ReadsExcerpt text top s e s')
      (constructionRest r s.head.loc head) := by
  refine .remaining ?_
  refine (members_excerpt hr hs₁ _ hhead).andThen ?_
  intro callee _ hcallee
  refine (optionalArguments_finds hr).andThen ?_
  intro args _ hargs
  refine .spanFrom (.pure fun halone => ?_)
  exact excerpt_of_whole hs rfl rfl halone (List.forall_mem_append.2 ⟨hcallee.found, hargs⟩)

theorem construction_excerpt (hr : r.Finds text top) (hn : s.rest.length < n)
    (hnew : s.head.kind.isKeyword .newKw = true) :
    Gets text s (ReadsExcerpt text top s) (construction r n) := by
  induction n generalizing s with
  | zero => exact absurd hn (Nat.not_lt_zero _)
  | succ n ih =>
    refine .excerpt (fun hs => ?_) (fun m => ?_) (.of_callChain hr.again)
    · obtain ⟨t, hrest, -⟩ :=
        exists_rest_of_head (ne_finish_of_isKeyword (i := 0) hnew).1 hs.final rfl
      have hlt : s.tail.rest.length < n := by
        rw [hrest, List.length_cons] at hn
        omega
      refine .here ?_
      refine skip_keeps.bind ?_
      intro _ s₁ hskip hs₁ _
      cases hskip
      -- What is constructed is another construction or an operand.
      refine .atKeyword fun b hb => ?_
      cases b with
      | true =>
        refine (ih hlt hb).bind ?_
        intro head s₂ hhead _ h
        refine constructionRest_gets hr hs hs₁ ⟨h, fun k e' s' hrun => ?_⟩
        exact alone_of_headed hr hs₁.final hlt (fun he => members_rereads_calls hr.reread he)
          ((headed_of_new hb n _).trans ((bind_eq hhead).trans hrun))
      | false =>
        refine (primary_excerpt hr).bind ?_
        intro head s₂ hhead _ h
        refine constructionRest_gets hr hs hs₁ ⟨h, fun k e' s' hrun => ?_⟩
        exact alone_of_headed hr hs₁.final hlt (fun he => members_rereads_calls hr.reread he)
          ((headed_of_ne hb n _).trans ((bind_eq hhead).trans hrun))
    · have hread : Rereads False .nothing true 0 0 m s
          (headed r (n + 1) (calls r 0)) (callChain top) :=
        headed_rereads hr.reread hn (fun he => calls_rereads hr.reread (.inl rfl) he) m
      refine hread.of_eq ?_ fun _ _ _ _ _ => rfl
      rw [headed_of_new hnew]
      exact (congrFun (bind_pure (construction r (n + 1))) s).symm

theorem callChain_excerpt (hr : r.Finds text top) :
    Gets text s (ReadsExcerpt text top s) (callChain r) := by
  intro hs
  have hlt : s.rest.length < s.size + 1 := by
    rw [s.size_eq]
    omega
  refine Gets.atKeyword (fun b hb => ?_) hs
  cases b with
  | true =>
    refine .remaining ?_
    refine (construction_excerpt hr hlt hb).bind ?_
    intro head s₁ hhead _ h
    refine .remaining ?_
    refine calls_excerpt hr hs _ ⟨h, fun k e' s' hrun => ?_⟩
    exact alone_of_headed hr hs.final hlt (fun he => calls_rereads hr.reread (.inl rfl) he)
      ((headed_of_new hb _ _).trans ((bind_eq hhead).trans hrun))
  | false =>
    refine (primary_excerpt hr).bind ?_
    intro head s₁ hhead _ h
    refine .remaining ?_
    refine calls_excerpt hr hs _ ⟨h, fun k e' s' hrun => ?_⟩
    exact alone_of_headed hr hs.final hlt (fun he => calls_rereads hr.reread (.inl rfl) he)
      ((headed_of_ne hb _ _).trans ((bind_eq hhead).trans hrun))

/-! ### Operators -/

theorem found_target {t : Target} (ht : e.target? = some t) (he : Found text top e) :
    Found text top t := by
  intro n hn
  change n ∈ [Fragment.expr t.toExpr] at hn
  rw [toExpr_of_target? ht] at hn
  exact he n hn

theorem updateTarget_gets (he : Found text top e) :
    Gets text s (fun t s' => s' = s ∧ Found text top t) (updateTarget e) := by
  unfold updateTarget
  split
  · next t ht => exact .pure ⟨rfl, found_target ht he⟩
  · exact .fails fun _ h => by cases h

theorem counted_excerpt (hr : r.Finds text top) :
    Gets text s (ReadsExcerpt text top s) (counted r) := by
  refine .excerpt (fun hs => ?_) (fun m => counted_rereads hr.reread) (.of_counted hr.again)
  refine (callChain_excerpt hr).bind ?_
  intro e s₁ _ hs₁ he
  refine .peek ?_
  split
  · next op hop =>
    obtain ⟨hne, hd⟩ := updateOp?_spec (i := 0) (Option.ite_none_left_eq_some.1 hop).2
    obtain ⟨t, hp⟩ := passes_head hs₁.final hne hd
    refine (updateTarget_gets he.found).andThen ?_
    intro target s₂ htarget
    obtain ⟨rfl, hfound⟩ := htarget
    refine .skip ?_
    refine .spanFrom (.pure fun halone => ?_)
    exact excerpt_of_suffix hs he.spans hp (List.cons_ne_nil _ _) rfl halone hfound
  · exact .pure fun _ => he

theorem unary_excerpt (hr : r.Finds text top) :
    Gets text s (ReadsExcerpt text top s) (unary r) := by
  refine .excerpt (fun hs => ?_) (fun m => unary_rereads hr.reread) (.of_unary hr.again)
  refine .peek ?_
  split
  · next op _ hop =>
    obtain ⟨hne, hd⟩ := unaryOp?_spec (i := 0) hop
    obtain ⟨t, hp⟩ := passes_head hs.final hne hd
    refine .skip ?_
    refine hr.unary.andThen ?_
    intro e s₂ he
    refine .pure fun halone => ?_
    exact excerpt_of_prefix hs hp he.spans rfl halone he.found
  · next op _ hop =>
    obtain ⟨hne, hd⟩ := updateOp?_spec (i := 0) hop
    obtain ⟨t, hp⟩ := passes_head hs.final hne hd
    refine .skip ?_
    refine hr.unary.andThen ?_
    intro e s₂ he
    refine (updateTarget_gets he.found).andThen ?_
    intro target s₃ htarget
    refine .pure fun halone => ?_
    obtain ⟨rfl, hfound⟩ := htarget
    exact excerpt_of_prefix hs hp he.spans rfl halone hfound
  · refine eatKeyword_gets.andThen ?_
    intro b s₁ heat
    cases b with
    | true =>
      obtain ⟨t, hp⟩ := heat
      refine hr.unary.andThen ?_
      intro e s₂ he
      refine .pure fun halone => ?_
      exact excerpt_of_prefix hs hp he.spans rfl halone he.found
    | false =>
      obtain rfl := heat
      exact (counted_excerpt hr).imp fun _ _ _ _ he _ => he

theorem powers_excerpt (hr : r.Finds text top) (n : Nat) (hn : s.rest.length ≤ n) :
    Gets text s (ReadsExcerpt text top s) (powers r n) := by
  induction n generalizing s with
  | zero => exact unary_excerpt hr
  | succ n ih =>
    have hread : ∀ m,
        Rereads False .nothing true 0 0 m s (powers r (n + 1)) (tiered top []) :=
      fun m => .remainingAgain fun k _ => powers_rereads hr.reread hn
    refine .excerpt (fun hs => ?_) hread (.of_tiered hr.again (List.append_nil tiers))
    refine (unary_excerpt hr).bind ?_
    intro base s₁ hbase _ he
    refine (eatSymbol_gets rfl).andThen ?_
    intro b s₂ heat
    cases b with
    | false =>
      obtain rfl := heat
      exact .pure fun _ => he
    | true =>
      obtain ⟨t, hp⟩ := heat
      have hlt : s₂.rest.length ≤ n := by
        have hlength := congrArg List.length hp.rest
        have hbaseRead : Rereads False .next true 0 0 0 s (unary r) (unary top) :=
          unary_rereads hr.reread
        have hlt₁ := (hbaseRead.reads hs.final hbase).1
        rw [List.length_append, List.length_singleton] at hlength
        omega
      refine (ih hlt).andThen ?_
      intro exponent s₃ he'
      refine .pure fun halone => ?_
      exact excerpt_of_joined hs he.spans hp he'.spans rfl halone
        (List.forall_mem_append.2 ⟨he.found, he'.found⟩)

theorem Joint.loc_join (j : Joint) (l r : Expr) : (j.join l r).loc = l.loc.through r.loc := by
  cases j <;> rfl

theorem Joint.inner_join (j : Joint) (l r : Expr) :
    (j.join l r).inner = fragments l ++ fragments r := by
  cases j <;> rfl

theorem tierRest_excerpt {N : Nat} {operand : Parse Expr} {t : Tier}
    (ht : ∀ entry ∈ t, entry.1 ≠ .lparen ∧ entry.1 ≠ .rparen)
    (hoperand : ∀ {s}, s.rest.length ≤ N → Gets text s (ReadsExcerpt text top s) operand)
    (hs : s.Of text) (n : Nat) {l : Expr} (hN : s₁.rest.length ≤ N)
    (h : Going text top s (tierRest t operand) l s₁) :
    Gets text s₁ (ReadsExcerpt text top s) (tierRest t operand n l) := by
  induction n generalizing l s₁ with
  | zero => exact .pure h.excerpt
  | succ n ih =>
    refine .peek ?_
    split
    · next j hj =>
      obtain ⟨hne, hd⟩ := joint?_spec (i := 0) ht hj
      obtain ⟨u, hp⟩ := passes_head (h.stream hs).final hne hd
      have hle : s₁.tail.rest.length ≤ N := by
        have hlength := congrArg List.length hp.rest
        rw [List.length_append, List.length_singleton] at hlength
        omega
      refine .skip ?_
      refine (hoperand hle).bind ?_
      intro e s₃ hrun _ he
      refine ih ?_ ?_
      · obtain ⟨_, _, _, hspans⟩ := he.spans
        have hlength := congrArg List.length hspans.passes.rest
        rw [List.length_append] at hlength
        omega
      · have hround : ∀ k,
            tierRest t operand (k + 1) l s₁ = tierRest t operand k (j.join l e) s₃ := by
          intro k
          rw [tierRest.eq_2, bind_eq (x := peek) (s := s₁) rfl, hj]
          exact (bind_eq (x := skip) rfl).trans (bind_eq hrun)
        refine h.joined hs (fun _ _ => rfl) hround hp he (j.loc_join l e) ?_
        rw [j.inner_join]
        exact List.forall_mem_append.2 ⟨h.excerpt.found, he.found⟩
    · exact .pure h.excerpt

theorem layered_excerpt (hr : r.Finds text top) {N : Nat} {looser ts : List Tier}
    (hts : looser ++ ts = tiers) (hN : s.rest.length ≤ N) :
    Gets text s (ReadsExcerpt text top s) (layered (powers r N) ts) := by
  induction ts generalizing s looser with
  | nil => exact powers_excerpt hr N hN
  | cons t tighter ih =>
    have hplain : ∀ t' ∈ t :: tighter, ∀ entry ∈ t',
        entry.1 ≠ .lparen ∧ entry.1 ≠ .rparen := by
      have htiers : ∀ t' ∈ tiers, ∀ entry ∈ t', entry.1 ≠ .lparen ∧ entry.1 ≠ .rparen := by
        decide
      exact fun t' ht' => htiers t' (hts ▸ List.mem_append_right looser ht')
    have htighter : ∀ {s}, s.rest.length ≤ N →
        Gets text s (ReadsExcerpt text top s) (layered (powers r N) tighter) :=
      fun hN => ih ((List.append_assoc looser [t] tighter).trans hts) hN
    intro hs
    refine Gets.bind (htighter hN) (fun first s₁ hfirst hs₁ he => .remaining ?_) hs
    have hlength : s₁.rest.length ≤ N := by
      obtain ⟨_, _, _, hspans⟩ := he.spans
      have hlength := congrArg List.length hspans.passes.rest
      rw [List.length_append] at hlength
      omega
    refine tierRest_excerpt (hplain t List.mem_cons_self) htighter hs s₁.size hlength
      ⟨he, fun k e' s' hrun => ?_⟩
    have hread : ∀ m, Rereads False .nothing true 0 0 m s
        (layered (powers r N) tighter >>= tierRest t (layered (powers r N) tighter) k)
        (tiered top (t :: tighter)) := by
      refine fun m => .remainingAgain fun j _ => ?_
      have hoperand : ∀ {view : View} {s : Stream}, s.rest.length ≤ N →
          Rereads False view true 0 0 (j + 1) s (layered (powers r N) tighter)
            (layered (powers top j) tighter) :=
        layered_rereads (powers_rereads hr.reread) fun t' ht' =>
          hplain t' (List.mem_cons_of_mem t ht')
      refine .step (hoperand hN) ?_
      intro l l' s₂ hlt hl
      refine .remainingAgain fun j' hj' => ?_
      exact tierRest_rereads hoperand (hplain t List.mem_cons_self)
        (.inl rfl) (by omega) (by omega) hl
    exact alone_of hread (.of_tiered hr.again hts) hs.final ((bind_eq hfirst).trans hrun)

theorem joined_excerpt (hr : r.Finds text top) :
    Gets text s (ReadsExcerpt text top s) (joined r) :=
  .remaining (layered_excerpt hr (List.nil_append tiers) (Nat.le_of_eq s.size_eq.symm))

theorem conditional_excerpt (hr : r.Finds text top) :
    Gets text s (ReadsExcerpt text top s) (conditional r) := by
  refine .excerpt (fun hs => ?_)
    (fun m => conditional_rereads hr.reread) (.of_conditional hr.again)
  refine (joined_excerpt hr).andThen ?_
  intro test s₁ htest
  refine (eatSymbol_gets rfl).andThen ?_
  intro b s₂ heat
  cases b with
  | false =>
    obtain rfl := heat
    exact .pure fun _ => htest
  | true =>
    obtain ⟨query, hquery⟩ := heat
    refine hr.expr.bind ?_
    intro yes s₃ _ hs₃ hyes
    refine expectSymbol_keeps.bind ?_
    intro _ s₄ hexpect _ _
    obtain ⟨rfl, u, hrest, hcolon⟩ := expectSymbol_eq_ok hs₃.final hexpect
    have hkind : u.kind.parens? 0 = some 0 := eq_symbol_of_isSymbol hcolon ▸ rfl
    have hu := s₃.passes_tail hrest hkind
    obtain ⟨_, _, _, hspans⟩ := hyes.spans
    refine hr.expr.andThen ?_
    intro no s₅ hno
    refine .pure fun halone => ?_
    refine excerpt_of_joined hs htest.spans
      (hquery.trans (hspans.passes.trans hu)) hno.spans rfl halone ?_
    exact List.forall_mem_append.2
      ⟨htest.found, List.forall_mem_append.2 ⟨hyes.found, hno.found⟩⟩

theorem assignment_excerpt (hr : r.Finds text top) :
    Gets text s (ReadsExcerpt text top s) (assignment r) := by
  refine .excerpt (fun hs => ?_) (fun m => assignment_rereads hr.reread) id
  refine .look ?_
  split
  · next isAsync _ =>
    exact (arrowFunction_gets hr isAsync).imp fun _ _ _ _ h halone =>
      excerpt_of_whole hs rfl h.loc halone h.inner
  · refine (conditional_excerpt hr).bind ?_
    intro left s₁ _ hs₁ hleft
    refine .peek ?_
    split
    · exact .pure fun _ => hleft
    · next op hop =>
      obtain ⟨hne, hd⟩ := assignOp?_spec (i := 0) hop
      obtain ⟨t, hp⟩ := passes_head hs₁.final hne hd
      split
      · exact .fails fun _ h => by cases h
      · next target htarget =>
        refine .skip ?_
        refine hr.expr.andThen ?_
        intro value s₃ hvalue
        refine .pure fun halone => ?_
        refine excerpt_of_joined hs hleft.spans hp hvalue.spans rfl halone ?_
        exact List.forall_mem_append.2 ⟨found_target htarget hleft.found, hvalue.found⟩

end Grammar

end ScriptReplay
