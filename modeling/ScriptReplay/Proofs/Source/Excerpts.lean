/-
The text of an expression is the expression.

* `TokensOf.cut` : the characters of some tokens have these tokens when they stand alone;
* `spanText?_eq` : nothing is trimmed off the characters of some tokens;
* `IsExcerpt.alone`, `IsMethod.alone` : the text of an expression, and that of a method;
* `parseProgram_excerpts` : the text at the location of an expression, taken alone.

Design notes: parentheses leave no trace in a tree, and an expression starts and ends with
its operands.  So where an operand in parentheses comes first or last, the text of the whole
has only one half of them.  The text of a method starts with its key, which stands where the
keyword of a function would.
-/
import ScriptReplay.Proofs.Source.Excerpts.Ends
import ScriptReplay.Proofs.Source.Excerpts.Methods
import ScriptReplay.Proofs.Source.Excerpts.Stmts
import ScriptReplay.Queue.Effects

namespace ScriptReplay

variable {text : List Char}

/-! ### The characters of some tokens -/

/-- Where a cursor stands, the text goes on with what the cursor has not read. -/
theorem Cursor.In.getElem?_text {c : Cursor} {behind : List Char} {lo : Nat}
    (h : c.In text behind lo) (n : Nat) :
    text[c.pos.offset + n]? = (c.rest ++ behind)[n]? := by
  obtain ⟨before, htext, hpos⟩ := h.place
  rw [hpos, Position.origin_after, htext, List.getElem?_append_right (Nat.le_add_right _ _),
    Nat.add_sub_cancel_left]

/-- The first of some tokens: from its first character on there are the same tokens, and both
its ends are no blanks. -/
theorem TokensOf.exists_first {t : Token} {ts : List Token} (h : TokensOf text (t :: ts)) :
    (∃ c behind lo final, Cursor.In c text behind lo ∧ c.pos.offset = t.loc.start ∧
      tokensFrom c = .ok ⟨t.unbroken :: ts, final⟩) ∧
    (∃ first, text[t.loc.start]? = some first ∧ isBlank first = false) ∧
    ∃ last, text[t.loc.stop - 1]? = some last ∧ isBlank last = false := by
  obtain ⟨c, behind, lo, final, hc, hts⟩ := h
  obtain ⟨c', first, rest, c'', hgap, hrest, hscan, hloc, hts'⟩ := tokensFrom_cons_eq_ok hts
  have hc' := skipGap_reads hc
  rw [hgap] at hc'
  have hc'' := Cursor.In.scanToken hc' hrest
  rw [hscan] at hc''
  obtain ⟨hfirst, hagain⟩ := skipGap_again hgap hrest
  have hstart : t.loc.start = c'.pos.offset := by rw [hloc]; rfl
  have hstop : t.loc.stop = c''.pos.offset := by rw [hloc]; rfl
  obtain ⟨front, last, htaken, hlast⟩ := scanToken_solid hscan
  have hsolid : c'.rest = front ++ last :: c''.rest := hrest.trans htaken
  have hbehind : c''.pos.offset = c'.pos.offset + front.length + 1 := by
    have hoffset : c'.pos.offset + (c'.rest.length + behind.length) = text.length :=
      Cursor.In.offset_eq hc'
    have hoffset' : c''.pos.offset + (c''.rest.length + behind.length) = text.length :=
      hc''.1.offset_eq
    rw [hsolid, List.length_append, List.length_cons] at hoffset
    omega
  refine ⟨⟨c', behind, lo, final, hc', hstart.symm, ?_⟩, ⟨first, ?_, hfirst⟩, last, ?_, hlast⟩
  · rw [tokensFrom_eq hagain hrest hscan hts', ← hloc]
    rfl
  · rw [hstart, ← Nat.add_zero c'.pos.offset, Cursor.In.getElem?_text hc', hrest]
    rfl
  · rw [hstop, hbehind, Nat.add_sub_cancel, Cursor.In.getElem?_text hc', hsolid]
    simp

variable {inner more : List Token} {l : Location}

theorem Around.exists_cons (hl : Around inner l) :
    ∃ t ts, inner = t :: ts ∧ l.start = t.loc.start := by
  obtain ⟨t, ht, hstart⟩ := hl.start
  cases inner with
  | nil => cases ht
  | cons t' ts =>
    cases ht
    exact ⟨t, ts, rfl, hstart⟩

/-- The characters of some tokens have these tokens when they stand alone.  No line ends
before the first one then. -/
theorem TokensOf.cut (h : TokensOf text (inner ++ more)) (hl : Around inner l)
    (q : Position) :
    ∃ ts, tokensFrom ⟨text.extract l.start l.stop, q⟩ = .ok ts ∧
      List.Forall₂ Token.Alike (inner.modifyHead Token.unbroken) ts.body ∧
        ts.final.kind = .finish := by
  obtain ⟨t, ts, rfl, hstart⟩ := hl.exists_cons
  obtain ⟨u, hu, hstop⟩ := hl.stop
  obtain ⟨⟨c, behind, lo, final, hc, hoffset, hts⟩, -⟩ := TokensOf.exists_first h
  have hbody : t.unbroken :: (ts ++ more) = (t.unbroken :: ts) ++ more := rfl
  obtain ⟨cut, tail, hcut, hlength, hcuts⟩ := tokensFrom_cut hc hts hbody
  have hlast : ((t.unbroken :: ts).map (·.loc.stop)).getLastD c.pos.offset = l.stop := by
    have hstops : (t.unbroken :: ts).map (·.loc.stop) = (t :: ts).map (·.loc.stop) := rfl
    rw [hstops, List.getLastD_eq_getLast?, List.getLast?_map, hu, hstop]
    rfl
  have hextract : text.extract l.start l.stop = cut := by
    obtain ⟨before, htext, hpos⟩ := hc.place
    have hbefore : l.start = before.length := by
      rw [hstart, ← hoffset, hpos, Position.origin_after]
    have hcutLength : l.stop - l.start = cut.length := by omega
    rw [List.extract_eq_take_drop, hcutLength, hbefore, htext, hcut, List.drop_left,
      List.append_assoc, List.take_left]
  rw [hextract]
  exact hcuts q

/-- Nothing is trimmed off the characters of some tokens. -/
theorem spanText?_eq (h : TokensOf text (inner ++ more)) (hl : Around inner l) :
    spanText? text l = some (String.ofList (text.extract l.start l.stop)) := by
  obtain ⟨t, ts, rfl, hstart⟩ := hl.exists_cons
  obtain ⟨u, hu, hstop⟩ := hl.stop
  have hlt : l.start < l.stop := by
    rw [hstart, hstop]
    exact TokensOf.start_lt_stop h u (List.mem_append_left more (List.mem_of_getLast? hu))
  obtain ⟨-, ⟨first, hfirst, hsolid⟩, -⟩ := TokensOf.exists_first h
  obtain ⟨last, hlast, hsolid'⟩ : ∃ last, text[l.stop - 1]? = some last ∧
      isBlank last = false := by
    obtain ⟨front, hfront⟩ := List.getLast?_eq_some_iff.1 hu
    rw [hfront, List.append_assoc] at h
    rw [hstop]
    exact (TokensOf.exists_first h.of_append).2.2
  have hpos : l.stop - l.start ≠ 0 := by omega
  obtain ⟨hle, -⟩ := List.getElem?_eq_some_iff.1 hlast
  -- Both ends are ends of tokens, which are no blanks.
  have htrim : trimChars ((text.drop l.start).take (l.stop - l.start)) =
      (text.drop l.start).take (l.stop - l.start) := by
    refine trimChars_eq ?_ ?_
    · rw [List.head?_take, if_neg hpos, List.head?_drop, hstart, hfirst]
      exact fun c hc => Option.some.inj hc ▸ hsolid
    · have hindex : l.start + (l.stop - l.start - 1) = l.stop - 1 := by omega
      rw [List.getLast?_take, if_neg hpos, List.getElem?_drop, hindex, hlast]
      exact fun c hc => Option.some.inj hc ▸ hsolid'
  have hne : (text.drop l.start).take (l.stop - l.start) ≠ [] := by
    rw [Ne, ← List.length_eq_zero_iff, List.length_take, List.length_drop]
    omega
  unfold spanText?
  rw [if_neg (by simp; omega), htrim, List.extract_eq_take_drop]
  split
  · next hnil => exact absurd hnil hne
  · rfl

/-! ### Expressions -/

/-- The parentheses among the tokens of a text are paired. -/
def ParensPaired (x : String) : Prop :=
  ∃ ts, tokenize x = .ok ts ∧ parenDepth 0 ts.body = some 0

instance (x : String) : Decidable (ParensPaired x) :=
  decidable_of_iff ((tokenize x).toOption.any fun ts => parenDepth 0 ts.body == some 0) (by
    unfold ParensPaired
    cases tokenize x with
    | error e => simp [Except.toOption]
    | ok ts => simp [Except.toOption])

theorem parenDepth_unbroken (d : Nat) (ts : List Token) :
    parenDepth d (ts.modifyHead Token.unbroken) = parenDepth d ts := by
  cases ts <;> rfl

/-- A text is accepted as an expression only with paired parentheses. -/
theorem parensPaired_of_chunkExpr {x : String} {origin : Location} {e : Expr}
    (h : Grammar.chunkExpr (.atDepth maxNesting) ⟨x, origin⟩ = .ok e) : ParensPaired x := by
  unfold Grammar.chunkExpr tokenizeAt at h
  cases hts : tokensFrom (Cursor.ofText x origin.position) with
  | error err =>
    dsimp only at h
    rw [hts] at h
    cases h
  | ok ts =>
    dsimp only at h
    rw [hts] at h
    obtain ⟨s', hrun, hend⟩ := Grammar.whole_eq_ok h
    have hread : Rereads (maxNesting < maxNesting) .next true 0 0 0 (Stream.ofTokens ts)
        (Rules.atDepth maxNesting).expr (Rules.atDepth maxNesting).expr :=
        (Rules.atDepth_reread _ _).expr
    obtain ⟨pre, hp, -⟩ := hread (Grammar.tokensFrom_final hts) e s' hrun
    have hbody : ts.body = pre := by
      have hrest := hp.rest
      rwa [hend, List.append_nil] at hrest
    obtain ⟨ts', hts', halike, -⟩ := tokensFrom_moved hts (d := Cursor.ofText x .origin) rfl
    refine ⟨ts', hts', ?_⟩
    rw [Grammar.parenDepth_alike halike, hbody]
    exact hp.depth

/-- The text of an excerpt, taken alone. -/
theorem IsExcerpt.alone {source : String} {e : Expr}
    (h : IsExcerpt source.toList (.atDepth (maxNesting - 1)) e) :
    ∃ x, spanText? source.toList e.loc = some x ∧
      x.toList = source.toList.extract e.loc.start e.loc.stop ∧
      ∀ origin, (∃ e', Grammar.chunkExpr (.atDepth maxNesting) ⟨x, origin⟩ = .ok e' ∧
        bare e' = bare e) ↔ ParensPaired x := by
  obtain ⟨inner, more, htokens, hloc, hread⟩ := h
  refine ⟨_, spanText?_eq htokens hloc, String.toList_ofList, fun origin => ⟨?_, ?_⟩⟩
  · rintro ⟨e', he', -⟩
    exact parensPaired_of_chunkExpr he'
  · rintro ⟨ts₀, hts₀, hpaired⟩
    have hcursor : ∀ q,
        Cursor.ofText (String.ofList (source.toList.extract e.loc.start e.loc.stop)) q =
        ⟨source.toList.extract e.loc.start e.loc.stop, q⟩ := by
      intro q
      rw [Cursor.ofText, String.toList_ofList]
    obtain ⟨ts₁, hts₁, halike₁, -⟩ := htokens.cut hloc .origin
    obtain ⟨ts, hts, halike, hfinal⟩ := htokens.cut hloc origin.position
    -- Parentheses are paired alike wherever the text stands.
    have hpairedInner : parenDepth 0 inner = some 0 := by
      unfold tokenize tokenizeAt at hts₀
      rw [hcursor, hts₁] at hts₀
      cases hts₀
      rw [← parenDepth_unbroken, ← hpaired]
      exact (Grammar.parenDepth_alike halike₁ 0).symm
    obtain ⟨e', he', s', hrun, hend⟩ :=
      (hread hpairedInner).unbroken (Stream.ofTokens ts) hfinal halike
    refine ⟨e', ?_, he'⟩
    unfold Grammar.chunkExpr tokenizeAt
    dsimp only
    rw [hcursor, hts]
    dsimp only
    have hexpr : (Rules.atDepth maxNesting).expr (Stream.ofTokens ts) = .ok (e', s') := hrun
    rw [StateT.run', Parse.bind_eq hexpr,
      Parse.bind_eq (show Parse.atEnd s' = .ok (s'.rest.isEmpty, s') from rfl), hend.rest]
    rfl

/-- The text of a method, taken alone. -/
theorem IsMethod.alone {source : String} {e : Expr} (h : IsMethod source.toList e) :
    ∃ x, spanText? source.toList e.loc = some x ∧
      x.toList = source.toList.extract e.loc.start e.loc.stop ∧
      ∀ origin e', Grammar.chunkExpr (.atDepth maxNesting) ⟨x, origin⟩ = .ok e' →
        bare e' ≠ bare e := by
  obtain ⟨key, paren, inner, more, htokens, hloc, hkey, hparen, hnamed⟩ := h
  refine ⟨_, spanText?_eq htokens hloc, String.toList_ofList, fun origin e' hrun hbare => ?_⟩
  obtain ⟨ts, hts, halike, -⟩ := htokens.cut hloc origin.position
  -- alone, the key comes first, where an expression has no key, and the parameters behind it
  have hkeyed : (Stream.ofTokens ts).Keyed := by
    obtain ⟨body, final⟩ := ts
    cases halike with
    | cons hkeyAlike hrest =>
      cases hrest with
      | cons hparenAlike _ =>
        exact ⟨(TokenKind.isSymbol_of_bare hkeyAlike.kind _).trans hkey,
          (TokenKind.isSymbol_of_bare hparenAlike.kind _).trans hparen⟩
  unfold Grammar.chunkExpr tokenizeAt at hrun
  dsimp only at hrun
  rw [Cursor.ofText, String.toList_ofList, hts] at hrun
  obtain ⟨s', he', -⟩ := Grammar.whole_eq_ok hrun
  exact Grammar.assignment_unnamed hkeyed e' s' he' (isNamed_of_bare hbare hnamed)

/-- The text of an expression in a fragment, taken alone. -/
theorem Fragment.Excerpted.alone {source : String} {n : Fragment}
    (h : n.Excerpted source.toList (.atDepth (maxNesting - 1))) {e : Expr}
    (he : .expr e ∈ n.inner) :
    ∃ x, spanText? source.toList e.loc = some x ∧
      x.toList = source.toList.extract e.loc.start e.loc.stop ∧
      ∀ origin, (∃ e', Grammar.chunkExpr (.atDepth maxNesting) ⟨x, origin⟩ = .ok e' ∧
        bare e' = bare e) ↔ ParensPaired x ∧ ¬ n.HasMethod e := by
  obtain ⟨here, method, -⟩ := h
  by_cases hmethod : n.HasMethod e
  · obtain ⟨x, hshown, hx, halone⟩ := (method _ he e rfl hmethod).alone
    refine ⟨x, hshown, hx, fun origin => ⟨?_, fun h => absurd hmethod h.2⟩⟩
    rintro ⟨e', hrun, hbare⟩
    exact absurd hbare (halone origin e' hrun)
  · obtain ⟨x, hshown, hx, halone⟩ := (here _ he e rfl hmethod).alone
    exact ⟨x, hshown, hx, fun origin => (halone origin).trans (and_iff_left hmethod).symm⟩

/-- An argument of a call that is a statement of its own. -/
theorem exists_argument (source : String) (l : Location)
    (h : (parseProgram source).toOption.any (fun p =>
      p.body.any fun
        | .expr (.call _ args _) _ => args.any (·.loc == l)
        | _ => false) = true) :
    ∃ p n e, parseProgram source = .ok p ∧ (Fragment.program p).Encloses n ∧
      .expr e ∈ n.inner ∧ ¬ n.HasMethod e ∧
      e.loc = l := by
  cases hp : parseProgram source with
  | error err =>
    rw [hp] at h
    cases h
  | ok p =>
    rw [hp] at h
    obtain ⟨t, ht, hcall⟩ := List.any_eq_true.1 (show p.body.any _ = true from h)
    split at hcall
    · next callee args l' l'' =>
      obtain ⟨e, he, hloc⟩ := List.any_eq_true.1 hcall
      have hstmt : Fragment.stmt (.expr (.call callee args l') l'') ∈
          (Fragment.program p).inner :=
        List.mem_flatMap.2 ⟨_, ht, List.mem_singleton.2 rfl⟩
      have harg : Fragment.expr e ∈ (Fragment.expr (.call callee args l')).inner :=
        List.mem_append_right _ (List.mem_flatMap.2 ⟨e, he, List.mem_singleton.2 rfl⟩)
      refine ⟨p, .expr (.call callee args l'), e, rfl, ?_, harg, ?_, eq_of_beq hloc⟩
      · exact (Relation.ReflTransGen.single hstmt).tail (List.mem_singleton.2 rfl)
      · rintro ⟨q, f, l, hproperty, -⟩
        cases hproperty
    · cases hcall

/-- **Excerpts.** In the tree of a source, each expression stands for the characters at its
location, and unless it is a literal these are what is shown for it as an argument that is
printed.  Taken alone, they are an expression again, the same one up to its places, if and
only if the parentheses among them are paired and it is no method. -/
theorem parseProgram_excerpts {source : String} {p : Program}
    (h : parseProgram source = .ok p) {n : Fragment} (hn : (Fragment.program p).Encloses n)
    {e : Expr} (he : .expr e ∈ n.inner) :
    ∃ x : String, x.toList = source.toList.extract e.loc.start e.loc.stop ∧
      (literalText? e = none → argumentText source.toList e = x) ∧
      ∀ origin, (∃ e', Grammar.chunkExpr (.atDepth maxNesting) ⟨x, origin⟩ = .ok e' ∧
        bare e' = bare e) ↔ ParensPaired x ∧ ¬ n.HasMethod e := by
  obtain ⟨x, hshown, hx, halone⟩ := ((parseProgram_excerpted h).of_encloses hn).alone he
  refine ⟨x, hx, fun hliteral => ?_, halone⟩
  rw [argumentText, hliteral, hshown]
  rfl

/-- An argument with an operand in parentheses in its middle. -/
theorem parseProgram_excerpts_middle : ∃ p n e, parseProgram "f(a * (b + c)[d], e);" = .ok p ∧
    (Fragment.program p).Encloses n ∧ .expr e ∈ n.inner ∧ ¬ n.HasMethod e ∧
    "f(a * (b + c)[d], e);".toList.extract e.loc.start e.loc.stop = "a * (b + c)[d]".toList ∧
    ∃ e', Grammar.chunkExpr (.atDepth maxNesting) ⟨"a * (b + c)[d]", default⟩ = .ok e' ∧
      bare e' = bare e := by
  obtain ⟨p, n, e, hp, hn, he, hmethod, hloc⟩ :=
    exists_argument "f(a * (b + c)[d], e);" ⟨1, 2, 2, 16⟩ (by decide +kernel)
  have htext : "f(a * (b + c)[d], e);".toList.extract e.loc.start e.loc.stop =
      "a * (b + c)[d]".toList := by
    rw [hloc]
    decide +kernel
  obtain ⟨x, hx, -, halone⟩ := parseProgram_excerpts hp hn he
  obtain rfl := String.toList_inj.1 (hx.trans htext)
  exact ⟨p, n, e, hp, hn, he, hmethod, htext, (halone default).2 ⟨by decide +kernel, hmethod⟩⟩

/-- An argument whose operands both stand in parentheses: what stands between the outer halves
of these is no expression. -/
theorem parens_at_both_ends : ∃ p n e, parseProgram "console.log((a) + (b));" = .ok p ∧
    (Fragment.program p).Encloses n ∧ .expr e ∈ n.inner ∧ ¬ n.HasMethod e ∧
    "console.log((a) + (b));".toList.extract e.loc.start e.loc.stop = "a) + (b".toList ∧
    (Grammar.chunkExpr (.atDepth maxNesting) ⟨"a) + (b", default⟩).toOption.isSome =
      false := by
  obtain ⟨p, n, e, hp, hn, he, hmethod, hloc⟩ :=
    exists_argument "console.log((a) + (b));" ⟨1, 13, 13, 20⟩ (by decide +kernel)
  refine ⟨p, n, e, hp, hn, he, hmethod, ?_, by decide +kernel⟩
  rw [hloc]
  decide +kernel

end ScriptReplay
