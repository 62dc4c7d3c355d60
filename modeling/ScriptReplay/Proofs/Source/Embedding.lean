/-
Expressions embedded in templates.

The source of an expression is put between the marks of a template.  The template has it as
its only chunk if and only if its braces are paired; braces count wherever they stand, in a
quoted text as well.

* `BracesPaired` : the braces among some characters are paired;
* `chunkChars_append` : a chunk ends at a brace if and only if the braces before
  it are paired;
* `tokenize_embedded` : the tokens of an embedded text;
* `parseProgram_embedded` : an embedded expression is the one that its text is on its own;
* `embedding_quoted_brace` : a quoted brace that ends the chunk.
-/
import ScriptReplay.Proofs.Source.Rereading.Ends

namespace ScriptReplay

/-- The source of a template that holds nothing but an embedded expression. -/
def embedded (x : String) : String :=
  "\x60$\x7b" ++ x ++ "\x7d\x60"

/-- The braces among some characters are paired, whatever they stand in. -/
structure BracesPaired (cs : List Char) : Prop where
  count : cs.count '\x7d' = cs.count '\x7b'
  front : ∀ front, front <+: cs → front.count '\x7d' ≤ front.count '\x7b'

/-- The chunk up to a closing brace is all that stands before it if its braces are paired with
those open before. -/
theorem chunkChars_append {depth : Nat} {cs behind : List Char} :
    chunkChars depth (cs ++ '\x7d' :: behind) = some cs ↔
    cs.count '\x7d' = cs.count '\x7b' + depth ∧
      ∀ front, front <+: cs → front.count '\x7d' ≤ front.count '\x7b' + depth := by
  induction cs generalizing depth with
  | nil =>
    rw [List.nil_append, chunkChars.eq_def]
    dsimp only
    rw [if_neg (by decide), if_pos rfl]
    cases depth with
    | zero => simp
    | succ depth => simp
  | cons ch cs ih =>
    have hmap : ∀ d, (chunkChars d (cs ++ '\x7d' :: behind)).map (ch :: ·) = some (ch :: cs) ↔
        chunkChars d (cs ++ '\x7d' :: behind) = some cs := by
      intro d
      simp [Option.map_eq_some_iff]
    -- A beginning of this text is empty, or this character and a beginning of the rest.
    have hfront :
        (∀ front, front <+: ch :: cs → front.count '\x7d' ≤ front.count '\x7b' + depth) ↔
        ∀ front, front <+: cs →
          (ch :: front).count '\x7d' ≤ (ch :: front).count '\x7b' + depth := by
      constructor
      · exact fun h front hp => h _ (List.cons_prefix_cons.2 ⟨rfl, hp⟩)
      · intro h front hp
        rcases List.prefix_cons_iff.1 hp with rfl | ⟨front, rfl, hfront⟩
        · simp
        · exact h front hfront
    rw [List.cons_append, chunkChars.eq_def, hfront]
    dsimp only
    split
    · next hopen =>
      subst hopen
      rw [hmap, ih]
      simp only [List.count_cons_self, List.count_cons_of_ne (show '\x7b' ≠ '\x7d' by decide)]
      exact and_congr (by omega) (forall₂_congr fun _ _ => by omega)
    split
    · next hclose =>
      subst hclose
      simp only [List.count_cons_self, List.count_cons_of_ne (show '\x7d' ≠ '\x7b' by decide)]
      cases depth with
      | zero =>
        -- The chunk ends at this brace, which closes more than is open.
        refine iff_of_false (by simp) fun h => ?_
        have hnil := h.2 [] List.nil_prefix
        simp at hnil
      | succ depth =>
        dsimp only
        rw [hmap, ih]
        exact and_congr (by omega) (forall₂_congr fun _ _ => by omega)
    · next hopen hclose =>
      rw [hmap, ih]
      simp only [List.count_cons_of_ne hopen, List.count_cons_of_ne hclose]

theorem bracesPaired_iff {cs behind : List Char} :
    BracesPaired cs ↔ chunkChars 0 (cs ++ '\x7d' :: behind) = some cs := by
  rw [chunkChars_append]
  exact ⟨fun h => ⟨h.count, h.front⟩, fun h => ⟨h.1, h.2⟩⟩

instance (cs : List Char) : Decidable (BracesPaired cs) :=
  decidable_of_iff (chunkChars 0 (cs ++ ['\x7d']) = some cs) bracesPaired_iff.symm

/-- The pieces read so far stay. -/
theorem readTemplate_chunks {opened : Position} {c : Cursor} {t : TemplateParts}
    {r : TokenKind × Cursor} (h : readTemplate opened c t = .ok r) :
    ∃ texts more, r.1 = .template texts (t.chunks.reverse ++ more) := by
  fun_induction readTemplate opened c t with
  | case1 => cases h
  | case2 => cases h
  | case3 c t rest hc chunk hchunk ih =>
    obtain ⟨texts, more, hr⟩ := ih h
    exact ⟨texts, _, by rw [hr, TemplateParts.addChunk, List.reverse_cons, List.append_assoc]⟩
  | case4 =>
    cases h
    exact ⟨_, [], by rw [List.append_nil]; rfl⟩
  | case5 => cases h
  | case6 c t rest e he hopen hc hquote ih => exact ih h
  | case7 c t ch rest hopen hc hquote hslash ih => exact ih h

theorem skipGap_nil {c : Cursor} (h : c.rest = []) :
    skipGap c = .ok (⟨[], c.pos⟩, false) := by
  rw [skipGap, h]
  rfl

theorem tokensFrom_eq_ok {c c' : Cursor} {newline : Bool} {ts : Tokens}
    (h : tokensFrom c = .ok ts) (hgap : skipGap c = .ok (c', newline)) {first : Char}
    {rest : List Char} (hrest : c'.rest = first :: rest) :
    ∃ k c'', ∃ ts' : Tokens, scanToken first rest c'.pos = .ok (k, c'') ∧
      ts = ⟨⟨k, c'.pos.upTo c''.pos, newline⟩ :: ts'.body, ts'.final⟩ := by
  rw [tokensFrom] at h
  split at h
  · cases h
  · next c₁ newline₁ hgap₁ =>
    obtain ⟨rfl, rfl⟩ := Prod.mk.inj (Except.ok.inj (hgap.symm.trans hgap₁))
    split at h
    · next hnil =>
      rw [hrest] at hnil
      cases hnil
    · next first₁ rest₁ hrest₁ =>
      obtain ⟨rfl, rfl⟩ := List.cons.inj (hrest.symm.trans hrest₁)
      split at h
      · cases h
      · next k c'' hscan =>
        cases hts : tokensFrom c'' with
        | error e =>
          rw [hts] at h
          cases h
        | ok ts' =>
          rw [hts] at h
          cases h
          exact ⟨k, c'', ts', hscan, rfl⟩

theorem toList_embedded (x : String) :
    (embedded x).toList = '\x60' :: '$' :: '\x7b' :: (x.toList ++ ['\x7d', '\x60']) := by
  simp [embedded]

/-- The tokens of a text embedded in a template: one template with the text as its only chunk,
if and only if the braces in the text are paired. -/
theorem tokenize_embedded (x : String) : (∃ l o final, tokenize (embedded x) =
    .ok ⟨[⟨.template ["", ""] [⟨x, o⟩], l, false⟩], final⟩) ↔ BracesPaired x.toList := by
  obtain ⟨c, hc⟩ : ∃ c, c = Cursor.ofText (embedded x) .origin := ⟨_, rfl⟩
  have hrest : c.rest = '\x60' :: '$' :: '\x7b' :: (x.toList ++ ['\x7d', '\x60']) :=
    hc ▸ toList_embedded x
  have hgap : skipGap c = .ok (c, false) := by
    obtain ⟨rest, p⟩ := c
    subst hrest
    exact skipGap_eq (by decide) (fun h => absurd h (by decide)) p
  have hscan : scanToken '\x60' ('$' :: '\x7b' :: (x.toList ++ ['\x7d', '\x60'])) c.pos =
      readTemplate c.pos (c.skip 1) ⟨[], [], []⟩ := by
    obtain ⟨rest, p⟩ := c
    subst hrest
    rfl
  have hinside : (c.skip 1).rest = '$' :: '\x7b' :: (x.toList ++ ['\x7d', '\x60']) := by
    rw [Cursor.rest_skip, hrest]
    rfl
  unfold tokenize tokenizeAt
  rw [← hc, show BracesPaired x.toList ↔
    chunkChars 0 (x.toList ++ ['\x7d', '\x60']) = some x.toList from bracesPaired_iff]
  constructor
  -- The first chunk of the token is what was read up to the closing brace, so that is the
  -- whole text.
  · rintro ⟨l, o, final, h⟩
    obtain ⟨k, c'', ts', hk, hts⟩ := tokensFrom_eq_ok h hgap hrest
    simp only [Tokens.mk.injEq, List.cons.injEq, Token.mk.injEq] at hts
    obtain rfl := hts.1.1.1
    rw [hscan, readTemplate_open hinside] at hk
    cases hchunk : chunkChars 0 (x.toList ++ ['\x7d', '\x60']) with
    | none =>
      rw [hchunk] at hk
      cases hk
    | some chunk =>
      rw [hchunk] at hk
      obtain ⟨texts, more, hkind⟩ := readTemplate_chunks hk
      cases hkind
      rw [String.toList_ofList]
  · intro h
    have hlast : ((c.skip 1).skip (x.toList.length + 3)).rest = ['\x60'] := by
      rw [Cursor.rest_skip, hinside]
      simp
    have hend : (((c.skip 1).skip (x.toList.length + 3)).skip 1).rest = [] := by
      rw [Cursor.rest_skip, hlast]
      rfl
    rw [readTemplate_open hinside, h] at hscan
    dsimp only at hscan
    rw [String.ofList_toList] at hscan
    rw [readTemplate_cons hlast (fun _ h => absurd h (by decide)), if_pos rfl] at hscan
    have htokens := tokensFrom_eq hgap hrest hscan (tokensFrom_eq_nil (skipGap_nil hend) rfl)
    exact ⟨_, _, _, htokens⟩

/-- The outcome of a program that is nothing but a template with this expression in it, up to
places; its nesting may be too deep. -/
def IsTemplateOf (e : Expr) : Except SyntaxError Program → Prop
  | .ok p => ∃ e' l l', p.body = [.expr (.template ["", ""] [e'] l) l'] ∧ e'.bare = e.bare
  | .error err => err.cause = .tooDeep

namespace Grammar

open Parse

section
variable {n : Nat} {s : Stream} {texts : List String} {chunks : List Chunk} {l : Location}

theorem primary_of_template (hs : s.rest = [⟨.template texts chunks, l, false⟩])
    (hfinal : s.final.kind = .finish) (r : Rules) :
    Leaves Stream.AtEnd s ((.template texts · l) <$> chunks.mapM (chunkExpr r))
      (primary r) := by
  have hhead : s.head = ⟨.template texts chunks, l, false⟩ := by
    rw [Stream.head, hs]
    rfl
  obtain ⟨hrest', hfinal', -⟩ := s.tail_of hs
  have hprimary : primary r s = (do
      let parts ← liftM (chunks.mapM (chunkExpr r))
      single (.template texts parts l) : Parse Expr) s := by
    unfold primary
    rw [bind_eq (x := here) (s := s) rfl, bind_eq (x := peek) (s := s) rfl, hhead]
  cases hparts : chunks.mapM (chunkExpr r) with
  | error err => exact hprimary.trans (by rw [hparts]; rfl)
  | ok parts => exact ⟨s.tail, hprimary.trans (by rw [hparts]; rfl), hrest', hfinal' ▸ hfinal⟩

theorem assignment_of_template (hs : s.rest = [⟨.template texts chunks, l, false⟩])
    (hfinal : s.final.kind = .finish) (r : Rules) :
    Leaves Stream.AtEnd s ((.template texts · l) <$> chunks.mapM (chunkExpr r))
      (assignment r) := by
  have hkind : s.head.kind = .template texts chunks := by
    rw [Stream.head, hs]
    rfl
  have hends : ∀ s' : Stream, s'.AtEnd → s'.head.kind.EndsOperands :=
    fun _ h => h.endsOperands
  have hchain :=
    callChain_leaves (primary_of_template hs hfinal r) (by rw [hkind]; rfl) fun s' h =>
    h.head ▸ rfl
  have hunary := unary_leaves (counted_leaves hchain hends) (by rw [hkind]; rfl)
    (by rw [hkind]; rfl) (by rw [hkind]; rfl)
  exact assignment_leaves (conditional_leaves (joined_leaves hunary hends) hends)
    (by rw [hs]; rfl) fun s' h => h.head ▸ rfl

theorem endStatement_of_end (hs : s.rest = []) (hfinal : s.final.kind = .finish) :
    endStatement s = .ok ((), s) := by
  unfold endStatement
  rw [bind_eq (eatSymbol_of_ne (head_of_rest_nil hs hfinal) rfl)]
  show (if !(s.head.newlineBefore || s.head.kind.isSymbol .rbrace || s.rest.isEmpty)
    then unexpected else pure ()) s = _
  rw [hs, List.isEmpty_nil, Bool.or_true]
  rfl

/-- Two levels further down, a template alone is read as the expression of a statement. -/
theorem stmt_of_template (hs : s.rest = [⟨.template texts chunks, l, false⟩])
    (hfinal : s.final.kind = .finish) : match chunks.mapM (chunkExpr (.atDepth n)) with
    | .ok parts =>
      ∃ l' s', (Rules.atDepth (n + 2)).stmt s = .ok (.expr (.template texts parts l) l', s') ∧
        s'.rest = []
    | .error err => (Rules.atDepth (n + 2)).stmt s = .error err := by
  have hhead : s.head = ⟨.template texts chunks, l, false⟩ := by
    rw [Stream.head, hs]
    rfl
  have hstmt : (Rules.atDepth (n + 2)).stmt s = exprStmt (.atDepth (n + 1)) l s := by
    show statement _ s = _
    unfold statement
    rw [bind_eq (x := here) (s := s) rfl, bind_eq (x := peek) (s := s) rfl, hhead]
    dsimp only
    rw [show declKind? (.template texts chunks) = none from rfl]
    dsimp only
    rw [bind_eq (x := get) (s := s) rfl, hs]
    rfl
  have hexpr := assignment_of_template hs hfinal (.atDepth n)
  rw [hstmt]
  cases hparts : chunks.mapM (chunkExpr (.atDepth n)) with
  | error err =>
    rw [hparts] at hexpr
    exact bind_eq_error hexpr
  | ok parts =>
    rw [hparts] at hexpr
    obtain ⟨s', hrun, hrest', hfinal'⟩ := hexpr
    refine ⟨l.until s'.lastStop, s', ?_, hrest'⟩
    exact (bind_eq hrun).trans ((bind_eq (endStatement_of_end hrest' hfinal')).trans rfl)

end

theorem programItems_one {s : Stream} (hs : s.size = 1) (r : Rules) :
    programItems r s.size s =
    (do return [← r.stmt] ++ (← programItems r 0) : Parse (List Stmt)) s := by
  have hne : s.rest.isEmpty = false := by
    cases h : s.rest with
    | nil =>
      rw [s.size_eq, h] at hs
      cases hs
    | cons _ _ => rfl
  rw [hs]
  unfold programItems
  rw [bind_eq (show atEnd s = .ok (s.rest.isEmpty, s) from rfl), hne]
  rfl

theorem program_of_stmt {r : Rules} {s s' : Stream} {t : Stmt} (hs : s.size = 1)
    (hrun : r.stmt s = .ok (t, s')) : ∃ p, (program r).run' s = .ok p ∧ p.body = [t] := by
  have hitems : programItems r s.size s = .ok ([t], s') :=
    (programItems_one hs r).trans ((bind_eq hrun).trans rfl)
  refine ⟨⟨[t], { s.head.loc with stop := s'.head.loc.stop }⟩, ?_, rfl⟩
  unfold program
  rw [StateT.run', bind_eq (x := here) (s := s) rfl,
    bind_eq (x := remaining) (s := s) rfl, bind_eq hitems]
  rfl

theorem program_of_error {r : Rules} {s : Stream} {err : SyntaxError} (hs : s.size = 1)
    (hrun : r.stmt s = .error err) : (program r).run' s = .error err := by
  have hitems : programItems r s.size s = .error err :=
    (programItems_one hs r).trans (bind_eq_error hrun)
  unfold program
  rw [StateT.run', bind_eq (x := here) (s := s) rfl,
    bind_eq (x := remaining) (s := s) rfl, bind_eq_error hitems]
  rfl

end Grammar

/-- **Embedding.** Of a text that is an expression on its own, the source of a template that
holds nothing else has one token with the text as its only chunk if and only if the braces in
the text are paired, whatever they stand in; and then the template holds that expression, up
to its places, unless the nesting is too deep. -/
theorem parseProgram_embedded {x : String} {origin : Location} {e : Expr}
    (h : Grammar.chunkExpr (.atDepth maxNesting) ⟨x, origin⟩ = .ok e) :
    ((∃ l o final,
      tokenize (embedded x) = .ok ⟨[⟨.template ["", ""] [⟨x, o⟩], l, false⟩], final⟩) ↔
      BracesPaired x.toList) ∧
    (BracesPaired x.toList → IsTemplateOf e (parseProgram (embedded x))) := by
  refine ⟨tokenize_embedded x, fun hpaired => ?_⟩
  obtain ⟨l, o, final, htokens⟩ := (tokenize_embedded x).2 hpaired
  obtain ⟨levels, hlevels⟩ : ∃ n, maxNesting = n + 2 := ⟨38, rfl⟩
  have hrepeats : Grammar.Repeats (levels < maxNesting) e
      (Grammar.chunkExpr (.atDepth levels) ⟨x, o⟩) := by
    refine Grammar.chunkExpr_repeats (Rules.atDepth_reread levels maxNesting) ?_ h
    rfl
  obtain ⟨s, hs⟩ : ∃ s,
      s = Stream.ofTokens ⟨[⟨.template ["", ""] [⟨x, o⟩], l, false⟩], final⟩ :=
    ⟨_, rfl⟩
  have hrest : s.rest = [⟨.template ["", ""] [⟨x, o⟩], l, false⟩] := hs ▸ rfl
  have hsize : s.size = 1 := hs ▸ rfl
  have hfinal : s.final.kind = .finish := hs ▸ Grammar.tokensFrom_final htokens
  have hstmt := Grammar.stmt_of_template (n := levels) hrest hfinal
  rw [List.mapM_cons, List.mapM_nil] at hstmt
  unfold parseProgram
  rw [htokens, hlevels]
  dsimp only
  rw [← hs]
  cases hchunk : Grammar.chunkExpr (.atDepth levels) ⟨x, o⟩ with
  | error err =>
    rw [hchunk] at hrepeats hstmt
    rw [Grammar.program_of_error hsize hstmt]
    exact hrepeats.2
  | ok e' =>
    rw [hchunk] at hrepeats hstmt
    obtain ⟨l', s', hrun, -⟩ := hstmt
    obtain ⟨p, hp, hbody⟩ := Grammar.program_of_stmt hsize hrun
    rw [hp]
    exact ⟨e', l, l', hbody, hrepeats⟩

theorem parseProgram_embedded_call : ∃ e,
    Grammar.chunkExpr (.atDepth maxNesting)
      ⟨"f(\x7b k: \x60$\x7bname\x7d\x60 \x7d)", default⟩ = .ok e ∧
      IsTemplateOf e (parseProgram (embedded "f(\x7b k: \x60$\x7bname\x7d\x60 \x7d)")) := by
  cases h : Grammar.chunkExpr (.atDepth maxNesting)
    ⟨"f(\x7b k: \x60$\x7bname\x7d\x60 \x7d)", default⟩ with
  | error err =>
    have hok : (Grammar.chunkExpr (.atDepth maxNesting)
        ⟨"f(\x7b k: \x60$\x7bname\x7d\x60 \x7d)", default⟩).toOption.isSome =
        true := by decide +kernel
    rw [h] at hok
    cases hok
  | ok e => exact ⟨e, rfl, (parseProgram_embedded h).2 (by decide +kernel)⟩

/-- A brace in quotes ends the chunk: an expression that cannot be embedded. -/
theorem embedding_quoted_brace :
    (Grammar.chunkExpr (.atDepth maxNesting) ⟨"\x22\x7d\x22", default⟩).toOption.isSome =
      true ∧ (¬ ∃ l o final, tokenize (embedded "\x22\x7d\x22") =
        .ok ⟨[⟨.template ["", ""] [⟨"\x22\x7d\x22", o⟩], l, false⟩], final⟩) ∧
      (parseProgram (embedded "\x22\x7d\x22")).toOption.isSome = false := by
  refine ⟨by decide +kernel, fun h => ?_, by decide +kernel⟩
  exact absurd ((tokenize_embedded _).1 h) (by decide +kernel)

end ScriptReplay
