/-
What tokens leave over.

The tokens of a text stand in it one behind the other.  Between them there is nothing but
blanks and comments, so nothing of the text is lost.

* `IsGap` : what may stand between tokens;
* `gapFrom_passes` : what the reader passes between tokens is a gap, and it sees the line
  breaks in it;
* `scanToken_cases` : what a token is, by its first character;
* `Symbol.length_le_of_leading?` : no other symbol that fits is longer;
* `tokenize_follows` : the tokens of a text with the gaps before them.
-/
import ScriptReplay.Proofs.Source.Places
import ScriptReplay.Proofs.Source.Printing

namespace ScriptReplay

/-! ### Gaps -/

/-- What may stand between tokens, in front of the characters `behind`: blanks, comments up to
the ends of their lines, and bracketed comments up to the first mark that closes them. -/
inductive IsGap (behind : List Char) : List Char → Prop
  | nil : IsGap behind []
  | blank {c : Char} {rest : List Char} (hc : isBlank c = true) (h : IsGap behind rest) :
      IsGap behind (c :: rest)
  | lineComment {body rest : List Char} (hbody : '\n' ∉ body)
      (hend : ∀ c ∈ (rest ++ behind).head?, c = '\n') (h : IsGap behind rest) :
      IsGap behind ('/' :: '/' :: (body ++ rest))
  | blockComment {body rest : List Char}
      (hbody : ¬ ['*', '/'] <:+: body) (h : IsGap behind rest) :
      IsGap behind ('/' :: '*' :: (body ++ '*' :: '/' :: rest))

/-- What is passed from a mode on, in front of the characters `behind`. -/
def GapMode.Passes (behind : List Char) : GapMode → List Char → Prop
  | between, cs => IsGap behind cs
  | lineComment, cs =>
    ∃ body rest, cs = body ++ rest ∧ '\n' ∉ body ∧ (∀ c ∈ (rest ++ behind).head?, c = '\n') ∧
      IsGap behind rest
  | blockComment _, cs =>
    ∃ body rest, cs = body ++ '*' :: '/' :: rest ∧ ¬ ['*', '/'] <:+: body ∧ IsGap behind rest
  | insideMark following, cs => ∃ c rest, cs = c :: rest ∧ following.Passes behind rest

/-- A mark that is being passed goes on in the text, and not with a line break. -/
def GapMode.Ready : GapMode → List Char → Prop
  | insideMark following, c :: rest => c ≠ '\n' ∧ following.Ready rest
  | insideMark _, [] => False
  | _, _ => True

/-- A character that does not close a comment belongs to it. -/
theorem not_closed_cons {c : Char} {body behind rest : List Char}
    (hrest : rest = body ++ '*' :: behind) (hc : ¬ (c = '*' ∧ rest.head? = some '/'))
    (hbody : ¬ ['*', '/'] <:+: body) : ¬ ['*', '/'] <:+: c :: body := by
  rw [List.infix_cons_iff]
  rintro (hfirst | hlater)
  · obtain ⟨rfl, htail⟩ := List.cons_prefix_cons.1 hfirst
    obtain ⟨more, rfl⟩ := htail
    exact hc ⟨rfl, by rw [hrest]; rfl⟩
  · exact hbody hlater

theorem lineBreak_cons {newline newline' : Bool} {c : Char} {passed : List Char} {P : Prop}
    (hnewline : newline' = (newline || c == '\n')) (h : P ↔ newline' = true ∨ '\n' ∈ passed) :
    P ↔ newline = true ∨ '\n' ∈ c :: passed := by
  rw [h, hnewline, Bool.or_eq_true, beq_iff_eq, List.mem_cons, or_assoc, eq_comm (a := c)]

/-- What is passed goes up to the answer, and the answer remembers its line breaks. -/
theorem gapFrom_passes {mode : GapMode} {newline : Bool} {p : Position} {cs : List Char}
    (hready : mode.Ready cs) {r : Cursor × Bool} (h : gapFrom mode newline p cs = .ok r) :
    ∃ passed, cs = passed ++ r.1.rest ∧ mode.Passes r.1.rest passed ∧
      (r.2 = true ↔ newline = true ∨ '\n' ∈ passed) := by
  fun_induction gapFrom mode newline p cs with
  | case1 => cases h
  | case2 mode newline p hmode =>
    cases h
    refine ⟨[], rfl, ?_, by simp⟩
    cases mode with
    | between => exact .nil
    | lineComment => exact ⟨[], [], rfl, List.not_mem_nil, by simp, .nil⟩
    | blockComment opened => exact (hmode opened rfl).elim
    | insideMark following => exact hready.elim
  | case3 newline p c rest following ih =>
    obtain ⟨passed, rfl, hpasses, hnewline⟩ := ih hready.2 h
    exact ⟨c :: passed, rfl, ⟨c, passed, rfl, hpasses⟩,
      lineBreak_cons (by simp [hready.1]) hnewline⟩
  | case4 newline p rest ih =>
    obtain ⟨passed, rfl, hpasses, hnewline⟩ := ih trivial h
    refine ⟨'\n' :: passed, rfl, ?_, lineBreak_cons (by simp) hnewline⟩
    refine ⟨[], '\n' :: passed, rfl, List.not_mem_nil, fun c hc =>
      (Option.some.inj hc).symm, ?_⟩
    exact .blank (by decide) hpasses
  | case5 newline p c rest hc ih =>
    obtain ⟨passed, rfl, ⟨body, gap, rfl, hbody, hend, hgap⟩, hnewline⟩ := ih trivial h
    refine ⟨c :: (body ++ gap), rfl, ⟨c :: body, gap, rfl, ?_, hend, hgap⟩,
      lineBreak_cons (by simp [hc]) hnewline⟩
    exact fun hmem => (List.mem_cons.1 hmem).elim (fun hne => hc hne.symm) hbody
  | case6 newline p c rest opened hmark ih =>
    -- A mark has two characters; the rest of the run passes the second one.
    obtain ⟨rfl, hhead⟩ := hmark
    obtain ⟨rest, rfl⟩ := List.head?_eq_some_iff.1 hhead
    obtain ⟨passed, hrest, ⟨c', gap, rfl, hgap⟩, hnewline⟩ := ih ⟨by decide, trivial⟩ h
    obtain ⟨rfl, rfl⟩ := List.cons.inj hrest
    exact ⟨'*' :: '/' :: gap, rfl, ⟨[], gap, rfl, by decide, hgap⟩,
      lineBreak_cons (by simp) hnewline⟩
  | case7 newline p c rest opened hmark ih =>
    obtain ⟨passed, rfl, ⟨body, gap, rfl, hbody, hgap⟩, hnewline⟩ := ih trivial h
    refine ⟨c :: (body ++ '*' :: '/' :: gap), rfl, ⟨c :: body, gap, rfl, ?_, hgap⟩,
      lineBreak_cons rfl hnewline⟩
    exact not_closed_cons (List.append_assoc ..) hmark hbody
  | case8 newline p c rest hmark ih =>
    obtain ⟨rfl, hhead⟩ := hmark
    obtain ⟨rest, rfl⟩ := List.head?_eq_some_iff.1 hhead
    obtain ⟨passed, hrest, ⟨c', gap, rfl, body, more, rfl, hbody, hend, hgap⟩, hnewline⟩ :=
      ih ⟨by decide, trivial⟩ h
    obtain ⟨rfl, rfl⟩ := List.cons.inj hrest
    exact ⟨'/' :: '/' :: (body ++ more), rfl, .lineComment hbody hend hgap,
      lineBreak_cons (by simp) hnewline⟩
  | case9 newline p c rest hline hmark ih =>
    obtain ⟨rfl, hhead⟩ := hmark
    obtain ⟨rest, rfl⟩ := List.head?_eq_some_iff.1 hhead
    obtain ⟨passed, hrest, ⟨c', gap, rfl, body, more, rfl, hbody, hgap⟩, hnewline⟩ :=
      ih ⟨by decide, trivial⟩ h
    obtain ⟨rfl, rfl⟩ := List.cons.inj hrest
    exact ⟨'/' :: '*' :: (body ++ '*' :: '/' :: more), rfl, .blockComment hbody hgap,
      lineBreak_cons (by simp) hnewline⟩
  | case10 newline p c rest hline hblock hblank ih =>
    obtain ⟨passed, rfl, hpasses, hnewline⟩ := ih trivial h
    exact ⟨c :: passed, rfl, .blank hblank hpasses, lineBreak_cons rfl hnewline⟩
  | case11 newline p c rest hline hblock hblank =>
    cases h
    exact ⟨[], rfl, .nil, by simp⟩

/-- Between a cursor and the next token is a gap. -/
theorem skipGap_passes {c : Cursor} {r : Cursor × Bool} (h : skipGap c = .ok r) :
    ∃ passed, c.rest = passed ++ r.1.rest ∧ IsGap r.1.rest passed ∧
      (r.2 = true ↔ '\n' ∈ passed) := by
  have hready : GapMode.between.Ready c.rest := trivial
  obtain ⟨passed, hrest, hgap, hnewline⟩ := gapFrom_passes hready h
  exact ⟨passed, hrest, hgap, by simpa using hnewline⟩

/-! ### Tokens as they are written -/

/-- The text of the tokens that are always written alike. -/
def TokenKind.fixedText? : TokenKind → Option String
  | keyword k => some k.text
  | symbol s => some s.text
  | _ => none

/-- The token is written with this text: its fixed text, or a name. -/
def TokenKind.IsWritten (k : TokenKind) (w : String) : Prop :=
  k.fixedText? = some w ∨ k = name w

/-- Numerals, quoted texts and templates. -/
def TokenKind.isLiteral : TokenKind → Bool
  | number _ | string _ | template _ _ => true
  | _ => false

theorem TokenKind.not_isWritten {k : TokenKind} (h : k.isLiteral = true) (w : String) :
    ¬ k.IsWritten w := by
  rintro (hw | rfl)
  · unfold fixedText? at hw
    split at hw
    · cases h
    · cases h
    · cases hw
  · cases h

theorem isLiteral_readTemplate {opened : Position} {c : Cursor} {t : TemplateParts}
    {r : TokenKind × Cursor} (h : readTemplate opened c t = .ok r) :
    r.1.isLiteral = true := by
  fun_induction readTemplate opened c t with
  | case1 => cases h
  | case2 => cases h
  | case3 _ _ _ _ _ _ ih => exact ih h
  | case4 =>
    cases h
    rfl
  | case5 => cases h
  | case6 _ _ _ _ _ _ _ _ ih => exact ih h
  | case7 _ _ _ _ _ _ _ _ ih => exact ih h

theorem Symbol.append_of_leading? {cs : List Char} {s : Symbol}
    (h : Symbol.leading? cs = some s) : s.text.toList ++ cs.drop s.text.length = cs := by
  unfold Symbol.leading? at h
  have hfits := List.find?_some h
  have hprefix : s.text.toList <+: cs := List.isPrefixOf_iff_prefix.1 hfits
  rw [← String.length_toList]
  exact List.prefix_iff_eq_append.1 hprefix

/-- No symbol that a text starts with is longer than the one that is read. -/
theorem Symbol.length_le_of_leading? {cs : List Char} {s s' : Symbol}
    (h : Symbol.leading? cs = some s) (h' : s'.text.toList <+: cs) :
    s'.text.length ≤ s.text.length := by
  have hmem : s' ∈ Symbol.all := s'.mem_all
  have hsorted : Symbol.all.Pairwise fun a b => b.text.length ≤ a.text.length := by decide
  obtain ⟨-, before, behind, hall, hbefore⟩ := List.find?_eq_some_iff_append.1 h
  rw [hall] at hmem hsorted
  rcases List.mem_append.1 hmem with hmem | hmem
  · have hfits := hbefore s' hmem
    rw [List.isPrefixOf_iff_prefix.2 h'] at hfits
    cases hfits
  · rcases List.mem_cons.1 hmem with rfl | hmem
    · exact Nat.le_refl _
    · exact (List.pairwise_cons.1 (List.pairwise_append.1 hsorted).2.1).1 s' hmem

/-- A token is a literal, a keyword, a name, or a symbol at a character that no word
starts with. -/
theorem scanToken_cases {first : Char} {rest : List Char} {p : Position} {kind : TokenKind}
    {c : Cursor} (h : scanToken first rest p = .ok (kind, c)) :
    kind.isLiteral = true ∨
    (∃ k, kind = .keyword k ∧ first :: rest = k.text.toList ++ c.rest) ∨
    (∃ n, kind = .name n ∧ first :: rest = n.toList ++ c.rest) ∨
    (∃ s, kind = .symbol s ∧ first :: rest = s.text.toList ++ c.rest ∧
      isNameStart first = false ∧ Symbol.leading? (first :: rest) = some s) := by
  unfold scanToken at h
  dsimp only at h
  split at h
  · split at h
    · cases h
      exact .inl rfl
    · cases h
  split at h
  · exact .inl (isLiteral_readTemplate h)
  split at h
  · split at h
    · cases h
      exact .inl rfl
    · cases h
  split at h
  · have htaken := (List.prefix_iff_eq_append.1
      (List.takeWhile_prefix isNamePart (l := first :: rest))).symm
    unfold wordKind at h
    split at h
    · next k hk =>
      cases h
      refine .inr (.inl ⟨k, rfl, ?_⟩)
      rw [Keyword.text_of_ofText? hk, String.toList_ofList]
      exact htaken
    · cases h
      refine .inr (.inr (.inl ⟨_, rfl, ?_⟩))
      rw [String.toList_ofList]
      exact htaken
  · next hname =>
    split at h
    · next s hs =>
      cases h
      refine .inr (.inr (.inr ⟨s, rfl, ?_, Bool.not_eq_true _ ▸ hname, hs⟩))
      exact (Symbol.append_of_leading? hs).symm
    · cases h

theorem scanToken_kind_ne_finish {first : Char} {rest : List Char} {p : Position}
    {kind : TokenKind} {c : Cursor} (h : scanToken first rest p = .ok (kind, c)) :
    kind ≠ .finish := by
  rintro rfl
  obtain hkind | ⟨k, hkind, -⟩ | ⟨n, hkind, -⟩ | ⟨s, hkind, -⟩ :=
    scanToken_cases h <;> cases hkind

/-- A token that is written with a text stands for just that text. -/
theorem scanToken_isWritten {first : Char} {rest : List Char} {p : Position}
    {kind : TokenKind} {c : Cursor} (h : scanToken first rest p = .ok (kind, c)) {w : String}
    (hw : kind.IsWritten w) : first :: rest = w.toList ++ c.rest := by
  obtain hliteral | ⟨k, rfl, hrest⟩ | ⟨n, rfl, hrest⟩ | ⟨s, rfl, hrest, -⟩ :=
    scanToken_cases h
  · exact absurd hw (kind.not_isWritten hliteral w)
  all_goals
    obtain hw | hw := hw <;> cases hw
    exact hrest

/-- Where a symbol is read, no fixed text that is longer would fit. -/
theorem scanToken_longest {first : Char} {rest : List Char} {p : Position} {s : Symbol}
    {c : Cursor} (h : scanToken first rest p = .ok (.symbol s, c)) {k : TokenKind}
    {w : String} (hk : k.fixedText? = some w) (hw : w.toList <+: first :: rest) :
    w.length ≤ s.text.length := by
  obtain hkind | ⟨k, hkind, -⟩ | ⟨n, hkind, -⟩ | ⟨s', hkind, -, hname, hleading⟩ :=
    scanToken_cases h <;> cases hkind
  unfold TokenKind.fixedText? at hk
  split at hk
  · next keyword =>
    -- A keyword starts with a letter, and at a letter no symbol is read.
    cases hk
    obtain ⟨letter, more, hlist, hletter, -⟩ := isWord_keyword keyword
    rw [hlist] at hw
    rw [(List.cons_prefix_cons.1 hw).1, hname] at hletter
    cases hletter
  · cases hk
    exact Symbol.length_le_of_leading? hleading hw
  · cases hk

/-! ### Tokens in a text -/

/-- The token stands behind an offset of the text with nothing but a gap between them.  The
text at its place is the one that it is written with, and where a symbol stands no longer
fixed text would fit. -/
structure Token.Follows (text : List Char) (lo : Nat) (t : Token) : Prop where
  lo_le : lo ≤ t.loc.start
  start_le : t.loc.start ≤ t.loc.stop
  stop_le : t.loc.stop ≤ text.length
  gap : IsGap (text.drop t.loc.start) (text.extract lo t.loc.start)
  newline : t.newlineBefore = true ↔ '\n' ∈ text.extract lo t.loc.start
  written : ∀ w, t.kind.IsWritten w → text.extract t.loc.start t.loc.stop = w.toList
  longest : ∀ s, t.kind = .symbol s → ∀ (k : TokenKind) (w : String), k.fixedText? = some w →
    w.toList <+: text.drop t.loc.start → w.length ≤ s.text.length

variable {text : List Char} {lo lo' : Nat} {c c' : Cursor}

theorem Cursor.In.rest_eq (h : c.In text [] lo) : c.rest = text.drop c.pos.offset := by
  obtain ⟨before, htext, hpos⟩ := h.place
  rw [hpos, Position.origin_after, htext, List.drop_left, List.append_nil]

theorem Cursor.In.extract_eq (h : c.In text [] lo) (h' : c'.In text [] lo')
    {taken : List Char} (htaken : c.rest = taken ++ c'.rest) :
    text.extract c.pos.offset c'.pos.offset = taken := by
  have hoffset := h.offset_eq
  have hoffset' := h'.offset_eq
  rw [htaken, List.length_append] at hoffset
  rw [List.extract_eq_take_drop, ← h.rest_eq, htaken]
  exact List.take_left' (by omega)

/-- What is passed before a token is a gap, and it is the stretch of the text up
to the token. -/
theorem Cursor.In.skipGap (h : c.In text [] lo) {newline : Bool}
    (hgap : ScriptReplay.skipGap c = .ok (c', newline)) :
    c'.In text [] c.pos.offset ∧
      IsGap (text.drop c'.pos.offset) (text.extract c.pos.offset c'.pos.offset) ∧
      (newline = true ↔ '\n' ∈ text.extract c.pos.offset c'.pos.offset) := by
  have hin := skipGap_reads h.from_here
  rw [hgap] at hin
  obtain ⟨passed, hrest, hpassed, hnewline⟩ := skipGap_passes hgap
  rw [h.extract_eq hin hrest, ← hin.rest_eq]
  exact ⟨hin, hpassed, hnewline⟩

theorem Cursor.In.finish_follows (h : c.In text [] lo) {newline : Bool}
    (hgap : ScriptReplay.skipGap c = .ok (c', newline)) (hend : c'.rest = []) :
    Token.Follows text c.pos.offset ⟨.finish, c'.pos.here, newline⟩ ∧
      c'.pos.offset = text.length := by
  obtain ⟨hin, hpassed, hnewline⟩ := h.skipGap hgap
  have hoffset : c'.pos.offset = text.length := by
    have := hin.offset_eq
    rw [hend] at this
    exact this
  refine ⟨⟨hin.lo_le, Nat.le_refl _, Nat.le_of_eq hoffset, hpassed, hnewline, ?_, nofun⟩,
    hoffset⟩
  rintro w (hw | hw) <;> cases hw

theorem Cursor.In.token_follows (h : c.In text [] lo) {newline : Bool}
    (hgap : ScriptReplay.skipGap c = .ok (c', newline)) {first : Char} {rest : List Char}
    (hrest : c'.rest = first :: rest) {kind : TokenKind} {c'' : Cursor}
    (hscan : ScriptReplay.scanToken first rest c'.pos = .ok (kind, c'')) :
    Token.Follows text c.pos.offset ⟨kind, c'.pos.upTo c''.pos, newline⟩ ∧
      c''.In text [] c'.pos.offset ∧ c'.pos.offset < c''.pos.offset := by
  obtain ⟨hin, hpassed, hnewline⟩ := h.skipGap hgap
  have hread := hin.scanToken hrest
  rw [hscan] at hread
  have hin' : c''.In text [] c'.pos.offset := hread.1
  have hlength : c''.rest.length < (first :: rest).length := scanToken_lt hscan
  have hstart := hin.offset_eq
  have hstop := hin'.offset_eq
  rw [← hrest] at hlength
  refine ⟨⟨hin.lo_le, hin'.lo_le, ?_, hpassed, hnewline, ?_, ?_⟩, hin', by omega⟩
  · exact Nat.le_of_add_right_le (Nat.le_of_eq hstop)
  · intro w hw
    exact hin.extract_eq hin' (hrest.trans (scanToken_isWritten hscan hw))
  · rintro s rfl k w hk hw
    refine scanToken_longest hscan hk ?_
    rw [← hrest, hin.rest_eq]
    exact hw

theorem tokensFrom_follows (hc : c.In text [] lo) {ts : Tokens} (h : tokensFrom c = .ok ts) :
    List.Forall₂ (Token.Follows text) (c.pos.offset :: ts.body.map (·.loc.stop)) ts.toList ∧
      (∀ t ∈ ts.body, t.kind ≠ .finish ∧ t.loc.start < t.loc.stop) ∧
      ts.final.kind = .finish ∧ ts.final.loc.start = text.length ∧
        ts.final.loc.stop = text.length := by
  fun_induction tokensFrom c generalizing lo ts with
  | case1 => cases h
  | case2 c c' newline hgap hend =>
    cases h
    obtain ⟨hfollows, hoffset⟩ := hc.finish_follows hgap hend
    exact ⟨.cons hfollows .nil, fun _ hmem =>
      absurd hmem List.not_mem_nil, rfl, hoffset, hoffset⟩
  | case3 => cases h
  | case4 => cases h
  | case5 c c' newline hgap first rest hrest kind c'' hscan ts' hts ih =>
    cases h
    obtain ⟨hfollows, hin, hlt⟩ := hc.token_follows hgap hrest hscan
    obtain ⟨hlater, hbody, hfinal⟩ := ih hin hts
    exact ⟨.cons hfollows hlater,
      List.forall_mem_cons.2 ⟨⟨scanToken_kind_ne_finish hscan, hlt⟩, hbody⟩, hfinal⟩

/-- The tokens of a text stand in it one behind the other, and the end mark stands behind its
last character.  Between them are only gaps. -/
theorem tokenize_follows {source : String} {ts : Tokens} (h : tokenize source = .ok ts) :
    List.Forall₂ (Token.Follows source.toList) (0 :: ts.body.map (·.loc.stop)) ts.toList ∧
      (∀ t ∈ ts.body, t.kind ≠ .finish ∧ t.loc.start < t.loc.stop) ∧ ts.final.kind = .finish ∧
      ts.final.loc.start = source.toList.length ∧
        ts.final.loc.stop = source.toList.length := by
  have hc : (Cursor.ofText source Position.origin).In source.toList [] 0 :=
    ⟨⟨[], (List.append_nil _).symm, rfl⟩, Nat.le_refl 0⟩
  exact tokensFrom_follows hc h

/-- A line break of its own and one in a comment, a symbol that starts with three others, and
a comment at the end. -/
def shifting : String :=
  "let a;\na/* >\n**/>>>=b // c"

theorem shifting_follows : ∃ ts, tokenize shifting = .ok ts ∧
    ts.toList.map (fun t => (t.loc.start, t.loc.stop, t.newlineBefore)) =
      [(0, 3, false), (4, 5, false), (5, 6, false), (7, 8, true), (16, 20, true),
        (20, 21, false), (26, 26, false)] ∧
    List.Forall₂ (Token.Follows shifting.toList)
      (0 :: ts.body.map (·.loc.stop)) ts.toList := by
  have hplaces : (tokenize shifting).toOption.map (fun ts =>
      ts.toList.map fun t => (t.loc.start, t.loc.stop, t.newlineBefore)) =
      some [(0, 3, false), (4, 5, false), (5, 6, false), (7, 8, true), (16, 20, true),
        (20, 21, false), (26, 26, false)] := by
    decide +kernel
  cases h : tokenize shifting with
  | error e =>
    rw [h] at hplaces
    cases hplaces
  | ok ts =>
    rw [h] at hplaces
    exact ⟨ts, rfl, Option.some.inj hplaces, (tokenize_follows h).1⟩

end ScriptReplay
