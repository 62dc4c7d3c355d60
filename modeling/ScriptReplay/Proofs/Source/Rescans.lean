/-
Texts that are read again.

Tokens do not depend on where they stand, nor on what stands behind the last of them.  So a
stretch of a text that ends with a token has the tokens that it has in the text.

* `Token.Alike` : the same token, wherever it stands;
* `scanToken_cut` : a token is read again from its characters alone;
* `tokensFrom_moved` : a text has the same tokens wherever it stands;
* `tokensFrom_cut` : the first tokens of a text are the tokens of its part up to the
  last of them.

Design notes: where a text is cut, `tail` is what is cut off.  A reader that stops before the
cut does the same without the tail; most readers look no further than where they stop.  Only
the end of the whole text can make an escape shorter than it is elsewhere, so the case that
nothing is cut off is kept apart.
-/
import ScriptReplay.Proofs.Source.Gaps

namespace ScriptReplay

/-! ### Tokens up to their places -/

/-- A token without the places of the sources embedded in it. -/
def TokenKind.bare : TokenKind → TokenKind
  | template texts chunks => template texts (chunks.map fun c => { c with origin := default })
  | k => k

/-- The same token, at the same place of its line or another. -/
structure Token.Alike (t t' : Token) : Prop where
  kind : t'.kind.bare = t.kind.bare
  newline : t'.newlineBefore = t.newlineBefore

/-! ### Cuts -/

variable {c d : Cursor} {tail : List Char}

theorem Cursor.rest_skip (c : Cursor) (n : Nat) : (c.skip n).rest = c.rest.drop n := rfl

theorem le_of_cut (h : c.rest = d.rest ++ tail) {n : Nat}
    (hn : tail.length ≤ (c.skip n).rest.length) : n ≤ d.rest.length ∨ tail = [] := by
  rw [Cursor.length_rest_skip, h, List.length_append] at hn
  rcases Nat.eq_zero_or_pos tail.length with hzero | hpos
  · exact .inr (List.length_eq_zero_iff.1 hzero)
  · exact .inl (by omega)

theorem Cursor.skip_cut (h : c.rest = d.rest ++ tail) {n : Nat}
    (hn : tail.length ≤ (c.skip n).rest.length) :
    (c.skip n).rest = (d.skip n).rest ++ tail := by
  rw [rest_skip, rest_skip, h, List.drop_append]
  rcases le_of_cut h hn with hle | rfl
  · rw [Nat.sub_eq_zero_of_le hle, List.drop_zero]
  · rw [List.drop_nil]

theorem take_cut {cs : List Char} {n : Nat}
    (hle : ((cs ++ tail).take n).length ≤ cs.length ∨ tail = []) :
    (cs ++ tail).take n = cs.take n := by
  rcases hle with hle | rfl
  · rw [List.take_append]
    rw [List.length_take, List.length_append] at hle
    rcases Nat.le_total n cs.length with hn | hn
    · rw [Nat.sub_eq_zero_of_le hn, List.take_zero, List.append_nil]
    · rcases Nat.eq_zero_or_pos tail.length with hzero | hpos
      · rw [List.length_eq_zero_iff.1 hzero, List.take_nil, List.append_nil]
      · have : n = cs.length := by omega
        rw [this, Nat.sub_self, List.take_zero, List.append_nil]
  · rw [List.append_nil]

theorem takeWhile_cut {p : Char → Bool} {cs : List Char}
    (hle : ((cs ++ tail).takeWhile p).length ≤ cs.length ∨ tail = []) :
    (cs ++ tail).takeWhile p = cs.takeWhile p := by
  rcases hle with hle | rfl
  · rw [List.takeWhile_append] at hle ⊢
    split at hle
    · next hall =>
      rw [List.length_append] at hle
      rw [if_pos hall, List.length_eq_zero_iff.1 (by omega : (tail.takeWhile p).length = 0),
        List.append_nil]
      exact ((List.takeWhile_sublist p).eq_of_length hall).symm
    · next hall => rw [if_neg hall]
  · rw [List.append_nil]

theorem exists_cons_of_cut (h : c.rest = d.rest ++ tail) {n : Nat} (hlt : n < c.rest.length)
    (hle : tail.length ≤ n) {ch : Char} {rest : List Char} (hrest : c.rest = ch :: rest) :
    ∃ more, d.rest = ch :: more ∧ rest = more ++ tail := by
  cases hd : d.rest with
  | nil =>
    rw [h, hd, List.nil_append] at hlt
    omega
  | cons ch' more =>
    rw [h, hd] at hrest
    obtain ⟨rfl, rfl⟩ := List.cons.inj hrest
    exact ⟨more, rfl, rfl⟩

/-! ### Quoted texts -/

theorem hexChar_eq_ok {digits : List Char} {p : Position} {ch : Char}
    (h : hexChar digits p = .ok ch) (q : Position) : hexChar digits q = .ok ch := by
  unfold hexChar at h ⊢
  split at h
  · split at h
    · next hvalid => rw [if_pos hvalid]; exact h
    · cases h
  · cases h

theorem hexEscape_cut {digits : List Char} {n : Nat} (h : c.rest = d.rest ++ tail)
    {r : Option Char × Cursor}
    (hr : ((hexChar digits c.pos).map fun ch => (some ch, c.skip n)) = .ok r)
    (hle : tail.length ≤ r.2.rest.length) :
    (n ≤ d.rest.length ∨ tail = []) ∧
      ∃ d', ((hexChar digits d.pos).map fun ch => (some ch, d.skip n)) = .ok (r.1, d') ∧
        r.2.rest = d'.rest ++ tail := by
  cases hx : hexChar digits c.pos with
  | error e =>
    rw [hx] at hr
    cases hr
  | ok ch =>
    rw [hx] at hr
    cases hr
    rw [hexChar_eq_ok hx d.pos]
    exact ⟨le_of_cut h hle, d.skip n, rfl, Cursor.skip_cut h hle⟩

theorem readEscape_newline {more : List Char} (hd : d.rest = '\n' :: more) :
    readEscape d = .ok (none, d.skip 1) := by
  unfold readEscape
  rw [hd]
  rfl

theorem readEscape_x {more : List Char} (hd : d.rest = 'x' :: more) :
    readEscape d = (hexChar (more.take 2) d.pos).map fun ch =>
      (some ch, d.skip ((more.take 2).length + 1)) := by
  unfold readEscape readEscape.hex
  rw [hd]
  rfl

theorem readEscape_braces {more : List Char} (hd : d.rest = 'u' :: '\x7b' :: more) :
    readEscape d = (hexChar (more.takeWhile (· ≠ '\x7d')) d.pos).map
      fun ch => (some ch, d.skip ((more.takeWhile (· ≠ '\x7d')).length + 3)) := by
  unfold readEscape
  rw [hd]
  rfl

theorem readEscape_u {more : List Char} (hd : d.rest = 'u' :: more)
    (hbrace : ∀ more', more ≠ '\x7b' :: more') :
    readEscape d = (hexChar (more.take 4) d.pos).map fun ch =>
      (some ch, d.skip ((more.take 4).length + 1)) := by
  unfold readEscape readEscape.hex
  rw [hd]
  cases more with
  | nil => rfl
  | cons ch more =>
    split
    · next heq => cases heq
    · next heq => cases heq
    · next heq => cases heq
    · next heq =>
      cases heq
      exact (hbrace _ rfl).elim
    · next heq =>
      cases heq
      rfl
    · next hu heq =>
      cases heq
      exact (hu rfl).elim

theorem readEscape_self {ch : Char} {more : List Char} (hd : d.rest = ch :: more)
    (hline : ch ≠ '\n') (hx : ch ≠ 'x') (hu : ch ≠ 'u') :
    readEscape d = .ok (some ((namedEscape? ch).getD ch), d.skip 1) := by
  unfold readEscape
  rw [hd]
  split
  · next heq => cases heq
  · next heq => exact (hline (List.cons.inj heq).1).elim
  · next heq => exact (hx (List.cons.inj heq).1).elim
  · next heq => exact (hu (List.cons.inj heq).1).elim
  · next heq => exact (hu (List.cons.inj heq).1).elim
  · next heq => rw [(List.cons.inj heq).1]

theorem readEscape_cut (h : c.rest = d.rest ++ tail) {r : Option Char × Cursor}
    (hr : readEscape c = .ok r) (hle : tail.length ≤ r.2.rest.length) :
    ∃ d', readEscape d = .ok (r.1, d') ∧ r.2.rest = d'.rest ++ tail := by
  have hlt := readEscape_lt hr
  unfold readEscape readEscape.hex at hr
  split at hr
  · cases hr
  · next rest hc =>
    cases hr
    obtain ⟨more, hd, -⟩ := exists_cons_of_cut h hlt hle hc
    exact ⟨d.skip 1, readEscape_newline hd, Cursor.skip_cut h hle⟩
  · next rest hc =>
    obtain ⟨more, hd, rfl⟩ := exists_cons_of_cut h hlt hle hc
    obtain ⟨hn, d', hd', hrest⟩ := hexEscape_cut h hr hle
    rw [hd] at hn
    rw [take_cut (hn.imp_left Nat.le_of_succ_le_succ)] at hd'
    exact ⟨d', (readEscape_x hd).trans hd', hrest⟩
  · next rest hc =>
    obtain ⟨more, hd, hmore⟩ := exists_cons_of_cut h hlt hle hc
    obtain ⟨hn, d', hd', hrest⟩ := hexEscape_cut h hr hle
    -- The escape reaches behind the brace, so the cut does not part the two.
    obtain ⟨more, rfl⟩ : ∃ more', more = '\x7b' :: more' := by
      cases more with
      | nil =>
        rcases hn with hn | rfl
        · rw [hd] at hn
          simp at hn
        · cases hmore
      | cons ch more' => exact ⟨more', by rw [(List.cons.inj hmore).1]⟩
    obtain rfl : rest = more ++ tail := (List.cons.inj hmore).2
    rw [hd] at hn
    rw [takeWhile_cut (hn.imp_left fun hle =>
      Nat.le_of_succ_le (Nat.le_of_succ_le_succ (Nat.le_of_succ_le_succ hle)))] at hd'
    exact ⟨d', (readEscape_braces hd).trans hd', hrest⟩
  · next rest hbrace hc =>
    obtain ⟨more, hd, rfl⟩ := exists_cons_of_cut h hlt hle hc
    obtain ⟨hn, d', hd', hrest⟩ := hexEscape_cut h hr hle
    rw [hd] at hn
    rw [take_cut (hn.imp_left Nat.le_of_succ_le_succ)] at hd'
    have hbrace' : ∀ more', more ≠ '\x7b' :: more' := by
      rintro more' rfl
      exact hbrace (more' ++ tail) rfl
    exact ⟨d', (readEscape_u hd hbrace').trans hd', hrest⟩
  · next ch rest hline hx _ hu hc =>
    cases hr
    obtain ⟨more, hd, -⟩ := exists_cons_of_cut h hlt hle hc
    exact ⟨d.skip 1, readEscape_self hd hline hx hu, Cursor.skip_cut h hle⟩

theorem readQuoted_cons {quote ch : Char} {more : List Char}
    (hd : d.rest = ch :: more) (opened : Position)
    (acc : List Char) : readQuoted quote opened d acc =
      if ch = quote then .ok (String.ofList acc.reverse, d.skip 1)
      else if ch = '\n' then .error ⟨.unterminatedString, opened.here⟩
      else if ch = '\\' then
        match readEscape (d.skip 1) with
        | .error e => .error e
        | .ok r => readQuoted quote opened r.2 (r.1.toList ++ acc)
      else readQuoted quote opened (d.skip 1) (ch :: acc) := by
  rw [readQuoted]
  split
  · next heq =>
    rw [hd] at heq
    cases heq
  · next heq =>
    rw [hd] at heq
    obtain ⟨rfl, rfl⟩ := List.cons.inj heq
    cases readEscape (d.skip 1) <;> rfl

theorem readQuoted_cut {quote : Char} {opened : Position} {acc : List Char}
    (h : c.rest = d.rest ++ tail) {r : String × Cursor}
    (hr : readQuoted quote opened c acc = .ok r) (hle : tail.length ≤ r.2.rest.length)
    (opened' : Position) :
    ∃ d', readQuoted quote opened' d acc = .ok (r.1, d') ∧ r.2.rest = d'.rest ++ tail := by
  fun_induction readQuoted quote opened c acc generalizing d with
  | case1 => cases hr
  | case2 c acc rest hc =>
    cases hr
    obtain ⟨more, hd, -⟩ := exists_cons_of_cut h (by simp [hc]) hle hc
    refine ⟨d.skip 1, ?_, Cursor.skip_cut h hle⟩
    rw [readQuoted_cons hd, if_pos rfl]
  | case3 => cases hr
  | case4 => cases hr
  | case5 c acc rest e he hc hquote hline ih =>
    have hrest := readQuoted_le hr
    have hescape := readEscape_lt he
    have hskip : (c.skip 1).rest.length < c.rest.length := by simp [hc]
    obtain ⟨more, hd, -⟩ := exists_cons_of_cut h hskip (by omega) hc
    obtain ⟨d₁, hd₁, h₁⟩ := readEscape_cut (Cursor.skip_cut h (by omega)) he (by omega)
    obtain ⟨d₂, hd₂, h₂⟩ := ih h₁ hr
    refine ⟨d₂, ?_, h₂⟩
    rw [readQuoted_cons hd, if_neg hquote, if_neg hline, if_pos rfl, hd₁]
    exact hd₂
  | case6 c acc ch rest hc hquote hline hslash ih =>
    have hrest := readQuoted_le hr
    have hskip : (c.skip 1).rest.length < c.rest.length := by simp [hc]
    obtain ⟨more, hd, -⟩ := exists_cons_of_cut h hskip (by omega) hc
    obtain ⟨d₁, hd₁, h₁⟩ := ih (Cursor.skip_cut h (by omega)) hr
    refine ⟨d₁, ?_, h₁⟩
    rw [readQuoted_cons hd, if_neg hquote, if_neg hline, if_neg hslash]
    exact hd₁

/-! ### Templates -/

theorem chunkChars_cut {depth : Nat} {cs chunk : List Char}
    (h : chunkChars depth (cs ++ tail) = some chunk)
    (hlt : chunk.length < cs.length ∨ tail = []) : chunkChars depth cs = some chunk := by
  rcases hlt with hlt | rfl
  · have hcons : ∀ {ch : Char} {o o' : Option (List Char)} {n : Nat} {chunk : List Char},
        (∀ chunk', o = some chunk' → chunk'.length < n → o' = some chunk') →
        o.map (ch :: ·) = some chunk →
          chunk.length < n + 1 → o'.map (ch :: ·) = some chunk := by
      intro ch o o' n chunk ho hmap hn
      obtain ⟨chunk', hchunk', rfl⟩ := Option.map_eq_some_iff.1 hmap
      rw [ho chunk' hchunk' (Nat.lt_of_succ_lt_succ hn)]
      rfl
    induction cs generalizing depth chunk with
    | nil => cases hlt
    | cons ch cs ih =>
      rw [List.cons_append] at h
      unfold chunkChars at h ⊢
      split
      · next hopen =>
        rw [if_pos hopen] at h
        exact hcons (fun _ h' hlt' => ih h' hlt') h hlt
      · next hopen =>
        rw [if_neg hopen] at h
        split
        · next hclose =>
          rw [if_pos hclose] at h
          cases depth with
          | zero => exact h
          | succ depth => exact hcons (fun _ h' hlt' => ih h' hlt') h hlt
        · next hclose =>
          rw [if_neg hclose] at h
          exact hcons (fun _ h' hlt' => ih h' hlt') h hlt
  · rwa [List.append_nil] at h

/-- Pieces of a template that differ only in the places of the embedded sources. -/
structure TemplateParts.Alike (t t' : TemplateParts) : Prop where
  texts : t'.texts = t.texts
  chunks : t'.chunks.map (·.source) = t.chunks.map (·.source)
  current : t'.current = t.current

theorem TemplateParts.Alike.toKind {t t' : TemplateParts} (h : t.Alike t') :
    t'.toKind.bare = t.toKind.bare := by
  have hchunks : ∀ cs : List Chunk,
      (cs.reverse.map fun c => ({ c with origin := default } : Chunk)) =
      ((cs.map (·.source)).map fun text => (⟨text, default⟩ : Chunk)).reverse := by
    intro cs
    rw [List.map_map, ← List.map_reverse]
    rfl
  simp only [TemplateParts.toKind, TokenKind.bare, hchunks, h.texts, h.chunks, h.current]

theorem TemplateParts.Alike.addChars {t t' : TemplateParts} (h : t.Alike t')
    (cs : List Char) : (t.addChars cs).Alike (t'.addChars cs) :=
  ⟨h.texts, h.chunks, by simp only [TemplateParts.addChars, h.current]⟩

theorem readTemplate_open {more : List Char} (hd : d.rest = '$' :: '\x7b' :: more)
    (opened : Position) (t : TemplateParts) : readTemplate opened d t =
      match chunkChars 0 more with
      | none => .error ⟨.unterminatedTemplate, opened.here⟩
      | some chunk => readTemplate opened (d.skip (chunk.length + 3))
          (t.addChunk ⟨String.ofList chunk, (d.skip 2).pos.here⟩) := by
  rw [readTemplate]
  split
  · next heq =>
    rw [hd] at heq
    cases heq
  · next heq =>
    rw [hd] at heq
    cases heq
    rfl
  · next hne heq =>
    rw [hd] at heq
    cases heq
    exact (hne _ rfl rfl).elim

theorem readTemplate_cons {ch : Char} {more : List Char} (hd : d.rest = ch :: more)
    (hopen : ∀ more', ch = '$' → more ≠ '\x7b' :: more')
      (opened : Position) (t : TemplateParts) :
    readTemplate opened d t =
      if ch = '\x60' then .ok (t.toKind, d.skip 1)
      else if ch = '\\' then
        match readEscape (d.skip 1) with
        | .error e => .error e
        | .ok r => readTemplate opened r.2 (t.addChars r.1.toList)
      else readTemplate opened (d.skip 1) (t.addChars [ch]) := by
  rw [readTemplate]
  split
  · next heq =>
    rw [hd] at heq
    cases heq
  · next heq =>
    rw [hd] at heq
    cases heq
    exact (hopen _ rfl rfl).elim
  · next heq =>
    rw [hd] at heq
    obtain ⟨rfl, rfl⟩ := List.cons.inj heq
    cases readEscape (d.skip 1) <;> rfl

theorem readTemplate_cut {opened : Position} {t t' : TemplateParts}
    (h : c.rest = d.rest ++ tail) (ht : t.Alike t') {r : TokenKind × Cursor}
    (hr : readTemplate opened c t = .ok r) (hle : tail.length ≤ r.2.rest.length)
    (opened' : Position) :
    ∃ k d', readTemplate opened' d t' = .ok (k, d') ∧ k.bare = r.1.bare ∧
      r.2.rest = d'.rest ++ tail := by
  fun_induction readTemplate opened c t generalizing d t' with
  | case1 => cases hr
  | case2 => cases hr
  | case3 c t rest hc chunk hchunk ih =>
    have hrest := readTemplate_le hr
    have hskip : (c.skip (chunk.length + 3)).rest.length < c.rest.length := by
      simp [hc]; omega
    have hcut := le_of_cut h (Nat.le_trans hle hrest)
    obtain ⟨more₁, hd, hmore⟩ := exists_cons_of_cut h hskip (by omega) hc
    -- The chunk and its closing brace are passed too, so the cut does not part the two marks
    -- that open it.
    obtain ⟨more, rfl, rfl⟩ : ∃ more, more₁ = '\x7b' :: more ∧ rest = more ++ tail := by
      cases more₁ with
      | nil =>
        rcases hcut with hlt | rfl
        · rw [hd, List.length_singleton] at hlt
          omega
        · cases hmore
      | cons ch more =>
        obtain ⟨rfl, rfl⟩ := List.cons.inj hmore
        exact ⟨more, rfl, rfl⟩
    have hchunk' : chunkChars 0 more = some chunk := by
      refine chunkChars_cut hchunk (hcut.imp_left fun hlt => ?_)
      rw [hd, List.length_cons, List.length_cons] at hlt
      omega
    have ht' : (t.addChunk ⟨String.ofList chunk, (c.skip 2).pos.here⟩).Alike
        (t'.addChunk ⟨String.ofList chunk, (d.skip 2).pos.here⟩) :=
      ⟨by simp only [TemplateParts.addChunk, ht.texts, ht.current],
        by simp [TemplateParts.addChunk, ht.chunks], rfl⟩
    rw [readTemplate_open hd, hchunk']
    exact ih (Cursor.skip_cut h (Nat.le_trans hle hrest)) ht' hr
  | case4 c t rest hopen hc =>
    cases hr
    obtain ⟨more, hd, -⟩ := exists_cons_of_cut h (by simp [hc]) hle hc
    refine ⟨t'.toKind, d.skip 1, ?_, ht.toKind, Cursor.skip_cut h hle⟩
    rw [readTemplate_cons hd (fun _ heq => by cases heq), if_pos rfl]
  | case5 => cases hr
  | case6 c t rest e he hopen hc hquote ih =>
    have hrest := readTemplate_le hr
    have hescape := readEscape_lt he
    have hskip : (c.skip 1).rest.length < c.rest.length := by simp [hc]
    obtain ⟨more, hd, -⟩ := exists_cons_of_cut h hskip (by omega) hc
    obtain ⟨d₁, hd₁, h₁⟩ := readEscape_cut (Cursor.skip_cut h (by omega)) he (by omega)
    rw [readTemplate_cons hd (fun _ heq => by cases heq), if_neg hquote, if_pos rfl, hd₁]
    exact ih h₁ (ht.addChars _) hr
  | case7 c t ch rest hopen hc hquote hslash ih =>
    have hrest := readTemplate_le hr
    have hskip : (c.skip 1).rest.length < c.rest.length := by simp [hc]
    obtain ⟨more, hd, rfl⟩ := exists_cons_of_cut h hskip (by omega) hc
    rw [readTemplate_cons hd fun more' hch hmore =>
      hopen (more' ++ tail) hch (by rw [hmore]; rfl), if_neg hquote,
      if_neg hslash]
    exact ih (Cursor.skip_cut h (by omega)) (ht.addChars _) hr

/-! ### Numerals and symbols -/

section

variable {point power : Bool} {ch : Char} {cs : List Char}

theorem decimalRun_digit (h : ch.isDigit = true) :
    decimalRun point power (ch :: cs) = (decimalRun point power cs).keep [ch] := by
  rw [decimalRun.eq_def]
  exact if_pos h

theorem decimalRun_underscore :
    decimalRun point power ('_' :: cs) = (decimalRun point power cs).pass := by
  rw [decimalRun.eq_def]
  rfl

theorem decimalRun_point (hdigit : ¬ ch.isDigit = true) (hunder : ch ≠ '_')
    (h : (ch = '.' && !point && !power) = true) :
    decimalRun point power (ch :: cs) = (decimalRun true power cs).keep [ch] := by
  rw [decimalRun.eq_def]
  dsimp only
  rw [if_neg hdigit, if_neg hunder, if_pos h]

/-- Behind the mark of an exponent its sign belongs to the mark. -/
theorem decimalRun_power (hdigit : ¬ ch.isDigit = true) (hunder : ch ≠ '_')
    (hpoint : ¬ (ch = '.' && !point && !power) = true)
    (h : ((ch = 'e' || ch = 'E') && !power) = true) :
    decimalRun point power (ch :: cs) =
      match cs with
      | sign :: more =>
        if sign = '+' || sign = '-' then (decimalRun point true more).keep [ch, sign]
        else (decimalRun point true (sign :: more)).keep [ch]
      | [] => ⟨[ch], 1⟩ := by
  rw [decimalRun.eq_def]
  dsimp only
  rw [if_neg hdigit, if_neg hunder, if_neg hpoint]
  exact if_pos h

theorem decimalRun_eq_of_passed (h : (decimalRun point power cs).passed = 0) :
    decimalRun point power cs = ⟨[], 0⟩ := by
  unfold decimalRun at h ⊢
  grind [CharRun.keep, CharRun.pass]

/-- A numeral that ends before the cut is the same without what is cut off. -/
theorem decimalRun_cut (hle : (decimalRun point power (cs ++ tail)).passed ≤ cs.length) :
    decimalRun point power cs = decimalRun point power (cs ++ tail) := by
  fun_induction decimalRun point power cs with
  | case1 => exact (decimalRun_eq_of_passed (Nat.le_zero.1 hle)).symm
  | case2 point power c rest hdigit ih =>
    rw [List.cons_append, decimalRun_digit hdigit] at hle ⊢
    rw [ih (Nat.le_of_succ_le_succ hle)]
  | case3 point power rest hdigit ih =>
    rw [List.cons_append, decimalRun_underscore] at hle ⊢
    rw [ih (Nat.le_of_succ_le_succ hle)]
  | case4 point power c rest hdigit hunder hpoint ih =>
    rw [List.cons_append, decimalRun_point hdigit hunder hpoint] at hle ⊢
    rw [ih (Nat.le_of_succ_le_succ hle)]
  | case5 point power c hdigit hunder hpoint hpower sign more hsign ih =>
    rw [List.cons_append, List.cons_append, decimalRun_power hdigit hunder hpoint hpower]
      at hle ⊢
    dsimp only at hle ⊢
    rw [if_pos hsign] at hle ⊢
    rw [ih (Nat.le_of_succ_le_succ (Nat.le_of_succ_le_succ hle))]
  | case6 point power c hdigit hunder hpoint hpower sign more hsign ih =>
    rw [List.cons_append, List.cons_append, decimalRun_power hdigit hunder hpoint hpower]
      at hle ⊢
    dsimp only at hle ⊢
    rw [if_neg hsign, ← List.cons_append] at hle ⊢
    rw [ih (Nat.le_of_succ_le_succ hle)]
  | case7 point power c hdigit hunder hpoint hpower =>
    rw [List.singleton_append, decimalRun_power hdigit hunder hpoint hpower] at hle ⊢
    cases tail with
    | nil => rfl
    | cons sign more =>
      -- The mark is the last character before the cut, so a sign behind it is not passed.
      dsimp only at hle ⊢
      split at hle
      · exact absurd (Nat.le_of_succ_le_succ hle) (Nat.not_succ_le_zero _)
      · next hsign =>
          rw [if_neg hsign,
            decimalRun_eq_of_passed (Nat.le_zero.1 (Nat.le_of_succ_le_succ hle))]; rfl
  | case8 point power c rest hdigit hunder hpoint hpower =>
    rw [List.cons_append, decimalRun.eq_def]
    dsimp only
    rw [if_neg hdigit, if_neg hunder, if_neg hpoint, if_neg hpower]

end

theorem markedBase?_cut {cs : List Char} (h : 2 ≤ cs.length) :
    markedBase? (cs ++ tail) = markedBase? cs := by
  obtain _ | ⟨c, _ | ⟨mark, rest⟩⟩ := cs
  · cases h
  · cases h with | step h => cases h
  · by_cases hc : c = '0'
    · subst hc
      rfl
    · simp [markedBase?, hc]

theorem markedBase?_eq_none {cs : List Char} (h : cs.length < 2) : markedBase? cs = none := by
  unfold markedBase?
  split
  · exact absurd h (Nat.not_lt.2 (Nat.le_add_left 2 _))
  · rfl

theorem readNumeral_cut {cs : List Char} {r : Float × Nat}
    (h : readNumeral (cs ++ tail) = .ok r) (hle : r.2 ≤ cs.length ∨ tail = []) :
    readNumeral cs = .ok r := by
  rcases hle with hle | rfl
  case inr => rwa [List.append_nil] at h
  unfold readNumeral at h ⊢
  split at h
  · next base hbase =>
    dsimp only at h
    split at h
    · next value hvalue =>
      cases h
      -- The mark of a base has two characters, which are passed with the digits.
      have hlength : 2 ≤ cs.length := Nat.le_trans (Nat.le_add_left 2 _) hle
      have hdrop : (cs ++ tail).drop 2 = cs.drop 2 ++ tail :=
        List.drop_append_of_le_length hlength
      have hrun : radixRun base ((cs ++ tail).drop 2) = radixRun base (cs.drop 2) := by
        rw [hdrop] at hle ⊢
        simp only [radixRun] at hle ⊢
        rw [takeWhile_cut (.inl (by rw [List.length_drop]; omega))]
      rw [markedBase?_cut hlength] at hbase
      rw [hrun] at hvalue ⊢
      rw [hbase]
      dsimp only
      rw [hvalue]
    · cases h
  · next hbase =>
    dsimp only at h
    split at h
    · next value hvalue =>
      cases h
      -- A part of fewer than two characters has no mark, and a longer one has the two of the
      -- whole text.
      have hnone : markedBase? cs = none := by
        rcases Nat.lt_or_ge cs.length 2 with hlt | hge
        · exact markedBase?_eq_none hlt
        · rw [← markedBase?_cut hge, hbase]
      have hrun := decimalRun_cut hle
      rw [hnone]
      dsimp only
      rw [hrun, hvalue]
    · cases h

theorem Symbol.leading?_cut {cs : List Char} {s : Symbol}
    (h : Symbol.leading? (cs ++ tail) = some s)
    (hle : s.text.length ≤ cs.length ∨ tail = []) : Symbol.leading? cs = some s := by
  rcases hle with hle | rfl
  case inr => rwa [List.append_nil] at h
  unfold Symbol.leading? at h ⊢
  rw [List.find?_eq_some_iff_append] at h ⊢
  obtain ⟨hfits, before, after, hall, hbefore⟩ := h
  have hprefix : s.text.toList <+: cs ++ tail := List.isPrefixOf_iff_prefix.1 hfits
  rw [← String.length_toList] at hle
  refine ⟨List.isPrefixOf_iff_prefix.2
    (List.prefix_of_prefix_length_le hprefix (List.prefix_append _ _) hle), before,
    after, hall, fun s' hs' => ?_⟩
  -- A symbol that fits the beginning fits the whole.
  have hnot := hbefore s' hs'
  rw [Bool.not_eq_true', ← Bool.not_eq_true, List.isPrefixOf_iff_prefix] at hnot ⊢
  exact fun hcut => hnot (hcut.trans (List.prefix_append _ _))

/-- A point starts a numeral only together with the digit behind it. -/
theorem startsNumeral_cut {first : Char} {rest : List Char} {r : Float × Nat}
    (h : startsNumeral first (rest ++ tail) = true)
    (hr : readNumeral (first :: (rest ++ tail)) = .ok r)
    (hle : r.2 ≤ (first :: rest).length ∨ tail = []) : startsNumeral first rest = true := by
  rcases hle with hle | rfl
  case inr => rwa [List.append_nil] at h
  cases rest with
  | cons c rest => exact h
  | nil =>
    simp only [startsNumeral, Bool.or_eq_true, Bool.and_eq_true,
      decide_eq_true_eq, List.nil_append, List.head?_nil, Option.any_none, Bool.false_eq_true,
      and_false, or_false] at h ⊢
    rcases h with hdigit | ⟨rfl, hdigit⟩
    · exact hdigit
    · obtain ⟨d, hd, hd'⟩ := (Option.any_eq_true _ _).1 hdigit
      obtain ⟨more, rfl⟩ := List.head?_eq_some_iff.1 hd
      have hrun : decimalRun false false ('.' :: d :: more) =
          ((decimalRun true false more).keep [d]).keep ['.'] := by
        rw [← decimalRun_digit hd']
        rfl
      have hnone : markedBase? ('.' :: d :: more) = none := rfl
      simp only [readNumeral, List.nil_append, hnone, hrun] at hr
      split at hr
      · cases hr
        simp [CharRun.keep] at hle
      · cases hr

/-- A token is read again from its characters alone. -/
theorem scanToken_cut {first : Char} {rest : List Char} {p : Position}
    {r : TokenKind × Cursor} (h : scanToken first (rest ++ tail) p = .ok r)
    (hle : tail.length ≤ r.2.rest.length) (q : Position) :
    ∃ k d, scanToken first rest q = .ok (k, d) ∧ k.bare = r.1.bare ∧
      r.2.rest = d.rest ++ tail := by
  have hskip : ∀ {n : Nat},
      tail.length ≤ ((⟨first :: (rest ++ tail), p⟩ : Cursor).skip n).rest.length →
      ((⟨first :: (rest ++ tail), p⟩ : Cursor).skip n).rest =
        ((⟨first :: rest, q⟩ : Cursor).skip n).rest ++ tail :=
        fun hn => Cursor.skip_cut rfl hn
  unfold scanToken at h ⊢
  dsimp only at h ⊢
  split at h
  · next hquote =>
    rw [if_pos hquote]
    split at h
    · next r' hr' =>
      cases h
      obtain ⟨d, hd, hrest⟩ := readQuoted_cut (hskip (by simp)) hr' hle q
      exact ⟨.string r'.1, d, by rw [hd], rfl, hrest⟩
    · cases h
  next hquote =>
  rw [if_neg hquote]
  split at h
  · next htemplate =>
    rw [if_pos htemplate]
    exact readTemplate_cut (hskip (by simp)) ⟨rfl, rfl, rfl⟩ h hle q
  next htemplate =>
  rw [if_neg htemplate]
  split at h
  · next hnumeral =>
    split at h
    · next r' hr' =>
      cases h
      have hn := le_of_cut (d := ⟨first :: rest, q⟩) rfl hle
      have hr : readNumeral (first :: rest) = .ok r' := readNumeral_cut hr' hn
      rw [if_pos (startsNumeral_cut hnumeral hr' hn), hr]
      exact ⟨.number r'.1, _, rfl, rfl, hskip hle⟩
    · cases h
  next hnumeral =>
  -- Without a character behind it only a digit begins a numeral, and it does so in the whole
  -- text too.
  have hstarts : ¬ startsNumeral first rest = true := by
    cases rest with
    | nil => simp_all [startsNumeral]
    | cons c rest => exact hnumeral
  rw [if_neg hstarts]
  split at h
  · next hname =>
    cases h
    rw [if_pos hname]
    have hword : (first :: (rest ++ tail)).takeWhile isNamePart =
        (first :: rest).takeWhile isNamePart := by
      rw [← List.cons_append] at hle ⊢
      exact takeWhile_cut (le_of_cut (d := ⟨first :: rest, q⟩) rfl hle)
    rw [hword] at hle ⊢
    exact ⟨_, _, rfl, rfl, hskip hle⟩
  next hname =>
  rw [if_neg hname]
  split at h
  · next s hs =>
    cases h
    have hleading : Symbol.leading? (first :: rest) = some s :=
      Symbol.leading?_cut hs (le_of_cut (d := ⟨first :: rest, q⟩) rfl hle)
    rw [hleading]
    exact ⟨_, _, rfl, rfl, hskip hle⟩
  · cases h

/-! ### Gaps -/

/-- The same part of a gap, whatever comments were opened. -/
def GapMode.bare : GapMode → GapMode
  | blockComment _ => blockComment default
  | insideMark following => insideMark following.bare
  | mode => mode

theorem GapMode.bare_insideMark {mode following : GapMode}
    (h : mode.bare = (insideMark following).bare) :
    ∃ following', mode = insideMark following' ∧ following'.bare = following.bare := by
  cases mode with
  | insideMark following' => exact ⟨following', rfl, by simpa [GapMode.bare] using h⟩
  | _ => simp [GapMode.bare] at h

theorem GapMode.bare_blockComment {mode : GapMode} {opened : Position}
    (h : mode.bare = (blockComment opened).bare) :
    ∃ opened', mode = blockComment opened' := by
  cases mode with
  | blockComment opened' => exact ⟨opened', rfl⟩
  | _ => simp [GapMode.bare] at h

theorem GapMode.bare_lineComment {mode : GapMode} (h : mode.bare = lineComment.bare) :
    mode = lineComment := by
  cases mode with
  | lineComment => rfl
  | _ => simp [GapMode.bare] at h

theorem GapMode.bare_between {mode : GapMode} (h : mode.bare = between.bare) :
    mode = between := by
  cases mode with
  | between => rfl
  | _ => simp [GapMode.bare] at h

theorem cons_of_append_eq {n : Nat} (hlt : tail.length < n ∨ tail = []) {c : Char}
    {cs rest : List Char} (hle : n ≤ (c :: rest).length) (h : c :: rest = cs ++ tail) :
    ∃ cs', cs = c :: cs' ∧ rest = cs' ++ tail := by
  cases cs with
  | nil =>
    rw [h, List.nil_append] at hle
    rcases hlt with hlt | rfl
    · omega
    · cases h
  | cons c' cs' =>
    obtain ⟨rfl, rfl⟩ := List.cons.inj h
    exact ⟨cs', rfl, rfl⟩

theorem head?_of_cut {n : Nat} (hlt : tail.length < n ∨ tail = []) {cs : List Char}
    (hle : n ≤ (cs ++ tail).length) : (cs ++ tail).head? = cs.head? := by
  rcases hlt with hlt | rfl
  · cases cs with
    | nil =>
      rw [List.nil_append] at hle
      omega
    | cons c cs => rfl
  · rw [List.append_nil]

/-- Reading a gap looks one character ahead, so at least the character that ends the gap must
be left before the cut, unless nothing is cut off. -/
theorem gapFrom_cut {mode mode' : GapMode} {newline : Bool} {p q : Position}
    {cs full : List Char} {r : Cursor × Bool} (h : gapFrom mode newline p full = .ok r)
    (hfull : full = cs ++ tail) (hlt : tail.length < r.1.rest.length ∨ tail = [])
    (hmode : mode'.bare = mode.bare) :
    ∃ d, gapFrom mode' newline q cs = .ok (d, r.2) ∧ r.1.rest = d.rest ++ tail := by
  have hle := gapFrom_le h
  fun_induction gapFrom mode newline p full generalizing mode' q cs with
  | case1 => cases h
  | case2 mode newline p hblock =>
    cases h
    -- The whole text is empty here, and so is its part.
    obtain ⟨rfl, rfl⟩ := List.append_eq_nil_iff.1 hfull.symm
    refine ⟨⟨[], q⟩, ?_, rfl⟩
    unfold gapFrom
    split
    · obtain ⟨opened, rfl⟩ := GapMode.bare_blockComment hmode.symm
      exact (hblock opened rfl).elim
    · rfl
  | case3 newline p c rest following ih =>
    -- What is passed here stands before the cut, so the part has this character too, and the
    -- one behind it.
    obtain ⟨cs, rfl, rfl⟩ := cons_of_append_eq hlt hle hfull
    obtain ⟨following', rfl, hfollowing⟩ := GapMode.bare_insideMark hmode
    rw [gapFrom]
    exact ih h rfl hfollowing (gapFrom_le h)
  | case4 newline p rest ih =>
    obtain ⟨cs, rfl, rfl⟩ := cons_of_append_eq hlt hle hfull
    obtain rfl := GapMode.bare_lineComment hmode
    rw [gapFrom, if_pos rfl]
    exact ih h rfl rfl (gapFrom_le h)
  | case5 newline p c rest hc ih =>
    obtain ⟨cs, rfl, rfl⟩ := cons_of_append_eq hlt hle hfull
    obtain rfl := GapMode.bare_lineComment hmode
    rw [gapFrom, if_neg hc]
    exact ih h rfl rfl (gapFrom_le h)
  | case6 newline p c rest opened hmark ih =>
    obtain ⟨cs, rfl, rfl⟩ := cons_of_append_eq hlt hle hfull
    obtain ⟨opened', rfl⟩ := GapMode.bare_blockComment hmode
    rw [head?_of_cut hlt (gapFrom_le h)] at hmark
    rw [gapFrom, if_pos hmark]
    exact ih h rfl rfl (gapFrom_le h)
  | case7 newline p c rest opened hmark ih =>
    obtain ⟨cs, rfl, rfl⟩ := cons_of_append_eq hlt hle hfull
    obtain ⟨opened', rfl⟩ := GapMode.bare_blockComment hmode
    rw [head?_of_cut hlt (gapFrom_le h)] at hmark
    rw [gapFrom, if_neg hmark]
    exact ih h rfl rfl (gapFrom_le h)
  | case8 newline p c rest hmark ih =>
    obtain ⟨cs, rfl, rfl⟩ := cons_of_append_eq hlt hle hfull
    obtain rfl := GapMode.bare_between hmode
    rw [head?_of_cut hlt (gapFrom_le h)] at hmark
    rw [gapFrom, if_pos hmark]
    exact ih h rfl rfl (gapFrom_le h)
  | case9 newline p c rest hline hmark ih =>
    obtain ⟨cs, rfl, rfl⟩ := cons_of_append_eq hlt hle hfull
    obtain rfl := GapMode.bare_between hmode
    rw [head?_of_cut hlt (gapFrom_le h)] at hline hmark
    rw [gapFrom, if_neg hline, if_pos hmark]
    exact ih h rfl rfl (gapFrom_le h)
  | case10 newline p c rest hline hblock hblank ih =>
    obtain ⟨cs, rfl, rfl⟩ := cons_of_append_eq hlt hle hfull
    obtain rfl := GapMode.bare_between hmode
    rw [head?_of_cut hlt (gapFrom_le h)] at hline hblock
    rw [gapFrom, if_neg hline, if_neg hblock, if_pos hblank]
    exact ih h rfl rfl (gapFrom_le h)
  | case11 newline p c rest hline hblock hblank =>
    cases h
    obtain ⟨cs, rfl, rfl⟩ := cons_of_append_eq hlt hle hfull
    obtain rfl := GapMode.bare_between hmode
    -- The gap ends here. A mark that the part opens would be a mark in the whole text.
    have hhead : ∀ {x : Char}, cs.head? = some x → (cs ++ tail).head? = some x := by
      intro x hx
      rw [List.head?_append, hx]
      rfl
    refine ⟨⟨c :: cs, q⟩, ?_, rfl⟩
    rw [gapFrom, if_neg fun hmark => hline ⟨hmark.1, hhead hmark.2⟩, if_neg fun hmark =>
      hblock ⟨hmark.1, hhead hmark.2⟩, if_neg hblank]

/-! ### Tokens -/

theorem skipGap_cut (h : c.rest = d.rest ++ tail) {c' : Cursor} {newline : Bool}
    (hgap : skipGap c = .ok (c', newline)) (hlt : tail.length < c'.rest.length ∨ tail = []) :
    ∃ d', skipGap d = .ok (d', newline) ∧ c'.rest = d'.rest ++ tail :=
  gapFrom_cut hgap h hlt rfl

theorem tokensFrom_eq {d' d'' : Cursor} {newline : Bool}
    (hgap : skipGap d = .ok (d', newline)) {first : Char} {rest : List Char}
    (hrest : d'.rest = first :: rest) {k : TokenKind}
    (hscan : scanToken first rest d'.pos = .ok (k, d'')) {ts : Tokens}
    (hts : tokensFrom d'' = .ok ts) :
    tokensFrom d = .ok { ts with body := ⟨k, d'.pos.upTo d''.pos, newline⟩ :: ts.body } := by
  rw [tokensFrom]
  split
  · next he =>
    rw [hgap] at he
    cases he
  · next c' newline' hgap' =>
    rw [hgap] at hgap'
    cases hgap'
    split
    · next hnil =>
      rw [hrest] at hnil
      cases hnil
    · next first' rest' hrest' =>
      rw [hrest] at hrest'
      cases hrest'
      split
      · next he =>
        rw [hscan] at he
        cases he
      · next hscan' =>
        rw [hscan] at hscan'
        cases hscan'
        rw [hts]

theorem tokensFrom_eq_nil {d' : Cursor} {newline : Bool}
    (hgap : skipGap d = .ok (d', newline)) (hrest : d'.rest = []) :
    tokensFrom d = .ok ⟨[], ⟨.finish, d'.pos.here, newline⟩⟩ := by
  rw [tokensFrom]
  split
  · next he =>
    rw [hgap] at he
    cases he
  · next c' newline' hgap' =>
    rw [hgap] at hgap'
    cases hgap'
    split
    · rfl
    · next hrest' =>
      rw [hrest] at hrest'
      cases hrest'

/-- A text has the same tokens wherever it stands. -/
theorem tokensFrom_moved {ts : Tokens} (h : tokensFrom c = .ok ts) (hd : d.rest = c.rest) :
    ∃ ts', tokensFrom d = .ok ts' ∧ List.Forall₂ Token.Alike ts.body ts'.body ∧
      ts'.final.kind = .finish := by
  fun_induction tokensFrom c generalizing d ts with
  | case1 => cases h
  | case2 c c' newline hgap hend =>
    have hcut : c.rest = d.rest ++ [] := by rw [List.append_nil, hd]
    obtain ⟨d', hgap', hrest⟩ := skipGap_cut hcut hgap (.inr rfl)
    rw [List.append_nil] at hrest
    cases h
    exact ⟨_, tokensFrom_eq_nil hgap' (hrest ▸ hend), .nil, rfl⟩
  | case3 => cases h
  | case4 => cases h
  | case5 c c' newline hgap first rest hrest kind c'' hscan ts hts ih =>
    cases h
    have hcut : c.rest = d.rest ++ [] := by rw [List.append_nil, hd]
    obtain ⟨d', hgap', hrest'⟩ := skipGap_cut hcut hgap (.inr rfl)
    rw [List.append_nil] at hrest'
    rw [← List.append_nil rest] at hscan
    obtain ⟨k, d'', hscan', hk, hrest''⟩ := scanToken_cut hscan (Nat.zero_le _) d'.pos
    rw [List.append_nil] at hrest''
    obtain ⟨ts', hts', halike, hfinal⟩ := ih hts hrest''.symm
    exact ⟨_, tokensFrom_eq hgap' (hrest' ▸ hrest) hscan' hts',
      .cons ⟨hk, rfl⟩ halike, hfinal⟩

theorem Cursor.In.exists_taken {text behind : List Char} {lo lo' : Nat} {c' : Cursor}
    (h : c.In text behind lo) (h' : c'.In text behind lo')
    (hle : c.pos.offset ≤ c'.pos.offset) : ∃ taken, c.rest = taken ++ c'.rest := by
  obtain ⟨before, htext, -⟩ := h.place
  obtain ⟨before', htext', -⟩ := h'.place
  have hoffset := h.offset_eq
  have hoffset' := h'.offset_eq
  have hsuffix : c'.rest ++ behind <:+ c.rest ++ behind :=
    List.suffix_of_suffix_length_le ⟨before', htext'.symm⟩ ⟨before, htext.symm⟩
      (by simp only [List.length_append]; omega)
  obtain ⟨taken, htaken⟩ := hsuffix
  rw [← List.append_assoc] at htaken
  exact ⟨taken, (List.append_cancel_right htaken).symm⟩

/-- The first tokens of a text are the tokens of its part up to the last of them. -/
theorem tokensFrom_cut {text behind : List Char} {lo : Nat} (hc : c.In text behind lo)
    {ts : Tokens} (h : tokensFrom c = .ok ts) {inner more : List Token}
    (hbody : ts.body = inner ++ more) :
    ∃ cut tail, c.rest = cut ++ tail ∧
      c.pos.offset + cut.length = (inner.map (·.loc.stop)).getLastD c.pos.offset ∧
      ∀ q, ∃ ts', tokensFrom ⟨cut, q⟩ = .ok ts' ∧ List.Forall₂ Token.Alike inner ts'.body ∧
        ts'.final.kind = .finish := by
  -- Where no more tokens are asked for, the part is empty, and an empty text has no token but
  -- the last one.
  have hempty : ∀ q, tokensFrom ⟨[], q⟩ = .ok ⟨[], ⟨.finish, q.here, false⟩⟩ := by
    intro q
    have hgap : skipGap ⟨[], q⟩ = .ok (⟨[], q⟩, false) := rfl
    exact tokensFrom_eq_nil hgap rfl
  fun_induction tokensFrom c generalizing lo ts inner with
  | case1 => cases h
  | case2 c c' newline hgap hend =>
    cases h
    obtain ⟨rfl, rfl⟩ := List.append_eq_nil_iff.1 hbody.symm
    exact ⟨[], c.rest, rfl, rfl, fun q => ⟨_, hempty q, .nil, rfl⟩⟩
  | case3 => cases h
  | case4 => cases h
  | case5 c c' newline hgap first rest hrest kind c'' hscan ts hts ih =>
    cases h
    cases inner with
    | nil => exact ⟨[], c.rest, rfl, rfl, fun q => ⟨_, hempty q, .nil, rfl⟩⟩
    | cons t inner =>
      obtain ⟨rfl, hinner⟩ := List.cons.inj hbody
      have hc' := skipGap_reads hc.from_here
      rw [hgap] at hc'
      have hc'' := Cursor.In.scanToken hc' hrest
      rw [hscan] at hc''
      have hlt := scanToken_lt hscan
      rw [← hrest] at hlt
      -- The part is a gap, the characters of one token, and what the tokens behind it take.
      obtain ⟨gap, hgaps⟩ := hc.exists_taken hc' hc'.lo_le
      obtain ⟨taken, htaken⟩ := Cursor.In.exists_taken hc' hc''.1 hc''.1.lo_le
      obtain ⟨cut, tail, hcut, hlength, hcuts⟩ := ih hc''.1 hts hinner
      have htail : tail.length < c'.rest.length := by
        rw [hcut, List.length_append] at hlt
        omega
      have hrest₀ : c.rest = gap ++ (taken ++ cut) ++ tail := by
        rw [hgaps, htaken, hcut]
        simp only [List.append_assoc]
      refine ⟨gap ++ (taken ++ cut), tail, hrest₀, ?_, fun q => ?_⟩
      · have hoffset := hc.offset_eq
        have hoffset'' := hc''.1.offset_eq
        rw [hrest₀] at hoffset
        rw [hcut] at hoffset''
        simp only [List.length_append] at hoffset hoffset'' ⊢
        rw [List.map_cons, List.getLastD_cons]
        show _ = (inner.map (·.loc.stop)).getLastD c''.pos.offset
        omega
      · obtain ⟨d', hgap', hd'⟩ :=
          skipGap_cut (d := ⟨gap ++ (taken ++ cut), q⟩) hrest₀ hgap (.inl htail)
        obtain ⟨rest', hrest', rfl⟩ := exists_cons_of_cut hd' htail (Nat.le_refl _) hrest
        have hle : tail.length ≤ c''.rest.length := by simp [hcut]
        obtain ⟨k, d'', hscan', hk, hd''⟩ := scanToken_cut hscan hle d'.pos
        obtain ⟨ts', hts', halike, hfinal⟩ := hcuts d''.pos
        rw [hcut] at hd''
        rw [List.append_cancel_right hd''] at hts'
        exact ⟨_, tokensFrom_eq hgap' hrest' hscan' hts', .cons ⟨hk, rfl⟩ halike, hfinal⟩

end ScriptReplay
