/-
The tokens of a text.

Tokens are read one after another, each as long as possible, with the gaps between
them passed over.

* `tokensFrom` : the tokens from a cursor to the end of its text;
* `tokenize` : the tokens of a whole text;
* `scanToken_lt` : a token takes at least one character, so the reading ends.
-/
import ScriptReplay.Text.Letter
import ScriptReplay.Token.Gap
import ScriptReplay.Token.Numeral
import ScriptReplay.Token.Quoted

namespace ScriptReplay

/-! ### One token -/

/-- A character that a name can start with. -/
def isNameStart (c : Char) : Bool :=
  isLetter c || c = '_' || c = '$'

/-- A character that a name can go on with. -/
def isNamePart (c : Char) : Bool :=
  isWordChar c || c = '_' || c = '$'

/-- Whether a numeral starts with these characters: a digit, or a point before one. -/
def startsNumeral (first : Char) (rest : List Char) : Bool :=
  first.isDigit || (first = '.' && rest.head?.any Char.isDigit)

/-- The token of a word: a keyword, or else a name. -/
def wordKind (word : String) : TokenKind :=
  match Keyword.ofText? word with
  | some k => .keyword k
  | none => .name word

/-- The token that the text `first :: rest` at `p` starts with, and the cursor behind it. -/
def scanToken (first : Char) (rest : List Char) (p : Position) :
    Except LexError (TokenKind × Cursor) :=
  let c : Cursor := ⟨first :: rest, p⟩
  if first = '\x22' || first = '\x27' then
    match readQuoted first p (c.skip 1) [] with
    | .ok r => .ok (.string r.1, r.2)
    | .error e => .error e
  else if first = '\x60' then readTemplate p (c.skip 1) ⟨[], [], []⟩
  else if startsNumeral first rest then
    match readNumeral (first :: rest) with
    | .ok r => .ok (.number r.1, c.skip r.2)
    | .error cause => .error ⟨cause, p.here⟩
  else if isNameStart first then
    let word := (first :: rest).takeWhile isNamePart
    .ok (wordKind (String.ofList word), c.skip word.length)
  else
    match Symbol.leading? (first :: rest) with
    | some s => .ok (.symbol s, c.skip s.text.length)
    | none => .error ⟨.unexpectedChar first, p.here⟩

/-! ### Progress -/

theorem readQuoted_le {quote : Char} {opened : Position} {c : Cursor} {acc : List Char}
    {r : String × Cursor} (h : readQuoted quote opened c acc = .ok r) :
    r.2.rest.length ≤ c.rest.length := by
  fun_induction readQuoted quote opened c acc with
  | case1 | case3 | case4 => simp at h
  | case2 =>
    simp only [Except.ok.injEq] at h
    subst h
    simp
  | case5 =>
    rename_i ih
    have := readEscape_lt ‹readEscape _ = .ok _›
    have := ih h
    simp only [Cursor.length_rest_skip] at *
    omega
  | case6 =>
    rename_i ih
    have := ih h
    simp only [Cursor.length_rest_skip] at *
    omega

theorem readTemplate_le {opened : Position} {c : Cursor} {t : TemplateParts}
    {r : TokenKind × Cursor} (h : readTemplate opened c t = .ok r) :
    r.2.rest.length ≤ c.rest.length := by
  fun_induction readTemplate opened c t with
  | case1 | case2 | case5 => simp at h
  | case4 =>
    simp only [Except.ok.injEq] at h
    subst h
    simp
  | case3 c t tail hc chunk hk ih =>
    have := ih h
    simp only [Cursor.length_rest_skip] at *
    omega
  | case6 =>
    rename_i ih
    have := readEscape_lt ‹readEscape _ = .ok _›
    have := ih h
    simp only [Cursor.length_rest_skip] at *
    omega
  | case7 =>
    rename_i ih
    have := ih h
    simp only [Cursor.length_rest_skip] at *
    omega

theorem decimalRun_passed_pos {first : Char} {rest : List Char}
    (h : startsNumeral first rest = true) :
    0 < (decimalRun false false (first :: rest)).passed := by
  unfold decimalRun
  by_cases hd : first.isDigit = true
  · simp [hd, CharRun.keep]
  · have hp : first = '.' := by
      simp only [startsNumeral, hd, Bool.false_or, Bool.and_eq_true, decide_eq_true_eq] at h
      exact h.1
    subst hp
    simp [CharRun.keep]

theorem readNumeral_pos {first : Char} {rest : List Char} {r : Float × Nat}
    (hs : startsNumeral first rest = true) (h : readNumeral (first :: rest) = .ok r) :
    0 < r.2 := by
  have := decimalRun_passed_pos hs
  unfold readNumeral at h
  grind

theorem Symbol.text_length_pos (s : Symbol) : 0 < s.text.length := by
  cases s <;> decide

theorem isNamePart_of_isNameStart {c : Char} (h : isNameStart c = true) :
    isNamePart c = true := by
  simp only [isNameStart, isNamePart, isWordChar, Bool.or_eq_true] at *
  grind

/-- A token takes at least one character. -/
theorem scanToken_lt {first : Char} {rest : List Char} {p : Position} {r : TokenKind × Cursor}
    (h : scanToken first rest p = .ok r) : r.2.rest.length < (first :: rest).length := by
  unfold scanToken at h
  simp only at h
  split at h
  · split at h
    · next hq =>
      have := readQuoted_le hq
      simp at this h
      subst h
      simp
      omega
    · simp at h
  · split at h
    · have := readTemplate_le h
      simp at this
      simp
      omega
    · split at h
      · next hs =>
        split at h
        · next hn =>
          have := readNumeral_pos hs hn
          simp at h
          subst h
          simp
          omega
        · simp at h
      · split at h
        · next hw =>
          have := isNamePart_of_isNameStart hw
          simp [this] at h
          subst h
          simp only [Cursor.length_rest_skip, List.length_cons]
          omega
        · split at h
          · next s _ =>
            have := s.text_length_pos
            simp at h
            subst h
            simp
            omega
          · simp at h

/-! ### All tokens -/

/-- The tokens from a cursor to the end of its text. -/
def tokensFrom (c : Cursor) : Except LexError Tokens :=
  match _ : skipGap c with
  | .error e => .error e
  | .ok (c', newline) =>
    match _ : c'.rest with
    | [] => .ok ⟨[], ⟨.finish, c'.pos.here, newline⟩⟩
    | first :: rest =>
      match _ : scanToken first rest c'.pos with
      | .error e => .error e
      | .ok (kind, c'') =>
        match tokensFrom c'' with
        | .error e => .error e
        | .ok ts => .ok { ts with body := ⟨kind, c'.pos.upTo c''.pos, newline⟩ :: ts.body }
termination_by c.rest.length
decreasing_by
  have hg := skipGap_le ‹skipGap c = _›
  have ht := scanToken_lt ‹scanToken _ _ _ = _›
  simp_all
  omega

/-- The tokens of a text whose first character stands at `p`. -/
def tokenizeAt (source : String) (p : Position) : Except LexError Tokens :=
  tokensFrom (Cursor.ofText source p)

/-- The tokens of a whole text. -/
def tokenize (source : String) : Except LexError Tokens :=
  tokenizeAt source Position.origin

end ScriptReplay
