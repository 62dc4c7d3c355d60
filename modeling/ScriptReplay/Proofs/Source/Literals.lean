/-
Texts as literals.

A text is written between quotes with its line breaks, its backslashes and the quote as
escapes, and as a template with a backslash before each backtick, backslash and dollar sign.
Read again, each is one token with the text in it.

* `textLiteral`, `templateLiteral` : a text as a literal;
* `readTemplate_escaped` : a written template is read up to its closing mark, whatever
  stands behind it;
* `tokenize_literals` : a literal is one token, and it spans the whole literal.

Design notes: line breaks stay as they are in templates.  A dollar sign gets its backslash
whether a brace follows it or not, so no embedded source opens, and braces, comments and
escapes within the text are only text.
-/
import ScriptReplay.Proofs.Source.Rescans

namespace ScriptReplay

/-! ### Written texts -/

/-- A text between quotes. -/
def textLiteral (quote : Char) (s : String) : String :=
  String.ofList (quote :: (s.toList.flatMap (escapedIn quote) ++ [quote]))

/-- A character as it is written in a template. -/
def templateEscaped (c : Char) : List Char :=
  if c = '\x60' ∨ c = '\\' ∨ c = '$' then ['\\', c] else [c]

/-- A text as a template without embedded expressions. -/
def templateLiteral (s : String) : String :=
  String.ofList ('\x60' :: (s.toList.flatMap templateEscaped ++ ['\x60']))

/-- The tokens of a text that is a single token: this one, from the start of the text to its
end, and the end mark. -/
def Tokens.single (text : String) (k : TokenKind) : Tokens where
  body := [⟨k, ⟨1, 0, 0, text.length⟩, false⟩]
  final := ⟨.finish, (Position.origin.after text.toList).here, false⟩

/-! ### Templates -/

theorem readTemplate_plain {c : Char} (hc : ¬ (c = '\x60' ∨ c = '\\' ∨ c = '$'))
    (opened p : Position) (cs : List Char) (t : TemplateParts) :
    readTemplate opened ⟨c :: cs, p⟩ t =
      readTemplate opened ⟨cs, p.next c⟩ (t.addChars [c]) := by
  obtain ⟨hmark, hslash, hdollar⟩ : c ≠ '\x60' ∧ c ≠ '\\' ∧ c ≠ '$' := by
    simpa only [not_or] using hc
  rw [readTemplate_cons rfl (fun _ h => absurd h hdollar), if_neg hmark, if_neg hslash]
  rfl

theorem readTemplate_escape {c : Char} (hc : c = '\x60' ∨ c = '\\' ∨ c = '$')
    (opened p : Position) (cs : List Char) (t : TemplateParts) :
    readTemplate opened ⟨'\\' :: c :: cs, p⟩ t =
      readTemplate opened ⟨cs, (p.next '\\').next c⟩ (t.addChars [c]) := by
  have hescape : readEscape (Cursor.skip ⟨'\\' :: c :: cs, p⟩ 1) =
      .ok (some c, ⟨cs, (p.next '\\').next c⟩) := by
    rcases hc with rfl | rfl | rfl <;> rfl
  rw [readTemplate_cons rfl (fun _ h => absurd h (by decide)),
    if_neg (by decide), if_pos rfl, hescape]
  rfl

/-- A written text is read up to the closing mark, and nothing in it opens an
embedded source. -/
theorem readTemplate_escaped (cs rest : List Char) (opened p : Position) (t : TemplateParts) :
    readTemplate opened ⟨cs.flatMap templateEscaped ++ '\x60' :: rest, p⟩ t =
      .ok ((t.addChars cs.reverse).toKind,
        ⟨rest, p.after (cs.flatMap templateEscaped ++ ['\x60'])⟩) := by
  induction cs generalizing p t with
  | nil =>
    have hnone : t.addChars [] = t := rfl
    rw [List.flatMap_nil, List.nil_append,
      readTemplate_cons rfl (fun _ h => absurd h (by decide)), if_pos rfl,
      List.reverse_nil, hnone]
    rfl
  | cons c cs ih =>
    have hchars : t.addChars (c :: cs).reverse = (t.addChars [c]).addChars cs.reverse := by
      simp [TemplateParts.addChars]
    rw [List.flatMap_cons, List.append_assoc, List.append_assoc, hchars]
    unfold templateEscaped
    split
    · next hc => exact (readTemplate_escape hc ..).trans (ih _ _)
    · next hc => exact (readTemplate_plain hc ..).trans (ih _ _)

/-! ### Literals -/

/-- A token that takes the whole text is its only one. -/
theorem tokenize_eq_single {first : Char} {more : List Char} {k : TokenKind}
    (hblank : isBlank first = false) (hslash : first ≠ '/')
    (hscan : scanToken first more Position.origin =
      .ok (k, ⟨[], Position.origin.after (first :: more)⟩)) :
    tokenize (String.ofList (first :: more)) =
      .ok (Tokens.single (String.ofList (first :: more)) k) := by
  have hgap : skipGap ⟨first :: more, Position.origin⟩ =
      .ok (⟨first :: more, Position.origin⟩, false) :=
    skipGap_eq hblank (fun h => absurd h hslash) Position.origin
  have hend : ∀ p, tokensFrom ⟨[], p⟩ = .ok ⟨[], ⟨.finish, p.here, false⟩⟩ := by
    intro p
    have hgap : skipGap ⟨[], p⟩ = .ok (⟨[], p⟩, false) := rfl
    exact tokensFrom_eq_nil hgap rfl
  have hstop : (Position.origin.after (first :: more)).offset =
      (String.ofList (first :: more)).length := by
    rw [Position.offset_after, String.length_ofList]
    exact Nat.zero_add _
  rw [tokenize, tokenizeAt, Cursor.ofText, Tokens.single, String.toList_ofList, ← hstop]
  exact tokensFrom_eq hgap rfl hscan (hend _)

theorem tokenize_textLiteral {quote : Char} (hquote : quote = '\x22' ∨ quote = '\x27')
    (s : String) :
    tokenize (textLiteral quote s) = .ok (.single (textLiteral quote s) (.string s)) := by
  have hread :=
    readQuoted_escaped hquote s.toList [] Position.origin (Position.origin.next quote) []
  rw [List.reverse_nil, List.nil_append, String.ofList_toList] at hread
  refine tokenize_eq_single ?_ ?_ ?_
  · rcases hquote with rfl | rfl <;> decide
  · rcases hquote with rfl | rfl <;> decide
  · have hskip : Cursor.skip
        ⟨quote :: (s.toList.flatMap (escapedIn quote) ++ [quote]), Position.origin⟩ 1 =
        ⟨s.toList.flatMap (escapedIn quote) ++ [quote], Position.origin.next quote⟩ := rfl
    unfold scanToken
    dsimp only
    rw [if_pos (by simpa using hquote), hskip, hread]
    rfl

theorem tokenize_templateLiteral (s : String) :
    tokenize (templateLiteral s) = .ok (.single (templateLiteral s) (.template [s] [])) := by
  have hread := readTemplate_escaped s.toList [] Position.origin
    (Position.origin.next '\x60') ⟨[], [], []⟩
  have hkind :
      (TemplateParts.addChars ⟨[], [], []⟩ s.toList.reverse).toKind = .template [s] [] := by
    simp [TemplateParts.addChars, TemplateParts.toKind]
  rw [hkind] at hread
  exact tokenize_eq_single (by decide) (by decide) hread

/-- A text written as a literal is read as one token that has the text again: a string for
either quote, and for backticks a template with one text and no embedded sources. -/
theorem tokenize_literals (s : String) :
    tokenize (textLiteral '\x22' s) = .ok (.single (textLiteral '\x22' s) (.string s)) ∧
    tokenize (textLiteral '\x27' s) = .ok (.single (textLiteral '\x27' s) (.string s)) ∧
    tokenize (templateLiteral s) = .ok (.single (templateLiteral s) (.template [s] [])) :=
  ⟨tokenize_textLiteral (.inl rfl) s, tokenize_textLiteral (.inr rfl) s,
    tokenize_templateLiteral s⟩

end ScriptReplay
