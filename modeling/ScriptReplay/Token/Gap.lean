/-
What stands between tokens.

Blanks, comments to the end of the line and bracketed comments separate tokens and mean
nothing, except that a line break among them is remembered.

* `skipGap` : the cursor at the next token, and whether a line break was passed;
* `skipGap_le` : the gap is a prefix of what was left.
-/
import ScriptReplay.Text.Blank
import ScriptReplay.Token

namespace ScriptReplay

/-- What part of a gap the reading is in.  A bracketed comment remembers where it was opened;
a mark of two characters is passed in two steps. -/
inductive GapMode where
  | between
  | lineComment
  | blockComment (opened : Position)
  | insideMark (following : GapMode)

/-- The end of the gap that `cs` starts with, where `cs` stands at `p` and `newline` tells
whether the gap so far held a line break. -/
def gapFrom (mode : GapMode) (newline : Bool) (p : Position) :
    List Char → Except LexError (Cursor × Bool)
  | [] =>
    match mode with
    | .blockComment opened => .error ⟨.unterminatedComment, opened.here⟩
    | _ => .ok (⟨[], p⟩, newline)
  | c :: rest =>
    match mode with
    | .insideMark following => gapFrom following newline (p.next c) rest
    | .lineComment =>
      if c = '\n' then gapFrom .between true (p.next c) rest
      else gapFrom .lineComment newline (p.next c) rest
    | .blockComment opened =>
      if c = '*' ∧ rest.head? = some '/' then
        gapFrom (.insideMark .between) newline (p.next c) rest
      else gapFrom (.blockComment opened) (newline || c == '\n') (p.next c) rest
    | .between =>
      if c = '/' ∧ rest.head? = some '/' then
        gapFrom (.insideMark .lineComment) newline (p.next c) rest
      else if c = '/' ∧ rest.head? = some '*' then
        gapFrom (.insideMark (.blockComment p)) newline (p.next c) rest
      else if isBlank c then gapFrom .between (newline || c == '\n') (p.next c) rest
      else .ok (⟨c :: rest, p⟩, newline)

/-- The cursor behind the gap that it stands at, and whether the gap holds a line break. -/
def skipGap (c : Cursor) : Except LexError (Cursor × Bool) :=
  gapFrom .between false c.pos c.rest

theorem gapFrom_le {mode : GapMode} {newline : Bool} {p : Position} {cs : List Char}
    {r : Cursor × Bool} (h : gapFrom mode newline p cs = .ok r) :
    r.1.rest.length ≤ cs.length := by
  fun_induction gapFrom mode newline p cs <;> grind

theorem skipGap_le {c : Cursor} {r : Cursor × Bool} (h : skipGap c = .ok r) :
    r.1.rest.length ≤ c.rest.length :=
  gapFrom_le h

end ScriptReplay
