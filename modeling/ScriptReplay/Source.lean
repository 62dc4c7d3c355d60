/-
Places in a source text.

Lines are counted from one, columns from zero and offsets in characters from the start.  A
position is a point of the text; a location is a stretch of it, named by the point where it
starts and the offset where it stops.

* `Position.after` : the position behind some characters;
* `Location.through` : a location stretched to the end of a later one;
* `Cursor.skip` : the reading point moved over some characters.

Design notes: a cursor is the unread rest of the text with its position.  All reading goes
through `Cursor.skip`, so what was read is always a prefix of the rest and the position always
agrees with it.
-/
namespace ScriptReplay

/-! ### Positions -/

/-- A point of the source text. -/
structure Position where
  line : Nat
  column : Nat
  offset : Nat
  deriving DecidableEq, Repr, Inhabited

/-- Where a text starts. -/
def Position.origin : Position := ⟨1, 0, 0⟩

/-- The position behind one character. -/
def Position.next (p : Position) (c : Char) : Position :=
  if c = '\n' then ⟨p.line + 1, 0, p.offset + 1⟩ else ⟨p.line, p.column + 1, p.offset + 1⟩

/-- The position behind some characters. -/
def Position.after (p : Position) (cs : List Char) : Position :=
  cs.foldl Position.next p

/-! ### Locations -/

/-- The stretch of text from offset `start` up to offset `stop`, starting on `line`
at `column`. -/
structure Location where
  line : Nat
  column : Nat
  start : Nat
  stop : Nat
  deriving DecidableEq, Repr, Inhabited

/-- The empty stretch at a point. -/
def Position.here (p : Position) : Location :=
  ⟨p.line, p.column, p.offset, p.offset⟩

/-- The stretch from one point to another. -/
def Position.upTo (p q : Position) : Location :=
  ⟨p.line, p.column, p.offset, q.offset⟩

/-- The point where a location starts. -/
def Location.position (l : Location) : Position :=
  ⟨l.line, l.column, l.start⟩

/-- The stretch from the start of `l` up to `stop`, which never lies before that start. -/
def Location.until (l : Location) (stop : Nat) : Location :=
  { l with stop := max stop l.start }

/-- The stretch from the start of `l` to the end of `m`. -/
def Location.through (l m : Location) : Location :=
  l.until m.stop

/-! ### Cursors -/

/-- The unread rest of a text and its position. -/
structure Cursor where
  rest : List Char
  pos : Position
  deriving Repr

/-- A cursor at the start of a text whose first character stands at `p`. -/
def Cursor.ofText (s : String) (p : Position) : Cursor :=
  ⟨s.toList, p⟩

/-- The cursor behind the next `n` characters, or at the end if there are fewer. -/
def Cursor.skip (c : Cursor) (n : Nat) : Cursor :=
  ⟨c.rest.drop n, c.pos.after (c.rest.take n)⟩

@[simp]
theorem Cursor.length_rest_skip (c : Cursor) (n : Nat) :
    (c.skip n).rest.length = c.rest.length - n := by
  simp [Cursor.skip]

end ScriptReplay
