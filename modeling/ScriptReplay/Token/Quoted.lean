/-
Quoted texts and templates.

A quoted text ends at the quote that opened it and stays on its line.  A template runs
over lines and embeds expressions in braces after a dollar sign.  In both, a backslash
starts an escape.

* `readEscape` : the character that an escape stands for;
* `readQuoted` : the text up to the closing quote;
* `readTemplate` : the texts and the embedded sources up to the closing mark.

Design notes: an embedded source is cut off at the brace that matches its opening one,
counting braces alone, and is read as an expression only later.  Its origin keeps its place in
the whole text.
-/
import ScriptReplay.Number.Reading
import ScriptReplay.Token

namespace ScriptReplay

/-! ### Escapes -/

/-- The escapes that one letter names. -/
def namedEscape? : Char → Option Char
  | 'n' => some '\n'
  | 't' => some '\t'
  | 'r' => some '\r'
  | 'b' => some '\x08'
  | 'f' => some '\x0c'
  | 'v' => some '\x0b'
  | '0' => some '\x00'
  | _ => none

/-- The character whose code the hexadecimal digits write. -/
def hexChar (digits : List Char) (place : Position) : Except LexError Char :=
  match radixValue? 16 (twoPow 32) digits with
  | some n => if n.isValidChar then .ok (Char.ofNat n) else .error fault
  | none => .error fault
where
  fault : LexError := ⟨.badEscape (String.ofList digits), place.here⟩

/-- The escape after a backslash and the cursor behind it.  A line break after the backslash
stands for nothing; a letter with no meaning stands for itself. -/
def readEscape (c : Cursor) : Except LexError (Option Char × Cursor) :=
  match c.rest with
  | [] => .error ⟨.unterminatedString, c.pos.here⟩
  | '\n' :: _ => .ok (none, c.skip 1)
  | 'x' :: rest => hex (rest.take 2) 1
  | 'u' :: '\x7b' :: rest =>
    let digits := rest.takeWhile (· ≠ '\x7d')
    (hexChar digits c.pos).map fun ch => (some ch, c.skip (digits.length + 3))
  | 'u' :: rest => hex (rest.take 4) 1
  | e :: _ => .ok (some ((namedEscape? e).getD e), c.skip 1)
where
  hex (digits : List Char) (before : Nat) : Except LexError (Option Char × Cursor) :=
    (hexChar digits c.pos).map fun ch => (some ch, c.skip (digits.length + before))

theorem hexEscape_lt {x : Except LexError Char} {c : Cursor} {n : Nat}
    {r : Option Char × Cursor} (hn : 0 < n) (hc : c.rest ≠ [])
    (h : x.map (fun ch => (some ch, c.skip n)) = .ok r) :
    r.2.rest.length < c.rest.length := by
  have hpos := List.length_pos_iff.2 hc
  cases x with
  | error e => simp [Except.map] at h
  | ok ch =>
    simp only [Except.map, Except.ok.injEq] at h
    subst h
    simp only [Cursor.length_rest_skip]
    omega

/-- An escape takes at least one character. -/
theorem readEscape_lt {c : Cursor} {r : Option Char × Cursor} (h : readEscape c = .ok r) :
    r.2.rest.length < c.rest.length := by
  unfold readEscape readEscape.hex at h
  split at h
  case h_1 => simp at h
  case h_2 heq | h_6 heq =>
    simp only [Except.ok.injEq] at h
    subst h
    simp [heq]
  case h_3 heq | h_4 heq | h_5 heq => exact hexEscape_lt (by omega) (by simp [heq]) h

/-! ### Quoted texts -/

/-- The text up to the closing quote and the cursor behind it.  `acc` holds the characters
read so far, newest first. -/
def readQuoted (quote : Char) (opened : Position) (c : Cursor) (acc : List Char) :
    Except LexError (String × Cursor) :=
  match _ : c.rest with
  | [] => .error ⟨.unterminatedString, opened.here⟩
  | ch :: _ =>
    if ch = quote then .ok (String.ofList acc.reverse, c.skip 1)
    else if ch = '\n' then .error ⟨.unterminatedString, opened.here⟩
    else if ch = '\\' then
      match _ : readEscape (c.skip 1) with
      | .error e => .error e
      | .ok r => readQuoted quote opened r.2 (r.1.toList ++ acc)
    else readQuoted quote opened (c.skip 1) (ch :: acc)
termination_by c.rest.length
decreasing_by
  · have := readEscape_lt ‹_›
    simp at this
    omega
  · simp [*]

/-! ### Templates -/

/-- The characters up to the brace that closes the embedded expression; none if it is not
closed.  `depth` counts the braces opened inside. -/
def chunkChars (depth : Nat) : List Char → Option (List Char)
  | [] => none
  | ch :: rest =>
    if ch = '\x7b' then (chunkChars (depth + 1) rest).map (ch :: ·)
    else if ch = '\x7d' then
      match depth with
      | 0 => some []
      | d + 1 => (chunkChars d rest).map (ch :: ·)
    else (chunkChars depth rest).map (ch :: ·)

/-- The pieces of a template read so far, newest first: finished texts, embedded sources and
the characters of the text being read. -/
structure TemplateParts where
  texts : List String
  chunks : List Chunk
  current : List Char

/-- The template token of finished pieces. -/
def TemplateParts.toKind (t : TemplateParts) : TokenKind :=
  .template (String.ofList t.current.reverse :: t.texts).reverse t.chunks.reverse

/-- The pieces with the current text finished and one more embedded source. -/
def TemplateParts.addChunk (t : TemplateParts) (chunk : Chunk) : TemplateParts :=
  ⟨String.ofList t.current.reverse :: t.texts, chunk :: t.chunks, []⟩

/-- The pieces with characters added to the current text. -/
def TemplateParts.addChars (t : TemplateParts) (cs : List Char) : TemplateParts :=
  { t with current := cs ++ t.current }

/-- The template up to its closing mark and the cursor behind it. -/
def readTemplate (opened : Position) (c : Cursor) (t : TemplateParts) :
    Except LexError (TokenKind × Cursor) :=
  match _ : c.rest with
  | [] => .error ⟨.unterminatedTemplate, opened.here⟩
  | '$' :: '\x7b' :: rest =>
    match chunkChars 0 rest with
    | none => .error ⟨.unterminatedTemplate, opened.here⟩
    | some chunk =>
      readTemplate opened (c.skip (chunk.length + 3))
        (t.addChunk ⟨String.ofList chunk, (c.skip 2).pos.here⟩)
  | ch :: _ =>
    if ch = '\x60' then .ok (t.toKind, c.skip 1)
    else if ch = '\\' then
      match _ : readEscape (c.skip 1) with
      | .error e => .error e
      | .ok r => readTemplate opened r.2 (t.addChars r.1.toList)
    else readTemplate opened (c.skip 1) (t.addChars [ch])
termination_by c.rest.length
decreasing_by
  · simp [*]
    omega
  · have := readEscape_lt ‹_›
    simp at this
    omega
  · simp [*]

end ScriptReplay
