/-
Where tokens stand.

* `Location.Fits` : a location that names a stretch of a text, with the line and column
  of its start;
* `Cursor.In` : a cursor whose rest stands in a text where its position says;
* `Chunk.Fits` : an embedded source that is a stretch of the text;
* `Token.Fits` : a token with its embedded sources, one after another;
* `TokensFit` : tokens that follow each other in a text;
* `tokensFrom_reads` : the tokens of a part of a text follow each other in it, and faults are
  named where they are.

Design notes: embedded sources are read on their own, from the position where they stand.
So the cursor is one into the whole text, with an end before that of the text (`tail`), and
nothing changes when a part of it is read again.
-/
import Mathlib.Data.List.Induction
import ScriptReplay.Token.Scan

namespace ScriptReplay

/-! ### Points of a text -/

/-- A stretch of a text.  Its line is counted by the line breaks before its start, its column
by the characters between the last of them and its start. -/
structure Location.Fits (l : Location) (text : List Char) : Prop where
  start_le : l.start ≤ l.stop
  stop_le : l.stop ≤ text.length
  line : l.line = 1 + (text.take l.start).count '\n'
  column : l.column = ((text.take l.start).reverse.takeWhile (· ≠ '\n')).length

theorem Position.after_append (p : Position) (cs ds : List Char) :
    p.after (cs ++ ds) = (p.after cs).after ds :=
  List.foldl_append

/-- The position behind a text has its length, its line breaks and the characters behind the
last of them. -/
theorem Position.origin_after (cs : List Char) : origin.after cs =
    ⟨1 + cs.count '\n', (cs.reverse.takeWhile (· ≠ '\n')).length, cs.length⟩ := by
  induction cs using List.reverseRecOn with
  | nil => rfl
  | append_singleton cs c ih =>
    rw [after_append, ih]
    show Position.next _ c = _
    by_cases hc : c = '\n'
    · simp [Position.next, hc]
      omega
    · simp [Position.next, hc]

theorem Position.offset_after (p : Position) (cs : List Char) :
    (p.after cs).offset = p.offset + cs.length := by
  induction cs generalizing p with
  | nil => rfl
  | cons c cs ih =>
    have hnext : (p.next c).offset = p.offset + 1 := by
      unfold Position.next
      split <;> rfl
    show ((p.next c).after cs).offset = _
    rw [ih, hnext, List.length_cons]
    omega

/-- The position behind the beginning of a text is a point of it. -/
theorem Position.fits_here {text before rest : List Char} (h : text = before ++ rest) :
    (origin.after before).here.Fits text := by
  have htake : text.take before.length = before := by simp [h]
  rw [origin_after]
  refine ⟨Nat.le_refl _, ?_, ?_, ?_⟩
  · simp [Position.here, h]
  · simp [Position.here, htake]
  · simp [Position.here, htake]

theorem Location.Fits.upTo {text : List Char} {p q : Position} (hp : p.here.Fits text)
    (hq : q.here.Fits text) (hle : p.offset ≤ q.offset) : (p.upTo q).Fits text :=
  ⟨hle, hq.stop_le, hp.line, hp.column⟩

theorem Location.Fits.until {text : List Char} {l : Location} (h : l.Fits text) {stop : Nat}
    (hstop : stop ≤ text.length) : (l.until stop).Fits text := by
  have hstart := h.start_le
  have hlength := h.stop_le
  refine ⟨?_, ?_, h.line, h.column⟩
  · show l.start ≤ max stop l.start
    omega
  · show max stop l.start ≤ text.length
    omega

/-- The stretch from the start of one to the end of a later one. -/
theorem Location.Fits.through {text : List Char} {l m : Location} (hl : l.Fits text)
    (hm : m.Fits text) (hle : l.stop ≤ m.start) :
    (l.through m).Fits text ∧ (l.through m).start = l.start ∧
      (l.through m).stop = m.stop := by
  have hstart := hl.start_le
  have hstop := hm.start_le
  exact ⟨hl.until hm.stop_le, rfl, Nat.max_eq_left (by omega)⟩

/-! ### Cursors -/

/-- The rest of the cursor stands in the text where its position says, with `tail` behind it,
and not before offset `lo`. -/
structure Cursor.In (c : Cursor) (text tail : List Char) (lo : Nat) : Prop where
  place : ∃ before, text = before ++ (c.rest ++ tail) ∧ c.pos = Position.origin.after before
  lo_le : lo ≤ c.pos.offset

namespace Cursor.In

variable {c : Cursor} {text tail : List Char} {lo : Nat}

theorem here (h : c.In text tail lo) : c.pos.here.Fits text := by
  obtain ⟨before, htext, hpos⟩ := h.place
  rw [hpos]
  exact Position.fits_here htext

theorem skip (h : c.In text tail lo) (n : Nat) : (c.skip n).In text tail lo := by
  obtain ⟨before, htext, hpos⟩ := h.place
  refine ⟨⟨before ++ c.rest.take n, ?_, ?_⟩, ?_⟩
  · show text = before ++ c.rest.take n ++ (c.rest.drop n ++ tail)
    rw [List.append_assoc, ← List.append_assoc (c.rest.take n), List.take_append_drop]
    exact htext
  · show c.pos.after (c.rest.take n) = _
    rw [hpos, Position.after_append]
  · show lo ≤ (c.pos.after (c.rest.take n)).offset
    rw [Position.offset_after]
    exact Nat.le_add_right_of_le h.lo_le

theorem from_here (h : c.In text tail lo) : c.In text tail c.pos.offset :=
  ⟨h.place, Nat.le_refl _⟩

theorem mono (h : c.In text tail lo) {lo' : Nat} (hle : lo' ≤ lo) : c.In text tail lo' :=
  ⟨h.place, Nat.le_trans hle h.lo_le⟩

/-- The cursor behind one character. -/
theorem next {ch : Char} {rest : List Char} {p : Position}
    (h : Cursor.In ⟨ch :: rest, p⟩ text tail lo) : Cursor.In ⟨rest, p.next ch⟩ text tail lo :=
  h.skip 1

end Cursor.In

theorem Cursor.offset_skip (c : Cursor) (n : Nat) :
    (c.skip n).pos.offset = c.pos.offset + min n c.rest.length := by
  show (c.pos.after (c.rest.take n)).offset = _
  rw [Position.offset_after, List.length_take]

theorem Cursor.offset_le_skip (c : Cursor) (n : Nat) :
    c.pos.offset ≤ (c.skip n).pos.offset := by
  rw [Cursor.offset_skip]
  exact Nat.le_add_right _ _

/-! ### Readers -/

/-- A reader that answers as described, or fails at a point of the text. -/
def Reads (text : List Char) {α : Type} (Q : α → Prop) : Except LexError α → Prop
  | .ok a => Q a
  | .error e => e.loc.Fits text

/-- The comment that is being passed was opened in the text. -/
def GapMode.Fits (text : List Char) : GapMode → Prop
  | blockComment opened => opened.here.Fits text
  | insideMark following => following.Fits text
  | _ => True

variable {text tail : List Char} {lo : Nat}

theorem gapFrom_reads {mode : GapMode} (hmode : mode.Fits text) {newline : Bool}
    {p : Position} {cs : List Char} (h : Cursor.In ⟨cs, p⟩ text tail lo) :
    Reads text (fun r => r.1.In text tail lo) (gapFrom mode newline p cs) := by
  fun_induction gapFrom mode newline p cs with
  | case1 => exact hmode
  | case2 => exact h
  | case3 _ _ _ _ _ ih => exact ih hmode h.next
  | case4 _ _ _ ih => exact ih trivial h.next
  | case5 _ _ _ _ _ ih => exact ih hmode h.next
  | case6 _ _ _ _ _ _ ih => exact ih trivial h.next
  | case7 _ _ _ _ _ _ ih => exact ih hmode h.next
  | case8 _ _ _ _ _ ih => exact ih trivial h.next
  | case9 _ _ _ _ _ _ ih => exact ih h.here h.next
  | case10 _ _ _ _ _ _ _ ih => exact ih trivial h.next
  | case11 => exact h

theorem skipGap_reads {c : Cursor} (h : c.In text tail lo) :
    Reads text (fun r => r.1.In text tail lo) (skipGap c) := by
  have hmode : GapMode.between.Fits text := trivial
  exact gapFrom_reads hmode h

theorem hexChar_reads {place : Position} (hp : place.here.Fits text) (digits : List Char) :
    Reads text (fun _ => True) (hexChar digits place) := by
  unfold hexChar
  split
  · split
    · exact trivial
    · exact hp
  · exact hp

theorem readEscape_reads {c : Cursor} (h : c.In text tail lo) :
    Reads text (fun r => r.2.In text tail lo) (readEscape c) := by
  have hhex : ∀ digits n, Reads text (fun r => r.2.In text tail lo)
      ((hexChar digits c.pos).map fun ch => (some ch, c.skip n)) := by
    intro digits n
    have hread := hexChar_reads h.here digits
    cases hx : hexChar digits c.pos with
    | error e =>
      rw [hx] at hread
      exact hread
    | ok ch => exact h.skip n
  unfold readEscape readEscape.hex
  split
  · exact h.here
  · exact h.skip 1
  · exact hhex _ _
  · exact hhex _ _
  · exact hhex _ _
  · exact h.skip 1

theorem readQuoted_reads (quote : Char) {opened : Position} (ho : opened.here.Fits text)
    {c : Cursor} (h : c.In text tail lo) (acc : List Char) :
    Reads text (fun r => r.2.In text tail lo) (readQuoted quote opened c acc) := by
  fun_induction readQuoted quote opened c acc with
  | case1 => exact ho
  | case2 => exact h.skip 1
  | case3 => exact ho
  | case4 _ _ _ e he =>
    have hread := readEscape_reads (h.skip 1)
    rw [he] at hread
    exact hread
  | case5 _ _ _ r hr _ _ _ ih =>
    have hread := readEscape_reads (h.skip 1)
    rw [hr] at hread
    exact ih hread
  | case6 _ _ _ _ _ _ _ _ ih => exact ih (h.skip 1)

/-! ### Templates -/

/-- The embedded source is what stands in the text at its origin, between two offsets. -/
structure Chunk.Fits (chunk : Chunk) (text : List Char) (lo hi : Nat) : Prop where
  place : ∃ tail, (Cursor.ofText chunk.source chunk.origin.position).In text tail lo
  stop_le : chunk.origin.start + chunk.source.toList.length ≤ hi

theorem Chunk.Fits.mono {chunk : Chunk} {hi hi' : Nat} (h : chunk.Fits text lo hi)
    (hle : hi ≤ hi') : chunk.Fits text lo hi' :=
  ⟨h.place, Nat.le_trans h.stop_le hle⟩

/-- An embedded source stands from where it starts up to where it stops, and between offsets
around that. -/
theorem Chunk.Fits.lo_le {chunk : Chunk} {hi : Nat} (h : chunk.Fits text lo hi) :
    lo ≤ chunk.origin.start := by
  obtain ⟨_, hplace⟩ := h.place
  exact hplace.lo_le

theorem Chunk.Fits.from {chunk : Chunk} {hi lo' : Nat} (h : chunk.Fits text lo hi)
    (hle : lo' ≤ chunk.origin.start) : chunk.Fits text lo' hi := by
  obtain ⟨tail, hplace⟩ := h.place
  exact ⟨⟨tail, hplace.place, hle⟩, h.stop_le⟩

theorem Chunk.Fits.upTo {chunk : Chunk} {hi hi' : Nat} (h : chunk.Fits text lo hi)
    (hle : chunk.origin.start + chunk.source.toList.length ≤ hi') : chunk.Fits text lo hi' :=
  ⟨h.place, hle⟩

/-- An embedded source ends where the brace that closes it stands. -/
theorem chunkChars_eq_some {depth : Nat} {cs chunk : List Char}
    (h : chunkChars depth cs = some chunk) : ∃ rest, cs = chunk ++ '\x7d' :: rest := by
  have hcons : ∀ {ch : Char} {o : Option (List Char)} {cs : List Char},
      (∀ chunk, o = some chunk → ∃ rest, cs = chunk ++ '\x7d' :: rest) → ∀ {chunk},
      o.map (ch :: ·) = some chunk →
        ∃ rest, ch :: cs = chunk ++ '\x7d' :: rest := by
    intro ch o cs ho chunk hmap
    obtain ⟨chunk', hchunk', rfl⟩ := Option.map_eq_some_iff.1 hmap
    obtain ⟨rest, rfl⟩ := ho chunk' hchunk'
    exact ⟨rest, rfl⟩
  fun_induction chunkChars depth cs generalizing chunk with
  | case1 => cases h
  | case2 _ _ ih => exact hcons (fun _ => ih) h
  | case3 rest =>
    cases h
    exact ⟨rest, rfl⟩
  | case4 _ _ _ ih => exact hcons (fun _ => ih) h
  | case5 _ _ _ _ _ ih => exact hcons (fun _ => ih) h

/-- The embedded sources of a token. -/
def TokenKind.chunks : TokenKind → List Chunk
  | template _ chunks => chunks
  | _ => []

/-- The first embedded source ends before the second begins. -/
def Chunk.Before (chunk chunk' : Chunk) : Prop :=
  chunk.origin.start + chunk.source.toList.length ≤ chunk'.origin.start

/-- The token's embedded sources stand in the text between two offsets, one after another. -/
structure TokenKind.Fits (kind : TokenKind) (text : List Char) (lo hi : Nat) : Prop where
  chunk : ∀ chunk ∈ kind.chunks, chunk.Fits text lo hi
  apart : kind.chunks.Pairwise Chunk.Before

theorem TokenKind.fits_of_chunks_eq_nil {kind : TokenKind} (h : kind.chunks = []) (hi : Nat) :
    kind.Fits text lo hi := by
  refine ⟨?_, ?_⟩
  · rw [h]
    exact fun chunk hchunk => absurd hchunk List.not_mem_nil
  · rw [h]
    exact .nil

/-- What stands behind the mark that opens an embedded expression, up to the brace
that closes it. -/
theorem Cursor.In.chunk {c : Cursor} (h : c.In text tail lo) {rest chunk : List Char}
    (hrest : c.rest = '$' :: '\x7b' :: rest) (hchunk : chunkChars 0 rest = some chunk) :
    (Chunk.mk (String.ofList chunk) (c.skip 2).pos.here).Fits text lo
      (c.skip (chunk.length + 3)).pos.offset := by
  obtain ⟨behind, rfl⟩ := chunkChars_eq_some hchunk
  have hskip : (c.skip 2).rest = chunk ++ '\x7d' :: behind := by
    show c.rest.drop 2 = _
    rw [hrest]
    rfl
  refine ⟨⟨'\x7d' :: behind ++ tail, ?_, (h.skip 2).lo_le⟩, ?_⟩
  · obtain ⟨before, htext, hpos⟩ := (h.skip 2).place
    refine ⟨before, ?_, hpos⟩
    rw [htext, hskip]
    simp [Cursor.ofText]
  · show (c.skip 2).pos.offset + (String.ofList chunk).toList.length ≤ _
    rw [Cursor.offset_skip, Cursor.offset_skip, hrest, String.toList_ofList]
    simp only [List.length_cons, List.length_append]
    omega

/-- The embedded sources of a template up to the cursor stand in the text, the
last one first. -/
structure TemplateParts.Fit (t : TemplateParts) (text : List Char) (lo hi : Nat) : Prop where
  chunk : ∀ chunk ∈ t.chunks, chunk.Fits text lo hi
  apart : t.chunks.Pairwise fun chunk chunk' => chunk'.Before chunk

theorem TemplateParts.Fit.addChars {t : TemplateParts} {hi hi' : Nat} (h : t.Fit text lo hi)
    (hle : hi ≤ hi') (cs : List Char) : (t.addChars cs).Fit text lo hi' :=
  ⟨fun chunk hmem => (h.chunk chunk hmem).mono hle, h.apart⟩

theorem readTemplate_reads {opened : Position} (ho : opened.here.Fits text) {c : Cursor}
    (h : c.In text tail lo) {t : TemplateParts} (ht : t.Fit text lo c.pos.offset) :
    Reads text (fun r => r.2.In text tail lo ∧ r.1.Fits text lo r.2.pos.offset)
      (readTemplate opened c t) := by
  fun_induction readTemplate opened c t with
  | case1 => exact ho
  | case2 => exact ho
  | case3 c t rest hrest chunk hchunk ih =>
    refine ih (h.skip _)
      ⟨List.forall_mem_cons.2 ⟨h.chunk hrest hchunk, fun chunk' hmem => ?_⟩,
        List.pairwise_cons.2 ⟨fun chunk' hmem => ?_, ht.apart⟩⟩
    · exact (ht.chunk chunk' hmem).mono (c.offset_le_skip _)
    · exact Nat.le_trans (ht.chunk chunk' hmem).stop_le (c.offset_le_skip 2)
  | case4 c t =>
    refine ⟨h.skip 1, fun chunk hmem => ?_, List.pairwise_reverse.2 ht.apart⟩
    exact (ht.chunk chunk (List.mem_reverse.1 hmem)).mono (c.offset_le_skip 1)
  | case5 _ _ _ e he =>
    have hread := readEscape_reads (h.skip 1)
    rw [he] at hread
    exact hread
  | case6 c t _ r hr _ _ _ ih =>
    -- The escape ends behind the point where it was found, so the sources before it are
    -- still there.
    have hread := readEscape_reads (h.from_here.skip 1)
    rw [hr] at hread
    exact ih (hread.mono h.lo_le) (ht.addChars hread.lo_le _)
  | case7 c t _ _ _ _ _ _ ih => exact ih (h.skip 1) (ht.addChars (c.offset_le_skip 1) _)

/-! ### Tokens -/

theorem scanToken_reads {first : Char} {rest : List Char} {p : Position}
    (h : Cursor.In ⟨first :: rest, p⟩ text tail lo) :
    Reads text (fun r => r.2.In text tail lo ∧ r.1.Fits text lo r.2.pos.offset)
      (scanToken first rest p) := by
  have hplace : p.here.Fits text := h.here
  unfold scanToken
  dsimp only
  split
  · have hread := readQuoted_reads first hplace (h.skip 1) []
    split
    · next r hr =>
      rw [hr] at hread
      exact ⟨hread, TokenKind.fits_of_chunks_eq_nil rfl _⟩
    · next e he =>
      rw [he] at hread
      exact hread
  split
  · exact readTemplate_reads hplace (h.skip 1)
      ⟨fun _ hmem => absurd hmem List.not_mem_nil, .nil⟩
  split
  · split
    · exact ⟨h.skip _, TokenKind.fits_of_chunks_eq_nil rfl _⟩
    · exact hplace
  split
  · refine ⟨h.skip _, TokenKind.fits_of_chunks_eq_nil ?_ _⟩
    unfold wordKind
    split <;> rfl
  · split
    · exact ⟨h.skip _, TokenKind.fits_of_chunks_eq_nil rfl _⟩
    · exact hplace

/-- A token that stands in the text, with its embedded sources inside it.  All but the end
mark have a character. -/
structure Token.Fits (t : Token) (text : List Char) : Prop where
  loc : t.loc.Fits text
  kind : t.kind.Fits text t.loc.start t.loc.stop
  nonempty : t.kind ≠ .finish → t.loc.start < t.loc.stop

/-- Tokens, and the end mark after them, that follow each other in the text from
an offset on. -/
def TokensFit (text : List Char) (lo : Nat) : List Token → Token → Prop
  | [], final => final.Fits text ∧ lo ≤ final.loc.start ∧ final.kind = .finish
  | t :: rest, final => t.Fits text ∧ lo ≤ t.loc.start ∧ TokensFit text t.loc.stop rest final

theorem TokensFit.mono {rest : List Token} {final : Token} (h : TokensFit text lo rest final)
    {lo' : Nat} (hle : lo' ≤ lo) : TokensFit text lo' rest final := by
  cases rest with
  | nil => exact ⟨h.1, Nat.le_trans hle h.2.1, h.2.2⟩
  | cons t rest => exact ⟨h.1, Nat.le_trans hle h.2.1, h.2.2⟩

theorem TokensFit.le_final {rest : List Token} {final : Token}
    (h : TokensFit text lo rest final) : lo ≤ final.loc.stop := by
  induction rest generalizing lo with
  | nil => exact Nat.le_trans h.2.1 h.1.loc.start_le
  | cons t rest ih =>
    have hstart := h.1.loc.start_le
    have hrest := ih h.2.2
    have hlo := h.2.1
    omega

theorem Cursor.In.offset_eq {c : Cursor} (h : c.In text tail lo) :
    c.pos.offset + (c.rest.length + tail.length) = text.length := by
  obtain ⟨before, htext, hpos⟩ := h.place
  rw [hpos, Position.origin_after, htext, List.length_append, List.length_append]

/-- The token at a cursor, read from its rest. -/
theorem Cursor.In.scanToken {c : Cursor} (h : c.In text tail lo) {first : Char}
    {rest : List Char} (hrest : c.rest = first :: rest) :
    Reads text
      (fun r => r.2.In text tail c.pos.offset ∧ r.1.Fits text c.pos.offset r.2.pos.offset)
      (ScriptReplay.scanToken first rest c.pos) := by
  have hc : Cursor.In ⟨c.rest, c.pos⟩ text tail c.pos.offset := h.from_here
  rw [hrest] at hc
  exact scanToken_reads hc

/-- The tokens of a part of a text follow each other in it, up to the end of the part. -/
theorem tokensFrom_reads {c : Cursor} (h : c.In text tail lo) :
    Reads text (fun ts => TokensFit text lo ts.body ts.final ∧
      ts.final.loc.stop + tail.length ≤ text.length) (tokensFrom c) := by
  have hgap := skipGap_reads h
  fun_induction tokensFrom c generalizing lo with
  | case1 c e he =>
    rw [he] at hgap
    exact hgap
  | case2 c c' newline hc hend =>
    rw [hc] at hgap
    have hlength := hgap.offset_eq
    rw [hend, List.length_nil, Nat.zero_add] at hlength
    exact ⟨⟨⟨hgap.here, TokenKind.fits_of_chunks_eq_nil rfl _, fun h => absurd rfl h⟩,
      hgap.lo_le, rfl⟩, Nat.le_of_eq hlength⟩
  | case3 c c' newline hc first rest hrest e he =>
    rw [hc] at hgap
    have hscan := Cursor.In.scanToken hgap hrest
    rw [he] at hscan
    exact hscan
  | case4 c c' newline hc first rest hrest kind c'' hkind e he ih =>
    rw [hc] at hgap
    have hscan := Cursor.In.scanToken hgap hrest
    rw [hkind] at hscan
    have hnext := ih hscan.1.from_here (skipGap_reads hscan.1.from_here)
    rw [he] at hnext
    exact hnext
  | case5 c c' newline hc first rest hrest kind c'' hkind ts hts ih =>
    rw [hc] at hgap
    have hscan := Cursor.In.scanToken hgap hrest
    rw [hkind] at hscan
    have hnext := ih hscan.1.from_here (skipGap_reads hscan.1.from_here)
    rw [hts] at hnext
    -- A token has a character at least, so it ends behind its start.
    have hpassed : c'.pos.offset < c''.pos.offset := by
      have hlt : c''.rest.length < (first :: rest).length := scanToken_lt hkind
      have hbefore : c'.pos.offset + (c'.rest.length + tail.length) = text.length :=
        hgap.offset_eq
      have hbehind : c''.pos.offset + (c''.rest.length + tail.length) = text.length :=
        hscan.1.offset_eq
      rw [← hrest] at hlt
      omega
    exact ⟨⟨⟨.upTo hgap.here hscan.1.here hscan.1.lo_le, hscan.2, fun _ => hpassed⟩,
      hgap.lo_le, hnext.1⟩, hnext.2⟩

end ScriptReplay
