/-
Parsers that place what they read.

* `Stream.Fits` : a stream whose tokens follow each other in a text;
* `Stream.Reaches` : a stream after some of its tokens were read;
* `Meets` : a parser that answers as described, or fails at a point of the text;
* `Yields`, `Takes` : a parser whose answer is placed between its first token and its last;
  one that reads a token.

Design notes: an answer is placed from where the next token starts up to where the last
token read stops.  Since the stops of tokens only grow, what was placed stays so while the
reading goes on.
-/
import ScriptReplay.Program.Parser.Stream
import ScriptReplay.Proofs.Source.Fragments

namespace ScriptReplay

variable {text : List Char}

/-! ### Streams -/

/-- The tokens of the stream follow each other in the text, behind the last one read. -/
def Stream.Fits (s : Stream) (text : List Char) : Prop :=
  TokensFit text s.lastStop s.rest s.final

/-- The stream after some tokens were read. -/
structure Stream.Reaches (s s' : Stream) (text : List Char) : Prop where
  fits : s'.Fits text
  lastStop_le : s.lastStop ≤ s'.lastStop
  head_le : s.head.loc.start ≤ s'.head.loc.start
  final_eq : s'.final = s.final

namespace Stream

variable {s s' s'' : Stream}

theorem Fits.head (h : s.Fits text) : s.head.Fits text ∧ s.lastStop ≤ s.head.loc.start := by
  unfold Fits at h
  unfold Stream.head
  cases hrest : s.rest with
  | nil =>
    rw [hrest] at h
    exact ⟨h.1, h.2.1⟩
  | cons t rest =>
    rw [hrest] at h
    exact ⟨h.1, h.2.1⟩

theorem Fits.lastStop_le (h : s.Fits text) : s.lastStop ≤ text.length := by
  obtain ⟨hhead, hle⟩ := h.head
  have hstart := hhead.loc.start_le
  have hstop := hhead.loc.stop_le
  omega

/-- No token stops behind the end mark. -/
theorem Fits.lastStop_le_final (h : s.Fits text) : s.lastStop ≤ s.final.loc.stop :=
  h.le_final

theorem Reaches.refl (h : s.Fits text) : s.Reaches s text :=
  ⟨h, Nat.le_refl _, Nat.le_refl _, rfl⟩

theorem Reaches.trans (h : s.Reaches s' text) (h' : s'.Reaches s'' text) :
    s.Reaches s'' text :=
  ⟨h'.fits, Nat.le_trans h.lastStop_le h'.lastStop_le, Nat.le_trans h.head_le h'.head_le,
    h'.final_eq.trans h.final_eq⟩

/-- The stream behind the next token.  All but the end mark can be passed. -/
theorem Fits.tail (h : s.Fits text) :
    s.Reaches s.tail text ∧ (s.head.kind ≠ .finish → s.head.loc.stop ≤ s.tail.lastStop) := by
  obtain ⟨rest, final, lastStop, size, hsize⟩ := s
  cases rest with
  | nil => exact ⟨.refl h, fun hkind => absurd h.2.2 hkind⟩
  | cons t rest =>
    obtain ⟨ht, hle, hrest⟩ := h
    have hfits : Stream.Fits ⟨rest, final, t.loc.stop, rest.length, rfl⟩ text := hrest
    obtain ⟨-, hnext⟩ := hfits.head
    have hstart := ht.loc.start_le
    subst hsize
    exact ⟨⟨hfits, Nat.le_trans hle hstart, Nat.le_trans hstart hnext, rfl⟩,
      fun _ => Nat.le_refl _⟩

end Stream

/-! ### What a parser does -/

/-- A parser of a whole text that answers as described, or fails at a point of the text. -/
def Parses (text : List Char) {α : Type} (P : α → Prop) : Except SyntaxError α → Prop
  | .ok a => P a
  | .error e => e.loc.Fits text

theorem Parses.imp {α : Type} {P P' : α → Prop} {x : Except SyntaxError α}
    (h : Parses text P x) (hP : ∀ a, P a → P' a) : Parses text P' x := by
  cases x with
  | error e => exact h
  | ok a => exact hP a h

/-- From the stream the parser reaches another one with an answer as described, or it fails at
a point of the text. -/
def Meets (text : List Char) (s : Stream) {α : Type} (Q : α → Stream → Prop) (x : Parse α) :
    Prop :=
  match x s with
  | .ok (a, s') => s.Reaches s' text ∧ Q a s'
  | .error e => e.loc.Fits text

namespace Meets

variable {s : Stream} {α β : Type} {Q : α → Stream → Prop} {R : β → Stream → Prop}

theorem pure {a : α} (hs : s.Fits text) (h : Q a s) : Meets text s Q (Pure.pure a) :=
  ⟨.refl hs, h⟩

theorem bind {x : Parse α} {f : α → Parse β} (hx : Meets text s Q x)
    (hf : ∀ a s', s.Reaches s' text → Q a s' → Meets text s' R (f a)) :
    Meets text s R (x >>= f) := by
  have hbind : (x >>= f) s = (x s).bind fun r => f r.1 r.2 := rfl
  unfold Meets at hx ⊢
  rw [hbind]
  cases hr : x s with
  | error e =>
    rw [hr] at hx
    exact hx
  | ok r =>
    obtain ⟨a, s'⟩ := r
    rw [hr] at hx
    have hnext := hf a s' hx.1 hx.2
    show match f a s' with
      | .ok (b, s'') => s.Reaches s'' text ∧ R b s''
      | .error e => e.loc.Fits text
    unfold Meets at hnext
    cases hfa : f a s' with
    | error e =>
      rw [hfa] at hnext
      exact hnext
    | ok r' =>
      rw [hfa] at hnext
      exact ⟨hx.1.trans hnext.1, hnext.2⟩

theorem imp {x : Parse α} {Q' : α → Stream → Prop} (hx : Meets text s Q x)
    (hQ : ∀ a s', s.Reaches s' text → Q a s' → Q' a s') : Meets text s Q' x := by
  rw [← bind_pure x]
  exact hx.bind fun a s' hs' h => .pure hs'.fits (hQ a s' hs' h)

theorem map {x : Parse α} {f : α → β} (hx : Meets text s Q x)
    (hf : ∀ a s', s.Reaches s' text → Q a s' → R (f a) s') : Meets text s R (f <$> x) := by
  rw [map_eq_pure_bind]
  exact hx.bind fun a s' hs' h => .pure hs'.fits (hf a s' hs' h)

theorem failAt {cause : SyntaxCause} {loc : Location} (h : loc.Fits text) :
    Meets text s Q (Parse.failAt cause loc) :=
  h

/-! ### Whole texts -/

/-- The answer alone, without the stream that is reached. -/
theorem run {x : Parse α} (h : Meets text s Q x) :
    Parses text (fun a => ∃ s', s.Reaches s' text ∧ Q a s') (x.run' s) := by
  have hrun : x.run' s = (x s).map Prod.fst := rfl
  unfold Meets at h
  rw [hrun]
  cases hx : x s with
  | error e =>
    rw [hx] at h
    exact h
  | ok r =>
    rw [hx] at h
    exact ⟨r.2, h⟩

/-- An answer from elsewhere. -/
theorem lift {x : Except SyntaxError α} {P : α → Prop} (hs : s.Fits text)
    (h : Parses text P x) : Meets text s (fun a s' => P a ∧ s' = s) (liftM x : Parse α) := by
  cases x with
  | error e => exact h
  | ok a => exact ⟨.refl hs, h, rfl⟩

/-! ### Looking at the next token -/

theorem look {f : Stream → Parse α} (h : Meets text s Q (f s)) : Meets text s Q (get >>= f) :=
  h

theorem peek {f : Token → Parse α} (h : Meets text s Q (f s.head)) :
    Meets text s Q (Parse.peek >>= f) :=
  h

theorem here {f : Location → Parse α} (h : Meets text s Q (f s.head.loc)) :
    Meets text s Q (Parse.here >>= f) :=
  h

theorem remaining {f : Nat → Parse α} (h : Meets text s Q (f s.size)) :
    Meets text s Q (Parse.remaining >>= f) :=
  h

theorem atEnd {f : Bool → Parse α} (h : ∀ b, Meets text s Q (f b)) :
    Meets text s Q (Parse.atEnd >>= f) :=
  h _

theorem atSymbol {f : Bool → Parse α} (sym : Symbol)
    (h : ∀ b, s.head.kind.isSymbol sym = b → Meets text s Q (f b)) :
    Meets text s Q (Parse.atSymbol sym >>= f) :=
  h _ rfl

theorem atKeyword {f : Bool → Parse α} (k : Keyword)
    (h : ∀ b, s.head.kind.isKeyword k = b → Meets text s Q (f b)) :
    Meets text s Q (Parse.atKeyword k >>= f) :=
  h _ rfl

/-- The stretch from a point up to the last token read. -/
theorem spanFrom {f : Location → Parse α} {l : Location} (hs : s.Fits text) (hl : l.Fits text)
    (hle : l.start ≤ s.lastStop)
    (h : ∀ l' : Location, l'.Fits text → l'.start = l.start →
      l'.stop = s.lastStop → Meets text s Q (f l')) :
    Meets text s Q (Parse.spanFrom l >>= f) := by
  have hstop : (l.until s.lastStop).stop = s.lastStop := Nat.max_eq_left hle
  exact h (l.until s.lastStop) (hl.until hs.lastStop_le) rfl hstop

end Meets

/-! ### Reading tokens -/

/-- The parser reads the next token at least. -/
def Passes (text : List Char) (s : Stream) {α : Type} (x : Parse α) : Prop :=
  Meets text s (fun _ s' => s.head.loc.stop ≤ s'.lastStop) x

section
variable {s : Stream} {α : Type} {Q : α → Stream → Prop}

theorem TokenKind.ne_finish_of_isSymbol {k : TokenKind} {sym : Symbol}
    (h : k.isSymbol sym = true) : k ≠ .finish := by
  rintro rfl
  cases h

theorem TokenKind.ne_finish_of_isKeyword {k : TokenKind} {w : Keyword}
    (h : k.isKeyword w = true) : k ≠ .finish := by
  rintro rfl
  cases h

theorem skip_meets (hs : s.Fits text) :
    Meets text s
      (fun _ s' => s.head.kind ≠ .finish → s.head.loc.stop ≤ s'.lastStop) Parse.skip :=
  hs.tail

theorem skip_passes (hs : s.Fits text) (h : s.head.kind ≠ .finish) :
    Passes text s Parse.skip :=
  ⟨hs.tail.1, hs.tail.2 h⟩

theorem eatSymbol_meets (hs : s.Fits text) (sym : Symbol) :
    Meets text s (fun b s' => b = true → s.head.loc.stop ≤ s'.lastStop)
      (Parse.eatSymbol sym) := by
  refine .atSymbol sym fun b hb => ?_
  cases b with
  | true =>
    exact (skip_passes hs (TokenKind.ne_finish_of_isSymbol hb)).bind fun _ _ hs' hstop =>
      .pure hs'.fits fun _ => hstop
  | false => exact .pure hs fun h => by cases h

theorem eatKeyword_meets (hs : s.Fits text) (k : Keyword) :
    Meets text s (fun b s' => b = true → s.head.loc.stop ≤ s'.lastStop)
      (Parse.eatKeyword k) := by
  refine .atKeyword k fun b hb => ?_
  cases b with
  | true =>
    exact (skip_passes hs (TokenKind.ne_finish_of_isKeyword hb)).bind fun _ _ hs' hstop =>
      .pure hs'.fits fun _ => hstop
  | false => exact .pure hs fun h => by cases h

theorem unexpected_meets (hs : s.Fits text) : Meets text s Q Parse.unexpected := by
  refine .peek ?_
  split
  · exact .failAt hs.head.1.loc
  · exact .failAt hs.head.1.loc

theorem missing_meets (hs : s.Fits text) (wanted place : String) :
    Meets text s Q (Parse.missing wanted place) :=
  .peek (.failAt hs.head.1.loc)

theorem expectSymbol_passes (hs : s.Fits text) (sym : Symbol) (place : String) :
    Passes text s (Parse.expectSymbol sym place) := by
  refine (eatSymbol_meets hs sym).bind fun b s' hs' hstop => ?_
  cases b with
  | true => exact .pure hs'.fits (hstop rfl)
  | false => exact missing_meets hs'.fits _ _

theorem expectKeyword_passes (hs : s.Fits text) (k : Keyword) (place : String) :
    Passes text s (Parse.expectKeyword k place) := by
  refine (eatKeyword_meets hs k).bind fun b s' hs' hstop => ?_
  cases b with
  | true => exact .pure hs'.fits (hstop rfl)
  | false => exact missing_meets hs'.fits _ _

theorem expectName_passes (hs : s.Fits text) : Passes text s Parse.expectName := by
  refine .peek ?_
  split
  · next hkind =>
    exact (skip_passes hs (by simp [hkind])).bind fun _ _ hs' hstop => .pure hs'.fits hstop
  · exact .failAt hs.head.1.loc

theorem expectPropertyName_passes (hs : s.Fits text) :
    Passes text s Parse.expectPropertyName := by
  refine .peek ?_
  split
  · next hkind =>
    exact (skip_passes hs (by simp [hkind])).bind fun _ _ hs' hstop => .pure hs'.fits hstop
  · next hkind =>
    exact (skip_passes hs (by simp [hkind])).bind fun _ _ hs' hstop => .pure hs'.fits hstop
  · exact .failAt hs.head.1.loc

theorem endStatement_meets (hs : s.Fits text) :
    Meets text s (fun _ _ => True) Parse.endStatement := by
  refine (eatSymbol_meets hs .semicolon).bind fun b s' hs' _ => ?_
  cases b with
  | true => exact .pure hs'.fits trivial
  | false =>
    refine .peek (.atEnd fun b => ?_)
    split
    · exact unexpected_meets hs'.fits
    · exact .pure hs'.fits trivial

end

/-! ### Placed answers -/

section
variable {s s' : Stream} {α : Type} [Fragments α] {lo hi : Nat}

theorem Lie.ahead {a : α} (h : Lie text lo s.lastStop a) (hs : s.Reaches s' text) :
    Lie text lo s'.lastStop a :=
  h.mono (Nat.le_refl _) hs.lastStop_le

theorem Lie.behind {a : α} (h : Lie text s'.head.loc.start hi a) (hs : s.Reaches s' text) :
    Lie text s.head.loc.start hi a :=
  h.mono hs.head_le (Nat.le_refl _)

/-- The parser's answer is placed between the next token and the last one read. -/
def Yields (text : List Char) (s : Stream) (x : Parse α) : Prop :=
  Meets text s (fun a s' => Lie text s.head.loc.start s'.lastStop a) x

/-- The parser's answer is placed between the next token and the last one read, and a
token is read. -/
def Takes (text : List Char) (s : Stream) (x : Parse α) : Prop :=
  Meets text s
    (fun a s' => Lie text s.head.loc.start s'.lastStop a ∧ s.head.loc.start ≤ s'.lastStop) x

/-- Reading an expression takes a token, for it has a place. -/
theorem Yields.takes_expr {x : Parse Expr} (h : Yields text s x) : Takes text s x := by
  refine Meets.imp h fun e s' _ he => ⟨he, ?_⟩
  obtain ⟨hloc, hstart, hstop⟩ := he.expr
  have hle := hloc.start_le
  omega

/-- What was read up to some point, and what is read from there on. -/
theorem Row.andThen {ns ns' : List Fragment} (h : Row text lo s.lastStop ns)
    (hs : s.Fits text) (hlo : lo ≤ s.head.loc.start) (hs' : s.Reaches s' text)
    (h' : Row text s.head.loc.start s'.lastStop ns') : Row text lo s'.lastStop (ns ++ ns') :=
  h.append h' hs.head.2 hlo hs'.lastStop_le

/-- An item, and more of them behind a comma. -/
theorem commaItems_meets {more : Parse (List α)}
    (hmore : ∀ {s : Stream}, s.Fits text → Yields text s more) (hs : s.Fits text)
    (hlo : lo ≤ s.head.loc.start) {a : α} (ha : Lie text lo s.lastStop a) :
    Meets text s (fun as s' => Lie text lo s'.lastStop as)
      (do if ← Parse.eatSymbol .comma then return a :: (← more) else return [a]) := by
  refine (eatSymbol_meets hs .comma).bind fun b s₁ h₁ _ => ?_
  cases b with
  | true =>
    refine (hmore h₁.fits).bind fun as s₂ h₂ has => .pure h₂.fits ?_
    exact Row.andThen (ha.ahead h₁) h₁.fits (Nat.le_trans hlo h₁.head_le) h₂ has
  | false => exact .pure h₁.fits (ha.ahead h₁).singleton

/-- An item, and more of them behind it. -/
theorem items_yields {item : Parse α} {more : Parse (List α)} (hitem : Yields text s item)
    (hmore : ∀ {s : Stream}, s.Fits text → Yields text s more) :
    Yields text s (do let a ← item; return a :: (← more)) := by
  refine hitem.bind fun a s₁ h₁ ha => ?_
  refine (hmore h₁.fits).bind fun as s₂ h₂ has => ?_
  exact .pure h₂.fits (Row.andThen ha h₁.fits h₁.head_le h₂ has)

/-- Items between two symbols. -/
theorem bracketed_takes {items : Nat → Parse α}
    (hitems : ∀ {s : Stream} (n : Nat), s.Fits text → Yields text s (items n))
    (hs : s.Fits text) (left right : Symbol) (opening closing : String) :
    Takes text s (do
      Parse.expectSymbol left opening
      let a ← items ((← Parse.remaining) + 1)
      Parse.expectSymbol right closing
      return a) := by
  have hstart := hs.head.1.loc.start_le
  refine (expectSymbol_passes hs _ _).bind fun _ s₁ h₁ hopen => .remaining ?_
  refine (hitems _ h₁.fits).bind fun a s₂ h₂ ha => ?_
  refine (expectSymbol_passes h₂.fits _ _).bind fun _ s₃ h₃ _ =>
    .pure h₃.fits ⟨(ha.behind h₁).ahead h₃, ?_⟩
  have hstop := (h₂.trans h₃).lastStop_le
  omega

/-- A tree that is one fragment, from a point up to the last token read. -/
theorem span_meets {β : Type} {Q : β → Stream → Prop} {f : Location → Parse β}
    (m : Location → α) {node : Location → Fragment} (hnode : ∀ l, fragments (m l) = [node l])
    (hmake : ∀ l, (node l).loc = l) {start : Location}
    (hshaped : ∀ l, l.start = start.start → l.stop = s.lastStop → (node l).Shaped)
    (hs : s.Fits text) (hstart : start.Fits text) (hle : start.start ≤ s.lastStop)
    (hinner : ∀ l, Row text start.start s.lastStop (node l).inner)
    (h : ∀ l, Lie text start.start s.lastStop (m l) → Meets text s Q (f l)) :
    Meets text s Q (Parse.spanFrom start >>= f) := by
  refine .spanFrom hs hstart hle fun l hl hbegin hend =>
    h l ((lie_iff_of_fragments (hnode l)).2 ?_)
  have hloc := hmake l
  have hparts := hinner l
  have hshape := hshaped l hbegin hend
  generalize node l = n at hloc hparts hshape ⊢
  subst hloc
  rw [← hbegin, ← hend] at hparts ⊢
  exact Fragment.lies_of_inner hl (Nat.le_refl _) (Nat.le_refl _) hparts hshape

/-- Such a tree as the answer, from the next token on. -/
theorem whole_meets {m : Location → α} {node : Location → Fragment}
    (hnode : ∀ l, fragments (m l) = [node l]) (hmake : ∀ l, (node l).loc = l)
    (hshaped : ∀ l, l.start = s.head.loc.start → l.stop = s'.lastStop → (node l).Shaped)
    (hs : s.Fits text) (hs' : s.Reaches s' text) (hpast : s.head.loc.start ≤ s'.lastStop)
    (hinner : ∀ l, Row text s.head.loc.start s'.lastStop (node l).inner) :
    Meets text s' (fun a s'' => Lie text s.head.loc.start s''.lastStop a)
      (do return m (← Parse.spanFrom s.head.loc)) :=
  span_meets m hnode hmake hshaped hs'.fits hs.head.1.loc hpast hinner fun _ h =>
    .pure hs'.fits h

end

/-- The rules of the grammar place what they read. -/
structure Rules.Place (r : Rules) (text : List Char) : Prop where
  expr : ∀ {s : Stream}, s.Fits text → Yields text s r.expr
  unary : ∀ {s : Stream}, s.Fits text → Yields text s r.unary
  stmt : ∀ {s : Stream}, s.Fits text → Yields text s r.stmt

theorem Rules.tooDeep_place (text : List Char) : Rules.tooDeep.Place text :=
  ⟨fun hs => .here (.failAt hs.head.1.loc), fun hs => .here (.failAt hs.head.1.loc),
    fun hs => .here (.failAt hs.head.1.loc)⟩

end ScriptReplay
