/-
Where expressions start and end among the tokens.

An expression has the location of some of the tokens that it was read from.  The others are
parentheses around it, which leave no trace.

* `TokensOf` : the tokens of a stretch of a text;
* `Stream.Spans` : between two streams, tokens with parentheses around them, and the location
  of those inside;
* `IsExcerpt` : an expression that is read alone from the tokens of its location, if their
  parentheses are paired;
* `IsMethod` : a function whose location starts with a key, so that no function is read
  from its tokens;
* `Fragment.Excerpted` : a fragment inside which, at any depth, all expressions but methods
  are excerpts;
* `Gets`, `Finds`, `ReadsExcerpt` : what parsers answer;
* `excerpt_of_whole`, `excerpt_of_suffix`, `excerpt_of_joined`, `excerpt_of_prefix` : new
  nodes, by where they start and end.

Design notes: all that is read, with the parentheses, is paired.  So if there are some before
the tokens of a location, the tokens close more than they open, or all that follows does; and
if what is inside is paired, there are none.
-/
import ScriptReplay.Proofs.Source.Exprs
import ScriptReplay.Proofs.Source.Rereading.Alone

namespace ScriptReplay

open Grammar

variable {text : List Char}

/-! ### Tokens of a text -/

/-- The tokens of a stretch of the text, up to its end. -/
def TokensOf (text : List Char) (ts : List Token) : Prop :=
  ∃ c behind lo final, Cursor.In c text behind lo ∧ tokensFrom c = .ok ⟨ts, final⟩

theorem tokensFrom_cons_eq_ok {c : Cursor} {t : Token} {ts : List Token} {final : Token}
    (h : tokensFrom c = .ok ⟨t :: ts, final⟩) :
    ∃ c' first rest c'', skipGap c = .ok (c', t.newlineBefore) ∧
      c'.rest = first :: rest ∧ scanToken first rest c'.pos = .ok (t.kind, c'') ∧
        t.loc = c'.pos.upTo c''.pos ∧ tokensFrom c'' = .ok ⟨ts, final⟩ := by
  rw [tokensFrom] at h
  split at h
  · cases h
  · next c' newline hgap =>
    split at h
    · cases h
    · next first rest hrest =>
      split at h
      · cases h
      · next k c'' hscan =>
        cases hts : tokensFrom c'' with
        | error e =>
          rw [hts] at h
          cases h
        | ok ts' =>
          rw [hts] at h
          cases h
          exact ⟨c', first, rest, c'', hgap, hrest, hscan, rfl, hts⟩

theorem TokensOf.tail {t : Token} {ts : List Token} (h : TokensOf text (t :: ts)) :
    TokensOf text ts := by
  obtain ⟨c, behind, lo, final, hc, hts⟩ := h
  obtain ⟨c', first, rest, c'', hgap, hrest, hscan, -, hts'⟩ := tokensFrom_cons_eq_ok hts
  have hc' := skipGap_reads hc
  rw [hgap] at hc'
  have hc'' := Cursor.In.scanToken hc' hrest
  rw [hscan] at hc''
  exact ⟨c'', behind, _, final, hc''.1, hts'⟩

theorem TokensOf.of_append {ts ts' : List Token} (h : TokensOf text (ts ++ ts')) :
    TokensOf text ts' := by
  induction ts with
  | nil => exact h
  | cons t ts ih => exact ih h.tail

theorem TokensFit.in_order {lo : Nat} {ts : List Token} {final : Token}
    (h : TokensFit text lo ts final) :
    ∀ u ∈ ts, lo ≤ u.loc.start ∧ u.loc.start ≤ u.loc.stop := by
  induction ts generalizing lo with
  | nil => exact fun _ hu => absurd hu List.not_mem_nil
  | cons t ts ih =>
    have hle := h.1.loc.start_le
    have hlo := h.2.1
    refine List.forall_mem_cons.2 ⟨⟨hlo, hle⟩, fun u hu => ?_⟩
    obtain ⟨hstart, hstop⟩ := ih h.2.2 u hu
    exact ⟨by omega, hstop⟩

/-- Tokens of a text stand one behind the other. -/
theorem TokensOf.in_order {t : Token} {ts : List Token} (h : TokensOf text (t :: ts)) :
    t.loc.start < t.loc.stop ∧ ∀ u ∈ ts, t.loc.stop ≤ u.loc.start ∧
      u.loc.start ≤ u.loc.stop := by
  obtain ⟨c, behind, lo, final, hc, hts⟩ := h
  obtain ⟨c', first, rest, c'', -, -, hscan, -, -⟩ := tokensFrom_cons_eq_ok hts
  have hread := tokensFrom_reads hc
  rw [hts] at hread
  obtain ⟨ht, -, hrest⟩ := hread.1
  exact ⟨ht.nonempty (scanToken_kind_ne_finish hscan), hrest.in_order⟩

theorem TokensOf.start_lt_start {t : Token} {ts : List Token} (h : TokensOf text (t :: ts)) :
    ∀ u ∈ ts, t.loc.start < u.loc.start :=
  fun u hu => Nat.lt_of_lt_of_le h.in_order.1 (h.in_order.2 u hu).1

/-- Tokens of a text stop behind the start of the first one. -/
theorem TokensOf.start_lt_stop {t : Token} {ts : List Token} (h : TokensOf text (t :: ts)) :
    ∀ u ∈ t :: ts, t.loc.start < u.loc.stop :=
  List.forall_mem_cons.2 ⟨h.in_order.1, fun u hu =>
    Nat.lt_of_lt_of_le (h.start_lt_start u hu) (h.in_order.2 u hu).2⟩

/-- The stream holds the tokens of a stretch of the text. -/
structure Stream.Of (s : Stream) (text : List Char) : Prop where
  tokens : TokensOf text s.rest
  final : s.final.kind = .finish

theorem Stream.Of.passes {s s' : Stream} {i j : Nat} {pre : List Token} (h : s.Of text)
    (hp : s.Passes s' i j pre) : s'.Of text := by
  have htokens := h.tokens
  rw [hp.rest] at htokens
  exact ⟨htokens.of_append, hp.final ▸ h.final⟩

theorem Stream.Of.head_fits {s : Stream} {t : Token} {rest : List Token} (hs : s.Of text)
    (hrest : s.rest = t :: rest) : t.Fits text := by
  obtain ⟨c, behind, lo, final, hc, hts⟩ := hs.tokens
  have hread := tokensFrom_reads hc
  rw [hts, hrest] at hread
  exact hread.1.1

/-! ### Parentheses around an expression -/

theorem parenDepth_add {d d' : Nat} {ts : List Token} (h : parenDepth d ts = some d')
    (k : Nat) : parenDepth (d + k) ts = some (d' + k) := by
  induction ts generalizing d with
  | nil =>
    cases h
    rfl
  | cons t ts ih =>
    unfold parenDepth at h ih ⊢
    rw [List.foldlM_cons] at h ⊢
    obtain ⟨e, he, hts⟩ := Option.bind_eq_some_iff.1 h
    have hshift : t.kind.parens? (d + k) = some (e + k) := by
      cases hk : t.kind with
      | symbol sym =>
        rw [hk] at he
        change sym.parens? d = some e at he
        show sym.parens? (d + k) = some (e + k)
        unfold Symbol.parens? at he ⊢
        split at he
        · cases he
          exact congrArg some (by omega)
        · cases d with
          | zero => cases he
          | succ d =>
            cases he
            rw [show e + 1 + k = e + k + 1 by omega]
        · cases he
          rfl
      | _ =>
        rw [hk] at he
        cases he
        rfl
    rw [hshift]
    exact ih hts

theorem Stream.Passes.deeper {s s' : Stream} {i j : Nat} {pre : List Token}
    (h : s.Passes s' i j pre) (k : Nat) : s.Passes s' (i + k) (j + k) pre :=
  ⟨h.rest, h.final, h.lastStop, parenDepth_add h.depth k⟩

theorem parenDepth_opened {ts : List Token} (h : ∀ t ∈ ts, t.kind = .symbol .lparen)
    (d : Nat) : parenDepth d ts = some (d + ts.length) := by
  induction ts generalizing d with
  | nil => rfl
  | cons t ts ih =>
    obtain ⟨ht, hts⟩ := List.forall_mem_cons.1 h
    have hstep : parenDepth d (t :: ts) = parenDepth (d + 1) ts := by
      unfold parenDepth
      rw [List.foldlM_cons, ht]
      rfl
    rw [hstep, ih hts, List.length_cons, Nat.add_assoc, Nat.add_comm 1]

/-- What follows parentheses that it closes closes more than it opens. -/
theorem parenDepth_eq_none {opened ts : List Token}
    (hopened : ∀ t ∈ opened, t.kind = .symbol .lparen) (hne : opened ≠ [])
    (h : parenDepth 0 (opened ++ ts) = some 0) (ts' : List Token) :
    parenDepth 0 (ts ++ ts') = none := by
  rw [parenDepth_append, parenDepth_opened hopened] at h
  have hpos := List.length_pos_iff.2 hne
  cases hts : parenDepth 0 ts with
  | none => rw [parenDepth_append, hts, Option.bind_none]
  | some d =>
    have hshift := parenDepth_add hts opened.length
    rw [Option.bind_some, hshift, Option.some.injEq] at h
    omega

theorem eq_nil_of_closed {ts : List Token} (hts : ∀ t ∈ ts, t.kind = .symbol .rparen)
    {d : Nat} (h : parenDepth 0 ts = some d) : ts = [] := by
  cases ts with
  | nil => rfl
  | cons t ts =>
    unfold parenDepth at h
    rw [List.foldlM_cons, (List.forall_mem_cons.1 hts).1] at h
    cases h

/-- The location reaches from the first of the tokens to the last one. -/
structure Around (ts : List Token) (l : Location) : Prop where
  start : ∃ t, ts.head? = some t ∧ l.start = t.loc.start
  stop : ∃ t, ts.getLast? = some t ∧ l.stop = t.loc.stop

theorem Around.of_until {first : Token} {rest more : List Token} {u : Token} {l : Location}
    (h : TokensOf text (first :: rest ++ more)) (hu : (first :: rest).getLast? = some u)
    (hstart : l.start = first.loc.start) : Around (first :: rest) (l.until u.loc.stop) := by
  have hle :=
    Nat.le_of_lt (h.start_lt_stop u (List.mem_append_left more (List.mem_of_getLast? hu)))
  refine ⟨⟨first, rfl, hstart⟩, u, hu, ?_⟩
  show max u.loc.stop l.start = u.loc.stop
  rw [hstart, Nat.max_eq_left hle]

/-- Between the streams, a location is that of some tokens in parentheses. -/
structure Stream.Spans (s s' : Stream) (l : Location) (opened inner closed : List Token) :
    Prop where
  passes : s.Passes s' 0 0 (opened ++ (inner ++ closed))
  opened : ∀ t ∈ opened, t.kind = .symbol .lparen
  closed : ∀ t ∈ closed, t.kind = .symbol .rparen
  around : Around inner l

/-- The location of the expression is that of some tokens of the text, and if the parentheses
among them are paired, they are read alone as the expression. -/
def IsExcerpt (text : List Char) (top : Rules) (e : Expr) : Prop :=
  ∃ inner more, TokensOf text (inner ++ more) ∧ Around inner e.loc ∧
    (parenDepth 0 inner = some 0 → ReadsAlone (assignment top) inner e)

/-- The tokens of a new node have no parentheses around them. -/
theorem Stream.Spans.isExcerpt {s s' : Stream} {e : Expr} {opened inner closed : List Token}
    {top : Rules} (h : s.Spans s' e.loc opened inner closed) (hs : s.Of text)
    (hopened : opened ≠ [] → parenDepth 0 inner = none)
    (halone : ReadsAlone (assignment top) (opened ++ (inner ++ closed)) e) :
    IsExcerpt text top e := by
  have htokens := hs.tokens
  rw [h.passes.rest, List.append_assoc, List.append_assoc] at htokens
  refine ⟨inner, closed ++ s'.rest, htokens.of_append, h.around, fun hpaired => ?_⟩
  obtain rfl : opened = [] := by
    by_contra hne
    rw [hopened hne] at hpaired
    cases hpaired
  have hdepth := h.passes.depth
  rw [List.nil_append, parenDepth_append, hpaired, Option.bind_some] at hdepth
  obtain rfl := eq_nil_of_closed h.closed hdepth
  rw [List.nil_append, List.append_nil] at halone
  exact halone

/-! ### Excerpts at every depth -/

/-- The expression is a method: a function that starts where its property does. -/
def Fragment.HasMethod (outer : Fragment) (e : Expr) : Prop :=
  ∃ p f l, outer = .property p ∧ e = .function f l ∧ l.start = p.loc.start

/-- A function with a name in front of its parameters. -/
def Expr.IsNamed (e : Expr) : Prop :=
  ∃ f l, e = .function f l ∧ f.isArrow = false ∧ f.name ≠ none

/-- The location of the function with a name is that of some tokens of the text, the second
one of which is the first to open a parenthesis. -/
def IsMethod (text : List Char) (e : Expr) : Prop :=
  ∃ key paren inner more, TokensOf text (key :: paren :: inner ++ more) ∧
    Around (key :: paren :: inner) e.loc ∧
    key.kind.isSymbol .lparen = false ∧ paren.kind.isSymbol .lparen = true ∧ e.IsNamed

/-- A fragment inside which, at any depth, all expressions are excerpts, but for methods. -/
inductive Fragment.Excerpted (text : List Char) (top : Rules) : Fragment → Prop
  | mk {n : Fragment}
    (here : ∀ n' ∈ n.inner, ∀ e, n' = .expr e → ¬ n.HasMethod e → IsExcerpt text top e)
    (method : ∀ n' ∈ n.inner, ∀ e, n' = .expr e → n.HasMethod e → IsMethod text e)
    (inner : ∀ n' ∈ n.inner, n'.Excerpted text top) : n.Excerpted text top

variable {top : Rules}

/-- What is excerpted is so at every depth. -/
theorem Fragment.Excerpted.of_encloses {n outer : Fragment} (h : n.Excerpted text top)
    (henc : n.Encloses outer) : outer.Excerpted text top := by
  induction henc with
  | refl => exact h
  | tail _ hmem ih =>
    cases ih with
    | mk _ _ hinner => exact hinner _ hmem

/-- A fragment that is an excerpt, if it is an expression, and so are those inside it. -/
structure Fragment.Found (n : Fragment) (text : List Char) (top : Rules) : Prop where
  here : ∀ e, n = .expr e → IsExcerpt text top e
  inner : n.Excerpted text top

/-- A tree whose expressions are excerpts. -/
def Found (text : List Char) (top : Rules) {α : Type} [Fragments α] (a : α) : Prop :=
  ∀ n ∈ fragments a, n.Found text top

section
variable {α : Type} [Fragments α]

theorem found_nil : Found text top ([] : List α) :=
  fun _ hn => absurd hn List.not_mem_nil

theorem Found.cons {a : α} {as : List α} (h : Found text top a) (hs : Found text top as) :
    Found text top (a :: as) :=
  List.forall_mem_append.2 ⟨h, hs⟩

theorem found_none : Found text top (none : Option α) :=
  fun _ hn => absurd hn List.not_mem_nil

theorem Fragment.excerpted_of_inner {n : Fragment} (hmethod : ∀ e, ¬ n.HasMethod e)
    (hinner : ∀ n' ∈ n.inner, n'.Found text top) : n.Excerpted text top :=
  .mk (fun n' hn' e he _ => (hinner n' hn').here e he)
    (fun _ _ e _ he => absurd he (hmethod e))
    fun n' hn' => (hinner n' hn').inner

theorem Fragment.not_hasMethod {n : Fragment} (hn : ∀ p, n ≠ .property p) (e : Expr) :
    ¬ n.HasMethod e :=
  fun ⟨p, _, _, hp, _⟩ => hn p hp

/-- A tree that is one fragment, which is no expression. -/
theorem found_of_inner {a : α} {n : Fragment} (ha : fragments a = [n]) (hn : ∀ e, n ≠ .expr e)
    (hmethod : ∀ e, ¬ n.HasMethod e) (hinner : ∀ n' ∈ n.inner, n'.Found text top) :
    Found text top a := by
  intro n' hn'
  rw [ha] at hn'
  obtain rfl := List.mem_singleton.1 hn'
  exact ⟨fun e he => absurd he (hn e), Fragment.excerpted_of_inner hmethod hinner⟩

theorem Expr.found_of_inner {e : Expr} (he : IsExcerpt text top e)
    (hinner : ∀ n ∈ e.inner, n.Found text top) : Found text top e := by
  intro n hn
  obtain rfl := List.mem_singleton.1 hn
  refine ⟨fun e' he' => ?_, Fragment.excerpted_of_inner (Fragment.not_hasMethod nofun) hinner⟩
  cases he'
  exact he

end

/-! ### Parsers that give excerpts -/

variable {α β : Type} {s s' s₁ s₂ : Stream}

/-- An answer that the parser gives here is as described. -/
def Gets (text : List Char) (s : Stream) (Q : α → Stream → Prop) (x : Parse α) : Prop :=
  s.Of text → ∀ a s', x s = .ok (a, s') → s'.Of text ∧ Q a s'

namespace Gets

variable {Q Q' : α → Stream → Prop} {R : β → Stream → Prop}

theorem pure {a : α} (h : Q a s) : Gets text s Q (Pure.pure a) := by
  intro hs a' s' hrun
  cases hrun
  exact ⟨hs, h⟩

theorem bind {x : Parse α} {f : α → Parse β} (hx : Gets text s Q x)
    (hf : ∀ a s', x s = .ok (a, s') → s'.Of text → Q a s' → Gets text s' R (f a)) :
    Gets text s R (x >>= f) := by
  intro hs b s'' hrun
  obtain ⟨a, s', hxs, hfs⟩ := Parse.bind_eq_ok hrun
  obtain ⟨hs', hQ⟩ := hx hs a s' hxs
  exact hf a s' hxs hs' hQ hs' b s'' hfs

/-- What follows a parser, whatever tokens it read. -/
theorem andThen {x : Parse α} {f : α → Parse β} (hx : Gets text s Q x)
    (hf : ∀ a s', Q a s' → Gets text s' R (f a)) : Gets text s R (x >>= f) :=
  hx.bind fun a s' _ _ => hf a s'

theorem imp {x : Parse α} (hx : Gets text s Q x)
    (hQ : ∀ a s', s.Of text → x s = .ok (a, s') → Q a s' → Q' a s') : Gets text s Q' x :=
  fun hs a s' hrun => ⟨(hx hs a s' hrun).1, hQ a s' hs hrun (hx hs a s' hrun).2⟩

theorem fails {x : Parse α} (h : ∀ r, x s ≠ .ok r) : Gets text s Q x :=
  fun _ a s' hrun => absurd hrun (h (a, s'))

theorem run {x : Parse α} (hx : Gets text s Q x) (hs : s.Of text) {a : α}
    (h : x.run' s = .ok a) : ∃ s', Q a s' := by
  have hrun : x.run' s = (x s).map Prod.fst := rfl
  rw [hrun] at h
  cases hxs : x s with
  | error e =>
    rw [hxs] at h
    cases h
  | ok r =>
    rw [hxs] at h
    cases h
    exact ⟨r.2, (hx hs r.1 r.2 hxs).2⟩

theorem look {f : Stream → Parse α} (h : Gets text s Q (f s)) : Gets text s Q (get >>= f) := h

theorem peek {f : Token → Parse α} (h : Gets text s Q (f s.head)) :
    Gets text s Q (Parse.peek >>= f) :=
  h

theorem here {f : Location → Parse α} (h : Gets text s Q (f s.head.loc)) :
    Gets text s Q (Parse.here >>= f) :=
  h

theorem remaining {f : Nat → Parse α} (h : Gets text s Q (f s.size)) :
    Gets text s Q (Parse.remaining >>= f) :=
  h

theorem atEnd {f : Bool → Parse α} (h : ∀ b, Gets text s Q (f b)) :
    Gets text s Q (Parse.atEnd >>= f) :=
  h _

theorem atSymbol {f : Bool → Parse α} {sym : Symbol}
    (h : ∀ b, s.head.kind.isSymbol sym = b → Gets text s Q (f b)) :
    Gets text s Q (Parse.atSymbol sym >>= f) :=
  h _ rfl

theorem atKeyword {f : Bool → Parse α} {w : Keyword}
    (h : ∀ b, s.head.kind.isKeyword w = b → Gets text s Q (f b)) :
    Gets text s Q (Parse.atKeyword w >>= f) :=
  h _ rfl

theorem spanFrom {f : Location → Parse α} {l : Location}
    (h : Gets text s Q (f (l.until s.lastStop))) : Gets text s Q (Parse.spanFrom l >>= f) :=
  h

end Gets

/-- The parser goes on in the text. -/
def Keeps (text : List Char) (s : Stream) (x : Parse α) : Prop :=
  Gets text s (fun _ _ => True) x

namespace Keeps

variable {R : β → Stream → Prop}

/-- What follows a parser of whose answer nothing is known. -/
theorem andThen {x : Parse α} {f : α → Parse β} (hx : Keeps text s x)
    (hf : ∀ a s', Gets text s' R (f a)) : Gets text s R (x >>= f) :=
  hx.bind fun a s' _ _ _ => hf a s'

/-- What follows a parser of whose answer nothing is used. -/
theorem skipped {x : Parse α} {y : Parse β} (hx : Keeps text s x)
    (hy : ∀ s', Gets text s' R y) : Gets text s R (x >>= fun _ => y) :=
  hx.andThen fun _ => hy

end Keeps

theorem skip_keeps : Keeps text s Parse.skip := by
  intro hs a s' hrun
  cases hrun
  cases hrest : s.rest with
  | nil =>
    have htail : s.tail = s := by
      unfold Stream.tail
      split
      · rfl
      · next h =>
        rw [hrest] at h
        cases h
    exact ⟨htail.symm ▸ hs, trivial⟩
  | cons t rest =>
    have htokens := hs.tokens
    rw [hrest] at htokens
    obtain ⟨hrest', hfinal, -⟩ := s.tail_of hrest
    exact ⟨⟨hrest' ▸ htokens.tail, hfinal ▸ hs.final⟩, trivial⟩

/-- The next token, and what follows. -/
theorem Gets.skip {R : β → Stream → Prop} {y : Parse β} (h : Gets text s.tail R y) :
    Gets text s R (Parse.skip >>= fun _ => y) := by
  refine skip_keeps.bind ?_
  intro _ s' hskip _ _
  cases hskip
  exact h

theorem eatSymbol_keeps {sym : Symbol} : Keeps text s (Parse.eatSymbol sym) := by
  refine .atSymbol fun b _ => ?_
  cases b with
  | true => exact .skip (.pure trivial)
  | false => exact .pure trivial

theorem eatKeyword_keeps {w : Keyword} : Keeps text s (Parse.eatKeyword w) := by
  refine .atKeyword fun b _ => ?_
  cases b with
  | true => exact .skip (.pure trivial)
  | false => exact .pure trivial

theorem expectSymbol_keeps {sym : Symbol} {place : String} :
    Keeps text s (Parse.expectSymbol sym place) := by
  refine eatSymbol_keeps.andThen ?_
  intro b _
  cases b with
  | true => exact .pure trivial
  | false => exact .fails fun _ h => by cases h

theorem expectKeyword_keeps {w : Keyword} {place : String} :
    Keeps text s (Parse.expectKeyword w place) := by
  refine eatKeyword_keeps.andThen ?_
  intro b _
  cases b with
  | true => exact .pure trivial
  | false => exact .fails fun _ h => by cases h

theorem expectName_keeps : Keeps text s Parse.expectName := by
  refine .peek ?_
  split
  · exact .skip (.pure trivial)
  · exact .fails fun _ h => by cases h

theorem expectPropertyName_keeps : Keeps text s Parse.expectPropertyName := by
  refine .peek ?_
  split
  · exact .skip (.pure trivial)
  · exact .skip (.pure trivial)
  · exact .fails fun _ h => by cases h

theorem endStatement_keeps : Keeps text s Parse.endStatement := by
  refine eatSymbol_keeps.andThen ?_
  intro b _
  cases b with
  | true => exact .pure trivial
  | false =>
    refine .peek (.atEnd fun b => ?_)
    split
    · exact .fails (Parse.unexpected_ne_ok _)
    · exact .pure trivial

theorem passes_head (hs : s.final.kind = .finish) (hne : s.head.kind ≠ .finish)
    (hd : s.head.kind.parens? 0 = some 0) : ∃ t, s.Passes s.tail 0 0 [t] := by
  obtain ⟨t, hrest, ht⟩ := exists_rest_of_head hne hs rfl
  exact ⟨t, s.passes_tail hrest (ht ▸ hd)⟩

/-- A symbol that is passed if it comes next, and is no parenthesis. -/
theorem eatSymbol_gets {sym : Symbol} (hd : sym.parens? 0 = some 0) :
    Gets text s (fun b s' => if b then ∃ t, s.Passes s' 0 0 [t] else s' = s)
      (Parse.eatSymbol sym) := by
  intro hs
  refine Gets.atSymbol (fun b hb => ?_) hs
  cases b with
  | true =>
    have hkind := eq_symbol_of_isSymbol hb
    have hp := passes_head hs.final (hkind ▸ nofun) (hkind ▸ hd)
    exact .skip (.pure hp)
  | false => exact .pure rfl

theorem eatKeyword_gets {w : Keyword} :
    Gets text s (fun b s' => if b then ∃ t, s.Passes s' 0 0 [t] else s' = s)
      (Parse.eatKeyword w) := by
  intro hs
  refine Gets.atKeyword (fun b hb => ?_) hs
  cases b with
  | true =>
    obtain ⟨hne, hd⟩ := ne_finish_of_isKeyword (i := 0) hb
    have hp := passes_head hs.final hne hd
    exact .skip (.pure hp)
  | false => exact .pure rfl

/-- The parser's answer is a tree whose expressions are excerpts. -/
def Finds (text : List Char) (top : Rules) (s : Stream) [Fragments α] (x : Parse α) : Prop :=
  Gets text s (fun a _ => Found text top a) x

/-- The parser reads an expression: the location that it has is that of some tokens in
parentheses, and its parts are excerpts as it is itself. -/
structure ReadsExcerpt (text : List Char) (top : Rules) (s : Stream) (e : Expr)
    (s' : Stream) : Prop where
  spans : ∃ opened inner closed, s.Spans s' e.loc opened inner closed
  found : Found text top e

/-- The rules read expressions that are excerpts for other rules. -/
structure Rules.Finds (r : Rules) (text : List Char) (top : Rules) : Prop where
  reread : r.Reread False top
  again : top.Reread False top
  expr : ∀ {s}, Gets text s (ReadsExcerpt text top s) r.expr
  unary : ∀ {s}, Gets text s (ReadsExcerpt text top s) r.unary
  stmt : ∀ {s}, ScriptReplay.Finds text top s r.stmt

theorem Rules.Finds.found {r : Rules} (h : r.Finds text top) :
    ScriptReplay.Finds text top s r.expr :=
  h.expr.imp fun _ _ _ _ h => h.found

/-! ### New nodes -/

/-- The parser reads the tokens up to here alone as the expression. -/
def Alone (top : Rules) (s s' : Stream) (e : Expr) : Prop :=
  ∃ pre, s.Passes s' 0 0 pre ∧ pre ≠ [] ∧ ReadsAlone (assignment top) pre e

theorem alone_of {e : Expr} {x y : Parse Expr}
    (hx : ∀ m, Rereads False .nothing true 0 0 m s x y)
    (hy : ∀ {pre e}, ReadsAlone y pre e → ReadsAlone (assignment top) pre e)
    (hs : s.final.kind = .finish) (hrun : x s = .ok (e, s')) : Alone top s s' e := by
  obtain ⟨pre, hp, hne, hread⟩ := alone_of_rereads hx hs hrun
  exact ⟨pre, hp, hne, hy hread⟩

/-- What the parser reads is read alone, so it is enough to find the tokens of new nodes. -/
theorem Gets.excerpt {x y : Parse Expr}
    (h : s.Of text →
      Gets text s (fun e s' => Alone top s s' e → ReadsExcerpt text top s e s') x)
    (hx : ∀ m, Rereads False .nothing true 0 0 m s x y)
    (hy : ∀ {pre e}, ReadsAlone y pre e → ReadsAlone (assignment top) pre e) :
    Gets text s (ReadsExcerpt text top s) x :=
  fun hs => (h hs).imp (fun _ _ hs hrun h => h (alone_of hx hy hs.final hrun)) hs

theorem Stream.Passes.unique {i i' j j' : Nat} {pre pre' : List Token}
    (h : s.Passes s' i j pre) (h' : s.Passes s' i' j' pre') : pre = pre' :=
  List.append_cancel_right (h.rest.symm.trans h'.rest)

theorem Stream.Passes.last {i j : Nat} {pre : List Token} (h : s.Passes s' i j pre)
    (hne : pre ≠ []) : ∃ u, pre.getLast? = some u ∧ s'.lastStop = u.loc.stop := by
  refine ⟨pre.getLast hne, List.getLast?_eq_some_getLast hne, ?_⟩
  rw [h.lastStop]
  cases pre using List.reverseRecOn with
  | nil => exact absurd rfl hne
  | append_singleton pre u => simp

/-- A node that starts at the first token read. -/
theorem excerpt_of_first {e : Expr} {inner closed : List Token} {u : Token} (hs : s.Of text)
    (hp : s.Passes s' 0 0 (inner ++ closed))
    (hclosed : ∀ t ∈ closed, t.kind = .symbol .rparen) (hu : inner.getLast? = some u)
    (hloc : ∃ l : Location, l.start = s.head.loc.start ∧ e.loc = l.until u.loc.stop)
    (halone : Alone top s s' e) (hinner : ∀ n ∈ e.inner, n.Found text top) :
    ReadsExcerpt text top s e s' := by
  obtain ⟨l, hstart, hloc⟩ := hloc
  obtain ⟨first, rest, rfl⟩ : ∃ first rest, inner = first :: rest := by
    cases inner with
    | nil => cases hu
    | cons first rest => exact ⟨first, rest, rfl⟩
  have hhead : s.head = first := by
    rw [Stream.head, hp.rest]
    rfl
  have htokens := hs.tokens
  rw [hp.rest, List.append_assoc] at htokens
  have hspans : s.Spans s' e.loc [] (first :: rest) closed :=
    ⟨hp, fun _ h => absurd h List.not_mem_nil, hclosed,
      hloc ▸ .of_until htokens hu (hhead ▸ hstart)⟩
  obtain ⟨pre, hpre, -, hread⟩ := halone
  obtain rfl := hpre.unique hp
  exact ⟨⟨_, _, _, hspans⟩,
    Expr.found_of_inner (hspans.isExcerpt hs (fun h => absurd rfl h) hread) hinner⟩

/-- A node that starts where an expression does that was read before. -/
theorem excerpt_of_operand {l : Location} {e : Expr} {mid closed' : List Token} {u : Token}
    (hs : s.Of text) (hoperand : ∃ opened inner closed, s.Spans s₁ l opened inner closed)
    (hp : s₁.Passes s' 0 0 (mid ++ closed'))
    (hclosed : ∀ t ∈ closed', t.kind = .symbol .rparen) (hu : mid.getLast? = some u)
    (hloc : e.loc = l.until u.loc.stop) (halone : Alone top s s' e)
    (hinner : ∀ n ∈ e.inner, n.Found text top) : ReadsExcerpt text top s e s' := by
  obtain ⟨opened, inner, closed, hspans⟩ := hoperand
  have hwhole : s.Passes s' 0 0 (opened ++ ((inner ++ (closed ++ mid)) ++ closed')) := by
    have htrans := hspans.passes.trans hp
    simp only [List.append_assoc] at htrans ⊢
    exact htrans
  obtain ⟨first, hfirst, hstart⟩ := hspans.around.start
  obtain ⟨rest, rfl⟩ : ∃ rest, inner = first :: rest := by
    cases inner with
    | nil => cases hfirst
    | cons first' rest =>
      cases hfirst
      exact ⟨rest, rfl⟩
  have htokens := hs.tokens
  rw [hwhole.rest, List.append_assoc, List.append_assoc] at htokens
  have hlast : (first :: rest ++ (closed ++ mid)).getLast? = some u := by
    rw [List.getLast?_append, List.getLast?_append, hu]
    rfl
  have haround : Around (first :: rest ++ (closed ++ mid)) e.loc :=
    hloc ▸ .of_until htokens.of_append hlast hstart
  have hnew : s.Spans s' e.loc opened (first :: rest ++ (closed ++ mid)) closed' :=
    ⟨hwhole, hspans.opened, hclosed, haround⟩
  obtain ⟨pre, hpre, -, hread⟩ := halone
  -- Both reach from the first stream to the last one, so they are the same tokens.
  obtain rfl := hpre.unique hwhole
  refine ⟨⟨_, _, _, hnew⟩,
    Expr.found_of_inner (hnew.isExcerpt hs (fun hne => ?_) hread) hinner⟩
  rw [← List.append_assoc]
  exact parenDepth_eq_none hspans.opened hne hspans.passes.depth mid

/-- A node from the first token read up to the last one. -/
theorem excerpt_of_whole {e : Expr} (hs : s.Of text) {l : Location}
    (hl : l.start = s.head.loc.start) (hloc : e.loc = l.until s'.lastStop)
    (halone : Alone top s s' e) (hinner : ∀ n ∈ e.inner, n.Found text top) :
    ReadsExcerpt text top s e s' := by
  obtain ⟨pre, hp, hne, hread⟩ := halone
  obtain ⟨u, hu, hstop⟩ := hp.last hne
  have hpre : s.Passes s' 0 0 (pre ++ []) := (List.append_nil pre).symm ▸ hp
  exact excerpt_of_first hs hpre (fun _ h => absurd h List.not_mem_nil) hu
    ⟨l, hl, hstop ▸ hloc⟩ ⟨pre, hp, hne, hread⟩ hinner

/-- A node from the start of an expression that was read before up to the last token read. -/
theorem excerpt_of_suffix {l : Location} {e : Expr} {mid : List Token} (hs : s.Of text)
    (hoperand : ∃ opened inner closed, s.Spans s₁ l opened inner closed)
    (hp : s₁.Passes s' 0 0 mid) (hne : mid ≠ []) (hloc : e.loc = l.until s'.lastStop)
    (halone : Alone top s s' e) (hinner : ∀ n ∈ e.inner, n.Found text top) :
    ReadsExcerpt text top s e s' := by
  obtain ⟨u, hu, hstop⟩ := hp.last hne
  have hmid : s₁.Passes s' 0 0 (mid ++ []) := (List.append_nil mid).symm ▸ hp
  exact excerpt_of_operand hs hoperand hmid
    (fun _ h => absurd h List.not_mem_nil) hu (hstop ▸ hloc) halone hinner

/-- A node from the start of an expression that was read before up to the end of
another one. -/
theorem excerpt_of_joined {l l' : Location} {e : Expr} {mid : List Token} (hs : s.Of text)
    (hoperand : ∃ opened inner closed, s.Spans s₁ l opened inner closed)
    (hp : s₁.Passes s₂ 0 0 mid)
    (hlast : ∃ opened inner closed, s₂.Spans s' l' opened inner closed)
    (hloc : e.loc = l.through l') (halone : Alone top s s' e)
    (hinner : ∀ n ∈ e.inner, n.Found text top) : ReadsExcerpt text top s e s' := by
  obtain ⟨opened, inner, closed, hspans⟩ := hlast
  obtain ⟨u, hu, hstop⟩ := hspans.around.stop
  have hmid : s₁.Passes s' 0 0 ((mid ++ (opened ++ inner)) ++ closed) := by
    have htrans := hp.trans hspans.passes
    simp only [List.append_assoc] at htrans ⊢
    exact htrans
  refine excerpt_of_operand hs hoperand hmid hspans.closed (u := u) ?_
    (hstop ▸ hloc) halone hinner
  rw [List.getLast?_append, List.getLast?_append, hu]
  rfl

/-- A node from the first token read up to the end of an expression. -/
theorem excerpt_of_prefix {l' : Location} {e : Expr} {mid : List Token} (hs : s.Of text)
    (hp : s.Passes s₁ 0 0 mid)
    (hlast : ∃ opened inner closed, s₁.Spans s' l' opened inner closed)
    (hloc : e.loc = s.head.loc.through l') (halone : Alone top s s' e)
    (hinner : ∀ n ∈ e.inner, n.Found text top) : ReadsExcerpt text top s e s' := by
  obtain ⟨opened, inner, closed, hspans⟩ := hlast
  obtain ⟨u, hu, hstop⟩ := hspans.around.stop
  have hmid : s.Passes s' 0 0 ((mid ++ (opened ++ inner)) ++ closed) := by
    have htrans := hp.trans hspans.passes
    simp only [List.append_assoc] at htrans ⊢
    exact htrans
  refine excerpt_of_first hs hmid hspans.closed (u := u) ?_
    ⟨s.head.loc, rfl, hstop ▸ hloc⟩ halone hinner
  rw [List.getLast?_append, List.getLast?_append, hu]
  rfl

end ScriptReplay
