/-
Reading tokens again.

A parser that answered from some tokens is run again, at another place and maybe with fewer
levels, on tokens that are the same up to places.  It gives the same answer up to places.
What stands behind the tokens may be missing then.

* `Bare` : trees of every type without their places;
* `Ahead` : what a second run finds, compared with what the first one found;
* `Stream.Passes` : the tokens between two streams, with the parentheses that they
  open and close;
* `Rereads` : a parser that reads again what another one read;
* `Rereads.step`, `Rereads.pass`, `Rereads.closed`, `Rereads.still` : what follows a parser;
* `Rules.Reread` : the rules of a grammar that read again what those of another one read.

Design notes: most parsers look at the token behind what they read, to see that they are
done.  `View` says what a second run sees there.  Nothing there ends an operand as well as any
other token would, but a list or a block must see its closing mark; so what reads a list up
to its end asks for `View.next`, and the closing mark that is read next gives it.  Only a run
with fewer levels can fail, and then the nesting is too deep.
-/
import Mathlib.Data.List.Forall2
import ScriptReplay.Program.Parser.Stmt
import ScriptReplay.Proofs.Source.Bare
import ScriptReplay.Proofs.Source.Operands
import ScriptReplay.Proofs.Source.Rescans

namespace ScriptReplay

/-! ### Trees up to their places -/

/-- Trees without their places. -/
class Bare (α : Type) where
  bare : α → α

export Bare (bare)

variable {α β : Type}

instance : Bare Expr := ⟨Expr.bare⟩
instance : Bare Stmt := ⟨Stmt.bare⟩
instance : Bare Target := ⟨Target.bare⟩
instance : Bare Key := ⟨Key.bare⟩
instance : Bare Property := ⟨Property.bare⟩
instance : Bare Param := ⟨Param.bare⟩
instance : Bare Body := ⟨Body.bare⟩
instance : Bare Routine := ⟨Routine.bare⟩
instance : Bare Declarator := ⟨Declarator.bare⟩
instance : Bare Handler := ⟨Handler.bare⟩
instance : Bare Location := ⟨fun _ => default⟩
instance : Bare Unit := ⟨id⟩
instance : Bare Bool := ⟨id⟩
instance : Bare Nat := ⟨id⟩
instance : Bare String := ⟨id⟩
instance [Bare α] : Bare (List α) := ⟨List.map bare⟩
instance [Bare α] : Bare (Option α) := ⟨Option.map bare⟩
instance [Bare α] [Bare β] : Bare (α × β) := ⟨Prod.map bare bare⟩

/-! ### Cut streams -/

/-- The second tokens are like the first ones as far as they go. -/
inductive Cut : List Token → List Token → Prop
  | nil {ts : List Token} : Cut ts []
  | cons {t t' : Token} {ts ts' : List Token} (h : t.Alike t') (hs : Cut ts ts') :
      Cut (t :: ts) (t' :: ts')

theorem Token.Alike.refl (t : Token) : t.Alike t := ⟨rfl, rfl⟩

theorem Cut.append {pre pre' ts ts' : List Token} (hpre : List.Forall₂ Token.Alike pre pre')
    (h : Cut ts ts') : Cut (pre ++ ts) (pre' ++ ts') := by
  induction hpre with
  | nil => exact h
  | cons ht _ ih => exact .cons ht ih

/-- What a second run finds behind the tokens that it reads again: a token if the first run
left one, any beginning of what the first run left, or nothing. -/
inductive View where
  | next
  | part
  | nothing

/-- What a second run finds between the tokens that it reads again. -/
def View.between : View → View
  | next => next
  | part | nothing => part

/-- Tokens ahead of a parser: like those of another run as far as they go, as the
view has it. -/
structure Ahead (view : View) (ts ts' : List Token) : Prop where
  cut : Cut ts ts'
  next : view = .next → ts' = [] → ts = []
  nothing : view = .nothing → ts' = []

theorem Cut.refl (ts : List Token) : Cut ts ts := by
  induction ts with
  | nil => exact .nil
  | cons t ts ih => exact .cons (.refl t) ih

theorem Ahead.refl (view : View) (ts : List Token) : Ahead view.between ts ts :=
  ⟨.refl ts, fun _ h => h, fun h => by cases view <;> cases h⟩

theorem Ahead.behind {view : View} {pre pre' ts ts' : List Token} (h : Ahead view ts ts')
    (hpre : List.Forall₂ Token.Alike pre pre') :
    Ahead view.between (pre ++ ts) (pre' ++ ts') := by
  refine ⟨.append hpre h.cut, fun hview hnil => ?_, fun h => by cases view <;> cases h⟩
  obtain ⟨rfl, rfl⟩ := List.append_eq_nil_iff.1 hnil
  obtain rfl := List.forall₂_nil_right_iff.1 hpre
  cases view with
  | next => exact h.next rfl rfl
  | _ => cases hview

/-- How many parentheses are open behind a symbol, if `d` are open before it; none if it
closes one that is not open. -/
def Symbol.parens? (d : Nat) : Symbol → Option Nat
  | lparen => some (d + 1)
  | rparen =>
    match d with
    | 0 => none
    | d + 1 => some d
  | _ => some d

/-- How many parentheses are open behind a token. -/
def TokenKind.parens? (d : Nat) : TokenKind → Option Nat
  | symbol s => s.parens? d
  | _ => some d

/-- How many parentheses are open behind some tokens, if `d` are open before them. -/
def parenDepth (d : Nat) (ts : List Token) : Option Nat :=
  ts.foldlM (fun d t => t.kind.parens? d) d

theorem parenDepth_append (d : Nat) (ts ts' : List Token) :
    parenDepth d (ts ++ ts') = (parenDepth d ts).bind fun d' => parenDepth d' ts' :=
  List.foldlM_append

/-- The stream behind the tokens `pre`, with `i` parentheses open before them and `j`
behind them. -/
structure Stream.Passes (s s' : Stream) (i j : Nat) (pre : List Token) : Prop where
  rest : s.rest = pre ++ s'.rest
  final : s'.final = s.final
  lastStop : s'.lastStop = (pre.map (·.loc.stop)).getLastD s.lastStop
  depth : parenDepth i pre = some j

theorem Stream.Passes.refl (s : Stream) (i : Nat) : s.Passes s i i [] := ⟨rfl, rfl, rfl, rfl⟩

theorem Stream.Passes.trans {s s₁ s₂ : Stream} {i j k : Nat} {pre pre₁ : List Token}
    (h : s.Passes s₁ i j pre) (h₁ : s₁.Passes s₂ j k pre₁) :
    s.Passes s₂ i k (pre ++ pre₁) := by
  refine ⟨?_, h₁.final.trans h.final, ?_, ?_⟩
  · rw [h.rest, h₁.rest, List.append_assoc]
  · rw [h₁.lastStop, h.lastStop, List.map_append]
    cases pre₁ using List.reverseRecOn <;> simp
  · rw [parenDepth_append, h.depth]
    exact h₁.depth

/-- The outcome of a second run: the answer of the first one up to places with the tokens
`post` left, or, where the second run has fewer levels, too deep a nesting. -/
def Again [Bare α] (shallow : Prop) (a : α) (t : Stream) (post : List Token) :
    Except SyntaxError (α × Stream) → Prop
  | .ok (b, t') => bare b = bare a ∧ t'.rest = post ∧ t'.final = t.final
  | .error e => shallow ∧ e.cause = .tooDeep

/-- What the parser `x` reads from the stream, the parser `y` reads again. -/
def Rereads [Bare α] (shallow : Prop) (view : View) (grow : Bool) (i j m : Nat) (s : Stream)
    (x y : Parse α) : Prop :=
  s.final.kind = .finish → ∀ a s', x s = .ok (a, s') → ∃ pre, s.Passes s' i j pre ∧
    (grow = true → pre ≠ []) ∧
    ∀ t pre' post, t.final.kind = .finish → t.rest.length < m → t.rest = pre' ++ post →
      List.Forall₂ Token.Alike pre pre' → Ahead view s'.rest post →
      Again shallow a t post (y t)

theorem Parse.bind_eq_ok {x : Parse α} {f : α → Parse β} {s s' : Stream} {b : β}
    (h : (x >>= f) s = .ok (b, s')) : ∃ a s₁, x s = .ok (a, s₁) ∧ f a s₁ = .ok (b, s') := by
  change (x s).bind (fun r => f r.1 r.2) = _ at h
  cases hx : x s with
  | error e =>
    rw [hx] at h
    cases h
  | ok r =>
    rw [hx] at h
    exact ⟨r.1, r.2, rfl, h⟩

theorem Parse.bind_eq_error {x : Parse α} {f : α → Parse β} {s : Stream} {e : SyntaxError}
    (h : x s = .error e) : (x >>= f) s = .error e := by
  change (x s).bind (fun r => f r.1 r.2) = _
  rw [h]
  rfl

theorem Parse.unexpected_ne_ok (s : Stream) (r : α × Stream) :
    Parse.unexpected s ≠ .ok r := by
  intro h
  unfold Parse.unexpected at h
  rw [Parse.bind_eq (x := Parse.peek) rfl] at h
  generalize s.head.kind = k at h
  cases k <;> cases h

namespace Rereads

variable [Bare α] [Bare β] {shallow : Prop} {view : View} {grow grow₁ grow₂ : Bool}
  {i j k m : Nat} {s : Stream}

theorem exists_split {pre₁ pre₂ pre' : List Token}
    (h : List.Forall₂ Token.Alike (pre₁ ++ pre₂) pre') :
    ∃ pre₁' pre₂', pre' = pre₁' ++ pre₂' ∧ List.Forall₂ Token.Alike pre₁ pre₁' ∧
      List.Forall₂ Token.Alike pre₂ pre₂' := by
  induction pre₁ generalizing pre' with
  | nil => exact ⟨[], pre', rfl, .nil, h⟩
  | cons t pre₁ ih =>
    cases h with
    | cons ht hs =>
      obtain ⟨pre₁', pre₂', rfl, h₁, h₂⟩ := ih hs
      exact ⟨_ :: pre₁', pre₂', rfl, .cons ht h₁, h₂⟩

theorem bind_of {view₁ : View} {x y : Parse α} {f g : α → Parse β}
    (hx : Rereads shallow view₁ grow₁ i j m s x y)
    (hf : ∀ a b s₁, x s = .ok (a, s₁) → s₁.rest.length + grow₁.toNat ≤ s.rest.length →
      bare b = bare a → Rereads shallow view grow₂ j k (m - grow₁.toNat) s₁ (f a) (g b))
    (hview : view₁ = view.between ∨ grow₂ = true ∧ view₁ = .next)
    (hgrow : grow = true → grow₁ = true ∨ grow₂ = true) :
    Rereads shallow view grow i k m s (x >>= f) (y >>= g) := by
  intro hfinal c s₂ hrun
  obtain ⟨a, s₁, hxs, hfs⟩ := Parse.bind_eq_ok hrun
  obtain ⟨pre₁, hp₁, hg₁, hy⟩ := hx hfinal a s₁ hxs
  have hlength : pre₁.length ≥ grow₁.toNat := by
    cases grow₁ with
    | false => exact Nat.zero_le _
    | true => exact List.length_pos_iff.2 (hg₁ rfl)
  have hlen₁ : s₁.rest.length + grow₁.toNat ≤ s.rest.length := by
    rw [hp₁.rest, List.length_append]
    omega
  have hfinal₁ : s₁.final.kind = .finish := hp₁.final ▸ hfinal
  obtain ⟨pre₂, hp₂, hg₂, -⟩ := hf a a s₁ hxs hlen₁ rfl hfinal₁ c s₂ hfs
  refine ⟨pre₁ ++ pre₂, hp₁.trans hp₂, ?_, ?_⟩
  · intro hg hnil
    obtain ⟨hnil₁, hnil₂⟩ := List.append_eq_nil_iff.1 hnil
    exact (hgrow hg).elim (fun hg => hg₁ hg hnil₁) fun hg => hg₂ hg hnil₂
  intro t pre' post ht hm hrest halike hahead
  obtain ⟨pre₁', pre₂', rfl, halike₁, halike₂⟩ := exists_split halike
  rw [List.append_assoc] at hrest
  -- Behind the first parser the second run finds what the second parser reads again, then
  -- what lies ahead of both.
  have hahead₁ : Ahead view₁ s₁.rest (pre₂' ++ post) := by
    rw [hp₂.rest]
    rcases hview with rfl | ⟨hgrow, rfl⟩
    · exact hahead.behind halike₂
    · refine ⟨.append halike₂ hahead.cut, fun _ hnil => ?_, nofun⟩
      obtain ⟨rfl, rfl⟩ := List.append_eq_nil_iff.1 hnil
      exact absurd (List.forall₂_nil_right_iff.1 halike₂) (hg₂ hgrow)
  have hagain := hy t pre₁' (pre₂' ++ post) ht hm hrest halike₁ hahead₁
  cases hyt : y t with
  | error e =>
    rw [Parse.bind_eq_error hyt]
    rw [hyt] at hagain
    exact hagain
  | ok r =>
    obtain ⟨b, t₁⟩ := r
    rw [hyt] at hagain
    obtain ⟨hb, hrest₁, hfinal'⟩ := hagain
    obtain ⟨pre₂₀, hp₂₀, -, hg⟩ := hf a b s₁ hxs hlen₁ hb hfinal₁ c s₂ hfs
    -- The tokens do not depend on the answer handed over: both cover what lies between the
    -- same two streams.
    obtain rfl : pre₂₀ = pre₂ := List.append_cancel_right (hp₂₀.rest.symm.trans hp₂.rest)
    have hlength' := halike₁.length_eq
    have hm₁ : t₁.rest.length < m - grow₁.toNat := by
      rw [hrest, List.length_append, ← hrest₁] at hm
      omega
    have hagain₂ := hg t₁ pre₂' post (hfinal' ▸ ht) hm₁ hrest₁ halike₂ hahead
    rw [Parse.bind_eq hyt]
    cases hgt : g b t₁ with
    | error e =>
      rw [hgt] at hagain₂
      exact hagain₂
    | ok r =>
      rw [hgt] at hagain₂
      exact ⟨hagain₂.1, hagain₂.2.1, hagain₂.2.2.trans hfinal'⟩

/-- A parser that reads a token, and what follows. -/
theorem step {x y : Parse α} {f g : α → Parse β}
    (hx : Rereads shallow view.between true i j m s x y)
    (hf : ∀ a b s₁, s₁.rest.length < s.rest.length → bare b = bare a →
      Rereads shallow view false j k (m - 1) s₁ (f a) (g b)) :
    Rereads shallow view grow i k m s (x >>= f) (y >>= g) :=
  bind_of hx (fun a b s₁ _ => hf a b s₁) (.inl rfl) fun _ => .inl rfl

/-- A parser that reads a token, and what follows where this run of it leaves off. -/
theorem stepFrom {x y : Parse α} {f g : α → Parse β}
    (hx : Rereads shallow view.between true i j m s x y)
    (hf : ∀ a b s₁, x s = .ok (a, s₁) → bare b = bare a →
      Rereads shallow view false j k (m - 1) s₁ (f a) (g b)) :
    Rereads shallow view grow i k m s (x >>= f) (y >>= g) :=
  bind_of hx (fun a b s₁ hrun _ => hf a b s₁ hrun) (.inl rfl) fun _ => .inl rfl

/-- A parser that may read nothing, and what follows. -/
theorem pass {x y : Parse α} {f g : α → Parse β}
    (hx : Rereads shallow view.between false i j m s x y)
    (hf : ∀ a b s₁, s₁.rest.length ≤ s.rest.length → bare b = bare a →
      Rereads shallow view grow j k m s₁ (f a) (g b)) :
    Rereads shallow view grow i k m s (x >>= f) (y >>= g) :=
  bind_of hx (fun a b s₁ _ => hf a b s₁) (.inl rfl) .inr

/-- A parser that has to see what comes next, and what follows, which reads a token. -/
theorem closed {x y : Parse α} {f g : α → Parse β}
    (hx : Rereads shallow .next false i j m s x y)
    (hf : ∀ a b s₁, s₁.rest.length ≤ s.rest.length → bare b = bare a →
      Rereads shallow view true j k m s₁ (f a) (g b)) :
    Rereads shallow view grow i k m s (x >>= f) (y >>= g) :=
  bind_of hx (fun a b s₁ _ => hf a b s₁) (.inr ⟨rfl, rfl⟩) fun _ => .inr rfl

/-- A parser that reads nothing, and what follows. -/
theorem still {x y : Parse α} {f g : α → Parse β}
    (hx : Rereads shallow view.between false i i m s x y)
    (hstill : ∀ {a s'}, x s = .ok (a, s') → s = s')
    (hf : ∀ a b, bare b = bare a → Rereads shallow view grow i k m s (f a) (g b)) :
    Rereads shallow view grow i k m s (x >>= f) (y >>= g) := by
  refine bind_of hx ?_ (.inl rfl) .inr
  intro a b s₁ hrun _ hb
  obtain rfl := hstill hrun
  exact hf a b hb

/-- A parser that passes a token without an answer, and what follows. -/
theorem token {x y : Parse Unit} {f g : Parse β}
    (hx : Rereads shallow view.between true i j m s x y)
    (hf : ∀ s₁, s₁.rest.length < s.rest.length →
      Rereads shallow view false j k (m - 1) s₁ f g) :
    Rereads shallow view grow i k m s (x >>= fun _ => f) (y >>= fun _ => g) :=
  step hx fun _ _ s₁ hlt _ => hf s₁ hlt

/-- A parser that may pass a token without an answer, and what follows. -/
theorem mark {x y : Parse Unit} {f g : Parse β}
    (hx : Rereads shallow view.between false i j m s x y)
    (hf : ∀ s₁, s₁.rest.length ≤ s.rest.length → Rereads shallow view grow j k m s₁ f g) :
    Rereads shallow view grow i k m s (x >>= fun _ => f) (y >>= fun _ => g) :=
  pass hx fun _ _ s₁ hle _ => hf s₁ hle

theorem pure {a b : α} (h : bare b = bare a) :
    Rereads shallow view false i i m s (Pure.pure a) (Pure.pure b) := by
  intro _ a' s' hrun
  cases hrun
  refine ⟨[], .refl s i, nofun, fun t pre' post _ _ hrest halike _ => ?_⟩
  obtain rfl := List.forall₂_nil_left_iff.1 halike
  exact ⟨h, hrest, rfl⟩

theorem fails {x y : Parse α} (h : ∀ r, x s ≠ .ok r) :
    Rereads shallow view grow i j m s x y :=
  fun _ a s' hrun => absurd hrun (h (a, s'))

theorem mono {grow' : Bool} {m' : Nat} {x y : Parse α}
    (h : Rereads shallow view grow i j m s x y) (hgrow : grow' = true → grow = true)
    (hm : m' ≤ m) : Rereads shallow view grow' i j m' s x y := by
  intro hfinal a s' hrun
  obtain ⟨pre, hp, hg, hy⟩ := h hfinal a s' hrun
  refine ⟨pre, hp, fun hg' => hg (hgrow hg'), fun t pre' post ht hlt => ?_⟩
  exact hy t pre' post ht (Nat.lt_of_lt_of_le hlt hm)

theorem any {x y : Parse α} (h : Rereads shallow view true i j m s x y) :
    Rereads shallow view grow i j m s x y :=
  h.mono (fun _ => rfl) (Nat.le_refl _)

end Rereads

theorem TokenKind.eq_of_bare {k k' : TokenKind} (h : k'.bare = k.bare)
    (hk : ∀ texts chunks, k ≠ .template texts chunks) : k' = k := by
  cases k with
  | template texts chunks => exact absurd rfl (hk texts chunks)
  | _ =>
    cases k' with
    | template texts chunks => cases h
    | _ => exact h

theorem TokenKind.eq_or_template {k k' : TokenKind} (h : k'.bare = k.bare) :
    (∀ texts chunks, k ≠ .template texts chunks) ∧ k' = k ∨
      ∃ texts chunks chunks', k = .template texts chunks ∧ k' = .template texts chunks' ∧
        chunks'.map (·.source) = chunks.map (·.source) := by
  cases k with
  | template texts chunks =>
    cases k' with
    | template texts' chunks' =>
      simp only [TokenKind.bare, TokenKind.template.injEq] at h
      obtain ⟨rfl, hchunks⟩ := h
      have hsources := congrArg (List.map (·.source)) hchunks
      rw [List.map_map, List.map_map] at hsources
      exact .inr ⟨texts', chunks, chunks', rfl, rfl, hsources⟩
    | _ => cases h
  | _ =>
    refine .inl ⟨?_, TokenKind.eq_of_bare h ?_⟩
    all_goals
      intro texts chunks htemplate
      cases htemplate

theorem TokenKind.congr_of_bare {p : TokenKind → β}
    (hp : ∀ texts chunks chunks', p (.template texts chunks') = p (.template texts chunks))
    {k k' : TokenKind} (h : k'.bare = k.bare) : p k' = p k := by
  rcases TokenKind.eq_or_template h with ⟨-, rfl⟩ | ⟨texts, chunks, chunks', rfl, rfl, -⟩
  · rfl
  · exact hp texts chunks chunks'

theorem TokenKind.isSymbol_of_bare {k k' : TokenKind} (h : k'.bare = k.bare) (sym : Symbol) :
    k'.isSymbol sym = k.isSymbol sym :=
  TokenKind.congr_of_bare (p := (·.isSymbol sym)) (fun _ _ _ => rfl) h

theorem TokenKind.isKeyword_of_bare {k k' : TokenKind} (h : k'.bare = k.bare) (w : Keyword) :
    k'.isKeyword w = k.isKeyword w :=
  TokenKind.congr_of_bare (p := (·.isKeyword w)) (fun _ _ _ => rfl) h

theorem Stream.tail_of (s : Stream) {t : Token} {rest : List Token} (h : s.rest = t :: rest) :
    s.tail.rest = rest ∧ s.tail.final = s.final ∧ s.tail.lastStop = t.loc.stop := by
  obtain ⟨_, final, lastStop, size, hsize⟩ := s
  subst h
  exact ⟨rfl, rfl, rfl⟩

theorem Stream.passes_tail (s : Stream) {t : Token} {rest : List Token}
    (h : s.rest = t :: rest) {i j : Nat} (hd : t.kind.parens? i = some j) :
    s.Passes s.tail i j [t] := by
  obtain ⟨hrest, hfinal, hstop⟩ := s.tail_of h
  refine ⟨?_, hfinal, hstop, ?_⟩
  · rw [h, hrest]
    rfl
  · simp [parenDepth, hd]

theorem Cut.head {s t : Stream} (h : Cut s.rest t.rest) :
    t.rest = [] ∨ s.head.Alike t.head := by
  unfold Stream.head
  generalize s.rest = ts at h ⊢
  generalize t.rest = ts' at h ⊢
  cases h with
  | nil => exact .inl rfl
  | cons ht _ => exact .inr ht

theorem Cut.eq_nil {ts ts' : List Token} (h : Cut ts ts') (hnil : ts = []) : ts' = [] := by
  subst hnil
  cases h
  rfl

theorem Cut.getElem? {ts ts' : List Token} (h : Cut ts ts') {n : Nat} (hn : n < ts'.length) :
    ∃ t t', ts[n]? = some t ∧ ts'[n]? = some t' ∧ t.Alike t' := by
  induction h generalizing n with
  | nil => exact absurd hn (Nat.not_lt_zero _)
  | cons ht _ ih =>
    cases n with
    | zero => exact ⟨_, _, rfl, rfl, ht⟩
    | succ n => exact ih (Nat.lt_of_succ_lt_succ hn)

theorem Ahead.head_kind {s t : Stream} (h : Ahead .next s.rest t.rest)
    (hs : s.final.kind = .finish) (ht : t.final.kind = .finish) :
    t.head.kind.bare = s.head.kind.bare := by
  rcases h.cut.head with hnil | halike
  · unfold Stream.head
    rw [h.next rfl hnil, hnil]
    show t.final.kind.bare = s.final.kind.bare
    rw [hs, ht]
  · exact halike.kind

namespace Rereads

variable [Bare α] [Bare β] {shallow : Prop} {view : View} {grow : Bool}
  {i j k m : Nat} {s : Stream}

/-- Looking at the stream. -/
theorem look {f g : Stream → Parse α}
    (h : ∀ t, t.final.kind = .finish → Ahead view.between s.rest t.rest →
      s.final.kind = .finish → Rereads shallow view grow i j m s (f s) (g t)) :
    Rereads shallow view grow i j m s (get >>= f) (get >>= g) := by
  intro hfinal a s' hrun
  obtain ⟨pre, hp, hg, -⟩ := h s hfinal (.refl view s.rest) hfinal hfinal a s' hrun
  refine ⟨pre, hp, hg, fun t pre' post ht hlt hrest halike hahead => ?_⟩
  have haheadt : Ahead view.between s.rest t.rest := by
    rw [hp.rest, hrest]
    exact hahead.behind halike
  obtain ⟨pre₀, hp₀, -, hy⟩ := h t ht haheadt hfinal hfinal a s' hrun
  obtain rfl : pre₀ = pre := List.append_cancel_right (hp₀.rest.symm.trans hp.rest)
  exact hy t pre' post ht hlt hrest halike hahead

/-- Looking at the stream before at least one token of it is read. -/
theorem lookGrow {f g : Stream → Parse α} (h : ∀ t, Cut s.rest t.rest → s.head.Alike t.head →
    Rereads shallow view true i j m s (f s) (g t)) :
    Rereads shallow view true i j m s (get >>= f) (get >>= g) := by
  intro hfinal a s' hrun
  obtain ⟨pre, hp, hg, -⟩ := h s (.refl s.rest) (.refl s.head) hfinal a s' hrun
  refine ⟨pre, hp, hg, fun t pre' post ht hlt hrest halike hahead => ?_⟩
  have hcut : Cut s.rest t.rest := by
    rw [hp.rest, hrest]
    exact .append halike hahead.cut
  have hne : t.rest ≠ [] := by
    intro hnil
    rw [hnil] at hrest
    obtain ⟨rfl, -⟩ := List.append_eq_nil_iff.1 hrest.symm
    exact hg rfl (List.forall₂_nil_right_iff.1 halike)
  obtain ⟨pre₀, hp₀, -, hy⟩ := h t hcut (hcut.head.resolve_left hne) hfinal a s' hrun
  obtain rfl : pre₀ = pre := List.append_cancel_right (hp₀.rest.symm.trans hp.rest)
  exact hy t pre' post ht hlt hrest halike hahead

/-! ### Tokens -/

theorem peekGrow {f g : Token → Parse α}
    (h : ∀ t, s.head.Alike t → Rereads shallow view true i j m s (f s.head) (g t)) :
    Rereads shallow view true i j m s (Parse.peek >>= f) (Parse.peek >>= g) :=
  lookGrow (f := fun s => f s.head) (g := fun t => g t.head) fun t _ halike => h t.head halike

theorem peekLive {f g : Token → Parse α} (h : ∀ t, t.kind.bare = s.head.kind.bare →
    Rereads shallow .next grow i j m s (f s.head) (g t)) :
    Rereads shallow .next grow i j m s (Parse.peek >>= f) (Parse.peek >>= g) :=
  look (f := fun s => f s.head) (g := fun t => g t.head) fun t ht hahead hs =>
    h t.head (hahead.head_kind hs ht)

theorem spanFrom (l l' : Location) :
    Rereads shallow view false i i m s (Parse.spanFrom l) (Parse.spanFrom l') :=
  look (f := fun s => Pure.pure (l.until s.lastStop))
    (g := fun t => Pure.pure (l'.until t.lastStop))
    fun _ _ _ _ => pure rfl

/-- The place where the stream stands, and what follows. -/
theorem fromHere {f g : Location → Parse β}
    (h : ∀ l', Rereads shallow view grow i j m s (f s.head.loc) (g l')) :
    Rereads shallow view grow i j m s (Parse.here >>= f) (Parse.here >>= g) :=
  look (f := fun s => f s.head.loc) (g := fun t => g t.head.loc) fun t _ _ _ => h t.head.loc

/-- A tree with the span of what has been read. -/
theorem spanned {l l' : Location} {f g : Location → β}
    (h : ∀ l₁ l₁', bare (g l₁') = bare (f l₁)) :
    Rereads shallow view false i i m s
      (Parse.spanFrom l >>= fun l₁ => Pure.pure (f l₁))
      (Parse.spanFrom l' >>= fun l₁ => Pure.pure (g l₁)) := by
  refine pass (spanFrom l l') ?_
  intro l₁ l₁' _ _ _
  exact pure (h l₁ l₁')

/-- A second run that takes the number of tokens left as a bound. -/
theorem remainingAgain {x : Parse α} {g : Nat → Parse α}
    (h : ∀ n, n ≤ m → Rereads shallow view grow i j (n + 1) s x (g n)) :
    Rereads shallow view grow i j m s x (Parse.remaining >>= g) := by
  intro hfinal a s' hrun
  obtain ⟨pre, hp, hg, -⟩ := h 0 (Nat.zero_le m) hfinal a s' hrun
  refine ⟨pre, hp, hg, fun t pre' post ht hlt hrest halike hahead => ?_⟩
  rw [← t.size_eq] at hlt
  obtain ⟨pre₀, hp₀, -, hy⟩ := h t.size (Nat.le_of_lt hlt) hfinal a s' hrun
  obtain rfl : pre₀ = pre := List.append_cancel_right (hp₀.rest.symm.trans hp.rest)
  exact hy t pre' post ht (by rw [t.size_eq]; omega) hrest halike hahead

theorem remaining {f g : Nat → Parse α}
    (h : ∀ n, n ≤ m → Rereads shallow view grow i j (n + 1) s (f s.size) (g n)) :
    Rereads shallow view grow i j m s (Parse.remaining >>= f) (Parse.remaining >>= g) :=
  remainingAgain (x := f s.size) h

theorem atEnd : Rereads shallow .next false i i m s Parse.atEnd Parse.atEnd := by
  refine look (f := fun s => Pure.pure s.rest.isEmpty)
    (g := fun t => Pure.pure t.rest.isEmpty)
    fun t _ hahead _ => pure ?_
  obtain ⟨hcut, hnext, -⟩ := hahead
  cases ht : t.rest with
  | nil => rw [hnext rfl ht]
  | cons t' ts' =>
    rw [ht] at hcut
    cases hs : s.rest with
    | nil =>
      rw [hs] at hcut
      cases hcut
    | cons t ts => rfl

theorem skip (hne : s.head.kind ≠ .finish) (hd : s.head.kind.parens? i = some j) :
    Rereads shallow view true i j m s Parse.skip Parse.skip := by
  intro hfinal a s' hrun
  cases hrun
  obtain ⟨t₀, rest, hrest⟩ : ∃ t rest, s.rest = t :: rest := by
    refine List.exists_cons_of_ne_nil fun hnil => hne ?_
    rw [Stream.head, hnil]
    exact hfinal
  have htail :=
    s.passes_tail hrest (i := i) (j := j) (by rw [Stream.head, hrest] at hd; exact hd)
  refine ⟨[t₀], htail, fun _ => List.cons_ne_nil _ _,
    fun t pre' post ht _ hrest' halike _ => ?_⟩
  cases halike with
  | cons _ hnil =>
    cases hnil
    have htail' := t.tail_of hrest'
    exact ⟨rfl, htail'.1, htail'.2.1⟩

theorem skipName {name : String} (h : s.head.kind.isName name = true) :
    Rereads shallow view true i i m s Parse.skip Parse.skip := by
  cases hk : s.head.kind with
  | name _ => exact skip (by simp [hk]) (by rw [hk]; rfl)
  | _ =>
    rw [hk] at h
    cases h

/-- Parsers that do the same where the tokens are read that the first one reads. -/
theorem of_read {x x' y y' : Parse α} (h : Rereads shallow view grow i j m s x' y')
    (hx : x s = x' s)
    (hy : s.final.kind = .finish → ∀ (t : Stream) a s' pre pre' post, x' s = .ok (a, s') →
      s.Passes s' i j pre → t.rest = pre' ++ post → List.Forall₂ Token.Alike pre pre' →
      Ahead view s'.rest post → y t = y' t) :
    Rereads shallow view grow i j m s x y := by
  intro hfinal a s' hrun
  obtain ⟨pre, hp, hg, hy'⟩ := h hfinal a s' (hx ▸ hrun)
  refine ⟨pre, hp, hg, fun t pre' post ht hlt hrest halike hahead => ?_⟩
  rw [hy hfinal t a s' pre pre' post (hx ▸ hrun) hp hrest halike hahead]
  exact hy' t pre' post ht hlt hrest halike hahead

/-- Parsers that do the same from here. -/
theorem of_eq {x x' y y' : Parse α} (h : Rereads shallow view grow i j m s x' y')
    (hx : x s = x' s)
    (hy : ∀ t, t.final.kind = .finish → s.final.kind = .finish →
      Ahead view.between s.rest t.rest → (grow = true → s.head.Alike t.head) → y t = y' t) :
    Rereads shallow view grow i j m s x y := by
  intro hfinal a s' hrun
  obtain ⟨pre, hp, hg, hy'⟩ := h hfinal a s' (hx ▸ hrun)
  refine ⟨pre, hp, hg, fun t pre' post ht hlt hrest halike hahead => ?_⟩
  have haheadt : Ahead view.between s.rest t.rest := by
    rw [hp.rest, hrest]
    exact hahead.behind halike
  rw [hy t ht hfinal haheadt fun hgrow => haheadt.cut.head.resolve_left fun hnil => ?_]
  · exact hy' t pre' post ht hlt hrest halike hahead
  · rw [hnil] at hrest
    obtain ⟨rfl, -⟩ := List.append_eq_nil_iff.1 hrest.symm
    exact hg hgrow (List.forall₂_nil_right_iff.1 halike)

theorem reads {x y : Parse α} (h : Rereads shallow view true i j m s x y)
    (hs : s.final.kind = .finish) {a : α} {s' : Stream} (hrun : x s = .ok (a, s')) :
    s'.rest.length < s.rest.length ∧ s'.final.kind = .finish := by
  obtain ⟨pre, hp, hg, -⟩ := h hs a s' hrun
  have := List.length_pos_iff.2 (hg rfl)
  refine ⟨?_, hp.final ▸ hs⟩
  rw [hp.rest, List.length_append]
  omega

/-- A parser that reads a token has one to read. -/
theorem of_rest_nil {x y y' : Parse α} (h : Rereads shallow view true i j m s x y)
    (hs : s.rest = []) : Rereads shallow view grow i j m s x y' := by
  intro hfinal a s' hrun
  have hlt := (h.reads hfinal hrun).1
  rw [hs] at hlt
  exact absurd hlt (Nat.not_lt_zero _)

/-- A token that does not come next in the first run does not come next in the second. -/
theorem head_eq_false {p : TokenKind → Bool} (hp : p .finish = false)
    (hbare : ∀ k k' : TokenKind, k'.bare = k.bare → p k' = p k) {t : Stream}
    (ht : t.final.kind = .finish) (hcut : Cut s.rest t.rest) (h : p s.head.kind = false) :
    p t.head.kind = false := by
  rcases hcut.head with hnil | halike
  · rw [Stream.head, hnil]
    show p t.final.kind = false
    rw [ht, hp]
  · rw [hbare _ _ halike.kind, h]

/-- A parser for the token that comes next, if it is a certain one. -/
theorem eat {p : TokenKind → Bool} {eat : Parse Bool} (hp : p .finish = false)
    (hbare : ∀ k k' : TokenKind, k'.bare = k.bare → p k' = p k)
    (heat : ∀ s, eat s = if p s.head.kind then .ok (true, s.tail) else .ok (false, s))
    (hd : ∀ kind, p kind = true → kind.parens? i = some k) {f g : Bool → Parse α}
    (hyes : ∀ s₁, s₁.rest.length < s.rest.length →
      Rereads shallow view false k j (m - 1) s₁ (f true) (g true))
    (hno : Rereads shallow view grow i j m s (f false) (g false)) :
    Rereads shallow view grow i j m s (eat >>= f) (eat >>= g) := by
  have hthen : ∀ {t : Stream} {f : Bool → Parse α} {b : Bool}, p t.head.kind = b →
      (eat >>= f) t = f b (if b then t.tail else t) := by
    intro t f b hb
    refine Parse.bind_eq ?_
    rw [heat, hb]
    cases b <;> rfl
  cases hs : p s.head.kind with
  | true =>
    have hne : s.head.kind ≠ .finish := by
      intro hfinish
      rw [hfinish, hp] at hs
      cases hs
    have hskip : Rereads shallow view true i j m s (Parse.skip >>= fun _ => f true)
        (Parse.skip >>= fun _ => g true) :=
      token (skip hne (hd _ hs)) hyes
    refine (of_eq hskip (hthen hs) fun t _ _ _ halike => hthen ?_).any
    rw [hbare _ _ (halike rfl).kind, hs]
  | false =>
    exact of_eq hno (hthen hs) fun t ht _ hahead _ =>
      hthen (head_eq_false hp hbare ht hahead.cut hs)

theorem parens?_of_isSymbol {kind : TokenKind} {sym : Symbol} (h : kind.isSymbol sym = true)
    (hd : sym.parens? i = some j) : kind.parens? i = some j := by
  cases kind with
  | symbol sym' =>
    rw [eq_of_beq (show (sym' == sym) = true from h)]
    exact hd
  | _ => cases h

/-- The symbol is passed if it comes next. -/
theorem eatSymbol {f g : Bool → Parse α} {sym : Symbol} (hd : sym.parens? i = some k)
    (hyes : ∀ s₁, s₁.rest.length < s.rest.length →
      Rereads shallow view false k j (m - 1) s₁ (f true) (g true))
    (hno : Rereads shallow view grow i j m s (f false) (g false)) :
    Rereads shallow view grow i j m s (Parse.eatSymbol sym >>= f)
      (Parse.eatSymbol sym >>= g) := by
  refine eat (p := (·.isSymbol sym)) rfl (fun _ _ h => TokenKind.isSymbol_of_bare h sym)
    (fun s => ?_) (fun _ h => parens?_of_isSymbol h hd) hyes hno
  cases h : s.head.kind.isSymbol sym with
  | true => exact eatSymbol_of rfl h
  | false => exact eatSymbol_of_ne rfl h

theorem eatKeyword {f g : Bool → Parse α} {w : Keyword}
    (hyes : ∀ s₁, s₁.rest.length < s.rest.length →
      Rereads shallow view false i j (m - 1) s₁ (f true) (g true))
    (hno : Rereads shallow view grow i j m s (f false) (g false)) :
    Rereads shallow view grow i j m s (Parse.eatKeyword w >>= f)
      (Parse.eatKeyword w >>= g) := by
  refine eat (p := (·.isKeyword w)) rfl (fun _ _ h => TokenKind.isKeyword_of_bare h w)
    (fun s => ?_) (fun kind h => ?_) hyes hno
  · cases h : s.head.kind.isKeyword w with
    | true => exact eatKeyword_of rfl h
    | false => exact eatKeyword_of_ne rfl h
  · cases kind with
    | keyword _ => rfl
    | _ => cases h

/-- A look at what comes next, where it is read unless it is as at the end. -/
theorem isNext {γ : Type} {p : Token → γ} {d : γ} {x : Parse γ}
    (hp : ∀ t, t.kind = .finish → p t = d) (hlike : ∀ t t', t.Alike t' → p t' = p t)
    (hx : ∀ s, x s = .ok (p s.head, s)) {f g : γ → Parse α}
    (hyes : p s.head ≠ d → Rereads shallow view true i j m s (f (p s.head)) (g (p s.head)))
    (hno : p s.head = d → Rereads shallow view grow i j m s (f d) (g d)) :
    Rereads shallow view grow i j m s (x >>= f) (x >>= g) := by
  have hthen : ∀ {t : Stream} {f : γ → Parse α} {b : γ},
      p t.head = b → (x >>= f) t = f b t := by
    intro t f b hb
    rw [Parse.bind_eq (hx t), hb]
  by_cases hs : p s.head = d
  · refine of_eq (hno hs) (hthen hs) fun t ht _ hahead _ => hthen ?_
    rcases hahead.cut.head with hnil | halike
    · rw [Stream.head, hnil]
      exact hp _ ht
    · rw [hlike _ _ halike, hs]
  · exact (of_eq (hyes hs) (hthen rfl) fun t _ _ _ halike =>
      hthen (hlike _ _ (halike rfl))).any

theorem peekNext {γ : Type} {p : Token → γ} {d : γ} (hp : ∀ t, t.kind = .finish → p t = d)
    (hlike : ∀ t t', t.Alike t' → p t' = p t) {f g : γ → Parse α}
    (hyes : p s.head ≠ d → Rereads shallow view true i j m s (f (p s.head)) (g (p s.head)))
    (hno : p s.head = d → Rereads shallow view grow i j m s (f d) (g d)) :
    Rereads shallow view grow i j m s (Parse.peek >>= fun t => f (p t))
      (Parse.peek >>= fun t => g (p t)) :=
  isNext (x := fun s => .ok (p s.head, s)) hp hlike (fun _ => rfl) hyes hno

theorem atSymbol {f g : Bool → Parse α} {sym : Symbol}
    (hyes : s.head.kind.isSymbol sym = true →
      Rereads shallow view true i j m s (f true) (g true))
    (hno : s.head.kind.isSymbol sym = false →
      Rereads shallow view grow i j m s (f false) (g false)) :
    Rereads shallow view grow i j m s (Parse.atSymbol sym >>= f)
      (Parse.atSymbol sym >>= g) := by
  refine isNext (p := (·.kind.isSymbol sym)) (d := false) (fun t ht => by rw [ht]; rfl)
    (fun _ _ h => TokenKind.isSymbol_of_bare h.kind sym) (fun _ => rfl) (fun h => ?_) hno
  have htrue := (Bool.not_eq_false _).mp h
  rw [htrue]
  exact hyes htrue

theorem atKeyword {f g : Bool → Parse α} {w : Keyword}
    (hyes : s.head.kind.isKeyword w = true →
      Rereads shallow view true i j m s (f true) (g true))
    (hno : s.head.kind.isKeyword w = false →
      Rereads shallow view grow i j m s (f false) (g false)) :
    Rereads shallow view grow i j m s (Parse.atKeyword w >>= f)
      (Parse.atKeyword w >>= g) := by
  refine isNext (p := (·.kind.isKeyword w)) (d := false) (fun t ht => by rw [ht]; rfl)
    (fun _ _ h => TokenKind.isKeyword_of_bare h.kind w) (fun _ => rfl) (fun h => ?_) hno
  have htrue := (Bool.not_eq_false _).mp h
  rw [htrue]
  exact hyes htrue

/-- A look whether a symbol comes next, which may stay. -/
theorem atSymbolLive {f g : Bool → Parse α} {sym : Symbol}
    (h : ∀ b, Rereads shallow .next grow i j m s (f b) (g b)) :
    Rereads shallow .next grow i j m s (Parse.atSymbol sym >>= f)
      (Parse.atSymbol sym >>= g) := by
  refine peekLive (f := fun t => f (t.kind.isSymbol sym))
    (g := fun t => g (t.kind.isSymbol sym)) fun t ht => ?_
  rw [TokenKind.isSymbol_of_bare ht]
  exact h _

theorem expectSymbol {sym : Symbol} (hd : sym.parens? i = some j) (place : String) :
    Rereads shallow view true i j m s (Parse.expectSymbol sym place)
      (Parse.expectSymbol sym place) :=
  eatSymbol hd (fun _ _ => pure rfl) (fails fun _ h => by cases h)

theorem expectKeyword (w : Keyword) (place : String) :
    Rereads shallow view true i i m s (Parse.expectKeyword w place)
      (Parse.expectKeyword w place) :=
  eatKeyword (fun _ _ => pure rfl) (fails fun _ h => by cases h)

theorem unexpected {y : Parse α} : Rereads shallow view grow i j m s Parse.unexpected y :=
  fails (Parse.unexpected_ne_ok s)

theorem expectName : Rereads shallow view true i i m s Parse.expectName Parse.expectName := by
  refine peekGrow fun t ht => ?_
  split
  · next n hn =>
    rw [TokenKind.eq_of_bare ht.kind (by simp [hn]), hn]
    refine token (skip (j := i) (by simp [hn]) (by simp [hn, TokenKind.parens?])) ?_
    intro _ _
    exact pure rfl
  · exact fails fun _ h => by cases h

theorem expectPropertyName :
    Rereads shallow view true i i m s Parse.expectPropertyName Parse.expectPropertyName := by
  refine peekGrow fun t ht => ?_
  split
  · next n hn =>
    rw [TokenKind.eq_of_bare ht.kind (by simp [hn]), hn]
    refine token (skip (j := i) (by simp [hn]) (by simp [hn, TokenKind.parens?])) ?_
    intro _ _
    exact pure rfl
  · next w hw =>
    rw [TokenKind.eq_of_bare ht.kind (by simp [hw]), hw]
    refine token (skip (j := i) (by simp [hw]) (by simp [hw, TokenKind.parens?])) ?_
    intro _ _
    exact pure rfl
  · exact fails fun _ h => by cases h

/-- A look at a token further ahead, which is read if it is as wanted. -/
theorem lookAt {p : Token → Bool} (hp : ∀ t t', t.Alike t' → p t' = p t) (n : Nat)
    {f g : Bool → Parse α}
    (hyes : s.rest[n]?.any p = true → Rereads shallow view true i j m s (f true) (g true))
    (hread : s.final.kind = .finish → ∀ a s', f true s = .ok (a, s') →
      s'.rest.length + n < s.rest.length)
    (hno : Rereads shallow view grow i j m s (f false) (g false)) :
    Rereads shallow view grow i j m s (get >>= fun s => f (s.rest[n]?.any p))
      (get >>= fun t => g (t.rest[n]?.any p)) := by
  have hthen : ∀ {f : Bool → Parse α} {t : Stream} {b : Bool}, t.rest[n]?.any p = b →
      (get >>= fun s : Stream => f (s.rest[n]?.any p) : Parse α) t = f b t := by
    rintro f t _ rfl
    rfl
  cases hs : s.rest[n]?.any p with
  | true =>
    refine (of_read (hyes hs) (hthen hs)
      fun hfinal t a s' pre pre' post hrun hpass hrest halike hahead =>
      hthen ?_).any
    -- The token looked at is among those read, so the second run has it too.
    have hlength := hread hfinal a s' hrun
    rw [hpass.rest, List.length_append] at hlength
    have hcut : Cut s.rest t.rest := by
      rw [hpass.rest, hrest]
      exact .append halike hahead.cut
    obtain ⟨u, u', hu, hu', hlike⟩ := hcut.getElem? (n := n) (by
      rw [hrest, List.length_append, ← halike.length_eq]
      omega)
    rw [hu] at hs
    rw [hu']
    exact (hp u u' hlike).trans hs
  | false =>
    refine of_eq hno (hthen hs) fun t _ _ hahead _ => hthen ?_
    -- A token that the second run has is like that of the first; if it has none, the look
    -- fails as well.
    rcases Nat.lt_or_ge n t.rest.length with hlt | hge
    · obtain ⟨u, u', hu, hu', hlike⟩ := hahead.cut.getElem? hlt
      rw [hu] at hs
      rw [hu']
      exact (hp u u' hlike).trans hs
    · rw [List.getElem?_eq_none hge]
      rfl

/-- An answer without reading, where nothing is left for the second run. -/
theorem of_exhausted {x y : Parse α} {a b : α} (h : bare b = bare a) (hx : x s = .ok (a, s))
    (hs : view = .nothing ∨ s.rest = [])
    (hy : ∀ t : Stream, t.head.kind = .finish → y t = .ok (b, t)) :
    Rereads shallow view false i i m s x y := by
  intro _ a' s' hrun
  obtain ⟨rfl, rfl⟩ := Prod.mk.inj (Except.ok.inj (hx.symm.trans hrun))
  refine ⟨[], .refl s i, nofun, fun t pre' post ht _ hrest halike hahead => ?_⟩
  obtain rfl := List.forall₂_nil_left_iff.1 halike
  have hpost : post = [] := hs.elim hahead.nothing hahead.cut.eq_nil
  rw [hy t (by rw [Stream.head, hrest, hpost]; exact ht)]
  exact ⟨h, hrest, rfl⟩

/-- A repetition whose fuel is at least the number of tokens left. -/
theorem fuel {x : Parse α} {y : Nat → Parse α}
    (h : ∀ n, Rereads shallow view grow i j (n + 1) s x (y (n + 1))) (n : Nat) :
    Rereads shallow view grow i j n s x (y n) := by
  cases n with
  | zero =>
    intro hfinal a s' hrun
    obtain ⟨pre, hp, hg, -⟩ := h 0 hfinal a s' hrun
    exact ⟨pre, hp, hg, fun t _ _ _ hlt => absurd hlt (Nat.not_lt_zero _)⟩
  | succ n => exact h n

/-- A repetition that can end without a token, and does so at the end. -/
theorem fuelLast {x : Parse α} {y : Nat → Parse α} (n : Nat)
    (h : ∀ k, k ≤ n → Rereads shallow view grow i j (k + 2) s x (y (k + 1)))
    (hy : ∀ t : Stream, t.rest = [] → t.final.kind = .finish → y 0 t = y 1 t) :
    Rereads shallow view grow i j (n + 1) s x (y n) := by
  cases n with
  | zero =>
    intro hfinal a s' hrun
    obtain ⟨pre, hp, hg, hagain⟩ := h 0 (Nat.le_refl 0) hfinal a s' hrun
    refine ⟨pre, hp, hg, fun t pre' post ht hlt hrest halike hahead => ?_⟩
    rw [hy t (List.length_eq_zero_iff.1 (by omega)) ht]
    exact hagain t pre' post ht (by omega) hrest halike hahead
  | succ n => exact h n (Nat.le_succ n)

/-- A repetition that reads a token in its last round. -/
theorem fuelGrow {x : Parse α} {y : Nat → Parse α}
    (h : ∀ n, Rereads shallow view true i j (n + 2) s x (y (n + 1))) (n : Nat) :
    Rereads shallow view true i j (n + 1) s x (y n) := by
  cases n with
  | zero =>
    intro hfinal a s' hrun
    obtain ⟨pre, hp, hg, -⟩ := h 0 hfinal a s' hrun
    refine ⟨pre, hp, hg, fun t pre' post ht hlt hrest halike hahead => ?_⟩
    have hlength := congrArg List.length hrest
    rw [List.length_append, ← halike.length_eq] at hlength
    have := List.length_pos_iff.2 (hg rfl)
    omega
  | succ n => exact h n

end Rereads

/-- The rules of a grammar read again what those of another one read. -/
structure Rules.Reread (shallow : Prop) (r r' : Rules) : Prop where
  expr : ∀ {view : View} {i m : Nat} {s : Stream},
    Rereads shallow view true i i m s r.expr r'.expr
  unary : ∀ {view : View} {i m : Nat} {s : Stream},
    Rereads shallow view true i i m s r.unary r'.unary
  stmt : ∀ {i m : Nat} {s : Stream}, Rereads shallow .next true i i m s r.stmt r'.stmt

end ScriptReplay
