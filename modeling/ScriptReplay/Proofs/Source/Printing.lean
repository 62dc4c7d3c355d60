/-
Expressions as texts.

An expression is printed with all of its proper parts in parentheses, as tokens first and then
as the characters of these.  Its tokens are read again from its text one by one.

* `Expr.Printable` : the expressions that can be printed;
* `Expr.kinds`, `Expr.printed` : their tokens and their texts;
* `Legible` : tokens that stay apart when they are written one after the other;
* `tokensFrom_text` : legible tokens are read again from their text;
* `Expr.Printable.legible` : the tokens of an expression are legible;
* `Expr.Printable.arrowless` : there are no arrows among them.
-/
import Mathlib.Data.List.Basic
import ScriptReplay.Program.Parser.Expr

namespace ScriptReplay

/-! ### Operators as tokens -/

/-- The symbol of an operator. -/
def BinaryOp.symbol : BinaryOp → Symbol
  | add => .plus
  | sub => .minus
  | mul => .star
  | div => .slash
  | rem => .percent
  | pow => .starStar
  | lt => .less
  | gt => .greater
  | le => .lessEq
  | ge => .greaterEq
  | looseEq => .eqEq
  | strictEq => .eqEqEq
  | looseNe => .bangEq
  | strictNe => .bangEqEq
  | bitAnd => .amp
  | bitOr => .bar
  | bitXor => .caret
  | shl => .shiftLeft
  | shr => .shiftRight
  | ushr => .shiftRightZero

/-- The symbol of an operator. -/
def LogicalOp.symbol : LogicalOp → Symbol
  | and => .ampAmp
  | or => .barBar
  | nullish => .queryQuery

/-- The symbol of an assignment.  Comparisons have none. -/
def AssignOp.symbol? : AssignOp → Option Symbol
  | plain => some .eq
  | compound .add => some .plusEq
  | compound .sub => some .minusEq
  | compound .mul => some .starEq
  | compound .div => some .slashEq
  | compound .rem => some .percentEq
  | compound .pow => some .starStarEq
  | compound .bitAnd => some .ampEq
  | compound .bitOr => some .barEq
  | compound .bitXor => some .caretEq
  | compound .shl => some .shiftLeftEq
  | compound .shr => some .shiftRightEq
  | compound .ushr => some .shiftRightZeroEq
  | _ => none

/-- The token of an operator, which is a word or a symbol. -/
def UnaryOp.kind : UnaryOp → TokenKind
  | not => .symbol .bang
  | neg => .symbol .minus
  | plus => .symbol .plus
  | bitNot => .symbol .tilde
  | typeOf => .keyword .typeofKw

/-- The symbol of a counting operator. -/
def UpdateOp.symbol : UpdateOp → Symbol
  | increment => .plusPlus
  | decrement => .minusMinus

/-! ### Expressions as tokens -/

/-- Tokens in parentheses. -/
def parens (ks : List TokenKind) : List TokenKind :=
  .symbol .lparen :: (ks ++ [.symbol .rparen])

mutual

/-- The tokens of an expression, with each of its proper parts in parentheses.  Numerals,
templates, object literals and functions have none. -/
def Expr.kinds : Expr → List TokenKind
  | .number _ _ | .template _ _ _ | .object _ _ | .function _ _ => []
  | .string s _ => [.string s]
  | .bool b _ => [.keyword (if b then .trueKw else .falseKw)]
  | .null _ => [.keyword .nullKw]
  | .ident n _ => [.name n]
  | .this _ => [.keyword .thisKw]
  | .array items _ => .symbol .lbracket :: (Expr.itemKinds items ++ [.symbol .rbracket])
  | .unary op e _ => op.kind :: parens e.kinds
  | .update op before t _ =>
    if before then .symbol op.symbol :: parens t.kinds
      else parens t.kinds ++ [.symbol op.symbol]
  | .binary op l r _ => parens l.kinds ++ .symbol op.symbol :: parens r.kinds
  | .logical op l r _ => parens l.kinds ++ .symbol op.symbol :: parens r.kinds
  | .assign op t v _ => parens t.kinds ++ .symbol (op.symbol?.getD .eq) :: parens v.kinds
  | .conditional t y n _ =>
    parens t.kinds ++ .symbol .query :: (parens y.kinds ++ .symbol .colon :: parens n.kinds)
  | .call f args _ => parens f.kinds ++ parens (Expr.argumentKinds args)
  | .new f args _ => .keyword .newKw :: (parens f.kinds ++ parens (Expr.argumentKinds args))
  | .member o k _ => parens o.kinds ++ k.kinds
  | .await e _ => .keyword .awaitKw :: parens e.kinds

/-- The tokens of a target. -/
def Target.kinds : Target → List TokenKind
  | .name n _ => [.name n]
  | .member o k _ => parens o.kinds ++ k.kinds

/-- The tokens behind the object of a member expression. -/
def Key.kinds : Key → List TokenKind
  | .named n => [.symbol .dot, wordKind n]
  | .computed e => .symbol .lbracket :: (parens e.kinds ++ [.symbol .rbracket])

/-- The tokens of arguments, with commas between them. -/
def Expr.argumentKinds : List Expr → List TokenKind
  | [] => []
  | e :: rest =>
    parens e.kinds ++ if rest.isEmpty then [] else .symbol .comma :: Expr.argumentKinds rest

/-- The tokens of the items of an array, with commas between them and another one behind a
hole at the end. -/
def Expr.itemKinds : List (Option Expr) → List TokenKind
  | [] => []
  | none :: rest => .symbol .comma :: Expr.itemKinds rest
  | some e :: rest =>
    parens e.kinds ++ if rest.isEmpty then [] else .symbol .comma :: Expr.itemKinds rest

end

/-- Arguments are items without holes. -/
theorem Expr.argumentKinds_eq (args : List Expr) :
    Expr.argumentKinds args = Expr.itemKinds (args.map some) := by
  induction args with
  | nil => rfl
  | cons a rest ih =>
    rw [Expr.argumentKinds, List.map_cons, Expr.itemKinds, List.isEmpty_map, ih]

theorem Target.kinds_toExpr (t : Target) : t.toExpr.kinds = t.kinds := by
  cases t with
  | name n l => rw [Target.toExpr, Expr.kinds, Target.kinds]
  | member o k l => rw [Target.toExpr, Expr.kinds, Target.kinds]

/-- A text that a name can have, be it a keyword or not. -/
def IsWord (w : String) : Prop :=
  ∃ first rest, w.toList = first :: rest ∧ isNameStart first = true ∧
    ∀ c ∈ rest, isNamePart c = true

/-- The expressions that can be printed.  They are made of names, texts, truth values, `null`,
`this`, operators with one, two or three operands, assignments, calls, constructions, members
and array literals with or without holes. -/
inductive Expr.Printable : Expr → Prop
  | ident {n : String} {l : Location} (hn : IsWord n) (hk : Keyword.ofText? n = none) :
      Printable (.ident n l)
  | string {s : String} {l : Location} : Printable (.string s l)
  | bool {b : Bool} {l : Location} : Printable (.bool b l)
  | null {l : Location} : Printable (.null l)
  | this {l : Location} : Printable (.this l)
  | unary {op : UnaryOp} {e : Expr} {l : Location} (he : e.Printable) :
      Printable (.unary op e l)
  | await {e : Expr} {l : Location} (he : e.Printable) : Printable (.await e l)
  | update {op : UpdateOp} {before : Bool} {t : Target} {l : Location}
    (ht : t.toExpr.Printable) : Printable (.update op before t l)
  | binary {op : BinaryOp} {left right : Expr} {l : Location}
    (hl : left.Printable) (hr : right.Printable) :
    Printable (.binary op left right l)
  | logical {op : LogicalOp} {left right : Expr} {l : Location}
    (hl : left.Printable) (hr : right.Printable) :
    Printable (.logical op left right l)
  | assign {op : AssignOp} {t : Target} {v : Expr} {l : Location}
    (hop : op.symbol?.isSome = true) (ht : t.toExpr.Printable) (hv : v.Printable) :
    Printable (.assign op t v l)
  | conditional {test yes no : Expr} {l : Location} (ht : test.Printable)
    (hy : yes.Printable) (hn : no.Printable) :
    Printable (.conditional test yes no l)
  | call {f : Expr} {args : List Expr} {l : Location} (hf : f.Printable)
    (ha : ∀ a ∈ args, a.Printable) : Printable (.call f args l)
  | new {f : Expr} {args : List Expr} {l : Location} (hf : f.Printable)
    (ha : ∀ a ∈ args, a.Printable) : Printable (.new f args l)
  | named {o : Expr} {n : String} {l : Location} (ho : o.Printable) (hn : IsWord n) :
      Printable (.member o (.named n) l)
  | computed {o e : Expr} {l : Location} (ho : o.Printable) (he : e.Printable) :
      Printable (.member o (.computed e) l)
  | array {items : List (Option Expr)} {l : Location}
    (hi : ∀ e, some e ∈ items → e.Printable) :
    Printable (.array items l)

/-! ### Tokens as texts -/

/-- A character as it is written between such quotes: the quote, the backslash and the line
break as escapes. -/
def escapedIn (quote c : Char) : List Char :=
  if c = '\n' then ['\\', 'n'] else if c = quote ∨ c = '\\' then ['\\', c] else [c]

/-- A character as it is written between double quotes. -/
def escaped : Char → List Char :=
  escapedIn '\x22'

/-- The characters of a token.  Numerals and templates are not written. -/
def TokenKind.spelling : TokenKind → List Char
  | string s => '\x22' :: (s.toList.flatMap escaped ++ ['\x22'])
  | name n => n.toList
  | keyword k => k.text.toList
  | symbol s => s.text.toList
  | number _ | template _ _ | finish => []

/-- The characters of tokens, one after the other. -/
def spelled (ks : List TokenKind) : List Char :=
  ks.flatMap TokenKind.spelling

/-- The text of an expression. -/
def Expr.printed (e : Expr) : String :=
  String.ofList (spelled e.kinds)

/-! ### Single tokens -/

/-- The text does not go on with such a character. -/
def Apart (bad : Char → Bool) (rest : List Char) : Prop :=
  ∀ c ∈ rest.head?, bad c = false

/-- The characters behind a token do not change how it is read. -/
def TokenKind.EndsBefore (rest : List Char) : TokenKind → Prop
  | string _ => True
  | name n => IsWord n ∧ Keyword.ofText? n = none ∧ Apart isNamePart rest
  | keyword _ => Apart isNamePart rest
  | symbol s => Symbol.leading? (s.text.toList ++ rest) = some s ∧
    (s = .slash → Apart (fun c => c == '/' || c == '*') rest) ∧
      (s = .dot → Apart Char.isDigit rest)
  | number _ | template _ _ | finish => False

/-- A token is read from the start of its text, without a gap before it, and up
to the rest. -/
def TokenKind.ReadBefore (k : TokenKind) (rest : List Char) : Prop :=
  ∀ p, ∃ first more p', k.spelling ++ rest = first :: more ∧
    skipGap ⟨first :: more, p⟩ = .ok (⟨first :: more, p⟩, false) ∧
    scanToken first more p = .ok (k, ⟨rest, p'⟩)

theorem skipGap_eq {first : Char} {rest : List Char} (hb : isBlank first = false)
    (hslash : first = '/' → Apart (fun c => c == '/' || c == '*') rest) (p : Position) :
    skipGap ⟨first :: rest, p⟩ = .ok (⟨first :: rest, p⟩, false) := by
  have hmark : ∀ c, c = '/' ∨ c = '*' → ¬ (first = '/' ∧ rest.head? = some c) := by
    rintro c hc ⟨hfirst, hhead⟩
    have hbad := hslash hfirst c hhead
    rcases hc with rfl | rfl <;> cases hbad
  unfold skipGap gapFrom
  dsimp only
  rw [if_neg (hmark '/' (.inl rfl)), if_neg (hmark '*' (.inr rfl)), hb]
  rfl

/-! ### Words -/

/-- The smallest letter is the first one of the Latin alphabet. -/
theorem isLetter_le {c : Char} (h : isLetter c = true) : 65 ≤ c.toNat := by
  by_contra hlt
  unfold isLetter letterBounds Bounds.covers at h
  rw [if_pos (by omega)] at h
  cases h

theorem isNameStart_cases {c : Char} (h : isNameStart c = true) :
    isLetter c = true ∨ c = '_' ∨ c = '$' := by
  unfold isNameStart at h
  simpa only [Bool.or_eq_true, decide_eq_true_eq, or_assoc] using h

/-- No word goes on with a blank. -/
theorem isNamePart_eq_false_of_isBlank {c : Char} (h : isBlank c = true) :
    isNamePart c = false := by
  have hcodes : ∀ n ∈ [9, 10, 11, 12, 13, 32, 133, 160, 5760, 8192, 8193, 8194, 8195, 8196,
      8197, 8198, 8199, 8200, 8201, 8202, 8232, 8233, 8239, 8287, 12288],
      Bounds.covers letterBounds n = false ∧
      Bounds.covers numeralBounds n = false ∧ n ≠ 36 ∧ n ≠ 95 := by
    decide +kernel
  have hcode : c.toNat ∈ [9, 10, 11, 12, 13, 32, 133, 160, 5760, 8192, 8193, 8194, 8195, 8196,
      8197, 8198, 8199, 8200, 8201, 8202, 8232, 8233, 8239, 8287, 12288] := by
    simp only [isBlank, Bool.or_eq_true, Bool.and_eq_true, decide_eq_true_eq, beq_iff_eq] at h
    simp only [List.mem_cons, List.not_mem_nil, or_false]
    omega
  obtain ⟨hletter, hnumeral, hdollar, hline⟩ := hcodes _ hcode
  have hline' : c ≠ '_' := fun hc => hline (by rw [hc]; rfl)
  have hdollar' : c ≠ '$' := fun hc => hdollar (by rw [hc]; rfl)
  simp [isNamePart, isWordChar, isLetter, isNumeral, hletter, hnumeral, hline', hdollar']

theorem isNameStart_eq_false_of_isBlank {c : Char} (h : isBlank c = true) :
    isNameStart c = false := by
  by_contra hstart
  have hpart := isNamePart_of_isNameStart (eq_true_of_ne_false hstart)
  rw [isNamePart_eq_false_of_isBlank h] at hpart
  cases hpart

theorem isDigit_eq_false_of_isNameStart {c : Char} (h : isNameStart c = true) :
    c.isDigit = false := by
  by_contra hd
  have hhi : c.toNat ≤ 57 := (Char.isDigit_iff_toNat.1 (eq_true_of_ne_false hd)).2
  rcases isNameStart_cases h with hl | rfl | rfl
  · have hle := isLetter_le hl
    omega
  · cases hd rfl
  · cases hd rfl

theorem startsNumeral_eq_false {c : Char} (h : isNameStart c = true) (rest : List Char) :
    startsNumeral c rest = false := by
  have hpoint : c ≠ '.' := by
    rintro rfl
    rw [show isNameStart '.' = false by decide] at h
    cases h
  simp [startsNumeral, isDigit_eq_false_of_isNameStart h, hpoint]

theorem takeWhile_append_of_apart {bad : Char → Bool} {cs rest : List Char}
    (hcs : ∀ c ∈ cs, bad c = true) (hrest : Apart bad rest) :
    (cs ++ rest).takeWhile bad = cs := by
  have hnone : rest.takeWhile bad = [] := by
    cases rest with
    | nil => rfl
    | cons c rest => simp [hrest c rfl]
  rw [List.takeWhile_append_of_pos hcs, hnone, List.append_nil]

theorem readBefore_word {w : String} {rest : List Char} (hw : IsWord w)
    (hrest : Apart isNamePart rest) {k : TokenKind} (hk : wordKind w = k)
    (hspelling : k.spelling = w.toList) : k.ReadBefore rest := by
  intro p
  obtain ⟨first, more, hlist, hstart, hpart⟩ := hw
  have hne : ∀ c, isNameStart c = false → first ≠ c := by
    rintro c hc rfl
    rw [hc] at hstart
    cases hstart
  have hword : (first :: (more ++ rest)).takeWhile isNamePart = first :: more :=
    @takeWhile_append_of_apart isNamePart (first :: more) rest
      (List.forall_mem_cons.2 ⟨isNamePart_of_isNameStart hstart, hpart⟩) hrest
  refine ⟨first, more ++ rest,
    (Cursor.skip ⟨first :: (more ++ rest), p⟩ (first :: more).length).pos, ?_, ?_, ?_⟩
  · rw [hspelling, hlist]
    rfl
  · refine skipGap_eq ?_ (fun h => absurd h (hne _ (by decide))) p
    by_contra hblank
    exact hne first (isNameStart_eq_false_of_isBlank (eq_true_of_ne_false hblank)) rfl
  · unfold scanToken
    dsimp only
    rw [if_neg, if_neg (hne _ (by decide)), startsNumeral_eq_false hstart, if_neg
      Bool.false_ne_true, if_pos hstart, hword, ← hlist, String.ofList_toList, hk, hlist]
    · simp [Cursor.skip]
    · simp only [Bool.or_eq_true, decide_eq_true_eq, not_or]
      exact ⟨hne _ (by decide), hne _ (by decide)⟩

theorem isWord_keyword (k : Keyword) : IsWord k.text := by
  have hchars :
      (k.text.toList.head?.any isNameStart && k.text.toList.tail.all isNamePart) = true := by
    cases k <;> decide
  obtain ⟨hstart, hpart⟩ := (Bool.and_eq_true _ _).mp hchars
  cases hlist : k.text.toList with
  | nil =>
    rw [hlist] at hstart
    cases hstart
  | cons first more =>
    rw [hlist] at hstart hpart
    exact ⟨first, more, hlist, hstart, List.all_eq_true.1 hpart⟩

theorem wordKind_keyword (k : Keyword) : wordKind k.text = .keyword k := by
  have hfound : Keyword.ofText? k.text = some k := by
    cases k <;> rfl
  rw [wordKind, hfound]

theorem Keyword.text_of_ofText? {w : String} {k : Keyword} (h : Keyword.ofText? w = some k) :
    k.text = w := by
  unfold Keyword.ofText? at h
  have htext := List.find?_some h
  exact beq_iff_eq.1 htext

theorem wordKind_spelling (w : String) : (wordKind w).spelling = w.toList := by
  unfold wordKind
  split
  · next k hk => exact congrArg String.toList (Keyword.text_of_ofText? hk)
  · rfl

/-! ### Texts and symbols -/

theorem readQuoted_plain {quote c : Char} (hc : c ≠ quote ∧ c ≠ '\n' ∧ c ≠ '\\')
    (opened p : Position) (cs acc : List Char) :
    readQuoted quote opened ⟨c :: cs, p⟩ acc =
      readQuoted quote opened ⟨cs, p.next c⟩ (c :: acc) := by
  rw [readQuoted]
  dsimp only
  rw [if_neg hc.1, if_neg hc.2.1, if_neg hc.2.2]
  rfl

theorem readQuoted_escape {quote c d : Char} (hquote : quote ≠ '\\')
    (hc : ∀ cs p, readEscape ⟨c :: cs, p⟩ = .ok (some d, ⟨cs, p.next c⟩))
    (opened p : Position) (cs acc : List Char) :
    readQuoted quote opened ⟨'\\' :: c :: cs, p⟩ acc =
      readQuoted quote opened ⟨cs, (p.next '\\').next c⟩ (d :: acc) := by
  rw [readQuoted]
  dsimp only
  rw [if_neg hquote.symm, if_neg (by decide), if_pos rfl]
  have hskip : readEscape (Cursor.skip ⟨'\\' :: c :: cs, p⟩ 1) =
      .ok (some d, ⟨cs, (p.next '\\').next c⟩) :=
    hc _ _
  split
  · next e he =>
    rw [hskip] at he
    cases he
  · next r hr =>
    rw [hskip] at hr
    cases hr
    rfl

/-- A text in quotes is read up to the closing quote. -/
theorem readQuoted_escaped {quote : Char} (hquote : quote = '\x22' ∨ quote = '\x27')
    (cs rest : List Char) (opened p : Position) (acc : List Char) :
    readQuoted quote opened ⟨cs.flatMap (escapedIn quote) ++ quote :: rest, p⟩ acc =
      .ok (String.ofList (acc.reverse ++ cs),
        ⟨rest, p.after (cs.flatMap (escapedIn quote) ++ [quote])⟩) := by
  have hbackslash : quote ≠ '\\' := by
    rcases hquote with rfl | rfl <;> decide
  induction cs generalizing p acc with
  | nil =>
    rw [List.flatMap_nil, List.nil_append, readQuoted, List.append_nil]
    dsimp only
    rw [if_pos rfl]
    rfl
  | cons c cs ih =>
    have hacc : acc.reverse ++ c :: cs = (c :: acc).reverse ++ cs := by simp
    rw [List.flatMap_cons, List.append_assoc, List.append_assoc, hacc]
    unfold escapedIn
    split
    · next hc =>
      subst hc
      exact (readQuoted_escape hbackslash (c := 'n') (d := '\n') (fun _ _ => rfl) ..).trans
        (ih _ _)
    split
    · next hc =>
      have hescape : ∀ cs p, readEscape ⟨c :: cs, p⟩ = .ok (some c, ⟨cs, p.next c⟩) := by
        intro cs p
        rcases hc with rfl | rfl
        · rcases hquote with rfl | rfl <;> rfl
        · rfl
      exact (readQuoted_escape hbackslash hescape ..).trans (ih _ _)
    · next hc hc' =>
      exact (readQuoted_plain ⟨fun h => hc' (.inl h), hc, fun h => hc' (.inr h)⟩ ..).trans
        (ih _ _)

theorem readBefore_string (t : String) (rest : List Char) :
    (TokenKind.string t).ReadBefore rest := by
  intro p
  have hread := readQuoted_escaped (.inl rfl) t.toList rest p (p.next '\x22') []
  rw [List.reverse_nil, List.nil_append, String.ofList_toList] at hread
  refine ⟨'\x22', t.toList.flatMap escaped ++ '\x22' :: rest,
    (p.next '\x22').after (t.toList.flatMap escaped ++ ['\x22']), ?_, ?_, ?_⟩
  · simp [TokenKind.spelling]
  · exact skipGap_eq (by decide) (by simp) p
  · have hskip : Cursor.skip ⟨'\x22' :: (t.toList.flatMap escaped ++ '\x22' :: rest), p⟩ 1 =
        ⟨t.toList.flatMap (escapedIn '\x22') ++ '\x22' :: rest, p.next '\x22'⟩ := rfl
    unfold scanToken
    dsimp only
    rw [if_pos (by decide), hskip, hread]
    rfl

/-- What a symbol starts with. -/
theorem Symbol.exists_first (s : Symbol) : ∃ first more, s.text.toList = first :: more ∧
    (!isBlank first && !isNameStart first && !first.isDigit &&
      first != '\x22' && first != '\x27' && first != '\x60' && (first != '.' || s == .dot) &&
      (first != '/' || s == .slash || more.head? == some '=')) = true := by
  cases s <;> exact ⟨_, _, rfl, by decide⟩

theorem Symbol.mem_all (s : Symbol) : s ∈ Symbol.all := by
  cases s <;> decide

theorem Symbol.leading?_text (s : Symbol) : Symbol.leading? s.text.toList = some s := by
  have hall : ∀ s ∈ Symbol.all, Symbol.leading? s.text.toList = some s := by decide +kernel
  exact hall s s.mem_all

theorem prefix_of_not_mem {c : Char} {cs before behind : List Char} (hc : c ∉ cs)
    (h : cs <+: before ++ c :: behind) : cs <+: before := by
  obtain hcs | ⟨more, rfl⟩ := List.prefix_or_prefix_of_prefix h (List.prefix_append before _)
  · exact hcs
  · have hmore : more <+: c :: behind := (List.prefix_append_right_inj before).1 h
    cases more with
    | nil => exact (List.append_nil before).symm ▸ List.prefix_refl before
    | cons d more =>
      obtain ⟨rfl, -⟩ := List.cons_prefix_cons.1 hmore
      exact absurd (List.mem_append_right before List.mem_cons_self) hc

/-- A character that no symbol goes on with ends them all. -/
theorem Symbol.leading?_append {c : Char} (hc : ∀ s ∈ Symbol.all, c ∉ s.text.toList.tail)
    (s : Symbol) (rest : List Char) :
    Symbol.leading? (s.text.toList ++ c :: rest) = some s := by
  obtain ⟨-, before, behind, hall, hbefore⟩ := List.find?_eq_some_iff_append.1 s.leading?_text
  refine List.find?_eq_some_iff_append.2
    ⟨List.isPrefixOf_iff_prefix.2 (List.prefix_append _ _), before,
      behind, hall, fun s' hs' => ?_⟩
  have hnot := hbefore s' hs'
  have htail := hc s' s'.mem_all
  rw [Bool.not_eq_true', ← Bool.not_eq_true, List.isPrefixOf_iff_prefix] at hnot ⊢
  intro hfits
  -- The two symbols start alike, and the character does not stand in the rest of the
  -- other one.
  obtain ⟨first, more, hlist, -⟩ := s.exists_first
  obtain ⟨first', more', hlist', -⟩ := s'.exists_first
  rw [hlist'] at hnot htail hfits
  rw [hlist] at hnot hfits
  obtain ⟨rfl, hmore⟩ := List.cons_prefix_cons.1 hfits
  exact hnot (List.cons_prefix_cons.2 ⟨rfl, prefix_of_not_mem htail hmore⟩)

theorem readBefore_symbol {s : Symbol} {rest : List Char}
    (h : (TokenKind.symbol s).EndsBefore rest) : (TokenKind.symbol s).ReadBefore rest := by
  intro p
  obtain ⟨first, more, hlist, hfirst⟩ := s.exists_first
  simp only [Bool.and_eq_true, Bool.not_eq_eq_eq_not, Bool.not_true, Bool.or_eq_true,
    bne_iff_ne, beq_iff_eq] at hfirst
  obtain ⟨⟨⟨⟨⟨⟨⟨hblank, hname⟩, hdigit⟩, hquote⟩, hquote'⟩, htick⟩, hdot⟩, hslash⟩ := hfirst
  obtain ⟨hleading, hcomment, hpoint⟩ := h
  have hnumeral : startsNumeral first (more ++ rest) = false := by
    by_cases hd : first = '.'
    · obtain rfl : s = .dot := hdot.resolve_left fun h => h hd
      have htext : Symbol.dot.text.toList = ['.'] := by decide
      obtain ⟨-, rfl⟩ : '.' = first ∧ [] = more := List.cons.inj (htext.symm.trans hlist)
      cases rest with
      | nil => simp [startsNumeral, hdigit]
      | cons c rest => simp [startsNumeral, hdigit, hpoint rfl c rfl]
    · simp [startsNumeral, hdigit, hd]
  have hlength : s.text.length = (first :: more).length := by
    rw [← hlist, String.length_toList]
  refine ⟨first, more ++ rest, (Cursor.skip ⟨first :: (more ++ rest), p⟩ s.text.length).pos,
    ?_, ?_, ?_⟩
  · rw [TokenKind.spelling, hlist]
    rfl
  · refine skipGap_eq hblank (fun hs c hc => ?_) p
    rcases hslash with (hne | rfl) | heq
    · exact absurd hs hne
    · have htext : Symbol.slash.text.toList = ['/'] := by decide
      obtain ⟨-, rfl⟩ : '/' = first ∧ [] = more := List.cons.inj (htext.symm.trans hlist)
      exact hcomment rfl c hc
    · cases more with
      | nil => cases heq
      | cons d more =>
        cases heq
        cases hc
        rfl
  · unfold scanToken
    dsimp only
    rw [hlist] at hleading
    rw [if_neg (by simp [hquote, hquote']), if_neg htick, hnumeral, if_neg Bool.false_ne_true,
      hname, if_neg Bool.false_ne_true, ← List.cons_append, hleading]
    simp [Cursor.skip, hlength]

theorem TokenKind.EndsBefore.readBefore {k : TokenKind} {rest : List Char}
    (h : k.EndsBefore rest) : k.ReadBefore rest := by
  cases k with
  | string t => exact readBefore_string t rest
  | name n =>
    obtain ⟨hword, hname, hrest⟩ := h
    exact readBefore_word hword hrest (by rw [wordKind, hname]) rfl
  | keyword k => exact readBefore_word (isWord_keyword k) h (wordKind_keyword k) rfl
  | symbol s => exact readBefore_symbol h
  | number x => exact h.elim
  | template texts chunks => exact h.elim
  | finish => exact h.elim

/-! ### All tokens -/

/-- Tokens that stay apart when they are written one after the other. -/
def Legible : List TokenKind → Prop
  | [] => True
  | k :: ks => k.EndsBefore (spelled ks) ∧ Legible ks

theorem tokensFrom_cons {first : Char} {rest : List Char} {p : Position} {newline : Bool}
    {k : TokenKind} {c : Cursor} {ts : Tokens}
    (hgap : skipGap ⟨first :: rest, p⟩ = .ok (⟨first :: rest, p⟩, newline))
    (hscan : scanToken first rest p = .ok (k, c)) (hts : tokensFrom c = .ok ts) :
    tokensFrom ⟨first :: rest, p⟩ =
      .ok { ts with body := ⟨k, p.upTo c.pos, newline⟩ :: ts.body } := by
  rw [tokensFrom]
  split
  · next e he =>
    rw [hgap] at he
    cases he
  · next c' newline' hc =>
    rw [hgap] at hc
    cases hc
    dsimp only
    split
    · next e he =>
      rw [hscan] at he
      cases he
    · next k' c' hk =>
      rw [hscan] at hk
      cases hk
      rw [hts]

/-- Legible tokens are read again from their text, and no line breaks stand between them. -/
theorem tokensFrom_text {ks : List TokenKind} (h : Legible ks) (p : Position) :
    ∃ ts, tokensFrom ⟨spelled ks, p⟩ = .ok ts ∧ ts.body.map (·.kind) = ks ∧ ∀ t ∈ ts.body,
      t.newlineBefore = false := by
  induction ks generalizing p with
  | nil =>
    rw [tokensFrom]
    exact ⟨_, rfl, rfl, fun t ht => absurd ht List.not_mem_nil⟩
  | cons k ks ih =>
    obtain ⟨first, more, p', hspelled, hgap, hscan⟩ := h.1.readBefore p
    obtain ⟨ts, hts, hkinds, hlines⟩ := ih h.2 p'
    rw [spelled, List.flatMap_cons, ← spelled, hspelled]
    refine ⟨{ ts with body := ⟨k, p.upTo p', false⟩ :: ts.body }, ?_, ?_, ?_⟩
    · exact tokensFrom_cons hgap hscan hts
    · exact congrArg (k :: ·) hkinds
    · exact List.forall_mem_cons.2 ⟨rfl, hlines⟩

/-! ### Printed expressions -/

/-- The text starts with a character that no name and no longer symbol goes on with. -/
def Breaks (cs : List Char) : Prop :=
  ∃ c rest, cs = c :: rest ∧ (c = '(' ∨ c = ')' ∨ c = ';')

theorem Breaks.apart {bad : Char → Bool}
    (hbad : bad '(' = false ∧ bad ')' = false ∧ bad ';' = false) {rest : List Char}
    (h : Breaks rest) : Apart bad rest := by
  obtain ⟨c, rest, rfl, hc⟩ := h
  rintro c' hc'
  cases hc'
  rcases hc with rfl | rfl | rfl
  · exact hbad.1
  · exact hbad.2.1
  · exact hbad.2.2

theorem Symbol.leading?_of_breaks (s : Symbol) {rest : List Char} (h : Breaks rest) :
    Symbol.leading? (s.text.toList ++ rest) = some s := by
  obtain ⟨c, rest, rfl, rfl | rfl | rfl⟩ := h
  · exact Symbol.leading?_append (by decide) s rest
  · exact Symbol.leading?_append (by decide) s rest
  · exact Symbol.leading?_append (by decide) s rest

theorem endsBefore_symbol (s : Symbol) {rest : List Char} (h : Breaks rest) :
    (TokenKind.symbol s).EndsBefore rest :=
  ⟨s.leading?_of_breaks h, fun _ => h.apart (by decide), fun _ => h.apart (by decide)⟩

theorem apart_isNamePart {rest : List Char} (h : Breaks rest) : Apart isNamePart rest :=
  h.apart (by decide)

theorem endsBefore_keyword (k : Keyword) {rest : List Char} (h : Breaks rest) :
    (TokenKind.keyword k).EndsBefore rest :=
  apart_isNamePart h

theorem endsBefore_word {w : String} (hw : IsWord w) {rest : List Char} (h : Breaks rest) :
    (wordKind w).EndsBefore rest := by
  unfold wordKind
  split
  · exact apart_isNamePart h
  · next hname => exact ⟨hw, hname, apart_isNamePart h⟩

/-- A word does not start with a digit. -/
theorem apart_isDigit_word {w : String} (hw : IsWord w) (ks : List TokenKind) :
    Apart Char.isDigit (spelled (wordKind w :: ks)) := by
  obtain ⟨first, more, hlist, hstart, -⟩ := hw
  intro c hc
  rw [spelled, List.flatMap_cons, wordKind_spelling, hlist] at hc
  cases hc
  exact isDigit_eq_false_of_isNameStart hstart

/-- The symbols that no other symbol starts with. -/
def Symbol.isSeparator : Symbol → Bool
  | lparen | rparen | lbracket | rbracket | comma | colon | semicolon => true
  | _ => false

theorem endsBefore_separator {s : Symbol} (hs : s.isSeparator = true) (rest : List Char) :
    (TokenKind.symbol s).EndsBefore rest := by
  cases s with
  | lparen | rparen | lbracket | rbracket | comma | colon | semicolon =>
    exact ⟨rfl, nofun, nofun⟩
  | _ => cases hs

theorem breaks_parens (ks ks' : List TokenKind) : Breaks (spelled (parens ks ++ ks')) :=
  ⟨'(', _, rfl, .inl rfl⟩

/-- The tokens stay legible whatever legible tokens with a break at their start are written
behind them. -/
def LegibleBefore (ks : List TokenKind) : Prop :=
  ∀ ks', Legible ks' → Breaks (spelled ks') → Legible (ks ++ ks')

theorem legible_separator {s : Symbol} (hs : s.isSeparator = true) {ks : List TokenKind}
    (h : Legible ks) : Legible (.symbol s :: ks) :=
  ⟨endsBefore_separator hs _, h⟩

theorem LegibleBefore.parens {ks ks' : List TokenKind} (h : LegibleBefore ks)
    (h' : Legible ks') : Legible (parens ks ++ ks') := by
  have heq : ScriptReplay.parens ks ++ ks' = .symbol .lparen ::
      (ks ++ .symbol .rparen :: ks') := by
    simp [ScriptReplay.parens]
  rw [heq]
  exact legible_separator rfl (h _ (legible_separator rfl h') ⟨')', _, rfl, .inr (.inl rfl)⟩)

/-- One token behind which a break comes. -/
theorem legibleBefore_single {k : TokenKind} (hk : ∀ rest, Breaks rest → k.EndsBefore rest) :
    LegibleBefore [k] :=
  fun _ h' hb => ⟨hk _ hb, h'⟩

/-- A token before something in parentheses. -/
theorem LegibleBefore.prefixed {k : TokenKind} (hk : ∀ rest, Breaks rest → k.EndsBefore rest)
    {ks : List TokenKind} (h : LegibleBefore ks) :
    LegibleBefore (k :: ScriptReplay.parens ks) :=
  fun _ h' _ => ⟨hk _ (breaks_parens _ _), h.parens h'⟩

/-- A symbol between two things in parentheses. -/
theorem LegibleBefore.joined {ks₁ ks₂ : List TokenKind} (h₁ : LegibleBefore ks₁)
    (h₂ : LegibleBefore ks₂) (s : Symbol) :
    LegibleBefore (ScriptReplay.parens ks₁ ++ .symbol s :: ScriptReplay.parens ks₂) := by
  intro ks' h' hb
  rw [List.append_assoc]
  exact h₁.parens (h₂.prefixed (fun _ => endsBefore_symbol s) ks' h' hb)

theorem legible_itemKinds {items : List (Option Expr)}
    (hi : ∀ e, some e ∈ items → LegibleBefore e.kinds) {ks : List TokenKind}
    (h : Legible ks) : Legible (Expr.itemKinds items ++ ks) := by
  induction items with
  | nil =>
    rw [Expr.itemKinds]
    exact h
  | cons item rest ih =>
    have hrest := ih fun e h' => hi e (List.mem_cons_of_mem _ h')
    cases item with
    | none =>
      rw [Expr.itemKinds]
      exact legible_separator rfl hrest
    | some e =>
      rw [Expr.itemKinds, List.append_assoc]
      refine (hi e List.mem_cons_self).parens ?_
      split
      · exact h
      · exact legible_separator rfl hrest

theorem legible_argumentKinds {args : List Expr} (ha : ∀ a ∈ args, LegibleBefore a.kinds)
    {ks : List TokenKind} (h : Legible ks) : Legible (Expr.argumentKinds args ++ ks) := by
  rw [Expr.argumentKinds_eq]
  exact legible_itemKinds (fun e he => ha e (by simpa using he)) h

/-- The tokens of a printed expression stay apart. -/
theorem Expr.Printable.legible {e : Expr} (he : e.Printable) : LegibleBefore e.kinds := by
  induction he with
  | ident hn hk =>
    rw [Expr.kinds]
    exact legibleBefore_single fun rest hb => ⟨hn, hk, apart_isNamePart hb⟩
  | string =>
    rw [Expr.kinds]
    exact legibleBefore_single fun _ _ => trivial
  | bool | null | this =>
    rw [Expr.kinds]
    exact legibleBefore_single fun _ => endsBefore_keyword _
  | @unary op _ _ _ ih =>
    rw [Expr.kinds]
    refine ih.prefixed fun rest hb => ?_
    -- One operator is spelled as a word, the others as symbols.
    cases op with
    | typeOf => exact endsBefore_keyword _ hb
    | _ => exact endsBefore_symbol _ hb
  | await _ ih =>
    rw [Expr.kinds]
    exact ih.prefixed fun _ => endsBefore_keyword _
  | @update op before t _ _ ih =>
    rw [Target.kinds_toExpr] at ih
    rw [Expr.kinds]
    split
    · exact ih.prefixed fun _ => endsBefore_symbol _
    · intro ks' h' hb
      rw [List.append_assoc]
      exact ih.parens ⟨endsBefore_symbol _ hb, h'⟩
  | binary _ _ ihl ihr | logical _ _ ihl ihr =>
    rw [Expr.kinds]
    exact ihl.joined ihr _
  | assign _ _ _ iht ihv =>
    rw [Target.kinds_toExpr] at iht
    rw [Expr.kinds]
    exact iht.joined ihv _
  | conditional _ _ _ iht ihy ihn =>
    rw [Expr.kinds]
    intro ks' h' hb
    have hrest := ihy.joined ihn .colon ks' h' hb
    rw [List.append_assoc] at hrest
    rw [List.append_assoc, List.cons_append, List.append_assoc]
    exact iht.parens ⟨endsBefore_symbol _ (breaks_parens _ _), hrest⟩
  | call _ _ ihf iha =>
    rw [Expr.kinds]
    intro ks' h' hb
    rw [List.append_assoc]
    exact ihf.parens (LegibleBefore.parens (fun _ h _ => legible_argumentKinds iha h) h')
  | new _ _ ihf iha =>
    rw [Expr.kinds]
    intro ks' h' hb
    rw [List.cons_append, List.append_assoc]
    refine ⟨endsBefore_keyword _ (breaks_parens _ _), ihf.parens ?_⟩
    exact LegibleBefore.parens (fun _ h _ => legible_argumentKinds iha h) h'
  | named _ hn iho =>
    rw [Expr.kinds, Key.kinds]
    intro ks' h' hb
    rw [List.append_assoc]
    -- A word stands behind the point, so the two begin no numeral.
    refine iho.parens ⟨⟨rfl, nofun, fun _ => ?_⟩, endsBefore_word hn hb, h'⟩
    exact apart_isDigit_word hn ks'
  | computed _ _ iho ihe =>
    rw [Expr.kinds, Key.kinds]
    intro ks' h' hb
    rw [List.append_assoc, List.cons_append, List.append_assoc]
    exact iho.parens (legible_separator rfl (ihe.parens (legible_separator rfl h')))
  | array _ ih =>
    rw [Expr.kinds]
    intro ks' h' hb
    rw [List.cons_append, List.append_assoc]
    exact legible_separator rfl (legible_itemKinds ih (legible_separator rfl h'))

/-! ### Arrows -/

/-- No arrow is among the tokens. -/
def Arrowless (ks : List TokenKind) : Prop :=
  ∀ k ∈ ks, k.isSymbol .arrow = false

theorem arrowless_nil : Arrowless [] :=
  nofun

theorem arrowless_cons {k : TokenKind} {ks : List TokenKind} :
    Arrowless (k :: ks) ↔ k.isSymbol .arrow = false ∧ Arrowless ks :=
  List.forall_mem_cons

theorem arrowless_append {ks ks' : List TokenKind} :
    Arrowless (ks ++ ks') ↔ Arrowless ks ∧ Arrowless ks' :=
  List.forall_mem_append

theorem Arrowless.parens {ks : List TokenKind} (h : Arrowless ks) : Arrowless (parens ks) :=
  arrowless_cons.2 ⟨rfl, arrowless_append.2 ⟨h, arrowless_cons.2 ⟨rfl, arrowless_nil⟩⟩⟩

/-- A symbol between two things in parentheses. -/
theorem Arrowless.joined {ks₁ ks₂ : List TokenKind} (h₁ : Arrowless ks₁) (h₂ : Arrowless ks₂)
    {s : Symbol} (hs : s ≠ .arrow) :
    Arrowless (ScriptReplay.parens ks₁ ++ .symbol s :: ScriptReplay.parens ks₂) :=
  arrowless_append.2 ⟨h₁.parens, arrowless_cons.2 ⟨beq_eq_false_iff_ne.2 hs, h₂.parens⟩⟩

theorem arrowless_itemKinds {items : List (Option Expr)}
    (hi : ∀ e, some e ∈ items → Arrowless e.kinds) : Arrowless (Expr.itemKinds items) := by
  induction items with
  | nil =>
    rw [Expr.itemKinds]
    exact arrowless_nil
  | cons item rest ih =>
    have hrest := ih fun e he => hi e (List.mem_cons_of_mem _ he)
    cases item with
    | none =>
      rw [Expr.itemKinds]
      exact arrowless_cons.2 ⟨rfl, hrest⟩
    | some e =>
      rw [Expr.itemKinds, arrowless_append]
      refine ⟨(hi e List.mem_cons_self).parens, ?_⟩
      split
      · exact arrowless_nil
      · exact arrowless_cons.2 ⟨rfl, hrest⟩

theorem arrowless_argumentKinds {args : List Expr} (ha : ∀ a ∈ args, Arrowless a.kinds) :
    Arrowless (Expr.argumentKinds args) := by
  rw [Expr.argumentKinds_eq]
  exact arrowless_itemKinds fun e he => ha e (by simpa using he)

/-- A printed expression is free of arrows. -/
theorem Expr.Printable.arrowless {e : Expr} (he : e.Printable) : Arrowless e.kinds := by
  induction he with
  | ident | string | bool | null | this =>
    rw [Expr.kinds]
    exact arrowless_cons.2 ⟨rfl, arrowless_nil⟩
  | @unary op _ _ _ ih =>
    rw [Expr.kinds]
    exact arrowless_cons.2 ⟨by cases op <;> rfl, ih.parens⟩
  | await _ ih =>
    rw [Expr.kinds]
    exact arrowless_cons.2 ⟨rfl, ih.parens⟩
  | @update op before t _ _ ih =>
    have hop : (TokenKind.symbol op.symbol).isSymbol .arrow = false := by
      cases op <;> rfl
    rw [Target.kinds_toExpr] at ih
    rw [Expr.kinds]
    split
    · exact arrowless_cons.2 ⟨hop, ih.parens⟩
    · exact arrowless_append.2 ⟨ih.parens, arrowless_cons.2 ⟨hop, arrowless_nil⟩⟩
  | @binary op _ _ _ _ _ ihl ihr =>
    rw [Expr.kinds]
    exact ihl.joined ihr (by cases op <;> nofun)
  | @logical op _ _ _ _ _ ihl ihr =>
    rw [Expr.kinds]
    exact ihl.joined ihr (by cases op <;> nofun)
  | @assign op _ _ _ _ _ _ iht ihv =>
    have hsym : op.symbol?.getD .eq ≠ .arrow := by
      cases op with
      | plain => exact nofun
      | compound op => cases op <;> nofun
    rw [Target.kinds_toExpr] at iht
    rw [Expr.kinds]
    exact iht.joined ihv hsym
  | conditional _ _ _ iht ihy ihn =>
    rw [Expr.kinds]
    exact arrowless_append.2 ⟨iht.parens, arrowless_cons.2 ⟨rfl, ihy.joined ihn nofun⟩⟩
  | call _ _ ihf iha =>
    rw [Expr.kinds]
    exact arrowless_append.2 ⟨ihf.parens, (arrowless_argumentKinds iha).parens⟩
  | new _ _ ihf iha =>
    rw [Expr.kinds]
    exact arrowless_cons.2
      ⟨rfl, arrowless_append.2 ⟨ihf.parens, (arrowless_argumentKinds iha).parens⟩⟩
  | @named _ n _ _ _ iho =>
    have hn : (wordKind n).isSymbol .arrow = false := by
      unfold wordKind
      split <;> rfl
    rw [Expr.kinds, Key.kinds]
    exact arrowless_append.2
      ⟨iho.parens, arrowless_cons.2 ⟨rfl, arrowless_cons.2 ⟨hn, arrowless_nil⟩⟩⟩
  | computed _ _ iho ihe =>
    rw [Expr.kinds, Key.kinds, arrowless_append, arrowless_cons, arrowless_append]
    exact ⟨iho.parens, rfl, ihe.parens, arrowless_cons.2 ⟨rfl, arrowless_nil⟩⟩
  | array _ ih =>
    rw [Expr.kinds, arrowless_cons, arrowless_append]
    exact ⟨rfl, arrowless_itemKinds ih, arrowless_cons.2 ⟨rfl, arrowless_nil⟩⟩

end ScriptReplay
