/-
Tokens with blanks between them.

A blank ends every token that can be written at all, and the reader passes it.  So tokens that
are written with one blank before each of them are read again, whatever they are.

* `IsName`, `TokenKind.Writable` : names, and with them keywords and symbols;
* `spaced` : tokens with a blank before each;
* `tokensFrom_blank` : a blank is passed;
* `tokensFrom_spaced` : tokens with blanks between them are read again.
-/
import ScriptReplay.Proofs.Source.Printing

namespace ScriptReplay

/-! ### Blanks -/

/-- Behind the text comes nothing, or a blank. -/
def Parted (rest : List Char) : Prop :=
  rest = [] ∨ ∃ more, rest = ' ' :: more

theorem Parted.apart {bad : Char → Bool} (hbad : bad ' ' = false) {rest : List Char}
    (h : Parted rest) : Apart bad rest := by
  intro c hc
  obtain rfl | ⟨more, rfl⟩ := h
  · cases hc
  · cases hc
    exact hbad

/-- A blank before a token is passed, for both cursors stand in the same gap. -/
theorem tokensFrom_blank (cs : List Char) (p : Position) :
    tokensFrom ⟨' ' :: cs, p⟩ = tokensFrom ⟨cs, p.next ' '⟩ := by
  conv_lhs => rw [tokensFrom]
  conv_rhs => rw [tokensFrom]
  rfl

/-! ### Tokens -/

/-- A text that a name can have, and that is no keyword. -/
def IsName (n : String) : Prop :=
  IsWord n ∧ Keyword.ofText? n = none

/-- Tokens that a text with blanks can have: names that are no keywords, keywords,
and symbols. -/
def TokenKind.Writable : TokenKind → Prop
  | name n => IsName n
  | keyword _ | symbol _ => True
  | _ => False

theorem Symbol.leading?_of_parted (s : Symbol) {rest : List Char} (h : Parted rest) :
    Symbol.leading? (s.text.toList ++ rest) = some s := by
  obtain rfl | ⟨more, rfl⟩ := h
  · rw [List.append_nil]
    exact s.leading?_text
  · exact Symbol.leading?_append (by decide +kernel) s more

/-- A blank ends a token, and so does the end of the text. -/
theorem TokenKind.Writable.endsBefore {k : TokenKind} (h : k.Writable) {rest : List Char}
    (hrest : Parted rest) : k.EndsBefore rest := by
  have hword : Apart isNamePart rest := hrest.apart (by decide +kernel)
  cases k with
  | name n => exact ⟨h.1, h.2, hword⟩
  | keyword w => exact hword
  | symbol s =>
    exact ⟨s.leading?_of_parted hrest, fun _ => hrest.apart rfl, fun _ => hrest.apart rfl⟩
  | number x => exact h.elim
  | string t => exact h.elim
  | template texts chunks => exact h.elim
  | finish => exact h.elim

/-- The characters of tokens, with a blank before each. -/
def spaced (ks : List TokenKind) : List Char :=
  ks.flatMap fun k => ' ' :: k.spelling

theorem spaced_cons (k : TokenKind) (ks : List TokenKind) :
    spaced (k :: ks) = ' ' :: (k.spelling ++ spaced ks) := by
  rw [spaced, List.flatMap_cons, List.cons_append, ← spaced]

theorem parted_spaced (ks : List TokenKind) : Parted (spaced ks) := by
  cases ks with
  | nil => exact .inl rfl
  | cons k ks => exact .inr ⟨_, spaced_cons k ks⟩

/-- The tokens with the kinds `ks`, all on one line, up to the end mark. -/
structure Tokens.Are (ts : Tokens) (ks : List TokenKind) : Prop where
  kinds : ts.body.map (·.kind) = ks
  lines : ∀ t ∈ ts.body, t.newlineBefore = false
  final : ts.final.kind = .finish

/-- A token that ends before the rest, whose tokens are known wherever they stand. -/
theorem tokensFrom_token {k : TokenKind} {rest : List Char} {ks : List TokenKind}
    (hk : k.EndsBefore rest) (hrest : ∀ p, ∃ ts, tokensFrom ⟨rest, p⟩ = .ok ts ∧ ts.Are ks)
    (p : Position) :
    ∃ ts, tokensFrom ⟨k.spelling ++ rest, p⟩ = .ok ts ∧ ts.Are (k :: ks) := by
  obtain ⟨first, more, p', hspelled, hgap, hscan⟩ := hk.readBefore p
  obtain ⟨ts, hts, hkinds, hlines, hfinal⟩ := hrest p'
  refine ⟨{ ts with body := ⟨k, p.upTo p', false⟩ :: ts.body }, ?_, ?_, ?_, hfinal⟩
  · rw [hspelled]
    exact tokensFrom_cons hgap hscan hts
  · exact congrArg (k :: ·) hkinds
  · exact List.forall_mem_cons.2 ⟨rfl, hlines⟩

/-- Tokens with blanks before them are read again. -/
theorem tokensFrom_spaced {ks : List TokenKind} (h : ∀ k ∈ ks, k.Writable) (p : Position) :
    ∃ ts, tokensFrom ⟨spaced ks, p⟩ = .ok ts ∧ ts.Are ks := by
  induction ks generalizing p with
  | nil =>
    rw [tokensFrom]
    exact ⟨_, rfl, rfl, fun t ht => absurd ht List.not_mem_nil, rfl⟩
  | cons k ks ih =>
    have hk : k.EndsBefore (spaced ks) :=
      (h k List.mem_cons_self).endsBefore (parted_spaced ks)
    rw [spaced_cons, tokensFrom_blank]
    exact tokensFrom_token hk
      (fun p' => ih (fun k' hk' => h k' (List.mem_cons_of_mem k hk')) p') _

/-- A text of tokens with blanks between them has these tokens. -/
theorem tokenize_spaced {k : TokenKind} {ks : List TokenKind}
    (h : ∀ k' ∈ k :: ks, k'.Writable) {source : String}
    (hsource : source.toList = k.spelling ++ spaced ks) :
    ∃ ts, tokenize source = .ok ts ∧ ts.Are (k :: ks) := by
  have hk : k.EndsBefore (spaced ks) := (h k List.mem_cons_self).endsBefore (parted_spaced ks)
  have hks : ∀ k' ∈ ks, k'.Writable := fun k' hk' => h k' (List.mem_cons_of_mem k hk')
  obtain ⟨ts, hts, hare⟩ := tokensFrom_token hk (tokensFrom_spaced hks) Position.origin
  rw [← hsource] at hts
  exact ⟨ts, hts, hare⟩

end ScriptReplay
