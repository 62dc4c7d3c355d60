/-
Tokens start and end with characters that are no blanks.

* `skipGap_again` : what follows a gap is no blank, and no other gap;
* `scanToken_solid` : the last character of a token is no blank;
* `trimChars_eq` : nothing is trimmed off a text between such characters.

Design notes: names, symbols and numerals hold no blank at all, and quoted texts and templates
end with their quote.
-/
import ScriptReplay.Proofs.Source.Rescans

namespace ScriptReplay

/-! ### Behind a gap -/

theorem gapFrom_solid {mode : GapMode} {newline : Bool} {p : Position} {cs : List Char}
    {r : Cursor × Bool} (h : gapFrom mode newline p cs = .ok r) {first : Char}
    {rest : List Char} (hrest : r.1.rest = first :: rest) :
    isBlank first = false ∧ skipGap r.1 = .ok (r.1, false) := by
  fun_induction gapFrom mode newline p cs with
  | case1 => cases h
  | case2 =>
    cases h
    cases hrest
  | case3 _ _ _ _ _ ih => exact ih h
  | case4 _ _ _ ih => exact ih h
  | case5 _ _ _ _ _ ih => exact ih h
  | case6 _ _ _ _ _ _ ih => exact ih h
  | case7 _ _ _ _ _ _ ih => exact ih h
  | case8 _ _ _ _ _ ih => exact ih h
  | case9 _ _ _ _ _ _ ih => exact ih h
  | case10 _ _ _ _ _ _ _ ih => exact ih h
  | case11 newline p c rest hline hblock hblank =>
    cases h
    cases hrest
    refine ⟨eq_false_of_ne_true hblank, ?_⟩
    unfold skipGap
    rw [gapFrom, if_neg hline, if_neg hblock, if_neg hblank]

/-- What follows a gap is no blank, and there is no gap before it. -/
theorem skipGap_again {c c' : Cursor} {newline : Bool} (h : skipGap c = .ok (c', newline))
    {first : Char} {rest : List Char} (hrest : c'.rest = first :: rest) :
    isBlank first = false ∧ skipGap c' = .ok (c', false) :=
  gapFrom_solid h hrest

/-! ### The last character of a token -/

/-- From one text to what is left of it, some characters are passed, the last of which
is no blank. -/
def SolidEnd (cs left : List Char) : Prop :=
  ∃ front last, cs = front ++ last :: left ∧ isBlank last = false

theorem solidEnd_of_all {cs : List Char} {n : Nat} (hne : cs.take n ≠ [])
    (hall : ∀ c ∈ cs.take n, isBlank c = false) : SolidEnd cs (cs.drop n) := by
  refine ⟨(cs.take n).dropLast, (cs.take n).getLast hne, ?_, hall _ (List.getLast_mem hne)⟩
  rw [← List.singleton_append, ← List.append_assoc,
    List.dropLast_concat_getLast, List.take_append_drop]

theorem SolidEnd.of_suffix {cs cs' left : List Char} (h : SolidEnd cs' left)
    (hsuffix : cs' <:+ cs) : SolidEnd cs left := by
  obtain ⟨front, last, rfl, hlast⟩ := h
  obtain ⟨before, rfl⟩ := hsuffix
  exact ⟨before ++ front, last, (List.append_assoc ..).symm, hlast⟩

theorem readEscape_suffix {c : Cursor} {r : Option Char × Cursor} (h : readEscape c = .ok r) :
    r.2.rest <:+ c.rest := by
  have hhex : ∀ {digits : List Char} {n : Nat},
      (hexChar digits c.pos).map (fun ch => (some ch, c.skip n)) = .ok r →
      r.2.rest <:+ c.rest := by
    intro digits n hr
    cases hx : hexChar digits c.pos with
    | error e =>
      rw [hx] at hr
      cases hr
    | ok ch =>
      rw [hx] at hr
      cases hr
      exact List.drop_suffix n c.rest
  unfold readEscape readEscape.hex at h
  split at h
  · cases h
  · cases h
    exact List.drop_suffix 1 c.rest
  · exact hhex h
  · exact hhex h
  · exact hhex h
  · cases h
    exact List.drop_suffix 1 c.rest

theorem readQuoted_solid {quote : Char} (hquote : isBlank quote = false) {opened : Position}
    {c : Cursor} {acc : List Char} {r : String × Cursor}
    (h : readQuoted quote opened c acc = .ok r) : SolidEnd c.rest r.2.rest := by
  fun_induction readQuoted quote opened c acc with
  | case1 => cases h
  | case2 c acc rest hc =>
    cases h
    exact ⟨[], quote, by rw [Cursor.rest_skip, hc]; rfl, hquote⟩
  | case3 => cases h
  | case4 => cases h
  | case5 c acc rest e he hc _ _ ih =>
    exact (ih h).of_suffix ((readEscape_suffix he).trans (List.drop_suffix 1 c.rest))
  | case6 c acc ch rest hc _ _ _ ih => exact (ih h).of_suffix (List.drop_suffix 1 c.rest)

theorem readTemplate_solid {opened : Position} {c : Cursor} {t : TemplateParts}
    {r : TokenKind × Cursor} (h : readTemplate opened c t = .ok r) :
    SolidEnd c.rest r.2.rest := by
  fun_induction readTemplate opened c t with
  | case1 => cases h
  | case2 => cases h
  | case3 c t rest hc chunk hchunk ih => exact (ih h).of_suffix (List.drop_suffix _ c.rest)
  | case4 c t rest hopen hc =>
    cases h
    exact ⟨[], '\x60', by rw [Cursor.rest_skip, hc]; rfl, by decide⟩
  | case5 => cases h
  | case6 c t rest e he hopen hc hquote ih =>
    exact (ih h).of_suffix ((readEscape_suffix he).trans (List.drop_suffix 1 c.rest))
  | case7 c t ch rest hopen hc hquote hslash ih =>
    exact (ih h).of_suffix (List.drop_suffix 1 c.rest)

theorem isBlank_eq_false_of_le {c : Char} (hlo : 33 ≤ c.toNat) (hhi : c.toNat ≤ 127) :
    isBlank c = false := by
  by_contra h
  have hblank := eq_true_of_ne_false h
  simp only [isBlank, Bool.or_eq_true, Bool.and_eq_true, decide_eq_true_eq, beq_iff_eq]
    at hblank
  omega

theorem isBlank_eq_false_of_isDigit {c : Char} (h : c.isDigit = true) :
    isBlank c = false := by
  obtain ⟨hlo, hhi⟩ : 48 ≤ c.toNat ∧ c.toNat ≤ 57 := Char.isDigit_iff_toNat.1 h
  exact isBlank_eq_false_of_le (by omega) (by omega)

theorem decimalRun_solid {point power : Bool} {cs : List Char} :
    ∀ c ∈ cs.take (decimalRun point power cs).passed, isBlank c = false := by
  fun_induction decimalRun point power cs with
  | case1 => exact fun c hc => absurd hc List.not_mem_nil
  | case2 point power c rest hdigit ih =>
    exact List.forall_mem_cons.2 ⟨isBlank_eq_false_of_isDigit hdigit, ih⟩
  | case3 point power rest hdigit ih => exact List.forall_mem_cons.2 ⟨by decide, ih⟩
  | case4 point power c rest hdigit hunder hpoint ih =>
    simp only [Bool.and_eq_true, decide_eq_true_eq] at hpoint
    exact List.forall_mem_cons.2 ⟨hpoint.1.1 ▸ by decide, ih⟩
  | case5 point power c hdigit hunder hpoint hpower sign more hsign ih =>
    have hc : isBlank c = false := by
      simp only [Bool.and_eq_true, Bool.or_eq_true, decide_eq_true_eq] at hpower
      rcases hpower.1 with rfl | rfl <;> decide
    have hs : isBlank sign = false := by
      simp only [Bool.or_eq_true, decide_eq_true_eq] at hsign
      rcases hsign with rfl | rfl <;> decide
    exact List.forall_mem_cons.2 ⟨hc, List.forall_mem_cons.2 ⟨hs, ih⟩⟩
  | case6 point power c hdigit hunder hpoint hpower sign more hsign ih =>
    have hc : isBlank c = false := by
      simp only [Bool.and_eq_true, Bool.or_eq_true, decide_eq_true_eq] at hpower
      rcases hpower.1 with rfl | rfl <;> decide
    exact List.forall_mem_cons.2 ⟨hc, ih⟩
  | case7 point power c hdigit hunder hpoint hpower =>
    simp only [Bool.and_eq_true, Bool.or_eq_true, decide_eq_true_eq] at hpower
    refine List.forall_mem_singleton.2 ?_
    rcases hpower.1 with rfl | rfl <;> decide
  | case8 => exact fun c hc => absurd hc List.not_mem_nil

theorem isBlank_eq_false_of_digitValue? {base : Nat} {c : Char}
    (h : (digitValue? base c).isSome = true) : isBlank c = false := by
  unfold digitValue? at h
  by_cases hdigit : c.isDigit = true
  · exact isBlank_eq_false_of_isDigit hdigit
  rw [if_neg hdigit] at h
  by_cases hsmall : (decide ('a' ≤ c) && decide (c ≤ 'z')) = true
  · simp only [Bool.and_eq_true, decide_eq_true_eq, Char.le_def, UInt32.le_iff_toNat_le]
      at hsmall
    exact isBlank_eq_false_of_le (Nat.le_trans (by decide) hsmall.1)
      (Nat.le_trans hsmall.2 (by decide))
  rw [if_neg hsmall] at h
  by_cases hlarge : (decide ('A' ≤ c) && decide (c ≤ 'Z')) = true
  · simp only [Bool.and_eq_true, decide_eq_true_eq, Char.le_def, UInt32.le_iff_toNat_le]
      at hlarge
    exact isBlank_eq_false_of_le (Nat.le_trans (by decide) hlarge.1)
      (Nat.le_trans hlarge.2 (by decide))
  rw [if_neg hlarge] at h
  dsimp only at h
  rw [if_neg (Nat.lt_irrefl base)] at h
  cases h

theorem markedBase?_solid {cs : List Char} {base : Nat} (h : markedBase? cs = some base) :
    ∃ mark rest, cs = '0' :: mark :: rest ∧ isBlank mark = false := by
  unfold markedBase? at h
  split at h
  · next mark rest =>
    refine ⟨mark, rest, rfl, ?_⟩
    split at h
    all_goals first | decide | cases h
  · cases h

theorem radixRun_solid {base : Nat} {cs : List Char} :
    ∀ c ∈ cs.take (radixRun base cs).passed, isBlank c = false := by
  intro c hc
  unfold radixRun at hc
  dsimp only at hc
  rw [List.prefix_iff_eq_take.1 (List.takeWhile_prefix _) |>.symm] at hc
  have hdigit := List.all_eq_true.1 List.all_takeWhile c hc
  rw [Bool.or_eq_true, decide_eq_true_eq] at hdigit
  rcases hdigit with hdigit | rfl
  · exact isBlank_eq_false_of_digitValue? hdigit
  · decide

theorem readNumeral_solid {cs : List Char} {r : Float × Nat} (h : readNumeral cs = .ok r) :
    ∀ c ∈ cs.take r.2, isBlank c = false := by
  unfold readNumeral at h
  split at h
  · next base hbase =>
    dsimp only at h
    split at h
    · cases h
      obtain ⟨mark, rest, rfl, hmark⟩ := markedBase?_solid hbase
      exact List.forall_mem_cons.2 ⟨by decide, List.forall_mem_cons.2 ⟨hmark, radixRun_solid⟩⟩
    · cases h
  · dsimp only at h
    split at h
    · cases h
      exact decimalRun_solid
    · cases h

theorem Symbol.solid (s : Symbol) : ∀ c ∈ s.text.toList, isBlank c = false := by
  have hall : s.text.toList.all (!isBlank ·) = true := by cases s <;> decide +kernel
  intro c hc
  simpa using List.all_eq_true.1 hall c hc

/-- The last character of a token is no blank. -/
theorem scanToken_solid {first : Char} {rest : List Char} {p : Position}
    {r : TokenKind × Cursor} (h : scanToken first rest p = .ok r) :
    SolidEnd (first :: rest) r.2.rest := by
  have hlt := scanToken_lt h
  -- a token without blanks, of so many characters
  have htaken : ∀ {n : Nat}, r.2 = Cursor.skip ⟨first :: rest, p⟩ n →
      (∀ c ∈ (first :: rest).take n, isBlank c = false) →
      SolidEnd (first :: rest) r.2.rest := by
    intro n hn hall
    rw [hn, Cursor.rest_skip] at hlt ⊢
    refine solidEnd_of_all (fun hnil => ?_) hall
    obtain rfl : n = 0 := by simpa using hnil
    exact absurd hlt (Nat.lt_irrefl _)
  unfold scanToken at h
  dsimp only at h
  split at h
  · next hquote =>
    split at h
    · next hr =>
      cases h
      have hsolid : isBlank first = false := by
        simp only [Bool.or_eq_true, decide_eq_true_eq] at hquote
        rcases hquote with rfl | rfl <;> decide
      exact (readQuoted_solid hsolid hr).of_suffix (List.drop_suffix 1 _)
    · cases h
  split at h
  · exact (readTemplate_solid h).of_suffix (List.drop_suffix 1 _)
  split at h
  · split at h
    · next hr =>
      cases h
      exact htaken rfl (readNumeral_solid hr)
    · cases h
  split at h
  · cases h
    refine htaken rfl fun c hc => ?_
    rw [← List.prefix_iff_eq_take.1 (List.takeWhile_prefix _)] at hc
    have hpart := List.all_eq_true.1 List.all_takeWhile c hc
    by_contra hblank
    rw [isNamePart_eq_false_of_isBlank (eq_true_of_ne_false hblank)] at hpart
    cases hpart
  · split at h
    · next s hs =>
      cases h
      refine htaken rfl fun c hc => s.solid c ?_
      have hprefix : s.text.toList <+: first :: rest := ⟨_, Symbol.append_of_leading? hs⟩
      rwa [← String.length_toList, ← List.prefix_iff_eq_take.1 hprefix] at hc
    · cases h

/-! ### Trimming -/

theorem trimChars_eq {cs : List Char} (hfirst : ∀ c ∈ cs.head?, isBlank c = false)
    (hlast : ∀ c ∈ cs.getLast?, isBlank c = false) : trimChars cs = cs := by
  have hkeep : ∀ {cs : List Char},
      (∀ c ∈ cs.head?, isBlank c = false) → dropBlanks cs = cs := by
    intro cs h
    cases cs with
    | nil => rfl
    | cons c cs =>
      exact List.dropWhile_cons_of_neg (by rw [h c rfl]; exact Bool.false_ne_true)
  unfold trimChars
  rw [hkeep hfirst, hkeep (by rwa [List.head?_reverse]), List.reverse_reverse]

end ScriptReplay
