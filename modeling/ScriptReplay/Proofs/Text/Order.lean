/-
The order of texts and the order of their units.

Comparisons order two texts by their characters.  The units of the texts have an order
too, and the two orders are nearly the same.  They are opposite where the texts part at
a character from U+E000 to U+FFFF and one beyond U+FFFF, for the units that stand for the
latter are smaller.

* `Straddles`, `PartAcross` : two such characters, and texts that part at them;
* `charUnits_append_lt_iff` : the order of two characters and that of their units;
* `units_lt_iff` : the order of two texts and that of their units;
* `comparisons_agree_iff` : when a comparison orders two texts by their units.
-/
import ScriptReplay.Proofs.Text.Encoding
import ScriptReplay.Run.Operators

namespace ScriptReplay

/-! ### Characters -/

/-- One of the characters is among the last that are a single unit, the other is a pair. -/
def Straddles (c d : Char) : Prop :=
  0xE000 ≤ c.toNat ∧ c.toNat < 0x10000 ∧ 0x10000 ≤ d.toNat ∨ 0xE000 ≤ d.toNat ∧
    d.toNat < 0x10000 ∧ 0x10000 ≤ c.toNat

theorem char_lt_iff {c d : Char} : c < d ↔ c.toNat < d.toNat := by
  rw [Char.lt_def, UInt32.lt_iff_toNat_lt]
  rfl

/-- The units of a character in numbers: one outside of the surrogates, or one of each of
their two ranges. -/
theorem charUnits_numbers (c : Char) :
    (∃ u, charUnits c = [u] ∧ u.toNat = c.toNat ∧ (u.toNat < 0xD800 ∨ 0xE000 ≤ u.toNat)) ∨
    ∃ u v, charUnits c = [u, v] ∧ 0xD800 ≤ u.toNat ∧
      u.toNat < 0xDC00 ∧ 0xDC00 ≤ v.toNat ∧ v.toNat < 0xE000 ∧
      c.toNat = 0x10000 + (u.toNat - 0xD800) * 0x400 + (v.toNat - 0xDC00) := by
  have hhigh (u : UInt16) : isHighSurrogate u = true ↔
      0xD800 ≤ u.toNat ∧ u.toNat ≤ 0xDBFF := by
    simp [isHighSurrogate, UInt16.le_iff_toNat_le]
  have hlow (u : UInt16) : isLowSurrogate u = true ↔ 0xDC00 ≤ u.toNat ∧ u.toNat ≤ 0xDFFF := by
    simp [isLowSurrogate, UInt16.le_iff_toNat_le]
  rcases charUnits_cases c with ⟨u, hunits, hnotHigh, hnotLow, hcode⟩
    | ⟨u, v, hunits, huhigh, hvlow, hcode⟩
  · rw [← Bool.not_eq_true, hhigh] at hnotHigh
    rw [← Bool.not_eq_true, hlow] at hnotLow
    exact .inl ⟨u, hunits, hcode, by omega⟩
  · obtain ⟨hu, hu'⟩ := (hhigh u).1 huhigh
    obtain ⟨hv, hv'⟩ := (hlow v).1 hvlow
    exact .inr ⟨u, v, hunits, hu, by omega, hv, by omega, hcode.symm⟩

/-- Two characters are ordered as their units are, unless they straddle the surrogates; then
they are ordered the other way. -/
theorem charUnits_append_lt_iff {c d : Char} (hne : c ≠ d) (us vs : List UInt16) :
    charUnits c ++ us < charUnits d ++ vs ↔ (c < d ↔ ¬ Straddles c d) := by
  have hcodes : c.toNat ≠ d.toNat := fun h => hne (Char.toNat_inj.1 h)
  have hcons (u v : UInt16) (us vs : List UInt16) :
      u :: us < v :: vs ↔ u.toNat < v.toNat ∨ u.toNat = v.toNat ∧ us < vs := by
    rw [List.cons_lt_cons_iff, UInt16.lt_iff_toNat_lt, UInt16.toNat_inj]
  rw [char_lt_iff]
  unfold Straddles
  rcases charUnits_numbers c with ⟨u, hc, hcode, hu⟩ | ⟨u, v, hc, hu, hu', hv, hv', hcode⟩
  · have hcbound := u.toNat_lt
    rcases charUnits_numbers d with ⟨u', hd, hcode', hu'⟩
      | ⟨u', v', hd, hu', hu'', hv', hv'', hcode'⟩
    · have hdbound := u'.toNat_lt
      simp only [hc, hd, List.cons_append, hcons]
      omega
    · -- A pair begins above U+D7FF and below U+E000, so the single unit decides
      -- on which side it is.
      simp only [hc, hd, List.cons_append, hcons]
      omega
  · rcases charUnits_numbers d with ⟨u', hd, hcode', hu''⟩
      | ⟨u', v', hd, hu'', hu''', hv'', hv''', hcode'⟩
    · have hdbound := u'.toNat_lt
      simp only [hc, hd, List.cons_append, hcons]
      omega
    · -- The high half of a pair counts in steps of the number of low halves.
      simp only [hc, hd, List.cons_append, hcons]
      omega

/-! ### Texts -/

/-- Behind a common beginning, the characters go on with two that straddle the surrogates. -/
def PartAcross (cs ds : List Char) : Prop :=
  ∃ before c d after after', cs = before ++ c :: after ∧
    ds = before ++ d :: after' ∧ Straddles c d

theorem PartAcross.symm {cs ds : List Char} (h : PartAcross cs ds) : PartAcross ds cs := by
  obtain ⟨before, c, d, after, after', hcs, hds, hcd⟩ := h
  exact ⟨before, d, c, after', after, hds, hcs, Or.symm hcd⟩

theorem not_partAcross_nil (ds : List Char) : ¬ PartAcross [] ds := by
  rintro ⟨before, c, d, after, after', hcs, -⟩
  simp at hcs

theorem partAcross_cons_self (c : Char) (cs ds : List Char) :
    PartAcross (c :: cs) (c :: ds) ↔ PartAcross cs ds := by
  constructor
  · rintro ⟨before, a, b, after, after', hcs, hds, hab⟩
    cases before with
    | nil =>
      -- The heads are equal, and a character does not straddle itself.
      simp only [List.nil_append, List.cons.injEq] at hcs hds
      obtain ⟨rfl, -⟩ := hcs
      obtain ⟨rfl, -⟩ := hds
      unfold Straddles at hab
      omega
    | cons e before =>
      simp only [List.cons_append, List.cons.injEq] at hcs hds
      exact ⟨before, a, b, after, after', hcs.2, hds.2, hab⟩
  · rintro ⟨before, a, b, after, after', rfl, rfl, hab⟩
    exact ⟨c :: before, a, b, after, after', rfl, rfl, hab⟩

theorem partAcross_cons_of_ne {c d : Char} (hne : c ≠ d) (cs ds : List Char) :
    PartAcross (c :: cs) (d :: ds) ↔ Straddles c d := by
  constructor
  · rintro ⟨before, a, b, after, after', hcs, hds, hab⟩
    cases before with
    | nil =>
      simp only [List.nil_append, List.cons.injEq] at hcs hds
      obtain ⟨rfl, -⟩ := hcs
      obtain ⟨rfl, -⟩ := hds
      exact hab
    | cons e before =>
      simp only [List.cons_append, List.cons.injEq] at hcs hds
      exact absurd (hcs.1.trans hds.1.symm) hne
  · intro hcd
    exact ⟨[], c, d, cs, ds, rfl, rfl, hcd⟩

theorem append_lt_append_iff (ws us vs : List UInt16) : ws ++ us < ws ++ vs ↔ us < vs := by
  induction ws with
  | nil => exact Iff.rfl
  | cons w ws ih => simp [ih]

/-- The first difference decides, and it is one between two characters. -/
theorem flatMap_charUnits_lt_iff (cs ds : List Char) :
    cs.flatMap charUnits < ds.flatMap charUnits ↔ (cs < ds ↔ ¬ PartAcross cs ds) := by
  induction cs generalizing ds with
  | nil =>
    have hpart := not_partAcross_nil ds
    cases ds with
    | nil => simp [hpart]
    | cons d ds =>
      obtain ⟨u, us, hunits, -⟩ := head_charUnits d
      simp [hpart, hunits]
  | cons c cs ih =>
    cases ds with
    | nil =>
      have hpart : ¬ PartAcross (c :: cs) [] := fun h => not_partAcross_nil _ h.symm
      simp [hpart]
    | cons d ds =>
      rw [List.flatMap_cons, List.flatMap_cons, List.cons_lt_cons_iff]
      by_cases hcd : c = d
      · subst hcd
        rw [append_lt_append_iff, ih, partAcross_cons_self]
        simp
      · rw [charUnits_append_lt_iff hcd, partAcross_cons_of_ne hcd]
        simp [hcd]

/-- Two texts are ordered as their units are, unless they part at characters that straddle the
surrogates; then they are ordered the other way. -/
theorem units_lt_iff (s t : String) :
    units s < units t ↔ (s < t ↔ ¬ PartAcross s.toList t.toList) :=
  flatMap_charUnits_lt_iff s.toList t.toList

/-! ### Comparisons -/

/-- Two truth values agree if one is the other one turned around on a condition, just where
the condition fails. -/
theorem agree_iff_of_turned {a b turned : Prop} (h : b ↔ (a ↔ ¬ turned)) :
    (a ↔ b) ↔ ¬ turned := by
  by_cases hturned : turned
  · simp [h, hturned]
  · simp [h, hturned]

/-- A comparison of two texts tells how their units are ordered just where the texts do not
part at two characters that straddle the surrogates. -/
theorem comparisons_agree_iff (h : Heap) (s t : String) :
    (applyBinary h .lt (.string s) (.string t) = .bool (decide (units s < units t)) ↔
      ¬ PartAcross s.toList t.toList) ∧
    (applyBinary h .le (.string s) (.string t) = .bool (decide (units s ≤ units t)) ↔
      ¬ PartAcross s.toList t.toList) ∧
    (applyBinary h .gt (.string s) (.string t) = .bool (decide (units t < units s)) ↔
      ¬ PartAcross s.toList t.toList) ∧
    (applyBinary h .ge (.string s) (.string t) = .bool (decide (units t ≤ units s)) ↔
      ¬ PartAcross s.toList t.toList) := by
  have hst := agree_iff_of_turned (units_lt_iff s t)
  have hts : (t < s ↔ units t < units s) ↔ ¬ PartAcross s.toList t.toList :=
    (agree_iff_of_turned (units_lt_iff t s)).trans (not_congr ⟨.symm, .symm⟩)
  have hbelow (a b : Prop) [Decidable a] [Decidable b] :
      Value.bool (decide a) = .bool (decide b) ↔ (a ↔ b) := by
    rw [Value.bool.injEq, decide_eq_decide]
  have hnotAbove (a : Prop) [Decidable a] (us vs : List UInt16) :
      Value.bool (!decide a) = .bool (decide (us ≤ vs)) ↔ (a ↔ vs < us) := by
    rw [Value.bool.injEq, ← decide_not, decide_eq_decide, ← List.not_lt, not_iff_not]
  refine ⟨(hbelow (s < t) _).trans hst, ?_, (hbelow (t < s) _).trans hts, ?_⟩
  · exact (hnotAbove (t < s) _ _).trans hts
  · exact (hnotAbove (s < t) _ _).trans hst

/-- A full-width tilde is below an emoji, but its unit is above the units of the emoji. -/
theorem comparisons_across : applyBinary .empty .lt (.string "～") (.string "😀") = .bool true ∧
    ¬ units "～" < units "😀" ∧
      applyBinary .empty .gt (.string "～") (.string "😀") = .bool false ∧
    units "😀" < units "～" := by
  refine ⟨rfl, by decide, rfl, by decide⟩

end ScriptReplay
