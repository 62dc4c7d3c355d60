/-
Texts and their units determine each other.

The units of a text can be read back.  They also keep the places of its characters: where
the units of a text stand inside those of another one, the text itself stands there, for no
character begins with the second half of a pair.

* `charUnits_cases` : the units of a character, and how they give it back;
* `ofUnits_units` : units are read back;
* `units_prefix_iff`, `units_suffix_iff`, `units_infix_iff` : parts of texts are parts of
  their units;
* `exists_of_units_prefix_drop` : a match among the units begins between two characters.
-/
import ScriptReplay.Proofs.Units

namespace ScriptReplay

/-! ### The units of a character -/

/-- A character is one unit of its own number, or a pair of a high and a low unit. -/
theorem charUnits_cases (c : Char) :
    (∃ u, charUnits c = [u] ∧ isHighSurrogate u = false ∧
      isLowSurrogate u = false ∧ u.toNat = c.toNat) ∨
    ∃ u v, charUnits c = [u, v] ∧ isHighSurrogate u = true ∧ isLowSurrogate v = true ∧
      0x10000 + (u.toNat - 0xD800) * 0x400 + (v.toNat - 0xDC00) = c.toNat := by
  -- Characters leave out the numbers of the surrogates.
  have hvalid : c.toNat < 0xD800 ∨ 0xDFFF < c.toNat ∧ c.toNat < 0x110000 := c.valid
  unfold charUnits isHighSurrogate isLowSurrogate
  dsimp only
  split
  · next hsmall =>
    refine .inl ⟨_, rfl, ?_⟩
    have hunit : c.toNat.toUInt16.toNat = c.toNat := by
      rw [Nat.toUInt16_eq, UInt16.toNat_ofNat']
      omega
    simp only [Bool.and_eq_false_iff, decide_eq_false_iff_not,
      UInt16.le_iff_toNat_le, hunit, and_true]
    simp only [UInt16.reduceToNat]
    omega
  · next hlarge =>
    refine .inr ⟨_, _, rfl, ?_⟩
    have hhigh : (0xD800 + (c.toNat - 0x10000) / 0x400).toUInt16.toNat = 0xD800 +
        (c.toNat - 0x10000) / 0x400 := by
      rw [Nat.toUInt16_eq, UInt16.toNat_ofNat']
      omega
    have hlow : (0xDC00 + (c.toNat - 0x10000) % 0x400).toUInt16.toNat = 0xDC00 +
        (c.toNat - 0x10000) % 0x400 := by
      rw [Nat.toUInt16_eq, UInt16.toNat_ofNat']
      omega
    simp only [Bool.and_eq_true, decide_eq_true_eq, UInt16.le_iff_toNat_le, hhigh, hlow]
    simp only [UInt16.reduceToNat]
    omega

/-- No unit opens a pair and closes one. -/
theorem isLowSurrogate_of_isHighSurrogate {u : UInt16} (h : isHighSurrogate u = true) :
    isLowSurrogate u = false := by
  simp only [isHighSurrogate, Bool.and_eq_true, decide_eq_true_eq, UInt16.le_iff_toNat_le]
    at h
  simp only [isLowSurrogate, Bool.and_eq_false_iff,
    decide_eq_false_iff_not, UInt16.le_iff_toNat_le]
  simp only [UInt16.reduceToNat] at h ⊢
  omega

/-- A character does not begin with the second half of a pair. -/
theorem head_charUnits (c : Char) :
    ∃ u rest, charUnits c = u :: rest ∧ isLowSurrogate u = false := by
  rcases charUnits_cases c with ⟨u, hunits, -, hlow, -⟩ | ⟨u, v, hunits, hhigh, -, -⟩
  · exact ⟨u, [], hunits, hlow⟩
  · exact ⟨u, [v], hunits, isLowSurrogate_of_isHighSurrogate hhigh⟩

theorem charUnits_ne_nil (c : Char) : charUnits c ≠ [] := by
  obtain ⟨u, rest, hunits, -⟩ := head_charUnits c
  rw [hunits]
  exact List.cons_ne_nil u rest

/-! ### Reading back -/

/-- The units of a character are read as the character, whatever comes after them. -/
theorem charsOfUnits_charUnits_append (c : Char) (us : List UInt16) :
    charsOfUnits (charUnits c ++ us) = c :: charsOfUnits us := by
  rcases charUnits_cases c with ⟨u, hunits, hhigh, hlow, hcode⟩
    | ⟨u, v, hunits, hhigh, hlow, hcode⟩
  · rw [hunits, List.singleton_append]
    cases us with
    | nil => simp [charsOfUnits, hhigh, hlow, hcode]
    | cons v us => simp [charsOfUnits, hhigh, hlow, hcode]
  · simp [hunits, charsOfUnits, hhigh, hlow, hcode]

theorem charsOfUnits_flatMap (cs : List Char) : charsOfUnits (cs.flatMap charUnits) = cs := by
  induction cs with
  | nil => rfl
  | cons c cs ih => rw [List.flatMap_cons, charsOfUnits_charUnits_append, ih]

/-- A text is read back from its units. -/
theorem ofUnits_units (s : String) : ofUnits (units s) = s := by
  unfold ofUnits units
  rw [charsOfUnits_flatMap, String.ofList_toList]

/-! ### Parts of the units -/

/-- The first character and the units behind it can be told from the units. -/
theorem charUnits_append_inj {c d : Char} {us vs : List UInt16}
    (h : charUnits c ++ us = charUnits d ++ vs) : c = d ∧ us = vs := by
  have hread := congrArg charsOfUnits h
  rw [charsOfUnits_charUnits_append, charsOfUnits_charUnits_append] at hread
  obtain ⟨rfl, -⟩ := List.cons.inj hread
  exact ⟨rfl, List.append_cancel_left h⟩

/-- Units at the front belong to characters at the front. -/
theorem prefix_of_flatMap_prefix {cs ds : List Char}
    (h : cs.flatMap charUnits <+: ds.flatMap charUnits) : cs <+: ds := by
  induction cs generalizing ds with
  | nil => exact List.nil_prefix
  | cons c cs ih =>
    obtain ⟨us, hus⟩ := h
    rw [List.flatMap_cons, List.append_assoc] at hus
    cases ds with
    | nil => exact absurd (List.append_eq_nil_iff.1 hus).1 (charUnits_ne_nil c)
    | cons d ds =>
      rw [List.flatMap_cons] at hus
      obtain ⟨rfl, hrest⟩ := charUnits_append_inj hus
      exact List.cons_prefix_cons.2 ⟨rfl, ih ⟨us, hrest⟩⟩

/-- Units that begin inside a character begin with the second half of a pair. -/
theorem isLowSurrogate_of_inside {c : Char} {p : Nat} (us : List UInt16) (hpos : 0 < p)
    (hinside : p < (charUnits c).length) :
    ∃ u rest, (charUnits c ++ us).drop p = u :: rest ∧ isLowSurrogate u = true := by
  rcases charUnits_cases c with ⟨u, hunits, -⟩ | ⟨u, v, hunits, -, hlow, -⟩
  · rw [hunits, List.length_singleton] at hinside
    omega
  · rw [hunits, List.length_cons, List.length_singleton] at hinside
    obtain rfl : p = 1 := by omega
    exact ⟨v, us, by rw [hunits]; rfl, hlow⟩

/-- Units of some characters that stand among others stand where a character begins. -/
theorem exists_of_flatMap_prefix_drop {cs ds : List Char} {p : Nat} (hcs : cs ≠ [])
    (h : cs.flatMap charUnits <+: (ds.flatMap charUnits).drop p) :
    ∃ before after, ds = before ++ cs ++ after ∧ (before.flatMap charUnits).length = p := by
  induction ds generalizing p with
  | nil =>
    obtain ⟨c, cs, rfl⟩ := List.exists_cons_of_ne_nil hcs
    rw [List.flatMap_nil, List.drop_nil, List.prefix_nil, List.flatMap_cons] at h
    exact absurd (List.append_eq_nil_iff.1 h).1 (charUnits_ne_nil c)
  | cons d ds ih =>
    rcases Nat.eq_zero_or_pos p with rfl | hpos
    · obtain ⟨after, hafter⟩ := prefix_of_flatMap_prefix h
      exact ⟨[], after, hafter.symm, rfl⟩
    rw [List.flatMap_cons] at h
    rcases Nat.lt_or_ge p (charUnits d).length with hinside | hbehind
    · -- A character of the stretch would begin with the second half of a pair.
      obtain ⟨c, cs, rfl⟩ := List.exists_cons_of_ne_nil hcs
      obtain ⟨v, rest, hdrop, hlow⟩ :=
        isLowSurrogate_of_inside (ds.flatMap charUnits) hpos hinside
      obtain ⟨u, rest', hhead, hnotLow⟩ := head_charUnits c
      rw [hdrop, List.flatMap_cons, hhead, List.cons_append] at h
      obtain ⟨rfl, -⟩ := List.cons_prefix_cons.1 h
      rw [hlow] at hnotLow
      cases hnotLow
    · rw [List.drop_append, List.drop_eq_nil_of_le hbehind, List.nil_append] at h
      obtain ⟨before, after, rfl, hlength⟩ := ih h
      refine ⟨d :: before, after, rfl, ?_⟩
      rw [List.flatMap_cons, List.length_append, hlength]
      omega

/-! ### Parts of texts -/

theorem units_append (s t : String) : units (s ++ t) = units s ++ units t := by
  unfold units
  rw [String.toList_append, List.flatMap_append]

theorem units_ofList (cs : List Char) : units (String.ofList cs) = cs.flatMap charUnits := by
  unfold units
  rw [String.toList_ofList]

theorem units_eq_nil_iff {s : String} : units s = [] ↔ s = "" := by
  constructor
  · intro h
    rw [← ofUnits_units s, h]
    rfl
  · rintro rfl
    rfl

/-- Where the units of a text that is not empty stand inside those of another one, the text
stands in it. -/
theorem exists_of_units_prefix_drop {s t : String} {p : Nat} (ht : t ≠ "")
    (h : units t <+: (units s).drop p) :
    ∃ before after, s = before ++ t ++ after ∧ unitCount before = p := by
  obtain ⟨before, after, hs, hlength⟩ :=
    exists_of_flatMap_prefix_drop (mt String.toList_eq_nil_iff.1 ht) h
  refine ⟨String.ofList before, String.ofList after, ?_, ?_⟩
  · rw [← String.toList_inj, hs]
    simp only [String.toList_append, String.toList_ofList]
  · rw [← length_units, units_ofList, hlength]

theorem units_prefix_iff {s t : String} : units t <+: units s ↔ t.toList <+: s.toList := by
  constructor
  · exact prefix_of_flatMap_prefix
  · rintro ⟨after, hs⟩
    refine ⟨after.flatMap charUnits, ?_⟩
    unfold units
    rw [← hs, List.flatMap_append]

theorem units_infix_iff {s t : String} : units t <:+: units s ↔ t.toList <:+: s.toList := by
  constructor
  · rintro ⟨us, vs, hs⟩
    rcases Decidable.eq_or_ne t "" with rfl | ht
    · exact List.nil_infix
    have hdrop : units t <+: (units s).drop us.length := by
      rw [← hs, List.append_assoc, List.drop_left]
      exact List.prefix_append _ _
    obtain ⟨before, after, rfl, -⟩ := exists_of_units_prefix_drop ht hdrop
    exact ⟨before.toList, after.toList, by simp only [String.toList_append]⟩
  · rintro ⟨before, after, hs⟩
    refine ⟨before.flatMap charUnits, after.flatMap charUnits, ?_⟩
    unfold units
    rw [← hs, List.flatMap_append, List.flatMap_append]

theorem units_suffix_iff {s t : String} : units t <:+ units s ↔ t.toList <:+ s.toList := by
  constructor
  · rintro ⟨us, hs⟩
    rcases Decidable.eq_or_ne t "" with rfl | ht
    · exact List.nil_suffix
    have hdrop : units t <+: (units s).drop us.length := by
      rw [← hs]
      simp only [List.drop_left, List.prefix_rfl]
    obtain ⟨before, after, rfl, hcount⟩ := exists_of_units_prefix_drop ht hdrop
    -- Nothing is left behind the stretch, for its units are the last ones.
    have hafter : units after = [] := by
      have hlength := congrArg List.length hs
      rw [units_append, units_append, List.length_append,
        List.length_append, List.length_append,
        length_units before, hcount] at hlength
      exact List.length_eq_zero_iff.1 (by omega)
    rw [units_eq_nil_iff.1 hafter]
    exact ⟨before.toList,
      by simp only [String.toList_append, String.toList_empty, List.append_nil]⟩
  · rintro ⟨before, hs⟩
    refine ⟨before.flatMap charUnits, ?_⟩
    unfold units
    rw [← hs, List.flatMap_append]

end ScriptReplay
