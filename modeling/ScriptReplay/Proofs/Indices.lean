/-
Texts that are indices.

An index is written in one way only: by its decimal digits, without zeros in front of them.

* `digitsValue_toDigits`, `toDigits_digitsValue` : digits and the number that they write;
* `arrayIndex?_eq_some` : the texts that are indices are the numerals of the
  numbers below 2^64.
-/
import Mathlib.Algebra.Group.Nat.Defs
import ScriptReplay.Run.Property

namespace ScriptReplay

/-- The digits of a number write the number. -/
theorem digitsValue_eq (ds : List Char) : digitsValue ds = Nat.ofDigitChars 10 ds 0 := by
  unfold digitsValue
  rw [Nat.ofDigitChars_eq_foldl]
  simp only [Nat.mul_comm]

theorem digitsValue_toDigits (n : Nat) : digitsValue (Nat.toDigits 10 n) = n := by
  rw [digitsValue_eq]
  exact Nat.ofDigitChars_toDigits (by decide) (by decide)

theorem digit_lt_ten {c : Char} (h : c.isDigit = true) : c.toNat - '0'.toNat < 10 := by
  obtain ⟨-, hle⟩ := Char.isDigit_iff_toNat.1 h
  have hnine : '9'.toNat = '0'.toNat + 9 := rfl
  omega

/-- A digit is the one of its value. -/
theorem digitChar_of_isDigit {c : Char} (h : c.isDigit = true) :
    Nat.digitChar (c.toNat - '0'.toNat) = c := by
  obtain ⟨hle, -⟩ := Char.isDigit_iff_toNat.1 h
  have hzero : '0'.toNat = 48 := rfl
  apply Char.toNat_inj.1
  rw [Nat.toNat_digitChar_of_lt_ten (digit_lt_ten h)]
  omega

/-- Digits behind those of a number that is not zero. -/
theorem toDigits_append {ds : List Char} (hds : ∀ c ∈ ds, c.isDigit = true) {n : Nat}
    (hn : 0 < n) : Nat.toDigits 10 n ++ ds = Nat.toDigits 10 (Nat.ofDigitChars 10 ds n) := by
  induction ds generalizing n with
  | nil => rw [List.append_nil, Nat.ofDigitChars_nil]
  | cons c ds ih =>
    have hc := hds c List.mem_cons_self
    have hmore := ih (fun c' hc' => hds c' (List.mem_cons_of_mem c hc'))
      (n := 10 * n + (c.toNat - '0'.toNat)) (by omega)
    rw [Nat.ofDigitChars_cons, ← hmore,
      ← Nat.toDigits_append_toDigits (by decide) hn (digit_lt_ten hc),
      Nat.toDigits_of_lt_base (digit_lt_ten hc), digitChar_of_isDigit hc,
      List.append_assoc, List.singleton_append]

/-- Digits without a zero in front of them are those of the number that they write. -/
theorem toDigits_digitsValue {c : Char} {ds : List Char}
    (hds : ∀ c' ∈ c :: ds, c'.isDigit = true) (hc : c = '0' → ds = []) :
    Nat.toDigits 10 (digitsValue (c :: ds)) = c :: ds := by
  have hfirst := hds c List.mem_cons_self
  have hdigit : Nat.toDigits 10 (c.toNat - '0'.toNat) = [c] := by
    rw [Nat.toDigits_of_lt_base (digit_lt_ten hfirst), digitChar_of_isDigit hfirst]
  rw [digitsValue_eq, Nat.ofDigitChars_cons, Nat.mul_zero, Nat.zero_add]
  by_cases h : c = '0'
  · rw [hc h, Nat.ofDigitChars_nil, hdigit]
  · have hpos : 0 < c.toNat - '0'.toNat := by
      have hne : c.toNat ≠ '0'.toNat := fun heq => h (Char.toNat_inj.1 heq)
      have hle := (Char.isDigit_iff_toNat.1 hfirst).1
      omega
    rw [← toDigits_append (fun c' hc' => hds c' (List.mem_cons_of_mem c hc')) hpos,
      hdigit, List.singleton_append]

/-- The digits of a number that is not zero do not start with a zero. -/
theorem head_toDigits_ne_zero {n : Nat} (hn : 0 < n) (ds : List Char) :
    Nat.toDigits 10 n ≠ '0' :: ds := by
  induction n using Nat.strongRecOn generalizing ds with
  | _ n ih =>
    by_cases hlt : n < 10
    · rw [Nat.toDigits_of_lt_base hlt]
      intro h
      have hzero : Nat.digitChar n = '0' := (List.cons.inj h).1
      rw [Nat.digitChar_eq_zero] at hzero
      omega
    · rw [Nat.toDigits_of_base_le (by decide) (by omega)]
      intro h
      -- The first digit is that of the number without its last one.
      cases hdigits : Nat.toDigits 10 (n / 10) with
      | nil => exact Nat.toDigits_ne_nil hdigits
      | cons c rest =>
        rw [hdigits, List.cons_append] at h
        obtain ⟨rfl, -⟩ := List.cons.inj h
        exact ih (n / 10) (by omega) (by omega) rest hdigits

/-- The texts that are indices are the numerals of the numbers below 2^64. -/
theorem arrayIndex?_eq_some {key : String} {i : Nat} :
    arrayIndex? key = some i ↔ key = toString i ∧ i < 2 ^ 64 := by
  have hlimit : wordLimit = 2 ^ 64 := by decide +kernel
  have hnumeral : key = toString i ↔ key.toList = Nat.toDigits 10 i := by
    rw [← String.toList_inj, Nat.toString_eq_repr, Nat.toList_repr]
  rw [hnumeral]
  unfold arrayIndex?
  rw [hlimit]
  constructor
  -- A numeral without a zero in front is the one of its value.
  · intro h
    split at h
    · cases h
    · cases h
    · next digits hne hlead =>
      split at h
      · next hdigits =>
        cases h
        rw [Bool.and_eq_true, List.all_eq_true, decide_eq_true_eq] at hdigits
        refine ⟨?_, hdigits.2⟩
        cases hlist : key.toList with
        | nil => exact absurd hlist hne
        | cons c ds =>
          rw [hlist] at hdigits
          refine (toDigits_digitsValue hdigits.1 fun hc => ?_).symm
          cases ds with
          | nil => rfl
          | cons d ds => exact absurd (hc ▸ hlist) (hlead d ds)
      · cases h
  -- The numeral of a number starts with a zero only if the number is zero.
  · rintro ⟨hkey, hi⟩
    have hdigits : ∀ c ∈ Nat.toDigits 10 i, c.isDigit = true :=
      fun c hc => Nat.isDigit_of_mem_toDigits (by decide) (by decide) hc
    rw [hkey]
    split
    · next hnil => exact absurd hnil Nat.toDigits_ne_nil
    · next d ds hlead =>
      obtain rfl | hpos := Nat.eq_zero_or_pos i
      · rw [Nat.toDigits_zero] at hlead
        cases hlead
      · exact absurd hlead (head_toDigits_ne_zero hpos _)
    · rw [digitsValue_toDigits, List.all_eq_true.2 hdigits, decide_eq_true hi]
      rfl

theorem arrayIndex?_length : arrayIndex? "length" = none := by
  decide

end ScriptReplay
