/-
Whole numbers as numbers of scripts.

Places and lengths are counted in whole numbers and reach scripts as doubles.  Below `2 ^ 53`
nothing is lost on the way: the double of a whole number is that number with its digits moved
to the front, and reading it as a place gives the whole number back.

* `unpack_ofNat` : the double of a whole number;
* `clampedNat_ofNat` : reading it as a whole number;
* `relativeIndex_ofNat` : reading it as a place in something of a given length.

Design notes: a double is written with a mantissa of 53 bits, which is `n * 2 ^ (52 - n.log2)`
for the number `n`.  All sums and products here are exact, so that rounding has nothing to do
(`roundWithAccuracy_exact`).
-/
import Mathlib.Algebra.Order.Group.Nat
import ScriptReplay.Run.ArrayMethod

namespace ScriptReplay

open Float.Model Float.Model.UnpackedFloat

/-! ### Rounding what is exact -/

theorem log2_mul_two_pow {n : Nat} (hpos : 0 < n) (k : Nat) :
    (n * 2 ^ k).log2 = n.log2 + k := by
  have hne : n * 2 ^ k ≠ 0 := Nat.mul_ne_zero hpos.ne' (Nat.two_pow_pos k).ne'
  obtain ⟨hle, hlt⟩ := (Nat.log2_eq_iff hpos.ne').1 rfl
  refine (Nat.log2_eq_iff hne).2 ⟨?_, ?_⟩
  · rw [Nat.pow_add]
    exact Nat.mul_le_mul_right _ hle
  · rw [Nat.add_right_comm, Nat.pow_add]
    exact Nat.mul_lt_mul_of_pos_right hlt (Nat.two_pow_pos k)

theorem pos_of_log2 {m : Nat} (hm : m.log2 = 52) : 0 < m := by
  refine Nat.pos_of_ne_zero ?_
  rintro rfl
  cases hm

/-- Zeros at the end of a mantissa are dropped without a trace. -/
theorem shiftRight_exact (m k : Nat) :
    (⟨m * 2 ^ k, false, false⟩ : ExtendedMantissa) >>> k = ⟨m, false, false⟩ := by
  show k.repeat ExtendedMantissa.shiftRightOne ⟨m * 2 ^ k, false, false⟩ = _
  induction k generalizing m with
  | zero => simp [Nat.repeat]
  | succ k ih =>
    have hm : m * 2 ^ (k + 1) = m * 2 * 2 ^ k := by
      rw [Nat.pow_succ]
      ac_rfl
    rw [Nat.repeat, hm, ih]
    simp [ExtendedMantissa.shiftRightOne]

/-- A double has a mantissa of 53 bits, and its smallest exponent is `-1074`. -/
theorem targetExponent_binary64 (e : Int) :
    Format.binary64.targetExponent e = max (e - 53) (-1074) :=
  rfl

theorem shiftToTargetExponent_exact {m : Nat} (hm : m.log2 = 52) (k : Nat) {e : Int}
    (he : -1074 ≤ e + k) :
    shiftToTargetExponent Format.binary64 (m * 2 ^ k) e .exact =
      (⟨m, false, false⟩, e + k) := by
  have htarget : Format.binary64.targetExponent (totalExponent (m * 2 ^ k) e) = e + k := by
    rw [targetExponent_binary64, totalExponent, log2_mul_two_pow (pos_of_log2 hm), hm]
    omega
  have hshift : (e + k - e).toNat = k := by omega
  unfold shiftToTargetExponent shiftToExponent
  simp only [htarget, hshift, ExtendedMantissa.ofMantissaAndAccuracy, shiftRight_exact]

/-- Rounding drops zeros until 53 bits are left. -/
theorem roundWithAccuracy_exact {m : Nat} (hm : m.log2 = 52) (k : Nat) {e e' : Int}
    (he : e + k = e') (hlow : -1074 ≤ e') (s : Sign) :
    roundWithAccuracy Format.binary64 s (m * 2 ^ k) e .exact =
      .finite s m e' (pos_of_log2 hm) := by
  subst he
  have hagain := shiftToTargetExponent_exact hm 0 (e := e + k) (by omega)
  rw [Nat.pow_zero, Nat.mul_one, Int.natCast_zero, Int.add_zero] at hagain
  have hrounded : (⟨m, false, false⟩ : ExtendedMantissa).roundedMantissa = m := rfl
  unfold roundWithAccuracy
  rw [shiftToTargetExponent_exact hm k hlow]
  dsimp only
  rw [hrounded, hagain]
  exact dif_neg (pos_of_log2 hm).ne'

/-! ### The fields of a double -/

/-- The sign is the first of the 64 bits.  For every sign this is
`unpackSign_packComponents`, in a file that only all of Mathlib imports. -/
theorem unpackSign_positive (exponent : BitVec 11) (mantissa : BitVec 52) :
    unpackSign (packComponents Format.binary64 .positive exponent mantissa) = 0#1 := by
  show (0#1 ++ exponent ++ mantissa).extractLsb 63 63 = 0#1
  rw [BitVec.extractLsb, BitVec.extractLsb'_append_eq_of_le (by decide),
    BitVec.extractLsb'_append_eq_of_le (by decide)]
  simp

/-- Bits with an exponent at neither end of its range are a number with 53 bits. -/
theorem unpack_of_fields {bits : BitVec Format.binary64.numBits} {m : Nat} {e : Int}
    (hpos : 0 < m) (hsign : unpackSign bits = 0#1) (hhigh : unpackExponent bits ≠ -1#_)
    (hlow : unpackExponent bits ≠ 0#_) (hm : (1#1 ++ unpackMantissa bits).toNat = m)
    (he : ((unpackExponent bits).toNat : Int) - 1075 = e) :
    UnpackedFloat.unpack Format.binary64 bits = .finite .positive m e hpos := by
  subst hm he
  unfold UnpackedFloat.unpack
  dsimp only
  rw [if_neg hhigh, if_neg hlow, hsign]
  rfl

/-- A number with 53 bits is read back from its fields. -/
theorem unpack_pack {m : Nat} (hm : m.log2 = 52) {e : Int} (hlow : -1074 ≤ e)
    (hhigh : e ≤ 971) :
    (Float.Model.pack (.finite .positive m e (pos_of_log2 hm))).unpack =
      .finite .positive m e (pos_of_log2 hm) := by
  obtain ⟨hle, hlt⟩ := (Nat.log2_eq_iff (pos_of_log2 hm).ne').1 hm
  obtain ⟨b, hb⟩ : ∃ b : Nat, e = b - 1075 := ⟨(e + 1075).toNat, by omega⟩
  have hbias : (e + (Format.binary64.exponentBias : Int) +
      (Format.binary64.mantissaBitsWithoutImplicit : Int)).toNat = b := by
    simp only [Format.exponentBias]
    omega
  -- The exponent is neither the one of infinities nor the one of numbers close to zero.
  have hexponent : ∀ x < 2 ^ 11, x ≠ b → BitVec.ofNat 11 b ≠ BitVec.ofNat 11 x := by
    intro x hx hne h
    have hfields := congrArg BitVec.toNat h
    rw [BitVec.toNat_ofNat, BitVec.toNat_ofNat] at hfields
    omega
  have hpack : UnpackedFloat.pack Format.binary64 (.finite .positive m e (pos_of_log2 hm)) =
      packComponents Format.binary64 .positive (BitVec.ofNat 11 b) (BitVec.ofNat 52 m) := by
    unfold UnpackedFloat.pack
    dsimp only
    rw [hbias, hm, if_neg (by omega), if_pos (by rfl)]
  show UnpackedFloat.unpack Format.binary64 (UnpackedFloat.pack Format.binary64 _) = _
  rw [hpack]
  refine unpack_of_fields _ (unpackSign_positive _ _) ?_ ?_ ?_ ?_
  · rw [unpackExponent_packComponents]
    exact hexponent 2047 (by decide) (by omega)
  · rw [unpackExponent_packComponents]
    exact hexponent 0 (by decide) (by omega)
  · rw [unpackMantissa_packComponents, BitVec.toNat_append, BitVec.toNat_ofNat,
      BitVec.toNat_ofNat, ← Nat.shiftLeft_add_eq_or_of_lt (Nat.mod_lt _ (Nat.two_pow_pos _)),
      Nat.shiftLeft_eq]
    omega
  · rw [unpackExponent_packComponents, BitVec.toNat_ofNat]
    show ((b % 2 ^ 11 : Nat) : Int) - 1075 = e
    omega

/-! ### Whole numbers -/

/-- The whole number with 53 bits. -/
def mantissaOf (n : Nat) : Nat :=
  n * 2 ^ (52 - n.log2)

theorem log2_mantissaOf {n : Nat} (hpos : 0 < n) (h : n < 2 ^ 53) :
    (mantissaOf n).log2 = 52 := by
  have hlog : n.log2 < 53 := (Nat.log2_lt hpos.ne').2 h
  rw [mantissaOf, log2_mul_two_pow hpos]
  omega

theorem round_ofNat {n : Nat} (hpos : 0 < n) (h : n < 2 ^ 53) :
    UnpackedFloat.round Format.binary64 .positive n 0 =
      .finite .positive (mantissaOf n) ((n.log2 : Int) - 52)
        (pos_of_log2 (log2_mantissaOf hpos h)) := by
  have hlog : n.log2 < 53 := (Nat.log2_lt hpos.ne').2 h
  have htarget :
      Format.binary64.targetExponent (totalExponent n 0) = (n.log2 : Int) - 52 := by
    rw [targetExponent_binary64, totalExponent]
    omega
  have hshift : (0 - ((n.log2 : Int) - 52)).toNat = 52 - n.log2 := by omega
  have hexponent : (0 : Int) - (52 - n.log2 : Nat) = (n.log2 : Int) - 52 := by omega
  have hdecrease : decreaseExponent n 0 ((n.log2 : Int) - 52) =
      (mantissaOf n, (n.log2 : Int) - 52) := by
    simp only [decreaseExponent, hshift, hexponent, Nat.shiftLeft_eq, mantissaOf]
  have hround := roundWithAccuracy_exact (log2_mantissaOf hpos h) 0
    (Int.add_zero ((n.log2 : Int) - 52)) (by omega) .positive
  rw [Nat.pow_zero, Nat.mul_one] at hround
  unfold UnpackedFloat.round
  dsimp only
  rw [htarget, hdecrease]
  exact hround

theorem unpack_toFloat {n : Nat} (hpos : 0 < n) (h : n < 2 ^ 53) :
    n.toUInt64.toFloat.toModel.unpack =
      .finite .positive (mantissaOf n) ((n.log2 : Int) - 52)
        (pos_of_log2 (log2_mantissaOf hpos h)) := by
  have hlog : n.log2 < 53 := (Nat.log2_lt hpos.ne').2 h
  have hword : n.toUInt64.toNat = n := by
    rw [Nat.toUInt64_eq, UInt64.toNat_ofNat']
    omega
  have hsign : compare (n : Int) 0 = .gt := by
    rw [Int.compare_eq_gt]
    omega
  have hpacked : n.toUInt64.toFloat.toModel =
      Float.Model.pack (.finite .positive (mantissaOf n) ((n.log2 : Int) - 52)
        (pos_of_log2 (log2_mantissaOf hpos h))) := by
    show Float.Model.pack (UnpackedFloat.ofNat Format.binary64 n.toUInt64.toNat) = _
    rw [hword]
    unfold UnpackedFloat.ofNat UnpackedFloat.ofInt UnpackedFloat.normalize
    rw [hsign]
    dsimp only
    rw [Int.toNat_natCast, round_ofNat hpos h]
  rw [hpacked]
  exact unpack_pack (log2_mantissaOf hpos h) (by omega) (by omega)

/-- The double of a whole number. -/
theorem unpack_ofNat {n : Nat} (hpos : 0 < n) (h : n < 2 ^ 53) :
    (Float.ofNat n).toModel.unpack =
      .finite .positive (mantissaOf n) ((n.log2 : Int) - 52)
        (pos_of_log2 (log2_mantissaOf hpos h)) := by
  have hlog : n.log2 < 53 := (Nat.log2_lt hpos.ne').2 h
  have hone : (Float.exactlyRepresentablePowersOfTen[0]).toModel.unpack =
      .finite .positive (2 ^ 52) (-52) (by decide) := by
    rfl
  have hproduct : Float.ofNat n = n.toUInt64.toFloat *
      Float.exactlyRepresentablePowersOfTen[0] := by
    show Float.ofScientific n false 0 = _
    unfold Float.ofScientific
    rw [dif_pos ⟨h, Nat.zero_le _⟩]
    rfl
  rw [hproduct]
  show (Float.Model.pack (UnpackedFloat.mul Format.binary64 n.toUInt64.toFloat.toModel.unpack
    (Float.exactlyRepresentablePowersOfTen[0]).toModel.unpack)).unpack = _
  rw [unpack_toFloat hpos h, hone]
  have hexponent : (n.log2 : Int) - 52 + -52 + (52 : Nat) = (n.log2 : Int) - 52 := by omega
  have hround :=
    roundWithAccuracy_exact (log2_mantissaOf hpos h) 52 hexponent (by omega) .positive
  show (Float.Model.pack (roundWithAccuracy Format.binary64 .positive _ _ .exact)).unpack = _
  rw [hround]
  exact unpack_pack (log2_mantissaOf hpos h) (by omega) (by omega)

/-! ### Doubles read as whole numbers -/

theorem toInt_ofNat {n : Nat} (hpos : 0 < n) (h : n < 2 ^ 53) (low high : Int) :
    (Float.ofNat n).toModel.unpack.toInt low high = n := by
  have hlog : n.log2 < 53 := (Nat.log2_lt hpos.ne').2 h
  have hnone : ((n.log2 : Int) - 52).toNat = 0 := by omega
  have hshift : (0 - ((n.log2 : Int) - 52)).toNat = 52 - n.log2 := by omega
  rw [unpack_ofNat hpos h]
  show roundToInt .positive (mantissaOf n) ((n.log2 : Int) - 52) = n
  simp only [roundToInt, decreaseExponent, shiftToExponent, Int.sub_zero,
    hnone, Nat.shiftLeft_zero, Int.natCast_zero, hshift, mantissaOf,
    ExtendedMantissa.ofMantissaAndAccuracy, shiftRight_exact]
  rfl

/-- A whole number is read back from its double. -/
theorem clampedNat_ofNat {n : Nat} (h : n < 2 ^ 53) : clampedNat (Float.ofNat n) = n := by
  rcases Nat.eq_zero_or_pos n with rfl | hpos
  · rfl
  · show (UInt64.ofNatClamp
      ((Float.ofNat n).toModel.unpack.toInt 0 (UInt64.size - 1)).toNat).toNat = n
    rw [toInt_ofNat hpos h, Int.toNat_natCast, UInt64.ofNatClamp,
      dif_pos (h.trans (by decide)), UInt64.toNat_ofNatLT]

theorem not_ofNat_lt_zero {n : Nat} (h : n < 2 ^ 53) : ¬ Float.ofNat n < 0 := by
  rcases Nat.eq_zero_or_pos n with rfl | hpos
  · exact Bool.false_ne_true
  · have hzero : (0 : Float).toModel.unpack = .zero .positive := by rfl
    show ¬ decide ((Float.ofNat n).toModel.unpack.lt (0 : Float).toModel.unpack) = true
    rw [unpack_ofNat hpos h, hzero]
    exact Bool.false_ne_true

/-- A place in something of a given length. -/
theorem relativeIndex_ofNat {n length : Nat} (h : n < 2 ^ 53) :
    relativeIndex (Float.ofNat n) length = min n length := by
  rw [relativeIndex, if_neg (not_ofNat_lt_zero h), clampedNat_ofNat h]

end ScriptReplay
