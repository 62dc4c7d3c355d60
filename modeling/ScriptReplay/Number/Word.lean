/-
Numbers as 32-bit words.

The bit operators work on words: a number loses its fraction and wraps modulo 2^32, and the
infinities and NaN become zero.  Results are read back as signed words, except after the
unsigned shift.

* `wordOf` : the word of a number;
* `signedValue` : a word as a number from -2^31 up;
* `shiftRight` : the shift that copies the sign.
-/
import ScriptReplay.Number.Binary

namespace ScriptReplay

/-- The number of words. -/
def wordCount : Nat := twoPow 32

/-- The integer part of a number modulo 2^32. -/
def wordOf (x : Float) : UInt32 :=
  match truncate? x with
  | some n => UInt32.ofNat (n % (wordCount : Int)).toNat
  | none => 0

/-- A word read as a signed integer. -/
def signedValue (w : UInt32) : Int :=
  Int.bmod w.toNat wordCount

/-- A word read as a signed number. -/
def signedFloat (w : UInt32) : Float :=
  Float.ofInt (signedValue w)

/-- The low five bits of a word, by which a shift moves. -/
def shiftAmount (w : UInt32) : UInt32 :=
  w &&& 31

/-- The shift to the right that keeps the sign: a division by a power of two, rounded down. -/
def shiftRight (a b : UInt32) : Int :=
  signedValue a / (twoPow (shiftAmount b).toNat : Int)

/-- The nearest whole number from zero up to `2 ^ 64 - 1`, toward zero; zero for NaN. -/
def clampedNat (x : Float) : Nat :=
  x.toUInt64.toNat

end ScriptReplay
