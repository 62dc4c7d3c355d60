/-
Doubles as integers times powers of two.

A finite double is a sign, a whole number below 2^53 and a power of two.  What must be exact
about numbers (their digits, their integer part, the remainder of a division) is computed from
these three in unbounded integers.

* `twoPow`, `tenPow` : the powers of two and of ten;
* `Binary.ofFloat?` : the three parts of a finite double;
* `truncate` : its integer part;
* `remainder` : what is left of a division, with the sign of the dividend.
-/
namespace ScriptReplay

/-- The power `2 ^ n`. -/
def twoPow (n : Nat) : Nat :=
  Nat.pow 2 n

/-- The power `10 ^ n`. -/
def tenPow (n : Nat) : Nat :=
  Nat.pow 10 n

/-- The value `± mantissa · 2 ^ exponent`. -/
structure Binary where
  negative : Bool
  mantissa : Nat
  exponent : Int
  deriving DecidableEq, Repr

/-- The exponent of the smallest doubles. -/
def Binary.minExponent : Int := -1074

/-- The mantissa of a power of two that is not among the smallest doubles. -/
def Binary.powerMantissa : Nat := twoPow 52

/-- The parts of a finite double; none for the infinities and NaN. -/
def Binary.ofFloat? (x : Float) : Option Binary :=
  let bits := x.toBits.toNat
  let biased : Nat := bits / twoPow 52 % twoPow 11
  let fraction := bits % twoPow 52
  let negative : Bool := bits / twoPow 63 = 1
  if biased = 2047 then none
  else if biased = 0 then some ⟨negative, fraction, minExponent⟩
  else some ⟨negative, powerMantissa + fraction, (biased : Int) - 1075⟩

/-- The whole number of units `2 ^ unit` in the magnitude, rounded down. -/
def Binary.unitsOf (b : Binary) (unit : Int) : Nat :=
  if unit ≤ b.exponent then b.mantissa * twoPow (b.exponent - unit).toNat
  else b.mantissa / twoPow (unit - b.exponent).toNat

/-- The integer part, toward zero. -/
def Binary.truncate (b : Binary) : Int :=
  if b.negative then -(b.unitsOf 0 : Int) else b.unitsOf 0

/-- The integer part of a finite double, toward zero. -/
def truncate? (x : Float) : Option Int :=
  (Binary.ofFloat? x).map Binary.truncate

/-- The double without its fraction. -/
def wholePart (x : Float) : Float :=
  if x < 0 then x.ceil else x.floor

/-- What `x` leaves when divided by `y`, with the sign of `x`.  The remainder has at most the
digits of its operands, so it is a double again and nothing is rounded. -/
def remainder (x y : Float) : Float :=
  match Binary.ofFloat? x, Binary.ofFloat? y with
  | some a, some b =>
    if b.mantissa = 0 then 0.0 / 0.0
    else
      let unit := min a.exponent b.exponent
      let size := (Float.ofNat (a.unitsOf unit % b.unitsOf unit)).scaleB unit
      if a.negative then -size else size
  | some _, none => if y.isNaN then y else x
  | none, _ => 0.0 / 0.0

end ScriptReplay
