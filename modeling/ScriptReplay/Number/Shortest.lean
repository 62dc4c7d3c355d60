/-
The fewest digits that read back.

Every decimal near a double reads back as that double, from halfway to its lower neighbour
up to halfway to its upper one.  Among the decimals of that interval the ones with the fewest
digits are kept, and of those the nearest.

* `Interval.ofBinary` : the interval;
* `Decimal.shortest` : the decimal.

Design notes: for one digit, two digits and so on, the two grid points around the value
are tested in exact arithmetic, and the first grid with a point in the interval wins.  If
the interval has any point of a grid, it has one of those two.  A point halfway between
the two goes up.
-/
import ScriptReplay.Number.Binary

namespace ScriptReplay

/-! ### The interval -/

/-- The positive rationals `low / den < value / den < high / den`.  The ends belong to the
interval when `closed` holds. -/
structure Interval where
  low : Nat
  value : Nat
  high : Nat
  den : Nat
  closed : Bool

/-- The reals that round to a double.  All is measured in quarters of its last place, for
below a power of two the next double is only half as far.  A halfway point rounds to the
even mantissa. -/
def Interval.ofBinary (b : Binary) : Interval :=
  let unit := b.exponent - 2
  let scale := twoPow unit.toNat
  let lower :=
    if b.mantissa = Binary.powerMantissa ∧ Binary.minExponent < b.exponent then 1 else 2
  { low := (4 * b.mantissa - lower) * scale
    value := 4 * b.mantissa * scale
    high := (4 * b.mantissa + 2) * scale
    den := twoPow (-unit).toNat
    closed := b.mantissa % 2 = 0 }

/-- The same interval with every number times `10 ^ e`. -/
def Interval.scale10 (i : Interval) (e : Int) : Interval :=
  let up := tenPow e.toNat
  { i with
    low := i.low * up, value := i.value * up, high := i.high * up
    den := i.den * tenPow (-e).toNat }

/-- Whether the whole number `n` lies in the interval. -/
def Interval.holds (i : Interval) (n : Nat) : Bool :=
  if i.closed then i.low ≤ n * i.den && n * i.den ≤ i.high
  else i.low < n * i.den && n * i.den < i.high

/-- The whole number of the interval that is nearest to the value, a tie going up. -/
def Interval.nearest? (i : Interval) : Option Nat :=
  let below := i.value / i.den
  let closerUp := i.den ≤ 2 * (i.value - below * i.den)
  if i.holds below && !(i.holds (below + 1) && closerUp) then some below
  else if i.holds (below + 1) then some (below + 1)
  else none

/-! ### Decimals -/

/-- The positive decimal `0.d₁d₂… · 10 ^ point` with the given digits, the first and the last
of which are not zero. -/
structure Decimal where
  digits : List Nat
  point : Int
  deriving DecidableEq, Repr

/-- The decimal digits of a number, units first, at most `bound` of them. -/
def digitsFrom (bound n : Nat) : List Nat :=
  match bound with
  | 0 => []
  | bound + 1 => if n = 0 then [] else n % 10 :: digitsFrom bound (n / 10)

/-- The decimal `n · 10 ^ e`. -/
def Decimal.ofScaled (n : Nat) (e : Int) : Decimal :=
  let digits := digitsFrom (n.log2 + 1) n
  { digits := (digits.dropWhile (· = 0)).reverse, point := e + digits.length }

/-- The least `p ≥ start` with `value / den < 10 ^ p`, looked for in `bound` steps. -/
def leadingPlace (value den : Nat) (start : Int) : Nat → Int
  | 0 => start
  | bound + 1 =>
    if value * tenPow (-start).toNat < den * tenPow start.toNat then start
    else leadingPlace value den (start + 1) bound

/-- A place not above the leading one, from the binary sizes of numerator and denominator:
eight binary places are more than two decimal ones. -/
def placeBelow (i : Interval) : Int :=
  ((i.value.log2 : Int) - i.den.log2 - 1) * 3 / 10 - 2

/-- The place of the first digit: the value lies in `[10 ^ (p - 1), 10 ^ p)`. -/
def Interval.leading (i : Interval) : Int :=
  leadingPlace i.value i.den (placeBelow i) 64

/-- The fewest digits that lie in the interval.  Seventeen always do. -/
def Interval.shortest (i : Interval) : Decimal :=
  let place := i.leading
  let grids := (List.range 17).map (fun (k : Nat) => place - 1 - k)
  match grids.findSome? (fun e => (i.scale10 (-e)).nearest?.map (Decimal.ofScaled · e)) with
  | some d => d
  | none => ⟨[], 0⟩

/-- The shortest decimal of a finite double other than zero, its sign apart. -/
def Decimal.shortest (b : Binary) : Decimal :=
  (Interval.ofBinary b).shortest

end ScriptReplay
