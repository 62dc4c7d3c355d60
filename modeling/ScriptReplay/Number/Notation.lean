/-
Numbers as text.

The text of a number has the fewest digits that read back.  Numbers from a millionth up to
10^21 are written with a point or as whole numbers; smaller and larger ones with an exponent.
Both zeros are written alike.

* `numberText` : the text of a number;
* `plainText` : the text without exponents, however long.
-/
import ScriptReplay.Number.Shortest

namespace ScriptReplay

/-- The digit with this value. -/
def digitChar (d : Nat) : Char :=
  Char.ofNat ('0'.toNat + d)

/-- The digits as text. -/
def digitText (ds : List Nat) : String :=
  String.ofList (ds.map digitChar)

/-- `n` zeros. -/
def zeros (n : Nat) : String :=
  String.ofList (List.replicate n '0')

/-- The decimal with its point in place. -/
def Decimal.positional (d : Decimal) : String :=
  let size := d.digits.length
  if d.point ≤ 0 then "0." ++ zeros (-d.point).toNat ++ digitText d.digits
  else if size ≤ d.point.toNat then digitText d.digits ++ zeros (d.point.toNat - size)
  else digitText (d.digits.take d.point.toNat) ++ "." ++
    digitText (d.digits.drop d.point.toNat)

/-- The decimal with one digit before the point and the power of ten after it. -/
def Decimal.exponential (d : Decimal) : String :=
  let power := d.point - 1
  let mark := if power < 0 then "e-" else "e+"
  let tail := mark ++ toString power.natAbs
  match d.digits with
  | first :: second :: rest => digitText [first] ++ "." ++ digitText (second :: rest) ++ tail
  | ds => digitText ds ++ tail

/-- Which decimals are written without an exponent: those in `[10 ^ -6, 10 ^ 21)`. -/
def Decimal.isModerate (d : Decimal) : Bool :=
  -5 ≤ d.point && d.point ≤ 21

/-- The text of a finite number, its decimal written by `layout`. -/
def signedText (layout : Decimal → String) (b : Binary) : String :=
  if b.mantissa = 0 then "0"
  else (if b.negative then "-" else "") ++ layout (Decimal.shortest b)

/-- The text of a number. -/
def numberText (x : Float) : String :=
  match Binary.ofFloat? x with
  | some b => signedText (fun d => if d.isModerate then d.positional else d.exponential) b
  | none => if x.isNaN then "NaN" else if x < 0 then "-Infinity" else "Infinity"

/-- The text of a number with all its places and no exponent, as messages show numerals. -/
def plainText (x : Float) : String :=
  match Binary.ofFloat? x with
  | some b => signedText Decimal.positional b
  | none => if x.isNaN then "NaN" else if x < 0 then "-inf" else "inf"

end ScriptReplay
