/-
Text as numbers.

* `decimalValue?` : a decimal with optional sign, point and exponent, all of the text;
* `radixValue?` : whole numbers in other bases;
* `numberOfText` : the number that a text stands for when a script uses it as one;
* `leadingInteger`, `leadingDecimal` : the number that a text starts with.

Design notes: a decimal needs a digit before its exponent, on either side of the point.
Powers of ten beyond any double are cut off before they are computed.
-/
import ScriptReplay.Number.Binary
import ScriptReplay.Text.Blank

namespace ScriptReplay

/-! ### Digits -/

/-- The value of a digit in the bases up to thirty-six, in which letters of either
case follow 9. -/
def digitValue? (base : Nat) (c : Char) : Option Nat :=
  let value :=
    if c.isDigit then c.toNat - '0'.toNat
    else if 'a' ≤ c && c ≤ 'z' then c.toNat - 'a'.toNat + 10
    else if 'A' ≤ c && c ≤ 'Z' then c.toNat - 'A'.toNat + 10
    else base
  if value < base then some value else none

/-- The number written by decimal digits. -/
def digitsValue (ds : List Char) : Nat :=
  ds.foldl (fun n c => n * 10 + (c.toNat - '0'.toNat)) 0

/-- The whole number below `limit` that the digits write in `base`.  A plus sign may come
first; there is at least one digit. -/
def radixValue? (base limit : Nat) (text : List Char) : Option Nat :=
  let digits := match text with
    | '+' :: rest => rest
    | _ => text
  if digits.isEmpty then none
  else
    match digits.mapM (digitValue? base) with
    | some values =>
      let n := values.foldl (fun n d => n * base + d) 0
      if n < limit then some n else none
    | none => none

/-! ### Decimals -/

/-- The double nearest to `mantissa · 10 ^ exponent`. -/
def scaledFloat (mantissa : Nat) (exponent : Int) : Float :=
  let size := exponent + (mantissa.log2 + 1) * 30103 / 100000
  if mantissa = 0 || size < -400 then 0.0
  else if 400 < size then 1.0 / 0.0
  else Float.ofScientific mantissa (exponent < 0) exponent.natAbs

/-- The text after an optional sign, and whether the sign was a minus. -/
def splitSign : List Char → Bool × List Char
  | '-' :: rest => (true, rest)
  | '+' :: rest => (false, rest)
  | cs => (false, cs)

/-- The digits that a text starts with, and the rest. -/
def digitRun (cs : List Char) : List Char × List Char :=
  (cs.takeWhile Char.isDigit, cs.dropWhile Char.isDigit)

/-- The exponent that a text starts with, which is `e`, a sign and digits, and the rest.
Without digits nothing is read and the exponent is zero. -/
def readExponent (cs : List Char) : Int × List Char :=
  match cs with
  | [] => (0, [])
  | c :: rest =>
    if c = 'e' || c = 'E' then
      let (negative, rest) := splitSign rest
      match digitRun rest with
      | ([], _) => (0, cs)
      | (digits, after) =>
        (if negative then -(digitsValue digits : Int) else digitsValue digits, after)
    else (0, cs)

/-- The decimal without a sign that a text starts with, as long as possible, and the rest. -/
def readUnsigned? (cs : List Char) : Option (Float × List Char) :=
  let (whole, rest) := digitRun cs
  let (fraction, rest) := match rest with
    | '.' :: more => digitRun more
    | _ => ([], rest)
  if whole.isEmpty && fraction.isEmpty then none
  else
    let (exponent, rest) := readExponent rest
    some (scaledFloat (digitsValue (whole ++ fraction)) (exponent - fraction.length), rest)

/-- The decimal that a text starts with, as long as possible, and the rest. -/
def readDecimal? (cs : List Char) : Option (Float × List Char) :=
  let (negative, cs) := splitSign cs
  (readUnsigned? cs).map fun (x, rest) => (if negative then -x else x, rest)

/-- The decimal written by all of the text. -/
def decimalValue? (cs : List Char) : Option Float :=
  match readDecimal? cs with
  | some (x, []) => some x
  | _ => none

/-! ### Texts used as numbers -/

/-- The number above every 64-bit one. -/
def wordLimit : Nat := twoPow 64

/-- Not a number. -/
def notANumber : Float := 0.0 / 0.0

/-- Positive infinity. -/
def infinity : Float := 1.0 / 0.0

/-- The base that a two-character mark such as `0x` announces. -/
def markedBase? : List Char → Option Nat
  | '0' :: mark :: _ =>
    match mark with
    | 'x' | 'X' => some 16
    | 'o' | 'O' => some 8
    | 'b' | 'B' => some 2
    | _ => none
  | _ => none

/-- The number that a text stands for: nothing but blanks is zero, then infinities, marked
bases and decimals are read, and any other text is not a number. -/
def numberOfText (s : String) : Float :=
  let cs := trimChars s.toList
  if cs.isEmpty then 0.0
  else if cs == "Infinity".toList || cs == "+Infinity".toList then infinity
  else if cs == "-Infinity".toList then -infinity
  else
    match markedBase? cs with
    | some base => (radixValue? base wordLimit (cs.drop 2)).elim notANumber Float.ofNat
    | none => (decimalValue? cs).getD notANumber

/-! ### Numbers at the start of a text -/

/-- The values of the digits that a text starts with. -/
def leadingDigits (base : Nat) : List Char → List Nat
  | [] => []
  | c :: rest =>
    match digitValue? base c with
    | some d => d :: leadingDigits base rest
    | none => []

/-- The whole number that a text starts with, in base ten if `base` is zero, or sixteen after
`0x`.  Digits are added up in doubles, so long numerals round as they grow. -/
def leadingInteger (s : String) (base : Nat) : Float :=
  let (negative, cs) := splitSign (dropBlanks s.toList)
  let marked := (base = 0 || base = 16) && markedBase? cs == some 16
  let digits := if marked then cs.drop 2 else cs
  let base := if marked then 16 else if base = 0 then 10 else base
  if base < 2 || 36 < base then notANumber
  else
    match leadingDigits base digits with
    | [] => notANumber
    | ds =>
      let value := ds.foldl (fun acc d => acc * Float.ofNat base + Float.ofNat d) 0.0
      if negative then -value else value

/-- The decimal or the infinity that a text starts with, as long as possible. -/
def leadingDecimal (s : String) : Float :=
  let cs := dropBlanks s.toList
  let word := "Infinity".toList
  if ('-' :: word).isPrefixOf cs then -infinity
  else if word.isPrefixOf (cs.dropWhile (· = '+')) then infinity
  else ((readDecimal? cs).map (·.1)).getD notANumber

end ScriptReplay
