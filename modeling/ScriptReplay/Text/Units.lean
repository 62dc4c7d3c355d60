/-
Texts as sequences of 16-bit units.

Scripts measure and cut texts in UTF-16 code units: a character beyond U+FFFF counts as two, a
high and a low surrogate.  A cut can fall between the two; the lone half then reads as U+FFFD.

* `units` : the unit sequence of a text;
* `ofUnits` : the text of a unit sequence;
* `unitCount` : its length, counted without building the sequence of units.
-/
namespace ScriptReplay

/-- The one or two units of a character. -/
def charUnits (c : Char) : List UInt16 :=
  let n := c.toNat
  if n < 0x10000 then [n.toUInt16]
  else [(0xD800 + (n - 0x10000) / 0x400).toUInt16, (0xDC00 + (n - 0x10000) % 0x400).toUInt16]

/-- The units of a text, in order. -/
def units (s : String) : List UInt16 :=
  s.toList.flatMap charUnits

/-- How many units a character takes. -/
def charWidth (c : Char) : Nat :=
  if c.toNat < 0x10000 then 1 else 2

/-- The length of a text in units. -/
def unitCount (s : String) : Nat :=
  s.toList.foldl (fun n c => n + charWidth c) 0

/-- A unit of the range that opens a pair. -/
def isHighSurrogate (u : UInt16) : Bool :=
  0xD800 ≤ u && u ≤ 0xDBFF

/-- A unit of the range that closes a pair. -/
def isLowSurrogate (u : UInt16) : Bool :=
  0xDC00 ≤ u && u ≤ 0xDFFF

/-- The character that stands for a unit with no partner. -/
def replacementChar : Char :=
  Char.ofNat 0xFFFD

/-- The characters of a unit sequence.  A high and a low unit side by side are
one character. -/
def charsOfUnits : List UInt16 → List Char
  | [] => []
  | [u] =>
    [if isHighSurrogate u || isLowSurrogate u then replacementChar else Char.ofNat u.toNat]
  | u :: v :: rest =>
    if isHighSurrogate u && isLowSurrogate v then
      Char.ofNat (0x10000 + (u.toNat - 0xD800) * 0x400 + (v.toNat - 0xDC00)) ::
        charsOfUnits rest
    else if isHighSurrogate u || isLowSurrogate u then
      replacementChar :: charsOfUnits (v :: rest)
    else
      Char.ofNat u.toNat :: charsOfUnits (v :: rest)

/-- The text of a unit sequence. -/
def ofUnits (us : List UInt16) : String :=
  String.ofList (charsOfUnits us)

end ScriptReplay
