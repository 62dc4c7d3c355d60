/-
Blank characters and trimming.

A blank is a character with the Unicode property White_Space.  There are twenty-five of them;
the byte order mark is not one.

* `isBlank` : the class;
* `trimStart`, `trim` : the text without the blanks at its ends.
-/
namespace ScriptReplay

/-- White space: the ASCII controls from tab to carriage return, the space, and the spaces and
separators of the other blocks. -/
def isBlank (c : Char) : Bool :=
  let n := c.toNat
  (9 ≤ n && n ≤ 13) || n == 0x20 || n == 0x85 || n == 0xA0 || n == 0x1680 ||
    (0x2000 ≤ n && n ≤ 0x200A) || n == 0x2028 || n == 0x2029 || n == 0x202F || n == 0x205F ||
    n == 0x3000

/-- The characters from the first one that is not blank. -/
def dropBlanks (cs : List Char) : List Char :=
  cs.dropWhile isBlank

/-- The characters between the blanks at both ends. -/
def trimChars (cs : List Char) : List Char :=
  (dropBlanks (dropBlanks cs).reverse).reverse

/-- The text without the blanks that it starts with. -/
def trimStart (s : String) : String :=
  String.ofList (dropBlanks s.toList)

/-- The text without the blanks at its two ends. -/
def trim (s : String) : String :=
  String.ofList (trimChars s.toList)

end ScriptReplay
