/-
Ceilings written as JSON.

Ceilings are given as an object with some of their names, or as an array of values in the
order of the fields.  What is left out keeps its default.  Other names are passed over with
any value; a known name may come only once; a value is a whole number below 2^64 without
fraction or exponent.

* `RunLimits.ofText?`, `AnalysisLimits.ofText?` : the ceilings that a text gives;
* `readFields?` : the numbers under some names.

Design notes: each reader gives the rest of the text.  Values that are passed over must still
be JSON, at any depth, so the readers that nest count down the length of the text.
-/
import ScriptReplay.Limits
import ScriptReplay.Number.Reading

namespace ScriptReplay

namespace LimitsText

/-! ### Characters -/

/-- The four characters that may stand between the parts of a JSON text. -/
def isGap (c : Char) : Bool :=
  c = ' ' || c = '\n' || c = '\t' || c = '\r'

/-- The text from its next part on. -/
def dropGap (cs : List Char) : List Char :=
  cs.dropWhile isGap

/-- The text behind a character that must come next, gaps apart. -/
def expect? (c : Char) (cs : List Char) : Option (List Char) :=
  match dropGap cs with
  | d :: rest => if d = c then some rest else none
  | [] => none

/-- The text behind some characters that must come next. -/
def afterWord? (word cs : List Char) : Option (List Char) :=
  if word.isPrefixOf cs then some (cs.drop word.length) else none

/-- The number that four hexadecimal digits write, and the text behind them. -/
def hex4? (cs : List Char) : Option (Nat × List Char) :=
  let digits := cs.take 4
  if digits.length = 4 && digits.all fun c => (digitValue? 16 c).isSome then
    (radixValue? 16 0x10000 digits).map (·, cs.drop 4)
  else none

/-! ### Texts in quotes -/

/-- What a letter behind a backslash stands for. -/
def namedChar? : Char → Option Char
  | '\x22' => some '\x22'
  | '\\' => some '\\'
  | '/' => some '/'
  | 'b' => some '\x08'
  | 'f' => some '\x0c'
  | 'n' => some '\n'
  | 'r' => some '\r'
  | 't' => some '\t'
  | _ => none

/-- The character of an escape by number, which can take two of them, and the text behind. -/
def codeChar? (cs : List Char) : Option (Char × List Char) := do
  let (high, rest) ← hex4? cs
  if 0xDC00 ≤ high && high ≤ 0xDFFF then none
  else if 0xD800 ≤ high && high ≤ 0xDBFF then
    let rest ← afterWord? ['\\', 'u'] rest
    let (low, rest) ← hex4? rest
    if 0xDC00 ≤ low && low ≤ 0xDFFF then
      some (Char.ofNat (0x10000 + (high - 0xD800) * 0x400 + (low - 0xDC00)), rest)
    else none
  else some (Char.ofNat high, rest)

/-- A text behind its opening quote, and what follows the closing one. -/
def readText? (bound : Nat) (acc : List Char) (cs : List Char) :
    Option (String × List Char) :=
  match bound, cs with
  | 0, _ | _, [] => none
  | bound + 1, '\\' :: 'u' :: rest => do
    let (c, rest) ← codeChar? rest
    readText? bound (c :: acc) rest
  | bound + 1, '\\' :: e :: rest => do
    readText? bound ((← namedChar? e) :: acc) rest
  | bound + 1, c :: rest =>
    if c = '\x22' then some (String.ofList acc.reverse, rest)
    else if c.toNat < 0x20 || c = '\\' then none
    else readText? bound (c :: acc) rest

/-- What follows a text that is passed over, from behind its opening quote.  Numbered escapes
need not make up characters here. -/
def skipText? (bound : Nat) (cs : List Char) : Option (List Char) :=
  match bound, cs with
  | 0, _ | _, [] => none
  | bound + 1, '\\' :: 'u' :: rest => do
    skipText? bound (← hex4? rest).2
  | bound + 1, '\\' :: e :: rest =>
    if (namedChar? e).isSome then skipText? bound rest else none
  | bound + 1, c :: rest =>
    if c = '\x22' then some rest
    else if c.toNat < 0x20 || c = '\\' then none
    else skipText? bound rest

/-! ### Numbers -/

/-- The digits of a whole number, of which zero leads only alone, and the text behind them. -/
def wholeDigits? (cs : List Char) : Option (List Char × List Char) :=
  match digitRun cs with
  | ([], _) => none
  | ('0' :: _ :: _, _) => none
  | run => some run

/-- What follows at least one digit. -/
def skipDigits? (cs : List Char) : Option (List Char) :=
  match digitRun cs with
  | ([], _) => none
  | (_, rest) => some rest

/-- What follows a fraction, if there is one. -/
def skipFraction? : List Char → Option (List Char)
  | '.' :: rest => skipDigits? rest
  | cs => some cs

/-- What follows an exponent, if there is one. -/
def skipExponent? : List Char → Option (List Char)
  | c :: rest =>
    if c = 'e' || c = 'E' then
      match rest with
      | '+' :: more | '-' :: more => skipDigits? more
      | _ => skipDigits? rest
    else some (c :: rest)
  | [] => some []

/-- What follows a number without its sign. -/
def skipNumber? (cs : List Char) : Option (List Char) := do
  let (_, rest) ← wholeDigits? cs
  let rest ← skipFraction? rest
  skipExponent? rest

/-- A whole number below 2^64 and the text behind it. -/
def readWord? (cs : List Char) : Option (Nat × List Char) := do
  let (digits, rest) ← wholeDigits? (dropGap cs)
  let n := digitsValue digits
  if n < wordLimit then some (n, rest) else none

/-! ### Values that are passed over -/

mutual

/-- What follows a value. -/
def skipValue? : Nat → List Char → Option (List Char)
  | 0, _ => none
  | bound + 1, cs =>
    match dropGap cs with
    | 'n' :: rest => afterWord? ['u', 'l', 'l'] rest
    | 't' :: rest => afterWord? ['r', 'u', 'e'] rest
    | 'f' :: rest => afterWord? ['a', 'l', 's', 'e'] rest
    | '\x22' :: rest => skipText? (rest.length + 1) rest
    | '-' :: rest => skipNumber? rest
    | '[' :: rest =>
      match dropGap rest with
      | ']' :: more => some more
      | _ => skipItems? bound rest
    | '\x7b' :: rest =>
      match dropGap rest with
      | '\x7d' :: more => some more
      | _ => skipMembers? bound rest
    | other => skipNumber? other

/-- What follows the items of an array, from behind its bracket or a comma. -/
def skipItems? : Nat → List Char → Option (List Char)
  | 0, _ => none
  | bound + 1, cs => do
    let rest ← skipValue? bound cs
    match dropGap rest with
    | ',' :: more => skipItems? bound more
    | ']' :: more => some more
    | _ => none

/-- What follows the members of an object, from behind its brace or a comma. -/
def skipMembers? : Nat → List Char → Option (List Char)
  | 0, _ => none
  | bound + 1, cs => do
    let rest ← expect? '\x22' cs
    let rest ← skipText? (rest.length + 1) rest
    let rest ← expect? ':' rest
    let rest ← skipValue? bound rest
    match dropGap rest with
    | ',' :: more => skipMembers? bound more
    | '\x7d' :: more => some more
    | _ => none

end

/-! ### Fields -/

/-- The numbers found so far, by name. -/
abbrev Found := List (String × Nat)

/-- The members of an object from behind its brace or a comma, and the text behind it. -/
def readMembers? (names : List String) (found : Found) :
    Nat → List Char → Option (Found × List Char)
  | 0, _ => none
  | bound + 1, cs => do
    let rest ← expect? '\x22' cs
    let (key, rest) ← readText? (rest.length + 1) [] rest
    let rest ← expect? ':' rest
    let (found, rest) ←
      if names.contains key then
        if found.any (·.1 == key) then none
        else (readWord? rest).map fun (n, rest) => ((key, n) :: found, rest)
      else (skipValue? (rest.length + 1) rest).map (found, ·)
    match dropGap rest with
    | ',' :: more => readMembers? names found bound more
    | '\x7d' :: more => some (found, more)
    | _ => none

/-- The items of an array for the names that are left, from behind its bracket or a comma. -/
def readItems? (found : Found) : List String → List Char → Option (Found × List Char)
  | [], _ => none
  | name :: names, cs => do
    let (n, rest) ← readWord? cs
    match dropGap rest with
    | ',' :: more => readItems? ((name, n) :: found) names more
    | ']' :: more => some ((name, n) :: found, more)
    | _ => none

/-- The numbers under some names, which are all that the text holds. -/
def readFields? (names : List String) (text : String) : Option Found := do
  let (found, rest) ←
    match dropGap text.toList with
    | '\x7b' :: rest =>
      match dropGap rest with
      | '\x7d' :: more => some ([], more)
      | _ => readMembers? names [] (rest.length + 1) rest
    | '[' :: rest =>
      match dropGap rest with
      | ']' :: more => some ([], more)
      | _ => readItems? [] names rest
    | _ => none
  if (dropGap rest).isEmpty then some found else none

/-- The number under a name, or else a default. -/
def fieldOr (found : Found) (name : String) (fallback : Nat) : Nat :=
  ((found.find? (·.1 == name)).map (·.2)).getD fallback

end LimitsText

open LimitsText

/-- The ceilings of a run that a text gives. -/
def RunLimits.ofText? (text : String) : Option RunLimits := do
  let found ← readFields? ["maxSteps", "maxCallDepth", "maxLoopIterations", "maxArrayLength",
    "maxStringLength"] text
  let base : RunLimits := {}
  return {
    maxSteps := fieldOr found "maxSteps" base.maxSteps
    maxCallDepth := fieldOr found "maxCallDepth" base.maxCallDepth
    maxLoopIterations := fieldOr found "maxLoopIterations" base.maxLoopIterations
    maxArrayLength := fieldOr found "maxArrayLength" base.maxArrayLength
    maxStringLength := fieldOr found "maxStringLength" base.maxStringLength }

/-- The ceilings of an analysis that a text gives. -/
def AnalysisLimits.ofText? (text : String) : Option AnalysisLimits := do
  let found ← readFields? ["maxSteps", "maxIterations"] text
  let base : AnalysisLimits := {}
  return {
    maxSteps := fieldOr found "maxSteps" base.maxSteps
    maxIterations := fieldOr found "maxIterations" base.maxIterations }

end ScriptReplay
