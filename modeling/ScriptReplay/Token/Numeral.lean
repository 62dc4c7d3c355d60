/-
Numerals.

A decimal numeral has digits, at most one point and at most one exponent; underscores between
them mean nothing.  After `0x`, `0o` or `0b` the digits are those of another base.

* `readNumeral` : the number and how many characters write it.
-/
import ScriptReplay.Number.Reading
import ScriptReplay.Token

namespace ScriptReplay

/-- A run of characters: those that count, and how many were passed in all. -/
structure CharRun where
  kept : List Char
  passed : Nat

/-- The run with kept characters put before it. -/
def CharRun.keep (r : CharRun) (cs : List Char) : CharRun :=
  ⟨cs ++ r.kept, r.passed + cs.length⟩

/-- The run with one character passed over before it. -/
def CharRun.pass (r : CharRun) : CharRun :=
  ⟨r.kept, r.passed + 1⟩

/-- The characters of a decimal numeral, where `point` and `power` tell whether its point and
its exponent have been seen.  The sign of the exponent belongs to its mark. -/
def decimalRun (point power : Bool) : List Char → CharRun
  | [] => ⟨[], 0⟩
  | c :: rest =>
    if c.isDigit then (decimalRun point power rest).keep [c]
    else if c = '_' then (decimalRun point power rest).pass
    else if c = '.' && !point && !power then (decimalRun true power rest).keep [c]
    else if (c = 'e' || c = 'E') && !power then
      match rest with
      | sign :: more =>
        if sign = '+' || sign = '-' then (decimalRun point true more).keep [c, sign]
        else (decimalRun point true (sign :: more)).keep [c]
      | [] => ⟨[c], 1⟩
    else ⟨[], 0⟩

/-- The characters of a numeral in another base, behind its mark. -/
def radixRun (base : Nat) (cs : List Char) : CharRun :=
  let run := cs.takeWhile fun c => (digitValue? base c).isSome || c = '_'
  ⟨run.filter (· ≠ '_'), run.length⟩

/-- The number that the text starts with and the number of its characters. -/
def readNumeral (cs : List Char) : Except LexCause (Float × Nat) :=
  match markedBase? cs with
  | some base =>
    let run := radixRun base (cs.drop 2)
    match radixValue? base wordLimit run.kept with
    | some n => .ok (Float.ofNat n, run.passed + 2)
    | none => .error .badRadixNumeral
  | none =>
    let run := decimalRun false false cs
    match decimalValue? run.kept with
    | some x => .ok (x, run.passed)
    | none => .error (.badNumeral (String.ofList run.kept))

end ScriptReplay
