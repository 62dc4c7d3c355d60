/-
Constructs that a simulation does not cover.

The source text is searched for them as it stands, comments and quoted texts included,
and each is reported once with the line where it first occurs.  Reports change nothing in
the simulation.

* `Piece` : the parts of the patterns;
* `Pattern.matchesAt` : whether a text starts with what a pattern describes;
* `advice` : the reports.
-/
import ScriptReplay.Text.Blank

namespace ScriptReplay

/-- A part of a pattern: a fixed text, one of several, or blanks, of which there may
have to be one. -/
inductive Piece where
  | text (s : String)
  | oneOf (choices : List String)
  | blanks (needed : Bool)

/-- What follows a text that must come first. -/
def afterText? (s : String) (cs : List Char) : Option (List Char) :=
  if s.toList.isPrefixOf cs then some (cs.drop s.length) else none

/-- Whether the characters start with what a pattern describes.  Blanks are passed as far as
they go, for no fixed text starts with one. -/
def matchesAt : List Piece → List Char → Bool
  | [], _ => true
  | .text s :: rest, cs => (afterText? s cs).any (matchesAt rest)
  | .oneOf choices :: rest, cs => choices.any fun s => (afterText? s cs).any (matchesAt rest)
  | .blanks needed :: rest, cs =>
    if needed && !cs.head?.any isBlank then false else matchesAt rest (dropBlanks cs)

/-- The line where a pattern first occurs, where `line` is the line of the first character. -/
def firstLine? (pattern : List Piece) (line : Nat) : List Char → Option Nat
  | [] => if matchesAt pattern [] then some line else none
  | c :: rest =>
    if matchesAt pattern (c :: rest) then some line
    else firstLine? pattern (if c = '\n' then line + 1 else line) rest

/-- The constructs that are reported, with what is said of them. -/
def uncovered : List (List Piece × String) :=
  [([.text "Promise.", .oneOf ["all", "race", "any", "allSettled"], .blanks false, .text "("],
      "Promise.all/race/any/allSettled treated as immediate resolution"),
    ([.text ".catch", .blanks false, .text "("], "Error handling (.catch) not simulated"),
    ([.text "Promise.reject"], "Promise.reject not simulated"),
    ([.text "try", .blanks false, .text "\x7b"],
      "try/catch blocks not simulated for error flow"),
    ([.text "for", .blanks true, .text "await"], "for-await loops not supported"),
    ([.text "setInterval", .blanks false, .text "("],
      "setInterval shows only first iteration"),
    ([.text "fetch", .blanks false, .text "("], "fetch() treated as immediate resolution")]

/-- A report, with its line if it has one. -/
structure Warning where
  message : String
  line : Option Nat
  deriving DecidableEq, Repr

/-- The reports on a source text. -/
def advice (source : List Char) : List Warning :=
  uncovered.filterMap fun (pattern, message) =>
    (firstLine? pattern 1 source).map fun line => ⟨message, some line⟩

end ScriptReplay
