/-
Finding, cutting and replacing inside sequences.

The searches work on lists of any type, so one definition serves characters and 16-bit units.
Occurrences are taken from the left and do not overlap.

* `findFrom`, `findLast` : the place of an occurrence;
* `textContains`, `textStartsWith`, `textEndsWith` : whether there is one, and
  where it must be;
* `splitText` : the pieces between occurrences;
* `replaceFirst` : the first occurrence exchanged;
* `cycleTake`, `repeatText` : a text written again and again.
-/
namespace ScriptReplay

variable {α : Type} [BEq α]

/-! ### Places -/

/-- The first place at which `needle` starts, where `place` is the place of the
list's head. -/
def findIn (needle : List α) (place : Nat) : List α → Option Nat
  | [] => none
  | x :: rest =>
    if needle.isPrefixOf (x :: rest) then some place else findIn needle (place + 1) rest

/-- The first place from `start` on at which `needle` occurs.  An empty needle
occurs at once. -/
def findFrom (hay needle : List α) (start : Nat) : Option Nat :=
  if needle.isEmpty then some (min start hay.length)
  else findIn needle start (hay.drop start)

/-- The last place at which `needle` starts, where `place` is the place of the list's head. -/
def findLastIn (needle : List α) (place : Nat) : List α → Option Nat
  | [] => none
  | x :: rest =>
    match findLastIn needle (place + 1) rest with
    | some p => some p
    | none => if needle.isPrefixOf (x :: rest) then some place else none

/-- The last place at which `needle` occurs.  An empty needle occurs at the end. -/
def findLast (hay needle : List α) : Option Nat :=
  if needle.isEmpty then some hay.length else findLastIn needle 0 hay

/-- Whether `needle` occurs anywhere. -/
def occursIn (needle : List α) : List α → Bool
  | [] => needle.isEmpty
  | x :: rest => needle.isPrefixOf (x :: rest) || occursIn needle rest

/-! ### Texts -/

/-- Whether `t` occurs in `s`. -/
def textContains (s t : String) : Bool :=
  occursIn t.toList s.toList

/-- Whether `s` starts with `t`. -/
def textStartsWith (s t : String) : Bool :=
  t.toList.isPrefixOf s.toList

/-- Whether `s` ends with `t`. -/
def textEndsWith (s t : String) : Bool :=
  t.toList.reverse.isPrefixOf s.toList.reverse

/-- The pieces of the list between the occurrences of `sep`, which is not empty.  `skip`
counts the elements of an occurrence that are still to be passed over, and `piece` holds the
current piece, newest first. -/
def piecesOn (sep : List α) (skip : Nat) (piece : List α) : List α → List (List α)
  | [] => [piece.reverse]
  | x :: rest =>
    match skip with
    | n + 1 => piecesOn sep n piece rest
    | 0 =>
      if sep.isPrefixOf (x :: rest) then piece.reverse ::
        piecesOn sep (sep.length - 1) [] rest
      else piecesOn sep 0 (x :: piece) rest

/-- The pieces of `s` between the occurrences of the separator, which is not empty. -/
def splitText (s sep : String) : List String :=
  (piecesOn sep.toList 0 [] s.toList).map String.ofList

/-- The list with the first occurrence of `needle` exchanged for `image`. -/
def replaceIn (needle image : List α) : List α → List α
  | [] => if needle.isEmpty then image else []
  | x :: rest =>
    if needle.isPrefixOf (x :: rest) then image ++ (x :: rest).drop needle.length
    else x :: replaceIn needle image rest

/-- The text with the first occurrence of `needle` exchanged for `image`. -/
def replaceFirst (s needle image : String) : String :=
  String.ofList (replaceIn needle.toList image.toList s.toList)

/-! ### Repetition -/

/-- The first `n` elements of `unit` written again and again; nothing if `unit` is empty.
`rest` is what is left of the current round. -/
def cycleTake {β : Type} (unit : List β) (n : Nat) (rest : List β) : List β :=
  match n with
  | 0 => []
  | n + 1 =>
    match rest, unit with
    | x :: rest, _ => x :: cycleTake unit n rest
    | [], x :: more => x :: cycleTake unit n more
    | [], [] => []

/-- The text written `n` times.  The empty text stays empty, however large `n` is. -/
def repeatText (s : String) (n : Nat) : String :=
  if s.isEmpty then "" else String.join (List.replicate n s)

end ScriptReplay
