/-
The words of steps.

A step that tells of the beginning or the end of a call is known by its kind and its first
words.  Other steps of these kinds are there as well: a printed line is told of as a call, and
a return statement as a return.

* `OpensCall`, `ClosesCall` : the steps that tell of calls;
* `Ordinary` : the steps that tell neither of calls nor of failures;
* `ordinary_log`, `ordinary_return` : printed lines and return statements are ordinary.
-/
import ScriptReplay.Run.Execution

namespace ScriptReplay

/-! ### Calls -/

/-- A step of this kind and with these words tells that a call of a function of the
program begins. -/
def OpensCall (kind : StepKind) (description : String) : Prop :=
  kind = .call ∧ "Call ".toList <+: description.toList

/-- A step of this kind and with these words tells that a call of a function of the
program is over. -/
def ClosesCall (kind : StepKind) (description : String) : Prop :=
  kind = .return_ ∧ "Return from ".toList <+: description.toList

/-- What is said when a call begins. -/
def callWords (shown : String) (params : Table Value) (h : Heap) : String :=
  "Call " ++ shown ++ "(" ++ ", ".intercalate
    (params.values.map fun v => h.inspect v false) ++ ")"

/-- What is said when a call is over. -/
def returnWords (shown : String) (result : Value) (h : Heap) : String :=
  "Return from " ++ shown ++ ": " ++ h.inspect result false

/-! ### Ordinary steps -/

/-- A step that tells neither of a failure nor of the beginning or end of a call. -/
structure Ordinary (kind : StepKind) (description : String) : Prop where
  no_error : kind ≠ .error
  not_opens : ¬ OpensCall kind description
  not_closes : ¬ ClosesCall kind description

/-- Whether steps of this kind tell neither of failures nor of calls, whatever
their words are. -/
def StepKind.isOrdinary : StepKind → Bool
  | .error | .call | .return_ => false
  | _ => true

/-- Whether steps of this kind tell neither of failures nor of calls, and of no choice, jump
or declaration either. -/
def StepKind.isStraight (kind : StepKind) : Bool :=
  kind.isOrdinary && kind != .branch && kind != .declaration

theorem Ordinary.of_kind {kind : StepKind} (h : kind.isOrdinary = true)
    {description : String} : Ordinary kind description := by
  refine ⟨?_, ?_, ?_⟩
  · rintro rfl
    cases h
  · rintro ⟨rfl, -⟩
    cases h
  · rintro ⟨rfl, -⟩
    cases h

/-- A printed line is not told of as a call of a function of the program. -/
theorem ordinary_log (text : String) : Ordinary .call ("console.log(" ++ text) := by
  refine ⟨by decide, ?_, ?_⟩
  · rintro ⟨-, hwords⟩
    rw [String.toList_append] at hwords
    simp at hwords
  · rintro ⟨hkind, -⟩
    cases hkind

/-! ### Blanks -/

/-- A text without blanks. -/
def Blankless (s : String) : Prop :=
  ' ' ∉ s.toList

@[simp]
theorem blankless_append {s t : String} : Blankless (s ++ t) ↔ Blankless s ∧ Blankless t := by
  simp [Blankless, not_or]

@[simp]
theorem blankless_digitText (ds : List Nat) : Blankless (digitText ds) := by
  unfold Blankless digitText
  rw [String.toList_ofList]
  intro h
  obtain ⟨d, -, hd⟩ := List.mem_map.1 h
  have hcode : (Char.ofNat ('0'.toNat + d)).toNat = 32 := congrArg Char.toNat hd
  have hle : 48 ≤ '0'.toNat + d := Nat.le_add_right 48 d
  -- `Char.toNat_ofNat` states both cases, in a file that only all of Mathlib imports.
  by_cases hvalid : ('0'.toNat + d).isValidChar
  · -- All digits come after the blank.
    have hself : (Char.ofNat ('0'.toNat + d)).toNat = '0'.toNat + d := by
      rw [Char.ofNat, dif_pos hvalid]
      rfl
    omega
  · -- What is no character is written as the first of all.
    rw [Char.ofNat, dif_neg hvalid] at hcode
    cases hcode

@[simp]
theorem blankless_zeros (n : Nat) : Blankless (zeros n) := by
  simp [Blankless, zeros, List.mem_replicate]

@[simp]
theorem blankless_toString (n : Nat) : Blankless (toString n) := by
  intro h
  have hmem : ' ' ∈ Nat.toDigits 10 n := by simpa using h
  exact absurd (Nat.isDigit_of_mem_toDigits (by decide) (by decide) hmem) (by decide)

theorem blankless_positional (d : Decimal) : Blankless d.positional := by
  have hpoint : Blankless "." ∧ Blankless "0." := by simp [Blankless]
  unfold Decimal.positional
  dsimp only
  split
  · simp [hpoint]
  split
  · simp
  · simp [hpoint]

theorem blankless_exponential (d : Decimal) : Blankless d.exponential := by
  have hpoint : Blankless "." := by simp [Blankless]
  have hmark : Blankless (if d.point - 1 < 0 then "e-" else "e+") := by
    split <;> simp [Blankless]
  unfold Decimal.exponential
  dsimp only
  split
  · simp only [blankless_append, blankless_digitText,
      blankless_toString, hpoint, hmark, and_self]
  · simp only [blankless_append, blankless_digitText, blankless_toString, hmark, and_self]

/-- Numbers are written without blanks. -/
theorem blankless_numberText (x : Float) : Blankless (numberText x) := by
  unfold numberText
  split
  · unfold signedText
    split
    · simp [Blankless]
    · rw [blankless_append]
      refine ⟨?_, ?_⟩
      · split <;> simp [Blankless]
      · dsimp only
        split
        · exact blankless_positional _
        · exact blankless_exponential _
  · split
    · simp [Blankless]
    · split <;> simp [Blankless]

/-! ### Return statements -/

/-- No value is told of in words that go on like those for the end of a call. -/
theorem not_from_prefix_inspect (h : Heap) (v : Value) :
    ¬ "from ".toList <+: (h.inspect v false).toList := by
  unfold Heap.inspect Heap.inspectIn
  cases v with
  | number x =>
    -- The words that would follow have a blank.
    intro hwords
    exact blankless_numberText x (hwords.subset (by decide))
  | bool b => cases b <;> simp [boolText]
  | array id =>
    dsimp only
    split
    · simp
    · split <;> simp [bracketed]
  | object id =>
    dsimp only
    split
    · simp
    · split <;> simp [bracketed]
  | _ => simp

/-- A return statement is not told of as the end of a call. -/
theorem ordinary_return (h : Heap) (v : Value) :
    Ordinary .return_ ("Return " ++ h.inspect v false) := by
  refine ⟨by decide, ?_, ?_⟩
  · rintro ⟨hkind, -⟩
    cases hkind
  · rintro ⟨-, hwords⟩
    rw [String.toList_append] at hwords
    exact not_from_prefix_inspect h v
      ((List.prefix_append_right_inj "Return ".toList).1 hwords)

end ScriptReplay
