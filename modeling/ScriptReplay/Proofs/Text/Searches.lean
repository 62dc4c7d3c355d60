/-
Searches in texts.

There are two searches: one goes through the characters and tells whether a text occurs, the
other one goes through the units and tells where.  They agree, and what the second finds can
be cut out again.

* `occursIn_iff`, `findFrom_zero_isSome_iff`, `findLast_eq_iff` : what the searches find, in
  terms of parts of lists;
* `textContains_eq`, `textStartsWith_eq`, `textEndsWith_eq` : the search among characters by
  the search among units;
* `StandsAt` : a text stands at a place in another one, and its characters there are whole;
* `callTextMethod_told`, `slice_told` : how the methods of texts end;
* `textSearches_agree` : the searches of scripts agree, and what they find can be cut out.
-/
import ScriptReplay.Proofs.Mutators
import ScriptReplay.Proofs.Text.Encoding
import ScriptReplay.Proofs.Wholes

namespace ScriptReplay

/-! ### Searches in lists -/

section Lists

variable {α : Type} [BEq α] [LawfulBEq α] {hay needle : List α} {place p start : Nat}

/-- Whether there is an occurrence. -/
theorem occursIn_iff : occursIn needle hay = true ↔ needle <:+: hay := by
  induction hay with
  | nil => rw [occursIn, List.isEmpty_iff, List.infix_nil]
  | cons x hay ih =>
    rw [occursIn, Bool.or_eq_true, List.isPrefixOf_iff_prefix, ih, List.infix_cons_iff]

/-- A place that is found is the place of an occurrence. -/
theorem prefix_of_findIn (h : findIn needle place hay = some p) :
    place ≤ p ∧ needle <+: hay.drop (p - place) := by
  fun_induction findIn needle place hay with
  | case1 => cases h
  | case2 place x rest hprefix =>
    obtain rfl := Option.some.inj h
    rw [Nat.sub_self, List.drop_zero]
    exact ⟨Nat.le_refl _, List.isPrefixOf_iff_prefix.1 hprefix⟩
  | case3 place x rest _ ih =>
    obtain ⟨hle, hprefix⟩ := ih h
    -- The rest has its head one place further on.
    rw [show p - place = p - (place + 1) + 1 by omega, List.drop_succ_cons]
    exact ⟨Nat.le_of_succ_le hle, hprefix⟩

/-- Nothing is found only if there is no occurrence. -/
theorem findIn_isSome_iff (hneedle : needle ≠ []) :
    (findIn needle place hay).isSome = true ↔ needle <:+: hay := by
  fun_induction findIn needle place hay with
  | case1 => simpa [List.infix_nil] using hneedle
  | case2 place x rest hprefix => simpa using (List.isPrefixOf_iff_prefix.1 hprefix).isInfix
  | case3 place x rest hprefix ih =>
    rw [ih, List.infix_cons_iff, ← List.isPrefixOf_iff_prefix]
    exact ⟨.inr, fun h => h.resolve_left hprefix⟩

/-- The place found first is the head of the list only if there is an occurrence. -/
theorem findIn_eq_place_iff (hneedle : needle ≠ []) :
    findIn needle place hay = some place ↔ needle <+: hay := by
  cases hay with
  | nil => simpa [findIn, List.prefix_nil] using hneedle
  | cons x rest =>
    rw [findIn, ← List.isPrefixOf_iff_prefix]
    split
    · next hprefix => exact ⟨fun _ => hprefix, fun _ => rfl⟩
    · next hprefix =>
      refine ⟨fun h => ?_, fun h => absurd h hprefix⟩
      exact absurd (prefix_of_findIn h).1 (Nat.not_succ_le_self place)

/-- There is an occurrence at every place that is found. -/
theorem prefix_of_findFrom (h : findFrom hay needle start = some p) :
    needle <+: hay.drop p := by
  unfold findFrom at h
  split at h
  · next hempty => exact List.isEmpty_iff.1 hempty ▸ List.nil_prefix
  · obtain ⟨hle, hprefix⟩ := prefix_of_findIn h
    rwa [List.drop_drop, Nat.add_sub_cancel' hle] at hprefix

theorem findFrom_zero_isSome_iff :
    (findFrom hay needle 0).isSome = true ↔ needle <:+: hay := by
  unfold findFrom
  split
  · next hempty => exact ⟨fun _ => List.isEmpty_iff.1 hempty ▸ List.nil_infix, fun _ => rfl⟩
  · next hneedle =>
    rw [findIn_isSome_iff (mt List.isEmpty_iff.2 hneedle), List.drop_zero]

theorem findFrom_zero_eq_zero_iff : findFrom hay needle 0 = some 0 ↔ needle <+: hay := by
  unfold findFrom
  split
  · next hempty =>
    rw [Nat.zero_min]
    exact ⟨fun _ => List.isEmpty_iff.1 hempty ▸ List.nil_prefix, fun _ => rfl⟩
  · next hneedle =>
    rw [findIn_eq_place_iff (mt List.isEmpty_iff.2 hneedle), List.drop_zero]

/-- The place that is found last is the place of an occurrence, and there is
none behind it. -/
theorem findLastIn_spec (hneedle : needle ≠ []) (place : Nat) (hay : List α) :
    match findLastIn needle place hay with
    | some p => ∃ q, p = place + q ∧ needle <+: hay.drop q ∧ ∀ r > q, ¬ needle <+: hay.drop r
    | none => ∀ r, ¬ needle <+: hay.drop r := by
  induction hay generalizing place with
  | nil => simpa [findLastIn, List.prefix_nil] using hneedle
  | cons x rest ih =>
    rw [findLastIn]
    specialize ih (place + 1)
    cases hrest : findLastIn needle (place + 1) rest with
    | some p =>
      rw [hrest] at ih
      obtain ⟨q, rfl, hprefix, hlast⟩ := ih
      refine ⟨q + 1, by omega, hprefix, fun r hr => ?_⟩
      obtain ⟨r, rfl⟩ := Nat.exists_eq_add_of_lt (Nat.zero_lt_of_lt hr)
      rw [Nat.zero_add, List.drop_succ_cons]
      exact hlast r (by omega)
    | none =>
      rw [hrest] at ih
      -- Whatever occurs here stands at the head.
      have hbehind : ∀ r > 0, ¬ needle <+: (x :: rest).drop r := by
        intro r hr
        obtain ⟨r, rfl⟩ := Nat.exists_eq_add_of_lt hr
        rw [Nat.zero_add, List.drop_succ_cons]
        exact ih r
      dsimp only
      split
      · next p hp =>
        split at hp
        · next hprefix =>
          obtain rfl := Option.some.inj hp
          exact ⟨0, rfl, List.isPrefixOf_iff_prefix.1 hprefix, hbehind⟩
        · cases hp
      · next hp =>
        split at hp
        · cases hp
        · next hprefix =>
          intro r
          rcases Nat.eq_zero_or_pos r with rfl | hr
          · exact mt List.isPrefixOf_iff_prefix.2 hprefix
          · exact hbehind r hr

/-- There is an occurrence at every place that is found. -/
theorem prefix_of_findLast (h : findLast hay needle = some p) : needle <+: hay.drop p := by
  unfold findLast at h
  split at h
  · next hempty => exact List.isEmpty_iff.1 hempty ▸ List.nil_prefix
  · next hneedle =>
    have hspec := findLastIn_spec (mt List.isEmpty_iff.2 hneedle) 0 hay
    rw [h] at hspec
    obtain ⟨q, rfl, hprefix, -⟩ := hspec
    rwa [Nat.zero_add]

/-- What stands at the end is found there. -/
theorem findLast_append (before needle : List α) :
    findLast (before ++ needle) needle = some before.length := by
  unfold findLast
  split
  · next hempty => rw [List.isEmpty_iff.1 hempty, List.append_nil]
  · next hneedle =>
    have hspec := findLastIn_spec (mt List.isEmpty_iff.2 hneedle) 0 (before ++ needle)
    cases hfound : findLastIn needle 0 (before ++ needle) with
    | none =>
      rw [hfound] at hspec
      refine absurd ?_ (hspec before.length)
      simp only [List.drop_left, List.prefix_rfl]
    | some p =>
      rw [hfound] at hspec
      obtain ⟨q, rfl, hprefix, hlast⟩ := hspec
      have hlength : needle.length ≤ before.length + needle.length - q := by
        simpa only [List.length_drop, List.length_append] using hprefix.length_le
      have hpos : 0 < needle.length := List.length_pos_iff.2 (mt List.isEmpty_iff.2 hneedle)
      -- The occurrence at the end is not behind the last one, and a last one behind it would
      -- not fit.
      have hend : ¬ before.length > q := by
        intro hbehind
        refine hlast _ hbehind ?_
        simp only [List.drop_left, List.prefix_rfl]
      rw [Nat.zero_add, show q = before.length by omega]

/-- What is not empty does not occur behind the end. -/
theorem le_of_prefix_drop {β : Type} {hay needle : List β} (hneedle : needle ≠ [])
    (h : needle <+: hay.drop p) : p ≤ hay.length := by
  by_contra hbehind
  rw [List.drop_eq_nil_of_le (by omega), List.prefix_nil] at h
  exact hneedle h

theorem findFrom_le (h : findFrom hay needle start = some p) : p ≤ hay.length := by
  rcases eq_or_ne needle [] with rfl | hneedle
  · obtain rfl := Option.some.inj h
    exact Nat.min_le_right _ _
  · exact le_of_prefix_drop hneedle (prefix_of_findFrom h)

theorem findLast_le (h : findLast hay needle = some p) : p ≤ hay.length := by
  rcases eq_or_ne needle [] with rfl | hneedle
  · obtain rfl := Option.some.inj h
    exact Nat.le_refl _
  · exact le_of_prefix_drop hneedle (prefix_of_findLast h)

/-- Something stands at the end if the place found last leaves just its length. -/
theorem findLast_eq_iff :
    needle.length ≤ hay.length ∧ findLast hay needle = some (hay.length - needle.length) ↔
      needle <:+ hay := by
  constructor
  · rintro ⟨hlength, hfound⟩
    have hdrop : needle = hay.drop (hay.length - needle.length) :=
      (prefix_of_findLast hfound).eq_of_length (by rw [List.length_drop]; omega)
    rw [hdrop]
    exact List.drop_suffix _ _
  · rintro ⟨before, rfl⟩
    refine ⟨by rw [List.length_append]; omega, ?_⟩
    rw [findLast_append, List.length_append, Nat.add_sub_cancel]

end Lists

/-! ### Searches in texts -/

theorem textContains_eq (s t : String) :
    textContains s t = (findFrom (units s) (units t) 0).isSome := by
  rw [Bool.eq_iff_iff, textContains, occursIn_iff, findFrom_zero_isSome_iff, units_infix_iff]

theorem textStartsWith_eq (s t : String) :
    textStartsWith s t = decide (findFrom (units s) (units t) 0 = some 0) := by
  rw [Bool.eq_iff_iff, textStartsWith, List.isPrefixOf_iff_prefix, decide_eq_true_iff,
    findFrom_zero_eq_zero_iff, units_prefix_iff]

theorem textEndsWith_eq (s t : String) :
    textEndsWith s t = decide ((units t).length ≤ (units s).length ∧
      findLast (units s) (units t) = some ((units s).length - (units t).length)) := by
  rw [Bool.eq_iff_iff, textEndsWith, List.isPrefixOf_iff_prefix,
    List.reverse_prefix, decide_eq_true_iff,
    findLast_eq_iff, units_suffix_iff]

/-- A text stands at a place in another one: its units can be cut out there, and a text that
is not empty takes up whole characters. -/
structure StandsAt (s t : String) (p : Nat) : Prop where
  fits : p + unitCount t ≤ unitCount s
  cut : unitsBetween (units s) p (p + unitCount t) = .string t
  whole : t ≠ "" → ∃ before after, s = before ++ t ++ after ∧ unitCount before = p

theorem standsAt_of_prefix {s t : String} {p : Nat} (hp : p ≤ unitCount s)
    (h : units t <+: (units s).drop p) : StandsAt s t p where
  fits := by
    have hlength := h.length_le
    rw [List.length_drop, length_units, length_units] at hlength
    omega
  cut := by
    rw [unitsBetween, Nat.add_sub_cancel_left, ← length_units,
      ← List.prefix_iff_eq_take.1 h, ofUnits_units]
  whole := fun ht => exists_of_units_prefix_drop ht h

/-- A text stands wherever one of the searches finds it. -/
theorem standsAt_of_found {s t : String} {p : Nat}
    (h : (∃ start, findFrom (units s) (units t) start = some p) ∨
      findLast (units s) (units t) = some p) :
    StandsAt s t p := by
  rcases h with ⟨start, hfound⟩ | hfound
  · exact standsAt_of_prefix (length_units s ▸ findFrom_le hfound) (prefix_of_findFrom hfound)
  · exact standsAt_of_prefix (length_units s ▸ findLast_le hfound) (prefix_of_findLast hfound)

/-! ### Methods -/

variable {L : RunLimits} {m m' : Machine} {loc : Location}

/-- A method that has an answer tells of it in one step. -/
theorem callTextMethod_told {method : TextMethod} {s : String} {args : List Value}
    {call : String} {v : Value}
    (h : (textMethod method s args loc).outcome L m = (.ok ⟨call, v⟩, m')) :
    Told m' v ((callTextMethod method s args loc).outcome L m) := by
  unfold callTextMethod
  rw [Run.outcome_bind_ok h]
  exact told_record _ _ _

theorem Heap.textOf_string (h : Heap) (s : String) : h.textOf (.string s) = s := by
  unfold Heap.textOf Heap.textIn
  rfl

/-- A method that looks for a text. -/
theorem testFor_string (h : Heap) (method : TextMethod) (t : String) (rest : List Value)
    (test : String → Bool) :
    (testFor h method (.string t :: rest) test).value = .bool (test t) := by
  show Value.bool (test (h.textOf (.string t))) = _
  rw [Heap.textOf_string]

/-- A method that looks for the place of a text. -/
theorem placeOf_string (h : Heap) (method : TextMethod) (t : String) (rest : List Value)
    (find : List UInt16 → Option Nat) :
    (placeOf h method (.string t :: rest) find).value = placeValue (find (units t)) := by
  show placeValue (find (units (h.textOf (.string t)))) = _
  rw [Heap.textOf_string]

/-- The place from which a text is searched. -/
def searchStart (h : Heap) (args : List Value) (length : Nat) : Nat :=
  match args[1]? with
  | some v => clampedCount (h.numberOf v) length
  | none => 0

theorem indexOf_told (s t : String) (rest : List Value) (L : RunLimits) (m : Machine)
    (loc : Location) :
    Told m (placeValue (findFrom (units s) (units t)
      (searchStart m.heap (.string t :: rest) (units s).length)))
      ((callTextMethod .indexOf s (.string t :: rest) loc).outcome L m) := by
  rw [← placeOf_string m.heap .indexOf t rest fun needle =>
    findFrom (units s) needle (searchStart m.heap (.string t :: rest) (units s).length)]
  exact callTextMethod_told rfl

theorem lastIndexOf_told (s t : String) (rest : List Value) (L : RunLimits) (m : Machine)
    (loc : Location) :
    Told m (placeValue (findLast (units s) (units t)))
      ((callTextMethod .lastIndexOf s (.string t :: rest) loc).outcome L m) := by
  rw [← placeOf_string m.heap .lastIndexOf t rest (findLast (units s))]
  exact callTextMethod_told rfl

theorem includes_told (s t : String) (rest : List Value) (L : RunLimits) (m : Machine)
    (loc : Location) :
    Told m (.bool (textContains s t))
      ((callTextMethod .includes s (.string t :: rest) loc).outcome L m) := by
  rw [← testFor_string m.heap .includes t rest (textContains s)]
  exact callTextMethod_told rfl

theorem startsWith_told (s t : String) (rest : List Value) (L : RunLimits) (m : Machine)
    (loc : Location) :
    Told m (.bool (textStartsWith s t))
      ((callTextMethod .startsWith s (.string t :: rest) loc).outcome L m) := by
  rw [← testFor_string m.heap .startsWith t rest (textStartsWith s)]
  exact callTextMethod_told rfl

theorem endsWith_told (s t : String) (rest : List Value) (L : RunLimits) (m : Machine)
    (loc : Location) :
    Told m (.bool (textEndsWith s t))
      ((callTextMethod .endsWith s (.string t :: rest) loc).outcome L m) := by
  rw [← testFor_string m.heap .endsWith t rest (textEndsWith s)]
  exact callTextMethod_told rfl

/-- Between two places of a text that are not too great, the method cuts out what
stands there. -/
theorem slice_told {s : String} {start stop : Nat} (hle : start ≤ stop)
    (hstop : stop ≤ unitCount s) (hs : unitCount s < 2 ^ 53) (L : RunLimits) (m : Machine)
    (loc : Location) :
    Told m (unitsBetween (units s) start stop)
      ((callTextMethod .slice s [.number (Float.ofNat start), .number (Float.ofNat stop)]
        loc).outcome L m) := by
  have hfrom :
      indexArg m.heap (some (.number (Float.ofNat start))) (units s).length 0 = start := by
    show relativeIndex (Float.ofNat start) (units s).length = start
    rw [relativeIndex_ofNat (by omega), length_units]
    omega
  have hto : indexArg m.heap (some (.number (Float.ofNat stop))) (units s).length
      (units s).length = stop := by
    show relativeIndex (Float.ofNat stop) (units s).length = stop
    rw [relativeIndex_ofNat (by omega), length_units]
    omega
  have hanswer : unitsBetween (units s) start stop =
      unitsBetween (units s)
        (indexArg m.heap (some (.number (Float.ofNat start))) (units s).length 0)
        (max (indexArg m.heap (some (.number (Float.ofNat stop)))
          (units s).length (units s).length)
          (indexArg m.heap (some (.number (Float.ofNat start))) (units s).length 0)) := by
    rw [hfrom, hto, Nat.max_eq_left hle]
  rw [hanswer]
  exact callTextMethod_told rfl

/-- The methods that tell whether a text occurs agree with the search among units, and what
is found at a place is the text itself.  A script cuts it out there as long as the places are
exact numbers. -/
theorem textSearches_agree (s t : String) (rest : List Value) (L : RunLimits) (m : Machine)
    (loc : Location) :
    Told m (.bool (findFrom (units s) (units t) 0).isSome)
      ((callTextMethod .includes s (.string t :: rest) loc).outcome L m) ∧
    Told m (.bool (decide (findFrom (units s) (units t) 0 = some 0)))
      ((callTextMethod .startsWith s (.string t :: rest) loc).outcome L m) ∧
    Told m (.bool (decide ((units t).length ≤ (units s).length ∧
        findLast (units s) (units t) = some ((units s).length - (units t).length))))
      ((callTextMethod .endsWith s (.string t :: rest) loc).outcome L m) ∧
    Told m (placeValue (findFrom (units s) (units t)
      (searchStart m.heap (.string t :: rest) (units s).length)))
      ((callTextMethod .indexOf s (.string t :: rest) loc).outcome L m) ∧
    Told m (placeValue (findLast (units s) (units t)))
      ((callTextMethod .lastIndexOf s (.string t :: rest) loc).outcome L m) ∧
    ∀ p, (∃ start, findFrom (units s) (units t) start = some p) ∨
      findLast (units s) (units t) = some p → StandsAt s t p ∧
      (unitCount s < 2 ^ 53 → Told m (.string t) ((callTextMethod .slice s
        [.number (Float.ofNat p), .number (Float.ofNat (p + unitCount t))]
          loc).outcome L m)) := by
  refine ⟨?_, ?_, ?_, indexOf_told s t rest L m loc,
    lastIndexOf_told s t rest L m loc, fun p hfound => ?_⟩
  · rw [← textContains_eq]
    exact includes_told s t rest L m loc
  · rw [← textStartsWith_eq]
    exact startsWith_told s t rest L m loc
  · rw [← textEndsWith_eq]
    exact endsWith_told s t rest L m loc
  · have hstands := standsAt_of_found hfound
    refine ⟨hstands, fun hs => ?_⟩
    rw [← hstands.cut]
    exact slice_told (Nat.le_add_right _ _) hstands.fits hs L m loc

/-- Places count both halves of a pair. -/
theorem textSearches_agree_pair :
    findLast (units "a😀b😀") (units "😀") = some 4 ∧ unitCount "a😀b😀" < 2 ^ 53 ∧
    StandsAt "a😀b😀" "😀" 4 ∧
    Told (.initial {}) (.string "😀") ((callTextMethod .slice "a😀b😀"
      [.number (Float.ofNat 4), .number (Float.ofNat (4 + unitCount "😀"))] default).outcome {}
        (.initial {})) := by
  have hfound : findLast (units "a😀b😀") (units "😀") = some 4 := by decide +kernel
  have hsmall : unitCount "a😀b😀" < 2 ^ 53 := by decide +kernel
  obtain ⟨-, -, -, -, -, hstands⟩ := textSearches_agree "a😀b😀" "😀" [] {} (.initial {}) default
  obtain ⟨hplace, hslice⟩ := hstands 4 (.inr hfound)
  exact ⟨hfound, hsmall, hplace, hslice hsmall⟩

end ScriptReplay
