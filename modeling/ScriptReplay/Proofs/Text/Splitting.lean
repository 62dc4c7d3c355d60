/-
Splitting texts and joining the pieces.

The pieces between the occurrences of a separator, with the separator put between them again,
are the text.  None of them has the separator in it, even if the separator overlaps itself.

* `intercalate_piecesOn`, `not_infix_of_mem_piecesOn` : the pieces of a list;
* `intercalate_splitText`, `textContains_of_mem_splitText` : the pieces of a text;
* `Heap.Adds` : a heap and the same heap with a new array;
* `split_told`, `join_told` : how the two methods end;
* `split_join` : the pieces become a new array, and joining it gives the text.

Design notes: a search for pieces goes from left to right with a piece that has begun.  What
it keeps to is that no occurrence of the separator begins inside that piece.
-/
import ScriptReplay.Proofs.Text.Searches

namespace ScriptReplay

/-! ### Pieces of lists -/

section Lists

variable {α : Type} {sep piece cs : List α} {skip : Nat}

/-- A stretch in which no occurrence begins has none. -/
theorem not_infix_of_not_prefix (hsep : sep ≠ []) {front behind : List α}
    (h : ∀ i < front.length, ¬ sep <+: (front ++ behind).drop i) : ¬ sep <:+: front := by
  rintro ⟨before, after, rfl⟩
  have hpos : 0 < sep.length := List.length_pos_iff.2 hsep
  refine h before.length ?_ ?_
  · simp only [List.length_append]
    omega
  · rw [List.append_assoc, List.append_assoc, List.drop_left]
    exact List.prefix_append _ _

variable [BEq α]

theorem piecesOn_ne_nil : piecesOn sep skip piece cs ≠ [] := by
  fun_induction piecesOn sep skip piece cs with
  | case1 => exact List.cons_ne_nil _ _
  | case2 _ _ _ _ ih => exact ih
  | case3 => exact List.cons_ne_nil _ _
  | case4 _ _ _ _ ih => exact ih

variable [LawfulBEq α]

/-- The pieces with the separator between them are the piece that has begun and the list
without the part that is skipped. -/
theorem intercalate_piecesOn (hsep : sep ≠ []) :
    sep.intercalate (piecesOn sep skip piece cs) = piece.reverse ++ cs.drop skip := by
  fun_induction piecesOn sep skip piece cs with
  | case1 skip piece => rw [List.intercalate_singleton, List.drop_nil, List.append_nil]
  | case2 piece x rest n ih => rw [ih, List.drop_succ_cons]
  | case3 piece x rest hprefix ih =>
    obtain ⟨after, hafter⟩ := List.isPrefixOf_iff_prefix.1 hprefix
    -- Behind the head the occurrence goes on for the rest of the separator.
    have hrest : rest.drop (sep.length - 1) = after := by
      obtain ⟨y, sep', rfl⟩ := List.exists_cons_of_ne_nil hsep
      obtain ⟨-, rfl⟩ := List.cons.inj hafter
      rw [List.length_cons, Nat.add_sub_cancel]
      exact List.drop_left
    rw [List.intercalate_cons_of_ne_nil piecesOn_ne_nil, ih, hrest, List.reverse_nil,
      List.nil_append, List.append_assoc, hafter, List.drop_zero]
  | case4 piece x rest _ ih =>
    rw [ih, List.drop_zero, List.drop_zero, List.reverse_cons,
      List.append_assoc, List.singleton_append]

/-- No piece has the separator in it. -/
theorem not_infix_of_mem_piecesOn (hsep : sep ≠ []) (hskip : skip = 0 ∨ piece = [])
    (h : ∀ i < piece.length, ¬ sep <+: (piece.reverse ++ cs).drop i) {p : List α}
    (hp : p ∈ piecesOn sep skip piece cs) : ¬ sep <:+: p := by
  fun_induction piecesOn sep skip piece cs with
  | case1 skip piece =>
    rw [List.mem_singleton.1 hp]
    exact not_infix_of_not_prefix hsep (by rwa [List.length_reverse])
  | case2 piece x rest n ih =>
    -- Nothing is put in a piece while an occurrence is skipped.
    obtain rfl := hskip.resolve_left (Nat.succ_ne_zero n)
    exact ih (.inr rfl) (fun i hi => absurd hi (Nat.not_lt_zero i)) hp
  | case3 piece x rest _ ih =>
    rcases List.mem_cons.1 hp with rfl | hp
    · exact not_infix_of_not_prefix hsep (by rwa [List.length_reverse])
    · exact ih (.inr rfl) (fun i hi => absurd hi (Nat.not_lt_zero i)) hp
  | case4 piece x rest hprefix ih =>
    -- The head joins the piece, and no occurrence begins there either.
    refine ih (.inl rfl) (fun i hi => ?_) hp
    rw [List.reverse_cons, List.append_assoc, List.singleton_append]
    rcases Nat.lt_or_eq_of_le (Nat.le_of_lt_succ hi) with hinside | rfl
    · exact h i hinside
    · rw [← List.length_reverse, List.drop_left]
      exact mt List.isPrefixOf_iff_prefix.2 hprefix

end Lists

/-! ### Pieces of texts -/

variable {s sep : String}

theorem toList_ne_nil (hsep : sep ≠ "") : sep.toList ≠ [] :=
  mt String.toList_eq_nil_iff.1 hsep

/-- The pieces of a text with the separator between them are the text. -/
theorem intercalate_splitText (hsep : sep ≠ "") : sep.intercalate (splitText s sep) = s := by
  have hlists : (splitText s sep).map String.toList = piecesOn sep.toList 0 [] s.toList := by
    simp [splitText, Function.comp_def]
  rw [← String.toList_inj, String.toList_intercalate, hlists,
    intercalate_piecesOn (toList_ne_nil hsep), List.drop_zero,
    List.reverse_nil, List.nil_append]

/-- No piece of a text has the separator in it. -/
theorem textContains_of_mem_splitText (hsep : sep ≠ "") {piece : String}
    (hpiece : piece ∈ splitText s sep) : textContains piece sep = false := by
  obtain ⟨cs, hcs, rfl⟩ := List.mem_map.1 hpiece
  have hfree : ¬ sep.toList <:+: cs :=
    not_infix_of_mem_piecesOn (toList_ne_nil hsep) (.inl rfl) (by simp) hcs
  rw [← Bool.not_eq_true, textContains, occursIn_iff, String.toList_ofList]
  exact hfree

/-! ### A new array -/

/-- The second heap is the first with an array in a slot that had nothing. -/
structure Heap.Adds (h : Heap) (id : HeapId) (items : Array Value) (h' : Heap) : Prop where
  fresh : h.get? id = none
  slots : ∀ id', h'.get? id' = if id' = id then some (.array items) else h.get? id'

theorem Heap.Bounded.adds_alloc {h : Heap} (hb : h.Bounded) (items : Array Value) :
    h.Adds (h.lastId + 1) items (h.alloc (.array items)).2 where
  fresh := by
    cases hslot : h.get? (h.lastId + 1) with
    | none => rfl
    | some slot => exact absurd (hb _ slot hslot) (Nat.not_succ_le_self _)
  slots := fun id' => h.get?_alloc _ id'

/-! ### Methods -/

variable {L : RunLimits} {m : Machine} {loc : Location}

/-- The pieces of a text, as they are put in an array. -/
def pieceValues (s sep : String) : Array Value :=
  ((splitText s sep).map Value.string).toArray

theorem splitPieces_string (hsep : sep ≠ "") (h : Heap) (s : String) (rest : List Value) :
    splitPieces h s (Value.string sep :: rest)[0]? = splitText s sep := by
  have hnotEmpty : sep.isEmpty = false := by simpa using hsep
  show (if (h.textOf (.string sep)).isEmpty then _
    else splitText s (h.textOf (.string sep))) = _
  rw [Heap.textOf_string, hnotEmpty]
  rfl

/-- The pieces become a new array unless there are too many of them. -/
theorem split_told (hsep : sep ≠ "") (s : String) (rest : List Value) (L : RunLimits)
    (m : Machine) (loc : Location) :
    if L.maxArrayLength < (splitText s sep).length then
      (callTextMethod .split s (.string sep :: rest) loc).outcome L m =
        (.error (.failed ⟨.arrayLength L.maxArrayLength, some loc⟩), m)
    else Told { m with heap := (m.heap.alloc (.array (pieceValues s sep))).2 }
      (.array (m.heap.lastId + 1))
      ((callTextMethod .split s (.string sep :: rest) loc).outcome L m) := by
  have hcheck := outcome_checkArrayLength (splitText s sep).length L m loc
  have hsplit : (textMethod .split s (.string sep :: rest) loc).outcome L m =
      (do
        checkArrayLength (splitText s sep).length loc
        return ⟨"split(" ++ quoted (m.heap.textOf (.string sep)) ++ ")",
          ← newArray ((splitText s sep).map Value.string).toArray⟩ :
          Run Shown).outcome L m := by
    unfold textMethod
    rw [Run.outcome_get_bind]
    show (split s (.string sep :: rest) loc).outcome L m = _
    unfold split
    rw [Run.outcome_get_bind]
    dsimp only
    rw [splitPieces_string hsep]
    rfl
  split
  · next hexceeds =>
    rw [if_pos hexceeds] at hcheck
    exact Run.outcome_bind_error (hsplit.trans (Run.outcome_bind_error hcheck))
  · next hfits =>
    rw [if_neg hfits] at hcheck
    exact callTextMethod_told (hsplit.trans (Run.outcome_bind_ok hcheck))

theorem outcome_checkTextLength (length : Nat) (L : RunLimits) (m : Machine)
    (loc : Location) :
    (checkTextLength length loc).outcome L m =
    if L.maxStringLength < length
      then (.error (.failed ⟨.textLength L.maxStringLength, some loc⟩), m)
    else (.ok (), m) := by
  unfold checkTextLength
  rw [Run.outcome_read_bind]
  dsimp only
  split
  · rfl
  · rfl

/-- Texts are joined unless the result is too long. -/
theorem join_told {id : HeapId} {parts : List String}
    (hparts : m.heap.array? id = some (parts.map Value.string).toArray) (w : Walker)
      (sep : String) (rest : List Value) (L : RunLimits) (loc : Location) :
    if L.maxStringLength < unitCount (sep.intercalate parts) then
      (callArrayMethod w .join id (.string sep :: rest) loc).outcome L m =
        (.error (.failed ⟨.textLength L.maxStringLength, some loc⟩), m)
    else Told m (.string (sep.intercalate parts))
      ((callArrayMethod w .join id (.string sep :: rest) loc).outcome L m) := by
  have hcheck := outcome_checkTextLength (unitCount (sep.intercalate parts)) L m loc
  have htexts : (parts.map Value.string).toArray.toList.map (joinPart m.heap) = parts := by
    simp [joinPart, Value.isNullish, Heap.textOf_string, Function.comp_def]
  have hjoin : (callArrayMethod w .join id (.string sep :: rest) loc).outcome L m =
      (do
        checkTextLength (unitCount (sep.intercalate parts)) loc
        record .expression loc
          ("Array.join(\"" ++ sep ++ "\") → \"" ++ sep.intercalate parts ++ "\"")
        return .string (sep.intercalate parts) : Run Value).outcome L m := by
    unfold callArrayMethod
    rw [Run.outcome_get_bind, Heap.elements_of_array? hparts]
    show (joinArray _ (.string sep :: rest) loc).outcome L m = _
    unfold joinArray
    rw [Run.outcome_get_bind]
    dsimp only
    rw [htexts, Heap.textOf_string]
  split
  · next hexceeds =>
    rw [if_pos hexceeds] at hcheck
    exact hjoin.trans (Run.outcome_bind_error hcheck)
  · next hfits =>
    rw [if_neg hfits] at hcheck
    rw [hjoin, Run.outcome_bind_ok hcheck]
    exact told_record _ _ _

/-- In the states that a run goes through, new arrays take numbers that no slot had.  In all
such states a text is split into pieces without the separator, which are the elements of a new
array.  While they are its elements, joining it with the separator gives the text.  Both fail
if the result would be too long, and change nothing then. -/
theorem split_join (L : RunLimits) (p : Program) :
    (∀ m, Reachable L p m → m.heap.Bounded) ∧
    ∀ m, m.heap.Bounded → ∀ s sep, sep ≠ "" → ∀ rest loc,
      (∀ piece ∈ splitText s sep, textContains piece sep = false) ∧
      (if L.maxArrayLength < (splitText s sep).length then
        (callTextMethod .split s (.string sep :: rest) loc).outcome L m =
          (.error (.failed ⟨.arrayLength L.maxArrayLength, some loc⟩), m)
      else ∃ id h, m.heap.Adds id (pieceValues s sep) h ∧
        Told { m with heap := h } (.array id)
          ((callTextMethod .split s (.string sep :: rest) loc).outcome L m)) ∧
      ∀ m' id, m'.heap.array? id = some (pieceValues s sep) → ∀ w rest' loc',
        if L.maxStringLength < unitCount s then
          (callArrayMethod w .join id (.string sep :: rest') loc').outcome L m' =
            (.error (.failed ⟨.textLength L.maxStringLength, some loc'⟩), m')
        else Told m' (.string s)
          ((callArrayMethod w .join id (.string sep :: rest') loc').outcome L m') := by
  refine ⟨fun m hm => ?_, fun m hm s sep hsep rest loc =>
    ⟨fun piece => textContains_of_mem_splitText hsep, ?_, ?_⟩⟩
  · have htied : m.Tied :=
      Discipline.references.inv_of_reachable (fun _ _ => trivial) (Machine.tied_initial L) hm
    exact htied.bounded
  · have htold := split_told hsep s rest L m loc
    split
    · next hexceeds => rwa [if_pos hexceeds] at htold
    · next hfits =>
      rw [if_neg hfits] at htold
      exact ⟨_, _, hm.adds_alloc _, htold⟩
  · intro m' id hpieces w rest' loc'
    have htold := join_told hpieces w sep rest' L loc'
    rwa [intercalate_splitText hsep] at htold

/-- A separator that overlaps itself, and one at the end. -/
theorem split_join_overlapping : ∃ m id h m' m'', Reachable {} ⟨[], default⟩ m ∧
    m.heap.Adds id #[.string "a", .string "Xb", .string ""] h ∧
    (callTextMethod .split "aXXXbXX" [.string "XX"] default).outcome {} m =
      (.ok (.array id), m') ∧
    (callArrayMethod (walker 0) .join id [.string "XX"] default).outcome {}
      { m with heap := h } = (.ok (.string "aXXXbXX"), m'') := by
  have hpieces : splitText "aXXXbXX" "XX" = ["a", "Xb", ""] := by decide +kernel
  have hvalues : pieceValues "aXXXbXX" "XX" = #[.string "a", .string "Xb", .string ""] := by
    rw [pieceValues, hpieces]
    rfl
  obtain ⟨m, hm, hroom⟩ : ∃ m, Reachable {} ⟨[], default⟩ m ∧ m.trace.hasRoom = true :=
    ⟨_, reachable_runFrom {} 0 ⟨[], default⟩, rfl⟩
  obtain ⟨hbounded, hends⟩ := split_join {} ⟨[], default⟩
  obtain ⟨-, hsplit, hjoin⟩ := hends _ (hbounded _ hm) "aXXXbXX" "XX" (by decide) [] default
  rw [if_neg (by rw [hpieces]; decide)] at hsplit
  obtain ⟨id, h, hadds, hsplit⟩ := hsplit
  have hitems : h.array? id = some (pieceValues "aXXXbXX" "XX") :=
    Heap.array?_eq_some.2 ((hadds.slots id).trans (if_pos rfl))
  have hjoin := hjoin { m with heap := h } id hitems (walker 0) [] default
  rw [if_neg (by decide +kernel)] at hjoin
  obtain ⟨m', hsplit⟩ := hsplit.answers hroom
  obtain ⟨m'', hjoin⟩ := hjoin.answers hroom
  exact ⟨m, id, h, m', m'', hm, hvalues ▸ hadds, hsplit, hjoin⟩

end ScriptReplay
