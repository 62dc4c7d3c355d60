/-
How many units texts have.

* `unitCount_eq` : the units of a text are those of its characters;
* `length_units`, `unitCount_ofUnits_le` : counting, cutting into units and reading
  them back agree;
* `unitCount_trim_le`, `unitCount_splitText_le` : parts of a text are not longer
  than the text;
* `unitCount_repeatText_le`, `length_cycleTake_le` : how long texts become that are written
  again and again.
-/
import Mathlib.Algebra.GroupWithZero.Nat
import Mathlib.Algebra.Order.BigOperators.Group.List
import Mathlib.Algebra.Order.Group.Nat
import ScriptReplay.Proofs.Words

namespace ScriptReplay

/-! ### Characters -/

theorem unitCount_eq (s : String) : unitCount s = (s.toList.map charWidth).sum := by
  unfold unitCount
  rw [List.sum_eq_foldl, List.foldl_map]

@[simp]
theorem unitCount_ofList (cs : List Char) :
    unitCount (String.ofList cs) = (cs.map charWidth).sum := by
  rw [unitCount_eq, String.toList_ofList]

@[simp]
theorem unitCount_append (s t : String) : unitCount (s ++ t) = unitCount s + unitCount t := by
  rw [unitCount_eq, unitCount_eq, unitCount_eq, String.toList_append,
    List.map_append, List.sum_append]

theorem charWidth_le (c : Char) : charWidth c ≤ 2 := by
  unfold charWidth
  split
  · exact Nat.le_succ 1
  · exact Nat.le_refl 2

theorem length_charUnits (c : Char) : (charUnits c).length = charWidth c := by
  unfold charUnits charWidth
  dsimp only
  split
  · rfl
  · rfl

theorem length_units (s : String) : (units s).length = unitCount s := by
  rw [unitCount_eq]
  unfold units
  rw [List.length_flatMap]
  simp only [length_charUnits]

/-- Fewer characters do not take more units. -/
theorem unitCount_le_of_sublist {cs : List Char} {s : String} (h : cs.Sublist s.toList) :
    unitCount (String.ofList cs) ≤ unitCount s := by
  rw [unitCount_ofList, unitCount_eq]
  exact (h.map charWidth).sum_le_sum fun _ _ => Nat.zero_le _

/-! ### Units read as characters -/

/-- A unit on its own is read as a character of one unit. -/
theorem charWidth_ofNat (u : UInt16) : charWidth (Char.ofNat u.toNat) = 1 := by
  unfold charWidth
  refine if_pos ?_
  by_cases hvalid : u.toNat.isValidChar
  · rw [Char.ofNat, dif_pos hvalid]
    exact u.toNat_lt
  · -- A unit of a pair is no character, and is read as the first of all.
    rw [Char.ofNat, dif_neg hvalid]
    decide

theorem sum_charWidth_charsOfUnits_le (us : List UInt16) :
    ((charsOfUnits us).map charWidth).sum ≤ us.length := by
  have hlone : charWidth replacementChar = 1 := by decide
  fun_induction charsOfUnits us with
  | case1 => exact Nat.le_refl 0
  | case2 u =>
    rw [List.map_singleton, List.sum_singleton, List.length_singleton]
    split
    · exact Nat.le_of_eq hlone
    · exact Nat.le_of_eq (charWidth_ofNat u)
  | case3 u v rest _ ih =>
    rw [List.map_cons, List.sum_cons, List.length_cons, List.length_cons]
    have hwidth :=
      charWidth_le (Char.ofNat (0x10000 + (u.toNat - 0xD800) * 0x400 + (v.toNat - 0xDC00)))
    omega
  | case4 u v rest _ _ ih =>
    rw [List.map_cons, List.sum_cons, hlone, List.length_cons]
    omega
  | case5 u v rest _ _ ih =>
    rw [List.map_cons, List.sum_cons, charWidth_ofNat, List.length_cons]
    omega

theorem unitCount_ofUnits_le (us : List UInt16) : unitCount (ofUnits us) ≤ us.length := by
  unfold ofUnits
  rw [unitCount_ofList]
  exact sum_charWidth_charsOfUnits_le us

/-! ### Parts of texts -/

theorem unitCount_trim_le (s : String) : unitCount (trim s) ≤ unitCount s := by
  have hdrop : ∀ cs : List Char, (dropBlanks cs).Sublist cs :=
    fun cs => List.dropWhile_sublist _
  refine unitCount_le_of_sublist ?_
  unfold trimChars
  have hback := (hdrop (dropBlanks s.toList).reverse).reverse
  rw [List.reverse_reverse] at hback
  exact hback.trans (hdrop s.toList)

/-- The pieces of a list are made of its elements, in order, and of those of the piece
that is begun. -/
theorem sublist_of_mem_piecesOn {sep piece cs p : List Char} {skip : Nat}
    (h : p ∈ piecesOn sep skip piece cs) : p.Sublist (piece.reverse ++ cs) := by
  fun_induction piecesOn sep skip piece cs with
  | case1 skip piece =>
    rw [List.mem_singleton.1 h, List.append_nil]
  | case2 piece x rest n ih =>
    exact (ih h).trans ((List.sublist_cons_self x rest).append_left _)
  | case3 piece x rest _ ih =>
    rcases List.mem_cons.1 h with rfl | h
    · exact List.sublist_append_left _ _
    · exact ((ih h).trans (List.sublist_cons_self x rest)).trans
        (List.sublist_append_right _ _)
  | case4 piece x rest _ ih =>
    have hpiece := ih h
    rwa [List.reverse_cons, List.append_assoc] at hpiece

theorem unitCount_splitText_le {s sep piece : String} (h : piece ∈ splitText s sep) :
    unitCount piece ≤ unitCount s := by
  obtain ⟨cs, hcs, rfl⟩ := List.mem_map.1 h
  exact unitCount_le_of_sublist (sublist_of_mem_piecesOn hcs)

/-! ### Repetition -/

theorem length_cycleTake_le {α : Type} (unit : List α) (n : Nat) (rest : List α) :
    (cycleTake unit n rest).length ≤ n := by
  fun_induction cycleTake unit n rest with
  | case1 => exact Nat.le_refl 0
  | case2 n x rest ih => exact Nat.succ_le_succ ih
  | case3 n x more hunit ih => exact Nat.succ_le_succ (hunit ▸ ih)
  | case4 n => exact Nat.zero_le _

theorem unitCount_repeatText_le (s : String) (n : Nat) :
    unitCount (repeatText s n) ≤ n * unitCount s := by
  unfold repeatText
  split
  · rw [unitCount_eq, String.toList_empty]
    exact Nat.zero_le _
  · refine Nat.le_of_eq ?_
    rw [unitCount_eq, String.toList_join]
    induction n with
    | zero => simp
    | succ n ih =>
      rw [List.replicate_succ, List.flatMap_cons, List.map_append,
        List.sum_append, ih, ← unitCount_eq,
        Nat.succ_mul, Nat.add_comm]

end ScriptReplay
