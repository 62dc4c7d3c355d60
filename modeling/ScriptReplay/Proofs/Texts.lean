/-
How long texts become.

Operators, templates, joined arrays, and texts that are repeated, filled up or exchanged in
part are tested against the ceiling before they are stored, and parts of a text are not longer
than the text.  What no rule tests is what `String` makes of a value, letters exchanged for
others, and the name of a property that is computed: it becomes a text where the keys of an
object are listed, and where a function takes it for its name.  In programs that do none of
this no step shows a text beyond the ceiling.

* `Program.measuredRegion` : the nodes of a program in which texts stay below a ceiling;
* `Execution.texts_le_ceiling` : no step of a run shows a text beyond the ceiling;
* `overflowing` : programs that make longer ones, each in a way that is not tested.
-/
import ScriptReplay.Proofs.Lengths

namespace ScriptReplay

/-- The nodes of a program in which texts stay below a ceiling. -/
def Program.measuredRegion (p : Program) (ceiling : Nat) (hshort : 64 ≤ ceiling)
    (hwords : ∀ n, p.region.has n → ∀ t ∈ n.words, unitCount t ≤ ceiling)
    (hfree : ∀ n, p.region.has n → n.writesFreely = false) : Region where
  has := p.region.has
  part := Program.region_part
  spans length := length ≤ ceiling
  spans_le := Nat.le_trans
  spans_short := hshort
  word hn ht := hwords _ hn _ ht
  free hn h := by
    rw [hfree _ hn] at h
    cases h

/-- No step of a run shows a text beyond the ceiling, if none is written in the program and
the program makes no text without a test. -/
theorem Execution.texts_le_ceiling {L : RunLimits} {p : Program}
    (hshort : 64 ≤ L.maxStringLength)
    (hwords : ∀ n, p.region.has n → ∀ t ∈ n.words, unitCount t ≤ L.maxStringLength)
    (hfree : ∀ n, p.region.has n → n.writesFreely = false) {fuel : Nat} {e : Execution}
    (he : Execution.ofProgram? L fuel p = some e) {s : Step} (hs : s ∈ e.steps) {t : String}
    (ht : s.Holds (.string t)) : unitCount t ≤ L.maxStringLength := by
  obtain ⟨m, hcapped, hsteps⟩ := Execution.exists_capped
    (N := p.measuredRegion L.maxStringLength hshort hwords hfree)
    (fun _ hs => Program.region_stmt hs) ⟨trivial, Nat.le_refl _⟩ he
  rw [hsteps] at hs
  exact hcapped.shown s (List.mem_reverse.1 hs) (.string t) ht

/-! ### Texts below and beyond the ceiling -/

/-- Whether all that is written in a node is short enough. -/
def Node.wordsFit (ceiling : Nat) (n : Node) : Bool :=
  n.words.all (unitCount · ≤ ceiling)

theorem Program.words_le {p : Program} {ceiling : Nat} (depth : Nat)
    (h : p.body.all (fun s => (Node.stmt s).passes (Node.wordsFit ceiling) depth) = true) :
    ∀ n, p.region.has n → ∀ t ∈ n.words, unitCount t ≤ ceiling := by
  intro n hn t ht
  exact of_decide_eq_true
    (List.all_eq_true.1 (p.region_passes _ depth (List.all_eq_true.1 h) hn) t ht)

/-- Whether a variable of a step has a text of some length. -/
def Step.hasText (s : Step) (length : Nat → Bool) : Bool :=
  s.scopes.any fun scope => scope.values.values.any fun v =>
    v.string?.any fun t => length (unitCount t)

theorem Step.exists_holds {s : Step} {length : Nat → Bool} (h : s.hasText length = true) :
    ∃ t, s.Holds (.string t) ∧ length (unitCount t) = true := by
  obtain ⟨scope, hscope, h⟩ := List.any_eq_true.1 h
  obtain ⟨v, hv, h⟩ := List.any_eq_true.1 h
  obtain ⟨t, ht, h⟩ := (Option.any_eq_true _ _).1 h
  cases v with
  | string =>
    cases ht
    exact ⟨t, .scope hscope hv, h⟩
  | _ => cases ht

/-- Half of a text of 64 units. -/
def halfText : Expr := .string "xxxxxxxxxxxxxxxxxxxxxxxxxxxxxxxx" default

/-- A text that is doubled twice. -/
def doubling : Program :=
  let double : Stmt := .expr (.assign .plain (.name "s" default)
    (.binary .add (.ident "s" default) (.ident "s" default) default) default) default
  ⟨[.declare .letK [⟨"s", some halfText, default⟩] default, double, double], default⟩

/-- The first doubling reaches a ceiling of 64 units, and the second one fails. -/
theorem doubling_texts_le_ceiling :
    ∃ e, Execution.ofProgram? ⟨9, 1, 1, 1, 64⟩ 9 doubling = some e ∧
    (∃ s ∈ e.steps, s.kind = .error) ∧
      (∃ s ∈ e.steps, ∃ t, s.Holds (.string t) ∧ unitCount t = 64) ∧
    ∀ s ∈ e.steps, ∀ t, s.Holds (.string t) → unitCount t ≤ 64 := by
  have hrun : (Execution.ofProgram? ⟨9, 1, 1, 1, 64⟩ 9 doubling).any (fun e =>
      e.steps.any (·.kind == .error) && e.steps.any (·.hasText (· == 64))) = true := by
    decide +kernel
  obtain ⟨e, he, hrun⟩ := (Option.any_eq_true _ _).1 hrun
  obtain ⟨herror, htext⟩ := (Bool.and_eq_true _ _).mp hrun
  obtain ⟨s, hs, hkind⟩ := List.any_eq_true.1 herror
  obtain ⟨s', hs', htext⟩ := List.any_eq_true.1 htext
  obtain ⟨t, ht, hlength⟩ := Step.exists_holds htext
  refine ⟨e, he, ⟨s, hs, eq_of_beq hkind⟩,
    ⟨s', hs', t, ht, eq_of_beq hlength⟩, fun s hs t ht => ?_⟩
  refine Execution.texts_le_ceiling (L := ⟨9, 1, 1, 1, 64⟩) (Nat.le_refl 64)
    (Program.words_le 9 (by decide +kernel)) (fun n hn => ?_) he hs ht
  exact Bool.not_eq_eq_eq_not.1
    (doubling.region_passes (!·.writesFreely) 9 (by decide +kernel) hn)

/-- An array of two halves, whose text has 65 units. -/
def twoHalves : Expr := .array [some halfText, some halfText] default

/-- Programs that make texts of more than 64 units of short ones: the text of an array,
letters that become two, a computed key, and a function with a computed name. -/
def overflowing : List Program :=
  let declared (e : Expr) : Stmt := .declare .letK [⟨"t", some e, default⟩] default
  let written (value : Expr) : Expr :=
    .assign .plain (.member (.ident "o" default) (.computed twoHalves) default) value default
  let made : Stmt := .declare .letK [⟨"o", some (.object [] default), default⟩] default
  let keys : Expr := .member (.ident "Object" default) (.named "keys") default
  let arrow : Routine := ⟨none, [], .value (.null default), true, false, default, default⟩
  [⟨[declared (.call (.ident "String" default) [twoHalves] default)], default⟩,
    ⟨[declared (.call (.member (.string "ßßßßßßßßßßßßßßßßßßßßßßßßßßßßßßßßß" default)
      (.named "toUpperCase") default)
      [] default)], default⟩,
    ⟨[made, .expr (written (.null default)) default,
      .forOf .const "t" (.call keys [.ident "o" default] default) (.empty default) default],
      default⟩,
    ⟨[made, declared (.member (written (.function arrow default)) (.named "name") default)],
      default⟩]

/-- All that is written in these programs is short, and each shows a text beyond a ceiling
of 64 units. -/
theorem overflowing_texts : overflowing.Forall fun p =>
    (∀ n, p.region.has n → ∀ t ∈ n.words, unitCount t ≤ 64) ∧
      ∃ e, Execution.ofProgram? ⟨99, 9, 9, 9, 64⟩ 9 p = some e ∧
        ∃ s ∈ e.steps, ∃ t, s.Holds (.string t) ∧ 64 < unitCount t := by
  have hrun : overflowing.all
      (fun p => p.body.all (fun s => (Node.stmt s).passes (Node.wordsFit 64) 9) &&
        (Execution.ofProgram? ⟨99, 9, 9, 9, 64⟩ 9 p).any fun e =>
          e.steps.any (·.hasText (64 < ·))) = true := by
    decide +kernel
  refine List.forall_iff_forall_mem.2 fun p hp => ?_
  obtain ⟨hwords, hrun⟩ := (Bool.and_eq_true _ _).mp (List.all_eq_true.1 hrun p hp)
  obtain ⟨e, he, htext⟩ := (Option.any_eq_true _ _).1 hrun
  obtain ⟨s, hs, htext⟩ := List.any_eq_true.1 htext
  obtain ⟨t, ht, hlength⟩ := Step.exists_holds htext
  exact ⟨Program.words_le 9 hwords, e, he, s, hs, t, ht, of_decide_eq_true hlength⟩

end ScriptReplay
