/-
The loops around the fragments of a program.

Leaving a loop by a word leaves the innermost one around it in the same function.  Steps tell
only where such a word stands, and in a text no two words stand at the same place, so they
tell of the loop as well.

* `Fragment.around` : the innermost loop around what is directly inside a fragment;
* `Program.Stands` : a fragment of a program and the innermost loop around it;
* `Program.Stands.breakOut_unique` : at one place of a text there is one way to leave a loop;
* `Program.exists_stands` : every node of a program stands in it.

Design notes: a function begins outside of all loops, also one in the head of a loop.  What
else is in the head is taken to be inside the loop, which makes no difference: it is no
statement that leaves anything.
-/
import Mathlib.Data.List.Pairwise
import ScriptReplay.Proofs.Node
import ScriptReplay.Proofs.Source.Stmts

namespace ScriptReplay

/-! ### Loops -/

/-- A loop as steps tell of it. -/
structure Loop where
  title : String
  loc : Location

/-- The loop that a statement is. -/
def Stmt.loop? : Stmt → Option Loop
  | .forLoop _ _ _ _ loc => some ⟨"For", loc⟩
  | .forOf _ _ _ _ loc => some ⟨"For-of", loc⟩
  | .whileLoop _ _ loc => some ⟨"While", loc⟩
  | .doWhile _ _ loc => some ⟨"Do-while", loc⟩
  | _ => none

/-- The innermost loop around what is directly inside a fragment, in the same function, from
that around the fragment itself. -/
def Fragment.around (n : Fragment) (loop : Option Loop) : Option Loop :=
  match n with
  | .stmt s => s.loop?.or loop
  | .routine _ => none
  | _ => loop

/-- The second fragment is directly inside the first.  With each is the innermost
loop around it. -/
def Inward (outer inner : Option Loop × Fragment) : Prop :=
  inner.2 ∈ outer.2.inner ∧ inner.1 = outer.2.around outer.1

/-- The fragment is in the program, and the loop is the innermost around it in the
same function. -/
def Program.Stands (p : Program) (loop : Option Loop) (n : Fragment) : Prop :=
  Relation.ReflTransGen Inward (none, .program p) (loop, n)

namespace Program.Stands

variable {p : Program} {loop : Option Loop} {n n' : Fragment}

theorem inner (h : p.Stands loop n) (hn' : n' ∈ n.inner) : p.Stands (n.around loop) n' :=
  h.tail ⟨hn', rfl⟩

end Program.Stands

/-- A path inward goes from fragment to fragment. -/
theorem Fragment.encloses_of_path {a b : Option Loop × Fragment}
    (h : Relation.ReflTransGen Inward a b) : a.2.Encloses b.2 :=
  h.lift Prod.snd fun _ _ hin => hin.1

theorem Program.Stands.encloses {p : Program} {loop : Option Loop} {n : Fragment}
    (h : p.Stands loop n) : (Fragment.program p).Encloses n :=
  Fragment.encloses_of_path h

theorem Program.exists_stands_of_encloses {p : Program} {n : Fragment}
    (h : (Fragment.program p).Encloses n) : ∃ loop, p.Stands loop n := by
  induction h with
  | refl => exact ⟨none, .refl⟩
  | tail _ hin ih =>
    obtain ⟨loop, hstands⟩ := ih
    exact ⟨_, hstands.inner hin⟩

/-! ### One loop for each place -/

variable {text : List Char}

theorem Location.Inside.trans {l l' l'' : Location} (h : l.Inside l') (h' : l'.Inside l'') :
    l.Inside l'' :=
  ⟨Nat.le_trans h'.start_le h.start_le, Nat.le_trans h.stop_le h'.stop_le⟩

/-- What is at any depth inside a placed fragment is in its stretch. -/
theorem Fragment.Placed.inside_of_encloses {n n' : Fragment} (h : n.Placed text)
    (henc : n.Encloses n') : n'.loc.Inside n.loc := by
  induction henc with
  | refl => exact ⟨Nat.le_refl _, Nat.le_refl _⟩
  | tail hpath hin ih => exact ((h.of_encloses hpath).inside hin).trans ih

/-- Two different fragments directly inside a placed one are apart, one way or the other. -/
theorem Fragment.Placed.before_or_before {n a b : Fragment} (h : n.Placed text)
    (ha : a ∈ n.inner) (hb : b ∈ n.inner) (hne : a ≠ b) : a.Before b ∨ b.Before a := by
  have hsymm : Std.Symm fun a b : Fragment => a.Before b ∨ b.Before a :=
    ⟨fun _ _ hab => hab.symm⟩
  have happart : n.inner.Pairwise fun a b : Fragment => a.Before b ∨ b.Before a :=
    h.apart.imp .inl
  exact happart.forall ha hb hne

theorem Fragment.not_inward_breakOut {loop : Option Loop} {loc : Location}
    {b : Option Loop × Fragment} : ¬ Inward (loop, .stmt (.breakOut loc)) b :=
  fun h => List.not_mem_nil h.1

/-- From one fragment there is one path to a way to leave a loop at a place, so there is one
loop around it. -/
theorem Fragment.loop_unique {a : Option Loop × Fragment} (ha : a.2.Placed text)
    {loop loop' : Option Loop} {loc : Location}
    (h : Relation.ReflTransGen Inward a (loop, .stmt (.breakOut loc)))
    (h' : Relation.ReflTransGen Inward a (loop', .stmt (.breakOut loc))) : loop = loop' := by
  induction h using Relation.ReflTransGen.head_induction_on with
  | refl =>
    rcases Relation.ReflTransGen.cases_head h' with heq | ⟨b, hin, -⟩
    · exact congrArg Prod.fst heq
    · exact absurd hin not_inward_breakOut
  | @head a b hin hpath ih =>
    rcases Relation.ReflTransGen.cases_head h' with heq | ⟨b', hin', hpath'⟩
    · subst heq
      exact absurd hin not_inward_breakOut
    by_cases hsame : b.2 = b'.2
    · have hb : b' = b := Prod.ext (hin'.2.trans hin.2.symm) hsame.symm
      exact ih (ha.inner hin.1) (hb ▸ hpath')
    -- The two branches are apart, and the place has a stretch that would be in both.
    have henc := encloses_of_path hpath
    have henc' := encloses_of_path hpath'
    have hword : loc.start < loc.stop := ((ha.inner hin.1).of_encloses henc).shaped
    obtain ⟨hstart, hstop⟩ := (ha.inner hin.1).inside_of_encloses henc
    obtain ⟨hstart', hstop'⟩ := (ha.inner hin'.1).inside_of_encloses henc'
    have happart := ha.before_or_before hin.1 hin'.1 hsame
    have hloc : (Fragment.stmt (.breakOut loc)).loc = loc := rfl
    simp only [Before, hloc] at *
    omega

/-- At one place of a text there is one way to leave a loop, and one loop that it leaves. -/
theorem Program.Stands.breakOut_unique {p : Program} (hp : (Fragment.program p).Placed text)
    {loop loop' : Option Loop} {loc : Location} (h : p.Stands loop (.stmt (.breakOut loc)))
    (h' : p.Stands loop' (.stmt (.breakOut loc))) : loop = loop' :=
  Fragment.loop_unique hp h h'

/-! ### Nodes as fragments -/

/-- A node as a fragment. -/
def Node.fragment : Node → Fragment
  | .expr e => .expr e
  | .stmt s => .stmt s
  | .routine r => .routine r

theorem mem_fragments {α : Type} [Fragments α] {n : Fragment} {a : α} {as : List α}
    (ha : a ∈ as) (hn : n ∈ fragments a) : n ∈ fragments as :=
  List.mem_flatMap.2 ⟨a, ha, hn⟩

/-- What is inside one of some fragments that are directly inside another. -/
theorem Fragment.Encloses.within {outer mid n : Fragment} (hmid : mid ∈ outer.inner)
    (hn : mid.Encloses n) : outer.Encloses n :=
  hn.head hmid

theorem Fragment.Encloses.direct {outer n : Fragment} (hn : n ∈ outer.inner) :
    outer.Encloses n :=
  .single hn

theorem Key.fragment_mem {key : Key} {n : Node} (h : n ∈ key.parts) :
    n.fragment ∈ fragments key := by
  cases key with
  | named name => cases h
  | computed e =>
    obtain rfl := List.mem_singleton.1 h
    exact List.mem_singleton_self _

/-- What is inside a target is inside the expression that it was read as. -/
theorem Target.fragment_encloses {target : Target} {n : Node} (h : n ∈ target.parts) :
    (Fragment.expr target.toExpr).Encloses n.fragment := by
  cases target with
  | name name l => cases h
  | member base key l =>
    rcases List.mem_cons.1 h with rfl | h
    · exact .direct (List.mem_append_left _ (List.mem_singleton_self _))
    · exact .direct (List.mem_append_right _ (Key.fragment_mem h))

theorem Expr.fragment_encloses {e : Expr} {n : Node} (h : n ∈ e.parts) :
    (Fragment.expr e).Encloses n.fragment := by
  cases e with
  | number | string | bool | null | ident | this => cases h
  | template texts parts l =>
    obtain ⟨e, he, rfl⟩ := List.mem_map.1 h
    exact .direct (mem_fragments he (List.mem_singleton_self _))
  | array items l =>
    obtain ⟨e, he, rfl⟩ := mem_parts_array.1 h
    exact .direct (mem_fragments he (List.mem_singleton_self _))
  | object properties l =>
    obtain ⟨q, hq, rfl⟩ := List.mem_map.1 h
    exact .within (mem_fragments hq (List.mem_singleton_self _))
      (.direct (List.mem_singleton_self _))
  | function r l | unary op e l | await e l =>
    obtain rfl := List.mem_singleton.1 h
    exact .direct (List.mem_singleton_self _)
  | update op before target l =>
    exact .within (List.mem_singleton_self _) (Target.fragment_encloses h)
  | assign op target value l =>
    rcases List.mem_cons.1 h with rfl | h
    · exact .direct (List.mem_append_right _ (List.mem_singleton_self _))
    · exact .within (List.mem_append_left _ (List.mem_singleton_self _))
        (Target.fragment_encloses h)
  | binary op left right l | logical op left right l =>
    simp only [parts, List.mem_cons, List.not_mem_nil, or_false] at h
    refine .direct ?_
    rcases h with rfl | rfl
    · exact List.mem_append_left _ (List.mem_singleton_self _)
    · exact List.mem_append_right _ (List.mem_singleton_self _)
  | conditional test yes no l =>
    simp only [parts, List.mem_cons, List.not_mem_nil, or_false] at h
    refine .direct ?_
    rcases h with rfl | rfl | rfl
    · exact List.mem_append_left _ (List.mem_singleton_self _)
    · exact List.mem_append_right _ (List.mem_append_left _ (List.mem_singleton_self _))
    · exact List.mem_append_right _ (List.mem_append_right _ (List.mem_singleton_self _))
  | call callee arguments l | new callee arguments l =>
    refine .direct ?_
    rcases List.mem_cons.1 h with rfl | h
    · exact List.mem_append_left _ (List.mem_singleton_self _)
    · obtain ⟨e, he, rfl⟩ := List.mem_map.1 h
      exact List.mem_append_right _ (mem_fragments he (List.mem_singleton_self _))
  | member base key l =>
    refine .direct ?_
    rcases List.mem_cons.1 h with rfl | h
    · exact List.mem_append_left _ (List.mem_singleton_self _)
    · exact List.mem_append_right _ (Key.fragment_mem h)

theorem mem_fragments_stmts {s : Stmt} {body : List Stmt} (hs : s ∈ body) :
    Fragment.stmt s ∈ fragments body :=
  mem_fragments hs (List.mem_singleton_self _)

theorem Stmt.fragment_encloses {s : Stmt} {n : Node} (h : n ∈ s.parts) :
    (Fragment.stmt s).Encloses n.fragment := by
  cases s with
  | breakOut | nextRound | empty => cases h
  | declare kind ds l =>
    obtain ⟨d, hd, e, hinit, rfl⟩ := mem_parts_declare.1 h
    refine .within (mem_fragments hd (List.mem_singleton_self _)) (.direct ?_)
    show Fragment.expr e ∈ fragments d.init
    rw [hinit]
    exact List.mem_singleton_self _
  | function r l | expr e l | raise e l =>
    obtain rfl := List.mem_singleton.1 h
    exact .direct (List.mem_singleton_self _)
  | ret value l =>
    obtain ⟨e, he, rfl⟩ := List.mem_map.1 h
    obtain rfl := Option.mem_toList.1 he
    exact .direct (List.mem_singleton_self _)
  | ifElse test yes no l =>
    refine .direct ?_
    simp only [parts, List.mem_cons, List.mem_map, Option.mem_toList] at h
    rcases h with rfl | rfl | ⟨s, rfl, rfl⟩
    · exact List.mem_append_left _ (List.mem_singleton_self _)
    · exact List.mem_append_right _ (List.mem_append_left _ (List.mem_singleton_self _))
    · exact List.mem_append_right _ (List.mem_append_right _ (List.mem_singleton_self _))
  | forLoop init test update body l =>
    refine .direct ?_
    simp only [parts, List.cons_append, List.mem_cons, List.mem_append,
      List.mem_map, Option.mem_toList] at h
    rcases h with rfl | ⟨s, rfl, rfl⟩ | ⟨e, rfl | rfl, rfl⟩
    · exact List.mem_append_right _
        (List.mem_append_right _ (List.mem_append_right _ (List.mem_singleton_self _)))
    · exact List.mem_append_left _ (List.mem_singleton_self _)
    · exact List.mem_append_right _ (List.mem_append_left _ (List.mem_singleton_self _))
    · exact List.mem_append_right _
        (List.mem_append_right _ (List.mem_append_left _ (List.mem_singleton_self _)))
  | forOf kind name iterable body l | whileLoop iterable body l =>
    refine .direct ?_
    simp only [parts, List.mem_cons, List.not_mem_nil, or_false] at h
    rcases h with rfl | rfl
    · exact List.mem_append_left _ (List.mem_singleton_self _)
    · exact List.mem_append_right _ (List.mem_singleton_self _)
  | doWhile body test l =>
    refine .direct ?_
    simp only [parts, List.mem_cons, List.not_mem_nil, or_false] at h
    rcases h with rfl | rfl
    · exact List.mem_append_right _ (List.mem_singleton_self _)
    · exact List.mem_append_left _ (List.mem_singleton_self _)
  | block body l =>
    obtain ⟨s, hs, rfl⟩ := List.mem_map.1 h
    exact .direct (mem_fragments_stmts hs)
  | tryBlock body handler finalizer l =>
    obtain ⟨s, rfl, hs | ⟨c, rfl, hs⟩ | ⟨last, rfl, hs⟩⟩ := mem_parts_tryBlock.1 h
    · exact .direct (List.mem_append_left _ (mem_fragments_stmts hs))
    · have hhandler : Fragment.handler c ∈
          (Fragment.stmt (.tryBlock body (some c) finalizer l)).inner :=
        List.mem_append_right _ (List.mem_append_left _ (List.mem_singleton_self _))
      exact .within hhandler (.direct (mem_fragments_stmts hs))
    · exact .direct
        (List.mem_append_right _ (List.mem_append_right _ (mem_fragments_stmts hs)))

theorem Routine.fragment_encloses {r : Routine} {n : Node} (h : n ∈ r.parts) :
    (Fragment.routine r).Encloses n.fragment := by
  rcases mem_parts.1 h with ⟨q, hq, e, hfallback, rfl⟩ | h
  · refine .direct (List.mem_append_left _ (mem_fragments hq ?_))
    show Fragment.expr e ∈ fragments q.fallback
    rw [hfallback]
    exact List.mem_singleton_self _
  · refine .within (List.mem_append_right _ (List.mem_singleton_self _)) (.direct ?_)
    show n.fragment ∈ fragments r.body
    cases hbody : r.body with
    | block statements =>
      rw [hbody] at h
      obtain ⟨s, hs, rfl⟩ := List.mem_map.1 h
      exact mem_fragments_stmts hs
    | value e =>
      rw [hbody] at h
      obtain rfl := List.mem_singleton.1 h
      exact List.mem_singleton_self _

/-- The parts of a node are inside it as fragments too. -/
theorem Node.fragment_encloses {n n' : Node} (h : n' ∈ n.parts) :
    n.fragment.Encloses n'.fragment := by
  cases n with
  | expr e => exact Expr.fragment_encloses h
  | stmt s => exact Stmt.fragment_encloses h
  | routine r => exact Routine.fragment_encloses h

/-- Every node of a program stands in it. -/
theorem Program.encloses_of_region {p : Program} {n : Node} (h : p.region.has n) :
    (Fragment.program p).Encloses n.fragment := by
  refine Program.region_induction
    (P := fun n => (Fragment.program p).Encloses n.fragment) ?_ ?_ h
  · exact fun s hs => .direct (mem_fragments_stmts hs)
  · exact fun n n' hn hpart => hn.trans (Node.fragment_encloses hpart)

theorem Program.exists_stands {p : Program} {n : Node} (h : p.region.has n) :
    ∃ loop, p.Stands loop n.fragment :=
  exists_stands_of_encloses (encloses_of_region h)

/-- The body of a function begins outside of all loops. -/
theorem Program.stands_body {p : Program} {r : Routine} (hr : p.region.has (.routine r))
    {s : Stmt} (hs : .stmt s ∈ r.body.parts) : p.Stands none (.stmt s) := by
  obtain ⟨loop, hstands⟩ := exists_stands hr
  have hbody : p.Stands none (.body r.body r.bodyLoc) :=
    hstands.inner (List.mem_append_right _ (List.mem_singleton_self _))
  have hmem : Fragment.stmt s ∈ fragments r.body := by
    cases hb : r.body with
    | block statements =>
      rw [hb] at hs
      obtain ⟨s', hs', heq⟩ := List.mem_map.1 hs
      cases heq
      exact mem_fragments_stmts hs'
    | value e =>
      rw [hb] at hs
      cases List.mem_singleton.1 hs
  exact hbody.inner hmem

end ScriptReplay
