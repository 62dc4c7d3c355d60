/-
Where the fragments of a program stand.

* `Fragment` : what has a location: programs, statements, expressions, functions and their
  bodies, declarators, properties and handlers;
* `Fragment.inner` : the fragments directly inside a fragment;
* `Fragment.Encloses` : a fragment inside another one at any depth;
* `Fragment.Shaped` : what a fragment must be like besides;
* `Fragment.Placed` : a fragment that stands in a text with all that is inside it at
  any depth, and each fragment inside the stretch of the one around it and apart from
  those beside it;
* `Row`, `Lie` : fragments that are placed one after another between two offsets, and trees
  with such fragments.

Design notes: a parser gives trees of many types, from lists of parameters to single keys.
`Fragments` names the outermost fragments of each, so what a parser answers is described in
one way for all of them.
-/
import Mathlib.Logic.Relation
import ScriptReplay.Program.Tree
import ScriptReplay.Proofs.Source.Places

namespace ScriptReplay

/-! ### Fragments -/

/-- A fragment of a program that has a location.  The program is the outermost one. -/
inductive Fragment where
  | program (p : Program)
  | expr (e : Expr)
  | stmt (s : Stmt)
  | routine (r : Routine)
  | body (b : Body) (loc : Location)
  | declarator (d : Declarator)
  | property (p : Property)
  | handler (h : Handler)

/-- Where a fragment stands. -/
def Fragment.loc : Fragment → Location
  | program p => p.loc
  | expr e => e.loc
  | stmt s => s.loc
  | routine r => r.loc
  | body _ l => l
  | declarator d => d.loc
  | property p => p.loc
  | handler h => h.loc

/-- Trees, and the outermost fragments in them. -/
class Fragments (α : Type) where
  fragments : α → List Fragment

export Fragments (fragments)

variable {α : Type}

instance : Fragments Expr := ⟨fun e => [.expr e]⟩
instance : Fragments Stmt := ⟨fun s => [.stmt s]⟩
instance : Fragments Routine := ⟨fun r => [.routine r]⟩
instance : Fragments Declarator := ⟨fun d => [.declarator d]⟩
instance : Fragments Property := ⟨fun p => [.property p]⟩
instance : Fragments Handler := ⟨fun h => [.handler h]⟩

instance [Fragments α] : Fragments (List α) := ⟨fun as => as.flatMap fragments⟩

instance [Fragments α] : Fragments (Option α) where
  fragments
    | none => []
    | some a => fragments a

instance : Fragments Param := ⟨fun p => fragments p.fallback⟩

/-- A target is the expression that it was read as. -/
instance : Fragments Target := ⟨fun t => [.expr t.toExpr]⟩

instance : Fragments Key where
  fragments
    | .named _ => []
    | .computed e => fragments e

instance : Fragments Body where
  fragments
    | .block statements => fragments statements
    | .value e => fragments e

/-- The fragments directly inside an expression. -/
def Expr.inner : Expr → List Fragment
  | .number _ _ | .string _ _ | .bool _ _ | .null _ | .ident _ _ | .this _ => []
  | .template _ parts _ => fragments parts
  | .array items _ => fragments items
  | .object properties _ => fragments properties
  | .function r _ => fragments r
  | .unary _ e _ | .await e _ => fragments e
  | .update _ _ target _ => fragments target
  | .binary _ left right _ | .logical _ left right _ => fragments left ++ fragments right
  | .assign _ target value _ => fragments target ++ fragments value
  | .conditional test yes no _ => fragments test ++ (fragments yes ++ fragments no)
  | .call callee arguments _ | .new callee arguments _ =>
    fragments callee ++ fragments arguments
  | .member base key _ => fragments base ++ fragments key

/-- The fragments directly inside a statement, in the order of the text. -/
def Stmt.inner : Stmt → List Fragment
  | .declare _ declarators _ => fragments declarators
  | .function r _ => fragments r
  | .expr e _ | .raise e _ => fragments e
  | .ret value _ => fragments value
  | .ifElse test yes no _ => fragments test ++ (fragments yes ++ fragments no)
  | .forLoop init test update body _ =>
    fragments init ++ (fragments test ++ (fragments update ++ fragments body))
  | .forOf _ _ iterable body _ => fragments iterable ++ fragments body
  | .whileLoop test body _ => fragments test ++ fragments body
  | .doWhile body test _ => fragments body ++ fragments test
  | .breakOut _ | .nextRound _ | .empty _ => []
  | .block body _ => fragments body
  | .tryBlock body handler finalizer _ =>
    fragments body ++ (fragments handler ++ fragments finalizer)

/-- The fragments directly inside a fragment. -/
def Fragment.inner : Fragment → List Fragment
  | program p => fragments p.body
  | expr e => e.inner
  | stmt s => s.inner
  | routine r => fragments r.params ++ [.body r.body r.bodyLoc]
  | body b _ => fragments b
  | declarator d => fragments d.init
  | property p => fragments p.value
  | handler h => fragments h.body

/-- The second fragment is the first one or inside it, at any depth. -/
def Fragment.Encloses : Fragment → Fragment → Prop :=
  Relation.ReflTransGen fun outer n => n ∈ outer.inner

/-! ### Placed fragments -/

/-- The first stretch is inside the second. -/
structure Location.Inside (l outer : Location) : Prop where
  start_le : outer.start ≤ l.start
  stop_le : l.stop ≤ outer.stop

/-- The first fragment ends before the second begins. -/
def Fragment.Before (n n' : Fragment) : Prop :=
  n.loc.stop ≤ n'.loc.start

/-- Whether a statement can be what a counting loop does first. -/
def Stmt.canBegin : Stmt → Bool
  | .declare _ _ _ | .expr _ _ => true
  | _ => false

/-- What a counting loop does first declares variables or is an expression, and leaving a loop
takes a word. -/
def Fragment.Shaped : Fragment → Prop
  | .stmt (.forLoop (some init) _ _ _ _) => init.canBegin = true
  | .stmt (.breakOut loc) => loc.start < loc.stop
  | _ => True

/-- A fragment that stands in a text, with all the fragments inside it in their places, one
after another. -/
inductive Fragment.Placed (text : List Char) : Fragment → Prop
  | mk {n : Fragment} (loc : n.loc.Fits text) (inside : ∀ n' ∈ n.inner, n'.loc.Inside n.loc)
    (inner : ∀ n' ∈ n.inner, n'.Placed text) (apart : n.inner.Pairwise Before)
      (shaped : n.Shaped) : n.Placed text

variable {text : List Char}

theorem Fragment.Placed.loc {n : Fragment} (h : n.Placed text) : n.loc.Fits text := by
  cases h with
  | mk hloc _ _ _ _ => exact hloc

theorem Fragment.Placed.inside {n n' : Fragment} (h : n.Placed text) (hn' : n' ∈ n.inner) :
    n'.loc.Inside n.loc := by
  cases h with
  | mk _ hinside _ _ _ => exact hinside n' hn'

theorem Fragment.Placed.inner {n n' : Fragment} (h : n.Placed text) (hn' : n' ∈ n.inner) :
    n'.Placed text := by
  cases h with
  | mk _ _ hinner _ _ => exact hinner n' hn'

theorem Fragment.Placed.apart {n : Fragment} (h : n.Placed text) :
    n.inner.Pairwise Before := by
  cases h with
  | mk _ _ _ hapart _ => exact hapart

theorem Fragment.Placed.shaped {n : Fragment} (h : n.Placed text) : n.Shaped := by
  cases h with
  | mk _ _ _ _ hshaped => exact hshaped

/-- What is placed is so at every depth. -/
theorem Fragment.Placed.of_encloses {n n' : Fragment} (h : n.Placed text)
    (henc : n.Encloses n') : n'.Placed text := by
  induction henc with
  | refl => exact h
  | tail _ hmem ih => exact ih.inner hmem

/-- A fragment that is placed between two offsets. -/
structure Fragment.Lies (n : Fragment) (text : List Char) (lo hi : Nat) : Prop where
  placed : n.Placed text
  lo_le : lo ≤ n.loc.start
  le_hi : n.loc.stop ≤ hi

/-- Fragments that are placed one after another between two offsets. -/
structure Row (text : List Char) (lo hi : Nat) (ns : List Fragment) : Prop where
  lies : ∀ n ∈ ns, n.Lies text lo hi
  apart : ns.Pairwise Fragment.Before

/-- A tree whose fragments are placed one after another between two offsets. -/
def Lie (text : List Char) (lo hi : Nat) [Fragments α] (a : α) : Prop :=
  Row text lo hi (fragments a)

variable {lo hi lo' hi' : Nat} [Fragments α]

theorem Fragment.Lies.mono {n : Fragment} (h : n.Lies text lo hi) (hlo : lo' ≤ lo)
    (hhi : hi ≤ hi') : n.Lies text lo' hi' :=
  ⟨h.placed, Nat.le_trans hlo h.lo_le, Nat.le_trans h.le_hi hhi⟩

theorem row_nil : Row text lo hi [] :=
  ⟨fun _ hn => absurd hn List.not_mem_nil, .nil⟩

theorem row_singleton {n : Fragment} : Row text lo hi [n] ↔ n.Lies text lo hi :=
  ⟨fun h => h.lies n List.mem_cons_self, fun h =>
    ⟨List.forall_mem_singleton.2 h, List.pairwise_singleton _ _⟩⟩

theorem Row.mono {ns : List Fragment} (h : Row text lo hi ns) (hlo : lo' ≤ lo)
    (hhi : hi ≤ hi') : Row text lo' hi' ns :=
  ⟨fun n hn => (h.lies n hn).mono hlo hhi, h.apart⟩

/-- Fragments that are placed up to one offset, and others from a later one on. -/
theorem Row.append {mid mid' : Nat} {ns ns' : List Fragment} (h : Row text lo mid ns)
    (h' : Row text mid' hi ns') (hle : mid ≤ mid') (hlo : lo ≤ mid') (hhi : mid ≤ hi) :
    Row text lo hi (ns ++ ns') := by
  refine ⟨List.forall_mem_append.2 ⟨fun n hn => ?_, fun n hn => ?_⟩,
    List.pairwise_append.2 ⟨h.apart, h'.apart, fun n hn n' hn' => ?_⟩⟩
  · exact (h.lies n hn).mono (Nat.le_refl _) hhi
  · exact (h'.lies n hn).mono hlo (Nat.le_refl _)
  · exact Nat.le_trans (h.lies n hn).le_hi (Nat.le_trans hle (h'.lies n' hn').lo_le)

theorem Lie.mono {a : α} (h : Lie text lo hi a) (hlo : lo' ≤ lo) (hhi : hi ≤ hi') :
    Lie text lo' hi' a :=
  Row.mono h hlo hhi

theorem lie_nil : Lie text lo hi ([] : List α) :=
  row_nil

theorem Lie.singleton {a : α} (h : Lie text lo hi a) : Lie text lo hi [a] := by
  have hone : Row text lo hi (fragments a ++ []) := by rwa [List.append_nil]
  exact hone

theorem lie_none : Lie text lo hi (none : Option α) :=
  row_nil

theorem lie_some {a : α} : Lie text lo hi (some a) ↔ Lie text lo hi a :=
  Iff.rfl

/-- A fragment is placed if its location is right and all that is inside it is
placed there. -/
theorem Fragment.lies_of_inner {n : Fragment} (hloc : n.loc.Fits text)
    (hlo : lo ≤ n.loc.start) (hhi : n.loc.stop ≤ hi)
    (hinner : Row text n.loc.start n.loc.stop n.inner) (hshaped : n.Shaped) :
    n.Lies text lo hi := by
  refine ⟨.mk hloc (fun n' hn' => ?_)
    (fun n' hn' => (hinner.lies n' hn').placed) hinner.apart hshaped, hlo, hhi⟩
  exact ⟨(hinner.lies n' hn').lo_le, (hinner.lies n' hn').le_hi⟩

theorem lie_iff_of_fragments {a : α} {n : Fragment} (ha : fragments a = [n]) :
    Lie text lo hi a ↔ n.Lies text lo hi := by
  unfold Lie
  rw [ha]
  exact row_singleton

theorem Expr.lie_iff {e : Expr} : Lie text lo hi e ↔ (Fragment.expr e).Lies text lo hi :=
  lie_iff_of_fragments rfl

theorem Stmt.lie_iff {s : Stmt} : Lie text lo hi s ↔ (Fragment.stmt s).Lies text lo hi :=
  lie_iff_of_fragments rfl

/-- An expression is placed if its location is right and all that is inside it is
placed there. -/
theorem Expr.lie_of_inner {e : Expr} (hloc : e.loc.Fits text) (hlo : lo ≤ e.loc.start)
    (hhi : e.loc.stop ≤ hi) (hinner : Row text e.loc.start e.loc.stop e.inner) :
    Lie text lo hi e :=
  Expr.lie_iff.2 (Fragment.lies_of_inner hloc hlo hhi hinner trivial)

theorem Stmt.lie_of_inner {s : Stmt} (hloc : s.loc.Fits text) (hlo : lo ≤ s.loc.start)
    (hhi : s.loc.stop ≤ hi) (hinner : Row text s.loc.start s.loc.stop s.inner)
    (hshaped : (Fragment.stmt s).Shaped) : Lie text lo hi s :=
  Stmt.lie_iff.2 (Fragment.lies_of_inner hloc hlo hhi hinner hshaped)

/-- A function is placed if its location is right, its parameters are placed in it before its
body, and what is inside the body is placed there. -/
theorem Routine.lie_of_inner {mid : Nat} {f : Routine} (hloc : f.loc.Fits text)
    (hlo : lo ≤ f.loc.start) (hhi : f.loc.stop ≤ hi)
    (hparams : Lie text f.loc.start mid f.params) (hmid : mid ≤ f.bodyLoc.start)
    (hbody : f.bodyLoc.Fits text) (hinside : f.bodyLoc.Inside f.loc)
    (hinner : Lie text f.bodyLoc.start f.bodyLoc.stop f.body) : Lie text lo hi f := by
  have hlies : (Fragment.body f.body f.bodyLoc).Lies text f.bodyLoc.start f.loc.stop :=
    Fragment.lies_of_inner hbody (Nat.le_refl _) hinside.stop_le hinner trivial
  have hstop := Nat.le_trans hmid (Nat.le_trans hbody.start_le hinside.stop_le)
  refine (lie_iff_of_fragments (n := .routine f) rfl).2
    (Fragment.lies_of_inner hloc hlo hhi ?_ trivial)
  exact Row.append hparams (row_singleton.2 hlies) hmid hinside.start_le hstop

/-- The location of a placed expression. -/
theorem Lie.expr {e : Expr} (h : Lie text lo hi e) :
    e.loc.Fits text ∧ lo ≤ e.loc.start ∧ e.loc.stop ≤ hi := by
  have hlies := Expr.lie_iff.1 h
  exact ⟨hlies.placed.loc, hlies.lo_le, hlies.le_hi⟩

end ScriptReplay
