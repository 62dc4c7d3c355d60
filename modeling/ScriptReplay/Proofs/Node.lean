/-
The nodes of a program.

Evaluation goes from a node of a tree to its parts.  A set of nodes that holds the parts of
each of its members is a region: evaluation never leaves it, so what holds of all nodes of a
region holds of all that an evaluation meets.

* `Node.parts` : the nodes directly inside a node;
* `Region` : sets of nodes closed under taking parts;
* `Ground` : nodes of a region that can be evaluated without calling anything of which
  less is known;
* `Program.region` : all nodes of a program.
-/
import Mathlib.Logic.Relation
import ScriptReplay.Program.Tree
import ScriptReplay.Text.Units

namespace ScriptReplay

/-- An expression, a statement or a function of a program. -/
inductive Node where
  | expr (e : Expr)
  | stmt (s : Stmt)
  | routine (r : Routine)

/-! ### Parts -/

/-- The nodes inside the name of a property. -/
def Key.parts : Key → List Node
  | .named _ => []
  | .computed e => [.expr e]

/-- The nodes inside a target. -/
def Target.parts : Target → List Node
  | .name _ _ => []
  | .member base key _ => .expr base :: key.parts

/-- The nodes inside an expression. -/
def Expr.parts : Expr → List Node
  | .number _ _ | .string _ _ | .bool _ _ | .null _ | .ident _ _ | .this _ => []
  | .template _ parts _ => parts.map .expr
  | .array items _ => (items.filterMap id).map .expr
  | .object properties _ => properties.map fun p => .expr p.value
  | .function r _ => [.routine r]
  | .unary _ e _ | .await e _ => [.expr e]
  | .update _ _ target _ => target.parts
  | .binary _ left right _ | .logical _ left right _ => [.expr left, .expr right]
  | .assign _ target value _ => .expr value :: target.parts
  | .conditional test yes no _ => [.expr test, .expr yes, .expr no]
  | .call callee arguments _ | .new callee arguments _ => .expr callee :: arguments.map .expr
  | .member base key _ => .expr base :: key.parts

/-- The nodes inside the body of a function. -/
def Body.parts : Body → List Node
  | .block statements => statements.map .stmt
  | .value e => [.expr e]

/-- The nodes inside a function: its fallbacks and its body. -/
def Routine.parts (r : Routine) : List Node :=
  (r.params.filterMap (·.fallback)).map .expr ++ r.body.parts

/-- The nodes inside a statement. -/
def Stmt.parts : Stmt → List Node
  | .declare _ declarators _ => (declarators.filterMap (·.init)).map .expr
  | .function r _ => [.routine r]
  | .expr e _ | .raise e _ => [.expr e]
  | .ret value _ => value.toList.map .expr
  | .ifElse test yes no _ => .expr test :: .stmt yes :: no.toList.map .stmt
  | .forLoop init test update body _ =>
    .stmt body :: init.toList.map .stmt ++ (test.toList ++ update.toList).map .expr
  | .forOf _ _ iterable body _ => [.expr iterable, .stmt body]
  | .whileLoop test body _ | .doWhile body test _ => [.expr test, .stmt body]
  | .breakOut _ | .nextRound _ | .empty _ => []
  | .block body _ => body.map .stmt
  | .tryBlock body handler finalizer _ =>
    (body ++ (handler.toList.flatMap (·.body) ++ finalizer.toList.flatten)).map .stmt

/-- The nodes directly inside a node. -/
def Node.parts : Node → List Node
  | .expr e => e.parts
  | .stmt s => s.parts
  | .routine r => r.parts

section

variable {n : Node} {l : Location}

theorem Expr.mem_parts_array {items : List (Option Expr)} :
    n ∈ (Expr.array items l).parts ↔ ∃ e, some e ∈ items ∧ n = .expr e := by
  simp [Expr.parts, eq_comm]

theorem Stmt.mem_parts_declare {kind : DeclKind} {ds : List Declarator} :
    n ∈ (Stmt.declare kind ds l).parts ↔ ∃ d ∈ ds, ∃ e, d.init = some e ∧ n = .expr e := by
  simp only [Stmt.parts, List.mem_map, List.mem_filterMap]
  constructor
  · rintro ⟨e, ⟨d, hd, he⟩, rfl⟩
    exact ⟨d, hd, e, he, rfl⟩
  · rintro ⟨d, hd, e, he, rfl⟩
    exact ⟨e, ⟨d, hd, he⟩, rfl⟩

theorem Stmt.mem_parts_tryBlock {body : List Stmt} {handler : Option Handler}
    {finalizer : Option (List Stmt)} :
    n ∈ (Stmt.tryBlock body handler finalizer l).parts ↔ ∃ s, n = .stmt s ∧
      (s ∈ body ∨ (∃ c, handler = some c ∧ s ∈ c.body) ∨ ∃ last,
        finalizer = some last ∧ s ∈ last) := by
  simp only [Stmt.parts, List.mem_map, List.mem_append, List.mem_flatMap,
    List.mem_flatten, Option.mem_toList]
  exact exists_congr fun s => and_comm.trans (and_congr_left' eq_comm)

theorem Routine.mem_parts {r : Routine} :
    n ∈ r.parts ↔ (∃ p ∈ r.params, ∃ e, p.fallback = some e ∧ n = .expr e) ∨
      n ∈ r.body.parts := by
  simp only [Routine.parts, List.mem_append, List.mem_map, List.mem_filterMap]
  refine or_congr_left ⟨?_, ?_⟩
  · rintro ⟨e, ⟨p, hp, he⟩, rfl⟩
    exact ⟨p, hp, e, he, rfl⟩
  · rintro ⟨p, hp, e, he, rfl⟩
    exact ⟨e, ⟨p, hp, he⟩, rfl⟩

end

theorem Routine.mem_parts_of_fallback {r : Routine} {p : Param} {e : Expr} (hp : p ∈ r.params)
    (he : p.fallback = some e) : .expr e ∈ r.parts :=
  Routine.mem_parts.2 (.inl ⟨p, hp, e, he, rfl⟩)

/-- No statement stands directly inside an expression. -/
theorem Expr.parts_ne_stmt {e : Expr} {s : Stmt} : .stmt s ∉ e.parts := by
  have hkey : ∀ key : Key, Node.stmt s ∉ key.parts := by
    intro key
    cases key <;> simp [Key.parts]
  have htarget : ∀ target : Target, Node.stmt s ∉ target.parts := by
    intro target
    cases target <;> simp [Target.parts, hkey]
  cases e <;> simp [Expr.parts, hkey, htarget]

/-- Where a node stands; a function stands where its expression or statement does. -/
def Node.loc? : Node → Option Location
  | .expr e => some e.loc
  | .stmt s => some s.loc
  | .routine _ => none

/-! ### Regions -/

/-- The functions of the language that make an array of all that a value has of its own,
however much that is. -/
def listsEntries (name : String) : Bool :=
  ["Object.keys", "Object.values", "Object.entries"].contains name

/-- The functions of the language that make texts of any length. -/
def writesFreely (name : String) : Bool :=
  ["String", "Object.keys", "Object.entries"].contains name

/-- The methods of texts that exchange letters for others, and perhaps one letter
for several. -/
def mapsLetters (method : String) : Bool :=
  ["toUpperCase", "toLowerCase"].contains method

/-- The name that is written for a property. -/
def Key.words : Key → List String
  | .named name => [name]
  | .computed _ => []

/-- The name that is written for a target. -/
def Target.words : Target → List String
  | .name word _ => [word]
  | .member _ key _ => key.words

/-- The texts and names that are written in a node itself. -/
def Node.words : Node → List String
  | .expr (.string s _) => [s]
  | .expr (.template texts _ _) => texts
  | .expr (.ident name _) => [name]
  | .expr (.object properties _) => properties.map (·.key)
  | .expr (.update _ _ target _) | .expr (.assign _ target _ _) => target.words
  | .expr (.member _ key _) => key.words
  | .stmt (.declare _ declarators _) => declarators.map (·.name)
  | .stmt (.forOf _ name _ _ _) => [name]
  | .stmt (.tryBlock _ handler _ _) => handler.toList.filterMap (·.param)
  | .routine r => r.name.toList ++ r.params.map (·.name)
  | _ => []

/-- The name whose value an expression reads, if it is no more than a name or counts one or
gives it a new value. -/
def Expr.readName? : Expr → Option String
  | .ident name _ | .update _ _ (.name name _) _ | .assign _ (.name name _) _ _ => some name
  | _ => none

/-- Nodes that can make a text of any length, whatever the ceiling is: the functions of the
language that write freely, letters exchanged for others by a method, perhaps one with a
computed name, and a computed name for a function. -/
def Node.writesFreely : Node → Bool
  | .expr (.call (.member _ (.named method) _) _ _) => mapsLetters method
  | .expr (.call (.member _ (.computed _) _) _ _) => true
  | .expr (.assign _ (.member _ (.computed _) _) value _) => value.routine?.isSome
  | .expr e =>
    e.readName? == some "String" ||
      e.staticMember?.any fun (owner, member) =>
        ScriptReplay.writesFreely (owner ++ "." ++ member)
  | _ => false

/-- A member of the language that writes freely is a node that does. -/
theorem Expr.writesFreely_of_staticMember? {e : Expr} {owner member : String}
    (hs : e.staticMember? = some (owner, member))
    (h : ScriptReplay.writesFreely (owner ++ "." ++ member) = true) :
    (Node.expr e).writesFreely = true := by
  cases e with
  | member base key loc =>
    simp [Node.writesFreely, hs, h]
  | _ => cases hs

theorem Expr.writesFreely_of_readName? {e : Expr} (h : e.readName? = some "String") :
    (Node.expr e).writesFreely = true := by
  cases e with
  | ident name loc =>
    cases h
    rfl
  | update op before target loc =>
    cases target with
    | name name l =>
      cases h
      rfl
    | member base key l => cases h
  | assign op target value loc =>
    cases target with
    | name name l =>
      cases h
      rfl
    | member base key l => cases h
  | _ => cases h

/-- A set of nodes that holds the parts of each of its members.  It may say how long arrays
are in runs through it: then no array literal is longer, and no array is made of all that a
value has.  It may say how long texts are: then no text or name of the program is longer, and
no text is made without asking. -/
structure Region where
  has : Node → Prop
  part : ∀ {n n' : Node}, has n → n' ∈ n.parts → has n'
  fits : Nat → Prop := fun _ => True
  fits_le : ∀ {length length' : Nat}, length ≤ length' → fits length' → fits length := by
    intros; trivial
  literal : ∀ {items : List (Option Expr)} {loc : Location}, has (.expr (.array items loc)) →
    fits items.length := by intros; trivial
  lists : ∀ {e : Expr} {owner member : String}, has (.expr e) →
    e.staticMember? = some (owner, member) →
    listsEntries (owner ++ "." ++ member) = true → ∀ length, fits length := by intros; trivial
  spans : Nat → Prop := fun _ => True
  spans_le : ∀ {length length' : Nat}, length ≤ length' → spans length' → spans length := by
    intros; trivial
  spans_short : spans 64 := by trivial
  word : ∀ {n : Node} {t : String}, has n → t ∈ n.words → spans (unitCount t) := by
    intros; trivial
  free : ∀ {n : Node}, has n → n.writesFreely = true → ∀ length, spans length := by
    intros; trivial

namespace Region

/-- All nodes there are. -/
def all : Region where
  has _ := True
  part _ _ := trivial

/-- A place where a node of the region stands. -/
def Place (N : Region) (loc : Location) : Prop :=
  ∃ n, N.has n ∧ n.loc? = some loc

/-- No function of the region has a fallback for a parameter. -/
def NoFallbacks (N : Region) : Prop :=
  ∀ r, N.has (.routine r) → ∀ p ∈ r.params, p.fallback = none

theorem all_fallbacks : ¬ all.NoFallbacks := by
  intro h
  have hnone := h
    ⟨none, [⟨"", some (.null default)⟩], .block [], false, false, default, default⟩ trivial _
    List.mem_cons_self
  cases hnone

theorem place_expr {N : Region} {e : Expr} (h : N.has (.expr e)) : N.Place e.loc :=
  ⟨.expr e, h, rfl⟩

theorem place_stmt {N : Region} {s : Stmt} (h : N.has (.stmt s)) : N.Place s.loc :=
  ⟨.stmt s, h, rfl⟩

end Region

/-- Nodes of a region with the parts of each expression and statement among them.  Of a
function only the node itself has to be there: it is made where it stands, and its body is
evaluated in calls. -/
structure Ground (N : Region) where
  has : Node → Prop
  region : ∀ {n : Node}, has n → N.has n
  exprPart : ∀ {e : Expr} {n : Node}, has (.expr e) → n ∈ e.parts → has n
  stmtPart : ∀ {s : Stmt} {n : Node}, has (.stmt s) → n ∈ s.parts → has n

/-- All nodes of a region. -/
def Region.ground (N : Region) : Ground N where
  has := N.has
  region h := h
  exprPart h hn := N.part h hn
  stmtPart h hn := N.part h hn

/-- The nodes of a program: its statements and, through any number of steps, their parts. -/
def Program.region (p : Program) : Region where
  has n := ∃ s ∈ p.body, Relation.ReflTransGen (fun a b => b ∈ a.parts) (.stmt s) n
  part := by
    rintro n n' ⟨s, hs, hn⟩ hp
    exact ⟨s, hs, hn.tail hp⟩

theorem Program.region_part {p : Program} {n n' : Node} (hn : p.region.has n)
    (hn' : n' ∈ n.parts) : p.region.has n' :=
  p.region.part hn hn'

/-- What holds of the statements of a program, and of the parts of all nodes of which it
holds, holds of all its nodes. -/
theorem Program.region_induction {p : Program} {P : Node → Prop}
    (hbody : ∀ s ∈ p.body, P (.stmt s)) (hpart : ∀ n n', P n → n' ∈ n.parts → P n') {n : Node}
    (h : p.region.has n) : P n := by
  obtain ⟨s, hs, hpath⟩ := h
  induction hpath with
  | refl => exact hbody s hs
  | tail _ hn ih => exact hpart _ _ ih hn

/-- Whether a node and all nodes inside it pass a check.  The node is at most `depth`
levels deep. -/
def Node.passes (check : Node → Bool) : Nat → Node → Bool
  | 0, _ => false
  | depth + 1, n => check n && n.parts.all (passes check depth)

/-- What all statements of a program pass, with all that is inside them, all its
nodes pass. -/
theorem Program.region_passes {p : Program} (check : Node → Bool) (depth : Nat)
    (h : ∀ s ∈ p.body, (Node.stmt s).passes check depth = true) {n : Node}
    (hn : p.region.has n) : check n = true := by
  obtain ⟨s, hs, hpath⟩ := hn
  -- The nodes on the path pass with one level less at each step.
  suffices hstep : ∀ n', Relation.ReflTransGen (fun a b => b ∈ Node.parts a) n' n →
      ∀ depth, n'.passes check depth = true → check n = true from
    hstep _ hpath depth (h s hs)
  intro n' hpath'
  induction hpath' using Relation.ReflTransGen.head_induction_on with
  | refl =>
    intro depth hpass
    cases depth with
    | zero => cases hpass
    | succ depth => exact ((Bool.and_eq_true _ _).mp hpass).1
  | head hpart _ ih =>
    intro depth hpass
    cases depth with
    | zero => cases hpass
    | succ depth =>
      exact ih depth (List.all_eq_true.1 ((Bool.and_eq_true _ _).mp hpass).2 _ hpart)

/-- Whether the parameters of a function pass a check. -/
def Node.paramsPass (check : Param → Bool) : Node → Bool
  | .routine r => r.params.all check
  | _ => true

theorem Program.params_pass {p : Program} (check : Param → Bool) (depth : Nat)
    (h : ∀ s ∈ p.body, (Node.stmt s).passes (Node.paramsPass check) depth = true)
    {r : Routine} (hr : p.region.has (.routine r)) : ∀ q ∈ r.params, check q = true :=
  List.all_eq_true.1 (p.region_passes (Node.paramsPass check) depth h hr)

theorem Program.region_stmt {p : Program} {s : Stmt} (hs : s ∈ p.body) :
    p.region.has (.stmt s) :=
  ⟨s, hs, .refl⟩

end ScriptReplay
