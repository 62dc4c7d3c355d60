/-
The height of programs.

The height of a tree is the number of nodes on its longest path from the root.  It bounds how
deep an evaluation goes between two calls.
-/
import ScriptReplay.Program.Tree

namespace ScriptReplay

mutual

/-- The height of an expression. -/
def Expr.height : Expr → Nat
  | .number _ _ | .string _ _ | .bool _ _ | .null _ | .ident _ _ | .this _ => 1
  | .template _ parts _ => Expr.listHeight parts + 1
  | .array items _ => Expr.itemsHeight items + 1
  | .object properties _ => Property.listHeight properties + 1
  | .function r _ => r.height + 1
  | .unary _ e _ => e.height + 1
  | .update _ _ t _ => t.height + 1
  | .binary _ l r _ => max l.height r.height + 1
  | .logical _ l r _ => max l.height r.height + 1
  | .assign _ t v _ => max t.height v.height + 1
  | .conditional t y n _ => max t.height (max y.height n.height) + 1
  | .call f args _ => max f.height (Expr.listHeight args) + 1
  | .new f args _ => max f.height (Expr.listHeight args) + 1
  | .member o k _ => max o.height k.height + 1
  | .await e _ => e.height + 1

/-- The height of a target. -/
def Target.height : Target → Nat
  | .name _ _ => 1
  | .member o k _ => max o.height k.height + 1

/-- The height of a property behind its object. -/
def Key.height : Key → Nat
  | .named _ => 0
  | .computed e => e.height

/-- The height of the highest of some expressions. -/
def Expr.listHeight : List Expr → Nat
  | [] => 0
  | e :: rest => max e.height (Expr.listHeight rest)

/-- The height of an expression that may be left out. -/
def Expr.optionHeight : Option Expr → Nat
  | none => 0
  | some e => e.height

/-- The height of the highest of some array items. -/
def Expr.itemsHeight : List (Option Expr) → Nat
  | [] => 0
  | item :: rest => max (Expr.optionHeight item) (Expr.itemsHeight rest)

/-- The height of a property of an object literal. -/
def Property.height : Property → Nat
  | ⟨_, value, _⟩ => value.height

/-- The height of the highest of some properties. -/
def Property.listHeight : List Property → Nat
  | [] => 0
  | p :: rest => max p.height (Property.listHeight rest)

/-- The height of the fallback of a parameter. -/
def Param.height : Param → Nat
  | ⟨_, fallback⟩ => Expr.optionHeight fallback

/-- The height of the highest of some parameters. -/
def Param.listHeight : List Param → Nat
  | [] => 0
  | p :: rest => max p.height (Param.listHeight rest)

/-- The height of the body of a function. -/
def Body.height : Body → Nat
  | .block statements => Stmt.listHeight statements
  | .value e => e.height

/-- The height of a function. -/
def Routine.height : Routine → Nat
  | ⟨_, params, body, _, _, _, _⟩ => max (Param.listHeight params) body.height + 1

/-- The height of the value of a declared variable. -/
def Declarator.height : Declarator → Nat
  | ⟨_, init, _⟩ => Expr.optionHeight init

/-- The height of the highest of some declared variables. -/
def Declarator.listHeight : List Declarator → Nat
  | [] => 0
  | d :: rest => max d.height (Declarator.listHeight rest)

/-- The height of a handler. -/
def Handler.height : Handler → Nat
  | ⟨_, body, _⟩ => Stmt.listHeight body

/-- The height of a handler that may be left out. -/
def Handler.optionHeight : Option Handler → Nat
  | none => 0
  | some h => h.height

/-- The height of a statement. -/
def Stmt.height : Stmt → Nat
  | .declare _ declarators _ => Declarator.listHeight declarators + 1
  | .function r _ => r.height + 1
  | .expr e _ => e.height + 1
  | .ret value _ => Expr.optionHeight value + 1
  | .ifElse test yes no _ => max test.height (max yes.height (Stmt.optionHeight no)) + 1
  | .forLoop init test update body _ =>
    max (max (Stmt.optionHeight init) (Expr.optionHeight test))
      (max (Expr.optionHeight update) body.height) + 1
  | .forOf _ _ iterable body _ => max iterable.height body.height + 1
  | .whileLoop test body _ => max test.height body.height + 1
  | .doWhile body test _ => max body.height test.height + 1
  | .breakOut _ | .nextRound _ | .empty _ => 1
  | .raise e _ => e.height + 1
  | .block body _ => Stmt.listHeight body + 1
  | .tryBlock body handler finalizer _ =>
    max (Stmt.listHeight body)
      (max (Handler.optionHeight handler) (Stmt.optionListHeight finalizer)) + 1

/-- The height of a statement that may be left out. -/
def Stmt.optionHeight : Option Stmt → Nat
  | none => 0
  | some s => s.height

/-- The height of the highest of some statements. -/
def Stmt.listHeight : List Stmt → Nat
  | [] => 0
  | s :: rest => max s.height (Stmt.listHeight rest)

/-- The height of the highest of some statements that may be left out. -/
def Stmt.optionListHeight : Option (List Stmt) → Nat
  | none => 0
  | some body => Stmt.listHeight body

end

theorem Expr.height_pos (e : Expr) : 0 < e.height := by
  cases e <;> simp [Expr.height]

theorem Stmt.height_pos (s : Stmt) : 0 < s.height := by
  cases s <;> simp [Stmt.height]

theorem Property.height_eq (p : Property) : p.height = p.value.height := by
  cases p
  rw [Property.height]

theorem Param.height_eq (p : Param) : p.height = Expr.optionHeight p.fallback := by
  cases p
  rw [Param.height]

theorem Declarator.height_eq (d : Declarator) : d.height = Expr.optionHeight d.init := by
  cases d
  rw [Declarator.height]

theorem Handler.height_eq (h : Handler) : h.height = Stmt.listHeight h.body := by
  cases h
  rw [Handler.height]

theorem Routine.height_eq (r : Routine) :
    r.height = max (Param.listHeight r.params) r.body.height + 1 := by
  cases r
  rw [Routine.height]

/-- The height of a program. -/
def Program.height (p : Program) : Nat :=
  Stmt.listHeight p.body

end ScriptReplay
