/-
Trees without their places.

Two trees are the same up to their places if they are equal once every location in them is
replaced by one and the same.

* `Expr.bare`, `Target.bare`, `Stmt.bare` and their kin : trees without their places;
* `Expr.exists_target_of_bare` : what can be assigned to does not depend on places.
-/
import ScriptReplay.Program.Tree

namespace ScriptReplay

mutual

/-- An expression without its places. -/
def Expr.bare : Expr → Expr
  | .number x _ => .number x default
  | .string s _ => .string s default
  | .bool b _ => .bool b default
  | .null _ => .null default
  | .template texts parts _ => .template texts (Expr.bareList parts) default
  | .ident n _ => .ident n default
  | .this _ => .this default
  | .array items _ => .array (Expr.bareItems items) default
  | .object properties _ => .object (Property.bareList properties) default
  | .function r _ => .function r.bare default
  | .unary op e _ => .unary op e.bare default
  | .update op before t _ => .update op before t.bare default
  | .binary op l r _ => .binary op l.bare r.bare default
  | .logical op l r _ => .logical op l.bare r.bare default
  | .assign op t v _ => .assign op t.bare v.bare default
  | .conditional t y n _ => .conditional t.bare y.bare n.bare default
  | .call f args _ => .call f.bare (Expr.bareList args) default
  | .new f args _ => .new f.bare (Expr.bareList args) default
  | .member o k _ => .member o.bare k.bare default
  | .await e _ => .await e.bare default

/-- A target without its places. -/
def Target.bare : Target → Target
  | .name n _ => .name n default
  | .member o k _ => .member o.bare k.bare default

/-- The property of a member expression without its places. -/
def Key.bare : Key → Key
  | .named n => .named n
  | .computed e => .computed e.bare

/-- Expressions without their places. -/
def Expr.bareList : List Expr → List Expr
  | [] => []
  | e :: rest => e.bare :: Expr.bareList rest

/-- An expression that may be left out, without its places. -/
def Expr.bareOption : Option Expr → Option Expr
  | none => none
  | some e => some e.bare

/-- The items of an array without their places. -/
def Expr.bareItems : List (Option Expr) → List (Option Expr)
  | [] => []
  | item :: rest => Expr.bareOption item :: Expr.bareItems rest

/-- A property of an object literal without its places. -/
def Property.bare : Property → Property
  | ⟨key, value, _⟩ => ⟨key, value.bare, default⟩

/-- Properties without their places. -/
def Property.bareList : List Property → List Property
  | [] => []
  | p :: rest => p.bare :: Property.bareList rest

/-- A parameter without its places. -/
def Param.bare : Param → Param
  | ⟨name, fallback⟩ => ⟨name, Expr.bareOption fallback⟩

/-- Parameters without their places. -/
def Param.bareList : List Param → List Param
  | [] => []
  | p :: rest => p.bare :: Param.bareList rest

/-- The body of a function without its places. -/
def Body.bare : Body → Body
  | .block statements => .block (Stmt.bareList statements)
  | .value e => .value e.bare

/-- A function without its places. -/
def Routine.bare : Routine → Routine
  | ⟨name, params, body, isArrow, isAsync, _, _⟩ =>
    ⟨name, Param.bareList params, body.bare, isArrow, isAsync, default, default⟩

/-- A declared variable without its places. -/
def Declarator.bare : Declarator → Declarator
  | ⟨name, init, _⟩ => ⟨name, Expr.bareOption init, default⟩

/-- Declared variables without their places. -/
def Declarator.bareList : List Declarator → List Declarator
  | [] => []
  | d :: rest => d.bare :: Declarator.bareList rest

/-- A handler without its places. -/
def Handler.bare : Handler → Handler
  | ⟨param, body, _⟩ => ⟨param, Stmt.bareList body, default⟩

/-- A handler that may be left out, without its places. -/
def Handler.bareOption : Option Handler → Option Handler
  | none => none
  | some h => some h.bare

/-- A statement without its places. -/
def Stmt.bare : Stmt → Stmt
  | .declare kind declarators _ => .declare kind (Declarator.bareList declarators) default
  | .function r _ => .function r.bare default
  | .expr e _ => .expr e.bare default
  | .ret value _ => .ret (Expr.bareOption value) default
  | .ifElse test yes no _ => .ifElse test.bare yes.bare (Stmt.bareOption no) default
  | .forLoop init test update body _ =>
    .forLoop (Stmt.bareOption init) (Expr.bareOption test)
      (Expr.bareOption update) body.bare default
  | .forOf kind name iterable body _ => .forOf kind name iterable.bare body.bare default
  | .whileLoop test body _ => .whileLoop test.bare body.bare default
  | .doWhile body test _ => .doWhile body.bare test.bare default
  | .breakOut _ => .breakOut default
  | .nextRound _ => .nextRound default
  | .raise e _ => .raise e.bare default
  | .block body _ => .block (Stmt.bareList body) default
  | .tryBlock body handler finalizer _ =>
    .tryBlock (Stmt.bareList body) (Handler.bareOption handler)
      (Stmt.bareOptionList finalizer) default
  | .empty _ => .empty default

/-- A statement that may be left out, without its places. -/
def Stmt.bareOption : Option Stmt → Option Stmt
  | none => none
  | some s => some s.bare

/-- Statements without their places. -/
def Stmt.bareList : List Stmt → List Stmt
  | [] => []
  | s :: rest => s.bare :: Stmt.bareList rest

/-- Statements that may be left out, without their places. -/
def Stmt.bareOptionList : Option (List Stmt) → Option (List Stmt)
  | none => none
  | some body => some (Stmt.bareList body)

end

/-- An expression that is a target up to its places can be assigned to. -/
theorem Expr.exists_target_of_bare {e : Expr} {t : Target} (h : e.bare = t.toExpr.bare) :
    ∃ t', e.target? = some t' ∧ t'.bare = t.bare := by
  cases t with
  | name n l =>
    cases e with
    | ident n' l' =>
      simp only [Target.toExpr, Expr.bare, Expr.ident.injEq, and_true] at h
      exact ⟨.name n' l', rfl, by simp only [Target.bare, h]⟩
    | _ => simp [Target.toExpr, Expr.bare] at h
  | member o k l =>
    cases e with
    | member o' k' l' =>
      simp only [Target.toExpr, Expr.bare, Expr.member.injEq, and_true] at h
      exact ⟨.member o' k' l', rfl, by simp only [Target.bare, h]⟩
    | _ => simp [Target.toExpr, Expr.bare] at h

end ScriptReplay
