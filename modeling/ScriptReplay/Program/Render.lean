/-
Expressions as readable text.

Descriptions of steps show expressions again.  Operators keep their operands in order without
adding parentheses, objects and function bodies are shortened to dots.

* `Expr.text`, `Target.text` : the text of an expression and of a target.
-/
import ScriptReplay.Number.Notation
import ScriptReplay.Program.Tree

namespace ScriptReplay

/-- The texts of a template with the texts of its parts between them. -/
def weave (hole : String → String) : List String → List String → String
  | t :: ts, p :: ps => t ++ hole p ++ weave hole ts ps
  | ts, [] => String.join ts
  | [], _ => ""

/-- The head of a function. -/
def Routine.heading (r : Routine) : String :=
  let params := ", ".intercalate (r.params.map (·.name))
  if r.isArrow then "(" ++ params ++ ") => ..."
  else "function " ++ r.name.getD "" ++ "(" ++ params ++ ")"

mutual

/-- The text of an expression. -/
def Expr.text : Expr → String
  | .number x _ => numberText x
  | .string s _ => "\"" ++ s ++ "\""
  | .bool b _ => if b then "true" else "false"
  | .null _ => "null"
  | .ident n _ => n
  | .this _ => "this"
  | .template ts parts _ =>
    "`" ++ weave (fun p => "$\x7b" ++ p ++ "\x7d") ts (Expr.textList parts) ++ "`"
  | .member o k _ => o.text ++ k.text
  | .binary op l r _ => l.text ++ " " ++ op.text ++ " " ++ r.text
  | .logical op l r _ => l.text ++ " " ++ op.text ++ " " ++ r.text
  | .unary op e _ => op.text ++ e.text
  | .update op before t _ => if before then op.text ++ t.text else t.text ++ op.text
  | .call f args _ => f.text ++ "(" ++ ", ".intercalate (Expr.textList args) ++ ")"
  | .new f args _ => "new " ++ f.text ++ "(" ++ ", ".intercalate (Expr.textList args) ++ ")"
  | .assign op t v _ => t.text ++ " " ++ op.text ++ " " ++ v.text
  | .array items _ => "[" ++ ", ".intercalate (Expr.itemTexts items) ++ "]"
  | .object ps _ => if ps.isEmpty then "\x7b\x7d" else "\x7b...\x7d"
  | .conditional t y n _ => t.text ++ " ? " ++ y.text ++ " : " ++ n.text
  | .function r _ => r.heading
  | .await e _ => "await " ++ e.text

/-- The text of a target. -/
def Target.text : Target → String
  | .name n _ => n
  | .member o k _ => o.text ++ k.text

/-- The text of a property behind its object. -/
def Key.text : Key → String
  | .named n => "." ++ n
  | .computed e => "[" ++ e.text ++ "]"

/-- The texts of several expressions. -/
def Expr.textList : List Expr → List String
  | [] => []
  | e :: rest => e.text :: Expr.textList rest

/-- The text of an array item; a hole has none. -/
def Expr.itemText : Option Expr → String
  | none => ""
  | some e => e.text

/-- The texts of the items of an array. -/
def Expr.itemTexts : List (Option Expr) → List String
  | [] => []
  | item :: rest => Expr.itemText item :: Expr.itemTexts rest

end

end ScriptReplay
