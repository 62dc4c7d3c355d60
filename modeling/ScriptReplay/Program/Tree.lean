/-
Programs as trees.

Every statement and every expression carries the location of its own text.  What can stand on
the left of an assignment is a type of its own, so no tree assigns to anything else.

* `Expr`, `Target`, `Routine`, `Stmt`, `Program` : the trees;
* `Expr.loc`, `Stmt.loc` : where a node stands;
* `Expr.target?`, `Target.toExpr` : assignable expressions and back;
* `Expr.staticMember?` : expressions of the form `a.b`.
-/
import ScriptReplay.Program.Operator
import ScriptReplay.Source

namespace ScriptReplay

/-! ### The trees -/

mutual

/-- Expressions. -/
inductive Expr where
  | number (value : Float) (loc : Location)
  | string (value : String) (loc : Location)
  | bool (value : Bool) (loc : Location)
  | null (loc : Location)
  | template (texts : List String) (parts : List Expr) (loc : Location)
  | ident (name : String) (loc : Location)
  | this (loc : Location)
  | array (items : List (Option Expr)) (loc : Location)
  | object (properties : List Property) (loc : Location)
  | function (routine : Routine) (loc : Location)
  | unary (op : UnaryOp) (operand : Expr) (loc : Location)
  | update (op : UpdateOp) (before : Bool) (target : Target) (loc : Location)
  | binary (op : BinaryOp) (left right : Expr) (loc : Location)
  | logical (op : LogicalOp) (left right : Expr) (loc : Location)
  | assign (op : AssignOp) (target : Target) (value : Expr) (loc : Location)
  | conditional (test yes no : Expr) (loc : Location)
  | call (callee : Expr) (arguments : List Expr) (loc : Location)
  | new (callee : Expr) (arguments : List Expr) (loc : Location)
  | member (object : Expr) (key : Key) (loc : Location)
  | await (operand : Expr) (loc : Location)

/-- What can be assigned to. -/
inductive Target where
  | name (name : String) (loc : Location)
  | member (object : Expr) (key : Key) (loc : Location)

/-- The property of a member expression: a name after a point, or a computed one
in brackets. -/
inductive Key where
  | named (name : String)
  | computed (index : Expr)

/-- A property of an object literal. -/
structure Property where
  key : String
  value : Expr
  loc : Location

/-- A parameter and the expression that stands in for a missing argument. -/
structure Param where
  name : String
  fallback : Option Expr

/-- The body of a function: a block, or the one expression of a short arrow function. -/
inductive Body where
  | block (statements : List Stmt)
  | value (expr : Expr)

/-- A function as written. -/
structure Routine where
  name : Option String
  params : List Param
  body : Body
  isArrow : Bool
  isAsync : Bool
  loc : Location
  bodyLoc : Location

/-- One variable of a declaration. -/
structure Declarator where
  name : String
  init : Option Expr
  loc : Location

/-- The part of a `try` statement that would take over an error. -/
structure Handler where
  param : Option String
  body : List Stmt
  loc : Location

/-- Statements. -/
inductive Stmt where
  | declare (kind : DeclKind) (declarators : List Declarator) (loc : Location)
  | function (routine : Routine) (loc : Location)
  | expr (expr : Expr) (loc : Location)
  | ret (value : Option Expr) (loc : Location)
  | ifElse (test : Expr) (yes : Stmt) (no : Option Stmt) (loc : Location)
  | forLoop (init : Option Stmt) (test update : Option Expr) (body : Stmt) (loc : Location)
  | forOf (kind : DeclKind) (name : String) (iterable : Expr) (body : Stmt) (loc : Location)
  | whileLoop (test : Expr) (body : Stmt) (loc : Location)
  | doWhile (body : Stmt) (test : Expr) (loc : Location)
  | breakOut (loc : Location)
  | nextRound (loc : Location)
  | raise (value : Expr) (loc : Location)
  | block (body : List Stmt) (loc : Location)
  | tryBlock (body : List Stmt) (handler : Option Handler) (finalizer : Option (List Stmt))
      (loc : Location)
  | empty (loc : Location)

end

/-- A whole program. -/
structure Program where
  body : List Stmt
  loc : Location

instance : Inhabited Expr := ⟨.null default⟩

instance : Inhabited Stmt := ⟨.empty default⟩

/-! ### Locations -/

/-- Where an expression stands. -/
def Expr.loc : Expr → Location
  | number _ l | string _ l | bool _ l | null l | template _ _ l | ident _ l | this l
  | array _ l | object _ l | function _ l | unary _ _ l | update _ _ _ l | binary _ _ _ l
  | logical _ _ _ l | assign _ _ _ l | conditional _ _ _ l | call _ _ l | new _ _ l
  | member _ _ l | await _ l => l

/-- Where a target stands. -/
def Target.loc : Target → Location
  | name _ l | member _ _ l => l

/-- Where a statement stands. -/
def Stmt.loc : Stmt → Location
  | declare _ _ l | function _ l | expr _ l | ret _ l | ifElse _ _ _ l | forLoop _ _ _ _ l
  | forOf _ _ _ _ l | whileLoop _ _ l | doWhile _ _ l | breakOut l | nextRound l | raise _ l
  | block _ l | tryBlock _ _ _ l | empty l => l

/-! ### Shapes -/

/-- The target that an expression denotes, if it can be assigned to. -/
def Expr.target? : Expr → Option Target
  | ident n l => some (.name n l)
  | member o k l => some (.member o k l)
  | _ => none

/-- A target read as an expression. -/
def Target.toExpr : Target → Expr
  | name n l => .ident n l
  | member o k l => .member o k l

/-- The name of an expression that is only a name. -/
def Expr.name? : Expr → Option String
  | ident n _ => some n
  | _ => none

/-- The two names of an expression of the form `a.b`. -/
def Expr.staticMember? : Expr → Option (String × String)
  | member (.ident a _) (.named b) _ => some (a, b)
  | _ => none

/-- The function of a function expression. -/
def Expr.routine? : Expr → Option Routine
  | function r _ => some r
  | _ => none

end ScriptReplay
