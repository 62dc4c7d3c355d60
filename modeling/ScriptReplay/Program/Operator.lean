/-
Operators and declaration words.

Each has the spelling that programs use and that descriptions of steps show again.
-/
namespace ScriptReplay

/-- The word that introduces variables.  `var` binds in the function, the others
in the block. -/
inductive DeclKind where
  | var
  | letK
  | const
  deriving DecidableEq, Repr

/-- The word as written. -/
def DeclKind.text : DeclKind → String
  | var => "var"
  | letK => "let"
  | const => "const"

/-- Operators that use the values of both operands. -/
inductive BinaryOp where
  | add | sub | mul | div | rem | pow
  | lt | gt | le | ge | looseEq | strictEq | looseNe | strictNe
  | bitAnd | bitOr | bitXor | shl | shr | ushr
  deriving DecidableEq, Repr

/-- The operator as written. -/
def BinaryOp.text : BinaryOp → String
  | add => "+"
  | sub => "-"
  | mul => "*"
  | div => "/"
  | rem => "%"
  | pow => "**"
  | lt => "<"
  | gt => ">"
  | le => "<="
  | ge => ">="
  | looseEq => "=="
  | strictEq => "==="
  | looseNe => "!="
  | strictNe => "!=="
  | bitAnd => "&"
  | bitOr => "|"
  | bitXor => "^"
  | shl => "<<"
  | shr => ">>"
  | ushr => ">>>"

/-- Operators that may leave out their right operand. -/
inductive LogicalOp where
  | and | or | nullish
  deriving DecidableEq, Repr

/-- The operator as written. -/
def LogicalOp.text : LogicalOp → String
  | and => "&&"
  | or => "||"
  | nullish => "??"

/-- A plain assignment, or one that first applies an operator to the old value. -/
inductive AssignOp where
  | plain
  | compound (op : BinaryOp)
  deriving DecidableEq, Repr

/-- The operator as written. -/
def AssignOp.text : AssignOp → String
  | plain => "="
  | compound op => op.text ++ "="

/-- Operators before one operand. -/
inductive UnaryOp where
  | not | neg | plus | bitNot | typeOf
  deriving DecidableEq, Repr

/-- The operator as written before its operand, which a word needs a space for. -/
def UnaryOp.text : UnaryOp → String
  | not => "!"
  | neg => "-"
  | plus => "+"
  | bitNot => "~"
  | typeOf => "typeof "

/-- Counting up or down by one. -/
inductive UpdateOp where
  | increment | decrement
  deriving DecidableEq, Repr

/-- The operator as written. -/
def UpdateOp.text : UpdateOp → String
  | increment => "++"
  | decrement => "--"

end ScriptReplay
