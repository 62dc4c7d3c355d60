/-
Operators on values.

* `applyBinary` : operators with two operands;
* `applyCompound` : the same behind an assignment;
* `applyUnary` : operators with one operand;
* `looseSame` : equality after conversion.

Design notes: plus joins texts as soon as one operand is a text or a reference.  Comparisons
order two texts by their characters and all else as numbers; NaN is in no order.
-/
import ScriptReplay.Heap.Text
import ScriptReplay.Number.Word

namespace ScriptReplay

/-- Whether plus treats a value as a text. -/
def Value.joinsAsText : Value → Bool
  | .string _ | .array _ | .object _ | .function _ => true
  | .undefined | .null | .bool _ | .number _ => false

/-- Equality of two values that are booleans, numbers or texts, after conversion to numbers
unless both are texts. -/
def Value.looseSamePrimitive (a b : Value) : Bool :=
  match a, b with
  | .string s, .string t => s == t
  | _, _ => a.asNumber == b.asNumber

/-- Equality after conversion.  Null and undefined equal each other and nothing else; a
reference equals what its text does, unless the other is a reference too. -/
def looseSame (h : Heap) (a b : Value) : Bool :=
  if a.isNullish || b.isNullish then a.isNullish && b.isNullish
  else if a.isPrimitive && b.isPrimitive then a.looseSamePrimitive b
  else if a.isPrimitive then a.looseSamePrimitive (.string (h.textOf b))
  else if b.isPrimitive then Value.looseSamePrimitive (.string (h.textOf a)) b
  else a.same b

/-- A comparison: of two texts by their characters, of all else by their numbers. -/
def compareBy (h : Heap) (texts : String → String → Bool) (numbers : Float → Float → Bool)
    (a b : Value) : Bool :=
  match a, b with
  | .string s, .string t => texts s t
  | _, _ => numbers (h.numberOf a) (h.numberOf b)

/-- The power.  A NaN exponent makes it NaN. -/
def power (x y : Float) : Float :=
  if y.isNaN then notANumber else x.pow y

/-- The value of an operator with two operands. -/
def applyBinary (h : Heap) (op : BinaryOp) (a b : Value) : Value :=
  let x := h.numberOf a
  let y := h.numberOf b
  let bits (f : UInt32 → UInt32 → UInt32) : Value :=
    .number (signedFloat (f (wordOf x) (wordOf y)))
  match op with
  | .add =>
    if a.joinsAsText || b.joinsAsText
      then .string (h.textOf a ++ h.textOf b) else .number (x + y)
  | .sub => .number (x - y)
  | .mul => .number (x * y)
  | .div => .number (x / y)
  | .rem => .number (remainder x y)
  | .pow => .number (power x y)
  | .lt => .bool (compareBy h (fun s t => s < t) (fun x y => x < y) a b)
  | .gt => .bool (compareBy h (fun s t => t < s) (fun x y => y < x) a b)
  | .le => .bool (compareBy h (fun s t => !(t < s : Bool)) (fun x y => x ≤ y) a b)
  | .ge => .bool (compareBy h (fun s t => !(s < t : Bool)) (fun x y => y ≤ x) a b)
  | .strictEq => .bool (a.same b)
  | .strictNe => .bool (!a.same b)
  | .looseEq => .bool (looseSame h a b)
  | .looseNe => .bool (!looseSame h a b)
  | .bitAnd => bits (· &&& ·)
  | .bitOr => bits (· ||| ·)
  | .bitXor => bits (· ^^^ ·)
  | .shl => bits fun v w => v <<< shiftAmount w
  | .shr => .number (Float.ofInt (shiftRight (wordOf x) (wordOf y)))
  | .ushr => .number (Float.ofNat (wordOf x >>> shiftAmount (wordOf y)).toNat)

/-- The value of an operator behind an assignment, which is undefined unless both operands are
booleans, numbers or texts. -/
def applyCompound (h : Heap) (op : BinaryOp) (old new : Value) : Value :=
  if old.isPrimitive && new.isPrimitive then applyBinary h op old new else .undefined

/-- The value of an operator with one operand. -/
def applyUnary (h : Heap) (op : UnaryOp) (v : Value) : Value :=
  match op with
  | .not => .bool (!v.isTruthy)
  | .neg => .number (-h.numberOf v)
  | .plus => .number (h.numberOf v)
  | .bitNot => .number (signedFloat (~~~ wordOf (h.numberOf v)))
  | .typeOf => .string v.typeName

end ScriptReplay
