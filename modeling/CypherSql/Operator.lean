/-!
The operators of expressions, and the arrow of a relationship pattern.
-/

namespace CypherSql

/-- An operator between two operands. -/
inductive BinaryOp where
  | addition
  | subtraction
  | multiplication
  | division
  | modulo
  | power
  | equal
  | notEqual
  | less
  | greater
  | lessEqual
  | greaterEqual
  | regexMatch
  | and
  | or
  | xor
  | isIn
  | startsWith
  | endsWith
  | contains
  deriving DecidableEq, Repr

/-- An operator before or after one operand. -/
inductive UnaryOp where
  | not
  | negation
  | isNull
  | isNotNull
  deriving DecidableEq, Repr

/-- The name by which messages call the operator. -/
def BinaryOp.name : BinaryOp → String
  | .addition => "Addition"
  | .subtraction => "Subtraction"
  | .multiplication => "Multiplication"
  | .division => "Division"
  | .modulo => "ModuloDivision"
  | .power => "Exponentiation"
  | .equal => "Equal"
  | .notEqual => "NotEqual"
  | .less => "LessThan"
  | .greater => "GreaterThan"
  | .lessEqual => "LessThanEqual"
  | .greaterEqual => "GreaterThanEqual"
  | .regexMatch => "RegexMatch"
  | .and => "And"
  | .or => "Or"
  | .xor => "Xor"
  | .isIn => "In"
  | .startsWith => "StartsWith"
  | .endsWith => "EndsWith"
  | .contains => "Contains"

/-- The name by which messages call the operator. -/
def UnaryOp.name : UnaryOp → String
  | .not => "Not"
  | .negation => "Negation"
  | .isNull => "IsNull"
  | .isNotNull => "IsNotNull"

/-- The arrow of a relationship pattern, as written between its left and right node. -/
inductive Direction where
  | left
  | right
  | both
  deriving DecidableEq, Repr

namespace Direction

/-- The arrow that the two ends of a relationship pattern draw. Heads on both ends, like none at
all, leave the direction open.
-/
def ofHeads (leftHead rightHead : Bool) : Direction :=
  match leftHead, rightHead with
  | true, false => .left
  | false, true => .right
  | _, _ => .both

/-- The same arrow read from its other end. -/
def reversed : Direction → Direction
  | .left => .right
  | .right => .left
  | .both => .both

/-- The name by which documents and messages call the direction. -/
def name : Direction → String
  | .left => "LEFT"
  | .right => "RIGHT"
  | .both => "BOTH"

end Direction

end CypherSql
