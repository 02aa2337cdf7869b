import CypherSql.Function
import CypherSql.Literal

/-! Expressions of SQL and how they are written, with the tokens that carry names and values:
identifiers and literals. Parentheses stand around an operand that binds more loosely than the
operator it belongs to, or equally where that would change the grouping.
-/

namespace CypherSql.Sql

/-- The characters with every quote written twice. -/
def doubleQuotes (quote : Char) : List Char → List Char
  | [] => []
  | c :: rest =>
      if c = quote then quote :: quote :: doubleQuotes quote rest
      else c :: doubleQuotes quote rest

/-- The text between quotes, with every quote inside written twice. -/
def quoted (quote : Char) (text : String) : String :=
  String.ofList (quote :: (doubleQuotes quote text.toList ++ [quote]))

/-- The character can start an identifier without quotes. -/
def isPlainStart (c : Char) : Bool :=
  c.isAlpha || c = '_'

/-- The character can stand inside an identifier without quotes. -/
def isPlainChar (c : Char) : Bool :=
  c.isAlphanum || c = '_'

/-- The characters can be written as an identifier without quotes. -/
def isPlain : List Char → Bool
  | [] => false
  | c :: rest => isPlainStart c && rest.all isPlainChar

/-- A name as an identifier, in double quotes where it needs them. -/
def identifier (name : String) : String :=
  if isPlain name.toList then name else quoted '"' name

/-- A real number. One that is whole has all its digits and one zero after the point. -/
def real (value : Number.Binary64) : String :=
  match value.natural? with
  | some magnitude => Number.Binary64.signText value.isNegative ++ toString magnitude ++ ".0"
  | none => value.text

/-- A literal. -/
def literal : Literal → String
  | .integer value => toString value
  | .real value => real value
  | .boolean true => "TRUE"
  | .boolean false => "FALSE"
  | .text value => quoted '\'' value
  | .null => "NULL"

/-- An operator between two operands that is written as a symbol. -/
inductive Operator where
  | or
  | and
  | equal
  | notEqual
  | less
  | greater
  | lessEqual
  | greaterEqual
  | regexMatch
  | plus
  | minus
  | times
  | divide
  | modulo
  deriving DecidableEq, Repr

namespace Operator

/-- The symbol of an operator. -/
def symbol : Operator → String
  | .or => "OR"
  | .and => "AND"
  | .equal => "="
  | .notEqual => "<>"
  | .less => "<"
  | .greater => ">"
  | .lessEqual => "<="
  | .greaterEqual => ">="
  | .regexMatch => "~"
  | .plus => "+"
  | .minus => "-"
  | .times => "*"
  | .divide => "/"
  | .modulo => "%"

end Operator

/-- How tightly `NOT` binds. -/
def notLevel : Nat := 4

/-- How tightly comparisons bind; they do not chain. -/
def comparisonLevel : Nat := 5

/-- How tightly a minus sign before an operand binds. -/
def negateLevel : Nat := 8

/-- How tightly everything binds that has no open end. -/
def closedLevel : Nat := 10

/-- How tightly an operator binds. -/
def Operator.level : Operator → Nat
  | .or => 1
  | .and => 3
  | .equal => comparisonLevel
  | .notEqual => comparisonLevel
  | .less => comparisonLevel
  | .greater => comparisonLevel
  | .lessEqual => comparisonLevel
  | .greaterEqual => comparisonLevel
  | .regexMatch => comparisonLevel
  | .plus => 6
  | .minus => 6
  | .times => 7
  | .divide => 7
  | .modulo => 7

/-- Where a `LIKE` looks for a text. -/
inductive LikePlace where
  | start
  | finish
  | anywhere
  deriving DecidableEq, Repr

/-- The pattern that looks for a text at a place. -/
def LikePlace.pattern (text : String) : LikePlace → String
  | .start => text ++ " || '%'"
  | .finish => "'%' || " ++ text
  | .anywhere => "'%' || " ++ text ++ " || '%'"

/-- An expression. A column belongs to a named source, a label to the select list itself; an
inlined expression stands for a name that no source supplies.
-/
inductive Expr where
  | literal (value : Literal)
  | star
  | parameter (name : String)
  | column (source name : String)
  | label (name : String)
  | inlined (definition : Expr)
  | not (operand : Expr)
  | negate (operand : Expr)
  | isNull (operand : Expr)
  | isNotNull (operand : Expr)
  | binary (op : Operator) (left right : Expr)
  | power (base exponent : Expr)
  | inList (operand : Expr) (items : List Expr)
  | inArray (operand array : Expr)
  | like (place : LikePlace) (operand text : Expr)
  | array (items : List Expr)
  | aggregate (function : Aggregate) (distinct : Bool) (args : List Expr)
  | call (function : ScalarFunction) (args : List Expr)
  deriving Repr

namespace Expr

/-- How tightly an expression binds. -/
def level : Expr → Nat
  | .not _ => notLevel
  | .negate _ => negateLevel
  | .isNull _ => comparisonLevel
  | .isNotNull _ => comparisonLevel
  | .binary op _ _ => op.level
  | .inList _ _ => comparisonLevel
  | .inArray _ _ => comparisonLevel
  | .like _ _ _ => comparisonLevel
  | _ => closedLevel

/-- The operand of an operator needs parentheses. Equally tight operands need them where asked. -/
def needsParens (operand : Expr) (outer : Nat) (inclusive : Bool) : Bool :=
  operand.level < outer || (inclusive && operand.level = outer)

end Expr

/-- The text, in parentheses where asked. -/
def enclosed (parens : Bool) (text : String) : String :=
  if parens then "(" ++ text ++ ")" else text

/-- Texts with commas between them. -/
def commas (texts : List String) : String :=
  String.intercalate ", " texts

namespace Expr

mutual

/-- The written form of an expression. -/
def text : Expr → String
  | .literal value => Sql.literal value
  | .star => "*"
  | .parameter name => ":" ++ name
  | .column source name => identifier source ++ "." ++ identifier name
  | .label name => identifier name
  | .inlined definition => definition.text
  | .not operand => "NOT " ++ enclosed (operand.needsParens notLevel false) operand.text
  | .negate operand => "-" ++ enclosed (operand.needsParens negateLevel true) operand.text
  | .isNull operand =>
      enclosed (operand.needsParens comparisonLevel true) operand.text ++ " IS NULL"
  | .isNotNull operand =>
      enclosed (operand.needsParens comparisonLevel true) operand.text ++ " IS NOT NULL"
  | .binary op left right =>
      enclosed (left.needsParens op.level (op.level = comparisonLevel)) left.text ++
        " " ++ op.symbol ++ " " ++ enclosed (right.needsParens op.level true) right.text
  | .power base exponent => "POWER(" ++ base.text ++ ", " ++ exponent.text ++ ")"
  | .inList operand items =>
      enclosed (operand.needsParens comparisonLevel true) operand.text ++
        " IN (" ++ commas (texts items) ++ ")"
  | .inArray operand values =>
      enclosed (operand.needsParens comparisonLevel true) operand.text ++
        " = ANY(" ++ values.text ++ ")"
  | .like place operand sought =>
      enclosed (operand.needsParens comparisonLevel true) operand.text ++ " LIKE " ++
        place.pattern (enclosed (sought.needsParens comparisonLevel true) sought.text)
  | .array items => "ARRAY[" ++ commas (texts items) ++ "]"
  | .aggregate function distinct args =>
      function.sqlName ++ "(" ++ (if distinct then "DISTINCT " else "") ++
        commas (texts args) ++ ")"
  | .call function args => function.apply (texts args)

/-- The written forms of several expressions. -/
def texts : List Expr → List String
  | [] => []
  | e :: es => e.text :: texts es

end

/-- The written form of an operand of `AND`. -/
def conditionText (condition : Expr) : String :=
  enclosed (condition.needsParens Operator.and.level true) condition.text

end Expr

end CypherSql.Sql
