import CypherSql.Number.Binary64

/-!
Literal values of a query, and the backslash escapes of its string literals.
-/

namespace CypherSql

/-- A value written out in a query. -/
inductive Literal where
  | integer (value : Int)
  | real (value : Number.Binary64)
  | boolean (value : Bool)
  | text (value : String)
  | null
  deriving DecidableEq, Repr

namespace Literal

/-- The literal with the other sign, if it is a number. -/
def negated? : Literal → Option Literal
  | .integer value => some (.integer (-value))
  | .real value => some (.real value.neg)
  | _ => none

/-- The literal with the sign of a real zero forgotten. -/
def unsignedZero : Literal → Literal
  | .real value => .real value.unsignedZero
  | literal => literal

end Literal

/-- The characters a raw string literal stands for: a backslash is dropped and keeps the character
after it. A backslash at the end stands for nothing.
-/
def unescapeChars : List Char → List Char
  | [] => []
  | '\\' :: c :: rest => c :: unescapeChars rest
  | ['\\'] => []
  | c :: rest => c :: unescapeChars rest

/-- The text a raw string literal stands for. -/
def unescape (raw : String) : String :=
  String.ofList (unescapeChars raw.toList)

end CypherSql
