/-!
The functions that expressions may call, with their SQL counterparts. Names are looked up without
regard to the case of ASCII letters.
-/

namespace CypherSql

/-- A function over all values of a group. -/
inductive Aggregate where
  | count
  | sum
  | min
  | max
  | avg
  | collect
  deriving DecidableEq, Repr

namespace Aggregate

/-- The name of the function in queries, in lower case. -/
def name : Aggregate → String
  | .count => "count"
  | .sum => "sum"
  | .min => "min"
  | .max => "max"
  | .avg => "avg"
  | .collect => "collect"

/-- The name of the function in SQL. -/
def sqlName : Aggregate → String
  | .count => "COUNT"
  | .sum => "SUM"
  | .min => "MIN"
  | .max => "MAX"
  | .avg => "AVG"
  | .collect => "ARRAY_AGG"

/-- All aggregate functions. -/
def all : List Aggregate :=
  [.count, .sum, .min, .max, .avg, .collect]

end Aggregate

/-- A name with its ASCII letters in lower case. -/
def lowerName (name : String) : String :=
  String.ofList (name.toList.map Char.toLower)

/-- The aggregate function of a name. -/
def Aggregate.ofName? (name : String) : Option Aggregate :=
  Aggregate.all.find? fun aggregate => aggregate.name = lowerName name

/-- A function of single values in SQL: a call, or a cast to a type. -/
structure ScalarFunction where
  sqlName : String
  isCast : Bool
  deriving DecidableEq, Repr

/-- The functions of single values under their lower-case names in queries. -/
def scalarFunctions : List (String × ScalarFunction) :=
  [("toupper", ⟨"UPPER", false⟩),
    ("tolower", ⟨"LOWER", false⟩),
    ("trim", ⟨"TRIM", false⟩),
    ("size", ⟨"LENGTH", false⟩),
    ("length", ⟨"LENGTH", false⟩),
    ("tostring", ⟨"TEXT", true⟩),
    ("tointeger", ⟨"BIGINT", true⟩),
    ("tofloat", ⟨"DOUBLE PRECISION", true⟩),
    ("abs", ⟨"ABS", false⟩),
    ("round", ⟨"ROUND", false⟩),
    ("ceil", ⟨"CEIL", false⟩),
    ("floor", ⟨"FLOOR", false⟩),
    ("sqrt", ⟨"SQRT", false⟩),
    ("coalesce", ⟨"COALESCE", false⟩)]

namespace ScalarFunction

/-- The function of a name. -/
def ofName? (name : String) : Option ScalarFunction :=
  scalarFunctions.lookup (lowerName name)

/-- The function applied to arguments that are rendered already. -/
def apply (function : ScalarFunction) (args : List String) : String :=
  let args := String.intercalate ", " args
  if function.isCast then "CAST(" ++ args ++ " AS " ++ function.sqlName ++ ")"
  else function.sqlName ++ "(" ++ args ++ ")"

end ScalarFunction

end CypherSql
