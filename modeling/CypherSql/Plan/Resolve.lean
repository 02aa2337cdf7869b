import CypherSql.Plan.Error

/-!
Resolving the names in an expression as written, by what each name stands for where it is read.
-/

namespace CypherSql.Plan

/-- The literal with the escapes of a text resolved. -/
def resolveLiteral : Literal → Literal
  | .text raw => .text (unescape raw)
  | literal => literal

/-- A call of a function by its name: an aggregate, or a function of single values, which takes
neither `DISTINCT` nor `*`.
-/
def resolveCall (step : Step) (name : String) (distinct : Bool) (args : List Expr)
    : Except LoweringError Expr :=
  match Aggregate.ofName? name with
  | some function => .ok (.aggregate function distinct args)
  | none =>
      if distinct then fail step (.invalidQuery (.distinctInScalar name))
      else if .star ∈ args then fail step (.invalidQuery (.starInScalar name))
      else .ok (.call name args)

mutual

/-- The expression with its names replaced by the ids they stand for. -/
def resolveExpr (step : Step) (lookup : String → Option VarId)
    : Cypher.Expr → Except LoweringError Expr
  | .literal value => .ok (.literal (resolveLiteral value))
  | .var name =>
      match lookup name with
      | some id => .ok (.var id)
      | none => fail step (.undefinedVariable name)
  | .parameter name => .ok (.parameter name)
  | .list items => do
      let items ← resolveAll step lookup items
      return .list items
  | .map entries => do
      let entries ← resolveEntries step lookup entries
      return .map entries
  | .property base key => do
      let base ← resolveExpr step lookup base
      return .property base key
  | .unary op operand => do
      let operand ← resolveExpr step lookup operand
      return .unary op operand
  | .binary op left right => do
      let left ← resolveExpr step lookup left
      let right ← resolveExpr step lookup right
      return .binary op left right
  | .call name distinct args => do
      let args ← resolveAll step lookup args
      resolveCall step name distinct args
  | .star => .ok .star

/-- Several expressions with their names replaced. -/
def resolveAll (step : Step) (lookup : String → Option VarId)
    : List Cypher.Expr → Except LoweringError (List Expr)
  | [] => .ok []
  | e :: es => do
      let e ← resolveExpr step lookup e
      let es ← resolveAll step lookup es
      return e :: es

/-- Several entries with the names in their values replaced. -/
def resolveEntries (step : Step) (lookup : String → Option VarId)
    : List (String × Cypher.Expr) → Except LoweringError (List (String × Expr))
  | [] => .ok []
  | (key, e) :: es => do
      let e ← resolveExpr step lookup e
      let es ← resolveEntries step lookup es
      return (key, e) :: es

end

end CypherSql.Plan
