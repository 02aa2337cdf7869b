import CypherSql.Sql.Error
import CypherSql.Sql.Expr

/-!
Expressions of a scope as expressions of SQL. A variable is a column of the source that supplies
it; one that no source supplies stands for its definition.
-/

namespace CypherSql.Sql

open Plan (VarId VarTable)

/-- What the expressions of a scope are read with: the subqueries of the tree, the variables, and
the sources of the scope.
-/
structure Context where
  subqueries : List Plan.Subquery
  vars : VarTable
  scope : Nat
  select : Plan.Select

/-- Fails for a broken invariant. -/
def broken {α : Type} (breach : Breach) : Except RenderError α :=
  .error (.invalidTree breach)

/-- Fails for a missing feature. -/
def unsupported {α : Type} (feature : Feature) : Except RenderError α :=
  .error (.unsupported feature)

/-- The name of the column of a property in the select list of a subquery. -/
def propertyColumn (id : VarId) (key : String) : String :=
  id ++ "__" ++ key

/-- The key column and the property columns of the table of a variable. -/
def tableColumns (vars : VarTable) (id : VarId)
    : Except RenderError (String × NameMap String) :=
  match vars.definition? id with
  | some (.node { binding := some binding, .. }) => .ok (binding.keyColumn, binding.columns)
  | some (.relationship { binding := some binding, .. }) =>
      .ok (binding.keyColumn, binding.columns)
  | _ => broken (.unbound id)

namespace Context

/-- The item that supplies a variable. -/
def supplier (context : Context) (kind : ReadKind) (id : VarId)
    : Except RenderError Plan.FromItem :=
  match context.select.supplier? id with
  | some item => .ok item
  | none => .error (.missingSupplier kind id context.scope)

/-- The name of the subquery of an item, if it is one. -/
def subqueryName (context : Context) (item : Plan.FromItem)
    : Except RenderError (Option String) :=
  match item.source with
  | none => .ok none
  | some source =>
      match context.subqueries[source]?.bind (·.name) with
      | some name => .ok (some name)
      | none => broken (.unnamedSource source)

/-- The value of a variable that a source supplies: a column of a subquery, or the key of a
table.
-/
def suppliedValue (context : Context) (id : VarId) : Except RenderError Expr := do
  let item ← context.supplier .value id
  match ← context.subqueryName item with
  | some name => return .column name id
  | none =>
      let (key, _) ← tableColumns context.vars id
      return .column id key

/-- A property of a variable: a column of a subquery, or of a table. -/
def property (context : Context) (id : VarId) (key : String) : Except RenderError Expr := do
  let item ← context.supplier .property id
  match ← context.subqueryName item with
  | some name => return .column name (propertyColumn id key)
  | none =>
      let (_, columns) ← tableColumns context.vars id
      return .column id (columnFor columns key)

end Context

/-- The operation of an operator that is written after its operand or before it. -/
def unaryExpr (op : UnaryOp) (operand : Expr) : Expr :=
  match op with
  | .not => .not operand
  | .negation => .negate operand
  | .isNull => .isNull operand
  | .isNotNull => .isNotNull operand

/-- The operation of an operator between two operands. Different truth values are told apart by
comparing them.
-/
def binaryExpr (op : BinaryOp) (left right : Expr) : Expr :=
  match op with
  | .addition => .binary .plus left right
  | .subtraction => .binary .minus left right
  | .multiplication => .binary .times left right
  | .division => .binary .divide left right
  | .modulo => .binary .modulo left right
  | .power => .power left right
  | .equal => .binary .equal left right
  | .notEqual => .binary .notEqual left right
  | .less => .binary .less left right
  | .greater => .binary .greater left right
  | .lessEqual => .binary .lessEqual left right
  | .greaterEqual => .binary .greaterEqual left right
  | .regexMatch => .binary .regexMatch left right
  | .and => .binary .and left right
  | .or => .binary .or left right
  | .xor => .binary .notEqual left right
  | .isIn =>
      match right with
      | .array items => .inList left items
      | other => .inArray left other
  | .startsWith => .like .start left right
  | .endsWith => .like .finish left right
  | .contains => .like .anywhere left right

mutual

/-- The expression with its variables and properties read in some way. -/
def exprWith (value : VarId → Except RenderError Expr)
    (property : VarId → String → Except RenderError Expr) : Plan.Expr → Except RenderError Expr
  | .literal constant => .ok (.literal constant)
  | .star => .ok .star
  | .parameter name => .ok (.parameter name)
  | .var id => value id
  | .column id name => .ok (.column id name)
  | .property (.var id) key => property id key
  | .property base _ => unsupported (.propertyOf base)
  | .unary op operand => do
      let operand ← exprWith value property operand
      return unaryExpr op operand
  | .binary op left right => do
      let left ← exprWith value property left
      let right ← exprWith value property right
      return binaryExpr op left right
  | .list items => do
      let items ← exprsWith value property items
      return .array items
  | .map entries => unsupported (.mapValue (.map entries))
  | .aggregate function distinct args => do
      let args ← exprsWith value property args
      return .aggregate function distinct args
  | .call name args =>
      match ScalarFunction.ofName? name with
      | none => unsupported (.function name)
      | some function => do
          let args ← exprsWith value property args
          return .call function args

/-- The same for several expressions. -/
def exprsWith (value : VarId → Except RenderError Expr)
    (property : VarId → String → Except RenderError Expr)
    : List Plan.Expr → Except RenderError (List Expr)
  | [] => .ok []
  | e :: es => do
      let e ← exprWith value property e
      let es ← exprsWith value property es
      return e :: es

end

namespace Context

/-- The value of a variable, with definitions put in for names a number of times at most. -/
def valueWithin (context : Context) : Nat → VarId → Except RenderError Expr
  | n, id =>
      match context.vars.definition? id, context.select.supplier? id, n with
      | some (.path _ _), _, _ => unsupported (.pathValue id)
      | some (.projected expr _), none, n + 1 => do
          let definition ← exprWith (context.valueWithin n) context.property expr
          return .inlined definition
      | _, _, _ => context.suppliedValue id

/-- The value of a variable. No chain of definitions is longer than the table of variables. -/
def value (context : Context) (id : VarId) : Except RenderError Expr :=
  context.valueWithin context.vars.size id

/-- An expression of the scope. -/
def expr (context : Context) (expr : Plan.Expr) : Except RenderError Expr :=
  exprWith context.value context.property expr

end Context

end CypherSql.Sql
