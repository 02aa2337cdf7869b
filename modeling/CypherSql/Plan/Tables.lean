import CypherSql.Plan.Sources

/-!
The tables behind the items of every scope. A node whose labels fit several tables waits for the
relationships it takes part in.
-/

namespace CypherSql.Plan

/-- The labels of the node that an end of a relationship stands for. -/
def endpointLabels (vars : VarTable) (endpoint : VarId) : NameSet :=
  match vars.node? (vars.resolve endpoint) with
  | some node => node.labels
  | none => ∅

/-- A node as messages about tables show it. -/
def nodeHint (name : String) (labels : NameSet) : String :=
  "(" ++ name ++ ":" ++ labelText labels ++ ")"

/-- A relationship as messages about tables show it. -/
def relationshipHint (name : String) (types : List String) : String :=
  "[" ++ name ++ ":" ++ String.intercalate "|" types ++ "]"

/-- The table of a node with the definition that holds its binding, or nothing where several
tables fit.
-/
def nodeTable (catalog : Catalog) (name : String) (node : NodeVar)
    : Except LoweringError (Option (String × Definition)) :=
  match catalog.node node.labels with
  | .ok binding => .ok (some (binding.table, .node { node with binding := some binding }))
  | .error (.ambiguousLabels _ _) => .ok none
  | .error source =>
      fail .resolveTables (.lookup (nodeHint name node.labels) source)

/-- The table of a relationship with the definition that holds its binding. -/
def relationshipTable (catalog : Catalog) (vars : VarTable) (name : String)
    (rel : RelationshipVar) : Except LoweringError (Option (String × Definition)) :=
  let left := endpointLabels vars rel.left
  let right := endpointLabels vars rel.right
  match catalog.relationship rel.types left right rel.direction with
  | .ok binding =>
      .ok (some (binding.table, .relationship { rel with binding := some binding }))
  | .error source =>
      match source with
      | .ambiguousRelationship _ _ _ _ =>
          if 1 < rel.types.length then
            fail .resolveTables (.unsupported (.typesInSeveralTables rel.types name))
          else fail .resolveTables (.lookup (relationshipHint name rel.types) source)
      | _ => fail .resolveTables (.lookup (relationshipHint name rel.types) source)

/-- The table of a variable with the definition that holds its binding. -/
def tableOf (catalog : Catalog) (vars : VarTable) (id : VarId)
    : Except LoweringError (Option (String × Definition)) :=
  match vars.get? id with
  | none => fail .resolveTables (.breach (.undeclaredItem id))
  | some var =>
      match var.definition with
      | .node node => nodeTable catalog var.name node
      | .relationship rel => relationshipTable catalog vars var.name rel
      | other => fail .resolveTables (.breach (.itemOfOther other.kind id))

/-- An item with its table, if it is a table item that has none. -/
def resolveItem (catalog : Catalog) (item : FromItem) (vars : VarTable)
    : Except LoweringError (FromItem × VarTable) :=
  match item.table, item.tableVar? with
  | none, some id => do
      match ← tableOf catalog vars id with
      | some (table, definition) =>
          return ({ item with table := some table }, vars.redefine id definition)
      | none => return (item, vars)
  | _, _ => .ok (item, vars)

/-- Changes items and variables together, in order. -/
def eachItem (f : FromItem → VarTable → Except LoweringError (FromItem × VarTable))
    : List FromItem → VarTable → Except LoweringError (List FromItem × VarTable)
  | [], vars => .ok ([], vars)
  | item :: rest, vars => do
      let (item, vars) ← f item vars
      let (items, vars) ← eachItem f rest vars
      return (item :: items, vars)

/-- Changes the items of a scope and the variables together. -/
def eachFromItem (f : FromItem → VarTable → Except LoweringError (FromItem × VarTable))
    (scope : Scope) (vars : VarTable) : Except LoweringError (Scope × VarTable) := do
  let (fromItems, vars) ← eachItem f scope.select.fromItems vars
  return ({ scope with select := { scope.select with fromItems } }, vars)

/-- Looks up the tables of nodes and relationships. -/
def resolveTables (catalog : Catalog) (draft : Draft) : Except LoweringError Draft :=
  draft.eachScope (eachFromItem (resolveItem catalog))

end CypherSql.Plan
