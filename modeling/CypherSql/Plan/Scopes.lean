import CypherSql.Plan.Draft

/-!
Types of projected variables: another name of a variable has its type, any other expression is a
scalar, and the ends of relationships have to be nodes. The skeleton of a tree: a select for each
scope, without its sources, and the names of the subqueries.
-/

namespace CypherSql.Plan

/-- The type of a variable, following other names a number of times at most. -/
def typeWithin (vars : VarTable) (start : VarId) : Nat → VarId → Except LoweringError VarType
  | 0, _ => fail .inferTypes (.breach (.endlessNames start))
  | n + 1, id =>
      match vars.definition? id with
      | none => fail .inferTypes (.breach (.undeclaredTarget id))
      | some (.projected _ (some type)) => .ok type
      | some (.projected (.var target) none) => typeWithin vars start n target
      | some (.projected _ none) => .ok .scalar
      | some (.node _) => .ok .node
      | some (.relationship _) => .ok .relationship
      | some (.path _ _) => .ok .path
      | some (.temporary _) => .ok .scalar

/-- Gives each projected variable of a list its type, unless it has one. -/
def inferTypesOf : List VarId → VarTable → Except LoweringError VarTable
  | [], vars => .ok vars
  | id :: rest, vars =>
      match vars.definition? id with
      | some (.projected expr none) => do
          let type ← typeWithin vars id (vars.size + 1) id
          inferTypesOf rest (vars.redefine id (.projected expr (some type)))
      | _ => inferTypesOf rest vars

/-- The variable stands for a node. -/
def isNode (vars : VarTable) (id : VarId) : Bool :=
  (vars.definition? (vars.resolve id)).bind Definition.type? = some .node

/-- The first end of a relationship that is no node. -/
def badEndpoint? (vars : VarTable) : Option Breach :=
  vars.toList.findSome? fun var =>
    match var.definition with
    | .relationship rel =>
        ([rel.left, rel.right].find? fun endpoint => !isNode vars endpoint).map
          fun endpoint => .endpointNoNode endpoint var.id
    | _ => none

/-- Gives every projected variable its type. -/
def inferTypes (draft : Draft) : Except LoweringError Draft := do
  let vars ← inferTypesOf draft.vars.ids draft.vars
  match badEndpoint? vars with
  | some breach => fail .inferTypes (.breach breach)
  | none => return { draft with vars }

/-- The scope of a model at a position. Constant sort keys are left out. -/
def ScopeModel.scope (model : ScopeModel) (index : Nat) : Scope :=
  { kind := model.kind
    index
    inner := if index = 0 then none else some (index - 1)
    clauses := model.clauses
    select := { Select.empty with conditions := model.filter.elim [] Expr.conjuncts }
    distinct := model.distinct
    items := model.items
    orderBy := model.orderBy.filter fun key => !key.expr.isConstant
    skip := model.skip
    limit := model.limit }

/-- The warnings about the constant sort keys of a model. -/
def ScopeModel.warnings (model : ScopeModel) (index : Nat) : List Warning :=
  (model.orderBy.filter fun key => key.expr.isConstant).map fun key =>
    .constantSortKey key.expr index

/-- The tree of models from a position on: every scope ends with a `WITH`, and the last one with a
`RETURN`.
-/
def treeFrom (count : Nat)
    : Nat → List ScopeModel → Except LoweringError (List Subquery × Option Scope)
  | _, [] => .ok ([], none)
  | index, model :: rest =>
      match model.kind, rest with
      | .withClause, _ :: _ => do
          let (subqueries, root) ← treeFrom count (index + 1) rest
          return ({ name := none, scope := model.scope index, exports := [] } :: subqueries, root)
      | .returnClause, [] => .ok ([], some (model.scope index))
      | kind, _ => fail .buildScopes (.breach (.misplacedScope kind index count))

/-- Builds the scopes of the tree from the models, which are used up. -/
def buildScopes (draft : Draft) : Except LoweringError Draft := do
  if !draft.tree.subqueries.isEmpty then
    fail .buildScopes (.breach .treeBuilt)
  else
    match ← treeFrom draft.models.length 0 draft.models with
    | (subqueries, some root) =>
        let warnings := draft.models.zipIdx.flatMap fun (model, index) => model.warnings index
        return { draft with
          tree := { subqueries, root }
          models := []
          warnings := draft.warnings ++ warnings }
    | (_, none) => fail .buildScopes (.breach .noReturnScope)

/-- Names subqueries in order, each once. -/
def nameAll (naming : Naming)
    : List Subquery → Except LoweringError (List Subquery × Naming)
  | [] => .ok ([], naming)
  | subquery :: rest =>
      match subquery.name with
      | some name =>
          fail .nameSubqueries (.breach (.alreadyNamed subquery.scope.index name))
      | none => do
          let (name, naming) := naming.freshSubquery
          let (subqueries, naming) ← nameAll naming rest
          return ({ subquery with name := some name } :: subqueries, naming)

/-- Gives every subquery a name, the innermost first. -/
def nameSubqueries (draft : Draft) : Except LoweringError Draft := do
  let (subqueries, naming) ← nameAll draft.naming draft.tree.subqueries
  return { draft with tree := { draft.tree with subqueries }, naming }

end CypherSql.Plan
