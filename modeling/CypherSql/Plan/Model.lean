import CypherSql.Plan.Naming
import CypherSql.Plan.Resolve

/-!
The variable model of a query. One walk over the clauses declares every node, relationship, path
and projected name under an id of its own, and records what each scope holds. A `WITH` closes a
scope and opens the next.
-/

namespace CypherSql.Plan

open Cypher (NodePattern RelationshipPattern PathPattern MatchClause Projection ProjectionItem)

/-- A place in the walk over the clauses: the variables so far with the order in which they were
declared, and the open scope with its visible names, its clauses and the condition it was opened
with.
-/
structure Walk where
  vars : VarTable
  declared : List VarId
  naming : Naming
  models : List ScopeModel
  scope : Nat
  visible : Visible
  clauses : List ReadingClause
  filter : Option Expr

/-- A place inside a `MATCH`: what it has declared, and the conditions on variables it has not. -/
structure ClauseWalk where
  walk : Walk
  ids : List VarId
  relationships : List VarId
  conditions : List Expr

namespace Walk

/-- The walk before the first clause. -/
def start : Walk :=
  { vars := .empty, declared := [], naming := .initial, models := [], scope := 0, visible := .none,
    clauses := [], filter := none }

/-- An expression with its names resolved where the walk is. -/
def resolve (walk : Walk) (expr : Cypher.Expr) : Except LoweringError Expr :=
  resolveExpr .collectVariables walk.visible.get? expr

/-- One equation for each entry of a property map of a variable. -/
def propertyConditions (walk : Walk) (id : VarId) (properties : Cypher.Properties)
    : Except LoweringError (List Expr) :=
  (properties.getD []).mapM fun (key, value) => do
    let value ← walk.resolve value
    return .equals (.property (.var id) key) value

/-- Declares a variable under a new id made from a base. -/
def declare (walk : Walk) (base : String) (make : VarId → String × Definition)
    : VarId × Walk :=
  let (id, naming) := walk.naming.fresh base
  let (name, definition) := make id
  let var : Variable := { name, id, scope := walk.scope, definition }
  (id, { walk with naming, vars := walk.vars.insert var, declared := walk.declared ++ [id] })

/-- Makes a name stand for an id, if there is a name. -/
def bind (walk : Walk) (name : Option String) (id : VarId) : Walk :=
  match name with
  | some name => { walk with visible := walk.visible.insert name id }
  | none => walk

end Walk

namespace ClauseWalk

/-- The walk with more labels for a node. -/
def addLabels (state : ClauseWalk) (id : VarId) (node : NodeVar) (labels : List String)
    : ClauseWalk :=
  let definition := Definition.node { node with labels := node.labels.insertAll labels }
  { state with walk := { state.walk with vars := state.walk.vars.redefine id definition } }

/-- Mentions a visible variable as a node again. Labels can be added only to a node of the same
scope under its own name.
-/
def mentionNode (state : ClauseWalk) (pattern : NodePattern) (name : String) (id : VarId)
    : Except LoweringError (VarId × ClauseWalk) := do
  let vars := state.walk.vars
  let resolved := vars.resolve id
  let state ←
    match vars.get? resolved with
    | some { scope, definition := .node node, .. } =>
        let extra := pattern.labels.filter (· ∉ node.labels)
        if extra.isEmpty then pure state
        else if scope ≠ state.walk.scope ∨ resolved ≠ id then
          fail .collectVariables (.unsupported (.addedLabels name))
        else pure (state.addLabels resolved node extra)
    | some other => fail .collectVariables (.kindConflict name other.definition.kind)
    | none => fail .collectVariables (.breach (.invisibleNode resolved))
  let conditions ← state.walk.propertyConditions id pattern.properties
  return (id, { state with conditions := state.conditions ++ conditions })

/-- Declares a node. -/
def newNode (state : ClauseWalk) (pattern : NodePattern)
    : Except LoweringError (VarId × ClauseWalk) := do
  let base := pattern.name.getD "anon_n"
  let (id, _) := state.walk.naming.fresh base
  let conditions ← state.walk.propertyConditions id pattern.properties
  let (id, walk) := state.walk.declare base fun id =>
    (pattern.name.getD id, .node
      { labels := .ofList pattern.labels
        restriction := Expr.conjoin conditions
        required := ∅
        binding := none })
  return (id, { state with
    walk := walk.bind pattern.name id
    ids := state.ids ++ [id] })

/-- Takes a node of a pattern: a visible variable, or a new one. -/
def takeNode (state : ClauseWalk) (pattern : NodePattern)
    : Except LoweringError (VarId × ClauseWalk) :=
  match pattern.name with
  | some name =>
      match state.walk.visible.get? name with
      | some id => state.mentionNode pattern name id
      | none => state.newNode pattern
  | none => state.newNode pattern

/-- Why a visible name cannot be that of a relationship. -/
def relationshipConflict (vars : VarTable) (name : String) (id : VarId) : Cause :=
  let resolved := vars.resolve id
  match vars.definition? resolved with
  | some (.relationship _) => .unsupported (.repeatedRelationship name)
  | some other => .kindConflict name other.kind
  | none => .breach (.invisibleRelationship resolved)

/-- Declares a relationship between two nodes. -/
def newRelationship (state : ClauseWalk) (pattern : RelationshipPattern) (left right : VarId)
    : Except LoweringError (VarId × ClauseWalk) := do
  let base := pattern.name.getD "anon_r"
  let (id, _) := state.walk.naming.fresh base
  let conditions ← state.walk.propertyConditions id pattern.properties
  let (id, walk) := state.walk.declare base fun id =>
    (pattern.name.getD id, .relationship
      { left
        right
        direction := pattern.direction
        types := pattern.types
        restriction := Expr.conjoin conditions
        required := ∅
        binding := none })
  return (id, { state with
    walk := walk.bind pattern.name id
    ids := state.ids ++ [id]
    relationships := state.relationships ++ [id] })

/-- Takes a relationship of a pattern, which has to be a new one with a single hop. -/
def takeRelationship (state : ClauseWalk) (pattern : RelationshipPattern) (left right : VarId)
    : Except LoweringError (VarId × ClauseWalk) :=
  match pattern.length with
  | some range =>
      fail .collectVariables (.unsupported (.hopRange (pattern.name.getD "") range))
  | none =>
      match pattern.name.bind fun name => (state.walk.visible.get? name).map (name, ·) with
      | some (name, id) => fail .collectVariables (relationshipConflict state.walk.vars name id)
      | none => state.newRelationship pattern left right

/-- Takes nodes of a pattern in order. -/
def takeNodes (state : ClauseWalk)
    : List NodePattern → Except LoweringError (List VarId × ClauseWalk)
  | [] => .ok ([], state)
  | pattern :: rest => do
      let (id, state) ← state.takeNode pattern
      let (ids, state) ← state.takeNodes rest
      return (id :: ids, state)

/-- Takes relationships of a pattern in order, the first between a node and the next one. -/
def takeRelationships (state : ClauseWalk) (left : VarId)
    : List (RelationshipPattern × VarId) → Except LoweringError (List VarId × ClauseWalk)
  | [] => .ok ([], state)
  | (pattern, right) :: rest => do
      let (id, state) ← state.takeRelationship pattern left right
      let (ids, state) ← state.takeRelationships right rest
      return (id :: ids, state)

/-- Declares a path over its start node and its pairs of a relationship and the node after it. -/
def newPath (state : ClauseWalk) (name : String) (start : VarId) (hops : List (VarId × VarId))
    : Except LoweringError ClauseWalk :=
  match state.walk.visible.get? name with
  | some id =>
      let existing := ((state.walk.vars.definition? id).map (·.kind)).getD "a variable"
      fail .collectVariables (.kindConflict name existing)
  | none =>
      let elements := start :: hops.flatMap fun (relationship, node) => [relationship, node]
      let (id, walk) := state.walk.declare name fun _ => (name, .path hops.length elements)
      .ok { state with walk := walk.bind (some name) id }

/-- Takes a path pattern: its nodes, its relationships, and its name. -/
def takePath (state : ClauseWalk) (path : PathPattern) : Except LoweringError ClauseWalk := do
  let (start, state) ← state.takeNode path.start
  let (nodes, state) ← state.takeNodes (path.hops.map (·.2))
  let (relationships, state) ← state.takeRelationships start (path.relationships.zip nodes)
  match path.name with
  | some name => state.newPath name start (relationships.zip nodes)
  | none => return state

end ClauseWalk

namespace Walk

/-- Takes a `MATCH`. -/
def takeMatch (walk : Walk) (clause : MatchClause) : Except LoweringError Walk := do
  let state : ClauseWalk := { walk, ids := [], relationships := [], conditions := [] }
  let state ← clause.patterns.foldlM (·.takePath ·) state
  let conditions ←
    match clause.condition with
    | some condition => do
        let condition ← state.walk.resolve condition
        pure (state.conditions ++ condition.conjuncts)
    | none => pure state.conditions
  let reading : ReadingClause :=
    { optional := clause.optional
      ids := state.ids
      relationships := state.relationships
      condition := Expr.conjoin conditions }
  return { state.walk with clauses := state.walk.clauses ++ [reading] }

/-- Declares the temporary variable of an expression without a name. -/
def declareColumn (walk : Walk) (column : String) : VarId × Walk :=
  walk.declare "col" fun _ => (column, .temporary column)

/-- Takes a projected item, with the names that the projection makes visible so far. A `WITH`
projects every name once, and only variables without a name of their own.
-/
def takeItem (walk : Walk) (kind : ScopeKind) (next : Visible) (item : ProjectionItem)
    : Except LoweringError (Item × Visible × Walk) := do
  let expr ← walk.resolve item.expr
  match item.aliasName, kind, item.expr with
  | some name, _, _ =>
      if kind = .withClause ∧ (next.get? name).isSome then
        fail .collectVariables (.invalidQuery (.projectedTwice name))
      else
        let (id, walk) := walk.declare name fun _ => (name, .projected expr none)
        return (.named id, next.insert name id, walk)
  | none, .withClause, .var name =>
      if (next.get? name).isSome then
        fail .collectVariables (.invalidQuery (.projectedTwice name))
      else
        let next := expr.reference?.elim next (next.insert name)
        let (column, walk) := walk.declareColumn name
        return (.unnamed expr column, next, walk)
  | none, .withClause, _ =>
      fail .collectVariables (.invalidQuery (.unnamedInWith item.text))
  | none, .returnClause, _ =>
      let (column, walk) := walk.declareColumn item.text
      return (.unnamed expr column, next, walk)

/-- Takes the items of a projection in order. -/
def takeItems (walk : Walk) (kind : ScopeKind) (next : Visible)
    : List ProjectionItem → Except LoweringError (List Item × Visible × Walk)
  | [] => .ok ([], next, walk)
  | item :: rest => do
      let (item, next, walk) ← walk.takeItem kind next item
      let (items, next, walk) ← walk.takeItems kind next rest
      return (item :: items, next, walk)

/-- An optional expression in which no name is visible. -/
def resolveClosed (expr : Option Cypher.Expr) : Except LoweringError (Option Expr) :=
  expr.mapM (resolveExpr .collectVariables fun _ => none)

/-- Closes the open scope with a projection and opens the next one, in which only the projected
names are visible. Sort keys see both the projected names and those they came from.
-/
def closeScope (walk : Walk) (kind : ScopeKind) (projection : Projection)
    (condition : Option Cypher.Expr) : Except LoweringError Walk := do
  let (items, next, walk) ← walk.takeItems kind .none projection.items
  let sortable := walk.visible.insertAll next
  let orderBy ← projection.orderBy.mapM fun key => do
    let expr ← resolveExpr .collectVariables sortable.get? key.expr
    return { expr, descending := key.descending : SortKey }
  let skip ← resolveClosed projection.skip
  let limit ← resolveClosed projection.limit
  let filter ← condition.mapM (resolveExpr .collectVariables next.get?)
  let model : ScopeModel :=
    { kind, clauses := walk.clauses, items, distinct := projection.distinct, orderBy, skip, limit,
      filter := walk.filter }
  return { walk with
    models := walk.models ++ [model]
    scope := walk.models.length + 1
    visible := next
    clauses := []
    filter }

/-- Takes the clauses of a query: the last one has to be the only `RETURN`. -/
def takeClauses (walk : Walk) (returned : Bool) : List Cypher.Clause → Except LoweringError Walk
  | [] => if returned then .ok walk else fail .collectVariables (.invalidQuery .noReturn)
  | clause :: rest =>
      if returned then fail .collectVariables (.invalidQuery (.clauseAfterReturn clause.kind))
      else
        match clause with
        | .matching clause => do
            let walk ← walk.takeMatch clause
            walk.takeClauses false rest
        | .withItems projection condition => do
            let walk ← walk.closeScope .withClause projection condition
            walk.takeClauses false rest
        | .returnItems projection => do
            let walk ← walk.closeScope .returnClause projection none
            walk.takeClauses true rest

end Walk

/-- Collects the variables and the scopes of a query. -/
def collect (query : Cypher.Query) : Except LoweringError Walk :=
  Walk.start.takeClauses false query.clauses

end CypherSql.Plan
