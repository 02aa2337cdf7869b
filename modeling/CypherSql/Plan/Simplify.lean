import CypherSql.Plan.Exports

/-!
Simplification of expressions: functions of paths and nodes, properties read through other names,
constants, and other names of variables.
-/

namespace CypherSql.Plan

/-- The hops and elements of the path that a variable stands for. -/
def pathOf? (vars : VarTable) (id : VarId) : Option (Nat × List VarId) :=
  match vars.definition? (vars.resolve id) with
  | some (.path hops elements) => some (hops, elements)
  | _ => none

/-- The variable stands for a node or a relationship. -/
def isEntity (vars : VarTable) (id : VarId) : Bool :=
  vars.type? id = some .node || vars.type? id = some .relationship

/-- A call for which there is a function. -/
def knownCall (name : String) (args : List Expr) : Except LoweringError Expr :=
  match ScalarFunction.ofName? name with
  | some _ => .ok (.call name args)
  | none => fail .simplifyFunctions (.unsupported (.function name))

/-- The id of a node or relationship is the variable itself. -/
def simplifyId (vars : VarTable) : List Expr → Except LoweringError Expr
  | [.var id] =>
      if isEntity vars id then .ok (.var id)
      else fail .simplifyFunctions (.invalidQuery (.idOfOther id (vars.type? id)))
  | _ => fail .simplifyFunctions (.invalidQuery .idWithoutVariable)

/-- The number of hops of the path that is the only argument. -/
def pathLength? (vars : VarTable) : List Expr → Option Nat
  | [.var id] => (pathOf? vars id).map (·.1)
  | _ => none

/-- A call of a function of single values: the length of a path is a number, and an id is the
variable.
-/
def simplifyCall (vars : VarTable) (name : String) (args : List Expr)
    : Except LoweringError Expr :=
  if lowerName name = "id" then simplifyId vars args
  else if lowerName name = "length" then
    match pathLength? vars args with
    | some hops => .ok (.literal (.integer hops))
    | none => knownCall name args
  else knownCall name args

/-- The arguments of a count: a path is counted by its first node. -/
def countArgs (vars : VarTable) : List Expr → List Expr
  | [.var id] =>
      match (pathOf? vars id).bind (·.2.head?) with
      | some first => [.var first]
      | none => [.var id]
  | args => args

/-- Simplifies a call. -/
def simplifyFunction (vars : VarTable) : Expr → Except LoweringError Expr
  | .call name args => simplifyCall vars name args
  | .aggregate .count distinct args => .ok (.aggregate .count distinct (countArgs vars args))
  | expr => .ok expr

/-- Simplifies all calls. -/
def simplifyFunctions (draft : Draft) : Except LoweringError Draft :=
  draft.mapExprsM fun vars _ expr => expr.mapPartsM (simplifyFunction vars)

/-- A property of another name of a node or relationship is a property of the thing itself. -/
def simplifyProperty (vars : VarTable) : Expr → Expr
  | .property (.var id) key =>
      .property (.var (if isEntity vars id then vars.resolve id else id)) key
  | expr => expr

/-- Simplifies all properties. -/
def simplifyProperties (draft : Draft) : Draft :=
  draft.mapExprs fun vars _ expr => expr.mapParts (simplifyProperty vars)

/-- The value of a variable that projects a constant, with the scope that declares it. -/
def constant? (vars : VarTable) (id : VarId) : Option (Expr × Nat) := do
  let var ← vars.get? id
  let expr ← var.definition.projection?
  if expr.isConstant then some (expr, var.scope) else none

/-- A constant of an earlier scope in place of its variable, and an entry of a map in place of the
map.
-/
def inlineConstant (vars : VarTable) (scope : Nat) : Expr → Expr
  | .var id =>
      match constant? vars id with
      | some (value, declaredIn) => if declaredIn < scope then value else .var id
      | none => .var id
  | .property (.map entries) key => (entries.lookup key).getD (.literal .null)
  | expr => expr

/-- Some scope after the one that declares a variable refers to it, or a sort key of that scope,
the definition of another variable, or an export of a later subquery does.
-/
def isRead (tree : Tree) (vars : VarTable) (declaredIn : Nat) (id : VarId) : Bool :=
  let later := (tree.scopes.filter (declaredIn < ·.index)).flatMap (·.expressions)
  let sorting := (tree.scopes.filter (·.index = declaredIn)).flatMap fun scope =>
    scope.orderBy.map (·.expr)
  let exported := (tree.subqueries.filter (declaredIn < ·.scope.index)).flatMap (·.exports)
  (later ++ sorting).any (fun expr => id ∈ expr.references) ||
    !(vars.dependents id).isEmpty || exported.any (·.id = id)

/-- A constant that nothing reads and that is all that its subquery projects: a number stands in
for a list or a map.
-/
def standIn (vars : VarTable) (id : VarId) : VarTable :=
  let vars :=
    match vars.definition? id with
    | some (.projected (.literal _) _) => vars
    | some (.projected _ type) => vars.redefine id (.projected (.literal (.integer 1)) type)
    | _ => vars
  vars.refresh id

/-- A source without a variable, if it is a given subquery. -/
def FromItem.without (source : Nat) (id : VarId) (item : FromItem) : FromItem :=
  if item.source = some source then { item with ids := item.ids.filter (· ≠ id) }
  else item

/-- A scope whose sources no longer have a variable of a subquery. -/
def Scope.without (source : Nat) (id : VarId) (scope : Scope) : Scope :=
  { scope with select := { scope.select with
      fromItems := scope.select.fromItems.map (·.without source id) } }

/-- A subquery that no longer projects a variable. -/
def Subquery.unproject (id : VarId) (subquery : Subquery) : Subquery :=
  { subquery with
    scope := { subquery.scope with items := subquery.scope.items.filter (· ≠ .named id) }
    exports := subquery.exports.filter (·.id ≠ id) }

/-- A tree in which a subquery no longer projects a variable and no scope reads it from there. -/
def Tree.unproject (source : Nat) (id : VarId) (tree : Tree) : Tree :=
  let subqueries := tree.subqueries.modify source (·.unproject id)
  { subqueries := subqueries.map fun subquery =>
      { subquery with scope := subquery.scope.without source id }
    root := tree.root.without source id }

/-- Drops a constant of a subquery that nothing reads, unless it is all that is projected. -/
def dropConstant (source : Nat) (draft : Draft) (id : VarId) : Draft :=
  match draft.tree.subqueries[source]? with
  | none => draft
  | some subquery =>
      if isRead draft.tree draft.vars subquery.scope.index id then draft
      else if subquery.scope.items.length ≤ 1 then { draft with vars := standIn draft.vars id }
      else
        { draft with tree := draft.tree.unproject source id, vars := draft.vars.remove id }

/-- Drops the constants of a subquery that nothing reads. -/
def dropConstantsOf (draft : Draft) (source : Nat) : Draft :=
  match draft.tree.subqueries[source]? with
  | none => draft
  | some subquery =>
      (subquery.scope.declared.filter fun id => (constant? draft.vars id).isSome).foldl
        (dropConstant source) draft

/-- Drops the constants of all subqueries that nothing reads. -/
def dropConstants (draft : Draft) : Draft :=
  (List.range draft.tree.subqueries.length).foldl dropConstantsOf draft

/-- Puts constants in place of variables, except for a variable that a `WITH` passes on, and drops
those that nothing reads any more.
-/
def inlineConstants (draft : Draft) : Draft :=
  dropConstants (draft.mapExprs fun vars site expr =>
    if site.unnamedInWith then expr else expr.mapParts (inlineConstant vars site.scope))

/-- A variable in place of another name of it. -/
def resolveName (vars : VarTable) : Expr → Expr
  | .var id => .var (vars.resolve id)
  | expr => expr

/-- Puts variables in place of other names of them. -/
def resolveNames (draft : Draft) : Draft :=
  draft.mapExprs fun vars _ expr => expr.mapParts (resolveName vars)

end CypherSql.Plan
