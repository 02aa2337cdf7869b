import CypherSql.Plan.Error
import CypherSql.Plan.Naming

/-!
A query on its way from the variable model to a finished tree, and changing all its expressions.
-/

namespace CypherSql.Plan

/-- Something worth telling about a query that is lowered all the same. -/
inductive Warning where
  | constantSortKey (key : Expr) (scope : Nat)
  deriving DecidableEq

/-- The wording of a warning. -/
def Warning.text : Warning → String
  | .constantSortKey key scope =>
      Step.buildScopes.name ++ ": dropping constant ORDER BY key " ++ key.text ++ " in scope " ++
        toString scope

/-- What the steps of lowering work on. -/
structure Draft where
  tree : Tree
  vars : VarTable
  naming : Naming
  models : List ScopeModel
  warnings : List Warning

/-- The names that are not there yet, added at the end in order. -/
def addNew (seen : List VarId) (ids : List VarId) : List VarId :=
  ids.foldl (fun seen id => if id ∈ seen then seen else seen ++ [id]) seen

/-- The variable that an item projects, if it is one. -/
def Item.projected? : Item → Option VarId
  | .named id => some id
  | .unnamed (.var id) _ => some id
  | .unnamed _ _ => none

/-- The expression of an item without a name that is no variable. -/
def Item.unnamed? : Item → Option Expr
  | .named _ => none
  | .unnamed (.var _) _ => none
  | .unnamed expr _ => some expr

/-- The variables that a scope projects, resolved and without repetition, in the order of its
items. Only a `RETURN` may project an expression without a name.
-/
def projected (step : Step) (vars : VarTable) (scope : Scope)
    : Except LoweringError (List VarId) :=
  match scope.kind, scope.items.findSome? Item.unnamed? with
  | .withClause, some expr => fail step (.breach (.unnamedProjection scope.index expr))
  | _, _ => .ok (addNew [] ((scope.items.filterMap Item.projected?).map vars.resolve))

/-- Where an expression is evaluated, and whether it is an item without a name of a `WITH`. -/
structure Site where
  scope : Nat
  unnamedInWith : Bool

section Expressions

variable {m : Type → Type} [Monad m]

/-- An item with its expression replaced. -/
def Item.mapExprsM (f : Expr → m Expr) : Item → m Item
  | .named id => pure (.named id)
  | .unnamed expr column => do
      let expr ← f expr
      pure (.unnamed expr column)

/-- A source with its pending conditions replaced. -/
def FromItem.mapExprsM (f : Expr → m Expr) (item : FromItem) : m FromItem := do
  let pending ← item.pending.mapM f
  pure { item with pending }

/-- A join with its condition and those of its item replaced. -/
def Join.mapExprsM (f : Expr → m Expr) (join : Join) : m Join := do
  let condition ← f join.condition
  let item ← join.item.mapExprsM f
  pure { join with item, condition }

/-- A scope with each of its expressions replaced. -/
def Scope.mapExprsM (f : Site → Expr → m Expr) (scope : Scope) : m Scope := do
  let item := f ⟨scope.index, scope.kind = .withClause⟩
  let other := f ⟨scope.index, false⟩
  let items ← scope.items.mapM (·.mapExprsM item)
  let orderBy ← scope.orderBy.mapM fun key => do
    let expr ← other key.expr
    pure { key with expr }
  let skip ← scope.skip.mapM other
  let limit ← scope.limit.mapM other
  let conditions ← scope.select.conditions.mapM other
  let clauses ← scope.clauses.mapM fun clause => do
    let condition ← clause.condition.mapM other
    pure { clause with condition }
  let fromItems ← scope.select.fromItems.mapM (·.mapExprsM other)
  let joins ← scope.select.joins.mapM (·.mapExprsM other)
  pure { scope with
    items, orderBy, skip, limit, clauses, select := { fromItems, joins, conditions } }

/-- A tree with each of its scopes replaced, the innermost first. -/
def Tree.mapScopesM (f : Scope → m Scope) (tree : Tree) : m Tree := do
  let subqueries ← tree.subqueries.mapM fun subquery => do
    let scope ← f subquery.scope
    pure { subquery with scope }
  let root ← f tree.root
  pure { subqueries, root }

/-- Replaces the expressions of projected variables in the order of their ids. An expression is
evaluated in the scope that declares its variable.
-/
def mapProjectionsM (f : VarTable → Site → Expr → m Expr)
    : List VarId → VarTable → m VarTable
  | [], vars => pure vars
  | id :: rest, vars =>
      match vars.get? id with
      | some { scope, definition := .projected expr type, .. } => do
          let changed ← f vars ⟨scope, false⟩ expr
          if changed = expr then mapProjectionsM f rest vars
          else
            let vars := (vars.redefine id (.projected changed type)).refresh id
            mapProjectionsM f rest vars
      | _ => mapProjectionsM f rest vars

/-- Replaces every expression of the scopes, then those of the projected variables. -/
def Draft.mapExprsM (f : VarTable → Site → Expr → m Expr) (draft : Draft) : m Draft := do
  let tree ← draft.tree.mapScopesM (·.mapExprsM (f draft.vars))
  let vars ← mapProjectionsM f draft.vars.ids draft.vars
  pure { draft with tree, vars }

end Expressions

/-- Replaces every expression of the scopes, then those of the projected variables. -/
def Draft.mapExprs (f : VarTable → Site → Expr → Expr) (draft : Draft) : Draft :=
  Id.run (draft.mapExprsM fun vars site expr => pure (f vars site expr))

end CypherSql.Plan
