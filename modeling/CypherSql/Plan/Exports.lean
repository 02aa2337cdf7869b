import CypherSql.Plan.Joins

/-!
What subqueries hand to the scopes that read from them: the projected nodes, relationships and
values, and for nodes and relationships the properties that are read.
-/

namespace CypherSql.Plan

/-- The exports of a projected variable. A path is exported element by element. -/
def exportsOf (vars : VarTable) (id : VarId) : Except LoweringError (List Export) :=
  match vars.definition? id with
  | none => fail .findExports (.breach (.undeclaredExport id))
  | some (.path _ elements) => .ok (elements.map .entity)
  | some _ =>
      match vars.type? id with
      | some .node => .ok [.entity id]
      | some .relationship => .ok [.entity id]
      | some .scalar => .ok [.scalar id]
      | type => fail .findExports (.breach (.untypedExport id type))

/-- The exports that are not there yet, added at the end in order. -/
def addNewExports (seen new : List Export) : List Export :=
  new.foldl (fun seen item => if item ∈ seen then seen else seen ++ [item]) seen

/-- A subquery with its exports, each once, in the order of its projection. -/
def subqueryExports (vars : VarTable) (subquery : Subquery) : Except LoweringError Subquery := do
  if !subquery.exports.isEmpty then
    fail .findExports (.breach (.exportsSet subquery.scope.index))
  else
    let ids ← projected .findExports vars subquery.scope
    let exports ← ids.mapM (exportsOf vars)
    return { subquery with exports := addNewExports [] exports.flatten }

/-- Gives every subquery its exports. -/
def findExports (draft : Draft) : Except LoweringError Draft := do
  let subqueries ← draft.tree.subqueries.mapM (subqueryExports draft.vars)
  return { draft with tree := { draft.tree with subqueries } }

/-- A property that an expression reads of a variable, with the scope that reads it. -/
structure PropertyRead where
  base : VarId
  key : String
  scope : Nat
  deriving DecidableEq

/-- The property that an expression by itself reads of a variable. -/
def Expr.propertyRead? : Expr → Option (VarId × String)
  | .property (.var base) key => some (base, key)
  | _ => none

/-- The properties that an expression reads in a scope. -/
def readsOf (scope : Nat) (expr : Expr) : List PropertyRead :=
  (expr.parts.filterMap Expr.propertyRead?).map fun (base, key) => ⟨base, key, scope⟩

/-- The properties that the scopes of a tree read, then those that projected variables read where
they are declared.
-/
def propertyReads (tree : Tree) (vars : VarTable) : List PropertyRead :=
  (tree.scopes.flatMap fun scope => scope.expressions.flatMap (readsOf scope.index)) ++
    vars.toList.flatMap fun var =>
      (var.definition.projection?.toList).flatMap (readsOf var.scope)

/-- Notes that a scope reads a property: the outermost one is kept. -/
def require (required : NameMap Nat) (read : PropertyRead) : NameMap Nat :=
  required.insert read.key ((required.get? read.key).elim read.scope (max · read.scope))

/-- The definition with a property that is read, if it is a node or a relationship. -/
def Definition.require? (read : PropertyRead) : Definition → Option Definition
  | .node pattern => some (.node { pattern with required := require pattern.required read })
  | .relationship rel =>
      some (.relationship { rel with required := require rel.required read })
  | _ => none

/-- Marks a property of the variable that the base of a read stands for. -/
def markRead (vars : VarTable) (read : PropertyRead) : VarTable :=
  let id := vars.resolve read.base
  match (vars.definition? id).bind (Definition.require? read) with
  | some definition => vars.redefine id definition
  | none => vars

/-- Marks every property that is read. -/
def markProperties (draft : Draft) : Draft :=
  { draft with vars := (propertyReads draft.tree draft.vars).foldl markRead draft.vars }

end CypherSql.Plan
