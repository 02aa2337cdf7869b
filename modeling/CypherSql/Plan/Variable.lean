import CypherSql.Plan.Expr
import CypherSql.Topology.Lookup

/-!
The variables of a query. Each is known by its id alone; names may repeat. The table of variables
also keeps on which others the definition of each depends.
-/

namespace CypherSql.Plan

/-- What a variable stands for. -/
inductive VarType where
  | node
  | relationship
  | path
  | scalar
  deriving DecidableEq, Repr

namespace VarType

/-- The wording of a type. -/
def text : VarType → String
  | .node => "node"
  | .relationship => "relationship"
  | .path => "path"
  | .scalar => "scalar"

/-- The name by which messages about broken invariants call the type. -/
def name : VarType → String
  | .node => "Node"
  | .relationship => "Relationship"
  | .path => "Path"
  | .scalar => "Scalar"

end VarType

/-- A node of a pattern. For each property that is read, `required` has the outermost scope that
reads it.
-/
structure NodeVar where
  labels : NameSet
  restriction : Option Expr
  required : NameMap Nat
  binding : Option TableBinding
  deriving DecidableEq

/-- A relationship of a pattern between its left and right node as written. -/
structure RelationshipVar where
  left : VarId
  right : VarId
  direction : Direction
  types : List String
  restriction : Option Expr
  required : NameMap Nat
  binding : Option RelationshipBinding
  deriving DecidableEq

/-- The definition of a variable: a part of a pattern, a path with its nodes and relationships in
turn, a projected expression, or the column of an expression that was given no name.
-/
inductive Definition where
  | node (node : NodeVar)
  | relationship (relationship : RelationshipVar)
  | path (hops : Nat) (elements : List VarId)
  | projected (expr : Expr) (type : Option VarType)
  | temporary (column : String)
  deriving DecidableEq

namespace Definition

/-- The wording of the kind of a definition. -/
def kind : Definition → String
  | .node _ => "a node"
  | .relationship _ => "a relationship"
  | .path _ _ => "a path"
  | .projected _ _ => "an alias"
  | .temporary _ => "a temporary"

/-- The type that the definition shows by itself. -/
def type? : Definition → Option VarType
  | .node _ => some .node
  | .relationship _ => some .relationship
  | .path _ _ => some .path
  | .projected _ type => type
  | .temporary _ => some .scalar

/-- The variable that the definition is another name of, if it is one. -/
def target? : Definition → Option VarId
  | .projected (.var target) _ => some target
  | _ => none

/-- The expression of a projection. -/
def projection? : Definition → Option Expr
  | .projected expr _ => some expr
  | _ => none

/-- The definition is that of a column without a name. -/
def isTemporary : Definition → Bool
  | .temporary _ => true
  | _ => false

/-- The variables that a condition refers to. -/
def restrictionVariables (restriction : Option Expr) : NameSet :=
  restriction.elim ∅ Expr.references

/-- The variables that the definition of a variable refers to, itself left out of its own
conditions and ends.
-/
def dependencies (id : VarId) : Definition → NameSet
  | .node pattern => (restrictionVariables pattern.restriction).erase id
  | .relationship rel =>
      (((restrictionVariables rel.restriction).insert rel.left).insert rel.right).erase id
  | .path _ elements => .ofList elements
  | .projected expr _ => expr.references
  | .temporary _ => ∅

end Definition

/-- A variable with the name it was written as and the scope that declares it. -/
structure Variable where
  name : String
  id : VarId
  scope : Nat
  definition : Definition
  deriving DecidableEq

/-- The variables of a query, and the dependencies of all but the temporary ones. -/
structure VarTable where
  vars : NameMap Variable
  dependencies : NameMap NameSet
  deriving DecidableEq

namespace VarTable

/-- The table without variables. -/
def empty : VarTable := ⟨∅, ∅⟩

instance : Inhabited VarTable := ⟨empty⟩

/-- The variable of an id. -/
def get? (table : VarTable) (id : VarId) : Option Variable :=
  table.vars.get? id

/-- The definition of an id. -/
def definition? (table : VarTable) (id : VarId) : Option Definition :=
  (table.get? id).map (·.definition)

/-- The number of variables. -/
def size (table : VarTable) : Nat :=
  table.vars.size

/-- The ids in ascending order. -/
def ids (table : VarTable) : List VarId :=
  table.vars.keys

/-- The variables in the order of their ids. -/
def toList (table : VarTable) : List Variable :=
  table.vars.values

/-- The dependencies with those of a variable put in, unless it is temporary. -/
def recordDependencies (dependencies : NameMap NameSet) (var : Variable) : NameMap NameSet :=
  if var.definition.isTemporary then dependencies
  else dependencies.insert var.id (var.definition.dependencies var.id)

/-- The table with a variable, in place of the one that may have had its id. -/
def insert (table : VarTable) (var : Variable) : VarTable :=
  { vars := table.vars.insert var.id var
    dependencies := recordDependencies table.dependencies var }

/-- The table without a variable, which no other depends on any more. -/
def remove (table : VarTable) (id : VarId) : VarTable :=
  { vars := table.vars.erase id
    dependencies := (table.dependencies.erase id).mapValues (·.erase id) }

/-- The table with another definition of a variable; its dependencies stay as they are. -/
def redefine (table : VarTable) (id : VarId) (definition : Definition) : VarTable :=
  { table with vars := table.vars.modify id fun var => { var with definition } }

/-- The table with the dependencies of a variable read off its definition again. -/
def refresh (table : VarTable) (id : VarId) : VarTable :=
  match table.get? id with
  | some var => { table with dependencies := recordDependencies table.dependencies var }
  | none => table

/-- The variables whose definitions refer to a variable. -/
def dependents (table : VarTable) (id : VarId) : List VarId :=
  (table.dependencies.entries.filter fun entry => id ∈ entry.2).map (·.1)

/-- Follows variables that are other names of variables, a number of times at most. -/
def resolveWithin (table : VarTable) : Nat → VarId → VarId
  | 0, id => id
  | n + 1, id =>
      match (table.definition? id).bind Definition.target? with
      | some target => resolveWithin table n target
      | none => id

/-- The variable that a variable is another name of, or itself. No chain of names is longer than
the table.
-/
def resolve (table : VarTable) (id : VarId) : VarId :=
  resolveWithin table (table.size + 1) id

/-- The type of a variable, looking through other names. -/
def type? (table : VarTable) (id : VarId) : Option VarType :=
  (table.definition? (table.resolve id)).bind Definition.type?

/-- The variable projects an expression with an aggregate in it. -/
def isAggregate (table : VarTable) (id : VarId) : Bool :=
  ((table.definition? id).bind Definition.projection?).any Expr.hasAggregate

/-- The node that an id stands for by itself. -/
def node? (table : VarTable) (id : VarId) : Option NodeVar :=
  match table.definition? id with
  | some (.node node) => some node
  | _ => none

/-- The relationship that an id stands for by itself. -/
def relationship? (table : VarTable) (id : VarId) : Option RelationshipVar :=
  match table.definition? id with
  | some (.relationship relationship) => some relationship
  | _ => none

end VarTable

end CypherSql.Plan
