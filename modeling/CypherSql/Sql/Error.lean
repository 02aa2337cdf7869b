import CypherSql.Plan.Error

/-!
Why a tree cannot be written as SQL, and the wording.
-/

namespace CypherSql.Sql

/-- What a tree asks for that SQL does not have. -/
inductive Feature where
  | pathValue (id : Plan.VarId)
  | propertyOf (base : Plan.Expr)
  | mapValue (value : Plan.Expr)
  | function (name : String)
  deriving DecidableEq

/-- The wording of a feature. -/
def Feature.text : Feature → String
  | .pathValue id => "path `" ++ id ++ "` as a value"
  | .propertyOf base => "property access on `" ++ base.text ++ "`"
  | .mapValue value => "map value `" ++ value.text ++ "`"
  | .function name => "function `" ++ name ++ "`"

/-- What a variable is read for. -/
inductive ReadKind where
  | value
  | property
  deriving DecidableEq, Repr

/-- The name of the kind of a read. -/
def ReadKind.name : ReadKind → String
  | .value => "Variable"
  | .property => "PropertyAccess"

/-- A broken invariant of a tree. -/
inductive Breach where
  | noColumns (scope : Nat)
  | undeclared (id : Plan.VarId)
  | notProjected (id : Plan.VarId)
  | entityOfOther (id : Plan.VarId)
  | unbound (id : Plan.VarId)
  | badItem (fault : Plan.ItemFault)
  | unplacedConditions (count : Nat)
  | missingSubquery (source : Nat)
  | unnamedSubquery (source : Nat)
  | unnamedSource (source : Nat)
  | noSource
  deriving DecidableEq

namespace Breach

/-- The part of the tree that a breach is about. -/
def part : Breach → String
  | .noColumns _ => "ScopeSelect"
  | .undeclared _ => "ReturnItem"
  | .notProjected _ => "ReturnItem"
  | .entityOfOther _ => "Export"
  | .unbound _ => "FromItem"
  | .badItem _ => "FromItem"
  | .unplacedConditions _ => "FromItem"
  | .missingSubquery _ => "FromItem"
  | .unnamedSubquery _ => "WithSelect"
  | .unnamedSource _ => "FromItem"
  | .noSource => "FromItem"

/-- The wording of a breach. -/
def message : Breach → String
  | .noColumns scope => "scope " ++ toString scope ++ " selects no columns"
  | .undeclared id => "`" ++ id ++ "` is not declared"
  | .notProjected id => "`" ++ id ++ "` is not an alias"
  | .entityOfOther id => "entity export `" ++ id ++ "` is no node or relationship"
  | .unbound id => "`" ++ id ++ "` has no table binding"
  | .badItem fault => fault.message
  | .unplacedConditions count => toString count ++ " conditions were never placed"
  | .missingSubquery source => "missing subquery " ++ Plan.subqueryText source
  | .unnamedSubquery source => "subquery " ++ Plan.subqueryText source ++ " has no name"
  | .unnamedSource source => "unnamed subquery " ++ Plan.subqueryText source
  | .noSource => "neither a subquery nor a table"

end Breach

/-- Why a tree cannot be written. -/
inductive RenderError where
  | unsupported (feature : Feature)
  | missingSupplier (kind : ReadKind) (id : Plan.VarId) (scope : Nat)
  | invalidTree (breach : Breach)
  deriving DecidableEq

namespace RenderError

/-- The wording of an error. -/
def message : RenderError → String
  | .unsupported feature => "Unsupported in SQL output: " ++ feature.text
  | .missingSupplier kind id scope =>
      "bug found while rendering " ++ kind.name ++ ": no FROM item supplies `" ++ id ++
        "` in scope " ++ toString scope
  | .invalidTree breach => "bug found while rendering " ++ breach.part ++ ": " ++ breach.message

/-- Who has to act on the error. -/
def category : RenderError → Category
  | .unsupported _ => .unsupportedFeature
  | .missingSupplier _ _ _ => .internalInvariant
  | .invalidTree _ => .internalInvariant

end RenderError

end CypherSql.Sql
