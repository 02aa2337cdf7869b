/-!
Who has to act on an error.
-/

namespace CypherSql

/-- The party an error concerns: the author of the query or of the topology, nobody yet, or the
maintainers.
-/
inductive Category where
  | userQuery
  | unsupportedFeature
  | internalInvariant
  deriving DecidableEq, Repr

/-- The wording of a category. -/
def Category.text : Category → String
  | .userQuery => "user query error"
  | .unsupportedFeature => "unsupported feature"
  | .internalInvariant => "bug found"

end CypherSql
