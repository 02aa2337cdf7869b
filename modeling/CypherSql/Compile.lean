import CypherSql.Cypher.QueryParser
import CypherSql.Settings.Basic
import CypherSql.Sql.Render

/-!
Compilation of a query: its text is expanded, each variant is parsed and lowered, and the variants
are merged and written as SQL.
-/

namespace CypherSql

/-- Why a query cannot be compiled. -/
inductive CompileError where
  | parsing (trace : Cypher.Trace)
  | expansion (error : Expansion.ExpansionError)
  | lowering (error : Plan.LoweringError)
  | rendering (error : Sql.RenderError)

namespace CompileError

/-- The wording of an error. -/
def message : CompileError → String
  | .parsing trace => "Failed to parse query: " ++ trace.hint
  | .expansion error => error.message
  | .lowering error => error.message
  | .rendering error => error.message

/-- Who has to act on the error. -/
def category : CompileError → Category
  | .parsing _ => .userQuery
  | .expansion error => error.category
  | .lowering error => error.category
  | .rendering error => error.category

end CompileError

/-- Parses and lowers the text of a variant. -/
def lowerText (catalog : Catalog) (source : String) : Except CompileError Plan.Lowered := do
  let query ← (Cypher.Query.parse source).mapError .parsing
  (Plan.lower catalog query).mapError .lowering

/-- Compiles the variants of a query. The first variant that cannot be lowered decides about the
error.
-/
def compileVariants (catalog : Catalog) (unionDistinct : Bool) (variants : List String)
    : Except CompileError String := do
  let lowered ← variants.mapM (lowerText catalog)
  let merged ← (Plan.merge unionDistinct lowered).mapError .lowering
  (Sql.mergedText merged).mapError .rendering

/-- Compiles a query. -/
def compile (settings : Settings) (catalog : Catalog) (source : String)
    : Except CompileError String := do
  let variants ← (Expansion.expand settings.limits source).mapError .expansion
  compileVariants catalog settings.unionDistinct variants

end CypherSql
