import CypherSql.Plan.Model
import CypherSql.Plan.Scopes
import CypherSql.Plan.Simplify

/-!
Lowering of a query: its variables are collected, and thirteen steps turn them into a tree of
selects.
-/

namespace CypherSql.Plan

/-- The steps after the variables are collected, in order. -/
def Step.pipeline : List Step :=
  [.inferTypes, .buildScopes, .nameSubqueries, .findSources, .moveRestrictions, .resolveTables,
    .arrangeJoins, .findExports, .simplifyFunctions, .simplifyProperties, .inlineConstants,
    .markProperties, .resolveNames]

/-- The step of a name. -/
def Step.ofName? (name : String) : Option Step :=
  Step.pipeline.find? fun step => step.name = name

/-- Runs a step. The collection of variables and the merge of variants do nothing here. -/
def runStep (catalog : Catalog) (step : Step) (draft : Draft) : Except LoweringError Draft :=
  match step with
  | .collectVariables => .ok draft
  | .inferTypes => inferTypes draft
  | .buildScopes => buildScopes draft
  | .nameSubqueries => nameSubqueries draft
  | .findSources => findSources draft
  | .moveRestrictions => moveRestrictions draft
  | .resolveTables => resolveTables catalog draft
  | .arrangeJoins => arrangeJoins catalog draft
  | .findExports => findExports draft
  | .simplifyFunctions => simplifyFunctions draft
  | .simplifyProperties => .ok (simplifyProperties draft)
  | .inlineConstants => .ok (inlineConstants draft)
  | .markProperties => .ok (markProperties draft)
  | .resolveNames => .ok (resolveNames draft)
  | .mergeVariants => .ok draft

/-- The draft of a query whose variables are collected. -/
def Draft.ofQuery (query : Cypher.Query) : Except LoweringError Draft := do
  let walk ← collect query
  return { tree := .empty, vars := walk.vars, naming := walk.naming, models := walk.models,
           warnings := [] }

/-- Runs steps in order. -/
def runSteps (catalog : Catalog) (steps : List Step) (draft : Draft)
    : Except LoweringError Draft :=
  steps.foldlM (fun draft step => runStep catalog step draft) draft

/-- A lowered query. -/
structure Lowered where
  tree : Tree
  vars : VarTable
  warnings : List Warning

/-- The lowered query of a finished draft, whose items all have their tables. -/
def Draft.finish (draft : Draft) : Except LoweringError Lowered :=
  match draft.tree.fault? true with
  | some fault => fail .arrangeJoins (.breach (.badTree fault))
  | none => .ok { tree := draft.tree, vars := draft.vars, warnings := draft.warnings }

/-- Lowers a query. -/
def lower (catalog : Catalog) (query : Cypher.Query) : Except LoweringError Lowered := do
  let draft ← Draft.ofQuery query
  let draft ← runSteps catalog Step.pipeline draft
  draft.finish

end CypherSql.Plan
