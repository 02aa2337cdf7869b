import CypherSql.Category
import CypherSql.Cypher.Query
import CypherSql.Plan.Tree

/-!
Why a query cannot be lowered: the step that found it out, the cause, and the wording.
-/

namespace CypherSql.Plan

/-- A step of lowering. -/
inductive Step where
  | collectVariables
  | inferTypes
  | buildScopes
  | nameSubqueries
  | findSources
  | moveRestrictions
  | resolveTables
  | arrangeJoins
  | findExports
  | simplifyFunctions
  | simplifyProperties
  | inlineConstants
  | markProperties
  | resolveNames
  | mergeVariants
  deriving DecidableEq, Repr

/-- The name of a step in messages. -/
def Step.name : Step → String
  | .collectVariables => "VarDependencies"
  | .inferTypes => "ComputeAliasVarType"
  | .buildScopes => "SelectTreeBuilder"
  | .nameSubqueries => "NameSubqueries"
  | .findSources => "ComputeFromItems"
  | .moveRestrictions => "MoveRestrictionInPattern"
  | .resolveTables => "ExpandNodeVarWithGtop"
  | .arrangeJoins => "PopulateJoins"
  | .findExports => "ComputeExports"
  | .simplifyFunctions => "TransformFunctions"
  | .simplifyProperties => "UnwrapPropertyAccess"
  | .inlineConstants => "UnwrapAliasVar"
  | .markProperties => "MarkPropertiesAsUsed"
  | .resolveNames => "UnwrapAliasExpr"
  | .mergeVariants => "ExpansionMerger"

/-- What is wrong with a query. -/
inductive QueryFault where
  | clauseAfterReturn (clause : String)
  | noReturn
  | projectedTwice (name : String)
  | unnamedInWith (text : String)
  | distinctInScalar (function : String)
  | starInScalar (function : String)
  | idOfOther (id : VarId) (type : Option VarType)
  | idWithoutVariable
  deriving DecidableEq

/-- The wording of a fault. -/
def QueryFault.message : QueryFault → String
  | .clauseAfterReturn clause => clause ++ " cannot follow RETURN"
  | .noReturn => "query must end with RETURN"
  | .projectedTwice name => "`" ++ name ++ "` is projected more than once"
  | .unnamedInWith text => "expression `" ++ text ++ "` in WITH must be aliased (use AS)"
  | .distinctInScalar function =>
      "DISTINCT is only allowed in aggregate functions, not in `" ++ function ++ "`"
  | .starInScalar function => "`*` is only allowed in count(*), not in `" ++ function ++ "`"
  | .idOfOther id type =>
      "id() expects a node or relationship, `" ++ id ++ "` is " ++
        type.elim "untyped" VarType.text
  | .idWithoutVariable => "id() expects a single node or relationship variable"

/-- What a query asks for that cannot be lowered. -/
inductive Feature where
  | addedLabels (name : String)
  | hopRange (name : String) (range : Cypher.HopRange)
  | repeatedRelationship (name : String)
  | optionalWithoutVariables (scope : Nat)
  | optionalFirst
  | typesInSeveralTables (types : List String) (name : String)
  | function (name : String)
  | aggregateOverVariants (function : Aggregate)
  | aggregateInside (expr : Expr)
  | orderByOther (key : Expr)
  deriving DecidableEq

/-- A bound of a hop range as it is shown in a message. -/
def boundText (bound : Option Nat) : String :=
  bound.elim "" toString

/-- The wording of a feature. -/
def Feature.text : Feature → String
  | .addedLabels name => "adding labels to `" ++ name ++ "` from an earlier scope"
  | .hopRange name range =>
      "variable-length relationship `" ++ name ++ "` (*" ++ boundText range.least ++ ".." ++
        boundText range.most ++ ") reached lowering unexpanded"
  | .repeatedRelationship name =>
      "relationship variable `" ++ name ++ "` used in more than one pattern"
  | .optionalWithoutVariables scope =>
      "OPTIONAL MATCH without new variables in scope " ++ toString scope
  | .optionalFirst => "OPTIONAL MATCH with no MATCH before it"
  | .typesInSeveralTables types name =>
      "relationship types " ++ String.intercalate "|" types ++ " of `" ++ name ++
        "` map to different tables"
  | .function name => "function `" ++ name ++ "`"
  | .aggregateOverVariants aggregate =>
      aggregate.name ++ "() over an expanded variable-length pattern"
  | .aggregateInside expr =>
      "aggregate inside `" ++ expr.text ++ "` over an expanded variable-length pattern"
  | .orderByOther key => "ORDER BY `" ++ key.text ++ "` that is not a returned column"

/-- A broken invariant: something that an earlier step should have seen to. -/
inductive Breach where
  | invisibleNode (id : VarId)
  | invisibleRelationship (id : VarId)
  | undeclaredTarget (id : VarId)
  | endlessNames (id : VarId)
  | endpointNoNode (endpoint relationship : VarId)
  | treeBuilt
  | misplacedScope (kind : ScopeKind) (position count : Nat)
  | noReturnScope
  | alreadyNamed (scope : Nat) (name : String)
  | unnamedProjection (scope : Nat) (expr : Expr)
  | hasSources (scope : Nat)
  | missingInner (scope source : Nat)
  | emptySubquery (source : Nat)
  | undeclaredReference (id : VarId)
  | notExported (id : VarId) (declaredIn scope : Nat)
  | restrictionOfOther (id : VarId)
  | undeclaredItem (id : VarId)
  | itemOfOther (kind : String) (id : VarId)
  | hasJoins (scope : Nat)
  | unboundRelationship (id : VarId)
  | conditionsOnRequired
  | badItem (fault : ItemFault)
  | exportsSet (scope : Nat)
  | undeclaredExport (id : VarId)
  | untypedExport (id : VarId) (type : Option VarType)
  | badTree (fault : ItemFault)
  | noVariants
  | otherColumns (variant : Nat) (columns expected : List String)
  | otherPaging (variant : Nat)
  | undefinedColumn (id : VarId)
  | undeclaredColumn (id : VarId)
  deriving DecidableEq

namespace Breach

/-- The part of the tree that a breach is about. -/
def part : Breach → String
  | .invisibleNode _ => "NodeVar"
  | .invisibleRelationship _ => "RelVar"
  | .undeclaredTarget _ => "AliasVar"
  | .endlessNames _ => "AliasVar"
  | .endpointNoNode _ _ => "Relationship"
  | .treeBuilt => "QueryTree"
  | .misplacedScope _ _ _ => "ScopeSelect"
  | .noReturnScope => "QueryTree"
  | .alreadyNamed _ _ => "WithSelect"
  | .unnamedProjection _ _ => "ReturnItem"
  | .hasSources _ => "SimpleSelect"
  | .missingInner _ _ => "ScopeSelect"
  | .emptySubquery _ => "FromItem"
  | .undeclaredReference _ => "Variable"
  | .notExported _ _ _ => "FromItem"
  | .restrictionOfOther _ => "FromItem"
  | .undeclaredItem _ => "FromItem"
  | .itemOfOther _ _ => "FromItem"
  | .hasJoins _ => "SimpleSelect"
  | .unboundRelationship _ => "RelVar"
  | .conditionsOnRequired => "FromItem"
  | .badItem _ => "FromItem"
  | .exportsSet _ => "WithSelect"
  | .undeclaredExport _ => "Export"
  | .untypedExport _ _ => "Export"
  | .badTree _ => "QueryTree"
  | .noVariants => "QueryTree"
  | .otherColumns _ _ _ => "ScopeSelect"
  | .otherPaging _ => "ScopeSelect"
  | .undefinedColumn _ => "ReturnItem"
  | .undeclaredColumn _ => "ReturnItem"

/-- The wording of a breach. -/
def message : Breach → String
  | .invisibleNode id => "`" ++ id ++ "` is visible but not declared"
  | .invisibleRelationship id => "`" ++ id ++ "` is visible but not declared"
  | .undeclaredTarget id => "`" ++ id ++ "` refers to an undeclared variable"
  | .endlessNames id => "alias chain of `" ++ id ++ "` does not end"
  | .endpointNoNode endpoint relationship =>
      "endpoint `" ++ endpoint ++ "` of `" ++ relationship ++ "` does not resolve to a node"
  | .treeBuilt => "tree is already built"
  | .misplacedScope kind position count =>
      kind.name ++ " scope at position " ++ toString position ++ " of " ++ toString count
  | .noReturnScope => "query has no RETURN scope"
  | .alreadyNamed scope name => "scope " ++ toString scope ++ " is already named `" ++ name ++ "`"
  | .unnamedProjection scope expr =>
      "WITH of scope " ++ toString scope ++ " projects `" ++ expr.text ++ "` without an alias"
  | .hasSources scope => "scope " ++ toString scope ++ " already has FROM items"
  | .missingInner scope source =>
      "scope " ++ toString scope ++ " reads from missing " ++ subqueryText source
  | .emptySubquery source => subqueryText source ++ " supplies no variables"
  | .undeclaredReference id => "`" ++ id ++ "` is referenced but not declared"
  | .notExported id declaredIn scope =>
      "`" ++ id ++ "` from scope " ++ toString declaredIn ++ " is not exported into scope " ++
        toString scope
  | .restrictionOfOther id =>
      "table item over `" ++ id ++ "`, which is no node or relationship"
  | .undeclaredItem id => "`" ++ id ++ "` is not declared"
  | .itemOfOther kind id => "table item over " ++ kind ++ " `" ++ id ++ "`"
  | .hasJoins scope => "scope " ++ toString scope ++ " already has joins"
  | .unboundRelationship id => "`" ++ id ++ "` reached join population without a table"
  | .conditionsOnRequired => "required item carries join conditions"
  | .badItem fault => fault.message
  | .exportsSet scope => "exports of scope " ++ toString scope ++ " computed twice"
  | .undeclaredExport id => "projected `" ++ id ++ "` is not declared"
  | .untypedExport id type =>
      let type := type.elim "None" fun type => "Some(" ++ type.name ++ ")"
      "`" ++ id ++ "` has type " ++ type
  | .badTree fault => fault.message
  | .noVariants => "no variants to merge"
  | .otherColumns variant columns expected =>
      "variant " ++ toString variant ++ " returns (" ++ String.intercalate ", " columns ++
        ") instead of (" ++ String.intercalate ", " expected ++ ")"
  | .otherPaging variant =>
      "variant " ++ toString variant ++ " differs in DISTINCT, SKIP or LIMIT"
  | .undefinedColumn id => "`" ++ id ++ "` is not an alias"
  | .undeclaredColumn id => "column `" ++ id ++ "` is not declared"

end Breach

/-- The cause of a failed lowering. -/
inductive Cause where
  | undefinedVariable (name : String)
  | kindConflict (name existing : String)
  | invalidQuery (fault : QueryFault)
  | lookup (hint : String) (source : TopologyError)
  | unsupported (feature : Feature)
  | breach (breach : Breach)
  deriving DecidableEq

namespace Cause

/-- The wording of a cause. -/
def message : Cause → String
  | .undefinedVariable name => "variable `" ++ name ++ "` is not defined"
  | .kindConflict name existing => "variable `" ++ name ++ "` is already declared as " ++ existing
  | .invalidQuery fault => fault.message
  | .lookup hint source => "no table for `" ++ hint ++ "`: " ++ source.message
  | .unsupported feature => "unsupported: " ++ feature.text
  | .breach broken => "bug found in " ++ broken.part ++ ": " ++ broken.message

/-- Who has to act on the cause. -/
def category : Cause → Category
  | .undefinedVariable _ => .userQuery
  | .kindConflict _ _ => .userQuery
  | .invalidQuery _ => .userQuery
  | .lookup _ _ => .userQuery
  | .unsupported _ => .unsupportedFeature
  | .breach _ => .internalInvariant

end Cause

/-- A failed lowering. -/
structure LoweringError where
  step : Step
  cause : Cause
  deriving DecidableEq

namespace LoweringError

/-- The wording of an error. -/
def message (error : LoweringError) : String :=
  error.step.name ++ ": " ++ error.cause.message

/-- Who has to act on the error. -/
def category (error : LoweringError) : Category :=
  error.cause.category

end LoweringError

/-- Fails a step for a cause. -/
def fail {α : Type} (step : Step) (cause : Cause) : Except LoweringError α :=
  .error ⟨step, cause⟩

end CypherSql.Plan
