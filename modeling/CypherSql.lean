import CypherSql.Main
import CypherSql.Proofs.ColumnNames
import CypherSql.Proofs.ColumnTexts
import CypherSql.Proofs.CountedPaths
import CypherSql.Proofs.DistinctNames
import CypherSql.Proofs.Expressions
import CypherSql.Proofs.FilterPlacement
import CypherSql.Proofs.FreshNames
import CypherSql.Proofs.HopVariants
import CypherSql.Proofs.InlinedConstants
import CypherSql.Proofs.IntegerLiterals
import CypherSql.Proofs.JoinOrder
import CypherSql.Proofs.JsonTexts
import CypherSql.Proofs.MappingOrder
import CypherSql.Proofs.MergedOrder
import CypherSql.Proofs.Names
import CypherSql.Proofs.NodeTables
import CypherSql.Proofs.OpenedComments
import CypherSql.Proofs.OperatorGrouping
import CypherSql.Proofs.Outcome
import CypherSql.Proofs.Parameters
import CypherSql.Proofs.ParsedQueries
import CypherSql.Proofs.ParserProgress
import CypherSql.Proofs.Pipeline
import CypherSql.Proofs.PrintedQueries
import CypherSql.Proofs.PropertyAccesses
import CypherSql.Proofs.QuotedTokens
import CypherSql.Proofs.RangeRecognition
import CypherSql.Proofs.Reaggregation
import CypherSql.Proofs.ReferentialIntegrity
import CypherSql.Proofs.Refinement
import CypherSql.Proofs.RelationshipLookup
import CypherSql.Proofs.RenamedQueries
import CypherSql.Proofs.RequiredPatterns
import CypherSql.Proofs.ReversedPatterns
import CypherSql.Proofs.Rewriting
import CypherSql.Proofs.Scoping
import CypherSql.Proofs.Settled
import CypherSql.Proofs.SettledSortKeys
import CypherSql.Proofs.StringPredicates
import CypherSql.Proofs.SubqueryColumns
import CypherSql.Proofs.TableAgreement
import CypherSql.Proofs.TopologyDocuments
import CypherSql.Proofs.Traversal
import CypherSql.Proofs.VariableModel
import CypherSql.Proofs.WrittenLabels
