import CypherSql.Data.NameMap
import CypherSql.Operator
import CypherSql.Text.Blank
import CypherSql.Text.Shown

/-!
Graph topologies: which tables hold the nodes of a label set and the relationships of a type, and
what makes a topology valid.
-/

namespace CypherSql

/-- How snapshots of the graph are stored. -/
inductive StorageLayout where
  | ignoreTime
  | snapshot
  deriving DecidableEq, Repr

/-- The unit of a snapshot window. -/
inductive SnapshotUnit where
  | seconds
  | minutes
  | hours
  | days
  deriving DecidableEq, Repr

/-- The length of the unit in seconds. -/
def SnapshotUnit.inSeconds : SnapshotUnit → Nat
  | .seconds => 1
  | .minutes => 60
  | .hours => 3600
  | .days => 86400

/-- What a topology says about the storage of its tables. -/
structure StorageMetadata where
  layout : Option StorageLayout
  factor : Option UInt32
  unit : Option SnapshotUnit
  deriving DecidableEq

namespace StorageMetadata

/-- The layout, where none is given the one that ignores time. -/
def effectiveLayout (metadata : StorageMetadata) : StorageLayout :=
  metadata.layout.getD .ignoreTime

/-- The length of a snapshot window, if both its factor and its unit are given. -/
def windowSeconds (metadata : StorageMetadata) : Option Nat :=
  match metadata.factor, metadata.unit with
  | some factor, some unit => some (factor.toNat * unit.inSeconds)
  | _, _ => none

end StorageMetadata

/-- The table that holds the nodes with a set of labels. Properties without a column of their own
name are listed in `columns`.
-/
structure NodeMapping where
  labels : NameSet
  table : String
  keyColumn : String
  columns : NameMap String
  deriving DecidableEq

/-- The table that holds the relationships of a type. A label given for an end restricts the nodes
at that end.
-/
structure RelationshipMapping where
  type : String
  table : String
  fromLabel : Option String
  toLabel : Option String
  fromColumn : String
  toColumn : String
  keyColumn : Option String
  columns : NameMap String
  deriving DecidableEq

/-- A graph topology. -/
structure Topology where
  metadata : Option StorageMetadata
  nodes : List NodeMapping
  relationships : List RelationshipMapping
  deriving DecidableEq

/-- What makes a topology invalid. -/
inductive TopologyFault where
  | zeroFactor
  | emptyNodeTable (labels : NameSet)
  | duplicateLabels (labels : NameSet)
  | incompleteRelationship (type : String)
  deriving DecidableEq

/-- A label set as it is shown in a message about a topology. -/
def shownLabels (labels : NameSet) : String :=
  "\x7b" ++ String.intercalate ", " (labels.names.map Text.shown) ++ "\x7d"

/-- The wording of a fault. -/
def TopologyFault.message : TopologyFault → String
  | .zeroFactor =>
      "snapshot_concatenation_factor: Snapshot concatenation factor must be positive"
  | .emptyNodeTable labels =>
      "node mapping for labels " ++ shownLabels labels ++ " has an empty table name"
  | .duplicateLabels labels => "duplicate node mapping for labels " ++ shownLabels labels
  | .incompleteRelationship type =>
      "relationship mapping `" ++ type ++ "` needs both a type and a table"

namespace Topology

/-- The first fault of the nodes after those with given label sets: an empty table name, or labels
that were mapped before.
-/
def nodeFault? (seen : List NameSet) : List NodeMapping → Option TopologyFault
  | [] => none
  | node :: rest =>
      if Text.isAllBlank node.table then some (.emptyNodeTable node.labels)
      else if node.labels ∈ seen then some (.duplicateLabels node.labels)
      else nodeFault? (node.labels :: seen) rest

/-- The first relationship without a type or a table. -/
def relationshipFault? (relationships : List RelationshipMapping) : Option TopologyFault :=
  (relationships.find? fun rel => Text.isAllBlank rel.table || Text.isAllBlank rel.type).map
    (.incompleteRelationship ·.type)

/-- The snapshot factor is given as zero. -/
def hasZeroFactor (topology : Topology) : Bool :=
  topology.metadata.any fun metadata => metadata.factor = some 0

/-- The first fault of the topology: of its metadata, then its nodes, then its relationships. -/
def fault? (topology : Topology) : Option TopologyFault :=
  if topology.hasZeroFactor then some .zeroFactor
  else (nodeFault? [] topology.nodes).or (relationshipFault? topology.relationships)

end Topology

end CypherSql
