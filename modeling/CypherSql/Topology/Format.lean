import CypherSql.Data.Json
import CypherSql.Data.Yaml.Value
import CypherSql.Number.Digits
import CypherSql.Topology.Lookup

/-!
Topologies as JSON or YAML documents.
-/

namespace CypherSql

/-- The names of the storage layouts. -/
def storageLayouts : List (String × StorageLayout) :=
  [("ignoreTime", .ignoreTime), ("snapshot", .snapshot)]

/-- The names of the snapshot units. -/
def snapshotUnits : List (String × SnapshotUnit) :=
  [("seconds", .seconds), ("minutes", .minutes), ("hours", .hours), ("days", .days)]

/-- The name of a storage layout. -/
def StorageLayout.name : StorageLayout → String
  | .ignoreTime => "ignoreTime"
  | .snapshot => "snapshot"

/-- The name of a snapshot unit. -/
def SnapshotUnit.name : SnapshotUnit → String
  | .seconds => "seconds"
  | .minutes => "minutes"
  | .hours => "hours"
  | .days => "days"

section Reading

open Readable

variable {ν : Type} {m : Type → Type} [Monad m] [Readable ν m]

/-- The value as a number of 32 bits. -/
def readWord32 (value : ν) : m UInt32 :=
  return UInt32.ofNat (← number Number.largestWord32 value)

/-- The value as storage metadata. -/
def StorageMetadata.read (value : ν) : m StorageMetadata := do
  let names := ["storageLayout", "snapshotConcatenationFactor", "snapshotConcatenationUnit"]
  match ← fields names value with
  | [layout, factor, unit] =>
      return {
        layout := ← withDefault none (optional (choice storageLayouts)) layout
        factor := ← withDefault none (optional readWord32) factor
        unit := ← withDefault none (optional (choice snapshotUnits)) unit }
  | _ => refuse ν

/-- The value as a node mapping. -/
def NodeMapping.read (value : ν) : m NodeMapping := do
  match ← fields ["labels", "table", "idColumn", "properties"] value with
  | [labels, table, keyColumn, columns] =>
      return {
        labels := .ofList (← required texts labels)
        table := ← required text table
        keyColumn := ← withDefault "id" text keyColumn
        columns := ← withDefault ∅ textMap columns }
  | _ => refuse ν

/-- The value as a relationship mapping. -/
def RelationshipMapping.read (value : ν) : m RelationshipMapping := do
  let names := ["type", "table", "fromLabel", "toLabel", "fromColumn", "toColumn", "idColumn",
    "properties"]
  match ← fields names value with
  | [type, table, fromLabel, toLabel, fromColumn, toColumn, keyColumn, columns] =>
      return {
        type := ← required text type
        table := ← required text table
        fromLabel := ← withDefault none (optional text) fromLabel
        toLabel := ← withDefault none (optional text) toLabel
        fromColumn := ← withDefault "src" text fromColumn
        toColumn := ← withDefault "dst" text toColumn
        keyColumn := ← withDefault none (optional text) keyColumn
        columns := ← withDefault ∅ textMap columns }
  | _ => refuse ν

/-- The value as a topology. -/
def Topology.read (value : ν) : m Topology := do
  match ← fields ["metadata", "nodes", "relationships"] value with
  | [metadata, nodes, relationships] =>
      return {
        metadata := ← withDefault none (optional StorageMetadata.read) metadata
        nodes := ← withDefault [] (listOf NodeMapping.read) nodes
        relationships := ← withDefault [] (listOf RelationshipMapping.read) relationships }
  | _ => refuse ν

end Reading

namespace Document

/-- A field that is left out where it has no value. -/
def optionalField (name : String) (value : Option Document) : List (String × Document) :=
  value.toList.map (name, ·)

/-- A map of texts as a field, left out where it is empty. -/
def columnsField (columns : NameMap String) : List (String × Document) :=
  if columns.isEmpty then []
  else [("properties", .record (columns.entries.map fun (name, column) => (name, .text column)))]

end Document

/-- The metadata as a document. -/
def StorageMetadata.document (metadata : StorageMetadata) : Document :=
  .record <|
    Document.optionalField "storageLayout" (metadata.layout.map (.text ·.name)) ++
    Document.optionalField "snapshotConcatenationFactor"
      (metadata.factor.map fun factor => .integer factor.toNat) ++
    Document.optionalField "snapshotConcatenationUnit" (metadata.unit.map (.text ·.name))

/-- The node mapping as a document. -/
def NodeMapping.document (mapping : NodeMapping) : Document :=
  .record <|
    [("labels", .list (mapping.labels.names.map .text)),
      ("table", .text mapping.table),
      ("idColumn", .text mapping.keyColumn)] ++
    Document.columnsField mapping.columns

/-- The relationship mapping as a document. -/
def RelationshipMapping.document (mapping : RelationshipMapping) : Document :=
  .record <|
    [("type", .text mapping.type), ("table", .text mapping.table)] ++
    Document.optionalField "fromLabel" (mapping.fromLabel.map .text) ++
    Document.optionalField "toLabel" (mapping.toLabel.map .text) ++
    [("fromColumn", .text mapping.fromColumn), ("toColumn", .text mapping.toColumn)] ++
    Document.optionalField "idColumn" (mapping.keyColumn.map .text) ++
    Document.columnsField mapping.columns

namespace Topology

/-- The topology as a document. -/
def document (topology : Topology) : Document :=
  .record <|
    Document.optionalField "metadata" (topology.metadata.map (·.document)) ++
    [("nodes", .list (topology.nodes.map (·.document))),
      ("relationships", .list (topology.relationships.map (·.document)))]

/-- The topology as a JSON text on several lines. -/
def toJson (topology : Topology) : String :=
  Json.pretty topology.document

/-- The topology, if it is valid. -/
def validated (topology : Topology) : Except TopologyError Topology :=
  match topology.fault? with
  | some fault => .error (.invalid fault)
  | none => .ok topology

/-- The topology that was read, if it is valid. -/
def ofReading : Option Topology → Except TopologyError Topology
  | some topology => topology.validated
  | none => .error .malformed

/-- The topology that a document describes, if it is valid. -/
def ofDocument (document : Document) : Except TopologyError Topology :=
  ofReading (Topology.read document)

/-- The topology that a JSON text describes, if it is valid. -/
def ofJson (source : String) : Except TopologyError Topology :=
  ofReading ((Json.read? source).bind Topology.read)

/-- The topology that a YAML text describes, if it is valid. -/
def ofYaml (source : String) : Except TopologyError Topology :=
  ofReading (Yaml.read? Topology.read source)

/-- The extension of a file name: what follows its last point, unless the name opens with that
point.
-/
def extension? (path : String) : Option String :=
  let name := (path.toList.reverse.takeWhile (· != '/')).reverse
  let after := (name.reverse.takeWhile (· != '.')).reverse
  if name.length ≤ after.length + 1 then none else some (String.ofList after)

/-- The file name is that of a YAML file. -/
def isYamlPath (path : String) : Bool :=
  (extension? path).any fun extension =>
    String.ofList (extension.toList.map Char.toLower) ∈ ["yaml", "yml"]

/-- The topology in a file with given contents; a file that is not there has none. -/
def ofFile (path : String) (contents : Option String) : Except TopologyError Topology :=
  match contents with
  | none => .error .unreadable
  | some contents => if isYamlPath path then ofYaml contents else ofJson contents

end Topology

end CypherSql
