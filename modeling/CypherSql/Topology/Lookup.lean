import CypherSql.Topology.Basic

/-!
Finding the table behind a label set or a relationship pattern.
-/

namespace CypherSql

/-- The table behind a label set. -/
structure TableBinding where
  table : String
  keyColumn : String
  labels : NameSet
  columns : NameMap String
  deriving DecidableEq

/-- On which end of a relationship table the left node of a pattern stands. -/
inductive Orientation where
  | forward
  | reversed
  | either
  deriving DecidableEq, Repr

namespace Orientation

/-- What two orientations have in common. -/
def merge (first second : Orientation) : Orientation :=
  if first = second then first else .either

/-- The orientation seen from the other end of the pattern. -/
def flip : Orientation → Orientation
  | .forward => .reversed
  | .reversed => .forward
  | .either => .either

/-- The name by which messages call the orientation. -/
def name : Orientation → String
  | .forward => "Forward"
  | .reversed => "Reversed"
  | .either => "Either"

end Orientation

/-- The table behind a relationship pattern. A table without a key of its own is identified by its
from column.
-/
structure RelationshipBinding where
  type : String
  table : String
  fromColumn : String
  toColumn : String
  keyColumn : String
  columns : NameMap String
  fromLabel : Option String
  toLabel : Option String
  orientation : Orientation
  deriving DecidableEq

/-- The column of a property; one that is not listed has the name of the property. -/
def columnFor (columns : NameMap String) (property : String) : String :=
  (columns.get? property).getD property

/-- The labels that the binding fixes for the left and the right end of the pattern. -/
def RelationshipBinding.endpointLabels (binding : RelationshipBinding)
    : Option String × Option String :=
  match binding.orientation with
  | .forward => (binding.fromLabel, binding.toLabel)
  | .reversed => (binding.toLabel, binding.fromLabel)
  | .either =>
      if binding.fromLabel = binding.toLabel then (binding.fromLabel, binding.toLabel)
      else (none, none)

/-- Why there is no topology, or no table in it. -/
inductive TopologyError where
  | unknownLabels (labels : NameSet)
  | ambiguousLabels (labels : NameSet) (tables : List String)
  | unknownRelationship (types : List String) (left right : NameSet)
  | ambiguousRelationship (types : List String) (left right : NameSet) (tables : List String)
  | unreadable
  | malformed
  | invalid (fault : TopologyFault)
  deriving DecidableEq

/-- Labels with colons between them, or a star for none. -/
def labelText (labels : NameSet) : String :=
  let joined := String.intercalate ":" labels.names
  if joined.isEmpty then "*" else joined

/-- Types with bars between them, or a star for none. -/
def typeText (types : List String) : String :=
  if types.isEmpty then "*" else String.intercalate "|" types

namespace TopologyError

/-- The wording of an error. -/
def message : TopologyError → String
  | .unknownLabels labels => "No node table found for labels `" ++ labelText labels ++ "`"
  | .ambiguousLabels labels tables =>
      "Labels `" ++ labelText labels ++ "` match several node tables: " ++
        String.intercalate ", " tables
  | .unknownRelationship types left right =>
      "No relationship table found for `" ++ typeText types ++ "` between `" ++ labelText left ++
        "` and `" ++ labelText right ++ "`"
  | .ambiguousRelationship types left right tables =>
      "Relationship `" ++ typeText types ++ "` between `" ++ labelText left ++ "` and `" ++
        labelText right ++ "` matches several tables: " ++ String.intercalate ", " tables
  | .unreadable => "Failed to read graph topology file"
  | .malformed => "Failed to parse graph topology"
  | .invalid fault => "Invalid graph topology: " ++ fault.message

/-- The error is about a query, not about the topology itself. -/
def isLookup : TopologyError → Bool
  | .unknownLabels _ => true
  | .ambiguousLabels _ _ => true
  | .unknownRelationship _ _ _ => true
  | .ambiguousRelationship _ _ _ _ => true
  | _ => false

end TopologyError

/-- What lowering asks of a topology: the table of a label set, and the table of a relationship
pattern with its types, the labels of its left and right node, and its arrow.
-/
structure Catalog where
  node : NameSet → Except TopologyError TableBinding
  relationship :
    List String → NameSet → NameSet → Direction → Except TopologyError RelationshipBinding

/-- The binding that a node mapping gives. -/
def NodeMapping.binding (mapping : NodeMapping) : TableBinding :=
  { table := mapping.table
    keyColumn := mapping.keyColumn
    labels := mapping.labels
    columns := mapping.columns }

namespace RelationshipMapping

/-- The binding that a relationship mapping gives on its own. -/
def binding (mapping : RelationshipMapping) (orientation : Orientation) : RelationshipBinding :=
  { type := mapping.type
    table := mapping.table
    fromColumn := mapping.fromColumn
    toColumn := mapping.toColumn
    keyColumn := mapping.keyColumn.getD mapping.fromColumn
    columns := mapping.columns
    fromLabel := mapping.fromLabel
    toLabel := mapping.toLabel
    orientation }

/-- A mapped label admits a node: no label admits all, and a node without labels may have any. -/
def admits (label : Option String) (labels : NameSet) : Bool :=
  label.all fun label => labels.isEmpty || label ∈ labels

/-- How the mapping can hold a pattern between nodes of given labels, if it can. -/
def orientation? (mapping : RelationshipMapping) (left right : NameSet)
    : Direction → Option Orientation :=
  let forward := admits mapping.fromLabel left && admits mapping.toLabel right
  let reversed := admits mapping.fromLabel right && admits mapping.toLabel left
  fun
  | .right => if forward then some .forward else none
  | .left => if reversed then some .reversed else none
  | .both =>
      match forward, reversed with
      | true, true => some .either
      | true, false => some .forward
      | false, true => some .reversed
      | false, false => none

end RelationshipMapping

namespace RelationshipBinding

/-- The mapping has the same table and the same columns for its ends. -/
def sharesTable (binding : RelationshipBinding) (mapping : RelationshipMapping) : Bool :=
  binding.table = mapping.table && binding.fromColumn = mapping.fromColumn &&
    binding.toColumn = mapping.toColumn

/-- The binding joined with another mapping of its table: only what both agree on is kept. -/
def join (binding : RelationshipBinding) (mapping : RelationshipMapping)
    (orientation : Orientation) : RelationshipBinding :=
  { binding with
    orientation := binding.orientation.merge orientation
    fromLabel := if binding.fromLabel = mapping.fromLabel then binding.fromLabel else none
    toLabel := if binding.toLabel = mapping.toLabel then binding.toLabel else none
    type :=
      if binding.type = mapping.type then binding.type else binding.type ++ "|" ++ mapping.type }

end RelationshipBinding

/-- The candidates with one more mapping, joined to the first candidate with its table. -/
def addCandidate (mapping : RelationshipMapping) (orientation : Orientation)
    : List RelationshipBinding → List RelationshipBinding
  | [] => [mapping.binding orientation]
  | candidate :: rest =>
      if candidate.sharesTable mapping then candidate.join mapping orientation :: rest
      else candidate :: addCandidate mapping orientation rest

namespace Topology

/-- The binding of the only node mapping whose labels include the given ones, or of the one with
exactly these labels.
-/
def lookupNode (topology : Topology) (labels : NameSet) : Except TopologyError TableBinding :=
  match topology.nodes.filter fun node => labels.subset node.labels with
  | [] => .error (.unknownLabels labels)
  | [node] => .ok node.binding
  | several =>
      match several.find? fun node => node.labels = labels with
      | some exact => .ok exact.binding
      | none => .error (.ambiguousLabels labels (several.map (·.table)))

/-- The mappings that can hold a relationship pattern, each with how it can. -/
def fitting (topology : Topology) (types : List String) (left right : NameSet)
    (direction : Direction) : List (RelationshipMapping × Orientation) :=
  topology.relationships.filterMap fun mapping =>
    if types.isEmpty || mapping.type ∈ types then
      (mapping.orientation? left right direction).map (mapping, ·)
    else none

/-- The tables that can hold a relationship pattern. -/
def candidates (topology : Topology) (types : List String) (left right : NameSet)
    (direction : Direction) : List RelationshipBinding :=
  (topology.fitting types left right direction).foldl
    (fun found entry => addCandidate entry.1 entry.2 found) []

/-- The only table that can hold a relationship pattern. No types stand for any type. -/
def lookupRelationship (topology : Topology) (types : List String) (left right : NameSet)
    (direction : Direction) : Except TopologyError RelationshipBinding :=
  match topology.candidates types left right direction with
  | [] => .error (.unknownRelationship types left right)
  | [binding] => .ok binding
  | several => .error (.ambiguousRelationship types left right (several.map (·.table)))

/-- The topology as lowering sees it. -/
def catalog (topology : Topology) : Catalog :=
  { node := topology.lookupNode
    relationship := topology.lookupRelationship }

end Topology

end CypherSql
