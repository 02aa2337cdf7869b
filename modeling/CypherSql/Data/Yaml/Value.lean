import CypherSql.Data.Document
import CypherSql.Data.Yaml.Lexer
import CypherSql.Data.Yaml.Node

/-!
Reading typed values from YAML sources. A plain scalar has no type of its own: the place that reads
it decides whether it is a text, a number, a truth value or null.
-/

namespace CypherSql.Yaml

namespace Node

mutual

/-- The nodes with anchors in a node, in the order in which they start. -/
def anchors : Node → List (Nat × Node)
  | .reference _ => []
  | .anchored anchor node => (anchor, node) :: node.anchors
  | .scalar _ _ _ => []
  | .list items => itemAnchors items
  | .record entries => entryAnchors entries

/-- The nodes with anchors in the items of a list. -/
def itemAnchors : List Node → List (Nat × Node)
  | [] => []
  | item :: items => item.anchors ++ itemAnchors items

/-- The nodes with anchors in the entries of a record. -/
def entryAnchors : List (Node × Node) → List (Nat × Node)
  | [] => []
  | (key, value) :: entries => key.anchors ++ value.anchors ++ entryAnchors entries

end

mutual

/-- The number of marks that a node is made of: one for a scalar or an alias, and two around the
parts of a collection.
-/
def marks : Node → Nat
  | .reference _ => 1
  | .anchored _ node => node.marks
  | .scalar _ _ _ => 1
  | .list items => itemMarks items + 2
  | .record entries => entryMarks entries + 2

/-- The number of marks of the items of a list. -/
def itemMarks : List Node → Nat
  | [] => 0
  | item :: items => item.marks + itemMarks items

/-- The number of marks of the entries of a record. -/
def entryMarks : List (Node × Node) → Nat
  | [] => 0
  | (key, value) :: entries => key.marks + value.marks + entryMarks entries

end

end Node

/-- A number that a plain scalar denotes: decimal digits, or digits after `0x`, `0o` or `0b`, with
an optional plus sign. Decimal digits after a leading zero are no number.
-/
def plainNumber? (written : String) : Option Nat :=
  let unsigned :=
    match written.toList with
    | '+' :: rest => rest
    | cs => cs
  match unsigned with
  | '0' :: 'x' :: rest => digitsValue? 16 rest
  | '0' :: 'o' :: rest => digitsValue? 8 rest
  | '0' :: 'b' :: rest => digitsValue? 2 rest
  | '0' :: _ :: _ => none
  | cs => digitsValue? 10 cs

/-- The truth value that a plain scalar denotes. -/
def plainBoolean? (written : String) : Option Bool :=
  if written ∈ ["true", "True", "TRUE"] then some true
  else if written ∈ ["false", "False", "FALSE"] then some false
  else none

/-- A plain scalar is a word for null. -/
def isNullWord (written : String) : Bool :=
  written ∈ ["null", "Null", "NULL", "~"]

/-- The tag of a type of the core schema. -/
def coreTag (name : String) : Octets :=
  octets ("tag:yaml.org,2002:" ++ name)

/-- The name that a tag gives after its mark; a mark alone is a name of its own. -/
def tagName? (tag : Octets) : Option String :=
  match tag with
  | [] => none
  | [c] => if c = 33 then some "!" else none
  | c :: rest => if c = 33 then String.fromUTF8? ⟨rest.toArray⟩ else none

/-- A node with the nodes that aliases stand for; of two with the same number the later one
counts.
-/
structure Value where
  targets : List (Nat × Node)
  node : Node

/-- Reading a value, while counting the aliases that are followed. -/
abbrev Reading := StateT Nat Option

namespace Value

/-- The value of the root of a document. -/
def ofRoot (node : Node) : Value :=
  ⟨node.anchors.reverse, node⟩

/-- The node itself, or the one that it stands for. -/
def followed (value : Value) : Reading Node := do
  match value.node with
  | .reference anchor =>
      modify (· + 1)
      match value.targets.lookup anchor with
      | some node => return node
      | none => failure
  | .anchored _ node => return node
  | node => return node

/-- A part of the value. -/
def part (value : Value) (node : Node) : Value :=
  { value with node }

/-- The value as a text, which each scalar is. -/
def text (value : Value) : Reading String := do
  match ← value.followed with
  | .scalar _ _ written => return written
  | _ => failure

/-- The value as one that plain scalars denote, or literal ones with the tag of the type. -/
def plain {α : Type} (type : String) (read : String → Option α) (value : Value)
    : Reading α := do
  match ← value.followed with
  | .scalar tag style written =>
      if style = .plain ∨ (style = .literal ∧ tag = some (coreTag type)) then
        match read written with
        | some result => return result
        | none => failure
      else failure
  | _ => failure

/-- The value as a list; an empty plain scalar is the empty list. -/
def list (value : Value) : Reading (List Value) := do
  match ← value.followed with
  | .list items => return items.map value.part
  | .scalar _ .plain "" => return []
  | _ => failure

/-- The value as a record of names; an empty plain scalar is the empty record. -/
def record (value : Value) : Reading (List (String × Value)) := do
  match ← value.followed with
  | .record entries =>
      entries.mapM fun (key, entry) => return (← (value.part key).text, value.part entry)
  | .scalar _ .plain "" => return []
  | _ => failure

/-- The fields of a record in a given order. -/
def fields (names : List String) (value : Value) : Reading (List (Option Value)) := do
  match uniqueEntries? names (← value.record) with
  | some fields => return fields
  | none => failure

/-- The value as a name from a fixed choice. A tag gives it before an empty scalar or null, and a
scalar without such a tag is the name itself.
-/
def choice {α : Type} (choices : List (String × α)) (value : Value) : Reading α := do
  match ← value.followed with
  | .scalar tag style written =>
      let chosen :=
        match tag.bind tagName? with
        | some name =>
            if style = .plain ∧ (written = "" ∨ isNullWord written) then choices.lookup name
            else none
        | none => choices.lookup written
      match chosen with
      | some result => return result
      | none => failure
  | _ => failure

/-- The value, unless it is a plain scalar that is empty or a word for null. With the tag of null
it has to be such a word, and with another tag it is no null.
-/
def present? (value : Value) : Reading (Option Value) := do
  let node ← value.followed
  match node with
  | .scalar tag .plain written =>
      match tag with
      | none =>
          if written = "" ∨ isNullWord written then return none else return some (value.part node)
      | some tag =>
          if tag ≠ coreTag "null" then return some (value.part node)
          else if isNullWord written then return none
          else failure
  | _ => return some (value.part node)

instance : Readable Value Reading where
  refuse := failure
  text := text
  number bound := plain "int" fun written => (plainNumber? written).filter (· ≤ bound)
  boolean := plain "bool" plainBoolean?
  list := list
  record := record
  fields := fields
  choice := choice
  present? := present?

end Value

/-- The typed value that a source gives with at most one document in it. Without one it is an empty
plain scalar. Aliases are followed at most a hundred times for each mark of the document.
-/
def read? {α : Type} (read : Value → Reading α) (source : String) : Option α := do
  let root ← node? (← tokens? source.toList)
  let (result, followed) ← (read (.ofRoot root)).run 0
  if followed ≤ 100 * root.marks then return result else none

end CypherSql.Yaml
