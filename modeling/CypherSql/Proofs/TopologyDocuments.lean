import CypherSql.Proofs.JsonTexts
import CypherSql.Proofs.Names
import CypherSql.Topology.Format

/-! A topology is read back from its document: fields that are left out stand for the defaults,
names and numbers for themselves.
-/

namespace CypherSql

namespace Document

/-- The entries of fields in their order, those without a value left out. -/
def given (fields : List (String × Option Document)) : List (String × Document) :=
  fields.flatMap fun (name, value) => optionalField name value

theorem fst_of_mem_optionalField {name : String} {value : Option Document}
    {entry : String × Document}
    (member : entry ∈ optionalField name value)
    : entry.1 = name := by
  obtain ⟨document, -, rfl⟩ := List.mem_map.mp member
  rfl

theorem filter_given_of_not_mem {name : String} {fields : List (String × Option Document)}
    (absent : name ∉ fields.map Prod.fst)
    : (given fields).filter (·.1 == name) = [] := by
  rw [List.filter_eq_nil_iff]
  intro entry member
  obtain ⟨field, inFields, inField⟩ := List.mem_flatMap.mp member
  rw [fst_of_mem_optionalField inField, beq_iff_eq]
  rintro rfl
  exact absent (List.mem_map_of_mem inFields)

theorem given_cons (field : String × Option Document) (fields : List (String × Option Document))
    : given (field :: fields) = optionalField field.1 field.2 ++ given fields :=
  List.flatMap_cons

/-- Among distinct fields the entry of a name is that of its field. -/
theorem filter_given {field : String × Option Document} {fields : List (String × Option Document)}
    (distinct : (fields.map Prod.fst).Nodup) (member : field ∈ fields)
    : (given fields).filter (·.1 == field.1) = optionalField field.1 field.2 := by
  induction fields with
  | nil => cases member
  | cons first fields ih =>
      rw [List.map_cons, List.nodup_cons] at distinct
      rw [given_cons, List.filter_append]
      rcases List.mem_cons.mp member with rfl | later
      · have own : ∀ entry ∈ optionalField field.1 field.2, (entry.1 == field.1) = true := by
          intro entry inField
          rw [fst_of_mem_optionalField inField, beq_self_eq_true]
        rw [List.filter_eq_self.mpr own, filter_given_of_not_mem distinct.1, List.append_nil]
      · have other : field.1 ∉ [first].map Prod.fst := by
          rw [List.map_singleton, List.mem_singleton]
          intro same
          exact distinct.1 (same ▸ List.mem_map_of_mem later)
        have none : (optionalField first.1 first.2).filter (·.1 == field.1) = [] := by
          simpa [given] using filter_given_of_not_mem other
        rw [none, List.nil_append, ih distinct.2 later]

theorem mapM_fields {fields : List (String × Option Document)}
    {read : String → Option (Option Document)}
    (reads : ∀ field ∈ fields, read field.1 = some field.2)
    : (fields.map Prod.fst).mapM read = some (fields.map Prod.snd) := by
  induction fields with
  | nil => rfl
  | cons field fields ih =>
      rw [List.forall_mem_cons] at reads
      rw [List.map_cons, List.mapM_cons, reads.1, ih reads.2]
      rfl

/-- The fields of a record are read back with the values they have. -/
theorem bind_fields {α : Type} {names : List String} {fields : List (String × Option Document)}
    {next : List (Option Document) → Option α} (named : names = fields.map Prod.fst)
    (distinct : names.Nodup)
    : Readable.fields names (Document.record (given fields)) >>= next
      = next (fields.map Prod.snd) := by
  rw [named] at distinct ⊢
  have found : Readable.fields (fields.map Prod.fst) (Document.record (given fields))
      = some (fields.map Prod.snd) := by
    refine mapM_fields fun field member => ?_
    rw [filter_given distinct member]
    cases field.2 <;> rfl
  rw [found, Option.bind_eq_bind, Option.bind_some]

section Values

open Readable

variable {α : Type} {read : Document → Option α} {write : α → Document}

/-- An optional value is read back if it is never written as null. -/
theorem withDefault_optional (reads : ∀ value, read (write value) = some value)
    (present : ∀ value, (write value).present? = some (write value)) (value : Option α)
    : withDefault none (Readable.optional read) (value.map write) = some value := by
  cases value with
  | none => rfl
  | some value =>
      have found : Readable.present? (write value) = some (some (write value)) :=
        congrArg some (present value)
      rw [Option.map_some, withDefault, Readable.optional, found]
      simp [reads]

theorem listOf_map (reads : ∀ value, read (write value) = some value) (values : List α)
    : listOf read (.list (values.map write)) = some values := by
  have each : (values.map write).mapM read = some values := by
    induction values with
    | nil => rfl
    | cons value values ih =>
        rw [List.map_cons, List.mapM_cons, reads, ih]
        rfl
  exact each

theorem text_text (value : String) : Readable.text (Document.text value) = some value :=
  rfl

theorem texts_map (values : List String)
    : Readable.texts (Document.list (values.map .text)) = some values :=
  @listOf_map _ Readable.text .text (fun _ => rfl) values

theorem readWord32_toNat (value : UInt32)
    : readWord32 (Document.integer value.toNat) = some value := by
  have small : value.toNat ≤ Number.largestWord32 := Nat.le_of_lt_succ value.toNat_lt
  have read
      : Readable.number Number.largestWord32 (Document.integer value.toNat) = some value.toNat := by
    change number? _ _ = _
    simp [number?, small]
  rw [readWord32, read]
  simp

/-- The columns as a field, left out where there are none. -/
def columnsValue (columns : NameMap String) : Option Document :=
  if columns.isEmpty then none
  else some (.record (columns.entries.map fun (name, column) => (name, .text column)))

theorem columnsField_eq (columns : NameMap String)
    : columnsField columns = optionalField "properties" (columnsValue columns) := by
  unfold columnsField columnsValue
  split <;> rfl

/-- Columns are read back, also where the field is left out. -/
theorem withDefault_columns (columns : NameMap String)
    : withDefault ∅ textMap (columnsValue columns) = some columns := by
  unfold columnsValue
  split
  · rename_i none
    have same := columns.ofList_entries
    rw [List.isEmpty_iff.mp none] at same
    exact congrArg some same
  · have each : (columns.entries.map fun (name, column) => (name, Document.text column)).mapM
        (fun entry => do return (entry.1, ← Readable.text entry.2)) = some columns.entries := by
      induction columns.entries with
      | nil => rfl
      | cons entry entries ih =>
          rw [List.map_cons, List.mapM_cons, ih]
          rfl
    have read := congrArg (Option.bind · fun entries => some (NameMap.ofList entries)) each
    exact read.trans (congrArg some columns.ofList_entries)

end Values

end Document

open Document Readable

theorem StorageMetadata.document_eq (metadata : StorageMetadata)
    : metadata.document
      = .record (given
          [("storageLayout", metadata.layout.map (.text ·.name)),
            ("snapshotConcatenationFactor", metadata.factor.map fun factor =>
              .integer factor.toNat),
            ("snapshotConcatenationUnit", metadata.unit.map (.text ·.name))]) := by
  simp [document, given]

theorem StorageMetadata.read_document (metadata : StorageMetadata)
    : StorageMetadata.read metadata.document = some metadata := by
  have layout : withDefault none (Readable.optional (choice storageLayouts))
      (metadata.layout.map fun layout => Document.text layout.name) = some metadata.layout :=
    withDefault_optional (by rintro (_ | _) <;> rfl) (fun _ => rfl) _
  have factor : withDefault none (Readable.optional readWord32)
      (metadata.factor.map fun factor => Document.integer factor.toNat) = some metadata.factor :=
    withDefault_optional readWord32_toNat (fun _ => rfl) _
  have unit : withDefault none (Readable.optional (choice snapshotUnits))
      (metadata.unit.map fun unit => Document.text unit.name) = some metadata.unit :=
    withDefault_optional (by rintro (_ | _ | _ | _) <;> rfl) (fun _ => rfl) _
  rw [StorageMetadata.read, document_eq]
  refine (bind_fields rfl (by simp)).trans ?_
  simp [layout, factor, unit]

theorem NodeMapping.document_eq (mapping : NodeMapping)
    : mapping.document
      = .record (given
          [("labels", some (.list (mapping.labels.names.map .text))),
            ("table", some (.text mapping.table)),
            ("idColumn", some (.text mapping.keyColumn)),
            ("properties", columnsValue mapping.columns)]) := by
  simp [document, given, columnsField_eq, optionalField]

theorem NodeMapping.read_document (mapping : NodeMapping)
    : NodeMapping.read mapping.document = some mapping := by
  rw [NodeMapping.read, document_eq]
  refine (bind_fields rfl (by simp)).trans ?_
  have columns := withDefault_columns mapping.columns
  simp only [List.map_cons, List.map_nil, columns]
  simp [required, withDefault, texts_map, text_text, NameSet.ofList_names]

theorem RelationshipMapping.document_eq (mapping : RelationshipMapping)
    : mapping.document
      = .record (given
          [("type", some (.text mapping.type)),
            ("table", some (.text mapping.table)),
            ("fromLabel", mapping.fromLabel.map .text),
            ("toLabel", mapping.toLabel.map .text),
            ("fromColumn", some (.text mapping.fromColumn)),
            ("toColumn", some (.text mapping.toColumn)),
            ("idColumn", mapping.keyColumn.map .text),
            ("properties", columnsValue mapping.columns)]) := by
  simp [document, given, columnsField_eq, optionalField]

theorem withDefault_text (value : Option String)
    : withDefault none (Readable.optional Readable.text) (value.map Document.text) = some value :=
  withDefault_optional text_text (fun _ => rfl) value

theorem RelationshipMapping.read_document (mapping : RelationshipMapping)
    : RelationshipMapping.read mapping.document = some mapping := by
  rw [RelationshipMapping.read, document_eq]
  refine (bind_fields rfl (by simp)).trans ?_
  have columns := withDefault_columns mapping.columns
  simp only [List.map_cons, List.map_nil, columns, withDefault_text]
  simp [required, withDefault, text_text]

namespace Topology

theorem document_eq (topology : Topology)
    : topology.document
      = .record (given
          [("metadata", topology.metadata.map (·.document)),
            ("nodes", some (.list (topology.nodes.map (·.document)))),
            ("relationships", some (.list (topology.relationships.map (·.document))))]) := by
  simp [document, given, optionalField]

/-- A topology is read back from its document. -/
theorem read_document (topology : Topology) : Topology.read topology.document = some topology := by
  have metadata : withDefault none (Readable.optional StorageMetadata.read)
      (topology.metadata.map (·.document)) = some topology.metadata :=
    withDefault_optional StorageMetadata.read_document (fun _ => rfl) _
  have nodes := listOf_map NodeMapping.read_document topology.nodes
  have relationships := listOf_map RelationshipMapping.read_document topology.relationships
  rw [Topology.read, document_eq]
  refine (bind_fields rfl (by simp)).trans ?_
  simp only [List.map_cons, List.map_nil, metadata]
  simp [withDefault, nodes, relationships]

end Topology

section Exact

open Json

theorem areExact_map {α : Type} {write : α → Document} (each : ∀ value, IsExact (write value))
    (values : List α)
    : AreExact (values.map write) := by
  induction values with
  | nil => exact trivial
  | cons value values ih => exact ⟨each value, ih⟩

theorem hasExactValues_append {first second : List (String × Document)}
    (exactFirst : HasExactValues first) (exactSecond : HasExactValues second)
    : HasExactValues (first ++ second) := by
  induction first with
  | nil => exact exactSecond
  | cons entry first ih => exact ⟨exactFirst.1, ih exactFirst.2⟩

/-- A record is exact if the values of its fields are. -/
theorem isExact_given {fields : List (String × Option Document)}
    (each : ∀ field ∈ fields, ∀ value ∈ field.2, IsExact value)
    : IsExact (.record (given fields)) := by
  induction fields with
  | nil => exact trivial
  | cons field fields ih =>
      rw [List.forall_mem_cons] at each
      rw [given_cons]
      refine hasExactValues_append ?_ (ih each.2)
      obtain ⟨name, value⟩ := field
      cases value with
      | none => exact trivial
      | some value => exact ⟨each.1 value rfl, trivial⟩

theorem exact_map {α : Type} {write : α → Document} (each : ∀ value, IsExact (write value))
    (value : Option α)
    : ∀ document ∈ value.map write, IsExact document := by
  intro document found
  obtain ⟨value, -, rfl⟩ := Option.map_eq_some_iff.mp found
  exact each value

theorem isExact_text (value : String) : IsExact (.text value) :=
  trivial

theorem exact_columnsValue (columns : NameMap String)
    : ∀ document ∈ columnsValue columns, IsExact document := by
  intro document found
  unfold columnsValue at found
  split at found
  · cases found
  · cases found
    change HasExactValues _
    induction columns.entries with
    | nil => exact trivial
    | cons entry entries ih => exact ⟨isExact_text entry.2, ih⟩

theorem StorageMetadata.isExact_document (metadata : StorageMetadata)
    : IsExact metadata.document := by
  have factor (value : UInt32) : IsExact (.integer value.toNat) := by
    have small := value.toNat_lt
    refine ⟨?_, ?_⟩
    · omega
    · have bound : (2 : Int) ^ 32 ≤ Number.largestWord64 := by decide
      omega
  rw [document_eq]
  refine isExact_given ?_
  simp only [List.forall_mem_cons]
  exact ⟨exact_map (fun _ => isExact_text _) _, exact_map factor _,
    exact_map (fun _ => isExact_text _) _, by simp⟩

theorem NodeMapping.isExact_document (mapping : NodeMapping) : IsExact mapping.document := by
  have labels : IsExact (.list (mapping.labels.names.map .text)) := areExact_map isExact_text _
  rw [document_eq]
  refine isExact_given ?_
  simp only [List.forall_mem_cons, Option.mem_some_iff, forall_eq']
  exact ⟨labels, trivial, trivial, exact_columnsValue _, by simp⟩

theorem RelationshipMapping.isExact_document (mapping : RelationshipMapping)
    : IsExact mapping.document := by
  rw [document_eq]
  refine isExact_given ?_
  simp only [List.forall_mem_cons, Option.mem_some_iff, forall_eq']
  exact ⟨trivial, trivial, exact_map isExact_text _, exact_map isExact_text _, trivial, trivial,
    exact_map isExact_text _, exact_columnsValue _, by simp⟩

theorem Topology.isExact_document (topology : Topology) : IsExact topology.document := by
  have nodes : IsExact (.list (topology.nodes.map (·.document))) :=
    areExact_map NodeMapping.isExact_document _
  have relationships : IsExact (.list (topology.relationships.map (·.document))) :=
    areExact_map RelationshipMapping.isExact_document _
  rw [document_eq]
  refine isExact_given ?_
  simp only [List.forall_mem_cons, Option.mem_some_iff, forall_eq']
  exact ⟨exact_map StorageMetadata.isExact_document _, nodes, relationships, by simp⟩

end Exact

namespace Topology

/-- What is read from the text of a topology is the topology itself, checked. -/
theorem ofJson_toJson_eq_validated (topology : Topology)
    : ofJson topology.toJson = topology.validated := by
  rw [ofJson, toJson, Json.read?_pretty topology.isExact_document, Option.bind_some, read_document,
    ofReading]

/-- A valid topology is read back from its text. -/
theorem ofJson_toJson {topology : Topology} (valid : topology.fault? = none)
    : ofJson topology.toJson = .ok topology := by
  rw [ofJson_toJson_eq_validated, validated, valid]

/-- A topology with some fields left out, and quotes, backslashes and control characters in its
names.
-/
def unusualNames : Topology where
  metadata := some { layout := none, factor := some 4294967295, unit := some .days }
  nodes := [
    { labels := .ofList ["a\"b", "\x00\n"]
      table := "\\"
      keyColumn := ""
      columns := .ofList [("\t", "é"), ("\x1f", "\x7f")] },
    { labels := ∅, table := "t", keyColumn := "id", columns := ∅ }]
  relationships := [
    { type := "R"
      table := "r"
      fromLabel := some ""
      toLabel := none
      fromColumn := "src"
      toColumn := "dst"
      keyColumn := some "\x08\x0c"
      columns := ∅ }]

/-- Witness: a topology with unusual names is read back from its text. -/
theorem ofJson_toJson_unusualNames
    : unusualNames.fault? = none ∧ ofJson unusualNames.toJson = .ok unusualNames := by
  have valid : unusualNames.fault? = none := by decide
  exact ⟨valid, ofJson_toJson valid⟩

end Topology

end CypherSql
