import CypherSql.Proofs.RelationshipLookup
import Mathlib.Data.List.Induction
import Mathlib.Data.List.Nodup

/-! Lookups in a topology by what its mappings say, in whatever order these are listed. Mappings of
one relationship table with the same columns for its ends are one candidate, which keeps what all of
them agree on; a lookup succeeds where there is one candidate.
-/

namespace CypherSql

/-- The table of a mapping with the columns of its ends. -/
def RelationshipMapping.storage (mapping : RelationshipMapping) : String × String × String :=
  (mapping.table, mapping.fromColumn, mapping.toColumn)

namespace RelationshipBinding

/-- The table of a binding with the columns of its ends. -/
def storage (binding : RelationshipBinding) : String × String × String :=
  (binding.table, binding.fromColumn, binding.toColumn)

theorem sharesTable_iff {binding : RelationshipBinding} {mapping : RelationshipMapping}
    : binding.sharesTable mapping ↔ binding.storage = mapping.storage := by
  simp [sharesTable, storage, RelationshipMapping.storage, and_assoc]

/-- The binding keeps what the mappings of its table among some have in common: the way in which
they hold a pattern, if it is one way, and the labels that they fix for the ends. Its own columns
are those of one of them.
-/
structure Gathers (binding : RelationshipBinding)
    (entries : List (RelationshipMapping × Orientation))
    : Prop where
  oneWay
    : ∀ way ≠ .either,
        binding.orientation = way
        ↔ ∀ entry ∈ entries, entry.1.storage = binding.storage → entry.2 = way
  fromLabel
    : ∀ label,
        binding.fromLabel = some label
        ↔ ∀ entry ∈ entries, entry.1.storage = binding.storage → entry.1.fromLabel = some label
  toLabel
    : ∀ label,
        binding.toLabel = some label
        ↔ ∀ entry ∈ entries, entry.1.storage = binding.storage → entry.1.toLabel = some label
  origin
    : ∃ entry ∈ entries,
        entry.1.storage = binding.storage
        ∧ binding.keyColumn = entry.1.keyColumn.getD entry.1.fromColumn
        ∧ binding.columns = entry.1.columns

end RelationshipBinding

namespace Orientation

/-- Two orientations are one way together only if both of them are that way. -/
theorem merge_eq_iff {first second way : Orientation} (oneWay : way ≠ .either)
    : first.merge second = way ↔ first = way ∧ second = way := by
  rw [← not_iff_not, not_and_or]
  exact merge_ne_iff oneWay

end Orientation

section Candidates

variable {entries : List (RelationshipMapping × Orientation)} {found : List RelationshipBinding}
  {binding : RelationshipBinding} {mapping : RelationshipMapping} {orientation : Orientation}

/-- Only what both labels say is kept of them. -/
theorem keptLabel_eq_some {first second : Option String} {label : String}
    : (if first = second then first else none) = some label
      ↔ first = some label ∧ second = some label := by
  by_cases same : first = second
  · simp [same]
  · rw [if_neg same]
    refine iff_of_false nofun fun both => same ?_
    rw [both.1, both.2]

/-- A candidate of a new table says what its mapping says. -/
theorem RelationshipMapping.gathers_binding
    (new : ∀ entry ∈ entries, entry.1.storage ≠ mapping.storage)
    : (mapping.binding orientation).Gathers (entries ++ [(mapping, orientation)]) := by
  have alone (holds : RelationshipMapping × Orientation → Prop)
      : (∀ entry ∈ entries ++ [(mapping, orientation)],
          entry.1.storage = (mapping.binding orientation).storage → holds entry)
        ↔ holds (mapping, orientation) := by
    constructor
    · intro each
      exact each (mapping, orientation) (by simp) rfl
    · intro own entry member same
      rcases List.mem_append.mp member with earlier | last
      · exact absurd same (new entry earlier)
      · rwa [List.mem_singleton.mp last]
  exact {
    oneWay := fun way _ => (alone fun entry => entry.2 = way).symm
    fromLabel := fun label => (alone fun entry => entry.1.fromLabel = some label).symm
    toLabel := fun label => (alone fun entry => entry.1.toLabel = some label).symm
    origin := ⟨(mapping, orientation), by simp, rfl, rfl, rfl⟩
  }

/-- A candidate that is joined with one more mapping of its table says what all of them say. -/
theorem RelationshipBinding.Gathers.join (gathers : binding.Gathers entries)
    (same : mapping.storage = binding.storage)
    : (binding.join mapping orientation).Gathers (entries ++ [(mapping, orientation)]) := by
  have more {holds : RelationshipMapping × Orientation → Prop}
      : (∀ entry ∈ entries ++ [(mapping, orientation)],
          entry.1.storage = (binding.join mapping orientation).storage → holds entry)
        ↔ (∀ entry ∈ entries, entry.1.storage = binding.storage → holds entry)
          ∧ holds (mapping, orientation) := by
    rw [List.forall_mem_append, List.forall_mem_singleton]
    exact and_congr_right' ⟨fun last => last same, fun last _ => last⟩
  exact {
    oneWay := fun way oneWay => by
      rw [more, ← gathers.oneWay way oneWay]
      exact Orientation.merge_eq_iff oneWay
    fromLabel := fun label => by
      rw [more, ← gathers.fromLabel label]
      exact keptLabel_eq_some
    toLabel := fun label => by
      rw [more, ← gathers.toLabel label]
      exact keptLabel_eq_some
    origin := by
      obtain ⟨entry, member, stored, key, columns⟩ := gathers.origin
      exact ⟨entry, List.mem_append_left _ member, stored, key, columns⟩
  }

/-- A mapping of another table changes nothing of what a candidate says. -/
theorem RelationshipBinding.Gathers.other (gathers : binding.Gathers entries)
    (other : mapping.storage ≠ binding.storage)
    : binding.Gathers (entries ++ [(mapping, orientation)]) := by
  have more {holds : RelationshipMapping × Orientation → Prop}
      : (∀ entry ∈ entries ++ [(mapping, orientation)],
          entry.1.storage = binding.storage → holds entry)
        ↔ ∀ entry ∈ entries, entry.1.storage = binding.storage → holds entry := by
    rw [List.forall_mem_append, List.forall_mem_singleton]
    exact and_iff_left fun same => absurd same other
  exact {
    oneWay := fun way oneWay => by rw [more, gathers.oneWay way oneWay]
    fromLabel := fun label => by rw [more, gathers.fromLabel label]
    toLabel := fun label => by rw [more, gathers.toLabel label]
    origin := by
      obtain ⟨entry, member, stored, key, columns⟩ := gathers.origin
      exact ⟨entry, List.mem_append_left _ member, stored, key, columns⟩
  }

/-- One more mapping adds a candidate where it is the first of its table, by induction over the
candidates.
-/
theorem storage_addCandidate
    : (addCandidate mapping orientation found).map RelationshipBinding.storage
      = if mapping.storage ∈ found.map RelationshipBinding.storage then
          found.map RelationshipBinding.storage
        else found.map RelationshipBinding.storage ++ [mapping.storage] := by
  induction found with
  | nil => rfl
  | cons candidate rest ih =>
      unfold addCandidate
      by_cases shares : candidate.sharesTable mapping
      · have same := RelationshipBinding.sharesTable_iff.mp shares
        rw [if_pos shares, List.map_cons, List.map_cons, if_pos (by simp [same])]
        rfl
      · have other : mapping.storage ≠ candidate.storage :=
          fun same => shares (RelationshipBinding.sharesTable_iff.mpr same.symm)
        rw [if_neg shares, List.map_cons, ih, List.map_cons]
        simp only [List.mem_cons, other, false_or]
        split <;> simp

/-- A candidate after one more mapping is one of another table from before, the joined one of the
table of the mapping, or a new one for that table. Induction over the candidates, whose tables are
different.
-/
theorem mem_addCandidate (distinct : (found.map RelationshipBinding.storage).Nodup)
    (member : binding ∈ addCandidate mapping orientation found)
    : (binding ∈ found ∧ mapping.storage ≠ binding.storage)
      ∨ (∃ old ∈ found, mapping.storage = old.storage ∧ binding = old.join mapping orientation)
      ∨ (mapping.storage ∉ found.map RelationshipBinding.storage
          ∧ binding = mapping.binding orientation) := by
  induction found with
  | nil =>
      rw [addCandidate, List.mem_singleton] at member
      exact .inr (.inr ⟨List.not_mem_nil, member⟩)
  | cons candidate rest ih =>
      rw [List.map_cons, List.nodup_cons] at distinct
      unfold addCandidate at member
      split at member
      · rename_i shares
        have same := RelationshipBinding.sharesTable_iff.mp shares
        rcases List.mem_cons.mp member with rfl | later
        · exact .inr (.inl ⟨candidate, List.mem_cons_self, same.symm, rfl⟩)
        · refine .inl ⟨List.mem_cons_of_mem _ later, fun equal => distinct.1 ?_⟩
          rw [same, equal]
          exact List.mem_map_of_mem later
      · rename_i shares
        have other : mapping.storage ≠ candidate.storage :=
          fun same => shares (RelationshipBinding.sharesTable_iff.mpr same.symm)
        rcases List.mem_cons.mp member with rfl | later
        · exact .inl ⟨List.mem_cons_self, other⟩
        · rcases ih distinct.2 later with ⟨old, apart⟩ | ⟨old, listed, same, joined⟩ | ⟨new, made⟩
          · exact .inl ⟨List.mem_cons_of_mem _ old, apart⟩
          · exact .inr (.inl ⟨old, List.mem_cons_of_mem _ listed, same, joined⟩)
          · exact .inr (.inr ⟨by simpa [other] using new, made⟩)

/-- The candidates for some mappings: one for each of their tables, with what the mappings of the
table have in common.
-/
structure Collected (entries : List (RelationshipMapping × Orientation))
    (found : List RelationshipBinding)
    : Prop where
  distinct : (found.map RelationshipBinding.storage).Nodup
  tables
    : ∀ storage,
        storage ∈ found.map RelationshipBinding.storage
          ↔ ∃ entry ∈ entries, entry.1.storage = storage
  gathers : ∀ binding ∈ found, binding.Gathers entries

theorem Collected.addCandidate (collected : Collected entries found)
    : Collected (entries ++ [(mapping, orientation)]) (addCandidate mapping orientation found) where
  distinct := by
    rw [storage_addCandidate]
    split
    · exact collected.distinct
    · rename_i new
      exact collected.distinct.append (List.nodup_singleton _) (by simpa using new)
  tables := by
    intro storage
    have step
        : storage ∈ (CypherSql.addCandidate mapping orientation found).map
          RelationshipBinding.storage
        ↔ storage ∈ found.map RelationshipBinding.storage ∨ storage = mapping.storage := by
      rw [storage_addCandidate]
      split
      · rename_i old
        refine (or_iff_left_of_imp ?_).symm
        rintro rfl
        exact old
      · rw [List.mem_append, List.mem_singleton]
    rw [step, collected.tables]
    simp only [List.mem_append, List.mem_singleton, or_and_right, exists_or, exists_eq_left]
    exact or_congr_right eq_comm
  gathers := by
    intro binding member
    rcases mem_addCandidate collected.distinct member with
      ⟨old, apart⟩ | ⟨old, listed, same, rfl⟩ | ⟨new, rfl⟩
    · exact (collected.gathers binding old).other apart
    · exact (collected.gathers old listed).join same
    · refine RelationshipMapping.gathers_binding fun entry member same => new ?_
      exact (collected.tables _).mpr ⟨entry, member, same⟩

/-- The candidates for all mappings, by induction over these from the last one on. -/
theorem collected_foldl (entries : List (RelationshipMapping × Orientation))
    : Collected entries
        (entries.foldl (fun found entry => addCandidate entry.1 entry.2 found) []) := by
  induction entries using List.reverseRecOn with
  | nil => exact ⟨.nil, by simp, List.forall_mem_nil _⟩
  | append_singleton entries entry ih =>
      rw [List.foldl_append]
      exact ih.addCandidate

end Candidates

namespace RelationshipMapping

/-- A relationship of the mapping may lead from nodes of some labels to nodes of others: a label
that it fixes for an end is one of the labels there, if there are any.
-/
def Leads (mapping : RelationshipMapping) (source target : NameSet) : Prop :=
  (∀ label, mapping.fromLabel = some label → source = ∅ ∨ label ∈ source)
  ∧ ∀ label, mapping.toLabel = some label → target = ∅ ∨ label ∈ target

/-- A relationship of the mapping may stand in a pattern with an arrow between nodes of some labels.
-/
def Fits (mapping : RelationshipMapping) (left right : NameSet) : Direction → Prop
  | .right => mapping.Leads left right
  | .left => mapping.Leads right left
  | .both => mapping.Leads left right ∨ mapping.Leads right left

/-- It stands there only with its source on the left. -/
def OnlyForward (mapping : RelationshipMapping) (left right : NameSet) : Direction → Prop
  | .right => True
  | .left => False
  | .both => ¬ mapping.Leads right left

/-- It stands there only with its source on the right. -/
def OnlyReversed (mapping : RelationshipMapping) (left right : NameSet) : Direction → Prop
  | .right => False
  | .left => True
  | .both => ¬ mapping.Leads left right

variable {mapping : RelationshipMapping} {left right : NameSet} {direction : Direction}

theorem admits_iff {fixed : Option String} {labels : NameSet}
    : admits fixed labels ↔ ∀ label, fixed = some label → labels = ∅ ∨ label ∈ labels := by
  cases fixed with
  | none => exact iff_of_true rfl nofun
  | some label =>
      rw [admits_some]
      exact ⟨fun admitted _ same => Option.some.inj same ▸ admitted, fun each => each label rfl⟩

theorem leads_iff {source target : NameSet}
    : (admits mapping.fromLabel source && admits mapping.toLabel target)
      ↔ mapping.Leads source target := by
  rw [Bool.and_eq_true, admits_iff, admits_iff, Leads]

/-- A mapping fits in exactly one way, if it fits. -/
theorem orientation?_cases (mapping : RelationshipMapping) (left right : NameSet)
    (direction : Direction)
    : (mapping.orientation? left right direction = none ∧ ¬ mapping.Fits left right direction)
      ∨ ∃ orientation,
          mapping.orientation? left right direction = some orientation
          ∧ mapping.Fits left right direction
          ∧ (orientation = .forward ↔ mapping.OnlyForward left right direction)
          ∧ (orientation = .reversed ↔ mapping.OnlyReversed left right direction) := by
  have forward := @leads_iff mapping left right
  have reversed := @leads_iff mapping right left
  simp only [orientation?]
  generalize (admits mapping.fromLabel left && admits mapping.toLabel right) = isForward at forward
  generalize (admits mapping.fromLabel right && admits mapping.toLabel left) = isReversed
    at reversed
  cases direction <;> cases isForward <;> cases isReversed <;>
    simp_all [Fits, OnlyForward, OnlyReversed]

end RelationshipMapping

namespace Topology

variable {topology : Topology} {types : List String} {left right : NameSet} {direction : Direction}

/-- The mapping is one of the topology, of one of the types, and fits the ends and the arrow of a
pattern. No types stand for any type.
-/
def Matches (topology : Topology) (types : List String) (left right : NameSet)
    (direction : Direction)
    (mapping : RelationshipMapping)
    : Prop :=
  mapping ∈ topology.relationships
  ∧ (types = [] ∨ mapping.type ∈ types)
  ∧ mapping.Fits left right direction

/-- What is found for all mappings that match is found for the listed ones, with the way that each
fits in.
-/
theorem forall_matches_iff {holds : RelationshipMapping → Prop}
    : (∀ mapping, topology.Matches types left right direction mapping → holds mapping)
      ↔ ∀ entry ∈ topology.fitting types left right direction, holds entry.1 := by
  constructor
  · rintro each ⟨mapping, orientation⟩ member
    obtain ⟨listed, typed, oriented⟩ := mem_fitting.mp member
    rcases mapping.orientation?_cases left right direction with ⟨none, -⟩ | ⟨_, -, fits, -⟩
    · rw [none] at oriented
      cases oriented
    · exact each mapping ⟨listed, typed, fits⟩
  · rintro each mapping ⟨listed, typed, fits⟩
    rcases mapping.orientation?_cases left right direction
      with ⟨-, other⟩ | ⟨orientation, oriented, -⟩
    · exact absurd fits other
    · exact each (mapping, orientation) (mem_fitting.mpr ⟨listed, typed, oriented⟩)

/-- The same for one that matches. -/
theorem exists_matches_iff {holds : RelationshipMapping → Prop}
    : (∃ mapping, topology.Matches types left right direction mapping ∧ holds mapping)
      ↔ ∃ entry ∈ topology.fitting types left right direction, holds entry.1 := by
  have none := @forall_matches_iff topology types left right direction fun mapping =>
    ¬ holds mapping
  rw [← not_iff_not]
  push Not
  exact none

/-- A listed mapping fits only one way exactly if it is listed with that way. -/
theorem fitting_way_iff {entry : RelationshipMapping × Orientation}
    (member : entry ∈ topology.fitting types left right direction)
    : (entry.2 = .forward ↔ entry.1.OnlyForward left right direction)
      ∧ (entry.2 = .reversed ↔ entry.1.OnlyReversed left right direction) := by
  obtain ⟨-, -, oriented⟩ := mem_fitting.mp member
  rcases entry.1.orientation?_cases left right direction
    with ⟨none, -⟩ | ⟨orientation, own, -, ways⟩
  · rw [none] at oriented
    cases oriented
  · rw [own] at oriented
    rwa [← Option.some.inj oriented]

/-- Whether a mapping matches does not depend on where it is listed. -/
theorem matches_of_perm {permuted : Topology}
    (relationships : permuted.relationships.Perm topology.relationships)
    {mapping : RelationshipMapping}
    : permuted.Matches types left right direction mapping
      ↔ topology.Matches types left right direction mapping :=
  and_congr_left' relationships.mem_iff

/-- A binding is the table of all mappings that match a pattern, with what they agree on: the way in
which they fit, and the labels that they fix for their ends. Its own columns are those of one of
them.
-/
structure Describes (matching : RelationshipMapping → Prop) (left right : NameSet)
    (direction : Direction)
    (binding : RelationshipBinding)
    : Prop where
  storage : ∀ mapping, matching mapping → mapping.storage = binding.storage
  forward
    : binding.orientation = .forward
      ↔ ∀ mapping, matching mapping → mapping.OnlyForward left right direction
  reversed
    : binding.orientation = .reversed
      ↔ ∀ mapping, matching mapping → mapping.OnlyReversed left right direction
  fromLabel
    : ∀ label,
        binding.fromLabel = some label
          ↔ ∀ mapping, matching mapping → mapping.fromLabel = some label
  toLabel
    : ∀ label,
        binding.toLabel = some label ↔ ∀ mapping, matching mapping → mapping.toLabel = some label
  origin
    : ∃ mapping,
        matching mapping
        ∧ binding.keyColumn = mapping.keyColumn.getD mapping.fromColumn
        ∧ binding.columns = mapping.columns

/-- What describes the same mappings agrees on its table, its way and its labels. -/
theorem Describes.agree {matching : RelationshipMapping → Prop} {first second : RelationshipBinding}
    (own : Describes matching left right direction first)
    (other : Describes matching left right direction second)
    : first.storage = second.storage
      ∧ first.orientation = second.orientation
      ∧ first.fromLabel = second.fromLabel
      ∧ first.toLabel = second.toLabel := by
  obtain ⟨mapping, isMatch, -⟩ := own.origin
  refine ⟨(own.storage mapping isMatch).symm.trans (other.storage mapping isMatch), ?_, ?_, ?_⟩
  · have forward := own.forward.trans other.forward.symm
    have reversed := own.reversed.trans other.reversed.symm
    cases isFirst : first.orientation <;> cases isSecond : second.orientation <;> simp_all
  · exact Option.ext fun label => (own.fromLabel label).trans (other.fromLabel label).symm
  · exact Option.ext fun label => (own.toLabel label).trans (other.toLabel label).symm

theorem collected_candidates (topology : Topology) (types : List String) (left right : NameSet)
    (direction : Direction)
    : Collected (topology.fitting types left right direction)
        (topology.candidates types left right direction) :=
  collected_foldl _

/-- The only candidate describes what matches. -/
theorem describes_of_only {binding : RelationshipBinding}
    (only : topology.candidates types left right direction = [binding])
    : Describes (topology.Matches types left right direction) left right direction binding := by
  have collected := topology.collected_candidates types left right direction
  rw [only] at collected
  have stored : ∀ entry ∈ topology.fitting types left right direction,
      entry.1.storage = binding.storage := by
    intro entry member
    have listed := (collected.tables entry.1.storage).mpr ⟨entry, member, rfl⟩
    simpa using listed
  have gathers := collected.gathers binding (by simp)
  have each {holds : RelationshipMapping × Orientation → Prop} {asked : RelationshipMapping → Prop}
      (same : ∀ entry ∈ topology.fitting types left right direction, holds entry ↔ asked entry.1)
      : (∀ entry ∈ topology.fitting types left right direction,
          entry.1.storage = binding.storage → holds entry)
        ↔ ∀ mapping, topology.Matches types left right direction mapping → asked mapping := by
    rw [forall_matches_iff]
    refine forall₂_congr fun entry member => ?_
    rw [same entry member]
    exact ⟨fun holds => holds (stored entry member), fun holds _ => holds⟩
  exact {
    storage := forall_matches_iff.mpr stored
    forward := (gathers.oneWay _ (by decide)).trans
      (each fun _ member => (fitting_way_iff member).1)
    reversed := (gathers.oneWay _ (by decide)).trans
      (each fun _ member => (fitting_way_iff member).2)
    fromLabel := fun label => (gathers.fromLabel label).trans (each fun _ _ => Iff.rfl)
    toLabel := fun label => (gathers.toLabel label).trans (each fun _ _ => Iff.rfl)
    origin := by
      obtain ⟨entry, member, -, own⟩ := gathers.origin
      exact exists_matches_iff.mpr ⟨entry, member, own⟩
  }

/-- A lookup answers by the number of tables of the mappings that match: none, one or several. -/
theorem lookupRelationship_cases (topology : Topology) (types : List String) (left right : NameSet)
    (direction : Direction)
    : (topology.lookupRelationship types left right direction
            = .error (.unknownRelationship types left right)
          ∧ ∀ mapping, ¬ topology.Matches types left right direction mapping)
      ∨ (∃ binding,
          topology.lookupRelationship types left right direction = .ok binding
          ∧ Describes (topology.Matches types left right direction) left right direction binding)
      ∨ ((∃ tables,
            topology.lookupRelationship types left right direction
            = .error (.ambiguousRelationship types left right tables))
          ∧ ∃ first second,
              topology.Matches types left right direction first
              ∧ topology.Matches types left right direction second
              ∧ first.storage ≠ second.storage) := by
  have collected := topology.collected_candidates types left right direction
  rw [lookupRelationship]
  match candidates : topology.candidates types left right direction with
  | [] =>
      rw [candidates] at collected
      refine .inl ⟨rfl, forall_matches_iff.mpr fun entry member => ?_⟩
      exact List.not_mem_nil ((collected.tables entry.1.storage).mpr ⟨entry, member, rfl⟩)
  | [binding] => exact .inr (.inl ⟨binding, rfl, describes_of_only candidates⟩)
  | first :: second :: rest =>
      rw [candidates] at collected
      have tableOf (binding : RelationshipBinding) (member : binding ∈ first :: second :: rest)
          : ∃ mapping,
              topology.Matches types left right direction mapping
                ∧ mapping.storage = binding.storage :=
        exists_matches_iff.mpr ((collected.tables binding.storage).mp (List.mem_map_of_mem member))
      obtain ⟨mapping, isMatch, stored⟩ := tableOf first (by simp)
      obtain ⟨other, otherMatch, otherStored⟩ := tableOf second (by simp)
      refine .inr (.inr ⟨⟨_, rfl⟩, mapping, other, isMatch, otherMatch, ?_⟩)
      have distinct := collected.distinct
      rw [List.map_cons, List.nodup_cons, List.map_cons] at distinct
      rw [stored, otherStored]
      exact fun same => distinct.1 (same ▸ List.mem_cons_self)

/-- A mapping that nothing is wrong with has labels that no mapping before it has. Induction over
the mappings.
-/
theorem labels_of_nodeFault?_eq_none {seen : List NameSet} {nodes : List NodeMapping}
    (sound : nodeFault? seen nodes = none)
    : (nodes.map (·.labels)).Nodup ∧ ∀ node ∈ nodes, node.labels ∉ seen := by
  induction nodes generalizing seen with
  | nil => exact ⟨.nil, List.forall_mem_nil _⟩
  | cons node rest ih =>
      unfold nodeFault? at sound
      split at sound
      · cases sound
      · split at sound
        · cases sound
        · rename_i new
          obtain ⟨distinct, later⟩ := ih sound
          rw [List.map_cons, List.nodup_cons, List.forall_mem_cons]
          refine ⟨⟨fun again => ?_, distinct⟩, new, fun other member inSeen => ?_⟩
          · obtain ⟨other, member, same⟩ := List.mem_map.mp again
            exact later other member (same ▸ List.mem_cons_self)
          · exact later other member (List.mem_cons_of_mem _ inSeen)

/-- The node mappings of a valid topology have different labels. -/
theorem labels_nodup (valid : topology.fault? = none) : (topology.nodes.map (·.labels)).Nodup := by
  unfold fault? at valid
  split at valid
  · cases valid
  · exact (labels_of_nodeFault?_eq_none (Option.or_eq_none_iff.mp valid).1).1

section Nodes

variable {labels : NameSet} {mapping : NodeMapping}

/-- The mapping is what labels stand for: it has exactly these, or it is the only one that has them
all.
-/
def IsFor (topology : Topology) (labels : NameSet) (mapping : NodeMapping) : Prop :=
  mapping ∈ topology.nodes
  ∧ (mapping.labels = labels
    ∨ (∀ label ∈ labels, label ∈ mapping.labels)
      ∧ ∀ other ∈ topology.nodes, (∀ label ∈ labels, label ∈ other.labels) → other = mapping)

theorem mem_including
    : mapping ∈ (topology.nodes.filter fun node => labels.subset node.labels)
      ↔ mapping ∈ topology.nodes ∧ ∀ label ∈ labels, label ∈ mapping.labels := by
  have included : labels.subset mapping.labels ↔ ∀ label ∈ labels, label ∈ mapping.labels := by
    rw [NameSet.subset, List.all_eq_true]
    exact forall₂_congr fun label _ => decide_eq_true_iff
  rw [List.mem_filter, included]

theorem IsFor.mem_including (isFor : topology.IsFor labels mapping)
    : mapping ∈ topology.nodes.filter fun node => labels.subset node.labels := by
  obtain ⟨listed, same | ⟨included, -⟩⟩ := isFor
  · exact Topology.mem_including.mpr ⟨listed, fun label member => same ▸ member⟩
  · exact Topology.mem_including.mpr ⟨listed, included⟩

/-- A lookup finds what the labels stand for. That labels are different is needed where several
mappings have them all: only one of these has exactly them.
-/
theorem lookupNode_eq_ok_iff (distinct : (topology.nodes.map (·.labels)).Nodup)
    {binding : TableBinding}
    : topology.lookupNode labels = .ok binding
      ↔ ∃ mapping, topology.IsFor labels mapping ∧ mapping.binding = binding := by
  have unique {first second : NodeMapping} (member : first ∈ topology.nodes)
      (other : second ∈ topology.nodes) (same : first.labels = second.labels) : first = second :=
    List.inj_on_of_nodup_map distinct member other same
  have including {mapping : NodeMapping} := @mem_including topology labels mapping
  have nodup := distinct.of_map.filter fun node => labels.subset node.labels
  constructor
  · intro found
    unfold lookupNode at found
    split at found
    · cases found
    · rename_i node only
      obtain rfl := Except.ok.inj found
      obtain ⟨listed, included⟩ := including.mp (only ▸ List.mem_singleton_self node)
      refine ⟨node, ⟨listed, .inr ⟨included, fun other member has => ?_⟩⟩, rfl⟩
      exact List.mem_singleton.mp (only ▸ including.mpr ⟨member, has⟩)
    · split at found
      · rename_i exact' isFound
        obtain rfl := Except.ok.inj found
        refine ⟨exact', ⟨?_, .inl (by simpa using List.find?_some isFound)⟩, rfl⟩
        exact (including.mp (List.mem_of_find?_eq_some isFound)).1
      · cases found
  · rintro ⟨mapping, isFor, rfl⟩
    have member := isFor.mem_including
    unfold lookupNode
    split
    · rename_i none
      rw [none] at member
      cases member
    · rename_i node only
      rw [only, List.mem_singleton] at member
      rw [member]
    · rename_i notEmpty notSingle
      rcases isFor with ⟨listed, same | ⟨-, only⟩⟩
      · split
        · rename_i exact' isFound
          have own : exact'.labels = labels := by simpa using List.find?_some isFound
          have inNodes := (including.mp (List.mem_of_find?_eq_some isFound)).1
          rw [unique inNodes listed (own.trans same.symm)]
        · rename_i noExact
          exact absurd same (by simpa using List.find?_eq_none.mp noExact mapping member)
      · -- All mappings with these labels are the one that is asked for, so there are no several.
        have alone : ∀ other ∈ topology.nodes.filter fun node => labels.subset node.labels,
            other = mapping :=
          fun other inside => only other (including.mp inside).1 (including.mp inside).2
        have copies := List.eq_replicate_of_mem alone
        rw [copies, List.nodup_replicate] at nodup
        rcases Nat.le_one_iff_eq_zero_or_eq_one.mp nodup with none | single
        · rw [none] at copies
          exact absurd copies notEmpty
        · rw [single] at copies
          exact absurd copies (notSingle mapping)

theorem lookupNode_eq_unknown_iff
    : topology.lookupNode labels = .error (.unknownLabels labels)
      ↔ ∀ mapping ∈ topology.nodes, ¬ ∀ label ∈ labels, label ∈ mapping.labels := by
  have empty : (topology.nodes.filter fun node => labels.subset node.labels) = []
      ↔ ∀ mapping ∈ topology.nodes, ¬ ∀ label ∈ labels, label ∈ mapping.labels := by
    rw [List.eq_nil_iff_forall_not_mem]
    exact forall_congr' fun mapping => by rw [mem_including, not_and]
  rw [← empty]
  unfold lookupNode
  split
  · rename_i none
    exact iff_of_true rfl none
  · rename_i node only
    refine iff_of_false nofun ?_
    rw [only]
    exact List.cons_ne_nil _ _
  · rename_i notEmpty _
    refine iff_of_false ?_ notEmpty
    split <;> nofun

end Nodes

/-- Lookups in a valid topology, with its mappings listed in any order, follow what the mappings
say.

A label set stands for the mapping that has exactly these labels, or for the only one that has them
all. A pattern stands for the one table, with its columns for the ends, that all mappings have that
match its types, labels and arrow; the binding keeps the way in which all of them fit, or has either
one, and the labels that all of them fix for their ends. Without a match the table is unknown, with
several tables it is ambiguous.
-/
theorem lookups_of_perm {topology permuted : Topology} (valid : topology.fault? = none)
    (nodes : permuted.nodes.Perm topology.nodes)
    (relationships : permuted.relationships.Perm topology.relationships)
    : (∀ labels,
          (∀ binding,
            permuted.lookupNode labels = .ok binding ↔ topology.lookupNode labels = .ok binding)
          ∧ (∀ binding,
              permuted.lookupNode labels = .ok binding
              ↔ ∃ mapping, topology.IsFor labels mapping ∧ mapping.binding = binding)
          ∧ (permuted.lookupNode labels = .error (.unknownLabels labels)
            ↔ ∀ mapping ∈ topology.nodes, ¬ ∀ label ∈ labels, label ∈ mapping.labels))
      ∧ ∀ types left right direction,
          ((∃ binding, permuted.lookupRelationship types left right direction = .ok binding)
            ↔ ∃! storage,
                ∃ mapping,
                  topology.Matches types left right direction mapping ∧ mapping.storage = storage)
          ∧ (∀ binding,
              permuted.lookupRelationship types left right direction = .ok binding
              → Describes (topology.Matches types left right direction) left right direction binding
                ∧ ∃ own,
                    topology.lookupRelationship types left right direction = .ok own
                    ∧ binding.storage = own.storage
                    ∧ binding.orientation = own.orientation
                    ∧ binding.fromLabel = own.fromLabel
                    ∧ binding.toLabel = own.toLabel)
          ∧ (permuted.lookupRelationship types left right direction
              = .error (.unknownRelationship types left right)
            ↔ ∀ mapping, ¬ topology.Matches types left right direction mapping)
          ∧ ((∃ tables,
                permuted.lookupRelationship types left right direction
                = .error (.ambiguousRelationship types left right tables))
            ↔ ∃ first second,
                topology.Matches types left right direction first
                ∧ topology.Matches types left right direction second
                ∧ first.storage ≠ second.storage) := by
  constructor
  · intro labels
    have distinct := labels_nodup valid
    have permutedDistinct := ((nodes.map (·.labels)).nodup_iff).mpr distinct
    have isFor (mapping : NodeMapping)
        : permuted.IsFor labels mapping ↔ topology.IsFor labels mapping := by
      simp only [IsFor, nodes.mem_iff]
    have spec (binding : TableBinding)
        : permuted.lookupNode labels = .ok binding
          ↔ ∃ mapping, topology.IsFor labels mapping ∧ mapping.binding = binding := by
      rw [lookupNode_eq_ok_iff permutedDistinct]
      simp only [isFor]
    refine ⟨fun binding => (spec binding).trans (lookupNode_eq_ok_iff distinct).symm, spec, ?_⟩
    rw [lookupNode_eq_unknown_iff]
    simp only [nodes.mem_iff]
  · intro types left right direction
    have same : permuted.Matches types left right direction
        = topology.Matches types left right direction :=
      funext fun mapping => propext (matches_of_perm relationships)
    have cases := permuted.lookupRelationship_cases types left right direction
    rw [same] at cases
    -- The lookup has one of three answers, and the mappings that match decide which.
    rcases cases with ⟨unknown, none⟩ | ⟨binding, found, describes⟩ |
      ⟨⟨tables, ambiguous⟩, first, second, isFirst, isSecond, apart⟩
    · rw [unknown]
      refine ⟨iff_of_false nofun ?_, nofun, iff_of_true rfl none, iff_of_false nofun ?_⟩
      · rintro ⟨-, ⟨mapping, isMatch, -⟩, -⟩
        exact none mapping isMatch
      · rintro ⟨first, -, isFirst, -⟩
        exact none first isFirst
    · obtain ⟨mapping, isMatch, -⟩ := describes.origin
      have only {first second : RelationshipMapping}
          (isFirst : topology.Matches types left right direction first)
          (isSecond : topology.Matches types left right direction second)
          : first.storage = second.storage :=
        (describes.storage first isFirst).trans (describes.storage second isSecond).symm
      rw [found]
      refine ⟨iff_of_true ⟨binding, rfl⟩ ⟨mapping.storage, ⟨mapping, isMatch, rfl⟩, ?_⟩, ?_, ?_, ?_⟩
      · rintro storage ⟨other, isOther, rfl⟩
        exact only isOther isMatch
      · rintro _ ⟨⟩
        rcases topology.lookupRelationship_cases types left right direction with
          ⟨-, none⟩ | ⟨own, ownFound, ownDescribes⟩ | ⟨-, first, second, isFirst, isSecond, apart⟩
        · exact absurd isMatch (none mapping)
        · exact ⟨describes, own, ownFound, describes.agree ownDescribes⟩
        · exact absurd (only isFirst isSecond) apart
      · exact iff_of_false nofun fun none => none mapping isMatch
      · refine iff_of_false nofun ?_
        rintro ⟨first, second, isFirst, isSecond, apart⟩
        exact apart (only isFirst isSecond)
    · rw [ambiguous]
      refine ⟨iff_of_false nofun ?_, nofun, iff_of_false nofun fun none => none first isFirst,
        iff_of_true ⟨tables, rfl⟩ ⟨first, second, isFirst, isSecond, apart⟩⟩
      rintro ⟨storage, -, unique⟩
      exact apart ((unique _ ⟨first, isFirst, rfl⟩).trans (unique _ ⟨second, isSecond, rfl⟩).symm)

/-- Persons, some of them admins, whose relationships of two types are in one table. -/
def sharedEdges : Topology where
  metadata := none
  nodes :=
    [{ labels := .ofList ["Person"], table := "persons", keyColumn := "id", columns := ∅ },
      { labels := .ofList ["Admin", "Person"], table := "admins", keyColumn := "id", columns := ∅ }]
  relationships :=
    [{ type := "KNOWS", table := "edges", fromLabel := some "Person", toLabel := some "Person",
       fromColumn := "src", toColumn := "dst", keyColumn := none, columns := ∅ },
      { type := "HELPS", table := "edges", fromLabel := some "Person", toLabel := some "Admin",
        fromColumn := "src", toColumn := "dst", keyColumn := some "id", columns := ∅ }]

/-- Witness: with all mappings listed the other way round, the label of the persons still stands for
their own table, and an arrow of any type for the shared one, which fixes a label for its source
alone.
-/
theorem sharedEdges_lookups
    : sharedEdges.fault? = none
      ∧ sharedEdges.nodes.reverse.Perm sharedEdges.nodes
      ∧ sharedEdges.relationships.reverse.Perm sharedEdges.relationships
      ∧ ∃ relisted : Topology,
          relisted.nodes = sharedEdges.nodes.reverse
          ∧ relisted.relationships = sharedEdges.relationships.reverse
          ∧ (∃ mapping,
              sharedEdges.IsFor (.ofList ["Person"]) mapping
              ∧ mapping.table = "persons"
              ∧ relisted.lookupNode (.ofList ["Person"]) = .ok mapping.binding)
          ∧ ∃ binding,
              relisted.lookupRelationship [] ∅ ∅ .right = .ok binding
              ∧ Describes (sharedEdges.Matches [] ∅ ∅ .right) ∅ ∅ .right binding
              ∧ binding.fromLabel = some "Person"
              ∧ binding.toLabel = none := by
  have valid : sharedEdges.fault? = none := by decide +kernel
  have nodes := List.reverse_perm sharedEdges.nodes
  have relationships := List.reverse_perm sharedEdges.relationships
  let relisted : Topology :=
    { sharedEdges with
      nodes := sharedEdges.nodes.reverse
      relationships := sharedEdges.relationships.reverse }
  have lookups := @lookups_of_perm sharedEdges relisted valid nodes relationships
  refine ⟨valid, nodes, relationships, relisted, rfl, rfl, ?_, ?_⟩
  · have persons : sharedEdges.nodes[0] ∈ sharedEdges.nodes := List.getElem_mem _
    have isFor : sharedEdges.IsFor (.ofList ["Person"]) sharedEdges.nodes[0] := ⟨persons, .inl rfl⟩
    exact ⟨_, isFor, rfl, ((lookups.1 _).2.1 _).mpr ⟨_, isFor, rfl⟩⟩
  · have found : relisted.lookupRelationship [] ∅ ∅ .right
        = .ok
          { type := "HELPS|KNOWS"
            table := "edges"
            fromColumn := "src"
            toColumn := "dst"
            keyColumn := "id"
            columns := ∅
            fromLabel := some "Person"
            toLabel := none
            orientation := .forward } := by
      rfl
    exact ⟨_, found, ((lookups.2 _ _ _ _).2.1 _ found).1, rfl, rfl⟩

end Topology

end CypherSql
