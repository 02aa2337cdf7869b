import CypherSql.Proofs.Arrangement.Conditions
import CypherSql.Topology.Lookup

/-! Relationship patterns that are read from their other end, `(a)-[r]->(b)` as `(b)<-[r]-(a)`. The
lookup finds the same table the other way round, so each node meets the same column.
-/

namespace CypherSql

namespace Orientation

theorem flip_inj {first second : Orientation} : first.flip = second.flip ↔ first = second := by
  cases first <;> cases second <;> decide

/-- What two orientations have in common is the same from the other end. -/
theorem merge_flip (first second : Orientation)
    : first.flip.merge second.flip = (first.merge second).flip := by
  unfold merge
  simp only [flip_inj]
  split <;> rfl

end Orientation

namespace RelationshipBinding

/-- The same table for the pattern that is read from its other end. -/
def flip (binding : RelationshipBinding) : RelationshipBinding :=
  { binding with orientation := binding.orientation.flip }

/-- The labels that a binding fixes for the ends change places with the ends. Where they fit both
ways, they are the same label or none.
-/
theorem endpointLabels_flip (binding : RelationshipBinding)
    : binding.flip.endpointLabels = binding.endpointLabels.swap := by
  cases orientation : binding.orientation with
  | forward => simp [endpointLabels, flip, Orientation.flip, orientation]
  | reversed => simp [endpointLabels, flip, Orientation.flip, orientation]
  | either =>
      by_cases same : binding.fromLabel = binding.toLabel <;>
        simp [endpointLabels, flip, Orientation.flip, orientation, same]

theorem join_flip (binding : RelationshipBinding) (mapping : RelationshipMapping)
    (orientation : Orientation)
    : binding.flip.join mapping orientation.flip = (binding.join mapping orientation).flip := by
  unfold join flip
  rw [Orientation.merge_flip]

end RelationshipBinding

/-- A mapping can hold a pattern exactly if it can hold it from the other end, the other way round.
-/
theorem RelationshipMapping.orientation?_reversed (mapping : RelationshipMapping)
    (left right : NameSet) (direction : Direction)
    : mapping.orientation? right left direction.reversed
      = (mapping.orientation? left right direction).map Orientation.flip := by
  simp only [orientation?]
  generalize (admits mapping.fromLabel left && admits mapping.toLabel right) = forward
  generalize (admits mapping.fromLabel right && admits mapping.toLabel left) = backward
  cases direction <;> cases forward <;> cases backward <;> rfl

/-- Whether a mapping is joined to a candidate depends on the table alone. Induction over the
candidates.
-/
theorem addCandidate_flip (mapping : RelationshipMapping) (orientation : Orientation)
    (found : List RelationshipBinding)
    : addCandidate mapping orientation.flip (found.map .flip)
      = (addCandidate mapping orientation found).map .flip := by
  induction found with
  | nil => rfl
  | cons candidate rest ih =>
      have shares : candidate.flip.sharesTable mapping = candidate.sharesTable mapping := rfl
      rw [List.map_cons, addCandidate, addCandidate, shares]
      split
      · rw [List.map_cons, RelationshipBinding.join_flip]
      · rw [List.map_cons, ih]

/-- The candidates of all mappings, by induction over them. -/
theorem foldl_addCandidate_flip (entries : List (RelationshipMapping × Orientation))
    (found : List RelationshipBinding)
    : (entries.map (Prod.map id Orientation.flip)).foldl
          (fun found entry => addCandidate entry.1 entry.2 found) (found.map .flip)
      = (entries.foldl (fun found entry => addCandidate entry.1 entry.2 found) found).map
        .flip := by
  induction entries generalizing found with
  | nil => rfl
  | cons entry rest ih =>
      rw [List.map_cons, List.foldl_cons, List.foldl_cons, Prod.map_fst, Prod.map_snd, id_eq,
        addCandidate_flip, ih]

namespace TopologyError

/-- The same error about a pattern that is read from its other end. -/
def swapEnds : TopologyError → TopologyError
  | .unknownRelationship types left right => .unknownRelationship types right left
  | .ambiguousRelationship types left right tables =>
      .ambiguousRelationship types right left tables
  | other => other

end TopologyError

namespace Topology

variable (topology : Topology) (types : List String) (left right : NameSet) (direction : Direction)

theorem fitting_reversed
    : topology.fitting types right left direction.reversed
      = (topology.fitting types left right direction).map (Prod.map id Orientation.flip) := by
  rw [fitting, fitting, List.map_filterMap]
  congr 1
  funext mapping
  split
  · rw [mapping.orientation?_reversed left right, Option.map_map, Option.map_map]
    rfl
  · rfl

theorem candidates_reversed
    : topology.candidates types right left direction.reversed
      = (topology.candidates types left right direction).map .flip := by
  rw [candidates, fitting_reversed]
  exact foldl_addCandidate_flip _ []

/-- A pattern that is read from its other end has the same table the other way round, or the same
error with its ends exchanged.
-/
theorem lookupRelationship_reversed
    : topology.lookupRelationship types right left direction.reversed
      = ((topology.lookupRelationship types left right direction).map
          RelationshipBinding.flip).mapError TopologyError.swapEnds := by
  rw [lookupRelationship, lookupRelationship, candidates_reversed]
  cases topology.candidates types left right direction with
  | nil => rfl
  | cons first rest =>
      cases rest with
      | nil => rfl
      | cons second others =>
          have tables : (others.map RelationshipBinding.flip).map (·.table)
              = others.map (·.table) := by
            rw [List.map_map]
            rfl
          simp only [List.map_cons, tables]
          rfl

end Topology

namespace Plan.Edge

variable {edge : Edge} {truth : VarId → String → VarId → Prop} {placed : NameSet}
  {new : List VarId}

/-- The relationship with its nodes as a pattern has them that is read from its other end. -/
def reversed (edge : Edge) : Edge :=
  { relationship := edge.relationship
    left := edge.right
    right := edge.left
    binding := edge.binding.flip }

/-- The columns change places with the nodes, so each node keeps its own. -/
theorem columns?_reversed (edge : Edge) : edge.reversed.columns? = edge.columns?.map Prod.swap := by
  unfold columns? reversed RelationshipBinding.flip
  cases edge.binding.orientation <;> rfl

theorem eitherWay_reversed : edge.reversed.EitherWay truth ↔ edge.EitherWay truth := by
  unfold EitherWay reversed RelationshipBinding.flip
  rw [or_comm, and_comm (a := truth _ _ edge.right), and_comm (a := truth _ _ edge.right)]

/-- Whatever is placed next, the conditions that are written say the same of the nodes. -/
theorem forall_conditions_reversed
    : (∀ condition ∈ edge.reversed.conditions placed new, condition.Holds truth)
      ↔ ∀ condition ∈ edge.conditions placed new, condition.Holds truth := by
  cases columns : edge.columns? with
  | some entry =>
      obtain ⟨leftColumn, rightColumn⟩ := entry
      have swapped : edge.reversed.columns? = some (rightColumn, leftColumn) := by
        rw [columns?_reversed, columns]
        rfl
      rw [forall_conditions_of_columns columns, forall_conditions_of_columns swapped]
      exact imp_congr_right fun _ => and_comm
  | none =>
      have swapped : edge.reversed.columns? = none := by
        rw [columns?_reversed, columns]
        rfl
      rw [forall_conditions_of_no_columns columns, forall_conditions_of_no_columns swapped,
        eitherWay_reversed]
      have ends {node : VarId} : edge.reversed.EitherEnd truth node ↔ edge.EitherEnd truth node :=
        Iff.rfl
      simp only [ends]
      simp only [reversed]
      grind

end Plan.Edge

/-- Reading a pattern from its other end means the same edge. The lookup succeeds for both or fails
for both: with the same binding the other way round, or with the same error and its ends exchanged.
The labels that the binding fixes change places with the ends, and so do the columns. So whichever
end is written first, the conditions on the relationship equate the same columns with the same
nodes.
-/
theorem reversedPattern_same_edge (topology : Topology) (types : List String) (left right : NameSet)
    (direction : Direction)
    : topology.lookupRelationship types right left direction.reversed
        = ((topology.lookupRelationship types left right direction).map
            RelationshipBinding.flip).mapError TopologyError.swapEnds
      ∧ (∀ binding : RelationshipBinding,
          binding.flip.endpointLabels = binding.endpointLabels.swap)
      ∧ ∀ edge : Plan.Edge,
          edge.reversed.columns? = edge.columns?.map Prod.swap
          ∧ ∀ truth placed new,
              (∀ condition ∈ edge.reversed.conditions placed new, condition.Holds truth)
              ↔ ∀ condition ∈ edge.conditions placed new, condition.Holds truth := by
  refine ⟨topology.lookupRelationship_reversed types left right direction,
    RelationshipBinding.endpointLabels_flip, fun edge => ⟨edge.columns?_reversed, ?_⟩⟩
  intro truth placed new
  exact Plan.Edge.forall_conditions_reversed

end CypherSql
