import CypherSql.Topology.Lookup

/-! What a lookup finds. The mappings of one relationship table are joined to one candidate, which
may hold a pattern in each way round that one of them may. The labels that it fixes for the ends of
the pattern are among the labels of the ends, where these have any. The table of a node has all
labels that it was looked up by.
-/

namespace CypherSql

/-- Two orientations are one way together only if each of them is that way. -/
theorem Orientation.merge_ne_iff {first second avoided : Orientation} (oneWay : avoided ≠ .either)
    : first.merge second ≠ avoided ↔ first ≠ avoided ∨ second ≠ avoided := by
  cases first <;> cases second <;> cases avoided <;> simp_all [merge]

/-- A candidate may hold a pattern in some way once one more mapping is added, exactly if the
mapping or a candidate could. Witness: induction over the candidates.
-/
theorem exists_addCandidate {mapping : RelationshipMapping} {orientation avoided : Orientation}
    {found : List RelationshipBinding} (oneWay : avoided ≠ .either)
    : (∃ candidate ∈ addCandidate mapping orientation found, candidate.orientation ≠ avoided)
      ↔ orientation ≠ avoided ∨ ∃ candidate ∈ found, candidate.orientation ≠ avoided := by
  induction found with
  | nil => simp [addCandidate, RelationshipMapping.binding]
  | cons candidate rest ih =>
      unfold addCandidate
      split
      · simp only [List.mem_cons, exists_eq_or_imp, RelationshipBinding.join,
          Orientation.merge_ne_iff oneWay]
        rw [or_assoc, or_left_comm]
      · simp only [List.mem_cons, exists_eq_or_imp, ih]
        rw [or_left_comm]

/-- The same for all mappings, by induction over them. -/
theorem exists_foldl_addCandidate {entries : List (RelationshipMapping × Orientation)}
    {avoided : Orientation} {found : List RelationshipBinding} (oneWay : avoided ≠ .either)
    : (∃ candidate ∈ entries.foldl (fun found entry => addCandidate entry.1 entry.2 found) found,
          candidate.orientation ≠ avoided)
      ↔ (∃ entry ∈ entries, entry.2 ≠ avoided)
        ∨ ∃ candidate ∈ found, candidate.orientation ≠ avoided := by
  induction entries generalizing found with
  | nil => simp
  | cons entry rest ih =>
      rw [List.foldl_cons, ih, exists_addCandidate oneWay]
      simp only [List.mem_cons, exists_eq_or_imp]
      rw [or_assoc, or_left_comm]

namespace RelationshipMapping

variable {mapping : RelationshipMapping} {left right : NameSet}

/-- A mapping may hold a pattern without an arrow from left to right if it admits the ends so. -/
theorem exists_orientation_ne_reversed
    : (∃ orientation,
          mapping.orientation? left right .both = some orientation ∧ orientation ≠ .reversed)
      ↔ admits mapping.fromLabel left ∧ admits mapping.toLabel right := by
  rw [← Bool.and_eq_true]
  simp only [orientation?]
  generalize (admits mapping.fromLabel left && admits mapping.toLabel right) = forward
  generalize (admits mapping.fromLabel right && admits mapping.toLabel left) = reversed
  cases forward <;> cases reversed <;> simp

/-- It may hold it from right to left if it admits the ends the other way round. -/
theorem exists_orientation_ne_forward
    : (∃ orientation,
          mapping.orientation? left right .both = some orientation ∧ orientation ≠ .forward)
      ↔ admits mapping.fromLabel right ∧ admits mapping.toLabel left := by
  rw [← Bool.and_eq_true]
  simp only [orientation?]
  generalize (admits mapping.fromLabel left && admits mapping.toLabel right) = forward
  generalize (admits mapping.fromLabel right && admits mapping.toLabel left) = reversed
  cases forward <;> cases reversed <;> simp

end RelationshipMapping

namespace Topology

variable {topology : Topology} {types : List String} {left right : NameSet} {direction : Direction}
  {binding : RelationshipBinding}

/-- Some mapping of the types admits a relationship from nodes of some labels to nodes of others. -/
def Allows (topology : Topology) (types : List String) (source target : NameSet) : Prop :=
  ∃ mapping ∈ topology.relationships,
    (types = [] ∨ mapping.type ∈ types)
    ∧ RelationshipMapping.admits mapping.fromLabel source
    ∧ RelationshipMapping.admits mapping.toLabel target

theorem mem_fitting {mapping : RelationshipMapping} {orientation : Orientation}
    : (mapping, orientation) ∈ topology.fitting types left right direction
      ↔ mapping ∈ topology.relationships
        ∧ (types = [] ∨ mapping.type ∈ types)
        ∧ mapping.orientation? left right direction = some orientation := by
  unfold fitting
  rw [List.mem_filterMap]
  constructor
  · intro listed
    obtain ⟨other, member, fits⟩ := listed
    split at fits
    · rename_i typed
      obtain ⟨own, oriented, same⟩ := Option.map_eq_some_iff.mp fits
      obtain ⟨rfl, rfl⟩ := Prod.mk.inj same
      exact ⟨member, by simpa using typed, oriented⟩
    · cases fits
  · intro fits
    obtain ⟨member, typed, oriented⟩ := fits
    exact ⟨mapping, member, by simp [typed, oriented]⟩

/-- The table that is found may hold the pattern in each way that a mapping may. -/
theorem orientation_ne_iff {avoided : Orientation} (oneWay : avoided ≠ .either)
    (found : topology.lookupRelationship types left right direction = .ok binding)
    : binding.orientation ≠ avoided
      ↔ ∃ mapping ∈ topology.relationships,
          (types = [] ∨ mapping.type ∈ types)
          ∧ ∃ orientation,
              mapping.orientation? left right direction = some orientation
              ∧ orientation ≠ avoided := by
  have only : topology.candidates types left right direction = [binding] := by
    unfold lookupRelationship at found
    split at found <;> simp_all
  have entries : (∃ candidate ∈ topology.candidates types left right direction,
        candidate.orientation ≠ avoided)
      ↔ ∃ entry ∈ topology.fitting types left right direction, entry.2 ≠ avoided := by
    rw [candidates, exists_foldl_addCandidate oneWay]
    simp
  rw [only] at entries
  constructor
  · intro other
    obtain ⟨⟨mapping, orientation⟩, listed, differs⟩ := entries.mp ⟨binding, by simp, other⟩
    obtain ⟨member, typed, oriented⟩ := mem_fitting.mp listed
    exact ⟨mapping, member, typed, orientation, oriented, differs⟩
  · intro fits
    obtain ⟨mapping, member, typed, orientation, oriented, differs⟩ := fits
    obtain ⟨candidate, listed, other⟩ :=
      entries.mpr ⟨(mapping, orientation), mem_fitting.mpr ⟨member, typed, oriented⟩, differs⟩
    rwa [List.mem_singleton.mp listed] at other

/-- A pattern with an arrow is held in the way of its arrow. -/
theorem orientation_of_right
    (found : topology.lookupRelationship types left right .right = .ok binding)
    : binding.orientation = .forward := by
  refine Decidable.byContradiction fun other => ?_
  obtain ⟨mapping, -, -, orientation, oriented, differs⟩ :=
    (orientation_ne_iff (by simp) found).mp other
  simp only [RelationshipMapping.orientation?, Option.ite_none_right_eq_some] at oriented
  exact differs (Option.some.inj oriented.2).symm

theorem orientation_of_left
    (found : topology.lookupRelationship types left right .left = .ok binding)
    : binding.orientation = .reversed := by
  refine Decidable.byContradiction fun other => ?_
  obtain ⟨mapping, -, -, orientation, oriented, differs⟩ :=
    (orientation_ne_iff (by simp) found).mp other
  simp only [RelationshipMapping.orientation?, Option.ite_none_right_eq_some] at oriented
  exact differs (Option.some.inj oriented.2).symm

/-- A pattern without an arrow is held in each way that the labels of its ends allow. -/
theorem orientation_of_both
    (found : topology.lookupRelationship types left right .both = .ok binding)
    : (binding.orientation ≠ .reversed ↔ topology.Allows types left right)
      ∧ (binding.orientation ≠ .forward ↔ topology.Allows types right left) := by
  constructor
  · rw [orientation_ne_iff (by simp) found]
    simp only [RelationshipMapping.exists_orientation_ne_reversed, Allows]
  · rw [orientation_ne_iff (by simp) found]
    simp only [RelationshipMapping.exists_orientation_ne_forward, Allows]

end Topology

/-- The labels that a binding fixes for the ends of a pattern are admitted by the labels of the
ends.
-/
def RelationshipBinding.Admitted (binding : RelationshipBinding) (left right : NameSet) : Prop :=
  RelationshipMapping.admits binding.endpointLabels.1 left
  ∧ RelationshipMapping.admits binding.endpointLabels.2 right

/-- A label that is fixed for a node is one of the labels of the node, if it has any. -/
theorem RelationshipMapping.admits_some {label : String} {labels : NameSet}
    : admits (some label) labels ↔ labels = ∅ ∨ label ∈ labels := by
  have empty : labels.isEmpty ↔ labels = ∅ := by
    obtain ⟨names, ordered⟩ := labels
    cases names with
    | nil => exact ⟨fun _ => rfl, fun _ => rfl⟩
    | cons first rest => exact ⟨nofun, nofun⟩
  simp [admits, empty]

/-- The binding fixes a label for a node, where it is known what stands at the ends of the pattern.
-/
def RelationshipBinding.Fixes {α : Type} (binding : RelationshipBinding) (left right node : α)
    (label : String)
    : Prop :=
  left = node ∧ binding.endpointLabels.1 = some label
  ∨ right = node ∧ binding.endpointLabels.2 = some label

instance {α : Type} [DecidableEq α] (binding : RelationshipBinding) (left right node : α)
    (label : String)
    : Decidable (binding.Fixes left right node label) :=
  inferInstanceAs (Decidable (_ ∨ _))

/-- A label that is admitted and fixed for a node is one of the labels of the node, if it has any.
-/
theorem RelationshipBinding.Admitted.mem_of_fixes {α : Type} {binding : RelationshipBinding}
    {labels : α → NameSet} {left right node : α}
    (admitted : binding.Admitted (labels left) (labels right)) {label : String}
    (fixes : binding.Fixes left right node label)
    : labels node = ∅ ∨ label ∈ labels node := by
  rcases fixes with ⟨rfl, fixed⟩ | ⟨rfl, fixed⟩
  · exact RelationshipMapping.admits_some.mp (fixed ▸ admitted.1)
  · exact RelationshipMapping.admits_some.mp (fixed ▸ admitted.2)

/-- A mapping that can hold a pattern fixes admitted labels. -/
theorem RelationshipMapping.admitted_binding {mapping : RelationshipMapping} {left right : NameSet}
    {direction : Direction} {orientation : Orientation}
    (fits : mapping.orientation? left right direction = some orientation)
    : (mapping.binding orientation).Admitted left right := by
  have either (same : mapping.fromLabel = mapping.toLabel)
      (forward : admits mapping.fromLabel left && admits mapping.toLabel right)
      : (mapping.binding .either).Admitted left right := by
    simpa [RelationshipBinding.Admitted, RelationshipBinding.endpointLabels, binding, same]
      using forward
  have apart (different : mapping.fromLabel ≠ mapping.toLabel)
      : (mapping.binding .either).Admitted left right := by
    simp [RelationshipBinding.Admitted, RelationshipBinding.endpointLabels, binding,
      different, admits]
  have bothWays (forward : admits mapping.fromLabel left && admits mapping.toLabel right)
      : (mapping.binding .either).Admitted left right := by
    by_cases same : mapping.fromLabel = mapping.toLabel
    · exact either same forward
    · exact apart same
  have isForward (forward : admits mapping.fromLabel left && admits mapping.toLabel right)
      : (mapping.binding .forward).Admitted left right := by
    simpa [RelationshipBinding.Admitted, RelationshipBinding.endpointLabels, binding] using forward
  have isReversed (reversed : admits mapping.fromLabel right && admits mapping.toLabel left)
      : (mapping.binding .reversed).Admitted left right := by
    simpa [RelationshipBinding.Admitted, RelationshipBinding.endpointLabels, binding, and_comm]
      using reversed
  cases direction with
  | right =>
      obtain ⟨forward, same⟩ := Option.ite_none_right_eq_some.mp fits
      obtain rfl := Option.some.inj same
      exact isForward forward
  | left =>
      obtain ⟨reversed, same⟩ := Option.ite_none_right_eq_some.mp fits
      obtain rfl := Option.some.inj same
      exact isReversed reversed
  | both =>
      simp only [orientation?] at fits
      split at fits
      · rename_i forward _
        obtain rfl := Option.some.inj fits
        exact bothWays forward
      · rename_i forward _
        obtain rfl := Option.some.inj fits
        exact isForward forward
      · rename_i _ reversed
        obtain rfl := Option.some.inj fits
        exact isReversed reversed
      · cases fits

namespace RelationshipBinding

/-- A binding that knows less of its labels and its orientation fixes no other labels. -/
theorem endpointLabels_of_less {binding less : RelationshipBinding}
    (fromLabel : less.fromLabel = none ∨ less.fromLabel = binding.fromLabel)
    (toLabel : less.toLabel = none ∨ less.toLabel = binding.toLabel)
    (orientation : less.orientation = binding.orientation ∨ less.orientation = .either)
    {label : String}
    : (less.endpointLabels.1 = some label → binding.endpointLabels.1 = some label)
      ∧ (less.endpointLabels.2 = some label → binding.endpointLabels.2 = some label) := by
  unfold endpointLabels
  rcases orientation with same | either
  · rw [same]
    cases binding.orientation <;> grind
  · rw [either]
    cases binding.orientation <;> grind

/-- So one that is joined with another mapping fixes admitted labels. -/
theorem Admitted.join {binding : RelationshipBinding} {left right : NameSet}
    (admitted : binding.Admitted left right) (mapping : RelationshipMapping)
    (orientation : Orientation)
    : (binding.join mapping orientation).Admitted left right := by
  have fromLabel : (binding.join mapping orientation).fromLabel = none
      ∨ (binding.join mapping orientation).fromLabel = binding.fromLabel := by
    by_cases same : binding.fromLabel = mapping.fromLabel <;> simp [RelationshipBinding.join, same]
  have toLabel : (binding.join mapping orientation).toLabel = none
      ∨ (binding.join mapping orientation).toLabel = binding.toLabel := by
    by_cases same : binding.toLabel = mapping.toLabel <;> simp [RelationshipBinding.join, same]
  have merged : (binding.join mapping orientation).orientation = binding.orientation
      ∨ (binding.join mapping orientation).orientation = .either := by
    by_cases same : binding.orientation = orientation <;>
      simp [RelationshipBinding.join, Orientation.merge, same]
  have fixed {label : String} := @endpointLabels_of_less _ _ fromLabel toLabel merged label
  constructor
  · cases own : (binding.join mapping orientation).endpointLabels.1 with
    | none => rfl
    | some label => exact fixed.1 own ▸ admitted.1
  · cases own : (binding.join mapping orientation).endpointLabels.2 with
    | none => rfl
    | some label => exact fixed.2 own ▸ admitted.2

end RelationshipBinding

/-- A candidate with one more mapping fixes admitted labels, by induction over the candidates. -/
theorem admitted_addCandidate {mapping : RelationshipMapping} {orientation : Orientation}
    {left right : NameSet} (own : (mapping.binding orientation).Admitted left right)
    {found : List RelationshipBinding} (each : ∀ candidate ∈ found, candidate.Admitted left right)
    : ∀ candidate ∈ addCandidate mapping orientation found, candidate.Admitted left right := by
  induction found with
  | nil => simpa [addCandidate] using own
  | cons first rest ih =>
      rw [List.forall_mem_cons] at each
      unfold addCandidate
      split
      · exact List.forall_mem_cons.mpr ⟨each.1.join mapping orientation, each.2⟩
      · exact List.forall_mem_cons.mpr ⟨each.1, ih each.2⟩

/-- All candidates fix admitted labels, by induction over the mappings. -/
theorem admitted_foldl_addCandidate {entries : List (RelationshipMapping × Orientation)}
    {left right : NameSet} (own : ∀ entry ∈ entries, (entry.1.binding entry.2).Admitted left right)
    {found : List RelationshipBinding} (each : ∀ candidate ∈ found, candidate.Admitted left right)
    : ∀ candidate ∈ entries.foldl (fun found entry => addCandidate entry.1 entry.2 found) found,
        candidate.Admitted left right := by
  induction entries generalizing found with
  | nil => exact each
  | cons entry rest ih =>
      rw [List.forall_mem_cons] at own
      exact ih own.2 (admitted_addCandidate own.1 each)

namespace Topology

/-- The table that is found for a pattern fixes labels that the ends admit. -/
theorem admitted_of_lookupRelationship {topology : Topology} {types : List String}
    {left right : NameSet} {direction : Direction} {binding : RelationshipBinding}
    (found : topology.lookupRelationship types left right direction = .ok binding)
    : binding.Admitted left right := by
  have listed : binding ∈ topology.candidates types left right direction := by
    unfold lookupRelationship at found
    split at found <;> simp_all
  refine admitted_foldl_addCandidate ?_ (List.forall_mem_nil _) binding listed
  rintro ⟨mapping, orientation⟩ member
  exact RelationshipMapping.admitted_binding (mem_fitting.mp member).2.2

/-- The table that is found for labels has them all. -/
theorem mem_labels_of_lookupNode {topology : Topology} {labels : NameSet} {binding : TableBinding}
    (found : topology.lookupNode labels = .ok binding) {label : String} (member : label ∈ labels)
    : label ∈ binding.labels := by
  have ofMapping {node : NodeMapping}
      (listed : node ∈ topology.nodes.filter fun node => labels.subset node.labels)
      : label ∈ node.binding.labels := by
    have included := (List.mem_filter.mp listed).2
    exact of_decide_eq_true (List.all_eq_true.mp included label member)
  unfold lookupNode at found
  split at found
  · cases found
  · rename_i node only
    obtain rfl := Except.ok.inj found
    exact ofMapping (by simp [only])
  · split at found
    · rename_i node exact'
      obtain rfl := Except.ok.inj found
      exact ofMapping (List.mem_of_find?_eq_some exact')
    · cases found

end Topology

end CypherSql
