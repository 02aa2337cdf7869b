import CypherSql.Proofs.Arrangement.Phases
import CypherSql.Proofs.Collection.Links
import CypherSql.Proofs.Pipeline
import CypherSql.Proofs.RelationshipLookup

/-! What the joins of a scope demand of relationships: exactly what the patterns of the scope say
about their ends, in whatever order the sources are joined. Inner joins demand what the pattern of a
required relationship says exactly if no optional clause declares one of its nodes; otherwise part
of it stands in an outer join, which drops no row.
-/

namespace CypherSql.Plan

section Constraints

variable {truth : VarId → String → VarId → Prop}

/-- A relationship runs from one node to another: the from column of its table equals the key of the
first node, and the to column that of the second.
-/
def RunsBetween (truth : VarId → String → VarId → Prop) (relationship : VarId)
    (binding : RelationshipBinding) (source target : VarId)
    : Prop :=
  truth relationship binding.fromColumn source ∧ truth relationship binding.toColumn target

/-- What the pattern of a relationship says about its ends in a table. It runs along its arrow;
without an arrow it runs one way or the other, so far as the labels of its ends allow that way.
-/
def RelationshipVar.Constraint (rel : RelationshipVar) (vars : VarTable) (topology : Topology)
    (truth : VarId → String → VarId → Prop) (id : VarId) (binding : RelationshipBinding)
    : Prop :=
  let left := vars.resolve rel.left
  let right := vars.resolve rel.right
  let leftLabels := endpointLabels vars rel.left
  let rightLabels := endpointLabels vars rel.right
  match rel.direction with
  | .right => RunsBetween truth id binding left right
  | .left => RunsBetween truth id binding right left
  | .both =>
      topology.Allows rel.types leftLabels rightLabels ∧ RunsBetween truth id binding left right
      ∨ topology.Allows rel.types rightLabels leftLabels ∧ RunsBetween truth id binding right left

/-- The variable is a relationship with a table in the topology, and what its pattern says about its
ends is true.
-/
def VarTable.PatternHolds (vars : VarTable) (topology : Topology)
    (truth : VarId → String → VarId → Prop) (id : VarId)
    : Prop :=
  ∃ rel binding,
    vars.relationship? id = some rel
    ∧ topology.lookupRelationship rel.types (endpointLabels vars rel.left)
        (endpointLabels vars rel.right) rel.direction = .ok binding
    ∧ rel.Constraint vars topology truth id binding

/-- What an edge demands, by the way its table holds it. -/
theorem Edge.demands_iff {edge : Edge}
    : edge.Demands truth
      ↔ edge.binding.orientation ≠ .reversed
          ∧ RunsBetween truth edge.relationship edge.binding edge.left edge.right
        ∨ edge.binding.orientation ≠ .forward
          ∧ RunsBetween truth edge.relationship edge.binding edge.right edge.left := by
  unfold Demands columns? RunsBetween EitherWay
  cases edge.binding.orientation <;> simp [and_comm]

namespace QueryModel

variable {query : QueryModel} {topology : Topology} {model : ScopeModel} {rel : RelationshipVar}
  {edge : Edge}

/-- An edge demands what the pattern of its relationship says. -/
theorem IsEdge.demands_iff_constraint (isEdge : query.IsEdge topology.catalog model rel edge)
    : edge.Demands truth
      ↔ rel.Constraint query.vars topology truth edge.relationship edge.binding := by
  have found : topology.lookupRelationship rel.types (endpointLabels query.vars rel.left)
      (endpointLabels query.vars rel.right) rel.direction = .ok edge.binding := isEdge.binding
  rw [Edge.demands_iff, RelationshipVar.Constraint, isEdge.left, isEdge.right]
  cases direction : rel.direction with
  | right =>
      rw [direction] at found
      simp [Topology.orientation_of_right found]
  | left =>
      rw [direction] at found
      simp [Topology.orientation_of_left found]
  | both =>
      rw [direction] at found
      obtain ⟨forward, reversed⟩ := Topology.orientation_of_both found
      rw [forward, reversed]

theorem IsEdge.demands_iff_patternHolds (isEdge : query.IsEdge topology.catalog model rel edge)
    : edge.Demands truth ↔ query.vars.PatternHolds topology truth edge.relationship := by
  rw [isEdge.demands_iff_constraint]
  constructor
  · intro constraint
    exact ⟨rel, edge.binding, isEdge.isRelationship, isEdge.binding, constraint⟩
  · intro holds
    obtain ⟨other, binding, isRelationship, found, constraint⟩ := holds
    obtain rfl := Option.some.inj (isEdge.isRelationship.symm.trans isRelationship)
    obtain rfl := Except.ok.inj (isEdge.binding.symm.trans found)
    exact constraint

/-- The relationships of a scope are those that its clauses declare. -/
theorem mem_relationships {index : Nat} (found : query.models[index]? = some model) {id : VarId}
    : id ∈ model.clauses.flatMap (·.relationships)
      ↔ id ∈ clauseIds model.clauses ∧ (query.vars.relationship? id).isSome := by
  have clauses := (query.collected.inScope found).clauses
  have each {clause : ReadingClause} (member : clause ∈ model.clauses)
      : id ∈ clause.relationships
        ↔ id ∈ clause.ids ∧ (query.vars.relationship? id).isSome := by
    obtain ⟨position, at'⟩ := List.mem_iff_getElem?.mp member
    exact (clauses.each at').relationships id
  rw [clauseIds, List.mem_flatMap, List.mem_flatMap]
  constructor
  · intro listed
    obtain ⟨clause, member, inside⟩ := listed
    obtain ⟨declared, isRelationship⟩ := (each member).mp inside
    exact ⟨⟨clause, member, declared⟩, isRelationship⟩
  · intro known
    obtain ⟨⟨clause, member, declared⟩, isRelationship⟩ := known
    exact ⟨clause, member, (each member).mpr ⟨declared, isRelationship⟩⟩

/-- The joins of an arranged scope demand what the patterns of the scope say. -/
theorem Joined.edgesHold_iff {scope : Scope} (joined : query.Joined topology.catalog model scope)
    (found : query.models[scope.index]? = some model)
    (truth : VarId → String → VarId → Prop)
    : EdgesHold truth scope.select.joins
      ↔ ∀ id ∈ model.clauses.flatMap (·.relationships),
          query.vars.PatternHolds topology truth id := by
  rw [joined.edges truth]
  constructor
  · intro demands id member
    obtain ⟨declared, isRelationship⟩ := (mem_relationships found).mp member
    obtain ⟨rel, isRelationship⟩ := Option.isSome_iff_exists.mp isRelationship
    obtain ⟨edge, rfl, isEdge⟩ := joined.bound id declared rel isRelationship
    exact isEdge.demands_iff_patternHolds.mp (demands rel edge isEdge)
  · intro holds rel edge isEdge
    apply isEdge.demands_iff_patternHolds.mpr
    apply holds
    apply (mem_relationships found).mpr
    exact ⟨isEdge.declared, by simp [isEdge.isRelationship]⟩

end QueryModel

/-- The relationships that the joins of a query are about are those of its patterns, with their
directions, their types and the nodes beside them, clause by clause.
-/
theorem ofQuery_links {query : Cypher.Query} {start : Draft}
    (begins : Draft.ofQuery query = .ok start)
    : List.Forall₂ (ReadingClause.Links start.vars) (start.models.flatMap (·.clauses))
        (matchesOf query.clauses) := by
  obtain ⟨walk, collected, same⟩ := bind_eq_ok.mp begins
  obtain rfl := Except.ok.inj same
  exact collect_links collected

/-- Where the joins of a query are arranged, the conditions on relationships in the joins of each
scope are true together exactly if what the patterns of the scope say about each relationship is.
-/
theorem arrangeJoins_edgesHold_iff {topology : Topology} {query : Cypher.Query}
    {start arranged : Draft} (begins : Draft.ofQuery query = .ok start)
    (arranges : runSteps topology.catalog Step.arrangeJoins.upTo start = .ok arranged)
    : List.Forall₂
        (fun model scope =>
          ∀ truth,
            EdgesHold truth scope.select.joins
            ↔ ∀ id ∈ model.clauses.flatMap (·.relationships),
                start.vars.PatternHolds topology truth id)
        start.models arranged.tree.scopes := by
  obtain ⟨model, after, -⟩ := (QueryModel.ofQuery_safely query topology.catalog).of_ok begins
  obtain ⟨-, -, each, -⟩ := after.arranged arranges
  obtain ⟨-, models, vars⟩ := after
  rw [models, vars]
  apply each.forall₂_models.imp
  intro own scope related truth
  obtain ⟨found, joined, -⟩ := related
  exact joined.edgesHold_iff found truth

/-- Witness: the joins of a query with and without an arrow demand what its patterns say. -/
theorem twoHops_edgesHold_iff
    : ∃ start arranged,
        Draft.ofQuery twoHops = .ok start
        ∧ runSteps acquaintances.catalog Step.arrangeJoins.upTo start = .ok arranged
        ∧ List.Forall₂
            (fun model scope =>
              ∀ truth,
                EdgesHold truth scope.select.joins
                ↔ ∀ id ∈ model.clauses.flatMap (·.relationships),
                    start.vars.PatternHolds acquaintances truth id)
            start.models arranged.tree.scopes := by
  have reached : (draftAfter? acquaintances.catalog .arrangeJoins twoHops).isSome := by
    decide +kernel
  obtain ⟨start, arranged, begins, arranges⟩ := exists_of_draftAfter? reached
  exact ⟨start, arranged, begins, arranges, arrangeJoins_edgesHold_iff begins arranges⟩

end Constraints

/-- A condition of the join comes from the pattern of the relationship. -/
def Join.Constrains (join : Join) (relationship : VarId) : Prop :=
  ∃ condition ∈ join.edgeConditions, relationship ∈ condition.references
  deriving Decidable

/-- No optional clause of the scope declares a node of the relationship. -/
def ScopeModel.RequiresEnds (model : ScopeModel) (vars : VarTable) (rel : RelationshipVar) : Prop :=
  ∀ clause ∈ model.clauses,
    clause.optional = true
    → vars.resolve rel.left ∉ clause.ids ∧ vars.resolve rel.right ∉ clause.ids

namespace QueryModel

variable {query : QueryModel} {catalog : Catalog} {topology : Topology} {index : Nat}
  {model : ScopeModel} {items : List FromItem} {rel : RelationshipVar} {edge : Edge} {id : VarId}

/-- No variable is supplied by two items of a scope. -/
theorem Items.nodup (all : query.Items index model items)
    (found : query.models[index]? = some model)
    : (items.flatMap (·.ids)).Nodup := by
  have sources := nodup_sources found
  rwa [← all.map_bare, List.flatMap_map] at sources

/-- What is supplied comes from a required item exactly if no optional clause declares it. -/
theorem Items.suppliedRequired_iff (all : query.Items index model items)
    (found : query.models[index]? = some model) (isSupplied : ∃ item ∈ items, id ∈ item.ids)
    : SuppliedRequired items id
      ↔ ∀ clause ∈ model.clauses, clause.optional = true → id ∉ clause.ids := by
  constructor
  · intro isRequired clause listed isOptional declared
    obtain ⟨item, member, notOptional, supplies⟩ := isRequired
    obtain ⟨position, at'⟩ := List.mem_iff_getElem?.mp listed
    obtain ⟨other, inItems, -, alsoSupplies, -, same⟩ := all.declared at' declared
    obtain rfl := eq_of_supplies (all.nodup found) member inItems supplies alsoSupplies
    simp [notOptional, isOptional] at same
  · intro undeclared
    obtain ⟨item, member, supplies⟩ := isSupplied
    refine ⟨item, member, ?_, supplies⟩
    rcases (all.placeable member).subquery_or_table with
      ⟨_, -, -, -, isRequired, -⟩ | ⟨position, clause, other, at', declared, -, ids, -, same⟩
    · exact isRequired
    · rw [ids, List.mem_singleton] at supplies
      subst supplies
      rw [same]
      apply Bool.eq_false_iff.mpr
      intro isOptional
      exact undeclared clause (List.mem_of_getElem? at') isOptional declared

/-- The nodes of an edge come from required items exactly if no optional clause declares them. -/
theorem IsEdge.suppliedRequired_iff (isEdge : query.IsEdge catalog model rel edge)
    (all : query.Items index model items) (found : query.models[index]? = some model)
    : SuppliedRequired items edge.left ∧ SuppliedRequired items edge.right
      ↔ model.RequiresEnds query.vars rel := by
  obtain ⟨-, left, right⟩ := isEdge.supplied all found
  rw [all.suppliedRequired_iff found left, all.suppliedRequired_iff found right,
    ScopeModel.RequiresEnds, isEdge.left, isEdge.right]
  constructor
  · intro ends clause listed isOptional
    exact ⟨ends.1 clause listed isOptional, ends.2 clause listed isOptional⟩
  · intro ends
    exact ⟨fun clause listed isOptional => (ends clause listed isOptional).1,
      fun clause listed isOptional => (ends clause listed isOptional).2⟩

/-- A relationship is no end of an edge. -/
theorem IsEdge.ends_ne {other : RelationshipVar} (isEdge : query.IsEdge catalog model rel edge)
    (isRelationship : query.vars.relationship? id = some other)
    : edge.left ≠ id ∧ edge.right ≠ id := by
  obtain ⟨⟨left, leftNode⟩, ⟨right, rightNode⟩⟩ := isEdge.nodes
  have different {node : VarId} {definition : NodeVar}
      (isNode : query.vars.node? node = some definition)
      : node ≠ id := by
    rintro rfl
    have kind := VarTable.relationship?_eq_some.mp isRelationship
    simp [VarTable.node?_eq_some.mp isNode] at kind
  exact ⟨different leftNode, different rightNode⟩

/-- A relationship has one edge. -/
theorem IsEdge.unique {other : Edge} {otherRel : RelationshipVar}
    (isEdge : query.IsEdge catalog model rel edge)
    (isOther : query.IsEdge catalog model otherRel other)
    (same : other.relationship = edge.relationship)
    : other = edge := by
  have sameRel := isOther.isRelationship
  rw [same, isEdge.isRelationship] at sameRel
  obtain rfl := Option.some.inj sameRel
  have sameBinding := Except.ok.inj (isOther.binding.symm.trans isEdge.binding)
  have sameLeft := isOther.left.symm.trans isEdge.left
  have sameRight := isOther.right.symm.trans isEdge.right
  cases edge
  cases other
  simp_all

/-- What a required relationship demands in an arranged scope stays required exactly if no optional
clause declares one of its nodes.
-/
theorem Joined.required_iff {scope : Scope} (joined : query.Joined topology.catalog model scope)
    (found : query.models[scope.index]? = some model) {clause : ReadingClause}
    (listed : clause ∈ model.clauses) (isRequired : clause.optional = false)
    (member : id ∈ clause.relationships)
    : ∃ rel,
        query.vars.relationship? id = some rel
        ∧ ((∀ join ∈ scope.select.joins, join.Constrains id → join.outer = false)
            ↔ model.RequiresEnds query.vars rel)
        ∧ ((∀ truth,
              EdgesHold truth (scope.select.joins.filter (!·.outer))
              → query.vars.PatternHolds topology truth id)
            ↔ model.RequiresEnds query.vars rel) := by
  obtain ⟨position, at'⟩ := List.mem_iff_getElem?.mp listed
  have clauses := (query.collected.inScope found).clauses
  obtain ⟨declared, isRelationship⟩ := ((clauses.each at').relationships id).mp member
  obtain ⟨rel, isRelationship⟩ := Option.isSome_iff_exists.mp isRelationship
  have inClauses : id ∈ clauseIds model.clauses := List.mem_flatMap.mpr ⟨clause, listed, declared⟩
  obtain ⟨edge, rfl, isEdge⟩ := joined.bound id inClauses rel isRelationship
  obtain ⟨vars, items, edges, order, layout, all, arranged, joins, isEdges⟩ := joined.arrangement
  obtain ⟨required, optional, middle, between⟩ := arranged.exists_between
  have inEdges : edge ∈ edges := (isEdges edge).mpr ⟨rel, isEdge⟩
  obtain ⟨-, left, right⟩ := isEdge.supplied all found
  -- The item of the relationship is that of its clause, which is not optional.
  have supplied : SuppliedRequired items edge.relationship := by
    obtain ⟨item, inItems, -, supplies, -, same⟩ := all.declared at' declared
    exact ⟨item, inItems, same.trans isRequired, supplies⟩
  refine ⟨rel, isRelationship, ?_, ?_⟩
  · rw [← isEdge.suppliedRequired_iff all found, ← between.outer_free_iff (all.nodup found)
      (fun other inside => by
        obtain ⟨otherRel, isOther⟩ := (isEdges other).mp inside
        exact isOther.ends_ne isRelationship)
      (fun other inside same => by
        obtain ⟨otherRel, isOther⟩ := (isEdges other).mp inside
        exact isEdge.unique isOther same)
      inEdges supplied left right, joins]
    constructor
    · intro inner join isJoin isOuter condition written refers
      have notOuter := inner join isJoin ⟨condition, written, refers⟩
      simp [isOuter] at notOuter
    · intro free join isJoin constrains
      obtain ⟨condition, written, refers⟩ := constrains
      apply Bool.eq_false_iff.mpr
      intro isOuter
      exact free join isJoin isOuter condition written refers
  · rw [← isEdge.suppliedRequired_iff all found, joins, ← between.inner_demands_iff
      (fun other inside item inItems => by
        obtain ⟨otherRel, isOther⟩ := (isEdges other).mp inside
        exact isOther.apart all found inItems)
      inEdges supplied]
    simp only [isEdge.demands_iff_patternHolds]

end QueryModel

/-- Where the joins of a query are arranged, a relationship that a required clause declares is
constrained by inner joins only, and they demand what its pattern says, exactly if no optional
clause of the scope declares one of its nodes.
-/
theorem arrangeJoins_required_iff {topology : Topology} {query : Cypher.Query}
    {start arranged : Draft} (begins : Draft.ofQuery query = .ok start)
    (arranges : runSteps topology.catalog Step.arrangeJoins.upTo start = .ok arranged)
    : List.Forall₂
        (fun model scope =>
          ∀ clause ∈ model.clauses,
            clause.optional = false
            → ∀ id ∈ clause.relationships,
                ∃ rel,
                  start.vars.relationship? id = some rel
                  ∧ ((∀ join ∈ scope.select.joins, join.Constrains id → join.outer = false)
                      ↔ model.RequiresEnds start.vars rel)
                  ∧ ((∀ truth,
                        EdgesHold truth (scope.select.joins.filter (!·.outer))
                        → start.vars.PatternHolds topology truth id)
                      ↔ model.RequiresEnds start.vars rel))
        start.models arranged.tree.scopes := by
  obtain ⟨model, after, -⟩ := (QueryModel.ofQuery_safely query topology.catalog).of_ok begins
  obtain ⟨-, -, each, -⟩ := after.arranged arranges
  obtain ⟨-, models, vars⟩ := after
  rw [models, vars]
  apply each.forall₂_models.imp
  intro own scope related clause listed isRequired id member
  obtain ⟨found, joined, -⟩ := related
  exact joined.required_iff found listed isRequired member

/-- Witness: an optional clause behind a required one leaves its relationship required. -/
theorem twoHops_required_iff
    : ∃ start arranged,
        Draft.ofQuery twoHops = .ok start
        ∧ runSteps acquaintances.catalog Step.arrangeJoins.upTo start = .ok arranged
        ∧ List.Forall₂
            (fun model scope =>
              ∀ clause ∈ model.clauses,
                clause.optional = false
                → ∀ id ∈ clause.relationships,
                    ∃ rel,
                      start.vars.relationship? id = some rel
                      ∧ ((∀ join ∈ scope.select.joins, join.Constrains id → join.outer = false)
                          ↔ model.RequiresEnds start.vars rel)
                      ∧ ((∀ truth,
                            EdgesHold truth (scope.select.joins.filter (!·.outer))
                            → start.vars.PatternHolds acquaintances truth id)
                          ↔ model.RequiresEnds start.vars rel))
            start.models arranged.tree.scopes := by
  have reached : (draftAfter? acquaintances.catalog .arrangeJoins twoHops).isSome := by
    decide +kernel
  obtain ⟨start, arranged, begins, arranges⟩ := exists_of_draftAfter? reached
  exact ⟨start, arranged, begins, arranges, arrangeJoins_required_iff begins arranges⟩

/-- The query `MATCH (a) OPTIONAL MATCH (b) MATCH (a)-[r]->(b) RETURN a`. -/
def optionalEnd : Cypher.Query where
  clauses :=
    [.matching ⟨false, [⟨none, ⟨some "a", [], none⟩, []⟩], none⟩,
      .matching ⟨true, [⟨none, ⟨some "b", [], none⟩, []⟩], none⟩,
      .matching
        ⟨false,
          [⟨none, ⟨some "a", [], none⟩,
            [(⟨some "r", .right, [], none, none⟩, ⟨some "b", [], none⟩)]⟩],
          none⟩,
      .returnItems ⟨false, [⟨.var "a", none, "a"⟩], [], none, none⟩]

/-- Counterexample: a relationship that a required clause declares behind an optional one is
constrained by an outer join.
-/
theorem optionalEnd_constrained_by_outer
    : ∃ start arranged,
        Draft.ofQuery optionalEnd = .ok start
        ∧ runSteps acquaintances.catalog Step.arrangeJoins.upTo start = .ok arranged
        ∧ ∃ model ∈ start.models,
            ∃ scope ∈ arranged.tree.scopes,
              ∃ clause ∈ model.clauses,
                clause.optional = false
                ∧ ∃ id ∈ clause.relationships,
                    ∃ join ∈ scope.select.joins, join.outer = true ∧ join.Constrains id := by
  have reached : ((Draft.ofQuery optionalEnd).toOption.any fun start =>
      (runSteps acquaintances.catalog Step.arrangeJoins.upTo start).toOption.any fun arranged =>
        decide (∃ model ∈ start.models,
          ∃ scope ∈ arranged.tree.scopes,
            ∃ clause ∈ model.clauses,
              clause.optional = false
              ∧ ∃ id ∈ clause.relationships,
                  ∃ join ∈ scope.select.joins, join.outer = true ∧ join.Constrains id)) = true := by
    decide +kernel
  obtain ⟨start, begins, reached⟩ := (Option.any_eq_true _ _).mp reached
  obtain ⟨arranged, arranges, constrained⟩ := (Option.any_eq_true _ _).mp reached
  refine ⟨start, arranged, toOption_eq_some.mp begins, toOption_eq_some.mp arranges, ?_⟩
  exact of_decide_eq_true constrained

end CypherSql.Plan
