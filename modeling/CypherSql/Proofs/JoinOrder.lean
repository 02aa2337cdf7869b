import CypherSql.Proofs.Pipeline

/-! The order in which the sources of a select are joined: none is lost, outer joins come last, and
no join refers to a source after it.
-/

namespace CypherSql.Plan

/-- What an item is known by: its subquery, its clause and its variables. -/
def FromItem.identity (item : FromItem) : Option Nat × Option Nat × List VarId :=
  (item.source, item.clause, item.ids)

/-- The joins of a select are in order, given the scope with its sources before they were arranged.
The items are the same, and supply no variable twice. A subquery is the first item. An item is in an
outer join exactly if its clause is optional; outer joins come last, in the order of their clauses.
What a join refers to is supplied by itself, a join before it or an item of the `FROM`, if it is
supplied at all.
-/
structure Select.JoinsInOrder (vars : VarTable) (before : Scope) (select : Select) : Prop where
  perm : (select.items.map FromItem.identity).Perm (before.select.items.map FromItem.identity)
  suppliedOnce : (select.items.flatMap (·.ids)).Nodup
  subqueryFirst
    : ∀ item ∈ select.items, item.source.isSome → select.fromItems.head? = some item
  outer_iff
    : ∀ item ∈ select.items,
        (∃ join ∈ select.joins, join.item = item ∧ join.outer = true)
        ↔ ∃ position clause,
            item.clause = some position
            ∧ before.clauses[position]? = some clause
            ∧ clause.optional = true
  outerLast
    : select.joins.Pairwise fun first second =>
        first.outer = true
        → second.outer = true
          ∧ ∃ earlier later,
              first.item.clause = some earlier
              ∧ second.item.clause = some later
              ∧ earlier ≤ later
  backed
    : ∀ position join,
        select.joins[position]? = some join
        → ∀ id ∈ join.condition.references,
            (∃ item ∈ select.items, vars.resolve id ∈ item.ids)
            → ∃ item ∈ select.fromItems ++ (select.joins.take (position + 1)).map (·.item),
                vars.resolve id ∈ item.ids

namespace QueryModel

variable {query : QueryModel} {catalog : Catalog} {vars : VarTable} {model : ScopeModel}
  {scope : Scope} {item : FromItem}

/-- An item of an arranged scope is optional exactly if its clause is. -/
theorem Joined.optional_iff (joined : query.Joined catalog model scope)
    (member : item ∈ scope.select.items)
    : item.optional = true
      ↔ ∃ position clause,
          item.clause = some position
          ∧ model.clauses[position]? = some clause
          ∧ clause.optional = true := by
  obtain ⟨source, same, isSource⟩ : ∃ source,
      item.bare = source ∧ IsSource query scope.index model source :=
    ⟨_, rfl, joined.isSource member⟩
  have isOptional : item.optional = source.optional := by
    rw [← same]
    rfl
  have inClause : item.clause = source.clause := by
    rw [← same]
    rfl
  rw [isOptional, inClause]
  cases isSource with
  | subquery => simp [FromItem.ofSubquery]
  | table found =>
      simp only [FromItem.ofTable, Option.some.injEq]
      constructor
      · intro optional
        exact ⟨_, _, rfl, found, optional⟩
      · intro known
        obtain ⟨position, clause, rfl, found', optional⟩ := known
        rwa [Option.some.inj (found.symm.trans found')]

/-- The joins of an arranged scope are in order. -/
theorem Joined.joinsInOrder (joined : query.Joined catalog model scope)
    (found : query.models[scope.index]? = some model) (resolve : vars.resolve = query.vars.resolve)
    : scope.select.JoinsInOrder vars (query.sourced model scope.index) := by
  have isOuter {join : Join} (member : join ∈ scope.select.joins)
      : join.item ∈ scope.select.items ∧ join.outer = join.item.optional :=
    ⟨List.mem_append_right _ (List.mem_map_of_mem member), joined.outer join member⟩
  refine {
    perm := ?_
    suppliedOnce := joined.nodup found
    subqueryFirst := joined.first
    outer_iff := ?_
    outerLast := ?_
    backed := ?_
  }
  · have sources : (query.sourced model scope.index).select.items
        = query.sources scope.index model := by
      simp [Select.items, QueryModel.sourced, ScopeModel.scope, Select.empty]
    rw [sources]
    have perm := joined.perm.map FromItem.identity
    rwa [List.map_map] at perm
  · intro item member
    apply Iff.trans _ (joined.optional_iff member)
    constructor
    · intro joins
      obtain ⟨join, isJoin, rfl, outer⟩ := joins
      rwa [(isOuter isJoin).2] at outer
    · intro optional
      rcases List.mem_append.mp member with inFrom | inJoins
      · rw [joined.required item inFrom] at optional
        cases optional
      · obtain ⟨join, isJoin, rfl⟩ := List.mem_map.mp inJoins
        exact ⟨join, isJoin, rfl, (isOuter isJoin).2.trans optional⟩
  · apply (List.pairwise_map.mp joined.sorted).imp_of_mem
    intro first second inFirst inSecond precedes outer
    rw [(isOuter inFirst).2] at outer
    obtain ⟨optional, ordered⟩ := precedes outer
    obtain ⟨earlier, _, firstClause, -⟩ := (joined.optional_iff (isOuter inFirst).1).mp outer
    obtain ⟨later, _, secondClause, -⟩ := (joined.optional_iff (isOuter inSecond).1).mp optional
    refine ⟨(isOuter inSecond).2.trans optional, earlier, later, firstClause, secondClause, ?_⟩
    simpa [FromItem.clauseNumber, firstClause, secondClause] using ordered
  · rw [resolve]
    exact joined.backed

end QueryModel

/-- Where the joins of a query are arranged, they are in order in every scope. -/
theorem arrangeJoins_in_order {query : Cypher.Query} {catalog : Catalog}
    {start sourced arranged : Draft} (begins : Draft.ofQuery query = .ok start)
    (finds : runSteps catalog Step.findSources.upTo start = .ok sourced)
    (arranges : runSteps catalog Step.arrangeJoins.upTo start = .ok arranged)
    : List.Forall₂ (fun before scope => scope.select.JoinsInOrder arranged.vars before)
        sourced.tree.scopes arranged.tree.scopes := by
  obtain ⟨model, after, -⟩ := (QueryModel.ofQuery_safely query catalog).of_ok begins
  obtain ⟨forwarding, refined, eachLater, -⟩ := after.arranged arranges
  obtain ⟨-, -, each, -⟩ := (after.upTo_safely .findSources (by decide)
    fun step member => forwarding.meets (by revert step; decide)).of_ok finds
  apply (each.forall₂ eachLater).imp
  intro before scope related
  obtain ⟨index, own, found, same, joined, -⟩ := related
  rw [same, ← index]
  exact joined.joinsInOrder (index ▸ found) (funext refined.resolve)

/-- Witness: the joins of a query with a required and an optional clause are arranged in order. -/
theorem twoHops_joins_in_order
    : ∃ start sourced arranged,
        Draft.ofQuery twoHops = .ok start
        ∧ runSteps acquaintances.catalog Step.findSources.upTo start = .ok sourced
        ∧ runSteps acquaintances.catalog Step.arrangeJoins.upTo start = .ok arranged
        ∧ List.Forall₂ (fun before scope => scope.select.JoinsInOrder arranged.vars before)
            sourced.tree.scopes arranged.tree.scopes := by
  have finds : (draftAfter? acquaintances.catalog .findSources twoHops).isSome := by decide +kernel
  have arranges : (draftAfter? acquaintances.catalog .arrangeJoins twoHops).isSome := by
    decide +kernel
  obtain ⟨start, sourced, begins, finds⟩ := exists_of_draftAfter? finds
  obtain ⟨start', arranged, begins', arranges⟩ := exists_of_draftAfter? arranges
  obtain rfl := Except.ok.inj (begins.symm.trans begins')
  exact ⟨start, sourced, arranged, begins, finds, arranges,
    arrangeJoins_in_order begins finds arranges⟩

end CypherSql.Plan
